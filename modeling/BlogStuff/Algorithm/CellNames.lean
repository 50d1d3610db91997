import BlogStuff.Numeral.Bijective
import BlogStuff.Python.ByteStr

/-!
# BlogStuff.Algorithm.CellNames

`1b.py`: the two names of a spreadsheet cell, `BC23` and `R23C55`, and their conversion.

The column letters are a numeral of base 26 without zero. `convert_to_type2` reads it as any
positional numeral; the loop of `convert_to_type1` takes a multiple of 26 for the digit `Z`
and borrows the 26 (`columnLetters_value`). Which of the two names a text is shows behind its
first run of letters: only the second has another letter there.

The program is Python 2, so `/` is the division of integers and the letters are ASCII.
-/

namespace BlogStuff.Algorithm

open BlogStuff.Numeral BlogStuff.Python

/-! ### The program -/

/-- `int(s)` of a byte string: blanks around it, a sign and digits. -/
def intOf (s : Str) : Option Int :=
  let s := stripChars isBlank s
  let digits := if s.head? = some '-' ∨ s.head? = some '+' then s.drop 1 else s
  if digits ≠ [] ∧ digits.all Char.isDigit then
    let n : Int := Nat.ofDigitChars 10 digits 0
    some (if s.head? = some '-' then -n else n)
  else none

/-- The second loop of `convert_to_type1`. -/
def columnLetters (col : Nat) (colResult : Str) : Str :=
  if col = 0 then colResult
  else if col % 26 = 0 then columnLetters ((col - 26) / 26) ('Z' :: colResult)
  else columnLetters (col / 26) (Char.ofNat ('A'.toNat + col % 26 - 1) :: colResult)
  termination_by col

/-- `convert_to_type1(s)`: the row between the first letter and the next `C`, and the column behind
it as letters. -/
def convertToType1 (s : Str) : Option Str :=
  -- `i = 1`, then on to the next `C`; without one the index runs out of the text
  match (s.drop 1).dropWhile (· != 'C') with
  | [] => none
  | _ :: digits => do
      let row := (s.drop 1).takeWhile (· != 'C')
      let col ← intOf digits
      -- divided by 26 a negative number stays negative, and the loop does not end
      if col < 0 then none else return columnLetters col.toNat [] ++ row

/-- The second loop of `convert_to_type2`. -/
def columnNumber (col : Str) : Nat :=
  col.foldl (fun colResult c => colResult * 26 + (c.toNat - 'A'.toNat + 1)) 0

/-- `convert_to_type2(s)`. A text of letters alone is read behind its end. -/
def convertToType2 (s : Str) : Option Str :=
  let col := s.takeWhile Char.isAlpha
  let row := s.dropWhile Char.isAlpha
  if row = [] then none
  else some ("R".toList ++ row ++ "C".toList ++ Nat.toDigits 10 (columnNumber col))

/-- `determine_type(s)`. -/
def determineType (s : Str) : Option Nat :=
  let rest := s.dropWhile Char.isAlpha
  if rest = [] then none else some (if rest.any Char.isAlpha then 2 else 1)

/-- `convert(s)`. -/
def convert (s : Str) : Option Str := do
  let type ← determineType s
  if 1 = type then convertToType2 s else convertToType1 s

example : convert "BC23".toList = some "R23C55".toList := by decide +kernel
example : convert "R23C55".toList = some "BC23".toList := by decide +kernel

/-! ### Columns and rows -/

/-- Column letters. -/
def IsColumn (s : Str) : Prop := s ≠ [] ∧ ∀ c ∈ s, 'A' ≤ c ∧ c ≤ 'Z'

/-- A row number, as text. -/
def IsRow (s : Str) : Prop := s ≠ [] ∧ ∀ c ∈ s, c.isDigit = true

/-- The capital letters as digits. -/
def capitals : Alphabet Char where
  base := 26
  digit c := c.toNat - 64
  letter d := Char.ofNat (64 + d)
  base_pos := by decide
  digit_letter d h1 h26 := by interval_cases d <;> rfl
  digit_lt a a' h1 hlt := by
    have hcode : a.toNat < a'.toNat := hlt
    omega

theorem isCapital_iff {c : Char} :
    ('A' ≤ c ∧ c ≤ 'Z') ↔ 1 ≤ capitals.digit c ∧ capitals.digit c ≤ capitals.base := by
  have hA : 'A' ≤ c ↔ 65 ≤ c.toNat := Iff.rfl
  have hZ : c ≤ 'Z' ↔ c.toNat ≤ 90 := Iff.rfl
  rw [hA, hZ]
  show _ ↔ 1 ≤ c.toNat - 64 ∧ c.toNat - 64 ≤ 26
  omega

theorem isColumn_iff {s : Str} : IsColumn s ↔ s ≠ [] ∧ capitals.IsNumeral s := by
  simp only [IsColumn, Alphabet.IsNumeral, isCapital_iff]

theorem columnNumber_eq {s : Str} (hs : capitals.IsNumeral s) : columnNumber s = capitals.value s := by
  induction s using List.reverseRecOn with
  | nil => rfl
  | append_singleton s c ih =>
      obtain ⟨hs, hc⟩ := Alphabet.isNumeral_append.mp hs
      have hdigit : 1 ≤ c.toNat - 64 := (hc c (List.mem_singleton_self c)).1
      have hstep : columnNumber (s ++ [c]) = columnNumber s * 26 + (c.toNat - 65 + 1) := by
        simp [columnNumber]
      have hcode : c.toNat - 65 + 1 = capitals.digit c := by
        show c.toNat - 65 + 1 = c.toNat - 64
        omega
      rw [hstep, ih hs, Alphabet.value_concat, hcode]
      rfl

/-- **The loop writes the numeral of the number.** The digit `Z` is a remainder of 0 with 26
borrowed from the rest. -/
theorem columnLetters_value {s : Str} (hs : capitals.IsNumeral s) (colResult : Str) :
    columnLetters (capitals.value s) colResult = s ++ colResult := by
  induction s using List.reverseRecOn generalizing colResult with
  | nil => simp [columnLetters]
  | append_singleton s c ih =>
      obtain ⟨hs, hc⟩ := Alphabet.isNumeral_append.mp hs
      obtain ⟨h1, h26⟩ : 1 ≤ c.toNat - 64 ∧ c.toNat - 64 ≤ 26 := hc c (List.mem_singleton_self c)
      have hvalue : capitals.value (s ++ [c]) = capitals.value s * 26 + (c.toNat - 64) :=
        Alphabet.value_concat s c
      rw [hvalue, columnLetters, if_neg (by omega)]
      split_ifs with hZ
      · have hc : c = 'Z' := by
          rw [← Char.ofNat_toNat c, show c.toNat = 90 by omega]
        have hrest : (capitals.value s * 26 + (c.toNat - 64) - 26) / 26 = capitals.value s := by omega
        rw [hrest, ih hs, hc, List.append_assoc]
        rfl
      · have hcode : 'A'.toNat + (capitals.value s * 26 + (c.toNat - 64)) % 26 - 1 = c.toNat := by
          have hA : 'A'.toNat = 65 := rfl
          omega
        have hrest : (capitals.value s * 26 + (c.toNat - 64)) / 26 = capitals.value s := by omega
        rw [hrest, ih hs, hcode, Char.ofNat_toNat, List.append_assoc]
        rfl

/-! ### Reading a name -/

theorem isAlpha_of_isCapital {c : Char} (h : 'A' ≤ c ∧ c ≤ 'Z') : c.isAlpha = true := by
  rw [isAlpha_iff]
  exact .inl h

theorem not_isAlpha_of_isDigit {c : Char} (h : c.isDigit = true) : c.isAlpha = false := by
  rw [← Bool.not_eq_true, isAlpha_iff]
  rw [isDigit_iff] at h
  omega

theorem span_append {p : Char → Bool} {a : Str} {c : Char} {b : Str} (ha : ∀ x ∈ a, p x = true)
    (hc : p c = false) :
    (a ++ c :: b).takeWhile p = a ∧ (a ++ c :: b).dropWhile p = c :: b := by
  rw [List.takeWhile_append_of_pos ha, List.dropWhile_append_of_pos ha]
  simp [hc]

/-- The name of the second kind. -/
def rcName (row : Str) (col : Nat) : Str :=
  "R".toList ++ row ++ "C".toList ++ Nat.toDigits 10 col

section

variable {col row : Str}

/-- Behind the letters of a name of the first kind there are only digits. -/
theorem span_isAlpha (hcol : IsColumn col) (hrow : IsRow row) :
    (col ++ row).takeWhile Char.isAlpha = col ∧ (col ++ row).dropWhile Char.isAlpha = row := by
  obtain ⟨d, rest, rfl⟩ := List.exists_cons_of_ne_nil hrow.1
  exact span_append (fun c hc => isAlpha_of_isCapital (hcol.2 c hc))
    (not_isAlpha_of_isDigit (hrow.2 d List.mem_cons_self))

theorem determineType_first (hcol : IsColumn col) (hrow : IsRow row) :
    determineType (col ++ row) = some 1 := by
  have hany : row.any Char.isAlpha = false := by
    simp only [List.any_eq_false]
    exact fun c hc => by simp [not_isAlpha_of_isDigit (hrow.2 c hc)]
  simp [determineType, (span_isAlpha hcol hrow).2, hrow.1, hany]

theorem determineType_second (hrow : IsRow row) (c : Nat) :
    determineType (rcName row c) = some 2 := by
  obtain ⟨d, rest, rfl⟩ := List.exists_cons_of_ne_nil hrow.1
  have hname : rcName (d :: rest) c = ['R'] ++ d :: (rest ++ 'C' :: Nat.toDigits 10 c) := by
    simp [rcName]
  have hspan := span_append (p := Char.isAlpha) (a := ['R'])
    (b := rest ++ 'C' :: Nat.toDigits 10 c) (by simp)
    (not_isAlpha_of_isDigit (hrow.2 d List.mem_cons_self))
  have hany : (d :: (rest ++ 'C' :: Nat.toDigits 10 c)).any Char.isAlpha = true :=
    List.any_eq_true.mpr ⟨'C', by simp, by decide⟩
  rw [determineType, hname, hspan.2, if_neg (List.cons_ne_nil _ _), hany]
  rfl

theorem convertToType2_eq (hcol : IsColumn col) (hrow : IsRow row) :
    convertToType2 (col ++ row) = some (rcName row (columnNumber col)) := by
  obtain ⟨htake, hdrop⟩ := span_isAlpha hcol hrow
  rw [convertToType2, htake, hdrop, if_neg hrow.1]
  rfl

theorem intOf_toDigits (n : Nat) : intOf (Nat.toDigits 10 n) = some (n : Int) := by
  have hne : Nat.toDigits 10 n ≠ [] := Nat.toDigits_ne_nil
  have hdigit : ∀ c ∈ Nat.toDigits 10 n, c.isDigit = true :=
    fun c hc => Nat.isDigit_of_mem_toDigits (by decide) (by decide) hc
  have hval : Nat.ofDigitChars 10 (Nat.toDigits 10 n) 0 = n := Nat.ofDigitChars_ten_toDigits
  generalize Nat.toDigits 10 n = s at hne hdigit hval
  -- no digit is a blank or a sign
  have hblank : ∀ c ∈ s, isBlank c = false := by
    intro c hc
    by_contra hne
    have hcode := isDigit_iff.mp (hdigit c hc)
    simp only [isBlank, Bool.not_eq_false, Bool.or_eq_true, beq_iff_eq, or_assoc] at hne
    rcases hne with rfl | rfl | rfl | rfl | rfl | rfl <;> exact absurd hcode (by decide)
  have hstrip : stripChars isBlank s = s := by
    obtain ⟨c, rest, rfl⟩ := List.exists_cons_of_ne_nil hne
    rw [stripChars, List.dropWhile_cons_of_neg (by simp [hblank c List.mem_cons_self])]
    exact List.rdropWhile_eq_self_iff.mpr fun h => by simp [hblank _ (List.getLast_mem h)]
  have hsign : ∀ c, c.isDigit = false → s.head? ≠ some c := by
    intro c hc hhead
    obtain ⟨rest, rfl⟩ := List.head?_eq_some_iff.mp hhead
    rw [hdigit c List.mem_cons_self] at hc
    cases hc
  have hminus := hsign '-' (by decide)
  have hplus := hsign '+' (by decide)
  have hall : s.all Char.isDigit = true := List.all_eq_true.mpr hdigit
  simp [intOf, hstrip, hminus, hplus, hne, hall, hval]

theorem convertToType1_eq (hrow : IsRow row) (c : Nat) :
    convertToType1 (rcName row c) = some (columnLetters c [] ++ row) := by
  have hname : (rcName row c).drop 1 = row ++ 'C' :: Nat.toDigits 10 c := by simp [rcName]
  have hspan := span_append (p := (· != 'C')) (a := row) (c := 'C') (b := Nat.toDigits 10 c)
    (fun x hx => ?_) (by simp)
  · rw [convertToType1, hname, hspan.1, hspan.2]
    simp [intOf_toDigits]
  · have hcode := isDigit_iff.mp (hrow.2 x hx)
    simp only [bne_iff_ne, ne_eq]
    rintro rfl
    exact absurd hcode (by decide)

theorem convert_first (hcol : IsColumn col) (hrow : IsRow row) :
    convert (col ++ row) = some (rcName row (columnNumber col)) := by
  rw [convert, determineType_first hcol hrow]
  exact convertToType2_eq hcol hrow

theorem convert_second (hrow : IsRow row) (c : Nat) :
    convert (rcName row c) = some (columnLetters c [] ++ row) := by
  rw [convert, determineType_second hrow c]
  exact convertToType1_eq hrow c

end

/-- **The conversion is its own inverse**, in both directions, and takes each name for what it
is. Columns are numerals with the digits `A` to `Z` and no zero, in which every positive
number has exactly one form. -/
theorem convert_involutive (col row : Str) (c : Nat) (hcol : IsColumn col) (hrow : IsRow row)
    (hc : 1 ≤ c) :
    (determineType (col ++ row) = some 1 ∧ ∃ s, convert (col ++ row) = some s ∧
      determineType s = some 2 ∧ convert s = some (col ++ row)) ∧
    (determineType (rcName row c) = some 2 ∧ ∃ s, convert (rcName row c) = some s ∧
      determineType s = some 1 ∧ convert s = some (rcName row c)) := by
  refine ⟨⟨determineType_first hcol hrow, _, convert_first hcol hrow, determineType_second hrow _, ?_⟩,
    determineType_second hrow c, _, convert_second hrow c, ?_⟩
  · have hnum := (isColumn_iff.mp hcol).2
    rw [convert_second hrow, columnNumber_eq hnum, columnLetters_value hnum, List.append_nil]
  · -- the letters written for `c` are a column of that number
    obtain ⟨s, hs, rfl⟩ := capitals.exists_value c
    have hcol' : IsColumn s := isColumn_iff.mpr ⟨fun h => by simp [h] at hc, hs⟩
    rw [columnLetters_value hs, List.append_nil, convert_first hcol' hrow, columnNumber_eq hs]
    exact ⟨determineType_first hcol' hrow, rfl⟩

theorem convert_involutive_RCX :
    (determineType "RCX26".toList = some 1 ∧ ∃ s, convert "RCX26".toList = some s ∧
      determineType s = some 2 ∧ convert s = some "RCX26".toList) ∧
    (determineType "R26C702".toList = some 2 ∧ ∃ s, convert "R26C702".toList = some s ∧
      determineType s = some 1 ∧ convert s = some "R26C702".toList) :=
  convert_involutive "RCX".toList "26".toList 702 ⟨by decide, by simp⟩
    ⟨by decide, by simp⟩ (by decide)

/-! ### The order of the columns -/

theorem columnNumber_pos {s : Str} (hs : IsColumn s) : 1 ≤ columnNumber s := by
  obtain ⟨hne, hnum⟩ := isColumn_iff.mp hs
  rw [columnNumber_eq hnum]
  exact Nat.one_le_iff_ne_zero.mpr fun h => hne ((Alphabet.value_eq_zero_iff hnum).mp h)

/-- The columns in front of one are the numerals in front of it without the empty one, and how many
numerals stand in front of a numeral is its value. -/
theorem ncard_columns {s : Str} (hs : IsColumn s) :
    {t | IsColumn t ∧ List.Shortlex (· < ·) t s}.ncard + 1 = columnNumber s := by
  have hpos := columnNumber_pos hs
  obtain ⟨hne, hnum⟩ := isColumn_iff.mp hs
  have hsplit : {t | IsColumn t ∧ List.Shortlex (· < ·) t s} =
      {t | capitals.IsNumeral t ∧ List.Shortlex (· < ·) t s} \ {[]} := by
    ext t
    simp only [isColumn_iff, Set.mem_ofPred_eq, Set.mem_sdiff, Set.mem_singleton_iff]
    tauto
  have hempty : [] ∈ {t | capitals.IsNumeral t ∧ List.Shortlex (· < ·) t s} :=
    ⟨fun _ hc => absurd hc List.not_mem_nil,
      List.Shortlex.of_length_lt (List.length_pos_iff.mpr hne)⟩
  rw [columnNumber_eq hnum] at hpos ⊢
  rw [hsplit, Set.ncard_sdiff_singleton_of_mem hempty, Alphabet.ncard_shortlex hnum]
  omega

/-- **Columns are numbered in spreadsheet order**: the number that is written for column letters
is their place among all of them, shorter ones first and those of one length alphabetically; it
grows in that order and takes every value. -/
theorem columnNumber_place (col row : Str) (hcol : IsColumn col) (hrow : IsRow row) :
    convertToType2 (col ++ row) = some (rcName row (columnNumber col)) ∧
    {t | IsColumn t ∧ List.Shortlex (· < ·) t col}.ncard + 1 = columnNumber col ∧
    (∀ t, IsColumn t → (List.Shortlex (· < ·) col t ↔ columnNumber col < columnNumber t)) ∧
    ∀ c, 1 ≤ c → ∃ t, IsColumn t ∧ columnNumber t = c := by
  refine ⟨convertToType2_eq hcol hrow, ncard_columns hcol, fun t ht => ?_, fun c hc => ?_⟩
  · have hnum := (isColumn_iff.mp hcol).2
    have hnum' := (isColumn_iff.mp ht).2
    rw [columnNumber_eq hnum, columnNumber_eq hnum', Alphabet.value_lt_iff_shortlex hnum hnum']
  · obtain ⟨s, hs, rfl⟩ := capitals.exists_value c
    exact ⟨s, isColumn_iff.mpr ⟨fun h => by simp [h] at hc, hs⟩, columnNumber_eq hs⟩

theorem columnNumber_place_AA :
    {t | IsColumn t ∧ List.Shortlex (· < ·) t "AA".toList}.ncard + 1 = 27 :=
  (columnNumber_place "AA".toList "1".toList ⟨by decide, by simp⟩ ⟨by decide, by simp⟩).2.1

end BlogStuff.Algorithm
