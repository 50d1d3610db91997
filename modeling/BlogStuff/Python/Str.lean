import Mathlib.Data.Char
import Mathlib.Data.List.DropRight
import Mathlib.Data.List.SplitBy
import Mathlib.Data.List.TakeWhile
import Mathlib.Tactic

/-!
# BlogStuff.Python.Str

Python's `str` as a list of code points, with the methods the modelled scripts
call on it: `strip`, `splitlines`, `partition`, `rpartition`, `split`, `join`
and the substring tests. Each method is a structural recursion (or a
composition of library list functions), so every definition below evaluates.

`str.strip` and `str.splitlines` follow Python's own character classes, which
are larger than ASCII white space and `\n`: a file written with `\n` line ends
is read back line by line only if no line holds one of the other boundaries
(`splitlines_intercalate`).
-/

namespace BlogStuff.Python

/-- A Python `str`: a sequence of Unicode scalar values. -/
abbrev Str := List Char

/-- A Python `bytes` object. -/
abbrev Bytes := List UInt8

/-! ### Character classes -/

/-- The code points of white space. -/
def spaceCodes : List Nat :=
  [0x09, 0x0a, 0x0b, 0x0c, 0x0d, 0x1c, 0x1d, 0x1e, 0x1f, 0x20, 0x85, 0xa0, 0x1680,
    0x2000, 0x2001, 0x2002, 0x2003, 0x2004, 0x2005, 0x2006, 0x2007, 0x2008, 0x2009, 0x200a,
    0x2028, 0x2029, 0x202f, 0x205f, 0x3000]

/-- `str.isspace` of one character, which is also what `\s` matches. -/
def isSpace (c : Char) : Bool := spaceCodes.contains c.toNat

theorem of_isSpace {P : Char → Prop} (h : ∀ n ∈ spaceCodes, P (Char.ofNat n)) {c : Char}
    (hc : isSpace c = true) : P c := by
  have hmem : c.toNat ∈ spaceCodes := List.contains_iff_mem.mp hc
  have := h c.toNat hmem
  rwa [Char.ofNat_toNat] at this

/-- The line boundaries of `str.splitlines`. -/
def isLineBreak (c : Char) : Bool :=
  [0x0a, 0x0b, 0x0c, 0x0d, 0x1c, 0x1d, 0x1e, 0x85, 0x2028, 0x2029].contains c.toNat

theorem isAlpha_iff {c : Char} : c.isAlpha = true ↔
    (65 ≤ c.toNat ∧ c.toNat ≤ 90) ∨ (97 ≤ c.toNat ∧ c.toNat ≤ 122) := by
  have hupper : c.isUpper = true ↔ 65 ≤ c.toNat ∧ c.toNat ≤ 90 := decide_eq_true_iff
  have hlower : c.isLower = true ↔ 97 ≤ c.toNat ∧ c.toNat ≤ 122 :=
    Bool.and_eq_true_iff.trans (and_congr decide_eq_true_iff decide_eq_true_iff)
  exact Bool.or_eq_true_iff.trans (or_congr hupper hlower)

theorem isDigit_iff {c : Char} : c.isDigit = true ↔ 48 ≤ c.toNat ∧ c.toNat ≤ 57 :=
  Bool.and_eq_true_iff.trans (and_congr decide_eq_true_iff decide_eq_true_iff)

/-- `str.isascii` of one character. -/
def isAsciiChar (c : Char) : Bool := c.toNat < 128

/-- `str.isascii`. -/
def isAscii (s : Str) : Bool := s.all isAsciiChar

/-- The ASCII hexadecimal digits, in either case. -/
def isHexDigit (c : Char) : Bool :=
  c.isDigit || ('a' ≤ c && c ≤ 'f') || ('A' ≤ c && c ≤ 'F')

theorem isSpace_of_isLineBreak {c : Char} (h : isLineBreak c = true) : isSpace c = true := by
  simp only [isLineBreak, isSpace, spaceCodes, List.contains_eq_mem, decide_eq_true_eq, List.mem_cons,
    List.not_mem_nil, or_false] at h ⊢
  omega

/-! ### Stripping -/

/-- `s.lstrip()`. -/
def lstrip (s : Str) : Str := s.dropWhile isSpace

/-- `s.rstrip()`. -/
def rstrip (s : Str) : Str := s.rdropWhile isSpace

/-- `s.strip()`. -/
def strip (s : Str) : Str := rstrip (lstrip s)

/-- `s.strip(chars)`, with the characters to remove given as a predicate. -/
def stripChars (p : Char → Bool) (s : Str) : Str := (s.dropWhile p).rdropWhile p

/-- A string that `strip` leaves alone: no white space at either end. -/
def Stripped (s : Str) : Prop := strip s = s

instance (s : Str) : Decidable (Stripped s) := inferInstanceAs (Decidable (strip s = s))

theorem mem_lstrip {c : Char} {s : Str} (h : c ∈ lstrip s) : c ∈ s :=
  (List.dropWhile_suffix isSpace).mem h

theorem mem_strip {c : Char} {s : Str} (h : c ∈ strip s) : c ∈ s :=
  mem_lstrip ((List.rdropWhile_prefix isSpace _).mem h)

theorem lstrip_cons {c : Char} {s : Str} (h : isSpace c = false) : lstrip (c :: s) = c :: s := by
  simp [lstrip, h]

theorem rstrip_concat {c : Char} {s : Str} (h : isSpace c = false) :
    rstrip (s ++ [c]) = s ++ [c] :=
  List.rdropWhile_concat_neg _ _ _ (by simp [h])

/-- Stripping the right end stops at a non-space character: it changes only what stands behind it.
The induction takes characters off that end. -/
theorem rstrip_append_cons {c : Char} {a b : Str} (h : isSpace c = false) :
    rstrip (a ++ c :: b) = a ++ c :: rstrip b := by
  induction b using List.reverseRecOn with
  | nil => simpa [rstrip] using rstrip_concat (s := a) h
  | append_singleton b d ih =>
      by_cases hd : isSpace d = true
      · have e1 : rstrip (a ++ c :: (b ++ [d])) = rstrip (a ++ c :: b) := by
          rw [show a ++ c :: (b ++ [d]) = (a ++ c :: b) ++ [d] by simp]
          exact List.rdropWhile_concat_pos _ _ _ hd
        have e2 : rstrip (b ++ [d]) = rstrip b := List.rdropWhile_concat_pos _ _ _ hd
        rw [e1, e2, ih]
      · have hd' : isSpace d = false := by simpa using hd
        rw [rstrip_concat hd', show a ++ c :: (b ++ [d]) = (a ++ c :: b) ++ [d] by simp,
          rstrip_concat hd']

theorem rstrip_cons {c : Char} {s : Str} (hc : isSpace c = false) :
    rstrip (c :: s) = c :: rstrip s :=
  rstrip_append_cons (a := []) hc

theorem rstrip_eq_self_iff {s : Str} :
    rstrip s = s ↔ ∀ c, s.getLast? = some c → isSpace c = false := by
  rw [rstrip, List.rdropWhile_eq_self_iff]
  constructor
  · intro h c hc
    have hne : s ≠ [] := by
      rintro rfl
      cases hc
    rw [List.getLast?_eq_some_getLast hne] at hc
    rw [← Option.some.inj hc]
    simpa using h hne
  · intro h hne
    simpa using h _ (List.getLast?_eq_some_getLast hne)

theorem rstrip_idem (s : Str) : rstrip (rstrip s) = rstrip s := List.rdropWhile_idempotent _ s

theorem head_lstrip {c : Char} {s t : Str} (h : lstrip s = c :: t) : isSpace c = false := by
  induction s with
  | nil => simp [lstrip] at h
  | cons d s ih =>
      by_cases hd : isSpace d = true
      · exact ih (by simpa [lstrip, hd] using h)
      · have hd' : isSpace d = false := by simpa using hd
        rw [lstrip_cons hd'] at h
        obtain ⟨rfl, -⟩ := List.cons.inj h
        exact hd'

theorem lstrip_rstrip_lstrip (s : Str) : lstrip (rstrip (lstrip s)) = rstrip (lstrip s) := by
  cases hl : lstrip s with
  | nil => rfl
  | cons c t =>
      have hc := head_lstrip hl
      rw [rstrip_cons hc, lstrip_cons hc]

theorem strip_idem (s : Str) : strip (strip s) = strip s := by
  unfold strip
  rw [lstrip_rstrip_lstrip, rstrip_idem]

theorem stripped_strip (s : Str) : Stripped (strip s) := strip_idem s

/-- A string is stripped when neither end is white space. This is the form in which it is proved of
joined and appended texts. -/
theorem stripped_iff {s : Str} : Stripped s ↔ (∀ c, s.head? = some c → isSpace c = false) ∧
    ∀ c, s.getLast? = some c → isSpace c = false := by
  constructor
  · intro hs
    cases hl : lstrip s with
    | nil =>
        have h0 : s = [] := by rw [← show strip s = s from hs, strip, hl]; rfl
        simp [h0]
    | cons c t =>
        have hc := head_lstrip hl
        have hs' : s = c :: rstrip t := by
          rw [← rstrip_cons hc, ← hl]
          exact hs.symm
        refine ⟨fun d hd => ?_, fun d hd => ?_⟩
        · rw [hs'] at hd
          rw [← Option.some.inj hd]
          exact hc
        · have hr : s = rstrip (lstrip s) := hs.symm
          have hne : rstrip (lstrip s) ≠ [] := by rw [← hr, hs']; simp
          have hlast := List.rdropWhile_last_not isSpace (lstrip s) hne
          rw [hr, List.getLast?_eq_some_getLast hne] at hd
          rw [← Option.some.inj hd]
          exact Bool.not_eq_true _ ▸ hlast
  · intro ⟨hhead, hlast⟩
    cases s with
    | nil => rfl
    | cons c t =>
        rw [Stripped, strip, lstrip_cons (hhead c rfl)]
        have hne : c :: t ≠ [] := by simp
        rw [← List.dropLast_append_getLast hne]
        exact rstrip_concat (hlast _ (List.getLast?_eq_some_getLast hne))

theorem strip_of_forall {s : Str} (h : ∀ c ∈ s, isSpace c = false) : strip s = s :=
  stripped_iff.mpr ⟨fun c hc => h c (List.mem_of_head? hc), fun c hc => h c (List.mem_of_getLast? hc)⟩

/-- A string is white space throughout, or some white space before its first other
character. -/
theorem lstrip_cases (s : Str) : (∀ c ∈ s, isSpace c = true) ∨
    ∃ a c b, s = a ++ c :: b ∧ (∀ d ∈ a, isSpace d = true) ∧ isSpace c = false := by
  induction s with
  | nil => exact Or.inl (by simp)
  | cons c s ih =>
      by_cases hc : isSpace c = true
      · rcases ih with h | ⟨a, d, b, rfl, ha, hd⟩
        · exact Or.inl (by simpa [hc] using h)
        · exact Or.inr ⟨c :: a, d, b, rfl, by simpa [hc] using ha, hd⟩
      · exact Or.inr ⟨[], c, s, rfl, by simp, by simpa using hc⟩

theorem strip_rstrip (s : Str) : strip (rstrip s) = strip s := by
  rcases lstrip_cases s with h | ⟨a, c, b, rfl, ha, hc⟩
  · have h1 : rstrip s = [] := List.rdropWhile_eq_nil_iff.mpr h
    have h2 : lstrip s = [] := List.dropWhile_eq_nil_iff.mpr h
    rw [h1, strip, strip, h2]
    rfl
  · have h1 : ∀ t, lstrip (a ++ c :: t) = c :: t := fun t => by
      rw [lstrip, List.dropWhile_append_of_pos ha]
      exact lstrip_cons hc
    rw [rstrip_append_cons hc, strip, strip, h1, h1, rstrip_cons hc, rstrip_cons hc, rstrip_idem]

/-! ### Lines -/

/-- No line boundary occurs in the string: `splitlines` keeps it in one piece. -/
def OneLine (s : Str) : Prop := ∀ c ∈ s, isLineBreak c = false

instance (s : Str) : Decidable (OneLine s) :=
  decidable_of_iff (s.all (!isLineBreak ·) = true) (by simp [OneLine])

theorem oneLine_append {a b : Str} : OneLine (a ++ b) ↔ OneLine a ∧ OneLine b := by
  simp only [OneLine, List.mem_append, or_imp, forall_and]

theorem oneLine_strip {s : Str} (h : OneLine s) : OneLine (strip s) := fun c hc => h c (mem_strip hc)

/-- The number of characters that are not white space. -/
def solid (s : Str) : Nat := s.countP fun c => !isSpace c

theorem solid_append (a b : Str) : solid (a ++ b) = solid a + solid b := List.countP_append

theorem solid_eq_zero {s : Str} : solid s = 0 ↔ ∀ c ∈ s, isSpace c = true := by
  simp [solid, List.countP_eq_zero]

theorem solid_strip (s : Str) : solid (strip s) = solid s := by
  have hl : solid (lstrip s) = solid s := by
    have hwhite : solid (s.takeWhile isSpace) = 0 :=
      solid_eq_zero.mpr fun c hc => List.mem_takeWhile_imp hc
    have happ := congrArg solid (List.takeWhile_append_dropWhile (p := isSpace) (l := s))
    rw [solid_append, hwhite, Nat.zero_add] at happ
    exact happ
  have hr : ∀ t, solid (rstrip t) = solid t := by
    intro t
    have hwhite : solid (t.rtakeWhile isSpace) = 0 :=
      solid_eq_zero.mpr fun c hc => List.mem_rtakeWhile_imp hc
    have happ := congrArg solid (List.rdropWhile_append_rtakeWhile (p := isSpace) (l := t))
    rw [solid_append, hwhite, Nat.add_zero] at happ
    exact happ
  rw [strip, hr, hl]

theorem strip_eq_nil_iff {s : Str} : strip s = [] ↔ ∀ c ∈ s, isSpace c = true := by
  rw [← solid_eq_zero, ← solid_strip]
  constructor
  · intro h
    rw [h]
    rfl
  · intro h
    -- a stripped text starts with something that is no blank
    cases hs : strip s with
    | nil => rfl
    | cons c t =>
        have hc := (stripped_iff.mp (stripped_strip s)).1 c (by rw [hs]; rfl)
        have hblank := solid_eq_zero.mp h c (by rw [hs]; exact List.mem_cons_self)
        rw [hc] at hblank
        cases hblank

theorem solid_le {a b : Str} (h : a.Sublist b) : solid a ≤ solid b := h.countP_le

theorem rstrip_append_white {a w : Str} (h : ∀ c ∈ w, isSpace c = true) :
    rstrip (a ++ w) = rstrip a := by
  rw [rstrip, List.rdropWhile, List.reverse_append,
    List.dropWhile_append_of_pos fun c hc => h c (List.mem_reverse.mp hc)]
  rfl

/-- `s.splitlines()`. The pair `\r\n` is one boundary, and a boundary at the very
end opens no further line. -/
def splitlines : Str → List Str
  | [] => []
  | '\r' :: '\n' :: s => [] :: splitlines s
  | c :: s =>
      if isLineBreak c then [] :: splitlines s
      else match splitlines s with
        | [] => [[c]]
        | l :: ls => (c :: l) :: ls

theorem splitlines_nil : splitlines [] = [] := rfl

theorem splitlines_pair (s : Str) : splitlines ('\r' :: '\n' :: s) = [] :: splitlines s := rfl

theorem splitlines_single {c : Char} {s : Str} (hc : isLineBreak c = true)
    (hne : ∀ s', c = '\r' → s = '\n' :: s' → False) :
    splitlines (c :: s) = [] :: splitlines s := by
  rw [splitlines.eq_3 c s hne, if_pos hc]

theorem splitlines_break {c : Char} {s : Str} (h : isLineBreak c = true) (hr : c ≠ '\r') :
    splitlines (c :: s) = [] :: splitlines s :=
  splitlines_single h fun _ hc _ => hr hc

/-- A boundary ends an empty line, alone or with the other half of its pair. -/
theorem splitlines_of_isLineBreak {c : Char} (s : Str) (h : isLineBreak c = true) :
    ∃ r, r <:+ s ∧ splitlines (c :: s) = [] :: splitlines r := by
  by_cases hpair : c = '\r' ∧ s.head? = some '\n'
  · obtain ⟨rfl, hhead⟩ := hpair
    obtain ⟨r, rfl⟩ := List.head?_eq_some_iff.mp hhead
    exact ⟨r, List.suffix_cons _ _, splitlines_pair r⟩
  · refine ⟨s, List.suffix_refl _, splitlines_single h fun r hr hs => ?_⟩
    exact hpair ⟨hr, by rw [hs]; rfl⟩

theorem splitlines_char {c : Char} {s : Str} (h : isLineBreak c = false) :
    splitlines (c :: s) = (c :: (splitlines s).headD []) :: (splitlines s).tail := by
  have hr : c ≠ '\r' := by rintro rfl; exact absurd h (by decide)
  rw [splitlines.eq_3 c s (by rintro s' rfl; exact absurd rfl hr)]
  cases splitlines s <;> simp [h]

/-- How a line comes about: characters are put into it or passed over, and a line boundary is never
put into one. By the cases of `splitlines`. -/
theorem mem_splitlines_induction {P : Str → Str → Prop} (nil : ∀ s, P [] s)
    (skip : ∀ c l s, P l s → P l (c :: s))
    (char : ∀ c l s, isLineBreak c = false → P l s → P (c :: l) (c :: s)) {l s : Str}
    (h : l ∈ splitlines s) : P l s := by
  induction s using splitlines.induct generalizing l with
  | case1 => cases h
  | case2 s ih =>
      rw [splitlines_pair] at h
      rcases List.mem_cons.mp h with rfl | h
      · exact nil _
      · exact skip _ _ _ (skip _ _ _ (ih h))
  | case3 c s hne hc ih =>
      rw [splitlines_single hc hne] at h
      rcases List.mem_cons.mp h with rfl | h
      · exact nil _
      · exact skip c l s (ih h)
  | case4 c s hne hc hs ih =>
      rw [splitlines_char (by simpa using hc), hs] at h
      obtain rfl : l = [c] := by simpa using h
      exact char c [] s (by simpa using hc) (nil s)
  | case5 c s hne hc m ms hs ih =>
      rw [splitlines_char (by simpa using hc), hs] at h
      rcases List.mem_cons.mp h with rfl | h
      · exact char c m s (by simpa using hc) (ih (by rw [hs]; exact List.mem_cons_self))
      · exact skip c l s (ih (by rw [hs]; exact List.mem_cons_of_mem _ h))

/-- No line that `splitlines` returns holds a line boundary. -/
theorem oneLine_of_mem_splitlines {l s : Str} (h : l ∈ splitlines s) : OneLine l :=
  mem_splitlines_induction (P := fun l _ => OneLine l) (fun _ => by simp [OneLine])
    (fun _ _ _ hl => hl) (fun _ _ _ hc hl => List.forall_mem_cons.mpr ⟨hc, hl⟩) h

theorem splitlines_append_newline {l : Str} (hl : OneLine l) (s : Str) :
    splitlines (l ++ '\n' :: s) = l :: splitlines s := by
  induction l with
  | nil => exact splitlines_break (by decide) (by decide)
  | cons c l ih =>
      rw [List.cons_append, splitlines_char (hl c (by simp)),
        ih (fun d hd => hl d (by simp [hd]))]
      simp

theorem splitlines_cons_ne_nil (c : Char) (s : Str) : splitlines (c :: s) ≠ [] := by
  cases hc : isLineBreak c with
  | true =>
      obtain ⟨r, -, hr⟩ := splitlines_of_isLineBreak s hc
      rw [hr]
      exact List.cons_ne_nil _ _
  | false =>
      rw [splitlines_char hc]
      exact List.cons_ne_nil _ _

theorem splitlines_append_char {c : Char} {s b : Str} (hc : isLineBreak c = false)
    (ih : splitlines (s ++ '\n' :: b) = splitlines (s ++ ['\n']) ++ splitlines b) :
    splitlines (c :: s ++ '\n' :: b) = splitlines (c :: s ++ ['\n']) ++ splitlines b := by
  rw [List.cons_append, List.cons_append, splitlines_char hc, splitlines_char hc, ih]
  cases h : splitlines (s ++ ['\n']) with
  | nil => cases s <;> exact absurd h (splitlines_cons_ne_nil _ _)
  | cons l ls => simp

/-- A newline ends a line whatever stands before it. The one case that is not plain is `\r` before
it, which makes the two characters one boundary. -/
theorem splitlines_append (a b : Str) :
    splitlines (a ++ '\n' :: b) = splitlines (a ++ ['\n']) ++ splitlines b := by
  have hnl : ∀ s, splitlines ('\n' :: s) = [] :: splitlines s := fun s =>
    splitlines_break (by decide) (by decide)
  induction a using splitlines.induct with
  | case1 => simp [hnl, splitlines_nil]
  | case2 s ih => simp [splitlines_pair, ih]
  | case3 c s hne hc ih =>
      by_cases hr : c = '\r' ∧ s = []
      · obtain ⟨rfl, rfl⟩ := hr
        simp [splitlines_pair, splitlines_nil]
      · have hne' : ∀ t s', c = '\r' → s ++ '\n' :: t = '\n' :: s' → False := by
          intro t s' h1 h2
          cases s with
          | nil => exact hr ⟨h1, rfl⟩
          | cons d s => exact hne s h1 (by rw [(List.cons.inj h2).1])
        rw [List.cons_append, List.cons_append, splitlines_single hc (hne' b),
          splitlines_single hc (hne' []), ih, List.cons_append]
  | case4 c s hne hc hs ih => exact splitlines_append_char (by simpa using hc) ih
  | case5 c s hne hc m ms hs ih => exact splitlines_append_char (by simpa using hc) ih

/-- A text is one line, or its first line ends at a boundary. What is split further lies
behind that. -/
theorem splitlines_cases (s : Str) : OneLine s ∨ ∃ a c b, s = a ++ c :: b ∧ OneLine a ∧
    isLineBreak c = true ∧ ∀ d, ∃ r, r <:+ b ++ d ∧ splitlines (s ++ d) = a :: splitlines r := by
  induction s with
  | nil => exact Or.inl (by simp [OneLine])
  | cons e s ih =>
      cases he : isLineBreak e with
      | true =>
          refine Or.inr ⟨[], e, s, rfl, by simp [OneLine], he, fun d => ?_⟩
          exact splitlines_of_isLineBreak (s ++ d) he
      | false =>
          rcases ih with hs | ⟨a, c, b, rfl, ha, hc, hsplit⟩
          · exact Or.inl (List.forall_mem_cons.mpr ⟨he, hs⟩)
          · refine Or.inr ⟨e :: a, c, b, rfl, List.forall_mem_cons.mpr ⟨he, ha⟩, hc, fun d => ?_⟩
            obtain ⟨r, hr, heq⟩ := hsplit d
            refine ⟨r, hr, ?_⟩
            rw [List.cons_append, splitlines_char he, heq]
            rfl

theorem splitlines_oneLine_append {p s l : Str} {ls : List Str} (hp : OneLine p)
    (h : splitlines s = l :: ls) : splitlines (p ++ s) = (p ++ l) :: ls := by
  induction p with
  | nil => exact h
  | cons c p ih =>
      rw [List.cons_append, splitlines_char (hp c (by simp)), ih fun d hd => hp d (by simp [hd])]
      rfl

/-- A line of a text is part of it. By the cases of `splitlines`; this bounds what a line can hold
by what the text holds. -/
theorem sublist_of_mem_splitlines {l s : Str} (h : l ∈ splitlines s) : l.Sublist s :=
  mem_splitlines_induction (P := List.Sublist) List.nil_sublist (fun c _ _ hl => hl.cons c)
    (fun c _ _ _ hl => hl.cons_cons c) h

theorem splitlines_oneLine {l : Str} (hl : OneLine l) (hne : l ≠ []) : splitlines l = [l] := by
  induction l with
  | nil => exact absurd rfl hne
  | cons c l ih =>
      rw [splitlines_char (hl c (by simp))]
      cases l with
      | nil => simp [splitlines_nil]
      | cons d l => simp [ih (fun e he => hl e (by simp [he])) (by simp)]

/-- **Lines round trip.** Joining non-empty lines with `\n` and splitting the
result gives the lines back. -/
theorem splitlines_intercalate {ls : List Str} (h : ∀ l ∈ ls, OneLine l ∧ l ≠ []) :
    splitlines (List.intercalate ['\n'] ls) = ls := by
  induction ls with
  | nil => simp [splitlines_nil]
  | cons l ls ih =>
      obtain ⟨hl, hne⟩ := h l (by simp)
      cases ls with
      | nil => simpa using splitlines_oneLine hl hne
      | cons m ls =>
          have ih' := ih (fun k hk => h k (by simp [hk]))
          rw [List.intercalate_cons_cons, List.append_assoc, List.singleton_append,
            splitlines_append_newline hl, ih']

theorem intercalate_cons (sep l : Str) (ls : List Str) :
    ∃ t, List.intercalate sep (l :: ls) = l ++ t := by
  cases ls with
  | nil => exact ⟨[], by simp⟩
  | cons m ls => exact ⟨sep ++ List.intercalate sep (m :: ls), by
      rw [List.intercalate_cons_cons, List.append_assoc]⟩

/-- The characters of a join are those of its pieces and the separator. -/
theorem mem_intercalate_singleton {x c : Char} {ls : List Str} (h : c ∈ List.intercalate [x] ls) :
    (∃ l ∈ ls, c ∈ l) ∨ c = x := by
  induction ls with
  | nil => simp at h
  | cons l ls ih =>
      cases ls with
      | nil =>
          rw [List.intercalate_singleton] at h
          exact Or.inl ⟨l, by simp, h⟩
      | cons m ls =>
          rw [List.intercalate_cons_cons, List.mem_append, List.mem_append,
            List.mem_singleton] at h
          rcases h with (h | h) | h
          · exact Or.inl ⟨l, by simp, h⟩
          · exact Or.inr h
          · rcases ih h with ⟨k, hk, hc⟩ | hc
            · exact Or.inl ⟨k, by simp [hk], hc⟩
            · exact Or.inr hc

/-- The join of trimmed, non-empty lines is trimmed: it begins with the first line and ends with the
last one. -/
theorem stripped_intercalate {ls : List Str} (h : ∀ l ∈ ls, Stripped l ∧ l ≠ []) :
    Stripped (List.intercalate ['\n'] ls) := by
  have hlast : ∀ c, (List.intercalate ['\n'] ls).getLast? = some c → isSpace c = false := by
    induction ls with
    | nil => simp
    | cons l ls ih =>
        cases ls with
        | nil =>
            obtain ⟨hl, -⟩ := h l (by simp)
            simpa using (stripped_iff.mp hl).2
        | cons m ls =>
            obtain ⟨t, ht⟩ := intercalate_cons ['\n'] m ls
            have hne : List.intercalate ['\n'] (m :: ls) ≠ [] := by
              rw [ht]
              simp [(h m (by simp)).2]
            rw [List.intercalate_cons_cons, List.getLast?_append_of_ne_nil _ hne]
            exact ih (fun k hk => h k (by simp [hk]))
  refine stripped_iff.mpr ⟨?_, hlast⟩
  cases ls with
  | nil => simp
  | cons l ls =>
      obtain ⟨hl, hne⟩ := h l (by simp)
      obtain ⟨t, ht⟩ := intercalate_cons ['\n'] l ls
      rw [ht, List.head?_append_of_ne_nil _ hne]
      exact (stripped_iff.mp hl).1

/-- Every part is a piece of the joined text. -/
theorem infix_intercalate (sep : Str) {x : Str} {l : List Str} (h : x ∈ l) :
    x <:+: List.intercalate sep l := by
  induction l with
  | nil => simp at h
  | cons y l ih =>
      cases l with
      | nil =>
          obtain rfl : x = y := by simpa using h
          simp
      | cons z l =>
          rw [List.intercalate_cons_cons, List.append_assoc]
          rcases List.mem_cons.mp h with h | h
          · rw [h]
            exact (List.prefix_append _ _).isInfix
          · exact List.infix_append_of_infix_right (List.infix_append_of_infix_right (ih h))

/-- `a or b` on strings: `b` when `a` is empty. -/
def pyOr (a b : Str) : Str := if a = [] then b else a

theorem pyOr_of_ne {a : Str} (h : a ≠ []) (b : Str) : pyOr a b = a := if_neg h

@[simp] theorem pyOr_nil (b : Str) : pyOr [] b = b := rfl

theorem oneLine_pyOr {a b : Str} (ha : OneLine a) (hb : OneLine b) : OneLine (pyOr a b) := by
  unfold pyOr
  split_ifs
  · exact hb
  · exact ha

/-! ### Searching and splitting -/

/-- `s.startswith(pre)`. -/
def startswith (s pre : Str) : Bool := pre.isPrefixOf s

/-- `s.endswith(suf)`. -/
def endswith (s suf : Str) : Bool := suf.isSuffixOf s

/-- The text before and after the first occurrence of `sub` (`s.split(sub, 1)`). -/
def splitOnce (sub : Str) : Str → Option (Str × Str)
  | [] => if sub = [] then some ([], []) else none
  | c :: s =>
      if startswith (c :: s) sub then some ([], (c :: s).drop sub.length)
      else (splitOnce sub s).map fun (a, b) => (c :: a, b)

/-- `sub in s`. -/
def hasSub (s sub : Str) : Bool := (splitOnce sub s).isSome

/-- `s.partition(c)` for a one-character separator: the text before the first
`c`, whether there is one, and the text after it. -/
def partition (c : Char) (s : Str) : Str × Bool × Str :=
  (s.takeWhile (· != c), s.contains c, (s.dropWhile (· != c)).tail)

/-- `s.rpartition(c)` for a one-character separator: split at the last `c`. -/
def rpartition (c : Char) (s : Str) : Str × Bool × Str :=
  if s.contains c then ((s.rdropWhile (· != c)).dropLast, true, s.rtakeWhile (· != c))
  else ([], false, s)

theorem bne_of_not_mem {c : Char} {a : Str} (h : c ∉ a) : ∀ d ∈ a, (d != c) = true :=
  fun _ hd => bne_iff_ne.mpr (ne_of_mem_of_not_mem hd h)

theorem partition_append {c : Char} {a : Str} (h : c ∉ a) (b : Str) :
    partition c (a ++ c :: b) = (a, true, b) := by
  have ha := bne_of_not_mem h
  simp [partition, List.takeWhile_append_of_pos ha, List.dropWhile_append_of_pos ha]

theorem partition_of_not_mem {c : Char} {s : Str} (h : c ∉ s) :
    partition c s = (s, false, []) := by
  have hs := bne_of_not_mem h
  have h1 : s.takeWhile (· != c) = s := List.takeWhile_eq_self_iff.mpr hs
  have h2 : s.dropWhile (· != c) = [] := List.dropWhile_eq_nil_iff.mpr hs
  simp [partition, h1, h2, h]

theorem mem_partition_left {c d : Char} {s : Str} (h : d ∈ (partition c s).1) : d ∈ s :=
  (List.takeWhile_prefix _).mem h

theorem mem_partition_right {c d : Char} {s : Str} (h : d ∈ (partition c s).2.2) : d ∈ s :=
  (List.dropWhile_suffix _).mem (List.mem_of_mem_tail h)

theorem mem_rpartition_right {c d : Char} {s : Str} (h : d ∈ (rpartition c s).2.2) : d ∈ s := by
  unfold rpartition at h
  split_ifs at h
  · exact (List.rtakeWhile_suffix _ _).mem h
  · exact h

theorem rpartition_append {c : Char} {b : Str} (h : c ∉ b) (a : Str) :
    rpartition c (a ++ c :: b) = (a, true, b) := by
  have hb := bne_of_not_mem (a := b.reverse) (by simpa using h)
  have h1 : (a ++ c :: b).rdropWhile (· != c) = a ++ [c] := by
    simp [List.rdropWhile, List.dropWhile_append_of_pos hb]
  have h2 : (a ++ c :: b).rtakeWhile (· != c) = b := by
    simp [List.rtakeWhile, List.takeWhile_append_of_pos hb]
  simp [rpartition, h1, h2]

theorem rpartition_of_not_mem {c : Char} {s : Str} (h : c ∉ s) :
    rpartition c s = ([], false, s) := by
  simp [rpartition, h]

/-- A text without `c`, or its part up to the last `c` and the part after it. -/
theorem last_char (c : Char) (s : Str) : c ∉ s ∨ ∃ a b, s = a ++ c :: b ∧ c ∉ b := by
  by_cases h : c ∈ s
  · obtain ⟨b, a, hs, hb⟩ := List.eq_append_cons_of_mem (List.mem_reverse.mpr h)
    refine Or.inr ⟨a.reverse, b.reverse, ?_, by simpa using hb⟩
    rw [← List.reverse_reverse s, hs]
    simp
  · exact Or.inl h

theorem startswith_iff {s pre : Str} : startswith s pre = true ↔ ∃ t, s = pre ++ t := by
  rw [startswith, List.isPrefixOf_iff_prefix]
  exact ⟨fun ⟨t, h⟩ => ⟨t, h.symm⟩, fun ⟨t, h⟩ => ⟨t, h.symm⟩⟩

/-- `s.replace(old, new)` for a single character `old`. -/
def replaceChar (old : Char) (new s : Str) : Str := s.flatMap fun c => if c = old then new else [c]

theorem replaceChar_cons (old : Char) (new : Str) (c : Char) (s : Str) :
    replaceChar old new (c :: s) = (if c = old then new else [c]) ++ replaceChar old new s :=
  List.flatMap_cons

theorem replaceChar_append (old : Char) (new s t : Str) :
    replaceChar old new (s ++ t) = replaceChar old new s ++ replaceChar old new t :=
  List.flatMap_append

/-! ### The Unicode database

Case conversion and the digit property depend on the Unicode character
database. The scripts only rely on what these do to ASCII text, so the tables
stay a parameter and the laws say what they agree with. -/

/-- The database-dependent `str` methods, with their behaviour on ASCII. The results hold for every
database that has these properties. -/
class UnicodeData where
  /-- `str.lower`. -/
  lower : Str → Str
  /-- `str.isdigit` of one character. -/
  isDigitChar : Char → Bool
  /-- ASCII text is lower-cased character by character. -/
  lower_ascii : ∀ s, isAscii s = true → lower s = s.map Char.toLower
  /-- Lower-casing introduces no white space. -/
  lower_space : ∀ s c, isSpace c = true → c ∈ lower s → c ∈ s
  /-- The ASCII digits are `0` to `9`. -/
  isDigitChar_ascii : ∀ c, isAsciiChar c = true → isDigitChar c = c.isDigit

/-- `s.isdigit()`: non-empty, and every character is a digit. -/
def isDigitStr [UnicodeData] (s : Str) : Bool := !s.isEmpty && s.all UnicodeData.isDigitChar

theorem toLower_of_isSpace {c : Char} (h : isSpace c.toLower = true) : c.toLower = c := by
  unfold Char.toLower at h ⊢
  split_ifs at h ⊢ with hc
  · -- an upper-case letter goes to a lower-case one, which is no space
    exfalso
    have h1 : 65 ≤ c.val.toNat := UInt32.le_iff_toNat_le.mp hc.1
    have h2 : c.val.toNat ≤ 90 := UInt32.le_iff_toNat_le.mp hc.2
    simp only [isSpace, spaceCodes, Char.toNat, UInt32.toNat_add, List.contains_eq_mem, decide_eq_true_eq,
      List.mem_cons, List.not_mem_nil, or_false] at h
    have h3 : ('a'.val - 'A'.val).toNat = 32 := by decide
    rw [h3] at h
    omega
  · rfl

theorem toLower_of_isDigit {c : Char} (h : c.isDigit = true) : c.toLower = c := by
  unfold Char.toLower
  split_ifs with hc
  · exfalso
    have h1 : 65 ≤ c.toNat := UInt32.le_iff_toNat_le.mp hc.1
    have h9 := (isDigit_iff.mp h).2
    omega
  · rfl

/-- The database cut down to ASCII: what the methods do to ASCII input. -/
@[reducible] def asciiData : UnicodeData where
  lower s := s.map Char.toLower
  isDigitChar c := c.isDigit
  lower_ascii _ _ := rfl
  lower_space := by
    intro s c hc h
    obtain ⟨d, hd, rfl⟩ := List.mem_map.mp h
    rwa [toLower_of_isSpace hc]
  isDigitChar_ascii _ _ := rfl

end BlogStuff.Python
