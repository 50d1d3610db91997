import BlogStuff.Python.Utf8

/-!
# BlogStuff.Python.Base64

`base64.b64encode` and the lenient `base64.b64decode` (no `validate`).

The decoder is the loop of `binascii.a2b_base64`: characters outside the
alphabet are discarded, a completed padding ends the input wherever it stands,
and a final group that is neither complete nor padded is an error. It therefore
reads almost any ASCII text as *some* bytes; `decode_b64decode_slashes` shows why
text with a `://` in front still never decodes to UTF-8.
-/

namespace BlogStuff.Python

/-! ### The alphabet -/

/-- The base64 digit of a value below 64. -/
def b64Char (n : Nat) : Char :=
  if n < 26 then Char.ofNat (n + 65)
  else if n < 52 then Char.ofNat (n + 71)
  else if n < 62 then Char.ofNat (n - 4)
  else if n = 62 then '+'
  else '/'

/-- The value of a base64 digit; `none` for every other character, the padding
character included. -/
def b64Value (c : Char) : Option Nat :=
  if 'A' ≤ c ∧ c ≤ 'Z' then some (c.toNat - 65)
  else if 'a' ≤ c ∧ c ≤ 'z' then some (c.toNat - 71)
  else if '0' ≤ c ∧ c ≤ '9' then some (c.toNat + 4)
  else if c = '+' then some 62
  else if c = '/' then some 63
  else none

theorem b64Value_b64Char : ∀ n < 64, b64Value (b64Char n) = some n := by decide

theorem b64Char_ne_pad : ∀ n < 64, b64Char n ≠ '=' := by decide

theorem b64Char_ascii : ∀ n < 64, isAsciiChar (b64Char n) = true := by decide

theorem b64Char_not_space : ∀ n < 64, isSpace (b64Char n) = false := by decide

/-! ### Encoding -/

/-- `base64.b64encode(bs).decode()`: three bytes are four digits, and a group of one or two bytes at
the end is padded. -/
def b64encode : Bytes → Str
  | [] => []
  | [a] => [b64Char (a.toNat / 4), b64Char (a.toNat % 4 * 16), '=', '=']
  | [a, b] =>
      [b64Char (a.toNat / 4), b64Char (a.toNat % 4 * 16 + b.toNat / 16),
        b64Char (b.toNat % 16 * 4), '=']
  | a :: b :: c :: bs =>
      b64Char (a.toNat / 4) :: b64Char (a.toNat % 4 * 16 + b.toNat / 16) ::
        b64Char (b.toNat % 16 * 4 + c.toNat / 64) :: b64Char (c.toNat % 64) :: b64encode bs

/-! ### Decoding -/

/-- The loop of `binascii.a2b_base64`: the position in the current group of
four, the bits left over from the previous digit, and the padding seen so far. -/
def a2bBase64 : (quadPos leftchar pads : Nat) → Str → Option Bytes
  | q, _, _, [] => if q = 0 then some [] else none
  | q, l, p, c :: cs =>
      if c = '=' then
        -- a completed pad sequence stops the parse, whatever follows it
        if 2 ≤ q ∧ 4 ≤ q + (p + 1) then some []
        else a2bBase64 q l (if 2 ≤ q then p + 1 else p) cs
      else match b64Value c with
        | none => a2bBase64 q l p cs
        | some v =>
            match q with
            | 0 => a2bBase64 1 v 0 cs
            | 1 => (a2bBase64 2 (v % 16) 0 cs).map (UInt8.ofNat (l * 4 + v / 16) :: ·)
            | 2 => (a2bBase64 3 (v % 4) 0 cs).map (UInt8.ofNat (l * 16 + v / 4) :: ·)
            | _ => (a2bBase64 0 0 0 cs).map (UInt8.ofNat (l * 64 + v) :: ·)

/-- `base64.b64decode(s)` of a `str`, or `none` where it raises. -/
def b64decode (s : Str) : Option Bytes := if isAscii s then a2bBase64 0 0 0 s else none

/-! ### Round trip -/

section digits

variable {n : Nat} (hn : n < 64) (l p : Nat) (cs : Str)
include hn

theorem a2bBase64_zero : a2bBase64 0 l p (b64Char n :: cs) = a2bBase64 1 n 0 cs := by
  simp only [a2bBase64, if_neg (b64Char_ne_pad n hn), b64Value_b64Char n hn]

theorem a2bBase64_one : a2bBase64 1 l p (b64Char n :: cs) =
    (a2bBase64 2 (n % 16) 0 cs).map (UInt8.ofNat (l * 4 + n / 16) :: ·) := by
  simp only [a2bBase64, if_neg (b64Char_ne_pad n hn), b64Value_b64Char n hn]

theorem a2bBase64_two : a2bBase64 2 l p (b64Char n :: cs) =
    (a2bBase64 3 (n % 4) 0 cs).map (UInt8.ofNat (l * 16 + n / 4) :: ·) := by
  simp only [a2bBase64, if_neg (b64Char_ne_pad n hn), b64Value_b64Char n hn]

theorem a2bBase64_three : a2bBase64 3 l p (b64Char n :: cs) =
    (a2bBase64 0 0 0 cs).map (UInt8.ofNat (l * 64 + n) :: ·) := by
  simp only [a2bBase64, if_neg (b64Char_ne_pad n hn), b64Value_b64Char n hn]

end digits

/-- **Base64 round trip.** Three bytes make four characters with the same 24 bits, and the
padding says how many bytes the last group has. -/
theorem a2bBase64_b64encode (bs : Bytes) : a2bBase64 0 0 0 (b64encode bs) = some bs := by
  induction bs using b64encode.induct with
  | case1 => rfl
  | case2 a =>
      have ha := a.toNat_lt
      have e1 : a.toNat / 4 * 4 + a.toNat % 4 * 16 / 16 = a.toNat := by omega
      rw [b64encode, a2bBase64_zero (by omega), a2bBase64_one (by omega), e1]
      simp [a2bBase64]
  | case3 a b =>
      have ha := a.toNat_lt
      have hb := b.toNat_lt
      have e1 : a.toNat / 4 * 4 + (a.toNat % 4 * 16 + b.toNat / 16) / 16 = a.toNat := by omega
      have e2 : (a.toNat % 4 * 16 + b.toNat / 16) % 16 * 16 + b.toNat % 16 * 4 / 4 = b.toNat := by
        omega
      rw [b64encode, a2bBase64_zero (by omega), a2bBase64_one (by omega),
        a2bBase64_two (by omega), e1, e2]
      simp [a2bBase64]
  | case4 a b c bs ih =>
      have ha := a.toNat_lt
      have hb := b.toNat_lt
      have hc := c.toNat_lt
      have e1 : a.toNat / 4 * 4 + (a.toNat % 4 * 16 + b.toNat / 16) / 16 = a.toNat := by omega
      have e2 : (a.toNat % 4 * 16 + b.toNat / 16) % 16 * 16 +
          (b.toNat % 16 * 4 + c.toNat / 64) / 4 = b.toNat := by omega
      have e3 : (b.toNat % 16 * 4 + c.toNat / 64) % 4 * 64 + c.toNat % 64 = c.toNat := by omega
      rw [b64encode, a2bBase64_zero (by omega), a2bBase64_one (by omega),
        a2bBase64_two (by omega), a2bBase64_three (by omega), e1, e2, e3, ih]
      simp

/-- Every character of an encoding is a base64 digit or padding. By the cases of the encoder; each
digit is a quotient or a remainder below 64. -/
theorem mem_b64encode {c : Char} {bs : Bytes} (h : c ∈ b64encode bs) :
    c = '=' ∨ ∃ n < 64, c = b64Char n := by
  induction bs using b64encode.induct with
  | case1 => simp [b64encode] at h
  | case2 a =>
      have ha := a.toNat_lt
      simp only [b64encode, List.mem_cons, List.not_mem_nil, or_false] at h
      rcases h with h | h | h | h
      · exact Or.inr ⟨_, by omega, h⟩
      · exact Or.inr ⟨_, by omega, h⟩
      · exact Or.inl h
      · exact Or.inl h
  | case3 a b =>
      have ha := a.toNat_lt
      have hb := b.toNat_lt
      simp only [b64encode, List.mem_cons, List.not_mem_nil, or_false] at h
      rcases h with h | h | h | h
      · exact Or.inr ⟨_, by omega, h⟩
      · exact Or.inr ⟨_, by omega, h⟩
      · exact Or.inr ⟨_, by omega, h⟩
      · exact Or.inl h
  | case4 a b c bs ih =>
      have ha := a.toNat_lt
      have hb := b.toNat_lt
      have hc := c.toNat_lt
      simp only [b64encode, List.mem_cons] at h
      rcases h with h | h | h | h | h
      · exact Or.inr ⟨_, by omega, h⟩
      · exact Or.inr ⟨_, by omega, h⟩
      · exact Or.inr ⟨_, by omega, h⟩
      · exact Or.inr ⟨_, by omega, h⟩
      · exact ih h

theorem isAscii_b64encode (bs : Bytes) : isAscii (b64encode bs) = true := by
  refine List.all_eq_true.mpr (fun c hc => ?_)
  rcases mem_b64encode hc with rfl | ⟨n, hn, rfl⟩
  · decide
  · exact b64Char_ascii n hn

theorem not_isSpace_of_mem_b64encode {c : Char} {bs : Bytes} (h : c ∈ b64encode bs) :
    isSpace c = false := by
  rcases mem_b64encode h with rfl | ⟨n, hn, rfl⟩
  · decide
  · exact b64Char_not_space n hn

/-- An encoding is made of whole groups of four, so it never lacks padding. -/
theorem length_b64encode_mod (bs : Bytes) : (b64encode bs).length % 4 = 0 := by
  induction bs using b64encode.induct with
  | case1 => rfl
  | case2 a => simp [b64encode]
  | case3 a b => simp [b64encode]
  | case4 a b c bs ih =>
      simp only [b64encode, List.length_cons]
      omega

@[simp] theorem b64decode_b64encode (bs : Bytes) : b64decode (b64encode bs) = some bs := by
  rw [b64decode, if_pos (isAscii_b64encode bs), a2bBase64_b64encode]

example : b64encode [1, 2, 3, 4] = "AQIDBA==".toList := by decide

/-! ### The variants of an encoding

The padding can be left out and the URL-safe alphabet writes two digits otherwise. -/

/-- The digit in the URL-safe alphabet. -/
def toUrlSafe (c : Char) : Char := if c = '+' then '-' else if c = '/' then '_' else c

/-- An encoding without its padding. -/
def unpadded (bs : Bytes) : Str := (b64encode bs).filter (· != '=')

/-- An encoding in either alphabet, with or without its padding. -/
def b64Text (urlSafe padded : Bool) (bs : Bytes) : Str :=
  let s := if padded then b64encode bs else unpadded bs
  if urlSafe then s.map toUrlSafe else s

theorem mem_unpadded {c : Char} {bs : Bytes} {padded : Bool}
    (h : c ∈ (if padded then b64encode bs else unpadded bs)) : c ∈ b64encode bs := by
  cases padded with
  | true => exact h
  | false => exact (List.mem_filter.mp h).1

/-- The characters of every variant: those of the alphabet, the padding, and the two by which the
URL-safe variant replaces others. -/
theorem mem_b64Text {urlSafe padded : Bool} {bs : Bytes} {c : Char}
    (h : c ∈ b64Text urlSafe padded bs) :
    c ∈ ['=', '-', '_'] ∨ ∃ n < 64, c = b64Char n := by
  cases urlSafe with
  | false =>
      rcases mem_b64encode (mem_unpadded h) with rfl | hn
      · exact Or.inl (by decide)
      · exact Or.inr hn
  | true =>
      obtain ⟨d, hd, rfl⟩ := List.mem_map.mp h
      rcases mem_b64encode (mem_unpadded hd) with rfl | ⟨n, hn, rfl⟩
      · exact Or.inl (by decide)
      · unfold toUrlSafe
        split_ifs
        · exact Or.inl (by decide)
        · exact Or.inl (by decide)
        · exact Or.inr ⟨n, hn, rfl⟩

/-- No variant contains a character that is neither a digit, padding, nor one of the
two URL-safe digits. -/
theorem not_mem_b64Text {c : Char} (hc : c ∉ ['=', '-', '_']) (hv : b64Value c = none)
    (urlSafe padded : Bool) (bs : Bytes) : c ∉ b64Text urlSafe padded bs := by
  intro h
  rcases mem_b64Text h with h | ⟨n, hn, rfl⟩
  · exact hc h
  · rw [b64Value_b64Char n hn] at hv
    cases hv

theorem not_isSpace_of_mem_b64Text {urlSafe padded : Bool} {bs : Bytes} {c : Char}
    (h : c ∈ b64Text urlSafe padded bs) : isSpace c = false := by
  rcases mem_b64Text h with h | ⟨n, hn, rfl⟩
  · simp only [List.mem_cons, List.not_mem_nil, or_false] at h
    rcases h with rfl | rfl | rfl <;> rfl
  · exact b64Char_not_space n hn

theorem filter_digit {n : Nat} (hn : n < 64) (s : Str) :
    (b64Char n :: s).filter (· != '=') = b64Char n :: s.filter (· != '=') :=
  List.filter_cons_of_pos (bne_iff_ne.mpr (b64Char_ne_pad n hn))

theorem unpadded_one (a : UInt8) :
    unpadded [a] = [b64Char (a.toNat / 4), b64Char (a.toNat % 4 * 16)] := by
  have ha := a.toNat_lt
  simp only [unpadded, b64encode]
  rw [filter_digit (by omega), filter_digit (by omega)]
  rfl

theorem unpadded_two (a b : UInt8) : unpadded [a, b] =
    [b64Char (a.toNat / 4), b64Char (a.toNat % 4 * 16 + b.toNat / 16),
      b64Char (b.toNat % 16 * 4)] := by
  have ha := a.toNat_lt
  have hb := b.toNat_lt
  simp only [unpadded, b64encode]
  rw [filter_digit (by omega), filter_digit (by omega), filter_digit (by omega)]
  rfl

theorem unpadded_group (a b c : UInt8) (bs : Bytes) : unpadded (a :: b :: c :: bs) =
    b64Char (a.toNat / 4) :: b64Char (a.toNat % 4 * 16 + b.toNat / 16) ::
      b64Char (b.toNat % 16 * 4 + c.toNat / 64) :: b64Char (c.toNat % 64) :: unpadded bs := by
  have ha := a.toNat_lt
  have hb := b.toNat_lt
  have hc := c.toNat_lt
  simp only [unpadded, b64encode]
  rw [filter_digit (by omega), filter_digit (by omega), filter_digit (by omega),
    filter_digit (by omega)]

/-- The length alone says which padding was left out: whole groups are of four characters, and the
last one lacks as many as the padding has. -/
theorem unpadded_append (bs : Bytes) :
    unpadded bs ++ List.replicate ((4 - (unpadded bs).length % 4) % 4) '=' = b64encode bs := by
  induction bs using b64encode.induct with
  | case1 => rfl
  | case2 a =>
      rw [unpadded_one]
      rfl
  | case3 a b =>
      rw [unpadded_two]
      rfl
  | case4 a b c bs ih =>
      -- a whole group in front does not change the length modulo four
      rw [unpadded_group, b64encode]
      simp only [List.length_cons, List.cons_append, Nat.add_assoc, Nat.reduceAdd, Nat.add_mod_right]
      rw [ih]

/-- The last digit of text that ends in a decimal digit has some zero bit: it is never
the value 63. -/
theorem getLast?_unpadded (bs : Bytes) {d : UInt8} (hd : 48 ≤ d.toNat) (hd' : d.toNat < 58) :
    ∃ n < 63, (unpadded (bs ++ [d])).getLast? = some (b64Char n) := by
  induction bs using b64encode.induct with
  | case1 => exact ⟨d.toNat % 4 * 16, by omega, by rw [List.nil_append, unpadded_one]; rfl⟩
  | case2 a =>
      refine ⟨d.toNat % 16 * 4, by omega, ?_⟩
      rw [List.cons_append, List.nil_append, unpadded_two]
      rfl
  | case3 a b =>
      refine ⟨d.toNat % 64, by omega, ?_⟩
      rw [List.cons_append, List.cons_append, List.nil_append, unpadded_group]
      rfl
  | case4 a b c bs ih =>
      obtain ⟨n, hn, hlast⟩ := ih
      refine ⟨n, hn, ?_⟩
      simp only [List.cons_append, unpadded_group, List.getLast?_cons, hlast, Option.getD_some]

/-- Text that ends in a decimal digit is never encoded with a slash at the end. The last digit holds
the low bits of the last byte, which are not all ones, and the URL-safe alphabet has no slash. -/
theorem getLast?_b64Text_ne (urlSafe padded : Bool) (bs : Bytes) {d : UInt8} (hd : 48 ≤ d.toNat)
    (hd' : d.toNat < 58) : (b64Text urlSafe padded (bs ++ [d])).getLast? ≠ some '/' := by
  have hsafe : ∀ c, toUrlSafe c ≠ '/' := by
    intro c
    unfold toUrlSafe
    split_ifs with h1 h2
    · decide
    · decide
    · exact h2
  have hchar : ∀ n < 63, b64Char n ≠ '/' := by decide
  obtain ⟨n, hn, hlast⟩ := getLast?_unpadded bs hd hd'
  cases urlSafe with
  | true =>
      intro h
      obtain ⟨c, -, hc⟩ := List.mem_map.mp (List.mem_of_getLast? h)
      exact hsafe c hc
  | false =>
      cases padded with
      | false =>
          intro h
          exact hchar n hn (Option.some.inj (hlast.symm.trans h))
      | true =>
          intro h
          have hsplit := unpadded_append (bs ++ [d])
          -- the encoding ends in padding or in the last digit
          rw [b64Text, if_pos rfl, if_neg (by decide), ← hsplit, List.getLast?_append, hlast] at h
          rcases Option.or_eq_some_iff.mp h with h | ⟨-, h⟩
          · exact absurd (List.eq_of_mem_replicate (List.mem_of_getLast? h)) (by decide)
          · exact hchar n hn (Option.some.inj h)

/-! ### Plain text read as base64

`/` is the digit 63, so `//` contributes twelve one-bits in a row. Whatever the
position in the group of four, these fill a whole byte `0xff` or the leading six
bits of one, and no such byte occurs in UTF-8. -/

theorem b64Value_lt {c : Char} {v : Nat} (h : b64Value c = some v) : v < 64 := by
  simp only [b64Value, Char.le_def, UInt32.le_iff_toNat_le] at h
  split_ifs at h with h1 h2 h3
  · obtain rfl := Option.some.inj h
    exact Nat.lt_of_le_of_lt (Nat.sub_le_sub_right h1.2 65) (by decide)
  · obtain rfl := Option.some.inj h
    exact Nat.lt_of_le_of_lt (Nat.sub_le_sub_right h2.2 71) (by decide)
  · obtain rfl := Option.some.inj h
    exact Nat.lt_of_le_of_lt (Nat.add_le_add_right h3.2 4) (by decide)
  · obtain rfl := Option.some.inj h
    decide
  · obtain rfl := Option.some.inj h
    decide

/-- With six one-bits left over at the first position of a group, the next byte
is above `0xfb`, or the input ends inside the group. -/
theorem a2bBase64_left_ones {p : Nat} {cs : Str} {bs : Bytes}
    (h : a2bBase64 1 63 p cs = some bs) : ∃ b ∈ bs, 0xf5 ≤ b.toNat := by
  induction cs generalizing p with
  | nil => simp [a2bBase64] at h
  | cons c cs ih =>
      by_cases hc : c = '='
      · rw [a2bBase64, if_pos hc, if_neg (by omega)] at h
        exact ih h
      · rw [a2bBase64, if_neg hc] at h
        cases hv : b64Value c with
        | none => rw [hv] at h; exact ih h
        | some v =>
            rw [hv] at h
            have hlt := b64Value_lt hv
            obtain ⟨bs', -, rfl⟩ := Option.map_eq_some_iff.mp h
            refine ⟨_, List.mem_cons_self, ?_⟩
            rw [UInt8.toNat_ofNat_of_lt' (show 63 * 4 + v / 16 < 256 by omega)]
            omega

/-- Decoding `://` at any position of a group emits a byte above `0xf4`. The colon is skipped and
each slash is six ones, so some byte gets its high bits from them. -/
theorem a2bBase64_slashes {q l p : Nat} {cs : Str} {bs : Bytes}
    (h : a2bBase64 q l p (':' :: '/' :: '/' :: cs) = some bs) : ∃ b ∈ bs, 0xf5 ≤ b.toNat := by
  have hcolon : a2bBase64 q l p (':' :: '/' :: '/' :: cs) = a2bBase64 q l p ('/' :: '/' :: cs) := by
    rw [a2bBase64]
    rfl
  rw [hcolon] at h
  have hslash : '/' = b64Char 63 := by decide
  rw [hslash] at h
  match q with
  | 0 =>
      rw [a2bBase64_zero (by decide), a2bBase64_one (by decide)] at h
      obtain ⟨bs', -, rfl⟩ := Option.map_eq_some_iff.mp h
      exact ⟨_, List.mem_cons_self, by decide⟩
  | 1 =>
      rw [a2bBase64_one (by decide), a2bBase64_two (by decide)] at h
      obtain ⟨bs', h', rfl⟩ := Option.map_eq_some_iff.mp h
      obtain ⟨bs'', -, rfl⟩ := Option.map_eq_some_iff.mp h'
      exact ⟨_, List.mem_cons_of_mem _ List.mem_cons_self, by decide⟩
  | 2 =>
      rw [a2bBase64_two (by decide), a2bBase64_three (by decide)] at h
      obtain ⟨bs', h', rfl⟩ := Option.map_eq_some_iff.mp h
      obtain ⟨bs'', -, rfl⟩ := Option.map_eq_some_iff.mp h'
      exact ⟨_, List.mem_cons_of_mem _ List.mem_cons_self, by decide⟩
  | q + 3 =>
      -- the second slash opens a new group, so its bits show in the next byte
      have h3 : a2bBase64 (q + 3) l p (b64Char 63 :: b64Char 63 :: cs) =
          (a2bBase64 1 63 0 cs).map (UInt8.ofNat (l * 64 + 63) :: ·) := by
        rw [a2bBase64, if_neg (by decide), b64Value_b64Char 63 (by decide)]
        simp only [a2bBase64_zero (n := 63) (by decide)]
      rw [h3] at h
      obtain ⟨bs', h', rfl⟩ := Option.map_eq_some_iff.mp h
      obtain ⟨b, hb, hhigh⟩ := a2bBase64_left_ones h'
      exact ⟨b, List.mem_cons_of_mem _ hb, hhigh⟩

/-- The same after any text without padding: it only moves the position within a group, and what it
emits stands before. -/
theorem a2bBase64_append_slashes {a cs : Str} (ha : '=' ∉ a) {q l p : Nat} {bs : Bytes}
    (h : a2bBase64 q l p (a ++ ':' :: '/' :: '/' :: cs) = some bs) :
    ∃ b ∈ bs, 0xf5 ≤ b.toNat := by
  induction a generalizing q l p bs with
  | nil => exact a2bBase64_slashes h
  | cons c a ih =>
      obtain ⟨hc, ha'⟩ : c ≠ '=' ∧ '=' ∉ a := by
        simpa [eq_comm] using ha
      have lift : ∀ {o : Option Bytes} {b : UInt8}, (∀ bs', o = some bs' →
          ∃ b ∈ bs', 0xf5 ≤ b.toNat) → o.map (b :: ·) = some bs → ∃ b ∈ bs, 0xf5 ≤ b.toNat := by
        intro o b ho hm
        obtain ⟨bs', ho', rfl⟩ := Option.map_eq_some_iff.mp hm
        obtain ⟨b', hb', hhigh⟩ := ho bs' ho'
        exact ⟨b', List.mem_cons_of_mem _ hb', hhigh⟩
      rw [List.cons_append, a2bBase64, if_neg hc] at h
      cases hv : b64Value c with
      | none => rw [hv] at h; exact ih ha' h
      | some v =>
          rw [hv] at h
          match q, h with
          | 0, h => exact ih ha' h
          | 1, h => exact lift (fun _ h' => ih ha' h') h
          | 2, h => exact lift (fun _ h' => ih ha' h') h
          | q + 3, h => exact lift (fun _ h' => ih ha' h') h

/-- **A URL list is never base64.** Text whose first `=`-free part is followed by
`://` either does not base64-decode or decodes to bytes that are not UTF-8. -/
theorem decode_b64decode_slashes {a : Str} (ha : '=' ∉ a) (cs : Str) :
    (b64decode (a ++ ':' :: '/' :: '/' :: cs)).bind decode = none := by
  unfold b64decode
  split_ifs
  · cases h : a2bBase64 0 0 0 (a ++ ':' :: '/' :: '/' :: cs) with
    | none => rfl
    | some bs =>
        obtain ⟨b, hb, hhigh⟩ := a2bBase64_append_slashes ha h
        exact decode_eq_none_of_high hb hhigh
  · rfl

end BlogStuff.Python
