import BlogStuff.Python.Str
import Mathlib.Data.List.ReduceOption

/-!
# BlogStuff.Python.Utf8

`str.encode()` and `bytes.decode()` for UTF-8.

Encoding is the core library's `String.utf8EncodeChar`. Decoding is a machine
that eats one byte at a time and emits, for every character, `some c`, and for
every maximal ill-formed piece of input, `none`. The two error handlers are
then two readings of the same output: `strict` fails on the first `none`
(`decode`), `replace` turns each one into U+FFFD (`decodeReplace`).
-/

namespace BlogStuff.Python

/-- `s.encode()`. -/
def encode (s : Str) : Bytes := s.flatMap String.utf8EncodeChar

@[simp] theorem encode_cons (c : Char) (s : Str) :
    encode (c :: s) = String.utf8EncodeChar c ++ encode s := rfl

/-! ### The decoder -/

/-- A multi-byte character in progress: how many continuation bytes it still
needs, the range the next one must lie in, and the bits read so far. -/
structure Pending where
  need : Nat
  lo : Nat
  hi : Nat
  bits : Nat

/-- Read a byte between characters. The narrowed ranges after `0xe0`, `0xed`,
`0xf0` and `0xf4` exclude overlong forms, surrogates and values past U+10FFFF. -/
def startByte (b : Nat) : List (Option Char) × Option Pending :=
  if b < 0x80 then ([some (Char.ofNat b)], none)
  else if b < 0xc2 then ([none], none)
  else if b < 0xe0 then ([], some ⟨1, 0x80, 0xbf, b - 0xc0⟩)
  else if b < 0xf0 then
    ([], some ⟨2, if b = 0xe0 then 0xa0 else 0x80, if b = 0xed then 0x9f else 0xbf, b - 0xe0⟩)
  else if b < 0xf5 then
    ([], some ⟨3, if b = 0xf0 then 0x90 else 0x80, if b = 0xf4 then 0x8f else 0xbf, b - 0xf0⟩)
  else ([none], none)

/-- Read a byte in any state. A byte that cannot continue the character in
progress ends it as ill-formed and is itself read as a start byte. -/
def nextByte : Option Pending → Nat → List (Option Char) × Option Pending
  | none, b => startByte b
  | some p, b =>
      if p.lo ≤ b ∧ b ≤ p.hi then
        if p.need ≤ 1 then ([some (Char.ofNat (p.bits * 64 + (b - 0x80)))], none)
        else ([], some ⟨p.need - 1, 0x80, 0xbf, p.bits * 64 + (b - 0x80)⟩)
      else (none :: (startByte b).1, (startByte b).2)

/-- The decoder's output: one entry per character or ill-formed piece. -/
def decodeUnits : Option Pending → Bytes → List (Option Char)
  | st, [] => if st.isSome then [none] else []
  | st, b :: bs => (nextByte st b.toNat).1 ++ decodeUnits (nextByte st b.toNat).2 bs

/-- `bs.decode()`, or `none` where it raises `UnicodeDecodeError`. -/
def decode (bs : Bytes) : Option Str :=
  if (decodeUnits none bs).all Option.isSome then some (decodeUnits none bs).reduceOption
  else none

/-- `bs.decode("utf-8", "replace")`. -/
def decodeReplace (bs : Bytes) : Str :=
  (decodeUnits none bs).map (·.getD (Char.ofNat 0xfffd))

/-! ### Round trip -/

theorem decodeUnits_cons (st : Option Pending) {b : Nat} (hb : b < 256) (bs : Bytes) :
    decodeUnits st (UInt8.ofNat b :: bs) =
      (nextByte st b).1 ++ decodeUnits (nextByte st b).2 bs := by
  rw [decodeUnits, UInt8.toNat_ofNat_of_lt' hb]

theorem decodeUnits_more {n lo hi bits b : Nat} (hlo : lo ≤ b) (hhi : b ≤ hi) (hb : b < 256)
    (bs : Bytes) : decodeUnits (some ⟨n + 2, lo, hi, bits⟩) (UInt8.ofNat b :: bs) =
      decodeUnits (some ⟨n + 1, 0x80, 0xbf, bits * 64 + (b - 0x80)⟩) bs := by
  rw [decodeUnits_cons _ hb]
  simp [nextByte, hlo, hhi]

theorem decodeUnits_last {lo hi bits b : Nat} (hlo : lo ≤ b) (hhi : b ≤ hi) (hb : b < 256)
    (bs : Bytes) : decodeUnits (some ⟨1, lo, hi, bits⟩) (UInt8.ofNat b :: bs) =
      some (Char.ofNat (bits * 64 + (b - 0x80))) :: decodeUnits none bs := by
  rw [decodeUnits_cons _ hb]
  simp [nextByte, hlo, hhi]

theorem decodeUnits_two {b : Nat} (h1 : 0xc2 ≤ b) (h2 : b < 0xe0) (bs : Bytes) :
    decodeUnits none (UInt8.ofNat b :: bs) = decodeUnits (some ⟨1, 0x80, 0xbf, b - 0xc0⟩) bs := by
  rw [decodeUnits_cons _ (by omega)]
  simp [nextByte, startByte, show ¬ b < 0x80 by omega, show ¬ b < 0xc2 by omega, h2]

theorem decodeUnits_three {b : Nat} (h1 : 0xe0 ≤ b) (h2 : b < 0xf0) (bs : Bytes) :
    decodeUnits none (UInt8.ofNat b :: bs) = decodeUnits (some ⟨2, if b = 0xe0 then 0xa0 else 0x80,
      if b = 0xed then 0x9f else 0xbf, b - 0xe0⟩) bs := by
  rw [decodeUnits_cons _ (by omega)]
  simp [nextByte, startByte, show ¬ b < 0x80 by omega, show ¬ b < 0xc2 by omega,
    show ¬ b < 0xe0 by omega, h2]

theorem decodeUnits_four {b : Nat} (h1 : 0xf0 ≤ b) (h2 : b < 0xf5) (bs : Bytes) :
    decodeUnits none (UInt8.ofNat b :: bs) = decodeUnits (some ⟨3, if b = 0xf0 then 0x90 else 0x80,
      if b = 0xf4 then 0x8f else 0xbf, b - 0xf0⟩) bs := by
  rw [decodeUnits_cons _ (by omega)]
  simp [nextByte, startByte, show ¬ b < 0x80 by omega, show ¬ b < 0xc2 by omega,
    show ¬ b < 0xe0 by omega, show ¬ b < 0xf0 by omega, h2]

/-- The decoder reads back one encoded character and is between characters again. One case for each
encoded length, in which the bytes are put together to the number of the character. -/
theorem decodeUnits_utf8EncodeChar (c : Char) (bs : Bytes) :
    decodeUnits none (String.utf8EncodeChar c ++ bs) = some c :: decodeUnits none bs := by
  have hv : c.toNat < 0xd800 ∨ (0xdfff < c.toNat ∧ c.toNat < 0x110000) := c.valid
  have hc : Char.ofNat c.toNat = c := Char.ofNat_toNat c
  simp only [String.utf8EncodeChar]
  change decodeUnits none ((if c.toNat ≤ _ then [UInt8.ofNat c.toNat] else _) ++ bs) = _
  set v := c.toNat with hvdef
  change decodeUnits none ((if v ≤ 0x7f then _ else if v ≤ 0x7ff then
    [UInt8.ofNat (v / 64 % 0x20 + 0xc0), UInt8.ofNat (v % 0x40 + 0x80)] else if v ≤ 0xffff then
    [UInt8.ofNat (v / 4096 % 0x10 + 0xe0), UInt8.ofNat (v / 64 % 0x40 + 0x80),
      UInt8.ofNat (v % 0x40 + 0x80)] else
    [UInt8.ofNat (v / 262144 % 0x08 + 0xf0), UInt8.ofNat (v / 4096 % 0x40 + 0x80),
      UInt8.ofNat (v / 64 % 0x40 + 0x80), UInt8.ofNat (v % 0x40 + 0x80)]) ++ bs) = _
  split_ifs with h1 h2 h3
  · rw [List.singleton_append, decodeUnits_cons _ (by omega)]
    simp [nextByte, startByte, show v < 0x80 by omega, hc]
  · simp only [List.cons_append, List.nil_append]
    rw [decodeUnits_two (by omega) (by omega), decodeUnits_last (by omega) (by omega) (by omega),
      show (v / 64 % 32 + 192 - 192) * 64 + (v % 64 + 128 - 128) = v by omega, hc]
  · simp only [List.cons_append, List.nil_append]
    rw [decodeUnits_three (by omega) (by omega),
      decodeUnits_more (by split_ifs <;> omega) (by split_ifs <;> omega) (by omega),
      decodeUnits_last (by omega) (by omega) (by omega),
      show ((v / 4096 % 16 + 224 - 224) * 64 + (v / 64 % 64 + 128 - 128)) * 64 +
        (v % 64 + 128 - 128) = v by omega, hc]
  · simp only [List.cons_append, List.nil_append]
    rw [decodeUnits_four (by omega) (by omega),
      decodeUnits_more (by split_ifs <;> omega) (by split_ifs <;> omega) (by omega),
      decodeUnits_more (by omega) (by omega) (by omega),
      decodeUnits_last (by omega) (by omega) (by omega),
      show (((v / 262144 % 8 + 240 - 240) * 64 + (v / 4096 % 64 + 128 - 128)) * 64 +
        (v / 64 % 64 + 128 - 128)) * 64 + (v % 64 + 128 - 128) = v by omega, hc]
/-- The decoder's output on encoded text is that text, followed by what comes after. -/
theorem decodeUnits_encode (s : Str) (bs : Bytes) :
    decodeUnits none (encode s ++ bs) = s.map some ++ decodeUnits none bs := by
  induction s with
  | nil => rfl
  | cons c s ih =>
      rw [encode_cons, List.append_assoc, decodeUnits_utf8EncodeChar, ih, List.map_cons,
        List.cons_append]

theorem decodeUnits_encode_nil (s : Str) : decodeUnits none (encode s) = s.map some := by
  simpa [decodeUnits] using decodeUnits_encode s []

/-- **UTF-8 round trip**, strict. -/
@[simp] theorem decode_encode (s : Str) : decode (encode s) = some s := by
  simp [decode, decodeUnits_encode_nil, List.reduceOption]

/-- UTF-8 round trip, replacing. -/
@[simp] theorem decodeReplace_encode (s : Str) : decodeReplace (encode s) = s := by
  simp [decodeReplace, decodeUnits_encode_nil]

/-- ASCII text is its own encoding, byte for character. -/
theorem encode_ascii {s : Str} (h : isAscii s = true) :
    encode s = s.map fun c => UInt8.ofNat c.toNat := by
  induction s with
  | nil => rfl
  | cons c s ih =>
      obtain ⟨hc, hs⟩ : c.toNat < 128 ∧ isAscii s = true := by
        simpa [isAscii, isAsciiChar] using h
      rw [encode_cons, ih hs, List.map_cons]
      have : String.utf8EncodeChar c = [UInt8.ofNat c.toNat] := by
        unfold String.utf8EncodeChar
        exact if_pos (show c.toNat ≤ 127 by omega)
      rw [this, List.singleton_append]

/-! ### Ill-formed input -/

/-- A byte above `0xf4` is ill-formed wherever it stands. -/
theorem nextByte_high {st : Option Pending} (hst : ∀ p, st = some p → p.hi ≤ 0xbf) {b : Nat}
    (hb : 0xf5 ≤ b) : none ∈ (nextByte st b).1 := by
  have hs : startByte b = ([none], none) := by
    simp [startByte, show ¬ b < 0x80 by omega, show ¬ b < 0xc2 by omega,
      show ¬ b < 0xe0 by omega, show ¬ b < 0xf0 by omega, show ¬ b < 0xf5 by omega]
  cases st with
  | none => simp [nextByte, hs]
  | some p =>
      have : ¬ b ≤ p.hi := by have := hst p rfl; omega
      simp [nextByte, this]

/-- The machine only ever waits for continuation bytes. Some lead bytes narrow the range for the
next one, but only downwards. -/
theorem nextByte_hi {st : Option Pending} {b : Nat} {p : Pending}
    (h : (nextByte st b).2 = some p) : p.hi ≤ 0xbf := by
  have hs : ∀ q, (startByte b).2 = some q → q.hi ≤ 0xbf := by
    intro q hq
    unfold startByte at hq
    split_ifs at hq <;> simp_all <;> subst hq <;> simp
  cases st with
  | none => exact hs p h
  | some q =>
      simp only [nextByte] at h
      split_ifs at h
      · obtain rfl := Option.some.inj h
        exact le_rfl
      · exact hs p h

/-- Input holding a byte above `0xf4` does not decode. In every state the machine can be in, such a
byte is neither a start nor a continuation, so it gives an error. -/
theorem decode_eq_none_of_high {bs : Bytes} {b : UInt8} (hmem : b ∈ bs) (hb : 0xf5 ≤ b.toNat) :
    decode bs = none := by
  have key : ∀ (st : Option Pending) (bs : Bytes), (∀ p, st = some p → p.hi ≤ 0xbf) → b ∈ bs →
      none ∈ decodeUnits st bs := by
    intro st bs
    induction bs generalizing st with
    | nil => intro _ h; simp at h
    | cons a bs ih =>
        intro hst h
        rw [decodeUnits, List.mem_append]
        rcases List.mem_cons.mp h with rfl | h
        · exact Or.inl (nextByte_high hst hb)
        · exact Or.inr (ih _ (fun p hp => nextByte_hi hp) h)
  have hnone : ¬ (decodeUnits none bs).all Option.isSome = true := by
    intro h
    simpa using List.all_eq_true.mp h none (key none bs (by simp) hmem)
  rw [decode, if_neg hnone]

/-- The encoding of a character outside ASCII starts with a byte that continues none. The three
lengths have their own lead bytes, all of them from `0xc0` on. -/
theorem utf8EncodeChar_head {c : Char} (hc : 0x80 ≤ c.toNat) :
    ∃ b bs, String.utf8EncodeChar c = b :: bs ∧ 0xc0 ≤ b.toNat := by
  have hbyte : ∀ n < 256, (UInt8.ofNat n).toNat = n := by
    intro n hn
    rw [UInt8.toNat_ofNat', Nat.mod_eq_of_lt hn]
  unfold String.utf8EncodeChar
  change ∃ b bs, (if c.toNat ≤ 0x7f then _ else if c.toNat ≤ 0x7ff then
    [UInt8.ofNat (c.toNat / 64 % 0x20 + 0xc0), _] else if c.toNat ≤ 0xffff then
    [UInt8.ofNat (c.toNat / 4096 % 0x10 + 0xe0), _, _] else
    [UInt8.ofNat (c.toNat / 262144 % 0x08 + 0xf0), _, _, _]) = b :: bs ∧ 0xc0 ≤ b.toNat
  rw [if_neg (by omega)]
  split_ifs
  · exact ⟨_, _, rfl, by rw [hbyte _ (by omega)]; omega⟩
  · exact ⟨_, _, rfl, by rw [hbyte _ (by omega)]; omega⟩
  · exact ⟨_, _, rfl, by rw [hbyte _ (by omega)]; omega⟩

/-- UTF-8 is self-synchronising: the encoding of a character stands in an encoded text
only where the character does. -/
theorem mem_of_infix_encode {c : Char} (hc : 0x80 ≤ c.toNat) {s : Str}
    (h : String.utf8EncodeChar c <:+: encode s) : c ∈ s := by
  obtain ⟨b, rest, hhead, hb⟩ := utf8EncodeChar_head hc
  have key : ∀ (st : Option Pending) (a bs : Bytes), (∀ p, st = some p → p.hi ≤ 0xbf) →
      none ∈ decodeUnits st (a ++ (String.utf8EncodeChar c ++ bs)) ∨
        some c ∈ decodeUnits st (a ++ (String.utf8EncodeChar c ++ bs)) := by
    intro st a bs hst
    induction a generalizing st with
    | nil =>
        cases st with
        | none => simp [decodeUnits_utf8EncodeChar]
        | some p =>
            -- the character in progress is cut off
            have hno : ¬ (p.lo ≤ b.toNat ∧ b.toNat ≤ p.hi) := by
              have := hst p rfl
              omega
            rw [List.nil_append, hhead, List.cons_append, decodeUnits, nextByte, if_neg hno]
            simp
    | cons d a ih =>
        rw [List.cons_append, decodeUnits, List.mem_append, List.mem_append]
        rcases ih _ (fun p hp => nextByte_hi hp) with h | h
        · exact Or.inl (Or.inr h)
        · exact Or.inr (Or.inr h)
  obtain ⟨a, bs, hs⟩ := h
  have hunits := decodeUnits_encode_nil s
  rw [← hs, List.append_assoc] at hunits
  rcases key none a bs (by simp) with h | h
  · rw [hunits] at h
    simp at h
  · rw [hunits] at h
    simpa using h

/-- The decoder emits no more entries than it read bytes (one more when a
character was already in progress). -/
theorem length_decodeUnits_le (st : Option Pending) (bs : Bytes) :
    (decodeUnits st bs).length ≤ bs.length + st.toList.length := by
  have hs : ∀ b, (startByte b).1.length + (startByte b).2.toList.length ≤ 1 := by
    intro b
    unfold startByte
    split_ifs <;> exact le_rfl
  have hn : ∀ (st : Option Pending) (b : Nat),
      (nextByte st b).1.length + (nextByte st b).2.toList.length ≤ 1 + st.toList.length := by
    intro st b
    have := hs b
    cases st with
    | none => simpa only [nextByte, Option.toList_none, List.length_nil, Nat.add_zero] using this
    | some p =>
        simp only [nextByte, Option.toList_some, List.length_singleton]
        split_ifs
        · simp
        · simp
        · simp only [List.length_cons]
          omega
  induction bs generalizing st with
  | nil => cases st <;> simp [decodeUnits]
  | cons b bs ih =>
      have h1 := hn st b.toNat
      have h2 := ih (nextByte st b.toNat).2
      rw [decodeUnits, List.length_append, List.length_cons]
      omega

theorem length_decodeReplace_le (bs : Bytes) : (decodeReplace bs).length ≤ bs.length := by
  simpa [decodeReplace] using length_decodeUnits_le none bs

end BlogStuff.Python
