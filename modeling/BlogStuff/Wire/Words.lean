import Mathlib.Tactic

/-!
# BlogStuff.Wire.Words

Byte streams: little-endian words, reading an exact number of bytes, and frames written one
after another.

A `Codec` writes a frame and takes one off the front of a stream. Where taking undoes
writing (`Codec.Exact`) and a frame that is not all there is refused (`Codec.Waits`), the
reader of a stream that breaks off anywhere sees the frames that came through whole
(`Codec.readAll_take`).
-/

namespace BlogStuff.Wire

abbrev Bytes := List UInt8

/-! ### Words -/

/-- The four bytes of a word, least significant first. -/
def word32 (w : UInt32) : Bytes :=
  [UInt8.ofNat w.toNat, UInt8.ofNat (w.toNat / 2 ^ 8), UInt8.ofNat (w.toNat / 2 ^ 16),
    UInt8.ofNat (w.toNat / 2 ^ 24)]

/-- The word of four bytes. -/
def ofWord32 : Bytes → UInt32
  | [a, b, c, d] =>
      UInt32.ofNat (a.toNat + b.toNat * 2 ^ 8 + c.toNat * 2 ^ 16 + d.toNat * 2 ^ 24)
  | _ => 0

@[simp] theorem length_word32 (w : UInt32) : (word32 w).length = 4 := rfl

@[simp] theorem ofWord32_word32 (w : UInt32) : ofWord32 (word32 w) = w := by
  apply UInt32.toNat_inj.mp
  have hw := w.toNat_lt
  simp only [word32, ofWord32, UInt8.toNat_ofNat', UInt32.toNat_ofNat']
  omega

/-- Words are told apart by their bytes: the four bytes of a word are its digits to the base 256,
and they are written back as they were read. -/
theorem word32_ofWord32 {bs : Bytes} (h : bs.length = 4) : word32 (ofWord32 bs) = bs := by
  match bs, h with
  | [a, b, c, d], _ =>
      have ha := a.toNat_lt
      have hb := b.toNat_lt
      have hc := c.toNat_lt
      have hd := d.toNat_lt
      have hsmall : a.toNat + b.toNat * 2 ^ 8 + c.toNat * 2 ^ 16 + d.toNat * 2 ^ 24 < 2 ^ 32 := by
        omega
      simp only [word32, ofWord32, UInt32.toNat_ofNat', Nat.mod_eq_of_lt hsmall]
      refine congrArg₂ _ ?_ (congrArg₂ _ ?_ (congrArg₂ _ ?_ (congrArg₂ _ ?_ rfl))) <;>
      · apply UInt8.toNat_inj.mp
        rw [UInt8.toNat_ofNat']
        omega

/-- Word `k` of a stream of words. -/
def wordAt (bs : Bytes) (k : Nat) : UInt32 := ofWord32 ((bs.drop (4 * k)).take 4)

theorem wordAt_flatMap (ws : List UInt32) {k : Nat} (hk : k < ws.length) :
    wordAt (ws.flatMap word32) k = ws[k] := by
  induction ws generalizing k with
  | nil => cases hk
  | cons w ws ih =>
      cases k with
      | zero =>
          rw [wordAt, List.flatMap_cons, Nat.mul_zero, List.drop_zero,
            List.take_append_of_le_length (by simp), List.take_of_length_le (by simp)]
          exact ofWord32_word32 w
      | succ k =>
          have hdrop : ((w :: ws).flatMap word32).drop (4 * (k + 1)) =
              (ws.flatMap word32).drop (4 * k) := by
            rw [List.flatMap_cons, List.drop_append, length_word32,
              List.drop_eq_nil_of_le (by simp), List.nil_append,
              show 4 * (k + 1) - 4 = 4 * k by omega]
          rw [wordAt, hdrop]
          exact ih (Nat.lt_of_succ_lt_succ hk)

theorem wordAt_set_of_ne {bs : Bytes} {i k : Nat} (h : i / 4 ≠ k) (v : UInt8) :
    wordAt (bs.set i v) k = wordAt bs k := by
  have hsame : ((bs.set i v).drop (4 * k)).take 4 = (bs.drop (4 * k)).take 4 := by
    apply List.ext_getElem?
    intro j
    simp only [List.getElem?_take, List.getElem?_drop]
    split
    · exact List.getElem?_set_ne (by omega)
    · rfl
  rw [wordAt, wordAt, hsame]

/-- A change of one byte changes its word. Otherwise the four bytes at that place would be the same,
since they can be read off the word. -/
theorem wordAt_set_ne {bs : Bytes} {i : Nat} (h : 4 * (i / 4) + 4 ≤ bs.length) {v : UInt8}
    (hv : bs[i]? ≠ some v) : wordAt (bs.set i v) (i / 4) ≠ wordAt bs (i / 4) := by
  intro heq
  have hlen : ∀ l : Bytes, 4 * (i / 4) + 4 ≤ l.length → ((l.drop (4 * (i / 4))).take 4).length = 4 := by
    intro l hl
    rw [List.length_take, List.length_drop]
    omega
  have hbytes := congrArg word32 heq
  rw [wordAt, wordAt, word32_ofWord32 (hlen _ (by rwa [List.length_set])),
    word32_ofWord32 (hlen _ h)] at hbytes
  have hi := congrArg (fun l : Bytes => l[i % 4]?) hbytes
  simp only [List.getElem?_take, List.getElem?_drop, Nat.mod_lt i (by decide : 4 > 0), if_true,
    Nat.div_add_mod] at hi
  rw [List.getElem?_set_self (by omega)] at hi
  exact hv hi.symm

/-! ### Reading -/

/-- The next `n` bytes, if the stream has them. -/
def readx (n : Nat) (bs : Bytes) : Option (Bytes × Bytes) :=
  if n ≤ bs.length then some (bs.take n, bs.drop n) else none

theorem readx_append {n : Nat} {x : Bytes} (h : x.length = n) (rest : Bytes) :
    readx n (x ++ rest) = some (x, rest) := by
  subst h
  simp [readx]

theorem readx_eq_none {n : Nat} {bs : Bytes} : readx n bs = none ↔ bs.length < n := by
  simp [readx]

/-! ### Frames -/

/-- Writing a frame, and taking one off the front of a stream. -/
structure Codec (α : Type) where
  encode : α → Bytes
  decode : Bytes → Option (α × Bytes)

namespace Codec

variable {α : Type}

/-- Frame after frame until one cannot be taken, for at most so many frames. -/
def readUpTo (c : Codec α) : Nat → Bytes → List α
  | 0, _ => []
  | k + 1, bs =>
      match c.decode bs with
      | none => []
      | some (a, rest) => a :: readUpTo c k rest

/-- Frame after frame until one cannot be taken. -/
def readAll (c : Codec α) (bs : Bytes) : List α := c.readUpTo bs.length bs

/-- The frames that `n` bytes of the stream hold whole. -/
def whole (c : Codec α) : Nat → List α → List α
  | _, [] => []
  | n, a :: l =>
      if (c.encode a).length ≤ n then a :: whole c (n - (c.encode a).length) l else []

/-- Taking undoes writing. -/
def Exact (c : Codec α) (P : α → Prop) : Prop :=
  ∀ a, P a → c.encode a ≠ [] ∧ ∀ rest, c.decode (c.encode a ++ rest) = some (a, rest)

/-- A frame that is not all there is refused. -/
def Waits (c : Codec α) (P : α → Prop) : Prop :=
  c.decode [] = none ∧ ∀ a, P a → ∀ n < (c.encode a).length, c.decode ((c.encode a).take n) = none

variable {c : Codec α} {P : α → Prop}

theorem readUpTo_of_none {bs : Bytes} (h : c.decode bs = none) (k : Nat) : c.readUpTo k bs = [] := by
  cases k with
  | zero => rfl
  | succ k => rw [readUpTo, h]

theorem readUpTo_of_some {bs rest : Bytes} {a : α} (h : c.decode bs = some (a, rest)) (k : Nat) :
    c.readUpTo (k + 1) bs = a :: c.readUpTo k rest := by
  rw [readUpTo, h]

/-- The frames that are whole within the first `n` bytes are read, and nothing after them. The
number of bytes left bounds the number of frames left, which is the fuel. -/
theorem readUpTo_take (hexact : c.Exact P) (hwaits : c.Waits P) {l : List α}
    (hl : ∀ a ∈ l, P a) {n k : Nat} (hk : ((l.flatMap c.encode).take n).length ≤ k) :
    c.readUpTo k ((l.flatMap c.encode).take n) = c.whole n l := by
  induction l generalizing n k with
  | nil =>
      rw [List.flatMap_nil, List.take_nil, readUpTo_of_none hwaits.1]
      rfl
  | cons a l ih =>
      have ha := hl a List.mem_cons_self
      obtain ⟨hne, hdec⟩ := hexact a ha
      have hpos := List.length_pos_iff.mpr hne
      rw [List.flatMap_cons, whole]
      split
      · rename_i hn
        rw [List.flatMap_cons, List.take_append, List.take_of_length_le hn, List.length_append] at hk
        obtain ⟨k, rfl⟩ : ∃ j, k = j + 1 := ⟨k - 1, by omega⟩
        rw [List.take_append, List.take_of_length_le hn, readUpTo_of_some (hdec _),
          ih (fun b hb => hl b (List.mem_cons_of_mem a hb)) (by omega)]
      · rename_i hn
        rw [List.take_append_of_le_length (by omega), readUpTo_of_none (hwaits.2 a ha n (by omega))]

/-- **A stream that breaks off anywhere.** The reader sees the frames that came through
whole, and nothing else. -/
theorem readAll_take (hexact : c.Exact P) (hwaits : c.Waits P) {l : List α}
    (hl : ∀ a ∈ l, P a) (n : Nat) :
    c.readAll ((l.flatMap c.encode).take n) = c.whole n l :=
  readUpTo_take hexact hwaits hl le_rfl

end Codec

end BlogStuff.Wire
