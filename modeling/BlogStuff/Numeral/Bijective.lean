import Mathlib.Data.List.Shortlex
import Mathlib.Data.Set.Card
import Mathlib.Tactic

/-!
# BlogStuff.Numeral.Bijective

Numerals without a zero digit, over the letters of any alphabet.

With `base` letters that stand for the digits 1 to `base`, every number has exactly one
numeral. The numerals of one length have the values from `ones`, where all digits are 1, up
to `base` times that, and the next length begins right behind. So the value grows with the
numeral, shorter numerals first and those of one length alphabetically
(`value_lt_iff_shortlex`), and is the place of the numeral in this order
(`ncard_shortlex`).
-/

namespace BlogStuff.Numeral

/-- Letters in an order, with their digits. Digits count from 1, so that no letter is a zero and
every number has one name. -/
structure Alphabet (α : Type) [LinearOrder α] where
  base : Nat
  digit : α → Nat
  letter : Nat → α
  base_pos : 0 < base
  digit_letter : ∀ d, 1 ≤ d → d ≤ base → digit (letter d) = d
  digit_lt : ∀ a a', 1 ≤ digit a → a < a' → digit a < digit a'

namespace Alphabet

variable {α : Type} [LinearOrder α] (A : Alphabet α)

/-- Letters that stand for a digit. -/
def IsNumeral (s : List α) : Prop := ∀ c ∈ s, 1 ≤ A.digit c ∧ A.digit c ≤ A.base

/-- The value of a numeral. -/
def value (s : List α) : Nat := s.foldl (fun v c => v * A.base + A.digit c) 0

/-- The value of the numeral with so many ones. -/
def ones : Nat → Nat
  | 0 => 0
  | n + 1 => ones n * A.base + 1

variable {A} {s t : List α} {a : α}

theorem isNumeral_append : A.IsNumeral (s ++ t) ↔ A.IsNumeral s ∧ A.IsNumeral t :=
  List.forall_mem_append

theorem IsNumeral.concat (hs : A.IsNumeral s) (h1 : 1 ≤ A.digit a) (hb : A.digit a ≤ A.base) :
    A.IsNumeral (s ++ [a]) := by
  refine isNumeral_append.mpr ⟨hs, fun c hc => ?_⟩
  obtain rfl := List.mem_singleton.mp hc
  exact ⟨h1, hb⟩

@[simp] theorem value_nil : A.value [] = 0 := rfl

theorem value_concat (s : List α) (a : α) : A.value (s ++ [a]) = A.value s * A.base + A.digit a := by
  simp [value]

theorem value_cons (a : α) (s : List α) :
    A.value (a :: s) = A.digit a * A.base ^ s.length + A.value s := by
  induction s using List.reverseRecOn with
  | nil => simp [value]
  | append_singleton s c ih =>
      rw [← List.cons_append, value_concat, ih, value_concat, List.length_append,
        List.length_singleton, pow_succ]
      ring

/-! ### The values of one length -/

theorem ones_le_value (hs : A.IsNumeral s) : A.ones s.length ≤ A.value s := by
  induction s using List.reverseRecOn with
  | nil => exact le_rfl
  | append_singleton s c ih =>
      obtain ⟨hs, hc⟩ := isNumeral_append.mp hs
      have hdigit := (hc c (List.mem_singleton_self c)).1
      rw [value_concat, List.length_append, List.length_singleton, ones]
      exact Nat.add_le_add (Nat.mul_le_mul_right _ (ih hs)) hdigit

theorem value_le_ones (hs : A.IsNumeral s) : A.value s ≤ A.base * A.ones s.length := by
  induction s using List.reverseRecOn with
  | nil => exact Nat.zero_le _
  | append_singleton s c ih =>
      obtain ⟨hs, hc⟩ := isNumeral_append.mp hs
      have hdigit := (hc c (List.mem_singleton_self c)).2
      rw [value_concat, List.length_append, List.length_singleton, ones]
      calc A.value s * A.base + A.digit c
          ≤ A.base * A.ones s.length * A.base + A.base :=
            Nat.add_le_add (Nat.mul_le_mul_right _ (ih hs)) hdigit
        _ = A.base * (A.ones s.length * A.base + 1) := by ring

theorem ones_succ (n : Nat) : A.ones (n + 1) = A.base ^ n + A.ones n := by
  induction n with
  | zero => simp [ones]
  | succ n ih =>
      calc A.ones (n + 1) * A.base + 1
          = A.base ^ n * A.base + (A.ones n * A.base + 1) := by rw [ih]; ring
        _ = A.base ^ (n + 1) + A.ones (n + 1) := by rw [pow_succ, ones]

theorem ones_mono : Monotone A.ones :=
  monotone_nat_of_le_succ fun n => by
    rw [ones_succ]
    exact Nat.le_add_left _ _

/-! ### The order of the values -/

theorem value_lt_of_length (hs : A.IsNumeral s) (ht : A.IsNumeral t) (h : s.length < t.length) :
    A.value s < A.value t := by
  calc A.value s ≤ A.base * A.ones s.length := value_le_ones hs
    _ < A.ones (s.length + 1) := by
        rw [ones, Nat.mul_comm]
        exact Nat.lt_succ_self _
    _ ≤ A.ones t.length := ones_mono h
    _ ≤ A.value t := ones_le_value ht

theorem value_lt_of_lex (hs : A.IsNumeral s) (ht : A.IsNumeral t) (hlen : s.length = t.length)
    (h : List.Lex (· < ·) s t) : A.value s < A.value t := by
  induction h with
  | nil => simp at hlen
  | cons h ih =>
      rw [List.length_cons, List.length_cons, Nat.add_right_cancel_iff] at hlen
      have hlt := ih (fun c hc => hs c (.tail _ hc)) (fun c hc => ht c (.tail _ hc)) hlen
      rw [value_cons, value_cons, hlen]
      exact Nat.add_lt_add_left hlt _
  | @rel a s a' t h =>
      rw [List.length_cons, List.length_cons, Nat.add_right_cancel_iff] at hlen
      have hdigit := A.digit_lt a a' (hs a List.mem_cons_self).1 h
      have hs' := value_le_ones fun c hc => hs c (.tail a hc)
      have ht' := ones_le_value fun c hc => ht c (.tail a' hc)
      have hnext : A.base * A.ones t.length + 1 = A.base ^ t.length + A.ones t.length := by
        rw [← ones_succ, ones, Nat.mul_comm]
      have hplace : A.digit a * A.base ^ t.length + A.base ^ t.length ≤
          A.digit a' * A.base ^ t.length := by
        rw [← Nat.succ_mul]
        exact Nat.mul_le_mul_right _ hdigit
      rw [hlen] at hs'
      rw [value_cons, value_cons, hlen]
      omega

theorem value_lt_of_shortlex (hs : A.IsNumeral s) (ht : A.IsNumeral t)
    (h : List.Shortlex (· < ·) s t) : A.value s < A.value t := by
  rcases List.shortlex_def.mp h with h | ⟨hlen, h⟩
  · exact value_lt_of_length hs ht h
  · exact value_lt_of_lex hs ht hlen h

/-- **The value grows with the numeral**, shorter numerals first: no numeral of a length
exceeds the smallest one that is longer. -/
theorem value_lt_iff_shortlex (hs : A.IsNumeral s) (ht : A.IsNumeral t) :
    A.value s < A.value t ↔ List.Shortlex (· < ·) s t := by
  refine ⟨fun h => ?_, value_lt_of_shortlex hs ht⟩
  rcases trichotomous_of (List.Shortlex (· < ·)) s t with hst | rfl | hts
  · exact hst
  · exact absurd h (lt_irrefl _)
  · exact absurd h (value_lt_of_shortlex ht hs hts).not_gt

theorem value_inj (hs : A.IsNumeral s) (ht : A.IsNumeral t) (h : A.value s = A.value t) : s = t := by
  rcases trichotomous_of (List.Shortlex (· < ·)) s t with hst | rfl | hts
  · exact absurd h (value_lt_of_shortlex hs ht hst).ne
  · rfl
  · exact absurd h (value_lt_of_shortlex ht hs hts).ne'

theorem value_eq_zero_iff (hs : A.IsNumeral s) : A.value s = 0 ↔ s = [] :=
  ⟨fun h => value_inj hs (fun _ hc => absurd hc List.not_mem_nil) h, fun h => h ▸ rfl⟩

/-! ### Every number has a numeral -/

variable (A) in
theorem exists_value (n : Nat) : ∃ s, A.IsNumeral s ∧ A.value s = n := by
  induction n using Nat.strong_induction_on with
  | _ n ih =>
    rcases Nat.eq_zero_or_pos n with rfl | hn
    · exact ⟨[], fun _ hc => absurd hc List.not_mem_nil, rfl⟩
    · -- the last digit leaves a multiple of the base
      obtain ⟨v, d, hd1, hdb, hv⟩ : ∃ v d, 1 ≤ d ∧ d ≤ A.base ∧ n = v * A.base + d := by
        have hpos := A.base_pos
        refine ⟨(n - 1) / A.base, (n - 1) % A.base + 1, by omega, Nat.mod_lt _ hpos, ?_⟩
        have hdiv := Nat.div_add_mod' (n - 1) A.base
        omega
      have hlt : v < n := by
        have hle := Nat.le_mul_of_pos_right v A.base_pos
        omega
      obtain ⟨s, hs, rfl⟩ := ih v hlt
      have hdigit := A.digit_letter d hd1 hdb
      refine ⟨s ++ [A.letter d], hs.concat (by omega) (by omega), ?_⟩
      rw [value_concat, hdigit, hv]

/-- **The value is the place in the order**: as many numerals come first, the empty one among
them. -/
theorem ncard_shortlex (hs : A.IsNumeral s) :
    {t | A.IsNumeral t ∧ List.Shortlex (· < ·) t s}.ncard = A.value s := by
  have himage : A.value '' {t | A.IsNumeral t ∧ List.Shortlex (· < ·) t s} = Set.Iio (A.value s) := by
    ext n
    constructor
    · intro h
      obtain ⟨t, ⟨ht, hts⟩, rfl⟩ := h
      exact value_lt_of_shortlex ht hs hts
    · intro h
      obtain ⟨t, ht, rfl⟩ := A.exists_value n
      exact ⟨t, ⟨ht, (value_lt_iff_shortlex ht hs).mp h⟩, rfl⟩
  have hinj : Set.InjOn A.value {t | A.IsNumeral t ∧ List.Shortlex (· < ·) t s} :=
    fun t ht t' ht' h => value_inj ht.1 ht'.1 h
  have hcard := hinj.ncard_image
  rw [himage, Set.ncard_eq_toFinset_card', Set.toFinset_Iio, Nat.card_Iio] at hcard
  exact hcard.symm

end Alphabet

end BlogStuff.Numeral
