import Mathlib.Data.List.Palindrome
import Mathlib.Tactic

/-!
# BlogStuff.Seq.Mirror

Palindromic intervals of lists.

`Mirror` says that the entries at mirrored positions of an interval are equal. It is stated
for a family of lists, one for each right position, so that it also describes a table whose
cells were computed for different lists; `reverse_between_iff` is the case of a single list.
The recursion of all programs on palindromes is `mirror_step`: the two ends, and the interval
between them.

`intervals` lists the intervals of the first `n` positions, the longest first and those of one
length from left to right, so that the first one with a property is the `Longest`.
-/

namespace BlogStuff.Seq

variable {α : Type}

/-- The entries from `i` to `j`. -/
def between (s : List α) (i j : Nat) : List α := (s.drop i).take (j - i + 1)

/-- Entries at mirrored positions between `i` and `j` are equal, the pair that ends in `b`
in the list `g b`. -/
def Mirror (g : Nat → List α) (i j : Nat) : Prop :=
  ∀ a b, i ≤ a → a < b → a + b = i + j → (g b)[a]? = (g b)[b]?

section

variable {g g' : Nat → List α} {i j : Nat}

theorem mirror_of_le (g : Nat → List α) (h : j ≤ i) : Mirror g i j := by
  intro a b ha hab hsum
  omega

theorem mirror_step (h : i < j) :
    Mirror g i j ↔ (g j)[i]? = (g j)[j]? ∧ Mirror g (i + 1) (j - 1) := by
  constructor
  · intro hm
    exact ⟨hm i j le_rfl h rfl, fun a b ha hab hsum => hm a b (by omega) hab (by omega)⟩
  · intro hm a b ha hab hsum
    rcases Nat.eq_or_lt_of_le ha with rfl | hlt
    · obtain rfl : b = j := by omega
      exact hm.1
    · exact hm.2 a b hlt hab (by omega)

theorem mirror_congr (h : ∀ b, b ≤ j → g b = g' b) : Mirror g i j ↔ Mirror g' i j := by
  have himp : ∀ {g g' : Nat → List α}, (∀ b, b ≤ j → g b = g' b) → Mirror g i j → Mirror g' i j := by
    intro g g' h hm a b ha hab hsum
    rw [← h b (by omega)]
    exact hm a b ha hab hsum
  exact ⟨himp h, himp fun b hb => (h b hb).symm⟩

end

/-! ### Palindromes -/

section

variable {s : List α} {i j : Nat}

theorem length_between (hij : i ≤ j) (hj : j < s.length) : (between s i j).length = j - i + 1 := by
  rw [between, List.length_take, List.length_drop]
  omega

theorem getElem?_between {k : Nat} (hk : k ≤ j - i) : (between s i j)[k]? = s[i + k]? := by
  rw [between, List.getElem?_take_of_lt (by omega), List.getElem?_drop]

/-- **Mirrored entries make a palindrome.** The entry at distance `k` from the left of the interval
stands at distance `k` from the right of its reverse. -/
theorem palindrome_between_iff (hij : i ≤ j) (hj : j < s.length) :
    (between s i j).Palindrome ↔ Mirror (fun _ => s) i j := by
  have hlen := length_between hij hj
  rw [List.Palindrome.iff_reverse_eq]
  constructor
  · intro h a b ha hab hsum
    have hb : (between s i j).reverse[b - i]? = (between s i j)[b - i]? := by rw [h]
    rw [List.getElem?_reverse (by omega), hlen, getElem?_between (by omega),
      getElem?_between (by omega)] at hb
    have h1 : i + (j - i + 1 - 1 - (b - i)) = a := by omega
    have h2 : i + (b - i) = b := by omega
    rw [h1, h2] at hb
    exact hb
  · intro h
    refine List.ext_getElem? fun k => ?_
    by_cases hk : k ≤ j - i
    · rw [List.getElem?_reverse (by omega), hlen, getElem?_between (by omega), getElem?_between hk]
      -- the pair of mirrored positions, in whichever order
      have hsum : i + (j - i + 1 - 1 - k) + (i + k) = i + j := by omega
      rcases lt_trichotomy (i + (j - i + 1 - 1 - k)) (i + k) with hlt | heq | hgt
      · exact h _ _ (by omega) hlt hsum
      · rw [heq]
      · exact (h _ _ (by omega) hgt (by omega)).symm
    · rw [List.getElem?_eq_none (by rw [List.length_reverse]; omega), List.getElem?_eq_none (by omega)]

end

/-! ### The longest interval -/

/-- The longest of the intervals with a property, and the leftmost of these. -/
def Longest (P : Nat → Nat → Prop) (n i j : Nat) : Prop :=
  (i ≤ j ∧ j < n ∧ P i j) ∧
    ∀ a b, a ≤ b → b < n → P a b → b - a < j - i ∨ (b - a = j - i ∧ i ≤ a)

variable {P Q : Nat → Nat → Prop} {n i j : Nat}

theorem Longest.unique {i' j' : Nat} (h : Longest P n i j) (h' : Longest P n i' j') :
    i = i' ∧ j = j' := by
  obtain ⟨⟨hij, hj, hP⟩, hmax⟩ := h
  obtain ⟨⟨hij', hj', hP'⟩, hmax'⟩ := h'
  have h1 := hmax i' j' hij' hj' hP'
  have h2 := hmax' i j hij hj hP
  omega

theorem Longest.congr (h : Longest P n i j) (hPQ : ∀ a b, a ≤ b → b < n → (P a b ↔ Q a b)) :
    Longest Q n i j := by
  obtain ⟨⟨hij, hj, hP⟩, hmax⟩ := h
  exact ⟨⟨hij, hj, (hPQ i j hij hj).mp hP⟩,
    fun a b hab hb hQ => hmax a b hab hb ((hPQ a b hab hb).mpr hQ)⟩

/-- The intervals of the first `n` positions, the longest first. -/
def intervals (n : Nat) : List (Nat × Nat) :=
  (List.range' 1 n).reverse.flatMap fun len => (List.range (n - len + 1)).map fun i => (i, i + len - 1)

theorem mem_intervals {x : Nat × Nat} : x ∈ intervals n ↔ x.1 ≤ x.2 ∧ x.2 < n := by
  obtain ⟨i, j⟩ := x
  simp only [intervals, List.mem_flatMap, List.mem_reverse, List.mem_range'_1, List.mem_map,
    List.mem_range, Prod.mk.injEq]
  constructor
  · intro h
    obtain ⟨len, hlen, a, ha, rfl, rfl⟩ := h
    omega
  · intro h
    exact ⟨j - i + 1, by omega, i, by omega, rfl, by omega⟩

/-- In the order of the list intervals get shorter, and those of one length go right. The outer
enumeration is that of the lengths, the inner one that of the starts. -/
theorem pairwise_intervals (n : Nat) : (intervals n).Pairwise fun x y =>
    y.2 - y.1 < x.2 - x.1 ∨ (y.2 - y.1 = x.2 - x.1 ∧ x.1 ≤ y.1) := by
  refine List.pairwise_flatMap.mpr ⟨fun len _ => ?_, ?_⟩
  · refine List.pairwise_map.mpr (List.pairwise_lt_range.imp fun {a b} hab => .inr ?_)
    constructor
    · show b + len - 1 - b = a + len - 1 - a
      omega
    · exact hab.le
  · refine List.pairwise_reverse.mpr ((List.pairwise_lt_range' (s := 1) (n := n)).imp_of_mem ?_)
    intro len len' hlen hlen' hlt x hx y hy
    obtain ⟨a, -, rfl⟩ := List.mem_map.mp hx
    obtain ⟨b, -, rfl⟩ := List.mem_map.mp hy
    refine .inl ?_
    rw [List.mem_range'_1] at hlen
    show b + len - 1 - b < a + len' - 1 - a
    omega

/-- **The first interval with a property is the longest.** Every other one with the property comes
later in the list, and later ones are shorter or further right. -/
theorem longest_of_first {pre post : List (Nat × Nat)} (h : intervals n = pre ++ (i, j) :: post)
    (hpre : ∀ x ∈ pre, ¬ P x.1 x.2) (hP : P i j) : Longest P n i j := by
  have hin : (i, j) ∈ intervals n := by
    rw [h]
    exact List.mem_append_right pre List.mem_cons_self
  obtain ⟨hij, hj⟩ := mem_intervals.mp hin
  refine ⟨⟨hij, hj, hP⟩, fun a b hab hb hPab => ?_⟩
  have hmem : (a, b) ∈ intervals n := mem_intervals.mpr ⟨hab, hb⟩
  have horder := pairwise_intervals n
  rw [h, List.pairwise_append, List.pairwise_cons] at horder
  rw [h, List.mem_append, List.mem_cons] at hmem
  rcases hmem with hmem | heq | hmem
  · exact absurd hPab (hpre _ hmem)
  · obtain ⟨rfl, rfl⟩ := Prod.mk.inj heq
    exact .inr ⟨rfl, le_rfl⟩
  · exact horder.2.1.1 _ hmem

end BlogStuff.Seq
