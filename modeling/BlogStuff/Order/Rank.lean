import Mathlib.Data.List.Sort
import Mathlib.Order.Basic

/-!
# BlogStuff.Order.Rank

The `k`-th smallest element of a list, counted with multiplicity, over any linear order.

It is the `k`-th entry of the sorted list. `kth_of_count` is the rule for programs that
do not sort: an element with at most `k` elements below it, and more than `k` not above
it, is the one. For two sorted lists the counts come from one cut through both
(`kth_of_cut`). A list split at one of its elements (`Split`) is sorted by sorting the
parts, so the `k`-th smallest is looked for in one of them.
-/

namespace BlogStuff.Order

variable {α : Type} [LinearOrder α]

/-- The `k`-th smallest element, from 0. -/
def kth (l : List α) (k : Nat) : Option α := (l.mergeSort (· ≤ ·))[k]?

/-- The number of elements below `v`. -/
def below (v : α) (l : List α) : Nat := l.countP (· < v)

/-- The number of elements that are not above `v`. -/
def upTo (v : α) (l : List α) : Nat := l.countP (· ≤ v)

theorem below_append (v : α) (a b : List α) : below v (a ++ b) = below v a + below v b :=
  List.countP_append

theorem upTo_append (v : α) (a b : List α) : upTo v (a ++ b) = upTo v a + upTo v b :=
  List.countP_append

theorem getElem?_mono {l : List α} (hl : l.Pairwise (· ≤ ·)) {i j : Nat} (hij : i ≤ j) {a b : α}
    (ha : l[i]? = some a) (hb : l[j]? = some b) : a ≤ b := by
  obtain ⟨hi, rfl⟩ := List.getElem?_eq_some_iff.mp ha
  obtain ⟨hj, rfl⟩ := List.getElem?_eq_some_iff.mp hb
  rcases Nat.eq_or_lt_of_le hij with rfl | hlt
  · exact le_rfl
  · exact List.pairwise_iff_getElem.mp hl i j hi hj hlt

/-- At most `k` entries of a sorted list are below `v` if the `k`-th is not, since no later one is
either and only the first `k` are left. -/
theorem below_le {l : List α} (hl : l.Pairwise (· ≤ ·)) {k : Nat} {v : α}
    (h : ∀ w, l[k]? = some w → v ≤ w) : below v l ≤ k := by
  have hdrop : below v (l.drop k) = 0 := by
    refine List.countP_eq_zero.mpr fun w hw => ?_
    obtain ⟨i, hi⟩ := List.mem_iff_getElem?.mp hw
    rw [List.getElem?_drop] at hi
    obtain ⟨u, hu⟩ : ∃ u, l[k]? = some u := by
      have hlt := (List.getElem?_eq_some_iff.mp hi).1
      exact ⟨_, List.getElem?_eq_getElem (by omega)⟩
    have hle : v ≤ w := (h u hu).trans (getElem?_mono hl (Nat.le_add_right k i) hu hi)
    simpa using hle
  calc below v l = below v (l.take k) + below v (l.drop k) := by
        rw [← below_append, List.take_append_drop]
    _ ≤ (l.take k).length := by
        rw [hdrop, Nat.add_zero]
        exact List.countP_le_length
    _ ≤ k := by
        rw [List.length_take]
        exact Nat.min_le_left _ _

/-- At least `k` entries of a sorted list are not above `v` if the last of the first `k` is
not. -/
theorem le_upTo {l : List α} (hl : l.Pairwise (· ≤ ·)) {k : Nat} {v : α} (hk : k ≤ l.length)
    (h : ∀ w, 0 < k → l[k - 1]? = some w → w ≤ v) : k ≤ upTo v l := by
  have htake : upTo v (l.take k) = (l.take k).length := by
    refine List.countP_eq_length.mpr fun w hw => ?_
    obtain ⟨i, hi⟩ := List.mem_iff_getElem?.mp hw
    have hik : i < k := by
      have hlt := (List.getElem?_eq_some_iff.mp hi).1
      rw [List.length_take] at hlt
      omega
    rw [List.getElem?_take_of_lt hik] at hi
    obtain ⟨u, hu⟩ : ∃ u, l[k - 1]? = some u := ⟨_, List.getElem?_eq_getElem (by omega)⟩
    have hle : w ≤ v := (getElem?_mono hl (by omega) hi hu).trans (h u (by omega) hu)
    simpa using hle
  calc k = (l.take k).length := by rw [List.length_take, Nat.min_eq_left hk]
    _ = upTo v (l.take k) := htake.symm
    _ ≤ upTo v (l.take k) + upTo v (l.drop k) := Nat.le_add_right _ _
    _ = upTo v l := by rw [← upTo_append, List.take_append_drop]

/-- **The rank of an element.** With at most `k` elements below it and more than `k` not
above it, `v` is the `k`-th smallest. -/
theorem kth_of_count {l : List α} {k : Nat} {v : α} (hbelow : below v l ≤ k)
    (hupTo : k < upTo v l) : kth l k = some v := by
  have hsorted : (l.mergeSort (· ≤ ·)).Pairwise (· ≤ ·) := List.pairwise_mergeSort' (· ≤ ·) l
  have hperm : (l.mergeSort (· ≤ ·)).Perm l := List.mergeSort_perm l _
  have hbelow' : below v (l.mergeSort (· ≤ ·)) ≤ k := by
    rw [below, hperm.countP_eq]
    exact hbelow
  have hupTo' : k < upTo v (l.mergeSort (· ≤ ·)) := by
    rw [upTo, hperm.countP_eq]
    exact hupTo
  unfold kth
  generalize l.mergeSort (· ≤ ·) = s at *
  have hk : k < s.length := lt_of_lt_of_le hupTo' List.countP_le_length
  obtain ⟨u, hu⟩ : ∃ u, s[k]? = some u := ⟨_, List.getElem?_eq_getElem hk⟩
  rw [hu]
  rcases lt_trichotomy u v with hlt | rfl | hgt
  · -- then the first `k + 1` entries are below `v`
    exfalso
    have hfirst : k + 1 ≤ upTo u s := by
      refine le_upTo hsorted hk fun w _ hw => ?_
      rw [Nat.add_sub_cancel, hu] at hw
      exact (Option.some.inj hw).ge
    have hle : upTo u s ≤ below v s := List.countP_mono_left fun w _ hw => by
      simpa using lt_of_le_of_lt (by simpa using hw) hlt
    omega
  · rfl
  · -- then no entry from the `k`-th on is up to `v`
    exfalso
    have hrest : below u s ≤ k := below_le hsorted fun w hw => by
      rw [hu] at hw
      exact (Option.some.inj hw).le
    have hle : upTo v s ≤ below u s := List.countP_mono_left fun w _ hw => by
      simpa using lt_of_le_of_lt (by simpa using hw) hgt
    omega

/-- **A cut through two sorted lists.** An entry `v` of `a`, with `i` entries in front of it,
is the `i + j`-th smallest of both lists if it fits between the entries `j - 1` and `j` of
`b`. -/
theorem kth_of_cut {a b : List α} (ha : a.Pairwise (· ≤ ·)) (hb : b.Pairwise (· ≤ ·)) {i j : Nat}
    {v : α} (hv : a[i]? = some v) (hj : j ≤ b.length) (hright : ∀ w, b[j]? = some w → v ≤ w)
    (hleft : ∀ w, 0 < j → b[j - 1]? = some w → w ≤ v) : kth (a ++ b) (i + j) = some v := by
  have hi : i < a.length := (List.getElem?_eq_some_iff.mp hv).1
  refine kth_of_count ?_ ?_
  · rw [below_append]
    refine Nat.add_le_add (below_le ha fun w hw => ?_) (below_le hb hright)
    rw [hv] at hw
    exact (Option.some.inj hw).le
  · rw [upTo_append]
    have hown : i + 1 ≤ upTo v a := by
      refine le_upTo ha hi fun w _ hw => ?_
      rw [Nat.add_sub_cancel, hv] at hw
      exact (Option.some.inj hw).ge
    have hother : j ≤ upTo v b := le_upTo hb hj hleft
    omega

theorem mergeSort_of_perm {l s : List α} (hperm : s.Perm l) (hs : s.Pairwise (· ≤ ·)) :
    l.mergeSort (· ≤ ·) = s :=
  ((List.mergeSort_perm l _).trans hperm.symm).eq_of_pairwise' (List.pairwise_mergeSort' (· ≤ ·) l) hs

theorem kth_of_perm {a b : List α} (h : a.Perm b) (k : Nat) : kth a k = kth b k := by
  rw [kth, kth, mergeSort_of_perm ((List.mergeSort_perm b _).trans h.symm)
    (List.pairwise_mergeSort' (· ≤ ·) b)]

/-! ### A list split at one of its elements -/

/-- The elements that are not above `p`, and those that are. -/
structure Split (p : α) (l low high : List α) : Prop where
  perm : (low ++ p :: high).Perm l
  low_le : ∀ x ∈ low, x ≤ p
  lt_high : ∀ x ∈ high, p < x

variable {p : α} {l low high : List α}

theorem Split.length_low_lt (h : Split p l low high) : low.length < l.length := by
  rw [← h.perm.length_eq, List.length_append, List.length_cons]
  omega

theorem Split.length_high_lt (h : Split p l low high) : high.length < l.length := by
  rw [← h.perm.length_eq, List.length_append, List.length_cons]
  omega

theorem Split.arrange (h : Split p l low high) {low' high' : List α} (hlow : low'.Perm low)
    (hhigh : high'.Perm high) : Split p l low' high' where
  perm := (hlow.append (hhigh.cons p)).trans h.perm
  low_le x hx := h.low_le x (hlow.mem_iff.mp hx)
  lt_high x hx := h.lt_high x (hhigh.mem_iff.mp hx)

theorem Split.pairwise (h : Split p l low high) (hlow : low.Pairwise (· ≤ ·))
    (hhigh : high.Pairwise (· ≤ ·)) : (low ++ p :: high).Pairwise (· ≤ ·) := by
  refine List.pairwise_append.mpr ⟨hlow, List.pairwise_cons.mpr ⟨?_, hhigh⟩, fun x hx y hy => ?_⟩
  · exact fun y hy => (h.lt_high y hy).le
  · rcases List.mem_cons.mp hy with rfl | hy
    · exact h.low_le x hx
    · exact (h.low_le x hx).trans (h.lt_high y hy).le

theorem Split.mergeSort (h : Split p l low high) :
    l.mergeSort (· ≤ ·) = low.mergeSort (· ≤ ·) ++ p :: high.mergeSort (· ≤ ·) := by
  have hsorted := h.arrange (List.mergeSort_perm low (· ≤ ·)) (List.mergeSort_perm high (· ≤ ·))
  exact mergeSort_of_perm hsorted.perm (hsorted.pairwise (List.pairwise_mergeSort' (· ≤ ·) low)
    (List.pairwise_mergeSort' (· ≤ ·) high))

theorem Split.kth_low (h : Split p l low high) {k : Nat} (hk : k < low.length) :
    kth l k = kth low k := by
  rw [kth, h.mergeSort, List.getElem?_append_left (by rwa [List.length_mergeSort])]
  rfl

theorem Split.kth_pivot (h : Split p l low high) : kth l low.length = some p := by
  rw [kth, h.mergeSort, List.getElem?_append_right (by rw [List.length_mergeSort]),
    List.length_mergeSort, Nat.sub_self]
  rfl

theorem Split.kth_high (h : Split p l low high) (k : Nat) :
    kth l (low.length + 1 + k) = kth high k := by
  rw [kth, h.mergeSort, List.getElem?_append_right (by rw [List.length_mergeSort]; omega),
    List.length_mergeSort, Nat.add_assoc, Nat.add_sub_cancel_left, Nat.add_comm 1 k,
    List.getElem?_cons_succ]
  rfl

end BlogStuff.Order
