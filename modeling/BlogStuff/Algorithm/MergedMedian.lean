import BlogStuff.Cpp.Double
import BlogStuff.Order.Rank
import BlogStuff.Seq.Loop

/-!
# BlogStuff.Algorithm.MergedMedian

The median of two sorted arrays of any lengths (`4_median_of_two_sorted_arrays.cpp`).

`findKthElement` merges the arrays without writing the result down: two cursors, of which each
round moves one past the element it takes. The cursors always stand at a cut through both arrays
(`Merged`), and the element taken from a cut is the one whose rank is the number of elements in
front of it (`mergeStep_merged`). The two tests of a round look as if neither might hold; they
do not leave this out.

The elements are 32-bit `int`s, so that the mean of two of them is exact in a `double`
(`Rounding.round_mean`). So are the lengths, and the sums `m + n + 1` and `m + n + 2` have to fit;
that they do is the only condition (`findMedianSortedArrays_median`).
-/

namespace BlogStuff.Algorithm

open BlogStuff.Cpp BlogStuff.Order BlogStuff.Seq

/-! ### The program -/

/-- The variables of `findKthElement` that outlive a round. -/
structure Cursors where
  i : Nat
  j : Nat
  result : Int

/-- `j >= n || (i < m && A[i] <= B[j])`. -/
def takesFirst (a b : List Int) (c : Cursors) : Option Bool :=
  if c.j ≥ b.length then some true
  else if c.i < a.length then do return (← a[c.i]?) ≤ (← b[c.j]?)
  else some false

/-- `i >= m || (j < n && A[i] > B[j])`. -/
def takesSecond (a b : List Int) (c : Cursors) : Option Bool :=
  if c.i ≥ a.length then some true
  else if c.j < b.length then do return (← a[c.i]?) > (← b[c.j]?)
  else some false

/-- One round of the loop. The smaller of the two heads is taken, and the last one taken is
remembered; there is no value outside an array. -/
def mergeStep (a b : List Int) (c : Cursors) (_index : Nat) : Option Cursors := do
  if ← takesFirst a b c then
    return ⟨c.i + 1, c.j, ← a[c.i]?⟩
  else if ← takesSecond a b c then
    return ⟨c.i, c.j + 1, ← b[c.j]?⟩
  else
    return c

/-- `findKthElement(A, m, B, n, k)`. -/
def findKthElement (a b : List Int) (k : Nat) : Option Int := do
  let c ← (List.range' 0 k).foldlM (mergeStep a b) ⟨0, 0, 0⟩
  return c.result

/-- `findMedianSortedArrays(A, m, B, n)`. A sum that is no `int` has no value. The counters of
`findKthElement` do not pass `k + 1`, which is an `int` with these sums. -/
def findMedianSortedArrays (r : Rounding) (a b : List Int) : Option ℚ := do
  let m := a.length
  let n := b.length
  let x ← findKthElement a b ((← checked ((← checked (m + n)) + 1)) / 2)
  let ans := r.round x
  if (← checked (m + n)) % 2 = 0 then
    let y ← findKthElement a b ((← checked ((← checked (m + n)) + 2)) / 2)
    return r.round (r.round (ans + r.round y) / 2)
  else
    return ans

/-- The median: the middle element, or the mean of the two in the middle. -/
def IsMedian (l : List Int) (q : ℚ) : Prop :=
  if l.length % 2 = 0 then
    ∃ x y, kth l (l.length / 2 - 1) = some x ∧ kth l (l.length / 2) = some y ∧ q = ((x : ℚ) + y) / 2
  else ∃ x, kth l (l.length / 2) = some x ∧ q = x

/-! ### Cuts -/

/-- The cursors stand at a cut: what is in front of one is not above what the other is at. -/
structure Merged (a b : List Int) (i j : Nat) : Prop where
  i_le : i ≤ a.length
  j_le : j ≤ b.length
  left : ∀ x y, 0 < i → a[i - 1]? = some x → b[j]? = some y → x ≤ y
  right : ∀ x y, 0 < j → b[j - 1]? = some y → a[i]? = some x → y ≤ x

theorem merged_start (a b : List Int) : Merged a b 0 0 where
  i_le := Nat.zero_le _
  j_le := Nat.zero_le _
  left _ _ h := absurd h (Nat.lt_irrefl 0)
  right _ _ h := absurd h (Nat.lt_irrefl 0)

section

variable {a b : List Int} {i j : Nat} {x : Int}

theorem Merged.swap (h : Merged a b i j) : Merged b a j i where
  i_le := h.j_le
  j_le := h.i_le
  left y x hj hy hx := h.right x y hj hy hx
  right y x hi hx hy := h.left x y hi hx hy

/-- An element that is taken from the first array has the rank of the cut, and moves it on. -/
theorem Merged.take (h : Merged a b i j) (ha : a.Pairwise (· ≤ ·)) (hb : b.Pairwise (· ≤ ·))
    (hx : a[i]? = some x) (hle : ∀ y, b[j]? = some y → x ≤ y) :
    Merged a b (i + 1) j ∧ kth (a ++ b) (i + j) = some x := by
  refine ⟨⟨?_, h.j_le, fun x' y _ hx' hy => ?_, fun x' y hj hy hx' => ?_⟩, ?_⟩
  · exact (List.getElem?_eq_some_iff.mp hx).1
  · rw [Nat.add_sub_cancel, hx] at hx'
    obtain rfl := Option.some.inj hx'
    exact hle y hy
  · exact (h.right x y hj hy hx).trans (getElem?_mono ha (Nat.le_succ i) hx hx')
  · exact kth_of_cut ha hb hx h.j_le hle fun y hj hy => h.right x y hj hy hx

end

/-! ### The loop -/

section

variable {a b : List Int}

theorem takesFirst_of_reads {c : Cursors} {x y : Int} (hx : a[c.i]? = some x)
    (hy : b[c.j]? = some y) : takesFirst a b c = some (decide (x ≤ y)) := by
  have hi := (List.getElem?_eq_some_iff.mp hx).1
  have hj := (List.getElem?_eq_some_iff.mp hy).1
  rw [takesFirst, if_neg (Nat.not_le.mpr hj), if_pos hi, hx, hy]
  rfl

theorem takesSecond_of_reads {c : Cursors} {x y : Int} (hx : a[c.i]? = some x)
    (hy : b[c.j]? = some y) : takesSecond a b c = some (decide (x > y)) := by
  have hi := (List.getElem?_eq_some_iff.mp hx).1
  have hj := (List.getElem?_eq_some_iff.mp hy).1
  rw [takesSecond, if_neg (Nat.not_le.mpr hi), if_pos hj, hx, hy]
  rfl

/-- **A round takes the element whose rank is the number of rounds before.** Of the two heads
it is the smaller one, and all that was taken before is not above it. -/
theorem mergeStep_merged (ha : a.Pairwise (· ≤ ·)) (hb : b.Pairwise (· ≤ ·)) {c : Cursors}
    (h : Merged a b c.i c.j) (index : Nat) (hlt : c.i + c.j < a.length + b.length) :
    ∃ c', mergeStep a b c index = some c' ∧ Merged a b c'.i c'.j ∧ c'.i + c'.j = c.i + c.j + 1 ∧
      kth (a ++ b) (c.i + c.j) = some c'.result := by
  -- taken from the first array, if the second is exhausted or its element is not smaller
  have hfirst : ∀ x, a[c.i]? = some x → (∀ y, b[c.j]? = some y → x ≤ y) →
      takesFirst a b c = some true → ∃ c', mergeStep a b c index = some c' ∧
        Merged a b c'.i c'.j ∧ c'.i + c'.j = c.i + c.j + 1 ∧
        kth (a ++ b) (c.i + c.j) = some c'.result := by
    intro x hx hle htest
    obtain ⟨hmerged, hkth⟩ := h.take ha hb hx hle
    exact ⟨⟨c.i + 1, c.j, x⟩, by simp [mergeStep, htest, hx], hmerged, by simp; omega, hkth⟩
  have hsecond : ∀ y, b[c.j]? = some y → (∀ x, a[c.i]? = some x → y ≤ x) →
      takesFirst a b c = some false → takesSecond a b c = some true →
      ∃ c', mergeStep a b c index = some c' ∧ Merged a b c'.i c'.j ∧
        c'.i + c'.j = c.i + c.j + 1 ∧ kth (a ++ b) (c.i + c.j) = some c'.result := by
    intro y hy hle htest htest'
    obtain ⟨hmerged, hkth⟩ := h.swap.take hb ha hy hle
    rw [kth_of_perm List.perm_append_comm, Nat.add_comm] at hkth
    exact ⟨⟨c.i, c.j + 1, y⟩, by simp [mergeStep, htest, htest', hy], hmerged.swap, by simp; omega,
      hkth⟩
  by_cases hj : c.j < b.length
  · obtain ⟨y, hy⟩ : ∃ y, b[c.j]? = some y := ⟨_, List.getElem?_eq_getElem hj⟩
    by_cases hi : c.i < a.length
    · obtain ⟨x, hx⟩ : ∃ x, a[c.i]? = some x := ⟨_, List.getElem?_eq_getElem hi⟩
      by_cases hle : x ≤ y
      · refine hfirst x hx (fun y' hy' => ?_) (by rw [takesFirst_of_reads hx hy, decide_eq_true hle])
        obtain rfl := Option.some.inj (hy.symm.trans hy')
        exact hle
      · refine hsecond y hy (fun x' hx' => ?_)
          (by rw [takesFirst_of_reads hx hy, decide_eq_false hle])
          (by rw [takesSecond_of_reads hx hy, decide_eq_true (lt_of_not_ge hle)])
        obtain rfl := Option.some.inj (hx.symm.trans hx')
        exact (lt_of_not_ge hle).le
    · refine hsecond y hy (fun x hx => ?_) (by simp [takesFirst, hj, hi])
        (by simp [takesSecond, Nat.le_of_not_lt hi])
      exact absurd (List.getElem?_eq_some_iff.mp hx).1 hi
  · obtain ⟨x, hx⟩ : ∃ x, a[c.i]? = some x := ⟨_, List.getElem?_eq_getElem (by omega)⟩
    refine hfirst x hx (fun y hy => ?_) (by simp [takesFirst, Nat.le_of_not_lt hj])
    exact absurd (List.getElem?_eq_some_iff.mp hy).1 hj

/-- `findKthElement` returns the `k`-th smallest element of both arrays. The invariant of the merge
is that what was taken is the smallest, and that the last element taken is the greatest of it. -/
theorem findKthElement_kth (ha : a.Pairwise (· ≤ ·)) (hb : b.Pairwise (· ≤ ·)) {k : Nat}
    (hk : k < a.length + b.length) :
    ∃ x, findKthElement a b (k + 1) = some x ∧ kth (a ++ b) k = some x := by
  obtain ⟨c, hrun, -, -, hresult⟩ := foldlM_range'
    (P := fun t c => Merged a b c.i c.j ∧ c.i + c.j = t ∧
      ∀ s, t = s + 1 → kth (a ++ b) s = some c.result)
    (f := mergeStep a b) (s := ⟨0, 0, 0⟩) 0 (k + 1)
    ⟨merged_start a b, rfl, fun s hs => by omega⟩ fun t c _ ht hc => by
      obtain ⟨hmerged, hsum, -⟩ := hc
      obtain ⟨c', hstep, hmerged', hsum', hkth⟩ :=
        mergeStep_merged ha hb hmerged t (by omega)
      refine ⟨c', hstep, hmerged', by omega, fun s hs => ?_⟩
      obtain rfl : c.i + c.j = s := by omega
      exact hkth
  refine ⟨c.result, ?_, hresult k (by omega)⟩
  rw [findKthElement, hrun]
  rfl

end

theorem mem_of_kth {l : List Int} {k : Nat} {x : Int} (h : kth l k = some x) : x ∈ l :=
  (List.mergeSort_perm l _).mem_iff.mp (List.mem_of_getElem? h)

section

variable {r : Rounding} {a b : List Int}

/-- With sums that fit, the checks do nothing. -/
theorem findMedianSortedArrays_eq (hfit : a.length + b.length + 2 ≤ intMax) :
    findMedianSortedArrays r a b =
      (findKthElement a b ((a.length + b.length + 1) / 2)).bind fun x =>
        if (a.length + b.length) % 2 = 0 then
          (findKthElement a b ((a.length + b.length + 2) / 2)).map fun y : Int =>
            r.round (r.round (r.round x + r.round y) / 2)
        else some (r.round x) := by
  have h0 : checked (a.length + b.length) = some _ := checked_of_le (by omega)
  have h1 : checked (a.length + b.length + 1) = some _ := checked_of_le (by omega)
  have h2 : checked (a.length + b.length + 2) = some _ := checked_of_le hfit
  simp only [findMedianSortedArrays, h0, h1, h2, bind, Option.bind_some, pure, Option.map_eq_bind,
    Function.comp_def]

/-- With sums that do not fit there is no result: the last one that is formed is `m + n + 1`, or
`m + n + 2` if that is even. -/
theorem findMedianSortedArrays_eq_none (hfit : intMax < a.length + b.length + 2) :
    findMedianSortedArrays r a b = none := by
  have hmax : intMax = 2 ^ 31 - 1 := rfl
  simp only [findMedianSortedArrays, bind]
  by_cases h0 : a.length + b.length ≤ intMax
  · rw [checked_of_le h0, Option.bind_some]
    by_cases h1 : a.length + b.length + 1 ≤ intMax
    · -- both sums are at their bounds, which are even
      have heven : (a.length + b.length) % 2 = 0 := by omega
      simp only [checked_of_le h1, checked_of_lt hfit, Option.bind_some, heven, if_true,
        Option.bind_none, Option.bind_fun_none]
    · rw [checked_of_lt (Nat.lt_of_not_le h1)]
      rfl
  · rw [checked_of_lt (Nat.lt_of_not_le h0)]
    rfl

end

/-- **The median of two sorted arrays**, without a read outside of them, exactly as long as `m
+ n + 2` is an `int`. The `k`-th round of the merge takes the `k`-th smallest element, and the
median is the middle one or the mean of two; the mean of two `int`s is exact in a double. -/
theorem findMedianSortedArrays_median (r : Rounding) {a b : List Int} (ha : a.Pairwise (· ≤ ·))
    (hb : b.Pairwise (· ≤ ·)) (hint : ∀ x ∈ a ++ b, IsInt x) (hne : 1 ≤ a.length + b.length) :
    (∃ q, findMedianSortedArrays r a b = some q ∧ IsMedian (a ++ b) q) ↔
      a.length + b.length + 2 ≤ intMax := by
  constructor
  · rintro ⟨q, hrun, -⟩
    by_contra hfit
    rw [findMedianSortedArrays_eq_none (Nat.lt_of_not_le hfit)] at hrun
    cases hrun
  intro hfit
  obtain ⟨x, hx, hkx⟩ := findKthElement_kth ha hb (k := (a.length + b.length + 1) / 2 - 1) (by omega)
  have hxint := hint x (mem_of_kth hkx)
  have hfirst : (a.length + b.length + 1) / 2 - 1 + 1 = (a.length + b.length + 1) / 2 := by omega
  rw [hfirst] at hx
  unfold IsMedian
  rw [findMedianSortedArrays_eq hfit, List.length_append, hx, Option.bind_some]
  split_ifs with heven
  · obtain ⟨y, hy, hky⟩ := findKthElement_kth ha hb (k := (a.length + b.length) / 2) (by omega)
    have hyint := hint y (mem_of_kth hky)
    have hsecond : (a.length + b.length) / 2 + 1 = (a.length + b.length + 2) / 2 := by omega
    have hrank : (a.length + b.length + 1) / 2 - 1 = (a.length + b.length) / 2 - 1 := by omega
    rw [hsecond] at hy
    rw [hrank] at hkx
    refine ⟨_, ?_, x, y, hkx, hky, rfl⟩
    rw [hy, Option.map_some, r.round_mean hxint hyint]
  · have hrank : (a.length + b.length + 1) / 2 - 1 = (a.length + b.length) / 2 := by omega
    rw [hrank] at hkx
    exact ⟨x, by rw [r.round_int hxint], x, hkx, rfl⟩

/-- Six elements in two arrays, with a tie. -/
theorem findMedianSortedArrays_median_six :
    ∃ q, findMedianSortedArrays ⟨id, fun _ _ => rfl⟩ [1, 4, 9] [2, 4, 7] = some q ∧
      IsMedian ([1, 4, 9] ++ [2, 4, 7]) q :=
  (findMedianSortedArrays_median _ (by decide) (by decide) (by decide) (by decide)).mpr (by decide)

/-- Two arrays of `2 ^ 30` zeros: already `m + n` is no `int`. -/
theorem findMedianSortedArrays_overflows :
    (List.replicate (2 ^ 30) (0 : Int)).Pairwise (· ≤ ·) ∧
      ∀ r, findMedianSortedArrays r (List.replicate (2 ^ 30) 0) (List.replicate (2 ^ 30) 0) = none := by
  refine ⟨List.pairwise_replicate_of_refl, fun r => findMedianSortedArrays_eq_none ?_⟩
  rw [List.length_replicate]
  decide

end BlogStuff.Algorithm
