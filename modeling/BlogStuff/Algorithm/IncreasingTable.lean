import BlogStuff.Cpp.Int
import BlogStuff.Order.Rising
import BlogStuff.Seq.Loop

/-!
# BlogStuff.Algorithm.IncreasingTable

`LMIS` of `ex15_4_5.cpp` (exercise 15.4-5 of *Introduction to algorithms*): the table of the
longest strictly increasing subsequences, by the position they end at.

The entry of a position starts at 1 and is raised to `s[j] + 1` for an earlier `j` with a smaller
element, but only if it is not above `s[j]` at that moment. The test keeps the greater of the two
numbers, so the entry runs through the greatest lengths over the positions seen so far
(`lmisCell_greatest`).

`s` is the global vector, which has room for the positions of `a`; what it holds before does not
matter. The number of positions is converted to an `int` first. From `2 ^ 31` positions on it comes
out negative, or too small, and entries stay as they were (`lmis_untouched`).
-/

namespace BlogStuff.Algorithm

open BlogStuff.Cpp BlogStuff.Order BlogStuff.Seq

/-! ### The program -/

/-- The body of the inner loop. There is no value outside a vector, so a bad index would show as
`none`. -/
def lmisCell (a : List Int) (i : Nat) (s : List Nat) (j : Nat) : Option (List Nat) := do
  let mine ← s[i]?
  let other ← s[j]?
  if mine ≤ other then
    if (← a[i]?) > (← a[j]?) then
      return s.set i (other + 1)
    else
      return s
  else
    return s

/-- The body of the outer loop. -/
def lmisRow (a : List Int) (s : List Nat) (i : Nat) : Option (List Nat) :=
  if i < s.length then (List.range' 0 i).foldlM (lmisCell a i) (s.set i 1) else none

/-- `LMIS(a)`. Without positions below `size` the loop does nothing. -/
def lmis (a : List Int) (s : List Nat) : Option (List Nat) :=
  let size := toInt a.length
  (List.range' 0 size.toNat).foldlM (lmisRow a) s

/-! ### The table -/

/-- The entries in front of position `i` are right. -/
structure Table (a : List Int) (size i : Nat) (s : List Nat) : Prop where
  length : s.length = size
  greatest : ∀ k, k < i → ∃ v, s[k]? = some v ∧ IsGreatest (risingLengths a k) v

/-- Within a row: the entry of position `i` is right for the positions in front of `j`. -/
structure Row (a : List Int) (size i : Nat) (x : Int) (j : Nat) (s : List Nat) : Prop extends
    Table a size i s where
  entry : ∃ v, s[i]? = some v ∧ IsGreatest (risingUpTo a x j) v

section

variable {a : List Int} {size i j : Nat} {x : Int} {s : List Nat}

theorem Table.set (h : Table a size i s) (v : Nat) : Table a size i (s.set i v) where
  length := by rw [List.length_set, h.length]
  greatest k hk := by
    rw [List.getElem?_set_ne (Nat.ne_of_gt hk)]
    exact h.greatest k hk

theorem Row.set (h : Row a size i x j s) (hi : i < size) {v k : Nat}
    (hv : IsGreatest (risingUpTo a x k) v) : Row a size i x k (s.set i v) where
  toTable := h.toTable.set v
  entry := ⟨v, List.getElem?_set_self (by rw [h.length]; exact hi), hv⟩

/-- **A round of the inner loop takes one more position into account.** The position extends a
sequence only if its value is smaller, and the entry grows only if it offers more than there is. -/
theorem lmisCell_greatest (h : Row a size i x j s) (hx : a[i]? = some x) (hi : i < size)
    (hj : j < i) : ∃ s', lmisCell a i s j = some s' ∧ Row a size i x (j + 1) s' := by
  obtain ⟨v, hv, hgreatest⟩ := h.entry
  obtain ⟨w, hw, hother⟩ := h.greatest j hj
  obtain ⟨y, hy⟩ : ∃ y, a[j]? = some y :=
    ⟨_, List.getElem?_eq_getElem (hj.trans (List.getElem?_eq_some_iff.mp hx).1)⟩
  by_cases hlt : y < x
  · have hnext := isGreatest_risingUpTo_extend hgreatest hy hlt hother
    by_cases hle : v ≤ w
    · rw [Nat.max_eq_right (by omega)] at hnext
      exact ⟨s.set i (w + 1), by simp [lmisCell, hv, hw, hle, hx, hy, hlt], h.set hi hnext⟩
    · -- the entry is above what the position offers
      rw [Nat.max_eq_left (by omega)] at hnext
      exact ⟨s, by simp [lmisCell, hv, hw, hle], h.toTable, v, hv, hnext⟩
  · have hnext := isGreatest_risingUpTo_skip hgreatest hy (not_lt.mp hlt)
    refine ⟨s, ?_, h.toTable, v, hv, hnext⟩
    simp [lmisCell, hv, hw, hx, hy, hlt]

/-- A round of the outer loop fills one entry. The inner loop starts with a sequence of one element
and ends when every earlier position has been looked at. -/
theorem lmisRow_table (h : Table a size i s) (hi : i < a.length) (hsize : a.length ≤ size) :
    ∃ s', lmisRow a s i = some s' ∧ Table a size (i + 1) s' := by
  obtain ⟨x, hx⟩ : ∃ x, a[i]? = some x := ⟨_, List.getElem?_eq_getElem hi⟩
  have his : i < s.length := by
    rw [h.length]
    omega
  have hstart : Row a size i x 0 (s.set i 1) :=
    ⟨h.set 1, 1, List.getElem?_set_self his, isGreatest_risingUpTo_zero a x⟩
  have hloop := foldlM_range' (P := Row a size i x) (f := lmisCell a i) 0 i hstart
    fun j s _ hj hrow => lmisCell_greatest hrow hx (by omega) (by omega)
  obtain ⟨s', hrun, hrow⟩ := hloop
  rw [Nat.zero_add] at hrow
  refine ⟨s', by rw [lmisRow, if_pos his, hrun], hrow.length, fun k hk => ?_⟩
  rcases Nat.lt_succ_iff_lt_or_eq.mp hk with hk | rfl
  · exact hrow.greatest k hk
  · rw [risingLengths_eq hx]
    exact hrow.entry

end

/-- **Every entry is the length of a longest strictly increasing subsequence that ends at its
position**, for every vector whose size is an `int`. Without its last element it ends at an
earlier, smaller one, where the table is right by then; the longest of these and one more is
what the inner loop finds. -/
theorem lmis_greatest (a : List Int) (s : List Nat) (hint : a.length ≤ intMax)
    (hs : a.length ≤ s.length) :
    ∃ s', lmis a s = some s' ∧ s'.length = s.length ∧
      ∀ i, i < a.length → ∃ v, s'[i]? = some v ∧ IsGreatest (risingLengths a i) v := by
  have hstart : Table a s.length 0 s := ⟨rfl, fun k hk => absurd hk (Nat.not_lt_zero k)⟩
  have hloop := foldlM_range' (P := Table a s.length) (f := lmisRow a) 0 a.length hstart
    fun i s' _ hi htable => lmisRow_table htable (by omega) hs
  obtain ⟨s', hrun, htable⟩ := hloop
  rw [Nat.zero_add] at htable
  refine ⟨s', ?_, htable.length, htable.greatest⟩
  simp only [lmis, toInt_of_le hint, Int.toNat_natCast, hrun]

/-- A vector of five numbers, and a table of zeros as `main` makes it. -/
theorem lmis_greatest_five :
    ∃ s', lmis [3, 1, 4, 1, 5] [0, 0, 0, 0, 0] = some s' ∧ s'.length = 5 ∧
      ∀ i, i < 5 → ∃ v, s'[i]? = some v ∧ IsGreatest (risingLengths [(3 : Int), 1, 4, 1, 5] i) v :=
  lmis_greatest [3, 1, 4, 1, 5] [0, 0, 0, 0, 0] (by decide) (by decide)

example : lmis [3, 1, 4, 1, 5] [0, 0, 0, 0, 0] = some [1, 1, 2, 1, 3] := by decide

/-- `2 ^ 31` elements: the size comes out negative, and the table keeps its zeros. The first entry
ought to be 1. -/
theorem lmis_untouched :
    lmis (List.replicate (2 ^ 31) 7) (List.replicate (2 ^ 31) 0) = some (List.replicate (2 ^ 31) 0) ∧
      (List.replicate (2 ^ 31) 0)[0]? = some 0 ∧
      IsGreatest (risingLengths (List.replicate (2 ^ 31) (7 : Int)) 0) 1 := by
  refine ⟨?_, by rw [List.getElem?_replicate, if_pos (by decide)], ?_⟩
  · have hsize : (toInt (2 ^ 31)).toNat = 0 := by decide
    simp only [lmis, List.length_replicate, hsize]
    rfl
  · have hfirst : (List.replicate (2 ^ 31) (7 : Int))[0]? = some 7 := by
      rw [List.getElem?_replicate, if_pos (by decide)]
    rw [risingLengths_eq hfirst]
    exact isGreatest_risingUpTo_zero _ 7

end BlogStuff.Algorithm
