import Mathlib.Order.Bounds.Basic
import Mathlib.Tactic

/-!
# BlogStuff.Order.Rising

Strictly increasing subsequences of a list, by the position they end at.

`risingLengths a i` are the lengths of those that end at position `i`. Without its last element
such a sequence is empty or ends at an earlier position with a smaller element, which is the
recurrence a table of the greatest lengths is filled by (`risingLengths_eq`). `risingUpTo` is the
recurrence with the earlier positions counted off one by one.
-/

namespace BlogStuff.Order

variable {α : Type} [LinearOrder α]

/-- The lengths of the strictly increasing subsequences that end at position `i`. -/
def risingLengths (a : List α) (i : Nat) : Set Nat :=
  {n | ∃ x t, a[i]? = some x ∧ t.Sublist (a.take i) ∧ (t ++ [x]).Pairwise (· < ·) ∧ n = t.length + 1}

/-- The lengths of those that have one element only, or end with an element in front of position
`j` and `x` behind it. -/
def risingUpTo (a : List α) (x : α) (j : Nat) : Set Nat :=
  {n | n = 1 ∨ ∃ k y m, k < j ∧ a[k]? = some y ∧ y < x ∧ m ∈ risingLengths a k ∧ n = m + 1}

omit [LinearOrder α] in
/-- A sequence with a last element ends at some position, and the rest of it lies in front of that.
This is what makes the recursion over the last position complete. -/
theorem concat_sublist_iff {t l : List α} {y : α} :
    (t ++ [y]).Sublist l ↔ ∃ k, l[k]? = some y ∧ t.Sublist (l.take k) := by
  rw [List.append_sublist_iff]
  constructor
  · intro h
    obtain ⟨r, s, rfl, ht, hy⟩ := h
    obtain ⟨u, v, rfl⟩ := List.append_of_mem (List.singleton_sublist.mp hy)
    refine ⟨(r ++ u).length, ?_, ?_⟩
    · rw [← List.append_assoc, List.getElem?_append_right le_rfl, Nat.sub_self]
      rfl
    · rw [← List.append_assoc, List.take_left]
      exact ht.trans (List.sublist_append_left r u)
  · intro h
    obtain ⟨k, hk, ht⟩ := h
    obtain ⟨hlt, rfl⟩ := List.getElem?_eq_some_iff.mp hk
    refine ⟨l.take k, l.drop k, (List.take_append_drop k l).symm, ht, ?_⟩
    rw [List.drop_eq_getElem_cons hlt, List.singleton_sublist]
    exact List.mem_cons_self

/-- **The recurrence.** A rising subsequence that ends at `i` is one element, or ends at an earlier
place with a smaller element before it takes the one at `i`. -/
theorem risingLengths_eq {a : List α} {i : Nat} {x : α} (hx : a[i]? = some x) :
    risingLengths a i = risingUpTo a x i := by
  ext n
  constructor
  · intro h
    obtain ⟨x', t, hx', ht, hrise, rfl⟩ := h
    obtain rfl := Option.some.inj (hx.symm.trans hx')
    rcases List.eq_nil_or_concat' t with rfl | ⟨t, y, rfl⟩
    · exact .inl rfl
    · obtain ⟨hfront, -, hlast⟩ := List.pairwise_append.mp hrise
      obtain ⟨k, hk, ht⟩ := concat_sublist_iff.mp ht
      have hki : k < i := by
        have hlt := (List.getElem?_eq_some_iff.mp hk).1
        rw [List.length_take] at hlt
        omega
      rw [List.getElem?_take_of_lt hki] at hk
      rw [List.take_take, Nat.min_eq_left hki.le] at ht
      exact .inr ⟨k, y, _, hki, hk, hlast y (by simp) x (by simp), ⟨y, t, hk, ht, hfront, rfl⟩, by simp⟩
  · intro h
    rcases h with rfl | ⟨k, y, m, hki, hk, hlt, ⟨y', t, hy', ht, hrise, rfl⟩, rfl⟩
    · exact ⟨x, [], hx, List.nil_sublist _, by simp, rfl⟩
    · obtain rfl := Option.some.inj (hk.symm.trans hy')
      refine ⟨x, t ++ [y], hx, ?_, ?_, by simp⟩
      · refine concat_sublist_iff.mpr ⟨k, ?_, ?_⟩
        · rw [List.getElem?_take_of_lt hki, hk]
        · rwa [List.take_take, Nat.min_eq_left hki.le]
      · refine List.pairwise_append.mpr ⟨hrise, List.pairwise_singleton _ _, fun z hz w hw => ?_⟩
        obtain rfl := List.mem_singleton.mp hw
        -- everything in front of `y` is below it
        rcases List.mem_append.mp hz with hz | hz
        · exact ((List.pairwise_append.mp hrise).2.2 z hz y (by simp)).trans hlt
        · obtain rfl := List.mem_singleton.mp hz
          exact hlt

section

variable {a : List α} {x y : α} {j v w : Nat}

theorem isGreatest_risingUpTo_zero (a : List α) (x : α) : IsGreatest (risingUpTo a x 0) 1 := by
  refine ⟨.inl rfl, fun n hn => ?_⟩
  rcases hn with rfl | ⟨k, -, -, hk, -⟩
  · exact le_rfl
  · exact absurd hk (Nat.not_lt_zero k)

theorem risingUpTo_succ (a : List α) (x : α) (j : Nat) : risingUpTo a x (j + 1) =
    risingUpTo a x j ∪ {n | ∃ y m, a[j]? = some y ∧ y < x ∧ m ∈ risingLengths a j ∧ n = m + 1} := by
  ext n
  constructor
  · intro h
    rcases h with rfl | ⟨k, y, m, hk, hrest⟩
    · exact .inl (.inl rfl)
    · rcases Nat.lt_succ_iff_lt_or_eq.mp hk with hk | rfl
      · exact .inl (.inr ⟨k, y, m, hk, hrest⟩)
      · exact .inr ⟨y, m, hrest⟩
  · intro h
    rcases h with (rfl | ⟨k, y, m, hk, hrest⟩) | ⟨y, m, hrest⟩
    · exact .inl rfl
    · exact .inr ⟨k, y, m, by omega, hrest⟩
    · exact .inr ⟨j, y, m, Nat.lt_succ_self j, hrest⟩

/-- A position whose element is not smaller adds nothing. -/
theorem isGreatest_risingUpTo_skip (h : IsGreatest (risingUpTo a x j) v) (hy : a[j]? = some y)
    (hle : x ≤ y) : IsGreatest (risingUpTo a x (j + 1)) v := by
  have hnone : {n | ∃ y m, a[j]? = some y ∧ y < x ∧ m ∈ risingLengths a j ∧ n = m + 1} = ∅ := by
    refine Set.eq_empty_of_forall_notMem fun n hn => ?_
    obtain ⟨y', -, hy', hlt, -⟩ := hn
    obtain rfl := Option.some.inj (hy.symm.trans hy')
    exact absurd hlt (not_lt.mpr hle)
  rwa [risingUpTo_succ, hnone, Set.union_empty]

/-- One with a smaller element adds what ends there. -/
theorem isGreatest_risingUpTo_extend (h : IsGreatest (risingUpTo a x j) v) (hy : a[j]? = some y)
    (hlt : y < x) (hw : IsGreatest (risingLengths a j) w) :
    IsGreatest (risingUpTo a x (j + 1)) (max v (w + 1)) := by
  rw [risingUpTo_succ]
  refine h.union ⟨⟨y, w, hy, hlt, hw.1, rfl⟩, fun n hn => ?_⟩
  obtain ⟨-, m, -, -, hm, rfl⟩ := hn
  exact Nat.succ_le_succ (hw.2 hm)

end

end BlogStuff.Order
