import Mathlib.Algebra.Order.BigOperators.Group.List
import Mathlib.Algebra.Order.Monoid.Defs
import Mathlib.Tactic

/-!
# BlogStuff.Grid.Ways

Ways through a grid that start in the upper left cell and go right or down, with a weight
on every cell from any ordered monoid.

A way is the list of its steps, the last one first: the cell it ends in is then given by
the number of steps of either kind, and the best way to a cell extends the best way to
the cell to the left or above. `best` is that recursion. It is the least weight of all
ways (`best_le_total`), and attained by the way that goes back to the left where both
are equally good (`traced`). Among the lightest ways this one is singled out by its
steps alone: compared from the end it prefers steps to the right (`chosen_iff`).
-/

namespace BlogStuff.Grid

/-- A step of a way. -/
inductive Step
  | right
  | down
  deriving DecidableEq, Repr

/-- A way: its steps, the last one first. -/
abbrev Way := List Step

/-- The cell a way ends in: row and column. -/
def endOf (r : Way) : Nat × Nat := (r.count .down, r.count .right)

/-- The cells of a way, the last one first. -/
def cells : Way → List (Nat × Nat)
  | [] => [(0, 0)]
  | s :: r => endOf (s :: r) :: cells r

@[simp] theorem endOf_nil : endOf [] = (0, 0) := rfl

theorem endOf_right {r : Way} {i j : Nat} :
    endOf (.right :: r) = (i, j) ↔ ∃ k, j = k + 1 ∧ endOf r = (i, k) := by
  simp only [endOf, List.count_cons, Prod.mk.injEq]
  constructor
  · intro h
    refine ⟨r.count .right, ?_, ?_, rfl⟩
    · simpa using h.2.symm
    · simpa using h.1
  · intro h
    obtain ⟨k, rfl, hi, rfl⟩ := h
    simpa using hi

theorem endOf_down {r : Way} {i j : Nat} :
    endOf (.down :: r) = (i, j) ↔ ∃ k, i = k + 1 ∧ endOf r = (k, j) := by
  simp only [endOf, List.count_cons, Prod.mk.injEq]
  constructor
  · intro h
    refine ⟨r.count .down, ?_, rfl, ?_⟩
    · simpa using h.1.symm
    · simpa using h.2
  · intro h
    obtain ⟨k, rfl, rfl, hj⟩ := h
    simpa using hj

theorem mem_cells_le {r : Way} {c : Nat × Nat} (h : c ∈ cells r) :
    c.1 ≤ (endOf r).1 ∧ c.2 ≤ (endOf r).2 := by
  induction r with
  | nil =>
      rw [cells, List.mem_singleton] at h
      simp [h]
  | cons s r ih =>
      rw [cells, List.mem_cons] at h
      rcases h with rfl | h
      · exact ⟨le_rfl, le_rfl⟩
      · obtain ⟨h1, h2⟩ := ih h
        exact ⟨h1.trans (List.count_le_count_cons), h2.trans (List.count_le_count_cons)⟩

section

variable {α : Type} [AddCommMonoid α]

/-- The weight of a way. -/
def total (w : Nat → Nat → α) (r : Way) : α := ((cells r).map fun c => w c.1 c.2).sum

theorem total_cons {w : Nat → Nat → α} {s : Step} {r : Way} {i j : Nat}
    (h : endOf (s :: r) = (i, j)) : total w (s :: r) = total w r + w i j := by
  rw [total, cells, List.map_cons, List.sum_cons, h, add_comm]
  rfl

variable [LinearOrder α]

/-- The least weight of a way to a cell. -/
def best (w : Nat → Nat → α) : Nat → Nat → α
  | 0, 0 => w 0 0
  | 0, j + 1 => best w 0 j + w 0 (j + 1)
  | i + 1, 0 => best w i 0 + w (i + 1) 0
  | i + 1, j + 1 => min (best w (i + 1) j) (best w i (j + 1)) + w (i + 1) (j + 1)
  termination_by i j => (i, j)

/-- A lightest way to a cell, followed back: to the left where that is not worse. -/
def traced (w : Nat → Nat → α) : Nat → Nat → Way
  | 0, 0 => []
  | 0, j + 1 => .right :: traced w 0 j
  | i + 1, 0 => .down :: traced w i 0
  | i + 1, j + 1 =>
      if best w (i + 1) j ≤ best w i (j + 1) then .right :: traced w (i + 1) j
      else .down :: traced w i (j + 1)
  termination_by i j => (i, j)

variable {w : Nat → Nat → α} {i j : Nat} {r : Way}

theorem endOf_traced (w : Nat → Nat → α) (i j : Nat) : endOf (traced w i j) = (i, j) := by
  induction i, j using traced.induct (w := w) with
  | case1 => simp [traced]
  | case2 j ih =>
      rw [traced]
      exact endOf_right.mpr ⟨j, rfl, ih⟩
  | case3 i ih =>
      rw [traced]
      exact endOf_down.mpr ⟨i, rfl, ih⟩
  | case4 i j h ih =>
      rw [traced, if_pos h]
      exact endOf_right.mpr ⟨j, rfl, ih⟩
  | case5 i j h ih =>
      rw [traced, if_neg h]
      exact endOf_down.mpr ⟨i, rfl, ih⟩

/-- The way followed back has the least weight. The induction follows the recursion of `traced`,
which takes at every cell the step that `best` has taken its minimum from. -/
theorem total_traced (w : Nat → Nat → α) (i j : Nat) : total w (traced w i j) = best w i j := by
  induction i, j using traced.induct (w := w) with
  | case1 => simp [traced, best, total, cells]
  | case2 j ih =>
      have hend := endOf_traced w 0 (j + 1)
      rw [traced] at hend ⊢
      rw [total_cons hend, ih, best]
  | case3 i ih =>
      have hend := endOf_traced w (i + 1) 0
      rw [traced] at hend ⊢
      rw [total_cons hend, ih, best]
  | case4 i j h ih =>
      have hend := endOf_traced w (i + 1) (j + 1)
      rw [traced, if_pos h] at hend ⊢
      rw [total_cons hend, ih, best, min_eq_left h]
  | case5 i j h ih =>
      have hend := endOf_traced w (i + 1) (j + 1)
      rw [traced, if_neg h] at hend ⊢
      rw [total_cons hend, ih, best, min_eq_right (le_of_not_ge h)]

variable [IsOrderedCancelAddMonoid α]

theorem best_right_le : best w i (j + 1) ≤ best w i j + w i (j + 1) := by
  cases i with
  | zero => rw [best]
  | succ i =>
      rw [best]
      exact add_le_add_left (min_le_left _ _) _

theorem best_down_le : best w (i + 1) j ≤ best w i j + w (i + 1) j := by
  cases j with
  | zero => rw [best]
  | succ j =>
      rw [best]
      exact add_le_add_left (min_le_right _ _) _

/-- No way is lighter than `best`, by induction on the way: its last step comes from a cell for
which this is known. -/
theorem best_le_total (h : endOf r = (i, j)) : best w i j ≤ total w r := by
  induction r generalizing i j with
  | nil =>
      obtain ⟨rfl, rfl⟩ := Prod.mk.inj h
      simp [best, total, cells]
  | cons s r ih =>
      rw [total_cons h]
      cases s with
      | right =>
          obtain ⟨k, rfl, hr⟩ := endOf_right.mp h
          exact best_right_le.trans (add_le_add_left (ih hr) _)
      | down =>
          obtain ⟨k, rfl, hr⟩ := endOf_down.mp h
          exact best_down_le.trans (add_le_add_left (ih hr) _)

/-! ### The lightest ways -/

/-- No way to the cell is lighter. -/
def Lightest (w : Nat → Nat → α) (i j : Nat) (r : Way) : Prop :=
  endOf r = (i, j) ∧ ∀ r', endOf r' = (i, j) → total w r ≤ total w r'

theorem lightest_iff : Lightest w i j r ↔ endOf r = (i, j) ∧ total w r = best w i j := by
  constructor
  · intro h
    refine ⟨h.1, le_antisymm ?_ (best_le_total h.1)⟩
    rw [← total_traced]
    exact h.2 _ (endOf_traced w i j)
  · intro h
    exact ⟨h.1, fun r' hr' => h.2.trans_le (best_le_total hr')⟩

end

/-- Compared from their ends, the first way goes right where they part. -/
def PrefersRight : Way → Way → Prop
  | [], _ => True
  | _ :: _, [] => False
  | .right :: _, .down :: _ => True
  | .down :: _, .right :: _ => False
  | .right :: a, .right :: b => PrefersRight a b
  | .down :: a, .down :: b => PrefersRight a b

theorem PrefersRight.antisymm {a b : Way} (hab : PrefersRight a b) (hba : PrefersRight b a) :
    a = b := by
  induction a, b using PrefersRight.induct with
  | case1 b =>
      cases b with
      | nil => rfl
      | cons s b => exact hba.elim
  | case2 s a => exact hab.elim
  | case3 a b => exact hba.elim
  | case4 a b => exact hab.elim
  | case5 a b ih => rw [ih hab hba]
  | case6 a b ih => rw [ih hab hba]

section

variable {α : Type} [AddCommMonoid α] [LinearOrder α] [IsOrderedCancelAddMonoid α]
  {w : Nat → Nat → α} {i j : Nat} {r : Way}

/-- The lightest way that, compared from the end, prefers steps to the right. -/
def Chosen (w : Nat → Nat → α) (i j : Nat) (r : Way) : Prop :=
  Lightest w i j r ∧ ∀ r', Lightest w i j r' → PrefersRight r r'

/-- The beginning of a lightest way is one, to the cell that is at least as good as the
other neighbour. -/
theorem lightest_right (h : total w (.right :: r) = best w (i + 1) (j + 1))
    (hend : endOf (.right :: r) = (i + 1, j + 1)) :
    endOf r = (i + 1, j) ∧ total w r = min (best w (i + 1) j) (best w i (j + 1)) := by
  obtain ⟨k, hk, hr⟩ := endOf_right.mp hend
  obtain rfl : j = k := by omega
  rw [total_cons hend, best] at h
  exact ⟨hr, add_right_cancel h⟩

theorem lightest_down (h : total w (.down :: r) = best w (i + 1) (j + 1))
    (hend : endOf (.down :: r) = (i + 1, j + 1)) :
    endOf r = (i, j + 1) ∧ total w r = min (best w (i + 1) j) (best w i (j + 1)) := by
  obtain ⟨k, hk, hr⟩ := endOf_down.mp hend
  obtain rfl : i = k := by omega
  rw [total_cons hend, best] at h
  exact ⟨hr, add_right_cancel h⟩

theorem prefersRight_traced (h : endOf r = (i, j)) (ht : total w r = best w i j) :
    PrefersRight (traced w i j) r := by
  induction i, j using traced.induct (w := w) generalizing r with
  | case1 =>
      rw [traced]
      trivial
  | case2 j ih =>
      rw [traced]
      cases r with
      | nil => simp at h
      | cons s r =>
          cases s with
          | right =>
              obtain ⟨k, hk, hr⟩ := endOf_right.mp h
              obtain rfl : j = k := by omega
              rw [total_cons h, best] at ht
              exact ih hr (add_right_cancel ht)
          | down => trivial
  | case3 i ih =>
      rw [traced]
      cases r with
      | nil => simp at h
      | cons s r =>
          cases s with
          | right =>
              obtain ⟨k, hk, -⟩ := endOf_right.mp h
              omega
          | down =>
              obtain ⟨k, hk, hr⟩ := endOf_down.mp h
              obtain rfl : i = k := by omega
              rw [total_cons h, best] at ht
              exact ih hr (add_right_cancel ht)
  | case4 i j hle ih =>
      rw [traced, if_pos hle]
      cases r with
      | nil => simp at h
      | cons s r =>
          cases s with
          | right =>
              obtain ⟨hr, htotal⟩ := lightest_right ht h
              exact ih hr (htotal.trans (min_eq_left hle))
          | down => trivial
  | case5 i j hle ih =>
      rw [traced, if_neg hle]
      have hlt := lt_of_not_ge hle
      cases r with
      | nil => simp at h
      | cons s r =>
          cases s with
          | right =>
              -- it would be lighter than the best way to the left
              obtain ⟨hr, htotal⟩ := lightest_right ht h
              rw [min_eq_right hlt.le] at htotal
              exact absurd (best_le_total hr) (by rw [htotal]; exact not_le.mpr hlt)
          | down =>
              obtain ⟨hr, htotal⟩ := lightest_down ht h
              exact ih hr (htotal.trans (min_eq_right hlt.le))

/-- **The way followed back is the chosen one.** It is a lightest way, and where it turns down
no lightest way could have come from the left. -/
theorem chosen_iff : Chosen w i j r ↔ r = traced w i j := by
  have htraced : Lightest w i j (traced w i j) :=
    lightest_iff.mpr ⟨endOf_traced w i j, total_traced w i j⟩
  constructor
  · intro h
    obtain ⟨hend, ht⟩ := lightest_iff.mp h.1
    exact (h.2 _ htraced).antisymm (prefersRight_traced hend ht)
  · rintro rfl
    refine ⟨htraced, fun r' hr' => ?_⟩
    obtain ⟨hend, ht⟩ := lightest_iff.mp hr'
    exact prefersRight_traced hend ht

end

end BlogStuff.Grid
