import BlogStuff.Algorithm.GridDp
import BlogStuff.Cpp.Int

/-!
# BlogStuff.Algorithm.GridPath

`dp` of `2b.cpp` in the program's own 32-bit integers, and the path `output_path` prints
after it.

A sum above the largest `int` has no value in C++, so the additions here are partial. `dp`
writes every cell once, and what it writes is the least sum of the ways to the cell. The
run is therefore defined exactly if all these sums are `int`s (`dpInt_eq_some_iff`), and it
is then the run of `dp` over all numbers, whose marks lead back along a lightest way.
-/

namespace BlogStuff.Algorithm

open BlogStuff.Cpp BlogStuff.Grid BlogStuff.Seq

/-! ### The program -/

/-- One round of the first loop of `dp`. -/
def dpEdgeInt (t : Tables) (i : Nat) : Option Tables := do
  let a ← checked (t.m 0 i + t.m 0 (i - 1))
  let m := setCell t.m 0 i a
  let b ← checked (m i 0 + m (i - 1) 0)
  return ⟨setCell m i 0 b, setCell (setCell t.d 0 i 'R') i 0 'D'⟩

/-- One round of the second loop: the cell takes the smaller of the sums above it and to its left,
and the letter of the way it came from. The sum is an `int`. -/
def dpCellInt (i : Nat) (t : Tables) (j : Nat) : Option Tables :=
  if t.m (i - 1) j ≥ t.m i (j - 1) then do
    let a ← checked (t.m i j + t.m i (j - 1))
    return ⟨setCell t.m i j a, setCell t.d i j 'R'⟩
  else do
    let a ← checked (t.m i j + t.m (i - 1) j)
    return ⟨setCell t.m i j a, setCell t.d i j 'D'⟩

/-- The inner loop of the second loop. -/
def dpRowInt (n : Nat) (t : Tables) (i : Nat) : Option Tables :=
  (List.range' 1 (n - 1)).foldlM (dpCellInt i) t

/-- `dp(m, d, n)`, with `int` sums. -/
def dpInt (t : Tables) (n : Nat) : Option Tables := do
  let t := { t with d := setCell t.d 0 0 ' ' }
  let t ← (List.range' 1 (n - 1)).foldlM dpEdgeInt t
  (List.range' 1 (n - 1)).foldlM (dpRowInt n) t

/-! ### Rounds that are defined -/

section

variable {w : Nat → Nat → Nat} {n : Nat} {t t' : Tables}

/-- A round of the first loop is defined if the two sums it writes are `int`s. The sums are those of
the exact round, which the table already knows to be least weights. -/
theorem dpEdgeInt_eq_some_iff {k : Nat} (h : Filled w n (Edge k) t) (hk : k + 1 < n) :
    dpEdgeInt t (k + 1) = some t' ↔
      (best w 0 (k + 1) ≤ intMax ∧ best w (k + 1) 0 ≤ intMax) ∧ dpEdge t (k + 1) = t' := by
  -- what the round writes is read off the exact one
  have hfilled := h.edge hk
  have hrow : t.m 0 (k + 1) + t.m 0 k = best w 0 (k + 1) := by
    rw [← ((hfilled 0 (k + 1) (by omega) hk).1 (Or.inl ⟨rfl, le_rfl⟩)).1]
    simp [dpEdge, setCell]
  have hcol : setCell t.m 0 (k + 1) (best w 0 (k + 1)) (k + 1) 0 +
      setCell t.m 0 (k + 1) (best w 0 (k + 1)) k 0 = best w (k + 1) 0 := by
    rw [← ((hfilled (k + 1) 0 hk (by omega)).1 (Or.inr ⟨rfl, le_rfl⟩)).1, ← hrow]
    simp [dpEdge, setCell]
  have hexact : dpEdge t (k + 1) = ⟨setCell (setCell t.m 0 (k + 1) (best w 0 (k + 1))) (k + 1) 0
      (best w (k + 1) 0), setCell (setCell t.d 0 (k + 1) 'R') (k + 1) 0 'D'⟩ := by
    rw [← hcol, ← hrow]
    rfl
  rw [hexact]
  simp only [dpEdgeInt, Nat.add_sub_cancel, bind, checked_bind_eq_some_iff, hrow, hcol, pure,
    Option.some.injEq, and_assoc]

theorem dpCellInt_eq_some_iff {a b : Nat} (h : Filled w n (Upper n a b) t) (ha : a + 1 < n)
    (hb : b + 1 < n) :
    dpCellInt (a + 1) t (b + 1) = some t' ↔
      best w (a + 1) (b + 1) ≤ intMax ∧ dpCell (a + 1) t (b + 1) = t' := by
  have hwritten := (((h.cell ha hb) (a + 1) (b + 1) ha hb).1
    (by unfold Upper Edge; omega)).1
  rw [← hwritten]
  unfold dpCellInt dpCell
  split_ifs with hle
  · simp only [bind, checked_bind_eq_some_iff, pure, Option.some.injEq, setCell_self]
  · simp only [bind, checked_bind_eq_some_iff, pure, Option.some.injEq, setCell_self]

theorem dpRowInt_eq_some_iff {a : Nat} (h : Filled w n (Upper n a 0) t) (ha : a + 1 < n) :
    dpRowInt n t (a + 1) = some t' ↔
      (∀ b, b < n - 1 → best w (a + 1) (b + 1) ≤ intMax) ∧ dpRow n t (a + 1) = t' :=
  foldlM_range'_iff (P := fun b t => Filled w n (Upper n a b) t) (f := dpCellInt (a + 1))
    (Q := fun b => best w (a + 1) (b + 1) ≤ intMax) (n - 1) h
    (fun b t hb ht => ht.cell ha (by omega))
    fun b t t' hb ht => dpCellInt_eq_some_iff ht ha (by omega)

/-- **The run is defined exactly if the least sums of all cells are `int`s.** These are the
sums that are formed, one for each cell. -/
theorem dpInt_eq_some_iff (hw : ∀ i j, i < n → j < n → t.m i j = w i j)
    (hcorner : w 0 0 ≤ intMax) :
    dpInt t n = some t' ↔ (∀ i j, i < n → j < n → best w i j ≤ intMax) ∧ dp t n = t' := by
  have hfirst : ∀ u, (List.range' 1 (n - 1)).foldlM dpEdgeInt { t with d := setCell t.d 0 0 ' ' } =
      some u ↔ (∀ k, k < n - 1 → best w 0 (k + 1) ≤ intMax ∧ best w (k + 1) 0 ≤ intMax) ∧
        (List.range' 1 (n - 1)).foldl dpEdge { t with d := setCell t.d 0 0 ' ' } = u := by
    intro u
    exact foldlM_range'_iff (P := fun k t => Filled w n (Edge k) t) (f := dpEdgeInt)
      (Q := fun k => best w 0 (k + 1) ≤ intMax ∧ best w (k + 1) 0 ≤ intMax) (n - 1)
      (filled_start hw) (fun k t hk ht => ht.edge (by omega))
      fun k t t' hk ht => dpEdgeInt_eq_some_iff ht (by omega)
  have hsecond : (List.range' 1 (n - 1)).foldlM (dpRowInt n)
      ((List.range' 1 (n - 1)).foldl dpEdge { t with d := setCell t.d 0 0 ' ' }) = some t' ↔
        (∀ a, a < n - 1 → ∀ b, b < n - 1 → best w (a + 1) (b + 1) ≤ intMax) ∧ dp t n = t' :=
    foldlM_range'_iff (P := fun a t => Filled w n (Upper n a 0) t) (f := dpRowInt n)
      (Q := fun a => ∀ b, b < n - 1 → best w (a + 1) (b + 1) ≤ intMax) (n - 1)
      (filled_edges hw) (fun a t ha ht => ht.row (by omega))
      fun a t t' ha ht => dpRowInt_eq_some_iff ht (by omega)
  simp only [dpInt, bind, Option.bind_eq_some_iff, hfirst]
  constructor
  · intro h
    obtain ⟨u, ⟨hedges, rfl⟩, hrun⟩ := h
    obtain ⟨hrows, hlast⟩ := hsecond.mp hrun
    refine ⟨fun i j hi hj => ?_, hlast⟩
    -- the corner, the first row, the first column and the rest
    cases i with
    | zero =>
        cases j with
        | zero =>
            rw [best]
            exact hcorner
        | succ j => exact (hedges j (by omega)).1
    | succ i =>
        cases j with
        | zero => exact (hedges i (by omega)).2
        | succ j => exact hrows i (by omega) j (by omega)
  · intro h
    refine ⟨_, ⟨fun k hk => ⟨?_, ?_⟩, rfl⟩, hsecond.mpr ⟨fun a ha b hb => ?_, h.2⟩⟩
    · exact h.1 0 (k + 1) (by omega) (by omega)
    · exact h.1 (k + 1) 0 (by omega) (by omega)
    · exact h.1 (a + 1) (b + 1) (by omega) (by omega)

end

/-! ### The path that is printed -/

/-- The tables after `dp`: the last cell holds the least sum, and the path that `output_path`
prints, read inside the table, is a way of that sum with as many steps down as right. -/
def LeadsBack (w : Nat → Nat → Nat) (n : Nat) (t : Tables) : Prop :=
  ∃ r, outputPath t.d n = some (text r) ∧ Lightest w (n - 1) (n - 1) r ∧
    t.m (n - 1) (n - 1) = total w r ∧
    (text r).count 'D' = n - 1 ∧ (text r).count 'R' = n - 1 ∧ (text r).length = 2 * (n - 1)

/-- To every cell there is a way whose sum is an `int`. -/
def SumsFit (w : Nat → Nat → Nat) (n : Nat) : Prop :=
  ∀ i j, i < n → j < n → ∃ r, endOf r = (i, j) ∧ total w r ≤ intMax

theorem sumsFit_iff {w : Nat → Nat → Nat} {n : Nat} :
    SumsFit w n ↔ ∀ i j, i < n → j < n → best w i j ≤ intMax := by
  constructor
  · intro h i j hi hj
    obtain ⟨r, hr, hfit⟩ := h i j hi hj
    exact (best_le_total hr).trans hfit
  · intro h i j hi hj
    refine ⟨traced w i j, endOf_traced w i j, ?_⟩
    rw [total_traced]
    exact h i j hi hj

theorem length_text (r : Way) : (text r).length = r.count .down + r.count .right := by
  induction r with
  | nil => rfl
  | cons s r ih =>
      rw [text_cons, List.length_append, ih]
      cases s <;> simp <;> omega

theorem count_text (s : Step) (r : Way) : (text r).count (letter s) = r.count s := by
  rw [text, List.count_reverse]
  exact List.count_map_of_injective r letter letter_injective s

theorem leadsBack_dp {w : Nat → Nat → Nat} {n : Nat} {t : Tables} (hn : 1 ≤ n)
    (hw : ∀ i j, i < n → j < n → t.m i j = w i j) : LeadsBack w n (dp t n) := by
  have hfilled := filled_dp hw
  have hend := endOf_traced w (n - 1) (n - 1)
  obtain ⟨hdown, hright⟩ := Prod.mk.inj hend
  refine ⟨traced w (n - 1) (n - 1), outputPath_filled hn hfilled,
    lightest_iff.mpr ⟨hend, total_traced w _ _⟩, ?_, ?_, ?_, ?_⟩
  · rw [total_traced, ((hfilled (n - 1) (n - 1) (by omega) (by omega)).1 trivial).1]
  · exact (count_text .down _).trans hdown
  · exact (count_text .right _).trans hright
  · rw [length_text, hdown, hright, Nat.two_mul]

/-- **The tables lead back along a lightest way.** Over all numbers they do for every matrix;
in `int`s the run is defined, and leads back, exactly if the sums fit. The last step of a
lightest way comes from a neighbour, and what is before it is a lightest way to there, so the
least sums obey the recurrence that `dp` computes. -/
theorem leadsBack_iff_sumsFit {w : Nat → Nat → Nat} {n : Nat} {t : Tables} (hn : 1 ≤ n)
    (hw : ∀ i j, i < n → j < n → t.m i j = w i j) (hint : ∀ i j, i < n → j < n → w i j ≤ intMax) :
    LeadsBack w n (dp t n) ∧ ((∃ t', dpInt t n = some t' ∧ LeadsBack w n t') ↔ SumsFit w n) := by
  refine ⟨leadsBack_dp hn hw, ?_⟩
  rw [sumsFit_iff]
  constructor
  · intro h
    obtain ⟨t', hrun, -⟩ := h
    exact ((dpInt_eq_some_iff hw (hint 0 0 hn hn)).mp hrun).1
  · intro h
    exact ⟨dp t n, (dpInt_eq_some_iff hw (hint 0 0 hn hn)).mpr ⟨h, rfl⟩, leadsBack_dp hn hw⟩

/-- A matrix in which each way has a sum of its own, with directions not set yet. -/
def slopeTable : Tables := ⟨fun i j => 3 * i + j + 1, fun _ _ => '?'⟩

theorem leadsBack_iff_sumsFit_slope :
    ∃ t', dpInt slopeTable 3 = some t' ∧ LeadsBack slopeTable.m 3 t' := by
  have hint : ∀ i j, i < 3 → j < 3 → slopeTable.m i j ≤ intMax := by
    intro i j hi hj
    interval_cases i <;> interval_cases j <;> simp [slopeTable, intMax]
  refine (leadsBack_iff_sumsFit (by omega) (fun _ _ _ _ => rfl) hint).2.mpr ?_
  rw [sumsFit_iff]
  intro i j hi hj
  interval_cases i <;> interval_cases j <;> simp [best, slopeTable, intMax]

/-- The largest `int` in the corner, ones elsewhere. -/
def fullCorner : Tables := ⟨fun i j => if i = 0 ∧ j = 0 then intMax else 1, fun _ _ => '?'⟩

/-- The first addition is above the largest `int`, so there are no tables to read. -/
theorem fullCorner_overflows : (∀ i j, fullCorner.m i j ≤ intMax) ∧ dpInt fullCorner 2 = none ∧
    ¬ ∃ t', dpInt fullCorner 2 = some t' ∧ LeadsBack fullCorner.m 2 t' := by
  have hrun : dpInt fullCorner 2 = none := rfl
  refine ⟨fun i j => ?_, hrun, fun h => ?_⟩
  · show (if i = 0 ∧ j = 0 then intMax else 1) ≤ intMax
    split_ifs
    · exact le_rfl
    · exact (by decide : 1 ≤ intMax)
  · obtain ⟨t', ht', -⟩ := h
    rw [hrun] at ht'
    exact absurd ht' (Option.some_ne_none t').symm

end BlogStuff.Algorithm
