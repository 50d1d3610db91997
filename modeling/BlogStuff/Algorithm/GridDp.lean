import BlogStuff.Grid.Ways
import BlogStuff.Seq.Loop

/-!
# BlogStuff.Algorithm.GridDp

The dynamic program of `2b.cpp` (`dp` and `output_path`): the least sums of all cells of a
square table, and the way back from the last cell.

`dp` fills the first row and column, then the rest row by row, each cell from the ones to
the left and above. `Filled` is the invariant of all three loops: some cells are finished,
the others as they were. What is finished is `best` and the mark of the step that leads
there, so that following the marks gives the `traced` way (`traceback_filled`).
-/

namespace BlogStuff.Algorithm

open BlogStuff.Grid BlogStuff.Seq

/-! ### The program -/

/-- `m[i][j] = a`. -/
def setCell {α : Type} (m : Nat → Nat → α) (i j : Nat) (a : α) : Nat → Nat → α :=
  fun i' j' => if i' = i ∧ j' = j then a else m i' j'

/-- The sums and the directions. -/
structure Tables where
  m : Nat → Nat → Nat
  d : Nat → Nat → Char

/-- One round of the first loop of `dp`: a cell of the first row and one of the first
column. -/
def dpEdge (t : Tables) (i : Nat) : Tables :=
  let m := setCell t.m 0 i (t.m 0 i + t.m 0 (i - 1))
  let m := setCell m i 0 (m i 0 + m (i - 1) 0)
  ⟨m, setCell (setCell t.d 0 i 'R') i 0 'D'⟩

/-- One round of the second loop. -/
def dpCell (i : Nat) (t : Tables) (j : Nat) : Tables :=
  if t.m (i - 1) j ≥ t.m i (j - 1) then
    ⟨setCell t.m i j (t.m i j + t.m i (j - 1)), setCell t.d i j 'R'⟩
  else ⟨setCell t.m i j (t.m i j + t.m (i - 1) j), setCell t.d i j 'D'⟩

/-- The inner loop of the second loop. -/
def dpRow (n : Nat) (t : Tables) (i : Nat) : Tables := (List.range' 1 (n - 1)).foldl (dpCell i) t

/-- `dp(m, d, n)`. -/
def dp (t : Tables) (n : Nat) : Tables :=
  let t := { t with d := setCell t.d 0 0 ' ' }
  let t := (List.range' 1 (n - 1)).foldl dpEdge t
  (List.range' 1 (n - 1)).foldl (dpRow n) t

/-- `d[i][j]`, inside the table. -/
def readCell (d : Nat → Nat → Char) (n : Nat) (i j : Int) : Option Char :=
  if 0 ≤ i ∧ i < n ∧ 0 ≤ j ∧ j < n then some (d i.toNat j.toNat) else none

/-- The loop of `output_path`, with `k` characters to go in front of `path`. -/
def traceback (d : Nat → Nat → Char) (n : Nat) : Nat → Int → Int → List Char → Option (List Char)
  | 0, _, _, path => some path
  | k + 1, i, j, path => do
      let c ← readCell d n i j
      if c = 'D' then traceback d n k (i - 1) j (c :: path)
      else traceback d n k i (j - 1) (c :: path)

/-- `output_path(d, n)`. -/
def outputPath (d : Nat → Nat → Char) (n : Nat) : Option (List Char) :=
  traceback d n (2 * (n - 1)) (n - 1) (n - 1) []

theorem setCell_self {α : Type} (m : Nat → Nat → α) (i j : Nat) (a : α) : setCell m i j a i j = a := by
  simp [setCell]

theorem setCell_of_ne {α : Type} {m : Nat → Nat → α} {i j i' j' : Nat} (h : ¬(i' = i ∧ j' = j))
    (a : α) : setCell m i j a i' j' = m i' j' := if_neg h

/-! ### The tables after `dp` -/

/-- The direction `dp` notes in a cell. -/
def mark (w : Nat → Nat → Nat) : Nat → Nat → Char
  | 0, 0 => ' '
  | 0, _ + 1 => 'R'
  | _ + 1, 0 => 'D'
  | i + 1, j + 1 => if best w (i + 1) j ≤ best w i (j + 1) then 'R' else 'D'

/-- The cells of `S` are finished, the other cells of the matrix are as they were. -/
def Filled (w : Nat → Nat → Nat) (n : Nat) (S : Nat → Nat → Prop) (t : Tables) : Prop :=
  ∀ i j, i < n → j < n → (S i j → t.m i j = best w i j ∧ t.d i j = mark w i j) ∧
    (¬ S i j → t.m i j = w i j)

section

variable {w : Nat → Nat → Nat} {n : Nat} {S S' : Nat → Nat → Prop} {t : Tables}

theorem Filled.congr (h : Filled w n S t) (hS : ∀ i j, i < n → j < n → (S i j ↔ S' i j)) :
    Filled w n S' t := fun i j hi hj =>
  ⟨fun hs => (h i j hi hj).1 ((hS i j hi hj).mpr hs), fun hs => (h i j hi hj).2 fun hs' =>
    hs ((hS i j hi hj).mp hs')⟩

/-- One more cell is finished. -/
theorem Filled.set (h : Filled w n S t) {i j v : Nat} {c : Char} (hv : v = best w i j)
    (hc : c = mark w i j) :
    Filled w n (fun a b => S a b ∨ (a = i ∧ b = j)) ⟨setCell t.m i j v, setCell t.d i j c⟩ := by
  intro a b ha hb
  by_cases hab : a = i ∧ b = j
  · obtain ⟨rfl, rfl⟩ := hab
    refine ⟨fun _ => ⟨?_, ?_⟩, fun hs => absurd (Or.inr ⟨rfl, rfl⟩) hs⟩
    · exact (setCell_self t.m a b v).trans hv
    · exact (setCell_self t.d a b c).trans hc
  · obtain ⟨hin, hout⟩ := h a b ha hb
    simp only [setCell_of_ne hab, hab, or_false]
    exact ⟨hin, hout⟩

/-- The first row and the first column, up to `k`. -/
def Edge (k i j : Nat) : Prop := (i = 0 ∧ j ≤ k) ∨ (j = 0 ∧ i ≤ k)

theorem Filled.edge {k : Nat} (h : Filled w n (Edge k) t) (hk : k + 1 < n) :
    Filled w n (Edge (k + 1)) (dpEdge t (k + 1)) := by
  -- first the cell of the row, then that of the column
  have hrow : t.m 0 (k + 1) + t.m 0 k = best w 0 (k + 1) := by
    have hcell := (h 0 (k + 1) (by omega) hk).2 (by simp [Edge])
    have hprev := ((h 0 k (by omega) (by omega)).1 (Or.inl ⟨rfl, le_rfl⟩)).1
    rw [hcell, hprev, best, Nat.add_comm]
  have h1 := h.set hrow (show 'R' = mark w 0 (k + 1) from rfl)
  have hcol : setCell t.m 0 (k + 1) (t.m 0 (k + 1) + t.m 0 k) (k + 1) 0 +
      setCell t.m 0 (k + 1) (t.m 0 (k + 1) + t.m 0 k) k 0 = best w (k + 1) 0 := by
    have hcell := (h1 (k + 1) 0 hk (by omega)).2 (by simp [Edge])
    have hprev := ((h1 k 0 (by omega) (by omega)).1 (Or.inl (Or.inr ⟨rfl, le_rfl⟩))).1
    refine (congrArg₂ (· + ·) hcell hprev).trans ?_
    rw [best, Nat.add_comm]
  have h2 := h1.set hcol (show 'D' = mark w (k + 1) 0 from rfl)
  refine h2.congr fun i j _ _ => ?_
  unfold Edge
  omega

/-- The first row and column, and of the rest the rows up to `a`; of the next row the
cells up to `b`. -/
def Upper (n a b i j : Nat) : Prop := Edge (n - 1) i j ∨ i ≤ a ∨ (i = a + 1 ∧ j ≤ b)

theorem Filled.cell {a b : Nat} (h : Filled w n (Upper n a b) t) (ha : a + 1 < n) (hb : b + 1 < n) :
    Filled w n (Upper n a (b + 1)) (dpCell (a + 1) t (b + 1)) := by
  have hcell : t.m (a + 1) (b + 1) = w (a + 1) (b + 1) :=
    (h (a + 1) (b + 1) ha hb).2 (by unfold Upper Edge; omega)
  have hleft : t.m (a + 1) b = best w (a + 1) b :=
    ((h (a + 1) b ha (by omega)).1 (by unfold Upper Edge; omega)).1
  have hup : t.m a (b + 1) = best w a (b + 1) :=
    ((h a (b + 1) (by omega) hb).1 (by unfold Upper Edge; omega)).1
  have hS : ∀ i j, i < n → j < n →
      (Upper n a b i j ∨ (i = a + 1 ∧ j = b + 1) ↔ Upper n a (b + 1) i j) := by
    intro i j _ _
    unfold Upper Edge
    omega
  unfold dpCell
  rw [Nat.add_sub_cancel, Nat.add_sub_cancel]
  split_ifs with hle
  · rw [hup, hleft] at hle
    refine (h.set ?_ ?_).congr hS
    · rw [hcell, hleft, best, min_eq_left hle, Nat.add_comm]
    · rw [mark, if_pos hle]
  · rw [hup, hleft] at hle
    refine (h.set ?_ ?_).congr hS
    · rw [hcell, hup, best, min_eq_right (le_of_not_ge hle), Nat.add_comm]
    · rw [mark, if_neg hle]

theorem Filled.row {a : Nat} (h : Filled w n (Upper n a 0) t) (ha : a + 1 < n) :
    Filled w n (Upper n (a + 1) 0) (dpRow n t (a + 1)) := by
  have hrow := foldl_range' (P := fun b t => Filled w n (Upper n a b) t) (f := dpCell (a + 1))
    (n - 1) h fun b t hb ht => ht.cell ha (by omega)
  refine hrow.congr fun i j _ _ => ?_
  unfold Upper Edge
  omega

theorem filled_start (hw : ∀ i j, i < n → j < n → t.m i j = w i j) :
    Filled w n (Edge 0) { t with d := setCell t.d 0 0 ' ' } := by
  intro i j hi hj
  refine ⟨fun hs => ?_, fun _ => hw i j hi hj⟩
  obtain ⟨rfl, rfl⟩ : i = 0 ∧ j = 0 := by
    unfold Edge at hs
    omega
  exact ⟨by rw [hw 0 0 hi hj, best], setCell_self t.d 0 0 ' '⟩

theorem filled_edges (hw : ∀ i j, i < n → j < n → t.m i j = w i j) :
    Filled w n (Upper n 0 0)
      ((List.range' 1 (n - 1)).foldl dpEdge { t with d := setCell t.d 0 0 ' ' }) := by
  have hedge := foldl_range' (P := fun k t => Filled w n (Edge k) t) (f := dpEdge) (n - 1)
    (filled_start hw) fun k t hk ht => ht.edge (by omega)
  refine hedge.congr fun i j _ _ => ?_
  unfold Upper Edge
  omega

/-- **`dp` fills the whole table.** Edges first, then row by row: each cell is filled from the
one to its left and the one above, which hold their least sums by then. -/
theorem filled_dp (hw : ∀ i j, i < n → j < n → t.m i j = w i j) :
    Filled w n (fun _ _ => True) (dp t n) := by
  have hall := foldl_range' (P := fun a t => Filled w n (Upper n a 0) t) (f := dpRow n) (n - 1)
    (filled_edges hw) fun a t ha ht => ht.row (by omega)
  refine hall.congr fun i j hi _ => ?_
  unfold Upper
  exact iff_of_true (Or.inr (Or.inl (by omega))) trivial

end

/-! ### The printed path -/

/-- The letter of a step. -/
def letter : Step → Char
  | .right => 'R'
  | .down => 'D'

/-- A way as it is printed. -/
def text (r : Way) : List Char := (r.map letter).reverse

theorem text_cons (s : Step) (r : Way) : text (s :: r) = text r ++ [letter s] := by
  simp [text]

theorem letter_injective : Function.Injective letter := by
  intro a b hab
  cases a <;> cases b <;> simp_all [letter]

theorem text_inj {r r' : Way} (h : text r = text r') : r = r' :=
  List.map_injective_iff.mpr letter_injective (List.reverse_injective h)

section

variable {w : Nat → Nat → Nat} {n : Nat} {t : Tables}

theorem readCell_filled (h : Filled w n (fun _ _ => True) t) {i j : Nat} (hi : i < n) (hj : j < n) :
    readCell t.d n i j = some (mark w i j) := by
  rw [readCell, if_pos (by omega), Int.toNat_natCast, Int.toNat_natCast,
    ((h i j hi hj).1 trivial).2]

theorem traceback_right (h : Filled w n (fun _ _ => True) t) {i j : Nat} (hi : i < n)
    (hj : j + 1 < n) (hmark : mark w i (j + 1) = 'R') (path : List Char) :
    traceback t.d n (i + (j + 1)) i (j + 1 : Nat) path = traceback t.d n (i + j) i j ('R' :: path) := by
  have hstep : ((j + 1 : Nat) : Int) - 1 = j := by omega
  rw [← Nat.add_assoc, traceback, readCell_filled h hi hj, hmark, Option.bind_eq_bind,
    Option.bind_some, if_neg (by decide), hstep]

theorem traceback_down (h : Filled w n (fun _ _ => True) t) {i j : Nat} (hi : i + 1 < n)
    (hj : j < n) (hmark : mark w (i + 1) j = 'D') (path : List Char) :
    traceback t.d n (i + 1 + j) (i + 1 : Nat) j path = traceback t.d n (i + j) i j ('D' :: path) := by
  have hstep : ((i + 1 : Nat) : Int) - 1 = i := by omega
  rw [Nat.add_right_comm, traceback, readCell_filled h hi hj, hmark, Option.bind_eq_bind,
    Option.bind_some, if_pos rfl, hstep]

/-- **The marks lead back along the chosen way**, inside the table: a mark points to a
neighbour with the smaller sum, and on the edges to the only one. -/
theorem traceback_filled (h : Filled w n (fun _ _ => True) t) {i j : Nat} (hi : i < n) (hj : j < n)
    (path : List Char) :
    traceback t.d n (i + j) i j path = some (text (traced w i j) ++ path) := by
  induction i, j using traced.induct (w := w) generalizing path with
  | case1 => simp [traceback, traced, text]
  | case2 j ih =>
      rw [Nat.succ_eq_add_one, traceback_right h hi hj rfl, ih hi (by omega), traced, text_cons,
        List.append_assoc]
      rfl
  | case3 i ih =>
      rw [Nat.succ_eq_add_one, traceback_down h hi hj rfl, ih (by omega) hj, traced, text_cons,
        List.append_assoc]
      rfl
  | case4 i j hle ih =>
      have hmark : mark w (i + 1) (j + 1) = 'R' := by rw [mark, if_pos hle]
      rw [Nat.succ_eq_add_one, Nat.succ_eq_add_one, traceback_right h hi hj hmark,
        ih hi (by omega), traced, if_pos hle, text_cons, List.append_assoc]
      rfl
  | case5 i j hle ih =>
      have hmark : mark w (i + 1) (j + 1) = 'D' := by rw [mark, if_neg hle]
      rw [Nat.succ_eq_add_one, Nat.succ_eq_add_one, traceback_down h hi hj hmark,
        ih (by omega) hj, traced, if_neg hle, text_cons, List.append_assoc]
      rfl

theorem outputPath_filled (hn : 1 ≤ n) (h : Filled w n (fun _ _ => True) t) :
    outputPath t.d n = some (text (traced w (n - 1) (n - 1))) := by
  have hpath := traceback_filled h (i := n - 1) (j := n - 1) (by omega) (by omega) []
  have hk : 2 * (n - 1) = n - 1 + (n - 1) := by omega
  have hi : ((n - 1 : Nat) : Int) = n - 1 := by omega
  rw [hi, List.append_nil] at hpath
  rw [outputPath, hk, hpath]

end

end BlogStuff.Algorithm
