import BlogStuff.Algorithm.GridDp
import Mathlib.NumberTheory.Padics.PadicVal.Basic
import Mathlib.Data.List.ProdSigma

/-!
# BlogStuff.Algorithm.LeastRound

The least round way (`2b.cpp`, problem 2B of Codeforces): of all ways through a square
matrix, one whose product has the fewest trailing zeros.

The program minimises the factors 2 and the factors 5 of a way separately, each by
dynamic programming (`dp`, `output_path`), and takes the better of the two. A zero in the
matrix is handled at the end: a way through it has one trailing zero, which is better
than two or more. The two tables count a zero as a cell without factors, though, so the
way that is found free of one of the factors may lead through a zero. It is then printed
with the count 0, while its product is 0.
-/

namespace BlogStuff.Algorithm

open BlogStuff.Grid

/-! ### The program -/

/-- The loop `while(x!=0 && x%p==0)`, with the rounds it may take. -/
def factorLoop (p : Nat) : Nat → Nat → Nat
  | 0, _ => 0
  | fuel + 1, x => if x ≠ 0 ∧ x % p = 0 then factorLoop p fuel (x / p) + 1 else 0

/-- The number of factors `p` of `x`, none for 0. Every round makes `x` smaller. -/
def factors (p x : Nat) : Nat := factorLoop p x x

/-- The cells of the matrix, row by row. -/
def rowMajor (n : Nat) : List (Nat × Nat) := List.range n ×ˢ List.range n

/-- One cell of `get_number_of_factor`: the first zero of the matrix is kept. -/
def countCell (m : Nat → Nat → Nat) (p : Nat) (s : Option (Nat × Nat) × (Nat → Nat → Nat))
    (c : Nat × Nat) : Option (Nat × Nat) × (Nat → Nat → Nat) :=
  (if s.1 = none ∧ m c.1 c.2 = 0 then some c else s.1,
    setCell s.2 c.1 c.2 (s.2 c.1 c.2 + factors p (m c.1 c.2)))

/-- `get_number_of_factor(m, mo, n, p)`; `zero` is `zero_row` and `zero_col` once
`zero_flag` is set. -/
def getNumberOfFactor (m : Nat → Nat → Nat) (zero : Option (Nat × Nat)) (mo : Nat → Nat → Nat)
    (n p : Nat) : Option (Nat × Nat) × (Nat → Nat → Nat) :=
  (rowMajor n).foldl (countCell m p) (zero, mo)

/-- The path that is printed for a zero in `row`. -/
def zeroPath (n row : Nat) : List Char :=
  List.replicate row 'D' ++ List.replicate (n - 1) 'R' ++ List.replicate (n - 1 - row) 'D'

/-- `main`: the number and the path that are printed for a matrix. With a zero in it the path
through the zero is printed, unless the least count of one of the two factors is 0. -/
def leastRound (n : Nat) (m : Nat → Nat → Nat) : Option (Nat × List Char) := do
  let (zero, m2) := getNumberOfFactor m none (fun _ _ => 0) n 2
  let (zero, m5) := getNumberOfFactor m zero (fun _ _ => 0) n 5
  let t2 := dp ⟨m2, fun _ _ => '\x00'⟩ n
  let t5 := dp ⟨m5, fun _ _ => '\x00'⟩ n
  let count2 := t2.m (n - 1) (n - 1)
  let count5 := t5.m (n - 1) (n - 1)
  if count2 < 1 ∨ count5 < 1 ∨ zero = none then
    if count2 > count5 then return (count5, ← outputPath t5.d n)
    else return (count2, ← outputPath t2.d n)
  else return (1, zeroPath n ((zero.map Prod.fst).getD 0))

/-! ### The first pass -/

/-- The pass adds to every cell once, and finds the first zero. By induction on the cells that are
left, for any cells seen before; none is seen twice. -/
theorem foldl_countCell {m : Nat → Nat → Nat} {p : Nat} {cs : List (Nat × Nat)} (hcs : cs.Nodup)
    (s : Option (Nat × Nat) × (Nat → Nat → Nat)) :
    (cs.foldl (countCell m p) s).1 = s.1.or (cs.find? fun c => m c.1 c.2 = 0) ∧
      ∀ i j, (cs.foldl (countCell m p) s).2 i j =
        if (i, j) ∈ cs then s.2 i j + factors p (m i j) else s.2 i j := by
  induction cs generalizing s with
  | nil => simp
  | cons c cs ih =>
      obtain ⟨hc, hcs⟩ := List.nodup_cons.mp hcs
      obtain ⟨hzero, hcells⟩ := ih hcs (countCell m p s c)
      rw [List.foldl_cons]
      refine ⟨?_, fun i j => ?_⟩
      · rw [hzero, countCell]
        cases hs : s.1 with
        | some z => simp
        | none =>
            by_cases hm : m c.1 c.2 = 0
            · simp [hm]
            · simp [hm]
      · rw [hcells]
        by_cases hij : (i, j) = c
        · subst hij
          simp [hc, countCell, setCell_self]
        · have hne : ¬(i = c.1 ∧ j = c.2) := fun h => hij (Prod.ext h.1 h.2)
          simp [hij, countCell, setCell_of_ne hne]

theorem mem_rowMajor {n : Nat} {c : Nat × Nat} : c ∈ rowMajor n ↔ c.1 < n ∧ c.2 < n := by
  obtain ⟨i, j⟩ := c
  rw [rowMajor, List.mem_product, List.mem_range, List.mem_range]

theorem nodup_rowMajor (n : Nat) : (rowMajor n).Nodup := List.nodup_range.product List.nodup_range

theorem getNumberOfFactor_fst (m : Nat → Nat → Nat) (zero : Option (Nat × Nat))
    (mo : Nat → Nat → Nat) (n p : Nat) : (getNumberOfFactor m zero mo n p).1 =
      zero.or ((rowMajor n).find? fun c => m c.1 c.2 = 0) :=
  (foldl_countCell (nodup_rowMajor n) (zero, mo)).1

theorem getNumberOfFactor_snd {m : Nat → Nat → Nat} {zero : Option (Nat × Nat)} {n p i j : Nat}
    (hi : i < n) (hj : j < n) :
    (getNumberOfFactor m zero (fun _ _ => 0) n p).2 i j = factors p (m i j) := by
  rw [getNumberOfFactor, (foldl_countCell (nodup_rowMajor n) _).2, if_pos (mem_rowMajor.mpr ⟨hi, hj⟩),
    Nat.zero_add]

/-! ### Trailing zeros -/

/-- The number of zeros a number ends in; 0 itself is one zero. -/
def trailingZeros (x : Nat) : Nat :=
  if x = 0 then 1 else ((Nat.digits 10 x).takeWhile (· = 0)).length

/-- The numbers of a way multiplied. -/
def product (m : Nat → Nat → Nat) (r : Way) : Nat := ((cells r).map fun c => m c.1 c.2).prod

/-- The loop counts the factors: every division takes one off the number, and the number gets
smaller, so that its own value is fuel enough. -/
theorem factorLoop_eq {p : Nat} [hp : Fact p.Prime] {fuel x : Nat} (hx : x ≠ 0) (hf : x ≤ fuel) :
    factorLoop p fuel x = padicValNat p x := by
  induction fuel generalizing x with
  | zero => omega
  | succ fuel ih =>
      rw [factorLoop]
      split_ifs with h
      · have hdvd : p ∣ x := Nat.dvd_of_mod_eq_zero h.2
        have hpos : 0 < x / p := Nat.div_pos (Nat.le_of_dvd (by omega) hdvd) hp.out.pos
        have hlt : x / p < x := Nat.div_lt_self (by omega) hp.out.one_lt
        rw [ih (by omega) (by omega)]
        nth_rewrite 2 [← Nat.mul_div_cancel' hdvd]
        rw [padicValNat.mul hp.out.ne_zero (by omega), padicValNat_self, Nat.add_comm]
      · have hdvd : ¬ p ∣ x := fun hd => h ⟨hx, Nat.mod_eq_zero_of_dvd hd⟩
        rw [padicValNat.eq_zero_of_not_dvd hdvd]

theorem factors_eq {p : Nat} [Fact p.Prime] {x : Nat} (hx : x ≠ 0) : factors p x = padicValNat p x :=
  factorLoop_eq hx le_rfl

instance factPrimeFive : Fact (Nat.Prime 5) := ⟨Nat.prime_five⟩

/-- Each zero at the end takes a factor 2 and a factor 5. Strong induction: a last digit 0 is a
factor 10, and without one of the two factors the last digit is not 0. -/
theorem trailingZeros_eq {x : Nat} (hx : x ≠ 0) :
    trailingZeros x = min (padicValNat 2 x) (padicValNat 5 x) := by
  induction x using Nat.strong_induction_on with
  | h x ih =>
      rw [trailingZeros, if_neg hx, Nat.digits_def' (by decide) (by omega)]
      by_cases hten : x % 10 = 0
      · obtain ⟨y, rfl⟩ := Nat.dvd_of_mod_eq_zero hten
        have hy : y ≠ 0 := by
          rintro rfl
          exact hx rfl
        have hrest := ih y (by omega) hy
        rw [trailingZeros, if_neg hy] at hrest
        have h2 : padicValNat 2 (10 * y) = padicValNat 2 y + 1 := by
          rw [show 10 * y = 2 * (5 * y) by ring, padicValNat.mul (by decide) (by omega),
            padicValNat.mul (by decide) hy, padicValNat_self,
            padicValNat.eq_zero_of_not_dvd (show ¬ 2 ∣ 5 by decide)]
          omega
        have h5 : padicValNat 5 (10 * y) = padicValNat 5 y + 1 := by
          rw [show 10 * y = 5 * (2 * y) by ring, padicValNat.mul (by decide) (by omega),
            padicValNat.mul (by decide) hy, padicValNat_self,
            padicValNat.eq_zero_of_not_dvd (show ¬ 5 ∣ 2 by decide)]
          omega
        have hdiv : 10 * y / 10 = y := Nat.mul_div_cancel_left y (by decide)
        rw [List.takeWhile_cons_of_pos (by simp [hten]), List.length_cons, hdiv, hrest, h2, h5]
        omega
      · rw [List.takeWhile_cons_of_neg (by simpa using hten), List.length_nil]
        -- one of the two factors is missing
        by_cases htwo : 2 ∣ x
        · have hfive : ¬ 5 ∣ x := fun hd => by omega
          rw [padicValNat.eq_zero_of_not_dvd hfive, Nat.min_zero]
        · rw [padicValNat.eq_zero_of_not_dvd htwo, Nat.zero_min]

/-- No number of the way is 0. -/
def ZeroFree (m : Nat → Nat → Nat) (r : Way) : Prop := ∀ c ∈ cells r, m c.1 c.2 ≠ 0

theorem product_ne_zero {m : Nat → Nat → Nat} {r : Way} : product m r ≠ 0 ↔ ZeroFree m r := by
  simp [product, ZeroFree, List.prod_eq_zero_iff]

/-- The weight of a cell for one of the two tables. -/
def weight (m : Nat → Nat → Nat) (p i j : Nat) : Nat := factors p (m i j)

theorem padicValNat_product {p : Nat} [hp : Fact p.Prime] {m : Nat → Nat → Nat} {r : Way}
    (h : ZeroFree m r) : padicValNat p (product m r) = total (weight m p) r := by
  unfold product total ZeroFree at *
  generalize cells r = cs at h
  induction cs with
  | nil => simp
  | cons c cs ih =>
      obtain ⟨hc, hcs⟩ := List.forall_mem_cons.mp h
      have hrest : ((cs.map fun c => m c.1 c.2).prod) ≠ 0 := by
        simpa [List.prod_eq_zero_iff] using hcs
      rw [List.map_cons, List.prod_cons, padicValNat.mul hc hrest, ih hcs, List.map_cons,
        List.sum_cons, weight, factors_eq hc]

/-- **The trailing zeros of a way**: one if it meets a zero, otherwise the smaller of the
numbers of factors, since 10 divides as often as 2 and 5 both do. -/
theorem trailingZeros_product (m : Nat → Nat → Nat) (r : Way) :
    (¬ ZeroFree m r → trailingZeros (product m r) = 1) ∧
      (ZeroFree m r →
        trailingZeros (product m r) = min (total (weight m 2) r) (total (weight m 5) r)) := by
  constructor
  · intro h
    rw [← product_ne_zero, not_not] at h
    rw [h, trailingZeros, if_pos rfl]
  · intro h
    rw [trailingZeros_eq (product_ne_zero.mpr h), padicValNat_product h, padicValNat_product h]

/-! ### What is printed -/

/-- The way of the path that is printed for a zero. -/
def zeroWay (n row : Nat) : Way :=
  List.replicate (n - 1 - row) .down ++ (List.replicate (n - 1) .right ++ List.replicate row .down)

theorem text_zeroWay (n row : Nat) : text (zeroWay n row) = zeroPath n row := by
  simp [text, zeroWay, zeroPath, letter]

theorem endOf_zeroWay {n row : Nat} (h : row < n) : endOf (zeroWay n row) = (n - 1, n - 1) := by
  simp only [endOf, zeroWay, List.count_append, List.count_replicate, Prod.mk.injEq]
  simp
  omega

theorem cells_append_sublist (a b : Way) : (cells b).Sublist (cells (a ++ b)) := by
  induction a with
  | nil => exact List.Sublist.refl _
  | cons s a ih => exact ih.cons _

/-- The way goes along the whole row: after `row` steps down it is in it, and it takes all its steps
to the right there. -/
theorem mem_cells_zeroWay {n row col : Nat} (hcol : col < n) : (row, col) ∈ cells (zeroWay n row) := by
  have hsplit : List.replicate (n - 1) Step.right =
      List.replicate (n - 1 - col) .right ++ List.replicate col .right := by
    rw [List.replicate_append_replicate]
    congr 1
    omega
  have hend : endOf (List.replicate col .right ++ List.replicate row .down) = (row, col) := by
    simp [endOf, List.count_replicate]
  have hmem : (row, col) ∈ cells (List.replicate col .right ++ List.replicate row .down) := by
    rw [← hend]
    generalize List.replicate col Step.right ++ List.replicate row .down = r
    cases r with
    | nil => simp [cells]
    | cons s r => simp [cells]
  rw [zeroWay, hsplit, List.append_assoc, ← List.append_assoc]
  exact (cells_append_sublist _ _).mem hmem

/-- A way from the first cell to the last. -/
def IsWay (n : Nat) (r : Way) : Prop := endOf r = (n - 1, n - 1)

/-- The least weight of a way. -/
def least (n : Nat) (w : Nat → Nat → Nat) : Nat := best w (n - 1) (n - 1)

/-- The way `output_path` prints. -/
def printed (n : Nat) (w : Nat → Nat → Nat) : Way := traced w (n - 1) (n - 1)

/-- **What `main` prints**, in terms of the least weights: the better of the two ways, or the
way through the first zero. -/
theorem leastRound_eq {n : Nat} (hn : 1 ≤ n) (m : Nat → Nat → Nat) : leastRound n m =
    if least n (weight m 2) < 1 ∨ least n (weight m 5) < 1 ∨
        (rowMajor n).find? (fun c => m c.1 c.2 = 0) = none then
      if least n (weight m 2) > least n (weight m 5) then
        some (least n (weight m 5), text (printed n (weight m 5)))
      else some (least n (weight m 2), text (printed n (weight m 2)))
    else some (1, zeroPath n
      ((((rowMajor n).find? fun c => m c.1 c.2 = 0).map Prod.fst).getD 0)) := by
  have hfilled : ∀ zero p, Filled (weight m p) n (fun _ _ => True)
      (dp ⟨(getNumberOfFactor m zero (fun _ _ => 0) n p).2, fun _ _ => '\x00'⟩ n) := fun zero p =>
    filled_dp fun i j hi hj => getNumberOfFactor_snd hi hj
  have hcount : ∀ zero p, (dp ⟨(getNumberOfFactor m zero (fun _ _ => 0) n p).2,
      fun _ _ => '\x00'⟩ n).m (n - 1) (n - 1) = least n (weight m p) := fun zero p =>
    ((hfilled zero p (n - 1) (n - 1) (by omega) (by omega)).1 trivial).1
  have hzero : (getNumberOfFactor m (getNumberOfFactor m none (fun _ _ => 0) n 2).1
      (fun _ _ => 0) n 5).1 = (rowMajor n).find? fun c => m c.1 c.2 = 0 := by
    rw [getNumberOfFactor_fst, getNumberOfFactor_fst, Option.none_or, Option.or_self]
  simp only [leastRound, hcount, hzero, outputPath_filled hn (hfilled _ _), Option.bind_eq_bind,
    Option.bind_some, Option.pure_def]
  rfl

/-! ### When it is right -/

/-- The program prints the least number of trailing zeros, and a way that has it. -/
def Solved (n : Nat) (m : Nat → Nat → Nat) : Prop :=
  ∃ k r, leastRound n m = some (k, text r) ∧ IsWay n r ∧ trailingZeros (product m r) = k ∧
    ∀ r', IsWay n r' → k ≤ trailingZeros (product m r')

/-- The zeros of the matrix do no harm: there are none, or no way is free of the factor 2 and
none of the factor 5, zeros not counted; or else the chosen one of the ways with the
fewest factors 2, or 5 if all ways have the factor 2, leads through no zero. -/
def ZerosHarmless (n : Nat) (m : Nat → Nat → Nat) : Prop :=
  (∀ i j, i < n → j < n → m i j ≠ 0) ∨
    ((∀ r, IsWay n r → total (weight m 2) r ≠ 0) ∧ ∀ r, IsWay n r → total (weight m 5) r ≠ 0) ∨
    ((∃ r, IsWay n r ∧ total (weight m 2) r = 0) ∧
      ∀ r, Chosen (weight m 2) (n - 1) (n - 1) r → ZeroFree m r) ∨
    ((∀ r, IsWay n r → total (weight m 2) r ≠ 0) ∧
      ∀ r, Chosen (weight m 5) (n - 1) (n - 1) r → ZeroFree m r)

section

variable {n : Nat} {m : Nat → Nat → Nat}

theorem isWay_printed (n : Nat) (w : Nat → Nat → Nat) : IsWay n (printed n w) := endOf_traced w _ _

theorem total_printed (n : Nat) (w : Nat → Nat → Nat) : total w (printed n w) = least n w :=
  total_traced w _ _

theorem least_le {w : Nat → Nat → Nat} {r : Way} (h : IsWay n r) : least n w ≤ total w r :=
  best_le_total h

theorem least_eq_zero {w : Nat → Nat → Nat} : least n w = 0 ↔ ∃ r, IsWay n r ∧ total w r = 0 := by
  constructor
  · intro h
    exact ⟨printed n w, isWay_printed n w, (total_printed n w).trans h⟩
  · intro h
    obtain ⟨r, hr, htotal⟩ := h
    have := least_le (w := w) hr
    omega

theorem least_le_trailingZeros {r : Way} (h : IsWay n r) (hfree : ZeroFree m r) :
    min (least n (weight m 2)) (least n (weight m 5)) ≤ trailingZeros (product m r) := by
  rw [(trailingZeros_product m r).2 hfree]
  exact min_le_min (least_le h) (least_le h)

/-- The better of the two printed ways has the smaller of the least weights, if it meets no
zero. -/
theorem trailingZeros_printed {p : Nat} (hp : p = 2 ∨ p = 5)
    (hfree : ZeroFree m (printed n (weight m p)))
    (hleast : least n (weight m p) = min (least n (weight m 2)) (least n (weight m 5))) :
    trailingZeros (product m (printed n (weight m p))) = least n (weight m p) := by
  rw [(trailingZeros_product m _).2 hfree]
  have hway := isWay_printed n (weight m p)
  have hown := total_printed n (weight m p)
  have h2 := least_le (w := weight m 2) hway
  have h5 := least_le (w := weight m 5) hway
  rcases hp with rfl | rfl
  · omega
  · omega

/-- Without zeros in the matrix. No way is round then for another reason than its factors, and the
tables hold the least counts of both. -/
theorem solved_of_no_zero (hn : 1 ≤ n) (h : ∀ i j, i < n → j < n → m i j ≠ 0) : Solved n m := by
  have hfree : ∀ r, IsWay n r → ZeroFree m r := by
    intro r hr c hc
    obtain ⟨h1, h2⟩ := mem_cells_le hc
    rw [IsWay] at hr
    rw [hr] at h1 h2
    exact h c.1 c.2 (by omega) (by omega)
  have hnone : (rowMajor n).find? (fun c => m c.1 c.2 = 0) = none := by
    refine List.find?_eq_none.mpr fun c hc => ?_
    obtain ⟨h1, h2⟩ := mem_rowMajor.mp hc
    simpa using h c.1 c.2 h1 h2
  rw [Solved, leastRound_eq hn, if_pos (Or.inr (Or.inr hnone))]
  split_ifs with hlt
  · refine ⟨_, _, rfl, isWay_printed n _, trailingZeros_printed (Or.inr rfl)
      (hfree _ (isWay_printed n _)) (by omega), fun r hr => ?_⟩
    have := least_le_trailingZeros hr (hfree r hr)
    omega
  · refine ⟨_, _, rfl, isWay_printed n _, trailingZeros_printed (Or.inl rfl)
      (hfree _ (isWay_printed n _)) (by omega), fun r hr => ?_⟩
    have := least_le_trailingZeros hr (hfree r hr)
    omega

/-- With a zero, where every way has both factors. A way through the zero has a product of zero,
written with one zero at the end, and no way without it does better. -/
theorem solved_of_zero (hn : 1 ≤ n) {i j : Nat} (hi : i < n) (hj : j < n) (hzero : m i j = 0)
    (h2 : least n (weight m 2) ≠ 0) (h5 : least n (weight m 5) ≠ 0) : Solved n m := by
  obtain ⟨c, hc⟩ : ∃ c, (rowMajor n).find? (fun c => m c.1 c.2 = 0) = some c := by
    rw [← Option.isSome_iff_exists, List.find?_isSome]
    exact ⟨(i, j), mem_rowMajor.mpr ⟨hi, hj⟩, by simpa using hzero⟩
  obtain ⟨h1, h3⟩ := mem_rowMajor.mp (List.mem_of_find?_eq_some hc)
  have hcell : m c.1 c.2 = 0 := by simpa using List.find?_some hc
  have hnot : ¬ ZeroFree m (zeroWay n c.1) := fun hfree => hfree c (mem_cells_zeroWay h3) hcell
  rw [Solved, leastRound_eq hn, hc, if_neg (by simp; omega)]
  refine ⟨1, zeroWay n c.1, ?_, endOf_zeroWay h1, (trailingZeros_product m _).1 hnot, fun r hr => ?_⟩
  · rw [text_zeroWay]
    rfl
  · by_cases hfree : ZeroFree m r
    · have := least_le_trailingZeros hr hfree
      omega
    · exact ((trailingZeros_product m r).1 hfree).ge

/-- With a zero, where the printed way has none of the factor `p`: right exactly if it meets
no zero. -/
theorem solved_iff_zeroFree {p : Nat} (hp : p = 2 ∨ p = 5) (hleast : least n (weight m p) = 0)
    (hout : leastRound n m = some (least n (weight m p), text (printed n (weight m p)))) :
    Solved n m ↔ ZeroFree m (printed n (weight m p)) := by
  constructor
  · intro hsolved
    obtain ⟨k, r, hk, -, hzeros, -⟩ := hsolved
    obtain ⟨rfl, htext⟩ := Prod.mk.inj (Option.some.inj (hout.symm.trans hk))
    obtain rfl := text_inj htext
    by_contra hfree
    rw [(trailingZeros_product m _).1 hfree, hleast] at hzeros
    cases hzeros
  · intro hfree
    refine ⟨_, _, hout, isWay_printed n _, trailingZeros_printed hp hfree ?_, fun r _ => ?_⟩
    · rcases hp with rfl | rfl
      · omega
      · omega
    · rw [hleast]
      exact Nat.zero_le _

/-- **The least round way is printed exactly if the zeros of the matrix do no harm.** A way
has as many trailing zeros as factors 2 or 5, whichever are fewer, so the better of the two
lightest ways is least. The tables count a zero as a cell without factors, though: the way
they choose may lead through one, and then it has one trailing zero where they have counted
none. -/
theorem solved_iff (hn : 2 ≤ n) (m : Nat → Nat → Nat) : Solved n m ↔ ZerosHarmless n m := by
  have hpos : 1 ≤ n := by omega
  have hway : ∀ p, (∀ r, IsWay n r → total (weight m p) r ≠ 0) ↔ least n (weight m p) ≠ 0 := by
    intro p
    rw [ne_eq, least_eq_zero]
    push Not
    rfl
  have hchosen : ∀ p, (∀ r, Chosen (weight m p) (n - 1) (n - 1) r → ZeroFree m r) ↔
      ZeroFree m (printed n (weight m p)) := by
    intro p
    simp only [chosen_iff, forall_eq]
    rfl
  rw [ZerosHarmless, hway, hway, hchosen, hchosen, ← least_eq_zero]
  by_cases hzero : ∀ i j, i < n → j < n → m i j ≠ 0
  · exact iff_of_true (solved_of_no_zero hpos hzero) (Or.inl hzero)
  · have hsome := hzero
    push Not at hsome
    obtain ⟨i, j, hi, hj, hij⟩ := hsome
    by_cases h2 : least n (weight m 2) = 0
    · -- the way with the fewest factors 2 is printed
      have hout : leastRound n m =
          some (least n (weight m 2), text (printed n (weight m 2))) := by
        rw [leastRound_eq hpos, if_pos (Or.inl (by omega)), if_neg (by omega)]
      rw [solved_iff_zeroFree (Or.inl rfl) h2 hout]
      tauto
    · by_cases h5 : least n (weight m 5) = 0
      · have hout : leastRound n m =
            some (least n (weight m 5), text (printed n (weight m 5))) := by
          rw [leastRound_eq hpos, if_pos (Or.inr (Or.inl (by omega))), if_pos (by omega)]
        rw [solved_iff_zeroFree (Or.inr rfl) h5 hout]
        tauto
      · exact iff_of_true (solved_of_zero hpos hi hj hij h2 h5) (Or.inr (Or.inl ⟨h2, h5⟩))

end

/-- A zero beside the way that is chosen among two without factors 2. -/
def besideZero : Nat → Nat → Nat
  | 0, 0 => 3
  | 0, 1 => 0
  | 1, 0 => 1
  | _, _ => 5

theorem solved_iff_beside : Solved 2 besideZero := by
  have hweights : ∀ i ≤ 1, ∀ j ≤ 1, weight besideZero 2 i j = 0 := by decide
  have hchosen : traced (weight besideZero 2) 1 1 = [.right, .down] := by
    simp [traced, best, hweights]
  have hthere : ∃ r, IsWay 2 r ∧ total (weight besideZero 2) r = 0 := ⟨[.right, .down], rfl, by decide⟩
  refine (solved_iff (by decide) _).mpr (Or.inr (Or.inr (Or.inl ⟨hthere, fun r hr => ?_⟩)))
  rw [chosen_iff.mp hr, hchosen, ZeroFree]
  decide

/-- A zero in the corner: every way has one trailing zero, and 0 is printed. -/
theorem zero_in_corner :
    leastRound 2 (fun i j => if i = 0 ∧ j = 0 then 0 else 1) = some (0, "DR".toList) ∧
      ∀ r, IsWay 2 r →
        trailingZeros (product (fun i j => if i = 0 ∧ j = 0 then 0 else 1) r) = 1 := by
  refine ⟨by decide +kernel, fun r hr => ?_⟩
  refine (trailingZeros_product _ r).1 fun hfree => ?_
  have hmem : (0, 0) ∈ cells r := by
    have hsub := cells_append_sublist r []
    rw [List.append_nil] at hsub
    exact hsub.mem (by simp [cells])
  exact hfree (0, 0) hmem rfl

end BlogStuff.Algorithm
