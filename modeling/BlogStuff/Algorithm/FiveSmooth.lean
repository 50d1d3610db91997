import BlogStuff.Cpp.Int
import Mathlib.Data.Nat.Nth
import Mathlib.Tactic

/-!
# BlogStuff.Algorithm.FiveSmooth

`nth_large_number.cpp`: the numbers `2^i * 3^j * 5^k` in ascending order.

`get_next` looks for the next number among the products of the numbers found so far with 2,
3 and 5, from the last one back, and stops where even the product with 5 falls behind the
last number. Nothing is lost: every number of the sequence but 1 is such a product of an
earlier one, and the products further back are smaller still (`getNextLoop_spec`).

The program multiplies `int`s. What it multiplies first is 5 times the last number, which
leaves the range of `int` long before the sequence does (`fill_intMul_iff`).
-/

namespace BlogStuff.Algorithm

open BlogStuff.Cpp

/-! ### The program -/

/-- A multiplication, defined or not. -/
abbrev Times := Nat → Nat → Option Nat

/-- The product itself. -/
def exactMul : Times := fun a b => some (a * b)

/-- The product where it is an `int`. -/
def intMul : Times := fun a b => checked (a * b)

/-- `if(t > a[n-1] && t < r) r = t;` -/
def closer (last r t : Nat) : Nat := if t > last ∧ t < r then t else r

/-- The loop of `get_next`, with `a[i], a[i-1], …, a[0]` to go. It keeps the least multiple above
the last number, and stops at an element whose fivefold is below it. -/
def getNextLoop (mul : Times) (last : Nat) : List Nat → Nat → Option Nat
  | [], r => some r
  | x :: xs, r => do
      let t ← mul 2 x
      let r := closer last r t
      let t ← mul 3 x
      let r := closer last r t
      let t ← mul 5 x
      if t < last then return r
      getNextLoop mul last xs (closer last r t)

/-- `get_next(a, n)`, of an array with `n` entries. -/
def getNext (mul : Times) (a : List Nat) : Option Nat :=
  match a.reverse with
  | [] => some 1
  | last :: rest => do
      let r ← mul last 2
      getNextLoop mul last (last :: rest) r

/-- The first loop of `main`: the array after `n` rounds. -/
def fill (mul : Times) : Nat → Option (List Nat)
  | 0 => some []
  | n + 1 => do
      let a ← fill mul n
      let x ← getNext mul a
      return a ++ [x]

/-! ### The numbers of the sequence -/

/-- A number of the form `2^i * 3^j * 5^k`. -/
def IsSmooth (x : Nat) : Prop := ∃ i j k, x = 2 ^ i * 3 ^ j * 5 ^ k

theorem isSmooth_one : IsSmooth 1 := ⟨0, 0, 0, rfl⟩

theorem IsSmooth.pos {x : Nat} (h : IsSmooth x) : 0 < x := by
  obtain ⟨i, j, k, rfl⟩ := h
  positivity

/-- The factors `get_next` multiplies with. -/
def IsFactor (p : Nat) : Prop := p = 2 ∨ p = 3 ∨ p = 5

theorem IsSmooth.mul {x p : Nat} (h : IsSmooth x) (hp : IsFactor p) : IsSmooth (p * x) := by
  obtain ⟨i, j, k, rfl⟩ := h
  rcases hp with rfl | rfl | rfl
  · exact ⟨i + 1, j, k, by ring⟩
  · exact ⟨i, j + 1, k, by ring⟩
  · exact ⟨i, j, k + 1, by ring⟩

/-- Every number of the sequence but 1 is a multiple of an earlier one. -/
theorem IsSmooth.exists_factor {x : Nat} (h : IsSmooth x) (hx : x ≠ 1) :
    ∃ p y, IsFactor p ∧ IsSmooth y ∧ x = p * y := by
  obtain ⟨i, j, k, rfl⟩ := h
  rcases i with _ | i
  · rcases j with _ | j
    · rcases k with _ | k
      · exact absurd rfl hx
      · exact ⟨5, _, .inr (.inr rfl), ⟨0, 0, k, rfl⟩, by ring⟩
    · exact ⟨3, _, .inr (.inl rfl), ⟨0, j, k, rfl⟩, by ring⟩
  · exact ⟨2, _, .inl rfl, ⟨i, j, k, rfl⟩, by ring⟩

theorem infinite_isSmooth : (Set.ofPred IsSmooth).Infinite := by
  refine Set.infinite_of_injective_forall_mem (f := fun i => 2 ^ i) (Nat.pow_right_injective le_rfl)
    fun i => ⟨i, 0, 0, by simp⟩

/-- The sequence. -/
noncomputable def smooth (n : Nat) : Nat := Nat.nth IsSmooth n

theorem isSmooth_smooth (n : Nat) : IsSmooth (smooth n) := Nat.nth_mem_of_infinite infinite_isSmooth n

theorem smooth_strictMono : StrictMono smooth := Nat.nth_strictMono infinite_isSmooth

theorem smooth_zero : smooth 0 = 1 := by
  refine ((Nat.isLeast_nth_of_infinite infinite_isSmooth 0).unique ?_)
  exact ⟨⟨isSmooth_one, fun k hk => absurd hk (Nat.not_lt_zero k)⟩, fun x hx => hx.1.pos⟩

/-! ### The loop -/

theorem closer_le_left (last r t : Nat) : closer last r t ≤ r := by
  unfold closer
  split_ifs with h
  · exact h.2.le
  · exact le_rfl

theorem closer_le_right {last t : Nat} (r : Nat) (h : last < t) : closer last r t ≤ t := by
  unfold closer
  split_ifs with hlt
  · exact le_rfl
  · exact not_lt.mp fun ht => hlt ⟨h, ht⟩

/-- A candidate: a number of the sequence behind the last one. -/
def Candidate (last r : Nat) : Prop := IsSmooth r ∧ last < r

theorem Candidate.closer {last r t : Nat} (h : Candidate last r) (ht : IsSmooth t) :
    Candidate last (closer last r t) := by
  unfold Algorithm.closer
  split_ifs with hlt
  · exact ⟨ht, hlt.1⟩
  · exact h

/-- **The loop finds the nearest product.** It only breaks off where no product is left that
lies behind the last number. -/
theorem getNextLoop_spec {last : Nat} (xs : List Nat) (r : Nat) (hxs : xs.Pairwise (· > ·))
    (hsmooth : ∀ x ∈ xs, IsSmooth x) (hr : Candidate last r) :
    ∃ r', getNextLoop exactMul last xs r = some r' ∧ Candidate last r' ∧ r' ≤ r ∧
      ∀ x ∈ xs, ∀ p, IsFactor p → last < p * x → r' ≤ p * x := by
  induction xs generalizing r with
  | nil => exact ⟨r, rfl, hr, le_rfl, fun x hx => absurd hx (List.not_mem_nil)⟩
  | cons x xs ih =>
      obtain ⟨hx, hxs⟩ := List.pairwise_cons.mp hxs
      have hsx := hsmooth x (List.mem_cons_self)
      have h2 := hr.closer (hsx.mul (.inl rfl))
      have h3 := h2.closer (hsx.mul (.inr (.inl rfl)))
      have h5 := h3.closer (hsx.mul (.inr (.inr rfl)))
      -- the three values `r` takes in this round
      generalize hr2 : closer last r (2 * x) = r2 at h2 h3 h5
      generalize hr3 : closer last r2 (3 * x) = r3 at h3 h5
      generalize hr5 : closer last r3 (5 * x) = r5 at h5
      have hle2 : r2 ≤ r := hr2 ▸ closer_le_left last r (2 * x)
      have hle3 : r3 ≤ r2 := hr3 ▸ closer_le_left last r2 (3 * x)
      have hle5 : r5 ≤ r3 := hr5 ▸ closer_le_left last r3 (5 * x)
      have hp2 : last < 2 * x → r2 ≤ 2 * x := fun h => hr2 ▸ closer_le_right r h
      have hp3 : last < 3 * x → r3 ≤ 3 * x := fun h => hr3 ▸ closer_le_right r2 h
      have hp5 : last < 5 * x → r5 ≤ 5 * x := fun h => hr5 ▸ closer_le_right r3 h
      simp only [getNextLoop, exactMul, Option.bind_eq_bind, Option.bind_some, hr2, hr3, hr5]
      by_cases hbreak : 5 * x < last
      · rw [if_pos hbreak]
        refine ⟨r3, rfl, h3, hle3.trans hle2, fun y hy p hp hlast => ?_⟩
        rcases List.mem_cons.mp hy with rfl | hy
        · rcases hp with rfl | rfl | rfl
          · exact hle3.trans (hp2 hlast)
          · exact hp3 hlast
          · omega
        · -- the products of the numbers further back are below the last one
          have hyx := hx y hy
          rcases hp with rfl | rfl | rfl <;> omega
      · rw [if_neg hbreak]
        obtain ⟨r', hrun, hcand, hle, hall⟩ := ih r5 hxs (fun y hy => hsmooth y (.tail x hy)) h5
        refine ⟨r', hrun, hcand, by omega, fun y hy p hp hlast => ?_⟩
        rcases List.mem_cons.mp hy with rfl | hy
        · rcases hp with rfl | rfl | rfl
          · have := hp2 hlast
            omega
          · have := hp3 hlast
            omega
          · have := hp5 hlast
            omega
        · exact hall y hy p hp hlast

/-! ### The array -/

/-- The first `n` numbers of the sequence. -/
noncomputable def firstSmooth (n : Nat) : List Nat := (List.range n).map smooth

theorem firstSmooth_succ (n : Nat) : firstSmooth (n + 1) = firstSmooth n ++ [smooth n] := by
  simp [firstSmooth, List.range_succ]

theorem reverse_firstSmooth_succ (n : Nat) :
    (firstSmooth (n + 1)).reverse = smooth n :: (firstSmooth n).reverse := by
  rw [firstSmooth_succ, List.reverse_append]
  rfl

theorem mem_firstSmooth {n x : Nat} : x ∈ firstSmooth n ↔ ∃ i < n, smooth i = x := by
  simp [firstSmooth]

theorem pairwise_firstSmooth (n : Nat) : (firstSmooth n).Pairwise (· < ·) :=
  List.pairwise_map.mpr (List.pairwise_lt_range.imp fun h => smooth_strictMono h)

theorem IsSmooth.eq_smooth {x : Nat} (h : IsSmooth x) : ∃ i, smooth i = x := by
  have hrange : x ∈ Set.range (Nat.nth IsSmooth) := by
    rw [Nat.range_nth_of_infinite infinite_isSmooth]
    exact h
  exact hrange

theorem Candidate.le {n r : Nat} (h : Candidate (smooth n) r) : smooth (n + 1) ≤ r := by
  obtain ⟨i, rfl⟩ := h.1.eq_smooth
  exact smooth_strictMono.monotone (smooth_strictMono.lt_iff_lt.mp h.2)

/-- **`get_next` continues the sequence.** The number behind the last one is 2, 3 or 5 times
an earlier one, and among all such products behind the last it is the nearest. -/
theorem getNext_firstSmooth (n : Nat) : getNext exactMul (firstSmooth n) = some (smooth n) := by
  cases n with
  | zero => exact congrArg some smooth_zero.symm
  | succ n =>
      have hdesc : (firstSmooth (n + 1)).reverse.Pairwise (· > ·) :=
        List.pairwise_reverse.mpr (pairwise_firstSmooth (n + 1))
      have hsmooth : ∀ x ∈ (firstSmooth (n + 1)).reverse, IsSmooth x := by
        intro x hx
        obtain ⟨i, -, rfl⟩ := mem_firstSmooth.mp (List.mem_reverse.mp hx)
        exact isSmooth_smooth i
      have hstart : Candidate (smooth n) (smooth n * 2) := by
        have hpos := (isSmooth_smooth n).pos
        refine ⟨?_, by omega⟩
        rw [Nat.mul_comm]
        exact (isSmooth_smooth n).mul (.inl rfl)
      obtain ⟨r, hrun, hcand, -, hall⟩ := getNextLoop_spec _ _ hdesc hsmooth hstart
      have hnext : getNext exactMul (firstSmooth (n + 1)) = some r := by
        rw [reverse_firstSmooth_succ] at hrun
        rw [getNext, reverse_firstSmooth_succ]
        exact hrun
      -- the next number is a product of one that is in the array
      have hlt : smooth n < smooth (n + 1) := smooth_strictMono (Nat.lt_succ_self n)
      have hone : smooth (n + 1) ≠ 1 := by
        have := (isSmooth_smooth n).pos
        omega
      obtain ⟨p, y, hp, hy, heq⟩ := (isSmooth_smooth (n + 1)).exists_factor hone
      obtain ⟨i, rfl⟩ := hy.eq_smooth
      have hi : i < n + 1 := by
        refine smooth_strictMono.lt_iff_lt.mp ?_
        have hpos := hy.pos
        rw [heq]
        rcases hp with rfl | rfl | rfl <;> omega
      have hle : r ≤ smooth (n + 1) := by
        rw [heq]
        refine hall (smooth i) (List.mem_reverse.mpr (mem_firstSmooth.mpr ⟨i, hi, rfl⟩)) p hp ?_
        rw [← heq]
        exact hlt
      rw [hnext, le_antisymm hle hcand.le]

theorem fill_exactMul (n : Nat) : fill exactMul n = some (firstSmooth n) := by
  induction n with
  | zero => rfl
  | succ n ih =>
      simp only [fill, ih, getNext_firstSmooth, Option.bind_eq_bind, Option.bind_some,
        firstSmooth_succ]
      rfl

/-- **The array holds the `n` smallest numbers of the form `2^i * 3^j * 5^k`**, in ascending
order, none skipped and none repeated: each is the smallest of them that is greater than the
one before. -/
theorem fill_smallest (n : Nat) : ∃ a, fill exactMul n = some a ∧ a.length = n ∧
    a.Pairwise (· < ·) ∧ (∀ x ∈ a, IsSmooth x) ∧ ∀ y, IsSmooth y → y ∉ a → ∀ x ∈ a, x < y := by
  refine ⟨firstSmooth n, fill_exactMul n, by simp [firstSmooth], pairwise_firstSmooth n,
    fun x hx => ?_, fun y hy hnot x hx => ?_⟩
  · obtain ⟨i, -, rfl⟩ := mem_firstSmooth.mp hx
    exact isSmooth_smooth i
  · obtain ⟨i, hi, rfl⟩ := mem_firstSmooth.mp hx
    obtain ⟨j, rfl⟩ := hy.eq_smooth
    have hj : n ≤ j := not_lt.mp fun hj => hnot (mem_firstSmooth.mpr ⟨j, hj, rfl⟩)
    exact smooth_strictMono (by omega)

/-! ### The array in `int`s -/

theorem getNextLoop_intMul {last : Nat} (xs : List Nat) (r : Nat) (h : ∀ x ∈ xs, 5 * x ≤ intMax) :
    getNextLoop intMul last xs r = getNextLoop exactMul last xs r := by
  induction xs generalizing r with
  | nil => rfl
  | cons x xs ih =>
      have hx := h x List.mem_cons_self
      have h2 : intMul 2 x = some (2 * x) := checked_eq_some_iff.mpr ⟨by omega, rfl⟩
      have h3 : intMul 3 x = some (3 * x) := checked_eq_some_iff.mpr ⟨by omega, rfl⟩
      have h5 : intMul 5 x = some (5 * x) := checked_eq_some_iff.mpr ⟨hx, rfl⟩
      simp only [getNextLoop, h2, h3, h5, exactMul, Option.bind_eq_bind, Option.bind_some,
        ih _ fun y hy => h y (.tail x hy)]

/-- A call is defined if five times the last number is an `int`: this product is always
taken, and it is the largest. -/
theorem getNext_intMul {n x : Nat} : getNext intMul (firstSmooth (n + 1)) = some x ↔
    5 * smooth n ≤ intMax ∧ smooth (n + 1) = x := by
  have hexact : 5 * smooth n ≤ intMax →
      getNext intMul (firstSmooth (n + 1)) = some (smooth (n + 1)) := by
    intro hfit
    have hfirst : intMul (smooth n) 2 = some (smooth n * 2) :=
      checked_eq_some_iff.mpr ⟨by omega, rfl⟩
    have hall : ∀ x ∈ smooth n :: (firstSmooth n).reverse, 5 * x ≤ intMax := by
      intro x hx
      rw [← reverse_firstSmooth_succ, List.mem_reverse, mem_firstSmooth] at hx
      obtain ⟨i, hi, rfl⟩ := hx
      have hle := smooth_strictMono.monotone (Nat.lt_succ_iff.mp hi)
      omega
    have hrun := getNext_firstSmooth (n + 1)
    simp only [getNext, reverse_firstSmooth_succ, Option.bind_eq_bind] at hrun ⊢
    rw [hfirst, Option.bind_some, getNextLoop_intMul _ _ hall]
    exact hrun
  constructor
  · intro h
    have hfit : 5 * smooth n ≤ intMax := by
      simp only [getNext, reverse_firstSmooth_succ, getNextLoop, Option.bind_eq_bind,
        Option.bind_eq_some_iff] at h
      obtain ⟨_, -, _, -, _, -, t, ht, -⟩ := h
      exact (checked_eq_some_iff.mp ht).1
    rw [hexact hfit] at h
    exact ⟨hfit, Option.some.inj h⟩
  · intro h
    rw [hexact h.1, h.2]

/-- **The array in `int`s** is the exact one as long as the products fit, and else there is
none. -/
theorem fill_intMul {n : Nat} {a : List Nat} : fill intMul n = some a ↔
    (∀ i, i + 1 < n → 5 * smooth i ≤ intMax) ∧ firstSmooth n = a := by
  induction n generalizing a with
  | zero => simp [fill, firstSmooth]
  | succ n ih =>
      simp only [fill, Option.bind_eq_bind, Option.bind_eq_some_iff, ih, pure, Option.some.injEq]
      constructor
      · intro h
        obtain ⟨_, ⟨hfit, rfl⟩, x, hx, rfl⟩ := h
        cases n with
        | zero =>
            refine ⟨fun i hi => by omega, ?_⟩
            rw [firstSmooth_succ, smooth_zero]
            exact congrArg (_ ++ [·]) (Option.some.inj hx)
        | succ n =>
            obtain ⟨hlast, rfl⟩ := getNext_intMul.mp hx
            refine ⟨fun i hi => ?_, firstSmooth_succ (n + 1)⟩
            rcases Nat.lt_succ_iff_lt_or_eq.mp hi with hi | hi
            · exact hfit i hi
            · obtain rfl : i = n := by omega
              exact hlast
      · intro h
        obtain ⟨hfit, rfl⟩ := h
        refine ⟨_, ⟨fun i hi => hfit i (by omega), rfl⟩, smooth n, ?_, (firstSmooth_succ n).symm⟩
        cases n with
        | zero => exact congrArg some smooth_zero.symm
        | succ n => exact getNext_intMul.mpr ⟨hfit n (by omega), rfl⟩

/-! ### How far the `int`s reach -/

/-- The number with these exponents. -/
def ofExponents (e : Nat × Nat × Nat) : Nat := 2 ^ e.1 * 3 ^ e.2.1 * 5 ^ e.2.2

theorem factorization_ofExponents (e : Nat × Nat × Nat) : (ofExponents e).factorization =
    Finsupp.single 2 e.1 + Finsupp.single 3 e.2.1 + Finsupp.single 5 e.2.2 := by
  rw [ofExponents, Nat.factorization_mul (by positivity) (by positivity),
    Nat.factorization_mul (by positivity) (by positivity), Nat.prime_two.factorization_pow,
    Nat.prime_three.factorization_pow, Nat.prime_five.factorization_pow]

theorem ofExponents_injective : Function.Injective ofExponents := by
  intro e e' h
  have hfac : ∀ p, (ofExponents e).factorization p = (ofExponents e').factorization p := by
    intro p
    rw [h]
  simp only [factorization_ofExponents] at hfac
  have h2 := hfac 2
  have h3 := hfac 3
  have h5 := hfac 5
  simp at h2 h3 h5
  exact Prod.ext h2 (Prod.ext h3 h5)

/-- The exponents of the numbers of which five times is an `int`. -/
def smallExponents : Finset (Nat × Nat × Nat) :=
  (Finset.range 29 ×ˢ Finset.range 19 ×ˢ Finset.range 13).filter fun e => 5 * ofExponents e ≤ intMax

theorem card_smallExponents : smallExponents.card = 1363 := by decide +kernel

theorem mem_smallExponents {e : Nat × Nat × Nat} :
    e ∈ smallExponents ↔ 5 * ofExponents e ≤ intMax := by
  obtain ⟨i, j, k⟩ := e
  simp only [smallExponents, Finset.mem_filter, Finset.mem_product, Finset.mem_range, and_iff_right_iff_imp]
  intro h
  -- each power alone is not above the product
  have h2 : 2 ^ i ≤ ofExponents (i, j, k) := Nat.le_of_dvd (by unfold ofExponents; positivity)
    ⟨3 ^ j * 5 ^ k, by rw [ofExponents, Nat.mul_assoc]⟩
  have h3 : 3 ^ j ≤ ofExponents (i, j, k) := Nat.le_of_dvd (by unfold ofExponents; positivity)
    ⟨2 ^ i * 5 ^ k, by rw [ofExponents]; ring⟩
  have h5 : 5 ^ k ≤ ofExponents (i, j, k) := Nat.le_of_dvd (by unfold ofExponents; positivity)
    ⟨2 ^ i * 3 ^ j, by rw [ofExponents]; ring⟩
  rw [intMax] at h
  refine ⟨?_, ?_, ?_⟩
  · exact (Nat.pow_lt_pow_iff_right (by decide : 1 < 2)).mp (by omega)
  · exact (Nat.pow_lt_pow_iff_right (by decide : 1 < 3)).mp (by omega)
  · exact (Nat.pow_lt_pow_iff_right (by decide : 1 < 5)).mp (by omega)

open Classical in
theorem count_isSmooth : Nat.count IsSmooth (intMax / 5 + 1) = 1363 := by
  have himage : (Finset.range (intMax / 5 + 1)).filter IsSmooth = smallExponents.image ofExponents := by
    ext x
    simp only [Finset.mem_filter, Finset.mem_range, Finset.mem_image, mem_smallExponents]
    constructor
    · intro h
      obtain ⟨hlt, i, j, k, rfl⟩ := h
      refine ⟨(i, j, k), ?_, rfl⟩
      show 5 * (2 ^ i * 3 ^ j * 5 ^ k) ≤ intMax
      omega
    · intro h
      obtain ⟨e, hfit, rfl⟩ := h
      exact ⟨by omega, e.1, e.2.1, e.2.2, rfl⟩
  rw [Nat.count_eq_card_filter_range, himage, Finset.card_image_of_injective _ ofExponents_injective,
    card_smallExponents]

theorem five_mul_smooth_le_iff {i : Nat} : 5 * smooth i ≤ intMax ↔ i < 1363 := by
  classical
  have hcount := Nat.count_le_iff_le_nth infinite_isSmooth (a := intMax / 5 + 1) (b := i)
  rw [count_isSmooth] at hcount
  have hsmooth : smooth i = Nat.nth IsSmooth i := rfl
  omega

/-- `MAX`. -/
def maxNumbers : Nat := 10000

/-- Filling the array takes only products that are `int`s, and what is printed is the exact
list. -/
def NoOverflow (n : Nat) : Prop := ∃ a, fill intMul n = some a ∧ fill exactMul n = some a

/-- **All products are `int`s up to the 1364th number, and never behind it.** For each number
but the first, the largest product formed is 5 times the one before it; these are compared
with the largest `int`. -/
theorem noOverflow_iff (n : Nat) : NoOverflow n ↔ n ≤ 1364 := by
  simp only [NoOverflow, fill_intMul, fill_exactMul, five_mul_smooth_le_iff]
  constructor
  · intro h
    obtain ⟨a, ⟨hfit, -⟩, -⟩ := h
    by_contra hn
    exact absurd (hfit 1363 (by omega)) (by omega)
  · intro hn
    exact ⟨firstSmooth n, ⟨fun i hi => by omega, rfl⟩, rfl⟩

/-- The program has room for the 1365th number, but the call that looks for it takes five times
the 1364th, which is above the largest `int`. -/
theorem fill_intMul_1365 : 1365 ≤ maxNumbers ∧ fill intMul 1365 = none ∧ ¬ NoOverflow 1365 := by
  have hnone : fill intMul 1365 = none := by
    refine Option.eq_none_iff_forall_ne_some.mpr fun a h => ?_
    have hfit := (fill_intMul.mp h).1 1363 (by omega)
    exact absurd (five_mul_smooth_le_iff.mp hfit) (by omega)
  refine ⟨by decide, hnone, fun h => ?_⟩
  obtain ⟨a, hrun, -⟩ := h
  rw [hnone] at hrun
  cases hrun

end BlogStuff.Algorithm
