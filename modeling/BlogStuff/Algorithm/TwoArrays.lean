import BlogStuff.Cpp.Int
import BlogStuff.Order.Rank

/-!
# BlogStuff.Algorithm.TwoArrays

The median of two sorted arrays of one length (`getMedian` of `ex9_3_8.cpp`, exercise
9.3-8 of *Introduction to algorithms*).

A call cuts `x` in the middle of its window and `y` where `n - 1` elements stand in front
of both cuts together. If the smaller of the two elements there fits between the others
it is the median; otherwise the element that is too small, and all in front of it, are
left out of the window. Nothing in the code keeps the window of `x` from running empty.
That it does not is in `Window`: the elements next to a bound have been compared when it
was moved, and the comparison rules out moving the other bound past it.

The indices are 32-bit `int`s. All of them stay between -1 and the length, but the sum of the two
bounds, which is halved, comes up to twice the last index. With up to `2 ^ 30` elements it fits
(`getMedian_correct`); with one more it does not, if the median is at the end of `x`
(`getMedian_overflows`).
-/

namespace BlogStuff.Algorithm

open BlogStuff.Cpp BlogStuff.Order

/-- `v[i]`; there is no value outside the vector. -/
def readAt (v : List Int) (i : Int) : Option Int := if 0 ≤ i then v[i.toNat]? else none

/-- `getMedian(x, lx, hx, y, ly, hy)`, with `fuel` for the depth of the recursion. A run that reads
outside a vector or leaves the range of `int` has no value. -/
def getMedian (x y : List Int) : Nat → Int → Int → Int → Int → Option Int
  | 0, _, _, _, _ => none
  | fuel + 1, lx, hx, ly, hy => do
      let cx := (← arith (lx + hx)).tdiv 2
      let cy ← arith (hy - (← arith (cx - lx)))
      let mx ← readAt x cx
      let my ← readAt y cy
      if mx ≤ my then
        if cy < 1 then return mx
        else if mx ≥ (← readAt y (← arith (cy - 1))) then return mx
        else getMedian x y fuel (← arith (cx + 1)) hx ly (← arith (cy - 1))
      else
        if cx < 1 then return my
        else if my ≥ (← readAt x (← arith (cx - 1))) then return my
        else getMedian x y fuel lx (← arith (cx - 1)) (← arith (cy + 1)) hy

/-! ### Reading the arrays -/

theorem readAt_natCast (v : List Int) (i : Nat) : readAt v i = v[i]? := by
  simp [readAt]

theorem readAt_isSome {v : List Int} {i : Int} (h0 : 0 ≤ i) (hi : i < v.length) :
    ∃ a, readAt v i = some a := by
  obtain ⟨k, rfl⟩ := Int.eq_ofNat_of_zero_le h0
  rw [readAt_natCast]
  exact ⟨_, List.getElem?_eq_getElem (by omega)⟩

/-! ### The window -/

/-- What a call can rely on: the window of `x` is not empty, `n - 1` elements stand in front
of its lower and behind its upper end in both arrays, and the bounds have been moved past
elements that cannot be the median. -/
structure Window (x y : List Int) (n : Nat) (lx hx hy : Int) : Prop where
  nonneg : 0 ≤ lx
  nonempty : lx ≤ hx
  lt : hx < n
  cut : lx + hy = n - 1
  left : ∀ a b, 0 < lx → readAt x (lx - 1) = some a → readAt y (n - 1 - lx) = some b → a < b
  right : ∀ a b, hx < n - 1 → readAt x hx = some a → readAt y (n - 2 - hx) = some b → b < a

theorem window_whole (x y : List Int) {n : Nat} (hn : 1 ≤ n) :
    Window x y n 0 (n - 1) (n - 1) where
  nonneg := le_rfl
  nonempty := by omega
  lt := by omega
  cut := by omega
  left := fun _ _ h => absurd h (lt_irrefl 0)
  right := fun _ _ h => absurd h (lt_irrefl _)

section

variable {x y : List Int} {n : Nat} {lx hx hy : Int}

/-- The cuts of a call: both are inside the arrays, the one of `x` inside the window. -/
theorem Window.cuts (h : Window x y n lx hx hy) : lx ≤ (lx + hx).tdiv 2 ∧
    (lx + hx).tdiv 2 ≤ hx ∧ hy - ((lx + hx).tdiv 2 - lx) = n - 1 - (lx + hx).tdiv 2 := by
  have h1 := h.nonneg
  have h2 := h.nonempty
  have h3 := h.cut
  have hdiv : (lx + hx).tdiv 2 = (lx + hx) / 2 := Int.tdiv_eq_ediv_of_nonneg (by omega)
  rw [hdiv]
  omega

/-- The upper bound is not passed from below: where the cut is at the upper end, the element
of `x` there is not below the one in front of the cut of `y`. -/
theorem Window.lower (h : Window x y n lx hx hy) {c mx m : Int} (hc0 : lx ≤ c) (hc : c ≤ hx)
    (hy1 : 1 ≤ n - 1 - c) (hmx : readAt x c = some mx) (hm : readAt y (n - 1 - c - 1) = some m)
    (hlt : mx < m) : Window x y n (c + 1) hx (n - 1 - c - 1) where
  nonneg := by
    have := h.nonneg
    omega
  nonempty := by
    rcases Int.lt_or_eq_of_le hc with hlt' | rfl
    · omega
    · -- the comparison that moved the upper bound says otherwise
      have hm' : readAt y (n - 2 - c) = some m := by
        rw [← hm]
        congr 1
        omega
      exact absurd hlt (h.right mx m (by omega) hmx hm').asymm
  lt := h.lt
  cut := by omega
  left := by
    intro a b _ ha hb
    rw [Int.add_sub_cancel, hmx] at ha
    have hidx : (n : Int) - 1 - (c + 1) = n - 1 - c - 1 := by omega
    rw [hidx, hm] at hb
    rw [← Option.some.inj ha, ← Option.some.inj hb]
    exact hlt
  right := h.right

/-- The lower bound is not passed from above. If the middle were the lower bound, its left neighbour
would be known to be small enough, against the comparison that was made. -/
theorem Window.upper (h : Window x y n lx hx hy) {c my m : Int} (hc0 : lx ≤ c) (hc : c ≤ hx)
    (hc1 : 1 ≤ c) (hmy : readAt y (n - 1 - c) = some my) (hm : readAt x (c - 1) = some m)
    (hlt : my < m) : Window x y n lx (c - 1) hy where
  nonneg := h.nonneg
  nonempty := by
    rcases Int.lt_or_eq_of_le hc0 with hlt' | rfl
    · omega
    · exact absurd hlt (h.left m my (by omega) hm hmy).asymm
  lt := by
    have := h.lt
    omega
  cut := h.cut
  left := h.left
  right := by
    intro a b _ ha hb
    have hidx : (n : Int) - 2 - (c - 1) = n - 1 - c := by omega
    rw [hm] at ha
    rw [hidx, hmy] at hb
    rw [← Option.some.inj ha, ← Option.some.inj hb]
    exact hlt

/-- An element that fits at the cut of the other array is the median: it is not above what stands
behind the cut and not below what stands in front of it, so its rank is the sum of the two indices.
-/
theorem kth_at_cut {a b : List Int} {m : Nat} (ha : a.Pairwise (· ≤ ·)) (hb : b.Pairwise (· ≤ ·))
    {i j v w : Int} (hi0 : 0 ≤ i) (hj0 : 0 ≤ j) (hj : j ≤ b.length) (hm : (i + j).toNat = m)
    (hv : readAt a i = some v) (hw : readAt b j = some w) (hright : v ≤ w)
    (hleft : 1 ≤ j → ∃ u, readAt b (j - 1) = some u ∧ u ≤ v) : kth (a ++ b) m = some v := by
  obtain ⟨k, rfl⟩ := Int.eq_ofNat_of_zero_le hi0
  obtain ⟨l, rfl⟩ := Int.eq_ofNat_of_zero_le hj0
  have hsum : m = k + l := by omega
  rw [readAt_natCast] at hv hw
  rw [hsum]
  refine kth_of_cut ha hb hv (by omega) (fun w' hw' => ?_) (fun u hl hu => ?_)
  · obtain rfl := Option.some.inj (hw.symm.trans hw')
    exact hright
  · obtain ⟨u', hu', hle⟩ := hleft (by omega)
    have hidx : (l : Int) - 1 = ((l - 1 : Nat) : Int) := by omega
    rw [hidx, readAt_natCast] at hu'
    obtain rfl := Option.some.inj (hu.symm.trans hu')
    exact hle

/-- The numbers a call forms are `int`s, if the sum of the bounds is one. -/
theorem Window.isInt (h : Window x y n lx hx hy) (hn : n ≤ 2 ^ 30) {k : Int} (h0 : -1 ≤ k)
    (hk : k ≤ lx + hx ∨ k ≤ n) : IsInt k := by
  have := h.nonempty
  have := h.lt
  exact ⟨by omega, by omega⟩

/-- **From any window**, enough fuel gives the median. Each round moves one bound of the
window of `x` past its middle. The window stays non-empty (`Window`), and the depth that is
left exceeds its size. -/
theorem getMedian_window (hx' : x.Pairwise (· ≤ ·)) (hy' : y.Pairwise (· ≤ ·)) (hxn : x.length = n)
    (hyn : y.length = n) (hn : n ≤ 2 ^ 30) (fuel : Nat) (ly : Int) (h : Window x y n lx hx hy)
    (hf : hx - lx < fuel) :
    ∃ v, getMedian x y fuel lx hx ly hy = some v ∧ kth (x ++ y) (n - 1) = some v := by
  induction fuel generalizing lx hx ly hy with
  | zero =>
      have := h.nonempty
      omega
  | succ fuel ih =>
      obtain ⟨hc0, hc, hcy⟩ := h.cuts
      have hlx := h.nonneg
      have hlt := h.lt
      have hcut := h.cut
      have hfit : ∀ k : Int, -1 ≤ k → k ≤ n → arith k = some k := fun k h0 hk =>
        arith_of_isInt (h.isInt hn h0 (.inr hk))
      rw [getMedian, arith_of_isInt (h.isInt hn (by omega) (.inl le_rfl))]
      simp only [Option.bind_eq_bind, Option.bind_some]
      generalize (lx + hx).tdiv 2 = c at *
      rw [hfit (c - lx) (by omega) (by omega), Option.bind_some, hcy,
        hfit (n - 1 - c) (by omega) (by omega), Option.bind_some]
      obtain ⟨mx, hmx⟩ := readAt_isSome (v := x) (i := c) (by omega) (by omega)
      obtain ⟨my, hmy⟩ := readAt_isSome (v := y) (i := n - 1 - c) (by omega) (by omega)
      have hsum : (c + (n - 1 - c)).toNat = n - 1 := by omega
      have hsum' : (n - 1 - c + c).toNat = n - 1 := by omega
      have hup := hfit (c + 1) (by omega) (by omega)
      have hdown := hfit (c - 1) (by omega) (by omega)
      have hup' := hfit (n - 1 - c + 1) (by omega) (by omega)
      have hdown' := hfit (n - 1 - c - 1) (by omega) (by omega)
      rw [hmx, hmy]
      simp only [Option.bind_some, hup, hdown, hup', hdown']
      split_ifs with hle h1 h1
      · -- nothing of `y` is in front of the cut
        exact ⟨mx, rfl, kth_at_cut hx' hy' (by omega) (by omega) (by omega) hsum hmx hmy hle
          fun hj => absurd hj (by omega)⟩
      · obtain ⟨m, hm⟩ := readAt_isSome (v := y) (i := n - 1 - c - 1) (by omega) (by omega)
        rw [hm, Option.bind_some]
        split_ifs with hfit
        · exact ⟨mx, rfl, kth_at_cut hx' hy' (by omega) (by omega) (by omega) hsum hmx hmy hle
            fun _ => ⟨m, hm, hfit⟩⟩
        · exact ih ly (h.lower hc0 hc (by omega) hmx hm (by omega)) (by omega)
      · -- nothing of `x` is in front of the cut
        refine ⟨my, rfl, ?_⟩
        rw [kth_of_perm List.perm_append_comm]
        exact kth_at_cut hy' hx' (by omega) (by omega) (by omega) hsum' hmy hmx (by omega)
          fun hj => absurd hj (by omega)
      · obtain ⟨m, hm⟩ := readAt_isSome (v := x) (i := c - 1) (by omega) (by omega)
        rw [hm, Option.bind_some]
        split_ifs with hfit
        · refine ⟨my, rfl, ?_⟩
          rw [kth_of_perm List.perm_append_comm]
          exact kth_at_cut hy' hx' (by omega) (by omega) (by omega) hsum' hmy hmx (by omega)
            fun _ => ⟨m, hm, hfit⟩
        · exact ih _ (h.upper hc0 hc (by omega) hmy hm (by omega)) (by omega)

end

/-- **The median of two sorted arrays.** For ascending arrays of one length `n`, from 1 to `2 ^ 30`,
the recursion ends after at most `n` calls without a read outside the arrays and without a number
that is no `int`, and returns the `n`-th smallest of the `2 * n` elements. A window with one
element less in every call bounds the depth; that it never runs empty is the invariant. -/
theorem getMedian_correct {x y : List Int} {n : Nat} (hn : 1 ≤ n) (hmax : n ≤ 2 ^ 30)
    (hx : x.length = n) (hy : y.length = n) (hxs : x.Pairwise (· ≤ ·)) (hys : y.Pairwise (· ≤ ·)) :
    ∃ v, getMedian x y n 0 (n - 1) 0 (n - 1) = some v ∧ kth (x ++ y) (n - 1) = some v :=
  getMedian_window hxs hys hx hy hmax n 0 (window_whole x y hn) (by omega)

/-- Two arrays with a common element. -/
theorem getMedian_correct_three :
    ∃ v, getMedian [1, 4, 4] [2, 4, 9] 3 0 2 0 2 = some v ∧
      kth ([1, 4, 4] ++ [2, 4, 9]) 2 = some v :=
  getMedian_correct (n := 3) (by decide) (by decide) rfl rfl (by decide) (by decide)

/-! ### One element more -/

theorem readAt_replicate {n : Nat} {a i : Int} (h0 : 0 ≤ i) (hi : i < n) :
    readAt (List.replicate n a) i = some a := by
  rw [readAt, if_pos h0, List.getElem?_replicate, if_pos (by omega)]

/-- All of `x` is below all of `y`, so that the lower bound of `x` goes up to the end, where the
bounds add up to `2 ^ 31`. `d` is how far it is from there. -/
theorem getMedian_replicate (fuel : Nat) {d : Int} (h0 : 0 ≤ d) (hd : d ≤ 2 ^ 30) (ly : Int) :
    getMedian (List.replicate (2 ^ 30 + 1) 0) (List.replicate (2 ^ 30 + 1) 1) fuel (2 ^ 30 - d)
      (2 ^ 30) ly d = none := by
  induction fuel generalizing d ly with
  | zero => rfl
  | succ fuel ih =>
      rw [getMedian]
      rcases Int.lt_or_eq_of_le h0 with hpos | rfl
      · have hfit : ∀ k : Int, -1 ≤ k → k < 2 ^ 31 → arith k = some k := fun k h0 hk =>
          arith_of_isInt ⟨by omega, by omega⟩
        have hdiv : (2 ^ 30 - d + 2 ^ 30).tdiv 2 = 2 ^ 30 - (d + 1) / 2 := by
          rw [Int.tdiv_eq_ediv_of_nonneg (by omega)]
          omega
        -- the cut of `y`, and how far the next lower bound is from the end
        have hcy : d - (2 ^ 30 - (d + 1) / 2 - (2 ^ 30 - d)) = (d + 1) / 2 := by omega
        have hnext : 2 ^ 30 - (d + 1) / 2 + 1 = 2 ^ 30 - ((d + 1) / 2 - 1) := by omega
        rw [hfit _ (by omega) (by omega)]
        simp only [Option.bind_eq_bind, Option.bind_some, hdiv]
        rw [hfit _ (by omega) (by omega), Option.bind_some, hcy, hfit _ (by omega) (by omega),
          Option.bind_some, readAt_replicate (by omega) (by omega), Option.bind_some,
          readAt_replicate (by omega) (by omega), Option.bind_some, if_pos (by decide),
          if_neg (by omega), hfit _ (by omega) (by omega), Option.bind_some,
          readAt_replicate (by omega) (by omega), Option.bind_some, if_neg (by decide),
          hfit _ (by omega) (by omega), Option.bind_some, Option.bind_some, hnext]
        exact ih (by omega) (by omega) ly
      · rw [arith_of_not_isInt fun h => absurd h.2 (by decide)]
        rfl

/-- `2 ^ 30 + 1` zeros and as many ones: no depth of the recursion gives a result. -/
theorem getMedian_overflows :
    (List.replicate (2 ^ 30 + 1) (0 : Int)).Pairwise (· ≤ ·) ∧
      (List.replicate (2 ^ 30 + 1) (1 : Int)).Pairwise (· ≤ ·) ∧
      ∀ fuel, getMedian (List.replicate (2 ^ 30 + 1) 0) (List.replicate (2 ^ 30 + 1) 1) fuel 0
        (2 ^ 30) 0 (2 ^ 30) = none := by
  refine ⟨List.pairwise_replicate_of_refl, List.pairwise_replicate_of_refl, fun fuel => ?_⟩
  exact getMedian_replicate fuel (d := 2 ^ 30) (by decide) le_rfl 0

end BlogStuff.Algorithm
