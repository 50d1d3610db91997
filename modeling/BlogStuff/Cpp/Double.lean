import BlogStuff.Cpp.Int
import Mathlib.Data.Rat.Cast.Order

/-!
# BlogStuff.Cpp.Double

The numbers of a 64-bit `double`, and operations on them.

An operation gives the exact result rounded. What is used of rounding is only that a number
of the format is its own rounding, so the facts hold in every rounding mode. An `int`, the sum
of two of them and half of that need fewer than 53 bits and are numbers of the format.
-/

namespace BlogStuff.Cpp

/-- The finite numbers of a `double`: 53 bits and an exponent. -/
def IsDouble (q : ℚ) : Prop :=
  ∃ m e : Int, |m| < 2 ^ 53 ∧ -1074 ≤ e ∧ e ≤ 971 ∧ q = m * 2 ^ e

/-- A way to round. -/
structure Rounding where
  round : ℚ → ℚ
  exact : ∀ q, IsDouble q → round q = q

theorem isDouble_intCast {k : Int} (h : |k| < 2 ^ 53) : IsDouble k :=
  ⟨k, 0, h, by decide, by decide, by simp⟩

theorem isDouble_half {k : Int} (h : |k| < 2 ^ 53) : IsDouble (k / 2) :=
  ⟨k, -1, h, by decide, by decide, by rw [zpow_neg_one]; rfl⟩

namespace Rounding

variable (r : Rounding) {x y : Int}

theorem round_int (hx : IsInt x) : r.round x = x := by
  refine r.exact _ (isDouble_intCast ?_)
  obtain ⟨hlow, hhigh⟩ := hx
  rw [abs_lt]
  omega

/-- The mean of two `int`s is exact, and so is the sum on the way. -/
theorem round_mean (hx : IsInt x) (hy : IsInt y) :
    r.round (r.round (r.round x + r.round y) / 2) = ((x : ℚ) + y) / 2 := by
  have hsum : |x + y| < 2 ^ 53 := by
    obtain ⟨hxlow, hxhigh⟩ := hx
    obtain ⟨hylow, hyhigh⟩ := hy
    rw [abs_lt]
    omega
  have hcast : (x : ℚ) + y = ((x + y : Int) : ℚ) := by push_cast; rfl
  rw [r.round_int hx, r.round_int hy, hcast, r.exact _ (isDouble_intCast hsum),
    r.exact _ (isDouble_half hsum)]

end Rounding

end BlogStuff.Cpp
