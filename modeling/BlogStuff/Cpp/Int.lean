import Mathlib.Algebra.Order.Ring.Int
import Mathlib.Tactic

/-!
# BlogStuff.Cpp.Int

The 32-bit `int` of C++: results that have to fit, and the conversions from and to unsigned
numbers. An operation whose result does not fit has no value; a conversion keeps the low bits.
-/

namespace BlogStuff.Cpp

/-- The values of an `int`. -/
def IsInt (k : Int) : Prop := -2 ^ 31 ≤ k ∧ k < 2 ^ 31

instance : DecidablePred IsInt := fun k => inferInstanceAs (Decidable (-2 ^ 31 ≤ k ∧ k < 2 ^ 31))

/-- The result of an operation on `int`s. Outside the range it has no value. -/
def arith (k : Int) : Option Int := if IsInt k then some k else none

@[simp] theorem arith_of_isInt {k : Int} (h : IsInt k) : arith k = some k := if_pos h

theorem arith_of_not_isInt {k : Int} (h : ¬ IsInt k) : arith k = none := if_neg h

/-- The largest `int`. -/
def intMax : Nat := 2 ^ 31 - 1

/-- A result that is not negative. Above the largest `int` it has no value. -/
def checked (x : Nat) : Option Nat := if x ≤ intMax then some x else none

theorem checked_eq_some_iff {x y : Nat} : checked x = some y ↔ x ≤ intMax ∧ x = y := by
  unfold checked
  split_ifs with h <;> simp [h]

theorem checked_bind_eq_some_iff {α : Type} {x : Nat} {f : Nat → Option α} {b : α} :
    (checked x).bind f = some b ↔ x ≤ intMax ∧ f x = some b := by
  unfold checked
  split_ifs with h <;> simp [h]

theorem checked_of_le {x : Nat} (h : x ≤ intMax) : checked x = some x := if_pos h

theorem checked_of_lt {x : Nat} (h : intMax < x) : checked x = none := if_neg (Nat.not_le.mpr h)

/-- An unsigned number converted to an `int`: the low 32 bits, as a signed number. -/
def toInt (n : Nat) : Int := Int.bmod n (2 ^ 32)

theorem toInt_of_le {n : Nat} (h : n ≤ intMax) : toInt n = n := by
  have hmax : intMax = 2 ^ 31 - 1 := rfl
  exact Int.bmod_eq_of_le (by omega) (by omega)

/-- An `int` converted to an unsigned number of so many bits. -/
def unsigned (bits : Nat) (k : Int) : Nat := (k % 2 ^ bits).toNat

section

variable {bits : Nat} {k : Int}

theorem two_pow_le (hbits : 32 ≤ bits) : (2 : Int) ^ 32 ≤ 2 ^ bits :=
  pow_le_pow_right₀ (by decide) hbits

theorem unsigned_of_nonneg (hbits : 32 ≤ bits) (h0 : 0 ≤ k) (hk : IsInt k) :
    unsigned bits k = k.toNat := by
  have hpow := two_pow_le hbits
  obtain ⟨-, hhigh⟩ := hk
  rw [unsigned, Int.emod_eq_of_lt h0 (by omega)]

theorem unsigned_pos (hbits : 32 ≤ bits) (h0 : k ≠ 0) (hk : IsInt k) : 0 < unsigned bits k := by
  have hpow := two_pow_le hbits
  obtain ⟨hlow, hhigh⟩ := hk
  rcases lt_or_gt_of_ne h0 with hneg | hpos
  · -- a negative number comes out as its distance from `2 ^ bits`
    have hmod : k % 2 ^ bits = k + 2 ^ bits := by
      rw [← Int.add_emod_right, Int.emod_eq_of_lt (by omega) (by omega)]
    rw [unsigned, hmod]
    omega
  · rw [unsigned_of_nonneg hbits hpos.le ⟨hlow, hhigh⟩]
    omega

end

end BlogStuff.Cpp
