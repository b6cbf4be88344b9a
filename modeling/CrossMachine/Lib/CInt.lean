import Mathlib.Data.Int.ModEq

/-!
# The `int` of C

An `int` has 32 bits. What an operation computes wraps, and what wraps may be wrapped once, at the
end.
-/

namespace CrossMachine.Lib

/-- The `int` that a value wraps to. -/
def int32 (x : Int) : Int := x.bmod (2 ^ 32)

theorem int32_of_bounds {x : Int} (hlo : -(2 ^ 31) ≤ x) (hhi : x < 2 ^ 31) : int32 x = x := by
  apply Int.bmod_eq_of_le <;> omega

theorem int32_of_nonneg {x : Int} (hlo : 0 ≤ x) (hhi : x < 2 ^ 31) : int32 x = x :=
  int32_of_bounds (by omega) hhi

theorem int32_lt (x : Int) : int32 x < 2 ^ 31 := Int.bmod_lt (by decide)

@[simp] theorem int32_mul_left (x y : Int) : int32 (int32 x * y) = int32 (x * y) :=
  Int.bmod_mul_bmod

@[simp] theorem int32_mul_right (x y : Int) : int32 (x * int32 y) = int32 (x * y) :=
  Int.mul_bmod_bmod

@[simp] theorem int32_add_left (x y : Int) : int32 (int32 x + y) = int32 (x + y) :=
  Int.bmod_add_bmod

@[simp] theorem int32_add_right (x y : Int) : int32 (x + int32 y) = int32 (x + y) :=
  Int.add_bmod_bmod

end CrossMachine.Lib
