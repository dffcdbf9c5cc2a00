import Mathlib

/-! # C integers — what an `int` keeps

    A 32-bit two's complement `int` keeps a number modulo `2 ^ 32`, as the
    representative between `-2 ^ 31` and `2 ^ 31 - 1`. -/

namespace CInt

/-- What an `int` keeps of a number. -/
def int32 (x : Int) : Int := Int.bmod x (2 ^ 32)

/-- A number within the range of an `int` is kept. -/
theorem int32_of_fits {x : Int} (h : -2 ^ 31 ≤ x) (h' : x < 2 ^ 31) : int32 x = x := by
  apply Int.bmod_eq_of_le_mul_two
  · push_cast; omega
  · push_cast; omega

theorem int32_lt (x : Int) : int32 x < 2 ^ 31 :=
  calc int32 x < (((2 ^ 32 : Nat) : Int) + 1) / 2 := Int.bmod_lt (by decide)
    _ = 2 ^ 31 := by norm_num

/-- The one value that an increment wraps. -/
theorem int32_succ_max : int32 (2 ^ 31 - 1 + 1) = -2 ^ 31 := by decide +kernel

/-- Doubling what is kept of a number is doubling the number. -/
theorem int32_double (x : Int) : int32 (int32 x * 2) = int32 (x * 2) :=
  Int.bmod_mul_bmod

end CInt
