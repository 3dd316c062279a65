import Mathlib.Data.Int.Init
import Mathlib.Tactic.Linarith

/-!
# Library — machine integers

Fixed-width arithmetic on `Int` and `Nat`.  `toI32 x` is `x` converted to a signed 32-bit
integer, `toU32 x` and `toU64 x` are `x` converted to an unsigned integer of 32 and 64 bits.  A
value in range is its own conversion, and a conversion forgets an earlier one of the same width
(`toI32_add`, `toI32_sub`, `toU32_add`, `toU32_sub`).
-/

namespace MachineInt

/-- The conversion to `int32_t`: the value modulo 2³² that is nearest to zero. -/
def toI32 (x : Int) : Int := x.bmod (2 ^ 32)

/-- The conversion to `uint32_t`: the value modulo 2³². -/
def toU32 (x : Int) : Nat := (x % 2 ^ 32).toNat

/-- The conversion to `uint64_t`: the value modulo 2⁶⁴. -/
def toU64 (x : Int) : Nat := (x % 2 ^ 64).toNat

theorem toI32_of_range {x : Int} (h₀ : 0 ≤ x) (h₁ : x < 2 ^ 31) : toI32 x = x :=
  Int.bmod_eq_of_le (by omega) (by omega)

theorem toI32_lt (x : Int) : toI32 x < 2 ^ 31 := Int.bmod_lt (by decide)

/-- Only the last conversion of a sum matters. -/
theorem toI32_add (x y : Int) : toI32 (toI32 x + y) = toI32 (x + y) := Int.bmod_add_bmod

theorem toI32_sub (x y : Int) : toI32 (toI32 x - y) = toI32 (x - y) := Int.bmod_sub_bmod

theorem toU32_of_range {x : Int} (h₀ : 0 ≤ x) (h₁ : x < 2 ^ 32) : toU32 x = x.toNat := by
  rw [toU32, Int.emod_eq_of_lt h₀ h₁]

theorem toU64_of_range {x : Int} (h₀ : 0 ≤ x) (h₁ : x < 2 ^ 64) : toU64 x = x.toNat := by
  rw [toU64, Int.emod_eq_of_lt h₀ h₁]

theorem toU32_lt (x : Int) : toU32 x < 2 ^ 32 := by
  rw [toU32]
  omega

/-- Conversion never makes a natural number larger. -/
theorem toU32_le (n : Nat) : toU32 n ≤ n := by
  unfold toU32
  omega

/-- Unsigned sums may be converted as they go along. -/
theorem toU32_add (x y : Int) : toU32 (toU32 x + y) = toU32 (x + y) := by
  simp only [toU32]
  omega

/-- Unsigned differences may be converted as they go along. -/
theorem toU32_sub (x y : Int) : toU32 (toU32 x - toU32 y) = toU32 (x - y) := by
  simp only [toU32]
  omega

/-- A sum that an `int` keeps as it is has the same value in `unsigned int`. -/
theorem toI32_toNat {x : Int} (h : 0 ≤ toI32 x) : (toI32 x).toNat = toU32 x := by
  unfold toI32 toU32 at *
  unfold Int.bmod at *
  dsimp only at *
  split at h
  · rename_i hlt
    rw [if_pos hlt]
    rfl
  · omega

end MachineInt
