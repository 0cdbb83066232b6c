import Mathlib.Data.Int.Bitwise
import Mathlib.Data.Nat.Notation

/-!
# Conversions between the integer types of C

A value that is stored in a signed type of 32 bits or in an unsigned type of 64
bits is cut to that width. Nothing changes for values in the range of the type.
-/

namespace AndroidPlatform.CInteger

/-- A value stored in an `int`. -/
def toInt (n : ℤ) : ℤ := (BitVec.ofInt 32 n).toInt

/-- A value of type `__u64`. -/
def toU64 (n : ℤ) : ℕ := (n%2^64).toNat

/-- A value of type `__u32`. -/
def toU32 (n : ℤ) : ℕ := (n%2^32).toNat

theorem toInt_eq {n : ℤ} (hge : -2^31≤n) (hlt : n<2^31) : toInt n=n := by
  rw [toInt,BitVec.toInt_ofInt]
  refine Int.bmod_eq_of_le ?_ ?_ <;> omega

theorem toInt_of_lt {n : ℕ} (h : n<2^31) : toInt n=n := toInt_eq (by omega) (by omega)

theorem toU64_of_lt {n : ℤ} {m : ℕ} (h : n=m) (hm : m<2^64) : toU64 n=m := by
  rw [toU64,h]
  omega

theorem toU32_sub {m n : ℕ} (hle : m≤n) (hlt : n-m<2^32) : toU32 (n-m)=n-m := by
  rw [toU32]
  omega

/-- Cutting the first operand of a difference changes nothing after the cut. -/
theorem toInt_sub (a b : ℤ) : toInt (toInt a-b)=toInt (a-b) := by
  simp only [toInt,BitVec.toInt_ofInt,Int.bmod_sub_bmod]

end AndroidPlatform.CInteger
