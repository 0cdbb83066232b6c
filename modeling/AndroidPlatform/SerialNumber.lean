import Mathlib.Data.Nat.Notation
import Mathlib.Data.BitVec
import Mathlib.Algebra.Group.Basic

/-!
# Serial numbers compared by their signed difference

Identifiers of a fixed width wrap around. Two of them are ordered by the sign
of their difference, which is right as long as fewer than half of all values
lie between them.
-/

namespace AndroidPlatform.SerialNumber

variable {w : ℕ}

/-- The difference of two serial numbers, read as a signed number. -/
def difference (x y : BitVec w) : ℤ := (x-y).toInt

/-- Two counts from one origin differ by the difference of the counts. -/
theorem difference_add (origin : BitVec (w+1)) {i j : ℕ} (hi : i<2^w) (hj : j<2^w) :
    difference (origin+BitVec.ofNat (w+1) i) (origin+BitVec.ofNat (w+1) j)=(i : ℤ)-j := by
  have hcancel : origin+BitVec.ofNat (w+1) i-(origin+BitVec.ofNat (w+1) j)=
      BitVec.ofInt (w+1) ((i : ℤ)-j) := by
    have hi' : BitVec.ofNat (w+1) i=BitVec.ofInt (w+1) i := (BitVec.ofInt_natCast (w+1) i).symm
    have hj' : BitVec.ofNat (w+1) j=BitVec.ofInt (w+1) j := (BitVec.ofInt_natCast (w+1) j).symm
    rw [hi',hj',add_sub_add_left_eq_sub,Int.sub_eq_add_neg,BitVec.ofInt_add,BitVec.ofInt_neg,
      BitVec.sub_eq_add_neg]
  have hpow : (2 : ℤ)^w=((2^w : ℕ) : ℤ) := by norm_cast
  rw [difference,hcancel,BitVec.toInt_ofInt]
  refine Int.bmod_eq_of_le ?_ ?_
  · rw [pow_succ]
    omega
  · rw [pow_succ]
    omega

/-- A number that is strictly behind another is at most half the range behind. -/
theorem distance_le_of_difference_neg {x y : BitVec (w+1)} (h : difference x y<0) :
    (y-x).toNat≤2^w := by
  have hneg : y-x= -(x-y) := (neg_sub x y).symm
  rw [difference,BitVec.toInt_eq_toNat_cond] at h
  have hlt := (x-y).isLt
  rw [hneg,BitVec.toNat_neg]
  rw [pow_succ] at h hlt ⊢
  by_cases hsmall : 2*(x-y).toNat<2^w*2
  · rw [if_pos hsmall] at h
    omega
  · have hmod : (2^w*2-(x-y).toNat)%(2^w*2)≤2^w*2-(x-y).toNat := Nat.mod_le _ _
    omega

end AndroidPlatform.SerialNumber
