import Mathlib.Data.Nat.ModEq
import Mathlib.Tactic.Ring

/-!
# Sixteen-bit one's-complement sums of byte lists

Bytes are read as little-endian sixteen-bit words, with an odd last byte
counting as a low byte. Folding the upper half of a sum into its lower half
until nothing is left gives a canonical representative of the residue modulo
65535, and this representative is all a sender and a receiver have to agree
on. Nothing here refers to a particular packet format.
-/

namespace AndroidPlatform.OnesComplement

/-- Sum of the little-endian words of a byte list; an odd last byte is low. -/
def wordSum : List UInt8 → ℕ
  | [] => 0
  | [b] => b.toNat
  | lo::hi::tail => lo.toNat+256*hi.toNat+wordSum tail

@[simp] theorem wordSum_nil : wordSum []=0 := rfl

@[simp] theorem wordSum_singleton (b : UInt8) : wordSum [b]=b.toNat := rfl

@[simp] theorem wordSum_cons_cons (lo hi : UInt8) (tail : List UInt8) :
    wordSum (lo::hi::tail)=lo.toNat+256*hi.toNat+wordSum tail := rfl

/-- One word contributes less than two to the sixteenth. -/
theorem wordSum_le (xs : List UInt8) : wordSum xs≤65535*((xs.length+1)/2) := by
  induction xs using wordSum.induct with
  | case1 => simp only [wordSum_nil,Nat.zero_le]
  | case2 b =>
    have hb := b.toNat_lt
    simp only [wordSum_singleton,List.length_singleton]
    omega
  | case3 lo hi tail ih =>
    have hlo := lo.toNat_lt
    have hhi := hi.toNat_lt
    simp only [wordSum_cons_cons,List.length_cons]
    omega

/-- The representative of a residue modulo 65535 that folding leaves: zero
only for zero itself, and 65535 for every other multiple. -/
def canonical (n : ℕ) : ℕ := if n=0 then 0 else (n-1)%65535+1

@[simp] theorem canonical_zero : canonical 0=0 := rfl

/-- A canonical representative fits sixteen bits. -/
theorem canonical_le (n : ℕ) : canonical n≤65535 := by
  unfold canonical
  split <;> omega

/-- A sum that already fits sixteen bits is its own representative. -/
theorem canonical_of_le {n : ℕ} (h : n≤65535) : canonical n=n := by
  unfold canonical
  split <;> omega

/-- Folding one carry out of the upper half keeps the representative. -/
theorem canonical_fold (n : ℕ) : canonical (n%65536+n/65536)=canonical n := by
  unfold canonical
  split <;> split <;> omega

/-- Partial sums may be folded before the rest is added. -/
theorem canonical_add (m n : ℕ) : canonical (canonical m+n)=canonical (m+n) := by
  unfold canonical
  split <;> split <;> split <;> omega

/-- The full sixteen-bit word is reached exactly by the positive multiples. -/
theorem canonical_eq_max {n : ℕ} : canonical n=65535 ↔ n≠0 ∧ n%65535=0 := by
  unfold canonical
  split <;> omega

/-- A block that carries the complement of its own representative in a field
that was zero before sums to the full word. -/
theorem canonical_complement {n : ℕ} (h : n≠0) :
    canonical (n+(65535-canonical n))=65535 := by
  rw [canonical_eq_max]
  unfold canonical
  rw [if_neg h]
  omega

end AndroidPlatform.OnesComplement
