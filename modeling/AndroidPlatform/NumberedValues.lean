import Mathlib.Logic.Function.Basic
import Mathlib.Data.Nat.Notation

/-!
# Numbers for values

A value is an operation on values that have numbers already, so that a table
from operations to numbers describes values of any depth. What the numbers
stand for is then fixed by the table, and a new number may be handed out
without a change to the old ones. Zero is the number of what is not known.
-/

namespace AndroidPlatform.NumberedValues

variable {ν V : Type*}

/-- The operations: the numbers they refer to, and what they mean when it is
known what those stand for. -/
structure Operations (ν V : Type*) where
  /-- The numbers of the operands. -/
  operands : ν → List ℕ
  /-- The value. -/
  meaning : (ℕ → Option V) → ν → Option V
  /-- Only the operands matter. -/
  congr : ∀ den den' n, (∀ w∈operands n, den w=den' w) → meaning den n=meaning den' n

/-- The numbers up to the last one stand for what the table says of them. -/
structure Describes (ops : Operations ν V) (table : ν → ℕ → Prop) (last : ℕ)
    (den : ℕ → Option V) : Prop where
  /-- A number is handed out behind its operands. -/
  bounded : ∀ n v, table n v → v≠0 ∧ v ≤ last ∧ ∀ w∈ops.operands n, w ≤ last
  /-- It stands for the value of its operation if the operands are known. -/
  meant : ∀ n v, table n v → (∀ w∈ops.operands n, w≠0) → den v=ops.meaning den n

/-- Nothing is said differently about the numbers up to the last one. -/
def Extends (last : ℕ) (den den' : ℕ → Option V) : Prop := ∀ v, v ≤ last → den' v=den v

theorem Extends.refl (last : ℕ) (den : ℕ → Option V) : Extends last den den := fun _ _ => rfl

theorem Extends.trans {last last' : ℕ} {den den' den'' : ℕ → Option V}
    (h : Extends last den den') (h' : Extends last' den' den'') (hle : last ≤ last') :
    Extends last den den'' :=
  fun v hv => (h' v (Nat.le_trans hv hle)).trans (h v hv)

variable {ops : Operations ν V} {table : ν → ℕ → Prop} {last : ℕ} {den : ℕ → Option V}

theorem describes_empty (ops : Operations ν V) (den : ℕ → Option V) :
    Describes ops (fun _ _ => False) 0 den :=
  ⟨fun _ _ h => h.elim,fun _ _ h => h.elim⟩

/-- The next number may be given to an operation on numbers that are there. -/
theorem Describes.insert (h : Describes ops table last den) {n : ν}
    (hn : ∀ w∈ops.operands n, w ≤ last) :
    let den' := Function.update den (last+1) (ops.meaning den n)
    Extends last den den' ∧ den' (last+1)=ops.meaning den' n ∧
      Describes ops (fun m v => table m v ∨ m=n ∧ v=last+1) (last+1) den' := by
  intro den'
  have hext : Extends last den den' := fun v hv => Function.update_of_ne (by omega) _ _
  have hnew : den' (last+1)=ops.meaning den' n := by
    rw [show den' (last+1)=ops.meaning den n from Function.update_self _ _ _]
    exact ops.congr _ _ n fun w hw => (hext w (hn w hw)).symm
  refine ⟨hext,hnew,fun m v hm => ?_,fun m v hm hknown => ?_⟩
  · rcases hm with hm | ⟨rfl,rfl⟩
    · obtain ⟨hpos,hle,hops⟩ := h.bounded m v hm
      exact ⟨hpos,by omega,fun w hw => Nat.le_succ_of_le (hops w hw)⟩
    · exact ⟨Nat.succ_ne_zero last,Nat.le_refl _,fun w hw => Nat.le_succ_of_le (hn w hw)⟩
  · rcases hm with hm | ⟨rfl,rfl⟩
    · obtain ⟨-,hle,hops⟩ := h.bounded m v hm
      rw [hext v hle,h.meant m v hm hknown]
      exact ops.congr _ _ m fun w hw => (hext w (hops w hw)).symm
    · exact hnew

end AndroidPlatform.NumberedValues
