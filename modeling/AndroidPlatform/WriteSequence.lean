import Mathlib.Data.List.Induction
import Mathlib.Logic.Function.Basic

/-!
# Sequences of writes to an indexed store

A store is a function from its indices. After a sequence of writes an index
holds the value of the last write to it, or what it held before.
-/

namespace AndroidPlatform.WriteSequence

variable {ι α : Type*} [DecidableEq ι]

/-- Perform the writes of a list in order. -/
def applyWrites (writes : List (ι×α)) (store : ι → α) : ι → α :=
  writes.foldl (fun current write => Function.update current write.1 write.2) store

@[simp] theorem applyWrites_nil (store : ι → α) : applyWrites [] store=store := rfl

theorem applyWrites_append (first second : List (ι×α)) (store : ι → α) :
    applyWrites (first++second) store=applyWrites second (applyWrites first store) := by
  rw [applyWrites,List.foldl_append]
  rfl

/-- An index holds the value of the last write to it. -/
theorem applyWrites_eq_last (writes : List (ι×α)) (store : ι → α) (i : ι) :
    applyWrites writes store i=
      (((writes.filter fun write => write.1=i).getLast?).map Prod.snd).getD (store i) := by
  induction writes using List.reverseRecOn with
  | nil => rfl
  | append_singleton earlier write ih =>
    have hstep : applyWrites (earlier++[write]) store=
        Function.update (applyWrites earlier store) write.1 write.2 := by
      rw [applyWrites_append]
      rfl
    rw [hstep,List.filter_append]
    by_cases hwrite : write.1=i
    · subst hwrite
      simp
    · have hempty : [write].filter (fun w => decide (w.1=i))=[] := by
        simp [hwrite]
      rw [Function.update_of_ne (Ne.symm hwrite),ih,hempty,List.append_nil]

end AndroidPlatform.WriteSequence
