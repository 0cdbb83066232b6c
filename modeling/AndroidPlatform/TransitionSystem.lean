import Mathlib.Data.Option.Basic

/-!
# Transition systems with labelled, partial steps

A system is a partial step function, where a missing result means that the
action is not enabled, and a restriction on the actions that its environment
may take. Safety properties of all interleavings follow from one rule: what
the start satisfies and every allowed step preserves holds in every reachable
state.
-/

namespace AndroidPlatform.TransitionSystem

variable {σ α : Type*} {next : σ → α → Option σ} {allowed : σ → α → Prop} {start : σ}

/-- States reached from the start by enabled actions that are allowed. -/
inductive Reachable (next : σ → α → Option σ) (allowed : σ → α → Prop) (start : σ) : σ → Prop
  | start : Reachable next allowed start start
  | step {s t : σ} {a : α} : Reachable next allowed start s → allowed s a → next s a=some t →
      Reachable next allowed start t

/-- The invariant rule. A step starts in a reachable state, so invariants that
are already proved may be used there. -/
theorem Reachable.invariant {Inv : σ → Prop} (h0 : Inv start)
    (hstep : ∀ s t a, Reachable next allowed start s → Inv s → allowed s a →
      next s a=some t → Inv t) {s : σ}
    (h : Reachable next allowed start s) : Inv s := by
  induction h with
  | start => exact h0
  | step hs ha hn ih => exact hstep _ _ _ hs ih ha hn

/-- The state after a list of actions, if each is enabled and allowed. -/
def runActions (next : σ → α → Option σ) (allowed : σ → α → Bool) : σ → List α → Option σ
  | s,[] => some s
  | s,a::rest =>
    if allowed s a=true then (next s a).bind fun t => runActions next allowed t rest else none

/-- Executed action lists lead to reachable states. -/
theorem reachable_of_runActions {allowed : σ → α → Bool} {s t : σ} {actions : List α}
    (hs : Reachable next (fun s a => allowed s a=true) start s)
    (h : runActions next allowed s actions=some t) :
    Reachable next (fun s a => allowed s a=true) start t := by
  induction actions generalizing s with
  | nil =>
    rw [runActions,Option.some.injEq] at h
    exact h ▸ hs
  | cons a rest ih =>
    rw [runActions] at h
    split at h
    · next ha =>
      obtain ⟨u,hu,hrest⟩ := Option.bind_eq_some_iff.mp h
      exact ih (hs.step ha hu) hrest
    · cases h

end AndroidPlatform.TransitionSystem
