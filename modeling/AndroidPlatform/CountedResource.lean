import Mathlib.Algebra.GroupWithZero.Nat
import Mathlib.Algebra.Order.BigOperators.Group.List
import Mathlib.Algebra.Order.Group.Nat
import Mathlib.Data.List.Perm.Subperm
import Mathlib.Data.Nat.Notation
import Mathlib.Tactic.Common

/-!
# Programs that take from a limited resource

A program changes a state and may end with an error. It takes from a resource
of which the state says how much is used, for instance the entries of an array
that are handed out one after the other. A bound on what a program takes is
found from the bounds of its parts. As long as the bound stays below the limit
the program keeps its invariant and avoids the errors that a missing entry
would cause.
-/

namespace AndroidPlatform.CountedResource

variable {σ ε α β : Type}

/-- A program with a state and errors; an error keeps the state. -/
abbrev Run (σ ε α : Type) := ExceptT ε (StateM σ) α

/-- The result of a program and the state behind it. -/
def exec (m : Run σ ε α) (s : σ) : Except ε α×σ := m s

@[simp] theorem exec_pure (a : α) (s : σ) : exec (pure a : Run σ ε α) s=(.ok a,s) := rfl

@[simp] theorem exec_modify (f : σ → σ) (s : σ) :
    exec (modify f : Run σ ε PUnit) s=(.ok ⟨⟩,f s) := rfl

theorem exec_bind (m : Run σ ε α) (f : α → Run σ ε β) (s : σ) :
    exec (m >>= f) s=
      match exec m s with
      | (.ok a,s') => exec (f a) s'
      | (.error e,s') => (.error e,s') := by
  simp only [exec,bind,ExceptT.bind,ExceptT.mk,StateT.bind,ExceptT.bindCont]
  rcases m s with ⟨_ | _,_⟩ <;> rfl

/-- The resource: what the state has to keep, how much is used, how much there
is, and which errors must not occur. -/
structure Budget (σ ε : Type) where
  /-- The invariant of the state. -/
  inv : σ → Prop
  /-- How much is used. -/
  used : σ → ℕ
  /-- How much there is. -/
  limit : ℕ
  /-- The errors to avoid. -/
  bad : ε → Prop

/-- The value of a result is as it should be, and its error is not to be avoided. -/
def Budget.Fine (B : Budget σ ε) (post : α → Prop) : Except ε α → Prop
  | .ok a => post a
  | .error e => ¬B.bad e

/-- While so much is left, the program takes at most so much, keeps the
invariant, and ends as it should. -/
def Budget.Spends (B : Budget σ ε) (n : ℕ) (m : Run σ ε α) (post : α → Prop) : Prop :=
  ∀ s, B.inv s → B.used s+n<B.limit →
    B.inv (exec m s).2 ∧ B.used (exec m s).2≤B.used s+n ∧ B.Fine post (exec m s).1

variable {B : Budget σ ε} {n k : ℕ} {post : α → Prop}

theorem spends_pure {a : α} (h : post a) : B.Spends n (pure a : Run σ ε α) post :=
  fun _ hs _ => ⟨hs,Nat.le_add_right _ _,h⟩

theorem spends_throw {e : ε} (h : ¬B.bad e) : B.Spends n (throw e : Run σ ε α) post :=
  fun _ hs _ => ⟨hs,Nat.le_add_right _ _,h⟩

/-- A program and what follows it take what both take. -/
theorem spends_bind {m : Run σ ε α} {f : α → Run σ ε β} {post' : β → Prop}
    (hm : B.Spends n m post) (hf : ∀ a, post a → B.Spends k (f a) post') :
    B.Spends (n+k) (m >>= f) post' := by
  intro s hs hlt
  obtain ⟨hinv,hused,hfine⟩ := hm s hs (by omega)
  rw [exec_bind]
  rcases hrun : exec m s with ⟨result,s'⟩
  rw [hrun] at hinv hused hfine
  cases result with
  | error e => exact ⟨hinv,by dsimp only at hused ⊢; omega,hfine⟩
  | ok a =>
    dsimp only at hinv hused ⊢
    obtain ⟨hinv',hused',hfine'⟩ := hf a hfine s' hinv (by omega)
    exact ⟨hinv',by omega,hfine'⟩

/-- What takes nothing may come first. -/
theorem spends_free {m : Run σ ε α} {f : α → Run σ ε β} {post' : β → Prop}
    (hm : B.Spends 0 m post) (hf : ∀ a, post a → B.Spends n (f a) post') :
    B.Spends n (m >>= f) post' := by
  have h := spends_bind hm hf
  rwa [Nat.zero_add] at h

/-- A bound may be raised, and what is known of the value be weakened. -/
theorem Budget.Spends.mono {m : Run σ ε α} {post' : α → Prop} (h : B.Spends n m post)
    (hle : n≤k) (hpost : ∀ a, post a → post' a) : B.Spends k m post' := by
  intro s hs hlt
  obtain ⟨hinv,hused,hfine⟩ := h s hs (by omega)
  refine ⟨hinv,by omega,?_⟩
  rcases hrun : (exec m s).1 with e | a
  · rw [hrun] at hfine
    exact hfine
  · rw [hrun] at hfine
    exact hpost a hfine

/-- A program that may go on two ways. -/
theorem spends_ite {c : Prop} [Decidable c] {m m' : Run σ ε α} (h : c → B.Spends n m post)
    (h' : ¬c → B.Spends n m' post) : B.Spends n (if c then m else m') post := by
  by_cases hc : c
  · rw [if_pos hc]
    exact h hc
  · rw [if_neg hc]
    exact h' hc

/-- A loop over a list takes what its rounds take. -/
theorem spends_foldlM {f : α → β → Run σ ε α} {cost : β → ℕ} {l : List β}
    (hf : ∀ a, ∀ x∈l, post a → B.Spends (cost x) (f a x) post) {a : α} (ha : post a) :
    B.Spends (l.map cost).sum (l.foldlM f a) post := by
  induction l generalizing a with
  | nil =>
    rw [List.foldlM_nil]
    exact spends_pure ha
  | cons x l ih =>
    rw [List.foldlM_cons,List.map_cons,List.sum_cons]
    exact spends_bind (hf a x List.mem_cons_self ha) fun a' ha' =>
      ih (fun b y hy hb => hf b y (List.mem_cons_of_mem x hy) hb) ha'

/-- A loop over members of a list, each at most once, takes no more than one over
the whole list. -/
theorem spends_foldlM_of_nodup {f : α → β → Run σ ε α} {cost : β → ℕ} {l l' : List β}
    (hl : l.Nodup) (hsub : ∀ x∈l, x∈l')
    (hf : ∀ a, ∀ x∈l, post a → B.Spends (cost x) (f a x) post) {a : α} (ha : post a) :
    B.Spends (l'.map cost).sum (l.foldlM f a) post := by
  obtain ⟨part,hperm,hpart⟩ := hl.subperm hsub
  have hsum : (l.map cost).sum≤(l'.map cost).sum := by
    rw [←(hperm.map cost).sum_eq]
    exact (hpart.map cost).sum_le_sum fun x _ => Nat.zero_le x
  exact (spends_foldlM hf ha).mono hsum fun _ h => h

/-- A program that stays below the limit, whatever is used before it. -/
def Budget.Safe (B : Budget σ ε) (m : Run σ ε α) (post : α → Prop) : Prop :=
  ∀ s, B.inv s → B.used s<B.limit →
    B.inv (exec m s).2 ∧ B.used (exec m s).2<B.limit ∧ B.Fine post (exec m s).1

/-- What takes nothing is safe. -/
theorem Budget.Spends.safe {m : Run σ ε α} (h : B.Spends 0 m post) : B.Safe m post := by
  intro s hs hlt
  obtain ⟨hinv,hused,hfine⟩ := h s hs hlt
  exact ⟨hinv,by omega,hfine⟩

/-- A safe program and a safe one behind it. -/
theorem safe_bind {m : Run σ ε α} {f : α → Run σ ε β} {post' : β → Prop}
    (hm : B.Safe m post) (hf : ∀ a, post a → B.Safe (f a) post') : B.Safe (m >>= f) post' := by
  intro s hs hlt
  obtain ⟨hinv,hused,hfine⟩ := hm s hs hlt
  rw [exec_bind]
  rcases hrun : exec m s with ⟨result,s'⟩
  rw [hrun] at hinv hused hfine
  cases result with
  | error e => exact ⟨hinv,hused,hfine⟩
  | ok a => exact hf a hfine s' hinv hused

/-- What begins by giving everything back may take all that there is. -/
theorem Budget.Spends.safe_of_reset {f : σ → σ} {m : Run σ ε α} (h : B.Spends n m post)
    (hreset : ∀ s, B.inv s → B.inv (f s) ∧ B.used (f s)=0) (hn : n<B.limit) :
    B.Safe (modify f >>= fun _ => m) post := by
  intro s hs _
  obtain ⟨hinv,hzero⟩ := hreset s hs
  obtain ⟨hinv',hused,hfine⟩ := h (f s) hinv (by omega)
  rw [exec_bind,exec_modify]
  exact ⟨hinv',by dsimp only; omega,hfine⟩

end AndroidPlatform.CountedResource
