import Mathlib.Data.Fintype.Pigeonhole
import Mathlib.Data.Nat.Nth
import Mathlib.Logic.Relation

/-!
# Halting of deterministic runs

A system that moves by a partial function either halts or goes on for ever. An
endless run over finitely many states comes back to one of them, and a state on
a cycle makes every run that reaches it endless. The last result bounds how
often an endless run can do something that uses up one of finitely many places.
-/

namespace AndroidPlatform.FiniteRuns

variable {σ : Type*} {next : σ → Option σ} {s t : σ}

/-- The state after so many steps, if the system has not halted by then. -/
def after (next : σ → Option σ) : ℕ → σ → Option σ
  | 0,s => some s
  | n+1,s => (after next n s).bind next

/-- The system moves from one state to the other. -/
def Moves (next : σ → Option σ) (s t : σ) : Prop := next s=some t

/-- The first step instead of the last one. -/
theorem after_succ (n : ℕ) (s : σ) :
    after next (n+1) s=(next s).bind (after next n) := by
  induction n with
  | zero =>
    cases h : next s <;> simp [after,h]
  | succ n ih =>
    rw [after,ih]
    cases h : next s with
    | none => rfl
    | some u => rfl

/-- A run in two parts. -/
theorem after_add (m n : ℕ) (s : σ) :
    after next (m+n) s=(after next m s).bind (after next n) := by
  induction n with
  | zero =>
    cases h : after next m s <;> simp [after,h]
  | succ n ih =>
    rw [←Nat.add_assoc,after,ih]
    cases after next m s with
    | none => rfl
    | some u => rfl

/-- A system that does not halt has an endless run. -/
theorem exists_run (h : ∀ n, after next n s≠none) :
    ∃ run : ℕ → σ, (∀ n, after next n s=some (run n)) ∧
      ∀ n, Moves next (run n) (run (n+1)) := by
  choose run hrun using fun n => Option.ne_none_iff_exists'.mp (h n)
  refine ⟨run,hrun,fun n => ?_⟩
  have hstep := hrun (n+1)
  rw [after,hrun n,Option.bind_some] at hstep
  exact hstep

/-- A state that leads back to a state on a cycle has a next one that does. -/
theorem exists_moves_of_transGen (hcycle : Relation.TransGen (Moves next) t t)
    (h : Relation.TransGen (Moves next) s t) :
    ∃ u, Moves next s u ∧ Relation.TransGen (Moves next) u t := by
  obtain ⟨u,hmove,hpath⟩ := Relation.TransGen.head'_iff.mp h
  refine ⟨u,hmove,?_⟩
  rcases Relation.reflTransGen_iff_eq_or_transGen.mp hpath with heq|hpath
  · rw [heq] at hcycle ⊢
    exact hcycle
  · exact hpath

/-- A run that reaches a cycle does not halt. -/
theorem after_ne_none_of_cycle {m : ℕ} (hm : after next m s=some t)
    (hcycle : Relation.TransGen (Moves next) t t) (n : ℕ) : after next n s≠none := by
  have hfrom : ∀ k, ∃ u, after next k t=some u ∧ Relation.TransGen (Moves next) u t := by
    intro k
    induction k with
    | zero => exact ⟨t,rfl,hcycle⟩
    | succ k ih =>
      obtain ⟨u,hu,hpath⟩ := ih
      obtain ⟨v,hmove,hv⟩ := exists_moves_of_transGen hcycle hpath
      exact ⟨v,by rw [after,hu]; exact hmove,hv⟩
  intro hnone
  -- Both counts are compared at their sum.
  have hsum := @after_add _ next n m s
  rw [hnone,Nat.add_comm,after_add,hm] at hsum
  obtain ⟨u,hu,-⟩ := hfrom n
  rw [Option.bind_some,hu] at hsum
  cases hsum

/-- An endless run leads from every state of it to every later one. -/
theorem transGen_of_run {r : σ → σ → Prop} {run : ℕ → σ}
    (h : ∀ n, r (run n) (run (n+1))) {m n : ℕ} (hlt : m < n) :
    Relation.TransGen r (run m) (run n) := by
  induction n, hlt using Nat.le_induction with
  | base => exact Relation.TransGen.single (h m)
  | succ n _ ih => exact ih.tail (h n)

/-- An endless run over finitely many states has a cycle. -/
theorem exists_cycle {r : σ → σ → Prop} {run : ℕ → σ} {κ : Type*} [Finite κ] (key : σ → κ)
    (hkey : ∀ m n, key (run m)=key (run n) → run m=run n)
    (h : ∀ n, r (run n) (run (n+1))) : ∃ n, Relation.TransGen r (run n) (run n) := by
  obtain ⟨m,n,hne,heq⟩ := Finite.exists_ne_map_eq_of_infinite fun n => key (run n)
  have hsame := hkey m n heq
  rcases Nat.lt_or_gt_of_ne hne with hlt|hlt
  · exact ⟨m,by simpa [←hsame] using transGen_of_run h hlt⟩
  · exact ⟨m,by simpa [←hsame] using transGen_of_run h hlt⟩

/-- What takes place at fewer places than it takes to come round happens only
finitely often, if the place determines how often it has happened before. -/
theorem finite_of_places {p : ℕ → Prop} [DecidablePred p] {place : ℕ → ℕ} {m M : ℕ}
    (hm : m < M) (hlt : ∀ k, p k → place k < m)
    (hcount : ∀ j k, p j → p k → place j=place k → Nat.count p j%M=Nat.count p k%M) :
    {k | p k}.Finite := by
  by_contra hinfinite
  have hmem : ∀ i, p (Nat.nth p i) := Nat.nth_mem_of_infinite hinfinite
  let f : Fin (m+1) → Fin m := fun i => ⟨place (Nat.nth p i),hlt _ (hmem i)⟩
  have hinjective : Function.Injective f := by
    intro i j heq
    have hplace : place (Nat.nth p i)=place (Nat.nth p j) := congrArg Fin.val heq
    have hmod := hcount _ _ (hmem i) (hmem j) hplace
    rw [Nat.count_nth_of_infinite hinfinite,Nat.count_nth_of_infinite hinfinite,
      Nat.mod_eq_of_lt (by omega),Nat.mod_eq_of_lt (by omega)] at hmod
    exact Fin.ext hmod
  have hcard := Fintype.card_le_of_injective f hinjective
  rw [Fintype.card_fin,Fintype.card_fin] at hcard
  omega

end AndroidPlatform.FiniteRuns
