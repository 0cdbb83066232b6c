import Mathlib.Data.Finset.Insert
import Mathlib.Data.Set.Basic

/-!
# Depth-first traversals that mark what they enter

A recursive traversal marks a node when it enters it and then follows the
edges out of it, in any order. What it has marked in the end is described
without the order: nothing is unmarked, everything newly marked has all its
successors marked, and nothing is marked that the start does not lead to.
Two traversals from the same start with nothing marked hence agree.
-/

namespace AndroidPlatform.MarkedTraversal

variable {α : Type*} {succ : α → List α}

/-- A traversal from the given nodes turns the first set of marks into the second. -/
structure Visits (succ : α → List α) (start : List α) (marked marked' : Finset α) : Prop where
  /-- No mark is taken back. -/
  mono : ∀ x∈marked, x∈marked'
  /-- The nodes it starts from are marked. -/
  start_mem : ∀ x∈start, x∈marked'
  /-- It follows every edge out of a node it has marked. -/
  closed : ∀ x∈marked', x∉marked → ∀ y∈succ x, y∈marked'
  /-- It stays within every closed set that holds the start and the old marks. -/
  least : ∀ C : Set α, (∀ x∈marked, x∈C) → (∀ x∈start, x∈C) →
    (∀ x∈C, ∀ y∈succ x, y∈C) → ∀ x∈marked', x∈C

/-- A traversal that starts at marked nodes only does nothing. -/
theorem Visits.of_marked {start : List α} {marked : Finset α} (h : ∀ x∈start, x∈marked) :
    Visits succ start marked marked :=
  ⟨fun _ hx => hx,h,fun _ hx hnot => absurd hx hnot,fun _ hC _ _ => hC⟩

/-- Two traversals one after the other. -/
theorem Visits.append {s t : List α} {m m' m'' : Finset α} (h : Visits succ s m m')
    (h' : Visits succ t m' m'') : Visits succ (s++t) m m'' := by
  refine ⟨fun x hx => h'.mono x (h.mono x hx),?_,?_,?_⟩
  · intro x hx
    rcases List.mem_append.mp hx with hx | hx
    · exact h'.mono x (h.start_mem x hx)
    · exact h'.start_mem x hx
  · intro x hx hnot y hy
    by_cases hold : x∈m'
    · exact h'.mono y (h.closed x hold hnot y hy)
    · exact h'.closed x hx hold y hy
  · intro C hm hstart hC
    refine h'.least C ?_ (fun x hx => hstart x (List.mem_append_right s hx)) hC
    exact h.least C hm (fun x hx => hstart x (List.mem_append_left t hx)) hC

/-- Entering an unmarked node marks it and traverses from its successors. -/
theorem Visits.enter [DecidableEq α] {p : α} {start : List α} {m m' : Finset α}
    (hstart : ∀ x, x∈start ↔ x∈succ p) (h : Visits succ start (insert p m) m') :
    Visits succ [p] m m' := by
  refine ⟨fun x hx => h.mono x (Finset.mem_insert_of_mem hx),?_,?_,?_⟩
  · intro x hx
    rw [List.mem_singleton.mp hx]
    exact h.mono p (Finset.mem_insert_self p m)
  · intro x hx hnot y hy
    by_cases hp : x=p
    · rw [hp] at hy
      exact h.start_mem y ((hstart y).mpr hy)
    · refine h.closed x hx ?_ y hy
      rw [Finset.mem_insert]
      exact fun hor => hor.elim hp hnot
  · intro C hm hroot hC
    have hp : p∈C := hroot p (List.mem_singleton_self p)
    refine h.least C ?_ (fun x hx => hC p hp x ((hstart x).mp hx)) hC
    intro x hx
    rcases Finset.mem_insert.mp hx with hx | hx
    · rwa [hx]
    · exact hm x hx

/-- With nothing marked before, the marks are closed under the edges. -/
theorem Visits.closed_of_empty {start : List α} {m : Finset α} (h : Visits succ start ∅ m) :
    ∀ x∈m, ∀ y∈succ x, y∈m :=
  fun x hx => h.closed x hx (Finset.notMem_empty x)

/-- Two traversals of the same graph from the same node mark the same nodes. -/
theorem Visits.unique {start : List α} {m m' : Finset α} (h : Visits succ start ∅ m)
    (h' : Visits succ start ∅ m') : m=m' := by
  apply Finset.Subset.antisymm
  · exact fun x hx => h.least {y | y∈m'} (by simp) h'.start_mem h'.closed_of_empty x hx
  · exact fun x hx => h'.least {y | y∈m} (by simp) h.start_mem h.closed_of_empty x hx

end AndroidPlatform.MarkedTraversal
