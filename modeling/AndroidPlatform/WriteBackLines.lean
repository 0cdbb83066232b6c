import Mathlib.Data.List.Range
import Mathlib.Logic.Function.Basic
import Mathlib.Data.Nat.Basic

/-!
# Write-back lines over a backing store

A store of values at natural positions is kept in two places: a backing store
and a family of lines, each of which covers a run of positions. Coherence says
what the two mean together: a line holds what the store holds, and where no
dirty line covers a position the backing store holds it. The rules say which
moves of a cache keep this: writing a line back, dropping a clean one, loading
a new one and storing through a line.
-/

namespace AndroidPlatform.WriteBackLines

variable {β ι : Type*}

/-- The values of a store at `n` positions from `a` on. -/
def slice (store : ℕ → β) (a n : ℕ) : List β := (List.range n).map fun i => store (a+i)

/-- Overwrite a store from position `a` on. -/
def patch (store : ℕ → β) (a : ℕ) (values : List β) : ℕ → β := fun i =>
  if i<a then store i else (values[i-a]?).getD (store i)

@[simp] theorem length_slice (store : ℕ → β) (a n : ℕ) : (slice store a n).length=n := by
  simp [slice]

@[simp] theorem slice_zero (store : ℕ → β) (a : ℕ) : slice store a 0=[] := rfl

theorem slice_congr {s t : ℕ → β} {a n : ℕ} (h : ∀ i, a ≤ i → i<a+n → s i=t i) :
    slice s a n=slice t a n := by
  apply List.map_congr_left
  intro i hi
  exact h _ (by omega) (by have h := List.mem_range.mp hi; omega)

theorem eq_of_slice {s t : ℕ → β} {a n : ℕ} (h : slice s a n=slice t a n) {i : ℕ} (hi : a ≤ i)
    (hn : i<a+n) : s i=t i := by
  have hmap := List.map_inj_left.mp h (i-a) (List.mem_range.mpr (by omega))
  rwa [Nat.add_sub_cancel' hi] at hmap

theorem slice_add (store : ℕ → β) (a m n : ℕ) :
    slice store a (m+n)=slice store a m++slice store (a+m) n := by
  simp only [slice,List.range_add,List.map_append,List.map_map]
  congr 1
  apply List.map_congr_left
  intro i _
  simp only [Function.comp_apply,Nat.add_assoc]

theorem patch_before (store : ℕ → β) {a i : ℕ} (values : List β) (h : i<a) :
    patch store a values i=store i := by
  simp [patch,h]

theorem patch_behind (store : ℕ → β) {a i : ℕ} (values : List β) (h : a+values.length ≤ i) :
    patch store a values i=store i := by
  have hi : ¬ i<a := by omega
  have hnone : values[i-a]?=none := List.getElem?_eq_none (by omega)
  simp [patch,hi,hnone]

theorem patch_outside (store : ℕ → β) {a i : ℕ} (values : List β)
    (h : ¬(a ≤ i ∧ i<a+values.length)) : patch store a values i=store i := by
  by_cases hbefore : i<a
  · exact patch_before _ _ hbefore
  · exact patch_behind _ _ (by
      have hnot : ¬ i<a+values.length := fun hlt => h ⟨by omega,hlt⟩
      omega)

theorem patch_inside (store : ℕ → β) {a i : ℕ} (values : List β) (h : a ≤ i)
    (hi : i-a<values.length) : patch store a values i=values[i-a] := by
  have hnot : ¬ i<a := by omega
  simp [patch,hnot,List.getElem?_eq_getElem hi]

@[simp] theorem patch_nil (store : ℕ → β) (a : ℕ) : patch store a []=store := by
  funext i
  simp [patch]

/-- What was written is read back. -/
theorem slice_patch_self (store : ℕ → β) (a : ℕ) (values : List β) :
    slice (patch store a values) a values.length=values := by
  apply List.ext_getElem
  · simp
  · intro i hi hvalues
    simp only [slice,List.getElem_map,List.getElem_range]
    rw [patch_inside _ _ (Nat.le_add_right a i) (by omega)]
    congr 1
    omega

/-- One write of a long run is a write of its parts. -/
theorem patch_append (store : ℕ → β) (a : ℕ) (first second : List β) :
    patch store a (first++second)=patch (patch store a first) (a+first.length) second := by
  funext i
  by_cases ha : i<a
  · rw [patch_before _ _ ha,patch_before _ _ (by omega),patch_before _ _ ha]
  · by_cases hf : i<a+first.length
    · rw [patch_before _ second hf,patch_inside _ first (by omega) (by omega),
        patch_inside _ (first++second) (by omega) (by simp; omega),
        List.getElem_append_left (by omega)]
    · have hsub : i-(a+first.length)=i-a-first.length := by omega
      have hget : (first++second)[i-a]?=second[i-a-first.length]? :=
        List.getElem?_append_right (by omega)
      rw [patch,if_neg ha,hget,patch,if_neg hf,hsub,patch_behind _ first (by omega)]

/-- A run of positions held outside the backing store. -/
structure Line (β : Type*) where
  /-- The first position. -/
  start : ℕ
  /-- The values from there on. -/
  values : List β
  /-- The backing store may lag behind. -/
  dirty : Bool

/-- The positions of a line. -/
def Line.Covers (line : Line β) (i : ℕ) : Prop :=
  line.start ≤ i ∧ i<line.start+line.values.length

/-- What lines and backing store mean together. -/
structure Coherent (store backing : ℕ → β) (lines : ι → Option (Line β)) : Prop where
  /-- A line holds what the store holds. -/
  holds : ∀ k line, lines k=some line →
    slice store line.start line.values.length=line.values
  /-- Behind no dirty line the backing store is up to date. -/
  backed : ∀ i, (∀ k line, lines k=some line → line.dirty=true → ¬line.Covers i) →
    backing i=store i
  /-- No position has two lines. -/
  apart : ∀ k line m other, k≠m → lines k=some line → lines m=some other →
    ∀ i, line.Covers i → ¬other.Covers i

section Rules

variable [DecidableEq ι] {store backing : ℕ → β} {lines : ι → Option (Line β)}

omit [DecidableEq ι] in
theorem coherent_empty (store : ℕ → β) : Coherent store store fun _ : ι => none :=
  ⟨fun _ _ h => absurd h (by simp),fun _ _ => rfl,fun _ _ _ _ _ h => absurd h (by simp)⟩

omit [DecidableEq ι] in
/-- Without dirty lines the backing store is the store. -/
theorem Coherent.settled (h : Coherent store backing lines)
    (hclean : ∀ k line, lines k=some line → line.dirty=false) : backing=store := by
  funext i
  apply h.backed i
  intro k line hk hdirty
  rw [hclean k line hk] at hdirty
  cases hdirty

omit [DecidableEq ι] in
/-- Positions that no line covers are read from the backing store. -/
theorem Coherent.slice_backing (h : Coherent store backing lines) {a n : ℕ}
    (hfree : ∀ k line, lines k=some line → ∀ i, line.Covers i → ¬(a ≤ i ∧ i<a+n)) :
    slice backing a n=slice store a n := by
  apply slice_congr
  intro i hi hn
  apply h.backed i
  intro k line hk _ hcovers
  exact hfree k line hk i hcovers ⟨hi,hn⟩

/-- The lines of an updated family. -/
theorem update_some {k m : ι} {line other : Line β}
    (h : Function.update lines k (some line) m=some other) :
    m=k ∧ other=line ∨ m≠k ∧ lines m=some other := by
  by_cases hm : m=k
  · subst hm
    rw [Function.update_self,Option.some.injEq] at h
    exact .inl ⟨rfl,h.symm⟩
  · rw [Function.update_of_ne hm] at h
    exact .inr ⟨hm,h⟩

theorem update_none {k m : ι} {other : Line β}
    (h : Function.update lines k none m=some other) : m≠k ∧ lines m=some other := by
  by_cases hm : m=k
  · subst hm
    rw [Function.update_self] at h
    cases h
  · rw [Function.update_of_ne hm] at h
    exact ⟨hm,h⟩

/-- A line may be written to the backing store, and is then clean. -/
theorem Coherent.writeBack (h : Coherent store backing lines) {k : ι} {line : Line β}
    (hk : lines k=some line) :
    Coherent store (patch backing line.start line.values)
      (Function.update lines k (some { line with dirty:=false })) where
  holds m other hm := by
    rcases update_some hm with ⟨-,rfl⟩ | ⟨-,hm⟩
    · exact h.holds k line hk
    · exact h.holds m other hm
  backed i hi := by
    by_cases hcovers : line.Covers i
    · have hself := slice_patch_self backing line.start line.values
      exact eq_of_slice (hself.trans (h.holds k line hk).symm) hcovers.1 hcovers.2
    · rw [patch_outside _ _ hcovers]
      apply h.backed i
      intro m other hm hdirty
      by_cases hmk : m=k
      · subst hmk
        rw [hk,Option.some.injEq] at hm
        exact hm ▸ hcovers
      · exact hi m other (by rw [Function.update_of_ne hmk,hm]) hdirty
  apart m other l third hne hm hl := by
    rcases update_some hm with ⟨rfl,rfl⟩ | ⟨-,hold⟩ <;>
      rcases update_some hl with ⟨rfl,rfl⟩ | ⟨-,hnew⟩
    · exact absurd rfl hne
    · exact h.apart _ line l third hne hk hnew
    · exact h.apart m other _ line hne hold hk
    · exact h.apart m other l third hne hold hnew

/-- A clean line may be forgotten. -/
theorem Coherent.drop (h : Coherent store backing lines) {k : ι}
    (hclean : ∀ line, lines k=some line → line.dirty=false) :
    Coherent store backing (Function.update lines k none) where
  holds m other hm := h.holds m other (update_none hm).2
  backed i hi := by
    apply h.backed i
    intro m other hm hdirty
    by_cases hmk : m=k
    · subst hmk
      rw [hclean other hm] at hdirty
      cases hdirty
    · exact hi m other (by rw [Function.update_of_ne hmk,hm]) hdirty
  apart m other l third hne hm hl :=
    h.apart m other l third hne (update_none hm).2 (update_none hl).2

/-- An empty place may take a line with what the store holds where no other
line is. -/
theorem Coherent.load (h : Coherent store backing lines) {k : ι} (hk : lines k=none)
    (line : Line β) (hvalues : slice store line.start line.values.length=line.values)
    (hfree : ∀ m other, lines m=some other → ∀ i, other.Covers i → ¬line.Covers i) :
    Coherent store backing (Function.update lines k (some line)) where
  holds m other hm := by
    rcases update_some hm with ⟨-,rfl⟩ | ⟨-,hm⟩
    · exact hvalues
    · exact h.holds m other hm
  backed i hi := by
    apply h.backed i
    intro m other hm hdirty
    have hmk : m≠k := by
      intro hmk
      rw [hmk,hk] at hm
      cases hm
    exact hi m other (by rw [Function.update_of_ne hmk,hm]) hdirty
  apart m other l third hne hm hl i hother hthird := by
    rcases update_some hm with ⟨rfl,rfl⟩ | ⟨-,hold⟩ <;>
      rcases update_some hl with ⟨rfl,rfl⟩ | ⟨-,hnew⟩
    · exact hne rfl
    · exact hfree l third hnew i hthird hother
    · exact hfree m other hold i hother hthird
    · exact h.apart m other l third hne hold hnew i hother hthird

/-- The store may be written through a line, which is dirty unless the backing
store is written as well. -/
theorem Coherent.overwrite (h : Coherent store backing lines) {k : ι} {line : Line β}
    (hk : lines k=some line) {values : List β} (hlength : values.length=line.values.length)
    {after : ℕ → β} {dirty : Bool}
    (hafter : after=backing ∧ dirty=true ∨ after=patch backing line.start values) :
    Coherent (patch store line.start values) after
      (Function.update lines k (some { start:=line.start,values:=values,dirty:=dirty })) where
  holds m other hm := by
    rcases update_some hm with ⟨-,rfl⟩ | ⟨hmk,hm⟩
    · exact slice_patch_self _ _ _
    · have hapart := h.apart m other k line hmk hm hk
      have hsame : slice (patch store line.start values) other.start other.values.length=
          slice store other.start other.values.length := by
        apply slice_congr
        intro i hi hn
        exact patch_outside _ _ fun hin => hapart i ⟨hi,hn⟩ ⟨hin.1,hlength ▸ hin.2⟩
      rw [hsame,h.holds m other hm]
  backed i hi := by
    by_cases hcovers : line.Covers i
    · have hinside : i-line.start<values.length := by
        have hend := hcovers.2
        have hle := hcovers.1
        omega
      rcases hafter with ⟨-,rfl⟩ | rfl
      · have hend : i<line.start+values.length := hlength ▸ hcovers.2
        have hnot := hi k { start:=line.start,values:=values,dirty:=true }
          (Function.update_self _ _ _) rfl
        exact absurd ⟨hcovers.1,hend⟩ hnot
      · rw [patch_inside _ _ hcovers.1 hinside,patch_inside _ _ hcovers.1 hinside]
    · have hout (s : ℕ → β) : patch s line.start values i=s i :=
        patch_outside _ _ fun hin => hcovers ⟨hin.1,hlength ▸ hin.2⟩
      have hback : after i=backing i := by
        rcases hafter with ⟨rfl,-⟩ | rfl
        · rfl
        · exact hout backing
      rw [hback,hout store]
      apply h.backed i
      intro m other hm hdirty
      by_cases hmk : m=k
      · subst hmk
        rw [hk,Option.some.injEq] at hm
        exact hm ▸ hcovers
      · exact hi m other (by rw [Function.update_of_ne hmk,hm]) hdirty
  apart m other l third hne hm hl i hother hthird := by
    have hcover : Line.Covers { start:=line.start,values:=values,dirty:=dirty } i →
        line.Covers i := fun hc => ⟨hc.1,hlength ▸ hc.2⟩
    rcases update_some hm with ⟨rfl,rfl⟩ | ⟨-,hold⟩ <;>
      rcases update_some hl with ⟨rfl,rfl⟩ | ⟨-,hnew⟩
    · exact hne rfl
    · exact h.apart _ line l third hne hk hnew i (hcover hother) hthird
    · exact h.apart m other _ line hne hold hk i hother (hcover hthird)
    · exact h.apart m other l third hne hold hnew i hother hthird

/-- New values may be stored in an empty place where no other line is. -/
theorem Coherent.insert (h : Coherent store backing lines) {k : ι} (hk : lines k=none)
    (start : ℕ) (values : List β)
    (hfree : ∀ m other, lines m=some other → ∀ i, other.Covers i →
      ¬(start ≤ i ∧ i < start+values.length)) {after : ℕ → β} {dirty : Bool}
    (hafter : after=backing ∧ dirty=true ∨ after=patch backing start values) :
    Coherent (patch store start values) after
      (Function.update lines k (some ⟨start,values,dirty⟩)) := by
  have hlength : (slice store start values.length).length=values.length := length_slice _ _ _
  have hload := h.load hk ⟨start,slice store start values.length,false⟩ (by rw [hlength])
    fun m other hm i hcovers hnew => hfree m other hm i hcovers ⟨hnew.1,hlength ▸ hnew.2⟩
  have hover := hload.overwrite (Function.update_self _ _ _) hlength.symm hafter
  rwa [Function.update_idem] at hover

end Rules

end AndroidPlatform.WriteBackLines
