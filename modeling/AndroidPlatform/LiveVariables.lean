import Mathlib.Data.List.Chain
import Mathlib.Logic.Function.Basic

/-!
# Variables that are still read

A variable is live in front of some steps if one of them reads it before any
of them writes it, or if none of them writes it and it is live behind them. A
node of a graph demands a variable if it reads it first or hands the demand of
a successor on. One sweep over the nodes finds what they demand when every
node comes after its successors.
-/

namespace AndroidPlatform.LiveVariables

section Steps

variable {ι α : Type*} (reads writes : ι → α → Prop)

/-- The variables that are live in front of some steps, for those behind them. -/
def LiveBefore (out : α → Prop) : List ι → α → Prop
  | [],a => out a
  | i::l,a => reads i a ∨ ¬writes i a ∧ LiveBefore out l a

/-- The variables that some steps read before they write them. -/
def ReadFirst (l : List ι) (a : α) : Prop := LiveBefore reads writes (fun _ => False) l a

variable {reads writes} {out : α → Prop} {l : List ι} {a : α}

theorem liveBefore_append (l' : List ι) : LiveBefore reads writes out (l++l') a ↔
    LiveBefore reads writes (LiveBefore reads writes out l') l a := by
  induction l with
  | nil => exact Iff.rfl
  | cons i l ih => exact or_congr_right (and_congr_right fun _ => ih)

/-- What is live in front of the steps is read first or passed through. -/
theorem liveBefore_iff : LiveBefore reads writes out l a ↔
    ReadFirst reads writes l a ∨ (∀ i∈l, ¬writes i a) ∧ out a := by
  induction l with
  | nil =>
    simp only [LiveBefore,ReadFirst,List.not_mem_nil,false_imp_iff,implies_true,true_and,false_or]
  | cons i l ih =>
    simp only [LiveBefore,ReadFirst,List.forall_mem_cons] at ih ⊢
    rw [ih]
    tauto

theorem readFirst_append (l' : List ι) : ReadFirst reads writes (l++l') a ↔
    ReadFirst reads writes l a ∨ (∀ i∈l, ¬writes i a) ∧ ReadFirst reads writes l' a :=
  (liveBefore_append l').trans liveBefore_iff

theorem readFirst_singleton {i : ι} : ReadFirst reads writes [i] a ↔ reads i a := by
  simp only [ReadFirst,LiveBefore,and_false,or_false]

/-- Steps that neither write nor read first do not read at all. -/
theorem not_reads_of_not_readFirst (h : ¬ReadFirst reads writes l a) (hw : ∀ i∈l, ¬writes i a) :
    ∀ i∈l, ¬reads i a := by
  induction l with
  | nil => exact fun _ hi => absurd hi List.not_mem_nil
  | cons j l ih =>
    obtain ⟨hj,hl⟩ := List.forall_mem_cons.mp hw
    rw [ReadFirst,LiveBefore,not_or] at h
    refine List.forall_mem_cons.mpr ⟨h.1,ih (fun hr => h.2 ⟨hj,hr⟩) hl⟩

theorem not_readFirst_of_not_reads (h : ∀ i∈l, ¬reads i a) : ¬ReadFirst reads writes l a := by
  induction l with
  | nil => exact id
  | cons j l ih =>
    obtain ⟨hj,hl⟩ := List.forall_mem_cons.mp h
    rw [ReadFirst,LiveBefore,not_or]
    exact ⟨hj,fun hr => ih hl hr.2⟩

end Steps

section Graph

variable {ν : Type*} (succ : ν → List ν) (first keeps : ν → Prop)

/-- A node demands what it reads first, and what it keeps and a successor demands. -/
inductive Demanded : ν → Prop
  /-- The node reads it first. -/
  | here {x : ν} (h : first x) : Demanded x
  /-- A successor demands it. -/
  | later {x y : ν} (h : keeps x) (hy : y∈succ x) (hd : Demanded y) : Demanded x

variable {succ first keeps}

theorem demanded_iff (x : ν) : Demanded succ first keeps x ↔
    first x ∨ keeps x ∧ ∃ y∈succ x, Demanded succ first keeps y := by
  constructor
  · intro h
    cases h with
    | here h => exact .inl h
    | later h hy hd => exact .inr ⟨h,_,hy,hd⟩
  · rintro (h | ⟨h,y,hy,hd⟩)
    · exact .here h
    · exact .later h hy hd

/-- A successor of a node demands a variable if a path from the node leads over nodes that
keep it to one that reads it first. -/
theorem exists_demanded_iff (x : ν) : (∃ y∈succ x, Demanded succ first keeps y) ↔
    ∃ path z, List.IsChain (fun x y => y∈succ x) (x::(path++[z])) ∧ (∀ y∈path, keeps y) ∧
      first z := by
  constructor
  · rintro ⟨y,hy,hd⟩
    induction hd generalizing x with
    | here hfirst =>
      exact ⟨[],_,List.isChain_pair.mpr hy,fun _ hz => absurd hz List.not_mem_nil,hfirst⟩
    | @later y _ hkeeps hnext _ ih =>
      obtain ⟨path,z,hchain,hall,hfirst⟩ := ih y hnext
      refine ⟨y::path,z,List.isChain_cons_cons.mpr ⟨hy,hchain⟩,?_,hfirst⟩
      exact List.forall_mem_cons.mpr ⟨hkeeps,hall⟩
  · rintro ⟨path,z,hchain,hall,hfirst⟩
    induction path generalizing x with
    | nil => exact ⟨z,List.isChain_pair.mp hchain,.here hfirst⟩
    | cons y path ih =>
      obtain ⟨hkeeps,hall⟩ := List.forall_mem_cons.mp hall
      obtain ⟨hy,hchain⟩ := List.isChain_cons_cons.mp hchain
      obtain ⟨w,hw,hd⟩ := ih y hchain hall
      exact ⟨y,hy,.later hkeeps hw hd⟩

/-- Where a node reads first it does not matter what it keeps. -/
theorem Demanded.mono {known keeps' : ν → Prop} (h : ∀ x, known x → keeps x → first x ∨ keeps' x)
    (hsucc : ∀ x, known x → ∀ y∈succ x, known y) {x : ν} (hx : known x)
    (hd : Demanded succ first keeps x) : Demanded succ first keeps' x := by
  induction hd with
  | here hfirst => exact .here hfirst
  | later hkeeps hy _ ih =>
    exact (h _ hx hkeeps).elim .here fun hk => .later hk hy (ih (hsucc _ hx _ hy))

variable [DecidableEq ν] (succ keeps)

/-- Visit a node: what its successors demand is demanded behind it, and in front of it
too if the node keeps it. -/
def visit (S : (ν → Prop)×(ν → Prop)) (x : ν) : (ν → Prop)×(ν → Prop) :=
  let behind := S.2 x ∨ ∃ y∈succ x, S.1 y
  (Function.update S.1 x (S.1 x ∨ behind ∧ keeps x),Function.update S.2 x behind)

variable {succ keeps}

theorem visit_self (S : (ν → Prop)×(ν → Prop)) (x : ν) :
    (visit succ keeps S x).1 x=(S.1 x ∨ (S.2 x ∨ ∃ y∈succ x, S.1 y) ∧ keeps x) ∧
      (visit succ keeps S x).2 x=(S.2 x ∨ ∃ y∈succ x, S.1 y) :=
  ⟨Function.update_self _ _ _,Function.update_self _ _ _⟩

theorem visit_ne (S : (ν → Prop)×(ν → Prop)) {x z : ν} (h : z≠x) :
    (visit succ keeps S x).1 z=S.1 z ∧ (visit succ keeps S x).2 z=S.2 z :=
  ⟨Function.update_of_ne h _ _,Function.update_of_ne h _ _⟩

/-- What is known of some nodes when others have been visited. -/
structure Swept (succ : ν → List ν) (first keeps known : ν → Prop) (done : List ν)
    (S : (ν → Prop)×(ν → Prop)) : Prop where
  /-- A visited node knows what is demanded in front of it and behind it. -/
  visited : ∀ x∈done, (S.1 x ↔ Demanded succ first keeps x) ∧
    (S.2 x ↔ ∃ y∈succ x, Demanded succ first keeps y)
  /-- Another node knows what it reads first. -/
  waiting : ∀ x, known x → x∉done → (S.1 x ↔ first x) ∧ ¬S.2 x

theorem Swept.visit {known : ν → Prop} {done : List ν} {S : (ν → Prop)×(ν → Prop)}
    (h : Swept succ first keeps known done S) {x : ν} (hx : x∉done) (hknown : known x)
    (hsucc : ∀ y∈succ x, known y ∧ (y∈done ∨ succ y=[])) :
    Swept succ first keeps known (done++[x]) (visit succ keeps S x) := by
  have hwait := h.waiting x hknown hx
  have hvalue : ∀ y∈succ x, (S.1 y ↔ Demanded succ first keeps y) := by
    intro y hy
    obtain ⟨hk,hy⟩ := hsucc y hy
    by_cases hd : y∈done
    · exact (h.visited y hd).1
    · have hleaf := hy.resolve_left hd
      rw [(h.waiting y hk hd).1,demanded_iff,hleaf]
      simp only [List.not_mem_nil,false_and,exists_false,and_false,or_false]
  have hbehind : (S.2 x ∨ ∃ y∈succ x, S.1 y) ↔ ∃ y∈succ x, Demanded succ first keeps y := by
    rw [or_iff_right hwait.2]
    exact exists_congr fun y => and_congr_right fun hy => hvalue y hy
  refine ⟨fun z hz => ?_,fun z hk hz => ?_⟩
  · by_cases hzx : z=x
    · rw [hzx,(visit_self S x).1,(visit_self S x).2,hbehind,hwait.1]
      refine ⟨?_,Iff.rfl⟩
      rw [and_comm]
      exact (demanded_iff x).symm
    · have hd : z∈done := (List.mem_append.mp hz).resolve_right
        fun hz => hzx (List.mem_singleton.mp hz)
      rw [(visit_ne S hzx).1,(visit_ne S hzx).2]
      exact h.visited z hd
  · rw [List.mem_append,List.mem_singleton,not_or] at hz
    rw [(visit_ne S hz.2).1,(visit_ne S hz.2).2]
    exact h.waiting z hk hz.1

/-- **A sweep.** If the successors of all its nodes have been visited or are leaves, it
finds what the nodes demand. -/
theorem Swept.sweep {known : ν → Prop} {done order : List ν} {S : (ν → Prop)×(ν → Prop)}
    (h : Swept succ first keeps known done S) (hnodup : (done++order).Nodup)
    (hknown : ∀ x∈order, known x)
    (hsucc : ∀ x∈order, ∀ y∈succ x, known y ∧ (y∈done ∨ succ y=[])) :
    Swept succ first keeps known (done++order)
      (order.foldl (LiveVariables.visit succ keeps) S) := by
  induction order generalizing done S with
  | nil => rwa [List.append_nil]
  | cons x order ih =>
    have hx : x∉done := fun hx =>
      (List.nodup_append.mp hnodup).2.2 x hx x List.mem_cons_self rfl
    have hassoc : done++x::order=done++[x]++order := List.append_cons done x order
    rw [hassoc] at hnodup ⊢
    refine ih (h.visit hx (hknown x List.mem_cons_self) (hsucc x List.mem_cons_self)) hnodup
      (fun z hz => hknown z (List.mem_cons_of_mem x hz)) fun z hz y hy => ?_
    exact (hsucc z (List.mem_cons_of_mem x hz) y hy).imp_right
      fun hor => hor.imp_left (List.mem_append_left [x])

end Graph

end AndroidPlatform.LiveVariables
