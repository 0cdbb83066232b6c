import AndroidPlatform.BpfProgram
import AndroidPlatform.MarkedTraversal
import AndroidPlatform.UnavoidableNodes

/-!
# The levels of a block graph

`find_levels` of `optimize.c` gives every block that the root leads to its
level, the length of the longest path from it to a block without successors,
and collects the blocks of each level in a list. The passes of the optimiser
then go through the blocks from the level of the root down to level zero, in
which order a block comes after all its predecessors.
-/

namespace AndroidPlatform.BpfLevels

open BpfProgram MarkedTraversal UnavoidableNodes

/-- A block graph in which a block has both successors or none. -/
structure FlowGraph extends BlockGraph where
  /-- The branch that is not taken leads somewhere exactly when the other one does. -/
  both : ∀ p, (block p).jt=none ↔ (block p).jf=none

/-- What `find_levels` keeps: the marks, the field `level` of the blocks, and
`levels`, with the blocks that `link` chains there. -/
structure LevelState where
  /-- The blocks with `mark==cur_mark`. -/
  marked : Finset ℕ
  /-- The field `level` of every block. -/
  level : ℕ → ℕ
  /-- The list of the blocks at every level. -/
  levels : ℕ → List ℕ

/-- Set the level of a block and put the block in front of that level's list. -/
def LevelState.place (st : LevelState) (b level : ℕ) : LevelState :=
  {st with level:=Function.update st.level b level,
           levels:=Function.update st.levels level (b::st.levels level)}

/-- `find_levels_r` -/
def findLevelsR (g : FlowGraph) (b : ℕ) (st : LevelState) : LevelState :=
  if b∈st.marked then st
  else
    match hjt : (g.block b).jt,hjf : (g.block b).jf with
    | some t,some f =>
      let st' := findLevelsR g f (findLevelsR g t {st with marked:=insert b st.marked})
      st'.place b (max (st'.level t) (st'.level f)+1)
    | _,_ => LevelState.place {st with marked:=insert b st.marked} b 0
termination_by g.rank b
decreasing_by
  · exact g.rank_jt b t hjt
  · exact g.rank_jf b f hjf

/-- `find_levels`, which finds any levels in the blocks. -/
def findLevels (g : FlowGraph) (level : ℕ → ℕ) : LevelState :=
  findLevelsR g g.root ⟨∅,level,fun _ => []⟩

/-- The blocks of the levels from the given one down to zero. -/
def downFrom (levels : ℕ → List ℕ) : ℕ → List ℕ
  | 0 => levels 0
  | i+1 => levels (i+1)++downFrom levels i

theorem mem_downFrom (levels : ℕ → List ℕ) (n b : ℕ) :
    b∈downFrom levels n ↔ ∃ i≤n, b∈levels i := by
  induction n with
  | zero => simp [downFrom]
  | succ n ih =>
    rw [downFrom,List.mem_append,ih]
    constructor
    · rintro (h | ⟨i,hi,h⟩)
      · exact ⟨n+1,le_rfl,h⟩
      · exact ⟨i,by omega,h⟩
    · rintro ⟨i,hi,h⟩
      by_cases heq : i=n+1
      · exact .inl (heq ▸ h)
      · exact .inr ⟨i,by omega,h⟩

/-- Who is in a list after a block has been placed. -/
theorem mem_place (b level i a : ℕ) (st : LevelState) :
    a∈(st.place b level).levels i ↔ a=b ∧ i=level ∨ a∈st.levels i := by
  by_cases hi : i=level
  · subst hi
    simp [LevelState.place]
  · simp [LevelState.place,hi]

theorem level_place {a b : ℕ} (hab : a≠b) (level : ℕ) (st : LevelState) :
    (st.place b level).level a=st.level a := Function.update_of_ne hab _ _

theorem level_place_self (b level : ℕ) (st : LevelState) : (st.place b level).level b=level :=
  Function.update_self _ _ _

/-- What holds of the lists between the calls of `find_levels_r`, whatever the
edges are. -/
structure Listed (isOpen : ℕ → Prop) (st : LevelState) : Prop where
  /-- The blocks of a list have its level, and their calls have returned. -/
  listed : ∀ i, ∀ b∈st.levels i, st.level b=i ∧ b∈st.marked ∧ ¬isOpen b
  /-- No list holds a block twice. -/
  nodup : ∀ i, (st.levels i).Nodup

variable {isOpen : ℕ → Prop} {st : LevelState} {b : ℕ}

theorem Listed.enter (h : Listed isOpen st) (hb : b∉st.marked) :
    Listed (fun a => isOpen a ∨ a=b) {st with marked:=insert b st.marked} := by
  refine ⟨fun i a ha => ?_,h.nodup⟩
  obtain ⟨hl,hm,ho⟩ := h.listed i a ha
  refine ⟨hl,Finset.mem_insert_of_mem hm,?_⟩
  rintro (hopen | rfl)
  · exact ho hopen
  · exact hb hm

/-- A block that is open is in no list. -/
theorem Listed.not_mem (h : Listed (fun a => isOpen a ∨ a=b) st) (i : ℕ) : b∉st.levels i :=
  fun hi => (h.listed i b hi).2.2 (.inr rfl)

/-- Placing an open block closes it. -/
theorem Listed.place (h : Listed (fun a => isOpen a ∨ a=b) st) (hb : b∈st.marked)
    (hopen : ¬isOpen b) (level : ℕ) : Listed isOpen (st.place b level) := by
  refine ⟨fun i a ha => ?_,fun i => ?_⟩
  · rcases (mem_place b level i a st).mp ha with ⟨rfl,rfl⟩ | ha
    · exact ⟨level_place_self a i st,hb,hopen⟩
    · obtain ⟨hl,hm,ho⟩ := h.listed i a ha
      rw [level_place (fun he => ho (.inr he))]
      exact ⟨hl,hm,fun hopen => ho (.inl hopen)⟩
  · by_cases hi : i=level
    · subst hi
      simp only [LevelState.place,Function.update_self,List.nodup_cons]
      exact ⟨h.not_mem i,h.nodup i⟩
    · simp only [LevelState.place,ne_eq,hi,not_false_eq_true,Function.update_of_ne]
      exact h.nodup i

/-- No block is in the lists of two levels. -/
theorem nodup_downFrom (h : Listed isOpen st) (n : ℕ) : (downFrom st.levels n).Nodup := by
  induction n with
  | zero => exact h.nodup 0
  | succ n ih =>
    rw [downFrom,List.nodup_append]
    refine ⟨h.nodup (n+1),ih,fun x hx y hy hxy => ?_⟩
    obtain ⟨i,hi,hy⟩ := (mem_downFrom st.levels n y).mp hy
    have hown := (h.listed (n+1) x hx).1
    have hother := (h.listed i y hy).1
    rw [hxy] at hown
    omega

/-- What holds between the calls of `find_levels_r`: a block that is marked and
not open, which is to say that its call has returned, is in the list of its
level, and its successors are in the lists of lower levels. -/
structure Placed (g : FlowGraph) (isOpen : ℕ → Prop) (st : LevelState) : Prop where
  /-- The blocks of a list have its level, and their calls have returned. -/
  listed : ∀ i, ∀ b∈st.levels i, st.level b=i ∧ b∈st.marked ∧ ¬isOpen b
  /-- The successors of a block of a list have lower levels. -/
  below : ∀ i, ∀ b∈st.levels i, ∀ c∈g.succ b, c∈st.levels (st.level c) ∧ st.level c < i
  /-- No list holds a block twice. -/
  nodup : ∀ i, (st.levels i).Nodup
  /-- A block whose call has returned is in the list of its level. -/
  finished : ∀ b∈st.marked, ¬isOpen b → b∈st.levels (st.level b)

variable {g : FlowGraph}

/-- What holds of the lists alone. -/
theorem Placed.inLists (h : Placed g isOpen st) : Listed isOpen st := ⟨h.listed,h.nodup⟩

/-- Entering a block opens it. -/
theorem Placed.enter (h : Placed g isOpen st) (hb : b∉st.marked) :
    Placed g (fun a => isOpen a ∨ a=b) {st with marked:=insert b st.marked} := by
  have henter := h.inLists.enter hb
  refine ⟨henter.listed,h.below,henter.nodup,fun a ha ho => ?_⟩
  rcases Finset.mem_insert.mp ha with rfl | ha
  · exact absurd (.inr rfl) ho
  · exact h.finished a ha (fun hopen => ho (.inl hopen))

/-- Placing an open block above its successors closes it. -/
theorem Placed.place (h : Placed g (fun a => isOpen a ∨ a=b) st) (hb : b∈st.marked)
    (hopen : ¬isOpen b) {level : ℕ}
    (hsucc : ∀ c∈g.succ b, c∈st.levels (st.level c) ∧ st.level c<level) :
    Placed g isOpen (st.place b level) := by
  have hplace := h.inLists.place hb hopen level
  have hkeep : ∀ c i, c∈st.levels (st.level c) ∧ st.level c < i →
      c∈(st.place b level).levels ((st.place b level).level c) ∧
        (st.place b level).level c < i := by
    intro c i hc
    have hcb : c≠b := fun he => h.inLists.not_mem _ (he ▸ hc.1)
    rw [level_place hcb]
    exact ⟨(mem_place b level _ c st).mpr (.inr hc.1),hc.2⟩
  refine ⟨hplace.listed,fun i a ha c hc => ?_,hplace.nodup,fun a ha ho => ?_⟩
  · rcases (mem_place b level i a st).mp ha with ⟨rfl,rfl⟩ | ha
    · exact hkeep c i (hsucc c hc)
    · exact hkeep c i (h.below i a ha c hc)
  · by_cases hab : a=b
    · subst hab
      rw [level_place_self]
      exact (mem_place a level level a st).mpr (.inl ⟨rfl,rfl⟩)
    · rw [level_place hab]
      exact (mem_place b level _ a st).mpr
        (.inr (h.finished a ha (fun hor => hor.elim ho hab)))

theorem mem_succ_of_branch {t f c : ℕ} (ht : (g.block b).jt=some t) (hf : (g.block b).jf=some f) :
    c∈g.succ b ↔ c=f ∨ c=t := by
  rw [BlockGraph.succ,ht,hf]
  simp

theorem succ_of_leaf (ht : (g.block b).jt=none) : g.succ b=[] := by
  rw [BlockGraph.succ,ht,(g.both b).mp ht]
  rfl

/-- **The call of `find_levels_r` for a block.** It marks what the block leads
to, and leaves every block whose call has returned in its list. -/
theorem findLevelsR_spec (h : Placed g isOpen st) (hopen : ∀ a, isOpen a → g.rank b<g.rank a) :
    Visits g.succ [b] st.marked (findLevelsR g b st).marked ∧
      Placed g isOpen (findLevelsR g b st) := by
  induction hr : g.rank b using Nat.strong_induction_on generalizing b isOpen st with
  | _ r ih =>
    subst hr
    have hself : ¬isOpen b := fun ho => lt_irrefl _ (hopen b ho)
    rw [findLevelsR]
    by_cases hb : b∈st.marked
    · rw [if_pos hb]
      refine ⟨Visits.of_marked fun x hx => ?_,h⟩
      rwa [List.mem_singleton.mp hx]
    · rw [if_neg hb]
      have henter := h.enter hb
      split
      · rename_i t f ht hf
        have hrt : g.rank t<g.rank b := g.rank_jt b t ht
        have hrf : g.rank f<g.rank b := g.rank_jf b f hf
        have hlow : ∀ c, g.rank c<g.rank b → ∀ a, isOpen a ∨ a=b → g.rank c<g.rank a := by
          rintro c hc a (ha | rfl)
          · exact lt_trans hc (hopen a ha)
          · exact hc
        obtain ⟨hv,hp⟩ := ih (g.rank t) hrt henter (hlow t hrt) rfl
        obtain ⟨hv',hp'⟩ := ih (g.rank f) hrf hp (hlow f hrf) rfl
        have hvisits := hv.append hv'
        have hfin : ∀ c, g.rank c<g.rank b → c∈[t]++[f] →
            c∈(findLevelsR g f (findLevelsR g t ⟨insert b st.marked,st.level,st.levels⟩)).levels
              ((findLevelsR g f
                (findLevelsR g t ⟨insert b st.marked,st.level,st.levels⟩)).level c) := by
          intro c hc hmem
          refine hp'.finished c (hvisits.start_mem c hmem) ?_
          exact fun ho => lt_irrefl _ (hlow c hc c ho)
        refine ⟨Visits.enter (fun x => ?_) hvisits,?_⟩
        · rw [mem_succ_of_branch ht hf]
          simp [or_comm]
        · refine hp'.place (hvisits.mono b (Finset.mem_insert_self b _)) hself ?_
          intro c hc
          rcases (mem_succ_of_branch ht hf).mp hc with rfl | rfl
          · exact ⟨hfin c hrf (by simp),by omega⟩
          · exact ⟨hfin c hrt (by simp),by omega⟩
      · rename_i hnone
        have ht : (g.block b).jt=none := by
          cases ht : (g.block b).jt with
          | none => rfl
          | some t =>
            cases hf : (g.block b).jf with
            | none =>
              rw [(g.both b).mpr hf] at ht
              cases ht
            | some f => exact absurd hf (hnone t f ht)
        have hnil := succ_of_leaf ht
        constructor
        · have hnone : Visits g.succ [] (insert b st.marked) (insert b st.marked) :=
            Visits.of_marked fun x hx => absurd hx List.not_mem_nil
          exact hnone.enter fun x => by rw [hnil]
        · refine henter.place (Finset.mem_insert_self b _) hself ?_
          intro c hc
          rw [hnil] at hc
          exact absurd hc List.not_mem_nil

/-- The state `find_levels` leaves. -/
theorem findLevels_spec (g : FlowGraph) (level : ℕ → ℕ) :
    Visits g.succ [g.root] ∅ (findLevels g level).marked ∧
      Placed g (fun _ => False) (findLevels g level) := by
  have hstart : Placed g (fun _ => False) ⟨∅,level,fun _ => []⟩ := by
    refine ⟨?_,?_,fun _ => List.nodup_nil,?_⟩
    · exact fun i b hb => absurd hb List.not_mem_nil
    · exact fun i b hb => absurd hb List.not_mem_nil
    · exact fun b hb => absurd hb (Finset.notMem_empty b)
  exact findLevelsR_spec hstart fun a ha => ha.elim

/-- `find_levels` marks exactly the blocks the root leads to. -/
theorem mem_marked_findLevels (g : FlowGraph) (level : ℕ → ℕ) (b : ℕ) :
    b∈(findLevels g level).marked ↔ g.Reached b := by
  have hv := (findLevels_spec g level).1
  constructor
  · refine hv.least {x | g.Reached x} (fun x hx => absurd hx (Finset.notMem_empty x)) ?_ ?_ b
    · intro x hx
      rw [List.mem_singleton.mp hx]
      exact Relation.ReflTransGen.refl
    · exact fun x hx y hy => Relation.ReflTransGen.tail hx hy
  · intro hb
    induction hb with
    | refl => exact hv.start_mem g.root (List.mem_singleton_self g.root)
    | tail _ hy ih => exact hv.closed_of_empty _ ih _ hy

/-- The order in which the passes of the optimiser go through the blocks. -/
def levelOrder (g : FlowGraph) (level : ℕ → ℕ) : List ℕ :=
  downFrom (findLevels g level).levels ((findLevels g level).level g.root)

/-- No block is at a higher level than the root. -/
theorem level_le_root {g : FlowGraph} {level : ℕ → ℕ} {b : ℕ} (hb : g.Reached b) :
    (findLevels g level).level b≤(findLevels g level).level g.root := by
  have hp := (findLevels_spec g level).2
  induction hb with
  | refl => exact le_rfl
  | @tail x y hx hy ih =>
    have hmem := (mem_marked_findLevels g level x).mpr hx
    have hlow := (hp.below _ x (hp.finished x hmem id) y hy).2
    omega

/-- The passes go through the blocks that the root leads to. -/
theorem mem_levelOrder (g : FlowGraph) (level : ℕ → ℕ) (b : ℕ) :
    b∈levelOrder g level ↔ g.Reached b := by
  have hp := (findLevels_spec g level).2
  rw [levelOrder,mem_downFrom,←mem_marked_findLevels g level]
  constructor
  · rintro ⟨i,_,hb⟩
    exact (hp.listed i b hb).2.1
  · intro hb
    exact ⟨_,level_le_root ((mem_marked_findLevels g level b).mp hb),hp.finished b hb id⟩

/-- The lists from a level down hold the blocks in a topological order. -/
theorem topological_downFrom {g : FlowGraph} {st : LevelState}
    (hp : Placed g (fun _ => False) st) (n : ℕ) : Topological g.succ (downFrom st.levels n) := by
  have hself : ∀ i, ∀ x∈st.levels i, ∀ y∈st.levels i, x∉g.succ y := by
    intro i x hx y hy hmem
    have hlow := (hp.below i y hy x hmem).2
    have hlevel := (hp.listed i x hx).1
    omega
  have hirrefl : ∀ i, ∀ x∈st.levels i, x∉g.succ x := fun i x hx => hself i x hx x hx
  have hlist : ∀ i, (st.levels i).Pairwise fun x y => x∉g.succ y :=
    fun i => List.pairwise_of_forall_mem_list (hself i)
  induction n with
  | zero => exact ⟨hp.nodup 0,hirrefl 0,hlist 0⟩
  | succ n ih =>
    have hlater : ∀ x∈st.levels (n+1), ∀ y∈downFrom st.levels n,
        st.level x=n+1 ∧ ∃ i≤n, y∈st.levels i := fun x hx y hy =>
      ⟨(hp.listed _ x hx).1,(mem_downFrom st.levels n y).mp hy⟩
    refine ⟨nodup_downFrom hp.inLists (n+1),?_,?_⟩
    · intro x hx
      rcases List.mem_append.mp hx with hx | hx
      · exact hirrefl (n+1) x hx
      · exact ih.irrefl x hx
    · rw [downFrom,List.pairwise_append]
      refine ⟨hlist (n+1),ih.forward,fun x hx y hy hmem => ?_⟩
      obtain ⟨hlevel,i,hi,hy⟩ := hlater x hx y hy
      have hlow := (hp.below i y hy x hmem).2
      omega

/-- **The order of the levels.** A block comes after all its predecessors. -/
theorem topological_levelOrder (g : FlowGraph) (level : ℕ → ℕ) :
    Topological g.succ (levelOrder g level) :=
  topological_downFrom (findLevels_spec g level).2 _

end AndroidPlatform.BpfLevels
