import AndroidPlatform.BpfOptimizeLoop
import AndroidPlatform.LiveVariables
import Mathlib.Data.BitVec

/-!
# The atoms that a block still needs

`find_ud` of `optimize.c` finds for every block which of the accumulator, the
index register and the scratch registers are read behind it before they are
written. It looks at the statements of each block first and then goes up the
levels, so that the successors of a block are done before the block.
-/

namespace AndroidPlatform.BpfLiveness

open BpfProgram (Stmt nop Block)
open BpfLevels BpfPeephole BpfValues LiveVariables

/-! ## The functions -/

/-- `ATOMMASK(n)` -/
def atomMask (n : ℤ) : BitVec 32 := BitVec.twoPow 32 n.toNat

/-- `ATOMELEM(d, n)` -/
def atomElem (d : BitVec 32) (n : ℤ) : Bool := d.getLsbD n.toNat

/-- The variables of `compute_local_ud`. -/
structure LocalUd where
  /-- `def` -/
  defs : BitVec 32
  /-- `use` -/
  use : BitVec 32
  /-- `kill` -/
  kill : BitVec 32

/-- An atom is used. -/
def LocalUd.read (ud : LocalUd) (atom : ℤ) : LocalUd :=
  if atomElem ud.defs atom then ud else {ud with use:=ud.use ||| atomMask atom}

/-- What `compute_local_ud` does for `atomuse` of a statement. -/
def LocalUd.useAtom (ud : LocalUd) (s : Stmt) : Except Fault LocalUd :=
  match atomuse s with
  | none => .ok ud
  | some atom =>
    if atom<0 then .ok ud
    else if atom=axAtom then .ok ((ud.read xAtom).read aAtom)
    else if atom<18 then .ok (ud.read atom)
    else .error .abort

/-- What it does for `atomdef` of a statement. -/
def LocalUd.defAtom (ud : LocalUd) (s : Stmt) : LocalUd :=
  match atomdef s with
  | none => ud
  | some atom =>
    if atom<0 then ud
    else {ud with
      kill:=if atomElem ud.use atom then ud.kill else ud.kill ||| atomMask atom
      defs:=ud.defs ||| atomMask atom}

/-- The body of the loop of `compute_local_ud`. -/
def LocalUd.step (ud : LocalUd) (s : Stmt) : Except Fault LocalUd :=
  if s.code=nop then .ok ud else (ud.useAtom s).map fun ud => ud.defAtom s

/-- `compute_local_ud` -/
def computeLocalUd (b : Block) : Except Fault LocalUd := do
  let ud ← b.stmts.foldlM LocalUd.step ⟨0,0,0⟩
  if classOf b.s.code=bpfJmp then ud.useAtom b.s else .ok ud

/-- The fields of the blocks that `find_ud` sets. -/
structure UdFields where
  /-- `def` -/
  defs : ℕ → BitVec 32
  /-- `kill` -/
  kill : ℕ → BitVec 32
  /-- `in_use` -/
  inUse : ℕ → BitVec 32
  /-- `out_use` -/
  outUse : ℕ → BitVec 32

/-- The body of the first loop of `find_ud`. -/
def UdFields.start (g : FlowGraph) (ud : UdFields) (p : ℕ) : Except Fault UdFields :=
  (computeLocalUd (g.block p)).map fun l =>
    ⟨Function.update ud.defs p l.defs,Function.update ud.kill p l.kill,
      Function.update ud.inUse p l.use,Function.update ud.outUse p 0⟩

/-- The body of the second loop of `find_ud`. -/
def UdFields.join (g : FlowGraph) (ud : UdFields) (p : ℕ) : Except Fault UdFields :=
  match (g.block p).jt,(g.block p).jf with
  | some t,some f =>
    let outUse := ud.outUse p ||| (ud.inUse t ||| ud.inUse f)
    .ok {ud with
      outUse:=Function.update ud.outUse p outUse
      inUse:=Function.update ud.inUse p (ud.inUse p ||| (outUse &&& ~~~ud.kill p))}
  | _,_ => .error .nullPointer

/-- `find_ud`, on the levels that `find_levels` has found. -/
def findUd (g : FlowGraph) (level : ℕ → ℕ) (ud : UdFields) : Except Fault UdFields := do
  let st := findLevels g level
  let ud ← (downFrom st.levels (st.level g.root)).foldlM (UdFields.start g) ud
  (BpfOptimizeLoop.upFromOne st.levels (st.level g.root)).foldlM (UdFields.join g) ud

/-! ## What statements read and write -/

/-- A statement reads an atom. -/
def Reads (s : Stmt) (a : ℕ) : Prop :=
  atomuse s=some (a : ℤ) ∧ a<18 ∨ atomuse s=some axAtom ∧ (a=16 ∨ a=17)

/-- A statement writes an atom. -/
def Writes (s : Stmt) (a : ℕ) : Prop := atomdef s=some (a : ℤ)

/-- The scratch register of a statement is one of the sixteen. -/
def Slotted (s : Stmt) : Prop :=
  ((classOf s.code=bpfLd ∨ classOf s.code=bpfLdx) ∧ modeOf s.code=bpfMem ∨
    classOf s.code=bpfSt ∨ classOf s.code=bpfStx) → 0 ≤ s.k ∧ s.k<16

instance : DecidablePred Slotted := fun s => inferInstanceAs <| Decidable <|
  ((classOf s.code=bpfLd ∨ classOf s.code=bpfLdx) ∧ modeOf s.code=bpfMem ∨
    classOf s.code=bpfSt ∨ classOf s.code=bpfStx) → 0 ≤ s.k ∧ s.k<16

instance (s : Stmt) (a : ℕ) : Decidable (Reads s a) := inferInstanceAs <| Decidable <|
  atomuse s=some (a : ℤ) ∧ a<18 ∨ atomuse s=some axAtom ∧ (a=16 ∨ a=17)

/-- The statements of a block that read, the branch with them. -/
def codeOf (b : Block) : List Stmt := b.stmts++if classOf b.s.code=bpfJmp then [b.s] else []

/-- The operand of a statement that uses a scratch register. -/
theorem Slotted.operand {s : Stmt} (h : Slotted s)
    (hslot : (classOf s.code=bpfLd ∨ classOf s.code=bpfLdx) ∧ modeOf s.code=bpfMem ∨
      classOf s.code=bpfSt ∨ classOf s.code=bpfStx) : ∃ a : ℕ, a<18 ∧ some s.k=some (a : ℤ) := by
  obtain ⟨hge,hlt⟩ := h hslot
  exact ⟨s.k.toNat,by omega,congrArg some (Int.toNat_of_nonneg hge).symm⟩

theorem exists_aAtom : ∃ a : ℕ, a<18 ∧ some aAtom=some (a : ℤ) := ⟨16,by decide,rfl⟩

theorem exists_xAtom : ∃ a : ℕ, a<18 ∧ some xAtom=some (a : ℤ) := ⟨17,by decide,rfl⟩

theorem atomuse_cases {s : Stmt} (h : Slotted s) : atomuse s=none ∨ atomuse s=some axAtom ∨
    ∃ a : ℕ, a<18 ∧ atomuse s=some (a : ℤ) := by
  unfold atomuse
  split_ifs with _ _ _ _ hload _ hmem _ _ _ _ _ _
  · exact .inl rfl
  · exact .inr (.inr exists_aAtom)
  · exact .inr (.inr exists_xAtom)
  · exact .inl rfl
  · exact .inr (.inr exists_xAtom)
  · exact .inr (.inr (h.operand (.inl ⟨hload,hmem⟩)))
  · exact .inl rfl
  · exact .inr (.inr exists_aAtom)
  · exact .inr (.inr exists_xAtom)
  · exact .inr (.inl rfl)
  · exact .inr (.inr exists_aAtom)
  · exact .inr (.inr exists_xAtom)
  · exact .inr (.inr exists_aAtom)

theorem atomdef_cases {s : Stmt} (h : Slotted s) : atomdef s=none ∨
    ∃ a : ℕ, a<18 ∧ atomdef s=some (a : ℤ) := by
  unfold atomdef
  split_ifs with _ _ _ hstore _ _
  · exact .inl rfl
  · exact .inr exists_aAtom
  · exact .inr exists_xAtom
  · exact .inr (h.operand (.inr hstore))
  · exact .inr exists_xAtom
  · exact .inr exists_aAtom
  · exact .inl rfl

theorem Writes.lt {s : Stmt} {a : ℕ} (h : Writes s a) (hs : Slotted s) : a<18 := by
  rcases atomdef_cases hs with hnone | ⟨n,hn,hatom⟩
  · cases hnone.symm.trans h
  · rwa [Nat.cast_inj.mp (Option.some.inj (hatom.symm.trans h))] at hn

theorem Writes.unique {s : Stmt} {a b : ℕ} (ha : Writes s a) (hb : Writes s b) : a=b :=
  Nat.cast_inj.mp (Option.some.inj (ha.symm.trans hb))

theorem not_writes_of_jmp {s : Stmt} (h : classOf s.code=bpfJmp) (a : ℕ) : ¬Writes s a := by
  have hnone : atomdef s=none := by
    unfold atomdef
    rw [h]
    split_ifs with _ hld hldx hst hmisc _
    · rfl
    · exact absurd hld (by decide)
    · exact absurd hldx (by decide)
    · exact absurd hst (by decide)
    · exact absurd hmisc (by decide)
    · exact absurd hmisc (by decide)
    · rfl
  rw [Writes,hnone]
  exact (Option.some_ne_none _).symm

/-! ## One block -/

variable {s : Stmt} {l : List Stmt} {ud : LocalUd} {a n : ℕ}

theorem getLsbD_atomMask (ha : a<18) (n : ℕ) : (atomMask (n : ℤ)).getLsbD a=decide (n=a) := by
  rw [atomMask,Int.toNat_natCast,BitVec.getLsbD_twoPow,←Bool.decide_and,decide_eq_decide]
  omega

/-- What `compute_local_ud` knows of the statements it has seen. -/
structure Summary (l : List Stmt) (ud : LocalUd) : Prop where
  /-- What one of them writes. -/
  defs : ∀ a<18, ud.defs.getLsbD a=true ↔ ∃ s∈l, Writes s a
  /-- What they read first. -/
  use : ∀ a<18, ud.use.getLsbD a=true ↔ ReadFirst Reads Writes l a
  /-- What they write, and do not read first. -/
  kill : ∀ a<18, ud.kill.getLsbD a=true ↔ (∃ s∈l, Writes s a) ∧ ¬ReadFirst Reads Writes l a

theorem use_read (ud : LocalUd) (ha : a<18) (n : ℕ) : (ud.read (n : ℤ)).use.getLsbD a=true ↔
    ud.use.getLsbD a=true ∨ n=a ∧ ud.defs.getLsbD a=false := by
  rw [LocalUd.read,atomElem,Int.toNat_natCast]
  split
  · rename_i hdef
    refine ⟨.inl,fun h => h.resolve_right ?_⟩
    rintro ⟨rfl,hnot⟩
    rw [hdef] at hnot
    cases hnot
  · rename_i hdef
    rw [BitVec.getLsbD_or,getLsbD_atomMask ha,Bool.or_eq_true,decide_eq_true_eq]
    refine or_congr_right ⟨fun h => ⟨h,?_⟩,And.left⟩
    rw [←h]
    exact Bool.eq_false_of_not_eq_true hdef

theorem read_other (ud : LocalUd) (atom : ℤ) :
    (ud.read atom).defs=ud.defs ∧ (ud.read atom).kill=ud.kill := by
  rw [LocalUd.read]
  split
  · exact ⟨rfl,rfl⟩
  · exact ⟨rfl,rfl⟩

/-- The atoms that a statement reads are used unless they have been set. -/
theorem useAtom_ok (h : Slotted s) (ud : LocalUd) : ∃ ud', ud.useAtom s=.ok ud' ∧
    ud'.defs=ud.defs ∧ ud'.kill=ud.kill ∧ ∀ a<18, (ud'.use.getLsbD a=true ↔
      ud.use.getLsbD a=true ∨ Reads s a ∧ ud.defs.getLsbD a=false) := by
  rcases atomuse_cases h with hnone | hax | ⟨n,hn,hatom⟩
  · have hreads : ∀ a, ¬Reads s a := by
      rintro a (⟨heq,-⟩ | ⟨heq,-⟩)
      · cases hnone.symm.trans heq
      · cases hnone.symm.trans heq
    refine ⟨ud,?_,rfl,rfl,fun a _ => ?_⟩
    · rw [LocalUd.useAtom,hnone]
    · simp only [hreads,false_and,or_false]
  · have hreads : ∀ a, Reads s a ↔ 17=a ∨ 16=a := by
      intro a
      have hne : a<18 → axAtom≠(a : ℤ) := fun ha heq => by
        rw [axAtom] at heq
        omega
      simp only [Reads,hax,Option.some.injEq,true_and]
      constructor
      · rintro (⟨heq,ha⟩ | ha)
        · exact absurd heq (hne ha)
        · omega
      · intro ha
        exact .inr (by omega)
    have hx : xAtom=((17 : ℕ) : ℤ) := rfl
    have ha : aAtom=((16 : ℕ) : ℤ) := rfl
    refine ⟨(ud.read xAtom).read aAtom,?_,?_,?_,fun a hlt => ?_⟩
    · rw [LocalUd.useAtom,hax]
      rfl
    · rw [(read_other _ _).1,(read_other _ _).1]
    · rw [(read_other _ _).2,(read_other _ _).2]
    · rw [hreads,ha,use_read _ hlt,hx,use_read _ hlt,(read_other _ _).1]
      tauto
  · have hreads : ∀ a, Reads s a ↔ n=a := by
      intro a
      have hne : (n : ℤ)≠axAtom := fun heq => by
        rw [axAtom] at heq
        omega
      simp only [Reads,hatom,Option.some.injEq,hne,false_and,or_false,Nat.cast_inj]
      exact ⟨And.left,fun heq => ⟨heq,heq ▸ hn⟩⟩
    refine ⟨ud.read (n : ℤ),?_,(read_other _ _).1,(read_other _ _).2,fun a hlt => ?_⟩
    · have hneg : ¬(n : ℤ)<0 := by omega
      have hax : ¬(n : ℤ)=axAtom := fun heq => by
        rw [axAtom] at heq
        omega
      have hlt : (n : ℤ)<18 := by omega
      rw [LocalUd.useAtom,hatom]
      dsimp only
      rw [if_neg hneg,if_neg hax,if_pos hlt]
    · rw [hreads,use_read _ hlt]

theorem defAtom_spec (h : Slotted s) (ud : LocalUd) : (ud.defAtom s).use=ud.use ∧
    ∀ a<18, ((ud.defAtom s).defs.getLsbD a=true ↔ ud.defs.getLsbD a=true ∨ Writes s a) ∧
      ((ud.defAtom s).kill.getLsbD a=true ↔
        ud.kill.getLsbD a=true ∨ Writes s a ∧ ud.use.getLsbD a=false) := by
  rcases atomdef_cases h with hnone | ⟨n,hn,hatom⟩
  · have hwrites : ∀ a, ¬Writes s a := fun a heq => by cases hnone.symm.trans heq
    rw [LocalUd.defAtom,hnone]
    refine ⟨rfl,fun a _ => ?_⟩
    simp only [hwrites,false_and,or_false,and_self]
  · have hwrites : ∀ a, Writes s a ↔ n=a := by
      intro a
      rw [Writes,hatom,Option.some.injEq,Nat.cast_inj]
    have hneg : ¬(n : ℤ)<0 := by omega
    rw [LocalUd.defAtom,hatom]
    dsimp only
    rw [if_neg hneg]
    refine ⟨rfl,fun a ha => ⟨?_,?_⟩⟩
    · rw [hwrites,BitVec.getLsbD_or,getLsbD_atomMask ha,Bool.or_eq_true,decide_eq_true_eq]
    · rw [hwrites,atomElem,Int.toNat_natCast]
      split
      · rename_i huse
        refine ⟨.inl,fun h => h.resolve_right ?_⟩
        rintro ⟨rfl,hnot⟩
        rw [huse] at hnot
        cases hnot
      · rename_i huse
        rw [BitVec.getLsbD_or,getLsbD_atomMask ha,Bool.or_eq_true,decide_eq_true_eq]
        refine or_congr_right ⟨fun h => ⟨h,?_⟩,And.left⟩
        rw [←h]
        exact Bool.eq_false_of_not_eq_true huse

theorem exists_writes_append : (∃ i∈l++[s], Writes i a) ↔ (∃ i∈l, Writes i a) ∨ Writes s a := by
  simp only [List.mem_append,List.mem_singleton,or_and_right,exists_or,exists_eq_left]

/-- One statement. -/
theorem Summary.step (h : Summary l ud) (hs : Slotted s) :
    ∃ ud', ud.step s=.ok ud' ∧ Summary (l++[s]) ud' := by
  obtain ⟨ud1,huse,hdefs1,hkill1,hread⟩ := useAtom_ok hs ud
  obtain ⟨huse2,hset⟩ := defAtom_spec hs ud1
  have hfirst : ∀ a<18, (ud1.use.getLsbD a=true ↔ ReadFirst Reads Writes (l++[s]) a) := by
    intro a ha
    have hunset : ud.defs.getLsbD a=false ↔ ∀ i∈l, ¬Writes i a := by
      rw [←Bool.not_eq_true,h.defs a ha]
      simp only [not_exists,not_and]
    rw [hread a ha,h.use a ha,readFirst_append,readFirst_singleton,hunset,and_comm]
  have hall : Summary (l++[s]) (ud1.defAtom s) := by
    refine ⟨fun a ha => ?_,fun a ha => ?_,fun a ha => ?_⟩
    · rw [(hset a ha).1,hdefs1,h.defs a ha,exists_writes_append]
    · rw [huse2]
      exact hfirst a ha
    · have hunused : ud1.use.getLsbD a=false ↔ ¬ReadFirst Reads Writes (l++[s]) a := by
        rw [←Bool.not_eq_true,hfirst a ha]
      rw [(hset a ha).2,hkill1,h.kill a ha,hunused,exists_writes_append,readFirst_append,
        readFirst_singleton]
      constructor
      · rintro (⟨hw,hr⟩ | hw)
        · refine ⟨.inl hw,?_⟩
          rintro (hr' | ⟨hnone,-⟩)
          · exact hr hr'
          · obtain ⟨i,hi,hwi⟩ := hw
            exact hnone i hi hwi
        · exact ⟨.inr hw.1,hw.2⟩
      · rintro ⟨hw | hw,hr⟩
        · exact .inl ⟨hw,fun hr' => hr (.inl hr')⟩
        · exact .inr ⟨hw,hr⟩
  refine ⟨ud1.defAtom s,?_,hall⟩
  rw [LocalUd.step,huse]
  split
  · rename_i hnop
    have huse0 : atomuse s=none := by rw [atomuse,if_pos hnop]
    have hdef0 : atomdef s=none := by rw [atomdef,if_pos hnop]
    rw [LocalUd.useAtom,huse0] at huse
    cases huse
    rw [LocalUd.defAtom,hdef0]
  · rfl

/-- A loop that keeps an invariant over what it has done ends in it. -/
theorem foldlM_ok {ι σ ε : Type} {f : σ → ι → Except ε σ} {P : List ι → σ → Prop} {l done : List ι}
    {s : σ} (h : P done s)
    (hstep : ∀ done i s, i∈l → P done s → ∃ s', f s i=.ok s' ∧ P (done++[i]) s') :
    ∃ s', l.foldlM f s=.ok s' ∧ P (done++l) s' := by
  induction l generalizing done s with
  | nil => exact ⟨s,rfl,by rwa [List.append_nil]⟩
  | cons i l ih =>
    obtain ⟨s1,hs1,h1⟩ := hstep done i s List.mem_cons_self h
    obtain ⟨s2,hs2,h2⟩ := ih h1 fun done j s hj => hstep done j s (List.mem_cons_of_mem i hj)
    refine ⟨s2,?_,?_⟩
    · rw [List.foldlM_cons,hs1]
      exact hs2
    · rwa [List.append_assoc] at h2

theorem computeLocalUd_ok {b : Block} (h : ∀ s∈codeOf b, Slotted s) :
    ∃ ud, computeLocalUd b=.ok ud ∧ Summary (codeOf b) ud := by
  have hempty : Summary [] ⟨0,0,0⟩ := by
    refine ⟨fun a _ => ?_,fun a _ => ?_,fun a _ => ?_⟩
    all_goals simp [ReadFirst,LiveBefore]
  obtain ⟨ud,hud,hsum⟩ := foldlM_ok hempty fun done s ud hs hd =>
    hd.step (h s (List.mem_append_left _ hs))
  rw [List.nil_append] at hsum
  rw [computeLocalUd,hud,codeOf]
  by_cases hjmp : classOf b.s.code=bpfJmp
  · have hb : Slotted b.s := h b.s (List.mem_append_right _ (by rw [if_pos hjmp]; exact .head _))
    obtain ⟨ud1,huse,hdefs1,hkill1,hread⟩ := useAtom_ok hb ud
    obtain ⟨ud2,hstep,hsum2⟩ := hsum.step hb
    have hnop : b.s.code≠nop := fun hnop => by
      rw [hnop] at hjmp
      exact absurd hjmp (by decide)
    -- a jump writes nothing
    have hdef : ud1.defAtom b.s=ud1 := by
      rw [LocalUd.defAtom]
      cases hdef : atomdef b.s with
      | none => rfl
      | some atom =>
        obtain hnone | ⟨n,-,hn⟩ := atomdef_cases hb
        · cases hnone.symm.trans hdef
        · exact absurd hn (not_writes_of_jmp hjmp n)
    rw [LocalUd.step,if_neg hnop,huse] at hstep
    cases hstep
    rw [if_pos hjmp]
    refine ⟨ud1,?_,hdef ▸ hsum2⟩
    exact (if_pos hjmp).trans huse
  · rw [if_neg hjmp,List.append_nil]
    exact ⟨ud,if_neg hjmp,hsum⟩

/-! ## The blocks -/

variable {g : FlowGraph}

/-- An atom is needed in front of a block: some path from the block comes to a statement that
reads it before any statement writes it. -/
def Needed (g : FlowGraph) (a : ℕ) : ℕ → Prop :=
  Demanded g.succ (fun q => ReadFirst Reads Writes (codeOf (g.block q)) a)
    fun q => ∀ s∈codeOf (g.block q), ¬Writes s a

/-- The first loop has seen some blocks. -/
structure Started (g : FlowGraph) (done : List ℕ) (ud : UdFields) : Prop where
  /-- What the blocks need themselves. -/
  inUse : ∀ p∈done, ∀ a<18, (ud.inUse p).getLsbD a=true ↔
    ReadFirst Reads Writes (codeOf (g.block p)) a
  /-- What they keep from their successors. -/
  kill : ∀ p∈done, ∀ a<18, (ud.kill p).getLsbD a=true ↔
    (∃ s∈codeOf (g.block p), Writes s a) ∧ ¬ReadFirst Reads Writes (codeOf (g.block p)) a
  /-- Nothing is known of their successors. -/
  outUse : ∀ p∈done, ud.outUse p=0

theorem Started.start {done : List ℕ} {ud : UdFields} (h : Started g done ud) {p : ℕ}
    (hp : ∀ s∈codeOf (g.block p), Slotted s) :
    ∃ ud', ud.start g p=.ok ud' ∧ Started g (done++[p]) ud' := by
  obtain ⟨l,hl,hsum⟩ := computeLocalUd_ok hp
  refine ⟨⟨Function.update ud.defs p l.defs,Function.update ud.kill p l.kill,
    Function.update ud.inUse p l.use,Function.update ud.outUse p 0⟩,?_,?_⟩
  · rw [UdFields.start,hl]
    rfl
  have hsplit : ∀ q∈done++[p], q=p ∨ q≠p ∧ q∈done := fun q hq => by
    by_cases hqp : q=p
    · exact .inl hqp
    · exact .inr ⟨hqp,(List.mem_append.mp hq).resolve_right fun h => hqp (List.mem_singleton.mp h)⟩
  refine ⟨fun q hq a ha => ?_,fun q hq a ha => ?_,fun q hq => ?_⟩
  · rcases hsplit q hq with rfl | ⟨hqp,hq⟩
    · dsimp only
      rw [Function.update_self,hsum.use a ha]
    · dsimp only
      rw [Function.update_of_ne hqp,h.inUse q hq a ha]
  · rcases hsplit q hq with rfl | ⟨hqp,hq⟩
    · dsimp only
      rw [Function.update_self,hsum.kill a ha]
    · dsimp only
      rw [Function.update_of_ne hqp,h.kill q hq a ha]
  · rcases hsplit q hq with rfl | ⟨hqp,hq⟩
    · exact Function.update_self _ _ _
    · exact (Function.update_of_ne hqp _ _).trans (h.outUse q hq)

/-- One atom in the fields `in_use` and `out_use`. -/
def view (a : ℕ) (ud : UdFields) : (ℕ → Prop)×(ℕ → Prop) :=
  (fun p => (ud.inUse p).getLsbD a=true,fun p => (ud.outUse p).getLsbD a=true)

/-- The second loop visits a block. -/
theorem join_view {ud : UdFields} {p t f : ℕ} (ht : (g.block p).jt=some t)
    (hf : (g.block p).jf=some f) : ∃ ud', ud.join g p=.ok ud' ∧ ud'.kill=ud.kill ∧
      ∀ a<18, view a ud'=visit g.succ (fun q => (ud.kill q).getLsbD a=false) (view a ud) p := by
  refine ⟨⟨ud.defs,ud.kill,Function.update ud.inUse p (ud.inUse p |||
    ((ud.outUse p ||| (ud.inUse t ||| ud.inUse f)) &&& ~~~ud.kill p)),
    Function.update ud.outUse p (ud.outUse p ||| (ud.inUse t ||| ud.inUse f))⟩,?_,rfl,
    fun a ha => ?_⟩
  · rw [UdFields.join,ht,hf]
  have hlt : a<32 := by omega
  have hsucc : (∃ y∈g.succ p, (ud.inUse y).getLsbD a=true) ↔
      (ud.inUse t).getLsbD a=true ∨ (ud.inUse f).getLsbD a=true := by
    simp only [mem_succ_of_branch ht hf,exists_eq_or_imp,exists_eq_left,or_comm]
  refine Prod.ext (funext fun q => propext ?_) (funext fun q => propext ?_)
  · by_cases hq : q=p
    · rw [hq,(visit_self _ p).1]
      simp only [view,hsucc,Function.update_self,BitVec.getLsbD_or,BitVec.getLsbD_and,
        BitVec.getLsbD_not,hlt,decide_true,Bool.true_and,Bool.or_eq_true,Bool.and_eq_true,
        Bool.not_eq_true']
    · rw [(visit_ne _ hq).1]
      simp only [view,Function.update_of_ne hq]
  · by_cases hq : q=p
    · rw [hq,(visit_self _ p).2]
      simp only [view,hsucc,Function.update_self,BitVec.getLsbD_or,Bool.or_eq_true]
    · rw [(visit_ne _ hq).2]
      simp only [view,Function.update_of_ne hq]

/-- Levels above zero are those of blocks that branch. -/
theorem findLevelsR_branch {b : ℕ} {st : LevelState}
    (h : ∀ i p, p∈st.levels (i+1) → (g.block p).jt≠none) :
    ∀ i p, p∈(findLevelsR g b st).levels (i+1) → (g.block p).jt≠none := by
  induction hr : g.rank b using Nat.strong_induction_on generalizing b st with
  | _ r ih =>
    subst hr
    rw [findLevelsR]
    split
    · exact h
    · split
      · rename_i t f ht hf
        have hfirst : ∀ i p, p∈(findLevelsR g t ⟨insert b st.marked,st.level,st.levels⟩).levels
            (i+1) → (g.block p).jt≠none := ih (g.rank t) (g.rank_jt b t ht) h rfl
        intro i p hp
        rcases (mem_place _ _ _ _ _).mp hp with ⟨rfl,-⟩ | hp
        · rw [ht]
          exact Option.some_ne_none t
        · exact ih (g.rank f) (g.rank_jf b f hf) hfirst rfl i p hp
      · intro i p hp
        rcases (mem_place _ _ _ _ _).mp hp with ⟨-,hi⟩ | hp
        · exact absurd hi (Nat.succ_ne_zero i)
        · exact h i p hp

/-- A block above level zero branches two ways. -/
theorem exists_branch {level : ℕ → ℕ} {i p : ℕ} (hp : p∈(findLevels g level).levels (i+1)) :
    ∃ t f, (g.block p).jt=some t ∧ (g.block p).jf=some f := by
  have ht : (g.block p).jt≠none :=
    findLevelsR_branch (fun _ _ hp => absurd hp List.not_mem_nil) i p hp
  have hf : (g.block p).jf≠none := fun hf => ht ((g.both p).mpr hf)
  obtain ⟨t,ht⟩ := Option.ne_none_iff_exists'.mp ht
  obtain ⟨f,hf⟩ := Option.ne_none_iff_exists'.mp hf
  exact ⟨t,f,ht,hf⟩

theorem upFromOne_succ (levels : ℕ → List ℕ) (n : ℕ) : BpfOptimizeLoop.upFromOne levels (n+1)=
    BpfOptimizeLoop.upFromOne levels n++levels (n+1) := by
  simp only [BpfOptimizeLoop.upFromOne,List.range_succ,List.flatMap_append,List.flatMap_singleton]

theorem mem_upFromOne {levels : ℕ → List ℕ} {n p : ℕ} :
    p∈BpfOptimizeLoop.upFromOne levels n ↔ ∃ i<n, p∈levels (i+1) := by
  simp only [BpfOptimizeLoop.upFromOne,List.mem_flatMap,List.mem_range]

/-- No level has a block of a lower one. -/
theorem nodup_upFromOne {st : LevelState} (h : Listed (fun _ => False) st) (n : ℕ) :
    (BpfOptimizeLoop.upFromOne st.levels n).Nodup := by
  induction n with
  | zero => exact List.nodup_nil
  | succ n ih =>
    rw [upFromOne_succ,List.nodup_append]
    refine ⟨ih,h.nodup _,?_⟩
    rintro x hx y hy rfl
    obtain ⟨i,hi,hx⟩ := mem_upFromOne.mp hx
    have hown := (h.listed _ x hx).1
    rw [(h.listed _ x hy).1] at hown
    omega

/-- The second loop up to a level. -/
theorem swept_upFromOne {known first keeps : ℕ → Prop} {st : LevelState}
    {S : (ℕ → Prop)×(ℕ → Prop)} (hp : Placed g (fun _ => False) st)
    (h : Swept g.succ first keeps known [] S) (hknown : ∀ i, ∀ p∈st.levels i, known p) (n : ℕ) :
    Swept g.succ first keeps known (BpfOptimizeLoop.upFromOne st.levels n)
      ((BpfOptimizeLoop.upFromOne st.levels n).foldl (visit g.succ keeps) S) := by
  induction n with
  | zero => exact h
  | succ n ih =>
    have hnodup := nodup_upFromOne hp.inLists (n+1)
    rw [upFromOne_succ] at hnodup ⊢
    rw [List.foldl_append]
    refine ih.sweep hnodup (hknown _) fun x hx y hy => ?_
    obtain ⟨hin,hlow⟩ := hp.below _ x hx y hy
    refine ⟨hknown _ y hin,?_⟩
    cases hlevel : st.level y with
    | zero =>
      rw [hlevel] at hin
      refine .inr (List.eq_nil_iff_forall_not_mem.mpr fun z hz => ?_)
      exact absurd (hp.below 0 y hin z hz).2 (Nat.not_lt_zero _)
    | succ i =>
      rw [hlevel] at hin hlow
      exact .inl (mem_upFromOne.mpr ⟨i,by omega,hin⟩)

/-- The second loop visits the blocks above level zero. -/
theorem join_upFromOne (g : FlowGraph) (level : ℕ → ℕ) (n : ℕ) (ud : UdFields) :
    ∃ ud', (BpfOptimizeLoop.upFromOne (findLevels g level).levels n).foldlM (UdFields.join g) ud=
        .ok ud' ∧ ∀ a<18, view a ud'=(BpfOptimizeLoop.upFromOne (findLevels g level).levels n).foldl
          (visit g.succ fun q => (ud.kill q).getLsbD a=false) (view a ud) := by
  let P : List ℕ → UdFields → Prop := fun done ud' => ud'.kill=ud.kill ∧ ∀ a<18, view a ud'=
    done.foldl (visit g.succ fun q => (ud.kill q).getLsbD a=false) (view a ud)
  have hempty : P [] ud := ⟨rfl,fun _ _ => rfl⟩
  obtain ⟨ud',hud',-,hview⟩ := foldlM_ok (f:=UdFields.join g)
    (l:=BpfOptimizeLoop.upFromOne (findLevels g level).levels n) hempty fun done p ud1 hmem hd => by
      obtain ⟨i,-,hi⟩ := mem_upFromOne.mp hmem
      obtain ⟨t,f,ht,hf⟩ := exists_branch hi
      obtain ⟨ud2,hjoin,hkill,hview⟩ := @join_view g ud1 p t f ht hf
      refine ⟨ud2,hjoin,hkill.trans hd.1,fun a ha => ?_⟩
      rw [hview a ha,hd.1,hd.2 a ha,List.foldl_append]
      rfl
  exact ⟨ud',hud',hview⟩

/-- The fields `in_use` and `out_use` hold what is needed in front of the blocks and behind
them. -/
theorem findUd_needed (g : FlowGraph) (level : ℕ → ℕ) (ud : UdFields)
    (hslots : ∀ p, g.Reached p → ∀ s∈codeOf (g.block p), Slotted s) :
    ∃ ud', findUd g level ud=.ok ud' ∧ ∀ p, g.Reached p → ∀ a<18,
      ((ud'.inUse p).getLsbD a=true ↔ Needed g a p) ∧
      ((ud'.outUse p).getLsbD a=true ↔ ∃ c∈g.succ p, Needed g a c) := by
  have hp := (findLevels_spec g level).2
  have hall : ∀ i, ∀ p∈(findLevels g level).levels i, g.Reached p := fun i p hi =>
    (mem_marked_findLevels g level p).mp (hp.listed i p hi).2.1
  have hin : ∀ p, g.Reached p → p∈levelOrder g level := fun p => (mem_levelOrder g level p).mpr
  have hempty : Started g [] ud := by
    refine ⟨fun p hp => ?_,fun p hp => ?_,fun p hp => ?_⟩
    all_goals exact absurd hp List.not_mem_nil
  obtain ⟨ud1,hud1,hstart⟩ := foldlM_ok hempty fun done p ud hmem hd =>
    hd.start (hslots p ((mem_levelOrder g level p).mp hmem))
  rw [List.nil_append] at hstart
  obtain ⟨ud2,hud2,hview⟩ := join_upFromOne g level ((findLevels g level).level g.root) ud1
  refine ⟨ud2,?_,fun p hr a ha => ?_⟩
  · rw [findUd]
    exact (congrArg (fun r : Except Fault UdFields => r >>= _) hud1).trans hud2
  have hclosed : ∀ x, g.Reached x → ∀ y∈g.succ x, g.Reached y :=
    fun _ hx _ hy => Relation.ReflTransGen.tail hx hy
  have hbegin : Swept g.succ (fun q => ReadFirst Reads Writes (codeOf (g.block q)) a)
      (fun q => (ud1.kill q).getLsbD a=false) g.Reached [] (view a ud1) := by
    refine ⟨fun x hx => absurd hx List.not_mem_nil,fun x hx _ => ⟨hstart.inUse x (hin x hx) a ha,?_⟩⟩
    have hnone : ¬(ud1.outUse x).getLsbD a=true := by
      rw [hstart.outUse x (hin x hx)]
      simp
    exact hnone
  have hswept := swept_upFromOne hp hbegin hall ((findLevels g level).level g.root)
  rw [←hview a ha] at hswept
  -- the field `kill` and the atoms that are not written differ where a block reads first
  have hkeeps : ∀ x, g.Reached x → ((ud1.kill x).getLsbD a=false ↔
      ReadFirst Reads Writes (codeOf (g.block x)) a ∨ ∀ s∈codeOf (g.block x), ¬Writes s a) := by
    intro x hx
    rw [←Bool.not_eq_true,hstart.kill x (hin x hx) a ha,not_and_or,not_not,or_comm]
    simp only [not_exists,not_and]
  have hneeded : ∀ x, g.Reached x → (Demanded g.succ
      (fun q => ReadFirst Reads Writes (codeOf (g.block q)) a)
      (fun q => (ud1.kill q).getLsbD a=false) x ↔ Needed g a x) := by
    intro x hx
    constructor
    · exact Demanded.mono (fun y hy hk => (hkeeps y hy).mp hk) hclosed hx
    · exact Demanded.mono (fun y hy hk => .inr ((hkeeps y hy).mpr (.inr hk))) hclosed hx
  have hbehind : ∀ x, g.Reached x → ((∃ y∈g.succ x, Demanded g.succ
      (fun q => ReadFirst Reads Writes (codeOf (g.block q)) a)
      (fun q => (ud1.kill q).getLsbD a=false) y) ↔ ∃ y∈g.succ x, Needed g a y) := fun x hx =>
    exists_congr fun y => and_congr_right fun hy => hneeded y (hclosed x hx y hy)
  by_cases hmem : p∈BpfOptimizeLoop.upFromOne (findLevels g level).levels
      ((findLevels g level).level g.root)
  · obtain ⟨hself,hnext⟩ := hswept.visited p hmem
    exact ⟨hself.trans (hneeded p hr),hnext.trans (hbehind p hr)⟩
  · -- a block of level zero has no successors
    have hmarked := (mem_marked_findLevels g level p).mpr hr
    have hlist := hp.finished p hmarked id
    have hle := @level_le_root g level p hr
    have hleaf : g.succ p=[] := by
      refine List.eq_nil_iff_forall_not_mem.mpr fun z hz => ?_
      cases hlevel : (findLevels g level).level p with
      | zero => exact absurd (hp.below _ p hlist z hz).2 (by rw [hlevel]; exact Nat.not_lt_zero _)
      | succ i =>
        rw [hlevel] at hlist
        exact hmem (mem_upFromOne.mpr ⟨i,by omega,hlist⟩)
    obtain ⟨hself,hnext⟩ := hswept.waiting p hr hmem
    refine ⟨hself.trans ?_,iff_of_false hnext ?_⟩
    · rw [Needed,demanded_iff,hleaf]
      simp
    · rw [hleaf]
      simp

/-- **What is needed behind a block.** For every graph whose scratch registers are among the
sixteen, and whatever the fields held before, `find_ud` ends, and an atom is in `out_use` of a
block if and only if some path from the block leads over blocks that do not write it to one
that reads it before it writes it. -/
theorem outUse_iff (g : FlowGraph) (level : ℕ → ℕ) (ud : UdFields)
    (hslots : ∀ p, g.Reached p → ∀ s∈codeOf (g.block p), Slotted s) :
    ∃ ud', findUd g level ud=.ok ud' ∧ ∀ p, g.Reached p → ∀ a<18,
      ((ud'.outUse p).getLsbD a=true ↔ ∃ path q,
        List.IsChain (fun x y => y∈g.succ x) (p::(path++[q])) ∧
        (∀ x∈path, ∀ s∈codeOf (g.block x), ¬Writes s a) ∧
        ReadFirst Reads Writes (codeOf (g.block q)) a) := by
  obtain ⟨ud',hud',hall⟩ := findUd_needed g level ud hslots
  refine ⟨ud',hud',fun p hp a ha => ?_⟩
  rw [(hall p hp a ha).2]
  exact exists_demanded_iff p

/-- The filter that stores a byte and compares another one, and then looks at the first. -/
def storingFilter : FlowGraph where
  block
    | 0 => ⟨[⟨0x30,none,none,9⟩,⟨0x02,none,none,3⟩,⟨0x30,none,none,0⟩],⟨0x15,none,none,69⟩,
        some 1,some 3,0,0⟩
    | 1 => ⟨[⟨0x60,none,none,3⟩],⟨0x15,none,none,6⟩,some 2,some 3,0,0⟩
    | 2 => ⟨[],⟨6,none,none,96⟩,none,none,0,0⟩
    | _ => ⟨[],⟨6,none,none,0⟩,none,none,0,0⟩
  root := 0
  rank p := 2-p
  rank_jt p c h := by
    match p with
    | 0 =>
      cases h
      decide
    | 1 =>
      cases h
      decide
    | 2 => cases h
    | p+3 => cases h
  rank_jf p c h := by
    match p with
    | 0 =>
      cases h
      decide
    | 1 =>
      cases h
      decide
    | 2 => cases h
    | p+3 => cases h
  both p := by
    match p with
    | 0 => exact ⟨nofun,nofun⟩
    | 1 => exact ⟨nofun,nofun⟩
    | 2 => exact Iff.rfl
    | p+3 => exact Iff.rfl

theorem slotted_storingFilter (p : ℕ) : ∀ s∈codeOf (storingFilter.block p), Slotted s := by
  match p with
  | 0 => decide
  | 1 => decide
  | 2 => decide
  | p+3 => exact fun s hs => absurd hs List.not_mem_nil

theorem outUse_storing : ∃ ud', findUd storingFilter (fun _ => 0) ⟨fun _ => 0,fun _ => 0,
    fun _ => 0,fun _ => 0⟩=.ok ud' ∧ (ud'.outUse 0).getLsbD 3=true := by
  obtain ⟨ud',hud',hall⟩ := outUse_iff storingFilter (fun _ => 0)
    ⟨fun _ => 0,fun _ => 0,fun _ => 0,fun _ => 0⟩ fun p _ => slotted_storingFilter p
  refine ⟨ud',hud',(hall 0 .refl 3 (by decide)).mpr ⟨[],1,?_,?_,.inl ?_⟩⟩
  · exact List.isChain_pair.mpr (by decide)
  · exact fun x hx => absurd hx List.not_mem_nil
  · decide

end AndroidPlatform.BpfLiveness
