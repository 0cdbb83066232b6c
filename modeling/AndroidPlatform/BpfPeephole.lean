import AndroidPlatform.BpfLayout
import AndroidPlatform.BpfValues

/-!
# The optimisation of one block

`opt_blk` of `optimize.c` starts from the numbers that the blocks before agree
on, goes through the statements, and then looks for short sequences it knows
and for stores that nothing reads. Statements are changed in place and removed
by changing their code, so a block never has more of them than before. A
pointer to a statement is its place in the list of the block.
-/

namespace AndroidPlatform.BpfPeephole

open BpfProgram (Stmt nop)
open BpfLayout (slength)
open CInteger CountedResource BpfValues

/-- `struct block`, as far as the optimiser changes it. -/
structure OptBlock where
  /-- `stmts` -/
  stmts : List Stmt
  /-- `s`, the branch or return statement. -/
  s : Stmt
  /-- `JT` -/
  jt : Option ℕ
  /-- `JF` -/
  jf : Option ℕ
  /-- `val` -/
  val : Vals
  /-- `oval` -/
  oval : ℕ
  /-- `et.code` -/
  etCode : ℤ
  /-- `ef.code` -/
  efCode : ℤ

/-! ## Changing statements -/

/-- The code of a statement, `NOP` behind the last one. -/
def codeAt (stmts : List Stmt) (i : ℕ) : ℤ := (stmts[i]?.map Stmt.code).getD nop

/-- The operand of a statement. -/
def kAt (stmts : List Stmt) (i : ℕ) : ℤ := (stmts[i]?.map Stmt.k).getD 0

/-- Set the code of a statement. -/
def setCode (stmts : List Stmt) (i : ℕ) (code : ℤ) : List Stmt :=
  stmts.modify i fun s => {s with code:=code}

/-- Set the operand of a statement. -/
def setK (stmts : List Stmt) (i : ℕ) (k : ℤ) : List Stmt := stmts.modify i fun s => {s with k:=k}

/-- `this_op`: the first statement from a place on that has not been removed. -/
def thisOp (stmts : List Stmt) (i : ℕ) : Option ℕ :=
  if i < stmts.length then if codeAt stmts i=nop then thisOp stmts (i+1) else some i else none
termination_by stmts.length-i

/-- `ATOMELEM(d, n)` -/
def atomElem (d : ℕ) (n : ℤ) : Bool := d.testBit n.toNat

/-- The first test of the loop of `opt_peep`: a store, and a load of the same word. -/
def peepStore (stmts : List Stmt) (s next : ℕ) : Opt (List Stmt) :=
  if codeAt stmts s=bpfSt ∧ codeAt stmts next=bpfLdx+bpfMem ∧ kAt stmts s=kAt stmts next then do
    notDone
    pure (setCode stmts next (bpfMisc+bpfTax))
  else pure stmts

/-- The second test: a constant that goes to the other register. -/
def peepImm (stmts : List Stmt) (s next : ℕ) : Opt (List Stmt) :=
  if codeAt stmts s=bpfLd+bpfImm ∧ codeAt stmts next=bpfMisc+bpfTax then do
    notDone
    pure (setCode (setCode stmts s (bpfLdx+bpfImm)) next (bpfMisc+bpfTxa))
  else pure stmts

/-- The third test: a constant that is added to an index. -/
def peepIndex (outUse : ℕ) (stmts : List Stmt) (s next : ℕ) : Opt (List Stmt) :=
  if codeAt stmts s=bpfLd+bpfImm ∧ atomElem outUse xAtom=false then
    match if codeAt stmts next≠bpfLdx+bpfMsh+bpfB then some next else thisOp stmts (next+1) with
    | none => pure stmts
    | some add =>
      if codeAt stmts add≠bpfAlu+bpfAdd+bpfX then pure stmts
      else
        match thisOp stmts (add+1) with
        | none => pure stmts
        | some tax =>
          if codeAt stmts tax≠bpfMisc+bpfTax then pure stmts
          else
            match thisOp stmts (tax+1) with
            | none => pure stmts
            | some ild =>
              if classOf (codeAt stmts ild)≠bpfLd ∨ modeOf (codeAt stmts ild)≠bpfInd then
                pure stmts
              else do
                notDone
                pure (setCode (setCode (setCode
                  (setK stmts ild (toInt (kAt stmts ild+kAt stmts s))) s nop) add nop) tax nop)
  else pure stmts

/-- The loop of `opt_peep`: the statements, and `last`. -/
def peepLoop (outUse : ℕ) : ℕ → List Stmt → ℕ → ℕ → Opt (List Stmt×ℕ)
  | 0,_,_,_ => throw .outOfFuel
  | rounds+1,stmts,s,last =>
    match thisOp stmts s with
    | none => pure (stmts,last)
    | some s =>
      match thisOp stmts (s+1) with
      | none => pure (stmts,last)
      | some next => do
        let stmts ← peepStore stmts s next
        let stmts ← peepImm stmts s next
        let stmts ← peepIndex outUse stmts s next
        peepLoop outUse rounds stmts next next

variable (maxval : ℕ)

/-- The part of `opt_peep` for a comparison whose operand was just computed. -/
def peepCompare (outUse : ℕ) (b : OptBlock) (last : ℕ) : Opt OptBlock :=
  if b.s.code=bpfJmp+bpfJeq+bpfK ∧ atomElem outUse aAtom=false then
    if codeAt b.stmts last=bpfAlu+bpfSub+bpfX then do
      match ← vmapAt maxval (b.val xAtom) with
      | some c =>
        notDone
        pure {b with s:={b.s with k:=toInt (b.s.k+c)},stmts:=setCode b.stmts last nop}
      | none =>
        if b.s.k=0 then
          notDone
          pure {b with s:={b.s with code:=bpfJmp+bpfJeq+bpfX},stmts:=setCode b.stmts last nop}
        else pure b
    else if codeAt b.stmts last=bpfAlu+bpfSub+bpfK then do
      notDone
      pure {b with s:={b.s with k:=toInt (b.s.k+kAt b.stmts last)},
                   stmts:=setCode b.stmts last nop}
    else if codeAt b.stmts last=bpfAlu+bpfAnd+bpfK ∧ b.s.k=0 then do
      notDone
      pure {b with s:={b.s with k:=kAt b.stmts last,code:=bpfJmp+bpfK+bpfJset},
                   stmts:=setCode b.stmts last nop,jt:=b.jf,jf:=b.jt}
    else pure b
  else pure b

/-- The part of `opt_peep` for a test of no bits or of all bits. -/
def peepJset (b : OptBlock) : OptBlock :=
  if b.s.code=bpfJmp+bpfK+bpfJset then
    let b := if b.s.k=0 then {b with jt:=b.jf} else b
    if toU32 b.s.k=0xffffffff then {b with jf:=b.jt} else b
  else b

/-- The part of `opt_peep` for a comparison with a known register. -/
def peepKnownX (b : OptBlock) : Opt OptBlock := do
  match ← vmapAt maxval (b.val xAtom) with
  | some v =>
    if srcOf b.s.code=bpfX then pure {b with s:={b.s with code:=b.s.code-bpfX,k:=v}} else pure b
  | none => pure b

/-- The value of a comparison of two constants. -/
def compares (op v k : ℤ) : Except Fault Bool :=
  if op=bpfJeq then .ok (v==k)
  else if op=bpfJgt then .ok (toU32 k<toU32 v)
  else if op=bpfJge then .ok (toU32 k≤toU32 v)
  else if op=bpfJset then .ok (toU32 v &&& toU32 k != 0)
  else .error .abort

/-- The optimiser is not done when two different edges become one. -/
def joinsEdges (b : OptBlock) : Opt Unit := if b.jf≠b.jt then notDone else pure ()

/-- The part of `opt_peep` for a comparison whose result is known. -/
def peepKnownA (b : OptBlock) : Opt OptBlock := do
  match ← vmapAt maxval (b.val aAtom) with
  | some v =>
    if srcOf b.s.code=bpfK then
      match compares (opOf b.s.code) v b.s.k with
      | .error e => throw e
      | .ok taken =>
        joinsEdges b
        if taken then pure {b with jf:=b.jt} else pure {b with jt:=b.jf}
    else pure b
  | none => pure b

/-- `opt_peep` -/
def optPeep (outUse : ℕ) (b : OptBlock) : Opt OptBlock :=
  if b.stmts=[] then pure b
  else do
    let looped ← peepLoop outUse (b.stmts.length+1) b.stmts 0 0
    let b ← peepCompare maxval outUse {b with stmts:=looped.1} looped.2
    let b ← peepKnownX maxval (peepJset b)
    peepKnownA maxval b

/-! ## Stores that nothing reads -/

/-- A pointer to a statement of a block. -/
inductive Place where
  /-- A statement before the branch. -/
  | stmt (i : ℕ)
  /-- The branch. -/
  | branch

/-- `AX_ATOM` -/
def axAtom : ℤ := 18

/-- `atomuse`; nothing stands for -1. -/
def atomuse (s : Stmt) : Option ℤ :=
  if s.code=nop then none
  else if classOf s.code=bpfRet then
    if sizeBits s.code=bpfA then some aAtom
    else if sizeBits s.code=bpfX then some xAtom else none
  else if classOf s.code=bpfLd ∨ classOf s.code=bpfLdx then
    if modeOf s.code=bpfInd then some xAtom else if modeOf s.code=bpfMem then some s.k else none
  else if classOf s.code=bpfSt then some aAtom
  else if classOf s.code=bpfStx then some xAtom
  else if classOf s.code=bpfJmp ∨ classOf s.code=bpfAlu then
    if srcOf s.code=bpfX then some axAtom else some aAtom
  else if miscOpOf s.code=bpfTxa then some xAtom else some aAtom

/-- `atomdef`; nothing stands for -1. -/
def atomdef (s : Stmt) : Option ℤ :=
  if s.code=nop then none
  else if classOf s.code=bpfLd ∨ classOf s.code=bpfAlu then some aAtom
  else if classOf s.code=bpfLdx then some xAtom
  else if classOf s.code=bpfSt ∨ classOf s.code=bpfStx then some s.k
  else if classOf s.code=bpfMisc then
    if miscOpOf s.code=bpfTax then some xAtom else some aAtom
  else none

/-- Set the code of a statement of a block to `NOP`. -/
def kill (b : OptBlock) : Place → OptBlock
  | .stmt i => {b with stmts:=setCode b.stmts i nop}
  | .branch => {b with s:={b.s with code:=nop}}

/-- The statement at a place. -/
def stmtAt (b : OptBlock) : Place → Stmt
  | .stmt i => (b.stmts[i]?).getD b.s
  | .branch => b.s

/-- The last stores to the atoms. -/
abbrev Last := ℤ → Option Place

/-- The first half of `deadstmt`: what a statement reads is no longer dead. -/
def readAtoms (s : Stmt) (last : Last) : Last :=
  match atomuse s with
  | some atom =>
    if atom<0 then last
    else if atom=axAtom then Function.update (Function.update last xAtom none) aAtom none
    else Function.update last atom none
  | none => last

/-- `deadstmt` for the statement at a place. -/
def deadstmt (b : OptBlock) (last : Last) (place : Place) : Opt (OptBlock×Last) :=
  match atomdef (stmtAt b place) with
  | some atom =>
    if atom<0 then pure (b,readAtoms (stmtAt b place) last)
    else
      match readAtoms (stmtAt b place) last atom with
      | some p => do
        notDone
        pure (kill b p,Function.update (readAtoms (stmtAt b place) last) atom (some place))
      | none => pure (b,Function.update (readAtoms (stmtAt b place) last) atom (some place))
  | none => pure (b,readAtoms (stmtAt b place) last)

/-- The body of the last loop of `opt_deadstores`. -/
def killUnused (outUse : ℕ) (last : Last) (b : OptBlock) (atom : ℕ) : Opt OptBlock :=
  match last atom with
  | some p =>
    if atomElem outUse atom=false then do
      notDone
      pure (kill b p)
    else pure b
  | none => pure b

/-- `opt_deadstores` -/
def optDeadstores (outUse : ℕ) (b : OptBlock) : Opt OptBlock := do
  let read ← ((List.range b.stmts.length).map Place.stmt++[Place.branch]).foldlM
    (fun r place => deadstmt r.1 r.2 place) (b,fun _ => none)
  (List.range 18).foldlM (killUnused outUse read.2) read.1

/-! ## One block -/

/-- The numbers on which all blocks before agree, and zero elsewhere. -/
def meet : List Vals → Vals
  | [] => fun _ => 0
  | val::rest => rest.foldl (fun val other atom => if val atom=other atom then val atom else 0) val

/-- The loop of `opt_blk` over the statements. -/
def optStmts : List Stmt → Vals → Bool → Opt (List Stmt×Vals)
  | [],val,_ => pure ([],val)
  | s::stmts,val,alter => do
    let r ← optStmt maxval s val alter
    let rest ← optStmts stmts r.2 alter
    pure (r.1::rest.1,rest.2)

/-- What `opt_blk` does behind that loop: remove all statements, or look at them. -/
def reduceStmts (outUse : ℕ) (doStmts : Bool) (aval xval : ℕ) (b : OptBlock) : Opt OptBlock :=
  if doStmts=true ∧ ((outUse=0 ∧ aval≠0 ∧ b.val aAtom=aval ∧ xval≠0 ∧ b.val xAtom=xval) ∨
      classOf b.s.code=bpfRet) then
    if b.stmts≠[] then do
      notDone
      pure {b with stmts:=[]}
    else pure b
  else do
    let b ← optPeep maxval outUse b
    optDeadstores outUse b

/-- The end of `opt_blk`: the number of the operand of the branch. -/
def setOval (b : OptBlock) : Opt OptBlock :=
  if srcOf b.s.code=bpfK then do
    let oval ← K maxval b.s.k
    pure {b with oval:=oval,etCode:=b.s.code,efCode:= -b.s.code}
  else pure {b with oval:=b.val xAtom,etCode:=b.s.code,efCode:= -b.s.code}

/-- `opt_blk`, with the numbers of the blocks before along `in_edges`. -/
def optBlk (outUse : ℕ) (preds : List Vals) (doStmts : Bool) (b : OptBlock) : Opt OptBlock := do
  let r ← optStmts maxval b.stmts (meet preds) doStmts
  let b ← reduceStmts maxval outUse doStmts (meet preds aAtom) (meet preds xAtom)
    {b with stmts:=r.1,val:=r.2}
  setOval maxval b

/-! ## What a block takes -/

variable {maxval} {stmts : List Stmt} {b : OptBlock} {i : ℕ}

theorem slength_cons (s : Stmt) (stmts : List Stmt) :
    slength (s::stmts)=slength stmts+if s.code=nop then 0 else 1 := by
  rw [slength,slength,List.countP_cons]
  by_cases h : s.code=nop
  · simp [h]
  · simp [h]

/-- A change of a code that removes a statement, or changes one that is there. -/
theorem slength_setCode {code : ℤ} (h : codeAt stmts i≠nop ∨ code=nop) :
    slength (setCode stmts i code) ≤ slength stmts := by
  induction stmts generalizing i with
  | nil =>
    rw [setCode,List.modify_nil]
  | cons s stmts ih =>
    cases i with
    | zero =>
      rw [setCode,List.modify_zero_cons,slength_cons,slength_cons]
      rcases h with h | h
      · rw [if_neg (show s.code≠nop from h)]
        split
        · omega
        · exact le_rfl
      · rw [if_pos h]
        omega
    | succ i =>
      have hle := @ih i h
      rw [setCode] at hle ⊢
      rw [List.modify_succ_cons,slength_cons,slength_cons]
      omega

theorem slength_setK (stmts : List Stmt) (i : ℕ) (k : ℤ) : slength (setK stmts i k)=slength stmts := by
  induction stmts generalizing i with
  | nil => rw [setK,List.modify_nil]
  | cons s stmts ih =>
    cases i with
    | zero => rw [setK,List.modify_zero_cons,slength_cons,slength_cons]
    | succ i =>
      have heq := ih i
      rw [setK] at heq ⊢
      rw [List.modify_succ_cons,slength_cons,slength_cons,heq]

theorem slength_kill (stmts : List Stmt) (i : ℕ) : slength (setCode stmts i nop) ≤ slength stmts :=
  slength_setCode (.inr rfl)

theorem thisOp_spec {j : ℕ} (h : thisOp stmts i=some j) : codeAt stmts j≠nop := by
  induction i using thisOp.induct stmts with
  | case1 i hi hnop ih =>
    rw [thisOp,if_pos hi,if_pos hnop] at h
    exact ih h
  | case2 i hi hnop =>
    rw [thisOp,if_pos hi,if_neg hnop] at h
    cases h
    exact hnop
  | case3 i hi =>
    rw [thisOp,if_neg hi] at h
    cases h

/-- A part of the optimiser that changes no number, and leaves what it should. -/
abbrev Frees (maxval : ℕ) {α : Type} (m : Opt α) (post : α → Prop) : Prop :=
  (numbers maxval).Spends 0 m post

/-- The statements of a list are no more than those of another. -/
def Shorter (stmts stmts' : List Stmt) : Prop := slength stmts' ≤ slength stmts

theorem frees_done {α : Type} {a : α} {post : α → Prop} (h : post a) :
    Frees maxval (do notDone; pure a) post :=
  spends_free spends_notDone fun _ _ => spends_pure h

theorem frees_peepStore {s next : ℕ} (hnext : codeAt stmts next≠nop) :
    Frees maxval (peepStore stmts s next) (Shorter stmts) := by
  rw [peepStore]
  exact spends_ite (fun _ => frees_done (slength_setCode (.inl hnext))) fun _ => spends_pure le_rfl

theorem codeAt_setCode_ne {j : ℕ} (hij : i≠j) (code : ℤ) :
    codeAt (setCode stmts i code) j=codeAt stmts j := by
  simp only [codeAt,setCode,List.getElem?_modify,if_neg hij,id_map']

theorem frees_peepImm (s next : ℕ) : Frees maxval (peepImm stmts s next) (Shorter stmts) := by
  rw [peepImm]
  refine spends_ite (fun h => frees_done ?_) fun _ => spends_pure le_rfl
  have hs : codeAt stmts s≠nop := by
    rw [h.1]
    decide
  have hnext : codeAt (setCode stmts s (bpfLdx+bpfImm)) next≠nop := by
    by_cases heq : s=next
    · rw [heq] at h
      exact absurd (h.1.symm.trans h.2) (by decide)
    · rw [codeAt_setCode_ne heq,h.2]
      decide
  exact Nat.le_trans (slength_setCode (.inl hnext)) (slength_setCode (.inl hs))

theorem frees_peepIndex (outUse s next : ℕ) :
    Frees maxval (peepIndex outUse stmts s next) (Shorter stmts) := by
  have hsame : Shorter stmts stmts := Nat.le_refl _
  rw [peepIndex]
  refine spends_ite (fun _ => ?_) fun _ => spends_pure hsame
  split
  · exact spends_pure hsame
  · rename_i add _
    refine spends_ite (fun _ => spends_pure hsame) fun _ => ?_
    split
    · exact spends_pure hsame
    · rename_i tax _
      refine spends_ite (fun _ => spends_pure hsame) fun _ => ?_
      split
      · exact spends_pure hsame
      · rename_i ild _
        refine spends_ite (fun _ => spends_pure hsame) fun _ => frees_done ?_
        refine Nat.le_trans (slength_kill _ _) (Nat.le_trans (slength_kill _ _)
          (Nat.le_trans (slength_kill _ _) ?_))
        rw [slength_setK]

theorem frees_peepLoop (outUse rounds s last : ℕ) :
    Frees maxval (peepLoop outUse rounds stmts s last) fun r => Shorter stmts r.1 := by
  induction rounds generalizing stmts s last with
  | zero => exact spends_throw fun h => by cases h
  | succ rounds ih =>
    rw [peepLoop]
    split
    · exact spends_pure (Nat.le_refl _)
    · split
      · exact spends_pure (Nat.le_refl _)
      · rename_i s' _ next hnext
        refine spends_free (frees_peepStore (thisOp_spec hnext)) fun stmts' h => ?_
        refine spends_free (frees_peepImm _ _) fun stmts'' h' => ?_
        refine spends_free (frees_peepIndex outUse _ _) fun stmts''' h'' => ?_
        refine (ih next next).mono le_rfl fun r hr => ?_
        exact Nat.le_trans hr (Nat.le_trans h'' (Nat.le_trans h' h))

/-- What the optimisation of a block leaves of it: no more statements, edges to
the same blocks, and the same numbers. -/
structure Reduces (b b' : OptBlock) : Prop where
  /-- No statement is added. -/
  stmts : Shorter b.stmts b'.stmts
  /-- The branch that is taken leads where one of the two led. -/
  jt : b'.jt=b.jt ∨ b'.jt=b.jf
  /-- So does the other one. -/
  jf : b'.jf=b.jt ∨ b'.jf=b.jf
  /-- The numbers stay. -/
  val : b'.val=b.val

theorem Reduces.refl (b : OptBlock) : Reduces b b := ⟨Nat.le_refl _,.inl rfl,.inr rfl,rfl⟩

theorem Reduces.trans {b b' b'' : OptBlock} (h : Reduces b b') (h' : Reduces b' b'') :
    Reduces b b'' := by
  refine ⟨Nat.le_trans h'.stmts h.stmts,?_,?_,h'.val.trans h.val⟩
  · rcases h'.jt with he | he
    · exact h.jt.imp he.trans he.trans
    · exact h.jf.imp he.trans he.trans
  · rcases h'.jf with he | he
    · exact h.jt.imp he.trans he.trans
    · exact h.jf.imp he.trans he.trans

/-- The statements of a block may be replaced by no more than there were. -/
theorem Reduces.of_stmts (h : Shorter b.stmts stmts) (s : Stmt) :
    Reduces b {b with stmts:=stmts,s:=s} := ⟨h,.inl rfl,.inr rfl,rfl⟩

theorem frees_peepCompare (hval : Below maxval b.val) (outUse last : ℕ) :
    Frees maxval (peepCompare maxval outUse b last) (Reduces b) := by
  have hkill := slength_kill b.stmts last
  rw [peepCompare]
  refine spends_ite (fun _ => ?_) fun _ => spends_pure (.refl b)
  refine spends_ite (fun _ => ?_) fun _ => spends_ite (fun _ => ?_) fun _ =>
    spends_ite (fun _ => ?_) fun _ => spends_pure (.refl b)
  · refine spends_free (spends_vmapAt (hval xAtom)) fun c _ => ?_
    cases c with
    | some c => exact frees_done (.of_stmts hkill _)
    | none =>
      exact spends_ite (fun _ => frees_done (.of_stmts hkill _)) fun _ => spends_pure (.refl b)
  · exact frees_done (.of_stmts hkill _)
  · exact frees_done ⟨hkill,.inr rfl,.inl rfl,rfl⟩

theorem reduces_peepJset (b : OptBlock) : Reduces b (peepJset b) := by
  have hjt : Reduces b {b with jt:=b.jf} := ⟨Nat.le_refl _,.inr rfl,.inr rfl,rfl⟩
  have hjf : ∀ b : OptBlock, Reduces b {b with jf:=b.jt} :=
    fun b => ⟨Nat.le_refl _,.inl rfl,.inl rfl,rfl⟩
  rw [peepJset]
  split
  · by_cases hzero : b.s.k=0
    · rw [if_pos hzero]
      dsimp only
      split
      · exact hjt.trans (hjf _)
      · exact hjt
    · rw [if_neg hzero]
      dsimp only
      split
      · exact hjf b
      · exact .refl b
  · exact .refl b

theorem frees_peepKnownX (hval : Below maxval b.val) :
    Frees maxval (peepKnownX maxval b) (Reduces b) := by
  refine spends_free (spends_vmapAt (hval xAtom)) fun v _ => ?_
  cases v with
  | some v =>
    exact spends_ite (fun _ => spends_pure (.of_stmts (Nat.le_refl _) _))
      fun _ => spends_pure (.refl b)
  | none => exact spends_pure (.refl b)

theorem frees_peepKnownA (hval : Below maxval b.val) :
    Frees maxval (peepKnownA maxval b) (Reduces b) := by
  refine spends_free (spends_vmapAt (hval aAtom)) fun v _ => ?_
  cases v with
  | none => exact spends_pure (.refl b)
  | some v =>
    refine spends_ite (fun _ => ?_) fun _ => spends_pure (.refl b)
    cases hcompare : compares (opOf b.s.code) v b.s.k with
    | error e =>
      refine spends_throw fun he => ?_
      have hbad : e=.outOfBounds := he
      rw [hbad,compares] at hcompare
      split_ifs at hcompare
      all_goals cases hcompare
    | ok taken =>
      have hskip : Frees maxval (joinsEdges b) fun _ => True :=
        spends_ite (fun _ => spends_notDone) fun _ => spends_pure trivial
      refine spends_free hskip fun _ _ => spends_ite (fun _ => spends_pure ?_) fun _ =>
        spends_pure ?_
      · exact ⟨Nat.le_refl _,.inl rfl,.inl rfl,rfl⟩
      · exact ⟨Nat.le_refl _,.inr rfl,.inr rfl,rfl⟩

/-- The peephole optimisation takes no number. -/
theorem frees_optPeep (hval : Below maxval b.val) (outUse : ℕ) :
    Frees maxval (optPeep maxval outUse b) (Reduces b) := by
  rw [optPeep]
  refine spends_ite (fun _ => spends_pure (.refl b)) fun _ => ?_
  refine spends_free (frees_peepLoop outUse _ 0 0) fun looped hlooped => ?_
  have hb : Reduces b {b with stmts:=looped.1} := ⟨hlooped,.inl rfl,.inr rfl,rfl⟩
  have hcompare : Frees maxval (peepCompare maxval outUse {b with stmts:=looped.1} looped.2)
      (Reduces {b with stmts:=looped.1}) :=
    @frees_peepCompare maxval {b with stmts:=looped.1} hval outUse looped.2
  refine spends_free hcompare fun b' h' => ?_
  have hjset := (hb.trans h').trans (reduces_peepJset b')
  have hbelow : Below maxval (peepJset b').val := by
    rw [hjset.val]
    exact hval
  refine spends_free (frees_peepKnownX hbelow) fun b'' h'' => ?_
  have hknown := hjset.trans h''
  have hbelow' : Below maxval b''.val := by
    rw [hknown.val]
    exact hval
  exact (frees_peepKnownA hbelow').mono le_rfl fun _ h => hknown.trans h

theorem reduces_kill (b : OptBlock) (p : Place) : Reduces b (kill b p) := by
  cases p with
  | stmt i => exact ⟨slength_kill _ _,.inl rfl,.inr rfl,rfl⟩
  | branch => exact .of_stmts (Nat.le_refl _) _

theorem frees_deadstmt (last : Last) (place : Place) :
    Frees maxval (deadstmt b last place) fun r => Reduces b r.1 := by
  rw [deadstmt]
  split
  · refine spends_ite (fun _ => spends_pure (.refl b)) fun _ => ?_
    split
    · exact frees_done (reduces_kill b _)
    · exact spends_pure (.refl b)
  · exact spends_pure (.refl b)

theorem frees_killUnused (outUse : ℕ) (last : Last) (atom : ℕ) :
    Frees maxval (killUnused outUse last b atom) (Reduces b) := by
  rw [killUnused]
  split
  · exact spends_ite (fun _ => frees_done (reduces_kill b _)) fun _ => spends_pure (.refl b)
  · exact spends_pure (.refl b)

/-- A loop whose rounds take nothing. -/
theorem frees_foldlM {α β : Type} {f : α → β → Opt α} {l : List β} {post : α → Prop}
    (hf : ∀ a, ∀ x∈l, post a → Frees maxval (f a x) post) {a : α} (ha : post a) :
    Frees maxval (l.foldlM f a) post := by
  have h : (numbers maxval).Spends (l.map fun _ => 0).sum (l.foldlM f a) post :=
    spends_foldlM hf ha
  have hzero : (l.map fun _ => 0).sum=0 := by simp
  rwa [hzero] at h

theorem frees_optDeadstores (outUse : ℕ) (b : OptBlock) :
    Frees maxval (optDeadstores outUse b) (Reduces b) := by
  have hread : Frees maxval (((List.range b.stmts.length).map Place.stmt++[Place.branch]).foldlM
      (fun r place => deadstmt r.1 r.2 place) (b,fun _ => none)) fun r => Reduces b r.1 :=
    frees_foldlM (fun r place _ h => (frees_deadstmt r.2 place).mono le_rfl fun _ h' => h.trans h')
      (Reduces.refl b)
  refine spends_free hread fun read h => ?_
  exact frees_foldlM (fun b' atom _ h' => (frees_killUnused outUse read.2 atom).mono le_rfl
    fun _ h'' => h'.trans h'') h

theorem below_meet (hmax : 0 < maxval) {preds : List Vals} (h : ∀ val∈preds, Below maxval val) :
    Below maxval (meet preds) := by
  have hfold : ∀ (rest : List Vals) (val : Vals), Below maxval val →
      Below maxval (rest.foldl (fun val other atom => if val atom=other atom then val atom else 0)
        val) := by
    intro rest
    induction rest with
    | nil => exact fun val hval => hval
    | cons other rest ih =>
      intro val hval
      refine ih _ fun atom => ?_
      dsimp only
      split
      · exact hval atom
      · exact hmax
  cases preds with
  | nil => exact fun _ => hmax
  | cons val rest => exact hfold rest val (h val List.mem_cons_self)

/-- The statements of a block take two numbers each. -/
theorem spends_optStmts {val : Vals} (hval : Below maxval val) (alter : Bool) :
    (numbers maxval).Spends (2*slength stmts) (optStmts maxval stmts val alter)
      fun r => Below maxval r.2 ∧ Shorter stmts r.1 := by
  induction stmts generalizing val with
  | nil => exact spends_pure ⟨hval,Nat.le_refl _⟩
  | cons s stmts ih =>
    have hone : (numbers maxval).Spends (2*if s.code=nop then 0 else 1)
        (optStmt maxval s val alter) fun r => Below maxval r.2 ∧ (s.code=nop → r.1.code=nop) := by
      by_cases hnop : s.code=nop
      · rw [optStmt_nop hnop]
        exact spends_pure ⟨hval,fun _ => hnop⟩
      · rw [if_neg hnop]
        exact (spends_optStmt hval).mono le_rfl fun r hr => ⟨hr,fun h => absurd h hnop⟩
    have hsum : 2*slength (s::stmts)=2*(if s.code=nop then 0 else 1)+2*slength stmts := by
      rw [slength_cons]
      omega
    rw [hsum]
    refine spends_bind hone fun r hr => spends_bind (k:=0) (ih hr.1) fun rest hrest =>
      spends_pure ⟨hrest.1,?_⟩
    have hle : slength rest.1 ≤ slength stmts := hrest.2
    rw [Shorter,slength_cons,slength_cons]
    by_cases hnop : s.code=nop
    · rw [if_pos hnop,if_pos (hr.2 hnop)]
      exact hle
    · rw [if_neg hnop]
      split
      · omega
      · omega

theorem frees_reduceStmts (hval : Below maxval b.val) (outUse : ℕ) (doStmts : Bool)
    (aval xval : ℕ) : Frees maxval (reduceStmts maxval outUse doStmts aval xval b) (Reduces b) := by
  rw [reduceStmts]
  refine spends_ite (fun _ => spends_ite (fun _ => frees_done ?_) fun _ => spends_pure (.refl b))
    fun _ => ?_
  · exact ⟨Nat.zero_le _,.inl rfl,.inr rfl,rfl⟩
  · refine spends_free (frees_optPeep hval outUse) fun b' h' => ?_
    exact (frees_optDeadstores outUse b').mono le_rfl fun _ h => h'.trans h

theorem spends_setOval (b : OptBlock) :
    (numbers maxval).Spends 1 (setOval maxval b) (Reduces b) := by
  rw [setOval]
  refine spends_ite (fun _ => ?_) fun _ => spends_pure ⟨Nat.le_refl _,.inl rfl,.inr rfl,rfl⟩
  exact spends_bind (spends_K _) (k:=0) fun _ _ =>
    spends_pure ⟨Nat.le_refl _,.inl rfl,.inr rfl,rfl⟩

/-- What `opt_blk` leaves of a block. -/
structure Rewrites (maxval : ℕ) (b b' : OptBlock) : Prop where
  /-- No statement is added. -/
  stmts : Shorter b.stmts b'.stmts
  /-- The branch that is taken leads where one of the two led. -/
  jt : b'.jt=b.jt ∨ b'.jt=b.jf
  /-- So does the other one. -/
  jf : b'.jf=b.jt ∨ b'.jf=b.jf
  /-- The numbers in the atoms are below `maxval`. -/
  val : Below maxval b'.val

/-- **Blocks.** A block takes two numbers for every statement and one for its branch. -/
theorem spends_optBlk (hmax : 0 < maxval) {preds : List Vals}
    (hpreds : ∀ val∈preds, Below maxval val) (outUse : ℕ) (doStmts : Bool) (b : OptBlock) :
    (numbers maxval).Spends (2*slength b.stmts+1) (optBlk maxval outUse preds doStmts b)
      (Rewrites maxval b) := by
  have hmeet := below_meet hmax hpreds
  refine spends_bind (spends_optStmts hmeet doStmts) fun r hr => ?_
  refine spends_free (frees_reduceStmts hr.1 outUse doStmts _ _) fun b' h' => ?_
  refine (spends_setOval b').mono le_rfl fun b'' h'' => ?_
  have hreduces := h'.trans h''
  refine ⟨Nat.le_trans hreduces.stmts hr.2,hreduces.jt,hreduces.jf,?_⟩
  rw [hreduces.val]
  exact hr.1

end AndroidPlatform.BpfPeephole
