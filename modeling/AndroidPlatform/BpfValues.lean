import AndroidPlatform.BpfProgram
import AndroidPlatform.CInteger
import AndroidPlatform.CountedResource

/-!
# Value numbers of the filter optimiser

The optimiser of `optimize.c` gives a number to every value that a statement
computes, so that equal values get the same number. The numbers are handed out
by `F` in order, from one on in every pass. Two arrays of `maxval` entries go
with them: `vmap` says which values are constants, and `vnode_base` holds the
entries of the hash table. Every access to an entry that is not there is an
error here.
-/

namespace AndroidPlatform.BpfValues

open BpfProgram (Stmt nop)
open CInteger CountedResource

/-! ## Codes -/

/-- `BPF_LD` -/
def bpfLd : ℤ := 0x00
/-- `BPF_LDX` -/
def bpfLdx : ℤ := 0x01
/-- `BPF_ST` -/
def bpfSt : ℤ := 0x02
/-- `BPF_STX` -/
def bpfStx : ℤ := 0x03
/-- `BPF_ALU` -/
def bpfAlu : ℤ := 0x04
/-- `BPF_JMP` -/
def bpfJmp : ℤ := 0x05
/-- `BPF_RET` -/
def bpfRet : ℤ := 0x06
/-- `BPF_MISC` -/
def bpfMisc : ℤ := 0x07
/-- `BPF_W` -/
def bpfW : ℤ := 0x00
/-- `BPF_H` -/
def bpfH : ℤ := 0x08
/-- `BPF_B` -/
def bpfB : ℤ := 0x10
/-- `BPF_IMM` -/
def bpfImm : ℤ := 0x00
/-- `BPF_ABS` -/
def bpfAbs : ℤ := 0x20
/-- `BPF_IND` -/
def bpfInd : ℤ := 0x40
/-- `BPF_MEM` -/
def bpfMem : ℤ := 0x60
/-- `BPF_LEN` -/
def bpfLen : ℤ := 0x80
/-- `BPF_MSH` -/
def bpfMsh : ℤ := 0xa0
/-- `BPF_ADD` -/
def bpfAdd : ℤ := 0x00
/-- `BPF_SUB` -/
def bpfSub : ℤ := 0x10
/-- `BPF_MUL` -/
def bpfMul : ℤ := 0x20
/-- `BPF_DIV` -/
def bpfDiv : ℤ := 0x30
/-- `BPF_OR` -/
def bpfOr : ℤ := 0x40
/-- `BPF_AND` -/
def bpfAnd : ℤ := 0x50
/-- `BPF_LSH` -/
def bpfLsh : ℤ := 0x60
/-- `BPF_RSH` -/
def bpfRsh : ℤ := 0x70
/-- `BPF_NEG` -/
def bpfNeg : ℤ := 0x80
/-- `BPF_JEQ` -/
def bpfJeq : ℤ := 0x10
/-- `BPF_JGT` -/
def bpfJgt : ℤ := 0x20
/-- `BPF_JGE` -/
def bpfJge : ℤ := 0x30
/-- `BPF_JSET` -/
def bpfJset : ℤ := 0x40
/-- `BPF_K` -/
def bpfK : ℤ := 0x00
/-- `BPF_X` -/
def bpfX : ℤ := 0x08
/-- `BPF_A` -/
def bpfA : ℤ := 0x10
/-- `BPF_TAX` -/
def bpfTax : ℤ := 0x00
/-- `BPF_TXA` -/
def bpfTxa : ℤ := 0x80

/-- `BPF_CLASS(code)`, the bits 0x07. -/
def classOf (code : ℤ) : ℤ := code%8
/-- `BPF_SIZE(code)`, and `BPF_RVAL(code)`: the bits 0x18. -/
def sizeBits (code : ℤ) : ℤ := 8*(code/8%4)
/-- `BPF_MODE(code)`, the bits 0xe0. -/
def modeOf (code : ℤ) : ℤ := 32*(code/32%8)
/-- `BPF_OP(code)`, the bits 0xf0. -/
def opOf (code : ℤ) : ℤ := 16*(code/16%16)
/-- `BPF_SRC(code)`, the bit 0x08. -/
def srcOf (code : ℤ) : ℤ := 8*(code/8%2)
/-- `BPF_MISCOP(code)`, the bits 0xf8. -/
def miscOpOf (code : ℤ) : ℤ := 8*(code/8%32)

/-- `A_ATOM` -/
def aAtom : ℤ := 16
/-- `X_ATOM` -/
def xAtom : ℤ := 17

/-! ## Numbers -/

/-- How the optimiser stops. -/
inductive Fault where
  /-- It goes beyond the end of `vmap` or of `vnode_base`. -/
  | outOfBounds
  /-- `bpf_error("division by zero")` -/
  | divisionByZero
  /-- `abort` -/
  | abort
  /-- It follows a null pointer. -/
  | nullPointer
  /-- A loop has not ended within the rounds it was given. -/
  | outOfFuel
  deriving DecidableEq

/-- `struct valnode` -/
structure Valnode where
  /-- `code` -/
  code : ℤ
  /-- `v0` -/
  v0 : ℤ
  /-- `v1` -/
  v1 : ℤ
  /-- `val` -/
  val : ℕ

/-- The static variables of the optimiser. -/
structure Globals where
  /-- `done` -/
  done : Bool
  /-- `curval` -/
  curval : ℕ
  /-- `next_vnode-vnode_base` -/
  nextVnode : ℕ
  /-- `vmap`: the constant an entry holds, if it holds one. -/
  vmap : ℕ → Option ℤ
  /-- `hashtbl` -/
  hashtbl : ℕ → List Valnode
  /-- The numbers that `F` has returned so far. The code keeps no such list. -/
  handed : List ℕ

/-- A part of the optimiser. -/
abbrev Opt := Run Globals Fault

/-- The field `val` of a block: the number of the value in every atom. The atoms
below `aAtom` are the scratch registers. -/
abbrev Vals := ℤ → ℕ

/-- `done = 0` -/
def notDone : Opt Unit := modify fun g => {g with done:=false}

/-- `init_val` -/
def initVal : Opt Unit :=
  modify fun g => {g with curval:=0,nextVnode:=0,vmap:=fun _ => none,hashtbl:=fun _ => []}

/-- The bucket of a value. -/
def hashOf (code v0 v1 : ℤ) : ℕ :=
  (BitVec.ofInt 32 code ^^^ BitVec.ofInt 32 v0<<<4 ^^^ BitVec.ofInt 32 v1<<<8).toNat%213

/-- The code loads a constant, as `F` tests it. -/
def loadsConst (code : ℤ) : Prop := modeOf code=bpfImm ∧ (classOf code=bpfLd ∨ classOf code=bpfLdx)

instance (code : ℤ) : Decidable (loadsConst code) := inferInstanceAs (Decidable (_ ∧ _))

variable (maxval : ℕ)

/-- `F`: the number of a value. -/
def F (code v0 v1 : ℤ) : Opt ℕ := fun g =>
  match (g.hashtbl (hashOf code v0 v1)).find? fun p => p.code==code && p.v0==v0 && p.v1==v1 with
  | some p => (.ok p.val,{g with handed:=p.val::g.handed})
  | none =>
    let val := g.curval+1
    if loadsConst code ∧ maxval≤val then (.error .outOfBounds,{g with curval:=val})
    else if maxval≤g.nextVnode then (.error .outOfBounds,{g with curval:=val})
    else
      (.ok val,
        {g with curval:=val,nextVnode:=g.nextVnode+1,
                vmap:=if loadsConst code then Function.update g.vmap val (some v0) else g.vmap,
                hashtbl:=Function.update g.hashtbl (hashOf code v0 v1)
                  (⟨code,v0,v1,val⟩::g.hashtbl (hashOf code v0 v1)),
                handed:=val::g.handed})

/-- `K(i)` -/
def K (i : ℤ) : Opt ℕ := F maxval (bpfLd+bpfImm+bpfW) i 0

/-- `vmap[v]` -/
def vmapAt (v : ℕ) : Opt (Option ℤ) := fun g =>
  if v < maxval then (.ok (g.vmap v),g) else (.error .outOfBounds,g)

/-- The constant behind `alter && vmap[v].is_const`. -/
def constIf (alter : Bool) (v : ℕ) : Opt (Option ℤ) :=
  if alter then vmapAt maxval v else pure none

/-- `vstore` for an atom. -/
def vstore (s : Stmt) (val : Vals) (atom : ℤ) (newval : ℕ) (alter : Bool) : Stmt×Vals :=
  if alter=true ∧ val atom=newval then ({s with code:=nop},val)
  else (s,Function.update val atom newval)

/-- The `switch` of `fold_op`, on unsigned numbers. A shift by more than the
word has bits is not defined; it is zero here. -/
def foldValue (op : ℤ) (a b : ℕ) : Except Fault ℕ :=
  if op=bpfAdd then .ok ((a+b)%2^32)
  else if op=bpfSub then .ok ((a+(2^32-b))%2^32)
  else if op=bpfMul then .ok (a*b%2^32)
  else if op=bpfDiv then if b=0 then .error .divisionByZero else .ok (a/b)
  else if op=bpfAnd then .ok (a &&& b)
  else if op=bpfOr then .ok (a ||| b)
  else if op=bpfLsh then .ok (if b<32 then a*2^b%2^32 else 0)
  else if op=bpfRsh then .ok (a/2^b)
  else .error .abort

/-- `fold_op` -/
def foldOp (s : Stmt) (v0 v1 : ℕ) : Opt Stmt := do
  let a ← vmapAt maxval v0
  let b ← vmapAt maxval v1
  match foldValue (opOf s.code) (toU32 (a.getD 0)) (toU32 (b.getD 0)) with
  | .error e => throw e
  | .ok k =>
    notDone
    pure {s with k:=toInt k,code:=bpfLd+bpfImm}

/-! ## Statements -/

/-- The codes of the loads of a size. -/
def sized (code : ℤ) : List ℤ := [code+bpfW,code+bpfH,code+bpfB]

/-- The operations with two operands that `opt_stmt` knows. -/
def aluOps : List ℤ := [bpfAdd,bpfSub,bpfMul,bpfDiv,bpfAnd,bpfOr,bpfLsh,bpfRsh]

/-- A statement that loads a value into an atom, whatever is in the atoms. -/
def optLoad (s : Stmt) (val : Vals) (alter : Bool) (atom v0 : ℤ) : Opt (Stmt×Vals) := do
  let v ← F maxval s.code v0 0
  pure (vstore s val atom v alter)

/-- The branch of `opt_stmt` for `BPF_LD|BPF_IND`. -/
def optLoadInd (s : Stmt) (val : Vals) (alter : Bool) : Opt (Stmt×Vals) := do
  match ← constIf maxval alter (val xAtom) with
  | some c =>
    let s := {s with code:=bpfLd+bpfAbs+sizeBits s.code,k:=toInt (s.k+c)}
    let v ← F maxval s.code s.k 0
    notDone
    pure (vstore s val aAtom v alter)
  | none =>
    let v ← F maxval s.code s.k (val xAtom)
    pure (vstore s val aAtom v alter)

/-- The branches for `BPF_LD|BPF_IMM` and `BPF_LDX|BPF_IMM`. -/
def optImm (s : Stmt) (val : Vals) (alter : Bool) (atom : ℤ) : Opt (Stmt×Vals) := do
  let v ← K maxval s.k
  pure (vstore s val atom v alter)

/-- The branch for `BPF_ALU|BPF_NEG`. -/
def optNeg (s : Stmt) (val : Vals) (alter : Bool) : Opt (Stmt×Vals) := do
  match ← constIf maxval alter (val aAtom) with
  | some c =>
    let s := {s with code:=bpfLd+bpfImm,k:=toInt (-c)}
    let v ← K maxval s.k
    pure (s,Function.update val aAtom v)
  | none =>
    let v ← F maxval s.code (val aAtom) 0
    pure (s,Function.update val aAtom v)

/-- The branch for an operation with a constant, where nothing is known of its operand. -/
def optAluKPlain (s : Stmt) (val : Vals) : Opt (Stmt×Vals) := do
  let k ← K maxval s.k
  let v ← F maxval s.code (val aAtom) k
  pure (s,Function.update val aAtom v)

/-- The branch for an operation with a constant. -/
def optAluK (s : Stmt) (val : Vals) (alter : Bool) : Opt (Stmt×Vals) := do
  let op := opOf s.code
  if alter=true ∧ s.k=0 ∧ (op=bpfAdd ∨ op=bpfLsh ∨ op=bpfRsh ∨ op=bpfOr) then
    pure ({s with code:=nop},val)
  else if alter=true ∧ s.k=0 ∧ (op=bpfMul ∨ op=bpfAnd) then
    let s := {s with code:=bpfLd+bpfImm}
    let v ← K maxval s.k
    pure (s,Function.update val aAtom v)
  else
    match ← constIf maxval alter (val aAtom) with
    | some _ =>
      let k ← K maxval s.k
      let s ← foldOp maxval s (val aAtom) k
      let v ← K maxval s.k
      pure (s,Function.update val aAtom v)
    | none => optAluKPlain maxval s val

/-- The branch for an operation with the other register, from the test for a
zero in the accumulator on. -/
def optAluXZero (s : Stmt) (val : Vals) (alter : Bool) : Opt (Stmt×Vals) := do
  let op := opOf s.code
  let a ← constIf maxval alter (val aAtom)
  if a=some 0 ∧ (op=bpfAdd ∨ op=bpfOr) then
    pure (vstore {s with code:=bpfMisc+bpfTxa} val aAtom (val xAtom) alter)
  else if a=some 0 ∧ (op=bpfMul ∨ op=bpfDiv ∨ op=bpfAnd ∨ op=bpfLsh ∨ op=bpfRsh) then
    let s := {s with code:=bpfLd+bpfImm,k:=0}
    let v ← K maxval s.k
    pure (vstore s val aAtom v alter)
  else if a=some 0 ∧ op=bpfNeg then pure ({s with code:=nop},val)
  else
    let v ← F maxval s.code (val aAtom) (val xAtom)
    pure (s,Function.update val aAtom v)

/-- The branch for an operation with the other register. -/
def optAluX (s : Stmt) (val : Vals) (alter : Bool) : Opt (Stmt×Vals) := do
  let op := opOf s.code
  match ← constIf maxval alter (val xAtom) with
  | some x =>
    match ← vmapAt maxval (val aAtom) with
    | some _ =>
      let s ← foldOp maxval s (val aAtom) (val xAtom)
      let v ← K maxval s.k
      pure (s,Function.update val aAtom v)
    | none =>
      notDone
      optAluKPlain maxval {s with code:=bpfAlu+bpfK+op,k:=x} val
  | none => optAluXZero maxval s val alter

/-- The branches for `BPF_LD|BPF_MEM` and `BPF_LDX|BPF_MEM`. -/
def optMem (s : Stmt) (val : Vals) (alter : Bool) (atom imm : ℤ) : Opt (Stmt×Vals) := do
  let v := val s.k
  match ← constIf maxval alter v with
  | some c =>
    notDone
    pure (vstore {s with code:=imm,k:=c} val atom v alter)
  | none => pure (vstore s val atom v alter)

/-- `opt_stmt`: the statement and the numbers of the atoms behind it. -/
def optStmt (s : Stmt) (val : Vals) (alter : Bool) : Opt (Stmt×Vals) :=
  if s.code∈sized (bpfLd+bpfAbs) then optLoad maxval s val alter aAtom s.k
  else if s.code∈sized (bpfLd+bpfInd) then optLoadInd maxval s val alter
  else if s.code=bpfLd+bpfLen then optLoad maxval s val alter aAtom 0
  else if s.code=bpfLd+bpfImm then optImm maxval s val alter aAtom
  else if s.code=bpfLdx+bpfImm then optImm maxval s val alter xAtom
  else if s.code=bpfLdx+bpfMsh+bpfB then optLoad maxval s val alter xAtom s.k
  else if s.code=bpfAlu+bpfNeg then optNeg maxval s val alter
  else if s.code∈aluOps.map (fun op => bpfAlu+op+bpfK) then optAluK maxval s val alter
  else if s.code∈aluOps.map (fun op => bpfAlu+op+bpfX) then optAluX maxval s val alter
  else if s.code=bpfMisc+bpfTxa then pure (vstore s val aAtom (val xAtom) alter)
  else if s.code=bpfLd+bpfMem then optMem maxval s val alter aAtom (bpfLd+bpfImm)
  else if s.code=bpfMisc+bpfTax then pure (vstore s val xAtom (val aAtom) alter)
  else if s.code=bpfLdx+bpfMem then optMem maxval s val alter xAtom (bpfLdx+bpfImm)
  else if s.code=bpfSt then pure (vstore s val s.k (val aAtom) alter)
  else if s.code=bpfStx then pure (vstore s val s.k (val xAtom) alter)
  else pure (s,val)

/-! ## What a statement takes -/

/-- The numbers in the arrays, and those handed out, are below `maxval`. -/
structure Sound (g : Globals) : Prop where
  /-- There is an entry of `vnode_base` for every number. -/
  nextVnode : g.nextVnode=g.curval
  /-- The hash table holds numbers below `maxval`. -/
  hashtbl : ∀ h, ∀ p∈g.hashtbl h, p.val < maxval
  /-- So were the numbers that `F` has returned. -/
  handed : ∀ v∈g.handed, v < maxval

/-- The numbers below `maxval`, as a resource that `F` takes from. -/
def numbers : Budget Globals Fault where
  inv := Sound maxval
  used := Globals.curval
  limit := maxval
  bad := fun e => e=.outOfBounds

/-- The numbers in the atoms are below `maxval`. -/
def Below (val : Vals) : Prop := ∀ atom, val atom < maxval

variable {maxval} {s : Stmt} {val : Vals} {alter : Bool} {n : ℕ}

/-- A value takes at most one number. -/
theorem spends_F (code v0 v1 : ℤ) :
    (numbers maxval).Spends 1 (F maxval code v0 v1) fun v => v < maxval := by
  intro g hg hlt
  change g.curval+1 < maxval at hlt
  rw [exec,F]
  cases hfind : (g.hashtbl (hashOf code v0 v1)).find?
      fun p => p.code==code && p.v0==v0 && p.v1==v1 with
  | some p =>
    have hp := hg.hashtbl _ p (List.mem_of_find?_eq_some hfind)
    refine ⟨⟨hg.nextVnode,hg.hashtbl,fun v hv => ?_⟩,Nat.le_succ _,hp⟩
    rcases List.mem_cons.mp hv with rfl | hv
    · exact hp
    · exact hg.handed v hv
  | none =>
    have hnext := hg.nextVnode
    dsimp only
    rw [if_neg (by omega),if_neg (by omega)]
    refine ⟨⟨by dsimp only; omega,fun h p hp => ?_,fun v hv => ?_⟩,le_rfl,hlt⟩
    · dsimp only at hp
      by_cases hh : h=hashOf code v0 v1
      · subst hh
        rw [Function.update_self] at hp
        rcases List.mem_cons.mp hp with rfl | hp
        · exact hlt
        · exact hg.hashtbl _ p hp
      · rw [Function.update_of_ne hh] at hp
        exact hg.hashtbl h p hp
    · rcases List.mem_cons.mp hv with rfl | hv
      · exact hlt
      · exact hg.handed v hv

theorem spends_K (i : ℤ) : (numbers maxval).Spends 1 (K maxval i) fun v => v < maxval :=
  spends_F _ _ _

theorem spends_notDone : (numbers maxval).Spends 0 notDone fun _ => True :=
  fun _ hg _ => ⟨⟨hg.nextVnode,hg.hashtbl,hg.handed⟩,Nat.le_refl _,trivial⟩

theorem spends_vmapAt {v : ℕ} (hv : v < maxval) :
    (numbers maxval).Spends 0 (vmapAt maxval v) fun _ => True := by
  intro g hg _
  rw [exec,vmapAt,if_pos hv]
  exact ⟨hg,Nat.le_refl _,trivial⟩

theorem spends_constIf {v : ℕ} (hv : v < maxval) (alter : Bool) :
    (numbers maxval).Spends 0 (constIf maxval alter v) fun _ => True := by
  rw [constIf]
  exact spends_ite (fun _ => spends_vmapAt hv) fun _ => spends_pure trivial

/-- A fold reads two constants and takes no number. -/
theorem spends_foldOp {v0 v1 : ℕ} (h0 : v0 < maxval) (h1 : v1 < maxval) :
    (numbers maxval).Spends 0 (foldOp maxval s v0 v1) fun s' => s'.code=bpfLd+bpfImm := by
  have hnot : ∀ op a b, foldValue op a b≠.error .outOfBounds := by
    intro op a b h
    rw [foldValue] at h
    split_ifs at h
    all_goals cases h
  rw [foldOp]
  refine spends_free (spends_vmapAt h0) fun a _ => ?_
  refine spends_free (spends_vmapAt h1) fun b _ => ?_
  cases hfold : foldValue (opOf s.code) (toU32 (a.getD 0)) (toU32 (b.getD 0)) with
  | error e => exact spends_throw fun he => hnot _ _ _ (hfold.trans (congrArg Except.error he))
  | ok k => exact spends_free spends_notDone fun _ _ => spends_pure rfl

theorem Below.update (h : Below maxval val) {v : ℕ} (hv : v < maxval) (atom : ℤ) :
    Below maxval (Function.update val atom v) := by
  intro a
  by_cases ha : a=atom
  · rw [ha,Function.update_self]
    exact hv
  · rw [Function.update_of_ne ha]
    exact h a

theorem Below.vstore (h : Below maxval val) {v : ℕ} (hv : v < maxval) (atom : ℤ) :
    Below maxval (vstore s val atom v alter).2 := by
  rw [BpfValues.vstore]
  split
  · exact h
  · exact h.update hv atom

theorem spends_optLoad (h : Below maxval val) (atom v0 : ℤ) :
    (numbers maxval).Spends 1 (optLoad maxval s val alter atom v0) fun r => Below maxval r.2 :=
  spends_bind (spends_F _ _ _) (k:=0) fun _ hv => spends_pure (h.vstore hv atom)

theorem spends_optImm (h : Below maxval val) (atom : ℤ) :
    (numbers maxval).Spends 1 (optImm maxval s val alter atom) fun r => Below maxval r.2 :=
  spends_bind (spends_K _) (k:=0) fun _ hv => spends_pure (h.vstore hv atom)

theorem spends_optLoadInd (h : Below maxval val) :
    (numbers maxval).Spends 1 (optLoadInd maxval s val alter) fun r => Below maxval r.2 := by
  refine spends_free (spends_constIf (h xAtom) alter) fun c _ => ?_
  cases c with
  | some c =>
    refine spends_bind (spends_F _ _ _) (k:=0) fun v hv => ?_
    exact spends_free spends_notDone fun _ _ => spends_pure (h.vstore hv aAtom)
  | none => exact spends_bind (spends_F _ _ _) (k:=0) fun v hv => spends_pure (h.vstore hv aAtom)

theorem spends_optNeg (h : Below maxval val) :
    (numbers maxval).Spends 1 (optNeg maxval s val alter) fun r => Below maxval r.2 := by
  refine spends_free (spends_constIf (h aAtom) alter) fun c _ => ?_
  cases c with
  | some c => exact spends_bind (spends_K _) (k:=0) fun v hv => spends_pure (h.update hv aAtom)
  | none => exact spends_bind (spends_F _ _ _) (k:=0) fun v hv => spends_pure (h.update hv aAtom)

theorem spends_optAluKPlain (h : Below maxval val) :
    (numbers maxval).Spends 2 (optAluKPlain maxval s val) fun r => Below maxval r.2 := by
  refine spends_bind (spends_K _) (k:=1) fun k _ => ?_
  exact spends_bind (spends_F _ _ _) (k:=0) fun v hv => spends_pure (h.update hv aAtom)

/-- An operation with a constant takes two numbers: for the constant, and for
the result. -/
theorem spends_optAluK (h : Below maxval val) :
    (numbers maxval).Spends 2 (optAluK maxval s val alter) fun r => Below maxval r.2 := by
  rw [optAluK]
  refine spends_ite (fun _ => spends_pure h) fun _ => spends_ite (fun _ => ?_) fun _ => ?_
  · exact spends_bind (spends_K _) (k:=1) fun v hv => spends_pure (h.update hv aAtom)
  · refine spends_free (spends_constIf (h aAtom) alter) fun c _ => ?_
    cases c with
    | some c =>
      refine spends_bind (spends_K _) (k:=1) fun k hk => ?_
      refine spends_free (spends_foldOp (h aAtom) hk) fun s' _ => ?_
      exact spends_bind (spends_K _) (k:=0) fun v hv => spends_pure (h.update hv aAtom)
    | none => exact spends_optAluKPlain h

theorem spends_optAluXZero (h : Below maxval val) :
    (numbers maxval).Spends 1 (optAluXZero maxval s val alter) fun r => Below maxval r.2 := by
  refine spends_free (spends_constIf (h aAtom) alter) fun a _ => ?_
  refine spends_ite (fun _ => spends_pure (h.vstore (h xAtom) aAtom)) fun _ => ?_
  refine spends_ite (fun _ => ?_) fun _ => spends_ite (fun _ => spends_pure h) fun _ => ?_
  · exact spends_bind (spends_K _) (k:=0) fun v hv => spends_pure (h.vstore hv aAtom)
  · exact spends_bind (spends_F _ _ _) (k:=0) fun v hv => spends_pure (h.update hv aAtom)

theorem spends_optAluX (h : Below maxval val) :
    (numbers maxval).Spends 2 (optAluX maxval s val alter) fun r => Below maxval r.2 := by
  refine spends_free (spends_constIf (h xAtom) alter) fun x _ => ?_
  cases x with
  | some x =>
    refine spends_free (spends_vmapAt (h aAtom)) fun a _ => ?_
    cases a with
    | some a =>
      refine spends_free (spends_foldOp (h aAtom) (h xAtom)) fun s' _ => ?_
      exact spends_bind (spends_K _) (k:=1) fun v hv => spends_pure (h.update hv aAtom)
    | none => exact spends_free spends_notDone fun _ _ => spends_optAluKPlain h
  | none => exact (spends_optAluXZero h).mono (Nat.le_succ 1) fun _ hr => hr

theorem spends_optMem (h : Below maxval val) (atom imm : ℤ) :
    (numbers maxval).Spends 0 (optMem maxval s val alter atom imm) fun r => Below maxval r.2 := by
  refine spends_free (spends_constIf (h s.k) alter) fun c _ => ?_
  cases c with
  | some c => exact spends_free spends_notDone fun _ _ => spends_pure (h.vstore (h s.k) atom)
  | none => exact spends_pure (h.vstore (h s.k) atom)

/-- Of a statement that has been removed nothing is left to do. -/
theorem optStmt_nop (h : s.code=nop) : optStmt maxval s val alter=pure (s,val) := by
  rw [optStmt,h]
  rfl

/-- **Statements.** A statement takes at most two numbers. -/
theorem spends_optStmt (h : Below maxval val) :
    (numbers maxval).Spends 2 (optStmt maxval s val alter) fun r => Below maxval r.2 := by
  have hone : ∀ {m : Opt (Stmt×Vals)},
      (numbers maxval).Spends 1 m (fun r => Below maxval r.2) →
      (numbers maxval).Spends 2 m fun r => Below maxval r.2 :=
    fun hm => hm.mono (Nat.le_succ 1) fun _ hr => hr
  have hnone : ∀ {m : Opt (Stmt×Vals)},
      (numbers maxval).Spends 0 m (fun r => Below maxval r.2) →
      (numbers maxval).Spends 2 m fun r => Below maxval r.2 :=
    fun hm => hm.mono (Nat.zero_le 2) fun _ hr => hr
  have hmove : ∀ atom src : ℤ, (numbers maxval).Spends 2
      (pure (vstore s val atom (val src) alter) : Opt (Stmt×Vals)) fun r => Below maxval r.2 :=
    fun atom src => spends_pure (h.vstore (h src) atom)
  rw [optStmt]
  refine spends_ite (fun _ => hone (spends_optLoad h _ _)) fun _ => ?_
  refine spends_ite (fun _ => hone (spends_optLoadInd h)) fun _ => ?_
  refine spends_ite (fun _ => hone (spends_optLoad h _ _)) fun _ => ?_
  refine spends_ite (fun _ => hone (spends_optImm h _)) fun _ => ?_
  refine spends_ite (fun _ => hone (spends_optImm h _)) fun _ => ?_
  refine spends_ite (fun _ => hone (spends_optLoad h _ _)) fun _ => ?_
  refine spends_ite (fun _ => hone (spends_optNeg h)) fun _ => ?_
  refine spends_ite (fun _ => spends_optAluK h) fun _ => ?_
  refine spends_ite (fun _ => spends_optAluX h) fun _ => ?_
  refine spends_ite (fun _ => hmove aAtom xAtom) fun _ => ?_
  refine spends_ite (fun _ => hnone (spends_optMem h _ _)) fun _ => ?_
  refine spends_ite (fun _ => hmove xAtom aAtom) fun _ => ?_
  refine spends_ite (fun _ => hnone (spends_optMem h _ _)) fun _ => ?_
  refine spends_ite (fun _ => hmove s.k aAtom) fun _ => ?_
  exact spends_ite (fun _ => hmove s.k xAtom) fun _ => spends_pure h

end AndroidPlatform.BpfValues
