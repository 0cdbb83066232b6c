import AndroidPlatform.BpfDominators
import AndroidPlatform.BpfPeephole
import Mathlib.Algebra.BigOperators.Ring.List

/-!
# The passes of the filter optimiser

`opt_loop` of `optimize.c` repeats its passes until one changes nothing. A
pass finds the levels of the blocks, optimises every block once, and then leads
edges past blocks whose result is known and pulls blocks up. How many values
there can be is counted once, in `opt_init`, from the graph as it comes.

What the analyses of data flow and of dominators find is left open here, so
the results hold whatever they find. Loops whose end depends on that are given
a number of rounds.
-/

namespace AndroidPlatform.BpfOptimizeLoop

open BpfProgram (Stmt BlockGraph)
open BpfLayout (slength)
open BpfLevels (LevelState Listed downFrom mem_downFrom nodup_downFrom)
open BpfDominators (Edge numberBlks numberBlksR numberBlksR_spec)
open CountedResource BpfValues BpfPeephole

/-- All blocks, by their addresses. -/
abbrev Blocks := ℕ → OptBlock

/-- What `find_dom`, `find_ud` and `find_edom` find. -/
structure Analysis where
  /-- The field `out_use` of the blocks. -/
  outUse : ℕ → ℕ
  /-- Whether the set `dom` of a block has another one as a member. -/
  dom : ℕ → ℕ → Bool
  /-- The edges of the set `edom` of an edge, in the order of their numbers. -/
  edom : Edge → List Edge

/-- The field `succ` of an edge. -/
def succOf (blk : Blocks) (e : Edge) : Option ℕ :=
  if e.taken then (blk e.pred).jt else (blk e.pred).jf

/-- Set the field `succ` of an edge. -/
def setSucc (blk : Blocks) (e : Edge) (c : Option ℕ) : Blocks :=
  Function.update blk e.pred
    (if e.taken then {blk e.pred with jt:=c} else {blk e.pred with jf:=c})

/-- A part that does not touch the static variables. -/
def ofExcept {α : Type} (r : Except Fault α) : Opt α := fun g => (r,g)

/-! ## The functions -/

/-- `find_levels_r`, for recursions up to the given depth. -/
def findLevelsR (blk : Blocks) : ℕ → ℕ → LevelState → Except Fault LevelState
  | 0,_,_ => .error .outOfFuel
  | rounds+1,b,st =>
    if b∈st.marked then .ok st
    else
      match (blk b).jt,(blk b).jf with
      | none,_ => .ok (LevelState.place {st with marked:=insert b st.marked} b 0)
      | some _,none => .error .nullPointer
      | some t,some f =>
        match findLevelsR blk rounds t {st with marked:=insert b st.marked} with
        | .error e => .error e
        | .ok st' =>
          match findLevelsR blk rounds f st' with
          | .error e => .error e
          | .ok st'' => .ok (st''.place b (max (st''.level t) (st''.level f)+1))

/-- `find_levels` -/
def findLevels (rounds : ℕ) (blk : Blocks) (root : ℕ) (level : ℕ → ℕ) : Except Fault LevelState :=
  findLevelsR blk rounds root ⟨∅,level,fun _ => []⟩

/-- The blocks of the levels from the given one down to one. -/
def downToOne (levels : ℕ → List ℕ) : ℕ → List ℕ
  | 0 => []
  | i+1 => levels (i+1)++downToOne levels i

/-- The blocks of the levels from one up to the given one. -/
def upFromOne (levels : ℕ → List ℕ) (maxlevel : ℕ) : List ℕ :=
  (List.range maxlevel).flatMap fun i => levels (i+1)

/-- `link_inedge`, for the block an edge leads to. -/
def linkInedge (blk : Blocks) (inEdges : ℕ → List Edge) (parent : Edge) :
    Except Fault (ℕ → List Edge) :=
  match succOf blk parent with
  | none => .error .nullPointer
  | some child => .ok (Function.update inEdges child (parent::inEdges child))

/-- `find_inedges`: the lists `in_edges`. -/
def findInedges (blk : Blocks) (levels : ℕ → List ℕ) (maxlevel : ℕ) :
    Except Fault (ℕ → List Edge) :=
  ((downToOne levels maxlevel).flatMap fun b => [(⟨b,true⟩ : Edge),⟨b,false⟩]).foldlM
    (linkInedge blk) fun _ => []

/-- `use_conflict` -/
def useConflict (an : Analysis) (blk : Blocks) (b succ : ℕ) : Bool :=
  (List.range 18).any fun atom =>
    atomElem (an.outUse succ) atom && (blk b).val atom != (blk succ).val atom

/-- `fold_edge` -/
def foldEdge (blk : Blocks) (child : ℕ) (ep : Edge) : Option ℕ :=
  let code := if ep.taken then (blk ep.pred).etCode else (blk ep.pred).efCode
  let sense := decide (0≤code)
  let code := if code<0 then -code else code
  if (blk child).s.code≠code then none
  else if (blk child).val aAtom≠(blk ep.pred).val aAtom then none
  else if (blk child).oval=(blk ep.pred).oval then
    if sense then (blk child).jt else (blk child).jf
  else if sense=true ∧ code=bpfJmp+bpfJeq+bpfK then (blk child).jf
  else none

/-- The loop of `opt_j` over the edges that are passed before an edge. -/
def findTarget (an : Analysis) (blk : Blocks) (ep : Edge) (child : ℕ) : Option ℕ :=
  (an.edom ep).findSome? fun e =>
    match foldEdge blk child e with
    | none => none
    | some target => if useConflict an blk ep.pred target then none else some target

/-- `opt_j` from the label `top` on. -/
def optJTop (an : Analysis) (ep : Edge) : ℕ → Blocks → Opt Blocks
  | 0,_ => throw .outOfFuel
  | rounds+1,blk =>
    match succOf blk ep with
    | none => throw .nullPointer
    | some child =>
      match findTarget an blk ep child with
      | none => pure blk
      | some target => do
        notDone
        if (blk target).jt≠none then optJTop an ep rounds (setSucc blk ep (some target))
        else pure (setSucc blk ep (some target))

/-- The part of `opt_j` for a branch that leads to one block either way. -/
def skipSame (an : Analysis) (blk : Blocks) (ep : Edge) (child : ℕ) : Opt Blocks :=
  match (blk child).jt with
  | none => pure blk
  | some t =>
    if (blk child).jt=(blk child).jf ∧ useConflict an blk ep.pred t=false then do
      notDone
      pure (setSucc blk ep (some t))
    else pure blk

/-- `opt_j` -/
def optJ (rounds : ℕ) (an : Analysis) (blk : Blocks) (ep : Edge) : Opt Blocks :=
  match succOf blk ep with
  | none => throw .nullPointer
  | some child =>
    if (blk child).jt=none then pure blk
    else do
      let blk ← skipSame an blk ep child
      optJTop an ep rounds blk

/-- The first loop of `or_pullup` and `and_pullup`, along one kind of edge:
`diffp` and `at_top` where it breaks, nothing where the function returns. -/
def diffLoop (an : Analysis) (blk : Blocks) (b val : ℕ) (chain : Bool) :
    ℕ → Edge → Bool → Opt (Option (Edge×Bool))
  | 0,_,_ => throw .outOfFuel
  | rounds+1,diffp,atTop =>
    match succOf blk diffp with
    | none => pure none
    | some d =>
      if succOf blk ⟨d,!chain⟩≠succOf blk ⟨b,!chain⟩ then pure none
      else if an.dom d b=false then pure none
      else if (blk d).val aAtom≠val then pure (some (diffp,atTop))
      else diffLoop an blk b val chain rounds ⟨d,chain⟩ false

/-- Their second loop: `samep` where it breaks. -/
def sameLoop (an : Analysis) (blk : Blocks) (b val : ℕ) (chain : Bool) :
    ℕ → Edge → Opt (Option Edge)
  | 0,_ => throw .outOfFuel
  | rounds+1,samep =>
    match succOf blk samep with
    | none => pure none
    | some d =>
      if succOf blk ⟨d,!chain⟩≠succOf blk ⟨b,!chain⟩ then pure none
      else if an.dom d b=false then pure none
      else if (blk d).val aAtom=val then pure (some samep)
      else sameLoop an blk b val chain rounds ⟨d,chain⟩

/-- Lead the edges into a block to the one that has been pulled up. -/
def leadTo (b pull : ℕ) (blk : Blocks) (e : Edge) : Blocks :=
  if succOf blk ⟨e.pred,true⟩=some b then setSucc blk ⟨e.pred,true⟩ (some pull)
  else setSucc blk ⟨e.pred,false⟩ (some pull)

/-- What `or_pullup` and `and_pullup` do with the edges they have found. -/
def pullUp (blk : Blocks) (inEdges : List Edge) (b pull : ℕ) (chain : Bool) (diffp samep : Edge)
    (atTop : Bool) : Blocks :=
  let blk := setSucc blk samep (succOf blk ⟨pull,chain⟩)
  let blk := setSucc blk ⟨pull,chain⟩ (succOf blk diffp)
  if atTop then inEdges.foldl (leadTo b pull) blk else setSucc blk diffp (some pull)

/-- The common body of `or_pullup`, which follows the edges `ef`, and of
`and_pullup`, which follows the edges `et`. -/
def pullupBody (rounds : ℕ) (an : Analysis) (inEdges : ℕ → List Edge) (chain : Bool)
    (blk : Blocks) (b : ℕ) : Opt Blocks :=
  match inEdges b with
  | [] => pure blk
  | ep::rest =>
    if rest.any fun e => (blk e.pred).val aAtom != (blk ep.pred).val aAtom then pure blk
    else do
      let found ← diffLoop an blk b ((blk ep.pred).val aAtom) chain rounds
        (if succOf blk ⟨ep.pred,true⟩=some b then ⟨ep.pred,true⟩ else ⟨ep.pred,false⟩) true
      match found with
      | none => pure blk
      | some (diffp,atTop) =>
        match succOf blk diffp with
        | none => pure blk
        | some d =>
          let same ← sameLoop an blk b ((blk ep.pred).val aAtom) chain rounds ⟨d,chain⟩
          match same with
          | none => pure blk
          | some samep =>
            match succOf blk samep with
            | none => pure blk
            | some pull =>
              notDone
              pure (pullUp blk (inEdges b) b pull chain diffp samep atTop)

/-- `or_pullup` -/
def orPullup (rounds : ℕ) (an : Analysis) (inEdges : ℕ → List Edge) (blk : Blocks) (b : ℕ) :
    Opt Blocks := pullupBody rounds an inEdges false blk b

/-- `and_pullup` -/
def andPullup (rounds : ℕ) (an : Analysis) (inEdges : ℕ → List Edge) (blk : Blocks) (b : ℕ) :
    Opt Blocks := pullupBody rounds an inEdges true blk b

variable (maxval : ℕ)

/-- The first loop of `opt_blks`, with its body. -/
def optBlock (an : Analysis) (inEdges : ℕ → List Edge) (doStmts : Bool) (blk : Blocks) (p : ℕ) :
    Opt Blocks := do
  let b ← optBlk maxval (an.outUse p) ((inEdges p).map fun e => (blk e.pred).val) doStmts (blk p)
  pure (Function.update blk p b)

/-- What follows `init_val` in `opt_blks`. -/
def optBlksRest (rounds : ℕ) (an : Analysis) (st : LevelState) (root : ℕ) (doStmts : Bool)
    (blk : Blocks) : Opt Blocks := do
  let inEdges ← ofExcept (findInedges blk st.levels (st.level root))
  let blk ← (downFrom st.levels (st.level root)).foldlM (optBlock maxval an inEdges doStmts) blk
  if doStmts then pure blk
  else do
    let blk ← ((upFromOne st.levels (st.level root)).flatMap fun p =>
      [(⟨p,true⟩ : Edge),⟨p,false⟩]).foldlM (optJ rounds an) blk
    let inEdges ← ofExcept (findInedges blk st.levels (st.level root))
    (upFromOne st.levels (st.level root)).foldlM (fun blk p => do
      let blk ← orPullup rounds an inEdges blk p
      andPullup rounds an inEdges blk p) blk

/-- `opt_blks` -/
def optBlks (rounds : ℕ) (an : Analysis) (st : LevelState) (root : ℕ) (doStmts : Bool)
    (blk : Blocks) : Opt Blocks := do
  initVal
  optBlksRest maxval rounds an st root doStmts blk

/-- `opt_loop`, for so many passes. The analyses follow `find_levels`. -/
def optLoop (rounds : ℕ) (analyse : LevelState → Blocks → Analysis) (root : ℕ) (doStmts : Bool) :
    ℕ → Blocks×(ℕ → ℕ) → Opt (Blocks×(ℕ → ℕ))
  | 0,_ => throw .outOfFuel
  | passes+1,(blk,level) => do
    modify fun g => {g with done:=true}
    let st ← ofExcept (findLevels rounds blk root level)
    let blk ← optBlks maxval rounds (analyse st blk) st root doStmts blk
    let g ← get
    if g.done then pure (blk,st.level)
    else optLoop rounds analyse root doStmts passes (blk,st.level)

/-- `maxval`, as `opt_init` sets it. -/
def initMaxval (g : BlockGraph) : ℕ :=
  3*((numberBlks g).blocks.map fun p => slength (g.block p).stmts+1).sum

/-- The blocks as they come to the optimiser; `newchunk` has set the rest to zero. -/
def initBlocks (g : BlockGraph) : Blocks := fun p =>
  ⟨(g.block p).stmts,(g.block p).s,(g.block p).jt,(g.block p).jf,fun _ => 0,0,0,0⟩

/-- The static variables at the start. -/
def initGlobals : Globals := ⟨false,0,0,fun _ => none,fun _ => [],[]⟩

/-- `bpf_optimize` as far as it numbers values: `opt_init` and both calls of
`opt_loop`, for so many passes each. -/
def bpfOptimize (rounds passes : ℕ) (analyse : LevelState → Blocks → Analysis) (g : BlockGraph) :
    Opt (Blocks×(ℕ → ℕ)) := do
  let r ← optLoop (initMaxval g) rounds analyse g.root false passes (initBlocks g,fun _ => 0)
  optLoop (initMaxval g) rounds analyse g.root true passes r

/-! ## Levels -/

variable {maxval} {isOpen : ℕ → Prop} {st st' : LevelState} {blk : Blocks} {b : ℕ}

/-- What one call of `find_levels_r` does to the marks and the lists. -/
theorem findLevelsR_spec {rounds : ℕ} (h : Listed isOpen st)
    (hopen : ∀ a, isOpen a → a∈st.marked) (hrun : findLevelsR blk rounds b st=.ok st') :
    Listed isOpen st' ∧ (∀ a∈st.marked, a∈st'.marked) ∧
      ∀ C : ℕ → Prop, (∀ x, C x → ∀ taken c, succOf blk ⟨x,taken⟩=some c → C c) →
        (∀ a∈st.marked, C a) → C b → ∀ a∈st'.marked, C a := by
  induction rounds generalizing isOpen st st' b with
  | zero => cases hrun
  | succ rounds ih =>
    rw [findLevelsR] at hrun
    by_cases hb : b∈st.marked
    · rw [if_pos hb] at hrun
      cases hrun
      exact ⟨h,fun a ha => ha,fun C _ hC _ => hC⟩
    · rw [if_neg hb] at hrun
      have henter := h.enter hb
      have hnotOpen : ¬isOpen b := fun ho => hb (hopen b ho)
      have hmarked : ∀ a, isOpen a ∨ a=b → a∈insert b st.marked := by
        rintro a (ha | rfl)
        · exact Finset.mem_insert_of_mem (hopen a ha)
        · exact Finset.mem_insert_self a _
      have hinsert : ∀ C : ℕ → Prop, (∀ a∈st.marked, C a) → C b → ∀ a∈insert b st.marked, C a := by
        intro C hC hCb a ha
        rcases Finset.mem_insert.mp ha with rfl | ha
        · exact hCb
        · exact hC a ha
      split at hrun
      · cases hrun
        refine ⟨henter.place (Finset.mem_insert_self b _) hnotOpen 0,
          fun a ha => Finset.mem_insert_of_mem ha,fun C _ hC hCb => hinsert C hC hCb⟩
      · cases hrun
      · rename_i t f ht hf
        cases hst : findLevelsR blk rounds t {st with marked:=insert b st.marked} with
        | error e =>
          rw [hst] at hrun
          cases hrun
        | ok st1 =>
          obtain ⟨h1,hmono1,hC1⟩ := ih henter hmarked hst
          rw [hst] at hrun
          dsimp only at hrun
          cases hst2 : findLevelsR blk rounds f st1 with
          | error e =>
            rw [hst2] at hrun
            cases hrun
          | ok st2 =>
            obtain ⟨h2,hmono2,hC2⟩ := ih h1 (fun a ha => hmono1 a (hmarked a ha)) hst2
            rw [hst2] at hrun
            cases hrun
            have hall : ∀ a∈insert b st.marked, a∈st2.marked :=
              fun a ha => hmono2 a (hmono1 a ha)
            refine ⟨h2.place (hall b (Finset.mem_insert_self b _)) hnotOpen _,
              fun a ha => hall a (Finset.mem_insert_of_mem ha),fun C hstep hC hCb => ?_⟩
            have hjt : succOf blk ⟨b,true⟩=some t := ht
            have hjf : succOf blk ⟨b,false⟩=some f := hf
            exact hC2 C hstep (hC1 C hstep (hinsert C hC hCb) (hstep b hCb true t hjt))
              (hstep b hCb false f hjf)

/-! ## What the passes keep -/

/-- What holds of the blocks before and after every part of a pass. -/
structure Within (ids : List ℕ) (bound : ℕ → ℕ) (maxval : ℕ) (blk : Blocks) : Prop where
  /-- No edge leads out of the blocks that were counted. -/
  edges : ∀ p∈ids, ∀ taken c, succOf blk ⟨p,taken⟩=some c → c∈ids
  /-- No block has more statements than were counted. -/
  stmts : ∀ p, slength (blk p).stmts≤bound p
  /-- The numbers in the atoms are below `maxval`. -/
  val : ∀ p, Below maxval (blk p).val

variable {ids : List ℕ} {bound : ℕ → ℕ} {an : Analysis} {e : Edge}

/-- An edge may be led to a block that was counted. -/
theorem Within.setSucc (h : Within ids bound maxval blk) {c : Option ℕ}
    (hc : ∀ x, c=some x → x∈ids) : Within ids bound maxval (setSucc blk e c) := by
  have hother : ∀ p, p≠e.pred → BpfOptimizeLoop.setSucc blk e c p=blk p :=
    fun p hp => Function.update_of_ne hp _ _
  have hself : BpfOptimizeLoop.setSucc blk e c e.pred=
      if e.taken then {blk e.pred with jt:=c} else {blk e.pred with jf:=c} :=
    Function.update_self _ _ _
  refine ⟨fun p hp taken x hx => ?_,fun p => ?_,fun p => ?_⟩
  · by_cases hpe : p=e.pred
    · subst hpe
      have hjt := h.edges e.pred hp true
      have hjf := h.edges e.pred hp false
      rw [succOf,hself] at hx
      cases htaken : e.taken
      all_goals cases taken
      all_goals simp only [htaken,if_true,Bool.false_eq_true,if_false] at hx
      · exact hc x hx
      · exact hjt x hx
      · exact hjf x hx
      · exact hc x hx
    · rw [succOf,hother p hpe] at hx
      exact h.edges p hp taken x hx
  · by_cases hpe : p=e.pred
    · subst hpe
      rw [hself]
      split
      all_goals exact h.stmts e.pred
    · rw [hother p hpe]
      exact h.stmts p
  · by_cases hpe : p=e.pred
    · subst hpe
      rw [hself]
      split
      all_goals exact h.val e.pred
    · rw [hother p hpe]
      exact h.val p

/-- A block may be replaced by what `opt_blk` leaves of it. -/
theorem Within.rewrite (h : Within ids bound maxval blk) {p : ℕ} {b : OptBlock}
    (hb : Rewrites maxval (blk p) b) : Within ids bound maxval (Function.update blk p b) := by
  refine ⟨fun q hq taken c hc => ?_,fun q => ?_,fun q => ?_⟩
  · by_cases hqp : q=p
    · subst hqp
      have hjt := h.edges q hq true c
      have hjf := h.edges q hq false c
      rw [succOf,Function.update_self] at hc
      cases taken with
      | true =>
        rcases hb.jt with he | he
        · exact hjt (he.symm.trans hc)
        · exact hjf (he.symm.trans hc)
      | false =>
        rcases hb.jf with he | he
        · exact hjt (he.symm.trans hc)
        · exact hjf (he.symm.trans hc)
    · rw [succOf,Function.update_of_ne hqp] at hc
      exact h.edges q hq taken c hc
  · by_cases hqp : q=p
    · subst hqp
      rw [Function.update_self]
      exact Nat.le_trans hb.stmts (h.stmts q)
    · rw [Function.update_of_ne hqp]
      exact h.stmts q
  · by_cases hqp : q=p
    · subst hqp
      rw [Function.update_self]
      exact hb.val
    · rw [Function.update_of_ne hqp]
      exact h.val q

/-- A folded edge leads where one of the edges of the block led. -/
theorem foldEdge_mem (h : Within ids bound maxval blk) {child target : ℕ} (hchild : child∈ids)
    (hfold : foldEdge blk child e=some target) : target∈ids := by
  have hjt := h.edges child hchild true target
  have hjf := h.edges child hchild false target
  rw [foldEdge] at hfold
  split_ifs at hfold
  all_goals first
    | exact hjt hfold
    | exact hjf hfold

theorem findTarget_mem (h : Within ids bound maxval blk) {child target : ℕ} (hchild : child∈ids)
    (hfind : findTarget an blk e child=some target) : target∈ids := by
  rw [findTarget,List.findSome?_eq_some_iff] at hfind
  obtain ⟨before,passed,after,hsplit,hfold,hnone⟩ := hfind
  cases hedge : foldEdge blk child passed with
  | none =>
    rw [hedge] at hfold
    cases hfold
  | some t =>
    rw [hedge] at hfold
    dsimp only at hfold
    split_ifs at hfold
    cases hfold
    exact foldEdge_mem h hchild hedge

/-! ## Edges that are led past blocks -/

theorem frees_skipSame (h : Within ids bound maxval blk) {child : ℕ} (hchild : child∈ids) :
    Frees maxval (skipSame an blk e child) (Within ids bound maxval) := by
  rw [skipSame]
  split
  · exact spends_pure h
  · rename_i t ht
    refine spends_ite (fun _ => frees_done (h.setSucc fun x hx => ?_)) fun _ => spends_pure h
    cases hx
    exact h.edges child hchild true t ht

theorem frees_optJTop (he : e.pred∈ids) (rounds : ℕ) (h : Within ids bound maxval blk) :
    Frees maxval (optJTop an e rounds blk) (Within ids bound maxval) := by
  induction rounds generalizing blk with
  | zero => exact spends_throw fun h => by cases h
  | succ rounds ih =>
    rw [optJTop]
    split
    · exact spends_throw fun h => by cases h
    · rename_i child hchild
      split
      · exact spends_pure h
      · rename_i target htarget
        have hlead : Within ids bound maxval (setSucc blk e (some target)) := by
          refine h.setSucc fun x hx => ?_
          cases hx
          exact findTarget_mem h (h.edges e.pred he e.taken child hchild) htarget
        exact spends_free spends_notDone fun _ _ =>
          spends_ite (fun _ => ih hlead) fun _ => spends_pure hlead

theorem frees_optJ (he : e.pred∈ids) (rounds : ℕ) (h : Within ids bound maxval blk) :
    Frees maxval (optJ rounds an blk e) (Within ids bound maxval) := by
  rw [optJ]
  split
  · exact spends_throw fun h => by cases h
  · rename_i child hchild
    refine spends_ite (fun _ => spends_pure h) fun _ => ?_
    exact spends_free (frees_skipSame h (h.edges e.pred he e.taken child hchild))
      fun _ h' => frees_optJTop he rounds h'

/-! ## Blocks that are pulled up -/

variable {b : ℕ} {chain : Bool}

theorem frees_diffLoop (h : Within ids bound maxval blk) (val rounds : ℕ) {diffp : Edge}
    (hdiffp : diffp.pred∈ids) (atTop : Bool) :
    Frees maxval (diffLoop an blk b val chain rounds diffp atTop)
      fun found => ∀ r, found=some r → r.1.pred∈ids := by
  induction rounds generalizing diffp atTop with
  | zero => exact spends_throw fun h => by cases h
  | succ rounds ih =>
    have hnone : ∀ r : Edge×Bool, none=some r → r.1.pred∈ids := fun r hr => by cases hr
    rw [diffLoop]
    split
    · exact spends_pure hnone
    · rename_i d hd
      refine spends_ite (fun _ => spends_pure hnone) fun _ => ?_
      refine spends_ite (fun _ => spends_pure hnone) fun _ => ?_
      refine spends_ite (fun _ => spends_pure fun r hr => ?_) fun _ => ?_
      · cases hr
        exact hdiffp
      · exact ih (h.edges diffp.pred hdiffp diffp.taken d hd) false

theorem frees_sameLoop (h : Within ids bound maxval blk) (val rounds : ℕ) {samep : Edge}
    (hsamep : samep.pred∈ids) :
    Frees maxval (sameLoop an blk b val chain rounds samep)
      fun found => ∀ r, found=some r → r.pred∈ids := by
  induction rounds generalizing samep with
  | zero => exact spends_throw fun h => by cases h
  | succ rounds ih =>
    have hnone : ∀ r : Edge, none=some r → r.pred∈ids := fun r hr => by cases hr
    rw [sameLoop]
    split
    · exact spends_pure hnone
    · rename_i d hd
      refine spends_ite (fun _ => spends_pure hnone) fun _ => ?_
      refine spends_ite (fun _ => spends_pure hnone) fun _ => ?_
      refine spends_ite (fun _ => spends_pure fun r hr => ?_) fun _ => ?_
      · cases hr
        exact hsamep
      · exact ih (h.edges samep.pred hsamep samep.taken d hd)

theorem Within.leadTo (h : Within ids bound maxval blk) {pull : ℕ} (hpull : pull∈ids) :
    Within ids bound maxval (leadTo b pull blk e) := by
  have hc : ∀ x, some pull=some x → x∈ids := fun x hx => by
    cases hx
    exact hpull
  rw [BpfOptimizeLoop.leadTo]
  split
  · exact h.setSucc hc
  · exact h.setSucc hc

theorem Within.foldl_leadTo (h : Within ids bound maxval blk) {pull : ℕ} (hpull : pull∈ids)
    (inEdges : List Edge) : Within ids bound maxval (inEdges.foldl (BpfOptimizeLoop.leadTo b pull)
      blk) := by
  induction inEdges generalizing blk with
  | nil => exact h
  | cons e inEdges ih => exact ih (h.leadTo hpull)

theorem Within.pullUp (h : Within ids bound maxval blk) {pull : ℕ} (hpull : pull∈ids)
    {diffp samep : Edge} (hdiffp : diffp.pred∈ids) (inEdges : List Edge) (atTop : Bool) :
    Within ids bound maxval (pullUp blk inEdges b pull chain diffp samep atTop) := by
  have hsame := h.setSucc (e:=samep) fun x hx => h.edges pull hpull chain x hx
  have hdiff := hsame.setSucc (e:=⟨pull,chain⟩) fun x hx =>
    hsame.edges diffp.pred hdiffp diffp.taken x hx
  rw [BpfOptimizeLoop.pullUp]
  split
  · exact hdiff.foldl_leadTo hpull inEdges
  · refine hdiff.setSucc fun x hx => ?_
    cases hx
    exact hpull

theorem frees_pullupBody (h : Within ids bound maxval blk) (rounds : ℕ) {inEdges : ℕ → List Edge}
    (hin : ∀ e∈inEdges b, e.pred∈ids) :
    Frees maxval (pullupBody rounds an inEdges chain blk b) (Within ids bound maxval) := by
  rw [pullupBody]
  split
  · exact spends_pure h
  · rename_i ep rest hlist
    have hep : ep.pred∈ids := by
      refine hin ep ?_
      rw [hlist]
      exact List.mem_cons_self
    have hstart : (if succOf blk ⟨ep.pred,true⟩=some b then (⟨ep.pred,true⟩ : Edge)
        else ⟨ep.pred,false⟩).pred∈ids := by
      split
      · exact hep
      · exact hep
    refine spends_ite (fun _ => spends_pure h) fun _ => ?_
    refine spends_free (frees_diffLoop h _ rounds hstart true) fun found hfound => ?_
    split
    · exact spends_pure h
    · rename_i diffp atTop
      have hdiffp : diffp.pred∈ids := hfound _ rfl
      split
      · exact spends_pure h
      · rename_i d hd
        refine spends_free (frees_sameLoop h _ rounds
          (h.edges diffp.pred hdiffp diffp.taken d hd)) fun same hsame => ?_
        split
        · exact spends_pure h
        · rename_i samep
          split
          · exact spends_pure h
          · rename_i pull hpull
            exact frees_done (h.pullUp (h.edges samep.pred (hsame samep rfl) samep.taken pull hpull)
              hdiffp _ _)

/-! ## Levels and the edges into blocks -/

/-- A part without static variables takes nothing. -/
theorem frees_ofExcept {α : Type} {r : Except Fault α} {post : α → Prop}
    (herror : r≠.error .outOfBounds) (hok : ∀ a, r=.ok a → post a) :
    Frees maxval (ofExcept r) post := by
  cases r with
  | error e => exact spends_throw fun he => herror (congrArg Except.error he)
  | ok a => exact spends_pure (hok a rfl)

theorem findLevelsR_noBounds (rounds b : ℕ) (st : LevelState) :
    findLevelsR blk rounds b st≠.error .outOfBounds := by
  induction rounds generalizing b st with
  | zero =>
    rw [findLevelsR]
    exact fun h => by cases h
  | succ rounds ih =>
    rw [findLevelsR]
    split
    · exact fun h => by cases h
    · split
      · exact fun h => by cases h
      · exact fun h => by cases h
      · split
        · rename_i e he
          rw [←he]
          exact ih _ _
        · split
          · rename_i e he
            rw [←he]
            exact ih _ _
          · exact fun h => by cases h

/-- The lists `in_edges` hold no edges but those that are linked. -/
theorem linkInedges_spec (l : List Edge) (inEdges : ℕ → List Edge) :
    l.foldlM (linkInedge blk) inEdges≠.error .outOfBounds ∧
      ∀ r, l.foldlM (linkInedge blk) inEdges=.ok r → ∀ c, ∀ e∈r c, e∈inEdges c ∨ e∈l := by
  induction l generalizing inEdges with
  | nil =>
    refine ⟨(fun h => by cases h),fun r hr c e he => ?_⟩
    cases hr
    exact .inl he
  | cons parent l ih =>
    rw [List.foldlM_cons,linkInedge]
    cases hsucc : succOf blk parent with
    | none => exact ⟨(fun h => by cases h),(fun r hr => by cases hr)⟩
    | some child =>
      obtain ⟨hnoBounds,hmem⟩ := ih (Function.update inEdges child (parent::inEdges child))
      refine ⟨hnoBounds,fun r hr c e he => ?_⟩
      rcases hmem r hr c e he with he | he
      · by_cases hc : c=child
        · rw [hc,Function.update_self] at he
          rcases List.mem_cons.mp he with rfl | he
          · exact .inr List.mem_cons_self
          · rw [hc]
            exact .inl he
        · rw [Function.update_of_ne hc] at he
          exact .inl he
      · exact .inr (List.mem_cons_of_mem parent he)

theorem mem_downToOne {levels : ℕ → List ℕ} {n p : ℕ} (h : p∈downToOne levels n) :
    ∃ i, p∈levels i := by
  induction n with
  | zero => exact absurd h List.not_mem_nil
  | succ n ih =>
    rw [downToOne] at h
    rcases List.mem_append.mp h with h | h
    · exact ⟨n+1,h⟩
    · exact ih h

theorem mem_upFromOne {levels : ℕ → List ℕ} {n p : ℕ} (h : p∈upFromOne levels n) :
    ∃ i, p∈levels i := by
  obtain ⟨i,_,hp⟩ := List.mem_flatMap.mp h
  exact ⟨i+1,hp⟩

theorem mem_bothEdges {l : List ℕ}
    (h : e∈l.flatMap fun p => [(⟨p,true⟩ : Edge),⟨p,false⟩]) : e.pred∈l := by
  obtain ⟨p,hp,he⟩ := List.mem_flatMap.mp h
  rcases List.mem_cons.mp he with rfl | he
  · exact hp
  · rw [List.mem_singleton.mp he]
    exact hp

/-- The blocks of the levels are blocks that were counted, and in no list twice. -/
structure Levelled (ids : List ℕ) (st : LevelState) : Prop where
  /-- The lists hold blocks that were counted. -/
  subset : ∀ i, ∀ p∈st.levels i, p∈ids
  /-- No block is on two levels. -/
  nodup : ∀ n, (downFrom st.levels n).Nodup

theorem frees_findInedges (hst : Levelled ids st) (n : ℕ) :
    Frees maxval (ofExcept (findInedges blk st.levels n))
      fun inEdges => ∀ c, ∀ e∈inEdges c, e.pred∈ids := by
  have hlink := @linkInedges_spec blk ((downToOne st.levels n).flatMap fun b =>
    [(⟨b,true⟩ : Edge),⟨b,false⟩]) fun _ => []
  refine frees_ofExcept hlink.1 fun inEdges hok c e he => ?_
  rcases hlink.2 inEdges hok c e he with he | he
  · exact absurd he List.not_mem_nil
  · obtain ⟨i,hi⟩ := mem_downToOne (mem_bothEdges he)
    exact hst.subset i e.pred hi

theorem frees_findLevels (h : Within ids bound maxval blk) {root : ℕ} (hroot : root∈ids)
    (rounds : ℕ) (level : ℕ → ℕ) :
    Frees maxval (ofExcept (findLevels rounds blk root level)) (Levelled ids) := by
  refine frees_ofExcept (findLevelsR_noBounds rounds root _) fun st hok => ?_
  have hnone : Listed (fun _ => False) ⟨∅,level,fun _ => []⟩ :=
    ⟨fun i p hp => absurd hp List.not_mem_nil,fun _ => List.nodup_nil⟩
  obtain ⟨hlisted,_,hclosed⟩ := findLevelsR_spec hnone (fun a ha => ha.elim) hok
  refine ⟨fun i p hp => ?_,nodup_downFrom hlisted⟩
  exact hclosed (·∈ids) h.edges (fun a ha => absurd ha (Finset.notMem_empty a)) hroot p
    (hlisted.listed i p hp).2.1

/-! ## Passes -/

variable {doStmts : Bool} {rounds root : ℕ}

/-- A block takes no more numbers than were counted for it. -/
theorem spends_optBlock (hmax : 0 < maxval) (inEdges : ℕ → List Edge)
    (h : Within ids bound maxval blk) (p : ℕ) :
    (numbers maxval).Spends (2*bound p+1) (optBlock maxval an inEdges doStmts blk p)
      (Within ids bound maxval) := by
  have hpreds : ∀ val∈(inEdges p).map fun e => (blk e.pred).val, Below maxval val := by
    intro val hval
    obtain ⟨e,_,he⟩ := List.mem_map.mp hval
    rw [←he]
    exact h.val e.pred
  have hcost : 2*slength (blk p).stmts+1≤2*bound p+1 := by
    have hle := h.stmts p
    omega
  exact spends_bind (k:=0) ((spends_optBlk hmax hpreds _ _ _).mono hcost fun _ hb => hb)
    fun b hb => spends_pure (h.rewrite hb)

/-- A pass takes no more numbers than were counted for the blocks. -/
theorem spends_optBlksRest (hmax : 0 < maxval) (hst : Levelled ids st)
    (h : Within ids bound maxval blk) :
    (numbers maxval).Spends (ids.map fun p => 2*bound p+1).sum
      (optBlksRest maxval rounds an st root doStmts blk) (Within ids bound maxval) := by
  have hdown : ∀ p∈downFrom st.levels (st.level root), p∈ids := by
    intro p hp
    obtain ⟨i,_,hi⟩ := (mem_downFrom st.levels (st.level root) p).mp hp
    exact hst.subset i p hi
  have hup : ∀ p∈upFromOne st.levels (st.level root), p∈ids := by
    intro p hp
    obtain ⟨i,hi⟩ := mem_upFromOne hp
    exact hst.subset i p hi
  refine spends_free (frees_findInedges hst _) fun inEdges _ => ?_
  have hblocks : (numbers maxval).Spends (ids.map fun p => 2*bound p+1).sum
      ((downFrom st.levels (st.level root)).foldlM (optBlock maxval an inEdges doStmts) blk)
      (Within ids bound maxval) :=
    spends_foldlM_of_nodup (hst.nodup _) hdown
      (fun blk p _ (h : Within ids bound maxval blk) => spends_optBlock hmax inEdges h p) h
  refine spends_bind (k:=0) hblocks fun blk h => ?_
  refine spends_ite (fun _ => spends_pure h) fun _ => ?_
  refine spends_free (frees_foldlM (fun blk e he h =>
    frees_optJ (hup e.pred (mem_bothEdges he)) rounds h) h) fun blk h => ?_
  refine spends_free (frees_findInedges hst _) fun inEdges hin => ?_
  exact frees_foldlM (fun blk p _ h => spends_free (frees_pullupBody h rounds (hin p))
    fun blk h => frees_pullupBody h rounds (hin p)) h

theorem safe_optBlks (hst : Levelled ids st) (h : Within ids bound maxval blk)
    (hcount : (ids.map fun p => 2*bound p+1).sum < maxval) :
    (numbers maxval).Safe (optBlks maxval rounds an st root doStmts blk)
      (Within ids bound maxval) := by
  have hmax : 0 < maxval := Nat.lt_of_le_of_lt (Nat.zero_le _) hcount
  refine (spends_optBlksRest hmax hst h).safe_of_reset (fun g hg => ⟨?_,rfl⟩) hcount
  exact ⟨rfl,fun i p hp => absurd hp List.not_mem_nil,hg.handed⟩

/-- However many passes there are, each begins with all the numbers. -/
theorem safe_optLoop (analyse : LevelState → Blocks → Analysis) (hroot : root∈ids)
    (hcount : (ids.map fun p => 2*bound p+1).sum < maxval) (passes : ℕ)
    (h : Within ids bound maxval blk) (level : ℕ → ℕ) :
    (numbers maxval).Safe (optLoop maxval rounds analyse root doStmts passes (blk,level))
      fun r => Within ids bound maxval r.1 := by
  induction passes generalizing blk level with
  | zero => exact (spends_throw fun h => by cases h).safe
  | succ passes ih =>
    have hdone : Frees maxval (modify fun g => {g with done:=true}) fun _ => True :=
      fun _ hg _ => ⟨⟨hg.nextVnode,hg.hashtbl,hg.handed⟩,Nat.le_refl _,trivial⟩
    have hget : Frees maxval (get : Opt Globals) fun _ => True :=
      fun _ hg _ => ⟨hg,Nat.le_refl _,trivial⟩
    refine safe_bind hdone.safe fun _ _ => ?_
    refine safe_bind (frees_findLevels h hroot rounds level).safe fun st hst => ?_
    refine safe_bind (safe_optBlks hst h hcount) fun blk h => ?_
    refine safe_bind hget.safe fun g _ => ?_
    by_cases hg : g.done=true
    · rw [if_pos hg]
      exact (spends_pure h).safe
    · rw [if_neg hg]
      exact ih h st.level

/-! ## The optimiser -/

/-- No edge leads out of the blocks that `opt_init` numbers. -/
theorem within_initBlocks (g : BlockGraph) (hmax : 0 < maxval) :
    Within (numberBlks g).blocks (fun p => slength (g.block p).stmts) maxval (initBlocks g) := by
  have hclosed := (numberBlksR_spec g (some g.root) [] List.nodup_nil).1.closed_of_empty
  refine ⟨fun p hp taken c hc => ?_,fun p => le_rfl,fun p atom => hmax⟩
  have hsucc : c∈g.succ p := by
    rw [BlockGraph.succ,List.mem_append,Option.mem_toList,Option.mem_toList]
    cases taken with
    | true => exact .inr hc
    | false => exact .inl hc
  exact List.mem_toFinset.mp (hclosed p (List.mem_toFinset.mpr hp) c hsucc)

/-- Two numbers for every statement and one for every block are less than `maxval`. -/
theorem count_lt_initMaxval (g : BlockGraph) :
    ((numberBlks g).blocks.map fun p => 2*slength (g.block p).stmts+1).sum < initMaxval g := by
  have hroot := (numberBlks g).reached g.root .refl
  rw [initMaxval,←List.sum_map_mul_left]
  refine List.sum_lt_sum_of_ne_nil (List.ne_nil_of_mem hroot) _ _ fun p _ => ?_
  omega

end AndroidPlatform.BpfOptimizeLoop
