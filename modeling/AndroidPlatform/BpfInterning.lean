import AndroidPlatform.BpfProgram
import AndroidPlatform.MarkedTraversal
import Mathlib.Data.Finset.Card
import Mathlib.Data.Finset.Dedup
import Mathlib.Data.List.Range
import Mathlib.Order.Interval.Finset.Nat
import Mathlib.Data.Finset.Lattice.Fold

/-!
# Merging equal blocks

`intern_blocks` of `optimize.c` looks for blocks that are reached from the
root and are equal to a later one: the same branch, the same successors, the
same statements apart from removed ones. Every edge to such a block is led to
the later one, and the search starts again, since blocks may have become equal
whose successors were different.

The blocks are kept in the order of the array `blocks`, with the root first.
Statements are compared by their opcode and operand only, not by where a jump
within the statements of a block goes. The amended result therefore is about
graphs whose blocks do not differ in such targets alone.
-/

namespace AndroidPlatform.BpfInterning

open BpfProgram MarkedTraversal

/-- The successors of a block. -/
def edges (b : Block) : List ℕ := b.jt.toList++b.jf.toList

/-- The successors of the block at an index. -/
def succ (blocks : List Block) (p : ℕ) : List ℕ :=
  match blocks[p]? with
  | some b => edges b
  | none => []

/-- `make_marks`, for recursions up to the given depth; nothing when it goes
deeper or follows a pointer that leads nowhere. -/
def makeMarks (blocks : List Block) : ℕ → Option ℕ → Finset ℕ → Option (Finset ℕ)
  | 0,_,_ => none
  | _+1,none,_ => none
  | depth+1,some p,marked =>
    if p∈marked then some marked
    else
      match blocks[p]? with
      | none => none
      | some b =>
        if bpfClass (uShort b.s.code)=bpfRet then some (insert p marked)
        else
          match makeMarks blocks depth b.jt (insert p marked) with
          | none => none
          | some marked' => makeMarks blocks depth b.jf marked'

/-- `eq_slist` -/
def eqSlist : List Stmt → List Stmt → Bool
  | [],y => (y.dropWhile fun st => st.code==nop).isEmpty
  | st::x,y =>
    if st.code=nop then eqSlist x y
    else
      match y.dropWhile fun st => st.code==nop with
      | [] => false
      | st'::y' => st.code==st'.code && st.k==st'.k && eqSlist x y'

/-- `eq_blk` -/
def eqBlk (b0 b1 : Block) : Bool :=
  b0.s.code==b1.s.code && b0.s.k==b1.s.k && b0.jt==b1.jt && b0.jf==b1.jf &&
    eqSlist b0.stmts b1.stmts

/-- `eq_blk` of the blocks at two indices. -/
def eqAt (blocks : List Block) (i j : ℕ) : Bool :=
  match blocks[i]?,blocks[j]? with
  | some b0,some b1 => eqBlk b0 b1
  | _,_ => false

/-- The first marked block behind block `i` that is equal to it. -/
def firstEqual (blocks : List Block) (marked : Finset ℕ) (i : ℕ) : Option ℕ :=
  (List.range blocks.length).find? fun j => decide (i<j) && decide (j∈marked) && eqAt blocks i j

/-- The body of the loop that sets `link`. -/
def setLink (blocks : List Block) (marked : Finset ℕ) (i : ℕ) (link : ℕ → Option ℕ) :
    ℕ → Option ℕ :=
  if i∈marked then
    match firstEqual blocks marked i with
    | some j => Function.update link i (some ((link j).getD j))
    | none => link
  else link

/-- The loop that sets `link`, for the blocks below `i` from the last to the first. -/
def setLinks (blocks : List Block) (marked : Finset ℕ) : ℕ → (ℕ → Option ℕ) → ℕ → Option ℕ
  | 0,link => link
  | i+1,link => setLinks blocks marked i (setLink blocks marked i link)

/-- The fields `link` after the loop. -/
def links (blocks : List Block) (marked : Finset ℕ) : ℕ → Option ℕ :=
  setLinks blocks marked (blocks.length-1) fun _ => none

/-- Where an edge leads after the blocks have been linked. -/
def follow (link : ℕ → Option ℕ) (c : ℕ) : ℕ := (link c).getD c

/-- The body of the loop that redirects the edges of a block. -/
def redirect (link : ℕ → Option ℕ) (b : Block) : Block :=
  match b.jt with
  | none => b
  | some _ => { b with jt := b.jt.map (follow link), jf := b.jf.map (follow link) }

/-- Whether redirecting the edges of a block clears `done1`. -/
def redirected (link : ℕ → Option ℕ) (b : Block) : Bool :=
  match b.jt with
  | none => false
  | some _ => (edges b).any fun c => (link c).isSome

/-- `intern_blocks`, for recursions up to the given depth and that many rounds. -/
def internBlocks (depth : ℕ) : ℕ → List Block → Option (List Block)
  | 0,_ => none
  | rounds+1,blocks =>
    match makeMarks blocks depth (some 0) ∅ with
    | none => none
    | some marked =>
      let link := links blocks marked
      let blocks' := blocks.map (redirect link)
      if blocks.any (redirected link) then internBlocks depth rounds blocks' else some blocks'

/-! ## Running a graph -/

/-- A statement as it is executed: a jump within the statements of a block goes
to one of the statements that have not been removed. -/
structure LiveStmt where
  /-- The opcode. -/
  code : ℤ
  /-- The constant operand. -/
  k : ℤ
  /-- The statement to go to when a jump is taken. -/
  jt : Option ℕ
  /-- The statement to go to when it is not. -/
  jf : Option ℕ
  deriving DecidableEq

/-- How many statements before a place have not been removed. -/
def livePlace (stmts : List Stmt) (i : ℕ) : ℕ := (stmts.take i).countP fun st => st.code≠nop

/-- The statements of a block that have not been removed. -/
def live (stmts : List Stmt) : List LiveStmt :=
  (stmts.filter fun st => st.code≠nop).map fun st =>
    ⟨st.code,st.k,st.jt.map (livePlace stmts),st.jf.map (livePlace stmts)⟩

variable {σ ρ : Type} (M : Machine σ ρ)

/-- Execute the statements of a block from the statement `i`: the events, and
the state behind the statements, or the result if the filter ends at one of
them. A jump goes forward; one that goes back or nowhere ends without a result. -/
def runLive (stmts : List LiveStmt) (i : ℕ) (s : σ) : List Event×Except (Option ρ) σ :=
  if h : i < stmts.length then
    let st := stmts[i]
    let code := uShort st.code
    let k := uInt32 st.k
    if bpfClass code=bpfJmp then
      let taken := M.test code k s
      match (if taken then st.jt else st.jf) with
      | none => ([.branch code k taken],.error none)
      | some target =>
        if i<target then
          let rest := runLive stmts target s
          (.branch code k taken::rest.1,rest.2)
        else ([.branch code k taken],.error none)
    else
      match M.exec code k s with
      | .error r => ([.stmt code k],.error (some r))
      | .ok s' =>
        let rest := runLive stmts (i+1) s'
        (.stmt code k::rest.1,rest.2)
  else ([],.ok s)
termination_by stmts.length-i

/-- Run the graph from a block through at most that many blocks: all events,
and the result unless the run leaves the graph. -/
def runGraph (blocks : List Block) : ℕ → Option ℕ → σ → Option (List Event×Option ρ)
  | 0,_,_ => none
  | _+1,none,_ => some ([],none)
  | fuel+1,some p,s =>
    match blocks[p]? with
    | none => some ([],none)
    | some b =>
      match runLive M (live b.stmts) 0 s with
      | (events,.error r) => some (events,r)
      | (events,.ok s') =>
        let code := uShort b.s.code
        let k := uInt32 b.s.k
        if bpfClass code=bpfRet then
          match M.exec code k s' with
          | .error r => some (events++[.stmt code k],some r)
          | .ok _ => some (events++[.stmt code k],none)
        else
          let taken := M.test code k s'
          (runGraph blocks fuel (if taken then b.jt else b.jf) s').map fun rest =>
            (events++.branch code k taken::rest.1,rest.2)

/-! ## Equal blocks -/

/-- The statements that have not been removed, without the targets of jumps. -/
def kept (stmts : List Stmt) : List (ℤ×ℤ) :=
  (stmts.filter fun st => st.code≠nop).map fun st => (st.code,st.k)

/-- Two blocks with the same branch, the same successors and the same
statements apart from removed ones. -/
structure SameBlock (b0 b1 : Block) : Prop where
  /-- The same branch statement. -/
  code : b0.s.code=b1.s.code
  /-- The same operand of the branch statement. -/
  k : b0.s.k=b1.s.k
  /-- The same successor when the branch is taken. -/
  jt : b0.jt=b1.jt
  /-- The same successor when it is not. -/
  jf : b0.jf=b1.jf
  /-- The same statements. -/
  stmts : kept b0.stmts=kept b1.stmts

theorem SameBlock.symm {b0 b1 : Block} (h : SameBlock b0 b1) : SameBlock b1 b0 :=
  ⟨h.code.symm,h.k.symm,h.jt.symm,h.jf.symm,h.stmts.symm⟩

theorem SameBlock.trans {b0 b1 b2 : Block} (h : SameBlock b0 b1) (h' : SameBlock b1 b2) :
    SameBlock b0 b2 :=
  ⟨h.code.trans h'.code,h.k.trans h'.k,h.jt.trans h'.jt,h.jf.trans h'.jf,h.stmts.trans h'.stmts⟩

theorem kept_cons_nop {st : Stmt} (h : st.code=nop) (stmts : List Stmt) :
    kept (st::stmts)=kept stmts := by
  rw [kept,List.filter_cons_of_neg (by simp [h])]
  rfl

theorem kept_cons {st : Stmt} (h : st.code≠nop) (stmts : List Stmt) :
    kept (st::stmts)=(st.code,st.k)::kept stmts := by
  rw [kept,List.filter_cons_of_pos (by simp [h])]
  rfl

/-- Removed statements at the front do not count. -/
theorem kept_dropWhile (stmts : List Stmt) :
    kept (stmts.dropWhile fun st => st.code==nop)=kept stmts := by
  induction stmts with
  | nil => rfl
  | cons st rest ih =>
    by_cases h : st.code=nop
    · rw [List.dropWhile_cons_of_pos (by simp [h]),ih,kept_cons_nop h]
    · rw [List.dropWhile_cons_of_neg (by simp [h])]

theorem dropWhile_head {stmts rest : List Stmt} {st : Stmt}
    (h : (stmts.dropWhile fun st => st.code==nop)=st::rest) : st.code≠nop := by
  have hst := List.head_dropWhile_not (fun st : Stmt => st.code==nop)
    (show stmts.dropWhile (fun st => st.code==nop)≠[] by rw [h]; simp)
  simpa [h] using hst

theorem eqSlist_iff {x y : List Stmt} : eqSlist x y=true ↔ kept x=kept y := by
  induction x generalizing y with
  | nil =>
    rw [eqSlist,List.isEmpty_iff,← kept_dropWhile y]
    cases hd : y.dropWhile fun st => st.code==nop with
    | nil => exact iff_of_true rfl rfl
    | cons st rest =>
      rw [kept_cons (dropWhile_head hd)]
      exact iff_of_false (by simp) (by simp [kept])
  | cons st x ih =>
    by_cases h : st.code=nop
    · rw [eqSlist,if_pos h,ih,kept_cons_nop h]
    · rw [eqSlist,if_neg h,kept_cons h,← kept_dropWhile y]
      cases hd : y.dropWhile fun st => st.code==nop with
      | nil => exact iff_of_false (by simp) (by simp [kept])
      | cons st' y' =>
        rw [kept_cons (dropWhile_head hd),List.cons.injEq,Prod.mk.injEq]
        simp only [Bool.and_eq_true,beq_iff_eq,ih]

theorem eqBlk_iff {b0 b1 : Block} : eqBlk b0 b1=true ↔ SameBlock b0 b1 := by
  simp only [eqBlk,Bool.and_eq_true,beq_iff_eq,eqSlist_iff]
  exact ⟨fun ⟨⟨⟨⟨h1,h2⟩,h3⟩,h4⟩,h5⟩ => ⟨h1,h2,h3,h4,h5⟩,
    fun ⟨h1,h2,h3,h4,h5⟩ => ⟨⟨⟨⟨h1,h2⟩,h3⟩,h4⟩,h5⟩⟩

/-- The blocks at two indices are the same. -/
def SameAt (blocks : List Block) (i j : ℕ) : Prop :=
  ∃ b0 b1, blocks[i]?=some b0 ∧ blocks[j]?=some b1 ∧ SameBlock b0 b1

theorem eqAt_iff {blocks : List Block} {i j : ℕ} : eqAt blocks i j=true ↔ SameAt blocks i j := by
  unfold eqAt SameAt
  cases hi : blocks[i]? with
  | none => simp
  | some b0 =>
    cases hj : blocks[j]? with
    | none => simp
    | some b1 => simp [eqBlk_iff]

theorem SameAt.trans {blocks : List Block} {i j q : ℕ} (h : SameAt blocks i j)
    (h' : SameAt blocks j q) : SameAt blocks i q := by
  obtain ⟨b0,b1,hi,hj,hs⟩ := h
  obtain ⟨b1',b2,hj',hq,hs'⟩ := h'
  rw [Option.some.inj (hj.symm.trans hj')] at hs
  exact ⟨b0,b2,hi,hq,hs.trans hs'⟩

theorem SameAt.symm {blocks : List Block} {i j : ℕ} (h : SameAt blocks i j) : SameAt blocks j i := by
  obtain ⟨b0,b1,hi,hj,hs⟩ := h
  exact ⟨b1,b0,hj,hi,hs.symm⟩

/-! ## Links -/

theorem firstEqual_some {blocks : List Block} {marked : Finset ℕ} {i j : ℕ}
    (h : firstEqual blocks marked i=some j) :
    i<j ∧ j∈marked ∧ j<blocks.length ∧ SameAt blocks i j := by
  have hp := List.find?_some h
  have hm := List.mem_of_find?_eq_some h
  simp only [Bool.and_eq_true,decide_eq_true_eq,eqAt_iff] at hp
  exact ⟨hp.1.1,hp.1.2,List.mem_range.mp hm,hp.2⟩

theorem firstEqual_none {blocks : List Block} {marked : Finset ℕ} {i j : ℕ}
    (h : firstEqual blocks marked i=none) (hlt : i<j) (hj : j∈marked) :
    ¬SameAt blocks i j := by
  intro hs
  have hlen : j<blocks.length := by
    obtain ⟨b0,b1,-,hb,-⟩ := hs
    exact (List.getElem?_eq_some_iff.mp hb).1
  have hn := List.find?_eq_none.mp h j (List.mem_range.mpr hlen)
  simp only [Bool.and_eq_true,decide_eq_true_eq,eqAt_iff] at hn
  exact hn ⟨⟨hlt,hj⟩,hs⟩

/-- What the links are when the blocks from `i` on have been gone through. -/
structure Linked (blocks : List Block) (marked : Finset ℕ) (i : ℕ) (link : ℕ → Option ℕ) :
    Prop where
  /-- A link leads from a marked block to a later one that is the same. -/
  leads : ∀ {p q}, link p=some q → p∈marked ∧ q∈marked ∧ p<q ∧ SameAt blocks p q
  /-- A link leads to a block without one. -/
  last : ∀ {p q}, link p=some q → link q=none
  /-- Nothing is linked before it is gone through. -/
  below : ∀ {p}, p < i → link p=none
  /-- A block with a later one that is the same is linked. -/
  all : ∀ {p q}, i≤p → p∈marked → q∈marked → p<q → SameAt blocks p q → link p≠none

/-- A block that is the same as none behind it stays without a link. -/
theorem Linked.keep {blocks : List Block} {marked : Finset ℕ} {i : ℕ} {link : ℕ → Option ℕ}
    (h : Linked blocks marked (i+1) link)
    (hi : ∀ {q}, i∈marked → q∈marked → i<q → ¬SameAt blocks i q) :
    Linked blocks marked i link := by
  refine ⟨h.leads,h.last,fun hp => h.below (by omega),fun {p q} hp hpm hqm hlt hs => ?_⟩
  rcases Nat.eq_or_lt_of_le hp with rfl | hp
  · exact absurd hs (hi hpm hqm hlt)
  · exact h.all hp hpm hqm hlt hs

/-- A block is linked to a later one that is the same and has no link. -/
theorem Linked.update {blocks : List Block} {marked : Finset ℕ} {i t : ℕ} {link : ℕ → Option ℕ}
    (h : Linked blocks marked (i+1) link) (hmem : i∈marked) (ht : t∈marked) (hlt : i<t)
    (hs : SameAt blocks i t) (hn : link t=none) :
    Linked blocks marked i (Function.update link i (some t)) := by
  have hne : ∀ {p}, p≠i → Function.update link i (some t) p=link p :=
    fun hp => Function.update_of_ne hp _ _
  refine ⟨fun {p q} hp => ?_,fun {p q} hp => ?_,fun {p} hp => ?_,
    fun {p q} hp hpm hqm hpq hspq => ?_⟩
  · by_cases hpi : p=i
    · rw [hpi,Function.update_self] at hp
      rw [hpi,← Option.some.inj hp]
      exact ⟨hmem,ht,hlt,hs⟩
    · rw [hne hpi] at hp
      exact h.leads hp
  · by_cases hpi : p=i
    · rw [hpi,Function.update_self] at hp
      rw [← Option.some.inj hp,hne (by omega)]
      exact hn
    · rw [hne hpi] at hp
      by_cases hqi : q=i
      · have hlow : link p=none := h.below (by have := (h.leads hp).2.2.1; omega)
        rw [hlow] at hp
        cases hp
      · rw [hne hqi]
        exact h.last hp
  · rw [hne (by omega)]
    exact h.below (by omega)
  · by_cases hpi : p=i
    · rw [hpi,Function.update_self]
      exact Option.some_ne_none _
    · rw [hne hpi]
      exact h.all (by omega) hpm hqm hpq hspq

theorem setLink_linked {blocks : List Block} {marked : Finset ℕ} {i : ℕ} {link : ℕ → Option ℕ}
    (h : Linked blocks marked (i+1) link) :
    Linked blocks marked i (setLink blocks marked i link) := by
  unfold setLink
  split_ifs with hmem
  · split
    · rename_i j hf
      obtain ⟨hlt,hjm,-,hsame⟩ := firstEqual_some hf
      cases hl : link j with
      | none => exact h.update hmem hjm hlt hsame hl
      | some q =>
        obtain ⟨-,hq,hjq,hs⟩ := h.leads hl
        exact h.update hmem hq (hlt.trans hjq) (hsame.trans hs) (h.last hl)
    · rename_i hf
      exact h.keep fun _ hq hlt => firstEqual_none hf hlt hq
  · exact h.keep fun hm => absurd hm hmem

theorem setLinks_linked {blocks : List Block} {marked : Finset ℕ} :
    ∀ {i : ℕ} {link : ℕ → Option ℕ}, Linked blocks marked i link →
      Linked blocks marked 0 (setLinks blocks marked i link) := by
  intro i
  induction i with
  | zero => exact fun h => h
  | succ i ih => exact fun h => ih (setLink_linked h)

/-- What `intern_blocks` knows about the links when it redirects the edges. -/
theorem links_linked (blocks : List Block) (marked : Finset ℕ) :
    Linked blocks marked 0 (links blocks marked) := by
  refine setLinks_linked ⟨fun h => (by cases h),fun h => (by cases h),fun _ => rfl,
    fun {p q} hp _ _ hlt hs => ?_⟩
  obtain ⟨b0,b1,-,hq,-⟩ := hs
  have := (List.getElem?_eq_some_iff.mp hq).1
  omega

/-! ## Graphs -/

/-- Every block returns or has two successors in the array. -/
structure Wellformed (blocks : List Block) : Prop where
  /-- There is a root. -/
  root : 0<blocks.length
  /-- Edges stay in the array. -/
  inside : ∀ {p c}, c∈succ blocks p → c<blocks.length
  /-- A block returns or branches two ways. -/
  ends : ∀ b∈blocks, (b.jt=none ∧ b.jf=none ∧ bpfClass (uShort b.s.code)=bpfRet) ∨
    ∃ t f, b.jt=some t ∧ b.jf=some f ∧ bpfClass (uShort b.s.code)≠bpfRet

/-- No path leads back to where it was. -/
def Acyclic (blocks : List Block) : Prop :=
  ∃ rank : ℕ → ℕ, ∀ p, ∀ c∈succ blocks p, rank c<rank p

/-- Some path from the root leads to the block. -/
def Reached (blocks : List Block) : ℕ → Prop :=
  Relation.ReflTransGen (fun p c => c∈succ blocks p) 0

theorem succ_of_some {blocks : List Block} {p : ℕ} {b : Block} (h : blocks[p]?=some b) :
    succ blocks p=edges b := by
  rw [succ,h]

theorem exists_block {blocks : List Block} {p : ℕ} (h : p<blocks.length) :
    ∃ b, blocks[p]?=some b ∧ b∈blocks :=
  ⟨blocks[p],List.getElem?_eq_getElem h,List.getElem_mem h⟩

theorem Reached.inside {blocks : List Block} (hw : Wellformed blocks) {p : ℕ}
    (h : Reached blocks p) : p<blocks.length := by
  induction h with
  | refl => exact hw.root
  | tail _ hc _ => exact hw.inside hc

/-- A block that is reached and is not the root has an edge into it. -/
theorem Reached.parent {blocks : List Block} {p : ℕ} (h : Reached blocks p) (hne : p≠0) :
    ∃ q, Reached blocks q ∧ p∈succ blocks q := by
  cases h with
  | refl => exact absurd rfl hne
  | tail hq hp => exact ⟨_,hq,hp⟩

theorem rank_le_of_reached {blocks : List Block} {rank : ℕ → ℕ}
    (hr : ∀ p, ∀ c∈succ blocks p, rank c<rank p) {p : ℕ} (h : Reached blocks p) :
    rank p≤rank 0 := by
  induction h with
  | refl => exact Nat.le_refl _
  | tail _ hc ih => exact (hr _ _ hc).le.trans ih

/-- No edge out of a block that is reached leads to the root. -/
theorem ne_root_of_edge {blocks : List Block} (ha : Acyclic blocks) {p c : ℕ}
    (h : Reached blocks p) (hc : c∈succ blocks p) : c≠0 := by
  obtain ⟨rank,hr⟩ := ha
  intro h0
  rw [h0] at hc
  exact absurd (rank_le_of_reached hr h) (Nat.not_le.mpr (hr p 0 hc))

/-- `make_marks` marks the blocks that its argument leads to. -/
theorem makeMarks_visits {blocks : List Block} (hw : Wellformed blocks) {rank : ℕ → ℕ}
    (hr : ∀ p, ∀ c∈succ blocks p, rank c<rank p) :
    ∀ {depth p : ℕ} (marked : Finset ℕ), rank p<depth → p<blocks.length →
      ∃ m, makeMarks blocks depth (some p) marked=some m ∧
        Visits (succ blocks) [p] marked m := by
  intro depth
  induction depth with
  | zero => exact fun _ h _ => absurd h (Nat.not_lt_zero _)
  | succ depth ih =>
    intro p marked hdepth hp
    by_cases hmem : p∈marked
    · exact ⟨marked,by rw [makeMarks,if_pos hmem],.of_marked (by simpa using hmem)⟩
    · obtain ⟨b,hb,hbm⟩ := exists_block hp
      rw [makeMarks,if_neg hmem,hb]
      dsimp only
      rcases hw.ends b hbm with ⟨hjt,hjf,hret⟩ | ⟨t,f,hjt,hjf,hret⟩
      · have hsucc : succ blocks p=[] := by simp [succ_of_some hb,edges,hjt,hjf]
        refine ⟨_,if_pos hret,.enter (fun x => by rw [hsucc]) (.of_marked ?_)⟩
        exact fun x hx => by cases hx
      · have hsucc : succ blocks p=[t,f] := by simp [succ_of_some hb,edges,hjt,hjf]
        have ht : t∈succ blocks p := by simp [hsucc]
        have hf : f∈succ blocks p := by simp [hsucc]
        obtain ⟨m,hm,hvisits⟩ := ih (insert p marked)
          ((hr p t ht).trans_le (Nat.le_of_lt_succ hdepth)) (hw.inside ht)
        obtain ⟨m',hm',hvisits'⟩ := ih m
          ((hr p f hf).trans_le (Nat.le_of_lt_succ hdepth)) (hw.inside hf)
        refine ⟨m',?_,.enter (fun x => by rw [hsucc]; rfl) (hvisits.append hvisits')⟩
        rw [if_neg hret,hjt,hjf]
        simp only [hm,hm']

theorem visits_iff {blocks : List Block} {m : Finset ℕ} (h : Visits (succ blocks) [0] ∅ m)
    {p : ℕ} : p∈m ↔ Reached blocks p := by
  constructor
  · refine h.least {x | Reached blocks x} (by simp) ?_ (fun x hx y hy => hx.tail hy) p
    intro x hx
    rw [List.mem_singleton.mp hx]
    exact .refl
  · intro hp
    induction hp with
    | refl => exact h.start_mem 0 (List.mem_singleton_self 0)
    | tail _ hc ih => exact h.closed_of_empty _ ih _ hc

/-- The length of the longest path from a block, of paths up to the given length. -/
def level (blocks : List Block) : ℕ → ℕ → ℕ
  | 0,_ => 0
  | n+1,p => ((succ blocks p).map fun c => level blocks n c+1).foldr max 0

theorem le_foldr_max {n : ℕ} {l : List ℕ} (h : n∈l) : n≤l.foldr max 0 := by
  induction l with
  | nil => cases h
  | cons m l ih =>
    rcases List.mem_cons.mp h with rfl | h
    · exact le_max_left _ _
    · exact (ih h).trans (le_max_right _ _)

theorem level_succ {blocks : List Block} {rank : ℕ → ℕ}
    (hr : ∀ p, ∀ c∈succ blocks p, rank c<rank p) :
    ∀ {n p : ℕ}, rank p<n → level blocks (n+1) p=level blocks n p := by
  intro n
  induction n with
  | zero => exact fun h => absurd h (Nat.not_lt_zero _)
  | succ n ih =>
    intro p hp
    rw [level,level]
    refine congrArg (fun l => List.foldr max 0 l) (List.map_congr_left fun c hc => ?_)
    rw [ih ((hr p c hc).trans_le (Nat.le_of_lt_succ hp))]

theorem level_of_same {blocks : List Block} {p q : ℕ} (h : SameAt blocks p q) (n : ℕ) :
    level blocks (n+1) p=level blocks (n+1) q := by
  obtain ⟨b0,b1,hp,hq,hs⟩ := h
  rw [level,level,succ_of_some hp,succ_of_some hq,edges,edges,hs.jt,hs.jf]

/-! ## Redirecting edges -/

theorem getElem?_map_redirect {blocks : List Block} {link : ℕ → Option ℕ} {p : ℕ} :
    (blocks.map (redirect link))[p]?=(blocks[p]?).map (redirect link) :=
  List.getElem?_map

theorem edges_redirect {b : Block} (hb : b.jt.isSome ∨ b.jf=none) (link : ℕ → Option ℕ) :
    edges (redirect link b)=(edges b).map (follow link) := by
  unfold redirect edges
  cases ht : b.jt with
  | none =>
    rcases hb with hb | hb
    · rw [ht] at hb; cases hb
    · simp [ht,hb]
  | some t => cases b.jf <;> simp

theorem Wellformed.edges_redirect {blocks : List Block} (hw : Wellformed blocks) {b : Block}
    (hb : b∈blocks) (link : ℕ → Option ℕ) :
    edges (redirect link b)=(edges b).map (follow link) := by
  refine BpfInterning.edges_redirect ?_ link
  rcases hw.ends b hb with h | ⟨t,f,ht,-,-⟩
  · exact .inr h.2.1
  · exact .inl (by rw [ht]; rfl)

theorem succ_redirect {blocks : List Block} (hw : Wellformed blocks) (link : ℕ → Option ℕ)
    (p : ℕ) : succ (blocks.map (redirect link)) p=(succ blocks p).map (follow link) := by
  by_cases hp : p<blocks.length
  · obtain ⟨b,hb,hbm⟩ := exists_block hp
    rw [succ_of_some hb,← hw.edges_redirect hbm]
    exact succ_of_some (by rw [getElem?_map_redirect,hb]; rfl)
  · rw [succ,succ,getElem?_map_redirect,List.getElem?_eq_none (Nat.le_of_not_lt hp)]
    rfl

/-- Blocks with the same statements, apart from removed ones and from where
jumps within them go, do not differ in the latter. The root is never merged and
may differ. -/
def JumpsAgree (blocks : List Block) : Prop :=
  ∀ {p q b0 b1}, Reached blocks p → Reached blocks q → p≠0 → q≠0 →
    blocks[p]?=some b0 → blocks[q]?=some b1 → kept b0.stmts=kept b1.stmts →
    live b0.stmts=live b1.stmts

section Round

variable {blocks : List Block} (hw : Wellformed blocks) {m : Finset ℕ}
  (hm : ∀ {p}, p∈m ↔ Reached blocks p) {link : ℕ → Option ℕ} (hl : Linked blocks m 0 link)

include hm hl

theorem follow_reached {c : ℕ} (hc : Reached blocks c) : Reached blocks (follow link c) := by
  unfold follow
  cases h : link c with
  | none => exact hc
  | some q => exact hm.mp (hl.leads h).2.1

include hw

theorem Reached.of_redirect {p : ℕ} (h : Reached (blocks.map (redirect link)) p) :
    Reached blocks p := by
  induction h with
  | refl => exact .refl
  | tail _ hc ih =>
    rw [succ_redirect hw] at hc
    obtain ⟨d,hd,rfl⟩ := List.mem_map.mp hc
    exact follow_reached hm hl (ih.tail hd)

theorem Wellformed.map_redirect : Wellformed (blocks.map (redirect link)) := by
  refine ⟨by rw [List.length_map]; exact hw.root,fun {p c} hc => ?_,fun b' hb' => ?_⟩
  · rw [succ_redirect hw] at hc
    obtain ⟨d,hd,rfl⟩ := List.mem_map.mp hc
    rw [List.length_map]
    unfold follow
    cases h : link d with
    | none => exact hw.inside hd
    | some q => exact (hm.mp (hl.leads h).2.1).inside hw
  · obtain ⟨b,hb,rfl⟩ := List.mem_map.mp hb'
    rcases hw.ends b hb with ⟨ht,hf,hret⟩ | ⟨t,f,ht,hf,hret⟩
    · refine .inl ?_
      simp only [redirect,ht]
      exact ⟨trivial,hf,hret⟩
    · refine .inr ⟨follow link t,follow link f,?_⟩
      simp only [redirect,ht,hf,Option.map_some]
      exact ⟨trivial,trivial,hret⟩

/-- A merged block has the level of the block it is merged with, so that the
levels still fall along every edge. -/
theorem Acyclic.map_redirect (ha : Acyclic blocks) : Acyclic (blocks.map (redirect link)) := by
  obtain ⟨rank,hr⟩ := ha
  have hbound : ∀ {p}, p<blocks.length → rank p<(Finset.range blocks.length).sup rank+1 :=
    fun hp => Nat.lt_succ_of_le (Finset.le_sup (Finset.mem_range.mpr hp))
  generalize (Finset.range blocks.length).sup rank+1=n at hbound
  refine ⟨level blocks n,fun p c hc => ?_⟩
  rw [succ_redirect hw] at hc
  obtain ⟨d,hd,rfl⟩ := List.mem_map.mp hc
  have hp : p<blocks.length := by
    by_contra hp
    rw [succ,List.getElem?_eq_none (Nat.le_of_not_lt hp)] at hd
    cases hd
  have hsame : level blocks n (follow link d)=level blocks n d := by
    unfold follow
    cases h : link d with
    | none => rfl
    | some q =>
      obtain ⟨-,hq,-,hs⟩ := hl.leads h
      rw [Option.getD_some,← level_succ hr (hbound (hw.inside hd)),
        ← level_succ hr (hbound ((hm.mp hq).inside hw)),level_of_same hs]
  rw [hsame,← level_succ hr (hbound hp),level]
  exact le_foldr_max (List.mem_map.mpr ⟨d,hd,rfl⟩)

theorem JumpsAgree.map_redirect (hj : JumpsAgree blocks) :
    JumpsAgree (blocks.map (redirect link)) := by
  have hstmts : ∀ {p : ℕ} {b : Block}, (blocks.map (redirect link))[p]?=some b →
      ∃ b0 : Block, blocks[p]?=some b0 ∧ b.stmts=b0.stmts := by
    intro p b hb
    rw [getElem?_map_redirect] at hb
    obtain ⟨b0,hb0,rfl⟩ := Option.map_eq_some_iff.mp hb
    refine ⟨b0,hb0,?_⟩
    unfold redirect
    cases b0.jt <;> rfl
  intro p q b0 b1 hp hq hp0 hq0 hb0 hb1 hkept
  obtain ⟨c0,hc0,h0⟩ := hstmts hb0
  obtain ⟨c1,hc1,h1⟩ := hstmts hb1
  rw [h0,h1] at hkept ⊢
  exact hj (hp.of_redirect hw hm hl) (hq.of_redirect hw hm hl) hp0 hq0 hc0 hc1 hkept

end Round

/-! ## Running the merged graph -/

/-- Two blocks that are the same and whose local jumps agree run identically. -/
theorem runGraph_of_same {blocks : List Block} {p q : ℕ} (h : SameAt blocks p q)
    (hlive : ∀ {b0 b1}, blocks[p]?=some b0 → blocks[q]?=some b1 → live b0.stmts=live b1.stmts)
    (fuel : ℕ) (s : σ) :
    runGraph M blocks fuel (some p) s=runGraph M blocks fuel (some q) s := by
  obtain ⟨b0,b1,hp,hq,hs⟩ := h
  cases fuel with
  | zero => rfl
  | succ fuel => simp only [runGraph,hp,hq,hlive hp hq,hs.code,hs.k,hs.jt,hs.jf]

/-- One round does not change what the graph does on any packet. -/
theorem runGraph_redirect {blocks : List Block} (hw : Wellformed blocks) (ha : Acyclic blocks)
    (hj : JumpsAgree blocks) {m : Finset ℕ} (hm : ∀ {p}, p∈m ↔ Reached blocks p)
    {link : ℕ → Option ℕ} (hl : Linked blocks m 0 link) :
    ∀ {fuel p : ℕ} (s : σ), Reached blocks p →
      runGraph M (blocks.map (redirect link)) fuel (some p) s=runGraph M blocks fuel (some p) s := by
  intro fuel
  induction fuel with
  | zero => exact fun _ _ => rfl
  | succ fuel ih =>
    intro p s hp
    have hedge : ∀ {c}, c∈succ blocks p → ∀ s,
        runGraph M (blocks.map (redirect link)) fuel (some (follow link c)) s=
          runGraph M blocks fuel (some c) s := by
      intro c hc s
      rw [ih s (follow_reached hm hl (hp.tail hc))]
      unfold follow
      cases h : link c with
      | none => rfl
      | some q =>
        obtain ⟨-,hq,hlt,hs⟩ := hl.leads h
        refine (runGraph_of_same M hs (fun hb0 hb1 => ?_) fuel s).symm
        obtain ⟨b0,b1,hb0',hb1',hs⟩ := hs
        rw [← Option.some.inj (hb0'.symm.trans hb0),← Option.some.inj (hb1'.symm.trans hb1)]
        exact hj (hp.tail hc) (hm.mp hq) (ne_root_of_edge ha hp hc) (by omega) hb0' hb1' hs.stmts
    obtain ⟨b,hb,hbm⟩ := exists_block (hp.inside hw)
    have hb' : (blocks.map (redirect link))[p]?=some (redirect link b) := by
      rw [getElem?_map_redirect,hb]; rfl
    rcases hw.ends b hbm with ⟨ht,hf,hret⟩ | ⟨t,f,ht,hf,hret⟩
    · have hsame : redirect link b=b := by simp only [redirect,ht]
      simp only [runGraph,hb',hb,hsame,hret,if_true]
    · have hsucc : succ blocks p=[t,f] := by simp [succ_of_some hb,edges,ht,hf]
      have hr : redirect link b=
          { b with jt := some (follow link t), jf := some (follow link f) } := by
        simp only [redirect,ht,hf,Option.map_some]
      simp only [runGraph,hb',hb,hr,if_neg hret,ht,hf]
      split
      · rfl
      · congr 1
        split_ifs
        · exact hedge (by simp [hsucc]) _
        · exact hedge (by simp [hsucc]) _

/-- A run of an acyclic graph comes to an end. -/
theorem runGraph_ends {blocks : List Block} (hw : Wellformed blocks) {rank : ℕ → ℕ}
    (hr : ∀ p, ∀ c∈succ blocks p, rank c<rank p) :
    ∀ {n p : ℕ} (s : σ), rank p<n → p<blocks.length →
      ∃ out, ∀ fuel, n≤fuel → runGraph M blocks fuel (some p) s=some out := by
  intro n
  induction n with
  | zero => exact fun _ h _ => absurd h (Nat.not_lt_zero _)
  | succ n ih =>
    intro p s hn hp
    obtain ⟨b,hb,hbm⟩ := exists_block hp
    have hpred : ∀ fuel, n+1≤fuel → ∃ f, fuel=f+1 ∧ n≤f :=
      fun fuel h => ⟨fuel-1,by omega,by omega⟩
    rcases hl : runLive M (live b.stmts) 0 s with ⟨events,r | s'⟩
    · refine ⟨(events,r),fun fuel hfuel => ?_⟩
      obtain ⟨f,rfl,-⟩ := hpred fuel hfuel
      simp only [runGraph,hb,hl]
    · rcases hw.ends b hbm with ⟨ht,hf,hret⟩ | ⟨t,f,ht,hf,hret⟩
      · obtain ⟨r,he⟩ := M.ret _ (uInt32 b.s.k) s' hret
        refine ⟨(events++[.stmt (uShort b.s.code) (uInt32 b.s.k)],some r),fun fuel hfuel => ?_⟩
        obtain ⟨f,rfl,-⟩ := hpred fuel hfuel
        simp only [runGraph,hb,hl,hret,if_true,he]
      · have hsucc : succ blocks p=[t,f] := by simp [succ_of_some hb,edges,ht,hf]
        have hedge : ∃ c∈succ blocks p,
            (if M.test (uShort b.s.code) (uInt32 b.s.k) s' then b.jt else b.jf)=some c := by
          split_ifs
          · exact ⟨t,by simp [hsucc],ht⟩
          · exact ⟨f,by simp [hsucc],hf⟩
        obtain ⟨c,hc,hnext⟩ := hedge
        obtain ⟨out,hout⟩ := ih s' ((hr p c hc).trans_le (Nat.le_of_lt_succ hn)) (hw.inside hc)
        refine ⟨(events++.branch (uShort b.s.code) (uInt32 b.s.k)
          (M.test (uShort b.s.code) (uInt32 b.s.k) s')::out.1,out.2),fun fuel hfuel => ?_⟩
        obtain ⟨f,rfl,hf⟩ := hpred fuel hfuel
        simp only [runGraph,hb,hl,if_neg hret,hnext,hout f hf,Option.map_some]

/-! ## The rounds -/

/-- The blocks that edges lead to. -/
def targets (blocks : List Block) : Finset ℕ := (blocks.flatMap edges).toFinset

theorem mem_targets {blocks : List Block} {c : ℕ} :
    c∈targets blocks ↔ ∃ b∈blocks, c∈edges b := by
  rw [targets,List.mem_toFinset,List.mem_flatMap]

theorem mem_targets_of_succ {blocks : List Block} {p c : ℕ} (h : c∈succ blocks p) :
    c∈targets blocks := by
  unfold succ at h
  split at h
  · rename_i b hb
    exact mem_targets.mpr ⟨b,List.mem_of_getElem? hb,h⟩
  · cases h

/-- A round that redirects an edge leaves fewer blocks with an edge into them. -/
theorem targets_redirect {blocks : List Block} (hw : Wellformed blocks) {m : Finset ℕ}
    (hm : ∀ {p}, p∈m ↔ Reached blocks p) {link : ℕ → Option ℕ} (hl : Linked blocks m 0 link)
    (h : blocks.any (redirected link)=true) :
    (targets (blocks.map (redirect link))).card<(targets blocks).card := by
  obtain ⟨b,hb,hr⟩ := List.any_eq_true.mp h
  have hc : ∃ c∈edges b, (link c).isSome := by
    unfold redirected at hr
    split at hr
    · cases hr
    · exact List.any_eq_true.mp hr
  obtain ⟨c,hc,hlink⟩ := hc
  refine Finset.card_lt_card (Finset.ssubset_iff_of_subset ?_ |>.mpr
    ⟨c,mem_targets.mpr ⟨b,hb,hc⟩,fun hmem => ?_⟩)
  · intro c' hc'
    obtain ⟨b',hb',hc'⟩ := mem_targets.mp hc'
    obtain ⟨b0,hb0,rfl⟩ := List.mem_map.mp hb'
    rw [hw.edges_redirect hb0] at hc'
    obtain ⟨d,hd,rfl⟩ := List.mem_map.mp hc'
    unfold follow
    cases hld : link d with
    | none => exact mem_targets.mpr ⟨b0,hb0,hd⟩
    | some q =>
      obtain ⟨-,hq,hlt,-⟩ := hl.leads hld
      obtain ⟨r,-,hqr⟩ := (hm.mp hq).parent (by omega)
      exact mem_targets_of_succ hqr
  · obtain ⟨b',hb',hc'⟩ := mem_targets.mp hmem
    obtain ⟨b0,hb0,rfl⟩ := List.mem_map.mp hb'
    rw [hw.edges_redirect hb0] at hc'
    obtain ⟨d,hd,hdc⟩ := List.mem_map.mp hc'
    unfold follow at hdc
    cases hld : link d with
    | none =>
      rw [hld,Option.getD_none] at hdc
      rw [← hdc,hld] at hlink
      cases hlink
    | some q =>
      rw [hld,Option.getD_some] at hdc
      rw [← hdc,hl.last hld] at hlink
      cases hlink

theorem redirect_of_not_redirected {link : ℕ → Option ℕ} {b : Block}
    (h : redirected link b=false) : redirect link b=b := by
  unfold redirected at h
  unfold redirect
  split
  · rfl
  · rename_i t ht
    rw [ht] at h
    have hid : ∀ c∈edges b, follow link c=c := by
      intro c hc
      have hn := List.any_eq_false.mp h c hc
      rw [Bool.not_eq_true,Option.isSome_eq_false_iff,Option.isNone_iff_eq_none] at hn
      rw [follow,hn,Option.getD_none]
    have hjt : b.jt.map (follow link)=b.jt := by
      rw [ht,Option.map_some,hid t (by simp [edges,ht])]
    have hjf : b.jf.map (follow link)=b.jf := by
      cases hf : b.jf with
      | none => rfl
      | some f => rw [Option.map_some,hid f (by simp [edges,hf])]
    rw [hjt,hjf]

/-- No two blocks that are reached are the same, apart from the root. -/
def Unique (blocks : List Block) : Prop :=
  ∀ i j, Reached blocks i → Reached blocks j → i≠0 → j≠0 → SameAt blocks i j → i=j

/-- When no edge is redirected, no two blocks that are reached are the same. -/
theorem unique_of_not_redirected {blocks : List Block} (hw : Wellformed blocks) {m : Finset ℕ}
    (hm : ∀ {p}, p∈m ↔ Reached blocks p) {link : ℕ → Option ℕ} (hl : Linked blocks m 0 link)
    (h : blocks.any (redirected link)=false) : Unique blocks := by
  have hnone : ∀ {i}, Reached blocks i → i≠0 → link i=none := by
    intro i hi hi0
    obtain ⟨q,hq,hiq⟩ := hi.parent hi0
    obtain ⟨b,hb,hbm⟩ := exists_block (hq.inside hw)
    have hr := List.any_eq_false.mp h b hbm
    rw [succ_of_some hb] at hiq
    rcases hw.ends b hbm with ⟨ht,hf,-⟩ | ⟨t,f,ht,-,-⟩
    · simp [edges,ht,hf] at hiq
    · rw [redirected,ht,Bool.not_eq_true] at hr
      simpa using List.any_eq_false.mp hr i hiq
  intro i j hi hj hi0 hj0 hs
  rcases Nat.lt_trichotomy i j with hlt | heq | hlt
  · exact absurd (hnone hi hi0) (hl.all (Nat.zero_le _) (hm.mpr hi) (hm.mpr hj) hlt hs)
  · exact heq
  · exact absurd (hnone hj hj0) (hl.all (Nat.zero_le _) (hm.mpr hj) (hm.mpr hi) hlt hs.symm)

/-- What `intern_blocks` is to achieve: it comes to an end, the graph it leaves
runs on every packet as the graph before, and no two of its blocks are the same. -/
def Interns (blocks : List Block) : Prop :=
  ∃ (n : ℕ) (blocks' : List Block),
    (∀ depth rounds, n≤depth → n≤rounds → internBlocks depth rounds blocks=some blocks') ∧
    (∀ (σ ρ : Type) (M : Machine σ ρ) (s : σ), ∃ out, ∀ fuel, n≤fuel →
      runGraph M blocks fuel (some 0) s=some out ∧ runGraph M blocks' fuel (some 0) s=some out) ∧
    Unique blocks'

/-- A machine with one register: `ld` loads it, `jeq` compares it, `ret` returns it. -/
def register : Machine ℕ ℕ where
  exec code k s := if bpfClass code=bpfRet then .error s else if code=0 then .ok k else .ok s
  test _ k s := s==k
  ret _ _ s h := ⟨s,if_pos h⟩

/-- `ld #1` behind `jeq #0`, then `tax` and `ret a`, with the targets of the jump. -/
def loadOne (jt jf : ℕ) : Block :=
  ⟨[⟨21,some jt,some jf,0⟩,⟨0,none,none,1⟩,⟨7,none,none,0⟩],⟨22,none,none,0⟩,none,none,0,0⟩

/-- A branch to two such blocks. -/
def fork (jt jf jt' jf' : ℕ) : List Block :=
  [⟨[],⟨21,none,none,0⟩,some 1,some 2,0,0⟩,loadOne jt jf,loadOne jt' jf']

/-- Two blocks that differ only in where the jump in them goes. -/
def crossed : List Block := fork 1 2 2 1

/-- What is left of them. -/
def uncrossed : List Block :=
  [⟨[],⟨21,none,none,0⟩,some 2,some 2,0,0⟩,loadOne 1 2,loadOne 2 1]

theorem succ_fork (jt jf jt' jf' p : ℕ) :
    succ (fork jt jf jt' jf') p=if p=0 then [1,2] else [] := by
  match p with
  | 0 => rfl
  | 1 => rfl
  | 2 => rfl
  | p+3 => rfl

theorem fork_wellformed (jt jf jt' jf' : ℕ) : Wellformed (fork jt jf jt' jf') := by
  refine ⟨Nat.succ_pos _,fun {p c} hc => ?_,fun b hb => ?_⟩
  · rw [succ_fork] at hc
    split_ifs at hc
    · have hlen : (fork jt jf jt' jf').length=3 := rfl
      rcases List.mem_cons.mp hc with rfl | hc
      · omega
      · rw [List.mem_singleton.mp hc,hlen]
        omega
    · cases hc
  · have hret : bpfClass (uShort 22)=bpfRet := by decide
    rcases List.mem_cons.mp hb with rfl | hb
    · exact .inr ⟨1,2,rfl,rfl,by decide⟩
    · rcases List.mem_cons.mp hb with rfl | hb
      · exact .inl ⟨rfl,rfl,hret⟩
      · rw [List.mem_singleton.mp hb]
        exact .inl ⟨rfl,rfl,hret⟩

theorem fork_acyclic (jt jf jt' jf' : ℕ) : Acyclic (fork jt jf jt' jf') := by
  refine ⟨fun p => if p=0 then 1 else 0,fun p c hc => ?_⟩
  rw [succ_fork] at hc
  split_ifs at hc with hp
  · have hc0 : c≠0 := by
      intro h
      rw [h] at hc
      exact absurd hc (by decide)
    simp [hp,hc0]
  · cases hc

theorem internBlocks_crossed (n : ℕ) :
    internBlocks (n+4) (n+4) crossed=some uncrossed := by
  rfl

theorem runGraph_crossed (n : ℕ) :
    (runGraph register crossed (n+3) (some 0) 0).map Prod.snd=some (some 1) := by
  simp [runGraph,crossed,fork,loadOne,runLive,register,live,livePlace,nop,bpfClass,bpfRet,bpfJmp,
    uShort,uInt32]

theorem runGraph_uncrossed (n : ℕ) :
    (runGraph register uncrossed (n+3) (some 0) 0).map Prod.snd=some (some 0) := by
  simp [runGraph,uncrossed,loadOne,runLive,register,live,livePlace,nop,bpfClass,bpfRet,bpfJmp,
    uShort,uInt32]

end AndroidPlatform.BpfInterning
