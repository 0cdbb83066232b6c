import AndroidPlatform.BpfLayoutExecution

/-!
# Conditions as graphs of blocks

The parser of `gencode.c` makes one block for every test of a filter and joins
them while it reads `and`, `or` and `not`. An edge whose target is not known
yet holds the next block of a list instead: the blocks whose edges go where
the condition holds, or where it does not. `sense` says which edge of a block
is meant. Both lists of a condition start at the block that stands for it.
-/

namespace AndroidPlatform.BpfConditions

open BpfProgram

/-- `struct block`, while the filter is read. -/
structure GenBlock where
  /-- `stmts` -/
  stmts : List Stmt
  /-- `s` -/
  s : Stmt
  /-- `JT`, or the next block of a list. -/
  jt : Option ℕ
  /-- `JF`, or the next block of a list. -/
  jf : Option ℕ
  /-- `sense` -/
  sense : Bool
  /-- `head`, where the graph of the condition starts. -/
  head : ℕ

/-- The blocks, and the address of the next new one. -/
structure Chunks where
  /-- The blocks by their addresses. -/
  block : ℕ → GenBlock
  /-- The first address that is free. -/
  next : ℕ

/-- An edge of a block. -/
def GenBlock.out (b : GenBlock) (k : Bool) : Option ℕ := if k then b.jf else b.jt

/-- Set an edge of a block. -/
def GenBlock.setOut (b : GenBlock) (k : Bool) (c : Option ℕ) : GenBlock :=
  if k then {b with jf:=c} else {b with jt:=c}

/-- Change a block. -/
def Chunks.update (m : Chunks) (p : ℕ) (b : GenBlock) : Chunks :=
  {m with block:=Function.update m.block p b}

/-! ## The functions -/

/-- `new_block`, with the statements and the branch that its callers fill in. -/
def newBlock (m : Chunks) (stmts : List Stmt) (s : Stmt) : Chunks×ℕ :=
  (⟨Function.update m.block m.next ⟨stmts,s,none,none,false,m.next⟩,m.next+1⟩,m.next)

/-- `gen_retblk` -/
def genRetblk (m : Chunks) (v : ℤ) : Chunks×ℕ := newBlock m [] ⟨6,none,none,v⟩

/-- `backpatch`, for lists that are not longer than the given number. -/
def backpatchLoop (target : ℕ) : ℕ → Chunks → Option ℕ → Option Chunks
  | _,m,none => some m
  | 0,_,some _ => none
  | rounds+1,m,some p =>
    let b := m.block p
    backpatchLoop target rounds (m.update p (b.setOut b.sense (some target))) (b.out b.sense)

/-- `backpatch` -/
def backpatch (m : Chunks) (list target : ℕ) : Option Chunks :=
  backpatchLoop target m.next m (some list)

/-- The loop of `merge` from a block on, with the assignment behind it. -/
def mergeLoop (b1 : ℕ) : ℕ → Chunks → ℕ → Option Chunks
  | 0,_,_ => none
  | rounds+1,m,p =>
    let b := m.block p
    match b.out b.sense with
    | none => some (m.update p (b.setOut b.sense (some b1)))
    | some p => mergeLoop b1 rounds m p

/-- `merge` -/
def merge (m : Chunks) (b0 b1 : ℕ) : Option Chunks := mergeLoop b1 m.next m b0

/-- `b->sense = !b->sense`, which is `gen_not` too. -/
def genNot (m : Chunks) (p : ℕ) : Chunks :=
  m.update p {m.block p with sense:=!(m.block p).sense}

/-- `b1->head = b0->head` -/
def shareHead (m : Chunks) (b0 b1 : ℕ) : Chunks :=
  m.update b1 {m.block b1 with head:=(m.block b0).head}

/-- `gen_and` -/
def genAnd (m : Chunks) (b0 b1 : ℕ) : Option Chunks := do
  let m ← backpatch m b0 (m.block b1).head
  let m := genNot m b0
  let m := genNot m b1
  let m ← merge m b1 b0
  let m := genNot m b1
  pure (shareHead m b0 b1)

/-- `gen_or` -/
def genOr (m : Chunks) (b0 b1 : ℕ) : Option Chunks := do
  let m := genNot m b0
  let m ← backpatch m b0 (m.block b1).head
  let m := genNot m b0
  let m ← merge m b1 b0
  pure (shareHead m b0 b1)

/-- Statements without a jump. -/
abbrev Plain := {stmts : List Stmt // ∀ st∈stmts, bpfClass (uShort st.code)≠bpfJmp}

/-- A test: statements and a conditional jump. -/
structure Test where
  /-- The statements, none of them a jump. -/
  stmts : List Stmt
  /-- The conditional jump. -/
  s : Stmt
  straight : ∀ st∈stmts, bpfClass (uShort st.code)≠bpfJmp
  jumps : bpfClass (uShort s.code)=bpfJmp
  conditional : uShort s.code≠bpfJmpJa

/-- A filter as the parser reads it. -/
inductive Cond where
  /-- A test. -/
  | test (t : Test)
  /-- `not` -/
  | not (c : Cond)
  /-- `and` -/
  | and (c d : Cond)
  /-- `or` -/
  | or (c d : Cond)

/-- The actions of the parser for a condition, with the block that stands for it. -/
def gen : Cond → Chunks → Option (Chunks×ℕ)
  | .test t,m => some (newBlock m t.stmts t.s)
  | .not c,m => do
    let (m,p) ← gen c m
    pure (genNot m p,p)
  | .and c d,m => do
    let (m,p) ← gen c m
    let (m,q) ← gen d m
    let m ← genAnd m p q
    pure (m,q)
  | .or c d,m => do
    let (m,p) ← gen c m
    let (m,q) ← gen d m
    let m ← genOr m p q
    pure (m,q)

/-- What `insert_compute_vloffsets` does to a block, for the statements that the
type of the link asks for. -/
def insertComputeVloffsets (m : Chunks) (vloffsets : Plain) (p : ℕ) : Chunks :=
  m.update p {m.block p with stmts:=vloffsets.val++(m.block p).stmts}

/-- What `finish_parse` does with the test of the link type that it may have made. -/
def addPpiCheck (m : Chunks) (ppi : Option Test) (p : ℕ) : Option Chunks :=
  match ppi with
  | none => some m
  | some t => genAnd (newBlock m t.stmts t.s).1 (newBlock m t.stmts t.s).2 p

/-- The part of `finish_parse` from the return blocks on: the blocks and `root`. -/
def addReturns (m : Chunks) (snaplen : ℤ) (p : ℕ) : Option (Chunks×ℕ) := do
  let (m,accept) := genRetblk m snaplen
  let m ← backpatch m p accept
  let m := genNot m p
  let (m,reject) := genRetblk m 0
  let m ← backpatch m p reject
  pure (m,(m.block p).head)

/-- `finish_parse` -/
def finishParse (vloffsets : Plain) (ppi : Option Test) (snaplen : ℤ) (m : Chunks) (p : ℕ) :
    Option (Chunks×ℕ) := do
  let m := insertComputeVloffsets m vloffsets (m.block p).head
  let m ← addPpiCheck m ppi p
  addReturns m snaplen p

/-- No blocks. Where none has been made a return stands, which nothing reads. -/
def noChunks : Chunks := ⟨fun _ => ⟨[],⟨6,none,none,0⟩,none,none,false,0⟩,0⟩

/-- `pcap_parse` for a filter that is not empty. -/
def pcapParse (vloffsets : Plain) (ppi : Option Test) (snaplen : ℤ) (c : Cond) :
    Option (Chunks×ℕ) := do
  let (m,p) ← gen c noChunks
  finishParse vloffsets ppi snaplen m p

/-! ## What a condition means -/

/-- A condition before which some statements are executed. -/
def Cond.prepend (vloffsets : Plain) : Cond → Cond
  | .test t => .test {t with
      stmts:=vloffsets.val++t.stmts
      straight:=fun st hst => (List.mem_append.mp hst).elim (vloffsets.property st) (t.straight st)}
  | .not c => .not (c.prepend vloffsets)
  | .and c d => .and (c.prepend vloffsets) d
  | .or c d => .or (c.prepend vloffsets) d

/-- A condition that is asked after the test of the link type. -/
def Cond.behind (c : Cond) : Option Test → Cond
  | none => c
  | some t => .and (.test t) c

/-- The condition with all that `finish_parse` puts before it. -/
def wholeCond (vloffsets : Plain) (ppi : Option Test) (c : Cond) : Cond :=
  (c.prepend vloffsets).behind ppi

section Meaning

variable {σ ρ : Type} (M : Machine σ ρ)

/-- The value of a condition with the state behind it, and what is done for it. -/
def eval : Cond → σ → List Event×Except ρ (Bool×σ)
  | .test t,s =>
    match M.runStmts t.stmts s with
    | (events,.error r) => (events,.error r)
    | (events,.ok s) =>
      let code := uShort t.s.code
      let k := uInt32 t.s.k
      (events++[.branch code k (M.test code k s)],.ok (M.test code k s,s))
  | .not c,s =>
    match eval c s with
    | (events,.error r) => (events,.error r)
    | (events,.ok (value,s)) => (events,.ok (!value,s))
  | .and c d,s =>
    match eval c s with
    | (events,.error r) => (events,.error r)
    | (events,.ok (false,s)) => (events,.ok (false,s))
    | (events,.ok (true,s)) => (events++(eval d s).1,(eval d s).2)
  | .or c d,s =>
    match eval c s with
    | (events,.error r) => (events,.error r)
    | (events,.ok (true,s)) => (events,.ok (true,s))
    | (events,.ok (false,s)) => (events++(eval d s).1,(eval d s).2)

/-- What a filter does and returns: the length of a snapshot for a packet that
meets the condition, and zero for any other one. -/
def verdict (snaplen : ℤ) (c : Cond) (s : σ) : List Event×Option ρ :=
  match eval M c s with
  | (events,.error r) => (events,some r)
  | (events,.ok (value,s)) =>
    let k := uInt32 (if value then snaplen else 0)
    (events++[.stmt bpfRet k],
      match M.exec bpfRet k s with
      | .error r => some r
      | .ok _ => none)

end Meaning

/-! ## Lists through the edges -/

variable {m m' : Chunks} {p q : ℕ} {l : List ℕ} {k : Bool}

@[simp] theorem out_setOut (b : GenBlock) (c : Option ℕ) : (b.setOut k c).out k=c := by
  cases k with
  | false => rfl
  | true => rfl

@[simp] theorem out_setOut_other (b : GenBlock) (c : Option ℕ) :
    (b.setOut k c).out (!k)=b.out (!k) := by
  cases k with
  | false => rfl
  | true => rfl

@[simp] theorem setOut_sense (b : GenBlock) (c : Option ℕ) : (b.setOut k c).sense=b.sense := by
  cases k with
  | false => rfl
  | true => rfl

@[simp] theorem setOut_head (b : GenBlock) (c : Option ℕ) : (b.setOut k c).head=b.head := by
  cases k with
  | false => rfl
  | true => rfl

theorem setOut_stmts (b : GenBlock) (c : Option ℕ) :
    (b.setOut k c).stmts=b.stmts ∧ (b.setOut k c).s=b.s := by
  cases k with
  | false => exact ⟨rfl,rfl⟩
  | true => exact ⟨rfl,rfl⟩

theorem update_self (m : Chunks) (p : ℕ) (b : GenBlock) : (m.update p b).block p=b :=
  Function.update_self _ _ _

theorem update_ne (b : GenBlock) (h : q≠p) : (m.update p b).block q=m.block q :=
  Function.update_of_ne h _ _

/-- The next block of the list that a block is in. -/
def Chunks.link (m : Chunks) (p : ℕ) : Option ℕ := (m.block p).out (m.block p).sense

/-- The list that a pointer starts. -/
def Linked (m : Chunks) : Option ℕ → List ℕ → Prop
  | list,[] => list=none
  | list,p::l => list=some p ∧ Linked m (m.link p) l

theorem Linked.congr {list : Option ℕ} (h : Linked m list l) (hsame : ∀ p∈l, m'.link p=m.link p) :
    Linked m' list l := by
  induction l generalizing list with
  | nil => exact h
  | cons p l ih =>
    refine ⟨h.1,?_⟩
    rw [hsame p List.mem_cons_self]
    exact ih h.2 fun q hq => hsame q (List.mem_cons_of_mem p hq)

/-- The blocks of a list have their edge at the target. -/
def patchAll (target : ℕ) (m : Chunks) (l : List ℕ) : Chunks :=
  {m with block:=fun p =>
    if p∈l then (m.block p).setOut (m.block p).sense (some target) else m.block p}

theorem patchAll_cons (target : ℕ) (hp : p∉l) :
    patchAll target (m.update p ((m.block p).setOut (m.block p).sense (some target))) l=
      patchAll target m (p::l) := by
  have hblocks : ∀ q, (patchAll target
      (m.update p ((m.block p).setOut (m.block p).sense (some target))) l).block q=
        (patchAll target m (p::l)).block q := by
    intro q
    simp only [patchAll,List.mem_cons]
    by_cases hq : q=p
    · subst hq
      rw [if_neg hp,if_pos (Or.inl rfl),update_self]
    · rw [update_ne _ hq]
      simp only [hq,false_or]
  exact congrArg (fun block => (⟨block,m.next⟩ : Chunks)) (funext hblocks)

theorem backpatchLoop_eq {list : Option ℕ} (target : ℕ) {rounds : ℕ} (h : Linked m list l)
    (hl : l.Nodup) (hrounds : l.length≤rounds) :
    backpatchLoop target rounds m list=some (patchAll target m l) := by
  induction l generalizing list m rounds with
  | nil =>
    have hlist : list=none := h
    have hsame : patchAll target m []=m := by simp only [patchAll,List.not_mem_nil,if_false]
    rw [hlist,backpatchLoop,hsame]
  | cons p l ih =>
    obtain ⟨hp,hnodup⟩ := List.nodup_cons.mp hl
    cases rounds with
    | zero => exact absurd hrounds (Nat.not_succ_le_zero _)
    | succ rounds =>
      rw [h.1,backpatchLoop,←patchAll_cons target hp]
      refine ih (h.2.congr fun q hq => ?_) hnodup (Nat.le_of_succ_le_succ hrounds)
      have hqp : q≠p := fun he => hp (he ▸ hq)
      rw [Chunks.link,Chunks.link,update_ne _ hqp]

/-- The loop of `merge` finds the end of the list. -/
theorem mergeLoop_eq (b1 : ℕ) {rounds : ℕ} (h : Linked m (m.link p) l)
    (hrounds : (p::l).length≤rounds) :
    mergeLoop b1 rounds m p=some (m.update ((p::l).getLast (List.cons_ne_nil p l))
      ((m.block ((p::l).getLast (List.cons_ne_nil p l))).setOut
        (m.block ((p::l).getLast (List.cons_ne_nil p l))).sense (some b1))) := by
  induction l generalizing p rounds with
  | nil =>
    have hlink : (m.block p).out (m.block p).sense=none := h
    cases rounds with
    | zero => exact absurd hrounds (Nat.not_succ_le_zero _)
    | succ rounds =>
      simp only [mergeLoop,hlink,List.getLast_singleton]
  | cons q l ih =>
    have hlink : (m.block p).out (m.block p).sense=some q := h.1
    cases rounds with
    | zero => exact absurd hrounds (Nat.not_succ_le_zero _)
    | succ rounds =>
      simp only [mergeLoop,hlink,List.getLast_cons_cons]
      exact ih h.2 (Nat.le_of_succ_le_succ hrounds)

/-- A list may be continued at its last block. -/
theorem Linked.append {z : ℕ} {l' : List ℕ} (h : Linked m (m.link p) l) (hl : (p::l).Nodup)
    (hlast : (p::l).getLast (List.cons_ne_nil p l)=z) (hother : ∀ q, q≠z → m'.link q=m.link q)
    (hz : m'.link z=some q) (hnext : Linked m' (some q) l') :
    Linked m' (m'.link p) (l++l') := by
  induction l generalizing p with
  | nil =>
    rw [List.getLast_singleton] at hlast
    rw [List.nil_append,hlast,hz]
    exact hnext
  | cons x l ih =>
    rw [List.getLast_cons_cons] at hlast
    have hp : p≠z := by
      intro he
      have hmem : z∈x::l := hlast ▸ List.getLast_mem (List.cons_ne_nil x l)
      exact (List.nodup_cons.mp hl).1 (he ▸ hmem)
    rw [hother p hp]
    exact ⟨h.1,ih h.2 (List.nodup_cons.mp hl).2 hlast⟩

@[simp] theorem genNot_self (m : Chunks) (p : ℕ) :
    (genNot m p).block p={m.block p with sense:=!(m.block p).sense} := update_self m p _

theorem genNot_ne (h : q≠p) : (genNot m p).block q=m.block q := update_ne _ h

theorem patchAll_mem (target : ℕ) (h : p∈l) :
    (patchAll target m l).block p=(m.block p).setOut (m.block p).sense (some target) := if_pos h

theorem patchAll_not_mem (target : ℕ) (h : p∉l) : (patchAll target m l).block p=m.block p :=
  if_neg h

/-! ## Conditions whose exits are open -/

/-- The edges of a condition lead as its meaning says: from the head on to one
exit where it holds, and to the other one where it does not. -/
inductive Flow (m : Chunks) : Cond → ℕ → ℕ → ℕ → Prop
  | test {t : Test} {h x y : ℕ} (hstmts : (m.block h).stmts=t.stmts)
      (hs : (m.block h).s=t.s) (hjt : (m.block h).jt=some x) (hjf : (m.block h).jf=some y) :
      Flow m (.test t) h x y
  | not {c : Cond} {h x y : ℕ} (hc : Flow m c h y x) : Flow m (.not c) h x y
  | and {c d : Cond} {h i x y : ℕ} (hc : Flow m c h i y) (hd : Flow m d i x y) :
      Flow m (.and c d) h x y
  | or {c d : Cond} {h i x y : ℕ} (hc : Flow m c h x i) (hd : Flow m d i x y) :
      Flow m (.or c d) h x y

/-- Every edge leads to a later block of the list or to an exit. -/
def Forward (m : Chunks) (x y : ℕ) : List ℕ → Prop
  | [] => True
  | p::l => (∀ k, ∃ c, (m.block p).out k=some c ∧ (c∈l ∨ c=x ∨ c=y)) ∧ Forward m x y l

/-- The second memory is the first one with the exits closed. -/
structure Closes (m m' : Chunks) (p : ℕ) (order accepts rejects : List ℕ) (x y : ℕ) : Prop where
  /-- The statements are the same. -/
  code : ∀ q∈order, (m'.block q).stmts=(m.block q).stmts ∧ (m'.block q).s=(m.block q).s
  /-- Both edges of the block that stands for the condition are exits. -/
  own : (m'.block p).out (m.block p).sense=some x ∧
    (m'.block p).out (!(m.block p).sense)=some y
  /-- The exits where the condition holds. -/
  onTrue : ∀ q∈accepts, (m'.block q).out (m.block q).sense=some x ∧
    (m'.block q).out (!(m.block q).sense)=(m.block q).out (!(m.block q).sense)
  /-- The exits where it does not. -/
  onFalse : ∀ q∈rejects, (m'.block q).out (m.block q).sense=some y ∧
    (m'.block q).out (!(m.block q).sense)=(m.block q).out (!(m.block q).sense)
  /-- All other edges are the same. -/
  rest : ∀ q∈order, q∉p::(accepts++rejects) → ∀ k, (m'.block q).out k=(m.block q).out k

/-- Only the blocks of the condition matter. -/
theorem Closes.congr {m' m2 : Chunks} {p : ℕ} {order accepts rejects : List ℕ} {x y : ℕ}
    (h : Closes m m' p order accepts rejects x y) (hsub : ∀ q∈p::(accepts++rejects), q∈order)
    (hsame : ∀ q∈order, m2.block q=m'.block q) : Closes m m2 p order accepts rejects x y := by
  refine ⟨fun q hq => ?_,?_,fun q hq => ?_,fun q hq => ?_,fun q hq hnot k => ?_⟩
  · rw [hsame q hq]
    exact h.code q hq
  · rw [hsame p (hsub p List.mem_cons_self)]
    exact h.own
  · rw [hsame q (hsub q (List.mem_cons_of_mem p (List.mem_append_left _ hq)))]
    exact h.onTrue q hq
  · rw [hsame q (hsub q (List.mem_cons_of_mem p (List.mem_append_right _ hq)))]
    exact h.onFalse q hq
  · rw [hsame q hq]
    exact h.rest q hq hnot k

/-- A block stands for a condition whose exits are open. -/
structure Built (m : Chunks) (c : Cond) (p : ℕ) (order accepts rejects : List ℕ) : Prop where
  /-- The blocks of the condition, in the order in which they are run. -/
  nodup : order.Nodup
  /-- They have been made. -/
  below : ∀ q∈order, q < m.next
  /-- The first one is the head. -/
  head : order.head?=some (m.block p).head
  /-- The list of the exits where the condition holds. -/
  linkedTrue : Linked m (m.link p) accepts
  /-- The list of the exits where it does not. -/
  linkedFalse : Linked m ((m.block p).out (!(m.block p).sense)) rejects
  /-- The lists share the block that stands for the condition only. -/
  lists : (p::(accepts++rejects)).Nodup
  /-- They hold blocks of the condition. -/
  subset : ∀ q∈p::(accepts++rejects), q∈order
  /-- Every block is a test. -/
  plain : ∀ q∈order, ∃ t : Test, (m.block q).stmts=t.stmts ∧ (m.block q).s=t.s
  /-- Once the exits are closed the edges lead as the condition says. -/
  closed : ∀ (m' : Chunks) (x y : ℕ), Closes m m' p order accepts rejects x y →
    Flow m' c (m.block p).head x y ∧ Forward m' x y order ∧ ∀ vloffsets,
      Flow (insertComputeVloffsets m' vloffsets (m.block p).head) (c.prepend vloffsets)
        (m.block p).head x y

variable {c d : Cond} {order order' accepts rejects accepts' rejects' : List ℕ} {x y : ℕ}

theorem Forward.swap (h : Forward m x y l) : Forward m y x l := by
  induction l with
  | nil => exact h
  | cons p l ih =>
    refine ⟨fun k => ?_,ih h.2⟩
    obtain ⟨c,hc,hl | hx | hy⟩ := h.1 k
    · exact ⟨c,hc,.inl hl⟩
    · exact ⟨c,hc,.inr (.inr hx)⟩
    · exact ⟨c,hc,.inr (.inl hy)⟩

/-- The exits of what comes first may lead into what follows. -/
theorem Forward.append {x' y' : ℕ} (h : Forward m x y l) {l' : List ℕ} (h' : Forward m x' y' l')
    (hx : x∈l' ∨ x=x' ∨ x=y') (hy : y∈l' ∨ y=x' ∨ y=y') : Forward m x' y' (l++l') := by
  induction l with
  | nil => exact h'
  | cons p l ih =>
    refine ⟨fun k => ?_,ih h.2⟩
    obtain ⟨c,hc,hl | rfl | rfl⟩ := h.1 k
    · exact ⟨c,hc,.inl (List.mem_append_left l' hl)⟩
    · exact ⟨c,hc,hx.imp_left fun hl => List.mem_append_right l hl⟩
    · exact ⟨c,hc,hy.imp_left fun hl => List.mem_append_right l hl⟩

/-- A test is open at both edges. -/
theorem built_newBlock (m : Chunks) (t : Test) :
    Built (newBlock m t.stmts t.s).1 (.test t) m.next [m.next] [] [] := by
  have hblock : (newBlock m t.stmts t.s).1.block m.next=
      ⟨t.stmts,t.s,none,none,false,m.next⟩ := Function.update_self _ _ _
  refine ⟨List.nodup_singleton _,fun q hq => ?_,?_,?_,?_,List.nodup_singleton _,
    fun q hq => hq,fun q hq => ⟨t,?_⟩,fun m' x y h => ?_⟩
  · rw [List.mem_singleton.mp hq]
    exact Nat.lt_succ_self _
  · rw [hblock]
    rfl
  · rw [Chunks.link,hblock]
    rfl
  · rw [hblock]
    rfl
  · rw [List.mem_singleton.mp hq,hblock]
    exact ⟨rfl,rfl⟩
  · obtain ⟨hstmts,hs⟩ := h.code m.next (List.mem_singleton_self _)
    obtain ⟨hx,hy⟩ := h.own
    rw [hblock] at hstmts hs hx hy ⊢
    refine ⟨.test hstmts hs hx hy,⟨fun k => ?_,trivial⟩,fun vloffsets => ?_⟩
    · cases k with
      | false => exact ⟨x,hx,.inr (.inl rfl)⟩
      | true => exact ⟨y,hy,.inr (.inr rfl)⟩
    · refine .test ?_ ?_ ?_ ?_
      all_goals rw [insertComputeVloffsets,update_self]
      · rw [hstmts]
      · exact hs
      · exact hx
      · exact hy

/-- `gen_not` exchanges the exits. -/
theorem Built.not (h : Built m c p order accepts rejects) :
    Built (genNot m p) (.not c) p order rejects accepts := by
  have hsame : ∀ q∈accepts++rejects, (genNot m p).block q=m.block q := by
    intro q hq
    refine genNot_ne fun he => ?_
    exact (List.nodup_cons.mp h.lists).1 (he ▸ hq)
  have hlists : ∀ q, q∈p::(rejects++accepts) ↔ q∈p::(accepts++rejects) := by
    intro q
    simp only [List.mem_cons,List.mem_append,or_comm]
  refine ⟨h.nodup,h.below,?_,?_,?_,?_,fun q hq => h.subset q ((hlists q).mp hq),
    fun q hq => ?_,fun m' x y hclose => ?_⟩
  · rw [genNot_self]
    exact h.head
  · rw [Chunks.link,genNot_self]
    refine h.linkedFalse.congr fun q hq => ?_
    rw [Chunks.link,Chunks.link,hsame q (List.mem_append_right _ hq)]
  · rw [genNot_self]
    have hlinked : Linked (genNot m p) (m.link p) accepts := h.linkedTrue.congr fun q hq => by
      rw [Chunks.link,Chunks.link,hsame q (List.mem_append_left _ hq)]
    rw [Chunks.link] at hlinked
    dsimp only [GenBlock.out]
    rw [Bool.not_not]
    exact hlinked
  · have hperm : (p::(rejects++accepts)).Perm (p::(accepts++rejects)) :=
      List.Perm.cons p List.perm_append_comm
    exact hperm.nodup_iff.mpr h.lists
  · by_cases hqp : q=p
    · subst hqp
      rw [genNot_self]
      exact h.plain q hq
    · rw [genNot_ne hqp]
      exact h.plain q hq
  · have hcloses : Closes m m' p order accepts rejects y x := by
      refine ⟨fun q hq => ?_,?_,fun q hq => ?_,fun q hq => ?_,fun q hq hnot k => ?_⟩
      · have hcode := hclose.code q hq
        by_cases hqp : q=p
        · subst hqp
          rw [genNot_self] at hcode
          exact hcode
        · rw [genNot_ne hqp] at hcode
          exact hcode
      · have hown := hclose.own
        rw [genNot_self] at hown
        dsimp only at hown
        rw [Bool.not_not] at hown
        exact ⟨hown.2,hown.1⟩
      · have hexit := hclose.onFalse q hq
        rw [hsame q (List.mem_append_left _ hq)] at hexit
        exact hexit
      · have hexit := hclose.onTrue q hq
        rw [hsame q (List.mem_append_right _ hq)] at hexit
        exact hexit
      · have hqp : q≠p := fun he => hnot (he ▸ List.mem_cons_self)
        rw [hclose.rest q hq (fun hmem => hnot ((hlists q).mp hmem)) k,genNot_ne hqp]
    obtain ⟨hflow,hforward,hprepend⟩ := h.closed m' y x hcloses
    rw [genNot_self]
    exact ⟨.not hflow,hforward.swap,fun vloffsets => .not (hprepend vloffsets)⟩

/-! ## Joining two conditions -/

/-- What `gen_and` leaves of the blocks of two conditions. -/
structure Joined (m m' : Chunks) (p q : ℕ) (accepts rejects rejects' : List ℕ) : Prop where
  /-- The statements are the same. -/
  code : ∀ x, (m'.block x).stmts=(m.block x).stmts ∧ (m'.block x).s=(m.block x).s
  /-- The first condition goes on with the head of the second one, and its block
  shows the other edge. -/
  first : (m'.block p).sense=(!(m.block p).sense) ∧
    (m'.block p).out (m.block p).sense=some (m.block q).head ∧
    (m'.block p).out (!(m.block p).sense)=(m.block p).out (!(m.block p).sense)
  /-- So do the other blocks where it holds. -/
  firstList : ∀ x∈accepts, (m'.block x).sense=(m.block x).sense ∧
    (m'.block x).out (m.block x).sense=some (m.block q).head ∧
    (m'.block x).out (!(m.block x).sense)=(m.block x).out (!(m.block x).sense)
  /-- The second block has the head of the first one. -/
  second : (m'.block q).sense=(m.block q).sense ∧
    (m'.block q).out (m.block q).sense=(m.block q).out (m.block q).sense ∧
    (m'.block q).head=(m.block p).head
  /-- The list where the second condition does not hold may be longer. -/
  secondList : ∀ x∈rejects', (m'.block x).sense=(m.block x).sense ∧
    (m'.block x).out (!(m.block x).sense)=(m.block x).out (!(m.block x).sense)
  /-- All other blocks are the same. -/
  rest : ∀ x, x∉p::accepts → x∉q::rejects' → m'.block x=m.block x
  /-- The list where the first condition does not hold follows. -/
  linked : Linked m' ((m'.block q).out (!(m'.block q).sense)) (rejects'++p::rejects)
  /-- No block is made. -/
  next : m'.next=m.next

/-- Two conditions without a common block. -/
structure Apart (m : Chunks) (c d : Cond) (p q : ℕ)
    (order order' accepts rejects accepts' rejects' : List ℕ) : Prop where
  /-- The first condition. -/
  left : Built m c p order accepts rejects
  /-- The second condition. -/
  right : Built m d q order' accepts' rejects'
  /-- They share no block. -/
  disjoint : ∀ x∈order, x∉order'

theorem length_le_next (h : Built m c p order accepts rejects) {l : List ℕ}
    (hl : l.Nodup) (hsub : ∀ q∈l, q∈order) : l.length ≤ m.next := by
  have hrange : l.Subperm (List.range m.next) :=
    hl.subperm fun q hq => List.mem_range.mpr (h.below q (hsub q hq))
  have hle := hrange.length_le
  rwa [List.length_range] at hle

theorem Built.mem_accepts (h : Built m c p order accepts rejects) : ∀ x∈p::accepts, x∈order :=
  fun x hx => h.subset x (List.cons_subset_cons p (List.subset_append_left _ _) hx)

theorem Built.mem_rejects (h : Built m c p order accepts rejects) : ∀ x∈p::rejects, x∈order :=
  fun x hx => h.subset x (List.cons_subset_cons p (List.subset_append_right _ _) hx)

/-- The two lists of a condition share its block only. -/
theorem Built.lists_apart (h : Built m c p order accepts rejects) : (p::accepts).Nodup ∧
    (p::rejects).Nodup ∧ (∀ x∈accepts, x∉p::rejects) ∧ ∀ x∈rejects, x∉p::accepts := by
  have hlists := h.lists
  simp only [List.nodup_cons,List.nodup_append,List.mem_append,List.mem_cons,not_or] at hlists ⊢
  obtain ⟨⟨hacc,hrej⟩,haccNodup,hrejNodup,hdisjoint⟩ := hlists
  exact ⟨⟨hacc,haccNodup⟩,⟨hrej,hrejNodup⟩,
    fun x hx => ⟨fun he => hacc (he ▸ hx),fun hx' => hdisjoint x hx x hx' rfl⟩,
    fun x hx => ⟨fun he => hrej (he ▸ hx),fun hx' => hdisjoint x hx' x hx rfl⟩⟩

/-- `backpatch` goes through the list of a condition. -/
theorem Built.backpatch_eq (h : Built m c p order accepts rejects) (target : ℕ) :
    backpatch m p target=some (patchAll target m (p::accepts)) :=
  backpatchLoop_eq target ⟨rfl,h.linkedTrue⟩ h.lists_apart.1
    (length_le_next h h.lists_apart.1 h.mem_accepts)

/-- `merge` changes the end of the list of a condition. -/
theorem Built.merge_eq (h : Built m c p order accepts rejects) (b1 : ℕ) :
    ∃ z∈p::accepts, (p::accepts).getLast (List.cons_ne_nil p accepts)=z ∧
      merge m p b1=some (m.update z ((m.block z).setOut (m.block z).sense (some b1))) :=
  ⟨_,List.getLast_mem _,rfl,mergeLoop_eq b1 h.linkedTrue
    (length_le_next h h.lists_apart.1 h.mem_accepts)⟩

/-- The exits where a condition holds have their target, and its block shows the other edge. -/
def shut (target : ℕ) (m : Chunks) (p : ℕ) (accepts : List ℕ) : Chunks :=
  genNot (patchAll target m (p::accepts)) p

section Shut

variable {target x : ℕ}

theorem shut_self : (shut target m p accepts).block p=
    {(m.block p).setOut (m.block p).sense (some target) with sense:=!(m.block p).sense} := by
  rw [shut,genNot_self,patchAll_mem _ List.mem_cons_self,setOut_sense]

theorem shut_mem (hx : x∈accepts) (hne : x≠p) : (shut target m p accepts).block x=
    (m.block x).setOut (m.block x).sense (some target) := by
  rw [shut,genNot_ne hne,patchAll_mem _ (List.mem_cons_of_mem p hx)]

theorem shut_other (hx : x∉p::accepts) : (shut target m p accepts).block x=m.block x := by
  rw [shut,genNot_ne (List.ne_of_not_mem_cons hx),patchAll_not_mem _ hx]

/-- The other list is as it was. -/
theorem Built.linked_shut (h : Built m c p order accepts rejects) (target : ℕ) :
    Linked (shut target m p accepts) ((shut target m p accepts).link p) rejects := by
  have hlink : (shut target m p accepts).link p=(m.block p).out (!(m.block p).sense) := by
    rw [Chunks.link,shut_self]
    exact out_setOut_other _ _
  rw [hlink]
  refine h.linkedFalse.congr fun x hx => ?_
  rw [Chunks.link,Chunks.link,shut_other (h.lists_apart.2.2.2 x hx)]

end Shut

/-- The same statements and branches. -/
def SameCode (m m' : Chunks) : Prop :=
  ∀ x, (m'.block x).stmts=(m.block x).stmts ∧ (m'.block x).s=(m.block x).s

theorem SameCode.trans {m2 : Chunks} (h : SameCode m m') (h' : SameCode m' m2) : SameCode m m2 :=
  fun x => ⟨(h' x).1.trans (h x).1,(h' x).2.trans (h x).2⟩

theorem sameCode_update {b : GenBlock} (hstmts : b.stmts=(m.block p).stmts)
    (hs : b.s=(m.block p).s) : SameCode m (m.update p b) := by
  intro x
  by_cases hx : x=p
  · rw [hx,update_self]
    exact ⟨hstmts,hs⟩
  · rw [update_ne _ hx]
    exact ⟨rfl,rfl⟩

theorem sameCode_genNot (m : Chunks) (p : ℕ) : SameCode m (genNot m p) := sameCode_update rfl rfl

theorem sameCode_patchAll (target : ℕ) (m : Chunks) (l : List ℕ) :
    SameCode m (patchAll target m l) := by
  intro x
  by_cases hx : x∈l
  · rw [patchAll_mem _ hx]
    exact setOut_stmts _ _
  · rw [patchAll_not_mem _ hx]
    exact ⟨rfl,rfl⟩

theorem sameCode_shut (target : ℕ) : SameCode m (shut target m p accepts) :=
  (sameCode_patchAll _ _ _).trans (sameCode_genNot _ _)

/-- A condition does not depend on the blocks of others. -/
theorem Built.frame (h : Built m c p order accepts rejects)
    (hsame : ∀ x∈order, m'.block x=m.block x) (hnext : m.next ≤ m'.next) :
    Built m' c p order accepts rejects := by
  have hown := hsame p (h.subset p List.mem_cons_self)
  have hlist : ∀ x∈accepts++rejects, m'.link x=m.link x := by
    intro x hx
    rw [Chunks.link,Chunks.link,hsame x (h.subset x (List.mem_cons_of_mem p hx))]
  refine ⟨h.nodup,fun x hx => Nat.lt_of_lt_of_le (h.below x hx) hnext,?_,?_,?_,h.lists,h.subset,
    fun x hx => ?_,fun m2 x y hclose => ?_⟩
  · rw [hown]
    exact h.head
  · rw [Chunks.link,hown]
    exact h.linkedTrue.congr fun x hx => hlist x (List.mem_append_left _ hx)
  · rw [hown]
    exact h.linkedFalse.congr fun x hx => hlist x (List.mem_append_right _ hx)
  · rw [hsame x hx]
    exact h.plain x hx
  · rw [hown]
    refine h.closed m2 x y ⟨fun z hz => ?_,?_,fun z hz => ?_,fun z hz => ?_,fun z hz hnot k => ?_⟩
    · rw [←hsame z hz]
      exact hclose.code z hz
    · rw [←hown]
      exact hclose.own
    · rw [←hsame z (h.subset z (List.mem_cons_of_mem p (List.mem_append_left _ hz)))]
      exact hclose.onTrue z hz
    · rw [←hsame z (h.subset z (List.mem_cons_of_mem p (List.mem_append_right _ hz)))]
      exact hclose.onFalse z hz
    · rw [hclose.rest z hz hnot k,hsame z hz]

theorem Apart.genAnd_joined
    (h : Apart m c d p q order order' accepts rejects accepts' rejects') :
    ∃ m', genAnd m p q=some m' ∧ Joined m m' p q accepts rejects rejects' := by
  obtain ⟨hc,hd,hdisjoint⟩ := h
  have hp : p∈order := hc.subset p List.mem_cons_self
  have hleft : ∀ x∈order, x∉q::rejects' := fun x hx hx' => hdisjoint x hx (hd.mem_rejects x hx')
  have hright : ∀ x∈order', x∉p::accepts := fun x hx hx' => hdisjoint x (hc.mem_accepts x hx') hx
  obtain ⟨hnodup,-⟩ := hc.lists_apart
  obtain ⟨-,hnodup',-⟩ := hd.lists_apart
  have hqrej : ∀ x∈rejects', x≠q := fun x hx he => (List.nodup_cons.mp hnodup').1 (he ▸ hx)
  -- the first condition goes on with the second one
  generalize hm1 : shut (m.block q).head m p accepts=m1
  have hd1 : Built m1 d q order' accepts' rejects' :=
    hd.frame (fun x hx => by rw [←hm1,shut_other (hright x hx)]) (by rw [←hm1]; exact le_rfl)
  have h1q : m1.block q=m.block q := by
    rw [←hm1,shut_other (hright q (hd.subset q List.mem_cons_self))]
  -- the list of the first one follows the list of the second one
  obtain ⟨z,hz,hlast,hmerge⟩ := hd1.not.merge_eq p
  generalize hm2 : genNot m1 q=m2 at hmerge
  have h2 : ∀ x, x≠q → m2.block x=m1.block x := fun x hx => by rw [←hm2,genNot_ne hx]
  have h2q : m2.block q={m.block q with sense:=!(m.block q).sense} := by
    rw [←hm2,genNot_self,h1q]
  generalize hm3 : m2.update z ((m2.block z).setOut (m2.block z).sense (some p))=m3 at hmerge
  have h3 : ∀ x, x≠z → m3.block x=m2.block x := fun x hx => by rw [←hm3,update_ne _ hx]
  have h3z : m3.block z=(m2.block z).setOut (m2.block z).sense (some p) := by
    rw [←hm3,update_self]
  have hkeep : ∀ x, (m3.block x).sense=(m2.block x).sense ∧
      (m3.block x).out (!(m2.block x).sense)=(m2.block x).out (!(m2.block x).sense) := by
    intro x
    by_cases hx : x=z
    · subst hx
      rw [h3z]
      exact ⟨setOut_sense _ _,out_setOut_other _ _⟩
    · rw [h3 x hx]
      exact ⟨rfl,rfl⟩
  have h3out : ∀ x∉q::rejects', m3.block x=m1.block x := fun x hx => by
    rw [h3 x fun he => hx (he ▸ hz),h2 x (List.ne_of_not_mem_cons hx)]
  have hlinked : Linked m3 (m3.link q) (rejects'++p::rejects) := by
    have hown := hd1.not.linkedTrue
    rw [hm2] at hown
    refine hown.append hnodup' hlast (fun x hx => ?_) ?_ ⟨rfl,?_⟩
    · rw [Chunks.link,Chunks.link,h3 x hx]
    · rw [Chunks.link,h3z,setOut_sense,out_setOut]
    · have hrest := hc.linked_shut (m.block q).head
      rw [hm1] at hrest
      have hsame : ∀ x∈order, m3.link x=m1.link x := fun x hx => by
        rw [Chunks.link,Chunks.link,h3out x (hleft x hx)]
      rw [hsame p hp]
      exact hrest.congr fun x hx => hsame x (hc.mem_rejects x (List.mem_cons_of_mem p hx))
  -- the last assignments concern the second block only
  have hresult : genAnd m p q=some (shareHead (genNot m3 q) p q) := by
    have hshut : genNot (patchAll (m.block q).head m (p::accepts)) p=m1 := hm1
    simp only [genAnd,hc.backpatch_eq,hshut,hm2,hmerge,Option.bind_eq_bind,Option.bind_some,
      Option.pure_def]
  refine ⟨_,hresult,?_⟩
  generalize hm4 : shareHead (genNot m3 q) p q=m4
  have hpq : p≠q := List.ne_of_not_mem_cons (hleft p hp)
  have h4 : ∀ x, x≠q → m4.block x=m3.block x := by
    intro x hx
    rw [←hm4,shareHead,update_ne _ hx,genNot_ne hx]
  have h4q : m4.block q={m3.block q with sense:=!(m3.block q).sense,head:=(m3.block p).head} := by
    rw [←hm4,shareHead,update_self,genNot_self,genNot_ne hpq]
  have h4left : ∀ x∈order, m4.block x=m1.block x := fun x hx => by
    rw [h4 x (List.ne_of_not_mem_cons (hleft x hx)),h3out x (hleft x hx)]
  refine ⟨?_,?_,fun x hx => ?_,?_,fun x hx => ?_,fun x hxa hxr => ?_,?_,?_⟩
  · have hcode1 : SameCode m m1 := hm1 ▸ sameCode_shut _
    have hcode2 : SameCode m1 m2 := hm2 ▸ sameCode_genNot _ _
    have hcode3 : SameCode m2 m3 :=
      hm3 ▸ sameCode_update (setOut_stmts _ _).1 (setOut_stmts _ _).2
    have hcode4 : SameCode m3 m4 :=
      hm4 ▸ (sameCode_genNot _ _).trans (sameCode_update rfl rfl)
    exact ((hcode1.trans hcode2).trans hcode3).trans hcode4
  · rw [h4left p hp,←hm1,shut_self]
    exact ⟨rfl,out_setOut _ _,out_setOut_other _ _⟩
  · have hxp : x≠p := fun he => (List.nodup_cons.mp hnodup).1 (he ▸ hx)
    rw [h4left x (hc.mem_accepts x (List.mem_cons_of_mem p hx)),←hm1,shut_mem hx hxp]
    exact ⟨setOut_sense _ _,out_setOut _ _,out_setOut_other _ _⟩
  · obtain ⟨hsense,hother⟩ := hkeep q
    rw [h2q] at hsense hother
    dsimp only at hsense hother
    rw [Bool.not_not] at hother
    rw [h4q,h3out p (hleft p hp),←hm1,shut_self]
    refine ⟨?_,hother,setOut_head _ _⟩
    dsimp only
    rw [hsense,Bool.not_not]
  · obtain ⟨hsense,hother⟩ := hkeep x
    rw [h2 x (hqrej x hx),←hm1,
      shut_other (hright x (hd.mem_rejects x (List.mem_cons_of_mem q hx)))] at hsense hother
    rw [h4 x (hqrej x hx)]
    exact ⟨hsense,hother⟩
  · rw [h4 x (List.ne_of_not_mem_cons hxr),h3out x hxr,←hm1,shut_other hxa]
  · have hstart : (m4.block q).out (!(m4.block q).sense)=m3.link q := by
      rw [h4q]
      dsimp only [GenBlock.out]
      rw [Bool.not_not]
      rfl
    rw [hstart]
    refine hlinked.congr fun x hx => ?_
    have hxq : x≠q := by
      rcases List.mem_append.mp hx with hx | hx
      · exact hqrej x hx
      · exact List.ne_of_not_mem_cons (hleft x (hc.mem_rejects x hx))
    rw [Chunks.link,Chunks.link,h4 x hxq]
  · rw [←hm4,←hm3,←hm2,←hm1]
    rfl

/-- Blocks of neither list are as they were. -/
theorem Joined.left_or_right (hj : Joined m m' p q accepts rejects rejects') {z : ℕ}
    (hl : z∉p::(accepts++rejects)) (hr : z∉q::(accepts'++rejects')) :
    m'.block z=m.block z ∧ z∉q::(accepts'++(rejects'++p::rejects)) := by
  simp only [List.mem_cons,List.mem_append,not_or] at hl hr ⊢
  exact ⟨hj.rest z (fun hz => (List.mem_cons.mp hz).elim hl.1 hl.2.1)
    fun hz => (List.mem_cons.mp hz).elim hr.1 hr.2.2,hr.1,hr.2.1,hr.2.2,hl.1,hl.2.2⟩

/-- The joined conditions are a condition whose exits are open. -/
theorem Apart.built_and (h : Apart m c d p q order order' accepts rejects accepts' rejects')
    (hj : Joined m m' p q accepts rejects rejects') :
    Built m' (.and c d) q (order++order') accepts' (rejects'++p::rejects) := by
  obtain ⟨hc,hd,hdisjoint⟩ := h
  have hq : q∈order' := hd.subset q List.mem_cons_self
  have hsub : ∀ x∈p::(accepts++rejects), x∉q::(accepts'++rejects') :=
    fun x hx hx' => hdisjoint x (hc.subset x hx) (hd.subset x hx')
  obtain ⟨hnodup,-,hleft,hleft'⟩ := hc.lists_apart
  obtain ⟨-,-,hright,hright'⟩ := hd.lists_apart
  have hacc' : ∀ x∈accepts', m'.block x=m.block x := fun x hx => hj.rest x
    (fun hx' => hdisjoint x (hc.mem_accepts x hx')
      (hd.mem_accepts x (List.mem_cons_of_mem q hx))) (hright x hx)
  have hrej : ∀ x∈rejects, m'.block x=m.block x := fun x hx => hj.rest x (hleft' x hx)
    fun hx' => hdisjoint x (hc.mem_rejects x (List.mem_cons_of_mem p hx)) (hd.mem_rejects x hx')
  have hlists := hc.lists
  have hlists' := hd.lists
  simp only [List.nodup_cons,List.nodup_append,List.mem_append,List.mem_cons,not_or] at hlists hlists'
  refine ⟨?_,fun x hx => ?_,?_,?_,hj.linked,?_,fun x hx => ?_,fun x hx => ?_,
    fun m2 x y hclose => ?_⟩
  · rw [List.nodup_append]
    exact ⟨hc.nodup,hd.nodup,fun x hx z hz he => hdisjoint x hx (he ▸ hz)⟩
  · rw [hj.next]
    exact (List.mem_append.mp hx).elim (hc.below x) (hd.below x)
  · rw [hj.second.2.2,List.head?_append,hc.head]
    rfl
  · have hlink : m'.link q=m.link q := by
      rw [Chunks.link,Chunks.link,hj.second.1,hj.second.2.1]
    rw [hlink]
    exact hd.linkedTrue.congr fun x hx => by rw [Chunks.link,Chunks.link,hacc' x hx]
  · obtain ⟨⟨hpacc,hprej⟩,-,hrejNodup,haccRej⟩ := hlists
    obtain ⟨⟨hqacc,hqrej⟩,haccNodup',hrejNodup',haccRej'⟩ := hlists'
    simp only [List.mem_cons,List.mem_append,not_or] at hsub
    simp only [List.nodup_cons,List.nodup_append,List.mem_append,List.mem_cons,not_or]
    refine ⟨⟨hqacc,hqrej,fun he => ?_,fun hx => ?_⟩,haccNodup',⟨hrejNodup',⟨hprej,hrejNodup⟩,?_⟩,?_⟩
    · exact (hsub q (.inl he)).1 rfl
    · exact (hsub q (.inr (.inr hx))).1 rfl
    · rintro x hx z (rfl | hz) he
      · exact (hsub z (.inl rfl)).2.2 (he ▸ hx)
      · exact (hsub z (.inr (.inr hz))).2.2 (he ▸ hx)
    · rintro x hx z (hz | rfl | hz) he
      · exact haccRej' x hx z hz he
      · exact (hsub z (.inl rfl)).2.1 (he ▸ hx)
      · exact (hsub z (.inr (.inr hz))).2.1 (he ▸ hx)
  · rw [List.mem_cons,List.mem_append,List.mem_append] at hx
    rcases hx with rfl | hx | hx | hx
    · exact List.mem_append_right _ hq
    · exact List.mem_append_right _ (hd.mem_accepts x (List.mem_cons_of_mem q hx))
    · exact List.mem_append_right _ (hd.mem_rejects x (List.mem_cons_of_mem q hx))
    · exact List.mem_append_left _ (hc.mem_rejects x hx)
  · rw [(hj.code x).1,(hj.code x).2]
    exact (List.mem_append.mp hx).elim (hc.plain x) (hd.plain x)
  · have hcode : ∀ z∈order++order', (m2.block z).stmts=(m.block z).stmts ∧
        (m2.block z).s=(m.block z).s := fun z hz =>
      ⟨(hclose.code z hz).1.trans (hj.code z).1,(hclose.code z hz).2.trans (hj.code z).2⟩
    have hcloseLeft : Closes m m2 p order accepts rejects (m.block q).head y := by
      refine ⟨fun z hz => hcode z (List.mem_append_left _ hz),?_,fun z hz => ?_,fun z hz => ?_,
        fun z hz hnot k => ?_⟩
      · have hown := hclose.onFalse p (List.mem_append_right _ List.mem_cons_self)
        rw [hj.first.1,Bool.not_not,hj.first.2.1] at hown
        exact hown.symm
      · have hzo := hc.mem_accepts z (List.mem_cons_of_mem p hz)
        have hz' := hsub z (List.mem_cons_of_mem p (List.mem_append_left _ hz))
        have hnot : z∉q::(accepts'++(rejects'++p::rejects)) := by
          rw [←List.append_assoc,←List.cons_append,List.mem_append,not_or]
          exact ⟨hz',hleft z hz⟩
        have hsame := hclose.rest z (List.mem_append_left _ hzo) hnot
        rw [hsame,hsame]
        exact (hj.firstList z hz).2
      · have hexit := hclose.onFalse z (List.mem_append_right _ (List.mem_cons_of_mem p hz))
        rwa [hrej z hz] at hexit
      · obtain ⟨hsame,hopen⟩ := hj.left_or_right hnot
          fun hz' => hdisjoint z hz (hd.subset z hz')
        rw [hclose.rest z (List.mem_append_left _ hz) hopen,hsame]
    have hcloseRight : Closes m m2 q order' accepts' rejects' x y := by
      refine ⟨fun z hz => hcode z (List.mem_append_right _ hz),?_,fun z hz => ?_,fun z hz => ?_,
        fun z hz hnot k => ?_⟩
      · have hown := hclose.own
        rwa [hj.second.1] at hown
      · have hexit := hclose.onTrue z hz
        rwa [hacc' z hz] at hexit
      · have hexit := hclose.onFalse z (List.mem_append_left _ hz)
        obtain ⟨hsense,hother⟩ := hj.secondList z hz
        rw [hsense,hother] at hexit
        exact hexit
      · obtain ⟨hsame,hopen⟩ := hj.left_or_right
          (fun hz' => hdisjoint z (hc.subset z hz') hz) hnot
        rw [hclose.rest z (List.mem_append_right _ hz) hopen,hsame]
    obtain ⟨hflow,hforward,hprepend⟩ := hc.closed m2 _ y hcloseLeft
    obtain ⟨hflow',hforward',-⟩ := hd.closed m2 x y hcloseRight
    have hhead : (m.block p).head∈order := List.mem_of_head? hc.head
    rw [hj.second.2.2]
    refine ⟨.and hflow hflow',hforward.append hforward' (.inl (List.mem_of_head? hd.head))
      (.inr (.inr rfl)),fun vloffsets => .and (hprepend vloffsets) ?_⟩
    refine (hd.closed _ x y (hcloseRight.congr hd.subset fun z hz => ?_)).1
    exact update_ne _ fun he => hdisjoint _ hhead (he ▸ hz)

theorem chunks_ext (hblock : ∀ x, m'.block x=m.block x) (hnext : m'.next=m.next) : m'=m := by
  cases m'
  cases m
  cases hnext
  exact congrArg (fun block => (⟨block,_⟩ : Chunks)) (funext hblock)

theorem genNot_genNot (m : Chunks) (p : ℕ) : genNot (genNot m p) p=m := by
  refine chunks_ext (fun x => ?_) rfl
  by_cases hx : x=p
  · subst hx
    rw [genNot_self,genNot_self,Bool.not_not]
  · rw [genNot_ne hx,genNot_ne hx]

theorem genNot_comm (m : Chunks) (hpq : p≠q) : genNot (genNot m p) q=genNot (genNot m q) p := by
  refine chunks_ext (fun x => ?_) rfl
  by_cases hx : x=p
  · subst hx
    rw [genNot_ne hpq,genNot_self,genNot_self,genNot_ne hpq]
  · rw [genNot_ne (q:=x) (p:=p) hx]
    by_cases hxq : x=q
    · subst hxq
      rw [genNot_self,genNot_self,genNot_ne hx]
    · rw [genNot_ne hxq,genNot_ne hx,genNot_ne hxq]

theorem genNot_shareHead (m : Chunks) (p q : ℕ) :
    genNot (shareHead (genNot m q) p q) q=shareHead m p q := by
  have hhead : ((genNot m q).block p).head=(m.block p).head := by
    by_cases hp : p=q
    · rw [hp,genNot_self]
    · rw [genNot_ne hp]
  refine chunks_ext (fun x => ?_) rfl
  by_cases hx : x=q
  · subst hx
    rw [genNot_self,shareHead,shareHead,update_self,update_self,genNot_self,hhead,Bool.not_not]
  · rw [genNot_ne hx,shareHead,shareHead,update_ne _ hx,update_ne _ hx,genNot_ne hx]

/-- `gen_or` is `gen_and` between negations. -/
theorem Apart.genOr_eq (h : Apart m c d p q order order' accepts rejects accepts' rejects') :
    genOr m p q=(genAnd (genNot (genNot m p) q) p q).map fun m => genNot m q := by
  obtain ⟨hc,hd,hdisjoint⟩ := h
  have hq : q∈order' := hd.subset q List.mem_cons_self
  have hpq : p≠q := fun he => hdisjoint p (hc.subset p List.mem_cons_self) (he ▸ hq)
  have hqlist : q∉p::rejects := fun hx => hdisjoint q (hc.mem_rejects q hx) hq
  have hnot := hc.not
  generalize hm1 : genNot m p=m1 at hnot
  have hframe : Built (genNot m1 q) (.not c) p order rejects accepts :=
    hnot.frame (fun x hx => genNot_ne fun he => hdisjoint x hx (he ▸ hq)) le_rfl
  have hback : backpatch (genNot m1 q) p ((genNot m1 q).block q).head=
      some (patchAll (m1.block q).head (genNot m1 q) (p::rejects)) := by
    rw [genNot_self]
    exact hframe.backpatch_eq _
  have hpatch : patchAll (m1.block q).head (genNot m1 q) (p::rejects)=
      genNot (patchAll (m1.block q).head m1 (p::rejects)) q := by
    refine chunks_ext (fun x => ?_) rfl
    by_cases hx : x=q
    · subst hx
      rw [genNot_self,patchAll_not_mem _ hqlist,patchAll_not_mem _ hqlist,genNot_self]
    · by_cases hxl : x∈p::rejects
      · rw [genNot_ne hx,patchAll_mem _ hxl,patchAll_mem _ hxl,genNot_ne hx]
      · rw [genNot_ne hx,patchAll_not_mem _ hxl,patchAll_not_mem _ hxl,genNot_ne hx]
  simp only [genOr,genAnd,hm1,hnot.backpatch_eq,hback,hpatch,Option.bind_eq_bind,
    Option.bind_some,Option.pure_def]
  rw [genNot_comm _ (Ne.symm hpq),genNot_genNot]
  cases merge (genNot (patchAll (m1.block q).head m1 (p::rejects)) p) q p with
  | none => rfl
  | some m2 =>
    simp only [Option.bind_some,Option.map_some,genNot_shareHead]

/-- The negation of a conjunction of negations is a disjunction. -/
theorem Flow.or_of_not {h : ℕ} (hflow : Flow m (.not (.and (.not c) (.not d))) h x y) :
    Flow m (.or c d) h x y := by
  cases hflow with
  | not hand =>
    cases hand with
    | and hc hd =>
      cases hc with
      | not hc =>
        cases hd with
        | not hd => exact .or hc hd

/-- What the parser makes for a condition. -/
structure Made (c : Cond) (m m' : Chunks) (p : ℕ) (order accepts rejects : List ℕ) : Prop where
  /-- The condition is there, with open exits. -/
  built : Built m' c p order accepts rejects
  /-- Its blocks are new. -/
  fresh : ∀ x∈order, m.next≤x
  /-- They are the ones that are made. -/
  next : m.next ≤ m'.next
  /-- No other block is changed. -/
  same : ∀ x, x∉order → m'.block x=m.block x

theorem Made.apart {m2 : Chunks} (hc : Made c m m' p order accepts rejects)
    (hd : Made d m' m2 q order' accepts' rejects') :
    Apart m2 c d p q order order' accepts rejects accepts' rejects' := by
  have hdisjoint : ∀ x∈order, x∉order' := fun x hx hx' =>
    absurd (hc.built.below x hx) (Nat.not_lt.mpr (hd.fresh x hx'))
  exact ⟨hc.built.frame (fun x hx => hd.same x (hdisjoint x hx)) hd.next,hd.built,hdisjoint⟩

/-- A condition made of two conditions that the parser has made. -/
theorem Made.join {m2 m3 : Chunks} {e : Cond} {accepts2 rejects2 : List ℕ}
    (hc : Made c m m' p order accepts rejects) (hd : Made d m' m2 q order' accepts' rejects')
    (he : Built m3 e q (order++order') accepts2 rejects2) (hnext : m3.next=m2.next)
    (hsame : ∀ x, x∉order++order' → m3.block x=m2.block x) :
    Made e m m3 q (order++order') accepts2 rejects2 := by
  refine ⟨he,fun x hx => ?_,?_,fun x hx => ?_⟩
  · rcases List.mem_append.mp hx with hx | hx
    · exact hc.fresh x hx
    · exact Nat.le_trans hc.next (hd.fresh x hx)
  · rw [hnext]
    exact Nat.le_trans hc.next hd.next
  · rw [hsame x hx]
    rw [List.mem_append,not_or] at hx
    rw [hd.same x hx.2,hc.same x hx.1]

/-- Blocks of neither condition are not changed. -/
theorem Apart.same (h : Apart m c d p q order order' accepts rejects accepts' rejects')
    (hj : Joined m m' p q accepts rejects rejects') {z : ℕ} (hz : z∉order++order') :
    m'.block z=m.block z := by
  rw [List.mem_append,not_or] at hz
  refine hj.rest z (fun hzl => hz.1 ?_) fun hzr => hz.2 ?_
  · exact h.left.subset z (List.cons_subset_cons p (List.subset_append_left _ _) hzl)
  · exact h.right.subset z (List.cons_subset_cons q (List.subset_append_right _ _) hzr)

theorem Apart.not (h : Apart m c d p q order order' accepts rejects accepts' rejects') :
    Apart (genNot (genNot m p) q) (.not c) (.not d) p q order order' rejects accepts rejects'
      accepts' := by
  obtain ⟨hc,hd,hdisjoint⟩ := h
  have hp : p∈order := hc.subset p List.mem_cons_self
  have hq : q∈order' := hd.subset q List.mem_cons_self
  refine ⟨hc.not.frame (fun x hx => ?_) le_rfl,?_,hdisjoint⟩
  · exact genNot_ne fun he => hdisjoint x hx (he ▸ hq)
  · have hframe : Built (genNot m p) d q order' accepts' rejects' := hd.frame
      (fun x hx => genNot_ne fun he => hdisjoint p hp (he ▸ hx)) le_rfl
    exact hframe.not

theorem Made.not (h : Made c m m' p order accepts rejects) :
    Made (.not c) m (genNot m' p) p order rejects accepts := by
  refine ⟨h.built.not,h.fresh,h.next,fun x hx => ?_⟩
  have hxp : x≠p := fun he => hx (he ▸ h.built.subset p List.mem_cons_self)
  rw [genNot_ne hxp,h.same x hx]

/-- **The actions of the parser.** For every condition they end, and leave its
graph with two open exits. -/
theorem gen_made (c : Cond) (m : Chunks) : ∃ m' p order accepts rejects,
    gen c m=some (m',p) ∧ Made c m m' p order accepts rejects := by
  induction c generalizing m with
  | test t =>
    refine ⟨_,_,[m.next],[],[],rfl,built_newBlock m t,fun x hx => ?_,Nat.le_succ _,fun x hx => ?_⟩
    · exact (List.mem_singleton.mp hx).ge
    · exact Function.update_of_ne (fun he => hx (List.mem_singleton.mpr he)) _ _
  | not c ih =>
    obtain ⟨m1,p,order,accepts,rejects,hgen,hmade⟩ := ih m
    refine ⟨genNot m1 p,p,order,rejects,accepts,?_,hmade.not⟩
    simp only [gen,hgen,Option.bind_eq_bind,Option.bind_some,Option.pure_def]
  | and c d ihc ihd =>
    obtain ⟨m1,p,order,accepts,rejects,hgenc,hc⟩ := ihc m
    obtain ⟨m2,q,order',accepts',rejects',hgend,hd⟩ := ihd m1
    have hapart := hc.apart hd
    obtain ⟨m3,hand,hj⟩ := hapart.genAnd_joined
    refine ⟨m3,q,_,_,_,?_,hc.join hd (hapart.built_and hj) hj.next fun x => hapart.same hj⟩
    simp only [gen,hgenc,hgend,hand,Option.bind_eq_bind,Option.bind_some,Option.pure_def]
  | or c d ihc ihd =>
    obtain ⟨m1,p,order,accepts,rejects,hgenc,hc⟩ := ihc m
    obtain ⟨m2,q,order',accepts',rejects',hgend,hd⟩ := ihd m1
    have hapart := hc.apart hd
    have hnot := hapart.not
    obtain ⟨m3,hand,hj⟩ := hnot.genAnd_joined
    have hor : genOr m2 p q=some (genNot m3 q) := by
      rw [hapart.genOr_eq,hand]
      rfl
    have hbuilt := (hnot.built_and hj).not
    have hbuilt' : Built (genNot m3 q) (.or c d) q (order++order') (accepts'++p::accepts)
        rejects' := by
      refine ⟨hbuilt.nodup,hbuilt.below,hbuilt.head,hbuilt.linkedTrue,hbuilt.linkedFalse,
        hbuilt.lists,hbuilt.subset,hbuilt.plain,fun m' x y hclose => ?_⟩
      obtain ⟨hflow,hforward,hprepend⟩ := hbuilt.closed m' x y hclose
      exact ⟨hflow.or_of_not,hforward,fun vloffsets => (hprepend vloffsets).or_of_not⟩
    refine ⟨genNot m3 q,q,_,_,_,?_,hc.join hd hbuilt' hj.next fun x hx => ?_⟩
    · simp only [gen,hgenc,hgend,hor,Option.bind_eq_bind,Option.bind_some,Option.pure_def]
    · have hleft : x≠p := fun he => hx (List.mem_append_left _
        (he ▸ hapart.left.subset p List.mem_cons_self))
      have hright : x≠q := fun he => hx (List.mem_append_right _
        (he ▸ hapart.right.subset q List.mem_cons_self))
      rw [genNot_ne hright,hnot.same hj hx,genNot_ne hright,genNot_ne hleft]

/-! ## Closing the exits -/

/-- The block that `gen_retblk` makes. -/
def retBlock (v : ℤ) (head : ℕ) : GenBlock := ⟨[],⟨6,none,none,v⟩,none,none,false,head⟩

theorem genRetblk_self (m : Chunks) (v : ℤ) :
    (genRetblk m v).1.block m.next=retBlock v m.next := Function.update_self _ _ _

theorem genRetblk_ne (v : ℤ) (h : q≠m.next) : (genRetblk m v).1.block q=m.block q :=
  Function.update_of_ne h _ _

/-- The two return blocks close the exits. -/
structure Returned (m m' : Chunks) (snaplen : ℤ) (p : ℕ) (order accepts rejects : List ℕ) :
    Prop where
  /-- The exits lead to them. -/
  closes : Closes m m' p order accepts rejects m.next (m.next+1)
  /-- The first one accepts. -/
  accept : m'.block m.next=retBlock snaplen m.next
  /-- The second one rejects. -/
  reject : m'.block (m.next+1)=retBlock 0 (m.next+1)
  /-- No other block is changed. -/
  same : ∀ x, x∉order → x≠m.next → x≠m.next+1 → m'.block x=m.block x

theorem addReturns_returned (h : Built m c p order accepts rejects) (snaplen : ℤ) :
    ∃ m', addReturns m snaplen p=some (m',(m.block p).head) ∧
      Returned m m' snaplen p order accepts rejects := by
  have hp : p∈order := h.subset p List.mem_cons_self
  have hold : ∀ x∈order, x≠m.next ∧ x≠m.next+1 := fun x hx => by
    have hlt := h.below x hx
    omega
  obtain ⟨hnodup,hnodup',hacc,hrej⟩ := h.lists_apart
  -- the edges where the condition holds
  generalize hm1 : (genRetblk m snaplen).1=m1
  have hnext1 : m1.next=m.next+1 := by rw [←hm1]; rfl
  have h1 : ∀ x, x≠m.next → m1.block x=m.block x := fun x hx => by rw [←hm1,genRetblk_ne _ hx]
  have hb1 : Built m1 c p order accepts rejects :=
    h.frame (fun x hx => h1 x (hold x hx).1) (by omega)
  generalize hm2 : shut m.next m1 p accepts=m2
  have hnext2 : m2.next=m.next+1 := by rw [←hm2]; exact hnext1
  -- the edges where it does not
  generalize hm3 : (genRetblk m2 0).1=m3
  have h3 : ∀ x, x≠m.next+1 → m3.block x=m2.block x := fun x hx => by
    rw [←hm3,genRetblk_ne 0 (by rw [hnext2]; exact hx)]
  have h3out : ∀ x, x≠m.next → x≠m.next+1 → x∉p::accepts → m3.block x=m.block x := by
    intro x hx hx' hxa
    rw [h3 x hx',←hm2,shut_other hxa,h1 x hx]
  have h3p : m3.block p={(m.block p).setOut (m.block p).sense (some m.next) with
      sense:=!(m.block p).sense} := by
    rw [h3 p (hold p hp).2,←hm2,shut_self,h1 p (hold p hp).1]
  have hlinked : Linked m3 (m3.link p) rejects := by
    have hown := hb1.linked_shut m.next
    rw [hm2] at hown
    have hsame : ∀ x∈order, m3.link x=m2.link x := fun x hx => by
      rw [Chunks.link,Chunks.link,h3 x (hold x hx).2]
    rw [hsame p hp]
    exact hown.congr fun x hx => hsame x (h.mem_rejects x (List.mem_cons_of_mem p hx))
  have hback : backpatch m3 p (m.next+1)=some (patchAll (m.next+1) m3 (p::rejects)) := by
    refine backpatchLoop_eq _ ⟨rfl,hlinked⟩ hnodup' ?_
    have hle := length_le_next h hnodup' h.mem_rejects
    have hnext3 : m3.next=m.next+2 := by rw [←hm3]; exact congrArg Nat.succ hnext2
    omega
  generalize hm4 : patchAll (m.next+1) m3 (p::rejects)=m4 at hback
  have h4in : ∀ x∈p::rejects, m4.block x=
      (m3.block x).setOut (m3.block x).sense (some (m.next+1)) := by
    intro x hx
    rw [←hm4,patchAll_mem _ hx]
  have h4out : ∀ x, x∉p::rejects → m4.block x=m3.block x := by
    intro x hx
    rw [←hm4,patchAll_not_mem _ hx]
  refine ⟨m4,?_,⟨fun x hx => ?_,?_,fun x hx => ?_,fun x hx => ?_,fun x hx hnot k => ?_⟩,?_,?_,
    fun x hx hx1 hx2 => ?_⟩
  · have hret1 : genRetblk m snaplen=(m1,m.next) := by rw [←hm1]; rfl
    have hret2 : genRetblk m2 0=(m3,m.next+1) := by rw [←hm3,←hnext2]; rfl
    have hshut : genNot (patchAll m.next m1 (p::accepts)) p=m2 := hm2
    have hhead : (m4.block p).head=(m.block p).head := by
      rw [h4in p List.mem_cons_self,setOut_head,h3p]
      exact setOut_head _ _
    rw [addReturns,hret1]
    simp only [hb1.backpatch_eq,hshut,hret2,hback,hhead,Option.bind_eq_bind,Option.bind_some,
      Option.pure_def]
  · obtain ⟨hx1,hx2⟩ := hold x hx
    have hcode2 : SameCode m1 m2 := hm2 ▸ sameCode_shut _
    have hcode4 : SameCode m3 m4 := hm4 ▸ sameCode_patchAll _ _ _
    rw [(hcode4 x).1,(hcode4 x).2,h3 x hx2,(hcode2 x).1,(hcode2 x).2,h1 x hx1]
    exact ⟨rfl,rfl⟩
  · rw [h4in p List.mem_cons_self,h3p]
    refine ⟨?_,out_setOut _ _⟩
    have hother := out_setOut_other (k:=!(m.block p).sense)
      ({(m.block p).setOut (m.block p).sense (some m.next) with sense:=!(m.block p).sense} :
        GenBlock) (some (m.next+1))
    rw [Bool.not_not] at hother
    exact hother.trans (out_setOut _ _)
  · have hxp : x≠p := fun he => (List.nodup_cons.mp hnodup).1 (he ▸ hx)
    have hxo := h.mem_accepts x (List.mem_cons_of_mem p hx)
    rw [h4out x (hacc x hx),h3 x (hold x hxo).2,←hm2,shut_mem hx hxp,h1 x (hold x hxo).1]
    exact ⟨out_setOut _ _,out_setOut_other _ _⟩
  · have hxo := h.mem_rejects x (List.mem_cons_of_mem p hx)
    rw [h4in x (List.mem_cons_of_mem p hx),h3out x (hold x hxo).1 (hold x hxo).2 (hrej x hx)]
    exact ⟨out_setOut _ _,out_setOut_other _ _⟩
  · simp only [List.mem_cons,List.mem_append,not_or] at hnot
    have hxr : x∉p::rejects := fun hxr => (List.mem_cons.mp hxr).elim hnot.1 hnot.2.2
    have hxa : x∉p::accepts := fun hxa => (List.mem_cons.mp hxa).elim hnot.1 hnot.2.1
    rw [h4out x hxr,h3out x (hold x hx).1 (hold x hx).2 hxa]
  · rw [h4out _ fun hx => (hold _ (h.mem_rejects _ hx)).1 rfl,h3 _ (by omega),←hm2,
      shut_other fun hx => (hold _ (h.mem_accepts _ hx)).1 rfl,←hm1,genRetblk_self]
  · rw [h4out _ fun hx => (hold _ (h.mem_rejects _ hx)).2 rfl,←hm3,←hnext2,genRetblk_self]
  · rw [h4out x fun hxr => hx (h.mem_rejects x hxr),
      h3out x hx1 hx2 fun hxa => hx (h.mem_accepts x hxa)]

/-! ## The whole parse -/

theorem Forward.congr (h : Forward m x y l)
    (hsame : ∀ p k, (m'.block p).out k=(m.block p).out k) : Forward m' x y l := by
  induction l with
  | nil => exact h
  | cons p l ih =>
    refine ⟨fun k => ?_,ih h.2⟩
    rw [hsame p k]
    exact h.1 k

/-- Statements before a prefix make a longer prefix. -/
theorem prepend_prepend (v w : Plain) (hvw : ∀ st∈w.val++v.val, bpfClass (uShort st.code)≠bpfJmp)
    (c : Cond) : (c.prepend v).prepend w=c.prepend ⟨w.val++v.val,hvw⟩ := by
  induction c with
  | test t => simp only [Cond.prepend,List.append_assoc]
  | not c ih => exact congrArg Cond.not ih
  | and c d ih _ => exact congrArg (fun e => Cond.and e d) ih
  | or c d ih _ => exact congrArg (fun e => Cond.or e d) ih

/-- The statements of the link type come before the condition. -/
theorem Built.prepend (h : Built m c p order accepts rejects) (vloffsets : Plain) :
    Built (insertComputeVloffsets m vloffsets (m.block p).head) (c.prepend vloffsets) p order
      accepts rejects := by
  have hhead : (m.block p).head∈order := List.mem_of_head? h.head
  generalize hh : (m.block p).head=i at hhead
  generalize hm1 : insertComputeVloffsets m vloffsets i=m1
  have hself : m1.block i={m.block i with stmts:=vloffsets.val++(m.block i).stmts} := by
    rw [←hm1,insertComputeVloffsets,update_self]
  have hother : ∀ x, x≠i → m1.block x=m.block x := by
    intro x hx
    rw [←hm1,insertComputeVloffsets,update_ne _ hx]
  have hedges : ∀ x, (m1.block x).sense=(m.block x).sense ∧ (m1.block x).head=(m.block x).head ∧
      ∀ k, (m1.block x).out k=(m.block x).out k := by
    intro x
    by_cases hx : x=i
    · rw [hx,hself]
      exact ⟨rfl,rfl,fun _ => rfl⟩
    · rw [hother x hx]
      exact ⟨rfl,rfl,fun _ => rfl⟩
  have hlink : ∀ x, m1.link x=m.link x := by
    intro x
    rw [Chunks.link,Chunks.link,(hedges x).1,(hedges x).2.2]
  have hnext : m1.next=m.next := by rw [←hm1]; rfl
  refine ⟨h.nodup,fun x hx => ?_,?_,?_,?_,h.lists,h.subset,fun x hx => ?_,fun m2 x y hclose => ?_⟩
  · rw [hnext]
    exact h.below x hx
  · rw [(hedges p).2.1]
    exact h.head
  · rw [hlink]
    exact h.linkedTrue.congr fun x _ => hlink x
  · rw [(hedges p).1,(hedges p).2.2]
    exact h.linkedFalse.congr fun x _ => hlink x
  · obtain ⟨t,hstmts,hs⟩ := h.plain x hx
    by_cases hxi : x=i
    · rw [hxi] at hstmts hs
      refine ⟨⟨vloffsets.val++t.stmts,t.s,fun st hst => ?_,t.jumps,t.conditional⟩,?_⟩
      · exact (List.mem_append.mp hst).elim (vloffsets.property st) (t.straight st)
      · rw [hxi,hself]
        exact ⟨congrArg _ hstmts,hs⟩
    · rw [hother x hxi]
      exact ⟨t,hstmts,hs⟩
  · -- the memory without the prefix closes the exits of the condition itself
    generalize hm3 : m2.update i {m2.block i with stmts:=(m.block i).stmts}=m3
    have h3self : m3.block i={m2.block i with stmts:=(m.block i).stmts} := by
      rw [←hm3,update_self]
    have h3other : ∀ z, z≠i → m3.block z=m2.block z := by
      intro z hz
      rw [←hm3,update_ne _ hz]
    have h3out : ∀ z k, (m3.block z).out k=(m2.block z).out k := by
      intro z k
      by_cases hz : z=i
      · rw [hz,h3self]
        rfl
      · rw [h3other z hz]
    have hplain : Closes m m3 p order accepts rejects x y := by
      refine ⟨fun z hz => ?_,?_,fun z hz => ?_,fun z hz => ?_,fun z hz hnot k => ?_⟩
      · have hcode := hclose.code z hz
        by_cases hzi : z=i
        · rw [hzi] at hcode ⊢
          rw [hself] at hcode
          rw [h3self]
          exact ⟨rfl,hcode.2⟩
        · rw [h3other z hzi,←hother z hzi]
          exact hcode
      · rw [h3out,h3out,←(hedges p).1]
        exact hclose.own
      · rw [h3out,h3out,←(hedges z).2.2,←(hedges z).1]
        exact hclose.onTrue z hz
      · rw [h3out,h3out,←(hedges z).2.2,←(hedges z).1]
        exact hclose.onFalse z hz
      · rw [h3out,←(hedges z).2.2]
        exact hclose.rest z hz hnot k
    obtain ⟨-,hforward,hprepend⟩ := h.closed m3 x y hplain
    have hstmts : (m2.block i).stmts=vloffsets.val++(m.block i).stmts := by
      rw [(hclose.code i hhead).1,hself]
    have hagain : ∀ w : List Stmt, ∀ v : Plain, v.val=w++vloffsets.val → ∀ hw,
        insertComputeVloffsets m3 v i=insertComputeVloffsets m2 ⟨w,hw⟩ i := by
      intro w v hv hw
      refine chunks_ext (fun z => ?_) (by rw [←hm3]; rfl)
      by_cases hz : z=i
      · rw [hz,insertComputeVloffsets,insertComputeVloffsets,update_self,update_self,h3self,
          hstmts,hv,List.append_assoc]
      · rw [insertComputeVloffsets,insertComputeVloffsets,update_ne _ hz,update_ne _ hz,
          h3other z hz]
    have hnone : insertComputeVloffsets m2 ⟨[],fun st hst => absurd hst List.not_mem_nil⟩ i=m2 := by
      refine chunks_ext (fun z => ?_) rfl
      by_cases hz : z=i
      · rw [hz,insertComputeVloffsets,update_self,List.nil_append]
      · rw [insertComputeVloffsets,update_ne _ hz]
    rw [(hedges p).2.1,hh]
    rw [hh] at hprepend
    refine ⟨?_,hforward.congr fun z k => (h3out z k).symm,fun v => ?_⟩
    · have hflow := hprepend vloffsets
      rwa [hagain [] vloffsets rfl fun st hst => absurd hst List.not_mem_nil,hnone] at hflow
    · have hall : ∀ st∈v.val++vloffsets.val, bpfClass (uShort st.code)≠bpfJmp :=
        fun st hst => (List.mem_append.mp hst).elim (v.property st) (vloffsets.property st)
      have hflow := hprepend ⟨v.val++vloffsets.val,hall⟩
      rw [hagain v.val _ rfl v.property] at hflow
      rw [prepend_prepend vloffsets v hall]
      exact hflow

/-- The test of the link type is joined to what it is for. -/
theorem Built.addPpiCheck (h : Built m c p order accepts rejects) (ppi : Option Test) :
    ∃ m' order' accepts' rejects', BpfConditions.addPpiCheck m ppi p=some m' ∧
      Built m' (c.behind ppi) p order' accepts' rejects' ∧
      (∀ x∈order, x∈order') ∧ ∀ x, x∉order' → m'.block x=m.block x := by
  cases ppi with
  | none => exact ⟨m,order,accepts,rejects,rfl,h,fun _ hx => hx,fun _ _ => rfl⟩
  | some t =>
    have hsame : ∀ x∈order, (newBlock m t.stmts t.s).1.block x=m.block x := fun x hx =>
      Function.update_of_ne (Nat.ne_of_lt (h.below x hx)) _ _
    have hapart : Apart (newBlock m t.stmts t.s).1 (.test t) c m.next p [m.next] order [] []
        accepts rejects := by
      refine ⟨built_newBlock m t,h.frame hsame (Nat.le_succ _),fun x hx hx' => ?_⟩
      have hlt := h.below x hx'
      rw [List.mem_singleton.mp hx] at hlt
      exact lt_irrefl _ hlt
    obtain ⟨m1,hand,hj⟩ := hapart.genAnd_joined
    refine ⟨m1,_,_,_,hand,hapart.built_and hj,fun x => List.mem_append_right _,fun x hx => ?_⟩
    have hnew : x≠m.next := fun he => hx (he ▸ List.mem_cons_self)
    rw [hapart.same hj hx]
    exact Function.update_of_ne hnew _ _

/-- What the whole parse leaves: the graph of the condition, whose exits are two returns. -/
structure Parsed (m : Chunks) (snaplen : ℤ) (c : Cond) (root : ℕ) (order : List ℕ) (x y : ℕ) :
    Prop where
  /-- The edges lead as the condition says. -/
  flow : Flow m c root x y
  /-- They lead on. -/
  forward : Forward m x y order
  /-- No block comes twice. -/
  nodup : order.Nodup
  /-- The returns are none of them. -/
  exits : x∉order ∧ y∉order
  /-- Every block of the condition is a test. -/
  tests : ∀ q∈order, ∃ t : Test, (m.block q).stmts=t.stmts ∧ (m.block q).s=t.s
  /-- One return accepts. -/
  accept : m.block x=retBlock snaplen x
  /-- The other one rejects. -/
  reject : m.block y=retBlock 0 y
  /-- There are no other blocks. -/
  rest : ∀ q, q∉order → q≠x → q≠y → m.block q=noChunks.block q

theorem pcapParse_parsed (vloffsets : Plain) (ppi : Option Test) (snaplen : ℤ) (c : Cond) :
    ∃ m root order x y, pcapParse vloffsets ppi snaplen c=some (m,root) ∧
      Parsed m snaplen (wholeCond vloffsets ppi c) root order x y := by
  obtain ⟨m1,p,order1,accepts1,rejects1,hgen,hmade⟩ := gen_made c noChunks
  have hhead : (m1.block p).head∈order1 := List.mem_of_head? hmade.built.head
  obtain ⟨m2,order,accepts,rejects,hppi,hbuilt,hsub,hsame⟩ :=
    (hmade.built.prepend vloffsets).addPpiCheck ppi
  obtain ⟨m3,hreturns,hret⟩ := addReturns_returned hbuilt snaplen
  obtain ⟨hflow,hforward,-⟩ := hbuilt.closed m3 _ _ hret.closes
  refine ⟨m3,_,order,_,_,?_,hflow,hforward,hbuilt.nodup,⟨fun hx => ?_,fun hy => ?_⟩,
    fun q hq => ?_,hret.accept,hret.reject,fun q hq hx hy => ?_⟩
  · simp only [pcapParse,finishParse,hgen,hppi,hreturns,Option.bind_eq_bind,Option.bind_some]
  · exact lt_irrefl _ (hbuilt.below _ hx)
  · exact absurd (hbuilt.below _ hy) (Nat.not_lt.mpr (Nat.le_succ _))
  · obtain ⟨hstmts,hs⟩ := hret.closes.code q hq
    rw [hstmts,hs]
    exact hbuilt.plain q hq
  · have hold : q∉order1 := fun hq1 => hq (hsub q hq1)
    have hne : q≠(m1.block p).head := fun he => hold (he ▸ hhead)
    rw [hret.same q hq hx hy,hsame q hq,insertComputeVloffsets,update_ne _ hne]
    exact hmade.same q hold

/-! ## The graph for the code generator -/

/-- A block as the code generator reads it; its other fields are still zero. -/
def GenBlock.toBlock (b : GenBlock) : Block := ⟨b.stmts,b.s,b.jt,b.jf,0,0⟩

/-- How many blocks of a list there are from one of them on. -/
def rankIn : List ℕ → ℕ → ℕ
  | [],_ => 0
  | p::l,q => if q=p then l.length+1 else rankIn l q

theorem rankIn_le (l : List ℕ) (q : ℕ) : rankIn l q≤l.length := by
  induction l with
  | nil => exact le_rfl
  | cons p l ih =>
    rw [rankIn,List.length_cons]
    split
    · exact le_rfl
    · exact Nat.le_succ_of_le ih

theorem Forward.target (h : Forward m x y l) (hp : p∈l) (hout : (m.block p).out k=some q) :
    q∈l ∨ q=x ∨ q=y := by
  induction l with
  | nil => exact absurd hp List.not_mem_nil
  | cons z l ih =>
    have hlater : q∈l ∨ q=x ∨ q=y := by
      rcases List.mem_cons.mp hp with rfl | hp
      · obtain ⟨c,hc,hcase⟩ := h.1 k
        cases hc.symm.trans hout
        exact hcase
      · exact ih h.2 hp
    exact hlater.imp_left (List.mem_cons_of_mem z)

theorem Forward.edge (h : Forward m x y l) (hp : p∈l) (k : Bool) :
    ∃ q, (m.block p).out k=some q := by
  induction l with
  | nil => exact absurd hp List.not_mem_nil
  | cons z l ih =>
    rcases List.mem_cons.mp hp with rfl | hp
    · exact (h.1 k).imp fun _ hc => hc.1
    · exact ih h.2 hp

/-- Every edge goes to a lower rank. -/
theorem Forward.rankIn_lt (h : Forward m x y l) (hl : l.Nodup) (hexits : x∉l ∧ y∉l) (hp : p∈l)
    (hout : (m.block p).out k=some q) : rankIn l q<rankIn l p := by
  induction l with
  | nil => exact absurd hp List.not_mem_nil
  | cons z l ih =>
    obtain ⟨hz,hnodup⟩ := List.nodup_cons.mp hl
    have hx : x≠z ∧ x∉l := List.ne_and_not_mem_of_not_mem_cons hexits.1
    have hy : y≠z ∧ y∉l := List.ne_and_not_mem_of_not_mem_cons hexits.2
    have hlater : (q∈l ∨ q=x ∨ q=y) → q≠z := by
      rintro (hq | rfl | rfl) he
      · exact hz (he ▸ hq)
      · exact hx.1 he
      · exact hy.1 he
    rcases List.mem_cons.mp hp with rfl | hp
    · obtain ⟨c,hc,hcase⟩ := h.1 k
      cases hc.symm.trans hout
      rw [rankIn,rankIn,if_neg (hlater hcase),if_pos rfl]
      exact Nat.lt_succ_of_le (rankIn_le l q)
    · have hpz : p≠z := fun he => hz (he ▸ hp)
      rw [rankIn,rankIn,if_neg (hlater (h.2.target hp hout)),if_neg hpz]
      exact ih h.2 hnodup ⟨hx.2,hy.2⟩ hp

/-- A graph of the blocks that the parser leaves. -/
structure GraphOf (m : Chunks) (root : ℕ) (g : BlockGraph) : Prop where
  /-- It has the same blocks. -/
  block : ∀ p, g.block p=(m.block p).toBlock
  /-- It starts at the same one. -/
  root : g.root=root

namespace Parsed

variable {snaplen : ℤ} {root : ℕ} (h : Parsed m snaplen c root order x y)

include h

theorem out_eq_none (hp : p∉order) : (m.block p).jt=none ∧ (m.block p).jf=none ∧
    bpfClass (uShort (m.block p).s.code)=bpfRet ∧ (m.block p).stmts=[] := by
  by_cases hx : p=x
  · rw [hx,h.accept]
    exact ⟨rfl,rfl,rfl,rfl⟩
  · by_cases hy : p=y
    · rw [hy,h.reject]
      exact ⟨rfl,rfl,rfl,rfl⟩
    · rw [h.rest p hp hx hy]
      exact ⟨rfl,rfl,rfl,rfl⟩

theorem rank_lt (hout : (m.block p).out k=some q) : rankIn order q<rankIn order p := by
  by_cases hp : p∈order
  · exact h.forward.rankIn_lt h.nodup h.exits hp hout
  · obtain ⟨hjt,hjf,-⟩ := h.out_eq_none hp
    cases k with
    | false => cases hjt.symm.trans hout
    | true => cases hjf.symm.trans hout

/-- The blocks make a graph. -/
theorem exists_graph : ∃ g, GraphOf m root g :=
  ⟨⟨fun p => (m.block p).toBlock,root,rankIn order,fun _ _ hout => h.rank_lt (k:=false) hout,
    fun _ _ hout => h.rank_lt (k:=true) hout⟩,⟨fun _ => rfl,rfl⟩⟩

theorem straight {g : BlockGraph} (hg : GraphOf m root g) : g.Straight := by
  refine ⟨fun p st hst => ?_,fun p => ?_⟩
  · rw [hg.block p] at hst
    by_cases hp : p∈order
    · obtain ⟨t,hstmts,-⟩ := h.tests p hp
      exact t.straight st (hstmts ▸ hst)
    · have hnil : ((m.block p).toBlock).stmts=[] := (h.out_eq_none hp).2.2.2
      exact absurd (hnil ▸ hst) List.not_mem_nil
  · rw [hg.block p]
    by_cases hp : p∈order
    · obtain ⟨t,-,hs⟩ := h.tests p hp
      obtain ⟨a,ha⟩ := h.forward.edge hp false
      obtain ⟨b,hb⟩ := h.forward.edge hp true
      have hs' : (m.block p).toBlock.s=t.s := hs
      rw [hs']
      exact .inr ⟨a,b,ha,hb,t.jumps,t.conditional⟩
    · obtain ⟨hjt,hjf,hret,-⟩ := h.out_eq_none hp
      exact .inl ⟨hjt,hjf,hret⟩

end Parsed

section Run

variable {σ ρ : Type} {M : Machine σ ρ} {g : BlockGraph}

/-- What is left to do behind a condition. -/
def after (M : Machine σ ρ) (g : BlockGraph) (x y : ℕ) :
    List Event×Except ρ (Bool×σ) → List Event×Option ρ
  | (events,.error r) => (events,some r)
  | (events,.ok (value,s)) =>
    let rest := M.runBlock g (some (if value then x else y)) s
    (events++rest.1,rest.2)

theorem after_append (events : List Event) (done : List Event×Except ρ (Bool×σ)) :
    after M g x y (events++done.1,done.2)=
      (events++(after M g x y done).1,(after M g x y done).2) := by
  rcases done with ⟨more,_ | ⟨value,s⟩⟩
  · rfl
  · simp only [after,List.append_assoc]

/-- From the head of a condition the graph does what its value asks for. -/
theorem Flow.run {h : ℕ} (hflow : Flow m c h x y) (hg : ∀ p, g.block p=(m.block p).toBlock)
    (s : σ) : M.runBlock g (some h) s=after M g x y (eval M c s) := by
  induction hflow generalizing s with
  | @test t h x y hstmts hs hjt hjf =>
    have hb : g.block h=⟨t.stmts,t.s,some x,some y,0,0⟩ := by
      rw [hg h,GenBlock.toBlock,hstmts,hs,hjt,hjf]
    rw [Machine.runBlock,hb,eval]
    dsimp only
    cases M.runStmts t.stmts s with
    | mk events outcome =>
      cases outcome with
      | error r => rfl
      | ok s' =>
        dsimp only [after]
        rw [if_pos t.jumps]
        cases htest : M.test (uShort t.s.code) (uInt32 t.s.k) s' with
        | false => simp only [Bool.false_eq_true,if_false,List.append_assoc,List.singleton_append]
        | true => simp only [if_true,List.append_assoc,List.singleton_append]
  | @not c h x y hc ih =>
    rw [ih s,eval]
    rcases eval M c s with ⟨events,_ | ⟨_ | _,s'⟩⟩
    · rfl
    · rfl
    · rfl
  | @and c d h i x y hc hd ihc ihd =>
    rw [ihc s,eval]
    rcases eval M c s with ⟨events,_ | ⟨_ | _,s'⟩⟩
    · rfl
    · rfl
    · dsimp only [after]
      rw [if_pos rfl,ihd s']
      exact (after_append events _).symm
  | @or c d h i x y hc hd ihc ihd =>
    rw [ihc s,eval]
    rcases eval M c s with ⟨events,_ | ⟨_ | _,s'⟩⟩
    · rfl
    · dsimp only [after]
      rw [if_neg Bool.false_ne_true,ihd s']
      exact (after_append events _).symm
    · rfl

/-- A return block ends the filter with its constant. -/
theorem runBlock_retBlock {v : ℤ} (hg : g.block p=(retBlock v p).toBlock) (s : σ) :
    M.runBlock g (some p) s=([.stmt bpfRet (uInt32 v)],
      match M.exec bpfRet (uInt32 v) s with
      | .error r => some r
      | .ok _ => none) := by
  have hcode : uShort 6=bpfRet := rfl
  have hjmp : bpfClass bpfRet≠bpfJmp := by decide
  rw [Machine.runBlock,hg]
  simp only [GenBlock.toBlock,retBlock,Machine.runStmts,hcode,if_neg hjmp,List.nil_append]
  cases M.exec bpfRet (uInt32 v) s with
  | error r => rfl
  | ok s' => rfl

theorem Parsed.run {snaplen : ℤ} {root : ℕ} (h : Parsed m snaplen c root order x y)
    (hg : GraphOf m root g) (s : σ) : M.runBlock g (some root) s=verdict M snaplen c s := by
  have haccept : g.block x=(retBlock snaplen x).toBlock := by rw [hg.block,h.accept]
  have hreject : g.block y=(retBlock 0 y).toBlock := by rw [hg.block,h.reject]
  rw [h.flow.run hg.block s,verdict]
  rcases eval M c s with ⟨events,_ | ⟨_ | _,s'⟩⟩
  · rfl
  · simp only [after,Bool.false_eq_true,if_false,runBlock_retBlock hreject]
  · simp only [after,if_true,runBlock_retBlock haccept]

end Run

end AndroidPlatform.BpfConditions
