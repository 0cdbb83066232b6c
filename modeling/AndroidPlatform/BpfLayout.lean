import AndroidPlatform.BpfProgram
import AndroidPlatform.MarkedTraversal
import Mathlib.Algebra.BigOperators.Group.Finset.Basic
import Mathlib.Algebra.Order.BigOperators.Group.Finset

/-!
# Laying out a block graph as a linear program

`icode_to_fcode` of `optimize.c` counts the instructions of the graph and
then fills a program of that length backwards: a block is placed in front of
all blocks it leads to, so every jump is forward. A conditional jump that
would skip more than 255 instructions sets a flag in its block that makes
room for an unconditional jump, and the layout starts again.

The counters are natural numbers: every instruction stands for a statement
or a block in memory, so that they stay far below the width of `u_int`.
-/

namespace AndroidPlatform.BpfLayout

open BpfProgram

/-- The flags `longjt` and `longjf` of the blocks while layouts are tried. -/
structure LongJumps where
  /-- `longjt` -/
  jt : ℕ → ℕ
  /-- `longjf` -/
  jf : ℕ → ℕ

/-- Why a layout is not completed. -/
inductive Stop where
  /-- `bpf_error` with `ljerr`: its first argument and the statement's place. -/
  | ljerr (what : String) (off : ℕ)
  /-- A pointer that is followed is null. -/
  | nullBlock
  /-- `return(0)`: a flag has been set and the layout has to be tried again. -/
  | retry (long : LongJumps)

/-- `slength` -/
def slength (stmts : List Stmt) : ℕ := stmts.countP (fun st => st.code≠nop)

/-- `count_stmts`, with the marks before and after. -/
def countStmts (g : BlockGraph) (long : LongJumps) (p : Option ℕ) (marked : Finset ℕ) :
    ℕ×Finset ℕ :=
  match p with
  | none => (0,marked)
  | some p =>
    if p∈marked then (0,marked)
    else
      let t := countStmts g long (g.block p).jt (insert p marked)
      let f := countStmts g long (g.block p).jf t.2
      (slength (g.block p).stmts+(t.1+f.1)+1+long.jt p+long.jf p,f.2)
termination_by g.height p
decreasing_by
  · exact g.height_jt p
  · exact g.height_jf p

/-- The displacement of a block-local jump at instruction `off` to a statement.
Only the first `slen` statements are looked through. -/
def localJump (slen off : ℕ) (target : ℕ) : Except Stop ℕ :=
  if target < slen then .ok (uChar ((target : ℤ)-off-1))
  else .error (.ljerr "no destination found" off)

/-- One statement that is not a `NOP`, as instruction `off` of its block. -/
def fillStmt (slen off : ℕ) (src : Stmt) : Except Stop BpfInsn :=
  if src.code%8≠bpfJmp ∨ src.code=bpfJmpJa then
    .ok ⟨uShort src.code,0,0,uInt32 src.k⟩
  else if off+2=slen then .ok ⟨uShort src.code,0,0,uInt32 src.k⟩
  else
    match src.jt,src.jf with
    | some t,some f => do
      let jt ← localJump slen off t
      let jf ← localJump slen off f
      .ok ⟨uShort src.code,jt,jf,uInt32 src.k⟩
    | _,_ => .error (.ljerr "no jmp destination" off)

/-- The loop over the statements of a block. -/
def fillStmts (slen : ℕ) : ℕ → List Stmt → Except Stop (List BpfInsn)
  | _,[] => .ok []
  | off,src::rest =>
    if src.code=nop then fillStmts slen off rest
    else do
      let insn ← fillStmt slen off src
      let insns ← fillStmts slen (off+1) rest
      .ok (insn::insns)

/-- An instruction of the zeroed buffer. -/
def zeroInsn : BpfInsn := ⟨0,0,0,0⟩

/-- A jump that skips `off` instructions from a block's branch, with the flag
of the block and the extra jumps placed before it: its displacement, and the
extra jump it goes through. Without room for that there is none. -/
def placeJump (long extrajmps off : ℕ) : Option (ℕ×List BpfInsn) :=
  if 256≤off then
    if long=0 then none
    else some (uChar extrajmps,[⟨bpfJmpJa,0,0,off-(extrajmps+1)⟩])
  else some (uChar off,[])

/-- `p->longjt++` -/
def LongJumps.raiseJt (long : LongJumps) (p : ℕ) : LongJumps :=
  { long with jt := Function.update long.jt p (long.jt p+1) }

/-- `p->longjf++` -/
def LongJumps.raiseJf (long : LongJumps) (p : ℕ) : LongJumps :=
  { long with jf := Function.update long.jf p (long.jf p+1) }

/-- The branch of block `p` at instruction `pc`, and the extra jumps behind it. -/
def fillBranch (long : LongJumps) (p pc code k jtOffset jfOffset : ℕ) :
    Except Stop (List BpfInsn) :=
  match placeJump (long.jt p) 0 (jtOffset-pc-1) with
  | none => .error (.retry (long.raiseJt p))
  | some (jt,jas) =>
    match placeJump (long.jf p) jas.length (jfOffset-pc-1) with
    | none => .error (.retry (long.raiseJf p))
    | some (jf,jas') => .ok (⟨code,jt,jf,k⟩::(jas++jas'))

/-- How far a layout has come. -/
structure Layout where
  /-- The blocks with a mark. -/
  marked : Finset ℕ
  /-- `offset` of the blocks. -/
  offset : ℕ → ℕ
  /-- The program from `ftail` to its end. -/
  code : List BpfInsn

/-- The room that is left for a block in front of `ftail`. -/
def blockSize (g : BlockGraph) (long : LongJumps) (p : ℕ) : ℕ :=
  slength (g.block p).stmts+1+long.jt p+long.jf p

/-- The branch or return of block `p` at instruction `pc`, with its extra jumps. -/
def fillEnd (g : BlockGraph) (long : LongJumps) (offset : ℕ → ℕ) (p pc : ℕ) :
    Except Stop (List BpfInsn) :=
  match (g.block p).jt,(g.block p).jf with
  | some t,some f =>
    fillBranch long p pc (uShort (g.block p).s.code) (uInt32 (g.block p).s.k) (offset t) (offset f)
  | some _,none => .error .nullBlock
  | none,_ => .ok [⟨uShort (g.block p).s.code,0,0,uInt32 (g.block p).s.k⟩]

/-- The instructions of block `p` when it starts at `start`; what its
branch does not use of its room stays zero. -/
def blockCode (g : BlockGraph) (long : LongJumps) (offset : ℕ → ℕ) (p start : ℕ) :
    Except Stop (List BpfInsn) := do
  let stmts ← fillStmts (slength (g.block p).stmts) 0 (g.block p).stmts
  let branch ← fillEnd g long offset p (start+slength (g.block p).stmts)
  .ok (stmts++(branch++List.replicate (1+long.jt p+long.jf p-branch.length) zeroInsn))

/-- The part of `convert_code_r` behind the recursion: place block `p` in
front of what is placed already. -/
def placeBlock (g : BlockGraph) (long : LongJumps) (n p : ℕ) (l : Layout) :
    Except Stop Layout := do
  let start := n-(l.code.length+blockSize g long p)
  let offset := fun q => if q=p then start else l.offset q
  let block ← blockCode g long offset p start
  .ok ⟨l.marked,offset,block++l.code⟩

/-- `convert_code_r` in a program of `n` instructions. -/
def convertCodeR (g : BlockGraph) (long : LongJumps) (n : ℕ) (p : Option ℕ) (l : Layout) :
    Except Stop Layout :=
  match p with
  | none => .ok l
  | some p =>
    if p∈l.marked then .ok l
    else do
      let l ← convertCodeR g long n (g.block p).jf { l with marked := insert p l.marked }
      let l ← convertCodeR g long n (g.block p).jt l
      placeBlock g long n p l
termination_by g.height p
decreasing_by
  · exact g.height_jf p
  · exact g.height_jt p

/-- One try of `icode_to_fcode`: count, allocate and fill. -/
def tryLayout (g : BlockGraph) (long : LongJumps) : Except Stop Layout :=
  convertCodeR g long (countStmts g long (some g.root) ∅).1 (some g.root) ⟨∅,fun _ => 0,[]⟩

theorem bind_eq_ok {ε α β : Type} {x : Except ε α} {f : α → Except ε β} {b : β} :
    x >>= f=.ok b ↔ ∃ a, x=.ok a ∧ f a=.ok b := by
  cases x with
  | error e => simp [bind,Except.bind]
  | ok a => simp [bind,Except.bind]

theorem bind_eq_error {ε α β : Type} {x : Except ε α} {f : α → Except ε β} {e : ε} :
    x >>= f=.error e ↔ x=.error e ∨ ∃ a, x=.ok a ∧ f a=.error e := by
  cases x with
  | error e => simp [bind,Except.bind]
  | ok a => simp [bind,Except.bind]

/-! ## Counting -/

theorem mem_succ {g : BlockGraph} {p c : ℕ} :
    c∈g.succ p ↔ (g.block p).jt=some c ∨ (g.block p).jf=some c := by
  simp only [BlockGraph.succ,List.mem_append,Option.mem_toList,or_comm]

/-- The count marks what the block leads to. -/
theorem countStmts_visits (g : BlockGraph) (long : LongJumps) (p : Option ℕ)
    (marked : Finset ℕ) :
    MarkedTraversal.Visits g.succ p.toList marked (countStmts g long p marked).2 := by
  induction p,marked using countStmts.induct g long with
  | case1 marked =>
    rw [countStmts]
    exact .of_marked (by simp)
  | case2 marked p hmem =>
    rw [countStmts,if_pos hmem]
    exact .of_marked (by simpa using hmem)
  | case3 marked p hmem t iht ihf =>
    rw [countStmts,if_neg hmem]
    refine .enter (fun x => ?_) (iht.append ihf)
    simp only [mem_succ,List.mem_append,Option.mem_toList]

/-- What is counted is the room of the blocks it marks. -/
theorem countStmts_sum (g : BlockGraph) (long : LongJumps) (p : Option ℕ) (marked : Finset ℕ) :
    (countStmts g long p marked).1+∑ x∈marked, blockSize g long x=
      ∑ x∈(countStmts g long p marked).2, blockSize g long x := by
  induction p,marked using countStmts.induct g long with
  | case1 marked =>
    rw [countStmts]
    exact Nat.zero_add _
  | case2 marked p hmem =>
    rw [countStmts,if_pos hmem]
    exact Nat.zero_add _
  | case3 marked p hmem t iht ihf =>
    rw [countStmts,if_neg hmem]
    rw [Finset.sum_insert hmem,blockSize] at iht
    rw [← ihf,← iht]
    dsimp only [t]
    omega

/-- The blocks that a layout places. -/
def reached (g : BlockGraph) : Finset ℕ :=
  (countStmts g ⟨fun _ => 0,fun _ => 0⟩ (some g.root) ∅).2

theorem countStmts_root (g : BlockGraph) (long : LongJumps) :
    (countStmts g long (some g.root) ∅).2=reached g :=
  (countStmts_visits g long (some g.root) ∅).unique (countStmts_visits g _ (some g.root) ∅)

theorem root_mem_reached (g : BlockGraph) : g.root∈reached g :=
  (countStmts_visits g _ (some g.root) ∅).start_mem g.root (by simp)

theorem reached_closed (g : BlockGraph) : ∀ x∈reached g, ∀ y∈g.succ x, y∈reached g :=
  (countStmts_visits g _ (some g.root) ∅).closed_of_empty

/-- The length of the program that is allocated. -/
theorem countStmts_total (g : BlockGraph) (long : LongJumps) :
    (countStmts g long (some g.root) ∅).1=∑ x∈reached g, blockSize g long x := by
  have hsum := countStmts_sum g long (some g.root) ∅
  rwa [countStmts_root,Finset.sum_empty,Nat.add_zero] at hsum

/-! ## Trying again -/

/-- A flag of a block that was not set is now set. -/
def Raised (long : LongJumps) (p : ℕ) (long' : LongJumps) : Prop :=
  (long.jt p=0 ∧ long'=long.raiseJt p) ∨ (long.jf p=0 ∧ long'=long.raiseJf p)

theorem placeJump_none {long extrajmps off : ℕ} (h : placeJump long extrajmps off=none) :
    long=0 := by
  unfold placeJump at h
  split_ifs at h with hfar hlong
  exact hlong

theorem fillBranch_error {long : LongJumps} {p pc code k jtOffset jfOffset : ℕ} {stop : Stop}
    (h : fillBranch long p pc code k jtOffset jfOffset=.error stop) :
    ∃ long', stop=.retry long' ∧ Raised long p long' := by
  unfold fillBranch at h
  split at h
  · rename_i hjt
    cases h
    exact ⟨_,rfl,Or.inl ⟨placeJump_none hjt,rfl⟩⟩
  · split at h
    · rename_i hjf
      cases h
      exact ⟨_,rfl,Or.inr ⟨placeJump_none hjf,rfl⟩⟩
    · cases h

theorem localJump_error {slen off target : ℕ} {stop : Stop}
    (h : localJump slen off target=.error stop) : ∀ long', stop≠.retry long' := by
  unfold localJump at h
  split_ifs at h
  cases h
  exact fun _ hf => by cases hf

theorem fillStmt_error {slen off : ℕ} {src : Stmt} {stop : Stop}
    (h : fillStmt slen off src=.error stop) : ∀ long', stop≠.retry long' := by
  unfold fillStmt at h
  split_ifs at h
  split at h
  · rcases bind_eq_error.mp h with h | ⟨jt,-,h⟩
    · exact localJump_error h
    · rcases bind_eq_error.mp h with h | ⟨jf,-,h⟩
      · exact localJump_error h
      · cases h
  · cases h
    exact fun _ hf => by cases hf

theorem fillStmts_error {slen off : ℕ} {stmts : List Stmt} {stop : Stop}
    (h : fillStmts slen off stmts=.error stop) : ∀ long', stop≠.retry long' := by
  induction stmts generalizing off with
  | nil => cases h
  | cons src rest ih =>
    rw [fillStmts] at h
    split_ifs at h
    · exact ih h
    · rcases bind_eq_error.mp h with h | ⟨insn,-,h⟩
      · exact fillStmt_error h
      · rcases bind_eq_error.mp h with h | ⟨insns,-,h⟩
        · exact ih h
        · cases h

/-- A block asks for another try only after setting one of its flags. -/
theorem placeBlock_retry {g : BlockGraph} {long long' : LongJumps} {n p : ℕ} {l : Layout}
    (h : placeBlock g long n p l=.error (.retry long')) : Raised long p long' := by
  rcases bind_eq_error.mp h with h | ⟨block,-,h⟩
  · rcases bind_eq_error.mp h with h | ⟨stmts,-,h⟩
    · exact absurd rfl (fillStmts_error h long')
    · rcases bind_eq_error.mp h with h | ⟨branch,-,h⟩
      · unfold fillEnd at h
        split at h
        · obtain ⟨raised,heq,hraised⟩ := fillBranch_error h
          cases heq
          exact hraised
        · cases h
        · cases h
      · cases h
  · cases h

/-- Another try is asked for only after setting a flag of a block that the
layout came to. -/
theorem convertCodeR_retry {g : BlockGraph} {long long' : LongJumps} {n : ℕ} {p : Option ℕ}
    {l : Layout} (hretry : convertCodeR g long n p l=.error (.retry long')) {C : Finset ℕ}
    (hp : ∀ x∈p.toList, x∈C) (hC : ∀ x∈C, ∀ y∈g.succ x, y∈C) :
    ∃ q∈C, Raised long q long' := by
  generalize hsize : g.height p=size
  induction size using Nat.strong_induction_on generalizing p l with
  | h size ih =>
    cases p with
    | none =>
      rw [convertCodeR] at hretry
      cases hretry
    | some p =>
      have hpC : p∈C := hp p (by simp)
      rw [convertCodeR] at hretry
      split_ifs at hretry
      rcases bind_eq_error.mp hretry with h | ⟨l1,-,h⟩
      · refine ih _ ?_ h (fun x hx => hC p hpC x (mem_succ.mpr (Or.inr (by simpa using hx)))) rfl
        rw [← hsize]
        exact g.height_jf p
      · rcases bind_eq_error.mp h with h | ⟨l2,-,h⟩
        · refine ih _ ?_ h (fun x hx => hC p hpC x (mem_succ.mpr (Or.inl (by simpa using hx)))) rfl
          rw [← hsize]
          exact g.height_jt p
        · exact ⟨p,hpC,placeBlock_retry h⟩

/-- How many flags are not set. -/
def unset (g : BlockGraph) (long : LongJumps) : ℕ :=
  ∑ p∈reached g, ((1-long.jt p)+(1-long.jf p))

theorem unset_raised {g : BlockGraph} {long long' : LongJumps} {q : ℕ} (hq : q∈reached g)
    (h : Raised long q long') : unset g long'<unset g long := by
  refine Finset.sum_lt_sum (fun p _ => ?_) ⟨q,hq,?_⟩
  · rcases h with ⟨-,rfl⟩ | ⟨-,rfl⟩
    · have hle : long.jt p≤(long.raiseJt q).jt p := by
        by_cases hpq : p=q
        · simp [LongJumps.raiseJt,hpq]
        · simp [LongJumps.raiseJt,Function.update_of_ne hpq]
      exact Nat.add_le_add_right (Nat.sub_le_sub_left hle 1) _
    · have hle : long.jf p≤(long.raiseJf q).jf p := by
        by_cases hpq : p=q
        · simp [LongJumps.raiseJf,hpq]
        · simp [LongJumps.raiseJf,Function.update_of_ne hpq]
      exact Nat.add_le_add_left (Nat.sub_le_sub_left hle 1) _
  · rcases h with ⟨hzero,rfl⟩ | ⟨hzero,rfl⟩
    · simp [LongJumps.raiseJt,hzero]
    · simp [LongJumps.raiseJf,hzero]

/-- Every further try starts with fewer flags that are not set. -/
theorem tryLayout_retry {g : BlockGraph} {long long' : LongJumps}
    (h : tryLayout g long=.error (.retry long')) : unset g long'<unset g long := by
  obtain ⟨q,hq,hraised⟩ := convertCodeR_retry h (C := reached g)
    (by simpa using root_mem_reached g) (reached_closed g)
  exact unset_raised hq hraised

/-- The loop of `icode_to_fcode`; the flags that were set stay set. -/
def layoutLoop (g : BlockGraph) (long : LongJumps) : Except Stop (List BpfInsn) :=
  match h : tryLayout g long with
  | .ok l =>
    .ok (List.replicate ((countStmts g long (some g.root) ∅).1-l.code.length) zeroInsn++l.code)
  | .error (.retry long') => layoutLoop g long'
  | .error stop => .error stop
termination_by unset g long
decreasing_by exact tryLayout_retry h

/-- `icode_to_fcode`: the program, whose length is what `lenp` receives. -/
def icodeToFcode (g : BlockGraph) : Except Stop (List BpfInsn) :=
  layoutLoop g ⟨fun p => (g.block p).longjt,fun p => (g.block p).longjf⟩

end AndroidPlatform.BpfLayout
