import Mathlib.Data.Int.ModEq
import Mathlib.Data.Finset.Insert

/-!
# Block graphs and linear programs of the packet filter compiler

The filter compiler works on a graph of blocks (`gencode.h`): straight-line
statements, then a conditional jump to two further blocks or a return. The
packet filter itself runs a linear program (`pcap/bpf.h`) whose conditional
jumps skip at most 255 instructions and whose unconditional jump skips any
number. Both are run here on the same machine; the instructions that are
not jumps are a parameter, since the interpreter is no part of the library.
-/

namespace AndroidPlatform.BpfProgram

/-- `NOP`, the code of a statement that the optimiser has removed. -/
def nop : ℤ := -1

/-- `BPF_CLASS` of an opcode. -/
def bpfClass (code : ℕ) : ℕ := code%8

/-- `BPF_JMP` -/
def bpfJmp : ℕ := 5

/-- `BPF_RET` -/
def bpfRet : ℕ := 6

/-- `BPF_JMP|BPF_JA` -/
def bpfJmpJa : ℕ := 5

/-- The conversion to `u_short`. -/
def uShort (code : ℤ) : ℕ := (code%65536).toNat

/-- The conversion to `u_char`. -/
def uChar (n : ℤ) : ℕ := (n%256).toNat

/-- The conversion to `bpf_u_int32`. -/
def uInt32 (k : ℤ) : ℕ := (k%4294967296).toNat

/-- `struct stmt`; a pointer to a statement of the same list is its place there. -/
structure Stmt where
  /-- The opcode, or `NOP`. -/
  code : ℤ
  /-- The statement a block-local jump goes to when it is taken. -/
  jt : Option ℕ
  /-- The statement a block-local jump goes to when it is not taken. -/
  jf : Option ℕ
  /-- The constant operand. -/
  k : ℤ

/-- `struct block`, as far as the code generator reads it. -/
structure Block where
  /-- `stmts`, the statements before the branch. -/
  stmts : List Stmt
  /-- `s`, the branch or return statement. -/
  s : Stmt
  /-- `JT`, the successor when the branch is taken. -/
  jt : Option ℕ
  /-- `JF`, the successor when it is not. -/
  jf : Option ℕ
  /-- `longjt`, set when the jump to `JT` needs an instruction of its own. -/
  longjt : ℕ
  /-- `longjf`, set when the jump to `JF` needs an instruction of its own. -/
  longjf : ℕ

/-- An acyclic graph of blocks, with a block for every address. -/
structure BlockGraph where
  /-- The block at an address. -/
  block : ℕ → Block
  /-- Where the filter starts. -/
  root : ℕ
  /-- A number that every edge lowers, since no path returns to where it was. -/
  rank : ℕ → ℕ
  /-- The edge of a branch that is taken lowers it. -/
  rank_jt : ∀ p c, (block p).jt=some c → rank c<rank p
  /-- The edge of a branch that is not taken lowers it. -/
  rank_jf : ∀ p c, (block p).jf=some c → rank c<rank p

namespace BlockGraph

/-- How far a recursion over the edges still goes from a pointer to a block. -/
def height (g : BlockGraph) : Option ℕ → ℕ
  | none => 0
  | some p => g.rank p+1

theorem height_jt (g : BlockGraph) (p : ℕ) : g.height (g.block p).jt<g.rank p+1 := by
  cases hc : (g.block p).jt with
  | none => exact Nat.succ_pos _
  | some c => exact Nat.succ_lt_succ (g.rank_jt p c hc)

theorem height_jf (g : BlockGraph) (p : ℕ) : g.height (g.block p).jf<g.rank p+1 := by
  cases hc : (g.block p).jf with
  | none => exact Nat.succ_pos _
  | some c => exact Nat.succ_lt_succ (g.rank_jf p c hc)

/-- The successors of a block. -/
def succ (g : BlockGraph) (p : ℕ) : List ℕ := (g.block p).jf.toList++(g.block p).jt.toList

/-- The blocks some path from the root leads to. -/
def Reached (g : BlockGraph) : ℕ → Prop := Relation.ReflTransGen (fun p c => c∈g.succ p) g.root

/-- The statements of the blocks contain no jumps, and a block ends in a
conditional jump to two blocks or in a return. -/
structure Straight (g : BlockGraph) : Prop where
  /-- No statement before the branch is a jump. -/
  stmts : ∀ p, ∀ s∈(g.block p).stmts, bpfClass (uShort s.code)≠bpfJmp
  /-- A block returns or branches two ways. -/
  ends : ∀ p, ((g.block p).jt=none ∧ (g.block p).jf=none ∧
      bpfClass (uShort (g.block p).s.code)=bpfRet) ∨
    ∃ t f, (g.block p).jt=some t ∧ (g.block p).jf=some f ∧
      bpfClass (uShort (g.block p).s.code)=bpfJmp ∧ uShort (g.block p).s.code≠bpfJmpJa

end BlockGraph

/-- `struct bpf_insn` -/
@[ext]
structure BpfInsn where
  /-- The opcode. -/
  code : ℕ
  /-- Instructions to skip when a conditional jump is taken. -/
  jt : ℕ
  /-- Instructions to skip when it is not taken. -/
  jf : ℕ
  /-- The constant operand. -/
  k : ℕ
  deriving DecidableEq

/-- What a machine with states `σ` and results `ρ` does on instructions that
do not jump; a packet is part of the state. -/
structure Machine (σ ρ : Type) where
  /-- An instruction by its opcode and operand: the next state, or the result it ends with. -/
  exec : ℕ → ℕ → σ → Except ρ σ
  /-- The condition of a conditional jump. -/
  test : ℕ → ℕ → σ → Bool
  /-- A return ends the filter. -/
  ret : ∀ code k s, bpfClass code=bpfRet → ∃ r, exec code k s=.error r

/-- What a filter does one after the other. -/
inductive Event where
  /-- It executes a statement. -/
  | stmt (code k : ℕ)
  /-- It decides a branch. -/
  | branch (code k : ℕ) (taken : Bool)
  deriving DecidableEq

namespace Machine

variable {σ ρ : Type} (M : Machine σ ρ)

/-- Execute the statements of a block: the events, and the state behind them
or the result if the filter ends at one of them. -/
def runStmts : List Stmt → σ → List Event×Except ρ σ
  | [],s => ([],.ok s)
  | st::rest,s =>
    if st.code=nop then runStmts rest s
    else
      match M.exec (uShort st.code) (uInt32 st.k) s with
      | .error r => ([.stmt (uShort st.code) (uInt32 st.k)],.error r)
      | .ok s' =>
        (.stmt (uShort st.code) (uInt32 st.k)::(runStmts rest s').1,(runStmts rest s').2)

/-- Run the graph from a block: all events, and the result unless the run
leaves the graph. -/
def runBlock (g : BlockGraph) (p : Option ℕ) (s : σ) : List Event×Option ρ :=
  match p with
  | none => ([],none)
  | some p =>
    match M.runStmts (g.block p).stmts s with
    | (events,.error r) => (events,some r)
    | (events,.ok s') =>
      let code := uShort (g.block p).s.code
      let k := uInt32 (g.block p).s.k
      if bpfClass code=bpfJmp then
        if M.test code k s' then
          let rest := runBlock g (g.block p).jt s'
          (events++.branch code k true::rest.1,rest.2)
        else
          let rest := runBlock g (g.block p).jf s'
          (events++.branch code k false::rest.1,rest.2)
      else
        match M.exec code k s' with
        | .error r => (events++[.stmt code k],some r)
        | .ok _ => (events++[.stmt code k],none)
termination_by g.height p
decreasing_by
  · exact g.height_jt p
  · exact g.height_jf p

/-- Run a linear program from an instruction: all events, and the result
unless the run leaves the program. Unconditional jumps are no events. -/
def run (prog : List BpfInsn) (pc : ℕ) (s : σ) : List Event×Option ρ :=
  if h : pc<prog.length then
    let insn := prog[pc]
    if bpfClass insn.code=bpfJmp then
      if insn.code=bpfJmpJa then run prog (pc+1+insn.k) s
      else if M.test insn.code insn.k s then
        let rest := run prog (pc+1+insn.jt) s
        (.branch insn.code insn.k true::rest.1,rest.2)
      else
        let rest := run prog (pc+1+insn.jf) s
        (.branch insn.code insn.k false::rest.1,rest.2)
    else
      match M.exec insn.code insn.k s with
      | .error r => ([.stmt insn.code insn.k],some r)
      | .ok s' =>
        let rest := run prog (pc+1) s'
        (.stmt insn.code insn.k::rest.1,rest.2)
  else ([],none)
termination_by prog.length-pc

variable {M} {prog : List BpfInsn} {pc : ℕ} {insn : BpfInsn} {s : σ}

/-- An unconditional jump goes to its target without an event. -/
theorem run_ja (h : prog[pc]?=some insn) (hcode : insn.code=bpfJmpJa) :
    M.run prog pc s=M.run prog (pc+1+insn.k) s := by
  obtain ⟨hlt,hget⟩ := List.getElem?_eq_some_iff.mp h
  rw [run,dif_pos hlt,hget,if_pos (by rw [hcode]; rfl),if_pos hcode]

/-- A conditional jump goes to the target of its decision. -/
theorem run_branch (h : prog[pc]?=some insn) (hclass : bpfClass insn.code=bpfJmp)
    (hcode : insn.code≠bpfJmpJa) :
    M.run prog pc s=
      if M.test insn.code insn.k s then
        (.branch insn.code insn.k true::(M.run prog (pc+1+insn.jt) s).1,
          (M.run prog (pc+1+insn.jt) s).2)
      else
        (.branch insn.code insn.k false::(M.run prog (pc+1+insn.jf) s).1,
          (M.run prog (pc+1+insn.jf) s).2) := by
  obtain ⟨hlt,hget⟩ := List.getElem?_eq_some_iff.mp h
  rw [run,dif_pos hlt,hget,if_pos hclass,if_neg hcode]

/-- Any other instruction is executed and the next one follows. -/
theorem run_exec (h : prog[pc]?=some insn) (hclass : bpfClass insn.code≠bpfJmp) :
    M.run prog pc s=
      match M.exec insn.code insn.k s with
      | .error r => ([.stmt insn.code insn.k],some r)
      | .ok s' => (.stmt insn.code insn.k::(M.run prog (pc+1) s').1,(M.run prog (pc+1) s').2) := by
  obtain ⟨hlt,hget⟩ := List.getElem?_eq_some_iff.mp h
  rw [run,dif_pos hlt,hget,if_neg hclass]

end Machine

end AndroidPlatform.BpfProgram
