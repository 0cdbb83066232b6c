import AndroidPlatform.LibiptcParse
import Mathlib.Data.List.Range

/-!
# Counters through a commit

`TC_COMMIT` numbers the entries anew, compiles them into one block, has the
kernel replace the table, which gives back the counters of the old entries, and
builds the counters to add to the new entries. Old indices, new indices and
the counters meet only in `mappos`, `index` and `foot_index`. A ledger that the
calls keep for every rule says which counters the rule is to have, and the
counters that are built are those of the ledger.
-/

namespace AndroidPlatform.LibiptcCommit

open WireBytes Libiptc LibiptcRuleset LibiptcParse

/-! ## Compiling a table -/

/-- `IPTCB_CHAIN_START_SIZE` -/
def chainStartSize : ℕ := 176

/-- `IPTCB_CHAIN_FOOT_SIZE` -/
def chainFootSize : ℕ := 152

/-- `IPTCB_CHAIN_ERROR_SIZE` -/
def chainErrorSize : ℕ := 176

/-- The loop of `iptcc_compile_chain_offsets` over the rules. -/
def compileRuleOffsets (offset num : ℕ) : List Rule → List Rule×ℕ×ℕ
  | [] => ([],offset,num)
  | r::rules =>
    let rest := compileRuleOffsets (offset+r.size) (num+1) rules
    ({r with offset := offset, index := num}::rest.1,rest.2)

/-- `iptcc_compile_chain_offsets`: the chain, the next offset and the next
index. -/
def compileChainOffsets (c : Chain) (offset num : ℕ) : Chain×ℕ×ℕ :=
  let start := if c.hooknum=0 then (offset+chainStartSize,num+1) else (offset,num)
  let rules := compileRuleOffsets start.1 start.2 c.rules
  ({c with
    headOffset := offset
    rules := rules.1
    footOffset := rules.2.1
    footIndex := rules.2.2},rules.2.1+chainFootSize,rules.2.2+1)

/-- The loop of `iptcc_compile_table_prep`. -/
def compileChainsOffsets (offset num : ℕ) : List Chain → List Chain×ℕ×ℕ
  | [] => ([],offset,num)
  | c::chains =>
    let first := compileChainOffsets c offset num
    let rest := compileChainsOffsets first.2.1 first.2.2 chains
    (first.1::rest.1,rest.2)

/-- `iptcc_compile_table_prep`: the chains, the size and the number of entries. -/
def compileTablePrep (chains : List Chain) : List Chain×ℕ×ℕ :=
  let prep := compileChainsOffsets 0 0 chains
  (prep.1,prep.2.1+chainErrorSize,prep.2.2+1)

/-- What is compiled into an entry. -/
inductive Placed where
  | head (name : Name)
  | rule (e : Entry)
  | foot (verdict : UInt32) (counters : Counters)
  | error
  deriving DecidableEq

/-- An entry of the new block. -/
structure Placement where
  /-- Where it starts. -/
  offset : ℕ
  /-- Its size. -/
  size : ℕ
  /-- What it is. -/
  placed : Placed
  deriving DecidableEq

/-- `iptcc_compile_rule`: the entry of a rule, with the offset to which it jumps. -/
def compileRule (chains : List Chain) (r : Rule) : Option Entry :=
  match r.type with
  | .jump =>
    r.jump.bind fun addr => (chains.find? fun c => c.addr=addr).map fun c =>
      {r.entry with
        targetName := standardTarget
        targetData := raw32 (UInt32.ofNat (c.headOffset+chainStartSize))++
          r.entry.targetData.drop 4}
  | .fallthrough =>
    some {r.entry with
      targetData := raw32 (UInt32.ofNat (r.offset+r.size))++r.entry.targetData.drop 4}
  | _ => some r.entry

/-- The entry of a rule, in its place. -/
def rulePlacement (chains : List Chain) (r : Rule) : Option Placement :=
  (compileRule chains r).map fun e => ⟨r.offset,r.size,.rule e⟩

/-- The entry that opens a user-defined chain. -/
def chainHead (c : Chain) : List Placement :=
  if c.hooknum=0 then [⟨c.headOffset,chainStartSize,.head c.name⟩] else []

/-- The entry that closes a chain. -/
def chainFoot (c : Chain) : Placement :=
  ⟨c.footOffset,chainFootSize,
    .foot (if c.hooknum=0 then verdictReturn else c.verdict) c.counters⟩

/-- `iptcc_compile_chain` -/
def compileChain (chains : List Chain) (c : Chain) : Option (List Placement) :=
  (c.rules.mapM (rulePlacement chains)).map fun rules => chainHead c++rules++[chainFoot c]

/-- `iptcc_compile_table` -/
def compileTable (chains : List Chain) (size : ℕ) : Option (List Placement) :=
  (chains.mapM (compileChain chains)).map fun placed =>
    placed.flatten++[⟨size-chainErrorSize,chainErrorSize,.error⟩]

/-- `STRUCT_REPLACE`: the entries, their number and size, and for every built-in
chain its hook with the offsets of its first and last entry. -/
structure Replacement where
  /-- `entries`. -/
  entries : List Placement
  /-- `num_entries`. -/
  numEntries : ℕ
  /-- `size`. -/
  size : ℕ
  /-- `hook_entry` and `underflow`. -/
  hooks : List (ℕ×ℕ×ℕ)

/-- The hooks that `iptcc_compile_chain` sets. -/
def compileHooks (chains : List Chain) : List (ℕ×ℕ×ℕ) :=
  (chains.filter fun c => c.hooknum≠0).map fun c => (c.hooknum-1,c.headOffset,c.footOffset)

/-! ## Building the counters -/

/-- `subtract_counters` -/
def subtractCounters (a b : Counters) : Counters := ⟨a.pcnt-b.pcnt,a.bcnt-b.bcnt⟩

/-- `STRUCT_COUNTERS_INFO`, with the indices that were written. -/
structure Newcounters where
  /-- `counters`. -/
  counters : List Counters
  /-- The indices, in the order of the writes. -/
  written : List ℕ
  deriving DecidableEq

section

variable (old : List Counters)

/-- `counters_nomap`, `counters_normal_map`, `counters_map_zeroed` and
`counters_map_set`: what they write. -/
def mapCounters (m : CounterMap) (own : Counters) : Option Counters :=
  match m.maptype with
  | .nomap => some ⟨0,0⟩
  | .normalMap => old[m.mappos]?
  | .zeroed => old[m.mappos]?.map fun c => subtractCounters c own
  | .set => some own

/-- One write, which has to stay inside both arrays. -/
def writeCounters (new : Newcounters) (idx : ℕ) (m : CounterMap) (own : Counters) :
    Option Newcounters :=
  (mapCounters old m own).bind fun v =>
    if idx<new.counters.length then some ⟨new.counters.set idx v,new.written++[idx]⟩ else none

/-- The loop of `TC_COMMIT` over the rules. -/
def writeRules (new : Newcounters) : List Rule → Option Newcounters
  | [] => some new
  | r::rules =>
    (writeCounters old new r.index r.counterMap r.entry.counters).bind fun new =>
      writeRules new rules

/-- The loop of `TC_COMMIT` over the chains. -/
def writeChains (new : Newcounters) : List Chain → Option Newcounters
  | [] => some new
  | c::chains =>
    (if c.hooknum≠0 then writeCounters old new c.footIndex c.counterMap c.counters
      else some new).bind fun new => (writeRules old new c.rules).bind fun new =>
        writeChains new chains

end

/-- What becomes of a commit. -/
inductive Commit where
  | unchanged
  | refused
  | built (repl : Replacement) (newcounters : Newcounters)

/-- `TC_COMMIT`, up to the second call to the kernel. The kernel refuses the
new table or gives back the counters of the old one. -/
def tcCommit (replace : Replacement → Option (List Counters)) (h : Handle) : Option Commit :=
  if h.changed=false then some .unchanged
  else
    let prep := compileTablePrep h.chains
    (compileTable prep.1 prep.2.1).bind fun entries =>
      let repl : Replacement := ⟨entries,prep.2.2,prep.2.1,compileHooks prep.1⟩
      match replace repl with
      | none => some .refused
      | some old =>
        (writeChains old ⟨List.replicate prep.2.2 ⟨0,0⟩,[]⟩ prep.1).map fun new => .built repl new

/-! ## The ledger -/

/-- What the counters of a rule or policy are to be: those of an old entry, what
such an entry has counted since it was read, or given ones. -/
inductive Fate where
  | kept (i : ℕ)
  | zeroed (i : ℕ)
  | given (counters : Counters)
  deriving DecidableEq

/-- The fates of a policy and of the rules of a chain. -/
structure Account where
  /-- The fate of the policy. -/
  policy : Fate
  /-- The fates of the rules, in their order. -/
  rules : List Fate
  deriving DecidableEq

/-- An account for every chain. -/
abbrev Ledger := ℕ → Account

/-- Zeroing touches only counters that would be kept. -/
def zeroFate : Fate → Fate
  | .kept i => .zeroed i
  | fate => fate

/-- The ledger with another account for the chain of a name. -/
def onChain (rs : Ruleset) (chain : Name) (l : Ledger)
    (f : PlainChain → Account → Account) : Ledger :=
  match chainNamed rs chain with
  | none => l
  | some c => Function.update l c.addr (f c (l c.addr))

/-- The ledger after a call that succeeds. -/
def ledgerStep (isSame : Entry → Entry → List UInt8 → Option (List UInt8)) (rs : Ruleset)
    (l : Ledger) : Call → Ledger
  | .insertEntry chain e rulenum => onChain rs chain l fun _ a =>
    {a with rules := a.rules.insertIdx rulenum (.given e.counters)}
  | .replaceEntry chain e rulenum => onChain rs chain l fun _ a =>
    {a with rules := a.rules.set rulenum (.given e.counters)}
  | .appendEntry chain e => onChain rs chain l fun _ a =>
    {a with rules := a.rules++[.given e.counters]}
  | .deleteEntry chain e mask => onChain rs chain l fun c a =>
    match resolve rs (allocRule e .nomap) with
    | none => a
    | some r => {a with rules := a.rules.eraseIdx (c.rules.findIdx (sameRule isSame r mask))}
  | .checkEntry _ _ _ => l
  | .deleteNumEntry chain rulenum => onChain rs chain l fun _ a =>
    {a with rules := a.rules.eraseIdx rulenum}
  | .flushEntries chain => onChain rs chain l fun _ a => {a with rules := []}
  | .zeroEntries chain => onChain rs chain l fun _ a =>
    ⟨zeroFate a.policy,a.rules.map zeroFate⟩
  | .zeroCounter chain rulenum => onChain rs chain l fun _ a =>
    {a with rules := a.rules.modify (rulenum-1) zeroFate}
  | .setCounter chain rulenum counters => onChain rs chain l fun _ a =>
    {a with rules := a.rules.modify (rulenum-1) fun _ => .given counters}
  | .createChain _ wanted =>
    let addr := if wanted∈rs.map PlainChain.addr then (rs.map PlainChain.addr).sum+1 else wanted
    Function.update l addr ⟨.given ⟨0,0⟩,[]⟩
  | .deleteChain _ => l
  | .renameChain _ _ => l
  | .setPolicy chain _ counters => onChain rs chain l fun _ a =>
    {a with policy := .given (counters.getD ⟨0,0⟩)}

/-- The ledger after the calls of a program, in which a refused call changes
nothing. -/
def ledgerAfter (isSame : Entry → Entry → List UInt8 → Option (List UInt8)) :
    Ruleset → Ledger → List Call → Ledger
  | _,l,[] => l
  | rs,l,call::calls =>
    match specStep isSame rs call with
    | none => ledgerAfter isSame rs l calls
    | some rs' => ledgerAfter isSame rs' (ledgerStep isSame rs l call) calls

/-- What a counter map stands for. -/
def fateOf (m : CounterMap) (own : Counters) : Fate :=
  match m.maptype with
  | .nomap => .given ⟨0,0⟩
  | .normalMap => .kept m.mappos
  | .zeroed => .zeroed m.mappos
  | .set => .given own

/-- The fate of a rule. -/
def ruleFate (r : Rule) : Fate := fateOf r.counterMap r.entry.counters

/-- The account of a chain. -/
def account (c : PlainChain) : Account :=
  ⟨fateOf c.counterMap c.counters,c.rules.map ruleFate⟩

/-- Counters that come from an old entry were read from it. -/
def Recorded (table : KernelTable) (m : CounterMap) (own : Counters) : Prop :=
  m.maptype=.normalMap ∨ m.maptype=.zeroed →
    ∃ e, table.entries[m.mappos]?=some e ∧ e.counters=own

/-- The ledger is right about a chain. -/
structure Sound (table : KernelTable) (l : Ledger) (c : PlainChain) : Prop where
  /-- The account is that of the chain. -/
  account : l c.addr=account c
  /-- The rules were read from their entries. -/
  rules : ∀ r∈c.rules, Recorded table r.counterMap r.entry.counters
  /-- The policy was read from its entry. -/
  policy : Recorded table c.counterMap c.counters

section Ledgers

variable {isSame : Entry → Entry → List UInt8 → Option (List UInt8)} {table : KernelTable}
  {rs rs' : Ruleset} {l : Ledger}

/-- A change of one chain that the ledger follows. -/
theorem sound_replaceChain (hs : ∀ c∈rs, Sound table l c) {addr : ℕ}
    {f : PlainChain → PlainChain} {g : Account → Account} (haddr : ∀ c, (f c).addr=c.addr)
    (hf : ∀ c∈rs, c.addr=addr → account (f c)=g (account c))
    (hrules : ∀ c∈rs, c.addr=addr → ∀ r∈(f c).rules, Recorded table r.counterMap r.entry.counters)
    (hpolicy : ∀ c∈rs, c.addr=addr → Recorded table (f c).counterMap (f c).counters) :
    ∀ c∈replaceChain rs addr f, Sound table (Function.update l addr (g (l addr))) c := by
  intro d hd
  obtain ⟨c,hc,rfl⟩ := List.mem_map.mp hd
  have hsound := hs c hc
  by_cases hca : c.addr=addr
  · rw [if_pos hca]
    refine ⟨?_,hrules c hc hca,hpolicy c hc hca⟩
    rw [haddr,hca,Function.update_self,hf c hc hca,←hsound.account,hca]
  · rw [if_neg hca]
    refine ⟨?_,hsound.rules,hsound.policy⟩
    rw [Function.update_of_ne hca]
    exact hsound.account

/-- New rules of a chain that the ledger follows. -/
theorem sound_withRules (hs : ∀ c∈rs, Sound table l c) {c : PlainChain} (hc : c∈rs)
    {rules : List Rule} {g : List Fate → List Fate}
    (hg : rules.map ruleFate=g (c.rules.map ruleFate))
    (hrules : ∀ r∈rules, Recorded table r.counterMap r.entry.counters) :
    ∀ d∈withRules rs c rules, Sound table
      (Function.update l c.addr {l c.addr with rules := g (l c.addr).rules}) d := by
  refine @sound_replaceChain table rs l hs c.addr (fun d => {d with rules := rules})
    (fun a => {a with rules := g a.rules}) (fun _ => rfl) (fun d hd hda => ?_)
    (fun _ _ _ => hrules) fun d hd _ => (hs d hd).policy
  have hsame : account d=account c := by
    rw [←(hs d hd).account,←(hs c hc).account,hda]
  have hfates : d.rules.map ruleFate=c.rules.map ruleFate := congrArg Account.rules hsame
  simp only [account]
  rw [hg,hfates]

theorem onChain_some {chain : Name} {c : PlainChain} (hc : chainNamed rs chain=some c)
    (f : PlainChain → Account → Account) :
    onChain rs chain l f=Function.update l c.addr (f c (l c.addr)) := by
  rw [onChain,hc]

theorem chainNamed_mem {chain : Name} {c : PlainChain} (hc : chainNamed rs chain=some c) :
    c∈rs := List.mem_of_find?_eq_some hc

theorem standardMap_kept {r r' : Rule} {verdict : UInt32} (h : standardMap r verdict=some r') :
    r'.counterMap=r.counterMap ∧ r'.entry.counters=r.entry.counters := by
  unfold standardMap at h
  split at h
  · cases h
  · rw [←Option.some.inj h]
    exact ⟨rfl,rfl⟩

/-- Resolving a target leaves the counters of a rule alone. -/
theorem resolve_kept {r r' : Rule} (h : resolve rs r=some r') :
    r'.counterMap=r.counterMap ∧ r'.entry.counters=r.entry.counters := by
  unfold resolve at h
  dsimp only at h
  split at h
  · cases h
    exact ⟨rfl,rfl⟩
  split at h
  · exact standardMap_kept h
  split at h
  · exact standardMap_kept h
  split at h
  · exact standardMap_kept h
  split at h
  · exact standardMap_kept h
  split at h
  · split at h
    · cases h
    · cases h
      exact ⟨rfl,rfl⟩
  · cases h
    exact ⟨rfl,rfl⟩

/-- A new rule has given counters. -/
theorem resolve_fate {e : Entry} {r : Rule} (hr : resolve rs (allocRule e .set)=some r) :
    ruleFate r=.given e.counters ∧ Recorded table r.counterMap r.entry.counters := by
  obtain ⟨hmap,hown⟩ := resolve_kept hr
  refine ⟨?_,?_⟩
  · rw [ruleFate,hmap,hown]
    rfl
  · rw [hmap]
    rintro (h|h)
    · cases h
    · cases h

theorem fateOf_zeroMap (m : CounterMap) (own : Counters) :
    fateOf (zeroMap m) own=zeroFate (fateOf m own) := by
  obtain ⟨maptype,mappos⟩ := m
  cases maptype <;> rfl

theorem Recorded.zeroMap {m : CounterMap} {own : Counters} (h : Recorded table m own) :
    Recorded table (zeroMap m) own := by
  obtain ⟨maptype,mappos⟩ := m
  cases maptype with
  | normalMap => exact fun _ => h (Or.inl rfl)
  | nomap => exact h
  | zeroed => exact h
  | set => exact h

theorem mem_modify {rules : List Rule} {place : ℕ} {g : Rule → Rule} {r : Rule}
    (hr : r∈rules.modify place g) : ∃ q∈rules, r=q ∨ r=g q := by
  rw [List.mem_iff_getElem?] at hr
  obtain ⟨i,hi⟩ := hr
  rw [List.getElem?_modify] at hi
  obtain ⟨q,hq,hqr⟩ := Option.map_eq_some_iff.mp hi
  refine ⟨q,List.mem_of_getElem? hq,?_⟩
  split at hqr
  · exact Or.inr hqr.symm
  · exact Or.inl hqr.symm

theorem map_ruleFate_modify {g : Rule → Rule} {k : Fate → Fate}
    (hg : ∀ r, ruleFate (g r)=k (ruleFate r)) (rules : List Rule) (place : ℕ) :
    (rules.modify place g).map ruleFate=(rules.map ruleFate).modify place k := by
  induction rules generalizing place with
  | nil => simp
  | cons r rules ih =>
    cases place with
    | zero => simp [hg]
    | succ place => simp [ih]

theorem mem_sortedInsert {c d : PlainChain} : ∀ {rs : Ruleset}, d∈sortedInsert c rs → d=c ∨ d∈rs
  | [],hd => Or.inl (List.mem_singleton.mp hd)
  | tmp::rs,hd => by
    rw [sortedInsert] at hd
    split at hd
    · exact List.mem_cons.mp hd
    · rcases List.mem_cons.mp hd with rfl|hd
      · exact Or.inr (List.mem_cons_self ..)
      · exact (mem_sortedInsert hd).imp_right (List.mem_cons_of_mem _)

/-- Both calls that change the counters of one rule. -/
theorem sound_counter (hs : ∀ c∈rs, Sound table l c) {chain : Name} {rulenum : ℕ}
    {g : Rule → Rule} {k : Fate → Fate} (hg : ∀ r, ruleFate (g r)=k (ruleFate r))
    (hrec : ∀ r, Recorded table r.counterMap r.entry.counters →
      Recorded table (g r).counterMap (g r).entry.counters)
    (hstep : ((chainNamed rs chain).bind fun c =>
      if 1≤rulenum ∧ rulenum≤c.rules.length then
        some (withRules rs c (c.rules.modify (rulenum-1) g))
      else none)=some rs') :
    ∀ d∈rs', Sound table (onChain rs chain l fun _ a =>
      {a with rules := a.rules.modify (rulenum-1) k}) d := by
  obtain ⟨c,hc,hstep⟩ := Option.bind_eq_some_iff.mp hstep
  split at hstep
  · cases hstep
    rw [onChain_some hc]
    have hmem := chainNamed_mem hc
    refine @sound_withRules table rs l hs c hmem _ (fun fates => fates.modify (rulenum-1) k)
      (map_ruleFate_modify hg c.rules _) fun r hr => ?_
    obtain ⟨q,hq,rfl|rfl⟩ := mem_modify hr
    · exact (hs c hmem).rules r hq
    · exact hrec q ((hs c hmem).rules q hq)
  · cases hstep

/-- Every call that succeeds keeps the ledger right. -/
theorem ledgerStep_sound (hs : ∀ c∈rs, Sound table l c) {call : Call}
    (hstep : specStep isSame rs call=some rs') :
    ∀ d∈rs', Sound table (ledgerStep isSame rs l call) d := by
  cases call with
  | insertEntry chain e rulenum =>
    obtain ⟨c,hc,hstep⟩ := Option.bind_eq_some_iff.mp hstep
    split at hstep
    · cases hstep
    obtain ⟨r,hr,rfl⟩ := Option.map_eq_some_iff.mp hstep
    obtain ⟨hfate,hrec⟩ := @resolve_fate table rs e r hr
    have hmem := chainNamed_mem hc
    rw [ledgerStep,onChain_some hc]
    refine @sound_withRules table rs l hs c hmem _
      (fun fates => fates.insertIdx rulenum (.given e.counters)) ?_ fun q hq => ?_
    · rw [List.map_insertIdx,hfate]
    · rcases List.eq_or_mem_of_mem_insertIdx hq with rfl|hq
      · exact hrec
      · exact (hs c hmem).rules q hq
  | replaceEntry chain e rulenum =>
    obtain ⟨c,hc,hstep⟩ := Option.bind_eq_some_iff.mp hstep
    split at hstep
    · cases hstep
    obtain ⟨r,hr,rfl⟩ := Option.map_eq_some_iff.mp hstep
    obtain ⟨hfate,hrec⟩ := @resolve_fate table rs e r hr
    have hmem := chainNamed_mem hc
    rw [ledgerStep,onChain_some hc]
    refine @sound_withRules table rs l hs c hmem _
      (fun fates => fates.set rulenum (.given e.counters)) ?_ fun q hq => ?_
    · rw [List.map_set,hfate]
    · rcases List.mem_or_eq_of_mem_set hq with hq|rfl
      · exact (hs c hmem).rules q hq
      · exact hrec
  | appendEntry chain e =>
    obtain ⟨c,hc,hstep⟩ := Option.bind_eq_some_iff.mp hstep
    obtain ⟨r,hr,rfl⟩ := Option.map_eq_some_iff.mp hstep
    obtain ⟨hfate,hrec⟩ := @resolve_fate table rs e r hr
    have hmem := chainNamed_mem hc
    rw [ledgerStep,onChain_some hc]
    refine @sound_withRules table rs l hs c hmem _
      (fun fates => fates++[.given e.counters]) ?_ fun q hq => ?_
    · rw [List.map_append,List.map_singleton,hfate]
    · rcases List.mem_append.mp hq with hq|hq
      · exact (hs c hmem).rules q hq
      · rw [List.mem_singleton.mp hq]
        exact hrec
  | deleteEntry chain e mask =>
    obtain ⟨c,hc,hstep⟩ := Option.bind_eq_some_iff.mp hstep
    obtain ⟨r,hr,hstep⟩ := Option.bind_eq_some_iff.mp hstep
    split at hstep
    · rename_i hany
      cases hstep
      have hmem := chainNamed_mem hc
      rw [ledgerStep,onChain_some hc,hr]
      refine @sound_withRules table rs l hs c hmem _
        (fun fates => fates.eraseIdx (c.rules.findIdx (sameRule isSame r mask))) ?_ fun q hq => ?_
      · rw [List.eraseIdx_map,List.eraseP_eq_eraseIdx,List.findIdx?_eq_some_of_exists]
        exact List.any_eq_true.mp hany
      · exact (hs c hmem).rules q (List.mem_of_mem_eraseP hq)
    · cases hstep
  | checkEntry chain e mask =>
    obtain ⟨c,hc,hstep⟩ := Option.bind_eq_some_iff.mp hstep
    obtain ⟨r,hr,hstep⟩ := Option.bind_eq_some_iff.mp hstep
    split at hstep
    · cases hstep
      exact hs
    · cases hstep
  | deleteNumEntry chain rulenum =>
    obtain ⟨c,hc,hstep⟩ := Option.bind_eq_some_iff.mp hstep
    split at hstep
    · cases hstep
    cases hstep
    have hmem := chainNamed_mem hc
    rw [ledgerStep,onChain_some hc]
    refine @sound_withRules table rs l hs c hmem _
      (fun fates => fates.eraseIdx rulenum) ?_ fun q hq => ?_
    · rw [List.eraseIdx_map]
    · exact (hs c hmem).rules q (List.mem_of_mem_eraseIdx hq)
  | flushEntries chain =>
    obtain ⟨c,hc,rfl⟩ := Option.map_eq_some_iff.mp hstep
    rw [ledgerStep,onChain_some hc]
    refine @sound_withRules table rs l hs c (chainNamed_mem hc) [] (fun _ => []) rfl fun q hq => ?_
    cases hq
  | zeroEntries chain =>
    obtain ⟨c,hc,rfl⟩ := Option.map_eq_some_iff.mp hstep
    rw [ledgerStep,onChain_some hc]
    refine @sound_replaceChain table rs l hs c.addr _
      (fun a => ⟨zeroFate a.policy,a.rules.map zeroFate⟩) (fun _ => rfl) (fun d hd hda => ?_)
      (fun d hd hda r hr => ?_) fun d hd hda => (hs d hd).policy.zeroMap
    · simp only [account,fateOf_zeroMap,List.map_map,Account.mk.injEq,true_and]
      apply List.map_congr_left
      intro r _
      exact fateOf_zeroMap r.counterMap r.entry.counters
    · obtain ⟨q,hq,rfl⟩ := List.mem_map.mp hr
      exact ((hs d hd).rules q hq).zeroMap
  | zeroCounter chain rulenum =>
    exact @sound_counter table rs rs' l hs chain rulenum zeroRule zeroFate
      (fun r => fateOf_zeroMap r.counterMap r.entry.counters) (fun _ hr => hr.zeroMap) hstep
  | setCounter chain rulenum counters =>
    refine @sound_counter table rs rs' l hs chain rulenum (setRuleCounter counters)
      (fun _ => .given counters) (fun _ => rfl) (fun r _ => ?_) hstep
    rintro (h|h)
    · cases h
    · cases h
  | createChain chain wanted =>
    rw [specStep] at hstep
    split at hstep
    · cases hstep
    cases hstep
    intro d hd
    have hfree : ∀ c∈rs, c.addr≠(if wanted∈rs.map PlainChain.addr then
        (rs.map PlainChain.addr).sum+1 else wanted) := by
      intro c hc heq
      have hmem := List.mem_map_of_mem (f := PlainChain.addr) hc
      split at heq
      · have hle := List.single_le_sum (fun _ _ => Nat.zero_le _) _ hmem
        omega
      · rename_i hno
        exact hno (heq ▸ hmem)
    rcases mem_sortedInsert hd with rfl|hd
    · refine ⟨?_,(fun r hr => by cases hr),?_⟩
      · rw [ledgerStep,Function.update_self]
        rfl
      · rintro (h|h)
        · cases h
        · cases h
    · refine ⟨?_,(hs d hd).rules,(hs d hd).policy⟩
      rw [ledgerStep,Function.update_of_ne (hfree d hd)]
      exact (hs d hd).account
  | deleteChain chain =>
    obtain ⟨c,hc,hstep⟩ := Option.bind_eq_some_iff.mp hstep
    split at hstep
    · cases hstep
    · cases hstep
      exact fun d hd => hs d (List.mem_of_mem_filter hd)
  | renameChain oldname newname =>
    rw [specStep] at hstep
    split at hstep
    · cases hstep
    obtain ⟨c,hc,hstep⟩ := Option.bind_eq_some_iff.mp hstep
    split at hstep
    · cases hstep
    cases hstep
    intro d hd
    rcases mem_sortedInsert hd with rfl|hd
    · have hsound := hs c (chainNamed_mem hc)
      exact ⟨hsound.account,hsound.rules,hsound.policy⟩
    · exact hs d (List.mem_of_mem_filter hd)
  | setPolicy chain policy counters =>
    obtain ⟨c,hc,hstep⟩ := Option.bind_eq_some_iff.mp hstep
    split at hstep
    · cases hstep
    obtain ⟨verdict,-,rfl⟩ := Option.map_eq_some_iff.mp hstep
    rw [ledgerStep,onChain_some hc]
    refine @sound_replaceChain table rs l hs c.addr _
      (fun a => {a with policy := .given (counters.getD ⟨0,0⟩)}) (fun _ => rfl)
      (fun d hd hda => ?_) (fun d hd hda => (hs d hd).rules) fun d hd hda => ?_
    · cases counters <;> rfl
    · cases counters with
      | none =>
        rintro (h|h)
        · cases h
        · cases h
      | some counters =>
        rintro (h|h)
        · cases h
        · cases h

end Ledgers

/-! ### Runs -/

/-- The ledger of a table that was read: the rules keep the counters of their
entries. -/
def initialLedger (h : Handle) : Ledger := fun addr =>
  match h.chains.find? fun c => c.addr=addr with
  | none => ⟨.given ⟨0,0⟩,[]⟩
  | some c => ⟨fateOf c.counterMap c.counters,c.rules.map fun r => .kept r.index⟩

theorem initialLedger_sound {table : KernelTable} {wanted : ℕ → ℕ} {h : Handle}
    (hinit : tcInit table wanted=some h) : ∀ c∈ruleset h, Sound table (initialLedger h) c := by
  intro p hp
  obtain ⟨c,hc,rfl⟩ := List.mem_map.mp hp
  obtain ⟨hrules,hpolicy⟩ := tcInit_read hinit hc
  have hfind : (h.chains.find? fun d => d.addr=(plain c).addr)=some c := by
    cases hf : h.chains.find? fun d => d.addr=(plain c).addr with
    | none =>
      have hno := List.find?_eq_none.mp hf c hc
      exact absurd (decide_eq_true (Eq.refl c.addr)) hno
    | some d =>
      have hd : d∈h.chains := List.mem_of_find?_eq_some hf
      have hda : d.addr=(plain c).addr := by simpa using List.find?_some hf
      rw [Keeps.eq_of_addr (tcInit_intact hinit) hd hc hda]
  refine ⟨?_,fun r hr => ?_,?_⟩
  · rw [initialLedger,hfind]
    simp only [account]
    congr 1
    apply List.map_congr_left
    intro r hr
    rw [ruleFate,(hrules r hr).1]
    rfl
  · obtain ⟨hmap,hentry⟩ := hrules r hr
    rw [hmap]
    exact fun _ => ⟨r.entry,hentry,rfl⟩
  · intro hor
    rcases hpolicy with hno|⟨-,e,he,hown⟩
    · rcases hor with h|h
      · rw [show c.counterMap.maptype=_ from h] at hno
        cases hno
      · rw [show c.counterMap.maptype=_ from h] at hno
        cases hno
    · exact ⟨e,he,hown⟩

/-- The ledger is right about every table that a run reaches. -/
theorem ledgerAfter_sound {isSame : Entry → Entry → List UInt8 → Option (List UInt8)}
    {table : KernelTable} {h : Handle} {l : Ledger} (hi : Intact h)
    (hs : ∀ c∈ruleset h, Sound table l c) (calls : List Call) :
    ∃ after, runCalls isSame h calls=some after ∧ Intact after ∧
      ∀ c∈ruleset after, Sound table (ledgerAfter isSame (ruleset h) l calls) c := by
  induction calls generalizing h l with
  | nil => exact ⟨h,rfl,hi,hs⟩
  | cons call calls ih =>
    obtain ⟨after,ok,hstep,hafter,hspec,hsame⟩ := @step_outcome isSame h hi call
    rw [runCalls,hstep,Option.bind_some]
    cases ok with
    | true =>
      rw [if_pos rfl] at hspec
      have hnext := ih hafter (ledgerStep_sound hs hspec)
      rw [ledgerAfter,hspec]
      exact hnext
    | false =>
      rw [if_neg (by simp)] at hspec
      have hrs : ruleset after=ruleset h := by
        by_cases hp : ProbesModule isSame h call
        · rw [(hsame (Or.inl rfl)).1 hp,ruleset_setChanged]
        · rw [(hsame (Or.inl rfl)).2 hp]
      have hnext := @ih after l hafter (fun c hc => hs c (hrs ▸ hc))
      rw [ledgerAfter,hspec,←hrs]
      exact hnext

/-! ## The new numbering -/

/-- Numbering changes nothing but offsets and indices. -/
theorem mem_compileRuleOffsets {rules : List Rule} {offset num : ℕ} {r' : Rule}
    (hr : r'∈(compileRuleOffsets offset num rules).1) :
    ∃ r∈rules, r'={r with offset := r'.offset, index := r'.index} := by
  induction rules generalizing offset num with
  | nil => cases hr
  | cons r rules ih =>
    rcases List.mem_cons.mp hr with rfl|hr
    · exact ⟨r,List.mem_cons_self ..,rfl⟩
    · obtain ⟨q,hq,heq⟩ := ih hr
      exact ⟨q,List.mem_cons_of_mem _ hq,heq⟩

theorem compileRuleOffsets_end (rules : List Rule) (offset num : ℕ) :
    (compileRuleOffsets offset num rules).2.2=num+rules.length := by
  induction rules generalizing offset num with
  | nil => rfl
  | cons r rules ih =>
    rw [compileRuleOffsets,List.length_cons]
    dsimp only
    rw [ih]
    omega

/-- What numbering leaves alone in the rules. -/
theorem map_compileRuleOffsets {α : Type} {f : Rule → α}
    (hf : ∀ r offset num, f {r with offset := offset, index := num}=f r) (rules : List Rule)
    (offset num : ℕ) : (compileRuleOffsets offset num rules).1.map f=rules.map f := by
  induction rules generalizing offset num with
  | nil => rfl
  | cons r rules ih =>
    rw [compileRuleOffsets]
    dsimp only
    rw [List.map_cons,List.map_cons,ih,hf]

/-- What numbering leaves alone in the chains. -/
theorem map_compileChainsOffsets {α : Type} {f : Chain → α}
    (hf : ∀ c offset num, f (compileChainOffsets c offset num).1=f c) (chains : List Chain)
    (offset num : ℕ) : (compileChainsOffsets offset num chains).1.map f=chains.map f := by
  induction chains generalizing offset num with
  | nil => rfl
  | cons c chains ih =>
    rw [compileChainsOffsets]
    dsimp only
    rw [List.map_cons,List.map_cons,ih,hf]

/-! ## The counters that are built -/

section Building

variable {table : KernelTable} {old : List Counters}

/-- The counters that a fate stands for. -/
def worth (table : KernelTable) (old : List Counters) : Fate → Option Counters
  | .kept i => old[i]?
  | .zeroed i =>
    old[i]?.bind fun now => table.entries[i]?.map fun e => subtractCounters now e.counters
  | .given counters => some counters

/-- What is written for a rule or policy is what its fate is worth. -/
theorem mapCounters_eq_worth {m : CounterMap} {own : Counters} (hrec : Recorded table m own)
    (hold : old.length=table.numEntries) :
    mapCounters old m own=worth table old (fateOf m own) ∧ (mapCounters old m own).isSome=true := by
  obtain ⟨maptype,mappos⟩ := m
  have hin : maptype=.normalMap ∨ maptype=.zeroed →
      ∃ v e, old[mappos]?=some v ∧ table.entries[mappos]?=some e ∧ e.counters=own := by
    intro hor
    obtain ⟨e,he,hown⟩ := hrec hor
    have hlt : mappos<old.length := by
      rw [hold]
      exact (List.getElem?_eq_some_iff.mp he).1
    exact ⟨old[mappos],e,List.getElem?_eq_getElem hlt,he,hown⟩
  cases maptype with
  | nomap => exact ⟨rfl,rfl⟩
  | set => exact ⟨rfl,rfl⟩
  | normalMap =>
    obtain ⟨v,e,hv,he,hown⟩ := hin (Or.inl rfl)
    simp only [mapCounters,fateOf,worth,hv]
    exact ⟨trivial,rfl⟩
  | zeroed =>
    obtain ⟨v,e,hv,he,hown⟩ := hin (Or.inr rfl)
    simp only [mapCounters,fateOf,worth,hv,he,Option.map_some,Option.bind_some,hown]
    exact ⟨trivial,rfl⟩

/-- The value that is written for a rule. -/
def ruleValue (old : List Counters) (r : Rule) : Counters :=
  (mapCounters old r.counterMap r.entry.counters).getD ⟨0,0⟩

/-- The values that are written for a chain, with the cells that stay zero. -/
def chainValues (old : List Counters) (c : Chain) : List Counters :=
  (if c.hooknum=0 then [⟨0,0⟩] else [])++c.rules.map (ruleValue old)++
    [if c.hooknum=0 then ⟨0,0⟩ else (mapCounters old c.counterMap c.counters).getD ⟨0,0⟩]

/-- Writing one cell. -/
theorem writeCounters_eq {m : CounterMap} {own cell : Counters} {pre post : List Counters}
    {log : List ℕ} {idx : ℕ} (hidx : idx=pre.length)
    (hsome : (mapCounters old m own).isSome=true) :
    writeCounters old ⟨pre++cell::post,log⟩ idx m own=
      some ⟨pre++(mapCounters old m own).getD ⟨0,0⟩::post,log++[idx]⟩ := by
  obtain ⟨v,hv⟩ := Option.isSome_iff_exists.mp hsome
  have hlt : idx<(pre++cell::post).length := by
    rw [List.length_append,List.length_cons]
    omega
  rw [writeCounters,hv,Option.bind_some,if_pos hlt,hidx,Option.getD_some,
    List.set_append_right _ _ (Nat.le_refl _),Nat.sub_self]
  rfl

/-- Writing the counters of rules that are numbered from the cells before. -/
theorem writeRules_eq {rules : List Rule} {pre mid post : List Counters} {log : List ℕ}
    {offset : ℕ}
    (hsome : ∀ r∈rules, (mapCounters old r.counterMap r.entry.counters).isSome=true)
    (hmid : mid.length=rules.length) :
    writeRules old ⟨pre++mid++post,log⟩ (compileRuleOffsets offset pre.length rules).1=
      some ⟨pre++rules.map (ruleValue old)++post,log++List.range' pre.length rules.length⟩ := by
  induction rules generalizing pre mid log offset with
  | nil =>
    have hnil : mid=[] := List.length_eq_zero_iff.mp hmid
    simp [compileRuleOffsets,writeRules,hnil]
  | cons r rules ih =>
    cases mid with
    | nil => cases hmid
    | cons m mid =>
      have hfirst := @writeCounters_eq old r.counterMap r.entry.counters m pre (mid++post) log
        pre.length rfl (hsome r (List.mem_cons_self ..))
      have hrest := @ih (pre++[ruleValue old r]) mid (log++[pre.length]) (offset+r.size)
        (fun q hq => hsome q (List.mem_cons_of_mem _ hq)) (Nat.succ.inj hmid)
      rw [List.length_append,List.length_singleton] at hrest
      rw [compileRuleOffsets,writeRules]
      dsimp only
      rw [List.append_assoc,List.cons_append,hfirst,Option.bind_some]
      rw [List.append_assoc,List.append_assoc,List.singleton_append] at hrest
      rw [ruleValue] at hrest
      rw [hrest]
      simp [ruleValue,List.range'_succ]

/-- The cells of a chain. -/
theorem length_chainValues (c : Chain) :
    (chainValues old c).length=(if c.hooknum=0 then 1 else 0)+c.rules.length+1 := by
  rw [chainValues]
  split
  · simp
    omega
  · simp

/-- The index after a chain. -/
theorem compileChainOffsets_end (c : Chain) (offset num : ℕ) :
    (compileChainOffsets c offset num).2.2=num+(chainValues old c).length := by
  rw [length_chainValues,compileChainOffsets]
  dsimp only
  rw [compileRuleOffsets_end]
  split <;> simp <;> omega

/-- Every counter map of a chain is in range. -/
def InRange (old : List Counters) (c : Chain) : Prop :=
  (∀ r∈c.rules, (mapCounters old r.counterMap r.entry.counters).isSome=true) ∧
    (mapCounters old c.counterMap c.counters).isSome=true

/-- Writing the counters of one chain. -/
theorem writeChain_eq {c : Chain} {pre post : List Counters} {log : List ℕ} {offset : ℕ}
    (hin : InRange old c) :
    ∃ log', (∀ chains, writeChains old
        ⟨pre++List.replicate (chainValues old c).length ⟨0,0⟩++post,log⟩
          ((compileChainOffsets c offset pre.length).1::chains)=
        writeChains old ⟨pre++chainValues old c++post,log++log'⟩ chains) ∧
      log'.Nodup ∧ ∀ i∈log', pre.length ≤ i ∧ i<pre.length+(chainValues old c).length := by
  have hlen := @length_chainValues old c
  by_cases hook : c.hooknum=0
  · rw [if_pos hook] at hlen
    refine ⟨List.range' (pre.length+1) c.rules.length,fun chains => ?_,List.nodup_range',
      fun i hi => ?_⟩
    · have hcells : pre++List.replicate (chainValues old c).length ⟨0,0⟩++post=
          (pre++[⟨0,0⟩])++List.replicate c.rules.length ⟨0,0⟩++⟨0,0⟩::post := by
        rw [hlen,Nat.add_comm 1,List.replicate_succ',List.replicate_succ]
        simp
      have hwrite := @writeRules_eq old c.rules (pre++[⟨0,0⟩])
        (List.replicate c.rules.length ⟨0,0⟩) (⟨0,0⟩::post) log (offset+chainStartSize) hin.1
        List.length_replicate
      have hvalues : (pre++[⟨0,0⟩])++c.rules.map (ruleValue old)++⟨0,0⟩::post=
          pre++chainValues old c++post := by
        simp [chainValues,hook]
      rw [List.length_append,List.length_singleton,hvalues] at hwrite
      rw [hcells,writeChains]
      simp only [compileChainOffsets,if_pos hook]
      rw [if_neg (not_not.mpr hook),Option.bind_some,hwrite,Option.bind_some]
    · rw [List.mem_range'_1] at hi
      omega
  · rw [if_neg hook] at hlen
    refine ⟨(pre.length+c.rules.length)::List.range' pre.length c.rules.length,
      fun chains => ?_,?_,fun i hi => ?_⟩
    · have hcells : pre++List.replicate (chainValues old c).length ⟨0,0⟩++post=
          (pre++List.replicate c.rules.length ⟨0,0⟩)++⟨0,0⟩::post := by
        rw [hlen,Nat.zero_add,List.replicate_succ']
        simp
      have hfoot := @writeCounters_eq old c.counterMap c.counters ⟨0,0⟩
        (pre++List.replicate c.rules.length ⟨0,0⟩) post log (pre.length+c.rules.length) (by simp)
        hin.2
      have hwrite := @writeRules_eq old c.rules pre (List.replicate c.rules.length ⟨0,0⟩)
        ((mapCounters old c.counterMap c.counters).getD ⟨0,0⟩::post)
        (log++[pre.length+c.rules.length]) offset hin.1 List.length_replicate
      have hvalues : pre++c.rules.map (ruleValue old)++
          (mapCounters old c.counterMap c.counters).getD ⟨0,0⟩::post=
          pre++chainValues old c++post := by
        simp [chainValues,hook]
      rw [hvalues] at hwrite
      rw [hcells,writeChains]
      simp only [compileChainOffsets,if_neg hook]
      rw [if_pos hook,compileRuleOffsets_end,hfoot,Option.bind_some,hwrite,Option.bind_some,
        List.append_assoc log,List.singleton_append]
    · rw [List.nodup_cons,List.mem_range'_1]
      exact ⟨by omega,List.nodup_range'⟩
    · rcases List.mem_cons.mp hi with rfl|hi
      · omega
      · rw [List.mem_range'_1] at hi
        omega

/-- Writing the counters of all chains. -/
theorem writeChains_eq {chains : List Chain} {pre post : List Counters} {log : List ℕ}
    {offset : ℕ} (hin : ∀ c∈chains, InRange old c) :
    ∃ log', writeChains old
        ⟨pre++List.replicate (chains.flatMap (chainValues old)).length ⟨0,0⟩++post,log⟩
          (compileChainsOffsets offset pre.length chains).1=
        some ⟨pre++chains.flatMap (chainValues old)++post,log++log'⟩ ∧
      log'.Nodup ∧
      ∀ i∈log', pre.length ≤ i ∧ i<pre.length+(chains.flatMap (chainValues old)).length := by
  induction chains generalizing pre log offset with
  | nil => exact ⟨[],by simp [compileChainsOffsets,writeChains],List.nodup_nil,by simp⟩
  | cons c chains ih =>
    obtain ⟨first,hfirst,hnodup,hrange⟩ := @writeChain_eq old c pre
      (List.replicate (chains.flatMap (chainValues old)).length ⟨0,0⟩++post) log offset
      (hin c (List.mem_cons_self ..))
    obtain ⟨rest,hrest,hnodup',hrange'⟩ := @ih (pre++chainValues old c) (log++first)
      (compileChainOffsets c offset pre.length).2.1 fun d hd => hin d (List.mem_cons_of_mem _ hd)
    rw [List.length_append] at hrest hrange'
    refine ⟨first++rest,?_,?_,fun i hi => ?_⟩
    · have hcells : pre++List.replicate ((c::chains).flatMap (chainValues old)).length ⟨0,0⟩++
          post=pre++List.replicate (chainValues old c).length ⟨0,0⟩++
            (List.replicate (chains.flatMap (chainValues old)).length ⟨0,0⟩++post) := by
        rw [List.flatMap_cons,List.length_append,List.replicate_add]
        simp only [List.append_assoc]
      rw [compileChainsOffsets]
      dsimp only
      rw [hcells,hfirst,@compileChainOffsets_end old]
      rw [List.append_assoc (pre++chainValues old c)] at hrest
      rw [hrest,List.flatMap_cons,List.append_assoc log,List.append_assoc pre]
    · rw [List.nodup_append]
      refine ⟨hnodup,hnodup',fun a ha b hb hab => ?_⟩
      have h₁ := hrange a ha
      have h₂ := hrange' b hb
      omega
    · rw [List.flatMap_cons,List.length_append]
      rcases List.mem_append.mp hi with hi|hi
      · have h₁ := hrange i hi
        omega
      · have h₂ := hrange' i hi
        omega

end Building

/-! ## The block that is compiled -/

/-- Entries that lie one behind the other, from an offset to another. -/
def Contiguous : ℕ → List Placement → ℕ → Prop
  | start,[],stop => start=stop
  | start,p::ps,stop => p.offset=start ∧ Contiguous (start+p.size) ps stop

theorem Contiguous.append {ps qs : List Placement} {start mid stop : ℕ}
    (hp : Contiguous start ps mid) (hq : Contiguous mid qs stop) :
    Contiguous start (ps++qs) stop := by
  induction ps generalizing start with
  | nil =>
    have hstart : start=mid := hp
    rw [hstart]
    exact hq
  | cons p ps ih => exact ⟨hp.1,ih hp.2⟩

theorem contiguous_singleton {p : Placement} {start : ℕ} (hp : p.offset=start) :
    Contiguous start [p] (start+p.size) := ⟨hp,rfl⟩

theorem rules_contiguous {all : List Chain} {rules : List Rule} {offset num : ℕ}
    {ps : List Placement}
    (hps : (compileRuleOffsets offset num rules).1.mapM (rulePlacement all)=some ps) :
    Contiguous offset ps (compileRuleOffsets offset num rules).2.1 := by
  induction rules generalizing offset num ps with
  | nil =>
    rw [compileRuleOffsets,List.mapM_nil] at hps
    cases hps
    rfl
  | cons r rules ih =>
    obtain ⟨p,rest,hp,hrest,rfl⟩ := mapM_cons_eq_some hps
    obtain ⟨e,-,rfl⟩ := Option.map_eq_some_iff.mp hp
    exact ⟨rfl,ih hrest⟩

theorem compileChain_spec {all : List Chain} {c : Chain} {ps : List Placement}
    (hps : compileChain all c=some ps) :
    ∃ rules, c.rules.mapM (rulePlacement all)=some rules ∧
      ps=chainHead c++rules++[chainFoot c] := by
  obtain ⟨rules,hrules,rfl⟩ := Option.map_eq_some_iff.mp hps
  exact ⟨rules,hrules,rfl⟩

theorem chain_contiguous {all : List Chain} {c : Chain} {offset num : ℕ} {ps : List Placement}
    (hps : compileChain all (compileChainOffsets c offset num).1=some ps) :
    Contiguous offset ps (compileChainOffsets c offset num).2.1 := by
  obtain ⟨rules,hrules,rfl⟩ := compileChain_spec hps
  have hbody := rules_contiguous hrules
  refine Contiguous.append (Contiguous.append ?_ hbody) (contiguous_singleton rfl)
  by_cases hook : c.hooknum=0
  · rw [chainHead,if_pos (show (compileChainOffsets c offset num).1.hooknum=0 from hook),
      if_pos hook]
    exact ⟨rfl,rfl⟩
  · rw [chainHead,if_neg (show ¬(compileChainOffsets c offset num).1.hooknum=0 from hook),
      if_neg hook]
    rfl

theorem chains_contiguous {all chains : List Chain} {offset num : ℕ}
    {pss : List (List Placement)}
    (hps : (compileChainsOffsets offset num chains).1.mapM (compileChain all)=some pss) :
    Contiguous offset pss.flatten (compileChainsOffsets offset num chains).2.1 := by
  induction chains generalizing offset num pss with
  | nil =>
    rw [compileChainsOffsets,List.mapM_nil] at hps
    cases hps
    rfl
  | cons c chains ih =>
    obtain ⟨ps,rest,hp,hrest,rfl⟩ := mapM_cons_eq_some hps
    rw [List.flatten_cons]
    exact (chain_contiguous hp).append (ih hrest)

/-- What is compiled for a chain. -/
def chainPlaced (all : List Chain) (c : Chain) : List (Option Placed) :=
  (chainHead c).map (fun p => some p.placed)++
    c.rules.map (fun r => (compileRule all r).map Placed.rule)++[some (chainFoot c).placed]

theorem map_placed_compileChain {all : List Chain} {c : Chain} {ps : List Placement}
    (hps : compileChain all c=some ps) : ps.map (fun p => some p.placed)=chainPlaced all c := by
  obtain ⟨rules,hrules,rfl⟩ := compileChain_spec hps
  have hmap : rules.map (fun p => some p.placed)=
      c.rules.map fun r => (compileRule all r).map Placed.rule := by
    refine map_eq_of_mapM (fun r p hp => ?_) hrules
    obtain ⟨e,he,rfl⟩ := Option.map_eq_some_iff.mp hp
    rw [he]
    rfl
  rw [List.map_append,List.map_append,hmap]
  rfl

/-- A loop succeeds where every step does. -/
theorem exists_mapM {α β : Type} {f : α → Option β} {xs : List α}
    (h : ∀ x∈xs, (f x).isSome=true) : ∃ ys, xs.mapM f=some ys := by
  induction xs with
  | nil => exact ⟨[],List.mapM_nil⟩
  | cons x xs ih =>
    obtain ⟨y,hy⟩ := Option.isSome_iff_exists.mp (h x (List.mem_cons_self ..))
    obtain ⟨ys,hys⟩ := ih fun z hz => h z (List.mem_cons_of_mem _ hz)
    refine ⟨y::ys,?_⟩
    rw [List.mapM_cons,hy,hys]
    rfl

/-- Every rule of a table that keeps its books can be compiled. -/
theorem compileRule_isSome {all : List Chain} {r : Rule}
    (hr : r.type=.jump → ∃ c∈all, link r=jumpTo c.addr) : (compileRule all r).isSome=true := by
  unfold compileRule
  split
  · rename_i htype
    obtain ⟨c,hc,hlink⟩ := hr htype
    have hjump : r.jump=some c.addr := congrArg Prod.snd hlink
    rw [hjump,Option.bind_some,Option.isSome_map,List.find?_isSome]
    exact ⟨c,hc,by simp⟩
  · rfl
  · rfl

theorem compileChain_isSome {all : List Chain} {c : Chain}
    (hc : ∀ r∈c.rules, r.type=.jump → ∃ d∈all, link r=jumpTo d.addr) :
    (compileChain all c).isSome=true := by
  obtain ⟨rules,hrules⟩ := @exists_mapM _ _ (rulePlacement all) c.rules fun r hr => by
    rw [rulePlacement,Option.isSome_map]
    exact compileRule_isSome (hc r hr)
  have hsome : compileChain all c=some (chainHead c++rules++[chainFoot c]) := by
    rw [compileChain,hrules]
    rfl
  rw [hsome]
  rfl

/-- A chain after the numbering, with the chain before it. -/
theorem exists_of_mem_compileChainsOffsets {chains : List Chain} {offset num : ℕ} {c' : Chain}
    (hc : c'∈(compileChainsOffsets offset num chains).1) :
    ∃ c∈chains, ∃ o n, c'=(compileChainOffsets c o n).1 := by
  induction chains generalizing offset num with
  | nil => cases hc
  | cons c chains ih =>
    rcases List.mem_cons.mp hc with rfl|hc
    · exact ⟨c,List.mem_cons_self ..,_,_,rfl⟩
    · obtain ⟨d,hd,o,n,heq⟩ := ih hc
      exact ⟨d,List.mem_cons_of_mem _ hd,o,n,heq⟩

/-- The table that keeps its books is compiled, one entry behind the other. -/
theorem compileTable_spec {h : Handle} (hi : Intact h) :
    ∃ entries, compileTable (compileTablePrep h.chains).1 (compileTablePrep h.chains).2.1=
        some entries ∧
      Contiguous 0 entries (compileTablePrep h.chains).2.1 ∧
      entries.map (fun p => some p.placed)=
        (compileTablePrep h.chains).1.flatMap (chainPlaced (compileTablePrep h.chains).1)++
          [some .error] := by
  have haddrs : (compileTablePrep h.chains).1.map Chain.addr=h.chains.map Chain.addr :=
    map_compileChainsOffsets (fun _ _ _ => rfl) h.chains 0 0
  have hjumps : ∀ c∈(compileTablePrep h.chains).1, ∀ r∈c.rules, r.type=.jump →
      ∃ d∈(compileTablePrep h.chains).1, link r=jumpTo d.addr := by
    intro c' hc' r' hr' hjump
    obtain ⟨c,hc,o,n,rfl⟩ := exists_of_mem_compileChainsOffsets hc'
    obtain ⟨r,hr,heq⟩ := mem_compileRuleOffsets hr'
    have hlink : link r'=link r := by rw [heq]; rfl
    have hmem : link r∈links h.chains++[] := by
      rw [List.append_nil]
      exact List.mem_flatMap.mpr ⟨c,hc,List.mem_map_of_mem hr⟩
    rw [hlink]
    refine exists_jumpTo haddrs (hi.jumps (link r) hmem ?_)
    rw [←hlink]
    exact hjump
  obtain ⟨pss,hpss⟩ := @exists_mapM _ _ (compileChain (compileTablePrep h.chains).1)
    (compileTablePrep h.chains).1 fun c hc => compileChain_isSome (hjumps c hc)
  refine ⟨_,by rw [compileTable,hpss]; rfl,?_,?_⟩
  · have hbody := chains_contiguous hpss
    refine hbody.append ⟨?_,?_⟩
    · simp [compileTablePrep]
    · simp [compileTablePrep,Contiguous]
  · have hmap : pss.map (List.map fun p => some p.placed)=
        (compileTablePrep h.chains).1.map (chainPlaced (compileTablePrep h.chains).1) :=
      map_eq_of_mapM (fun c ps hp => map_placed_compileChain hp) hpss
    rw [List.map_append,List.map_flatten,hmap]
    rfl

/-! ## Counters follow their rules -/

section Follow

variable (table : KernelTable) (old : List Counters) (l : Ledger)

/-- The entries of a chain with the counters that each is to have: none for the
entry that opens a user-defined chain and for the one that closes it. -/
def chainRows (all : List Chain) (c : Chain) : List (Option Placed×Option Counters) :=
  (chainHead c).map (fun p => (some p.placed,some ⟨0,0⟩))++
    List.zipWith (fun r fate => ((compileRule all r).map Placed.rule,worth table old fate))
      c.rules (l c.addr).rules++
    [(some (chainFoot c).placed,
      if c.hooknum=0 then some ⟨0,0⟩ else worth table old (l c.addr).policy)]

/-- A counter map that reads the counters of the old table stays inside them. -/
def InsideOld (m : CounterMap) : Prop :=
  m.maptype=.normalMap ∨ m.maptype=.zeroed → m.mappos<table.numEntries

/-- The counters of a commit follow the ledger: there is a cell for every entry
of the block, in the order of the block, no cell is written twice, and each
holds what the ledger says of the rule or policy that is compiled there. -/
structure CountersFollow (h : Handle) (repl : Replacement) (new : Newcounters) : Prop where
  /-- The entries lie one behind the other. -/
  block : Contiguous 0 repl.entries repl.size
  /-- `num_entries` counts them. -/
  numEntries : repl.numEntries=repl.entries.length
  /-- There is a cell for every entry. -/
  cells : new.counters.length=repl.numEntries
  /-- No cell is written twice. -/
  once : new.written.Nodup
  /-- No write is outside. -/
  inside : ∀ i∈new.written, i<repl.numEntries
  /-- Every cell belongs to the entry that is compiled there. -/
  rows : List.zipWith (fun (p : Placement) v => (some p.placed,some v)) repl.entries new.counters=
    (compileTablePrep h.chains).1.flatMap
      (chainRows table old l (compileTablePrep h.chains).1)++[(some .error,some ⟨0,0⟩)]
  /-- No read is outside. -/
  mappos : ∀ c∈h.chains, InsideOld table c.counterMap ∧
    ∀ r∈c.rules, InsideOld table r.counterMap

variable {table old l}

/-- Numbering is no matter of the ledger. -/
theorem sound_compileChainOffsets {c : Chain} (hs : Sound table l (plain c)) (offset num : ℕ) :
    Sound table l (plain (compileChainOffsets c offset num).1) := by
  refine ⟨?_,fun r' hr' => ?_,hs.policy⟩
  · refine Eq.trans hs.account ?_
    simp only [account,plain,compileChainOffsets]
    rw [map_compileRuleOffsets fun _ _ _ => rfl]
  · obtain ⟨r,hr,heq⟩ := mem_compileRuleOffsets hr'
    rw [heq]
    exact hs.rules r hr

theorem recorded_lt {m : CounterMap} {own : Counters} (hrec : Recorded table m own) :
    InsideOld table m := by
  intro hor
  obtain ⟨e,he,-⟩ := hrec hor
  exact (List.getElem?_eq_some_iff.mp he).1

theorem inRange_of_sound {c : Chain} (hs : Sound table l (plain c))
    (hold : old.length=table.numEntries) : InRange old c :=
  ⟨fun r hr => (mapCounters_eq_worth (hs.rules r hr) hold).2,
    (mapCounters_eq_worth hs.policy hold).2⟩

/-- The rows of a chain are its entries and the values that are written. -/
theorem chainRows_eq {all : List Chain} {c : Chain} (hs : Sound table l (plain c))
    (hold : old.length=table.numEntries) :
    chainRows table old l all c=(chainPlaced all c).zip ((chainValues old c).map some) := by
  have hsome : ∀ {o : Option Counters}, o.isSome=true → some (o.getD ⟨0,0⟩)=o := by
    intro o ho
    obtain ⟨v,rfl⟩ := Option.isSome_iff_exists.mp ho
    rfl
  have hrules : List.zipWith
      (fun r fate => ((compileRule all r).map Placed.rule,worth table old fate)) c.rules
        (l c.addr).rules=
      (c.rules.map fun r => (compileRule all r).map Placed.rule).zip
        ((c.rules.map (ruleValue old)).map some) := by
    have hfates : (l c.addr).rules=c.rules.map ruleFate := congrArg Account.rules hs.account
    rw [hfates,List.zipWith_map_right,List.zipWith_self,List.map_map,List.zip_map']
    apply List.map_congr_left
    intro r hr
    obtain ⟨hworth,hin⟩ := mapCounters_eq_worth (hs.rules r hr) hold
    rw [Function.comp_apply,ruleValue,hsome hin,hworth]
    rfl
  have hpolicy : worth table old (l c.addr).policy=
      some ((mapCounters old c.counterMap c.counters).getD ⟨0,0⟩) := by
    obtain ⟨hworth,hin⟩ := mapCounters_eq_worth hs.policy hold
    have hfate : (l c.addr).policy=fateOf c.counterMap c.counters :=
      congrArg Account.policy hs.account
    have hin' : (mapCounters old c.counterMap c.counters).isSome=true := hin
    rw [hfate,hsome hin']
    exact hworth.symm
  rw [chainRows,chainPlaced,chainValues,hrules,hpolicy,List.map_append,List.map_append,
    List.zip_append,List.zip_append]
  · by_cases hook : c.hooknum=0
    · simp [chainHead,hook]
    · simp [chainHead,hook]
  · by_cases hook : c.hooknum=0
    · simp [chainHead,hook]
    · simp [chainHead,hook]
  · by_cases hook : c.hooknum=0
    · simp [chainHead,hook]
    · simp [chainHead,hook]

theorem length_chainPlaced (all : List Chain) (c : Chain) :
    (chainPlaced all c).length=(chainValues old c).length := by
  rw [length_chainValues,chainPlaced]
  by_cases hook : c.hooknum=0
  · simp [chainHead,hook]
    omega
  · simp [chainHead,hook]

theorem compileChainsOffsets_end (chains : List Chain) (offset num : ℕ) :
    (compileChainsOffsets offset num chains).2.2=
      num+(chains.flatMap (chainValues old)).length := by
  induction chains generalizing offset num with
  | nil => rfl
  | cons c chains ih =>
    rw [compileChainsOffsets]
    dsimp only
    rw [ih,@compileChainOffsets_end old,List.flatMap_cons,List.length_append]
    omega

theorem zip_flatMap {α β γ : Type} {f : α → List β} {g : α → List γ}
    (hlen : ∀ x, (f x).length=(g x).length) (xs : List α) :
    (xs.flatMap f).zip (xs.flatMap g)=xs.flatMap fun x => (f x).zip (g x) := by
  induction xs with
  | nil => rfl
  | cons x xs ih => rw [List.flatMap_cons,List.flatMap_cons,List.zip_append (hlen x),ih,
      List.flatMap_cons]

/-- What is built when the kernel has taken the new table. -/
theorem writeChains_follow {h : Handle} (hi : Intact h)
    (hs : ∀ c∈ruleset h, Sound table l c) (hold : old.length=table.numEntries)
    {entries : List Placement}
    (hentries : compileTable (compileTablePrep h.chains).1 (compileTablePrep h.chains).2.1=
      some entries) :
    ∃ new, writeChains old ⟨List.replicate (compileTablePrep h.chains).2.2 ⟨0,0⟩,[]⟩
        (compileTablePrep h.chains).1=some new ∧
      CountersFollow table old l h ⟨entries,(compileTablePrep h.chains).2.2,
        (compileTablePrep h.chains).2.1,compileHooks (compileTablePrep h.chains).1⟩ new := by
  have hsc : ∀ c∈h.chains, Sound table l (plain c) := fun c hc => hs _ (List.mem_map_of_mem hc)
  obtain ⟨entries',hentries',hblock,hplaced⟩ := compileTable_spec hi
  rw [hentries] at hentries'
  cases hentries'
  have hnumber : (compileTablePrep h.chains).2.2=
      (h.chains.flatMap (chainValues old)).length+1 := by
    rw [compileTablePrep]
    dsimp only
    rw [@compileChainsOffsets_end old,Nat.zero_add]
  have hvalues : h.chains.flatMap (chainValues old)=
      (compileTablePrep h.chains).1.flatMap (chainValues old) := by
    rw [List.flatMap_def,List.flatMap_def,compileTablePrep]
    dsimp only
    rw [map_compileChainsOffsets]
    intro c offset num
    simp only [chainValues,compileChainOffsets]
    rw [map_compileRuleOffsets fun _ _ _ => rfl]
    rfl
  obtain ⟨written,hwrite,hnodup,hrange⟩ := @writeChains_eq old h.chains [] [⟨0,0⟩] [] 0
    fun c hc => inRange_of_sound (hsc c hc) hold
  have hcells : List.replicate (compileTablePrep h.chains).2.2 (⟨0,0⟩ : Counters)=
      []++List.replicate (h.chains.flatMap (chainValues old)).length ⟨0,0⟩++[⟨0,0⟩] := by
    rw [hnumber,List.replicate_succ',List.nil_append]
  have hlen : entries.length=(compileTablePrep h.chains).2.2 := by
    have hmap := congrArg List.length hplaced
    rw [List.length_map,List.length_append,List.length_flatMap] at hmap
    rw [hmap,hnumber,hvalues,List.length_flatMap]
    simp only [@length_chainPlaced old]
    rfl
  refine ⟨_,by rw [hcells]; exact hwrite,?_⟩
  refine ⟨hblock,hlen.symm,?_,hnodup,fun i hi => ?_,?_,fun c hc => ⟨?_,fun r hr => ?_⟩⟩
  · dsimp only
    rw [hnumber]
    simp
  · have hlt := (hrange i hi).2
    dsimp only
    rw [hnumber]
    simp at hlt ⊢
    omega
  · dsimp only
    have hsp : ∀ c∈(compileTablePrep h.chains).1, Sound table l (plain c) := by
      intro c' hc'
      obtain ⟨c,hc,o,n,rfl⟩ := exists_of_mem_compileChainsOffsets hc'
      exact sound_compileChainOffsets (hsc c hc) o n
    have hzip := @List.zipWith_map _ _ _ _ _
      (fun (a : Option Placed) (b : Option Counters) => (a,b))
      (fun p : Placement => some p.placed) some entries
      ([]++h.chains.flatMap (chainValues old)++[⟨0,0⟩])
    rw [←hzip,hplaced,List.nil_append,List.map_append,hvalues,List.map_flatMap]
    rw [←List.zip_eq_zipWith,List.zip_append,zip_flatMap]
    · congr 1
      apply List.flatMap_congr
      intro c hc
      exact (chainRows_eq (hsp c hc) hold).symm
    · intro c
      rw [List.length_map,@length_chainPlaced old]
    · rw [List.length_flatMap,List.length_flatMap]
      simp only [List.length_map,@length_chainPlaced old]
  · exact recorded_lt (hsc c hc).policy
  · exact recorded_lt ((hsc c hc).rules r hr)

/-- A commit that the ledger is right about returns, and if it builds counters they are those of the
ledger. It builds them if the table is marked and the kernel does not refuse it. -/
theorem tcCommit_follows {h : Handle} (hi : Intact h) (hs : ∀ c∈ruleset h, Sound table l c)
    {replace : Replacement → Option (List Counters)}
    (hreplace : ∀ repl old, replace repl=some old → old.length=table.numEntries) :
    ∃ result, tcCommit replace h=some result ∧
      (∀ repl new, result=.built repl new → ∃ old, replace repl=some old ∧
        CountersFollow table old l h repl new) ∧
      (h.changed=true → (∀ repl, (replace repl).isSome=true) →
        ∃ repl new, result=.built repl new) := by
  obtain ⟨entries,hentries,-⟩ := compileTable_spec hi
  by_cases hchanged : h.changed=false
  · refine ⟨.unchanged,by rw [tcCommit,if_pos hchanged],fun repl new hbuilt => ?_,fun hmark => ?_⟩
    · cases hbuilt
    · rw [hchanged] at hmark
      cases hmark
  · cases hrepl : replace ⟨entries,(compileTablePrep h.chains).2.2,(compileTablePrep h.chains).2.1,
      compileHooks (compileTablePrep h.chains).1⟩ with
    | none =>
      refine ⟨.refused,?_,(fun repl new hbuilt => by cases hbuilt),fun _ hall => ?_⟩
      · rw [tcCommit,if_neg hchanged]
        dsimp only
        rw [hentries,Option.bind_some,hrepl]
      · have hsome := hall ⟨entries,(compileTablePrep h.chains).2.2,
          (compileTablePrep h.chains).2.1,compileHooks (compileTablePrep h.chains).1⟩
        rw [hrepl] at hsome
        cases hsome
    | some old =>
      obtain ⟨new,hnew,hfollow⟩ := writeChains_follow hi hs (hreplace _ old hrepl) hentries
      refine ⟨.built ⟨entries,(compileTablePrep h.chains).2.2,(compileTablePrep h.chains).2.1,
        compileHooks (compileTablePrep h.chains).1⟩ new,?_,fun repl new' hbuilt => ?_,
          fun _ _ => ⟨_,_,rfl⟩⟩
      · rw [tcCommit,if_neg hchanged]
        dsimp only
        rw [hentries,Option.bind_some,hrepl]
        dsimp only
        rw [hnew]
        rfl
      · cases hbuilt
        exact ⟨old,hrepl,hfollow⟩

end Follow

/-- Counters follow their rules through a commit: whatever calls come between
`TC_INIT` and `TC_COMMIT`, the counters that are built are those of the ledger
that was kept for the rules since they were read. -/
theorem tcCommit_countersFollow {table : KernelTable} {wanted : ℕ → ℕ} {h₀ : Handle}
    (hinit : tcInit table wanted=some h₀)
    (isSame : Entry → Entry → List UInt8 → Option (List UInt8)) (calls : List Call)
    (replace : Replacement → Option (List Counters))
    (hreplace : ∀ repl old, replace repl=some old → old.length=table.numEntries) :
    (∀ c∈h₀.chains, ∀ r∈c.rules, table.entries[r.index]?=some r.entry) ∧
    ∃ h result, runCalls isSame h₀ calls=some h ∧ tcCommit replace h=some result ∧
      ∀ repl new, result=.built repl new → ∃ old, replace repl=some old ∧
        CountersFollow table old
          (ledgerAfter isSame (ruleset h₀) (initialLedger h₀) calls) h repl new := by
  refine ⟨fun c hc r hr => ((tcInit_read hinit hc).1 r hr).2,?_⟩
  obtain ⟨h,hrun,hi,hs⟩ := @ledgerAfter_sound isSame table h₀ (initialLedger h₀)
    (tcInit_intact hinit) (initialLedger_sound hinit) calls
  obtain ⟨result,hcommit,hbuilt,-⟩ := tcCommit_follows hi hs hreplace
  exact ⟨h,result,hrun,hcommit,hbuilt⟩

/-- A filter table with one rule in `INPUT`, its policy and the closing entry. -/
def smallTable : KernelTable where
  entries := [⟨152,⟨5,50⟩,[],[76,79,71],40,[0,0,0,0]⟩,
    ⟨152,⟨7,70⟩,[],standardTarget,40,[254,255,255,255]⟩,
    ⟨176,⟨0,0⟩,[],errorTarget,64,errorTarget⟩]
  validHooks := 2
  hookEntry := fun _ => 0
  nextOffset_pos := by decide

/-- A rule is inserted in front of the one that was read: that one keeps its
counters at its new place, and the policy has what it counted since. -/
theorem tcCommit_countersFollow_insert :
    ∃ h₀, tcInit smallTable id=some h₀ ∧
      (∃ repl new, ((runCalls sameBody h₀ [.insertEntry [73,78,80,85,84] logEntry 0]).bind
          (tcCommit fun _ => some [⟨6,60⟩,⟨9,90⟩,⟨0,0⟩]))=some (.built repl new) ∧
        new.counters=[⟨0,0⟩,⟨6,60⟩,⟨2,20⟩,⟨0,0⟩]) ∧
      ∃ h result, runCalls sameBody h₀ [.insertEntry [73,78,80,85,84] logEntry 0]=some h ∧
        tcCommit (fun _ => some [⟨6,60⟩,⟨9,90⟩,⟨0,0⟩]) h=some result ∧
        ∀ repl new, result=.built repl new → ∃ old, some [⟨6,60⟩,⟨9,90⟩,⟨0,0⟩]=some old ∧
          CountersFollow smallTable old (ledgerAfter sameBody (ruleset h₀) (initialLedger h₀)
            [.insertEntry [73,78,80,85,84] logEntry 0]) h repl new := by
  refine ⟨_,rfl,⟨_,_,rfl,by decide⟩,?_⟩
  have hold : ∀ repl old, (fun _ => some [⟨6,60⟩,⟨9,90⟩,⟨0,0⟩] :
      Replacement → Option (List Counters)) repl=some old →
        old.length=smallTable.numEntries := by
    intro repl old h
    cases h
    rfl
  exact (@tcCommit_countersFollow smallTable id _ rfl sameBody _ _ hold).2

end AndroidPlatform.LibiptcCommit
