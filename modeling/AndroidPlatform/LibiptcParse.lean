import AndroidPlatform.LibiptcRuleset

/-!
# Reading a table of the kernel

`TC_INIT` gets the entries of a table as one block and `parse_table` sorts them
into chains. An entry with the target `ERROR` opens a user-defined chain, an
entry at a hook opens a built-in one, and the last rule of each chain is taken
off again: it is the policy. Jumps are resolved when all chains are known. No
value is given where the code would follow a pointer to nothing. The search
by offset is taken as exact, as the search by name is.
-/

namespace AndroidPlatform.LibiptcParse

open WireBytes Libiptc LibiptcRuleset

/-! ## The block of entries -/

/-- What the kernel hands out for a table. -/
structure KernelTable where
  /-- The entries, in the order of the block. -/
  entries : List Entry
  /-- `valid_hooks`. -/
  validHooks : ℕ
  /-- `hook_entry`. -/
  hookEntry : ℕ → ℕ
  /-- No entry is empty. -/
  nextOffset_pos : ∀ e∈entries, 0 < e.nextOffset

/-- `num_entries`. -/
def KernelTable.numEntries (table : KernelTable) : ℕ := table.entries.length

/-- `size`. -/
def KernelTable.size (table : KernelTable) : ℕ := (table.entries.map Entry.nextOffset).sum

/-- `NUMHOOKS`. -/
def numHooks : ℕ := 5

/-- `TABLE_MAXNAMELEN`. -/
def tableMaxnamelen : ℕ := 32

/-- `ERROR_TARGET`. -/
def errorTarget : Name := [69,82,82,79,82]

/-- `hooknames`: `PREROUTING`, `INPUT`, `FORWARD`, `OUTPUT` and `POSTROUTING`. -/
def hooknames : List Name :=
  [[80,82,69,82,79,85,84,73,78,71],[73,78,80,85,84],[70,79,82,87,65,82,68],
    [79,85,84,80,85,84],[80,79,83,84,82,79,85,84,73,78,71]]

/-- `iptcb_ent_is_hook_entry`: one more than the hook whose first entry is at
this offset, or zero. -/
def entIsHookEntry (table : KernelTable) (offset : ℕ) : ℕ :=
  match (List.range numHooks).find? fun i =>
    table.validHooks.testBit i && decide (table.hookEntry i=offset) with
  | some i => i+1
  | none => 0

/-- The name in the data of an `ERROR` target, as `strncpy` takes it. -/
def errorname (data : List UInt8) : Name := (data.take tableMaxnamelen).takeWhile fun b => b≠0

/-! ## Chains and rules -/

/-- The table while it is read. -/
structure ParseState where
  /-- `chains`. -/
  chains : List Chain
  /-- `chain_iterator_cur`, the chain that is being read. -/
  current : Option ℕ
  /-- `num_chains`. -/
  numChains : ℕ
  /-- `num`, the number of entries seen. -/
  num : ℕ

/-- The last rule of a chain becomes its policy. -/
def closeChain (num : ℕ) (pr : Rule) (c : Chain) : Chain :=
  {c with
    verdict := pr.entry.verdict
    counterMap := ⟨.zeroed,num-1⟩
    counters := pr.entry.counters
    footIndex := num
    footOffset := pr.offset
    rules := c.rules.dropLast
    numRules := c.numRules-1}

/-- `__iptcc_p_del_policy`. The rule that is deleted has no jump yet. -/
def pDelPolicy (s : ParseState) : Option ParseState :=
  match s.current with
  | none => some s
  | some addr =>
    (s.chains.find? fun c => c.addr=addr).bind fun c => c.rules.getLast?.bind fun pr =>
      some {s with chains := modifyChain addr (closeChain s.num pr) s.chains}

/-- Where `__iptcc_p_add_chain` puts a chain. -/
def placeChain (c : Chain) (chains : List Chain) : Option (List Chain) :=
  if c.hooknum≠0 then some (chains++[c])
  else
    chains.getLast?.bind fun ctail =>
      if strcmpLe c.name ctail.name=false ∨ ctail.hooknum≠0 then some (chains++[c])
      else some (insertChain c chains)

/-- `__iptcc_p_add_chain` -/
def pAddChain (s : ParseState) (c : Chain) (offset : ℕ) : Option ParseState :=
  (pDelPolicy s).bind fun s => (placeChain {c with headOffset := offset} s.chains).bind fun chains =>
    some {s with chains := chains, current := some c.addr}

/-- The type of a rule that was read. -/
def readType (e : Entry) (offset : ℕ) : RuleType :=
  if e.targetName=standardTarget then
    if 2^31≤e.verdict.toNat then .standard
    else if e.verdict.toNat=offset+e.nextOffset then .fallthrough
    else .jump
  else .module

/-- A rule that was read. -/
def readRule (e : Entry) (offset num : ℕ) : Rule where
  counterMap := ⟨.normalMap,num⟩
  index := num
  offset := offset
  type := readType e offset
  jump := none
  size := e.nextOffset
  entry := e

/-- The rule branch of `cache_add_entry`: the table and whether to go on. -/
def addRule (s : ParseState) (e : Entry) (offset : ℕ) : Option (ParseState×Bool) :=
  if e.targetName=standardTarget ∧ e.targetSize≠standardTargetSize then some (s,false)
  else
    s.current.bind fun addr =>
      some ({s with
        chains := modifyChain addr
          (fun c => {c with
            rules := c.rules++[readRule e offset s.num], numRules := c.numRules+1}) s.chains
        num := s.num+1},true)

section

variable (table : KernelTable) (wanted : ℕ → ℕ)

/-- A new chain, at the address that the allocator gives. -/
def newChain (s : ParseState) (name : Name) (hooknum : ℕ) : Chain :=
  allocChainHead (mallocChain s.chains (wanted s.num)) name hooknum

/-- `cache_add_entry` -/
def cacheAddEntry (s : ParseState) (e : Entry) (offset : ℕ) : Option (ParseState×Bool) :=
  if offset+e.nextOffset=table.size then
    (pDelPolicy s).map fun s => ({s with current := none, num := s.num+1},true)
  else if e.targetName=errorTarget then
    (pAddChain {s with numChains := s.numChains+1}
      (newChain wanted s (errorname e.targetData) 0) offset).map fun s =>
        ({s with num := s.num+1},true)
  else if entIsHookEntry table offset≠0 then
    let builtin := entIsHookEntry table offset
    (pAddChain s (newChain wanted s (hooknames.getD (builtin-1) []) builtin) offset).bind fun s =>
      addRule s e offset
  else addRule s e offset

/-- `ENTRY_ITERATE` with `cache_add_entry`, which ends early on a bad entry. -/
def cacheEntries (s : ParseState) (offset : ℕ) : List Entry → Option ParseState
  | [] => some s
  | e::entries =>
    (cacheAddEntry table wanted s e offset).bind fun r =>
      if r.2=true then cacheEntries r.1 (offset+e.nextOffset) entries else some r.1

/-! ## Jumps -/

/-- `iptcc_find_chain_by_offset` -/
def findChainByOffset (chains : List Chain) (offset : ℕ) : Option Chain :=
  chains.find? fun c => c.headOffset≤offset ∧ offset≤c.footOffset

/-- The rule with the chain to which it jumps. -/
def linkJump (chains : List Chain) (r : Rule) : Option Rule :=
  if r.type≠.jump then some r
  else (findChainByOffset chains r.entry.verdict.toNat).map fun lc => {r with jump := some lc.addr}

/-- The rules of a chain with the chains to which they jump. -/
def linkRules (chains : List Chain) (c : Chain) : Option Chain :=
  (c.rules.mapM (linkJump chains)).map fun rules => {c with rules := rules}

/-- One more reference for the chain to which a rule jumps. -/
def countJump (chains : List Chain) (l : RuleType×Option ℕ) : List Chain :=
  match l with
  | (.jump,some addr) =>
    modifyChain addr (fun c => {c with references := c.references+1}) chains
  | _ => chains

/-- The loop of `parse_table` over all rules. The searches read only offsets,
so that all of them can come before the counting. -/
def linkJumps (chains : List Chain) : Option (List Chain) :=
  (chains.mapM (linkRules chains)).map fun linked => (links linked).foldl countJump linked

/-- `parse_table` and the rest of `TC_INIT`, with the addresses that the
allocator offers. -/
def tcInit : Option Handle :=
  (cacheEntries table wanted ⟨[],none,0,0⟩ 0 table.entries).bind fun s =>
    (linkJumps s.chains).map fun chains => ⟨false,chains,s.numChains⟩

end

/-! ## What is read -/

/-- A chain as it was read: its rules are entries of the table at their
indices, and the counters of a policy come from the entry to which its map
points. -/
structure ReadChain (table : KernelTable) (c : Chain) : Prop where
  /-- `num_rules` counts the rules. -/
  numRules : c.numRules=c.rules.length
  /-- Nothing jumps to the chain yet. -/
  references : c.references=0
  /-- Rules do not jump yet. -/
  jump : ∀ r∈c.rules, r.jump=none
  /-- The counters of a rule stay with it. -/
  counterMap : ∀ r∈c.rules, r.counterMap=⟨.normalMap,r.index⟩
  /-- A rule is the entry at its index. -/
  entry : ∀ r∈c.rules, table.entries[r.index]?=some r.entry
  /-- A policy has the counters of its entry. -/
  policy : c.counterMap.maptype=.nomap ∨ c.counterMap.maptype=.zeroed ∧
    ∃ e, table.entries[c.counterMap.mappos]?=some e ∧ e.counters=c.counters

/-- The chains of a table that is being read. -/
structure Parsed (table : KernelTable) (chains : List Chain) : Prop where
  /-- No two chains share an address. -/
  addrs : (chains.map Chain.addr).Nodup
  /-- Every chain is as it was read. -/
  chain : ∀ c∈chains, ReadChain table c

/-- The last rule of the chain that is being read is the last entry seen. -/
def AtLast (s : ParseState) : Prop :=
  ∀ addr, s.current=some addr → ∀ c∈s.chains, c.addr=addr →
    ∀ r, c.rules.getLast?=some r → r.index+1=s.num

section Reading

variable {table : KernelTable} {wanted : ℕ → ℕ} {s s' : ParseState} {c : Chain}

theorem Parsed.modifyChain {chains : List Chain} (hp : Parsed table chains) {f : Chain → Chain}
    {addr : ℕ} (haddr : ∀ c, (f c).addr=c.addr)
    (hf : ∀ c∈chains, c.addr=addr → ReadChain table (f c)) :
    Parsed table (modifyChain addr f chains) := by
  refine ⟨?_,fun d hd => ?_⟩
  · rw [map_addr_modifyChain haddr]
    exact hp.addrs
  · obtain ⟨c,hc,rfl⟩ := mem_modifyChain.mp hd
    by_cases hca : c.addr=addr
    · rw [if_pos hca]
      exact hf c hc hca
    · rw [if_neg hca]
      exact hp.chain c hc

/-- The policy of a chain is the entry before the next chain. -/
theorem ReadChain.close {pr : Rule} (hc : ReadChain table c) (hlast : c.rules.getLast?=some pr)
    (num : ℕ) (hnum : pr.index+1=num) : ReadChain table (closeChain num pr c) := by
  have hmem : pr∈c.rules := List.mem_of_getLast? hlast
  have hsub : ∀ r∈c.rules.dropLast, r∈c.rules := fun r hr => List.dropLast_subset _ hr
  refine ⟨?_,hc.references,fun r hr => hc.jump r (hsub r hr),
    fun r hr => hc.counterMap r (hsub r hr),fun r hr => hc.entry r (hsub r hr),?_⟩
  · simp [closeChain,hc.numRules]
  · refine Or.inr ⟨rfl,pr.entry,?_,rfl⟩
    have hmappos : (closeChain num pr c).counterMap.mappos=pr.index := by
      simp only [closeChain]
      omega
    rw [hmappos]
    exact hc.entry pr hmem

theorem pDelPolicy_parsed (hp : Parsed table s.chains) (hlast : AtLast s)
    (hs : pDelPolicy s=some s') :
    Parsed table s'.chains ∧ s'.num=s.num ∧
      s'.chains.map Chain.addr=s.chains.map Chain.addr := by
  unfold pDelPolicy at hs
  split at hs
  · cases hs
    exact ⟨hp,rfl,rfl⟩
  · rename_i addr hcur
    obtain ⟨c,hfind,hs⟩ := Option.bind_eq_some_iff.mp hs
    obtain ⟨pr,hpr,hs⟩ := Option.bind_eq_some_iff.mp hs
    cases hs
    have hc : c∈s.chains := List.mem_of_find?_eq_some hfind
    have hcaddr : c.addr=addr := by simpa using List.find?_some hfind
    refine ⟨hp.modifyChain (fun _ => rfl) fun d hd hda => ?_,rfl,
      @map_addr_modifyChain (closeChain s.num pr) (fun _ => rfl) addr s.chains⟩
    have hsame : d=c := List.inj_on_of_nodup_map hp.addrs hd hc (hda.trans hcaddr.symm)
    rw [hsame]
    exact (hp.chain c hc).close hpr s.num (hlast addr hcur c hc hcaddr pr hpr)

theorem placeChain_perm {chains chains' : List Chain} (hp : placeChain c chains=some chains') :
    chains'.Perm (c::chains) := by
  have htail : (chains++[c]).Perm (c::chains) := List.perm_append_singleton c chains
  unfold placeChain at hp
  split at hp
  · cases hp
    exact htail
  · obtain ⟨ctail,-,hp⟩ := Option.bind_eq_some_iff.mp hp
    split at hp
    · cases hp
      exact htail
    · cases hp
      exact insertChain_perm c chains

/-- A new chain closes the one before and has no rules yet. -/
theorem pAddChain_parsed {offset : ℕ} (hp : Parsed table s.chains) (hlast : AtLast s)
    (hfree : c.addr∉s.chains.map Chain.addr) (hc : ReadChain table c) (hrules : c.rules=[])
    (hs : pAddChain s c offset=some s') :
    Parsed table s'.chains ∧ s'.num=s.num ∧ ∀ num, AtLast {s' with num := num} := by
  obtain ⟨t,ht,hs⟩ := Option.bind_eq_some_iff.mp hs
  obtain ⟨chains,hplace,hs⟩ := Option.bind_eq_some_iff.mp hs
  cases hs
  obtain ⟨htp,htnum,htaddrs⟩ := pDelPolicy_parsed hp hlast ht
  have hperm := placeChain_perm hplace
  have hfree' : c.addr∉t.chains.map Chain.addr := htaddrs ▸ hfree
  refine ⟨⟨?_,fun d hd => ?_⟩,htnum,?_⟩
  · rw [(hperm.map Chain.addr).nodup_iff]
    exact List.nodup_cons.mpr ⟨hfree',htp.addrs⟩
  · rcases List.mem_cons.mp (hperm.mem_iff.mp hd) with rfl|hd
    · exact ⟨hc.numRules,hc.references,hc.jump,hc.counterMap,hc.entry,hc.policy⟩
    · exact htp.chain d hd
  · intro num addr hcur d hd hda r hr
    have hca : c.addr=addr := Option.some.inj hcur
    rcases List.mem_cons.mp (hperm.mem_iff.mp hd) with rfl|hd
    · dsimp only at hr
      rw [hrules] at hr
      cases hr
    · exact absurd (hda.trans hca.symm ▸ List.mem_map_of_mem hd) hfree'

/-- What one entry does. -/
structure EntryRead (table : KernelTable) (s s' : ParseState) (ok : Bool) : Prop where
  /-- The chains stay as they were read. -/
  parsed : Parsed table s'.chains
  /-- The entry is counted, and it is the last one seen. -/
  next : ok=true → s'.num=s.num+1 ∧ AtLast s'

theorem addRule_read {e : Entry} {offset : ℕ} {ok : Bool} (hp : Parsed table s.chains)
    (he : table.entries[s.num]?=some e) (hs : addRule s e offset=some (s',ok)) :
    EntryRead table s s' ok := by
  unfold addRule at hs
  split at hs
  · cases hs
    exact ⟨hp,fun h => by cases h⟩
  · obtain ⟨addr,hcur,hs⟩ := Option.bind_eq_some_iff.mp hs
    cases hs
    refine ⟨hp.modifyChain (fun _ => rfl) fun c hc _ => ?_,fun _ => ⟨rfl,?_⟩⟩
    · have hread := hp.chain c hc
      have hrule : ∀ {p : Rule → Prop}, (∀ r∈c.rules, p r) → p (readRule e offset s.num) →
          ∀ r∈c.rules++[readRule e offset s.num], p r := by
        intro p hold hnew r hr
        rcases List.mem_append.mp hr with hr|hr
        · exact hold r hr
        · rw [List.mem_singleton.mp hr]
          exact hnew
      refine ⟨?_,hread.references,hrule hread.jump rfl,hrule hread.counterMap rfl,
        hrule hread.entry he,hread.policy⟩
      dsimp only
      rw [List.length_append,hread.numRules]
      rfl
    · intro a ha d hd hda r hr
      have haddr : addr=a := by
        dsimp only at ha
        rw [hcur] at ha
        exact Option.some.inj ha
      obtain ⟨c,hc,rfl⟩ := mem_modifyChain.mp hd
      by_cases hca : c.addr=addr
      · rw [if_pos hca] at hr
        dsimp only at hr
        rw [List.getLast?_append,List.getLast?_singleton,Option.some_or] at hr
        rw [←Option.some.inj hr]
        rfl
      · rw [if_neg hca] at hda
        exact absurd (hda.trans haddr.symm) hca

theorem newChain_read (table : KernelTable) (wanted : ℕ → ℕ) (s : ParseState) (name : Name)
    (hooknum : ℕ) : ReadChain table (newChain wanted s name hooknum) where
  numRules := rfl
  references := rfl
  jump := fun _ hr => by cases hr
  counterMap := fun _ hr => by cases hr
  entry := fun _ hr => by cases hr
  policy := Or.inl rfl

theorem cacheAddEntry_read {e : Entry} {offset : ℕ} {ok : Bool} (hp : Parsed table s.chains)
    (hlast : AtLast s) (he : table.entries[s.num]?=some e)
    (hs : cacheAddEntry table wanted s e offset=some (s',ok)) : EntryRead table s s' ok := by
  unfold cacheAddEntry at hs
  split at hs
  · obtain ⟨t,ht,heq⟩ := Option.map_eq_some_iff.mp hs
    cases heq
    obtain ⟨htp,htnum,-⟩ := pDelPolicy_parsed hp hlast ht
    refine ⟨htp,fun _ => ⟨by rw [htnum],?_⟩⟩
    intro addr hcur
    cases hcur
  split at hs
  · obtain ⟨t,ht,heq⟩ := Option.map_eq_some_iff.mp hs
    cases heq
    have hadd := pAddChain_parsed (s := {s with numChains := s.numChains+1}) hp hlast
      (mallocChain_free s.chains (wanted s.num)) (newChain_read table wanted s _ 0) rfl ht
    obtain ⟨htp,htnum,hempty⟩ := hadd
    exact ⟨htp,fun _ => ⟨by rw [htnum],hempty _⟩⟩
  split at hs
  · obtain ⟨t,ht,hs⟩ := Option.bind_eq_some_iff.mp hs
    obtain ⟨htp,htnum,-⟩ := pAddChain_parsed hp hlast
      (mallocChain_free s.chains (wanted s.num)) (newChain_read table wanted s _ _) rfl ht
    have hread := addRule_read htp (htnum ▸ he) hs
    exact ⟨hread.parsed,fun hok => htnum ▸ hread.next hok⟩
  · exact addRule_read hp he hs

/-- Reading all entries. -/
theorem cacheEntries_parsed {entries done : List Entry} {offset : ℕ}
    (hentries : table.entries=done++entries) (hdone : s.num=done.length)
    (hp : Parsed table s.chains) (hlast : AtLast s)
    (hs : cacheEntries table wanted s offset entries=some s') : Parsed table s'.chains := by
  induction entries generalizing s offset done with
  | nil =>
    cases hs
    exact hp
  | cons e entries ih =>
    rw [cacheEntries] at hs
    obtain ⟨⟨t,ok⟩,ht,hs⟩ := Option.bind_eq_some_iff.mp hs
    have he : table.entries[s.num]?=some e := by
      rw [hentries,hdone,List.getElem?_append_right (Nat.le_refl _),Nat.sub_self]
      rfl
    have hread := cacheAddEntry_read hp hlast he ht
    cases ok with
    | false =>
      cases hs
      exact hread.parsed
    | true =>
      obtain ⟨hnum,htlast⟩ := hread.next rfl
      have hnext : table.entries=(done++[e])++entries := by
        rw [hentries,List.append_assoc]
        rfl
      refine ih hnext ?_ hread.parsed htlast hs
      rw [hnum,hdone,List.length_append]
      rfl

end Reading

/-! ## Jumps of a table that was read -/

section Loops

variable {α β γ : Type} {f : α → Option β} {xs : List α} {ys : List β}

theorem mapM_cons_eq_some {x : α} (h : (x::xs).mapM f=some ys) :
    ∃ y rest, f x=some y ∧ xs.mapM f=some rest ∧ ys=y::rest := by
  rw [List.mapM_cons] at h
  obtain ⟨y,hy,h⟩ := Option.bind_eq_some_iff.mp h
  obtain ⟨rest,hrest,h⟩ := Option.bind_eq_some_iff.mp h
  cases h
  exact ⟨y,rest,hy,hrest,rfl⟩

/-- What a loop that may fail leaves alone. -/
theorem map_eq_of_mapM {g : β → γ} {g' : α → γ} (hg : ∀ x y, f x=some y → g y=g' x)
    (h : xs.mapM f=some ys) : ys.map g=xs.map g' := by
  induction xs generalizing ys with
  | nil =>
    rw [List.mapM_nil] at h
    cases h
    rfl
  | cons x xs ih =>
    obtain ⟨y,rest,hy,hrest,rfl⟩ := mapM_cons_eq_some h
    rw [List.map_cons,List.map_cons,hg x y hy,ih hrest]

/-- Every value of such a loop comes from an element. -/
theorem exists_of_mem_mapM (h : xs.mapM f=some ys) {y : β} (hy : y∈ys) :
    ∃ x∈xs, f x=some y := by
  induction xs generalizing ys with
  | nil =>
    rw [List.mapM_nil] at h
    cases h
    cases hy
  | cons x xs ih =>
    obtain ⟨y',rest,hy',hrest,rfl⟩ := mapM_cons_eq_some h
    rcases List.mem_cons.mp hy with rfl|hy
    · exact ⟨x,List.mem_cons_self ..,hy'⟩
    · obtain ⟨x',hx',heq⟩ := ih hrest hy
      exact ⟨x',List.mem_cons_of_mem _ hx',heq⟩

end Loops

/-- Linking a rule changes nothing but its jump, which leads to a chain. -/
theorem linkJump_spec {chains : List Chain} {r r' : Rule} (h : linkJump chains r=some r') :
    r'={r with jump := r'.jump} ∧
      (r.type=.jump → ∃ c∈chains, link r'=jumpTo c.addr) := by
  unfold linkJump at h
  split at h
  · rename_i htype
    cases h
    exact ⟨rfl,fun hjump => absurd hjump htype⟩
  · rename_i htype
    obtain ⟨lc,hlc,rfl⟩ := Option.map_eq_some_iff.mp h
    refine ⟨rfl,fun _ => ⟨lc,List.mem_of_find?_eq_some hlc,?_⟩⟩
    rw [link,not_not.mp htype]
    rfl

theorem linkRules_spec {chains : List Chain} {c c' : Chain} (h : linkRules chains c=some c') :
    c'={c with rules := c'.rules} ∧ c.rules.mapM (linkJump chains)=some c'.rules := by
  obtain ⟨rules,hrules,rfl⟩ := Option.map_eq_some_iff.mp h
  exact ⟨rfl,hrules⟩

/-- Counting jumps changes nothing but references. -/
theorem countJump_spec (chains : List Chain) (l : RuleType×Option ℕ) :
    ∃ f : Chain → Chain, countJump chains l=chains.map f ∧
      ∀ c, f c={c with references := c.references+if l=jumpTo c.addr then 1 else 0} := by
  unfold countJump
  split
  · rename_i addr
    refine ⟨_,rfl,fun c => ?_⟩
    by_cases hc : c.addr=addr
    · rw [if_pos hc,if_pos (by rw [jumpTo,hc])]
    · rw [if_neg hc,if_neg]
      · rfl
      · intro heq
        exact hc (by simpa [jumpTo] using heq.symm)
  · rename_i hno
    refine ⟨id,(List.map_id chains).symm,fun c => ?_⟩
    rw [if_neg]
    · rfl
    · intro heq
      exact hno c.addr heq

theorem foldl_countJump (ls : List (RuleType×Option ℕ)) (chains : List Chain) :
    ls.foldl countJump chains=
      chains.map fun c => {c with references := c.references+ls.count (jumpTo c.addr)} := by
  induction ls generalizing chains with
  | nil =>
    conv_lhs => rw [List.foldl_nil,←List.map_id chains]
    rfl
  | cons l ls ih =>
    obtain ⟨f,hf,hfc⟩ := countJump_spec chains l
    rw [List.foldl_cons,ih,hf,List.map_map]
    apply List.map_congr_left
    intro c _
    simp only [Function.comp_apply,hfc c,List.count_cons]
    by_cases hl : l=jumpTo c.addr
    · subst hl
      simp
      omega
    · have hl' : (l==jumpTo c.addr)=false := by simpa using hl
      simp [hl,hl']

/-- A chain of a table that was read, with its rules linked. -/
theorem exists_of_mem_linkJumps {chains linked : List Chain} (hl : linkJumps chains=some linked)
    {c : Chain} (hc : c∈linked) : ∃ d∈chains, ∃ rules, d.rules.mapM (linkJump chains)=some rules ∧
      c={d with rules := rules, references := c.references} := by
  obtain ⟨mid,hmid,rfl⟩ := Option.map_eq_some_iff.mp hl
  rw [foldl_countJump] at hc
  obtain ⟨m,hm,rfl⟩ := List.mem_map.mp hc
  obtain ⟨d,hd,hdm⟩ := exists_of_mem_mapM hmid hm
  obtain ⟨hrest,hrules⟩ := linkRules_spec hdm
  refine ⟨d,hd,m.rules,hrules,?_⟩
  rw [hrest]

/-- The table that is read keeps its books. -/
theorem linkJumps_intact {table : KernelTable} {chains linked : List Chain}
    (hp : Parsed table chains) (hl : linkJumps chains=some linked) (changed : Bool) (n : ℕ) :
    Intact ⟨changed,linked,n⟩ := by
  obtain ⟨mid,hmid,rfl⟩ := Option.map_eq_some_iff.mp hl
  have haddr : mid.map Chain.addr=chains.map Chain.addr :=
    map_eq_of_mapM (fun d m hdm => by rw [(linkRules_spec hdm).1]) hmid
  have hchain : ∀ m∈mid, ∃ d∈chains, m={d with rules := m.rules} ∧
      d.rules.mapM (linkJump chains)=some m.rules := by
    intro m hm
    obtain ⟨d,hd,hdm⟩ := exists_of_mem_mapM hmid hm
    exact ⟨d,hd,linkRules_spec hdm⟩
  have hlinks : links (mid.map fun c =>
      {c with references := c.references+(links mid).count (jumpTo c.addr)})=links mid := by
    rw [links,List.flatMap_map]
    rfl
  rw [foldl_countJump]
  refine ⟨?_,fun c hc => ?_,fun c hc => ?_,fun l hmem hjump => ?_⟩
  · dsimp only
    rw [List.map_map]
    exact haddr ▸ hp.addrs
  · obtain ⟨m,hm,rfl⟩ := List.mem_map.mp hc
    obtain ⟨d,hd,hdm,hrules⟩ := hchain m hm
    have hlen : m.rules.length=d.rules.length := by
      have hmap := @map_eq_of_mapM _ _ Unit _ _ _ (fun _ => ()) (fun _ => ())
        (fun _ _ _ => rfl) hrules
      simpa using congrArg List.length hmap
    dsimp only
    rw [hlen,←(hp.chain d hd).numRules,hdm]
  · obtain ⟨m,hm,rfl⟩ := List.mem_map.mp hc
    obtain ⟨d,hd,hdm,-⟩ := hchain m hm
    have hzero : m.references=0 := by
      rw [hdm]
      exact (hp.chain d hd).references
    dsimp only
    rw [hlinks,hzero,List.append_nil,Nat.zero_add]
  · dsimp only at hmem
    rw [hlinks,List.append_nil] at hmem
    obtain ⟨m,hm,hl'⟩ := List.mem_flatMap.mp hmem
    obtain ⟨r',hr',rfl⟩ := List.mem_map.mp hl'
    obtain ⟨d,hd,-,hrules⟩ := hchain m hm
    obtain ⟨r,-,hr⟩ := exists_of_mem_mapM hrules hr'
    obtain ⟨hsame,hto⟩ := linkJump_spec hr
    have htype : r.type=.jump := by
      rw [hsame] at hjump
      exact hjump
    refine exists_jumpTo ?_ (hto htype)
    dsimp only
    rw [List.map_map]
    exact haddr

/-- What `TC_INIT` reads. -/
theorem tcInit_parsed {table : KernelTable} {wanted : ℕ → ℕ} {h : Handle}
    (hinit : tcInit table wanted=some h) :
    ∃ chains, Parsed table chains ∧ linkJumps chains=some h.chains := by
  obtain ⟨s,hs,hinit⟩ := Option.bind_eq_some_iff.mp hinit
  obtain ⟨chains,hchains,rfl⟩ := Option.map_eq_some_iff.mp hinit
  have hempty : Parsed table [] := ⟨List.nodup_nil,fun c hc => by cases hc⟩
  have hfirst : AtLast ⟨[],none,0,0⟩ := fun addr hcur => by cases hcur
  exact ⟨s.chains,cacheEntries_parsed (List.nil_append _).symm rfl hempty hfirst hs,hchains⟩

/-- `TC_INIT` gives a table that keeps its books. -/
theorem tcInit_intact {table : KernelTable} {wanted : ℕ → ℕ} {h : Handle}
    (hinit : tcInit table wanted=some h) : Intact h := by
  obtain ⟨chains,hp,hl⟩ := tcInit_parsed hinit
  exact linkJumps_intact hp hl h.changed h.numChains

/-- What `TC_INIT` says about the counters of rules and policies. -/
theorem tcInit_read {table : KernelTable} {wanted : ℕ → ℕ} {h : Handle}
    (hinit : tcInit table wanted=some h) {c : Chain} (hc : c∈h.chains) :
    (∀ r∈c.rules, r.counterMap=⟨.normalMap,r.index⟩ ∧ table.entries[r.index]?=some r.entry) ∧
      (c.counterMap.maptype=.nomap ∨ c.counterMap.maptype=.zeroed ∧
        ∃ e, table.entries[c.counterMap.mappos]?=some e ∧ e.counters=c.counters) := by
  obtain ⟨chains,hp,hl⟩ := tcInit_parsed hinit
  obtain ⟨d,hd,rules,hrules,hcd⟩ := exists_of_mem_linkJumps hl hc
  have hread := hp.chain d hd
  refine ⟨fun r' hr' => ?_,?_⟩
  · have hmem : r'∈rules := by
      rw [hcd] at hr'
      exact hr'
    obtain ⟨r,hr,hlink⟩ := exists_of_mem_mapM hrules hmem
    obtain ⟨hsame,-⟩ := linkJump_spec hlink
    rw [hsame]
    exact ⟨hread.counterMap r hr,hread.entry r hr⟩
  · rw [hcd]
    exact hread.policy

end AndroidPlatform.LibiptcParse
