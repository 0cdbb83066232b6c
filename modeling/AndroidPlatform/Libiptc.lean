import AndroidPlatform.WireBytes

/-!
# The rule tables of libiptc

The cache of a packet filter table as `libiptc.c` keeps it, and the calls that
edit it. Chains are identified by their addresses, to which rules point, and
are looked up by name. The chain index is left out: a lookup here always finds
the chain. A call gives its return value, and no value at all where the code
would follow a null pointer.
-/

namespace AndroidPlatform.Libiptc

open WireBytes

/-- A C string without its end. -/
abbrev Name := List UInt8

/-- `STRUCT_COUNTERS`. -/
structure Counters where
  /-- Packets. -/
  pcnt : UInt64
  /-- Bytes. -/
  bcnt : UInt64
  deriving DecidableEq

/-- Where the counters of a rule come from at the next commit. -/
inductive MapType where
  | nomap
  | normalMap
  | zeroed
  | set
  deriving DecidableEq

/-- `struct counter_map`. -/
structure CounterMap where
  /-- `maptype`. -/
  maptype : MapType
  /-- `mappos`. -/
  mappos : ℕ
  deriving DecidableEq

/-- `enum iptcc_rule_type`. -/
inductive RuleType where
  | standard
  | module
  | fallthrough
  | jump
  deriving DecidableEq

/-- `STRUCT_ENTRY` with its matches and its target. -/
structure Entry where
  /-- `next_offset`, the size of the entry. -/
  nextOffset : ℕ
  /-- `counters`. -/
  counters : Counters
  /-- Everything up to the target but the counters. -/
  body : List UInt8
  /-- `u.user.name` of the target. -/
  targetName : Name
  /-- `u.target_size` of the target. -/
  targetSize : ℕ
  /-- `data` of the target. -/
  targetData : List UInt8
  deriving DecidableEq

/-- `struct rule_head`. -/
structure Rule where
  /-- `counter_map`. -/
  counterMap : CounterMap
  /-- `index`, the position among the entries of the table. -/
  index : ℕ
  /-- `offset` in the table. -/
  offset : ℕ
  /-- `type`. -/
  type : RuleType
  /-- `jump`, the address of a chain. -/
  jump : Option ℕ
  /-- `size`. -/
  size : ℕ
  /-- `entry`. -/
  entry : Entry
  deriving DecidableEq

/-- `struct chain_head`. -/
structure Chain where
  /-- The address of the structure. -/
  addr : ℕ
  /-- `name`. -/
  name : Name
  /-- `hooknum`, zero for a user-defined chain. -/
  hooknum : ℕ
  /-- `references`. -/
  references : ℕ
  /-- `verdict`, the policy of a built-in chain. -/
  verdict : UInt32
  /-- `counters` of the policy. -/
  counters : Counters
  /-- `counter_map` of the policy. -/
  counterMap : CounterMap
  /-- `num_rules`. -/
  numRules : ℕ
  /-- `rules`. -/
  rules : List Rule
  /-- `head_offset`. -/
  headOffset : ℕ
  /-- `foot_index`. -/
  footIndex : ℕ
  /-- `foot_offset`. -/
  footOffset : ℕ
  deriving DecidableEq

/-- The part of `struct xtc_handle` that the calls change. -/
structure Handle where
  /-- `changed`. -/
  changed : Bool
  /-- `chains`. -/
  chains : List Chain
  /-- `num_chains`. -/
  numChains : ℕ
  deriving DecidableEq

/-! ## Names and verdicts -/

/-- `LABEL_ACCEPT`. -/
def labelAccept : Name := [65,67,67,69,80,84]

/-- `LABEL_DROP`. -/
def labelDrop : Name := [68,82,79,80]

/-- `LABEL_QUEUE`. -/
def labelQueue : Name := [81,85,69,85,69]

/-- `LABEL_RETURN`. -/
def labelReturn : Name := [82,69,84,85,82,78]

/-- `STANDARD_TARGET`, the empty string. -/
def standardTarget : Name := []

/-- `sizeof(IPT_CHAINLABEL)`. -/
def sizeofChainlabel : ℕ := 32

/-- `ALIGN(sizeof(STRUCT_STANDARD_TARGET))`. -/
def standardTargetSize : ℕ := 40

/-- `-NF_ACCEPT - 1`. -/
def verdictAccept : UInt32 := 0xfffffffe

/-- `-NF_DROP - 1`. -/
def verdictDrop : UInt32 := 0xffffffff

/-- `-NF_QUEUE - 1`. -/
def verdictQueue : UInt32 := 0xfffffffc

/-- `RETURN`. -/
def verdictReturn : UInt32 := 0xfffffffb

/-- `strcmp(a, b) <= 0`. -/
def strcmpLe : Name → Name → Bool
  | [],_ => true
  | _::_,[] => false
  | a::as,b::bs => if a=b then strcmpLe as bs else decide (a<b)

/-- The verdict at the start of the data of a standard target. -/
def Entry.verdict (e : Entry) : UInt32 := load32At e.targetData 0

/-! ## Chains and rules -/

/-- `iptcc_find_label`. -/
def findLabel (name : Name) (chains : List Chain) : Option Chain :=
  chains.find? fun c => c.name=name

/-- Change the chain at an address. -/
def modifyChain (addr : ℕ) (f : Chain → Chain) (chains : List Chain) : List Chain :=
  chains.map fun c => if c.addr=addr then f c else c

/-- Change the chain at an address of the table. -/
def Handle.modify (h : Handle) (addr : ℕ) (f : Chain → Chain) : Handle :=
  {h with chains := modifyChain addr f h.chains}

/-- `set_changed`. -/
def setChanged (h : Handle) : Handle := {h with changed := true}

/-- `references++` of the chain at an address. -/
def addReference (h : Handle) (addr : ℕ) : Handle :=
  h.modify addr fun c => {c with references := c.references+1}

/-- `references--` of the chain at an address. -/
def dropReference (h : Handle) (addr : ℕ) : Handle :=
  h.modify addr fun c => {c with references := c.references-1}

/-- What a rule gives back when it is deleted. -/
def releaseRule (h : Handle) (r : Rule) : Handle :=
  match r.type,r.jump with
  | .jump,some addr => dropReference h addr
  | _,_ => h

/-- `iptcc_get_rule_num`: the place of the rule with this number, from one. -/
def getRuleNumFrom (num rulenum : ℕ) : List Rule → Option ℕ
  | [] => none
  | _::rules => if num+1=rulenum then some num else getRuleNumFrom (num+1) rulenum rules

/-- `iptcc_get_rule_num` -/
def getRuleNum (c : Chain) (rulenum : ℕ) : Option ℕ := getRuleNumFrom 0 rulenum c.rules

/-- `iptcc_get_rule_num_reverse` -/
def getRuleNumReverse (c : Chain) (rulenum : ℕ) : Option ℕ :=
  (getRuleNumFrom 0 rulenum c.rules.reverse).map fun i => c.rules.length-1-i

/-- `iptcc_alloc_rule` for an entry that is copied into the rule. -/
def allocRule (e : Entry) (maptype : MapType) : Rule where
  counterMap := ⟨maptype,0⟩
  index := 0
  offset := 0
  type := .standard
  jump := none
  size := e.nextOffset
  entry := e

/-- `iptcc_standard_map` -/
def standardMap (r : Rule) (verdict : UInt32) : Option Rule :=
  if r.entry.targetSize≠standardTargetSize then none
  else some {r with
    entry := {r.entry with
      targetName := standardTarget, targetData := raw32 verdict++r.entry.targetData.drop 4}
    type := .standard}

/-- `iptcc_map_target`: the table and the rule with its type, or nothing where
the code returns zero. -/
def mapTarget (h : Handle) (r : Rule) : Option (Handle×Rule) :=
  let name := r.entry.targetName
  if name=[] then some (h,{r with type := .fallthrough})
  else if name=labelAccept then (standardMap r verdictAccept).map fun r => (h,r)
  else if name=labelDrop then (standardMap r verdictDrop).map fun r => (h,r)
  else if name=labelQueue then (standardMap r verdictQueue).map fun r => (h,r)
  else if name=labelReturn then (standardMap r verdictReturn).map fun r => (h,r)
  else
    match findLabel name h.chains with
    | some c =>
      if c.hooknum≠0 then none
      else some (addReference h c.addr,{r with type := .jump, jump := some c.addr})
    | none => some (setChanged h,{r with type := .module})

/-- `target_same` -/
def targetSame (a b : Rule) (mask : List UInt8) : Bool :=
  if a.type≠b.type then false
  else
    match a.type with
    | .fallthrough => true
    | .jump => decide (a.jump=b.jump)
    | .standard => decide (a.entry.verdict=b.entry.verdict)
    | .module =>
      decide (a.entry.targetSize=b.entry.targetSize) &&
        decide (a.entry.targetName=b.entry.targetName) &&
        (List.range (a.entry.targetSize-32)).all fun i =>
          decide ((byteAt a.entry.targetData i^^^byteAt b.entry.targetData i)&&&byteAt mask i=0)

/-- `iptc_insert_chain`: before the first user-defined chain whose name is not
smaller, else at the end. -/
def insertChain (c : Chain) : List Chain → List Chain
  | [] => [c]
  | tmp::chains =>
    if c.hooknum=0 ∧ tmp.hooknum=0 ∧ strcmpLe c.name tmp.name=true then c::tmp::chains
    else tmp::insertChain c chains

/-- `iptcc_alloc_chain_head` -/
def allocChainHead (addr : ℕ) (name : Name) (hooknum : ℕ) : Chain where
  addr := addr
  name := name
  hooknum := hooknum
  references := 0
  verdict := 0
  counters := ⟨0,0⟩
  counterMap := ⟨.nomap,0⟩
  numRules := 0
  rules := []
  headOffset := 0
  footIndex := 0
  footOffset := 0

/-- The address that the allocator gives a new chain: any that no chain of the
table has, here the wanted one if it is free. -/
def mallocChain (chains : List Chain) (wanted : ℕ) : ℕ :=
  if wanted∈chains.map Chain.addr then (chains.map Chain.addr).sum+1 else wanted

/-- The name of a built-in target, which no chain can have. -/
def isReservedName (name : Name) : Bool :=
  decide (name=labelDrop ∨ name=labelAccept ∨ name=labelQueue ∨ name=labelReturn)

/-! ## Calls -/

/-- The calls that edit a table. -/
inductive Call where
  | insertEntry (chain : Name) (e : Entry) (rulenum : ℕ)
  | replaceEntry (chain : Name) (e : Entry) (rulenum : ℕ)
  | appendEntry (chain : Name) (e : Entry)
  | deleteEntry (chain : Name) (origfw : Entry) (matchmask : List UInt8)
  | checkEntry (chain : Name) (origfw : Entry) (matchmask : List UInt8)
  | deleteNumEntry (chain : Name) (rulenum : ℕ)
  | flushEntries (chain : Name)
  | zeroEntries (chain : Name)
  | zeroCounter (chain : Name) (rulenum : ℕ)
  | setCounter (chain : Name) (rulenum : ℕ) (counters : Counters)
  | createChain (chain : Name) (wanted : ℕ)
  | deleteChain (chain : Name)
  | renameChain (oldname newname : Name)
  | setPolicy (chain policy : Name) (counters : Option Counters)

/-- Put the rules of a chain in another order or number. -/
def Handle.setRules (h : Handle) (addr : ℕ) (rules : List Rule) (numRules : ℕ) : Handle :=
  h.modify addr fun c => {c with rules := rules, numRules := numRules}

/-- The place of a rule that is searched from the nearer end. -/
def nearRule (c : Chain) (rulenum : ℕ) : Option ℕ :=
  if rulenum+1≤c.numRules/2 then getRuleNum c (rulenum+1)
  else getRuleNumReverse c (c.numRules-rulenum)

/-- `TC_INSERT_ENTRY` -/
def insertEntry (h : Handle) (chain : Name) (e : Entry) (rulenum : ℕ) : Option (Handle×Bool) :=
  match findLabel chain h.chains with
  | none => some (h,false)
  | some c =>
    if c.numRules<rulenum then some (h,false)
    else
      (if rulenum=c.numRules then some c.rules.length else nearRule c rulenum).bind fun place =>
        match mapTarget h (allocRule e .set) with
        | none => some (h,false)
        | some (mapped,r) =>
          some (setChanged
            (mapped.setRules c.addr (c.rules.insertIdx place r) (c.numRules+1)),true)

/-- `TC_REPLACE_ENTRY` -/
def replaceEntry (h : Handle) (chain : Name) (e : Entry) (rulenum : ℕ) : Option (Handle×Bool) :=
  match findLabel chain h.chains with
  | none => some (h,false)
  | some c =>
    if c.numRules≤rulenum then some (h,false)
    else
      (nearRule c rulenum).bind fun place => c.rules[place]?.bind fun old =>
        match mapTarget h (allocRule e .set) with
        | none => some (h,false)
        | some (mapped,r) =>
          some (setChanged
            (releaseRule (mapped.setRules c.addr (c.rules.set place r) c.numRules) old),true)

/-- `TC_APPEND_ENTRY` -/
def appendEntry (h : Handle) (chain : Name) (e : Entry) : Option (Handle×Bool) :=
  match findLabel chain h.chains with
  | none => some (h,false)
  | some c =>
    match mapTarget h (allocRule e .set) with
    | none => some (h,false)
    | some (mapped,r) =>
      some (setChanged (mapped.setRules c.addr (c.rules++[r]) (c.numRules+1)),true)

section

variable (isSame : Entry → Entry → List UInt8 → Option (List UInt8))

/-- The rule that `delete_entry` is looking for: `is_same`, which the including
file supplies, gives the mask for the target. -/
def sameRule (r : Rule) (matchmask : List UInt8) (i : Rule) : Bool :=
  match isSame r.entry i.entry matchmask with
  | none => false
  | some mask => targetSame r i mask

/-- `delete_entry` -/
def deleteEntry (h : Handle) (chain : Name) (origfw : Entry) (matchmask : List UInt8)
    (dryRun : Bool) : Option (Handle×Bool) :=
  match findLabel chain h.chains with
  | none => some (h,false)
  | some c =>
    match mapTarget h (allocRule origfw .nomap) with
    | none => some (h,false)
    | some (mapped,r) =>
      let probed := releaseRule mapped r
      match c.rules.findIdx? (sameRule isSame r matchmask) with
      | none => some (probed,false)
      | some place =>
        if dryRun=true then some (probed,true)
        else
          c.rules[place]?.bind fun i =>
            some (setChanged
              (releaseRule (probed.setRules c.addr (c.rules.eraseIdx place) (c.numRules-1)) i),
              true)

end

/-- `TC_DELETE_NUM_ENTRY` -/
def deleteNumEntry (h : Handle) (chain : Name) (rulenum : ℕ) : Option (Handle×Bool) :=
  match findLabel chain h.chains with
  | none => some (h,false)
  | some c =>
    if c.numRules≤rulenum then some (h,false)
    else
      (nearRule c rulenum).bind fun place => c.rules[place]?.bind fun r =>
        some (setChanged
          (releaseRule (h.setRules c.addr (c.rules.eraseIdx place) (c.numRules-1)) r),true)

/-- `TC_FLUSH_ENTRIES` -/
def flushEntries (h : Handle) (chain : Name) : Option (Handle×Bool) :=
  match findLabel chain h.chains with
  | none => some (h,false)
  | some c =>
    some (setChanged ((c.rules.foldl releaseRule h).setRules c.addr [] 0),true)

/-- A rule or policy whose counters would be kept is zeroed instead. -/
def zeroMap (m : CounterMap) : CounterMap :=
  if m.maptype=.normalMap then {m with maptype := .zeroed} else m

/-- The rule with zeroed counters. -/
def zeroRule (r : Rule) : Rule := {r with counterMap := zeroMap r.counterMap}

/-- `TC_ZERO_ENTRIES` -/
def zeroEntries (h : Handle) (chain : Name) : Option (Handle×Bool) :=
  match findLabel chain h.chains with
  | none => some (h,false)
  | some c =>
    some (setChanged (h.modify c.addr fun c =>
      {c with counterMap := zeroMap c.counterMap, rules := c.rules.map zeroRule}),true)

/-- `TC_ZERO_COUNTER` -/
def zeroCounter (h : Handle) (chain : Name) (rulenum : ℕ) : Option (Handle×Bool) :=
  match findLabel chain h.chains with
  | none => some (h,false)
  | some c =>
    match getRuleNum c rulenum with
    | none => some (h,false)
    | some place =>
      some (setChanged (h.modify c.addr fun c =>
        {c with rules := c.rules.modify place zeroRule}),true)

/-- The rule with counters of its own. -/
def setRuleCounter (counters : Counters) (r : Rule) : Rule :=
  {r with
    counterMap := {r.counterMap with maptype := .set}
    entry := {r.entry with counters := counters}}

/-- `TC_SET_COUNTER` -/
def setCounter (h : Handle) (chain : Name) (rulenum : ℕ) (counters : Counters) :
    Option (Handle×Bool) :=
  match findLabel chain h.chains with
  | none => some (h,false)
  | some c =>
    match getRuleNum c rulenum with
    | none => some (h,false)
    | some place =>
      some (setChanged (h.modify c.addr fun c =>
        {c with rules := c.rules.modify place (setRuleCounter counters)}),true)

/-- `TC_CREATE_CHAIN` -/
def createChain (h : Handle) (chain : Name) (wanted : ℕ) : Option (Handle×Bool) :=
  if (findLabel chain h.chains).isSome=true ∨ isReservedName chain=true then some (h,false)
  else if sizeofChainlabel<chain.length+1 then some (h,false)
  else
    let c := allocChainHead (mallocChain h.chains wanted) chain 0
    some (setChanged {h with
      chains := insertChain c h.chains, numChains := h.numChains+1},true)

/-- Take the chain at an address off the list. -/
def unlinkChain (addr : ℕ) (chains : List Chain) : List Chain :=
  chains.filter fun c => c.addr≠addr

/-- `TC_DELETE_CHAIN` -/
def deleteChain (h : Handle) (chain : Name) : Option (Handle×Bool) :=
  match findLabel chain h.chains with
  | none => some (h,false)
  | some c =>
    if c.hooknum≠0 then some (h,false)
    else if 0 < c.references then some (h,false)
    else if c.numRules≠0 then some (h,false)
    else
      some (setChanged {h with
        chains := unlinkChain c.addr h.chains, numChains := h.numChains-1},true)

/-- `TC_RENAME_CHAIN` -/
def renameChain (h : Handle) (oldname newname : Name) : Option (Handle×Bool) :=
  if (findLabel newname h.chains).isSome=true ∨ isReservedName newname=true then some (h,false)
  else
    match findLabel oldname h.chains with
    | none => some (h,false)
    | some c =>
      if c.hooknum≠0 then some (h,false)
      else if sizeofChainlabel<newname.length+1 then some (h,false)
      else
        some (setChanged {h with
          chains := insertChain {c with name := newname} (unlinkChain c.addr h.chains)},true)

/-- The verdict of a policy. -/
def policyVerdict (policy : Name) : Option UInt32 :=
  if policy=labelAccept then some verdictAccept
  else if policy=labelDrop then some verdictDrop
  else none

/-- `TC_SET_POLICY` -/
def setPolicy (h : Handle) (chain policy : Name) (counters : Option Counters) :
    Option (Handle×Bool) :=
  match findLabel chain h.chains with
  | none => some (h,false)
  | some c =>
    if c.hooknum=0 then some (h,false)
    else
      match policyVerdict policy with
      | none => some (h,false)
      | some verdict =>
        some (setChanged (h.modify c.addr fun c =>
          {c with
            verdict := verdict
            counters := counters.getD c.counters
            counterMap := {c.counterMap with
              maptype := if counters.isSome=true then .set else .nomap}}),true)

/-- One call: the table after it and its return value. -/
def step (isSame : Entry → Entry → List UInt8 → Option (List UInt8)) (h : Handle) :
    Call → Option (Handle×Bool)
  | .insertEntry chain e rulenum => insertEntry h chain e rulenum
  | .replaceEntry chain e rulenum => replaceEntry h chain e rulenum
  | .appendEntry chain e => appendEntry h chain e
  | .deleteEntry chain origfw matchmask => deleteEntry isSame h chain origfw matchmask false
  | .checkEntry chain origfw matchmask => deleteEntry isSame h chain origfw matchmask true
  | .deleteNumEntry chain rulenum => deleteNumEntry h chain rulenum
  | .flushEntries chain => flushEntries h chain
  | .zeroEntries chain => zeroEntries h chain
  | .zeroCounter chain rulenum => zeroCounter h chain rulenum
  | .setCounter chain rulenum counters => setCounter h chain rulenum counters
  | .createChain chain wanted => createChain h chain wanted
  | .deleteChain chain => deleteChain h chain
  | .renameChain oldname newname => renameChain h oldname newname
  | .setPolicy chain policy counters => setPolicy h chain policy counters

/-- The calls of a program, one after the other. -/
def runCalls (isSame : Entry → Entry → List UInt8 → Option (List UInt8)) :
    Handle → List Call → Option Handle
  | h,[] => some h
  | h,call::calls => (step isSame h call).bind fun r => runCalls isSame r.1 calls

end AndroidPlatform.Libiptc
