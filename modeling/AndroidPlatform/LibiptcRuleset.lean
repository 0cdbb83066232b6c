import AndroidPlatform.Libiptc
import Mathlib.Data.List.Count
import Mathlib.Data.List.InsertIdx
import Mathlib.Data.List.Nodup
import Mathlib.Algebra.Order.BigOperators.Group.List

/-!
# Reference counts and the abstract ruleset of libiptc

The calls keep two kinds of bookkeeping beside the rules: the number of rules of
a chain, and the number of rules that jump to it. The invariant here also allows
loose rules, which hold a reference and are on no list, because a call maps the
target of a rule before it knows whether the rule will be linked. What the
calls do to chains and rules is stated over lists alone.
-/

namespace AndroidPlatform.LibiptcRuleset

open WireBytes Libiptc

/-! ## References -/

/-- What a rule refers to. -/
def link (r : Rule) : RuleType×Option ℕ := (r.type,r.jump)

/-- The links of all rules of a table. -/
def links (chains : List Chain) : List (RuleType×Option ℕ) :=
  chains.flatMap fun c => c.rules.map link

/-- The link of a rule that jumps to the chain at an address. -/
def jumpTo (addr : ℕ) : RuleType×Option ℕ := (.jump,some addr)

/-- The table keeps its books: chains have addresses of their own, `num_rules`
is the number of rules, `references` the number of rules, on a list or loose,
that jump to the chain, and every jump leads to a chain of the table. -/
structure Keeps (h : Handle) (loose : List (RuleType×Option ℕ)) : Prop where
  /-- No two chains share an address. -/
  addrs : (h.chains.map Chain.addr).Nodup
  /-- `num_rules` counts the rules. -/
  numRules : ∀ c∈h.chains, c.numRules=c.rules.length
  /-- `references` counts the jumps. -/
  references : ∀ c∈h.chains, c.references=(links h.chains++loose).count (jumpTo c.addr)
  /-- Jumps lead to chains of the table. -/
  jumps : ∀ l∈links h.chains++loose, l.1=.jump → ∃ c∈h.chains, l=jumpTo c.addr

/-- The books of a table between two calls. -/
def Intact (h : Handle) : Prop := Keeps h []

section Books

variable {h : Handle} {c : Chain} {loose loose' : List (RuleType×Option ℕ)}

theorem findLabel_mem {name : Name} {chains : List Chain} (hf : findLabel name chains=some c) :
    c∈chains := List.mem_of_find?_eq_some hf

/-- Chains with the same address are the same. -/
theorem Keeps.eq_of_addr (hk : Keeps h loose) {d : Chain} (hc : c∈h.chains) (hd : d∈h.chains)
    (haddr : c.addr=d.addr) : c=d := List.inj_on_of_nodup_map hk.addrs hc hd haddr

/-- A change that keeps the addresses. -/
theorem map_addr_modifyChain {f : Chain → Chain} (hf : ∀ c, (f c).addr=c.addr) (addr : ℕ)
    (chains : List Chain) :
    (modifyChain addr f chains).map Chain.addr=chains.map Chain.addr := by
  rw [modifyChain,List.map_map]
  apply List.map_congr_left
  intro c _
  simp only [Function.comp_apply]
  split
  · exact hf c
  · rfl

theorem mem_modifyChain {f : Chain → Chain} {addr : ℕ} {chains : List Chain} {d : Chain} :
    d∈modifyChain addr f chains ↔ ∃ c∈chains, d=if c.addr=addr then f c else c := by
  simp only [modifyChain,List.mem_map,eq_comm]

/-- A change of one chain replaces its links among those of the table. -/
theorem count_links_modifyChain {chains : List Chain} {f : Chain → Chain}
    (hnodup : (chains.map Chain.addr).Nodup) (hc : c∈chains) (l : RuleType×Option ℕ) :
    (links (modifyChain c.addr f chains)).count l+(c.rules.map link).count l=
      (links chains).count l+((f c).rules.map link).count l := by
  induction chains with
  | nil => cases hc
  | cons d chains ih =>
    rw [List.map_cons,List.nodup_cons] at hnodup
    simp only [links,modifyChain,List.map_cons,List.flatMap_cons,List.count_append]
    rcases List.mem_cons.mp hc with rfl|hc
    · have hsame : chains.map (fun d => if d.addr=c.addr then f d else d)=chains := by
        conv_rhs => rw [←List.map_id chains]
        apply List.map_congr_left
        intro d hd
        rw [if_neg]
        · rfl
        · intro haddr
          exact hnodup.1 (haddr ▸ List.mem_map_of_mem hd)
      rw [if_pos rfl,hsame]
      omega
    · have hne : d.addr≠c.addr := fun haddr => hnodup.1 (haddr ▸ List.mem_map_of_mem hc)
      have hrest := ih hnodup.2 hc
      simp only [links,modifyChain] at hrest
      rw [if_neg hne]
      omega

/-- A change that leaves all links alone. -/
theorem links_modifyChain {f : Chain → Chain} (hf : ∀ c, (f c).rules.map link=c.rules.map link)
    (addr : ℕ) (chains : List Chain) : links (modifyChain addr f chains)=links chains := by
  rw [links,modifyChain,List.flatMap_map]
  apply List.flatMap_congr
  intro c _
  split
  · exact hf c
  · rfl

/-- Where the jumps of one set of links lead to chains, so do those of another
with the same addresses. -/
theorem exists_jumpTo {chains chains' : List Chain} {l : RuleType×Option ℕ}
    (haddrs : chains'.map Chain.addr=chains.map Chain.addr)
    (hl : ∃ c∈chains, l=jumpTo c.addr) : ∃ c∈chains', l=jumpTo c.addr := by
  obtain ⟨c,hc,rfl⟩ := hl
  have hmem : c.addr∈chains'.map Chain.addr := haddrs ▸ List.mem_map_of_mem hc
  obtain ⟨d,hd,haddr⟩ := List.mem_map.mp hmem
  exact ⟨d,hd,by rw [haddr]⟩

/-- Relinking the rules of a chain, where rules may become loose or loose ones
be linked. -/
theorem Keeps.modify (hk : Keeps h loose) {f : Chain → Chain} (hc : c∈h.chains)
    (haddr : ∀ c, (f c).addr=c.addr) (href : ∀ c, (f c).references=c.references)
    (hnum : (f c).numRules=(f c).rules.length)
    (hlinks : ∀ l, ((f c).rules.map link).count l+loose'.count l=
      (c.rules.map link).count l+loose.count l) : Keeps (h.modify c.addr f) loose' := by
  have haddrs := map_addr_modifyChain haddr c.addr h.chains
  have hcount : ∀ l, (links (modifyChain c.addr f h.chains)++loose').count l=
      (links h.chains++loose).count l := by
    intro l
    have hl := @count_links_modifyChain c h.chains f hk.addrs hc l
    have hl' := hlinks l
    rw [List.count_append,List.count_append]
    omega
  refine ⟨haddrs ▸ hk.addrs,fun d hd => ?_,fun d hd => ?_,fun l hl hjump => ?_⟩
  · obtain ⟨e,he,rfl⟩ := mem_modifyChain.mp hd
    by_cases hec : e.addr=c.addr
    · rw [if_pos hec,hk.eq_of_addr he hc hec]
      exact hnum
    · rw [if_neg hec]
      exact hk.numRules e he
  · obtain ⟨e,he,rfl⟩ := mem_modifyChain.mp hd
    rw [Handle.modify,hcount]
    split
    · rw [href,haddr]
      exact hk.references e he
    · exact hk.references e he
  · have hmem : l∈links h.chains++loose := by
      rw [←List.count_pos_iff] at hl ⊢
      exact (hcount l) ▸ hl
    exact exists_jumpTo haddrs (hk.jumps l hmem hjump)

/-- A change of everything but the books. -/
theorem Keeps.modify_frame (hk : Keeps h loose) {f : Chain → Chain} (addr : ℕ)
    (haddr : ∀ c, (f c).addr=c.addr) (href : ∀ c, (f c).references=c.references)
    (hnum : ∀ c, (f c).numRules=c.numRules)
    (hlinks : ∀ c, (f c).rules.map link=c.rules.map link) : Keeps (h.modify addr f) loose := by
  have haddrs := map_addr_modifyChain haddr addr h.chains
  have hl := links_modifyChain hlinks addr h.chains
  refine ⟨haddrs ▸ hk.addrs,fun d hd => ?_,fun d hd => ?_,fun l hmem hjump => ?_⟩
  · obtain ⟨e,he,rfl⟩ := mem_modifyChain.mp hd
    have hlen : (f e).rules.length=e.rules.length := by
      simpa using congrArg List.length (hlinks e)
    split
    · rw [hnum,hlen]
      exact hk.numRules e he
    · exact hk.numRules e he
  · obtain ⟨e,he,rfl⟩ := mem_modifyChain.mp hd
    rw [Handle.modify,hl]
    split
    · rw [href,haddr]
      exact hk.references e he
    · exact hk.references e he
  · rw [Handle.modify,hl] at hmem
    exact exists_jumpTo haddrs (hk.jumps l hmem hjump)

/-- One reference more or less, for one loose jump more or less. -/
theorem Keeps.modify_references (hk : Keeps h loose) {f : Chain → Chain} (hc : c∈h.chains)
    (hf : ∀ d, f d={d with references := (f d).references})
    (href : (f c).references=(links h.chains++loose').count (jumpTo c.addr))
    (hcount : ∀ addr, addr≠c.addr → loose'.count (jumpTo addr)=loose.count (jumpTo addr))
    (hjumps : ∀ l∈loose', l.1=.jump → ∃ d∈h.chains, l=jumpTo d.addr) :
    Keeps (h.modify c.addr f) loose' := by
  have haddr : ∀ d, (f d).addr=d.addr := fun d => by rw [hf d]
  have hnum : ∀ d, (f d).numRules=d.numRules := fun d => by rw [hf d]
  have hrules : ∀ d, (f d).rules=d.rules := fun d => by rw [hf d]
  have haddrs := map_addr_modifyChain haddr c.addr h.chains
  have hl := @links_modifyChain f (fun d => by rw [hrules d]) c.addr h.chains
  refine ⟨haddrs ▸ hk.addrs,fun d hd => ?_,fun d hd => ?_,fun l hmem hjump => ?_⟩
  · obtain ⟨e,he,rfl⟩ := mem_modifyChain.mp hd
    split
    · rw [hnum,hrules]
      exact hk.numRules e he
    · exact hk.numRules e he
  · obtain ⟨e,he,rfl⟩ := mem_modifyChain.mp hd
    rw [Handle.modify,hl]
    by_cases hec : e.addr=c.addr
    · rw [if_pos hec,hk.eq_of_addr he hc hec,haddr]
      exact href
    · rw [if_neg hec,List.count_append,hcount _ hec,←List.count_append]
      exact hk.references e he
  · rw [Handle.modify,hl] at hmem
    rcases List.mem_append.mp hmem with hmem|hmem
    · exact exists_jumpTo haddrs (hk.jumps l (List.mem_append_left _ hmem) hjump)
    · exact exists_jumpTo haddrs (hjumps l hmem hjump)

theorem Keeps.setChanged (hk : Keeps h loose) : Keeps (setChanged h) loose :=
  ⟨hk.addrs,hk.numRules,hk.references,hk.jumps⟩

/-- A loose rule without a jump is none. -/
theorem Keeps.loosen (hk : Keeps h loose) {r : Rule} (hr : r.type≠.jump) :
    Keeps h (link r::loose) := by
  have hne : ∀ addr, link r≠jumpTo addr := fun addr heq => hr (congrArg Prod.fst heq)
  refine ⟨hk.addrs,hk.numRules,fun d hd => ?_,fun l hl hjump => ?_⟩
  · have hsame : (links h.chains++link r::loose).count (jumpTo d.addr)=
        (links h.chains++loose).count (jumpTo d.addr) := by
      rw [List.count_append,List.count_append,List.count_cons_of_ne (hne d.addr)]
    rw [hsame]
    exact hk.references d hd
  · rcases List.mem_append.mp hl with hl|hl
    · exact hk.jumps l (List.mem_append_left _ hl) hjump
    · rcases List.mem_cons.mp hl with rfl|hl
      · exact absurd hjump hr
      · exact hk.jumps l (List.mem_append_right _ hl) hjump

/-- Forgetting a loose rule without a jump. -/
theorem Keeps.forget {l₀ : RuleType×Option ℕ} (hr : ∀ addr, l₀≠jumpTo addr)
    (hk : Keeps h (l₀::loose)) : Keeps h loose := by
  refine ⟨hk.addrs,hk.numRules,fun d hd => ?_,fun l hl hjump => ?_⟩
  · have hold := hk.references d hd
    rw [List.count_append,List.count_cons_of_ne (hr d.addr)] at hold
    rw [List.count_append]
    exact hold
  · apply hk.jumps l _ hjump
    rcases List.mem_append.mp hl with hl|hl
    · exact List.mem_append_left _ hl
    · exact List.mem_append_right _ (List.mem_cons_of_mem _ hl)

/-- New rules of a chain, with the loose ones taken into account. -/
theorem Keeps.setRules (hk : Keeps h loose) {addr n : ℕ} {old rules : List Rule}
    (hc : ∃ c∈h.chains, c.addr=addr ∧ c.rules=old) (hn : n=rules.length)
    (hlinks : ∀ l, (rules.map link).count l+loose'.count l=
      (old.map link).count l+loose.count l) : Keeps (h.setRules addr rules n) loose' := by
  obtain ⟨c,hc,rfl,rfl⟩ := hc
  exact hk.modify hc (fun _ => rfl) (fun _ => rfl) hn hlinks

/-- A deleted rule gives its reference back. -/
theorem Keeps.releaseRule {r : Rule} (hk : Keeps h (link r::loose)) :
    Keeps (releaseRule h r) loose := by
  by_cases hjump : ∃ addr, link r=jumpTo addr
  · obtain ⟨addr,hlink⟩ := hjump
    have htype : r.type=.jump := congrArg Prod.fst hlink
    have hto : r.jump=some addr := congrArg Prod.snd hlink
    obtain ⟨c,hc,hcaddr⟩ := hk.jumps (link r) (by simp) htype
    have haddr : addr=c.addr := by
      rw [hlink] at hcaddr
      simpa [jumpTo] using hcaddr
    have hrelease : Libiptc.releaseRule h r=dropReference h c.addr := by
      rw [Libiptc.releaseRule,htype,hto,haddr]
    rw [hlink,haddr] at hk
    rw [hrelease]
    refine hk.modify_references hc (fun _ => rfl) ?_ (fun a ha => ?_) fun l hl hj => ?_
    · have href := hk.references c hc
      rw [List.count_append,List.count_cons_self] at href
      rw [List.count_append]
      dsimp only
      omega
    · rw [List.count_cons_of_ne]
      intro heq
      exact ha (by simpa [jumpTo] using heq.symm)
    · exact hk.jumps l (by simp [hl]) hj
  · have hsame : Libiptc.releaseRule h r=h := by
      unfold Libiptc.releaseRule
      split
      · rename_i addr htype hto
        exact absurd ⟨addr,by rw [link,htype,hto]; rfl⟩ hjump
      · rfl
    rw [hsame]
    exact hk.forget fun addr heq => hjump ⟨addr,heq⟩

/-- A new jump takes a reference. -/
theorem Keeps.addReference (hk : Keeps h loose) (hc : c∈h.chains) :
    Keeps (addReference h c.addr) (jumpTo c.addr::loose) := by
  refine hk.modify_references hc (fun _ => rfl) ?_ (fun a ha => ?_) fun l hl hj => ?_
  · have href := hk.references c hc
    rw [List.count_append] at href
    rw [List.count_append,List.count_cons_self]
    dsimp only
    omega
  · rw [List.count_cons_of_ne]
    intro heq
    exact ha (by simpa [jumpTo] using heq.symm)
  · rcases List.mem_cons.mp hl with rfl|hl
    · exact ⟨c,hc,rfl⟩
    · exact hk.jumps l (List.mem_append_right _ hl) hj

end Books

/-! ## Targets -/

/-- The target of an entry is a module: neither empty, nor a verdict, nor a
chain. -/
def NamesModule (h : Handle) (e : Entry) : Prop :=
  e.targetName≠[] ∧ isReservedName e.targetName=false ∧ findLabel e.targetName h.chains=none

theorem standardMap_type {r r' : Rule} {verdict : UInt32} (h : standardMap r verdict=some r') :
    r'.type=.standard := by
  unfold standardMap at h
  split at h
  · cases h
  · rw [←Option.some.inj h]

/-- What mapping a target can do to the table and the rule. -/
theorem mapTarget_cases {h h' : Handle} {r r' : Rule} (hm : mapTarget h r=some (h',r')) :
    (h'=h ∧ r'.type≠.jump ∧ ¬NamesModule h r.entry) ∨
    (∃ c∈h.chains, h'=addReference h c.addr ∧ r'.type=.jump ∧ r'.jump=some c.addr ∧
      ¬NamesModule h r.entry) ∨
    (NamesModule h r.entry ∧ h'=setChanged h ∧ r'={r with type := .module}) := by
  have hstandard : ∀ verdict, (standardMap r verdict).map (fun r => (h,r))=some (h',r') →
      h'=h ∧ r'.type≠.jump := by
    intro verdict hs
    obtain ⟨r₀,hr₀,heq⟩ := Option.map_eq_some_iff.mp hs
    cases heq
    refine ⟨rfl,?_⟩
    rw [standardMap_type hr₀]
    simp
  unfold mapTarget at hm
  dsimp only at hm
  split at hm
  · rename_i hname
    cases hm
    exact Or.inl ⟨rfl,by simp,fun hn => hn.1 hname⟩
  split at hm
  · rename_i hname
    obtain ⟨hh,ht⟩ := hstandard _ hm
    exact Or.inl ⟨hh,ht,fun hn => absurd hn.2.1 (by simp [isReservedName,hname])⟩
  split at hm
  · rename_i hname
    obtain ⟨hh,ht⟩ := hstandard _ hm
    exact Or.inl ⟨hh,ht,fun hn => absurd hn.2.1 (by simp [isReservedName,hname])⟩
  split at hm
  · rename_i hname
    obtain ⟨hh,ht⟩ := hstandard _ hm
    exact Or.inl ⟨hh,ht,fun hn => absurd hn.2.1 (by simp [isReservedName,hname])⟩
  split at hm
  · rename_i hname
    obtain ⟨hh,ht⟩ := hstandard _ hm
    exact Or.inl ⟨hh,ht,fun hn => absurd hn.2.1 (by simp [isReservedName,hname])⟩
  rename_i hempty haccept hdrop hqueue hreturn
  cases hfind : findLabel r.entry.targetName h.chains with
  | some c =>
    rw [hfind] at hm
    dsimp only at hm
    split at hm
    · cases hm
    · cases hm
      refine Or.inr (Or.inl ⟨c,findLabel_mem hfind,rfl,rfl,rfl,fun hn => ?_⟩)
      rw [hn.2.2] at hfind
      cases hfind
  | none =>
    rw [hfind] at hm
    cases hm
    refine Or.inr (Or.inr ⟨⟨hempty,?_,hfind⟩,rfl,rfl⟩)
    simp [isReservedName,haccept,hdrop,hqueue,hreturn]

/-- A mapped rule is loose and holds its reference. -/
theorem Keeps.mapTarget {h h' : Handle} {r r' : Rule} {loose : List (RuleType×Option ℕ)}
    (hk : Keeps h loose) (hm : mapTarget h r=some (h',r')) : Keeps h' (link r'::loose) := by
  rcases mapTarget_cases hm with ⟨rfl,ht,-⟩|⟨c,hc,rfl,ht,hj,-⟩|⟨-,rfl,rfl⟩
  · exact hk.loosen ht
  · have hlink : link r'=jumpTo c.addr := by rw [link,ht,hj]; rfl
    rw [hlink]
    exact hk.addReference hc
  · exact hk.setChanged.loosen (by simp)

/-- Changing references leaves the rules where they are. -/
theorem exists_rules_modify {h : Handle} {c : Chain} (hc : c∈h.chains) (addr : ℕ)
    {f : Chain → Chain} (haddr : ∀ c, (f c).addr=c.addr) (hrules : ∀ c, (f c).rules=c.rules) :
    ∃ d∈(h.modify addr f).chains, d.addr=c.addr ∧ d.rules=c.rules := by
  refine ⟨if c.addr=addr then f c else c,mem_modifyChain.mpr ⟨c,hc,rfl⟩,?_⟩
  split
  · exact ⟨haddr c,hrules c⟩
  · exact ⟨rfl,rfl⟩

theorem exists_rules_mapTarget {h h' : Handle} {r r' : Rule} (hm : mapTarget h r=some (h',r'))
    {c : Chain} (hc : c∈h.chains) : ∃ d∈h'.chains, d.addr=c.addr ∧ d.rules=c.rules := by
  rcases mapTarget_cases hm with ⟨rfl,-⟩|⟨d,-,rfl,-⟩|⟨-,rfl,-⟩
  · exact ⟨c,hc,rfl,rfl⟩
  · exact exists_rules_modify hc d.addr (fun _ => rfl) fun _ => rfl
  · exact ⟨c,hc,rfl,rfl⟩

/-- Taking a reference and giving it back changes nothing. -/
theorem dropReference_addReference (h : Handle) (addr : ℕ) :
    dropReference (addReference h addr) addr=h := by
  have hchains : ∀ chains : List Chain,
      modifyChain addr (fun c => {c with references := c.references-1})
        (modifyChain addr (fun c => {c with references := c.references+1}) chains)=chains := by
    intro chains
    rw [modifyChain,modifyChain,List.map_map]
    conv_rhs => rw [←List.map_id chains]
    apply List.map_congr_left
    intro c _
    simp only [Function.comp_apply,id_eq]
    by_cases hc : c.addr=addr
    · subst hc
      simp
    · simp [hc]
  cases h
  simp only [dropReference,addReference,Handle.modify,hchains]

/-- The probe of `delete_entry` leaves the table as it was, but for the mark of
a module. -/
theorem releaseRule_mapTarget {h h' : Handle} {r r' : Rule}
    (hm : mapTarget h r=some (h',r')) :
    (¬NamesModule h r.entry ∧ releaseRule h' r'=h) ∨
      (NamesModule h r.entry ∧ releaseRule h' r'=setChanged h ∧
        r'={r with type := .module}) := by
  have hkeep : ∀ {g : Handle} {q : Rule}, q.type≠.jump → releaseRule g q=g := by
    intro g q hq
    unfold releaseRule
    split
    · rename_i htype _
      exact absurd htype hq
    · rfl
  rcases mapTarget_cases hm with ⟨rfl,ht,hn⟩|⟨c,-,rfl,ht,hj,hn⟩|⟨hn,rfl,rfl⟩
  · exact Or.inl ⟨hn,hkeep ht⟩
  · refine Or.inl ⟨hn,?_⟩
    rw [releaseRule,ht,hj]
    exact dropReference_addReference h c.addr
  · exact Or.inr ⟨hn,hkeep (by simp),rfl⟩

/-! ## The ruleset -/

/-- A chain without the bookkeeping: what it is called, its policy and its
rules. The address is its identity, to which jumps refer. -/
structure PlainChain where
  /-- The identity of the chain. -/
  addr : ℕ
  /-- Its name. -/
  name : Name
  /-- Its hook, zero for a user-defined chain. -/
  hooknum : ℕ
  /-- Its policy. -/
  policy : UInt32
  /-- The counters of the policy. -/
  counters : Counters
  /-- Where these counters come from. -/
  counterMap : CounterMap
  /-- Its rules. -/
  rules : List Rule
  deriving DecidableEq

/-- The chains of a table, in their order. -/
abbrev Ruleset := List PlainChain

/-- A chain as part of the ruleset. -/
def plain (c : Chain) : PlainChain :=
  ⟨c.addr,c.name,c.hooknum,c.verdict,c.counters,c.counterMap,c.rules⟩

/-- The ruleset that a table holds. -/
def ruleset (h : Handle) : Ruleset := h.chains.map plain

/-- The chain of a name. -/
def chainNamed (rs : Ruleset) (name : Name) : Option PlainChain := rs.find? fun c => c.name=name

/-- The ruleset with another chain in the place of one. -/
def replaceChain (rs : Ruleset) (addr : ℕ) (f : PlainChain → PlainChain) : Ruleset :=
  rs.map fun c => if c.addr=addr then f c else c

/-- The ruleset with these rules in a chain. -/
def withRules (rs : Ruleset) (c : PlainChain) (rules : List Rule) : Ruleset :=
  replaceChain rs c.addr fun c => {c with rules := rules}

/-- A chain in its place among the user-defined ones. -/
def sortedInsert (c : PlainChain) : Ruleset → Ruleset
  | [] => [c]
  | tmp::rs =>
    if c.hooknum=0 ∧ tmp.hooknum=0 ∧ strcmpLe c.name tmp.name=true then c::tmp::rs
    else tmp::sortedInsert c rs

/-- The rule that an entry stands for: its target is nothing, a verdict, a
user-defined chain or, where no chain has that name, a module. -/
def resolve (rs : Ruleset) (r : Rule) : Option Rule :=
  let name := r.entry.targetName
  if name=[] then some {r with type := .fallthrough}
  else if name=labelAccept then standardMap r verdictAccept
  else if name=labelDrop then standardMap r verdictDrop
  else if name=labelQueue then standardMap r verdictQueue
  else if name=labelReturn then standardMap r verdictReturn
  else
    match chainNamed rs name with
    | some c =>
      if c.hooknum≠0 then none else some {r with type := .jump, jump := some c.addr}
    | none => some {r with type := .module}

/-- Some rule jumps to the chain. -/
def IsReferenced (rs : Ruleset) (c : PlainChain) : Prop :=
  ∃ d∈rs, ∃ r∈d.rules, link r=jumpTo c.addr

instance (rs : Ruleset) (c : PlainChain) : Decidable (IsReferenced rs c) :=
  inferInstanceAs (Decidable (∃ d∈rs, ∃ r∈d.rules, link r=jumpTo c.addr))

/-- The ruleset after a call, or nothing if the call is refused. -/
def specStep (isSame : Entry → Entry → List UInt8 → Option (List UInt8)) (rs : Ruleset) :
    Call → Option Ruleset
  | .insertEntry chain e rulenum =>
    (chainNamed rs chain).bind fun c =>
      if c.rules.length<rulenum then none
      else (resolve rs (allocRule e .set)).map fun r =>
        withRules rs c (c.rules.insertIdx rulenum r)
  | .replaceEntry chain e rulenum =>
    (chainNamed rs chain).bind fun c =>
      if c.rules.length≤rulenum then none
      else (resolve rs (allocRule e .set)).map fun r => withRules rs c (c.rules.set rulenum r)
  | .appendEntry chain e =>
    (chainNamed rs chain).bind fun c =>
      (resolve rs (allocRule e .set)).map fun r => withRules rs c (c.rules++[r])
  | .deleteEntry chain e mask =>
    (chainNamed rs chain).bind fun c => (resolve rs (allocRule e .nomap)).bind fun r =>
      if c.rules.any (sameRule isSame r mask)=true then
        some (withRules rs c (c.rules.eraseP (sameRule isSame r mask)))
      else none
  | .checkEntry chain e mask =>
    (chainNamed rs chain).bind fun c => (resolve rs (allocRule e .nomap)).bind fun r =>
      if c.rules.any (sameRule isSame r mask)=true then some rs else none
  | .deleteNumEntry chain rulenum =>
    (chainNamed rs chain).bind fun c =>
      if c.rules.length≤rulenum then none
      else some (withRules rs c (c.rules.eraseIdx rulenum))
  | .flushEntries chain => (chainNamed rs chain).map fun c => withRules rs c []
  | .zeroEntries chain =>
    (chainNamed rs chain).map fun c => replaceChain rs c.addr fun c =>
      {c with counterMap := zeroMap c.counterMap, rules := c.rules.map zeroRule}
  | .zeroCounter chain rulenum =>
    (chainNamed rs chain).bind fun c =>
      if 1≤rulenum ∧ rulenum≤c.rules.length then
        some (withRules rs c (c.rules.modify (rulenum-1) zeroRule))
      else none
  | .setCounter chain rulenum counters =>
    (chainNamed rs chain).bind fun c =>
      if 1≤rulenum ∧ rulenum≤c.rules.length then
        some (withRules rs c (c.rules.modify (rulenum-1) (setRuleCounter counters)))
      else none
  | .createChain chain wanted =>
    if (chainNamed rs chain).isSome=true ∨ isReservedName chain=true ∨
        sizeofChainlabel<chain.length+1 then none
    else
      let addr := if wanted∈rs.map PlainChain.addr then (rs.map PlainChain.addr).sum+1 else wanted
      some (sortedInsert ⟨addr,chain,0,0,⟨0,0⟩,⟨.nomap,0⟩,[]⟩ rs)
  | .deleteChain chain =>
    (chainNamed rs chain).bind fun c =>
      if c.hooknum≠0 ∨ IsReferenced rs c ∨ c.rules≠[] then none
      else some (rs.filter fun d => d.addr≠c.addr)
  | .renameChain oldname newname =>
    if (chainNamed rs newname).isSome=true ∨ isReservedName newname=true then none
    else
      (chainNamed rs oldname).bind fun c =>
        if c.hooknum≠0 ∨ sizeofChainlabel<newname.length+1 then none
        else some (sortedInsert {c with name := newname} (rs.filter fun d => d.addr≠c.addr))
  | .setPolicy chain policy counters =>
    (chainNamed rs chain).bind fun c =>
      if c.hooknum=0 then none
      else (policyVerdict policy).map fun verdict => replaceChain rs c.addr fun c =>
        {c with
          policy := verdict
          counters := counters.getD c.counters
          counterMap := {c.counterMap with
            maptype := if counters.isSome=true then .set else .nomap}}

theorem chainNamed_ruleset (h : Handle) (name : Name) :
    chainNamed (ruleset h) name=(findLabel name h.chains).map plain := by
  rw [chainNamed,ruleset,List.find?_map,findLabel]
  rfl

/-- A change of one chain, seen from the ruleset. -/
theorem ruleset_modify {f : Chain → Chain} {g : PlainChain → PlainChain}
    (hfg : ∀ c, plain (f c)=g (plain c)) (h : Handle) (addr : ℕ) :
    ruleset (h.modify addr f)=replaceChain (ruleset h) addr g := by
  rw [ruleset,ruleset,Handle.modify,modifyChain,replaceChain,List.map_map,List.map_map]
  apply List.map_congr_left
  intro c _
  simp only [Function.comp_apply]
  by_cases hc : c.addr=addr
  · rw [if_pos hc,hfg,if_pos (show (plain c).addr=addr from hc)]
  · rw [if_neg hc,if_neg (show ¬(plain c).addr=addr from hc)]

/-- A change that the ruleset does not see. -/
theorem ruleset_modify_same {f : Chain → Chain} (hf : ∀ c, plain (f c)=plain c) (h : Handle)
    (addr : ℕ) : ruleset (h.modify addr f)=ruleset h := by
  rw [ruleset,ruleset,Handle.modify,modifyChain,List.map_map]
  apply List.map_congr_left
  intro c _
  simp only [Function.comp_apply]
  split
  · exact hf c
  · rfl

@[simp] theorem ruleset_setChanged (h : Handle) : ruleset (setChanged h)=ruleset h := rfl

theorem ruleset_setRules (h : Handle) (c : Chain) (rules : List Rule) (n : ℕ) :
    ruleset (h.setRules c.addr rules n)=withRules (ruleset h) (plain c) rules :=
  @ruleset_modify _ (fun c => {c with rules := rules}) (fun _ => rfl) h c.addr

@[simp] theorem ruleset_releaseRule (h : Handle) (r : Rule) :
    ruleset (releaseRule h r)=ruleset h := by
  unfold releaseRule
  split
  · rw [dropReference,ruleset_modify_same]
    exact fun _ => rfl
  · rfl

theorem ruleset_mapTarget {h h' : Handle} {r r' : Rule} (hm : mapTarget h r=some (h',r')) :
    ruleset h'=ruleset h := by
  rcases mapTarget_cases hm with ⟨rfl,-⟩|⟨c,-,rfl,-⟩|⟨-,rfl,-⟩
  · rfl
  · rw [addReference,ruleset_modify_same]
    exact fun _ => rfl
  · rfl

/-- The rule of a mapped target is the one that the entry stands for. -/
theorem resolve_ruleset (h : Handle) (r : Rule) :
    resolve (ruleset h) r=(mapTarget h r).map Prod.snd := by
  unfold resolve mapTarget
  dsimp only
  split
  · rfl
  split
  · cases standardMap r verdictAccept <;> rfl
  split
  · cases standardMap r verdictDrop <;> rfl
  split
  · cases standardMap r verdictQueue <;> rfl
  split
  · cases standardMap r verdictReturn <;> rfl
  rw [chainNamed_ruleset]
  cases findLabel r.entry.targetName h.chains with
  | none => rfl
  | some c =>
    dsimp only [Option.map_some]
    by_cases hook : c.hooknum=0
    · rw [if_neg (not_not.mpr (show (plain c).hooknum=0 from hook)),if_neg (not_not.mpr hook)]
      rfl
    · rw [if_pos (show (plain c).hooknum≠0 from hook),if_pos hook]
      rfl

/-! ## What one call does -/

/-- `TC_CHECK_ENTRY`, which is to change nothing. -/
def isCheck : Call → Bool
  | .checkEntry _ _ _ => true
  | _ => false

/-- A probe for a rule with a module target that changes no rule: a check, or a
deletion that finds nothing. -/
def ProbesModule (isSame : Entry → Entry → List UInt8 → Option (List UInt8)) (h : Handle) :
    Call → Prop
  | .checkEntry chain e _ => (∃ c, findLabel chain h.chains=some c) ∧ NamesModule h e
  | .deleteEntry chain e mask => NamesModule h e ∧ ∃ c, findLabel chain h.chains=some c ∧
      ∀ i∈c.rules, sameRule isSame {allocRule e .nomap with type := .module} mask i=false
  | _ => False

/-- What is proved of every call: it returns, keeps the books, does to the
ruleset what is specified, and a refused call or a check leaves the table as it
was, but for the mark that a probe for a module sets. -/
def Outcome (isSame : Entry → Entry → List UInt8 → Option (List UInt8)) (h : Handle)
    (call : Call) : Prop :=
  ∃ after ok, step isSame h call=some (after,ok) ∧ Intact after ∧
    specStep isSame (ruleset h) call=(if ok=true then some (ruleset after) else none) ∧
    (ok=false ∨ isCheck call=true →
      (ProbesModule isSame h call → after=setChanged h) ∧
        (¬ProbesModule isSame h call → after=h))

section Calls

variable {isSame : Entry → Entry → List UInt8 → Option (List UInt8)} {h : Handle} {call : Call}

/-- A refused call. -/
theorem outcome_refused (hi : Intact h) (hstep : step isSame h call=some (h,false))
    (hspec : specStep isSame (ruleset h) call=none) (hprobe : ¬ProbesModule isSame h call) :
    Outcome isSame h call :=
  ⟨h,false,hstep,hi,hspec,fun _ => ⟨fun hp => absurd hp hprobe,fun _ => rfl⟩⟩

/-- A successful call that is no check. -/
theorem outcome_done {after : Handle} (hstep : step isSame h call=some (after,true))
    (hi : Intact after) (hspec : specStep isSame (ruleset h) call=some (ruleset after))
    (hcheck : isCheck call=false) : Outcome isSame h call :=
  ⟨after,true,hstep,hi,hspec,fun hor => by simp [hcheck] at hor⟩

theorem getRuleNumFrom_eq (rules : List Rule) (num rulenum : ℕ) :
    getRuleNumFrom num rulenum rules=
      if num<rulenum ∧ rulenum≤num+rules.length then some (rulenum-1) else none := by
  induction rules generalizing num with
  | nil =>
    rw [getRuleNumFrom,if_neg]
    simp only [List.length_nil]
    omega
  | cons r rules ih =>
    rw [getRuleNumFrom,List.length_cons]
    by_cases heq : num+1=rulenum
    · rw [if_pos heq,if_pos (by omega),←heq,Nat.add_sub_cancel]
    · rw [if_neg heq,ih]
      by_cases hin : num+1<rulenum ∧ rulenum≤num+1+rules.length
      · rw [if_pos hin,if_pos (by omega)]
      · rw [if_neg hin,if_neg (by omega)]

/-- The search from the nearer end finds the rule at its place. -/
theorem nearRule_eq {c : Chain} {rulenum : ℕ} (hnum : c.numRules=c.rules.length)
    (hlt : rulenum<c.rules.length) : nearRule c rulenum=some rulenum := by
  unfold nearRule
  split
  · rw [getRuleNum,getRuleNumFrom_eq,if_pos (by omega),Nat.add_sub_cancel]
  · rw [getRuleNumReverse,getRuleNumFrom_eq,List.length_reverse,if_pos (by omega)]
    simp only [Option.map_some,Option.some.injEq]
    omega

/-- A new rule in the place of nothing. -/
theorem Keeps.linkRule {h' : Handle} {c : Chain} {r : Rule} {rules : List Rule}
    (hi : Keeps h' [link r]) (hc : ∃ d∈h'.chains, d.addr=c.addr ∧ d.rules=c.rules)
    (hperm : rules.Perm (r::c.rules)) : Intact (h'.setRules c.addr rules (c.rules.length+1)) := by
  refine Keeps.setRules hi hc (by rw [hperm.length_eq,List.length_cons]) fun l => ?_
  rw [(hperm.map link).count_eq,List.map_cons,List.count_cons,List.count_singleton,
    List.count_nil]
  omega

theorem insertEntry_outcome (hi : Intact h) (chain : Name) (e : Entry) (rulenum : ℕ) :
    Outcome isSame h (.insertEntry chain e rulenum) := by
  have hno : ¬ProbesModule isSame h (.insertEntry chain e rulenum) := fun hp => hp
  have hspec : specStep isSame (ruleset h) (.insertEntry chain e rulenum)=
      ((findLabel chain h.chains).map plain).bind fun c =>
        if c.rules.length<rulenum then none
        else ((mapTarget h (allocRule e .set)).map Prod.snd).map fun r =>
          withRules (ruleset h) c (c.rules.insertIdx rulenum r) := by
    rw [←chainNamed_ruleset,←resolve_ruleset]
    rfl
  cases hfind : findLabel chain h.chains with
  | none =>
    refine outcome_refused hi ?_ ?_ hno
    · simp only [step,insertEntry,hfind]
    · rw [hspec,hfind]
      rfl
  | some c =>
    have hc := findLabel_mem hfind
    have hnum := hi.numRules c hc
    by_cases hbig : c.numRules<rulenum
    · refine outcome_refused hi ?_ ?_ hno
      · simp only [step,insertEntry,hfind]
        rw [if_pos hbig]
      · rw [hspec,hfind,Option.map_some,Option.bind_some,
          if_pos (show (plain c).rules.length<rulenum from hnum ▸ hbig)]
    · have hplace : (if rulenum=c.numRules then some c.rules.length else nearRule c rulenum)=
          some rulenum := by
        split
        · rename_i heq
          rw [heq,hnum]
        · exact nearRule_eq hnum (by omega)
      cases hmap : mapTarget h (allocRule e .set) with
      | none =>
        refine outcome_refused hi ?_ ?_ hno
        · simp only [step,insertEntry,hfind]
          rw [if_neg hbig,hplace,hmap]
          rfl
        · rw [hspec,hfind,hmap,Option.map_some,Option.bind_some]
          split <;> rfl
      | some mapped =>
        obtain ⟨h',r⟩ := mapped
        have hkeep := Keeps.mapTarget hi hmap
        have hlen : rulenum≤c.rules.length := by omega
        refine @outcome_done isSame h _ (setChanged
          (h'.setRules c.addr (c.rules.insertIdx rulenum r) (c.numRules+1))) ?_ ?_ ?_ rfl
        · simp only [step,insertEntry,hfind]
          rw [if_neg hbig,hplace,hmap]
          rfl
        · rw [hnum]
          exact (Keeps.linkRule hkeep (exists_rules_mapTarget hmap hc)
            (List.perm_insertIdx r c.rules hlen)).setChanged
        · rw [hspec,hfind,hmap,Option.map_some,Option.bind_some,
            if_neg (show ¬(plain c).rules.length<rulenum from by
              show ¬c.rules.length<rulenum
              omega),
            ruleset_setChanged,ruleset_setRules,ruleset_mapTarget hmap]
          rfl

/-- Deleting the rule at a place, with or without a new one there. -/
theorem count_set_add {rules : List Rule} {place : ℕ} {old r : Rule}
    (hold : rules[place]?=some old) (l : RuleType×Option ℕ) :
    ((rules.set place r).map link).count l+[link old].count l=
      (rules.map link).count l+[link r].count l := by
  induction rules generalizing place with
  | nil => cases hold
  | cons head rules ih =>
    cases place with
    | zero =>
      rw [List.getElem?_cons_zero,Option.some.injEq] at hold
      subst hold
      simp only [List.set_cons_zero,List.map_cons,List.count_cons,List.count_nil]
      omega
    | succ place =>
      rw [List.getElem?_cons_succ] at hold
      have hrest := ih hold
      simp only [List.set_cons_succ,List.map_cons,List.count_cons,List.count_nil] at hrest ⊢
      omega

theorem count_eraseIdx_add {rules : List Rule} {place : ℕ} {old : Rule}
    (hold : rules[place]?=some old) (l : RuleType×Option ℕ) :
    ((rules.eraseIdx place).map link).count l+[link old].count l=
      (rules.map link).count l := by
  induction rules generalizing place with
  | nil => cases hold
  | cons head rules ih =>
    cases place with
    | zero =>
      rw [List.getElem?_cons_zero,Option.some.injEq] at hold
      subst hold
      simp only [List.eraseIdx_cons_zero,List.map_cons,List.count_cons,List.count_nil]
      omega
    | succ place =>
      rw [List.getElem?_cons_succ] at hold
      have hrest := ih hold
      simp only [List.eraseIdx_cons_succ,List.map_cons,List.count_cons,List.count_nil] at hrest ⊢
      omega

/-- The rule at a place is unlinked and gives its reference back. -/
theorem Intact.unlinkRule (hi : Intact h) {c : Chain} {place : ℕ} {old : Rule}
    (hc : c∈h.chains) (hold : c.rules[place]?=some old) :
    Intact (releaseRule (h.setRules c.addr (c.rules.eraseIdx place) (c.numRules-1)) old) := by
  have hlt : place<c.rules.length := (List.getElem?_eq_some_iff.mp hold).1
  have hlen : c.numRules-1=(c.rules.eraseIdx place).length := by
    rw [List.length_eraseIdx_of_lt hlt,hi.numRules c hc]
  apply Keeps.releaseRule
  refine Keeps.setRules hi ⟨c,hc,rfl,rfl⟩ hlen fun l => ?_
  rw [count_eraseIdx_add hold,List.count_nil,Nat.add_zero]

theorem replaceEntry_outcome (hi : Intact h) (chain : Name) (e : Entry) (rulenum : ℕ) :
    Outcome isSame h (.replaceEntry chain e rulenum) := by
  have hno : ¬ProbesModule isSame h (.replaceEntry chain e rulenum) := fun hp => hp
  have hspec : specStep isSame (ruleset h) (.replaceEntry chain e rulenum)=
      ((findLabel chain h.chains).map plain).bind fun c =>
        if c.rules.length≤rulenum then none
        else ((mapTarget h (allocRule e .set)).map Prod.snd).map fun r =>
          withRules (ruleset h) c (c.rules.set rulenum r) := by
    rw [←chainNamed_ruleset,←resolve_ruleset]
    rfl
  cases hfind : findLabel chain h.chains with
  | none =>
    refine outcome_refused hi ?_ ?_ hno
    · simp only [step,replaceEntry,hfind]
    · rw [hspec,hfind]
      rfl
  | some c =>
    have hc := findLabel_mem hfind
    have hnum := hi.numRules c hc
    by_cases hbig : c.numRules≤rulenum
    · refine outcome_refused hi ?_ ?_ hno
      · simp only [step,replaceEntry,hfind]
        rw [if_pos hbig]
      · rw [hspec,hfind,Option.map_some,Option.bind_some,
          if_pos (show (plain c).rules.length≤rulenum from hnum ▸ hbig)]
    · have hlt : rulenum<c.rules.length := by omega
      have hold : c.rules[rulenum]?=some c.rules[rulenum] := List.getElem?_eq_getElem hlt
      cases hmap : mapTarget h (allocRule e .set) with
      | none =>
        refine outcome_refused hi ?_ ?_ hno
        · simp only [step,replaceEntry,hfind]
          rw [if_neg hbig,nearRule_eq hnum hlt,Option.bind_some,hold,Option.bind_some,hmap]
        · rw [hspec,hfind,hmap,Option.map_some,Option.bind_some]
          split <;> rfl
      | some mapped =>
        obtain ⟨h',r⟩ := mapped
        have hkeep := Keeps.mapTarget hi hmap
        refine @outcome_done isSame h _ (setChanged (releaseRule
          (h'.setRules c.addr (c.rules.set rulenum r) c.numRules) c.rules[rulenum])) ?_ ?_ ?_ rfl
        · simp only [step,replaceEntry,hfind]
          rw [if_neg hbig,nearRule_eq hnum hlt,Option.bind_some,hold,Option.bind_some,hmap]
        · apply Keeps.setChanged
          apply Keeps.releaseRule
          refine Keeps.setRules hkeep (exists_rules_mapTarget hmap hc) ?_ fun l =>
            count_set_add hold l
          rw [List.length_set,hnum]
        · rw [hspec,hfind,hmap,Option.map_some,Option.bind_some,
            if_neg (show ¬(plain c).rules.length≤rulenum from Nat.not_le.mpr hlt),
            ruleset_setChanged,ruleset_releaseRule,ruleset_setRules,ruleset_mapTarget hmap]
          rfl

theorem appendEntry_outcome (hi : Intact h) (chain : Name) (e : Entry) :
    Outcome isSame h (.appendEntry chain e) := by
  have hno : ¬ProbesModule isSame h (.appendEntry chain e) := fun hp => hp
  have hspec : specStep isSame (ruleset h) (.appendEntry chain e)=
      ((findLabel chain h.chains).map plain).bind fun c =>
        ((mapTarget h (allocRule e .set)).map Prod.snd).map fun r =>
          withRules (ruleset h) c (c.rules++[r]) := by
    rw [←chainNamed_ruleset,←resolve_ruleset]
    rfl
  cases hfind : findLabel chain h.chains with
  | none =>
    refine outcome_refused hi ?_ ?_ hno
    · simp only [step,appendEntry,hfind]
    · rw [hspec,hfind]
      rfl
  | some c =>
    have hc := findLabel_mem hfind
    have hnum := hi.numRules c hc
    cases hmap : mapTarget h (allocRule e .set) with
    | none =>
      refine outcome_refused hi ?_ ?_ hno
      · simp only [step,appendEntry,hfind,hmap]
      · rw [hspec,hfind,hmap]
        rfl
    | some mapped =>
      obtain ⟨h',r⟩ := mapped
      refine @outcome_done isSame h _
        (setChanged (h'.setRules c.addr (c.rules++[r]) (c.numRules+1))) ?_ ?_ ?_ rfl
      · simp only [step,appendEntry,hfind,hmap]
      · rw [hnum]
        exact (Keeps.linkRule (Keeps.mapTarget hi hmap) (exists_rules_mapTarget hmap hc)
          (List.perm_append_singleton r c.rules)).setChanged
      · rw [hspec,hfind,hmap,ruleset_setChanged,ruleset_setRules,ruleset_mapTarget hmap]
        rfl

theorem deleteNumEntry_outcome (hi : Intact h) (chain : Name) (rulenum : ℕ) :
    Outcome isSame h (.deleteNumEntry chain rulenum) := by
  have hno : ¬ProbesModule isSame h (.deleteNumEntry chain rulenum) := fun hp => hp
  have hspec : specStep isSame (ruleset h) (.deleteNumEntry chain rulenum)=
      ((findLabel chain h.chains).map plain).bind fun c =>
        if c.rules.length≤rulenum then none
        else some (withRules (ruleset h) c (c.rules.eraseIdx rulenum)) := by
    rw [←chainNamed_ruleset]
    rfl
  cases hfind : findLabel chain h.chains with
  | none =>
    refine outcome_refused hi ?_ ?_ hno
    · simp only [step,deleteNumEntry,hfind]
    · rw [hspec,hfind]
      rfl
  | some c =>
    have hc := findLabel_mem hfind
    have hnum := hi.numRules c hc
    by_cases hbig : c.numRules≤rulenum
    · refine outcome_refused hi ?_ ?_ hno
      · simp only [step,deleteNumEntry,hfind]
        rw [if_pos hbig]
      · rw [hspec,hfind,Option.map_some,Option.bind_some,
          if_pos (show (plain c).rules.length≤rulenum from hnum ▸ hbig)]
    · have hlt : rulenum<c.rules.length := by omega
      have hold : c.rules[rulenum]?=some c.rules[rulenum] := List.getElem?_eq_getElem hlt
      refine @outcome_done isSame h _ (setChanged (releaseRule
        (h.setRules c.addr (c.rules.eraseIdx rulenum) (c.numRules-1)) c.rules[rulenum]))
        ?_ ?_ ?_ rfl
      · simp only [step,deleteNumEntry,hfind]
        rw [if_neg hbig,nearRule_eq hnum hlt,Option.bind_some,hold,Option.bind_some]
      · exact (hi.unlinkRule hc hold).setChanged
      · rw [hspec,hfind,Option.map_some,Option.bind_some,
          if_neg (show ¬(plain c).rules.length≤rulenum from Nat.not_le.mpr hlt),
          ruleset_setChanged,ruleset_releaseRule,ruleset_setRules]
        rfl

/-- A probe leaves an intact table intact. -/
theorem Intact.probe (hi : Intact h) {h' : Handle} {r r' : Rule}
    (hm : mapTarget h r=some (h',r')) : Intact (releaseRule h' r') :=
  (Keeps.mapTarget hi hm).releaseRule

theorem exists_rules_probe {h' : Handle} {r r' : Rule} (hm : mapTarget h r=some (h',r'))
    {c : Chain} (hc : c∈h.chains) : c∈(releaseRule h' r').chains := by
  rcases releaseRule_mapTarget hm with ⟨-,heq⟩|⟨-,heq,-⟩
  · rw [heq]
    exact hc
  · rw [heq]
    exact hc

/-- Where a rule is found, it is the first that matches. -/
theorem any_of_findIdx? {p : Rule → Bool} {rules : List Rule} {place : ℕ}
    (hp : rules.findIdx? p=some place) :
    rules.any p=true ∧ rules.eraseP p=rules.eraseIdx place ∧ ∃ r, rules[place]?=some r := by
  have herase : rules.eraseP p=rules.eraseIdx place := by
    rw [List.eraseP_eq_eraseIdx,hp]
  obtain ⟨hlt,hpr,-⟩ := List.findIdx?_eq_some_iff_getElem.mp hp
  refine ⟨?_,herase,rules[place],List.getElem?_eq_getElem hlt⟩
  rw [List.any_eq_true]
  exact ⟨rules[place],List.getElem_mem hlt,hpr⟩

theorem any_of_findIdx?_none {p : Rule → Bool} {rules : List Rule}
    (hp : rules.findIdx? p=none) : rules.any p=false ∧ ∀ i∈rules, p i=false := by
  have hall : ∀ i∈rules, p i=false := by
    intro i hi
    simpa using List.findIdx?_eq_none_iff.mp hp i hi
  refine ⟨?_,hall⟩
  rw [List.any_eq_false]
  exact fun i hi => by simp [hall i hi]

/-- Both calls that probe for a rule. -/
theorem probe_outcome (hi : Intact h) (chain : Name) (e : Entry) (mask : List UInt8)
    (dryRun : Bool) :
    Outcome isSame h (if dryRun=true then .checkEntry chain e mask
      else .deleteEntry chain e mask) := by
  have hstep : step isSame h (if dryRun=true then .checkEntry chain e mask
      else .deleteEntry chain e mask)=deleteEntry isSame h chain e mask dryRun := by
    cases dryRun <;> rfl
  have hspec : specStep isSame (ruleset h) (if dryRun=true then .checkEntry chain e mask
      else .deleteEntry chain e mask)=
      ((findLabel chain h.chains).map plain).bind fun c =>
        ((mapTarget h (allocRule e .nomap)).map Prod.snd).bind fun r =>
          if c.rules.any (sameRule isSame r mask)=true then
            some (if dryRun=true then ruleset h
              else withRules (ruleset h) c (c.rules.eraseP (sameRule isSame r mask)))
          else none := by
    rw [←chainNamed_ruleset,←resolve_ruleset]
    cases dryRun <;> rfl
  have hprobes : ProbesModule isSame h (if dryRun=true then .checkEntry chain e mask
      else .deleteEntry chain e mask) → NamesModule h e ∧
        ∃ c, findLabel chain h.chains=some c := by
    intro hp
    cases dryRun with
    | true => exact ⟨hp.2,hp.1⟩
    | false =>
      obtain ⟨hn,c,hc,-⟩ := hp
      exact ⟨hn,c,hc⟩
  cases hfind : findLabel chain h.chains with
  | none =>
    refine outcome_refused hi ?_ ?_ fun hp => ?_
    · rw [hstep,deleteEntry,hfind]
    · rw [hspec,hfind]
      rfl
    · obtain ⟨-,c,hc⟩ := hprobes hp
      rw [hfind] at hc
      cases hc
  | some c =>
    have hc := findLabel_mem hfind
    cases hmap : mapTarget h (allocRule e .nomap) with
    | none =>
      refine outcome_refused hi ?_ ?_ fun hp => ?_
      · rw [hstep,deleteEntry,hfind]
        dsimp only
        rw [hmap]
      · rw [hspec,hfind,hmap]
        rfl
      · -- A module target is always mapped.
        obtain ⟨hempty,hreserved,hnone⟩ := (hprobes hp).1
        have hlabels : e.targetName≠labelDrop ∧ e.targetName≠labelAccept ∧
            e.targetName≠labelQueue ∧ e.targetName≠labelReturn := by
          simpa [isReservedName] using hreserved
        have hsome : mapTarget h (allocRule e .nomap)=
            some (setChanged h,{allocRule e .nomap with type := .module}) := by
          simp [mapTarget,allocRule,hempty,hlabels,hnone]
        rw [hmap] at hsome
        cases hsome
    | some mapped =>
      obtain ⟨h',r⟩ := mapped
      have hprobed := hi.probe hmap
      have hentry : (allocRule e .nomap).entry=e := rfl
      cases hidx : c.rules.findIdx? (sameRule isSame r mask) with
      | none =>
        obtain ⟨hany,hall⟩ := any_of_findIdx?_none hidx
        refine ⟨releaseRule h' r,false,?_,hprobed,?_,fun _ => ?_⟩
        · rw [hstep,deleteEntry,hfind]
          simp only [hmap,hidx]
        · rw [hspec,hfind,hmap]
          simp only [Option.map_some,Option.bind_some]
          rw [if_neg (by rw [show (plain c).rules=c.rules from rfl,hany]; simp)]
          rfl
        · rcases releaseRule_mapTarget hmap with ⟨hn,heq⟩|⟨hn,heq,hr⟩
          · exact ⟨fun hp => absurd (hprobes hp).1 hn,fun _ => heq⟩
          · refine ⟨fun _ => heq,fun hno => absurd ?_ hno⟩
            cases dryRun with
            | true => exact ⟨⟨c,hfind⟩,hn⟩
            | false =>
              refine ⟨hn,c,hfind,?_⟩
              rw [hr] at hall
              exact hall
      | some place =>
        obtain ⟨hany,herase,old,hold⟩ := any_of_findIdx? hidx
        have hcp := exists_rules_probe hmap hc
        cases dryRun with
        | true =>
          refine ⟨releaseRule h' r,true,?_,hprobed,?_,fun _ => ?_⟩
          · rw [hstep,deleteEntry,hfind]
            simp only [hmap,hidx,if_true]
          · rw [hspec,hfind,hmap]
            simp only [Option.map_some,Option.bind_some]
            rw [if_pos (show (plain c).rules.any _=true from hany),ruleset_releaseRule,
              ruleset_mapTarget hmap]
            rfl
          · rcases releaseRule_mapTarget hmap with ⟨hn,heq⟩|⟨hn,heq,-⟩
            · exact ⟨fun hp => absurd (hprobes hp).1 hn,fun _ => heq⟩
            · exact ⟨fun _ => heq,fun hno => absurd ⟨⟨c,hfind⟩,hn⟩ hno⟩
        | false =>
          refine @outcome_done isSame h _ (setChanged (releaseRule
            ((releaseRule h' r).setRules c.addr (c.rules.eraseIdx place) (c.numRules-1)) old))
            ?_ ?_ ?_ rfl
          · rw [hstep,deleteEntry,hfind]
            simp only [hmap,hidx,Bool.false_eq_true,if_false,hold,Option.bind_some]
          · exact (hprobed.unlinkRule hcp hold).setChanged
          · rw [hspec,hfind,hmap]
            simp only [Option.map_some,Option.bind_some]
            rw [if_pos (show (plain c).rules.any _=true from hany),ruleset_setChanged,
              ruleset_releaseRule,ruleset_setRules,ruleset_releaseRule,ruleset_mapTarget hmap,
              ←herase]
            rfl

/-- A change of the rules of a chain and a reference given back do not meet. -/
theorem setRules_releaseRule (h : Handle) (r : Rule) (addr n : ℕ) (rules : List Rule) :
    (releaseRule h r).setRules addr rules n=releaseRule (h.setRules addr rules n) r := by
  unfold releaseRule
  split
  · rename_i target _ _
    simp only [Handle.setRules,dropReference,Handle.modify,modifyChain,List.map_map]
    congr 1
    apply List.map_congr_left
    intro c _
    simp only [Function.comp_apply]
    by_cases hto : c.addr=target
    · subst hto
      by_cases haddr : c.addr=addr
      · subst haddr
        simp
      · simp [haddr]
    · by_cases haddr : c.addr=addr
      · subst haddr
        simp [hto]
      · simp [hto,haddr]
  · rfl

theorem setRules_foldl_releaseRule (released : List Rule) (h : Handle) (addr n : ℕ)
    (rules : List Rule) :
    (released.foldl releaseRule h).setRules addr rules n=
      released.foldl releaseRule (h.setRules addr rules n) := by
  induction released generalizing h with
  | nil => rfl
  | cons r released ih => rw [List.foldl_cons,List.foldl_cons,ih,setRules_releaseRule]

/-- Loose rules that are deleted one after the other. -/
theorem Keeps.releaseRules {released : List Rule} {loose : List (RuleType×Option ℕ)}
    (hk : Keeps h (released.map link++loose)) :
    Keeps (released.foldl Libiptc.releaseRule h) loose := by
  induction released generalizing h with
  | nil => exact hk
  | cons r released ih =>
    rw [List.map_cons,List.cons_append] at hk
    exact ih hk.releaseRule

theorem ruleset_foldl_releaseRule (released : List Rule) (h : Handle) :
    ruleset (released.foldl releaseRule h)=ruleset h := by
  induction released generalizing h with
  | nil => rfl
  | cons r released ih => rw [List.foldl_cons,ih,ruleset_releaseRule]

theorem flushEntries_outcome (hi : Intact h) (chain : Name) :
    Outcome isSame h (.flushEntries chain) := by
  have hno : ¬ProbesModule isSame h (.flushEntries chain) := fun hp => hp
  have hspec : specStep isSame (ruleset h) (.flushEntries chain)=
      ((findLabel chain h.chains).map plain).map fun c => withRules (ruleset h) c [] := by
    rw [←chainNamed_ruleset]
    rfl
  cases hfind : findLabel chain h.chains with
  | none =>
    refine outcome_refused hi ?_ ?_ hno
    · simp only [step,flushEntries,hfind]
    · rw [hspec,hfind]
      rfl
  | some c =>
    have hc := findLabel_mem hfind
    refine @outcome_done isSame h _
      (setChanged ((c.rules.foldl releaseRule h).setRules c.addr [] 0)) ?_ ?_ ?_ rfl
    · simp only [step,flushEntries,hfind]
    · apply Keeps.setChanged
      rw [setRules_foldl_releaseRule]
      apply Keeps.releaseRules
      refine Keeps.setRules hi ⟨c,hc,rfl,rfl⟩ rfl fun l => ?_
      simp
    · rw [hspec,hfind,ruleset_setChanged,ruleset_setRules,ruleset_foldl_releaseRule]
      rfl

/-! ### Counters and policies -/

theorem map_link_modify {g : Rule → Rule} (hg : ∀ r, link (g r)=link r) (rules : List Rule)
    (place : ℕ) : (rules.modify place g).map link=rules.map link := by
  induction rules generalizing place with
  | nil => simp
  | cons r rules ih =>
    cases place with
    | zero => simp [hg]
    | succ place => simp [ih]

/-- The rules of one chain change, seen from the ruleset. -/
theorem ruleset_modify_rules (hi : Intact h) {c : Chain} (hc : c∈h.chains)
    (g : List Rule → List Rule) :
    ruleset (h.modify c.addr fun d => {d with rules := g d.rules})=
      withRules (ruleset h) (plain c) (g c.rules) := by
  rw [withRules,ruleset,ruleset,Handle.modify,modifyChain,replaceChain,List.map_map,List.map_map]
  apply List.map_congr_left
  intro d hd
  simp only [Function.comp_apply]
  by_cases haddr : d.addr=c.addr
  · have hsame : d=c := Keeps.eq_of_addr hi hd hc haddr
    subst hsame
    simp [plain]
  · simp [plain,haddr]

theorem zeroEntries_outcome (hi : Intact h) (chain : Name) :
    Outcome isSame h (.zeroEntries chain) := by
  have hno : ¬ProbesModule isSame h (.zeroEntries chain) := fun hp => hp
  have hspec : specStep isSame (ruleset h) (.zeroEntries chain)=
      ((findLabel chain h.chains).map plain).map fun c =>
        replaceChain (ruleset h) c.addr fun c =>
          {c with counterMap := zeroMap c.counterMap, rules := c.rules.map zeroRule} := by
    rw [←chainNamed_ruleset]
    rfl
  cases hfind : findLabel chain h.chains with
  | none =>
    refine outcome_refused hi ?_ ?_ hno
    · simp only [step,zeroEntries,hfind]
    · rw [hspec,hfind]
      rfl
  | some c =>
    refine @outcome_done isSame h _ (setChanged (h.modify c.addr fun c =>
      {c with counterMap := zeroMap c.counterMap, rules := c.rules.map zeroRule})) ?_ ?_ ?_ rfl
    · simp only [step,zeroEntries,hfind]
    · apply Keeps.setChanged
      refine Keeps.modify_frame hi c.addr (fun _ => rfl) (fun _ => rfl) (fun _ => rfl) fun d => ?_
      rw [List.map_map]
      rfl
    · rw [hspec,hfind,ruleset_setChanged,ruleset_modify]
      · rfl
      · exact fun _ => rfl

/-- Both calls that change the counters of one rule. -/
theorem counter_outcome (hi : Intact h) (chain : Name) (rulenum : ℕ) {g : Rule → Rule}
    (hg : ∀ r, link (g r)=link r)
    (hstep : step isSame h call=
      match findLabel chain h.chains with
      | none => some (h,false)
      | some c =>
        match getRuleNum c rulenum with
        | none => some (h,false)
        | some place =>
          some (setChanged (h.modify c.addr fun c => {c with rules := c.rules.modify place g}),
            true))
    (hspec : specStep isSame (ruleset h) call=
      (chainNamed (ruleset h) chain).bind fun c =>
        if 1≤rulenum ∧ rulenum≤c.rules.length then
          some (withRules (ruleset h) c (c.rules.modify (rulenum-1) g))
        else none)
    (hno : ¬ProbesModule isSame h call) (hcheck : isCheck call=false) :
    Outcome isSame h call := by
  rw [chainNamed_ruleset] at hspec
  cases hfind : findLabel chain h.chains with
  | none =>
    refine outcome_refused hi ?_ ?_ hno
    · simp only [hstep,hfind]
    · rw [hspec,hfind]
      rfl
  | some c =>
    have hc := findLabel_mem hfind
    have hrule : getRuleNum c rulenum=
        if 1≤rulenum ∧ rulenum≤c.rules.length then some (rulenum-1) else none := by
      rw [getRuleNum,getRuleNumFrom_eq,Nat.zero_add]
      rfl
    by_cases hin : 1≤rulenum ∧ rulenum≤c.rules.length
    · rw [if_pos hin] at hrule
      refine @outcome_done isSame h _ (setChanged (h.modify c.addr fun d =>
        {d with rules := d.rules.modify (rulenum-1) g})) ?_ ?_ ?_ hcheck
      · simp only [hstep,hfind,hrule]
      · apply Keeps.setChanged
        exact Keeps.modify_frame hi c.addr (fun _ => rfl) (fun _ => rfl) (fun _ => rfl)
          fun d => map_link_modify hg d.rules _
      · rw [hspec,hfind,Option.map_some,Option.bind_some,
          if_pos (show 1≤rulenum ∧ rulenum≤(plain c).rules.length from hin),ruleset_setChanged,
          ruleset_modify_rules hi hc fun rules => rules.modify (rulenum-1) g]
        rfl
    · rw [if_neg hin] at hrule
      refine outcome_refused hi ?_ ?_ hno
      · simp only [hstep,hfind,hrule]
      · rw [hspec,hfind,Option.map_some,Option.bind_some,
          if_neg (show ¬(1≤rulenum ∧ rulenum≤(plain c).rules.length) from hin)]

theorem setPolicy_outcome (hi : Intact h) (chain policy : Name) (counters : Option Counters) :
    Outcome isSame h (.setPolicy chain policy counters) := by
  have hno : ¬ProbesModule isSame h (.setPolicy chain policy counters) := fun hp => hp
  have hspec : specStep isSame (ruleset h) (.setPolicy chain policy counters)=
      ((findLabel chain h.chains).map plain).bind fun c =>
        if c.hooknum=0 then none
        else (policyVerdict policy).map fun verdict => replaceChain (ruleset h) c.addr fun c =>
          {c with
            policy := verdict
            counters := counters.getD c.counters
            counterMap := {c.counterMap with
              maptype := if counters.isSome=true then .set else .nomap}} := by
    rw [←chainNamed_ruleset]
    rfl
  cases hfind : findLabel chain h.chains with
  | none =>
    refine outcome_refused hi ?_ ?_ hno
    · simp only [step,setPolicy,hfind]
    · rw [hspec,hfind]
      rfl
  | some c =>
    by_cases hook : c.hooknum=0
    · refine outcome_refused hi ?_ ?_ hno
      · simp only [step,setPolicy,hfind]
        rw [if_pos hook]
      · rw [hspec,hfind,Option.map_some,Option.bind_some,
          if_pos (show (plain c).hooknum=0 from hook)]
    · cases hverdict : policyVerdict policy with
      | none =>
        refine outcome_refused hi ?_ ?_ hno
        · simp only [step,setPolicy,hfind]
          rw [if_neg hook,hverdict]
        · rw [hspec,hfind,Option.map_some,Option.bind_some,
            if_neg (show ¬(plain c).hooknum=0 from hook),hverdict]
          rfl
      | some verdict =>
        refine @outcome_done isSame h _ (setChanged (h.modify c.addr fun c =>
          {c with
            verdict := verdict
            counters := counters.getD c.counters
            counterMap := {c.counterMap with
              maptype := if counters.isSome=true then .set else .nomap}})) ?_ ?_ ?_ rfl
        · simp only [step,setPolicy,hfind]
          rw [if_neg hook,hverdict]
        · apply Keeps.setChanged
          exact Keeps.modify_frame hi c.addr (fun _ => rfl) (fun _ => rfl) (fun _ => rfl)
            fun _ => rfl
        · rw [hspec,hfind,Option.map_some,Option.bind_some,
            if_neg (show ¬(plain c).hooknum=0 from hook),hverdict,ruleset_setChanged,
            ruleset_modify]
          · rfl
          · exact fun _ => rfl

/-! ### Chains -/

theorem insertChain_perm (c : Chain) (chains : List Chain) :
    (insertChain c chains).Perm (c::chains) := by
  induction chains with
  | nil => exact List.Perm.refl _
  | cons tmp chains ih =>
    rw [insertChain]
    split
    · exact List.Perm.refl _
    · exact (ih.cons tmp).trans (List.Perm.swap c tmp chains)

theorem modifyChain_perm {chains : List Chain} {c : Chain} (f : Chain → Chain)
    (hnodup : (chains.map Chain.addr).Nodup) (hc : c∈chains) :
    (modifyChain c.addr f chains).Perm (f c::unlinkChain c.addr chains) := by
  induction chains with
  | nil => cases hc
  | cons d chains ih =>
    rw [List.map_cons,List.nodup_cons] at hnodup
    rw [modifyChain,List.map_cons,unlinkChain]
    rcases List.mem_cons.mp hc with rfl|hc
    · have hother : ∀ d∈chains, d.addr≠c.addr := fun d hd haddr =>
        hnodup.1 (haddr ▸ List.mem_map_of_mem hd)
      have hmap : chains.map (fun d => if d.addr=c.addr then f d else d)=chains := by
        conv_rhs => rw [←List.map_id chains]
        apply List.map_congr_left
        intro d hd
        rw [if_neg (hother d hd)]
        rfl
      have hfilter : chains.filter (fun d => d.addr≠c.addr)=chains := by
        rw [List.filter_eq_self]
        intro d hd
        simpa using hother d hd
      rw [if_pos rfl,hmap,List.filter_cons_of_neg (by simp),hfilter]
    · have hne : d.addr≠c.addr := fun haddr => hnodup.1 (haddr ▸ List.mem_map_of_mem hc)
      rw [if_neg hne,List.filter_cons_of_pos (by simpa using hne)]
      exact ((ih hnodup.2 hc).cons d).trans (List.Perm.swap _ _ _)

/-- The order of the chains is no matter of the books. -/
theorem Keeps.perm {h' : Handle} {loose : List (RuleType×Option ℕ)} (hk : Keeps h loose)
    (hp : h'.chains.Perm h.chains) : Keeps h' loose := by
  have hlinks : (links h'.chains++loose).Perm (links h.chains++loose) :=
    (hp.flatMap_right _).append_right loose
  refine ⟨(hp.map Chain.addr).nodup_iff.mpr hk.addrs,fun c hc => ?_,fun c hc => ?_,
    fun l hl hjump => ?_⟩
  · exact hk.numRules c (hp.mem_iff.mp hc)
  · rw [hlinks.count_eq]
    exact hk.references c (hp.mem_iff.mp hc)
  · obtain ⟨c,hc,heq⟩ := hk.jumps l (hlinks.mem_iff.mp hl) hjump
    exact ⟨c,hp.mem_iff.mpr hc,heq⟩

/-- A new chain at a free address. -/
theorem Intact.addChain {h' : Handle} {c : Chain} (hi : Intact h)
    (hfree : c.addr∉h.chains.map Chain.addr) (href : c.references=0) (hnum : c.numRules=0)
    (hrules : c.rules=[]) (hp : h'.chains.Perm (c::h.chains)) : Intact h' := by
  have hlinks : links (c::h.chains)=links h.chains := by
    rw [links,List.flatMap_cons,hrules]
    rfl
  refine Keeps.perm (h := {h with chains := c::h.chains}) ⟨?_,fun d hd => ?_,fun d hd => ?_,
    fun l hl hjump => ?_⟩ hp
  · exact List.nodup_cons.mpr ⟨hfree,hi.addrs⟩
  · rcases List.mem_cons.mp hd with rfl|hd
    · rw [hnum,hrules]
      rfl
    · exact hi.numRules d hd
  · dsimp only
    rw [hlinks]
    rcases List.mem_cons.mp hd with rfl|hd
    · rw [href,eq_comm,List.count_eq_zero]
      intro hmem
      obtain ⟨e,he,heq⟩ := hi.jumps _ hmem rfl
      have haddr : d.addr=e.addr := by simpa [jumpTo] using heq
      exact hfree (haddr ▸ List.mem_map_of_mem he)
    · exact hi.references d hd
  · dsimp only at hl
    rw [hlinks] at hl
    obtain ⟨e,he,heq⟩ := hi.jumps l hl hjump
    exact ⟨e,List.mem_cons_of_mem _ he,heq⟩

/-- A chain without rules to which nothing jumps is taken off. -/
theorem Intact.removeChain {c : Chain} {rest : List Chain} (hi : Intact h)
    (hp : h.chains.Perm (c::rest)) (href : c.references=0) (hrules : c.rules=[]) (n : ℕ) :
    Intact {h with chains := rest, numChains := n} := by
  have hi' : Intact {h with chains := c::rest} := Keeps.perm hi hp.symm
  have hlinks : links (c::rest)=links rest := by
    rw [links,List.flatMap_cons,hrules]
    rfl
  have hcount := hi'.references c (List.mem_cons_self ..)
  dsimp only at hcount
  rw [href,hlinks,eq_comm,List.count_eq_zero] at hcount
  refine ⟨(List.nodup_cons.mp hi'.addrs).2,fun d hd => ?_,fun d hd => ?_,fun l hl hjump => ?_⟩
  · exact hi'.numRules d (List.mem_cons_of_mem _ hd)
  · have hd' := hi'.references d (List.mem_cons_of_mem _ hd)
    dsimp only at hd'
    rw [hlinks] at hd'
    exact hd'
  · dsimp only at hl
    rw [←hlinks] at hl
    obtain ⟨e,he,heq⟩ := hi'.jumps l hl hjump
    rcases List.mem_cons.mp he with rfl|he
    · rw [hlinks,heq] at hl
      exact absurd hl hcount
    · exact ⟨e,he,heq⟩

theorem mallocChain_free (chains : List Chain) (wanted : ℕ) :
    mallocChain chains wanted∉chains.map Chain.addr := by
  unfold mallocChain
  split
  · intro hmem
    have hle := List.single_le_sum (fun _ _ => Nat.zero_le _) _ hmem
    omega
  · assumption

theorem map_plain_insertChain (c : Chain) (chains : List Chain) :
    (insertChain c chains).map plain=sortedInsert (plain c) (chains.map plain) := by
  induction chains with
  | nil => rfl
  | cons tmp chains ih =>
    rw [insertChain,List.map_cons,sortedInsert]
    by_cases hbefore : c.hooknum=0 ∧ tmp.hooknum=0 ∧ strcmpLe c.name tmp.name=true
    · rw [if_pos hbefore,if_pos (show (plain c).hooknum=0 ∧ (plain tmp).hooknum=0 ∧
        strcmpLe (plain c).name (plain tmp).name=true from hbefore)]
      rfl
    · rw [if_neg hbefore,if_neg (show ¬((plain c).hooknum=0 ∧ (plain tmp).hooknum=0 ∧
        strcmpLe (plain c).name (plain tmp).name=true) from hbefore),List.map_cons,ih]

theorem map_plain_unlinkChain (addr : ℕ) (chains : List Chain) :
    (unlinkChain addr chains).map plain=(chains.map plain).filter fun d => d.addr≠addr := by
  rw [unlinkChain,List.filter_map]
  rfl

theorem createChain_outcome (hi : Intact h) (chain : Name) (wanted : ℕ) :
    Outcome isSame h (.createChain chain wanted) := by
  have hno : ¬ProbesModule isSame h (.createChain chain wanted) := fun hp => hp
  have haddrs : (ruleset h).map PlainChain.addr=h.chains.map Chain.addr := by
    rw [ruleset,List.map_map]
    rfl
  have hsome : (chainNamed (ruleset h) chain).isSome=(findLabel chain h.chains).isSome := by
    rw [chainNamed_ruleset,Option.isSome_map]
  have hspec : specStep isSame (ruleset h) (.createChain chain wanted)=
      if (findLabel chain h.chains).isSome=true ∨ isReservedName chain=true ∨
          sizeofChainlabel<chain.length+1 then none
      else some (sortedInsert ⟨mallocChain h.chains wanted,chain,0,0,⟨0,0⟩,⟨.nomap,0⟩,[]⟩
        (ruleset h)) := by
    simp only [specStep,hsome,haddrs,mallocChain]
  by_cases htaken : (findLabel chain h.chains).isSome=true ∨ isReservedName chain=true
  · refine outcome_refused hi ?_ ?_ hno
    · simp only [step,createChain]
      rw [if_pos htaken]
    · rw [hspec,if_pos]
      exact htaken.imp_right Or.inl
  · by_cases hlong : sizeofChainlabel<chain.length+1
    · refine outcome_refused hi ?_ ?_ hno
      · simp only [step,createChain]
        rw [if_neg htaken,if_pos hlong]
      · rw [hspec,if_pos]
        exact Or.inr (Or.inr hlong)
    · refine @outcome_done isSame h _ (setChanged {h with
        chains := insertChain (allocChainHead (mallocChain h.chains wanted) chain 0) h.chains
        numChains := h.numChains+1}) ?_ ?_ ?_ rfl
      · simp only [step,createChain]
        rw [if_neg htaken,if_neg hlong]
      · apply Keeps.setChanged
        exact hi.addChain (mallocChain_free h.chains wanted) rfl rfl rfl (insertChain_perm _ _)
      · rw [hspec,if_neg,ruleset_setChanged]
        · exact congrArg some (map_plain_insertChain
            (allocChainHead (mallocChain h.chains wanted) chain 0) h.chains).symm
        · rintro (hor|hor|hor)
          · exact htaken (Or.inl hor)
          · exact htaken (Or.inr hor)
          · exact hlong hor

/-- `references` is zero just where no rule jumps to the chain. -/
theorem Intact.references_pos_iff (hi : Intact h) {c : Chain} (hc : c∈h.chains) :
    0 < c.references ↔ IsReferenced (ruleset h) (plain c) := by
  rw [hi.references c hc,List.append_nil,List.count_pos_iff]
  simp only [links,List.mem_flatMap,List.mem_map,IsReferenced,ruleset]
  constructor
  · rintro ⟨d,hd,r,hr,hlink⟩
    exact ⟨plain d,⟨d,hd,rfl⟩,r,hr,hlink⟩
  · rintro ⟨_,⟨d,hd,rfl⟩,r,hr,hlink⟩
    exact ⟨d,hd,r,hr,hlink⟩

theorem chains_perm {c : Chain} (hi : Intact h) (hc : c∈h.chains) :
    h.chains.Perm (c::unlinkChain c.addr h.chains) := by
  have hp := modifyChain_perm id hi.addrs hc
  have hsame : modifyChain c.addr id h.chains=h.chains := by
    simp [modifyChain]
  rw [hsame] at hp
  exact hp

theorem deleteChain_outcome (hi : Intact h) (chain : Name) :
    Outcome isSame h (.deleteChain chain) := by
  have hno : ¬ProbesModule isSame h (.deleteChain chain) := fun hp => hp
  have hspec : specStep isSame (ruleset h) (.deleteChain chain)=
      ((findLabel chain h.chains).map plain).bind fun c =>
        if c.hooknum≠0 ∨ IsReferenced (ruleset h) c ∨ c.rules≠[] then none
        else some ((ruleset h).filter fun d => d.addr≠c.addr) := by
    rw [←chainNamed_ruleset]
    rfl
  cases hfind : findLabel chain h.chains with
  | none =>
    refine outcome_refused hi ?_ ?_ hno
    · simp only [step,deleteChain,hfind]
    · rw [hspec,hfind]
      rfl
  | some c =>
    have hc := findLabel_mem hfind
    have href := hi.references_pos_iff hc
    have hnum := hi.numRules c hc
    have hkept : c.hooknum≠0 ∨ 0 < c.references ∨ c.numRules≠0 ↔
        (plain c).hooknum≠0 ∨ IsReferenced (ruleset h) (plain c) ∨ (plain c).rules≠[] := by
      have hempty : c.numRules≠0 ↔ c.rules≠[] := by
        rw [hnum]
        exact not_congr List.length_eq_zero_iff
      rw [href,hempty]
      rfl
    rw [hfind,Option.map_some,Option.bind_some] at hspec
    by_cases hrefuse : c.hooknum≠0 ∨ 0 < c.references ∨ c.numRules≠0
    · refine outcome_refused hi ?_ ?_ hno
      · simp only [step,deleteChain,hfind]
        by_cases hook : c.hooknum≠0
        · rw [if_pos hook]
        · by_cases hpos : 0 < c.references
          · rw [if_neg hook,if_pos hpos]
          · rw [if_neg hook,if_neg hpos,
              if_pos ((hrefuse.resolve_left hook).resolve_left hpos)]
      · rw [hspec,if_pos (hkept.mp hrefuse)]
    · have hall := not_or.mp hrefuse
      have hrest := not_or.mp hall.2
      have hzero : c.references=0 := Nat.eq_zero_of_not_pos hrest.1
      have hempty : c.rules=[] := by
        rw [←List.length_eq_zero_iff,←hnum]
        exact not_not.mp hrest.2
      refine @outcome_done isSame h _ (setChanged {h with
        chains := unlinkChain c.addr h.chains, numChains := h.numChains-1}) ?_ ?_ ?_ rfl
      · simp only [step,deleteChain,hfind]
        rw [if_neg hall.1,if_neg hrest.1,if_neg hrest.2]
      · apply Keeps.setChanged
        exact hi.removeChain (chains_perm hi hc) hzero hempty _
      · rw [hspec,if_neg (fun hor => hrefuse (hkept.mpr hor)),ruleset_setChanged]
        exact congrArg some (map_plain_unlinkChain c.addr h.chains).symm

theorem renameChain_outcome (hi : Intact h) (oldname newname : Name) :
    Outcome isSame h (.renameChain oldname newname) := by
  have hno : ¬ProbesModule isSame h (.renameChain oldname newname) := fun hp => hp
  have hspec : specStep isSame (ruleset h) (.renameChain oldname newname)=
      if (findLabel newname h.chains).isSome=true ∨ isReservedName newname=true then none
      else ((findLabel oldname h.chains).map plain).bind fun c =>
        if c.hooknum≠0 ∨ sizeofChainlabel<newname.length+1 then none
        else some (sortedInsert {c with name := newname}
          ((ruleset h).filter fun d => d.addr≠c.addr)) := by
    simp only [specStep,chainNamed_ruleset,Option.isSome_map]
  by_cases htaken : (findLabel newname h.chains).isSome=true ∨ isReservedName newname=true
  · refine outcome_refused hi ?_ ?_ hno
    · simp only [step,renameChain]
      rw [if_pos htaken]
    · rw [hspec,if_pos htaken]
  rw [if_neg htaken] at hspec
  cases hfind : findLabel oldname h.chains with
  | none =>
    refine outcome_refused hi ?_ ?_ hno
    · simp only [step,renameChain]
      rw [if_neg htaken,hfind]
    · rw [hspec,hfind]
      rfl
  | some c =>
    have hc := findLabel_mem hfind
    rw [hfind,Option.map_some,Option.bind_some] at hspec
    by_cases hook : c.hooknum≠0
    · refine outcome_refused hi ?_ ?_ hno
      · simp only [step,renameChain]
        rw [if_neg htaken,hfind]
        dsimp only
        rw [if_pos hook]
      · rw [hspec,if_pos (Or.inl (show (plain c).hooknum≠0 from hook))]
    · by_cases hlong : sizeofChainlabel<newname.length+1
      · refine outcome_refused hi ?_ ?_ hno
        · simp only [step,renameChain]
          rw [if_neg htaken,hfind]
          dsimp only
          rw [if_neg hook,if_pos hlong]
        · rw [hspec,if_pos (Or.inr hlong)]
      · refine @outcome_done isSame h _ (setChanged {h with
          chains := insertChain {c with name := newname} (unlinkChain c.addr h.chains)})
          ?_ ?_ ?_ rfl
        · simp only [step,renameChain]
          rw [if_neg htaken,hfind]
          dsimp only
          rw [if_neg hook,if_neg hlong]
        · apply Keeps.setChanged
          have hframe : Intact (h.modify c.addr fun d => {d with name := newname}) :=
            Keeps.modify_frame hi c.addr (fun _ => rfl) (fun _ => rfl) (fun _ => rfl) fun _ => rfl
          exact Keeps.perm hframe ((insertChain_perm _ _).trans
            (modifyChain_perm (fun d => {d with name := newname}) hi.addrs hc).symm)
        · rw [hspec,if_neg (not_or.mpr ⟨show ¬(plain c).hooknum≠0 from hook,hlong⟩),
            ruleset_setChanged]
          have hplain := map_plain_insertChain {c with name := newname}
            (unlinkChain c.addr h.chains)
          rw [map_plain_unlinkChain] at hplain
          exact congrArg some hplain.symm

/-- Every call returns and keeps the books. -/
theorem step_outcome (hi : Intact h) (call : Call) : Outcome isSame h call := by
  cases call with
  | insertEntry chain e rulenum => exact insertEntry_outcome hi chain e rulenum
  | replaceEntry chain e rulenum => exact replaceEntry_outcome hi chain e rulenum
  | appendEntry chain e => exact appendEntry_outcome hi chain e
  | deleteEntry chain e mask => exact probe_outcome hi chain e mask false
  | checkEntry chain e mask => exact probe_outcome hi chain e mask true
  | deleteNumEntry chain rulenum => exact deleteNumEntry_outcome hi chain rulenum
  | flushEntries chain => exact flushEntries_outcome hi chain
  | zeroEntries chain => exact zeroEntries_outcome hi chain
  | zeroCounter chain rulenum =>
    exact @counter_outcome _ _ _ hi chain rulenum zeroRule (fun _ => rfl) rfl rfl
      (fun hp => hp) rfl
  | setCounter chain rulenum counters =>
    exact @counter_outcome _ _ _ hi chain rulenum (setRuleCounter counters) (fun _ => rfl) rfl rfl
      (fun hp => hp) rfl
  | createChain chain wanted => exact createChain_outcome hi chain wanted
  | deleteChain chain => exact deleteChain_outcome hi chain
  | renameChain oldname newname => exact renameChain_outcome hi oldname newname
  | setPolicy chain policy counters => exact setPolicy_outcome hi chain policy counters

/-- Every run returns and keeps the books. -/
theorem runCalls_intact (hi : Intact h) (calls : List Call) :
    ∃ after, runCalls isSame h calls=some after ∧ Intact after := by
  induction calls generalizing h with
  | nil => exact ⟨h,rfl,hi⟩
  | cons call calls ih =>
    obtain ⟨after,ok,hstep,hafter,-⟩ := @step_outcome isSame h hi call
    rw [runCalls,hstep,Option.bind_some]
    exact ih hafter

end Calls

/-! ## Runs -/

section Runs

variable (isSame : Entry → Entry → List UInt8 → Option (List UInt8))

/-- The call does to the table what is specified: its ruleset changes as the
lists do, the books are kept, and where it is refused or only checks, the table
stays as it was. -/
def CallRefines (h : Handle) (call : Call) : Prop :=
  ∃ after ok, step isSame h call=some (after,ok) ∧ Intact after ∧
    specStep isSame (ruleset h) call=(if ok=true then some (ruleset after) else none) ∧
    (ok=false ∨ isCheck call=true → after=h)

/-- Every call of a run does what is specified. -/
def RunRefines (h : Handle) (calls : List Call) : Prop :=
  ∀ earlier call later, calls=earlier++call::later →
    ∃ before, runCalls isSame h earlier=some before ∧ CallRefines isSame before call

/-- No call of a run probes for a module while the table is not marked. -/
def MarkedBeforeProbes (h : Handle) (calls : List Call) : Prop :=
  ∀ earlier call later before, calls=earlier++call::later →
    runCalls isSame h earlier=some before → ProbesModule isSame before call →
    before.changed=true

variable {isSame}

/-- A probe for a module is what tells the code from its specification. -/
theorem callRefines_iff {h : Handle} (hi : Intact h) (call : Call) :
    CallRefines isSame h call ↔ (ProbesModule isSame h call → h.changed=true) := by
  obtain ⟨after,ok,hstep,hafter,hspec,hsame⟩ := @step_outcome isSame h hi call
  constructor
  · rintro ⟨after',ok',hstep',-,-,hsame'⟩ hprobe
    rw [hstep] at hstep'
    cases hstep'
    have hquiet : ok=false ∨ isCheck call=true := by
      cases call with
      | checkEntry chain e mask => exact Or.inr rfl
      | deleteEntry chain e mask =>
        -- The deletion finds nothing, so the specification refuses it.
        obtain ⟨hn,c,hc,hnone⟩ := hprobe
        cases ok with
        | false => exact Or.inl rfl
        | true =>
          have hresolve : resolve (ruleset h) (allocRule e .nomap)=
              some {allocRule e .nomap with type := .module} := by
            have hlabels : e.targetName≠labelDrop ∧ e.targetName≠labelAccept ∧
                e.targetName≠labelQueue ∧ e.targetName≠labelReturn := by
              simpa [isReservedName] using hn.2.1
            rw [resolve_ruleset]
            simp [mapTarget,allocRule,hn.1,hlabels,hn.2.2]
          have hany : c.rules.any
              (sameRule isSame {allocRule e .nomap with type := .module} mask)=false := by
            rw [List.any_eq_false]
            intro i hmem
            simp [hnone i hmem]
          simp only [specStep,chainNamed_ruleset,hc,Option.map_some,Option.bind_some,
            hresolve] at hspec
          rw [if_neg (by rw [show (plain c).rules=c.rules from rfl,hany]; simp)] at hspec
          cases hspec
      | _ => exact absurd hprobe id
    have hmarked := (hsame hquiet).1 hprobe
    rw [hsame' hquiet] at hmarked
    rw [hmarked]
    rfl
  · intro hmarked
    refine ⟨after,ok,hstep,hafter,hspec,fun hquiet => ?_⟩
    by_cases hprobe : ProbesModule isSame h call
    · rw [(hsame hquiet).1 hprobe,setChanged,←hmarked hprobe]
    · exact (hsame hquiet).2 hprobe

/-- The calls refine the ruleset in every run that marks the table before it
probes for a module, and in no other. -/
theorem runRefines_iff {h : Handle} (hi : Intact h) (calls : List Call) :
    RunRefines isSame h calls ↔ MarkedBeforeProbes isSame h calls := by
  constructor
  · intro hrun earlier call later before hsplit hbefore hprobe
    obtain ⟨before',hbefore',hrefines⟩ := hrun earlier call later hsplit
    obtain ⟨after,hafter,hintact⟩ := @runCalls_intact isSame h hi earlier
    rw [hbefore] at hbefore' hafter
    cases hbefore'
    cases hafter
    exact (callRefines_iff hintact call).mp hrefines hprobe
  · intro hmarked earlier call later hsplit
    obtain ⟨before,hbefore,hintact⟩ := @runCalls_intact isSame h hi earlier
    refine ⟨before,hbefore,(callRefines_iff hintact call).mpr fun hprobe => ?_⟩
    exact hmarked earlier call later before hsplit hbefore hprobe

end Runs

/-- A filter table with an empty `INPUT` chain, as it was read. -/
def inputTable : Handle where
  changed := false
  chains := [{allocChainHead 1 [73,78,80,85,84] 2 with
    verdict := verdictAccept, counterMap := ⟨.normalMap,0⟩}]
  numChains := 1

/-- A rule with the target `LOG`. -/
def logEntry : Entry := ⟨152,⟨0,0⟩,[],[76,79,71],40,[0,0,0,0]⟩

/-- Entries are the same if they agree up to the target. -/
def sameBody (a b : Entry) (mask : List UInt8) : Option (List UInt8) :=
  if a.body=b.body then some mask else none

theorem inputTable_intact : Intact inputTable := by
  refine ⟨by decide,by decide,by decide,?_⟩
  intro l hl
  cases hl

/-- After an append the table is marked, and a check of the same rule is quiet. -/
theorem runRefines_iff_append_check :
    Intact inputTable ∧ RunRefines sameBody inputTable
      [.appendEntry [73,78,80,85,84] logEntry,.checkEntry [73,78,80,85,84] logEntry []] := by
  refine ⟨inputTable_intact,(runRefines_iff inputTable_intact _).mpr ?_⟩
  intro earlier call later before hsplit hbefore hprobe
  rcases earlier with _|⟨first,_|⟨second,earlier⟩⟩
  · cases hsplit
    exact absurd hprobe id
  · rw [List.cons_append,List.nil_append,List.cons.injEq,List.cons.injEq] at hsplit
    rw [←hsplit.1] at hbefore
    have hrun : (runCalls sameBody inputTable [.appendEntry [73,78,80,85,84] logEntry]).map
        Handle.changed=some true := by decide
    rw [hbefore] at hrun
    exact Option.some.inj hrun
  · simp at hsplit

/-- A check for a rule with the target `LOG` marks the table as changed. -/
theorem not_runRefines_check :
    Intact inputTable ∧ step sameBody inputTable (.checkEntry [73,78,80,85,84] logEntry [])=
      some ({inputTable with changed := true},false) ∧
    ¬RunRefines sameBody inputTable [.checkEntry [73,78,80,85,84] logEntry []] := by
  refine ⟨inputTable_intact,by decide,fun hrun => ?_⟩
  obtain ⟨before,hbefore,after,ok,hstep,-,-,hsame⟩ := hrun [] _ [] rfl
  cases hbefore
  have hfirst : step sameBody inputTable (.checkEntry [73,78,80,85,84] logEntry [])=
      some ({inputTable with changed := true},false) := by decide
  rw [hfirst] at hstep
  cases hstep
  have hchanged := congrArg Handle.changed (hsame (Or.inl rfl))
  exact absurd hchanged (by decide)

end AndroidPlatform.LibiptcRuleset
