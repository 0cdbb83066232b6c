import AndroidPlatform.LibiptcRuleset
import AndroidPlatform.LinkedLists

/-!
# Walking the rules of a chain while they are deleted

The rules of a chain are the nodes of a circle whose head lies in the structure of the chain. The
handle remembers the node that was returned last; a call that deletes this rule moves it back to the
node before, which can be the head. A node knows its chain, and what is read of the head in this
place is whatever lies behind the head in the structure of the chain.
-/

namespace AndroidPlatform.LibiptcIteration

open Libiptc LibiptcRuleset LinkedLists

/-- `LIST_POISON1` -/
def listPoison1 : ℕ := 0x00100100

/-- `LIST_POISON2` -/
def listPoison2 : ℕ := 0x00200200

/-- The table with the nodes of its rules. -/
structure Walker where
  /-- The table. -/
  handle : Handle
  /-- The list heads at their addresses, those of rules and those in chains. -/
  circle : Circle ℕ
  /-- `chain` of the rule at an address. For a list head that lies in a chain it is what lies behind
  it: `index` and `head_offset`, as far as a pointer reaches. -/
  chain : ℕ → ℕ
  /-- `rule_iterator_cur` -/
  ruleIteratorCur : Option ℕ

/-- A call that deletes a rule. -/
inductive Delete where
  /-- `TC_DELETE_NUM_ENTRY` -/
  | num (rulenum : ℕ)
  /-- `TC_DELETE_ENTRY` -/
  | entry (origfw : Entry) (matchmask : List UInt8)

/-- The call for a chain. -/
def Delete.call (chain : Name) : Delete → Call
  | num rulenum => .deleteNumEntry chain rulenum
  | entry origfw matchmask => .deleteEntry chain origfw matchmask

/-- `list_del` -/
def listDel (circle : Circle ℕ) (entry : ℕ) : Circle ℕ where
  next := Function.update (circle.remove entry).next entry listPoison1
  prev := Function.update (circle.remove entry).prev entry listPoison2

section

variable (rulesOffset : ℕ) (isSame : Entry → Entry → List UInt8 → Option (List UInt8))

/-- `&c->rules` -/
def rulesOf (c : ℕ) : ℕ := c+rulesOffset

/-- `TC_FIRST_RULE` -/
def firstRule (w : Walker) (chain : Name) : Walker×Option ℕ :=
  match findLabel chain w.handle.chains with
  | none => (w,none)
  | some c =>
    let r := w.circle.next (rulesOf rulesOffset c.addr)
    if r=rulesOf rulesOffset c.addr then (w,none)
    else ({w with ruleIteratorCur := some r},some r)

/-- `TC_NEXT_RULE` -/
def nextRule (w : Walker) : Walker×Option ℕ :=
  match w.ruleIteratorCur with
  | none => (w,none)
  | some cur =>
    let r := w.circle.next cur
    if r=rulesOf rulesOffset (w.chain cur) then ({w with ruleIteratorCur := none},none)
    else ({w with ruleIteratorCur := some r},some r)

/-- The place of the rule that a call deletes, if it deletes one. -/
def Delete.place (h : Handle) (c : Chain) : Delete → Option ℕ
  | num rulenum => if c.numRules≤rulenum then none else nearRule c rulenum
  | entry origfw matchmask =>
    match mapTarget h (allocRule origfw .nomap) with
    | none => none
    | some (_,r) => c.rules.findIdx? (sameRule isSame r matchmask)

/-- The node of the rule that a call deletes. -/
def victim (w : Walker) (chain : Name) (d : Delete) : Option ℕ :=
  (findLabel chain w.handle.chains).bind fun c =>
    (d.place isSame w.handle c).map fun place => w.circle.next^[place+1] (rulesOf rulesOffset c.addr)

/-- `TC_DELETE_NUM_ENTRY` and `TC_DELETE_ENTRY`, with what they do to the nodes. -/
def deleteRule (w : Walker) (chain : Name) (d : Delete) : Option Walker :=
  (step isSame w.handle (d.call chain)).map fun after =>
    match victim rulesOffset isSame w chain d with
    | none => {w with handle := after.1}
    | some r =>
      {w with
        handle := after.1
        circle := listDel w.circle r
        ruleIteratorCur :=
          if w.ruleIteratorCur=some r then some (w.circle.prev r) else w.ruleIteratorCur}

/-- One turn of a walk: the rule that was returned may be deleted, then the next is asked for. -/
def turn (w : Walker) (chain : Name) (d : Option Delete) : Option (Walker×Option ℕ) :=
  (match d with
    | none => some w
    | some d => deleteRule rulesOffset isSame w chain d).map (nextRule rulesOffset)

/-- The turns of a walk. -/
def turns (w : Walker) (chain : Name) : List (Option Delete) → Option (List (Option ℕ))
  | [] => some []
  | d::ds =>
    (turn rulesOffset isSame w chain d).bind fun after =>
      (turns after.1 chain ds).map fun rs => after.2::rs

/-- A walk: what the first call and the turns return. -/
def walk (w : Walker) (chain : Name) (ds : List (Option Delete)) : Option (List (Option ℕ)) :=
  let first := firstRule rulesOffset w chain
  (turns rulesOffset isSame first.1 chain ds).map fun rs => first.2::rs

/-- No turn deletes a rule that was not returned before it. -/
def DeletesReturned (w : Walker) (chain : Name) : List ℕ → List (Option Delete) → Prop
  | _,[] => True
  | returned,d::ds =>
    (∀ e∈d,∀ r∈victim rulesOffset isSame w chain e,r∈returned) ∧
      ∀ after∈turn rulesOffset isSame w chain d,
        DeletesReturned after.1 chain (returned++after.2.toList) ds

/-- How many rules the chain has after the calls. -/
def left (h : Handle) (chain : Name) (ds : List (Option Delete)) : Option ℕ :=
  (runCalls isSame h (ds.filterMap fun d => d.map (Delete.call chain))).bind fun after =>
    (findLabel chain after.chains).map fun c => c.rules.length

/-- The nodes of the chain at an address are linked. -/
structure Linked (w : Walker) (chain : Name) (addr : ℕ) (nodes : List ℕ) : Prop where
  /-- The table keeps its books. -/
  intact : Intact w.handle
  /-- The name is that of the chain, and there is a node for every rule. -/
  found : ∃ c,findLabel chain w.handle.chains=some c ∧ c.addr=addr ∧ nodes.length=c.rules.length
  /-- The circle holds the nodes. -/
  circle : w.circle.Holds (rulesOf rulesOffset addr) nodes
  /-- The rules know their chain. -/
  chain : ∀ r∈nodes,w.chain r=addr

end

/-! ## What a deletion does to the table -/

section Tables

variable {isSame : Entry → Entry → List UInt8 → Option (List UInt8)} {h : Handle} {chain : Name}

theorem chainNamed_withRules {rs : Ruleset} {c : PlainChain} (hc : chainNamed rs chain=some c)
    (rules : List Rule) : chainNamed (withRules rs c rules) chain=some {c with rules := rules} := by
  unfold chainNamed at hc ⊢
  unfold withRules replaceChain
  rw [List.find?_map]
  have hsame : (fun c : PlainChain => decide (c.name=chain)) ∘
      (fun d => if d.addr=c.addr then {d with rules := rules} else d)=
        fun c => decide (c.name=chain) := by
    funext d
    simp only [Function.comp_apply]
    split_ifs
    · rfl
    · rfl
  rw [hsame,hc,Option.map_some,if_pos rfl]

/-- What a call does to the rules of a chain. -/
def Deletes (place : Option ℕ) (rules rules' : List Rule) : Prop :=
  match place with
  | none => rules'.length=rules.length
  | some place => place<rules.length ∧ rules'.length+1=rules.length

/-- A call deletes the rule at its place, and nothing else of the chain changes. -/
theorem delete_outcome (hi : Intact h) {c : Chain} (hc : findLabel chain h.chains=some c)
    (d : Delete) :
    ∃ after ok,step isSame h (d.call chain)=some (after,ok) ∧ Intact after ∧
      ∃ c',findLabel chain after.chains=some c' ∧ c'.addr=c.addr ∧
        Deletes (d.place isSame h c) c.rules c'.rules := by
  obtain ⟨after,ok,hstep,hafter,hspec,hsame⟩ := @step_outcome isSame h hi (d.call chain)
  refine ⟨after,ok,hstep,hafter,?_⟩
  have hplain : chainNamed (ruleset h) chain=some (plain c) := by
    rw [chainNamed_ruleset,hc]
    rfl
  have hnum := hi.numRules c (findLabel_mem hc)
  -- A call that is refused leaves the chains alone.
  have hrefused : specStep isSame (ruleset h) (d.call chain)=none →
      findLabel chain after.chains=some c := by
    intro hnone
    rw [hnone] at hspec
    cases ok with
    | true => cases hspec
    | false =>
      by_cases hprobe : ProbesModule isSame h (d.call chain)
      · rw [(hsame (Or.inl rfl)).1 hprobe]
        exact hc
      · rw [(hsame (Or.inl rfl)).2 hprobe]
        exact hc
  have hdone : ∀ rules,specStep isSame (ruleset h) (d.call chain)=
      some (withRules (ruleset h) (plain c) rules) →
      ∃ c',findLabel chain after.chains=some c' ∧ c'.addr=c.addr ∧ c'.rules=rules := by
    intro rules hsome
    rw [hsome] at hspec
    cases ok with
    | false => cases hspec
    | true =>
      have hnamed := chainNamed_withRules hplain rules
      rw [Option.some.inj hspec,chainNamed_ruleset] at hnamed
      obtain ⟨c',hc',heq⟩ := Option.map_eq_some_iff.mp hnamed
      exact ⟨c',hc',congrArg PlainChain.addr heq,congrArg PlainChain.rules heq⟩
  cases d with
  | num rulenum =>
    have hcall : specStep isSame (ruleset h) (Delete.call chain (.num rulenum))=
        if c.rules.length≤rulenum then none
        else some (withRules (ruleset h) (plain c) (c.rules.eraseIdx rulenum)) := by
      show (chainNamed (ruleset h) chain).bind _=_
      rw [hplain]
      rfl
    unfold Delete.place
    dsimp only
    by_cases hle : c.rules.length≤rulenum
    · rw [if_pos (hnum ▸ hle)]
      rw [if_pos hle] at hcall
      exact ⟨c,hrefused hcall,rfl,rfl⟩
    · have hlt := not_le.mp hle
      rw [if_neg hle] at hcall
      obtain ⟨c',hc',haddr,hrules⟩ := hdone _ hcall
      rw [if_neg (hnum ▸ hle),nearRule_eq hnum hlt]
      refine ⟨c',hc',haddr,hlt,?_⟩
      rw [hrules,List.length_eraseIdx_of_lt hlt]
      omega
  | entry origfw matchmask =>
    have hcall : specStep isSame (ruleset h) (Delete.call chain (.entry origfw matchmask))=
        ((mapTarget h (allocRule origfw .nomap)).map Prod.snd).bind fun r =>
          if c.rules.any (sameRule isSame r matchmask)=true then
            some (withRules (ruleset h) (plain c) (c.rules.eraseP (sameRule isSame r matchmask)))
          else none := by
      rw [←resolve_ruleset]
      show (chainNamed (ruleset h) chain).bind _=_
      rw [hplain]
      rfl
    unfold Delete.place
    dsimp only
    cases hmap : mapTarget h (allocRule origfw .nomap) with
    | none =>
      rw [hmap] at hcall
      exact ⟨c,hrefused hcall,rfl,rfl⟩
    | some mapped =>
      obtain ⟨h',r⟩ := mapped
      rw [hmap,Option.map_some,Option.bind_some] at hcall
      dsimp only at hcall ⊢
      cases hplace : c.rules.findIdx? (sameRule isSame r matchmask) with
      | none =>
        rw [(any_of_findIdx?_none hplace).1,if_neg Bool.false_ne_true] at hcall
        exact ⟨c,hrefused hcall,rfl,rfl⟩
      | some place =>
        obtain ⟨hany,herase,_,hplaced⟩ := any_of_findIdx? hplace
        have hlt := (List.getElem?_eq_some_iff.mp hplaced).1
        rw [if_pos hany,herase] at hcall
        obtain ⟨c',hc',haddr,hrules⟩ := hdone _ hcall
        refine ⟨c',hc',haddr,hlt,?_⟩
        rw [hrules,List.length_eraseIdx_of_lt hlt]
        omega

end Tables

/-! ## A turn -/

section Turns

variable {rulesOffset : ℕ} {isSame : Entry → Entry → List UInt8 → Option (List UInt8)} {w : Walker}
  {chain : Name} {addr : ℕ} {kept rest : List ℕ}

/-- Deleting a node leaves the others linked. -/
theorem listDel_holds {circle : Circle ℕ} {head x : ℕ} {a b : List ℕ}
    (h : circle.Holds head (a++x::b)) : (listDel circle x).Holds head (a++b) := by
  have hne : ∀ y∈head::(a++b),y≠x := by
    have hnodup := h.nodup
    rw [←List.cons_append,List.nodup_middle,List.nodup_cons] at hnodup
    intro y hy heq
    exact hnodup.1 (heq ▸ hy)
  exact h.remove.congr (fun y hy => Function.update_of_ne (hne y hy) _ _)
    fun y hy => Function.update_of_ne (hne y hy) _ _

/-- The walk stands at the last of the rules that are kept, or at the head. -/
structure Standing (rulesOffset : ℕ) (w : Walker) (chain : Name) (addr : ℕ) (kept rest : List ℕ) :
    Prop extends Linked rulesOffset w chain addr (kept++rest) where
  /-- The iterator. -/
  cur : w.ruleIteratorCur=
    some ((rulesOf rulesOffset addr::kept).getLast (List.cons_ne_nil _ _))

/-- What the turn deletes. -/
theorem deleteRule_standing (hs : Standing rulesOffset w chain addr kept rest) {d : Delete}
    (hkept : ∀ r∈victim rulesOffset isSame w chain d,r∉rest) :
    ∃ w' kept',deleteRule rulesOffset isSame w chain d=some w' ∧
      Standing rulesOffset w' chain addr kept' rest ∧ w'.chain=w.chain ∧ kept'⊆kept ∧
      (∀ ds,left isSame w.handle chain (some d::ds)=left isSame w'.handle chain ds) := by
  obtain ⟨c,hc,rfl,hlength⟩ := hs.found
  obtain ⟨after,ok,hstep,hafter,c',hc',haddr,hdeletes⟩ := @delete_outcome isSame _ _ hs.intact _ hc d
  have hleft : ∀ ds,left isSame w.handle chain (some d::ds)=left isSame after chain ds := by
    intro ds
    unfold left
    rw [List.filterMap_cons]
    dsimp only [Option.map_some]
    rw [runCalls,hstep,Option.bind_some]
  unfold deleteRule
  rw [hstep,Option.map_some]
  unfold victim at hkept ⊢
  rw [hc,Option.bind_some] at hkept ⊢
  cases hplace : d.place isSame w.handle c with
  | none =>
    rw [hplace] at hdeletes
    refine ⟨_,kept,rfl,⟨⟨hafter,⟨c',hc',haddr,hlength.trans hdeletes.symm⟩,hs.circle,hs.chain⟩,
      hs.cur⟩,rfl,fun _ hr => hr,hleft⟩
  | some place =>
    obtain ⟨hlt,hshorter⟩ : place<c.rules.length ∧ c'.rules.length+1=c.rules.length := by
      rw [hplace] at hdeletes
      exact hdeletes
    have hplaced : place<(kept++rest).length := hlength ▸ hlt
    have hnode : w.circle.next^[place+1] (rulesOf rulesOffset c.addr)=(kept++rest)[place] :=
      Circle.iterate_chain hs.circle.forward (Nat.succ_lt_succ hplaced)
    rw [hplace,Option.map_some,hnode] at hkept
    rw [Option.map_some,hnode]
    obtain hmem | hmem := List.mem_append.mp (List.getElem_mem hplaced)
    swap
    · exact absurd hmem (hkept _ rfl)
    generalize (kept++rest)[place]=r at hmem
    obtain ⟨a,b,rfl⟩ := List.append_of_mem hmem
    have hsub : a++b⊆a++r::b := (List.sublist_cons_self r b).append_left a |>.subset
    have hcircle := hs.circle
    rw [List.append_assoc,List.cons_append] at hcircle
    refine ⟨_,a++b,rfl,⟨⟨hafter,⟨c',hc',haddr,?_⟩,?_,fun q hq => hs.chain q ?_⟩,?_⟩,rfl,?_,hleft⟩
    · rw [List.length_append,List.length_append,List.length_cons] at hlength
      rw [List.length_append,List.length_append]
      omega
    · rw [List.append_assoc]
      exact listDel_holds hcircle
    · exact List.mem_append.mpr ((List.mem_append.mp hq).imp_left fun hin => hsub hin)
    · have hcur := hs.cur
      dsimp only
      obtain rfl | ⟨b,y,rfl⟩ := b.eq_nil_or_concat'
      · have hlast : w.ruleIteratorCur=some r := by
          rw [hcur]
          simp
        rw [if_pos hlast,hcircle.prev_eq,List.append_nil]
      · have hlast : w.ruleIteratorCur=some y := by
          rw [hcur]
          simp
        have hne : w.ruleIteratorCur≠some r := by
          have hbehind := (List.nodup_append.mp (List.nodup_cons.mp hcircle.nodup).2).2.1
          rw [hlast]
          intro heq
          refine (List.nodup_cons.mp hbehind).1 (List.mem_append_left rest ?_)
          rw [←Option.some.inj heq]
          exact List.mem_append_right b List.mem_cons_self
        rw [if_neg hne,hlast]
        simp
    · exact hsub

/-- What the step after the deletion has to compare for the walk to go on. -/
def Compares (rulesOffset : ℕ) (w : Walker) (addr : ℕ) (kept rest : List ℕ) : Prop :=
  kept=[] → ((rest++[rulesOf rulesOffset addr]).head?=
    some (rulesOf rulesOffset (w.chain (rulesOf rulesOffset addr))) ↔ rest=[])

/-- The next rule is returned exactly if the comparison is right, and the walk then stands at it. -/
theorem nextRule_iff (hs : Standing rulesOffset w chain addr kept rest) :
    (nextRule rulesOffset w).1={w with ruleIteratorCur := (nextRule rulesOffset w).2} ∧
      ((nextRule rulesOffset w).2=rest.head? ↔ Compares rulesOffset w addr kept rest) := by
  have hnext := hs.circle.next_last
  unfold nextRule
  rw [hs.cur]
  dsimp only
  generalize hlast : (rulesOf rulesOffset addr::kept).getLast (List.cons_ne_nil _ _)=cur at hnext
  refine ⟨?_,?_⟩
  · split_ifs
    · rfl
    · rfl
  by_cases hkept : kept=[]
  · subst hkept
    rw [List.getLast_singleton] at hlast
    subst hlast
    unfold Compares
    rw [←hnext,Option.some.injEq,imp_iff_right rfl]
    by_cases heq : w.circle.next (rulesOf rulesOffset addr)=
        rulesOf rulesOffset (w.chain (rulesOf rulesOffset addr))
    · rw [if_pos heq,iff_true_left heq]
      exact eq_comm.trans List.head?_eq_none_iff
    · rw [if_neg heq,iff_false_left heq]
      cases rest with
      | nil => exact iff_of_false (fun h => by cases h) fun h => h rfl
      | cons b rest => exact iff_of_true hnext (List.cons_ne_nil b rest)
  · have hcur : cur∈kept := by
      rw [←hlast,List.getLast_cons hkept]
      exact List.getLast_mem hkept
    rw [hs.chain cur (List.mem_append_left rest hcur)]
    refine iff_of_true ?_ fun heq => absurd heq hkept
    cases rest with
    | nil =>
      rw [if_pos (Option.some.inj hnext)]
      rfl
    | cons b rest =>
      have hb : w.circle.next cur=b := Option.some.inj hnext
      have hne : b≠rulesOf rulesOffset addr := by
        rintro rfl
        exact (List.nodup_cons.mp hs.circle.nodup).1
          (List.mem_append_right kept List.mem_cons_self)
      rw [hb,if_neg hne]
      rfl

/-! ## Walks -/

theorem left_nil (hl : Linked rulesOffset w chain addr (kept++rest)) :
    left isSame w.handle chain []=some (kept++rest).length := by
  obtain ⟨c,hc,-,hlength⟩ := hl.found
  unfold left
  rw [List.filterMap_nil,runCalls,Option.bind_some,hc,hlength]
  rfl

/-- The turn of a walk up to the next rule. -/
theorem turn_standing (hs : Standing rulesOffset w chain addr kept rest) {d : Option Delete}
    (hkept : ∀ e∈d,∀ r∈victim rulesOffset isSame w chain e,r∉rest) :
    ∃ w' kept',turn rulesOffset isSame w chain d=some (nextRule rulesOffset w') ∧
      Standing rulesOffset w' chain addr kept' rest ∧ w'.chain=w.chain ∧ kept'⊆kept ∧
      (∀ ds,left isSame w.handle chain (d::ds)=left isSame w'.handle chain ds) := by
  cases d with
  | none => exact ⟨w,kept,rfl,hs,rfl,fun _ hr => hr,fun ds => rfl⟩
  | some e =>
    obtain ⟨w',kept',hdelete,hs',hchain,hsub,hleft⟩ := deleteRule_standing hs (hkept e rfl)
    refine ⟨w',kept',?_,hs',hchain,hsub,hleft⟩
    unfold turn
    dsimp only
    rw [hdelete,Option.map_some]

/-- The first comparison of a walk. -/
theorem compares_iff {w' : Walker} {kept' : List ℕ} {d : Option Delete}
    (hs' : Standing rulesOffset w' chain addr kept' rest)
    (hleft : ∀ ds,left isSame w.handle chain (d::ds)=left isSame w'.handle chain ds) :
    (left isSame w.handle chain [d]=some (rest.length-0) →
      ((rest++[rulesOf rulesOffset addr])[0]?=
        some (rulesOf rulesOffset (w'.chain (rulesOf rulesOffset addr))) ↔ 0=rest.length)) ↔
      Compares rulesOffset w' addr kept' rest := by
  have hkept : left isSame w.handle chain [d]=some (rest.length-0) ↔ kept'=[] := by
    rw [hleft,left_nil hs'.toLinked,Option.some.injEq,List.length_append,Nat.sub_zero,
      Nat.add_eq_right,List.length_eq_zero_iff]
  have hrest : 0=rest.length ↔ rest=[] := eq_comm.trans List.length_eq_zero_iff
  unfold Compares
  rw [hkept,hrest,List.head?_eq_getElem?]

/-- The turns return the rules that are left and then nothing exactly if every comparison is
right. -/
theorem turns_iff (hs : Standing rulesOffset w chain addr kept rest) {returned : List ℕ}
    {ds : List (Option Delete)} (hkept : kept⊆returned) (hreturned : ∀ r∈returned,r∉rest)
    (hdeletes : DeletesReturned rulesOffset isSame w chain returned ds)
    (hlength : ds.length=rest.length+1) :
    turns rulesOffset isSame w chain ds=some (rest.map some++[none]) ↔
      ∀ k<rest.length+1,left isSame w.handle chain (ds.take (k+1))=some (rest.length-k) →
        ((rest++[rulesOf rulesOffset addr])[k]?=
          some (rulesOf rulesOffset (w.chain (rulesOf rulesOffset addr))) ↔ k=rest.length) := by
  induction rest generalizing w kept returned ds with
  | nil =>
    obtain ⟨d,rfl⟩ := List.length_eq_one_iff.mp hlength
    obtain ⟨w',kept',hturn,hs',hchain,hsub,hleft⟩ :=
      @turn_standing _ isSame _ _ _ _ _ hs d fun e he r hr => hreturned r (hdeletes.1 e he r hr)
    have hcompare := compares_iff hs' hleft
    obtain ⟨-,hnext⟩ := nextRule_iff hs'
    rw [hchain] at hcompare
    rw [turns,hturn,Option.bind_some,turns,Option.map_some]
    constructor
    · intro heq k hk
      obtain rfl : k=0 := by
        rw [List.length_nil] at hk
        omega
      exact hcompare.mpr (hnext.mp (List.cons.inj (Option.some.inj heq)).1)
    · intro hall
      rw [hnext.mpr (hcompare.mp (hall 0 Nat.one_pos))]
      rfl
  | cons b rest ih =>
    cases ds with
    | nil => cases hlength
    | cons d ds =>
      obtain ⟨w',kept',hturn,hs',hchain,hsub,hleft⟩ :=
        @turn_standing _ isSame _ _ _ _ _ hs d fun e he r hr => hreturned r (hdeletes.1 e he r hr)
      have hcompare := compares_iff hs' hleft
      obtain ⟨hcur,hnext⟩ := nextRule_iff hs'
      rw [hchain] at hcompare
      rw [turns,hturn,Option.bind_some]
      by_cases hright : Compares rulesOffset w' addr kept' (b::rest)
      · have hb : (nextRule rulesOffset w').2=some b := hnext.mpr hright
        rw [hb] at hcur
        have hafter : (nextRule rulesOffset w').1.handle=w'.handle ∧
            (nextRule rulesOffset w').1.chain=w.chain := by
          rw [hcur]
          exact ⟨rfl,hchain⟩
        have hlinked := hs'.toLinked
        rw [List.append_cons] at hlinked
        have hstanding : Standing rulesOffset (nextRule rulesOffset w').1 chain addr (kept'++[b])
            rest := by
          rw [hcur]
          exact ⟨⟨hlinked.intact,hlinked.found,hlinked.circle,hlinked.chain⟩,by simp⟩
        have hnodup := (List.nodup_append.mp (List.nodup_cons.mp hs'.circle.nodup).2).2.1
        have hb' : ∀ r∈returned++[b],r∉rest := by
          intro r hr
          obtain hr | hr := List.mem_append.mp hr
          · exact fun hin => hreturned r hr (List.mem_cons_of_mem b hin)
          · rw [List.mem_singleton.mp hr]
            exact (List.nodup_cons.mp hnodup).1
        have hsub' : kept'++[b]⊆returned++[b] := by
          intro r hr
          exact List.mem_append.mpr ((List.mem_append.mp hr).imp_left fun hin => hkept (hsub hin))
        have hdeletes' := hdeletes.2 _ hturn
        rw [hb] at hdeletes'
        have hlater := ih hstanding hsub' hb' hdeletes' (Nat.succ.inj hlength)
        rw [hafter.1,hafter.2] at hlater
        rw [hb]
        constructor
        · intro heq k hk hleft'
          obtain ⟨rs,hrs,hcons⟩ := Option.map_eq_some_iff.mp heq
          rw [(List.cons.inj hcons).2] at hrs
          cases k with
          | zero => exact hcompare.mpr hright hleft'
          | succ k =>
            rw [List.take_succ_cons,hleft] at hleft'
            have hrest := hlater.mp hrs k (Nat.lt_of_succ_lt_succ hk) (by
              rw [hleft',List.length_cons,Nat.add_sub_add_right])
            rw [List.cons_append,List.getElem?_cons_succ,hrest,List.length_cons,Nat.add_right_cancel_iff]
        · intro hall
          have hrs := hlater.mpr fun k hk hleft' => by
            have hrest := hall (k+1) (Nat.succ_lt_succ hk) (by
              rw [List.take_succ_cons,hleft,hleft',List.length_cons,Nat.add_sub_add_right])
            rwa [List.cons_append,List.getElem?_cons_succ,List.length_cons,Nat.add_right_cancel_iff]
              at hrest
          rw [hrs]
          rfl
      · refine iff_of_false (fun heq => hright (hnext.mp ?_)) fun hall => hright (hcompare.mp ?_)
        · obtain ⟨rs,-,hcons⟩ := Option.map_eq_some_iff.mp heq
          exact (List.cons.inj hcons).1
        · exact hall 0 (Nat.succ_pos _)

end Turns

/-- A walk over a chain returns every rule that the chain had, in their order, and then nothing,
exactly if the comparison with what lies behind the list head is right wherever all rules up to
there were deleted: behind the last rule it is to be the chain itself, and before it another one. -/
theorem walk_iff {rulesOffset : ℕ} {isSame : Entry → Entry → List UInt8 → Option (List UInt8)}
    {w : Walker} {chain : Name} {addr : ℕ} {nodes : List ℕ}
    (hl : Linked rulesOffset w chain addr nodes) {ds : List (Option Delete)}
    (hdeletes : DeletesReturned rulesOffset isSame (firstRule rulesOffset w chain).1 chain
      (firstRule rulesOffset w chain).2.toList ds) (hlength : ds.length=nodes.length) :
    walk rulesOffset isSame w chain ds=some (nodes.map some++[none]) ↔
      ∀ k<nodes.length,left isSame w.handle chain (ds.take (k+1))=some (nodes.length-(k+1)) →
        ((nodes++[rulesOf rulesOffset addr])[k+1]?=
          some (rulesOf rulesOffset (w.chain (rulesOf rulesOffset addr))) ↔
            k+1=nodes.length) := by
  obtain ⟨c,hc,rfl,hnodes⟩ := hl.found
  have hnext : some (w.circle.next (rulesOf rulesOffset c.addr))=
      (nodes++[rulesOf rulesOffset c.addr]).head? :=
    Circle.Holds.next_last (a := []) hl.circle
  have hfirst : firstRule rulesOffset w chain=
      if w.circle.next (rulesOf rulesOffset c.addr)=rulesOf rulesOffset c.addr then (w,none)
      else ({w with ruleIteratorCur := some (w.circle.next (rulesOf rulesOffset c.addr))},
        some (w.circle.next (rulesOf rulesOffset c.addr))) := by
    unfold firstRule
    rw [hc]
  unfold walk
  cases nodes with
  | nil =>
    rw [List.length_eq_zero_iff.mp hlength,hfirst,if_pos (Option.some.inj hnext)]
    exact iff_of_true rfl fun k hk => absurd hk (Nat.not_lt_zero k)
  | cons a nodes =>
    have ha : w.circle.next (rulesOf rulesOffset c.addr)=a := Option.some.inj hnext
    have hne : a≠rulesOf rulesOffset c.addr := by
      rintro rfl
      exact (List.nodup_cons.mp hl.circle.nodup).1 List.mem_cons_self
    rw [ha,if_neg hne] at hfirst
    rw [hfirst] at hdeletes ⊢
    have hstanding : Standing rulesOffset {w with ruleIteratorCur := some a} chain c.addr [a]
        nodes := ⟨⟨hl.intact,hl.found,hl.circle,hl.chain⟩,rfl⟩
    have hreturned : ∀ r∈[a],r∉nodes := by
      intro r hr
      rw [List.mem_singleton.mp hr]
      exact (List.nodup_cons.mp (List.nodup_cons.mp hl.circle.nodup).2).1
    have hturns := turns_iff hstanding (fun _ hr => hr) hreturned hdeletes hlength
    dsimp only at hturns ⊢
    have hmap : (turns rulesOffset isSame {w with ruleIteratorCur := some a} chain ds).map
          (fun rs => some a::rs)=some ((a::nodes).map some++[none]) ↔
        turns rulesOffset isSame {w with ruleIteratorCur := some a} chain ds=
          some (nodes.map some++[none]) := by
      constructor
      · intro heq
        obtain ⟨rs,hrs,hcons⟩ := Option.map_eq_some_iff.mp heq
        rw [hrs]
        exact congrArg some (List.cons.inj hcons).2
      · intro hrs
        rw [hrs]
        rfl
    rw [hmap,hturns,List.length_cons]
    refine forall₂_congr fun k hk => ?_
    rw [Nat.add_sub_add_right,Nat.add_right_cancel_iff,List.cons_append,List.getElem?_cons_succ]

/-- A table with two rules in `INPUT`. -/
def twoRules : Walker where
  handle := ⟨false,[{allocChainHead 1000 [73,78,80,85,84] 1 with
    numRules := 2, rules := [allocRule logEntry .normalMap,allocRule logEntry .normalMap]}],1⟩
  circle := ⟨fun x => if x=1096 then 5000 else if x=5000 then 6000 else 1096,
    fun x => if x=1096 then 6000 else if x=6000 then 5000 else 1096⟩
  chain := fun x => if x=1096 then 0 else 1000
  ruleIteratorCur := none

theorem twoRules_linked : Linked 96 twoRules [73,78,80,85,84] 1000 [5000,6000] :=
  ⟨⟨by decide,by decide,by decide,by decide⟩,⟨_,rfl,rfl,rfl⟩,
    ⟨⟨rfl,rfl,rfl,rfl⟩,⟨rfl,rfl,rfl,rfl⟩,by decide⟩,by decide⟩

theorem twoRules_deletesReturned (d : Option Delete) (hd : d=none ∨ d=some (.num 0)) :
    DeletesReturned 96 sameBody (firstRule 96 twoRules [73,78,80,85,84]).1 [73,78,80,85,84]
      (firstRule 96 twoRules [73,78,80,85,84]).2.toList [some (.num 0),d] := by
  refine ⟨fun e he r hr => ?_,fun after hafter => ⟨fun e he r hr => ?_,fun _ _ => trivial⟩⟩
  · cases he
    cases hr
    decide
  · rcases hd with rfl | rfl
    · cases he
    · cases he
      cases hafter
      cases hr
      decide

/-- The first of two rules is deleted. -/
theorem walk_iff_firstDeleted :
    walk 96 sameBody twoRules [73,78,80,85,84] [some (.num 0),none]=
      some [some 5000,some 6000,none] :=
  (walk_iff twoRules_linked (twoRules_deletesReturned none (Or.inl rfl)) rfl).mpr (by decide)

/-- Both rules are deleted: the walk does not end. -/
theorem not_walk_end :
    DeletesReturned 96 sameBody (firstRule 96 twoRules [73,78,80,85,84]).1 [73,78,80,85,84]
        (firstRule 96 twoRules [73,78,80,85,84]).2.toList [some (.num 0),some (.num 0)] ∧
      walk 96 sameBody twoRules [73,78,80,85,84] [some (.num 0),some (.num 0)]≠
        some [some 5000,some 6000,none] :=
  ⟨twoRules_deletesReturned _ (Or.inr rfl),by decide⟩

end AndroidPlatform.LibiptcIteration
