import AndroidPlatform.LibiptcCommit
import Mathlib.Data.List.Induction

/-!
# The last call on the counters of a rule

Every rule has a history: whether it was read from the kernel or put in by a call, and the calls
that set or zeroed its counters since. What a commit sends for a rule is to depend on the last of
these calls only. The ledger of a run says what the code sends, so it is enough to compare the two.
-/

namespace AndroidPlatform.LibiptcCounters

open Libiptc LibiptcRuleset LibiptcParse LibiptcCommit

/-! ## Histories -/

/-- Where a rule comes from. -/
inductive Origin where
  /-- It was read from this entry of the table. -/
  | kernel (i : ℕ)
  /-- It was put in with these counters. -/
  | put (counters : Counters)
  deriving DecidableEq

/-- A call on the counters of a rule. -/
inductive CounterCall where
  /-- `TC_SET_COUNTER` -/
  | set (counters : Counters)
  /-- `TC_ZERO_COUNTER`, or `TC_ZERO_ENTRIES` for its chain. -/
  | zero
  deriving DecidableEq

/-- The history of a rule. -/
structure History where
  /-- Where it comes from. -/
  origin : Origin
  /-- The calls on its counters, in their order. -/
  calls : List CounterCall
  deriving DecidableEq

/-- What a rule has from the start. -/
def Origin.fate : Origin → Fate
  | .kernel i => .kept i
  | .put counters => .given counters

/-- What a rule is to have once it is zeroed. -/
def Origin.zeroed : Origin → Fate
  | .kernel i => .zeroed i
  | .put _ => .given ⟨0,0⟩

/-- The counters that a rule is put in with. -/
def Origin.counters : Origin → Option Counters
  | .kernel _ => none
  | .put counters => some counters

/-- What the code makes of a call. -/
def CounterCall.act : CounterCall → Fate → Fate
  | .set counters,_ => .given counters
  | .zero,fate => zeroFate fate

/-- The history with one more call. -/
def History.add (call : CounterCall) (x : History) : History := {x with calls := x.calls++[call]}

/-- What the code makes of a history. -/
def History.fate (x : History) : Fate :=
  x.calls.foldl (fun fate call => call.act fate) x.origin.fate

/-- What a history is to come to: the last call wins. -/
def History.due (x : History) : Fate :=
  match x.calls.getLast? with
  | none => x.origin.fate
  | some (.set counters) => .given counters
  | some .zero => x.origin.zeroed

/-- The counters that the rule was given last, if any. -/
def History.given (x : History) : Option Counters :=
  x.calls.foldl (fun given call =>
    match call with
    | .set counters => some counters
    | .zero => given) x.origin.counters

/-- If the rule was zeroed last, no counters were given to it before, or it is no rule of the kernel
and those that were given last are zero. -/
def History.Settled (x : History) : Prop :=
  x.calls.getLast?=some .zero →
    x.given=none ∨ (x.origin.counters.isSome=true ∧ x.given=some ⟨0,0⟩)

instance (x : History) : Decidable x.Settled :=
  inferInstanceAs (Decidable (x.calls.getLast?=some .zero →
    x.given=none ∨ (x.origin.counters.isSome=true ∧ x.given=some ⟨0,0⟩)))

namespace History

theorem add_fate (x : History) (call : CounterCall) : (x.add call).fate=call.act x.fate := by
  unfold fate add
  rw [List.foldl_append]
  rfl

theorem add_given (x : History) (call : CounterCall) :
    (x.add call).given=match call with
      | .set counters => some counters
      | .zero => x.given := by
  unfold given add
  rw [List.foldl_append]
  rfl

/-- The induction over the calls of a history. -/
theorem add_induction {P : History → Prop} (hstart : ∀ origin, P ⟨origin,[]⟩)
    (hadd : ∀ x call, P x → P (x.add call)) (x : History) : P x := by
  obtain ⟨origin,calls⟩ := x
  induction calls using List.reverseRecOn with
  | nil => exact hstart origin
  | append_singleton calls call ih => exact hadd ⟨origin,calls⟩ call ih

/-- A rule that is put in is given counters. -/
theorem isSome_given {x : History} (hput : x.origin.counters.isSome=true) :
    x.given.isSome=true := by
  induction x using add_induction with
  | hstart origin => exact hput
  | hadd x call ih =>
    rw [add_given]
    cases call with
    | set counters => rfl
    | zero => exact ih hput

/-- Counters that were given are never zeroed. -/
theorem fate_of_given {x : History} {counters : Counters} (h : x.given=some counters) :
    x.fate=.given counters := by
  induction x using add_induction with
  | hstart origin =>
    cases origin with
    | kernel i => cases h
    | put counters' =>
      cases h
      rfl
  | hadd x call ih =>
    rw [add_given] at h
    rw [add_fate]
    cases call with
    | set counters' =>
      cases h
      rfl
    | zero =>
      rw [ih h]
      rfl

/-- A rule of the kernel that was given nothing is zeroed by the first call. -/
theorem fate_of_not_given {x : History} (h : x.given=none) :
    x.fate=if x.calls=[] then x.origin.fate else x.origin.zeroed := by
  induction x using add_induction with
  | hstart origin => rfl
  | hadd x call ih =>
    rw [add_given] at h
    cases call with
    | set counters => cases h
    | zero =>
      have hne : (x.add .zero).calls≠[] := List.concat_ne_nil _ _
      rw [add_fate,ih h,if_neg hne]
      cases horigin : x.origin with
      | kernel i =>
        show zeroFate _=x.origin.zeroed
        rw [horigin]
        split_ifs
        · rfl
        · rfl
      | put counters =>
        have hput := @isSome_given x (by rw [horigin]; rfl)
        have hnone : x.given=none := h
        rw [hnone] at hput
        cases hput

/-- What the kernel has counted since is not to be known in advance. -/
theorem exists_worth_ne (table : KernelTable) (i : ℕ) (counters : Counters) :
    ∃ old : List Counters,old.length=table.numEntries ∧
      worth table old (.given counters)≠worth table old (.zeroed i) := by
  by_contra hno
  have hall : ∀ c : Counters,some counters=
      worth table (List.replicate table.numEntries c) (.zeroed i) := by
    intro c
    by_contra hne
    exact hno ⟨_,List.length_replicate,hne⟩
  have hzeros := hall ⟨0,0⟩
  have hones := hall ⟨1,0⟩
  simp only [worth,List.getElem?_replicate] at hzeros hones
  split_ifs at hzeros hones with hi
  · rw [Option.bind_some] at hzeros hones
    cases hentry : table.entries[i]? with
    | none =>
      rw [hentry] at hzeros
      cases hzeros
    | some e =>
      rw [hentry,Option.map_some] at hzeros hones
      have hsame := (Option.some.inj hzeros).symm.trans (Option.some.inj hones)
      have hpcnt : 0-e.counters.pcnt=1-e.counters.pcnt := congrArg Counters.pcnt hsame
      have hzero : (0 : UInt64)=1 := (UInt64.sub_left_inj _).mp hpcnt
      cases hzero
  · cases hzeros

/-- The values of a history are due, whatever the kernel has counted, exactly if it is settled. -/
theorem worth_fate_iff (x : History) (table : KernelTable) :
    (∀ old : List Counters,old.length=table.numEntries →
      worth table old x.fate=worth table old x.due) ↔ x.Settled := by
  obtain hnil | ⟨calls,call,hcalls⟩ := x.calls.eq_nil_or_concat'
  · obtain ⟨origin,_⟩ := x
    cases hnil
    exact iff_of_true (fun _ _ => rfl) fun hlast => by cases hlast
  have hlast : x.calls.getLast?=some call := by
    rw [hcalls]
    exact List.getLast?_concat
  unfold due Settled
  rw [hlast]
  cases call with
  | set counters =>
    refine iff_of_true (fun old _ => ?_) fun heq => by cases heq
    have hx : x=(⟨x.origin,calls⟩ : History).add (.set counters) := by
      obtain ⟨origin,_⟩ := x
      cases hcalls
      rfl
    rw [hx,add_fate]
    rfl
  | zero =>
    dsimp only
    cases hgiven : x.given with
    | none =>
      refine iff_of_true (fun old _ => ?_) fun _ => Or.inl rfl
      rw [fate_of_not_given hgiven,if_neg (by rw [hcalls]; exact List.concat_ne_nil _ _)]
    | some counters =>
      rw [fate_of_given hgiven]
      cases horigin : x.origin with
      | put counters' =>
        constructor
        · intro hall _
          exact Or.inr ⟨rfl,hall (List.replicate table.numEntries ⟨0,0⟩) List.length_replicate⟩
        · intro hsettled old _
          obtain heq | ⟨-,heq⟩ := hsettled rfl
          · cases heq
          · cases heq
            rfl
      | kernel i =>
        obtain ⟨old,hlength,hne⟩ := exists_worth_ne table i counters
        refine iff_of_false (fun hall => hne (hall old hlength)) fun hsettled => ?_
        obtain heq | ⟨hput,-⟩ := hsettled rfl
        · cases heq
        · cases hput

end History

/-! ## The histories of a table -/

/-- The histories of the rules of every chain. -/
abbrev Histories := ℕ → List History

section Steps

variable (isSame : Entry → Entry → List UInt8 → Option (List UInt8))

/-- Other histories for the chain of a name. -/
def inChain (rs : Ruleset) (chain : Name) (k : Histories)
    (f : PlainChain → List History → List History) : Histories :=
  match chainNamed rs chain with
  | none => k
  | some c => Function.update k c.addr (f c (k c.addr))

/-- The histories after a call that succeeds. -/
def historyStep (rs : Ruleset) (k : Histories) : Call → Histories
  | .insertEntry chain e rulenum => inChain rs chain k fun _ xs =>
    xs.insertIdx rulenum ⟨.put e.counters,[]⟩
  | .replaceEntry chain e rulenum => inChain rs chain k fun _ xs =>
    xs.set rulenum ⟨.put e.counters,[]⟩
  | .appendEntry chain e => inChain rs chain k fun _ xs => xs++[⟨.put e.counters,[]⟩]
  | .deleteEntry chain e mask => inChain rs chain k fun c xs =>
    match resolve rs (allocRule e .nomap) with
    | none => xs
    | some r => xs.eraseIdx (c.rules.findIdx (sameRule isSame r mask))
  | .checkEntry _ _ _ => k
  | .deleteNumEntry chain rulenum => inChain rs chain k fun _ xs => xs.eraseIdx rulenum
  | .flushEntries chain => inChain rs chain k fun _ _ => []
  | .zeroEntries chain => inChain rs chain k fun _ xs => xs.map (History.add .zero)
  | .zeroCounter chain rulenum => inChain rs chain k fun _ xs =>
    xs.modify (rulenum-1) (History.add .zero)
  | .setCounter chain rulenum counters => inChain rs chain k fun _ xs =>
    xs.modify (rulenum-1) (History.add (.set counters))
  | .createChain _ wanted =>
    let addr := if wanted∈rs.map PlainChain.addr then (rs.map PlainChain.addr).sum+1 else wanted
    Function.update k addr []
  | .deleteChain _ => k
  | .renameChain _ _ => k
  | .setPolicy _ _ _ => k

/-- The histories after the calls of a program, in which a refused call changes nothing. -/
def historiesAfter : Ruleset → Histories → List Call → Histories
  | _,k,[] => k
  | rs,k,call::calls =>
    match specStep isSame rs call with
    | none => historiesAfter rs k calls
    | some rs' => historiesAfter rs' (historyStep isSame rs k call) calls

/-- The rules of a table that was read have no history yet. -/
def initialHistories (h : Handle) : Histories := fun addr =>
  match h.chains.find? fun c => c.addr=addr with
  | none => []
  | some c => c.rules.map fun r => ⟨.kernel r.index,[]⟩

/-- The ledger says of every rule what the code makes of its history. -/
def Follows (l : Ledger) (k : Histories) : Prop :=
  ∀ addr,(l addr).rules=(k addr).map History.fate

variable {isSame} {rs : Ruleset} {l : Ledger} {k : Histories}

theorem follows_inChain {chain : Name} {f : PlainChain → Account → Account}
    {g : PlainChain → List History → List History} (h : Follows l k)
    (hfg : ∀ c a xs,a.rules=xs.map History.fate → (f c a).rules=(g c xs).map History.fate) :
    Follows (onChain rs chain l f) (inChain rs chain k g) := by
  unfold onChain inChain
  cases chainNamed rs chain with
  | none => exact h
  | some c =>
    intro addr
    dsimp only
    by_cases haddr : addr=c.addr
    · subst haddr
      rw [Function.update_self,Function.update_self]
      exact hfg c _ _ (h c.addr)
    · rw [Function.update_of_ne haddr,Function.update_of_ne haddr]
      exact h addr

/-- A call on the counters of one rule. -/
theorem map_fate_modify (xs : List History) (place : ℕ) (call : CounterCall) :
    (xs.modify place (History.add call)).map History.fate=
      (xs.map History.fate).modify place call.act := by
  apply List.ext_getElem?
  intro i
  rw [List.getElem?_map,List.getElem?_modify,List.getElem?_modify,List.getElem?_map]
  cases xs[i]? with
  | none => rfl
  | some x =>
    show some (History.fate _)=some _
    split_ifs
    · exact congrArg some (x.add_fate call)
    · rfl

/-- The ledger follows every call. -/
theorem follows_step (h : Follows l k) (call : Call) :
    Follows (ledgerStep isSame rs l call) (historyStep isSame rs k call) := by
  unfold ledgerStep historyStep
  cases call with
  | insertEntry chain e rulenum =>
    refine follows_inChain h fun c a xs hrules => ?_
    dsimp only
    rw [hrules,List.map_insertIdx]
    rfl
  | replaceEntry chain e rulenum =>
    refine follows_inChain h fun c a xs hrules => ?_
    dsimp only
    rw [hrules,List.map_set]
    rfl
  | appendEntry chain e =>
    refine follows_inChain h fun c a xs hrules => ?_
    dsimp only
    rw [hrules,List.map_append]
    rfl
  | deleteEntry chain e mask =>
    refine follows_inChain h fun c a xs hrules => ?_
    cases resolve rs (allocRule e .nomap) with
    | none => exact hrules
    | some r =>
      dsimp only
      rw [hrules,List.eraseIdx_map]
  | checkEntry chain e mask => exact h
  | deleteNumEntry chain rulenum =>
    refine follows_inChain h fun c a xs hrules => ?_
    dsimp only
    rw [hrules,List.eraseIdx_map]
  | flushEntries chain => exact follows_inChain h fun _ _ _ _ => rfl
  | zeroEntries chain =>
    refine follows_inChain h fun c a xs hrules => ?_
    dsimp only
    rw [hrules,List.map_map,List.map_map]
    apply List.map_congr_left
    intro x _
    exact (x.add_fate .zero).symm
  | zeroCounter chain rulenum =>
    refine follows_inChain h fun c a xs hrules => ?_
    rw [map_fate_modify,←hrules]
    rfl
  | setCounter chain rulenum counters =>
    refine follows_inChain h fun c a xs hrules => ?_
    rw [map_fate_modify,←hrules]
    rfl
  | createChain chain wanted =>
    intro addr
    dsimp only
    generalize (if wanted∈rs.map PlainChain.addr then _ else _)=new
    by_cases haddr : addr=new
    · subst haddr
      rw [Function.update_self,Function.update_self]
      rfl
    · rw [Function.update_of_ne haddr,Function.update_of_ne haddr]
      exact h addr
  | deleteChain chain => exact h
  | renameChain oldname newname => exact h
  | setPolicy chain policy counters =>
    intro addr
    dsimp only
    cases hc : chainNamed rs chain with
    | none =>
      unfold onChain
      rw [hc]
      exact h addr
    | some c =>
      rw [onChain_some hc]
      by_cases haddr : addr=c.addr
      · subst haddr
        rw [Function.update_self]
        exact h c.addr
      · rw [Function.update_of_ne haddr]
        exact h addr

/-- The ledger follows every run. -/
theorem follows_after (h : Follows l k) (calls : List Call) :
    Follows (ledgerAfter isSame rs l calls) (historiesAfter isSame rs k calls) := by
  induction calls generalizing rs l k with
  | nil => exact h
  | cons call calls ih =>
    rw [ledgerAfter,historiesAfter]
    cases specStep isSame rs call with
    | none => exact ih h
    | some rs' => exact ih (follows_step h call)

theorem follows_initial (h : Handle) : Follows (initialLedger h) (initialHistories h) := by
  intro addr
  unfold initialLedger initialHistories
  cases h.chains.find? fun c => c.addr=addr with
  | none => rfl
  | some c =>
    dsimp only
    rw [List.map_map]
    rfl

end Steps

/-! ## The mark of the table -/

section Marks

variable {isSame : Entry → Entry → List UInt8 → Option (List UInt8)} {h after : Handle}

/-- The table is marked if the call succeeds. -/
def Marks (result : Option (Handle×Bool)) : Prop :=
  ∀ after,result=some (after,true) → after.changed=true

theorem marks_none : Marks none := fun _ heq => by cases heq

theorem marks_refused : Marks (some (h,false)) := fun _ heq => by cases heq

theorem marks_setChanged : Marks (some (setChanged h,true)) := fun _ heq => by
  cases heq
  rfl

theorem marks_bind {α : Type} {x : Option α} {f : α → Option (Handle×Bool)}
    (hf : ∀ a,Marks (f a)) : Marks (x.bind f) := by
  cases x with
  | none => exact marks_none
  | some a => exact hf a

theorem marks_ite {p : Prop} [Decidable p] {x y : Option (Handle×Bool)} (hx : Marks x)
    (hy : Marks y) : Marks (if p then x else y) := by
  split_ifs
  · exact hx
  · exact hy

/-- Every call that does not only check marks the table. -/
theorem marks_step {call : Call} (hcheck : isCheck call=false) : Marks (step isSame h call) := by
  cases call with
  | insertEntry chain e rulenum =>
    unfold step insertEntry
    dsimp only
    split
    · exact marks_refused
    refine marks_ite marks_refused (marks_bind fun place => ?_)
    split
    · exact marks_refused
    exact marks_setChanged
  | replaceEntry chain e rulenum =>
    unfold step replaceEntry
    dsimp only
    split
    · exact marks_refused
    refine marks_ite marks_refused (marks_bind fun place => marks_bind fun old => ?_)
    split
    · exact marks_refused
    exact marks_setChanged
  | appendEntry chain e =>
    unfold step appendEntry
    dsimp only
    split
    · exact marks_refused
    split
    · exact marks_refused
    exact marks_setChanged
  | deleteEntry chain e mask =>
    unfold step deleteEntry
    dsimp only
    split
    · exact marks_refused
    split
    · exact marks_refused
    split
    · exact marks_refused
    exact marks_bind fun i => marks_setChanged
  | checkEntry chain e mask => cases hcheck
  | deleteNumEntry chain rulenum =>
    unfold step deleteNumEntry
    dsimp only
    split
    · exact marks_refused
    exact marks_ite marks_refused (marks_bind fun place => marks_bind fun r => marks_setChanged)
  | flushEntries chain =>
    unfold step flushEntries
    dsimp only
    split
    · exact marks_refused
    exact marks_setChanged
  | zeroEntries chain =>
    unfold step zeroEntries
    dsimp only
    split
    · exact marks_refused
    exact marks_setChanged
  | zeroCounter chain rulenum =>
    unfold step zeroCounter
    dsimp only
    split
    · exact marks_refused
    split
    · exact marks_refused
    exact marks_setChanged
  | setCounter chain rulenum counters =>
    unfold step setCounter
    dsimp only
    split
    · exact marks_refused
    split
    · exact marks_refused
    exact marks_setChanged
  | createChain chain wanted =>
    exact marks_ite marks_refused (marks_ite marks_refused marks_setChanged)
  | deleteChain chain =>
    unfold step deleteChain
    dsimp only
    split
    · exact marks_refused
    exact marks_ite marks_refused (marks_ite marks_refused
      (marks_ite marks_refused marks_setChanged))
  | renameChain oldname newname =>
    unfold step renameChain
    dsimp only
    refine marks_ite marks_refused ?_
    split
    · exact marks_refused
    exact marks_ite marks_refused (marks_ite marks_refused marks_setChanged)
  | setPolicy chain policy counters =>
    unfold step setPolicy
    dsimp only
    split
    · exact marks_refused
    refine marks_ite marks_refused ?_
    split
    · exact marks_refused
    exact marks_setChanged

/-- As long as the table is not marked, no rule has a history. -/
theorem historiesAfter_unmarked {k : Histories} (hi : Intact h) (calls : List Call)
    (hrun : runCalls isSame h calls=some after) (hmark : after.changed=false) :
    h.changed=false ∧ historiesAfter isSame (ruleset h) k calls=k := by
  induction calls generalizing h with
  | nil =>
    cases hrun
    exact ⟨hmark,rfl⟩
  | cons call calls ih =>
    obtain ⟨next,ok,hstep,hnext,hspec,hsame⟩ := @step_outcome isSame h hi call
    rw [runCalls,hstep,Option.bind_some] at hrun
    obtain ⟨hunmarked,hlater⟩ := ih hnext hrun
    have hquiet : ok=false ∨ isCheck call=true := by
      cases ok with
      | false => exact Or.inl rfl
      | true =>
        refine Or.inr ?_
        by_contra hcheck
        have hdone := marks_step ((Bool.not_eq_true _).mp hcheck) next hstep
        rw [hunmarked] at hdone
        cases hdone
    have heq : next=h := by
      by_cases hprobe : ProbesModule isSame h call
      · rw [(hsame hquiet).1 hprobe] at hunmarked
        cases hunmarked
      · exact (hsame hquiet).2 hprobe
    rw [heq] at hunmarked hlater hspec
    refine ⟨hunmarked,?_⟩
    rw [historiesAfter,hspec]
    rcases hquiet with rfl | hcheck
    · exact hlater
    · cases ok with
      | false => exact hlater
      | true =>
        cases call with
        | checkEntry chain e mask => exact hlater
        | _ => cases hcheck

end Marks

/-! ## What a commit sends -/

section Sent

variable {isSame : Entry → Entry → List UInt8 → Option (List UInt8)} {table : KernelTable}

/-- The ledger in which the last call on every rule wins. -/
def dueLedger (l : Ledger) (k : Histories) : Ledger := fun addr =>
  {l addr with rules := (k addr).map History.due}

theorem flatMap_eq_iff {α β : Type} {f g : α → List β} {xs : List α}
    (hlength : ∀ x∈xs,(f x).length=(g x).length) :
    xs.flatMap f=xs.flatMap g ↔ ∀ x∈xs,f x=g x := by
  refine ⟨fun heq => ?_,List.flatMap_congr⟩
  induction xs with
  | nil => exact fun x hx => absurd hx List.not_mem_nil
  | cons x xs ih =>
    obtain ⟨hx,hxs⟩ := List.forall_mem_cons.mp hlength
    rw [List.flatMap_cons,List.flatMap_cons] at heq
    obtain ⟨hhead,htail⟩ := List.append_inj heq hx
    exact List.forall_mem_cons.mpr ⟨hhead,ih hxs htail⟩

theorem zipWith_map_eq_iff {α β γ δ : Type} {f : α → β} {v : γ → δ} {g g' : History → γ}
    {rules : List α} {xs : List History} (hlength : rules.length=xs.length) :
    List.zipWith (fun r y => (f r,v y)) rules (xs.map g)=
        List.zipWith (fun r y => (f r,v y)) rules (xs.map g') ↔ ∀ x∈xs,v (g x)=v (g' x) := by
  induction xs generalizing rules with
  | nil => exact iff_of_true (by rw [List.map_nil,List.map_nil]) fun x hx => absurd hx List.not_mem_nil
  | cons x xs ih =>
    cases rules with
    | nil => cases hlength
    | cons r rules =>
      rw [List.map_cons,List.map_cons,List.zipWith_cons_cons,List.zipWith_cons_cons,List.cons.injEq,
        Prod.mk.injEq,List.forall_mem_cons,ih (Nat.succ.inj hlength)]
      exact and_congr_left' (and_iff_right rfl)

variable {old : List Counters} {l : Ledger} {k : Histories}

/-- The rows of a chain are due if the values of its rules are. -/
theorem chainRows_dueLedger_iff {all : List Chain} {c : Chain} (hs : Sound table l (plain c))
    (hk : Follows l k) :
    chainRows table old l all c=chainRows table old (dueLedger l k) all c ↔
      ∀ x∈k c.addr,worth table old x.fate=worth table old x.due := by
  have hlength : c.rules.length=(k c.addr).length := by
    have hrules : (l c.addr).rules=c.rules.map ruleFate := congrArg Account.rules hs.account
    have heq := congrArg List.length (hrules.symm.trans (hk c.addr))
    rwa [List.length_map,List.length_map] at heq
  unfold chainRows dueLedger
  rw [hk c.addr,List.append_left_inj,List.append_right_inj,zipWith_map_eq_iff hlength]

theorem length_chainRows_dueLedger {all : List Chain} {c : Chain} (hk : Follows l k) :
    (chainRows table old l all c).length=(chainRows table old (dueLedger l k) all c).length := by
  unfold chainRows dueLedger
  rw [hk c.addr]
  simp only [List.length_append,List.length_map,List.length_zipWith]

/-- Where the counters follow the ledger, the last call on every rule wins exactly if every history
is worth what is due. -/
theorem countersFollow_dueLedger_iff {h : Handle} {repl : Replacement} {new : Newcounters}
    (hs : ∀ c∈ruleset h,Sound table l c) (hk : Follows l k)
    (hfollow : CountersFollow table old l h repl new) :
    CountersFollow table old (dueLedger l k) h repl new ↔
      ∀ c∈h.chains,∀ x∈k c.addr,worth table old x.fate=worth table old x.due := by
  have hsound : ∀ c∈(compileTablePrep h.chains).1,Sound table l (plain c) := by
    intro c' hc'
    obtain ⟨c,hc,o,n,rfl⟩ := exists_of_mem_compileChainsOffsets hc'
    exact sound_compileChainOffsets (hs _ (List.mem_map_of_mem hc)) o n
  have haddrs : (compileTablePrep h.chains).1.map Chain.addr=h.chains.map Chain.addr :=
    map_compileChainsOffsets (fun _ _ _ => rfl) h.chains 0 0
  have hiff : (compileTablePrep h.chains).1.flatMap
        (chainRows table old l (compileTablePrep h.chains).1)=
      (compileTablePrep h.chains).1.flatMap
        (chainRows table old (dueLedger l k) (compileTablePrep h.chains).1) ↔
      ∀ c∈h.chains,∀ x∈k c.addr,worth table old x.fate=worth table old x.due := by
    rw [flatMap_eq_iff fun c _ => length_chainRows_dueLedger hk]
    have hmap := @List.forall_mem_map _ _ Chain.addr h.chains
      fun addr => ∀ x∈k addr,worth table old x.fate=worth table old x.due
    rw [← hmap,← haddrs,List.forall_mem_map]
    exact forall₂_congr fun c hc => chainRows_dueLedger_iff (hsound c hc) hk
  rw [← hiff]
  constructor
  · intro hdue
    exact List.append_cancel_right (hfollow.rows.symm.trans hdue.rows)
  · intro hrows
    exact ⟨hfollow.block,hfollow.numEntries,hfollow.cells,hfollow.once,hfollow.inside,
      by rw [hfollow.rows,hrows],hfollow.mappos⟩

variable (isSame table) in
/-- The last call on the counters of every rule wins: after the calls, whatever the kernel has
counted since the table was read, the counters that a commit sends are what the histories of the
rules come to. -/
def LastCallWins (h : Handle) (calls : List Call) : Prop :=
  ∀ replace : Replacement → Option (List Counters),
    (∀ repl old,replace repl=some old → old.length=table.numEntries) →
    ∀ after repl new,runCalls isSame h calls=some after →
      tcCommit replace after=some (.built repl new) →
      ∃ old,replace repl=some old ∧
        CountersFollow table old
          (dueLedger (ledgerAfter isSame (ruleset h) (initialLedger h) calls)
            (historiesAfter isSame (ruleset h) (initialHistories h) calls)) after repl new

/-- The last call wins in a run exactly if the histories of the rules that are left are settled. -/
theorem settled_of_run {wanted : ℕ → ℕ} {h after : Handle} (hinit : tcInit table wanted=some h)
    {calls : List Call} (hrun : runCalls isSame h calls=some after) :
    LastCallWins isSame table h calls ↔
      ∀ c∈after.chains,
        ∀ x∈historiesAfter isSame (ruleset h) (initialHistories h) calls c.addr,x.Settled := by
  have hi := tcInit_intact hinit
  obtain ⟨after',hrun',hafter,hs⟩ := @ledgerAfter_sound isSame table h (initialLedger h) hi
    (initialLedger_sound hinit) calls
  rw [hrun] at hrun'
  cases hrun'
  have hk := @follows_after isSame (ruleset h) _ _ (follows_initial h) calls
  constructor
  · intro hwins c hc x hx
    cases hmark : after.changed with
    | false =>
      -- Nothing was called on any rule.
      rw [(historiesAfter_unmarked hi calls hrun hmark).2] at hx
      have hnil : x.calls=[] := by
        unfold initialHistories at hx
        split at hx
        · cases hx
        · obtain ⟨r,-,rfl⟩ := List.mem_map.mp hx
          rfl
      intro hlast
      rw [hnil] at hlast
      cases hlast
    | true =>
      refine (x.worth_fate_iff table).mp fun old hlength => ?_
      have hreplace : ∀ (repl : Replacement) old',some old=some old' →
          old'.length=table.numEntries := fun _ _ heq => Option.some.inj heq ▸ hlength
      obtain ⟨result,hcommit,hbuilt,hexists⟩ :=
        @tcCommit_follows table _ after hafter hs (fun _ => some old) hreplace
      obtain ⟨repl,new,rfl⟩ := hexists hmark fun _ => rfl
      obtain ⟨old',heq,hfollow⟩ := hbuilt repl new rfl
      obtain ⟨old'',heq',hdue⟩ := hwins (fun _ => some old) hreplace after repl new hrun hcommit
      cases heq
      cases heq'
      exact (countersFollow_dueLedger_iff hs hk hfollow).mp hdue c hc x hx
  · intro hsettled replace hreplace after' repl new hrun' hcommit
    rw [hrun] at hrun'
    cases hrun'
    obtain ⟨result,hcommit',hbuilt,-⟩ := tcCommit_follows hafter hs hreplace
    rw [hcommit] at hcommit'
    cases hcommit'
    obtain ⟨old,hold,hfollow⟩ := hbuilt repl new rfl
    refine ⟨old,hold,(countersFollow_dueLedger_iff hs hk hfollow).mpr fun c hc x hx => ?_⟩
    exact (x.worth_fate_iff table).mpr (hsettled c hc x hx) old (hreplace repl old hold)

/-- Every run ends, and the last call wins exactly if the histories of the rules that are left are
settled. -/
theorem lastCallWins_iff {wanted : ℕ → ℕ} {h : Handle} (hinit : tcInit table wanted=some h)
    (calls : List Call) :
    ∃ after,runCalls isSame h calls=some after ∧
      (LastCallWins isSame table h calls ↔
        ∀ c∈after.chains,
          ∀ x∈historiesAfter isSame (ruleset h) (initialHistories h) calls c.addr,x.Settled) := by
  obtain ⟨after,hrun,-⟩ := @runCalls_intact isSame h (tcInit_intact hinit) calls
  exact ⟨after,hrun,settled_of_run hinit hrun⟩

end Sent

/-- The rule of the small table is zeroed, then set. -/
theorem lastCallWins_iff_setLast :
    ∃ h,tcInit smallTable id=some h ∧
      ∃ after,runCalls sameBody h [.zeroEntries [73,78,80,85,84],
          .setCounter [73,78,80,85,84] 1 ⟨3,30⟩]=some after ∧
        (LastCallWins sameBody smallTable h [.zeroEntries [73,78,80,85,84],
            .setCounter [73,78,80,85,84] 1 ⟨3,30⟩] ↔
          ∀ c∈after.chains,∀ x∈historiesAfter sameBody (ruleset h) (initialHistories h)
            [.zeroEntries [73,78,80,85,84],.setCounter [73,78,80,85,84] 1 ⟨3,30⟩] c.addr,x.Settled) :=
  ⟨_,rfl,@lastCallWins_iff sameBody smallTable id _ rfl _⟩

/-- A rule of the kernel that was set is not zeroed, nor is one that was appended with counters. -/
theorem not_lastCallWins :
    ∃ h,tcInit smallTable id=some h ∧
      ¬LastCallWins sameBody smallTable h [.setCounter [73,78,80,85,84] 1 ⟨3,30⟩,
        .zeroCounter [73,78,80,85,84] 1] ∧
      ¬LastCallWins sameBody smallTable h [.appendEntry [73,78,80,85,84]
        {logEntry with counters := ⟨3,30⟩},.zeroEntries [73,78,80,85,84]] := by
  refine ⟨_,rfl,?_,?_⟩
  · rw [@settled_of_run sameBody smallTable id _ _ rfl _ rfl]
    decide
  · rw [@settled_of_run sameBody smallTable id _ _ rfl _ rfl]
    decide

end AndroidPlatform.LibiptcCounters
