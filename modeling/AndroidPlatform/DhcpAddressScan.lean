import AndroidPlatform.CyclicScan
import AndroidPlatform.DhcpServer
import Mathlib.Algebra.Group.Nat.Defs
import Mathlib.Logic.Equiv.Defs

/-!
# The search for a free address

`address_allocate` goes through the range of every context that matches, from an address
that belongs to the client, and round at the end of the range. Addresses in packets and
structures are in network order. An address is tried by a ping unless that is switched off.
-/

namespace AndroidPlatform.DhcpAddressScan

open DhcpLeases DhcpServer CyclicScan

/-! ## The loop -/

/-- `struct ping_result` -/
structure PingResult where
  /-- `addr`, in network order. -/
  addr : UInt32
  /-- `time` -/
  time : ℤ

/-- `PING_CACHE_TIME` -/
def pingCacheTime : ℤ := 30

/-- `max`, the part 0.6 of `PING_CACHE_TIME/PING_WAIT`. -/
def maxPings : ℕ := 6

/-- `ML_IFACE` -/
def mlIface : Tag := [110,99,109,48]

/-- What `address_allocate` knows beside its arguments. -/
structure Env where
  /-- `htonl`, with `ntohl` as its inverse. -/
  htonl : UInt32 ≃ UInt32
  /-- `OPT_NO_PING` -/
  noPing : Bool
  /-- `dhcp_conf` -/
  configs : List HostConfig
  /-- The leases. -/
  db : Db
  /-- `now` -/
  now : ℤ
  /-- `icmp_ping`, by the number of pings before it. -/
  icmpPing : ℕ → UInt32 → Bool
  /-- Whether `whine_malloc` succeeds. -/
  malloc : Bool

/-- What changes: `ping_results`, and the number of pings so far. -/
structure Pings where
  /-- `ping_results` -/
  results : List PingResult
  /-- The number of pings. -/
  count : ℕ

/-- The loop over `ping_results`: whether the address is taken without a ping, and the last
result that is too old. -/
def recentLoop (now : ℤ) (addr : UInt32) : List PingResult → ℕ → ℕ → Option ℕ → Bool×Option ℕ
  | [],_,_,victim => (false,victim)
  | r::rest,i,count,victim =>
    if now-r.time>pingCacheTime then recentLoop now addr rest (i+1) count (some i)
    else if count+1=maxPings ∨ r.addr=addr then (true,victim)
    else recentLoop now addr rest (i+1) (count+1) victim

/-- The results with the address in place of a victim, or before the others. -/
def recordPing (env : Env) (addr : UInt32) (results : List PingResult) :
    Option ℕ → List PingResult
  | some victim => results.set victim ⟨addr,env.now⟩
  | none => if env.malloc then ⟨addr,env.now⟩::results else results

/-- The body of the loop over the addresses: whether the address is taken, and `addr_epoch` and
the pings after it. -/
def tryAddress (env : Env) (contexts : List Context) (netids : List Tag) (addr : UInt32)
    (s : UInt32×Pings) : Bool×UInt32×Pings :=
  if isFree env.configs env.db contexts (env.htonl.symm addr)=true then
    if env.noPing=true then (true,s)
    else if matchNetid [mlIface] netids true=true then (true,s)
    else
      match recentLoop env.now addr s.2.results 0 0 none with
      | (true,_) => (true,s)
      | (false,victim) =>
        if env.icmpPing s.2.count addr=true then (false,s.1+1,⟨s.2.results,s.2.count+1⟩)
        else (true,s.1,⟨recordPing env addr s.2.results victim,s.2.count+1⟩)
  else (false,s)

/-- The address that is tried first in a context. -/
def firstAddress (env : Env) (c : Context) (j : UInt32) : UInt32 :=
  env.htonl (c.start+(j+c.addrEpoch)%(1+c.endAddr-c.start))

/-- The address that is tried after another one. -/
def nextAddress (env : Env) (c : Context) (addr : UInt32) : UInt32 :=
  let addr := env.htonl (env.htonl.symm addr+1)
  if addr=env.htonl (c.endAddr+1) then env.htonl c.start else addr

/-- One pass of `address_allocate` over the contexts from one of the chain on. -/
def scanPass (env : Env) (steps : ℕ) (contexts : List Context) (netids : List Tag) (pass : Bool)
    (j : UInt32) : List Context → Pings → Option (Option UInt32×List Context×Pings)
  | [],pings => some (none,[],pings)
  | c::rest,pings =>
    if c.isStatic=true ∨ matchNetid c.filter netids pass=false then
      (scanPass env steps contexts netids pass j rest pings).map fun later =>
        (later.1,c::later.2.1,later.2.2)
    else
      match scan (nextAddress env c) (tryAddress env contexts netids) (firstAddress env c j) steps
        (firstAddress env c j) (c.addrEpoch,pings) with
      | none => none
      | some (some addr,epoch,pings) => some (some addr,{c with addrEpoch := epoch}::rest,pings)
      | some (none,epoch,pings) =>
        (scanPass env steps contexts netids pass j rest pings).map fun later =>
          (later.1,{c with addrEpoch := epoch}::later.2.1,later.2.2)

/-- `address_allocate`, with at most so many addresses for a context: the address in network
order where it returns one. -/
def allocate (env : Env) (steps : ℕ) (contexts : List Context) (hwaddr : List UInt8)
    (netids : List Tag) (pings : Pings) : Option (Option UInt32×List Context×Pings) :=
  match scanPass env steps contexts netids false (hashHwaddr hwaddr) contexts pings with
  | none => none
  | some (some addr,contexts,pings) => some (some addr,contexts,pings)
  | some (none,contexts,pings) =>
    scanPass env steps contexts netids true (hashHwaddr hwaddr) contexts pings

/-! ## The range of a context -/

/-- The range of a context is not empty, and not the whole space of addresses. -/
structure Ranged (c : Context) : Prop where
  le : c.start≤c.endAddr
  proper : ¬(c.start=0 ∧ c.endAddr=0xffffffff)

/-- The number of addresses of a context. -/
def rangeSize (c : Context) : ℕ := c.endAddr.toNat-c.start.toNat+1

/-- The address at a place of the range, in network order. -/
def addressAt (env : Env) (c : Context) (k : ℕ) : UInt32 :=
  env.htonl (c.start+UInt32.ofNat k)

variable {env : Env} {c : Context} {j : UInt32}

theorem Ranged.size_lt (h : Ranged c) : rangeSize c<2^32 := by
  have hle : c.start.toNat≤c.endAddr.toNat := UInt32.le_iff_toNat_le.mp h.le
  have hend : c.endAddr.toNat<2^32 := c.endAddr.toNat_lt
  have hproper : ¬(c.start.toNat=0 ∧ c.endAddr.toNat=2^32-1) := fun hall =>
    h.proper ⟨UInt32.toNat_inj.mp hall.1,UInt32.toNat_inj.mp hall.2⟩
  rw [rangeSize]
  omega

theorem toNat_place {k : ℕ} (hk : k<2^32) : (UInt32.ofNat k).toNat=k := by
  rw [UInt32.toNat_ofNat']
  omega

/-- A place of the range is an address of it. -/
theorem Ranged.toNat_add (h : Ranged c) {k : ℕ} (hk : k<rangeSize c) :
    (c.start+UInt32.ofNat k).toNat=c.start.toNat+k := by
  have hsize := h.size_lt
  have hle : c.start.toNat≤c.endAddr.toNat := UInt32.le_iff_toNat_le.mp h.le
  have hend : c.endAddr.toNat<2^32 := c.endAddr.toNat_lt
  rw [UInt32.toNat_add,toNat_place (by omega)]
  rw [rangeSize] at hk hsize
  omega

/-- The scan begins at a place of the range. -/
theorem Ranged.firstAddress (h : Ranged c) :
    ∃ k < rangeSize c, firstAddress env c j=addressAt env c k := by
  have hsize := h.size_lt
  have hle : c.start.toNat≤c.endAddr.toNat := UInt32.le_iff_toNat_le.mp h.le
  have hend : c.endAddr.toNat<2^32 := c.endAddr.toNat_lt
  have hcount : (1+c.endAddr-c.start).toNat=rangeSize c := by
    rw [UInt32.toNat_sub,UInt32.toNat_add]
    have hone : (1 : UInt32).toNat=1 := rfl
    rw [rangeSize] at hsize ⊢
    omega
  refine ⟨(j+c.addrEpoch).toNat%rangeSize c,Nat.mod_lt _ (Nat.succ_pos _),?_⟩
  rw [DhcpAddressScan.firstAddress,addressAt]
  refine congrArg _ (congrArg _ (UInt32.toNat_inj.mp ?_))
  have hlt := Nat.mod_lt (j+c.addrEpoch).toNat (show 0 < rangeSize c from Nat.succ_pos _)
  rw [UInt32.toNat_mod,hcount,toNat_place (by omega)]

/-- The next address is at the next place, and at the first one after the last. -/
theorem Ranged.nextAddress (h : Ranged c) {k : ℕ} (hk : k<rangeSize c) :
    nextAddress env c (addressAt env c k)=addressAt env c ((k+1)%rangeSize c) := by
  have hsize := h.size_lt
  have hle : c.start.toNat≤c.endAddr.toNat := UInt32.le_iff_toNat_le.mp h.le
  have hend : c.endAddr.toNat<2^32 := c.endAddr.toNat_lt
  have hone : (1 : UInt32).toNat=1 := rfl
  have hplace := h.toNat_add hk
  rw [DhcpAddressScan.nextAddress,addressAt,Equiv.symm_apply_apply]
  rw [rangeSize] at hk hsize
  by_cases hlast : k+1=rangeSize c
  · have heq : c.start+UInt32.ofNat k+1=c.endAddr+1 := by
      refine congrArg (·+1) (UInt32.toNat_inj.mp ?_)
      rw [hplace]
      rw [rangeSize] at hlast
      omega
    rw [if_pos (congrArg _ heq),hlast,Nat.mod_self,addressAt]
    exact congrArg _ (UInt32.add_zero _).symm
  · have hne : c.start+UInt32.ofNat k+1≠c.endAddr+1 := by
      intro heq
      have hsame : c.start+UInt32.ofNat k=c.endAddr := (UInt32.add_left_inj 1).mp heq
      have := congrArg UInt32.toNat hsame
      rw [hplace] at this
      rw [rangeSize] at hlast
      omega
    rw [if_neg fun heq => hne (env.htonl.injective heq),Nat.mod_eq_of_lt (by
      rw [rangeSize] at hlast ⊢; omega),addressAt]
    refine congrArg _ ?_
    rw [UInt32.add_assoc]
    refine congrArg _ (UInt32.toNat_inj.mp ?_)
    rw [UInt32.toNat_add,toNat_place (by omega),toNat_place (by omega),hone]
    omega

theorem Ranged.addressAt_inj (h : Ranged c) {k l : ℕ} (hk : k<rangeSize c) (hl : l<rangeSize c)
    (heq : addressAt env c k=addressAt env c l) : k=l := by
  have hsame : c.start+UInt32.ofNat k=c.start+UInt32.ofNat l := env.htonl.injective heq
  have := congrArg UInt32.toNat hsame
  rw [h.toNat_add hk,h.toNat_add hl] at this
  omega

/-- The addresses after a number of steps from a place. -/
theorem Ranged.iterate (h : Ranged c) {k : ℕ} (hk : k<rangeSize c) (i : ℕ) :
    (DhcpAddressScan.nextAddress env c)^[i] (addressAt env c k)=
      addressAt env c ((k+i)%rangeSize c) := by
  induction i with
  | zero => rw [Nat.add_zero,Nat.mod_eq_of_lt hk]; rfl
  | succ i ih =>
    rw [Function.iterate_succ_apply',ih,h.nextAddress (Nat.mod_lt _ (Nat.succ_pos _)),
      Nat.mod_add_mod,Nat.add_assoc]

/-- The addresses of a context are a cycle. -/
theorem Ranged.returns (h : Ranged c) {k : ℕ} (hk : k<rangeSize c) :
    Returns (DhcpAddressScan.nextAddress env c) (addressAt env c k) (rangeSize c) where
  pos := Nat.succ_pos _
  back := by rw [h.iterate hk,Nat.add_mod_right,Nat.mod_eq_of_lt hk]
  early i hpos hi := by
    rw [h.iterate hk]
    intro heq
    have hplace := h.addressAt_inj (Nat.mod_lt _ (Nat.succ_pos _)) hk heq
    by_cases hwrap : k+i < rangeSize c
    · rw [Nat.mod_eq_of_lt hwrap] at hplace
      omega
    · rw [Nat.mod_eq_sub_mod (by omega),Nat.mod_eq_of_lt (by omega)] at hplace
      omega

/-- Every address of the range comes in the cycle. -/
theorem Ranged.exists_iterate (h : Ranged c) {k : ℕ} (hk : k<rangeSize c) {addr : UInt32}
    (hstart : c.start≤addr) (hend : addr≤c.endAddr) :
    ∃ i < rangeSize c, (DhcpAddressScan.nextAddress env c)^[i] (addressAt env c k)=
      env.htonl addr := by
  have hsize := h.size_lt
  have hstart' : c.start.toNat≤addr.toNat := UInt32.le_iff_toNat_le.mp hstart
  have hend' : addr.toNat≤c.endAddr.toNat := UInt32.le_iff_toNat_le.mp hend
  have hplace : addr.toNat-c.start.toNat<rangeSize c := by
    rw [rangeSize]
    omega
  have haddr : env.htonl addr=addressAt env c (addr.toNat-c.start.toNat) := by
    rw [addressAt]
    refine congrArg _ (UInt32.toNat_inj.mp ?_)
    rw [h.toNat_add hplace]
    omega
  by_cases hbefore : k≤addr.toNat-c.start.toNat
  · refine ⟨addr.toNat-c.start.toNat-k,by omega,?_⟩
    rw [h.iterate hk,haddr,show k+(addr.toNat-c.start.toNat-k)=addr.toNat-c.start.toNat by omega,
      Nat.mod_eq_of_lt hplace]
  · refine ⟨addr.toNat-c.start.toNat+rangeSize c-k,by omega,?_⟩
    rw [h.iterate hk,haddr,show k+(addr.toNat-c.start.toNat+rangeSize c-k)=
      addr.toNat-c.start.toNat+rangeSize c by omega,Nat.add_mod_right,Nat.mod_eq_of_lt hplace]

/-- An address of the cycle is in the range. -/
theorem Ranged.iterate_inRange (h : Ranged c) {k : ℕ} (hk : k<rangeSize c) (i : ℕ) :
    c.start≤env.htonl.symm ((DhcpAddressScan.nextAddress env c)^[i] (addressAt env c k)) ∧
      env.htonl.symm ((DhcpAddressScan.nextAddress env c)^[i] (addressAt env c k))≤c.endAddr := by
  have hplace := Nat.mod_lt (k+i) (show 0 < rangeSize c from Nat.succ_pos _)
  have hle : c.start.toNat≤c.endAddr.toNat := UInt32.le_iff_toNat_le.mp h.le
  rw [h.iterate hk,addressAt,Equiv.symm_apply_apply,UInt32.le_iff_toNat_le,UInt32.le_iff_toNat_le,
    h.toNat_add hplace]
  rw [rangeSize] at hplace ⊢
  omega

/-! ## What is found -/

variable {contexts : List Context} {netids : List Tag}

/-- The scan of a context ends after as many attempts as it has addresses. -/
theorem Ranged.scan_ends (h : Ranged c) {steps : ℕ} (hsteps : 2^32 ≤ steps)
    (s : UInt32×Pings) :
    ∃ result, scan (DhcpAddressScan.nextAddress env c) (tryAddress env contexts netids)
        (DhcpAddressScan.firstAddress env c j) steps (DhcpAddressScan.firstAddress env c j) s=
          some result ∧
      ∀ addr, result.1=some addr →
        c.start≤env.htonl.symm addr ∧ env.htonl.symm addr≤c.endAddr ∧
          isFree env.configs env.db contexts (env.htonl.symm addr)=true := by
  obtain ⟨k,hk,hfirst⟩ := @Ranged.firstAddress env c j h
  have hsize := h.size_lt
  rw [hfirst]
  obtain ⟨result,hscan,hends⟩ := @CyclicScan.scan_ends _ _ _ _ (tryAddress env contexts netids) _ _
    _ (h.returns hk) (show rangeSize c ≤ steps by omega) s
  refine ⟨result,hscan,fun addr hfound => ?_⟩
  cases hends with
  | none => cases hfound
  | @found i s s' hi hattempt =>
    cases hfound
    refine ⟨(h.iterate_inRange hk i).1,(h.iterate_inRange hk i).2,?_⟩
    by_contra hfree
    rw [tryAddress,if_neg hfree] at hattempt
    cases hattempt

/-- Without pings a scan that finds nothing has seen that no address of the range is free. -/
theorem Ranged.scan_none (h : Ranged c) (hping : env.noPing=true) {steps : ℕ}
    (hsteps : 2^32 ≤ steps) {s s' : UInt32×Pings}
    (hscan : scan (DhcpAddressScan.nextAddress env c) (tryAddress env contexts netids)
      (DhcpAddressScan.firstAddress env c j) steps (DhcpAddressScan.firstAddress env c j) s=
        some (none,s')) {addr : UInt32} (hstart : c.start≤addr) (hend : addr≤c.endAddr) :
    isFree env.configs env.db contexts addr=false := by
  obtain ⟨k,hk,hfirst⟩ := @Ranged.firstAddress env c j h
  have hsize := h.size_lt
  rw [hfirst] at hscan
  obtain ⟨result,hresult,hends⟩ := @CyclicScan.scan_ends _ _ _ _ (tryAddress env contexts netids) _ _
    _ (h.returns hk) (show rangeSize c ≤ steps by omega) s
  cases hscan.symm.trans hresult
  cases hends with
  | none hall =>
    obtain ⟨i,hi,haddr⟩ := @Ranged.exists_iterate env c h k hk addr hstart hend
    obtain ⟨t,hfailed⟩ := hall i hi
    rw [haddr,tryAddress,Equiv.symm_apply_apply,if_pos hping] at hfailed
    split at hfailed
    · cases hfailed
    · exact Bool.eq_false_iff.mpr (by assumption)

/-- The address may be handed out from a context of the chain. -/
def Eligible (env : Env) (contexts : List Context) (netids : List Tag) (pass : Bool)
    (addr : UInt32) : Prop :=
  ∃ c∈contexts, c.isStatic=false ∧ matchNetid c.filter netids pass=true ∧ c.start≤addr ∧
    addr≤c.endAddr ∧ isFree env.configs env.db contexts addr=true

/-- A context without its epoch. -/
def eraseEpoch (c : Context) : Context := {c with addrEpoch := 0}

theorem isFree_congr {contexts' : List Context}
    (h : contexts'.map eraseEpoch=contexts.map eraseEpoch) (addr : UInt32) :
    isFree env.configs env.db contexts' addr=isFree env.configs env.db contexts addr := by
  have hrouters : contexts'.all (fun d => decide (addr≠d.router))=
      contexts.all fun d => decide (addr≠d.router) := by
    have hall : ∀ l : List Context, l.all (fun d => decide (addr≠d.router))=
        (l.map eraseEpoch).all fun d => decide (addr≠d.router) := by
      intro l
      rw [List.all_map]
      rfl
    rw [hall,h,← hall]
  rw [isFree,hrouters,isFree]

/-- The epochs do not matter. -/
theorem eligible_congr {contexts' : List Context} {pass : Bool} {addr : UInt32}
    (h : contexts'.map eraseEpoch=contexts.map eraseEpoch) :
    Eligible env contexts' netids pass addr → Eligible env contexts netids pass addr := by
  rintro ⟨c',hc',hstatic,hmatch,hstart,hend,hfree⟩
  have hmem : eraseEpoch c'∈contexts.map eraseEpoch := h ▸ List.mem_map_of_mem hc'
  obtain ⟨c,hc,heq⟩ := List.mem_map.mp hmem
  have hsame : ∀ {α : Type} (field : Context → α), (∀ c, field (eraseEpoch c)=field c) →
      field c=field c' := fun field hfield => by rw [← hfield c,heq,hfield]
  refine ⟨c,hc,?_,?_,?_,?_,?_⟩
  · rw [hsame Context.isStatic fun _ => rfl]
    exact hstatic
  · rw [hsame Context.filter fun _ => rfl]
    exact hmatch
  · rw [hsame Context.start fun _ => rfl]
    exact hstart
  · rw [hsame Context.endAddr fun _ => rfl]
    exact hend
  · rw [← isFree_congr h]
    exact hfree

/-- What a pass does with the contexts from one of the chain on. -/
structure Passed (env : Env) (contexts rest : List Context) (netids : List Tag) (pass : Bool)
    (result : Option UInt32×List Context×Pings) : Prop where
  epochs : result.2.1.map eraseEpoch=rest.map eraseEpoch
  found : ∀ {addr}, result.1=some addr → ∃ c∈rest, c.isStatic=false ∧
    matchNetid c.filter netids pass=true ∧ c.start≤env.htonl.symm addr ∧
    env.htonl.symm addr≤c.endAddr ∧
    isFree env.configs env.db contexts (env.htonl.symm addr)=true
  none : env.noPing=true → result.1=none → ∀ c∈rest, c.isStatic=false →
    matchNetid c.filter netids pass=true → ∀ {addr}, c.start≤addr → addr≤c.endAddr →
    isFree env.configs env.db contexts addr=false

theorem scanPass_passed {pass : Bool} {steps : ℕ} (hsteps : 2^32 ≤ steps) {rest : List Context}
    (h : ∀ c∈rest, Ranged c) (pings : Pings) :
    ∃ result, scanPass env steps contexts netids pass j rest pings=some result ∧
      Passed env contexts rest netids pass result := by
  induction rest generalizing pings with
  | nil => exact ⟨_,rfl,rfl,nofun,fun _ _ => nofun⟩
  | cons c rest ih =>
    have hranged := h c List.mem_cons_self
    have hrest := fun c hc => h c (List.mem_cons_of_mem _ hc)
    rw [scanPass]
    by_cases hskip : c.isStatic=true ∨ matchNetid c.filter netids pass=false
    · obtain ⟨later,hlater,hpassed⟩ := ih hrest pings
      rw [if_pos hskip,hlater]
      refine ⟨_,rfl,?_,fun hfound => ?_,fun hping hnone d hd => ?_⟩
      · rw [List.map_cons,List.map_cons,hpassed.epochs]
      · obtain ⟨d,hd,hspec⟩ := hpassed.found hfound
        exact ⟨d,List.mem_cons_of_mem _ hd,hspec⟩
      · rcases List.mem_cons.mp hd with rfl | hd
        · intro hstatic hmatch
          rcases hskip with hskip | hskip
          · cases hskip.symm.trans hstatic
          · cases hskip.symm.trans hmatch
        · exact hpassed.none hping hnone d hd
    · obtain ⟨hstatic,hmatch⟩ := not_or.mp hskip
      rw [Bool.not_eq_true] at hstatic
      rw [Bool.not_eq_false] at hmatch
      obtain ⟨⟨found,epoch,pings'⟩,hscan,hspec⟩ := @Ranged.scan_ends env c j contexts netids hranged
        steps hsteps (c.addrEpoch,pings)
      rw [if_neg hskip,hscan]
      cases found with
      | some addr =>
        obtain ⟨hstart,hend,hfree⟩ := hspec addr rfl
        refine ⟨_,rfl,rfl,fun hfound => ?_,fun _ hnone => by cases hnone⟩
        cases hfound
        exact ⟨c,List.mem_cons_self,hstatic,hmatch,hstart,hend,hfree⟩
      | none =>
        obtain ⟨later,hlater,hpassed⟩ := ih hrest pings'
        dsimp only
        rw [hlater]
        refine ⟨_,rfl,?_,fun hfound => ?_,fun hping hnone d hd => ?_⟩
        · rw [List.map_cons,List.map_cons,hpassed.epochs]
          rfl
        · obtain ⟨d,hd,hspec⟩ := hpassed.found hfound
          exact ⟨d,List.mem_cons_of_mem _ hd,hspec⟩
        · rcases List.mem_cons.mp hd with rfl | hd
          · exact fun _ _ {addr} hstart hend => hranged.scan_none hping hsteps hscan hstart hend
          · exact hpassed.none hping hnone d hd

/-- A filter that matches with tags matches where they are not needed. -/
theorem matchNetid_true {check pool : List Tag} {pass : Bool} (h : matchNetid check pool pass=true) :
    matchNetid check pool true=true := by
  rw [matchNetid] at h ⊢
  rw [if_neg fun hboth => Bool.noConfusion hboth.2]
  split at h
  · cases h
  · exact h

theorem ranged_congr {contexts' : List Context}
    (h : contexts'.map eraseEpoch=contexts.map eraseEpoch) (hranged : ∀ c∈contexts, Ranged c) :
    ∀ c∈contexts', Ranged c := by
  intro c' hc'
  have hmem : eraseEpoch c'∈contexts.map eraseEpoch := h ▸ List.mem_map_of_mem hc'
  obtain ⟨c,hc,heq⟩ := List.mem_map.mp hmem
  have hstart : c.start=c'.start := (congrArg Context.start heq : (eraseEpoch c).start=_)
  have hend : c.endAddr=c'.endAddr := (congrArg Context.endAddr heq : (eraseEpoch c).endAddr=_)
  have hc := hranged c hc
  exact ⟨by rw [← hstart,← hend]; exact hc.le,by rw [← hstart,← hend]; exact hc.proper⟩

/-- What a pass over the whole chain finds is eligible. -/
theorem Passed.eligible {pass : Bool} {result : Option UInt32×List Context×Pings}
    (h : Passed env contexts contexts netids pass result) {addr : UInt32}
    (hfound : result.1=some addr) : Eligible env contexts netids true (env.htonl.symm addr) := by
  obtain ⟨c,hc,hstatic,hmatch,hstart,hend,hfree⟩ := h.found hfound
  exact ⟨c,hc,hstatic,matchNetid_true hmatch,hstart,hend,hfree⟩

/-- `address_allocate` ends. Without pings the address that it returns lies in a context of the
chain that is not static and matches, is no router, is not leased or reserved and does not end
like a network; and it returns none only if there is no such address. -/
theorem allocate_eligible (env : Env) (contexts : List Context) (hwaddr : List UInt8)
    (netids : List Tag) (pings : Pings) (steps : ℕ) (h : ∀ c∈contexts, Ranged c)
    (hsteps : 2^32 ≤ steps) :
    ∃ found contexts' pings',
      allocate env steps contexts hwaddr netids pings=some (found,contexts',pings') ∧
        (env.noPing=true → match found with
          | some addr => Eligible env contexts netids true (env.htonl.symm addr)
          | none => ∀ addr, ¬Eligible env contexts netids true addr) := by
  obtain ⟨⟨found,contexts1,pings1⟩,hfirst,hpassed⟩ := @scanPass_passed env (hashHwaddr hwaddr)
    contexts netids false steps hsteps contexts h pings
  rw [allocate,hfirst]
  cases found with
  | some addr => exact ⟨_,_,_,rfl,fun _ => hpassed.eligible rfl⟩
  | none =>
    have hsame := hpassed.epochs
    obtain ⟨⟨found,contexts2,pings2⟩,hsecond,hpassed2⟩ := @scanPass_passed env
      (hashHwaddr hwaddr) contexts1 netids true steps hsteps contexts1 (ranged_congr hsame h) pings1
    refine ⟨found,contexts2,pings2,hsecond,fun hping => ?_⟩
    cases found with
    | some addr => exact eligible_congr hsame (hpassed2.eligible rfl)
    | none =>
      intro addr helig
      obtain ⟨c,hc,hstatic,hmatch,hstart,hend,hfree⟩ := eligible_congr hsame.symm helig
      have hbusy := hpassed2.none hping rfl c hc hstatic hmatch hstart hend
      cases hbusy.symm.trans hfree

/-- The context 192.168.1.0 to 192.168.1.2 with a router in it. -/
def smallContext : Context :=
  ⟨0xc0a80100,0xc0a80102,0xffffff00,0xc0a80101,0xc0a80101,0,false,false,[]⟩

/-- No pings and no leases. -/
def quietEnv : Env := ⟨Equiv.refl _,true,[],⟨[],0,0⟩,0,fun _ _ => false,true⟩

/-- The search in that context ends with an address that may be handed out, if there is one. -/
theorem allocate_eligible_small :
    ∃ found contexts' pings',
      allocate quietEnv (2^32) [smallContext] [1,2,3,4,5,6] [] ⟨[],0⟩=
          some (found,contexts',pings') ∧
        (quietEnv.noPing=true → match found with
          | some addr => Eligible quietEnv [smallContext] [] true (quietEnv.htonl.symm addr)
          | none => ∀ addr, ¬Eligible quietEnv [smallContext] [] true addr) :=
  allocate_eligible quietEnv [smallContext] [1,2,3,4,5,6] [] ⟨[],0⟩ (2^32)
    (fun c hc => by
      rw [List.mem_singleton.mp hc]
      exact ⟨by decide,by decide⟩)
    (Nat.le_refl _)

end AndroidPlatform.DhcpAddressScan
