import AndroidPlatform.DhcpLeaseInvariant

/-!
# Which addresses the DHCP server hands out

An address that is offered or acknowledged should be no router of a context, be
reserved for no other host and be leased to no other client. The comparisons with
routers look at the first context of the chain only, a request for a configured
address is granted without them, and two configurations with one address are not
told apart. What the server does is safe except where an address that it takes
over, instead of choosing one, falls into these gaps.
-/

namespace AndroidPlatform.DhcpAddressSafety

open DhcpLeases DhcpServer DhcpLeaseInvariant

section Safety

variable (options : Options) (server : Server) (db : Db) (m : Request)

/-- No other configuration reserves the address. -/
def Unshared (a : UInt32) : Prop :=
  ∀ e∈server.configs, e.addr=some a → some e.ident=m.config.map HostConfig.ident

/-- No lease of another client holds the address, unless the configuration lists
its hardware address. -/
def Unleased (a : UInt32) : Prop :=
  ∀ l∈db.leases, l.addr=a →
    some l.ident=(clientLease db m).map Lease.ident ∨ listsLease m l=true

/-- Every address that is offered or acknowledged is safe. -/
def AnswersSafely : Prop :=
  ∀ a, (dhcpReply options server db m).2=some (.offer a) ∨
    (dhcpReply options server db m).2=some (.ack a) →
      (∀ c∈m.contexts, c.router≠a) ∧ Unshared server m a ∧ Unleased db m a

/-! ## Where the gaps are -/

/-- The packet comes to the cases of the message types. -/
def Considered : Prop :=
  m.contexts≠[] ∧ m.pxe=false ∧ (m.contexts.head?.map Context.isProxy)≠some true ∧
    m.ignore=false ∧ isDisabled m=false

/-- `DHCPDISCOVER` takes the configured address. -/
def TakesConfigured (a : UInt32) : Prop :=
  ∃ config, m.config=some config ∧ config.addr=some a ∧ isLeased db m config a=false ∧
    isRouter m.contexts a=false ∧ isDeclined m config=false ∧ a≠0

/-- The address is in a range, and no configuration has it. -/
def Usable (a : UInt32) : Prop :=
  (addressAvailable m.contexts a m.netids).isSome=true ∧
    (configFindByAddress server.configs a).isNone=true

/-- `DHCPDISCOVER` takes the address of the lease. -/
def TakesLeased (a : UInt32) : Prop :=
  (∀ b, ¬TakesConfigured db m b) ∧ (clientLease db m).map Lease.addr=some a ∧ Usable server m a

/-- `DHCPDISCOVER` takes the requested address. -/
def TakesRequested (a : UInt32) : Prop :=
  (∀ b, ¬TakesConfigured db m b) ∧ (∀ b, ¬TakesLeased server db m b) ∧ m.requestedIp=some a ∧
    Usable server m a ∧ (db.findByAddr a).isNone=true

/-- The address is the router of a context behind the first. -/
def LaterRouter (a : UInt32) : Prop := ∃ c∈m.contexts.tail, c.router=a

/-- What a `DHCPREQUEST` is checked for. -/
structure Admission where
  /-- The address that the client asks for. -/
  addr : UInt32
  /-- The chain of contexts. -/
  chain : List Context
  /-- The lease of the client, if it is for this address. -/
  lease : Option Lease
  /-- The leases, without one of the client for another address. -/
  db : Db
  /-- `selecting` -/
  selecting : Bool

/-- The chain that starts with the context of the server that the client names. -/
def namedChain (id : UInt32) : List Context :=
  if m.override≠0 then if id≠m.override then [] else m.contexts
  else m.contexts.dropWhile fun context => decide (context.localAddr≠id)

/-- What a `DHCPREQUEST` is checked for, if it is checked at all. -/
def admitted : Option Admission :=
  match m.requestedIp,m.serverIdentifier with
  | some a,some id =>
    if namedChain m id=[] then none
    else some ⟨a,namedChain m id,(settle db m a).2,(settle db m a).1,true⟩
  | some a,none =>
    match clientLease db m with
    | none => if server.authoritative=true then some ⟨a,m.contexts,none,db,false⟩ else none
    | some lease => if lease.addr=a then some ⟨a,m.contexts,some lease,db,false⟩ else none
  | none,_ =>
    if leaseNotFound server m (clientLease db m)=true then none
    else some ⟨clientAddr m,m.contexts,clientLease db m,db,false⟩

/-- The lease that a granted request gets: that of the client, or one that its
configuration lists. -/
def grantedLease (p : Admission) : Option Lease := p.lease.or (p.db.findByAddr p.addr)

/-- The checks are passed, in this context. -/
structure Passes (p : Admission) (context : Context) : Prop where
  /-- The context is found. -/
  narrow : narrowContext p.chain p.addr m.netids=some context
  /-- The address is available there, or configured. -/
  available : (addressAvailable [context] p.addr m.netids).isSome=true ∨ configAddr m=some p.addr
  /-- The configured address is not due instead. -/
  due : staticLeaseAvailable p.db m p.chain p.lease p.selecting p.addr=false
  /-- The first configuration with the address is that of the client. -/
  unreserved : isReserved server m p.addr=false
  /-- A lease of another client is listed in the configuration. -/
  listed : p.lease=none → ∀ l, p.db.findByAddr p.addr=some l → listsLease m l=true
  /-- The client can be told from others. -/
  known : emac db m≠[]
  /-- There is a lease, or one more is possible. -/
  left : (grantedLease p).isSome=true ∨ p.db.leasesLeft≠0

/-- No address that is taken over falls into a gap: a configured address that is
offered is no router behind the first context and not in a second configuration,
a leased or requested one that is offered is no router behind the first context,
and a requested one that is granted is the router of no context but the one in
which it is checked, or of none if it is configured, and not in a second
configuration. -/
structure NoGap : Prop where
  /-- The configured address of a `DHCPDISCOVER`. -/
  configured : Considered m → m.messType=dhcpDiscover → ∀ a, TakesConfigured db m a →
    (narrowContext m.contexts a m.netids).isSome=true → ¬LaterRouter m a ∧ Unshared server m a
  /-- The leased address of a `DHCPDISCOVER`. -/
  leased : Considered m → m.messType=dhcpDiscover → ∀ a, TakesLeased server db m a →
    ¬LaterRouter m a
  /-- The requested address of a `DHCPDISCOVER`. -/
  requested : Considered m → m.messType=dhcpDiscover → ∀ a, TakesRequested server db m a →
    ¬LaterRouter m a
  /-- The address of a `DHCPREQUEST`. -/
  granted : Considered m → m.messType=dhcpRequest → ∀ p, admitted server db m=some p →
    ∀ context, Passes server db m p context →
      (∀ c∈m.contexts, c≠context ∨ configAddr m=some p.addr → c.router≠p.addr) ∧
        Unshared server m p.addr

end Safety

/-! ## Routers -/

section Routers

variable {contexts : List Context} {a : UInt32}

theorem isRouter_cons (c : Context) (rest : List Context) (a : UInt32) :
    isRouter (c::rest) a=decide (c.router=a) := by
  simp [isRouter]

/-- Comparing with the first context leaves those behind it. -/
theorem routers_of_isRouter (h : isRouter contexts a=false)
    (hlater : ¬∃ c∈contexts.tail, c.router=a) : ∀ c∈contexts, c.router≠a := by
  cases contexts with
  | nil => exact fun c hc => by cases hc
  | cons first rest =>
    rw [isRouter_cons] at h
    intro c hc hrouter
    rcases List.mem_cons.mp hc with rfl|hc
    · simp [hrouter] at h
    · exact hlater ⟨c,hc,hrouter⟩

theorem isRouter_of_available {netids : List Tag}
    (h : (addressAvailable contexts a netids).isSome=true) : isRouter contexts a=false := by
  unfold addressAvailable at h
  split at h
  · cases h
  · rename_i hno
    exact Bool.eq_false_iff.mpr hno

theorem narrowContext_of_available {netids : List Tag}
    (h : (addressAvailable contexts a netids).isSome=true) :
    (narrowContext contexts a netids).isSome=true := by
  obtain ⟨c,hc⟩ := Option.isSome_iff_exists.mp h
  rw [narrowContext,hc,Option.some_or]
  rfl

end Routers

/-! ## Answers -/

section Answers

variable {options : Options} {server : Server} {db : Db} {m : Request} {a : UInt32}

theorem discoverConfig_eq_some : discoverConfig db m=some a ↔ TakesConfigured db m a := by
  unfold discoverConfig TakesConfigured
  constructor
  · intro h
    obtain ⟨config,hconfig,h⟩ := Option.bind_eq_some_iff.mp h
    obtain ⟨addr,haddr,h⟩ := Option.bind_eq_some_iff.mp h
    split at h
    · cases h
    · rename_i hno
      cases h
      simp only [not_or,Bool.not_eq_true] at hno
      exact ⟨config,hconfig,haddr,hno.1,hno.2.1,hno.2.2.1,hno.2.2.2⟩
  · rintro ⟨config,hconfig,haddr,hleased,hrouter,hdeclined,hzero⟩
    rw [hconfig,Option.bind_some,haddr,Option.bind_some,if_neg]
    simp [hleased,hrouter,hdeclined,hzero]

theorem or_eq_some {x y : Option UInt32} :
    x.or y=some a ↔ x=some a ∨ (∀ b, x≠some b) ∧ y=some a := by
  cases x with
  | none => simp
  | some b => simp

/-- The four sources of an offered address. -/
theorem discoverAddr_eq_some : discoverAddr server db m=some a ↔
    TakesConfigured db m a ∨ TakesLeased server db m a ∨ TakesRequested server db m a ∨
      (∀ b, ¬TakesConfigured db m b) ∧ (∀ b, ¬TakesLeased server db m b) ∧
        (∀ b, ¬TakesRequested server db m b) ∧ emac db m≠[] ∧
        addressAllocate server.configs server.busy db m.contexts (emac db m) m.netids=some a := by
  have hlease : ∀ b, ((clientLease db m).bind fun lease =>
      if (addressAvailable m.contexts lease.addr m.netids).isSome=true ∧
          (configFindByAddress server.configs lease.addr).isNone=true then some lease.addr
      else none)=some b ↔ (clientLease db m).map Lease.addr=some b ∧ Usable server m b := by
    intro b
    cases clientLease db m with
    | none => simp
    | some lease =>
      rw [Option.bind_some,Option.map_some,Option.some.injEq]
      constructor
      · intro h
        split at h
        · rename_i husable
          cases h
          exact ⟨rfl,husable⟩
        · cases h
      · rintro ⟨rfl,husable⟩
        exact if_pos husable
  have hrequest : ∀ b, (m.requestedIp.bind fun addr =>
      if (addressAvailable m.contexts addr m.netids).isSome=true ∧
          (db.findByAddr addr).isNone=true ∧
          (configFindByAddress server.configs addr).isNone=true then some addr
      else none)=some b ↔
        m.requestedIp=some b ∧ Usable server m b ∧ (db.findByAddr b).isNone=true := by
    intro b
    cases m.requestedIp with
    | none => simp
    | some addr =>
      rw [Option.bind_some,Option.some.injEq]
      constructor
      · intro h
        split at h
        · rename_i husable
          cases h
          exact ⟨rfl,⟨husable.1,husable.2.2⟩,husable.2.1⟩
        · cases h
      · rintro ⟨rfl,husable,hfree⟩
        exact if_pos ⟨husable.1,hfree,husable.2⟩
  have halloc : (if emac db m=[] then none else addressAllocate server.configs server.busy db
      m.contexts (emac db m) m.netids)=some a ↔ emac db m≠[] ∧
        addressAllocate server.configs server.busy db m.contexts (emac db m) m.netids=some a := by
    by_cases h : emac db m=[]
    · simp [h]
    · simp [h]
  unfold discoverAddr
  dsimp only
  rw [or_eq_some,or_eq_some,or_eq_some,halloc]
  simp only [Ne,discoverConfig_eq_some,hlease,hrequest]
  constructor
  · rintro (h|⟨hconf,h|⟨hlease,h|⟨hrequest,h⟩⟩⟩)
    · exact Or.inl h
    · exact Or.inr (Or.inl ⟨hconf,h⟩)
    · exact Or.inr (Or.inr (Or.inl ⟨hconf,fun b hb => hlease b hb.2,h⟩))
    · exact Or.inr (Or.inr (Or.inr
        ⟨hconf,fun b hb => hlease b hb.2,fun b hb => hrequest b hb.2.2,h⟩))
  · rintro (h|⟨hconf,h⟩|⟨hconf,hlease,h⟩|⟨hconf,hlease,hrequest,h⟩)
    · exact Or.inl h
    · exact Or.inr ⟨hconf,Or.inl h⟩
    · exact Or.inr ⟨hconf,Or.inr ⟨fun b hb => hlease b ⟨hconf,hb⟩,Or.inl h⟩⟩
    · exact Or.inr ⟨hconf,Or.inr ⟨fun b hb => hlease b ⟨hconf,hb⟩,
        Or.inr ⟨fun b hb => hrequest b ⟨hconf,hlease,hb⟩,h⟩⟩⟩

/-- A lease is filled in where there is one, or one more is possible. -/
theorem ackLease_ack {clid : List UInt8} {lease : Option Lease} {y : UInt32} :
    (ackLease options server db m clid lease y).2=some (.ack a) ↔
      y=a ∧ (lease.isSome=true ∨ db.leasesLeft≠0) := by
  unfold ackLease
  cases lease with
  | some lease => simp
  | none =>
    by_cases hleft : db.leasesLeft=0
    · simp [Db.allocate,hleft]
    · simp [Db.allocate,hleft]

/-- The checks of a request. -/
theorem requestChecks_ack {p : Admission} {clid : List UInt8} :
    (requestChecks options server p.db m clid p.chain p.lease p.selecting p.addr (emac db m)).2=
      some (.ack a) ↔ p.addr=a ∧ ∃ context, Passes server db m p context := by
  constructor
  · intro h
    unfold requestChecks at h
    split at h
    · cases h
    rename_i context hnarrow
    split at h
    · cases h
    rename_i havailable
    split at h
    · cases h
    rename_i hdue
    split at h
    · cases h
    rename_i hreserved
    have hav : (addressAvailable [context] p.addr m.netids).isSome=true ∨
        configAddr m=some p.addr := by
      by_cases hconf : configAddr m=some p.addr
      · exact Or.inr hconf
      · refine Or.inl ?_
        rw [Option.isSome_iff_ne_none]
        intro hnone
        exact havailable ⟨by rw [hnone]; rfl,hconf⟩
    have hpass : ∀ {lease : Option Lease}, grantedLease p=lease →
        (p.lease=none → ∀ l, p.db.findByAddr p.addr=some l → listsLease m l=true) →
        (if emac db m=[] then (p.db,some .nak)
          else ackLease options server p.db m clid lease p.addr).2=some (.ack a) →
        p.addr=a ∧ ∃ context, Passes server db m p context := by
      intro lease hlease hlisted hack
      split at hack
      · cases hack
      · rename_i hemac
        obtain ⟨haddr,hleft⟩ := ackLease_ack.mp hack
        exact ⟨haddr,context,hnarrow,hav,Bool.eq_false_iff.mpr hdue,Bool.eq_false_iff.mpr hreserved,
          hlisted,hemac,hlease ▸ hleft⟩
    split at h
    · rename_i ltmp hnone hfind
      split at h
      · rename_i hlists
        refine hpass ?_ (fun _ l hl => ?_) h
        · rw [grantedLease,hnone,hfind]
          rfl
        · rw [hfind] at hl
          cases hl
          exact hlists
      · cases h
    · rename_i hother
      refine hpass ?_ (fun hnone l hl => absurd hl (hother l hnone)) h
      cases hlease : p.lease with
      | some lease => rw [grantedLease,hlease,Option.some_or]
      | none =>
        cases hfind : p.db.findByAddr p.addr with
        | none => rw [grantedLease,hlease,hfind]; rfl
        | some l => exact absurd hfind (hother l hlease)
  · rintro ⟨rfl,context,hp⟩
    unfold requestChecks
    rw [hp.narrow]
    dsimp only
    rw [if_neg,if_neg (Bool.eq_false_iff.mp hp.due),if_neg (Bool.eq_false_iff.mp hp.unreserved)]
    · have hleft := hp.left
      unfold grantedLease at hleft
      split
      · rename_i ltmp hnone hfind
        rw [if_pos (hp.listed hnone ltmp hfind),if_neg hp.known]
        exact ackLease_ack.mpr ⟨rfl,Or.inl rfl⟩
      · rename_i hother
        rw [if_neg hp.known]
        refine ackLease_ack.mpr ⟨rfl,?_⟩
        cases hlease : p.lease with
        | some lease => exact Or.inl rfl
        | none =>
          cases hfind : p.db.findByAddr p.addr with
          | none => simpa [hlease,hfind] using hleft
          | some l => exact absurd hfind (hother l hlease)
    · rintro ⟨hnone,hconf⟩
      rcases hp.available with hav|hav
      · rw [Option.isNone_iff_eq_none] at hnone
        rw [hnone] at hav
        cases hav
      · exact hconf hav

/-- A request that is acknowledged passes the checks. -/
theorem requestReply_ack (hcontexts : m.contexts≠[]) (hignore : m.ignore=false)
    (hdisabled : isDisabled m=false) :
    (requestReply options server db m).2=some (.ack a) ↔
      ∃ p, admitted server db m=some p ∧ p.addr=a ∧ ∃ context, Passes server db m p context := by
  have hchecks : ∀ (p : Admission) (clid : List UInt8), admitted server db m=some p →
      ((requestChecks options server p.db m clid p.chain p.lease p.selecting p.addr
        (emac db m)).2=some (.ack a) ↔ ∃ p, admitted server db m=some p ∧ p.addr=a ∧
          ∃ context, Passes server db m p context) := by
    intro p clid hp
    rw [requestChecks_ack]
    constructor
    · exact fun h => ⟨p,hp,h⟩
    · rintro ⟨q,hq,h⟩
      rw [hp] at hq
      cases hq
      exact h
  have hrefused : ∀ {answer : Option Answer}, answer≠some (.ack a) →
      admitted server db m=none → (answer=some (.ack a) ↔ ∃ p, admitted server db m=some p ∧
        p.addr=a ∧ ∃ context, Passes server db m p context) := by
    intro answer hanswer hnone
    simp [hanswer,hnone]
  unfold requestReply
  rw [if_neg (by simp [hignore,hdisabled])]
  dsimp only
  cases hip : m.requestedIp with
  | none =>
    dsimp only
    by_cases hfound : leaseNotFound server m (clientLease db m)=true
    · rw [if_pos hfound]
      exact hrefused (by simp) (by simp [admitted,hip,hfound])
    · rw [if_neg hfound]
      exact hchecks ⟨clientAddr m,m.contexts,clientLease db m,db,false⟩ _
        (by simp [admitted,hip,hfound])
  | some y =>
    dsimp only
    cases hid : m.serverIdentifier with
    | some id =>
      dsimp only
      by_cases hover : m.override≠0
      · rw [if_pos hover]
        by_cases hne : id≠m.override
        · rw [if_pos hne]
          exact hrefused (by simp) (by simp [admitted,hip,hid,namedChain,hover,hne])
        · rw [if_neg hne]
          exact hchecks ⟨y,m.contexts,(settle db m y).2,(settle db m y).1,true⟩ _
            (by simp [admitted,hip,hid,namedChain,hover,hne,hcontexts])
      · rw [if_neg hover]
        cases hchain : m.contexts.dropWhile fun context => decide (context.localAddr≠id) with
        | nil =>
          have hnamed : namedChain m id=[] := by rw [namedChain,if_neg hover,hchain]
          dsimp only
          refine hrefused ?_ (by simp [admitted,hip,hid,hnamed])
          split
          · simp
          · simp
        | cons context rest =>
          have hnamed : namedChain m id=context::rest := by rw [namedChain,if_neg hover,hchain]
          exact hchecks ⟨y,context::rest,(settle db m y).2,(settle db m y).1,true⟩ _
            (by simp [admitted,hip,hid,hnamed])
    | none =>
      dsimp only
      cases hlease : clientLease db m with
      | none =>
        by_cases hauth : server.authoritative=true
        · rw [if_neg (by simp [hauth]),if_neg (by simp),settle,hlease]
          exact hchecks ⟨y,m.contexts,none,db,false⟩ _ (by simp [admitted,hip,hid,hlease,hauth])
        · rw [if_pos (by simpa using hauth)]
          exact hrefused (by simp) (by simp [admitted,hip,hid,hlease,hauth])
      | some lease =>
        rw [if_neg (by simp),settle,hlease]
        by_cases haddr : lease.addr=y
        · simp only [haddr,ne_eq,not_true_eq_false,if_false,Option.isNone_some]
          exact hchecks ⟨y,m.contexts,some lease,db,false⟩ _
            (by simp [admitted,hip,hid,hlease,haddr])
        · simp only [ne_eq,haddr,not_false_eq_true,if_true,Option.isSome_some,Option.isNone_none,
            and_self]
          exact hrefused (by simp) (by simp [admitted,hip,hid,hlease,haddr])

/-- The address of an offer or of an acknowledgement. -/
def grantedAddr : Option Answer → Option UInt32
  | some (.offer a) => some a
  | some (.ack a) => some a
  | _ => none

theorem grantedAddr_eq_some {answer : Option Answer} :
    grantedAddr answer=some a ↔ answer=some (.offer a) ∨ answer=some (.ack a) := by
  cases answer with
  | none => simp [grantedAddr]
  | some answer =>
    cases answer with
    | bootp y => simp [grantedAddr]
    | offer y => simp [grantedAddr]
    | ack y => simp [grantedAddr]
    | nak => simp [grantedAddr]
    | inform => simp [grantedAddr]

theorem bootpLease_grants {lease : Option Lease} {y : UInt32} {nailed : Bool} :
    grantedAddr (bootpLease options db m lease y nailed).2=none := by
  unfold bootpLease
  split
  · rfl
  split
  · rfl
  cases lease with
  | some lease => rfl
  | none =>
    cases db.allocate y with
    | none => rfl
    | some after => rfl

theorem bootpReply_grants : grantedAddr (bootpReply options server db m).2=none := by
  unfold bootpReply
  split
  · rfl
  split
  · rfl
  split
  · split
    · split
      · rfl
      · exact bootpLease_grants
    · exact bootpLease_grants
  · split
    · split
      · exact bootpLease_grants
      · dsimp only
        split
        · rfl
        · exact bootpLease_grants
    · split
      · rfl
      · exact bootpLease_grants

theorem declineReply_grants : grantedAddr (declineReply db m).2=none := by
  unfold declineReply
  split
  · split
    · rfl
    split
    · split
      · rfl
      · rfl
    · rfl
  · rfl

theorem releaseReply_grants : grantedAddr (releaseReply db m).2=none := by
  unfold releaseReply
  split
  · split
    · rfl
    split
    · split
      · rfl
      · rfl
    · rfl
  · rfl

theorem informReply_grants : grantedAddr (informReply db m).2=none := by
  unfold informReply
  split
  · rfl
  split
  · rfl
  · rfl

theorem discoverReply_grants : grantedAddr (discoverReply server db m).2=some a ↔
    (m.ignore=false ∧ isDisabled m=false) ∧ discoverAddr server db m=some a ∧
      (narrowContext m.contexts a m.netids).isSome=true := by
  unfold discoverReply
  by_cases hignored : m.ignore=true ∨ isDisabled m=true
  · rw [if_pos hignored]
    have hno : ¬(m.ignore=false ∧ isDisabled m=false) := by
      rintro ⟨hi,hd⟩
      simp [hi,hd] at hignored
    simp [grantedAddr,hno]
  · rw [if_neg hignored]
    simp only [not_or,Bool.not_eq_true] at hignored
    cases haddr : discoverAddr server db m with
    | none => simp [grantedAddr]
    | some y =>
      dsimp only
      by_cases hnarrow : (narrowContext m.contexts y m.netids).isNone=true
      · rw [if_pos hnarrow]
        rw [Option.isNone_iff_eq_none] at hnarrow
        constructor
        · intro h
          cases h
        · rintro ⟨-,hy,h⟩
          cases hy
          rw [hnarrow] at h
          cases h
      · rw [if_neg hnarrow]
        rw [Option.isNone_iff_eq_none,←Ne,←Option.isSome_iff_ne_none] at hnarrow
        constructor
        · intro h
          cases h
          exact ⟨hignored,rfl,hnarrow⟩
        · rintro ⟨-,h,-⟩
          exact h

theorem requestChecks_offer {clid emac : List UInt8} {contexts : List Context}
    {lease : Option Lease} {selecting : Bool} {y : UInt32} :
    (requestChecks options server db m clid contexts lease selecting y emac).2≠
      some (.offer a) := by
  have hack : ∀ lease, (ackLease options server db m clid lease y).2≠some (.offer a) := by
    intro lease
    unfold ackLease
    cases lease with
    | some lease => simp
    | none =>
      cases db.allocate y with
      | none => simp
      | some after => simp
  unfold requestChecks
  split
  · simp
  split
  · simp
  split
  · simp
  split
  · simp
  split
  · split
    · split
      · simp
      · exact hack _
    · simp
  · split
    · simp
    · exact hack _

theorem requestReply_offer : (requestReply options server db m).2≠some (.offer a) := by
  unfold requestReply
  split
  · simp
  dsimp only
  split
  · split
    · split
      · split
        · simp
        · exact requestChecks_offer
      · split
        · split
          · simp
          · simp
        · exact requestChecks_offer
    · split
      · simp
      split
      · simp
      · exact requestChecks_offer
  · split
    · simp
    · exact requestChecks_offer

/-- What is offered or acknowledged comes from one of two cases. -/
theorem dhcpReply_grants : grantedAddr (dhcpReply options server db m).2=some a ↔
    Considered m ∧ (m.messType=dhcpDiscover ∧ discoverAddr server db m=some a ∧
        (narrowContext m.contexts a m.netids).isSome=true ∨
      m.messType=dhcpRequest ∧ ∃ p, admitted server db m=some p ∧ p.addr=a ∧
        ∃ context, Passes server db m p context) := by
  have hnone : ∀ {answer : Option Answer} {P : Prop}, grantedAddr answer=none → ¬P →
      (grantedAddr answer=some a ↔ P) := by
    intro answer P hanswer hP
    simp [hanswer,hP]
  unfold dhcpReply
  by_cases hcontexts : m.contexts=[]
  · rw [if_pos hcontexts]
    exact hnone rfl fun h => h.1.1 hcontexts
  rw [if_neg hcontexts]
  by_cases hbootp : m.messType=0
  · rw [if_pos hbootp]
    exact hnone bootpReply_grants fun h => by simp [hbootp,dhcpDiscover,dhcpRequest] at h
  rw [if_neg hbootp]
  by_cases hpxe : m.pxe=true ∨ (m.contexts.head?.map Context.isProxy)=some true
  · rw [if_pos hpxe]
    refine hnone rfl fun h => ?_
    rcases hpxe with hpxe|hproxy
    · exact absurd (h.1.2.1.symm.trans hpxe) (by simp)
    · exact h.1.2.2.1 hproxy
  rw [if_neg hpxe]
  simp only [not_or,Bool.not_eq_true] at hpxe
  by_cases hdecline : m.messType=dhcpDecline
  · rw [if_pos hdecline]
    refine hnone declineReply_grants fun h => ?_
    simp [hdecline,dhcpDecline,dhcpDiscover,dhcpRequest] at h
  rw [if_neg hdecline]
  by_cases hrelease : m.messType=dhcpRelease
  · rw [if_pos hrelease]
    refine hnone releaseReply_grants fun h => ?_
    simp [hrelease,dhcpRelease,dhcpDiscover,dhcpRequest] at h
  rw [if_neg hrelease]
  by_cases hdiscover : m.messType=dhcpDiscover
  · rw [if_pos hdiscover,discoverReply_grants]
    constructor
    · rintro ⟨⟨hignore,hdisabled⟩,h⟩
      exact ⟨⟨hcontexts,hpxe.1,hpxe.2,hignore,hdisabled⟩,Or.inl ⟨hdiscover,h⟩⟩
    · rintro ⟨hconsidered,⟨-,h⟩|⟨hrequest,-⟩⟩
      · exact ⟨hconsidered.2.2.2,h⟩
      · rw [hdiscover] at hrequest
        cases hrequest
  rw [if_neg hdiscover]
  by_cases hrequest : m.messType=dhcpRequest
  · rw [if_pos hrequest]
    by_cases hignored : m.ignore=true ∨ isDisabled m=true
    · rw [requestReply,if_pos hignored]
      refine hnone rfl fun h => ?_
      simp [h.1.2.2.2.1,h.1.2.2.2.2] at hignored
    · simp only [not_or,Bool.not_eq_true] at hignored
      rw [grantedAddr_eq_some,or_iff_right requestReply_offer,
        requestReply_ack hcontexts hignored.1 hignored.2]
      constructor
      · exact fun h => ⟨⟨hcontexts,hpxe.1,hpxe.2,hignored⟩,Or.inr ⟨hrequest,h⟩⟩
      · rintro ⟨-,⟨hno,-⟩|⟨-,h⟩⟩
        · exact absurd hno hdiscover
        · exact h
  rw [if_neg hrequest]
  have hother : ¬(Considered m ∧ (m.messType=dhcpDiscover ∧ discoverAddr server db m=some a ∧
        (narrowContext m.contexts a m.netids).isSome=true ∨
      m.messType=dhcpRequest ∧ ∃ p, admitted server db m=some p ∧ p.addr=a ∧
        ∃ context, Passes server db m p context)) := by
    rintro ⟨-,⟨h,-⟩|⟨h,-⟩⟩
    · exact hdiscover h
    · exact hrequest h
  split
  · exact hnone informReply_grants hother
  · exact hnone rfl hother

end Answers

/-! ## Leases -/

section Leases

variable {options : Options} {server : Server} {db : Db} {m : Request} {a : UInt32}

theorem findByAddr_some {lease : Lease} (h : db.findByAddr a=some lease) :
    lease∈db.leases ∧ lease.addr=a :=
  ⟨List.mem_of_find?_eq_some h,by simpa using List.find?_some h⟩

theorem findByAddr_none (h : db.findByAddr a=none) : ∀ l∈db.leases, l.addr≠a := by
  intro l hl
  simpa using List.find?_eq_none.mp h l hl

theorem configFindByAddress_none {configs : List HostConfig}
    (h : configFindByAddress configs a=none) : ∀ e∈configs, e.addr≠some a := by
  intro e he
  simpa using List.find?_eq_none.mp h e he

theorem clientLease_mem {lease : Lease} (h : clientLease db m=some lease) : lease∈db.leases := by
  unfold clientLease Db.findByClient at h
  dsimp only at h
  rcases Option.or_eq_some_iff.mp h with h|⟨-,h⟩
  · split at h
    · cases h
    · exact List.mem_of_find?_eq_some h
  · exact List.mem_of_find?_eq_some h

/-- Leases of the same address are the same. -/
theorem eq_of_addr (hc : Consistent options db) {x y : Lease} (hx : x∈db.leases)
    (hy : y∈db.leases) (h : x.addr=y.addr) : x=y := List.inj_on_of_nodup_map hc.addrs hx hy h

/-- No lease is expired. -/
def Current (db : Db) (now : ℤ) : Prop := ∀ l∈db.leases, l.expired now=false

theorem current_prune (db : Db) (now : ℤ) : Current (db.prune none now) now := by
  intro l hl
  have hkept := (List.mem_filter.mp hl).2
  simpa [Db.prunes] using hkept

/-- Giving up one lease leaves the others. -/
theorem mem_prune {now : ℤ} (hcurrent : Current db now) {l : Lease} (hl : l∈db.leases) {ident : ℕ}
    (hne : l.ident≠ident) : l∈(db.prune (some ident) now).leases := by
  refine List.mem_filter.mpr ⟨hl,?_⟩
  simp [Db.prunes,hcurrent l hl,hne]

theorem settle_mem (hcurrent : Current db m.now) {l : Lease} (hl : l∈db.leases) (y : UInt32) :
    l∈(settle db m y).1.leases ∨ some l.ident=(clientLease db m).map Lease.ident := by
  unfold settle
  cases hclient : clientLease db m with
  | none => exact Or.inl hl
  | some lease =>
    dsimp only
    by_cases hi : l.ident=lease.ident
    · exact Or.inr (congrArg some hi)
    · refine Or.inl ?_
      split
      · exact mem_prune hcurrent hl hi
      · exact hl

theorem settle_lease {y : UInt32} {lease : Lease} (h : (settle db m y).2=some lease) :
    clientLease db m=some lease ∧ lease.addr=y := by
  unfold settle at h
  split at h
  · rename_i found hclient
    split at h
    · cases h
    · rename_i haddr
      cases h
      exact ⟨hclient,not_not.mp haddr⟩
  · cases h

theorem admitted_consistent (hc : Consistent options db) {p : Admission}
    (h : admitted server db m=some p) : Consistent options p.db := by
  unfold admitted at h
  split at h
  · split at h
    · cases h
    · cases h
      exact hc.settle _
  · split at h
    · split at h
      · cases h
        exact hc
      · cases h
    · split at h
      · cases h
        exact hc
      · cases h
  · split at h
    · cases h
    · cases h
      exact hc

/-- A request is checked against all leases but one of the client, and its lease
is for the address. -/
theorem admitted_leases (hcurrent : Current db m.now) {p : Admission}
    (h : admitted server db m=some p) :
    (∀ lease, p.lease=some lease → clientLease db m=some lease ∧ lease.addr=p.addr) ∧
      ∀ l∈db.leases, l∈p.db.leases ∨ some l.ident=(clientLease db m).map Lease.ident := by
  unfold admitted at h
  split at h
  · split at h
    · cases h
    · cases h
      exact ⟨fun lease => settle_lease,fun l hl => settle_mem hcurrent hl _⟩
  · split at h
    · split at h
      · cases h
        exact ⟨(fun lease hlease => by cases hlease),fun l hl => Or.inl hl⟩
      · cases h
    · rename_i found hclient
      split at h
      · rename_i haddr
        cases h
        refine ⟨fun lease hlease => ?_,fun l hl => Or.inl hl⟩
        cases hlease
        exact ⟨hclient,haddr⟩
      · cases h
  · split at h
    · cases h
    · rename_i hfound
      cases h
      refine ⟨fun lease hlease => ⟨hlease,?_⟩,fun l hl => Or.inl hl⟩
      dsimp only at hlease
      rw [hlease] at hfound
      simp only [leaseNotFound,decide_eq_true_eq,not_not] at hfound
      exact hfound.symm

/-- What is granted to a request has no lease of another client. -/
theorem unleased_of_passes (hc : Consistent options db) (hcurrent : Current db m.now)
    {p : Admission} (hadmitted : admitted server db m=some p) {context : Context}
    (hp : Passes server db m p context) : Unleased db m p.addr := by
  obtain ⟨hlease,hkept⟩ := admitted_leases hcurrent hadmitted
  intro l hl haddr
  rcases hkept l hl with hmem|hown
  · cases hown : p.lease with
    | some lease =>
      obtain ⟨hclient,hsame⟩ := hlease lease hown
      rw [eq_of_addr hc hl (clientLease_mem hclient) (haddr.trans hsame.symm),hclient]
      exact Or.inl rfl
    | none =>
      refine Or.inr ?_
      cases hfind : p.db.findByAddr p.addr with
      | none => exact absurd haddr (findByAddr_none hfind l hmem)
      | some found =>
        obtain ⟨hfound,hsame⟩ := findByAddr_some hfind
        rw [eq_of_addr (admitted_consistent hc hadmitted) hmem hfound (haddr.trans hsame.symm)]
        exact hp.listed hown found hfind
  · exact Or.inl hown

theorem unleased_of_findByAddr (h : db.findByAddr a=none) : Unleased db m a :=
  fun l hl haddr => absurd haddr (findByAddr_none h l hl)

theorem unshared_of_configFindByAddress (h : configFindByAddress server.configs a=none) :
    Unshared server m a :=
  fun e he haddr => absurd haddr (configFindByAddress_none h e he)

theorem unleased_of_takesConfigured (hc : Consistent options db) (h : TakesConfigured db m a) :
    Unleased db m a := by
  obtain ⟨config,hconfig,-,hleased,-⟩ := h
  intro l hl haddr
  cases hfind : db.findByAddr a with
  | none => exact absurd haddr (findByAddr_none hfind l hl)
  | some ltmp =>
    obtain ⟨hmem,hsame⟩ := findByAddr_some hfind
    rw [eq_of_addr hc hl hmem (haddr.trans hsame.symm)]
    by_cases hown : some ltmp.ident=(clientLease db m).map Lease.ident
    · exact Or.inl hown
    · refine Or.inr ?_
      simp only [isLeased,hfind,ne_eq,hown,not_false_eq_true,decide_true,Bool.true_and,
        Bool.not_eq_false'] at hleased
      rw [listsLease,hconfig]
      exact hleased

theorem unleased_of_clientLease (hc : Consistent options db)
    (h : (clientLease db m).map Lease.addr=some a) : Unleased db m a := by
  obtain ⟨lease,hclient,hsame⟩ := Option.map_eq_some_iff.mp h
  intro l hl haddr
  rw [eq_of_addr hc hl (clientLease_mem hclient) (haddr.trans hsame.symm),hclient]
  exact Or.inl rfl

end Leases

/-! ## Safe answers -/

section Answers

variable {options : Options} {server : Server} {db : Db} {m : Request} {a : UInt32}

/-- No gap is between what is compared and what is offered. -/
theorem safe_of_offer (hc : Consistent options db) (hgap : NoGap server db m)
    (hconsidered : Considered m) (hdiscover : m.messType=dhcpDiscover)
    (haddr : discoverAddr server db m=some a)
    (hnarrow : (narrowContext m.contexts a m.netids).isSome=true) :
    (∀ c∈m.contexts, c.router≠a) ∧ Unshared server m a ∧ Unleased db m a := by
  rcases discoverAddr_eq_some.mp haddr with h|h|h|⟨-,-,-,-,h⟩
  · obtain ⟨hlater,hshared⟩ := hgap.configured hconsidered hdiscover a h hnarrow
    have hrouter : isRouter m.contexts a=false := by
      obtain ⟨_,_,_,_,hrouter,_⟩ := h
      exact hrouter
    exact ⟨routers_of_isRouter hrouter hlater,hshared,unleased_of_takesConfigured hc h⟩
  · have hlater := hgap.leased hconsidered hdiscover a h
    obtain ⟨-,hclient,havailable,hunreserved⟩ := h
    exact ⟨routers_of_isRouter (isRouter_of_available havailable) hlater,
      unshared_of_configFindByAddress (Option.isNone_iff_eq_none.mp hunreserved),
      unleased_of_clientLease hc hclient⟩
  · have hlater := hgap.requested hconsidered hdiscover a h
    obtain ⟨-,-,-,⟨havailable,hunreserved⟩,hfree⟩ := h
    exact ⟨routers_of_isRouter (isRouter_of_available havailable) hlater,
      unshared_of_configFindByAddress (Option.isNone_iff_eq_none.mp hunreserved),
      unleased_of_findByAddr (Option.isNone_iff_eq_none.mp hfree)⟩
  · obtain ⟨hrouters,hfree,hunreserved⟩ := addressAllocate_safe h
    exact ⟨hrouters,unshared_of_configFindByAddress hunreserved,unleased_of_findByAddr hfree⟩

/-- No gap is between what is compared and what is acknowledged. -/
theorem safe_of_ack (hc : Consistent options db) (hcurrent : Current db m.now)
    (hgap : NoGap server db m) (hconsidered : Considered m) (hrequest : m.messType=dhcpRequest)
    {p : Admission} (hadmitted : admitted server db m=some p) {context : Context}
    (hp : Passes server db m p context) :
    (∀ c∈m.contexts, c.router≠p.addr) ∧ Unshared server m p.addr ∧ Unleased db m p.addr := by
  obtain ⟨hrouters,hshared⟩ := hgap.granted hconsidered hrequest p hadmitted context hp
  refine ⟨fun c hcm => ?_,hshared,unleased_of_passes hc hcurrent hadmitted hp⟩
  rcases hp.available with havailable|hconfigured
  · by_cases hsame : c=context
    · have hrouter := isRouter_of_available havailable
      rw [isRouter_cons] at hrouter
      rw [hsame]
      simpa using hrouter
    · exact hrouters c hcm (Or.inl hsame)
  · exact hrouters c hcm (Or.inr hconfigured)

/-- Where an answer falls into a gap, it is not safe. -/
theorem noGap_of_answersSafely (h : AnswersSafely options server db m) : NoGap server db m := by
  have hlater : ∀ {a}, (∀ c∈m.contexts, c.router≠a) → ¬LaterRouter m a := by
    rintro a hrouters ⟨c,hc,hrouter⟩
    exact hrouters c (List.mem_of_mem_tail hc) hrouter
  have hoffer : Considered m → m.messType=dhcpDiscover → ∀ a, discoverAddr server db m=some a →
      (narrowContext m.contexts a m.netids).isSome=true →
      (∀ c∈m.contexts, c.router≠a) ∧ Unshared server m a ∧ Unleased db m a := by
    intro hconsidered hdiscover a haddr hnarrow
    exact h a (grantedAddr_eq_some.mp
      (dhcpReply_grants.mpr ⟨hconsidered,Or.inl ⟨hdiscover,haddr,hnarrow⟩⟩))
  refine ⟨fun hconsidered hdiscover a ha hnarrow => ?_,fun hconsidered hdiscover a ha => ?_,
    fun hconsidered hdiscover a ha => ?_,fun hconsidered hrequest p hp context hpasses => ?_⟩
  · have hsafe := hoffer hconsidered hdiscover a (discoverAddr_eq_some.mpr (Or.inl ha)) hnarrow
    exact ⟨hlater hsafe.1,hsafe.2.1⟩
  · have hsafe := hoffer hconsidered hdiscover a
      (discoverAddr_eq_some.mpr (Or.inr (Or.inl ha))) (narrowContext_of_available ha.2.2.1)
    exact hlater hsafe.1
  · have hsafe := hoffer hconsidered hdiscover a
      (discoverAddr_eq_some.mpr (Or.inr (Or.inr (Or.inl ha))))
      (narrowContext_of_available ha.2.2.2.1.1)
    exact hlater hsafe.1
  · have hsafe := h p.addr (grantedAddr_eq_some.mp (dhcpReply_grants.mpr
      ⟨hconsidered,Or.inr ⟨hrequest,p,hp,rfl,context,hpasses⟩⟩))
    exact ⟨fun c hc _ => hsafe.1 c hc,hsafe.2.1⟩

end Answers

/-- The network 192.168.1.0, with the router 192.168.1.1. -/
def firstNetwork : Context :=
  ⟨0xc0a8010a,0xc0a80164,0xffffff00,0xc0a80101,0xc0a80101,0,false,false,[]⟩

/-- The network 192.168.2.0, with the router 192.168.2.1, in its range. -/
def secondNetwork : Context :=
  ⟨0xc0a80201,0xc0a80264,0xffffff00,0xc0a80201,0xc0a80201,0,false,false,[]⟩

/-- A server without configurations. -/
def plainServer : Server := ⟨[],false,fun _ => none,fun _ => false⟩

/-- A `DHCPDISCOVER` on both networks that asks for 192.168.2.1. -/
def asksForRouter : Request where
  messType := dhcpDiscover
  now := 100
  htype := 1
  chaddr := [2,0,0,0,0,1]
  clid := []
  ciaddr := 0
  requestedIp := some 0xc0a80201
  serverIdentifier := none
  override := 0
  contexts := [firstNetwork,secondNetwork]
  config := none
  netids := []
  ignore := false
  pxe := false
  bootpDynamic := false
  ignoreNames := false
  hostname := none
  hostnameAuth := false
  time := 3600

end AndroidPlatform.DhcpAddressSafety
