import AndroidPlatform.DhcpLeases

/-!
# The DHCP server and its leases

What `dhcp_reply` does with the leases: it finds the lease of a client, chooses
an address, and makes, changes or removes leases. A request carries what the
function knows when it comes to the message type: the packet, the chain of
contexts, the configuration of the host, the tags and the name. Addresses are in
host order. Texts of options, logging and the epochs of contexts between two
packets are left out.
-/

namespace AndroidPlatform.DhcpServer

open DhcpLeases

/-! ## Contexts and configurations -/

/-- The name of a network, a tag. -/
abbrev Tag := List UInt8

/-- `struct dhcp_context` -/
structure Context where
  /-- `start` -/
  start : UInt32
  /-- `end` -/
  endAddr : UInt32
  /-- `netmask` -/
  netmask : UInt32
  /-- `router` -/
  router : UInt32
  /-- `local` -/
  localAddr : UInt32
  /-- `addr_epoch` -/
  addrEpoch : UInt32
  /-- `CONTEXT_STATIC` -/
  isStatic : Bool
  /-- `CONTEXT_PROXY` -/
  isProxy : Bool
  /-- `filter` -/
  filter : List Tag
  deriving DecidableEq

/-- `struct hwaddr_config` -/
structure HwaddrConfig where
  /-- `hwaddr` and `hwaddr_len` -/
  hwaddr : List UInt8
  /-- `hwaddr_type` -/
  hwType : ℤ
  /-- `wildcard_mask` -/
  wildcardMask : ℕ
  deriving DecidableEq

/-- `struct dhcp_config` -/
structure HostConfig where
  /-- Which structure in memory it is. -/
  ident : ℕ
  /-- `addr`, with `CONFIG_ADDR`. -/
  addr : Option UInt32
  /-- `hostname`, with `CONFIG_NAME`. -/
  hostname : Option (List UInt8)
  /-- `lease_time`, with `CONFIG_TIME`. -/
  leaseTime : Option UInt32
  /-- `decline_time`, with `CONFIG_DECLINED`. -/
  declineTime : Option ℤ
  /-- `CONFIG_DISABLE` -/
  disable : Bool
  /-- `CONFIG_NOCLID` -/
  noclid : Bool
  /-- `hwaddr` -/
  hwaddr : List HwaddrConfig
  deriving DecidableEq

/-- `match_netid` -/
def matchNetid (check pool : List Tag) (tagnotneeded : Bool) : Bool :=
  if check=[] ∧ tagnotneeded=false then false
  else
    check.all fun tag =>
      match tag with
      | 35::rest => decide (rest∉pool)
      | _ => decide (tag∈pool)

/-- `is_same_net` -/
def isSameNet (a b mask : UInt32) : Bool := decide (a&&&mask=b&&&mask)

/-- The address is in the range of a context. -/
def inRange (addr : UInt32) (netids : List Tag) (tmp : Context) : Bool :=
  !tmp.isStatic && decide (tmp.start≤addr) && decide (addr≤tmp.endAddr) &&
    matchNetid tmp.filter netids true

/-- The loops over `tmp` that compare an address with the router of `context`,
the first of the chain. -/
def isRouter (contexts : List Context) (addr : UInt32) : Bool :=
  match contexts with
  | [] => false
  | context::_ => contexts.any fun _ => decide (context.router=addr)

/-- `address_available` -/
def addressAvailable (contexts : List Context) (taddr : UInt32) (netids : List Tag) :
    Option Context :=
  if isRouter contexts taddr=true then none else contexts.find? (inRange taddr netids)

/-- `narrow_context` -/
def narrowContext (contexts : List Context) (taddr : UInt32) (netids : List Tag) :
    Option Context :=
  (addressAvailable contexts taddr netids).or
    ((contexts.find? fun tmp => isSameNet taddr tmp.start tmp.netmask && tmp.isStatic).or
      (contexts.find? fun tmp => isSameNet taddr tmp.start tmp.netmask))

/-- `config_find_by_address` -/
def configFindByAddress (configs : List HostConfig) (addr : UInt32) : Option HostConfig :=
  configs.find? fun config => decide (config.addr=some addr)

/-- `config_has_mac`, for the hardware address of a lease. -/
def configHasMac (config : HostConfig) (hwaddr : Option (List UInt8)) (hwType : ℤ) : Bool :=
  config.hwaddr.any fun confAddr =>
    decide (confAddr.wildcardMask=0 ∧ hwaddr=some confAddr.hwaddr ∧
      (confAddr.hwType=hwType ∨ confAddr.hwType=0))

/-! ## Choosing a free address -/

/-- `IN_CLASSC` -/
def inClassc (addr : UInt32) : Bool := decide (addr&&&0xe0000000=0xc0000000)

section

variable (configs : List HostConfig) (busy : UInt32 → Bool) (db : Db)

/-- The address may be handed out: no router, no lease and no configuration has
it, and it does not end like a network or a broadcast address. -/
def isFree (contexts : List Context) (addr : UInt32) : Bool :=
  contexts.all (fun d => decide (addr≠d.router)) && (db.findByAddr addr).isNone &&
    (configFindByAddress configs addr).isNone &&
    (!inClassc addr || decide (addr&&&0xff≠0xff ∧ addr&&&0xff≠0))

/-- The addresses of a context, from the one that belongs to the client, and
round. -/
def candidates (c : Context) (j : UInt32) : List UInt32 :=
  let size := (c.endAddr-c.start).toNat+1
  let first := (j+c.addrEpoch).toNat%size
  (List.range size).map fun i => c.start+UInt32.ofNat ((first+i)%size)

/-- The loop over the addresses of one context: the first free one that nobody
answers from, and the context, whose epoch counts the others. -/
def allocateFrom (contexts : List Context) (c : Context) : List UInt32 → Option UInt32×Context
  | [] => (none,c)
  | addr::rest =>
    if isFree configs db contexts addr=true then
      if busy addr=true then allocateFrom contexts {c with addrEpoch := c.addrEpoch+1} rest
      else (some addr,c)
    else allocateFrom contexts c rest

/-- One pass of `address_allocate` over the contexts. -/
def allocatePass (contexts : List Context) (netids : List Tag) (pass : Bool) (j : UInt32) :
    List Context → Option UInt32×List Context
  | [] => (none,[])
  | c::rest =>
    if c.isStatic=true ∨ matchNetid c.filter netids pass=false then
      let later := allocatePass contexts netids pass j rest
      (later.1,c::later.2)
    else
      match allocateFrom configs busy db contexts c (candidates c j) with
      | (some addr,c) => (some addr,c::rest)
      | (none,c) =>
        let later := allocatePass contexts netids pass j rest
        (later.1,c::later.2)

/-- The number that a hardware address stands for. -/
def hashHwaddr (hwaddr : List UInt8) : UInt32 :=
  hwaddr.foldl (fun j b => j+b.toUInt32+b.toUInt32*256+b.toUInt32*65536) 0

/-- `address_allocate`, with what `icmp_ping` would say. -/
def addressAllocate (contexts : List Context) (hwaddr : List UInt8) (netids : List Tag) :
    Option UInt32 :=
  let j := hashHwaddr hwaddr
  match allocatePass configs busy db contexts netids false j contexts with
  | (some addr,_) => some addr
  | (none,contexts) => (allocatePass configs busy db contexts netids true j contexts).1

end

section

variable {db : Db} {a : UInt32}

theorem isFree_spec {configs : List HostConfig} {contexts : List Context}
    (h : isFree configs db contexts a=true) :
    (∀ c∈contexts, c.router≠a) ∧ db.findByAddr a=none ∧ configFindByAddress configs a=none := by
  unfold isFree at h
  simp only [Bool.and_eq_true,Option.isNone_iff_eq_none,List.all_eq_true] at h
  refine ⟨fun c hc heq => ?_,h.1.1.2,h.1.2⟩
  have hne := h.1.1.1 c hc
  simp [heq] at hne

/-- What is chosen is free. -/
theorem allocateFrom_free {configs : List HostConfig} {busy : UInt32 → Bool}
    {contexts : List Context} {addrs : List UInt32} {c : Context} {addr : UInt32}
    (h : (allocateFrom configs busy db contexts c addrs).1=some addr) :
    isFree configs db contexts addr=true := by
  induction addrs generalizing c with
  | nil => cases h
  | cons first rest ih =>
    rw [allocateFrom] at h
    split at h
    · rename_i hfree
      split at h
      · exact ih h
      · cases h
        exact hfree
    · exact ih h

theorem allocatePass_free {configs : List HostConfig} {busy : UInt32 → Bool}
    {contexts rest : List Context} {netids : List Tag} {pass : Bool} {j addr : UInt32}
    (h : (allocatePass configs busy db contexts netids pass j rest).1=some addr) :
    isFree configs db contexts addr=true := by
  induction rest with
  | nil => cases h
  | cons c rest ih =>
    rw [allocatePass] at h
    split at h
    · exact ih h
    · split at h
      · rename_i found _ hfrom
        cases h
        exact @allocateFrom_free db configs busy contexts (candidates c j) c addr (by rw [hfrom])
      · exact ih h

theorem allocateFrom_router {configs : List HostConfig} {busy : UInt32 → Bool}
    {contexts : List Context} (addrs : List UInt32) (c : Context) :
    (allocateFrom configs busy db contexts c addrs).2.router=c.router := by
  induction addrs generalizing c with
  | nil => rfl
  | cons first rest ih =>
    rw [allocateFrom]
    split
    · split
      · rw [ih]
      · rfl
    · exact ih c

theorem allocatePass_routers {configs : List HostConfig} {busy : UInt32 → Bool}
    {contexts : List Context} {netids : List Tag} {pass : Bool} {j : UInt32}
    (rest : List Context) :
    (allocatePass configs busy db contexts netids pass j rest).2.map Context.router=
      rest.map Context.router := by
  induction rest with
  | nil => rfl
  | cons c rest ih =>
    rw [allocatePass]
    split
    · rw [List.map_cons,List.map_cons,ih]
    · have hrouter := @allocateFrom_router db configs busy contexts (candidates c j) c
      split
      · rename_i found c' hfrom
        rw [hfrom] at hrouter
        rw [List.map_cons,List.map_cons,←hrouter]
      · rename_i c' hfrom
        rw [hfrom] at hrouter
        rw [List.map_cons,List.map_cons,ih,←hrouter]

/-- The chosen address is no router, no lease and no configuration has it. -/
theorem addressAllocate_safe {configs : List HostConfig} {busy : UInt32 → Bool}
    {contexts : List Context} {hwaddr : List UInt8} {netids : List Tag}
    (h : addressAllocate configs busy db contexts hwaddr netids=some a) :
    (∀ c∈contexts, c.router≠a) ∧ db.findByAddr a=none ∧ configFindByAddress configs a=none := by
  unfold addressAllocate at h
  dsimp only at h
  split at h
  · rename_i found _ hpass
    cases h
    exact isFree_spec (@allocatePass_free db configs busy contexts contexts netids false _ a
      (by rw [hpass]))
  · rename_i contexts' hpass
    have hrouters := @allocatePass_routers db configs busy contexts netids false
      (hashHwaddr hwaddr) contexts
    rw [hpass] at hrouters
    obtain ⟨hsafe,hrest⟩ := isFree_spec (allocatePass_free h)
    refine ⟨fun c hc heq => ?_,hrest⟩
    have hmem : a∈contexts'.map Context.router := by
      rw [hrouters,←heq]
      exact List.mem_map_of_mem hc
    obtain ⟨d,hd,hda⟩ := List.mem_map.mp hmem
    exact hsafe d hd hda

end

/-! ## Requests -/

/-- What the server knows beside the packet. -/
structure Server where
  /-- `dhcp_conf` -/
  configs : List HostConfig
  /-- `OPT_AUTHORITATIVE` -/
  authoritative : Bool
  /-- `host_from_dns` -/
  hostFromDns : UInt32 → Option (List UInt8)
  /-- `icmp_ping`, as far as it is asked. -/
  busy : UInt32 → Bool

/-- What is known of a packet when its type is looked at. -/
structure Request where
  /-- `mess_type`, zero for BOOTP. -/
  messType : ℕ
  /-- `now` -/
  now : ℤ
  /-- `htype` -/
  htype : ℤ
  /-- `chaddr` and `hlen` -/
  chaddr : List UInt8
  /-- `OPTION_CLIENT_ID` -/
  clid : List UInt8
  /-- `ciaddr` -/
  ciaddr : UInt32
  /-- `OPTION_REQUESTED_IP` -/
  requestedIp : Option UInt32
  /-- `OPTION_SERVER_IDENTIFIER` -/
  serverIdentifier : Option UInt32
  /-- `override` -/
  override : UInt32
  /-- The chain of contexts. -/
  contexts : List Context
  /-- The configuration of the host. -/
  config : Option HostConfig
  /-- The tags. -/
  netids : List Tag
  /-- `ignore` -/
  ignore : Bool
  /-- A PXE client has been answered, without a lease. -/
  pxe : Bool
  /-- A list of `bootp_dynamic` matches. -/
  bootpDynamic : Bool
  /-- A list of `dhcp_ignore_names` matches. -/
  ignoreNames : Bool
  /-- `hostname` -/
  hostname : Option (List UInt8)
  /-- `hostname_auth` -/
  hostnameAuth : Bool
  /-- The value of `calc_time`. -/
  time : UInt32

/-- An answer, with `yiaddr`. -/
inductive Answer where
  | bootp (yiaddr : UInt32)
  | offer (yiaddr : UInt32)
  | ack (yiaddr : UInt32)
  | nak
  | inform
  deriving DecidableEq

/-- `DHCPDISCOVER` and the others. -/
def dhcpDiscover : ℕ := 1

/-- `DHCPREQUEST` -/
def dhcpRequest : ℕ := 3

/-- `DHCPDECLINE` -/
def dhcpDecline : ℕ := 4

/-- `DHCPRELEASE` -/
def dhcpRelease : ℕ := 7

/-- `DHCPINFORM` -/
def dhcpInform : ℕ := 8

/-- `DECLINE_BACKOFF` -/
def declineBackoff : ℤ := 600

/-- `server_id` -/
def serverId (m : Request) (context : Context) : UInt32 :=
  if m.override≠0 then m.override
  else if context.localAddr≠0 then context.localAddr
  else (m.contexts.head?.map Context.localAddr).getD 0

/-- `extended_hwaddr` -/
def extendedHwaddr (htype : ℤ) (hwaddr clid : List UInt8) : List UInt8 :=
  if hwaddr=[] ∧ 3 < clid.length then
    match clid with
    | first::rest =>
      if (first.toNat : ℤ)=htype ∨ (first=27 ∧ htype=24) then rest else clid
    | [] => clid
  else hwaddr

/-- The configuration has an address. -/
def configAddr (m : Request) : Option UInt32 := m.config.bind HostConfig.addr

/-- `have_config(config, CONFIG_DISABLE)` -/
def isDisabled (m : Request) : Bool :=
  match m.config with
  | some config => config.disable
  | none => false

/-- `ciaddr`, which is not looked at beside a requested address. -/
def clientAddr (m : Request) : UInt32 :=
  if m.requestedIp.isSome=true ∨ m.messType=dhcpDiscover then 0 else m.ciaddr

/-- The lease that `dhcp_reply` finds for the client. -/
def clientLease (db : Db) (m : Request) : Option Lease :=
  db.findByClient m.chaddr m.htype m.clid

/-- `clid`, of the packet or of the lease. -/
def clientId (db : Db) (m : Request) : List UInt8 :=
  if m.clid=[] then ((clientLease db m).map Lease.clid).getD [] else m.clid

/-- `emac` -/
def emac (db : Db) (m : Request) : List UInt8 :=
  extendedHwaddr m.htype m.chaddr (clientId db m)

/-- What a new or renewed lease is filled with. -/
def fillLease (options : Options) (db : Db) (ident : ℕ) (chaddr clid : List UInt8) (htype : ℤ)
    (hostname : Option (List UInt8)) (auth : Bool) (time : UInt32) (now : ℤ) : Db :=
  let db := db.update ident fun lease => lease.setHwaddr chaddr clid htype
  let db :=
    match hostname with
    | none => db
    | some name => db.setHostname options ident (some name) auth
  db.update ident fun lease => lease.setExpires time now

/-! ## Answers -/

section

variable (options : Options) (server : Server)

/-- The BOOTP branch of `dhcp_reply` when a lease or an address is known. -/
def bootpLease (db : Db) (m : Request) (lease : Option Lease) (yiaddr : UInt32) (nailed : Bool) :
    Db×Option Answer :=
  if (narrowContext m.contexts yiaddr m.netids).isNone=true then (db,none)
  else if nailed=false ∧ m.bootpDynamic=false then (db,none)
  else
    let made : Option (Db×ℕ) :=
      match lease with
      | some lease => some (db,lease.ident)
      | none => (db.allocate yiaddr).map fun after => (after,db.nextIdent)
    match made with
    | none => (db,none)
    | some (db,ident) =>
      (fillLease options db ident m.chaddr [] m.htype (m.config.bind HostConfig.hostname) true
        ((m.config.bind HostConfig.leaseTime).getD 0xffffffff) m.now,some (.bootp yiaddr))

/-- The BOOTP branch of `dhcp_reply`. -/
def bootpReply (db : Db) (m : Request) : Db×Option Answer :=
  if m.htype=0 ∨ m.chaddr=[] ∨ (m.contexts.head?.map Context.isProxy)=some true then (db,none)
  else if isDisabled m=true ∨ m.ignore=true then (db,none)
  else
    match configAddr m with
    | some addr =>
      match db.findByAddr addr with
      | some lease =>
        if lease.hwaddr≠some m.chaddr ∨ lease.hwType≠m.htype then (db,none)
        else bootpLease options db m (some lease) addr true
      | none => bootpLease options db m none addr true
    | none =>
      match db.findByClient m.chaddr m.htype [] with
      | some lease =>
        if (addressAvailable m.contexts lease.addr m.netids).isSome=true then
          bootpLease options db m (some lease) lease.addr false
        else
          let db := db.prune (some lease.ident) m.now
          match addressAllocate server.configs server.busy db m.contexts m.chaddr m.netids with
          | none => (db,none)
          | some addr => bootpLease options db m none addr false
      | none =>
        match addressAllocate server.configs server.busy db m.contexts m.chaddr m.netids with
        | none => (db,none)
        | some addr => bootpLease options db m none addr false

/-- The case `DHCPDECLINE`. -/
def declineReply (db : Db) (m : Request) : Db×Option Answer :=
  match m.contexts.head?,m.serverIdentifier,m.requestedIp with
  | some context,some id,some addr =>
    if id≠serverId m context then (db,none)
    else
      match clientLease db m with
      | some lease => if lease.addr=addr then (db.prune (some lease.ident) m.now,none) else (db,none)
      | none => (db,none)
  | _,_,_ => (db,none)

/-- The case `DHCPRELEASE`. -/
def releaseReply (db : Db) (m : Request) : Db×Option Answer :=
  match narrowContext m.contexts (clientAddr m) m.netids,m.serverIdentifier with
  | some context,some id =>
    if id≠serverId m context then (db,none)
    else
      match clientLease db m with
      | some lease =>
        if lease.addr=clientAddr m then (db.prune (some lease.ident) m.now,none) else (db,none)
      | none => (db,none)
  | _,_ => (db,none)

/-- A configured address is leased to another client, whose hardware address the
configuration does not list. -/
def isLeased (db : Db) (m : Request) (config : HostConfig) (addr : UInt32) : Bool :=
  match db.findByAddr addr with
  | some ltmp =>
    decide (some ltmp.ident≠(clientLease db m).map Lease.ident) &&
      !configHasMac config ltmp.hwaddr ltmp.hwType
  | none => false

/-- The configured address was declined a short while ago. -/
def isDeclined (m : Request) (config : HostConfig) : Bool :=
  match config.declineTime with
  | some time => decide (m.now-time<declineBackoff)
  | none => false

/-- The configured address that `DHCPDISCOVER` uses. -/
def discoverConfig (db : Db) (m : Request) : Option UInt32 :=
  m.config.bind fun config => config.addr.bind fun addr =>
    if isLeased db m config addr=true ∨ isRouter m.contexts addr=true ∨
        isDeclined m config=true ∨ addr=0 then none
    else some addr

/-- The address that `DHCPDISCOVER` offers. -/
def discoverAddr (db : Db) (m : Request) : Option UInt32 :=
  let isUnreserved := fun addr => (configFindByAddress server.configs addr).isNone
  let isAvailable := fun addr => (addressAvailable m.contexts addr m.netids).isSome
  let ofLease := (clientLease db m).bind fun lease =>
    if isAvailable lease.addr=true ∧ isUnreserved lease.addr=true then some lease.addr else none
  let ofRequest := m.requestedIp.bind fun addr =>
    if isAvailable addr=true ∧ (db.findByAddr addr).isNone=true ∧ isUnreserved addr=true then
      some addr
    else none
  (discoverConfig db m).or (ofLease.or (ofRequest.or
    (if emac db m=[] then none
    else addressAllocate server.configs server.busy db m.contexts (emac db m) m.netids)))

/-- The case `DHCPDISCOVER`. -/
def discoverReply (db : Db) (m : Request) : Db×Option Answer :=
  if m.ignore=true ∨ isDisabled m=true then (db,none)
  else
    match discoverAddr server db m with
    | none => (db,none)
    | some addr =>
      if (narrowContext m.contexts addr m.netids).isNone=true then (db,none)
      else (db,some (.offer addr))

/-- The name of a lease that is acknowledged, and whether it is sure. -/
def ackName (m : Request) (yiaddr : UInt32) : Option (List UInt8)×Bool :=
  if m.hostnameAuth=true then (m.hostname,true)
  else
    match server.hostFromDns yiaddr with
    | some name => (some name,true)
    | none => (if m.ignoreNames=true then none else m.hostname,false)

/-- The rest of `DHCPREQUEST` when nothing speaks against the address. -/
def ackLease (db : Db) (m : Request) (clid : List UInt8) (lease : Option Lease) (yiaddr : UInt32) :
    Db×Option Answer :=
  let made : Option (Db×ℕ) :=
    match lease with
    | some lease => some (db,lease.ident)
    | none => (db.allocate yiaddr).map fun after => (after,db.nextIdent)
  match made with
  | none => (db,some .nak)
  | some (db,ident) =>
    let name := ackName server m yiaddr
    let db := fillLease options db ident m.chaddr clid m.htype name.1 name.2 m.time m.now
    let db :=
      if m.override≠0 then db.update ident fun lease => {lease with override := m.override}
      else db
    (db,some (.ack yiaddr))

/-- A configured address is due to the client instead of the one it asks for. -/
def staticLeaseAvailable (db : Db) (m : Request) (contexts : List Context) (lease : Option Lease)
    (selecting : Bool) (yiaddr : UInt32) : Bool :=
  match m.config with
  | none => false
  | some config =>
    match config.addr with
    | none => false
    | some addr =>
      !isRouter contexts addr && !selecting &&
        (match config.declineTime with
        | some time => decide (m.now-time>declineBackoff)
        | none => true) &&
        decide (addr≠yiaddr) &&
        (match db.findByAddr addr with
        | some ltmp => decide (some ltmp.ident=lease.map Lease.ident)
        | none => true)

/-- Another configuration has the address. -/
def isReserved (m : Request) (addr : UInt32) : Bool :=
  match configFindByAddress server.configs addr with
  | some addrConfig => decide (some addrConfig.ident≠m.config.map HostConfig.ident)
  | none => false

/-- The configuration of the client lists the hardware address of a lease. -/
def listsLease (m : Request) (lease : Lease) : Bool :=
  match m.config with
  | some config => configHasMac config lease.hwaddr lease.hwType
  | none => false

/-- The client has no lease for the address that it uses. -/
def leaseNotFound (m : Request) (lease : Option Lease) : Bool :=
  match lease with
  | some lease => decide (clientAddr m≠lease.addr)
  | none => !server.authoritative

/-- The checks of `DHCPREQUEST` when the lease of the client is known. -/
def requestChecks (db : Db) (m : Request) (clid : List UInt8) (contexts : List Context)
    (lease : Option Lease) (selecting : Bool) (yiaddr : UInt32) (emac : List UInt8) :
    Db×Option Answer :=
  match narrowContext contexts yiaddr m.netids with
  | none => (db,some .nak)
  | some context =>
    if (addressAvailable [context] yiaddr m.netids).isNone=true ∧ configAddr m≠some yiaddr then
      (db,some .nak)
    else if staticLeaseAvailable db m contexts lease selecting yiaddr=true then (db,some .nak)
    else if isReserved server m yiaddr=true then (db,some .nak)
    else
      match lease,db.findByAddr yiaddr with
      | none,some ltmp =>
        if listsLease m ltmp=true then
          if emac=[] then (db,some .nak) else ackLease options server db m clid (some ltmp) yiaddr
        else (db,some .nak)
      | lease,_ =>
        if emac=[] then (db,some .nak) else ackLease options server db m clid lease yiaddr

/-- The leases, and that of the client, when it asks for an address: a lease of
another address is given up. -/
def settle (db : Db) (m : Request) (yiaddr : UInt32) : Db×Option Lease :=
  match clientLease db m with
  | some lease =>
    if lease.addr≠yiaddr then (db.prune (some lease.ident) m.now,none) else (db,some lease)
  | none => (db,none)

/-- The case `DHCPREQUEST`. -/
def requestReply (db : Db) (m : Request) : Db×Option Answer :=
  if m.ignore=true ∨ isDisabled m=true then (db,none)
  else
    let lease := clientLease db m
    let clid := if (m.config.map HostConfig.noclid)=some true then [] else clientId db m
    let emac := emac db m
    match m.requestedIp with
    | some yiaddr =>
      let settled := settle db m yiaddr
      match m.serverIdentifier with
      | some id =>
        if m.override≠0 then
          if id≠m.override then (db,none)
          else
            requestChecks options server settled.1 m clid m.contexts settled.2 true yiaddr emac
        else
          match m.contexts.dropWhile fun context => decide (context.localAddr≠id) with
          | [] => if server.authoritative=false then (db,none) else (settled.1,some .nak)
          | contexts =>
            requestChecks options server settled.1 m clid contexts settled.2 true yiaddr emac
      | none =>
        if lease.isNone=true ∧ server.authoritative=false then (db,none)
        else if lease.isSome=true ∧ settled.2.isNone=true then (settled.1,some .nak)
        else requestChecks options server settled.1 m clid m.contexts settled.2 false yiaddr emac
    | none =>
      if leaseNotFound server m lease=true then (db,some .nak)
      else requestChecks options server db m clid m.contexts lease false (clientAddr m) emac

/-- The case `DHCPINFORM`. -/
def informReply (db : Db) (m : Request) : Db×Option Answer :=
  if m.ignore=true ∨ isDisabled m=true ∨ clientAddr m=0 then (db,none)
  else
    match (clientLease db m).or (db.findByAddr (clientAddr m)) with
    | some lease =>
      (if m.override≠0 then db.update lease.ident fun lease => {lease with override := m.override}
        else db,some .inform)
    | none => (db,some .inform)

/-- `dhcp_reply`, from the message type on. -/
def dhcpReply (db : Db) (m : Request) : Db×Option Answer :=
  if m.contexts=[] then (db,none)
  else if m.messType=0 then bootpReply options server db m
  else if m.pxe=true ∨ (m.contexts.head?.map Context.isProxy)=some true then (db,none)
  else if m.messType=dhcpDecline then declineReply db m
  else if m.messType=dhcpRelease then releaseReply db m
  else if m.messType=dhcpDiscover then discoverReply server db m
  else if m.messType=dhcpRequest then requestReply options server db m
  else if m.messType=dhcpInform then informReply db m
  else (db,none)

/-- One packet: expired leases go first. -/
def handlePacket (db : Db) (m : Request) : Db×Option Answer :=
  dhcpReply options server (db.prune none m.now) m

/-- The leases after a sequence of packets. The rest of the server may be
another one for every packet. -/
def run (db : Db) : List (Server×Request) → Db
  | [] => db
  | (server,m)::rest => run (handlePacket options server db m).1 rest

end

end AndroidPlatform.DhcpServer
