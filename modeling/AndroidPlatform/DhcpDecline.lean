import AndroidPlatform.LeaseFile
import Mathlib.Data.List.Range

/-!
# The change of subnet after a DHCPDECLINE

On the MirrorLink interface a declined address makes the server look for a
context outside the networks of all local addresses and move the interface into
it. The contexts are marked through their `current` links, and the text of the
new address is passed on in the buffer `dhcp_buff`, where the text that the
client has sent stands before. Addresses are in host order.
-/

namespace AndroidPlatform.DhcpDecline

open TextScanning LeaseFile

/-- The part of a `dhcp_context` that the branch reads. -/
structure Context where
  /-- First address of the range. -/
  start : UInt32
  /-- Last address of the range. -/
  endAddr : UInt32
  deriving DecidableEq

/-- An address that `iface_enumerate` reports, with its netmask. -/
structure LocalAddress where
  /-- The address. -/
  addr : UInt32
  /-- Its netmask. -/
  netmask : UInt32
  deriving DecidableEq

/-- The options of the message, as `option_find` gives them. -/
structure Decline where
  /-- `OPTION_SERVER_IDENTIFIER`. -/
  serverIdentifier : Option UInt32
  /-- The bytes of `OPTION_MESSAGE`. -/
  message : Option (List UInt8)
  /-- `OPTION_REQUESTED_IP`. -/
  requestedIp : Option UInt32

/-- `ML_IFACE`. -/
def mlIface : String := "ncm0"

/-- What the case finds on the server. -/
structure Host where
  /-- `iface_name`. -/
  ifaceName : String
  /-- The value of `server_id`. -/
  serverId : UInt32
  /-- Address of the client's lease, if it has one. -/
  leaseAddr : Option UInt32
  /-- Address of the static configuration, if there is one. -/
  configAddr : Option UInt32
  /-- `daemon->dhcp`. -/
  contexts : List Context
  /-- The addresses that the enumeration reports. -/
  addresses : List LocalAddress
  /-- Whether the enumeration succeeds. -/
  enumerated : Bool
  /-- Return value of `ifc_init`. -/
  ifcInit : ℤ
  /-- The address that `ifc_get_addr` leaves in `iface_addr`. -/
  ifaceAddr : UInt32

/-- An effect of the case. -/
inductive Action where
  /-- `lease_prune` of the client's lease. -/
  | pruneLease
  /-- The static address is disabled for a time. -/
  | declineStatic (addr : UInt32)
  /-- The epochs of the contexts are advanced. -/
  | advanceEpochs
  /-- `ifc_remove_host_routes`. -/
  | removeHostRoutes
  /-- `ifc_del_address`. -/
  | delAddress (address : List UInt8) (prefixLength : ℕ)
  /-- `ifc_add_address`. -/
  | addAddress (address : List UInt8) (prefixLength : ℕ)
  /-- The command that adds a route to this network of twenty-four bits. -/
  | addRoute (network : List UInt8)
  deriving DecidableEq

/-- The action changes addresses or routes of the interface. -/
def Action.changesInterface : Action → Bool
  | .pruneLease => false
  | .declineStatic _ => false
  | .advanceEpochs => false
  | .removeHostRoutes => true
  | .delAddress _ _ => true
  | .addAddress _ _ => true
  | .addRoute _ => true

/-- `isprint` -/
def isPrint (c : UInt8) : Bool := decide (32≤c ∧ c≤126)

/-- `sanitise`: the printable characters of the option. -/
def sanitise (opt : Option (List UInt8)) : List UInt8 :=
  match opt with
  | none => []
  | some bytes => bytes.filter isPrint

/-- `is_same_net` -/
def isSameNet (a b mask : UInt32) : Bool := decide (a&&&mask=b&&&mask)

/-- The `next` link of a context, by its place in the list. -/
def nextLink (contexts : List Context) (i : ℕ) : Option ℕ :=
  if i+1<contexts.length then some (i+1) else none

/-- The test of `find_context` for one context: its range is in the network of
the address, or is a single address. -/
def matchesNet (a : LocalAddress) (c : Context) : Bool :=
  (isSameNet a.addr c.start a.netmask && isSameNet a.addr c.endAddr a.netmask) ||
    decide (c.start=c.endAddr)

/-- `find_context`: a context that matches and still carries its `next` link
in `current` gets a link to itself. -/
def findContext (contexts : List Context) (current : ℕ → Option ℕ) (a : LocalAddress) :
    ℕ → Option ℕ := fun i =>
  match contexts[i]? with
  | none => current i
  | some c =>
    if matchesNet a c=true ∧ nextLink contexts i=current i then some i else current i

/-- The links after all callbacks of the enumeration. -/
def marked (host : Host) : ℕ → Option ℕ :=
  host.addresses.foldl (findContext host.contexts) (nextLink host.contexts)

/-- The first context whose `current` link is still its `next` link. -/
def availableContext (host : Host) : Option Context :=
  ((List.range host.contexts.length).find?
    fun i => decide (marked host i=nextLink host.contexts i)).bind fun i => host.contexts[i]?

/-- `inet_aton` -/
def inetAton (text : List UInt8) : Option UInt32 :=
  match (text.splitOn 46).mapM inetPart with
  | some [a,b,c,d] =>
    if a<2^8 ∧ b<2^8 ∧ c<2^8 ∧ d<2^8 then some (UInt32.ofNat (2^24*a+2^16*b+2^8*c+d)) else none
  | some [a,b,c] =>
    if a<2^8 ∧ b<2^8 ∧ c<2^16 then some (UInt32.ofNat (2^24*a+2^16*b+c)) else none
  | some [a,b] => if a<2^8 ∧ b<2^24 then some (UInt32.ofNat (2^24*a+b)) else none
  | some [a] => if a<2^32 then some (UInt32.ofNat a) else none
  | _ => none

/-- `prefixLengthToIpv4Netmask(24)`. -/
def mask24 : UInt32 := 0xffffff00

/-- The network of twenty-four bits in which an address lies. -/
def network24 (addr : UInt32) : List UInt8 := inetNtoa (addr&&&mask24)

/-- The branch `change subnet`, entered with this text in `dhcp_buff`. -/
def changeSubnet (host : Host) (dhcpBuff : List UInt8) : List Action :=
  if host.enumerated=false then []
  else
    let dhcpBuff :=
      match availableContext host with
      | some context => inetNtoa context.start
      | none => dhcpBuff
    if host.ifcInit≠0 then []
    else
      -- `iface_addr` keeps the old address when the text is none.
      let ifaceAddr := (inetAton dhcpBuff).getD host.ifaceAddr
      [.removeHostRoutes,.delAddress (inetNtoa host.ifaceAddr) 24,.addAddress dhcpBuff 24,
        .addRoute (network24 ifaceAddr)]

/-- The case `DHCPDECLINE` of `dhcp_reply`. -/
def dhcpDecline (host : Host) (decline : Decline) : List Action :=
  if decline.serverIdentifier≠some host.serverId then []
  else
    let dhcpBuff := sanitise decline.message
    match decline.requestedIp with
    | none => []
    | some requested =>
      (if host.leaseAddr=some requested then [.pruneLease] else [])++
        (if host.configAddr=some requested then [.declineStatic requested]
        else if host.ifaceName=mlIface then changeSubnet host dhcpBuff
        else [.advanceEpochs])

/-- The message reaches the branch `change subnet`. -/
def ReachesChange (host : Host) (decline : Decline) : Prop :=
  decline.serverIdentifier=some host.serverId ∧
    ∃ requested, decline.requestedIp=some requested ∧ host.configAddr≠some requested ∧
      host.ifaceName=mlIface

/-- The range of a context lies in the network of none of the local addresses. -/
def OutsideLocal (host : Host) (c : Context) : Prop :=
  ∀ a∈host.addresses,
    ¬(isSameNet a.addr c.start a.netmask=true ∧ isSameNet a.addr c.endAddr a.netmask=true)

/-- The move that is asked of the branch: the new address and its route are the
start of a context outside all local networks, and without such a context the
interface is left alone. -/
def MovesOutside (host : Host) (decline : Decline) : Prop :=
  (∀ address length, Action.addAddress address length∈dhcpDecline host decline →
    ∃ c∈host.contexts, OutsideLocal host c ∧ address=inetNtoa c.start ∧
      Action.addRoute (network24 c.start)∈dhcpDecline host decline) ∧
  ((∀ c∈host.contexts, ¬OutsideLocal host c) →
    ∀ action∈dhcpDecline host decline, action.changesInterface=false)

/-- The branch would find this context: it is outside all local networks, and
it has more than one address or nothing was reported at all. -/
def Findable (host : Host) (c : Context) : Prop :=
  OutsideLocal host c ∧ (c.start≠c.endAddr ∨ host.addresses=[])

/-- A context links to itself only when it is marked. -/
theorem nextLink_ne_self (contexts : List Context) (i : ℕ) : nextLink contexts i≠some i := by
  unfold nextLink
  split <;> simp

/-- The marks after a list of callbacks. -/
theorem foldl_findContext {contexts : List Context} {i : ℕ} {c : Context}
    (hc : contexts[i]?=some c) (addresses : List LocalAddress) (current : ℕ → Option ℕ) :
    addresses.foldl (findContext contexts) current i=nextLink contexts i ↔
      current i=nextLink contexts i ∧ ∀ a∈addresses, matchesNet a c=false := by
  induction addresses generalizing current with
  | nil => simp
  | cons a addresses ih =>
    rw [List.foldl_cons,ih]
    have hlink : findContext contexts current a i=nextLink contexts i ↔
        current i=nextLink contexts i ∧ matchesNet a c=false := by
      unfold findContext
      rw [hc]
      dsimp only
      by_cases hm : matchesNet a c=true
      · by_cases hcur : nextLink contexts i=current i
        · rw [if_pos ⟨hm,hcur⟩]
          simp [hm,(nextLink_ne_self contexts i).symm]
        · rw [if_neg (fun h => hcur h.2)]
          simp [hm,Ne.symm hcur]
      · rw [if_neg (fun h => hm h.1)]
        simp [hm]
    rw [hlink]
    simp only [List.mem_cons,forall_eq_or_imp,and_assoc]

/-- Which contexts no callback marks. -/
theorem forall_matchesNet_iff (host : Host) (c : Context) :
    (∀ a∈host.addresses, matchesNet a c=false) ↔ Findable host c := by
  unfold Findable OutsideLocal matchesNet
  constructor
  · intro h
    refine ⟨fun a ha hnet => ?_,?_⟩
    · have hfalse := h a ha
      simp [hnet.1,hnet.2] at hfalse
    · by_cases hnil : host.addresses=[]
      · exact Or.inr hnil
      · obtain ⟨a,ha⟩ := List.exists_mem_of_ne_nil _ hnil
        have hfalse := h a ha
        simp only [Bool.or_eq_false_iff,decide_eq_false_iff_not] at hfalse
        exact Or.inl hfalse.2
  · rintro ⟨hout,hrange⟩ a ha
    have hne : c.start≠c.endAddr := by
      rcases hrange with hne|hnil
      · exact hne
      · rw [hnil] at ha
        cases ha
    have hnet := hout a ha
    simp only [Bool.or_eq_false_iff,decide_eq_false_iff_not]
    exact ⟨by simpa using hnet,hne⟩

/-- The context that the branch takes. -/
theorem availableContext_spec (host : Host) :
    (∃ c, availableContext host=some c ∧ c∈host.contexts ∧ Findable host c) ∨
      (availableContext host=none ∧ ∀ c∈host.contexts, ¬Findable host c) := by
  have hfree : ∀ {i c}, host.contexts[i]?=some c →
      (marked host i=nextLink host.contexts i ↔ Findable host c) := by
    intro i c hc
    rw [marked,foldl_findContext hc,←forall_matchesNet_iff]
    simp
  unfold availableContext
  cases hfind : (List.range host.contexts.length).find?
      fun i => decide (marked host i=nextLink host.contexts i) with
  | some i =>
    have hlt : i < host.contexts.length := List.mem_range.mp (List.mem_of_find?_eq_some hfind)
    have hc : host.contexts[i]?=some host.contexts[i] := List.getElem?_eq_getElem hlt
    have hmark : marked host i=nextLink host.contexts i := by
      simpa using List.find?_some hfind
    exact Or.inl ⟨host.contexts[i],hc,List.getElem_mem hlt,(hfree hc).mp hmark⟩
  | none =>
    refine Or.inr ⟨rfl,fun c hmem hc => ?_⟩
    obtain ⟨i,hlt,rfl⟩ := List.mem_iff_getElem.mp hmem
    have hnone := List.find?_eq_none.mp hfind i (List.mem_range.mpr hlt)
    simp only [decide_eq_true_eq] at hnone
    exact hnone ((hfree (List.getElem?_eq_getElem hlt)).mpr hc)

/-- `inet_aton` reads what `inet_ntoa` has written. -/
theorem inetAton_inetNtoa (addr : UInt32) : inetAton (inetNtoa addr)=some addr := by
  have haddr := addr.toNat_lt
  unfold inetAton
  rw [splitOn_inetNtoa,mapM_inetPart]
  unfold addrBytes
  dsimp only
  rw [if_pos (by omega),Option.some.injEq,← UInt32.toNat_inj,UInt32.toNat_ofNat']
  omega

/-- A message that does not reach the branch leaves the interface alone. -/
theorem changesInterface_of_not_reaches {host : Host} {decline : Decline}
    (h : ¬(ReachesChange host decline ∧ host.enumerated=true ∧ host.ifcInit=0)) :
    ∀ action∈dhcpDecline host decline, action.changesInterface=false := by
  intro action ha
  unfold dhcpDecline at ha
  split at ha
  · cases ha
  · rename_i hserver
    dsimp only at ha
    cases hreq : decline.requestedIp with
    | none =>
      rw [hreq] at ha
      cases ha
    | some requested =>
      rw [hreq] at ha
      rcases List.mem_append.mp ha with ha|ha
      · split at ha
        · rw [List.mem_singleton.mp ha]
          rfl
        · cases ha
      · split at ha
        · rw [List.mem_singleton.mp ha]
          rfl
        · rename_i hconfig
          split at ha
          · rename_i hiface
            have hreach : ReachesChange host decline :=
              ⟨not_not.mp hserver,requested,hreq,hconfig,hiface⟩
            unfold changeSubnet at ha
            by_cases henum : host.enumerated=false
            · rw [if_pos henum] at ha
              cases ha
            · rw [if_neg henum] at ha
              by_cases hinit : host.ifcInit=0
              · exact absurd ⟨hreach,Bool.eq_true_of_not_eq_false henum,hinit⟩ h
              · dsimp only at ha
                rw [if_pos hinit] at ha
                cases ha
          · rw [List.mem_singleton.mp ha]
            rfl

/-- What a message does to the interface once it reaches the branch. -/
theorem mem_dhcpDecline_of_reaches {host : Host} {decline : Decline}
    (h : ReachesChange host decline) (henum : host.enumerated=true) (hinit : host.ifcInit=0)
    {action : Action} (hchanges : action.changesInterface=true) :
    action∈dhcpDecline host decline ↔
      action∈changeSubnet host (sanitise decline.message) := by
  obtain ⟨hserver,requested,hreq,hconfig,hiface⟩ := h
  unfold dhcpDecline
  rw [if_neg (not_not.mpr hserver)]
  dsimp only
  rw [hreq]
  dsimp only
  rw [if_neg hconfig,if_pos hiface,List.mem_append]
  refine ⟨fun hmem => ?_,Or.inr⟩
  rcases hmem with hmem|hmem
  · split at hmem
    · rw [List.mem_singleton.mp hmem] at hchanges
      cases hchanges
    · cases hmem
  · exact hmem

/-- The interface is moved outside the local networks, or left alone, exactly
for the messages that do not come to move it, those for which a context can be
found, and those whose own text is the start of a context outside. -/
theorem movesOutside_iff (host : Host) (decline : Decline) :
    MovesOutside host decline ↔
      (ReachesChange host decline → host.enumerated=true → host.ifcInit=0 →
        (∃ c∈host.contexts, Findable host c) ∨
          ∃ c∈host.contexts, OutsideLocal host c ∧
            sanitise decline.message=inetNtoa c.start) := by
  by_cases hreach : ReachesChange host decline ∧ host.enumerated=true ∧ host.ifcInit=0
  · obtain ⟨hr,henum,hinit⟩ := hreach
    have hmem := fun {action} => @mem_dhcpDecline_of_reaches host decline hr henum hinit action
    have henum' : ¬host.enumerated=false := by simp [henum]
    rcases availableContext_spec host with ⟨found,hfound,hin,hfree⟩|⟨hnone,hall⟩
    · have hact : changeSubnet host (sanitise decline.message)=
          [.removeHostRoutes,.delAddress (inetNtoa host.ifaceAddr) 24,
            .addAddress (inetNtoa found.start) 24,.addRoute (network24 found.start)] := by
        unfold changeSubnet
        rw [if_neg henum',hfound]
        dsimp only
        rw [if_neg (not_not.mpr hinit),inetAton_inetNtoa]
        rfl
      refine ⟨fun _ _ _ _ => Or.inl ⟨found,hin,hfree⟩,fun _ => ⟨?_,fun hno => ?_⟩⟩
      · intro address length hadd
        have hadd' := (hmem rfl).mp hadd
        rw [hact] at hadd'
        have haddress : address=inetNtoa found.start := by
          simp only [List.mem_cons,Action.addAddress.injEq,List.not_mem_nil,reduceCtorEq,
            or_false,false_or] at hadd'
          exact hadd'.1
        refine ⟨found,hin,hfree.1,haddress,(hmem rfl).mpr ?_⟩
        rw [hact]
        simp
      · exact absurd hfree.1 (hno found hin)
    · have hact : changeSubnet host (sanitise decline.message)=
          [.removeHostRoutes,.delAddress (inetNtoa host.ifaceAddr) 24,
            .addAddress (sanitise decline.message) 24,
            .addRoute (network24
              ((inetAton (sanitise decline.message)).getD host.ifaceAddr))] := by
        unfold changeSubnet
        rw [if_neg henum',hnone]
        dsimp only
        rw [if_neg (not_not.mpr hinit)]
      constructor
      · rintro ⟨hadd,-⟩ _ _ _
        obtain ⟨c,hc,hout,htext,-⟩ := hadd (sanitise decline.message) 24
          ((hmem rfl).mpr (by rw [hact]; simp))
        exact Or.inr ⟨c,hc,hout,htext⟩
      · intro h
        obtain ⟨c,hc,hout,htext⟩ := (h hr henum hinit).resolve_left
          fun hex => hex.elim fun c hc => hall c hc.1 hc.2
        rw [htext,inetAton_inetNtoa] at hact
        refine ⟨fun address length hadd => ?_,fun hno => absurd hout (hno c hc)⟩
        have hadd' := (hmem rfl).mp hadd
        rw [htext,hact] at hadd'
        have haddress : address=inetNtoa c.start := by
          simp only [List.mem_cons,Action.addAddress.injEq,List.not_mem_nil,reduceCtorEq,
            or_false,false_or] at hadd'
          exact hadd'.1
        refine ⟨c,hc,hout,haddress,(hmem rfl).mpr ?_⟩
        rw [htext,hact]
        simp
  · have hkeep := changesInterface_of_not_reaches hreach
    constructor
    · intro _ hr henum hinit
      exact absurd ⟨hr,henum,hinit⟩ hreach
    · intro _
      refine ⟨fun address length hadd => ?_,fun _ => hkeep⟩
      exact absurd (hkeep _ hadd) (by simp [Action.changesInterface])

/-- A server whose only context is the network of its own interface. -/
def busyHost : Host where
  ifaceName := mlIface
  serverId := 0xc0a83001
  leaseAddr := none
  configAddr := none
  contexts := [⟨0xc0a83002,0xc0a830fe⟩]
  addresses := [⟨0xc0a83001,0xffffff00⟩]
  enumerated := true
  ifcInit := 0
  ifaceAddr := 0xc0a83001

/-- A client that declines an address with the text `1.2.3.4`. -/
def namingDecline : Decline where
  serverIdentifier := some 0xc0a83001
  message := some [49,46,50,46,51,46,52]
  requestedIp := some 0xc0a83005

/-- The client's text becomes the address of the interface. -/
theorem not_forall_movesOutside : ¬∀ host decline, MovesOutside host decline := by
  intro h
  have hadd : Action.addAddress [49,46,50,46,51,46,52] 24∈dhcpDecline busyHost namingDecline := by
    decide +kernel
  obtain ⟨c,hc,hout,-⟩ := (h busyHost namingDecline).1 _ _ hadd
  rw [List.mem_singleton.mp hc] at hout
  exact hout ⟨0xc0a83001,0xffffff00⟩ (List.mem_singleton.mpr rfl) ⟨by decide,by decide⟩

end AndroidPlatform.DhcpDecline
