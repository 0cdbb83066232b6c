import AndroidPlatform.DhcpClientHistory

/-!
# The two transactions of the DHCP client

A run of `dhcp_init_ifc` is one exchange: discover messages under the first
transaction id, then request messages under the next one. The loop is entered
in its middle and the time-out is doubled on one path and reset on another, so
the number of transmissions is bounded through the time-out: it is doubled
once for every message sent in the current state.
-/

namespace AndroidPlatform.DhcpClientTransactions

open WireBytes DhcpMessage DhcpPacket DhcpClient DhcpClientHistory

/-- The message type option of the first `size` bytes of a message. -/
def messageType (msg : DhcpMsg) (size : ℕ) : Option (List UInt8) :=
  findOption optMessageType (msg.optionArea size)

/-- The action transmits a message of this type. -/
def Sends (type : UInt8) : Action → Bool
  | .send msg size => decide (messageType msg size=some [type])
  | .close => false
  | .configure _ => false

/-- How many messages of this type the actions transmit. -/
def sentCount (type : UInt8) (actions : List Action) : ℕ := actions.countP (Sends type)

theorem sentCount_append (type : UInt8) (actions more : List Action) :
    sentCount type (actions++more)=sentCount type actions+sentCount type more :=
  List.countP_append

/-- The fixed part carries the transaction id as it was passed. -/
theorem initDhcpMsg_xid (hwaddr : HwAddr) (xid : UInt32) (options : List UInt8)
    (h : options.length≤1024) : (initDhcpMsg hwaddr xid options h).xid=xid := by
  exact load32At_raw32 xid []

/-- Printing a message leaves its transaction id alone. -/
theorem dumpDhcpMsg_xid (msg : DhcpMsg) (len : ℕ) : (dumpDhcpMsg msg len).xid=msg.xid := by
  have h := msg.length_eq
  simp only [sizeofDhcpMsg] at h
  unfold dumpDhcpMsg
  split
  · rfl
  · simp only [DhcpMsg.xid,List.append_assoc]
    rw [load32At_append_left (by rw [List.length_take]; omega),load32At_take (by omega)]

/-- The message type of a message built with the common options first. -/
theorem messageType_commonOptions (hwaddr : HwAddr) (xid : UInt32) (type : UInt8)
    (rest : List UInt8) (h : (commonOptions type++rest).length≤1024) (len : ℕ) :
    messageType (dumpDhcpMsg (initDhcpMsg hwaddr xid (commonOptions type++rest) h) len)
      (dhcpMsgFixedSize+(commonOptions type++rest).length)=some [type] := by
  rw [messageType,DhcpMsg.optionArea,dumpDhcpMsg_options,Nat.add_sub_cancel_left,
    initDhcpMsg_options]
  simp [commonOptions,optCookie,findOption,optMessageType,optPad,optEnd]

/-- What is sent while selecting: a discover message under the current id. -/
theorem transmit_selecting (env : Env) (client : Client) (hs : client.state=.selecting) :
    ∃ msg size, transmit env client=⟨.running {client with discoverMsg := msg},[.send msg size]⟩ ∧
      messageType msg size=some [dhcpDiscover] ∧ msg.xid=client.xid := by
  refine ⟨_,_,by rw [transmit,hs],?_,?_⟩
  · exact messageType_commonOptions env.hwaddr client.xid dhcpDiscover [optEnd] (by decide) _
  · rw [dumpDhcpMsg_xid]
    exact initDhcpMsg_xid env.hwaddr client.xid discoverOptions (by decide)

theorem requestOptions_eq (ipaddr serveraddr : UInt32) :
    requestOptions ipaddr serveraddr=commonOptions dhcpRequest++
      ([optRequestedIp,4]++raw32 ipaddr++([optServerId,4]++raw32 serveraddr)++[optEnd]) := by
  simp only [requestOptions,List.append_assoc]

/-- What is sent while requesting: a request message under the current id,
kept for the comparison with replies. -/
theorem transmit_requesting (env : Env) (client : Client) (hs : client.state=.requesting) :
    ∃ msg size, transmit env client=⟨.running {client with requestMsg := msg},[.send msg size]⟩ ∧
      messageType msg size=some [dhcpRequest] ∧ msg.xid=client.xid := by
  have hlen : (requestOptions client.info.ipaddr client.info.serveraddr).length≤1024 := by
    simp [requestOptions,commonOptions,optCookie]
  refine ⟨_,_,by rw [transmit,hs],?_,?_⟩
  · simp only [initDhcpRequestMsg]
    simp only [requestOptions_eq] at hlen ⊢
    exact messageType_commonOptions env.hwaddr client.xid dhcpRequest _ hlen _
  · rw [dumpDhcpMsg_xid]
    exact initDhcpMsg_xid env.hwaddr client.xid _ hlen

/-- The locals that the exchange depends on did not change. -/
def SameExchange (client after : Client) : Prop :=
  after.state=client.state ∧ after.timeout=client.timeout ∧ after.xid=client.xid ∧
    after.requestMsg=client.requestMsg

/-- Everything one event can do to the exchange: nothing, the retransmission
after a time-out, the first request after an offer, or the end of the run. -/
theorem step_exchange (env : Env) (client : Client) (event : Event) :
    (∃ after, step env client event=⟨.running after,[]⟩ ∧ SameExchange client after) ∨
    (client.timeout<timeoutMax ∧
      step env client event=transmit env {client with timeout := client.timeout*2}) ∨
    (∃ bytes, client.state=.selecting ∧ step env client event=transmit env
      {client.stored bytes with
        state := .requesting, timeout := timeoutInitial, xid := client.xid+1}) ∨
    ((∀ after, (step env client event).status≠.running after) ∧
      ∀ msg size, Action.send msg size∉(step env client event).actions) := by
  cases event with
  | timeout =>
    simp only [step]
    by_cases hmax : timeoutMax ≤ client.timeout
    · rw [if_pos hmax]
      refine Or.inr (Or.inr (Or.inr ?_))
      split <;> simp
    · rw [if_neg hmax]
      exact Or.inr (Or.inl ⟨Nat.lt_of_not_le hmax,rfl⟩)
  | pollFailed errno =>
    simp only [step]
    split
    · exact Or.inl ⟨client,rfl,rfl,rfl,rfl,rfl⟩
    · exact Or.inr (Or.inr (Or.inr (by simp)))
  | readFailed errno =>
    simp only [step]
    split
    · exact Or.inr (Or.inr (Or.inr (by simp)))
    · exact Or.inl ⟨client,rfl,rfl,rfl,rfl,rfl⟩
  | datagram stack datagram =>
    simp only [step]
    cases receivePacket stack datagram with
    | rejected => exact Or.inl ⟨client,rfl,rfl,rfl,rfl,rfl⟩
    | overrun dhcpSize => exact Or.inr (Or.inr (Or.inr (by simp)))
    | delivered bytes =>
      simp only [handleReply]
      by_cases ha : client.accepts bytes=false
      · rw [if_pos ha]
        exact Or.inl ⟨client.stored bytes,rfl,rfl,rfl,rfl,rfl⟩
      · rw [if_neg ha]
        cases hs : client.state with
        | selecting =>
          dsimp only
          by_cases ht : (client.stored bytes).info.type=dhcpOffer
          · rw [if_pos ht]
            exact Or.inr (Or.inr (Or.inl ⟨bytes,rfl,rfl⟩))
          · rw [if_neg ht]
            exact Or.inl ⟨client.stored bytes,rfl,rfl,rfl,rfl,rfl⟩
        | requesting =>
          dsimp only
          by_cases hack : (client.stored bytes).info.type=dhcpAck
          · rw [if_pos hack]
            exact Or.inr (Or.inr (Or.inr (by simp)))
          · rw [if_neg hack]
            by_cases hnak : (client.stored bytes).info.type=dhcpNak
            · rw [if_pos hnak]
              exact Or.inr (Or.inr (Or.inr (by simp)))
            · rw [if_neg hnak]
              exact Or.inl ⟨client.stored bytes,rfl,rfl,rfl,rfl,rfl⟩

/-- The transmissions of a run so far: at most four of each kind, the
discovers under the first id and the requests under the next. -/
structure Transmissions (env : Env) (actions : List Action) : Prop where
  /-- At most four discover messages. -/
  discovers_le : sentCount dhcpDiscover actions≤4
  /-- At most four request messages. -/
  requests_le : sentCount dhcpRequest actions≤4
  /-- Nothing else is transmitted, and the kind decides the id. -/
  kinds : ∀ msg size, Action.send msg size∈actions →
    (messageType msg size=some [dhcpDiscover] ∧ msg.xid=env.msecs) ∨
      (messageType msg size=some [dhcpRequest] ∧ msg.xid=env.msecs+1)

/-- What a running client knows about its exchange: the time-out has been
doubled once for every message of the current kind after the first. -/
def Exchange (env : Env) (client : Client) (actions : List Action) : Prop :=
  match client.state with
  | .selecting => client.xid=env.msecs ∧ sentCount dhcpRequest actions=0 ∧
      ∃ n≤3, client.timeout=timeoutInitial*2^n ∧ sentCount dhcpDiscover actions=n+1
  | .requesting => client.xid=env.msecs+1 ∧ client.requestMsg.xid=env.msecs+1 ∧
      ∃ n≤3, client.timeout=timeoutInitial*2^n ∧ sentCount dhcpRequest actions=n+1

/-- Another discover message under the first id. -/
theorem Transmissions.discover {env : Env} {actions : List Action} {msg : DhcpMsg} {size : ℕ}
    (h : Transmissions env actions) (hc : sentCount dhcpDiscover actions<4)
    (ht : messageType msg size=some [dhcpDiscover]) (hx : msg.xid=env.msecs) :
    Transmissions env (actions++[.send msg size]) ∧
      sentCount dhcpDiscover (actions++[.send msg size])=sentCount dhcpDiscover actions+1 ∧
      sentCount dhcpRequest (actions++[.send msg size])=sentCount dhcpRequest actions := by
  have hd : sentCount dhcpDiscover [.send msg size]=1 := by simp [sentCount,Sends,ht]
  have hr : sentCount dhcpRequest [.send msg size]=0 := by
    simp [sentCount,Sends,ht,dhcpDiscover,dhcpRequest]
  rw [sentCount_append,sentCount_append,hd,hr]
  refine ⟨⟨?_,?_,?_⟩,rfl,rfl⟩
  · rw [sentCount_append,hd]
    omega
  · rw [sentCount_append,hr]
    exact h.requests_le
  · intro m s hm
    rcases List.mem_append.mp hm with hm|hm
    · exact h.kinds m s hm
    · rw [List.mem_singleton,Action.send.injEq] at hm
      rw [hm.1,hm.2]
      exact Or.inl ⟨ht,hx⟩

/-- Another request message under the second id. -/
theorem Transmissions.request {env : Env} {actions : List Action} {msg : DhcpMsg} {size : ℕ}
    (h : Transmissions env actions) (hc : sentCount dhcpRequest actions<4)
    (ht : messageType msg size=some [dhcpRequest]) (hx : msg.xid=env.msecs+1) :
    Transmissions env (actions++[.send msg size]) ∧
      sentCount dhcpRequest (actions++[.send msg size])=sentCount dhcpRequest actions+1 := by
  have hr : sentCount dhcpRequest [.send msg size]=1 := by simp [sentCount,Sends,ht]
  have hd : sentCount dhcpDiscover [.send msg size]=0 := by
    simp [sentCount,Sends,ht,dhcpDiscover,dhcpRequest]
  rw [sentCount_append,hr]
  refine ⟨⟨?_,?_,?_⟩,rfl⟩
  · rw [sentCount_append,hd]
    exact h.discovers_le
  · rw [sentCount_append,hr]
    omega
  · intro m s hm
    rcases List.mem_append.mp hm with hm|hm
    · exact h.kinds m s hm
    · rw [List.mem_singleton,Action.send.injEq] at hm
      rw [hm.1,hm.2]
      exact Or.inr ⟨ht,hx⟩

/-- Actions without a transmission keep the account. -/
theorem Transmissions.append {env : Env} {actions more : List Action}
    (h : Transmissions env actions) (hm : ∀ msg size, Action.send msg size∉more) :
    Transmissions env (actions++more) := by
  have hzero : ∀ type, sentCount type more=0 := by
    intro type
    rw [sentCount,List.countP_eq_zero]
    intro action ha
    cases action with
    | send msg size => exact absurd ha (hm msg size)
    | close => simp [Sends]
    | configure info => simp [Sends]
  refine ⟨?_,?_,?_⟩
  · rw [sentCount_append,hzero]
    exact h.discovers_le
  · rw [sentCount_append,hzero]
    exact h.requests_le
  · intro m s hms
    rcases List.mem_append.mp hms with hms|hms
    · exact h.kinds m s hms
    · exact absurd hms (hm m s)

/-- A time-out below the maximum leaves room for one more doubling. -/
theorem lt_three_of_timeout {n : ℕ} (hn : n≤3) (h : timeoutInitial*2^n<timeoutMax) : n<3 := by
  by_contra hge
  have he : n=3 := by omega
  subst he
  exact absurd h (by decide)

/-- One event keeps the account of the exchange. -/
theorem step_transmissions {env : Env} {client : Client} {actions : List Action} (event : Event)
    (h : Transmissions env actions) (hx : Exchange env client actions) :
    Transmissions env (actions++(step env client event).actions) ∧
      ∀ after, (step env client event).status=.running after →
        Exchange env after (actions++(step env client event).actions) := by
  rcases step_exchange env client event with
    ⟨after,hs,hst,htime,hxid,hreq⟩|⟨hmax,hs⟩|⟨bytes,hsel,hs⟩|⟨hend,hnone⟩
  · rw [hs,List.append_nil]
    refine ⟨h,fun other ho => ?_⟩
    cases ho
    rw [Exchange,hst,htime,hxid,hreq]
    exact hx
  · -- Retransmission: the count of the current kind and the time-out grow together.
    unfold Exchange at hx
    cases hst : client.state with
    | selecting =>
      rw [hst] at hx
      obtain ⟨hxid,hzero,n,hn,htime,hcount⟩ := hx
      have hlt := lt_three_of_timeout hn (htime ▸ hmax)
      obtain ⟨msg,size,ht,hkind,hmx⟩ := transmit_selecting env
        {client with timeout := client.timeout*2} hst
      obtain ⟨hnew,hd,hr⟩ := h.discover (by omega) hkind (hmx.trans hxid)
      rw [hs,ht]
      refine ⟨hnew,fun other ho => ?_⟩
      cases ho
      rw [Exchange,hst]
      refine ⟨hxid,hr.trans hzero,n+1,by omega,?_,by rw [hd,hcount]⟩
      rw [htime,Nat.pow_succ,Nat.mul_assoc]
    | requesting =>
      rw [hst] at hx
      obtain ⟨hxid,-,n,hn,htime,hcount⟩ := hx
      have hlt := lt_three_of_timeout hn (htime ▸ hmax)
      obtain ⟨msg,size,ht,hkind,hmx⟩ := transmit_requesting env
        {client with timeout := client.timeout*2} hst
      obtain ⟨hnew,hr⟩ := h.request (by omega) hkind (hmx.trans hxid)
      rw [hs,ht]
      refine ⟨hnew,fun other ho => ?_⟩
      cases ho
      rw [Exchange,hst]
      refine ⟨hxid,hmx.trans hxid,n+1,by omega,?_,by rw [hr,hcount]⟩
      rw [htime,Nat.pow_succ,Nat.mul_assoc]
  · -- The first request: a fresh time-out and the next id.
    rw [hs]
    unfold Exchange at hx
    rw [hsel] at hx
    obtain ⟨hxid,hzero,-⟩ := hx
    obtain ⟨msg,size,ht,hkind,hmx⟩ := transmit_requesting env
      {client.stored bytes with
        state := .requesting, timeout := timeoutInitial, xid := client.xid+1} rfl
    have hid : msg.xid=env.msecs+1 := by rw [hmx,hxid]
    obtain ⟨hnew,hr⟩ := h.request (by omega) hkind hid
    rw [ht]
    refine ⟨hnew,fun other ho => ?_⟩
    cases ho
    exact ⟨by rw [hxid],hid,0,by omega,rfl,by rw [hr,hzero]⟩
  · exact ⟨h.append hnone,fun after ha => absurd ha (hend after)⟩

/-- The account holds over whole runs. -/
theorem dhcpInitIfc_transmissions (env : Env) (events : List Event) :
    Transmissions env (dhcpInitIfc env events).actions ∧
      ∀ client, Running env events client →
        Exchange env client (dhcpInitIfc env events).actions := by
  induction events using List.reverseRecOn with
  | nil =>
    have hempty : Transmissions env [] := ⟨by decide,by decide,fun _ _ hm => by cases hm⟩
    obtain ⟨msg,size,ht,hkind,hmx⟩ := transmit_selecting env (initialClient env) rfl
    obtain ⟨hnew,hd,hr⟩ := hempty.discover (by decide) hkind hmx
    have hrun : dhcpInitIfc env []=transmit env (initialClient env) := rfl
    unfold Running
    rw [hrun,ht]
    refine ⟨hnew,fun client hc => ?_⟩
    cases hc
    exact ⟨rfl,hr,0,by omega,rfl,hd⟩
  | append_singleton events event ih =>
    obtain ⟨htr,hex⟩ := ih
    unfold Running
    rw [dhcpInitIfc_append,advance]
    cases hs : (dhcpInitIfc env events).status with
    | running client => exact step_transmissions event htr (hex client hs)
    | returned code =>
      refine ⟨htr,fun client hc => ?_⟩
      rw [hs] at hc
      cases hc
    | undefined =>
      refine ⟨htr,fun client hc => ?_⟩
      rw [hs] at hc
      cases hc

/-- A requesting client stays one for as long as it runs. -/
theorem requesting_stays {env : Env} {earlier later : List Event} {client after : Client}
    (h : Running env earlier client) (hs : client.state=.requesting)
    (ha : Running env (earlier++later) after) : after.state=.requesting := by
  induction later using List.reverseRecOn generalizing after with
  | nil =>
    rw [List.append_nil] at ha
    rw [running_unique ha h,hs]
  | append_singleton later e ih =>
    rw [←List.append_assoc] at ha
    obtain ⟨before,hb,hstep⟩ := running_append ha
    have hbefore := ih hb
    rcases step_running hstep with ⟨-,-,hst⟩|⟨bytes,-,-,⟨hsel,-⟩|⟨-,hst⟩⟩
    · rw [hst,hbefore]
    · rw [hbefore] at hsel
      cases hsel
    · rw [hst,hbefore]

/-- The event after this history takes the run from selecting to requesting. -/
def EntersRequesting (env : Env) (events earlier : List Event) : Prop :=
  ∃ event client after, earlier++[event]<+:events ∧ Running env earlier client ∧
    client.state=.selecting ∧ Running env (earlier++[event]) after ∧ after.state=.requesting

/-- Of two entries one comes first, and the run could not enter again. -/
theorem entersRequesting_le {env : Env} {events e₁ e₂ : List Event}
    (h₁ : EntersRequesting env events e₁) (h₂ : EntersRequesting env events e₂) :
    e₂.length≤e₁.length := by
  obtain ⟨x₁,-,after₁,hp₁,-,-,ha₁,hr₁⟩ := h₁
  obtain ⟨x₂,client₂,-,hp₂,hc₂,hsel₂,-,-⟩ := h₂
  by_contra hlt
  have hpre : e₁++[x₁]<+:e₂ := by
    apply List.prefix_of_prefix_length_le hp₁ ((List.prefix_append e₂ [x₂]).trans hp₂)
    simp only [List.length_append,List.length_singleton]
    omega
  obtain ⟨rest,rfl⟩ := hpre
  have hreq := requesting_stays ha₁ hr₁ hc₂
  rw [hsel₂] at hreq
  cases hreq

theorem entersRequesting_unique {env : Env} {events e₁ e₂ : List Event}
    (h₁ : EntersRequesting env events e₁) (h₂ : EntersRequesting env events e₂) : e₁=e₂ := by
  have hp : ∀ {e}, EntersRequesting env events e → e<+:events := by
    rintro e ⟨x,-,-,hx,-⟩
    exact (List.prefix_append e [x]).trans hx
  have hle := entersRequesting_le h₁ h₂
  have hge := entersRequesting_le h₂ h₁
  exact (List.prefix_of_prefix_length_le (hp h₁) (hp h₂) hge).eq_of_length (by omega)

/-- The transaction id that a received datagram carries. -/
def carriedXid (bytes : List UInt8) : UInt32 := load32At bytes 4

/-- The client does something about delivered bytes beyond storing them: it
sends, closes, configures, returns or changes its exchange. -/
def ActsUpon (env : Env) (client : Client) (bytes : List UInt8) : Prop :=
  handleReply env client bytes≠⟨.running (client.stored bytes),[]⟩

/-- Bytes that a client acts upon carry the id of the outstanding message. -/
theorem actsUpon_xid {env : Env} {client : Client} {bytes : List UInt8}
    (hb : bytes.length ≤ sizeofDhcpMsg) (h : ActsUpon env client bytes) :
    carriedXid bytes=client.outstanding.xid := by
  have hacc : client.accepts bytes=true := by
    by_contra hrej
    apply h
    rw [handleReply,if_pos (Bool.eq_false_of_not_eq_true hrej)]
  rw [Client.accepts,isValidReply] at hacc
  split_ifs at hacc with hlen hop hxid hhtype hhlen hchaddr
  rw [not_not] at hxid
  rw [←hxid,Client.received,dumpDhcpMsg_xid]
  simp only [dhcpMsgFixedSize] at hlen
  simp only [DhcpMsg.xid,DhcpMsg.overwrite,carriedXid]
  rw [List.take_of_length_le hb,load32At_append_left (by omega)]

/-- Delivered bytes fit into the message. -/
theorem deliveredBy_length {event : Event} {bytes : List UInt8}
    (h : deliveredBy event=some bytes) : bytes.length ≤ sizeofDhcpMsg := by
  cases event with
  | timeout => cases h
  | pollFailed errno => cases h
  | readFailed errno => cases h
  | datagram stack datagram =>
    simp only [deliveredBy,receivePacket] at h
    by_cases hp : passesChecks stack datagram=false
    · rw [if_pos hp] at h
      cases h
    · rw [if_neg hp] at h
      by_cases hin : (0:ℤ)≤(udpLen (packetBuffer stack datagram):ℤ)-sizeofUdp ∧
          (udpLen (packetBuffer stack datagram):ℤ)-sizeofUdp ≤ sizeofDhcpMsg
      · rw [if_pos hin] at h
        dsimp only at h
        rw [Option.some.injEq] at h
        rw [←h,List.length_take]
        omega
      · rw [if_neg hin] at h
        cases h

/-- What makes a run of `dhcp_init_ifc` one exchange of a discover transaction
and at most one request transaction. -/
structure OneExchange (env : Env) (events : List Event) : Prop where
  /-- The state `STATE_REQUESTING` is entered at most once. -/
  entered_once : ∀ e₁ e₂, EntersRequesting env events e₁ → EntersRequesting env events e₂ → e₁=e₂
  /-- It is never left. -/
  never_left : ∀ earlier later client after, earlier++later<+:events →
    Running env earlier client → client.state=.requesting →
    Running env (earlier++later) after → after.state=.requesting
  /-- At most four of each kind are sent, each kind under its own id. -/
  transmissions : Transmissions env (dhcpInitIfc env events).actions
  /-- A requesting client acts only upon replies with the id of its requests. -/
  answered : ∀ earlier event client bytes, earlier++[event]<+:events →
    Running env earlier client → client.state=.requesting → deliveredBy event=some bytes →
    ActsUpon env client bytes → carriedXid bytes=env.msecs+1
  /-- A late reply to a discover message is no answer to a request. -/
  late_ignored : ∀ earlier event client bytes, earlier++[event]<+:events →
    Running env earlier client → client.state=.requesting → deliveredBy event=some bytes →
    carriedXid bytes=env.msecs → step env client event=⟨.running (client.stored bytes),[]⟩

/-- A requesting client that acts upon bytes finds its second id in them. -/
theorem requesting_actsUpon {env : Env} {events : List Event} {event : Event} {client : Client}
    {bytes : List UInt8} (hr : Running env events client) (hs : client.state=.requesting)
    (hd : deliveredBy event=some bytes) (ha : ActsUpon env client bytes) :
    carriedXid bytes=env.msecs+1 := by
  have hex := (dhcpInitIfc_transmissions env events).2 client hr
  rw [Exchange,hs] at hex
  rw [actsUpon_xid (deliveredBy_length hd) ha,Client.outstanding,hs]
  exact hex.2.1

/-- The event delivers these bytes to the loop body. -/
theorem step_delivered {env : Env} {client : Client} {event : Event} {bytes : List UInt8}
    (h : deliveredBy event=some bytes) : step env client event=handleReply env client bytes := by
  cases event with
  | timeout => cases h
  | pollFailed errno => cases h
  | readFailed errno => cases h
  | datagram stack datagram =>
    simp only [deliveredBy] at h
    simp only [step]
    cases hr : receivePacket stack datagram with
    | rejected =>
      rw [hr] at h
      cases h
    | overrun dhcpSize =>
      rw [hr] at h
      cases h
    | delivered other =>
      rw [hr] at h
      cases h
      rfl

/-- Every run, over any sequence of time-outs, failures and datagrams, is one
exchange. -/
theorem dhcpInitIfc_oneExchange (env : Env) (events : List Event) : OneExchange env events where
  entered_once := fun _ _ h₁ h₂ => entersRequesting_unique h₁ h₂
  never_left := fun _ _ _ _ _ hr hs ha => requesting_stays hr hs ha
  transmissions := (dhcpInitIfc_transmissions env events).1
  answered := fun _ _ _ _ _ hr hs hd ha => requesting_actsUpon hr hs hd ha
  late_ignored := by
    intro earlier event client bytes _ hr hs hd hx
    rw [step_delivered hd]
    by_contra hact
    have hid := requesting_actsUpon hr hs hd hact
    rw [hx] at hid
    simp at hid

end AndroidPlatform.DhcpClientTransactions
