import AndroidPlatform.DhcpClient
import Mathlib.Data.List.Infix

/-!
# Where the configured parameters of the DHCP client come from

`info` always holds the decoding of the last datagram that was delivered,
whether or not the reply was accepted. The two results of this module follow
that record through a run: what `dhcp_configure` is given and what the
retransmitted requests carry. Both are exact, so each names the runs in which
a rejected or later datagram takes the place of the accepted offer.
-/

namespace AndroidPlatform.DhcpClientHistory

open WireBytes DhcpMessage DhcpPacket DhcpClient

/-- The bytes that an event delivers to the loop body, if any. -/
def deliveredBy : Event → Option (List UInt8)
  | .timeout => none
  | .pollFailed _ => none
  | .readFailed _ => none
  | .datagram stack datagram =>
    match receivePacket stack datagram with
    | .rejected => none
    | .overrun _ => none
    | .delivered bytes => some bytes

/-- The run has seen these events and is at the top of the loop. -/
def Running (env : Env) (events : List Event) (client : Client) : Prop :=
  (dhcpInitIfc env events).status=.running client

/-- The last event of the history that delivered bytes delivered these, to a
client in this state. -/
def LastDelivered (env : Env) (events : List Event) (client : Client) (bytes : List UInt8) :
    Prop :=
  ∃ earlier event later, events=earlier++event::later ∧ Running env earlier client ∧
    deliveredBy event=some bytes ∧ ∀ e∈later, deliveredBy e=none

/-- At this point of the history a selecting client accepted these bytes as a
DHCPOFFER. -/
def AcceptedOffer (env : Env) (events : List Event) (client : Client) (bytes : List UInt8) :
    Prop :=
  ∃ earlier event later, events=earlier++event::later ∧ Running env earlier client ∧
    deliveredBy event=some bytes ∧ client.state=.selecting ∧ client.accepts bytes=true ∧
    (client.decoded bytes).type=dhcpOffer

theorem dhcpInitIfc_append (env : Env) (events : List Event) (event : Event) :
    dhcpInitIfc env (events++[event])=advance env (dhcpInitIfc env events) event := by
  simp only [dhcpInitIfc,List.foldl_append,List.foldl_cons,List.foldl_nil]

/-- A run that is still going has taken its last event from the loop. -/
theorem running_append {env : Env} {events : List Event} {event : Event} {client : Client}
    (h : Running env (events++[event]) client) :
    ∃ before, Running env events before ∧ (step env before event).status=.running client := by
  unfold Running at h ⊢
  rw [dhcpInitIfc_append,advance] at h
  cases hs : (dhcpInitIfc env events).status with
  | running before =>
    rw [hs] at h
    exact ⟨before,rfl,h⟩
  | returned code =>
    rw [hs] at h
    rw [hs] at h
    cases h
  | undefined =>
    rw [hs] at h
    rw [hs] at h
    cases h

/-- The state of a run is determined by its events. -/
theorem running_unique {env : Env} {events : List Event} {client other : Client}
    (h : Running env events client) (ho : Running env events other) : client=other := by
  unfold Running at h ho
  rw [h] at ho
  cases ho
  rfl

/-- Transmitting keeps the record and the state. -/
theorem transmit_running {env : Env} {client after : Client}
    (h : (transmit env client).status=.running after) :
    after.info=client.info ∧ after.state=client.state := by
  unfold transmit at h
  cases hs : client.state with
  | selecting =>
    rw [hs] at h
    cases h
    exact ⟨rfl,rfl⟩
  | requesting =>
    rw [hs] at h
    cases h
    exact ⟨rfl,rfl⟩

/-- Transmitting configures nothing. -/
theorem configure_not_mem_transmit {env : Env} {client : Client} {info : DhcpInfo} :
    Action.configure info∉(transmit env client).actions := by
  unfold transmit
  cases client.state <;> simp

/-- Everything one delivered reply can do to a client that keeps running. -/
theorem handleReply_running {env : Env} {client after : Client} {bytes : List UInt8}
    (h : (handleReply env client bytes).status=.running after) :
    after.info=client.decoded bytes ∧
      ((client.state=.selecting ∧ client.accepts bytes=true ∧
          (client.decoded bytes).type=dhcpOffer ∧ after.state=.requesting) ∨
        (¬(client.state=.selecting ∧ client.accepts bytes=true ∧
          (client.decoded bytes).type=dhcpOffer) ∧ after.state=client.state)) := by
  unfold handleReply at h
  dsimp only at h
  by_cases ha : client.accepts bytes=false
  · rw [if_pos ha] at h
    cases h
    refine ⟨rfl,Or.inr ⟨?_,rfl⟩⟩
    rintro ⟨_,hv,_⟩
    rw [ha] at hv
    cases hv
  · rw [if_neg ha] at h
    cases hs : client.state with
    | selecting =>
      rw [hs] at h
      dsimp only at h
      by_cases ht : (client.stored bytes).info.type=dhcpOffer
      · rw [if_pos ht] at h
        obtain ⟨hi,hst⟩ := transmit_running h
        exact ⟨hi,Or.inl ⟨rfl,Bool.eq_true_of_not_eq_false ha,ht,hst⟩⟩
      · rw [if_neg ht] at h
        cases h
        exact ⟨rfl,Or.inr ⟨fun hf => ht hf.2.2,hs⟩⟩
    | requesting =>
      rw [hs] at h
      dsimp only at h
      split_ifs at h
      cases h
      exact ⟨rfl,Or.inr ⟨fun hf => Phase.noConfusion hf.1,hs⟩⟩

/-- Everything one event can do to a client that keeps running: either it
delivers nothing and leaves record and state alone, or the record becomes the
decoding of its bytes. -/
theorem step_running {env : Env} {client after : Client} {event : Event}
    (h : (step env client event).status=.running after) :
    (deliveredBy event=none ∧ after.info=client.info ∧ after.state=client.state) ∨
    ∃ bytes, deliveredBy event=some bytes ∧ after.info=client.decoded bytes ∧
      ((client.state=.selecting ∧ client.accepts bytes=true ∧
          (client.decoded bytes).type=dhcpOffer ∧ after.state=.requesting) ∨
        (¬(client.state=.selecting ∧ client.accepts bytes=true ∧
          (client.decoded bytes).type=dhcpOffer) ∧ after.state=client.state)) := by
  cases event with
  | timeout =>
    left
    simp only [step] at h
    split_ifs at h
    obtain ⟨hi,hst⟩ := transmit_running h
    exact ⟨rfl,hi,hst⟩
  | pollFailed errno =>
    left
    simp only [step] at h
    split_ifs at h
    cases h
    exact ⟨rfl,rfl,rfl⟩
  | readFailed errno =>
    left
    simp only [step] at h
    split_ifs at h
    cases h
    exact ⟨rfl,rfl,rfl⟩
  | datagram stack datagram =>
    simp only [step] at h
    cases hr : receivePacket stack datagram with
    | rejected =>
      rw [hr] at h
      cases h
      exact Or.inl ⟨by simp only [deliveredBy,hr],rfl,rfl⟩
    | overrun dhcpSize =>
      rw [hr] at h
      cases h
    | delivered bytes =>
      rw [hr] at h
      exact Or.inr ⟨bytes,by simp only [deliveredBy,hr],handleReply_running h⟩

/-- The two calls of `dhcp_configure`. -/
theorem step_configures {env : Env} {client : Client} {event : Event} {info : DhcpInfo}
    (h : Action.configure info∈(step env client event).actions) :
    (event=.timeout ∧ timeoutMax ≤ client.timeout ∧ client.info.type=dhcpOffer ∧
      info=client.info) ∨
    ∃ bytes, deliveredBy event=some bytes ∧ client.accepts bytes=true ∧
      info=client.decoded bytes := by
  cases event with
  | timeout =>
    simp only [step] at h
    split_ifs at h with hmax ht
    · rw [List.mem_singleton,Action.configure.injEq] at h
      exact Or.inl ⟨rfl,hmax,ht,h⟩
    · simp at h
    · exact absurd h configure_not_mem_transmit
  | pollFailed errno =>
    simp only [step] at h
    split_ifs at h <;> simp at h
  | readFailed errno =>
    simp only [step] at h
    split_ifs at h <;> simp at h
  | datagram stack datagram =>
    simp only [step] at h
    cases hr : receivePacket stack datagram with
    | rejected =>
      rw [hr] at h
      simp at h
    | overrun dhcpSize =>
      rw [hr] at h
      simp at h
    | delivered bytes =>
      rw [hr] at h
      refine Or.inr ⟨bytes,by simp only [deliveredBy,hr],?_⟩
      simp only [handleReply] at h
      by_cases ha : client.accepts bytes=false
      · rw [if_pos ha] at h
        simp at h
      · rw [if_neg ha] at h
        refine ⟨Bool.eq_true_of_not_eq_false ha,?_⟩
        cases hs : client.state with
        | selecting =>
          rw [hs] at h
          dsimp only at h
          split_ifs at h
          · exact absurd h configure_not_mem_transmit
          · simp at h
        | requesting =>
          rw [hs] at h
          dsimp only at h
          split_ifs at h
          · simp only [List.mem_cons,reduceCtorEq,List.not_mem_nil,or_false,false_or,
              Action.configure.injEq] at h
            exact h
          · simp at h
          · simp at h

/-- Two splits of a history at an event are the same, or one comes first. -/
theorem split_cases {e₁ l₁ e₂ l₂ : List Event} {x₁ x₂ : Event} (h : e₁++x₁::l₁=e₂++x₂::l₂) :
    (e₁=e₂ ∧ x₁=x₂) ∨ (∃ m, e₂=e₁++x₁::m ∧ l₁=m++x₂::l₂) ∨
      ∃ m, e₁=e₂++x₂::m ∧ l₂=m++x₁::l₁ := by
  rw [List.append_eq_append_iff] at h
  rcases h with ⟨m,he,hm⟩|⟨m,he,hm⟩
  · cases m with
    | nil =>
      rw [List.nil_append,List.cons.injEq] at hm
      rw [List.append_nil] at he
      exact Or.inl ⟨he.symm,hm.1⟩
    | cons y m =>
      rw [List.cons_append,List.cons.injEq] at hm
      exact Or.inr (Or.inl ⟨m,by rw [he,hm.1],hm.2⟩)
  · cases m with
    | nil =>
      rw [List.nil_append,List.cons.injEq] at hm
      rw [List.append_nil] at he
      exact Or.inl ⟨he,hm.1.symm⟩
    | cons y m =>
      rw [List.cons_append,List.cons.injEq] at hm
      exact Or.inr (Or.inr ⟨m,by rw [he,hm.1],hm.2⟩)

/-- The splits of a history at its last delivering event coincide. -/
theorem lastDelivered_unique {env : Env} {events : List Event} {client other : Client}
    {bytes otherBytes : List UInt8} (h : LastDelivered env events client bytes)
    (ho : LastDelivered env events other otherBytes) : client=other ∧ bytes=otherBytes := by
  obtain ⟨e₁,x₁,l₁,h₁,hr₁,hd₁,hn₁⟩ := h
  obtain ⟨e₂,x₂,l₂,h₂,hr₂,hd₂,hn₂⟩ := ho
  -- If one of the two splits comes first, its rest holds the other event.
  rcases split_cases (h₁.symm.trans h₂) with ⟨rfl,rfl⟩|⟨m,-,hl⟩|⟨m,-,hl⟩
  · rw [hd₁] at hd₂
    exact ⟨running_unique hr₁ hr₂,Option.some.inj hd₂⟩
  · have hx := hn₁ x₂ (by rw [hl]; exact List.mem_append_right m List.mem_cons_self)
    rw [hd₂] at hx
    cases hx
  · have hx := hn₂ x₁ (by rw [hl]; exact List.mem_append_right m List.mem_cons_self)
    rw [hd₁] at hx
    cases hx

/-- An event that delivers nothing leaves the last delivery where it was. -/
theorem lastDelivered_append_iff {env : Env} {events : List Event} {event : Event}
    {client : Client} {bytes : List UInt8} (hn : deliveredBy event=none) :
    LastDelivered env (events++[event]) client bytes ↔ LastDelivered env events client bytes := by
  constructor
  · rintro ⟨earlier,x,later,he,hr,hd,hlater⟩
    rcases List.eq_nil_or_concat later with hl|⟨rest,last,hl⟩
    · subst hl
      obtain ⟨-,hx⟩ := List.append_inj' he rfl
      rw [List.cons.injEq] at hx
      rw [←hx.1,hn] at hd
      cases hd
    · subst hl
      have he' : events++[event]=(earlier++x::rest)++[last] := by
        rw [he]
        simp
      obtain ⟨hx,-⟩ := List.append_inj' he' rfl
      exact ⟨earlier,x,rest,hx,hr,hd,fun e hm => hlater e (by simp [hm])⟩
  · rintro ⟨earlier,x,later,he,hr,hd,hlater⟩
    refine ⟨earlier,x,later++[event],by rw [he]; simp,hr,hd,fun e hm => ?_⟩
    rcases List.mem_append.mp hm with hm|hm
    · exact hlater e hm
    · rw [List.mem_singleton] at hm
      rw [hm,hn]

/-- A delivering event is the last delivery of the history it ends. -/
theorem lastDelivered_append_self {env : Env} {events : List Event} {event : Event}
    {client : Client} {bytes : List UInt8} (hr : Running env events client)
    (hd : deliveredBy event=some bytes) : LastDelivered env (events++[event]) client bytes :=
  ⟨events,event,[],rfl,hr,hd,fun _ hm => absurd hm List.not_mem_nil⟩

/-- The invariant of `info` over whole runs: it still has its initial type, or
it is the decoding of the last delivered bytes. -/
theorem running_info {env : Env} {events : List Event} {client : Client}
    (h : Running env events client) :
    ((∀ last bytes, ¬LastDelivered env events last bytes) ∧ client.info.type=0) ∨
    ∃ last bytes, LastDelivered env events last bytes ∧ client.info=last.decoded bytes := by
  induction events using List.reverseRecOn generalizing client with
  | nil =>
    have ht : (transmit env (initialClient env)).status=.running client := h
    refine Or.inl ⟨?_,by rw [(transmit_running ht).1]; rfl⟩
    rintro last bytes ⟨earlier,x,later,he,-⟩
    simp at he
  | append_singleton events event ih =>
    obtain ⟨before,hb,hs⟩ := running_append h
    rcases step_running hs with ⟨hn,hi,-⟩|⟨bytes,hd,hi,-⟩
    · rw [hi]
      simpa only [lastDelivered_append_iff hn] using ih hb
    · exact Or.inr ⟨before,bytes,lastDelivered_append_self hb hd,hi⟩

/-- Every call of `dhcp_configure` in this history is given the decoding of
the last delivered reply, and that reply was valid when it came in. -/
def ConfiguresValidReply (env : Env) (events : List Event) : Prop :=
  ∀ earlier event client info, earlier++[event]<+:events → Running env earlier client →
    Action.configure info∈(step env client event).actions →
    ∃ last bytes, LastDelivered env (earlier++[event]) last bytes ∧
      last.accepts bytes=true ∧ info=last.decoded bytes

/-- The last time-out of this history expires after a datagram that was
rejected as a reply and carries the message type of an offer. -/
def RejectedOfferTimesOut (env : Env) (events : List Event) : Prop :=
  ∃ earlier client last bytes, earlier++[.timeout]<+:events ∧ Running env earlier client ∧
    timeoutMax ≤ client.timeout ∧ LastDelivered env earlier last bytes ∧
    last.accepts bytes=false ∧ (last.decoded bytes).type=dhcpOffer

/-- The record given to `dhcp_configure` comes from a valid reply in exactly
those runs in which no rejected offer is the last delivery before the final
time-out. -/
theorem configuresValidReply_iff (env : Env) (events : List Event) :
    ConfiguresValidReply env events ↔ ¬RejectedOfferTimesOut env events := by
  constructor
  · rintro h ⟨earlier,client,last,bytes,hpre,hr,hmax,hlast,hrej,htype⟩
    have hinfo : client.info=last.decoded bytes := by
      rcases running_info hr with ⟨hnone,-⟩|⟨other,otherBytes,ho,hi⟩
      · exact absurd hlast (hnone last bytes)
      · obtain ⟨hc,hb⟩ := lastDelivered_unique hlast ho
        rw [hi,hc,hb]
    have hstep : Action.configure client.info∈(step env client .timeout).actions := by
      simp only [step]
      rw [if_pos hmax,if_pos (by rw [hinfo]; exact htype)]
      exact List.mem_singleton.mpr rfl
    obtain ⟨valid,validBytes,hv,hacc,-⟩ := h earlier .timeout client client.info hpre hr hstep
    obtain ⟨hc,hb⟩ := lastDelivered_unique hlast ((lastDelivered_append_iff rfl).mp hv)
    rw [hc,hb,hacc] at hrej
    cases hrej
  · intro h earlier event client info hpre hr hconf
    rcases step_configures hconf with ⟨rfl,hmax,htype,hi⟩|⟨bytes,hd,hacc,hi⟩
    · rcases running_info hr with ⟨-,hzero⟩|⟨last,bytes,hlast,hinfo⟩
      · rw [hzero] at htype
        exact absurd htype (by decide)
      · refine ⟨last,bytes,(lastDelivered_append_iff rfl).mpr hlast,?_,hi.trans hinfo⟩
        by_contra hacc
        exact h ⟨earlier,client,last,bytes,hpre,hr,hmax,hlast,
          Bool.eq_false_of_not_eq_true hacc,by rw [←hinfo]; exact htype⟩
    · exact ⟨client,bytes,lastDelivered_append_self hr hd,hacc,hi⟩

/-- An environment of zeros. -/
def zeroEnv : Env where
  hwaddr := ⟨[0,0,0,0,0,0],rfl⟩
  msecs := 0
  discoverMsg := zeroMsg
  requestMsg := zeroMsg
  reply := zeroMsg
  info := DhcpInfo.zero
  ifcConfigure := fun _ => 0

/-- The locals after a history, for a run that is still going. -/
def clientAfter (env : Env) (events : List Event) : Client :=
  match (dhcpInitIfc env events).status with
  | .running client => client
  | .returned _ => initialClient env
  | .undefined => initialClient env

/-- A message of type DHCPOFFER whose fixed part is all zero. -/
def foreignOffer : DhcpMsg :=
  zeroMsg.overwrite (List.replicate 236 0++optCookie++[optMessageType,1,dhcpOffer])

/-- That message arriving as a broadcast from a server. -/
def foreignOfferEvent : Event :=
  .datagram zeroStack (sentDatagram foreignOffer 243 (by decide) 0 0xffffffff portBootpServer
    portBootpClient)

theorem foreignOffer_delivered :
    deliveredBy foreignOfferEvent=some (foreignOffer.bytes.take 243) := by
  decide +kernel

/-- A client that hears the foreign message and then nothing more is at its
last time-out, with the foreign record. -/
theorem foreignOffer_running :
    Running zeroEnv [] (clientAfter zeroEnv []) ∧
    Running zeroEnv [foreignOfferEvent,.timeout,.timeout,.timeout]
      (clientAfter zeroEnv [foreignOfferEvent,.timeout,.timeout,.timeout]) := by
  unfold Running
  decide +kernel

/-- The foreign message is no valid reply, and the last time-out configures
the interface with it. -/
theorem foreignOffer_configured :
    (clientAfter zeroEnv []).accepts (foreignOffer.bytes.take 243)=false ∧
    Action.configure ((clientAfter zeroEnv []).decoded (foreignOffer.bytes.take 243))∈
      (step zeroEnv (clientAfter zeroEnv [foreignOfferEvent,.timeout,.timeout,.timeout])
        .timeout).actions := by
  decide +kernel

/-- Not every run configures from a valid reply. -/
theorem not_forall_configuresValidReply :
    ¬∀ env events, ConfiguresValidReply env events := by
  intro h
  obtain ⟨hrej,hconf⟩ := foreignOffer_configured
  obtain ⟨hstart,hrun⟩ := foreignOffer_running
  obtain ⟨last,bytes,hlast,hacc,-⟩ := h zeroEnv
    ([foreignOfferEvent,.timeout,.timeout,.timeout]++[.timeout])
    [foreignOfferEvent,.timeout,.timeout,.timeout] .timeout
    (clientAfter zeroEnv [foreignOfferEvent,.timeout,.timeout,.timeout])
    ((clientAfter zeroEnv []).decoded (foreignOffer.bytes.take 243)) (List.prefix_refl _)
    hrun hconf
  have hforeign : LastDelivered zeroEnv
      ([foreignOfferEvent,.timeout,.timeout,.timeout]++[.timeout]) (clientAfter zeroEnv [])
      (foreignOffer.bytes.take 243) := by
    refine ⟨[],foreignOfferEvent,[.timeout,.timeout,.timeout,.timeout],rfl,hstart,
      foreignOffer_delivered,fun e he => ?_⟩
    simp only [List.mem_cons,List.not_mem_nil,or_false,or_self] at he
    rw [he]
    rfl
  obtain ⟨hc,hb⟩ := lastDelivered_unique hforeign hlast
  rw [hc,hb,hacc] at hrej
  cases hrej

/-- A requesting client sends a request for what `info` holds. -/
theorem transmit_requests {env : Env} {client : Client} {msg : DhcpMsg} {size : ℕ}
    (hs : client.state=.requesting) (h : Action.send msg size∈(transmit env client).actions) :
    Requests msg size client.info.ipaddr client.info.serveraddr := by
  unfold transmit at h
  rw [hs] at h
  rw [List.mem_singleton,Action.send.injEq] at h
  rw [h.1,h.2]
  exact requests_initDhcpRequestMsg env.hwaddr client.xid client.info.ipaddr
    client.info.serveraddr

/-- A requesting client that transmits does send something and goes on. -/
theorem transmit_sends {env : Env} {client : Client} (hs : client.state=.requesting) :
    ∃ msg size after, Action.send msg size∈(transmit env client).actions ∧
      (transmit env client).status=.running after ∧ after.state=.requesting := by
  unfold transmit
  rw [hs]
  exact ⟨_,_,_,List.mem_singleton.mpr rfl,rfl,rfl⟩

/-- The two ways in which a client can transmit and be requesting afterwards. -/
theorem step_sends {env : Env} {client after : Client} {event : Event} {msg : DhcpMsg}
    {size : ℕ} (h : Action.send msg size∈(step env client event).actions)
    (ha : (step env client event).status=.running after) (hs : after.state=.requesting) :
    (event=.timeout ∧ client.timeout<timeoutMax ∧ client.state=.requesting ∧
      Requests msg size client.info.ipaddr client.info.serveraddr) ∨
    ∃ bytes, deliveredBy event=some bytes ∧ client.state=.selecting ∧
      client.accepts bytes=true ∧ (client.decoded bytes).type=dhcpOffer ∧
      Requests msg size (client.decoded bytes).ipaddr (client.decoded bytes).serveraddr := by
  cases event with
  | timeout =>
    simp only [step] at h ha
    split_ifs at h ha with hmax ht
    · obtain ⟨-,hst⟩ := transmit_running ha
      have hc : client.state=.requesting := hst.symm.trans hs
      have hreq : Requests msg size client.info.ipaddr client.info.serveraddr :=
        @transmit_requests env {client with timeout := client.timeout*2} msg size hc h
      exact Or.inl ⟨rfl,Nat.lt_of_not_le hmax,hc,hreq⟩
  | pollFailed errno =>
    simp only [step] at h
    split_ifs at h <;> simp at h
  | readFailed errno =>
    simp only [step] at h
    split_ifs at h <;> simp at h
  | datagram stack datagram =>
    simp only [step] at h
    cases hr : receivePacket stack datagram with
    | rejected =>
      rw [hr] at h
      simp at h
    | overrun dhcpSize =>
      rw [hr] at h
      simp at h
    | delivered bytes =>
      rw [hr] at h
      simp only [handleReply] at h
      by_cases hacc : client.accepts bytes=false
      · rw [if_pos hacc] at h
        simp at h
      · rw [if_neg hacc] at h
        cases hst : client.state with
        | selecting =>
          rw [hst] at h
          dsimp only at h
          split_ifs at h with ht
          · exact Or.inr ⟨bytes,by simp only [deliveredBy,hr],rfl,
              Bool.eq_true_of_not_eq_false hacc,ht,transmit_requests rfl h⟩
          · simp at h
        | requesting =>
          rw [hst] at h
          dsimp only at h
          split_ifs at h <;> simp at h

/-- A history with a delivery has a last one. -/
theorem lastDelivered_exists {env : Env} {earlier later : List Event} {event : Event}
    {client : Client} {bytes : List UInt8} (hd : deliveredBy event=some bytes)
    (hr : Running env (earlier++event::later) client) :
    ∃ last lastBytes, LastDelivered env (earlier++event::later) last lastBytes := by
  induction later using List.reverseRecOn generalizing client with
  | nil =>
    obtain ⟨before,hb,-⟩ := running_append hr
    exact ⟨before,bytes,lastDelivered_append_self hb hd⟩
  | append_singleton later e ih =>
    have hassoc : earlier++event::(later++[e])=(earlier++event::later)++[e] := by simp
    rw [hassoc] at hr ⊢
    obtain ⟨before,hb,-⟩ := running_append hr
    cases he : deliveredBy e with
    | none => simpa only [lastDelivered_append_iff he] using ih hb
    | some bytes' => exact ⟨before,bytes',lastDelivered_append_self hb he⟩

/-- Once an offer was accepted the client requests, at every later event. -/
theorem acceptedOffer_requesting {env : Env} {events : List Event} {offer client : Client}
    {bytes : List UInt8} (h : AcceptedOffer env events offer bytes)
    (hr : Running env events client) : client.state=.requesting := by
  obtain ⟨earlier,event,later,rfl,ho,hd,hsel,hacc,htype⟩ := h
  induction later using List.reverseRecOn generalizing client with
  | nil =>
    obtain ⟨before,hb,hstep⟩ := running_append hr
    have he := running_unique ho hb
    subst he
    rcases step_running hstep with ⟨hn,-⟩|⟨bytes',hd',-,hst⟩
    · rw [hd] at hn
      cases hn
    · rw [hd,Option.some.injEq] at hd'
      subst hd'
      rcases hst with ⟨-,-,-,hst⟩|⟨hnot,-⟩
      · exact hst
      · exact absurd ⟨hsel,hacc,htype⟩ hnot
  | append_singleton later e ih =>
    have hassoc : earlier++event::(later++[e])=(earlier++event::later)++[e] := by simp
    rw [hassoc] at hr
    obtain ⟨before,hb,hstep⟩ := running_append hr
    have hbefore := ih hb
    rcases step_running hstep with ⟨-,-,hst⟩|⟨bytes',-,-,⟨-,-,-,hst⟩|⟨-,hst⟩⟩
    · rw [hst,hbefore]
    · exact hst
    · rw [hst,hbefore]

/-- An accepted offer stays one as the history grows. -/
theorem AcceptedOffer.append {env : Env} {events : List Event} {offer : Client}
    {bytes : List UInt8} (h : AcceptedOffer env events offer bytes) (event : Event) :
    AcceptedOffer env (events++[event]) offer bytes := by
  obtain ⟨earlier,x,later,rfl,hrest⟩ := h
  exact ⟨earlier,x,later++[event],by simp,hrest⟩

/-- A requesting client has accepted an offer. -/
theorem requesting_acceptedOffer {env : Env} {events : List Event} {client : Client}
    (hr : Running env events client) (hs : client.state=.requesting) :
    ∃ offer bytes, AcceptedOffer env events offer bytes := by
  induction events using List.reverseRecOn generalizing client with
  | nil =>
    have ht : (transmit env (initialClient env)).status=.running client := hr
    rw [(transmit_running ht).2] at hs
    cases hs
  | append_singleton events event ih =>
    obtain ⟨before,hb,hstep⟩ := running_append hr
    have hold : before.state=.requesting →
        ∃ offer bytes, AcceptedOffer env (events++[event]) offer bytes := by
      intro hbefore
      obtain ⟨offer,bytes,ho⟩ := ih hb hbefore
      exact ⟨offer,bytes,ho.append event⟩
    rcases step_running hstep with ⟨-,-,hst⟩|⟨bytes,hd,-,⟨hsel,hacc,htype,-⟩|⟨-,hst⟩⟩
    · exact hold (hst.symm.trans hs)
    · exact ⟨before,bytes,events,event,[],rfl,hb,hd,hsel,hacc,htype⟩
    · exact hold (hst.symm.trans hs)

/-- A run accepts at most one offer. -/
theorem acceptedOffer_unique {env : Env} {events : List Event} {offer other : Client}
    {bytes otherBytes : List UInt8} (h : AcceptedOffer env events offer bytes)
    (ho : AcceptedOffer env events other otherBytes) : offer=other ∧ bytes=otherBytes := by
  obtain ⟨e₁,x₁,l₁,h₁,hr₁,hd₁,hrest₁⟩ := h
  obtain ⟨e₂,x₂,l₂,h₂,hr₂,hd₂,hrest₂⟩ := ho
  -- The later acceptance would find a client that is already requesting.
  rcases split_cases (h₁.symm.trans h₂) with ⟨rfl,rfl⟩|⟨m,he,-⟩|⟨m,he,-⟩
  · rw [hd₁] at hd₂
    exact ⟨running_unique hr₁ hr₂,Option.some.inj hd₂⟩
  · have hfirst : AcceptedOffer env e₂ offer bytes := ⟨e₁,x₁,m,he,hr₁,hd₁,hrest₁⟩
    have hreq := acceptedOffer_requesting hfirst hr₂
    rw [hrest₂.1] at hreq
    cases hreq
  · have hfirst : AcceptedOffer env e₁ other otherBytes := ⟨e₂,x₂,m,he,hr₂,hd₂,hrest₂⟩
    have hreq := acceptedOffer_requesting hfirst hr₁
    rw [hrest₁.1] at hreq
    cases hreq

/-- Every request sent while requesting asks for the address and the server of
the accepted offer. -/
def RequestsOffer (env : Env) (events : List Event) : Prop :=
  ∀ earlier event client after msg size, earlier++[event]<+:events →
    Running env earlier client → (step env client event).status=.running after →
    after.state=.requesting → Action.send msg size∈(step env client event).actions →
    ∃ offer bytes, AcceptedOffer env (earlier++[event]) offer bytes ∧
      Requests msg size (offer.decoded bytes).ipaddr (offer.decoded bytes).serveraddr

/-- Whenever a time-out makes the client send again, the last datagram that was
delivered decodes to the address and the server of the accepted offer. -/
def LastDeliveryKeepsOffer (env : Env) (events : List Event) : Prop :=
  ∀ earlier client offer offerBytes last bytes, earlier++[.timeout]<+:events →
    Running env earlier client → client.timeout<timeoutMax →
    AcceptedOffer env earlier offer offerBytes → LastDelivered env earlier last bytes →
    (last.decoded bytes).ipaddr=(offer.decoded offerBytes).ipaddr ∧
      (last.decoded bytes).serveraddr=(offer.decoded offerBytes).serveraddr

/-- After an accepted offer, `info` is the decoding of the last delivery. -/
theorem acceptedOffer_info {env : Env} {events : List Event} {client offer : Client}
    {bytes : List UInt8} (hr : Running env events client)
    (h : AcceptedOffer env events offer bytes) :
    ∃ last lastBytes, LastDelivered env events last lastBytes ∧
      client.info=last.decoded lastBytes := by
  obtain ⟨earlier,event,later,rfl,-,hd,-⟩ := h
  obtain ⟨last,lastBytes,hlast⟩ := lastDelivered_exists hd hr
  rcases running_info hr with ⟨hnone,-⟩|hinfo
  · exact absurd hlast (hnone last lastBytes)
  · exact hinfo

/-- A time-out of a requesting client sends what `info` holds. -/
theorem timeout_retransmits {env : Env} {client : Client} (hs : client.state=.requesting)
    (hmax : client.timeout<timeoutMax) :
    ∃ msg size after, Action.send msg size∈(step env client .timeout).actions ∧
      (step env client .timeout).status=.running after ∧ after.state=.requesting ∧
      Requests msg size client.info.ipaddr client.info.serveraddr := by
  have hstep : step env client .timeout=
      transmit env {client with timeout := client.timeout*2} := by
    simp only [step]
    rw [if_neg (Nat.not_le.mpr hmax)]
  rw [hstep]
  obtain ⟨msg,size,after,hmem,hrun,hafter⟩ := @transmit_sends env
    {client with timeout := client.timeout*2} hs
  exact ⟨msg,size,after,hmem,hrun,hafter,
    @transmit_requests env {client with timeout := client.timeout*2} msg size hs hmem⟩

/-- The requests keep to the accepted offer in exactly those runs in which no
later delivery with another address or server precedes a retransmission. -/
theorem requestsOffer_iff (env : Env) (events : List Event) :
    RequestsOffer env events ↔ LastDeliveryKeepsOffer env events := by
  constructor
  · intro h earlier client offer offerBytes last bytes hpre hr hmax hoffer hlast
    have hstate := acceptedOffer_requesting hoffer hr
    obtain ⟨msg,size,after,hmem,hrun,hafter,hreq⟩ := timeout_retransmits hstate hmax
    obtain ⟨offer',bytes',hoffer',hreq'⟩ := h earlier .timeout client after msg size hpre hr
      hrun hafter hmem
    obtain ⟨hc,hb⟩ := acceptedOffer_unique (hoffer.append .timeout) hoffer'
    obtain ⟨last',lastBytes',hlast',hinfo⟩ := acceptedOffer_info hr hoffer
    obtain ⟨hlc,hlb⟩ := lastDelivered_unique hlast hlast'
    rw [hc,hb,hlc,hlb,←hinfo]
    exact hreq.unique hreq'
  · intro h earlier event client after msg size hpre hr hrun hafter hmem
    rcases step_sends hmem hrun hafter with
      ⟨rfl,hmax,hstate,hreq⟩|⟨bytes,hd,hsel,hacc,htype,hreq⟩
    · obtain ⟨offer,offerBytes,hoffer⟩ := requesting_acceptedOffer hr hstate
      obtain ⟨last,lastBytes,hlast,hinfo⟩ := acceptedOffer_info hr hoffer
      obtain ⟨hip,hserver⟩ := h earlier client offer offerBytes last lastBytes hpre hr hmax
        hoffer hlast
      refine ⟨offer,offerBytes,hoffer.append .timeout,?_⟩
      rw [hinfo,hip,hserver] at hreq
      exact hreq
    · exact ⟨client,bytes,⟨earlier,event,[],rfl,hr,hd,hsel,hacc,htype⟩,hreq⟩

/-- An offer of 10.0.0.5 by the server 10.0.0.1, valid for a client with zero
address and transaction id. -/
def validOffer : DhcpMsg :=
  zeroMsg.overwrite ([opBootreply,htypeEther,6,0]++List.replicate 12 0++[10,0,0,5]++
    List.replicate 216 0++optCookie++[optMessageType,1,dhcpOffer,optServerId,4,10,0,0,1])

/-- That offer arriving as a broadcast from the server. -/
def validOfferEvent : Event :=
  .datagram zeroStack (sentDatagram validOffer 249 (by decide) 0x0100000a 0xffffffff
    portBootpServer portBootpClient)

theorem validOffer_delivered :
    deliveredBy validOfferEvent=some (validOffer.bytes.take 249) := by
  decide +kernel

/-- The offer is accepted, and a foreign message then replaces its record. -/
theorem validOffer_replaced :
    ((clientAfter zeroEnv []).state=.selecting ∧
      (clientAfter zeroEnv []).accepts (validOffer.bytes.take 249)=true ∧
      ((clientAfter zeroEnv []).decoded (validOffer.bytes.take 249)).type=dhcpOffer ∧
      ((clientAfter zeroEnv []).decoded (validOffer.bytes.take 249)).ipaddr=0x0500000a) ∧
    (clientAfter zeroEnv [validOfferEvent,foreignOfferEvent]).state=.requesting ∧
      (clientAfter zeroEnv [validOfferEvent,foreignOfferEvent]).timeout<timeoutMax ∧
      (clientAfter zeroEnv [validOfferEvent,foreignOfferEvent]).info.ipaddr=0 := by
  decide +kernel

theorem validOffer_running :
    Running zeroEnv [] (clientAfter zeroEnv []) ∧
    Running zeroEnv [validOfferEvent,foreignOfferEvent]
      (clientAfter zeroEnv [validOfferEvent,foreignOfferEvent]) := by
  unfold Running
  decide +kernel

/-- Not every run keeps requesting the accepted offer. -/
theorem not_forall_requestsOffer : ¬∀ env events, RequestsOffer env events := by
  intro h
  obtain ⟨⟨hsel,hacc,htype,hip⟩,hstate,hmax,hzero⟩ := validOffer_replaced
  obtain ⟨hstart,hrun⟩ := validOffer_running
  obtain ⟨msg,size,after,hmem,hafter,hreq,hsent⟩ := @timeout_retransmits zeroEnv _ hstate hmax
  obtain ⟨offer,bytes,hoffer,hask⟩ := h zeroEnv
    ([validOfferEvent,foreignOfferEvent]++[.timeout]) [validOfferEvent,foreignOfferEvent]
    .timeout _ after msg size (List.prefix_refl _) hrun hafter hreq hmem
  have hvalid : AcceptedOffer zeroEnv ([validOfferEvent,foreignOfferEvent]++[.timeout])
      (clientAfter zeroEnv []) (validOffer.bytes.take 249) :=
    ⟨[],validOfferEvent,[foreignOfferEvent,.timeout],rfl,hstart,validOffer_delivered,hsel,hacc,
      htype⟩
  obtain ⟨hc,hb⟩ := acceptedOffer_unique hvalid hoffer
  rw [←hc,←hb,hip] at hask
  have hdiff := (hsent.unique hask).1
  rw [hzero] at hdiff
  exact absurd hdiff (by decide)

end AndroidPlatform.DhcpClientHistory
