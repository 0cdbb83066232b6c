import AndroidPlatform.DhcpClientHistory

/-!
# The raw socket of the DHCP client

`dhcp_init_ifc` has one clean-up for each of its exits, written out by hand.
This module counts the calls of `close` over whole runs and names the exits
that make none. The result of `send_message` is only printed, so it does not
appear among the events; the two system calls of `open_raw_socket` do, since
one of its own failures keeps the socket.
-/

namespace AndroidPlatform.DhcpClientSocket

open DhcpMessage DhcpPacket DhcpClient DhcpClientHistory

/-- What the two system calls of `open_raw_socket` return. -/
structure SocketCalls where
  /-- Return value of `socket`. -/
  socket : ℤ
  /-- Return value of `bind`. -/
  bind : ℤ

/-- What `open_raw_socket` returns and leaves behind. -/
structure Opened where
  /-- The return value, from `fatal` on either failure. -/
  value : ℤ
  /-- The descriptors that it leaves open. -/
  sockets : List ℤ

/-- `open_raw_socket`. -/
def openRawSocket (calls : SocketCalls) : Opened :=
  if calls.socket < 0 then ⟨-1,[]⟩
  else if calls.bind < 0 then ⟨-1,[calls.socket]⟩
  else ⟨calls.socket,[calls.socket]⟩

/-- The exits of the loop that return without `close`, in the state before
the event: the last time-out with an offer in the record, a failed poll that is
not tried again, and a network that is down. -/
def leavesOpen (client : Client) : Event → Bool
  | .timeout => decide (timeoutMax ≤ client.timeout ∧ client.info.type=dhcpOffer)
  | .pollFailed errno => decide (errno≠.eagain ∧ errno≠.eintr)
  | .readFailed errno => decide (errno=.enetdown ∨ errno=.enxio)
  | .datagram _ _ => false

/-- Transmitting closes nothing. -/
theorem count_close_transmit (env : Env) (client : Client) :
    (transmit env client).actions.count .close=0 := by
  unfold transmit
  cases client.state <;> simp

/-- Transmitting never returns. -/
theorem transmit_not_returned (env : Env) (client : Client) (code : ℤ) :
    (transmit env client).status≠.returned code := by
  unfold transmit
  cases client.state <;> simp

/-- A delivered reply closes the socket exactly when it ends the function. -/
theorem handleReply_closes (env : Env) (client : Client) (bytes : List UInt8) :
    ((∃ after, (handleReply env client bytes).status=.running after) ∧
      (handleReply env client bytes).actions.count .close=0) ∨
    ((∃ code, (handleReply env client bytes).status=.returned code) ∧
      (handleReply env client bytes).actions.count .close=1) := by
  unfold handleReply
  dsimp only
  by_cases ha : client.accepts bytes=false
  · rw [if_pos ha]
    exact Or.inl ⟨⟨_,rfl⟩,rfl⟩
  · rw [if_neg ha]
    cases client.state with
    | selecting =>
      dsimp only
      by_cases ht : (client.stored bytes).info.type=dhcpOffer
      · rw [if_pos ht]
        exact Or.inl ⟨⟨_,rfl⟩,count_close_transmit _ _⟩
      · rw [if_neg ht]
        exact Or.inl ⟨⟨_,rfl⟩,rfl⟩
    | requesting =>
      dsimp only
      by_cases hack : (client.stored bytes).info.type=dhcpAck
      · rw [if_pos hack]
        exact Or.inr ⟨⟨_,rfl⟩,by simp⟩
      · rw [if_neg hack]
        by_cases hnak : (client.stored bytes).info.type=dhcpNak
        · rw [if_pos hnak]
          exact Or.inr ⟨⟨_,rfl⟩,by simp⟩
        · rw [if_neg hnak]
          exact Or.inl ⟨⟨_,rfl⟩,rfl⟩

/-- What one event does to the socket: nothing while the function runs, and
on its way out one `close`, except at the exits named above. -/
theorem step_closes (env : Env) (client : Client) (event : Event) :
    ((∀ code, (step env client event).status≠.returned code) ∧
      leavesOpen client event=false ∧ (step env client event).actions.count .close=0) ∨
    ((∃ code, (step env client event).status=.returned code) ∧
      (step env client event).actions.count .close=
        if leavesOpen client event=true then 0 else 1) := by
  cases event with
  | timeout =>
    simp only [step,leavesOpen,decide_eq_true_eq,decide_eq_false_iff_not]
    by_cases hmax : timeoutMax ≤ client.timeout
    · rw [if_pos hmax]
      by_cases ht : client.info.type=dhcpOffer
      · rw [if_pos ht]
        exact Or.inr ⟨⟨_,rfl⟩,by simp [hmax,ht]⟩
      · rw [if_neg ht]
        exact Or.inr ⟨⟨_,rfl⟩,by simp [ht]⟩
    · rw [if_neg hmax]
      exact Or.inl ⟨transmit_not_returned _ _,fun h => hmax h.1,count_close_transmit _ _⟩
  | pollFailed errno =>
    cases errno <;> simp [step,leavesOpen]
  | readFailed errno =>
    cases errno <;> simp [step,leavesOpen]
  | datagram stack datagram =>
    simp only [step,leavesOpen]
    cases receivePacket stack datagram with
    | rejected => simp
    | overrun dhcpSize => simp
    | delivered bytes =>
      dsimp only
      rcases handleReply_closes env client bytes with ⟨⟨after,hs⟩,hc⟩|⟨⟨code,hs⟩,hc⟩
      · exact Or.inl ⟨by simp [hs],trivial,hc⟩
      · exact Or.inr ⟨⟨code,hs⟩,by simp [hc]⟩

/-- While the function runs it has closed nothing. -/
theorem running_closes {env : Env} {events : List Event} {client : Client}
    (h : Running env events client) : (dhcpInitIfc env events).actions.count .close=0 := by
  induction events using List.reverseRecOn generalizing client with
  | nil => exact count_close_transmit env (initialClient env)
  | append_singleton events event ih =>
    obtain ⟨before,hb,hs⟩ := running_append h
    have hold := ih hb
    rw [dhcpInitIfc_append,advance,show (dhcpInitIfc env events).status=_ from hb]
    rw [List.count_append,hold]
    rcases step_closes env before event with ⟨-,-,hc⟩|⟨⟨code,hr⟩,-⟩
    · rw [hc]
    · rw [hr] at hs
      cases hs

/-- A run that has returned did so at one of its events. -/
theorem returned_split {env : Env} {events : List Event} {code : ℤ}
    (h : (dhcpInitIfc env events).status=.returned code) :
    ∃ earlier event later client, events=earlier++event::later ∧
      Running env earlier client ∧ (step env client event).status=.returned code ∧
      (dhcpInitIfc env events).actions=
        (dhcpInitIfc env earlier).actions++(step env client event).actions := by
  induction events using List.reverseRecOn with
  | nil => exact absurd h (transmit_not_returned env (initialClient env) code)
  | append_singleton events event ih =>
    rw [dhcpInitIfc_append] at h ⊢
    cases hs : (dhcpInitIfc env events).status with
    | running client =>
      simp only [advance,hs] at h ⊢
      exact ⟨events,event,[],client,rfl,hs,h,rfl⟩
    | returned code' =>
      simp only [advance,hs] at h ⊢
      rw [Status.returned.injEq] at h
      subst h
      obtain ⟨earlier,x,later,client,he,hr,hret,hact⟩ := ih hs
      exact ⟨earlier,x,later++[event],client,by rw [he]; simp,hr,hret,hact⟩
    | undefined =>
      simp only [advance,hs] at h
      cases h

/-- The run takes an exit that makes no `close`. -/
def ExitsOpen (env : Env) (events : List Event) : Prop :=
  ∃ earlier event later client, events=earlier++event::later ∧
    Running env earlier client ∧ leavesOpen client event=true

/-- A run is not continued past an event with which it returns. -/
theorem not_running_of_returned {env : Env} {earlier later : List Event} {event : Event}
    {before client : Client} {code : ℤ} (hb : Running env earlier before)
    (hs : (step env before event).status=.returned code) :
    ¬Running env (earlier++event::later) client := by
  intro h
  induction later using List.reverseRecOn generalizing client with
  | nil =>
    obtain ⟨other,ho,hst⟩ := running_append h
    rw [←running_unique hb ho,hs] at hst
    cases hst
  | append_singleton later e ih =>
    have hassoc : earlier++event::(later++[e])=(earlier++event::later)++[e] := by simp
    rw [hassoc] at h
    obtain ⟨other,ho,-⟩ := running_append h
    exact ih ho

/-- A run that has returned made one `close`, or none at an exit that leaves
the socket open. -/
theorem returned_closes {env : Env} {events : List Event} {code : ℤ}
    (h : (dhcpInitIfc env events).status=.returned code) :
    (dhcpInitIfc env events).actions.count .close=1 ↔ ¬ExitsOpen env events := by
  obtain ⟨earlier,event,later,client,he,hr,hret,hact⟩ := returned_split h
  have hcount : (dhcpInitIfc env events).actions.count .close=
      if leavesOpen client event=true then 0 else 1 := by
    rw [hact,List.count_append,running_closes hr,Nat.zero_add]
    rcases step_closes env client event with ⟨hn,-⟩|⟨-,hc⟩
    · exact absurd hret (hn code)
    · exact hc
  rw [hcount]
  constructor
  · rintro hone ⟨e₂,x₂,l₂,other,he₂,hr₂,hopen⟩
    -- The exit of the run is its only event with which it can return.
    rcases split_cases (he.symm.trans he₂) with ⟨rfl,rfl⟩|⟨m,hm,-⟩|⟨m,hm,-⟩
    · rw [running_unique hr hr₂,hopen] at hone
      simp at hone
    · rw [hm] at hr₂
      exact not_running_of_returned hr hret hr₂
    · rw [hm] at hr
      rcases step_closes env other x₂ with ⟨-,hn,-⟩|⟨⟨code',hs⟩,-⟩
      · rw [hopen] at hn
        cases hn
      · exact not_running_of_returned hr₂ hs hr
  · intro hopen
    rw [if_neg]
    exact fun hl => hopen ⟨earlier,event,later,client,he,hr,hl⟩

/-- The clean-up that is asked of a run: a socket obtained from
`open_raw_socket` is closed exactly once when the function returns, and
`open_raw_socket` keeps none open when `bind` fails. -/
def ClosesSocket (calls : SocketCalls) (env : Env) (events : List Event) : Prop :=
  (0 ≤ (openRawSocket calls).value → ∀ code, (dhcpInitIfc env events).status=.returned code →
    (dhcpInitIfc env events).actions.count .close=1) ∧
  (calls.bind < 0 → (openRawSocket calls).sockets=[])

/-- An exit without `close` has returned. -/
theorem ExitsOpen.returned {env : Env} {events : List Event} (h : ExitsOpen env events) :
    ∃ code, (dhcpInitIfc env events).status=.returned code := by
  obtain ⟨earlier,event,later,client,rfl,hr,hopen⟩ := h
  induction later using List.reverseRecOn with
  | nil =>
    rw [dhcpInitIfc_append,advance,show (dhcpInitIfc env earlier).status=_ from hr]
    rcases step_closes env client event with ⟨-,hn,-⟩|⟨hret,-⟩
    · rw [hopen] at hn
      cases hn
    · exact hret
  | append_singleton later e ih =>
    have hassoc : earlier++event::(later++[e])=(earlier++event::later)++[e] := by simp
    obtain ⟨code,hc⟩ := ih
    rw [hassoc,dhcpInitIfc_append,advance,hc]
    exact ⟨code,hc⟩

/-- `open_raw_socket` succeeds exactly when both of its calls do. -/
theorem openRawSocket_value_nonneg (calls : SocketCalls) :
    0 ≤ (openRawSocket calls).value ↔ 0 ≤ calls.socket ∧ 0 ≤ calls.bind := by
  unfold openRawSocket
  split_ifs with hs hb
  · simp [hs]
  · simp [hb]
  · simp only [not_lt] at hs hb
    simp [hs,hb]

/-- It keeps a socket it does not return exactly when `bind` fails on it. -/
theorem openRawSocket_sockets (calls : SocketCalls) (h : calls.bind < 0) :
    (openRawSocket calls).sockets=[] ↔ calls.socket < 0 := by
  unfold openRawSocket
  by_cases hs : calls.socket < 0
  · simp [hs]
  · simp [hs,h]

/-- The socket is accounted for in exactly the runs in which an opened socket
is also bound, and the loop is not left through the last time-out with an
offer, a failed poll or a network that is down. -/
theorem closesSocket_iff (calls : SocketCalls) (env : Env) (events : List Event) :
    ClosesSocket calls env events ↔
      (0 ≤ calls.socket → 0 ≤ calls.bind ∧ ¬ExitsOpen env events) := by
  unfold ClosesSocket
  rw [openRawSocket_value_nonneg]
  constructor
  · rintro ⟨hclose,hbind⟩ hs
    have hb : 0 ≤ calls.bind := by
      by_contra hneg
      have hlt := not_le.mp hneg
      have hsock := (openRawSocket_sockets calls hlt).mp (hbind hlt)
      omega
    refine ⟨hb,fun hopen => ?_⟩
    obtain ⟨code,hc⟩ := hopen.returned
    exact (returned_closes hc).mp (hclose ⟨hs,hb⟩ code hc) hopen
  · intro h
    constructor
    · rintro ⟨hs,-⟩ code hc
      exact (returned_closes hc).mpr (h hs).2
    · intro hb
      rw [openRawSocket_sockets calls hb]
      by_contra hs
      have := (h (not_lt.mp hs)).1
      omega

/-- A network that goes down before the first answer leaves the socket open. -/
theorem not_forall_closesSocket : ¬∀ calls env events, ClosesSocket calls env events := by
  intro h
  have hret : (dhcpInitIfc zeroEnv [.readFailed .enetdown]).status=.returned (-1) := rfl
  have hone := (h ⟨3,0⟩ zeroEnv [.readFailed .enetdown]).1 (by decide) (-1) hret
  have hzero : (dhcpInitIfc zeroEnv [.readFailed .enetdown]).actions.count .close=0 := by
    decide +kernel
  rw [hzero] at hone
  cases hone

end AndroidPlatform.DhcpClientSocket
