import AndroidPlatform.DhcpPacket

/-!
# The DHCP client loop of libnetutils

`dhcp_init_ifc` as a transition function over the outcomes of `poll` and
`read`. Its local variables are the state, among them the one `dhcp_info`
record that every delivered datagram overwrites before the reply is checked.
Messages sent, calls of `dhcp_configure` and `close` are recorded as actions
in the order in which they happen.
-/

namespace AndroidPlatform.DhcpClient

open WireBytes DhcpMessage DhcpPacket

/-- `STATE_SELECTING` and `STATE_REQUESTING`. -/
inductive Phase where
  | selecting
  | requesting
  deriving DecidableEq

/-- `TIMEOUT_INITIAL`, in milliseconds. -/
def timeoutInitial : ℕ := 4000

/-- `TIMEOUT_MAX`, in milliseconds. -/
def timeoutMax : ℕ := 32000

/-- The error numbers that the loop tells apart. -/
inductive Errno where
  | eagain
  | eintr
  | enetdown
  | enxio
  | other
  deriving DecidableEq

/-- Outcome of one `poll`, and of the `read` that follows a ready socket. -/
inductive Event where
  /-- `poll` returned zero. -/
  | timeout
  /-- `poll` failed. -/
  | pollFailed (errno : Errno)
  /-- `read` failed, so `receive_packet` returned -1 with this error. -/
  | readFailed (errno : Errno)
  /-- `read` returned a datagram, over a packet buffer with these old bytes. -/
  | datagram (stack : Stack) (datagram : Datagram)

/-- An effect outside the function. -/
inductive Action where
  /-- `send_message` with this message and size. -/
  | send (msg : DhcpMsg) (size : ℕ)
  /-- `close(s)`. -/
  | close
  /-- `dhcp_configure` with this record. -/
  | configure (info : DhcpInfo)
  deriving DecidableEq

/-- What the function finds when it starts: the interface address, the clock
and the old contents of its uninitialised locals. -/
structure Env where
  /-- `hwaddr` from `ifc_get_hwaddr`. -/
  hwaddr : HwAddr
  /-- `get_msecs()`, cut to thirty-two bits. -/
  msecs : UInt32
  /-- Old stack contents of `discover_msg`. -/
  discoverMsg : DhcpMsg
  /-- Old stack contents of `request_msg`. -/
  requestMsg : DhcpMsg
  /-- Old stack contents of `reply`. -/
  reply : DhcpMsg
  /-- Old stack contents of `info`, whose type alone is initialised. -/
  info : DhcpInfo
  /-- Return value of `ifc_configure`. -/
  ifcConfigure : DhcpInfo → ℤ

/-- The local variables of `dhcp_init_ifc` that live across iterations. -/
structure Client where
  /-- `state`. -/
  state : Phase
  /-- `timeout`, in milliseconds. -/
  timeout : ℕ
  /-- `xid`. -/
  xid : UInt32
  /-- `info`. -/
  info : DhcpInfo
  /-- `discover_msg`. -/
  discoverMsg : DhcpMsg
  /-- `request_msg`. -/
  requestMsg : DhcpMsg
  /-- `reply`. -/
  reply : DhcpMsg
  deriving DecidableEq

/-- Where the function is between two events. -/
inductive Status where
  /-- At the top of the loop. -/
  | running (client : Client)
  /-- Returned with this value. -/
  | returned (code : ℤ)
  /-- After a copy outside the message buffer. -/
  | undefined
  deriving DecidableEq

/-- The result of one event. -/
structure StepResult where
  /-- Where the function is after the event. -/
  status : Status
  /-- What it did, oldest first. -/
  actions : List Action

/-- The code at `transmit`: rebuild the message of the current state from the
locals and send it. `send_message` prints the message first, in place. -/
def transmit (env : Env) (client : Client) : StepResult :=
  match client.state with
  | .selecting =>
    let built := initDhcpDiscoverMsg env.hwaddr client.xid
    let msg := dumpDhcpMsg built.1 built.2
    ⟨.running {client with discoverMsg := msg},[.send msg built.2]⟩
  | .requesting =>
    let built := initDhcpRequestMsg env.hwaddr client.xid client.info.ipaddr
      client.info.serveraddr
    let msg := dumpDhcpMsg built.1 built.2
    ⟨.running {client with requestMsg := msg},[.send msg built.2]⟩

/-- The message that a reply is compared with in the current state. -/
def Client.outstanding (client : Client) : DhcpMsg :=
  match client.state with
  | .selecting => client.discoverMsg
  | .requesting => client.requestMsg

/-- `reply` after the copy of the received bytes and the in-place dump. -/
def Client.received (client : Client) (bytes : List UInt8) : DhcpMsg :=
  dumpDhcpMsg (client.reply.overwrite bytes) bytes.length

/-- `info` as `decode_dhcp_msg` leaves it for the received bytes. -/
def Client.decoded (client : Client) (bytes : List UInt8) : DhcpInfo :=
  (decodeDhcpMsg (client.received bytes) bytes.length).2

/-- `valid_reply` for the received bytes. -/
def Client.accepts (client : Client) (bytes : List UInt8) : Bool :=
  isValidReply client.outstanding (client.received bytes) bytes.length

/-- The locals after `receive_packet` and `decode_dhcp_msg`, before the reply
is checked. -/
def Client.stored (client : Client) (bytes : List UInt8) : Client :=
  {client with reply := client.received bytes, info := client.decoded bytes}

/-- The loop body once `receive_packet` has delivered bytes. -/
def handleReply (env : Env) (client : Client) (bytes : List UInt8) : StepResult :=
  let stored := client.stored bytes
  if client.accepts bytes=false then ⟨.running stored,[]⟩
  else
    match client.state with
    | .selecting =>
      if stored.info.type=dhcpOffer then
        transmit env {stored with
          state := .requesting, timeout := timeoutInitial, xid := stored.xid+1}
      else ⟨.running stored,[]⟩
    | .requesting =>
      if stored.info.type=dhcpAck then
        ⟨.returned (env.ifcConfigure stored.info),[.close,.configure stored.info]⟩
      else if stored.info.type=dhcpNak then ⟨.returned (-1),[.close]⟩
      else ⟨.running stored,[]⟩

/-- One iteration of the loop. -/
def step (env : Env) (client : Client) : Event → StepResult
  | .timeout =>
    if timeoutMax ≤ client.timeout then
      if client.info.type=dhcpOffer then
        ⟨.returned (env.ifcConfigure client.info),[.configure client.info]⟩
      else ⟨.returned (-1),[.close]⟩
    else transmit env {client with timeout := client.timeout*2}
  | .pollFailed errno =>
    if errno=.eagain ∨ errno=.eintr then ⟨.running client,[]⟩ else ⟨.returned (-1),[]⟩
  | .readFailed errno =>
    if errno=.enetdown ∨ errno=.enxio then ⟨.returned (-1),[]⟩ else ⟨.running client,[]⟩
  | .datagram stack datagram =>
    match receivePacket stack datagram with
    | .rejected => ⟨.running client,[]⟩
    | .overrun _ => ⟨.undefined,[]⟩
    | .delivered bytes => handleReply env client bytes

/-- The locals at the first jump to `transmit`. -/
def initialClient (env : Env) : Client where
  state := .selecting
  timeout := timeoutInitial
  xid := env.msecs
  info := {env.info with type := 0}
  discoverMsg := env.discoverMsg
  requestMsg := env.requestMsg
  reply := env.reply

/-- An event after the function has ended changes nothing. -/
def advance (env : Env) (result : StepResult) (event : Event) : StepResult :=
  match result.status with
  | .running client =>
    ⟨(step env client event).status,result.actions++(step env client event).actions⟩
  | .returned _ => result
  | .undefined => result

/-- A whole run of `dhcp_init_ifc` over a sequence of events. -/
def dhcpInitIfc (env : Env) (events : List Event) : StepResult :=
  events.foldl (advance env) (transmit env (initialClient env))

end AndroidPlatform.DhcpClient
