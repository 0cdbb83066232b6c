import Mathlib.Data.List.Basic
import Mathlib.Data.Int.Notation
import Mathlib.Data.Nat.Notation

/-!
# The PPP option negotiation automaton

The automaton of `fsm.c` that LCP and the network protocols of PPP share. Its
callbacks enter as results: what they return is arbitrary, and they do not call
back into the automaton. The pending calls of `fsm_timeout` are counted, and a
history keeps what was sent, what was received and acted on, and which callbacks
were called.
-/

namespace AndroidPlatform.PppFsm

/-- The states of the automaton. -/
inductive State where
  | initial
  | starting
  | closed
  | stopped
  | closing
  | stopping
  | reqSent
  | ackRcvd
  | ackSent
  | opened
  deriving DecidableEq

/-- `CONFREQ` -/
def confReq : UInt8 := 1

/-- `CONFACK` -/
def confAck : UInt8 := 2

/-- `CONFNAK` -/
def confNak : UInt8 := 3

/-- `CONFREJ` -/
def confRej : UInt8 := 4

/-- `TERMREQ` -/
def termReq : UInt8 := 5

/-- `TERMACK` -/
def termAck : UInt8 := 6

/-- `CODEREJ` -/
def codeRej : UInt8 := 7

/-- `HEADERLEN` -/
def headerLen : ℕ := 4

/-- The codes that `reqci` returns. -/
inductive Reply where
  | ack
  | nak
  | rej
  deriving DecidableEq

/-- The code of the packet that carries the reply. -/
def Reply.code : Reply → UInt8
  | .ack => confAck
  | .nak => confNak
  | .rej => confRej

/-- What happened, as far as it can be seen from outside of the automaton. The
calls of callbacks without a result stand for the places where they are made if
the callback is set. -/
inductive Entry where
  /-- A packet was sent. -/
  | sent (code id : UInt8) (data : List UInt8)
  /-- A packet was received in a state that listens. -/
  | received (code id : UInt8)
  /-- The `ackci` callback accepted a CONFACK. -/
  | acked (id : UInt8)
  /-- A CONFNAK or CONFREJ was acted on. -/
  | nakked (code id : UInt8)
  /-- `up` -/
  | up
  /-- `down` -/
  | down
  /-- `starting` -/
  | starting
  /-- `finished` -/
  | finished
  /-- `resetci` -/
  | resetci
  /-- `retransmit` -/
  | retransmit
  deriving DecidableEq

/-- Which of the callbacks with results are set. -/
structure Callbacks where
  /-- `cilen` and `addci` -/
  addci : Bool
  /-- `ackci` -/
  ackci : Bool
  /-- `nakci` -/
  nakci : Bool
  /-- `rejci` -/
  rejci : Bool
  /-- `reqci` -/
  reqci : Bool
  /-- `extcode` -/
  extcode : Bool

/-- `struct fsm`, with the pending timers and the history, the newest entry first. -/
structure Fsm where
  /-- `state` -/
  state : State
  /-- `OPT_PASSIVE` -/
  optPassive : Bool
  /-- `OPT_RESTART` -/
  optRestart : Bool
  /-- `OPT_SILENT` -/
  optSilent : Bool
  /-- `id` -/
  id : UInt8
  /-- `reqid` -/
  reqid : UInt8
  /-- `seen_ack` -/
  seenAck : Bool
  /-- `maxconfreqtransmits` -/
  maxconfreqtransmits : ℤ
  /-- `retransmits` -/
  retransmits : ℤ
  /-- `maxtermtransmits` -/
  maxtermtransmits : ℤ
  /-- `nakloops` -/
  nakloops : ℤ
  /-- `rnakloops` -/
  rnakloops : ℤ
  /-- `callbacks` -/
  callbacks : Callbacks
  /-- `term_reason` -/
  termReason : List UInt8
  /-- How many calls of `fsm_timeout` are pending. -/
  pending : ℕ
  /-- The history. -/
  log : List Entry

/-- What the environment answers during an event: the results of the callbacks,
each of which is called once at most, and `peer_mru`. -/
structure Results where
  /-- `peer_mru` -/
  peerMru : ℕ
  /-- The options that `addci` writes. -/
  addci : List UInt8
  /-- The result of `ackci`. -/
  ackci : Bool
  /-- The result of `nakci`. -/
  nakci : ℤ
  /-- The result of `rejci`. -/
  rejci : ℤ
  /-- The code that `reqci` returns, and the options it leaves in the packet. -/
  reqci : Reply×List UInt8
  /-- The result of `extcode`. -/
  extcode : Bool

namespace Fsm

variable (f : Fsm) (r : Results)

/-- Add to the history. -/
def note (entry : Entry) : Fsm := { f with log := entry::f.log }

/-- `f->state = state` -/
def setState (state : State) : Fsm := { f with state := state }

/-- `TIMEOUT(fsm_timeout, f, f->timeouttime)` -/
def startTimer : Fsm := { f with pending := f.pending+1 }

/-- `UNTIMEOUT(fsm_timeout, f)` -/
def stopTimer : Fsm := { f with pending := f.pending-1 }

/-- `fsm_sdata` -/
def sdata (code id : UInt8) (data : List UInt8) : Fsm :=
  f.note (.sent code id (data.take (r.peerMru-headerLen)))

/-- A new negotiation starts, unless one is under way. -/
def resetNegotiation : Fsm :=
  if f.state=.reqSent ∨ f.state=.ackRcvd ∨ f.state=.ackSent then f
  else { f.note .resetci with nakloops := 0, rnakloops := 0 }

/-- A request that is not sent again gets a new id. -/
def newRequest (retransmit : Bool) : Fsm :=
  if retransmit then f
  else { f with retransmits := f.maxconfreqtransmits, reqid := f.id+1, id := f.id+1 }

/-- The options of a request. -/
def requestOptions : List UInt8 :=
  if f.callbacks.addci then r.addci.take (r.peerMru-headerLen) else []

/-- `fsm_sconfreq` -/
def sconfreq (retransmit : Bool) : Fsm :=
  let g := { f.resetNegotiation.newRequest retransmit with seenAck := false }
  let g := g.sdata r confReq g.reqid (g.requestOptions r)
  { g with retransmits := g.retransmits-1, pending := g.pending+1 }

/-- `fsm_lowerup` -/
def lowerup : Fsm :=
  match f.state with
  | .initial => f.setState .closed
  | .starting =>
    if f.optSilent then f.setState .stopped else (f.sconfreq r false).setState .reqSent
  | _ => f

/-- `fsm_lowerdown` -/
def lowerdown : Fsm :=
  match f.state with
  | .closed => f.setState .initial
  | .stopped => (f.setState .starting).note .starting
  | .closing => (f.setState .initial).stopTimer
  | .stopping | .reqSent | .ackRcvd | .ackSent => (f.setState .starting).stopTimer
  | .opened => (f.note .down).setState .starting
  | _ => f

/-- The end of `fsm_open` for a layer that is there already. -/
def restart : Fsm := if f.optRestart then f.lowerdown.lowerup r else f

/-- `fsm_open` -/
def fsmOpen : Fsm :=
  match f.state with
  | .initial => (f.setState .starting).note .starting
  | .closed =>
    if f.optSilent then f.setState .stopped else (f.sconfreq r false).setState .reqSent
  | .closing => (f.setState .stopping).restart r
  | .stopped | .opened => f.restart r
  | _ => f

/-- The start of `terminate_layer`. -/
def leaveLayer : Fsm := if f.state=.opened then f.note .down else f.stopTimer

/-- Send a TERMREQ with a new id. -/
def sendTermReq : Fsm :=
  { f with reqid := f.id+1, id := f.id+1 }.sdata r termReq (f.id+1) f.termReason

/-- `terminate_layer` -/
def terminateLayer (nextstate : State) : Fsm :=
  let g := { f.leaveLayer with retransmits := f.maxtermtransmits }.sendTermReq r
  if g.retransmits=0 then
    (g.setState (if nextstate=.closing then .closed else .stopped)).note .finished
  else { g.startTimer.setState nextstate with retransmits := g.retransmits-1 }

/-- `fsm_close` -/
def close (reason : Option (List UInt8)) : Fsm :=
  let g := { f with termReason := reason.getD [] }
  match g.state with
  | .starting => g.setState .initial
  | .stopped => g.setState .closed
  | .stopping => g.setState .closing
  | .reqSent | .ackRcvd | .ackSent | .opened => g.terminateLayer r .closing
  | _ => g

/-- `fsm_timeout` -/
def timeout : Fsm :=
  match f.state with
  | .closing | .stopping =>
    if f.retransmits≤0 then
      (f.setState (if f.state=.closing then .closed else .stopped)).note .finished
    else { (f.sendTermReq r).startTimer with retransmits := f.retransmits-1 }
  | .reqSent | .ackRcvd | .ackSent =>
    if f.retransmits≤0 then
      if f.optPassive then f.setState .stopped else (f.setState .stopped).note .finished
    else
      let g := (f.note .retransmit).sconfreq r true
      if g.state=.ackRcvd then g.setState .reqSent else g
  | _ => f

/-- `fsm_timeout` is called when a pending timer has expired. -/
def expire : Fsm := f.stopTimer.timeout r

/-- The states of `fsm_rconfreq` that start a new negotiation first. -/
def reopenForRequest : Fsm :=
  match f.state with
  | .opened => ((f.note .down).sconfreq r false).setState .reqSent
  | .stopped => (f.sconfreq r false).setState .reqSent
  | _ => f

/-- The answer to a request: the code and the options. Whether `reqci` is told to
reject depends on `nakloops`, its result is arbitrary anyway. -/
def judgeRequest (data : List UInt8) : Reply×List UInt8 :=
  if f.callbacks.reqci then r.reqci else if data≠[] then (.rej,data) else (.ack,data)

/-- The end of `fsm_rconfreq`, when the answer has been sent. -/
def afterAnswer (reply : Reply) : Fsm :=
  if reply=.ack then
    { if f.state=.ackRcvd then (f.stopTimer.setState .opened).note .up else f.setState .ackSent
      with nakloops := 0 }
  else
    { if f.state=.ackRcvd then f else f.setState .reqSent
      with nakloops := if reply=.nak then f.nakloops+1 else f.nakloops }

/-- `fsm_rconfreq` -/
def rconfreq (id : UInt8) (data : List UInt8) : Fsm :=
  match f.state with
  | .closed => f.sdata r termAck id []
  | .closing | .stopping => f
  | _ =>
    let g := f.reopenForRequest r
    let answer := g.judgeRequest r data
    (g.sdata r answer.1.code id answer.2).afterAnswer answer.1

/-- The end of `fsm_rconfack`, when the acknowledgement has been accepted. -/
def afterAck (id : UInt8) : Fsm :=
  match f.state with
  | .closed | .stopped => f.sdata r termAck id []
  | .reqSent => { f.setState .ackRcvd with retransmits := f.maxconfreqtransmits }
  | .ackRcvd => (f.stopTimer.sconfreq r false).setState .reqSent
  | .ackSent =>
    { f.stopTimer.setState .opened with retransmits := f.maxconfreqtransmits }.note .up
  | .opened => ((f.note .down).sconfreq r false).setState .reqSent
  | _ => f

/-- `fsm_rconfack` -/
def rconfack (id : UInt8) (data : List UInt8) : Fsm :=
  if id≠f.reqid ∨ f.seenAck=true then f
  else if (if f.callbacks.ackci then r.ackci else data.isEmpty)=true then
    { f.note (.acked id) with seenAck := true, rnakloops := 0 }.afterAck r id
  else f

/-- The end of `fsm_rconfnakrej`, when the packet has been accepted. -/
def afterNakRej (id : UInt8) (ret : ℤ) : Fsm :=
  match f.state with
  | .closed | .stopped => f.sdata r termAck id []
  | .reqSent | .ackSent =>
    if ret<0 then f.stopTimer.setState .stopped else f.stopTimer.sconfreq r false
  | .ackRcvd => (f.stopTimer.sconfreq r false).setState .reqSent
  | .opened => ((f.note .down).sconfreq r false).setState .reqSent
  | _ => f

/-- The count of received CONFNAKs in `fsm_rconfnakrej`. -/
def countNak (code : UInt8) : Fsm :=
  { f with rnakloops := if code=confNak then f.rnakloops+1 else 0 }

/-- What `nakci` or `rejci` returns; 0 if it is not set. -/
def judgeNakRej (code : UInt8) : ℤ :=
  if code=confNak then if f.callbacks.nakci then r.nakci else 0
  else if f.callbacks.rejci then r.rejci else 0

/-- `fsm_rconfnakrej` -/
def rconfnakrej (code id : UInt8) : Fsm :=
  if id≠f.reqid ∨ f.seenAck=true then f
  else
    let g := f.countNak code
    if g.judgeNakRej r code=0 then g
    else { g.note (.nakked code id) with seenAck := true }.afterNakRej r id (g.judgeNakRej r code)

/-- The change of state of `fsm_rtermreq`. -/
def afterTermReq : Fsm :=
  match f.state with
  | .ackRcvd | .ackSent => f.setState .reqSent
  | .opened => ({ f.setState .stopping with retransmits := 0 }.note .down).startTimer
  | _ => f

/-- `fsm_rtermreq` -/
def rtermreq (id : UInt8) : Fsm := f.afterTermReq.sdata r termAck id []

/-- `fsm_rtermack` -/
def rtermack : Fsm :=
  match f.state with
  | .closing => (f.stopTimer.setState .closed).note .finished
  | .stopping => (f.stopTimer.setState .stopped).note .finished
  | .ackRcvd => f.setState .reqSent
  | .opened => ((f.note .down).sconfreq r false).setState .reqSent
  | _ => f

/-- `fsm_rcoderej` -/
def rcoderej (data : List UInt8) : Fsm :=
  if data.length<headerLen then f
  else if f.state=.ackRcvd then f.setState .reqSent else f

/-- `fsm_protreject` -/
def protreject : Fsm :=
  match f.state with
  | .closing => (f.stopTimer.setState .closed).note .finished
  | .closed => (f.setState .closed).note .finished
  | .stopping | .reqSent | .ackRcvd | .ackSent => (f.stopTimer.setState .stopped).note .finished
  | .stopped => (f.setState .stopped).note .finished
  | .opened => f.terminateLayer r .stopping
  | _ => f

/-- The handling of an unknown code: a CODEREJ with a new id unless `extcode` takes it. -/
def rextcode (packet : List UInt8) : Fsm :=
  if f.callbacks.extcode=true ∧ r.extcode=true then f
  else { f with id := f.id+1 }.sdata r codeRej (f.id+1) packet

/-- The dispatch of `fsm_input` on the code. -/
def dispatch (code id : UInt8) (data packet : List UInt8) : Fsm :=
  if code=confReq then f.rconfreq r id data
  else if code=confAck then f.rconfack r id data
  else if code=confNak ∨ code=confRej then f.rconfnakrej r code id
  else if code=termReq then f.rtermreq r id
  else if code=termAck then f.rtermack r
  else if code=codeRej then f.rcoderej data
  else f.rextcode r packet

/-- `fsm_input` for the bytes of a packet. -/
def input (inpacket : List UInt8) : Fsm :=
  match inpacket with
  | code::id::high::low::rest =>
    let len := 256*high.toNat+low.toNat
    if len<headerLen ∨ inpacket.length<len then f
    else if f.state=.initial ∨ f.state=.starting then f
    else
      (f.note (.received code id)).dispatch r code id (rest.take (len-headerLen))
        (inpacket.take len)
  | _ => f

/-- `fsm_init`, for an automaton that is otherwise zero, with the limits that
the options set. -/
def init (callbacks : Callbacks) (maxconfreqtransmits maxtermtransmits : ℤ) : Fsm where
  state := .initial
  optPassive := false
  optRestart := false
  optSilent := false
  id := 0
  reqid := 0
  seenAck := false
  maxconfreqtransmits := maxconfreqtransmits
  retransmits := 0
  maxtermtransmits := maxtermtransmits
  nakloops := 0
  rnakloops := 0
  callbacks := callbacks
  termReason := []
  pending := 0
  log := []

end Fsm

/-- The events of the automaton. The flags may be set at any time. -/
inductive Event where
  | lowerup
  | lowerdown
  | openLayer
  | close (reason : Option (List UInt8))
  | expire
  | input (packet : List UInt8)
  | protreject
  | setFlags (passive restart silent : Bool)

/-- The automaton after an event. A timer can only expire if one is pending. -/
def step (f : Fsm) (event : Event×Results) : Option Fsm :=
  match event.1 with
  | .lowerup => some (f.lowerup event.2)
  | .lowerdown => some f.lowerdown
  | .openLayer => some (f.fsmOpen event.2)
  | .close reason => some (f.close event.2 reason)
  | .expire => if f.pending=0 then none else some (f.expire event.2)
  | .input packet => some (f.input event.2 packet)
  | .protreject => some (f.protreject event.2)
  | .setFlags passive restart silent =>
    some { f with optPassive := passive, optRestart := restart, optSilent := silent }

end AndroidPlatform.PppFsm
