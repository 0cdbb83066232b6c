import AndroidPlatform.DnsPacket
import Mathlib.Data.List.Range

/-!
# Forwarding DNS queries and replies

A query that is not answered locally gets a record in the forwarding table
of `forward.c`: the client it came from with its id, a new id under which it
is sent upstream, and the checksum of its question section. A reply is
matched to a record by the id and the checksum. Records are recycled when
they are answered or too old.

What the table does not decide enters as an outcome: the result of
`search_servers`, whether the packet is signed, the random numbers, and what
the sockets and the allocator return.
-/

namespace AndroidPlatform.DnsForward

open DnsPacket

/-- `AF_INET` and `AF_INET6`. -/
inductive Family where
  | inet
  | inet6
  deriving DecidableEq

/-- `union mysockaddr`, as far as `sockaddr_isequal` compares it. -/
structure SockAddr where
  /-- The address family. -/
  family : Family
  /-- The address. -/
  addr : List UInt8
  /-- The port. -/
  port : ℕ
  deriving DecidableEq

/-- `struct server` -/
structure Server where
  /-- Where queries are sent to and replies come from. -/
  addr : SockAddr
  /-- The socket it is bound to, if it does not use a random one. -/
  sfd : Option ℕ
  /-- The domain it is for. -/
  domain : List UInt8
  /-- `flags & SERV_TYPE` -/
  type : ℕ
  /-- `SERV_LITERAL_ADDRESS` -/
  literalAddress : Bool
  /-- `SERV_NO_ADDR` -/
  noAddr : Bool

/-- `SERV_HAS_DOMAIN` -/
def servHasDomain : ℕ := 8

/-- `struct randfd` -/
structure RandFd where
  /-- The socket. -/
  fd : ℕ
  /-- How many records use it. -/
  refcount : ℕ
  /-- Its address family. -/
  family : Family
  /-- Whether the socket is open. -/
  isOpen : Bool

/-- Where a query came from: the arguments of `forward_query` that say how to answer. -/
structure Client where
  /-- The socket it came in on. -/
  fd : ℕ
  /-- `udpaddr`, the address of the client. -/
  source : SockAddr
  /-- `dst_addr`, the address it was sent to. -/
  dest : List UInt8
  /-- `dst_iface`, the interface. -/
  iface : ℕ
  deriving DecidableEq

/-- `struct frec` -/
structure Frec where
  /-- The client: `fd`, `source`, `dest` and `iface`. -/
  client : Client
  /-- The server it was last sent to; null when the record is free. -/
  sentto : Option ℕ
  /-- The random socket for IPv4. -/
  rfd4 : Option ℕ
  /-- The random socket for IPv6. -/
  rfd6 : Option ℕ
  /-- The id of the client's query. -/
  origId : ℕ
  /-- The id it was sent with. -/
  newId : ℕ
  /-- How many servers it was sent to, or 0 if only to one. -/
  forwardall : ℤ
  /-- The checksum of the question section. -/
  crc : BitVec 32
  /-- When it was taken. -/
  time : ℤ

/-- The part of `daemon` that forwarding uses. Records and servers are
numbered; the list of records starts with the newest. -/
structure Daemon where
  /-- The servers, in the order of the list. -/
  servers : List Server
  /-- `OPT_ORDER` -/
  order : Bool
  /-- `OPT_ALL_SERVERS` -/
  allServers : Bool
  /-- The size of the table. -/
  ftabsize : ℕ
  /-- The server that answered last. -/
  lastServer : Option ℕ
  /-- Queries since all servers were tried. -/
  forwardcount : ℤ
  /-- When all servers were tried. -/
  forwardtime : ℤ
  /-- The records. -/
  frec : ℕ → Frec
  /-- How many records have been allocated. -/
  frecCount : ℕ
  /-- The random sockets. -/
  randomsocks : ℕ → RandFd
  /-- Where the search for a shared socket starts. -/
  finger : ℕ

/-- `TIMEOUT` -/
def timeout : ℤ := 10

/-- `FORWARD_TEST` -/
def forwardTest : ℤ := 50

/-- `FORWARD_TIME` -/
def forwardTime : ℤ := 10

/-- `RANDOM_SOCKS` -/
def randomSocks : ℕ := 64

/-- What the environment does while a query is forwarded. -/
structure Outcomes where
  /-- Whether `search_servers` finds a local answer, its `type` and its `domain`. -/
  search : Bool×ℕ×List UInt8
  /-- Whether the packet is signed. -/
  isSign : Bool
  /-- The values of `rand16`. -/
  rand16 : List ℕ
  /-- Whether a new record can be allocated. -/
  malloc : Bool
  /-- The result of `random_sock` for a server. -/
  randomSock : ℕ → Option ℕ
  /-- Whether sending to a server succeeds. -/
  sendto : ℕ → Bool

namespace Daemon

variable (d : Daemon)

/-- A change of one record. -/
def setFrec (f : ℕ) (r : Frec) : Daemon := { d with frec := Function.update d.frec f r }

/-- The list of records, the newest first. -/
def frecList : List ℕ := (List.range d.frecCount).reverse

/-- `refcount--` of a random socket, which is closed when no record uses it. -/
def releaseRfd : Option ℕ → Daemon
  | none => d
  | some i =>
    { d with
      randomsocks := Function.update d.randomsocks i
        { d.randomsocks i with
          refcount := (d.randomsocks i).refcount-1
          isOpen := (d.randomsocks i).isOpen && (d.randomsocks i).refcount-1≠0 } }

/-- `free_frec` -/
def freeFrec (f : ℕ) : Daemon :=
  ((d.releaseRfd (d.frec f).rfd4).releaseRfd (d.frec f).rfd6).setFrec f
    { d.frec f with rfd4 := none, rfd6 := none, sentto := none }

/-- `lookup_frec` -/
def lookupFrec (id : ℕ) (crc : BitVec 32) : Option ℕ :=
  d.frecList.find? fun f =>
    (d.frec f).sentto.isSome && (d.frec f).newId==id &&
      ((d.frec f).crc==crc || crc==noQuestion)

/-- `lookup_frec_by_sender` -/
def lookupFrecBySender (id : ℕ) (addr : SockAddr) (crc : BitVec 32) : Option ℕ :=
  d.frecList.find? fun f =>
    (d.frec f).sentto.isSome && (d.frec f).origId==id && (d.frec f).crc==crc &&
      (d.frec f).client.source==addr

/-- `get_id`: the table and the id; none while no random number is free. -/
def getId (force : Bool) (forceId : ℕ) (crc : BitVec 32) (rand16 : List ℕ) :
    Option (Daemon×ℕ) :=
  if force then
    match d.lookupFrec forceId crc with
    | some f => some (d.freeFrec f,forceId)
    | none => some (d,forceId)
  else (rand16.find? fun id => (d.lookupFrec (id%65536) crc).isNone).map fun id => (d,id%65536)

/-- `allocate_frec` -/
def allocateFrec (now : ℤ) (malloc : Bool) : Option (Daemon×ℕ) :=
  if malloc then
    some ({ d with
      frec := Function.update d.frec d.frecCount
        { d.frec d.frecCount with time := now, sentto := none, rfd4 := none, rfd6 := none }
      frecCount := d.frecCount+1 },d.frecCount)
  else none

/-- The older of a record and the oldest one so far. -/
def older (f : ℕ) : Option ℕ → ℕ
  | none => f
  | some oldest => if (d.frec f).time-(d.frec oldest).time≤0 then f else oldest

/-- The loop of `get_new_frec` with `target` and `oldest`. -/
def scanFrecs (now : ℤ) : List ℕ → Daemon → Option ℕ → Option ℕ → Daemon×Option ℕ×Option ℕ
  | [],d,target,oldest => (d,target,oldest)
  | f::rest,d,target,oldest =>
    if (d.frec f).sentto=none then scanFrecs now rest d (some f) oldest
    else if 4*timeout≤now-(d.frec f).time then
      scanFrecs now rest (d.freeFrec f) (some f) (some (d.older f oldest))
    else scanFrecs now rest d target (some (d.older f oldest))

/-- Take a record: `time = now`. -/
def takeFrec (f : ℕ) (now : ℤ) : Daemon := d.setFrec f { d.frec f with time := now }

/-- `get_new_frec` without a place for the waiting time. -/
def getNewFrec (now : ℤ) (malloc : Bool) : Option (Daemon×ℕ) :=
  match scanFrecs now d.frecList d none none with
  | (d',some target,_) => some (d'.takeFrec target now,target)
  | (d',none,some oldest) =>
    if timeout≤now-(d'.frec oldest).time then
      if now-(d'.frec oldest).time<2*timeout ∧ d.frecCount≤d.ftabsize ∧ malloc=true then
        d'.allocateFrec now malloc
      else some ((d'.freeFrec oldest).takeFrec oldest now,oldest)
    else if d.ftabsize<d.frecCount then none
    else d'.allocateFrec now malloc
  | (d',none,none) =>
    if d.ftabsize<d.frecCount then none else d'.allocateFrec now malloc

/-- `allocate_rfd`, where `sock` is the result of `random_sock`. -/
def allocateRfd (family : Family) (sock : Option ℕ) : Option (Daemon×ℕ) :=
  match (List.range randomSocks).find? fun i => (d.randomsocks i).refcount==0,sock with
  | some i,some fd =>
    some ({ d with randomsocks := Function.update d.randomsocks i ⟨fd,1,family,true⟩ },i)
  | _,_ =>
    (((List.range randomSocks).map fun i => (i+d.finger)%randomSocks).find? fun j =>
      (d.randomsocks j).refcount≠0 && (d.randomsocks j).family==family &&
        (d.randomsocks j).refcount≠65535).map fun j =>
      ({ d with
        finger := j
        randomsocks := Function.update d.randomsocks j
          { d.randomsocks j with refcount := (d.randomsocks j).refcount+1 } },j)

/-- The socket to send from: the server's own, or a random one that the
record keeps. None if there is no socket. -/
def openSocket (f : ℕ) (server : Server) (sock : Option ℕ) : Option Daemon :=
  match server.sfd with
  | some _ => some d
  | none =>
    match server.addr.family with
    | .inet6 =>
      match (d.frec f).rfd6 with
      | some _ => some d
      | none =>
        (d.allocateRfd .inet6 sock).map fun r => r.1.setFrec f { r.1.frec f with rfd6 := some r.2 }
    | .inet =>
      match (d.frec f).rfd4 with
      | some _ => some d
      | none =>
        (d.allocateRfd .inet sock).map fun r => r.1.setFrec f { r.1.frec f with rfd4 := some r.2 }

/-- `hostname_isequal` -/
def hostnameIsequal (a b : List UInt8) : Bool := a.map toLower==b.map toLower

/-- Whether the query may go to a server. -/
def suits (type : ℕ) (domain : List UInt8) (server : Server) : Bool :=
  type==server.type && (type≠servHasDomain || hostnameIsequal domain server.domain) &&
    !server.literalAddress

/-- The server behind a server in the list, the first one behind the last. -/
def nextServer (start : ℕ) : ℕ := if start+1<d.servers.length then start+1 else 0

/-- `forward->sentto = start` -/
def markSent (f start : ℕ) : Daemon := d.setFrec f { d.frec f with sentto := some start }

/-- `forward->forwardall++` -/
def countSent (f : ℕ) : Daemon :=
  d.setFrec f { d.frec f with forwardall := (d.frec f).forwardall+1 }

/-- The loop of `forward_query` over the servers: the daemon, and the servers
it has sent the query to. It ends when it comes to the first server again. -/
def sendLoop (io : Outcomes) (type : ℕ) (domain : List UInt8) (f : ℕ) :
    ℕ → ℕ → Daemon → List ℕ → Daemon×List ℕ
  | 0,_,d,sent => (d,sent)
  | fuel+1,start,d,sent =>
    match d.servers[start]? with
    | none => (d,sent)
    | some server =>
      if suits type domain server then
        match d.openSocket f server (io.randomSock start) with
        | none => (d,sent)
        | some d1 =>
          if io.sendto start then
            if (d1.frec f).forwardall=0 then (d1.markSent f start,sent++[start])
            else
              sendLoop io type domain f fuel (d.nextServer start)
                ((d1.markSent f start).countSent f) (sent++[start])
          else sendLoop io type domain f fuel (d.nextServer start) d1 sent
      else sendLoop io type domain f fuel (d.nextServer start) d sent

/-- The end of `forward_query`: send, and free the record if nothing was sent. -/
def send (io : Outcomes) (type : ℕ) (domain : List UInt8) (f start : ℕ) : Daemon×List ℕ :=
  let r := sendLoop io type domain f d.servers.length start d []
  if r.2=[] then (r.1.freeFrec f,[]) else r

/-- Fill a record for a new query. -/
def fillFrec (f : ℕ) (client : Client) (packet : Packet) (newId : ℕ) : Daemon :=
  d.setFrec f
    { d.frec f with
      client := client, origId := packet.id, newId := newId, crc := questionsCrc packet
      forwardall := 0 }

/-- `forward->forwardall = 1` -/
def markAll (f : ℕ) : Daemon := d.setFrec f { d.frec f with forwardall := 1 }

/-- Try all servers from now on. -/
def startAll (f : ℕ) (now : ℤ) : Daemon :=
  { d.markAll f with forwardcount := 0, forwardtime := now }

/-- The choice of the first server for a new query. -/
def chooseStart (type f : ℕ) (now : ℤ) : Daemon×ℕ :=
  if type≠0 ∨ d.order=true then (d,0)
  else
    match d.lastServer with
    | none => (d.startAll f now,0)
    | some server =>
      if forwardTest<d.forwardcount ∨ forwardTime<now-d.forwardtime then (d.startAll f now,0)
      else ({ d with forwardcount := d.forwardcount+1 },server)

/-- What `forward_query` did. -/
structure Forwarded where
  /-- The daemon afterwards. -/
  daemon : Daemon
  /-- The record it has filled for a new query. -/
  created : Option ℕ
  /-- The servers it has sent the packet to. -/
  sent : List ℕ

/-- A query that comes again goes to all servers, unless they are asked in order. -/
def tryAll (f : ℕ) : Daemon :=
  if d.order then d else { d.markAll f with lastServer := none }

/-- `forward_query` for a record that exists: try the next server. -/
def resendQuery (io : Outcomes) (f : ℕ) : Forwarded :=
  match (d.frec f).sentto with
  | none => ⟨d,none,[]⟩
  | some sentto =>
    match d.servers[sentto]? with
    | none => ⟨d,none,[]⟩
    | some server =>
      let r := (d.tryAll f).send io server.type server.domain f (d.nextServer sentto)
      ⟨r.1,none,r.2⟩

/-- `forward_query` for a query without a record; none while no id is found. -/
def newQuery (io : Outcomes) (client : Client) (packet : Packet) (now : ℤ) : Option Forwarded :=
  if io.search.1 then some ⟨d,none,[]⟩
  else
    match d.getNewFrec now io.malloc with
    | none => some ⟨d,none,[]⟩
    | some (d1,f) =>
      (d1.getId io.isSign packet.id (questionsCrc packet) io.rand16).map fun r =>
        let start := (r.1.fillFrec f client packet r.2).chooseStart io.search.2.1 f now
        let sent := start.1.send io io.search.2.1 io.search.2.2 f start.2
        ⟨sent.1,some f,sent.2⟩

/-- `forward_query` for the query of a client. -/
def forwardQuery (io : Outcomes) (client : Client) (packet : Packet) (now : ℤ) :
    Option Forwarded :=
  if d.servers=[] then some ⟨d,none,[]⟩
  else
    match d.lookupFrecBySender packet.id client.source (questionsCrc packet) with
    | some f => some (d.resendQuery io f)
    | none => d.newQuery io client packet now

/-- What the environment does while a reply is handled. -/
structure ReplyOutcomes where
  /-- The outcomes when it is sent to another server. -/
  io : Outcomes
  /-- Whether the packet is signed. -/
  isSign : Bool
  /-- Whether `resize_packet` leaves a packet to send to another server. -/
  resized : Bool
  /-- The packet that `process_reply` makes of it; none if it returns 0. -/
  processed : Option Packet

/-- A packet that is sent to a client. -/
structure Relay where
  /-- Where it is sent. -/
  client : Client
  /-- The packet. -/
  packet : Packet

/-- `header->id = htons(id)` and `header->ra = 1` -/
def answerPacket (packet : Packet) (id : ℕ) : Packet where
  bytes i :=
    if i=0 then UInt8.ofNat (id/256)
    else if i=1 then UInt8.ofNat id
    else if i=3 then packet.bytes 3 ||| 128
    else packet.bytes i
  len := packet.len

/-- Whether a server has this address, in the list of those that reply. -/
def repliesFrom (addr : SockAddr) (server : Server) : Bool :=
  !server.literalAddress && !server.noAddr && server.addr==addr

/-- The server to ask first from now on. -/
def noteServer (f : ℕ) (addr : SockAddr) (packet : Packet) : Daemon :=
  match (d.frec f).sentto with
  | none => d
  | some sentto =>
    if (d.servers[sentto]?).any fun server => server.type==0 then
      let server :=
        if packet.rcode=servfail ∨ packet.rcode=refused then none
        else
          match d.servers.findIdx? fun server => repliesFrom addr server && server.type==0 with
          | some i => some i
          | none => some sentto
      if d.allServers then d else { d with lastServer := server }
    else d

/-- `--forward->forwardall`, which is left out when the query went to one server. -/
def countReply (f : ℕ) : Daemon :=
  if (d.frec f).forwardall=0 then d
  else d.setFrec f { d.frec f with forwardall := (d.frec f).forwardall-1 }

/-- The end of `reply_query`: relay the packet unless other servers may still answer. -/
def relayReply (f : ℕ) (packet : Packet) (out : ReplyOutcomes) : Daemon×Option Relay :=
  let d1 := d.countReply f
  if (d.frec f).forwardall=0 ∨ (d1.frec f).forwardall=1 ∨
      (packet.rcode≠refused ∧ packet.rcode≠servfail) then
    (d1.freeFrec f,out.processed.map fun p =>
      ⟨(d1.frec f).client,answerPacket p (d1.frec f).origId⟩)
  else (d1,none)

/-- `reply_query` for a packet from an address. -/
def replyQuery (addr : SockAddr) (packet : Packet) (out : ReplyOutcomes) : Daemon×Option Relay :=
  if d.servers.any (repliesFrom addr) && headerSize≤packet.len && packet.qr then
    match d.lookupFrec packet.id (questionsCrc packet) with
    | none => (d,none)
    | some f =>
      if (packet.rcode=servfail ∨ packet.rcode=refused) ∧ d.order=false ∧
          (d.frec f).forwardall=0 ∧ out.isSign=false ∧ out.resized=true then
        ((d.resendQuery out.io f).daemon,none)
      else (d.noteServer f addr packet).relayReply f packet out
  else (d,none)

end Daemon

end AndroidPlatform.DnsForward
