import AndroidPlatform.WireBytes

/-!
# DHCP messages of libnetutils

The message is the memory of a `struct dhcp_msg`, with its fields at their C
offsets. The two requests of the client are built as `dhcpmsg.c` writes them,
and the option scan of `decode_dhcp_msg` keeps its own length counter beside
the pointer into the buffer, so that how far it reads is a property of the
scan and not of the representation.
-/

namespace AndroidPlatform.DhcpMessage

open WireBytes

/-- `sizeof(struct dhcp_msg)`. -/
def sizeofDhcpMsg : ℕ := 1260

/-- `DHCP_MSG_FIXED_SIZE`, which is also the offset of `options`. -/
def dhcpMsgFixedSize : ℕ := 236

/-- `OP_BOOTREQUEST`. -/
def opBootrequest : UInt8 := 1

/-- `OP_BOOTREPLY`. -/
def opBootreply : UInt8 := 2

/-- `FLAGS_BROADCAST`. -/
def flagsBroadcast : ℕ := 0x8000

/-- `HTYPE_ETHER`. -/
def htypeEther : UInt8 := 1

/-- `OPT_COOKIE1` to `OPT_COOKIE4`. -/
def optCookie : List UInt8 := [0x63,0x82,0x53,0x63]

/-- `OPT_PAD`. -/
def optPad : UInt8 := 0

/-- `OPT_SUBNET_MASK`. -/
def optSubnetMask : UInt8 := 1

/-- `OPT_GATEWAY`. -/
def optGateway : UInt8 := 3

/-- `OPT_DNS`. -/
def optDns : UInt8 := 6

/-- `OPT_BROADCAST_ADDR`. -/
def optBroadcastAddr : UInt8 := 28

/-- `OPT_REQUESTED_IP`. -/
def optRequestedIp : UInt8 := 50

/-- `OPT_LEASE_TIME`. -/
def optLeaseTime : UInt8 := 51

/-- `OPT_MESSAGE_TYPE`. -/
def optMessageType : UInt8 := 53

/-- `OPT_SERVER_ID`. -/
def optServerId : UInt8 := 54

/-- `OPT_PARAMETER_LIST`. -/
def optParameterList : UInt8 := 55

/-- `OPT_END`. -/
def optEnd : UInt8 := 255

/-- `DHCPDISCOVER`. -/
def dhcpDiscover : UInt8 := 1

/-- `DHCPOFFER`. -/
def dhcpOffer : UInt8 := 2

/-- `DHCPREQUEST`. -/
def dhcpRequest : UInt8 := 3

/-- `DHCPACK`. -/
def dhcpAck : UInt8 := 5

/-- `DHCPNAK`. -/
def dhcpNak : UInt8 := 6

/-- The memory of a `struct dhcp_msg`. -/
@[ext] structure DhcpMsg where
  /-- All bytes of the structure, in memory order. -/
  bytes : List UInt8
  /-- The structure has its C size. -/
  length_eq : bytes.length=sizeofDhcpMsg
  deriving DecidableEq

/-- A hardware address as `ifc_get_hwaddr` fills it. -/
structure HwAddr where
  /-- The six address bytes. -/
  bytes : List UInt8
  /-- The array has six elements. -/
  length_eq : bytes.length=6
  deriving DecidableEq

namespace DhcpMsg

/-- `op`. -/
def op (msg : DhcpMsg) : UInt8 := byteAt msg.bytes 0

/-- `htype`. -/
def htype (msg : DhcpMsg) : UInt8 := byteAt msg.bytes 1

/-- `hlen`. -/
def hlen (msg : DhcpMsg) : UInt8 := byteAt msg.bytes 2

/-- `xid`, as the raw load that the code compares. -/
def xid (msg : DhcpMsg) : UInt32 := load32At msg.bytes 4

/-- `yiaddr`, raw. -/
def yiaddr (msg : DhcpMsg) : UInt32 := load32At msg.bytes 16

/-- The first bytes at `chaddr`, as many as `memcmp` is asked for. -/
def chaddr (msg : DhcpMsg) (n : ℕ) : List UInt8 := (msg.bytes.drop 28).take n

/-- The memory from `options` on. -/
def options (msg : DhcpMsg) : List UInt8 := msg.bytes.drop dhcpMsgFixedSize

/-- `memcpy(msg, source, source.length)` over an existing message, for a source
no longer than the message; the cut only keeps the size right otherwise. -/
def overwrite (msg : DhcpMsg) (source : List UInt8) : DhcpMsg :=
  ⟨source.take sizeofDhcpMsg++msg.bytes.drop source.length,by
    rw [List.length_append,List.length_take,List.length_drop,msg.length_eq]
    omega⟩

end DhcpMsg

/-- The fixed part that `init_dhcp_msg` writes: operation, types, transaction
id, flags and hardware address over a zeroed structure. -/
def fixedPart (hwaddr : HwAddr) (xid : UInt32) : List UInt8 :=
  [opBootrequest,htypeEther,6,0]++raw32 xid++[0,0]++htons flagsBroadcast++
    List.replicate 16 0++hwaddr.bytes++List.replicate 202 0

theorem fixedPart_length (hwaddr : HwAddr) (xid : UInt32) :
    (fixedPart hwaddr xid).length=dhcpMsgFixedSize := by
  simp only [fixedPart,List.length_append,List.length_cons,List.length_nil,raw32_length,
    htons_length,List.length_replicate,hwaddr.length_eq]
  rfl

/-- A zeroed message with the fixed part and the given option bytes. -/
def initDhcpMsg (hwaddr : HwAddr) (xid : UInt32) (options : List UInt8)
    (h : options.length≤1024) : DhcpMsg :=
  ⟨fixedPart hwaddr xid++options++List.replicate (1024-options.length) 0,by
    rw [List.length_append,List.length_append,fixedPart_length,List.length_replicate]
    simp only [dhcpMsgFixedSize,sizeofDhcpMsg]
    omega⟩

/-- The options common to both requests: cookie, type and parameter list. -/
def commonOptions (type : UInt8) : List UInt8 :=
  optCookie++[optMessageType,1,type]++
    [optParameterList,4,optSubnetMask,optGateway,optDns,optBroadcastAddr]

/-- The options of a discover message. -/
def discoverOptions : List UInt8 := commonOptions dhcpDiscover++[optEnd]

/-- The options of a request message. -/
def requestOptions (ipaddr serveraddr : UInt32) : List UInt8 :=
  commonOptions dhcpRequest++([optRequestedIp,4]++raw32 ipaddr)++
    ([optServerId,4]++raw32 serveraddr)++[optEnd]

/-- `init_dhcp_discover_msg`: the message and its size. -/
def initDhcpDiscoverMsg (hwaddr : HwAddr) (xid : UInt32) : DhcpMsg×ℕ :=
  (initDhcpMsg hwaddr xid discoverOptions (by decide),
    dhcpMsgFixedSize+discoverOptions.length)

/-- `init_dhcp_request_msg`: the message and its size. -/
def initDhcpRequestMsg (hwaddr : HwAddr) (xid ipaddr serveraddr : UInt32) : DhcpMsg×ℕ :=
  (initDhcpMsg hwaddr xid (requestOptions ipaddr serveraddr) (by
      simp only [requestOptions,commonOptions,optCookie,List.length_append,List.length_cons,
        List.length_nil,raw32_length]
      omega),
    dhcpMsgFixedSize+(requestOptions ipaddr serveraddr).length)

/-- `struct dhcp_info`. -/
structure DhcpInfo where
  /-- Message type of the decoded message, zero if it has none. -/
  type : UInt8
  /-- Offered address, raw. -/
  ipaddr : UInt32
  /-- First router, raw. -/
  gateway : UInt32
  /-- Number of leading ones of the subnet mask. -/
  prefixLength : ℕ
  /-- First name server, raw. -/
  dns1 : UInt32
  /-- Second name server, raw. -/
  dns2 : UInt32
  /-- Server identifier, raw. -/
  serveraddr : UInt32
  /-- Lease time in seconds. -/
  lease : UInt32
  deriving DecidableEq

/-- The record after `memset(info, 0, sizeof(dhcp_info))`. -/
def DhcpInfo.zero : DhcpInfo := ⟨0,0,0,0,0,0,0,0⟩

/-- The shift loop of `ipv4NetmaskToPrefixLength`. After thirty-two shifts the
word is zero, so the first argument never stops the loop early. -/
def leadingOnes : ℕ → ℕ → ℕ
  | 0,_ => 0
  | k+1,m => if 2^31 ≤ m then leadingOnes k (2*m%2^32)+1 else 0

/-- `ipv4NetmaskToPrefixLength(mask)` for the mask stored at a pointer. -/
def ipv4NetmaskToPrefixLength (x : List UInt8) : ℕ := leadingOnes 32 (ntohlAt x 0).toNat

/-- The `switch` of `decode_dhcp_msg` for one option whose value is at `x`. -/
def decodeOption (opt : UInt8) (optlen : ℕ) (x : List UInt8) (info : DhcpInfo) : DhcpInfo :=
  if opt=optSubnetMask then
    if 4 ≤ optlen then {info with prefixLength := ipv4NetmaskToPrefixLength x} else info
  else if opt=optGateway then
    if 4 ≤ optlen then {info with gateway := load32At x 0} else info
  else if opt=optDns then
    let info := if 4 ≤ optlen then {info with dns1 := load32At x 0} else info
    if 8 ≤ optlen then {info with dns2 := load32At x 4} else info
  else if opt=optLeaseTime then
    if 4 ≤ optlen then {info with lease := ntohlAt x 0} else info
  else if opt=optServerId then
    if 4 ≤ optlen then {info with serveraddr := load32At x 0} else info
  else if opt=optMessageType then {info with type := byteAt x 0}
  else info

/-- The option loop of `decode_dhcp_msg`, at pointer `x` with `len` bytes left. -/
def decodeLoop (x : List UInt8) (len : ℕ) (info : DhcpInfo) : DhcpInfo :=
  if 2<len then
    let opt := byteAt x 0
    if opt=optPad then decodeLoop (x.drop 1) (len-1) info
    else if opt=optEnd then info
    else
      let optlen := (byteAt x 1).toNat
      if len-2 < optlen then info
      else decodeLoop (x.drop (2+optlen)) (len-2-optlen)
        (decodeOption opt optlen (x.drop 2) info)
  else info
termination_by len
decreasing_by all_goals omega

/-- `decode_dhcp_msg`: the return value and the record left in `info`, which
is zeroed before anything is looked at. -/
def decodeDhcpMsg (msg : DhcpMsg) (len : ℕ) : ℤ×DhcpInfo :=
  if len<dhcpMsgFixedSize+4 then (-1,DhcpInfo.zero)
  else if msg.options.take 4≠optCookie then (-1,DhcpInfo.zero)
  else
    let info := decodeLoop (msg.options.drop 4) (len-(dhcpMsgFixedSize+4)) DhcpInfo.zero
    (0,{info with ipaddr := msg.yiaddr})

/-- `is_valid_reply(msg, reply, sz)`. -/
def isValidReply (msg reply : DhcpMsg) (sz : ℕ) : Bool :=
  if sz<dhcpMsgFixedSize then false
  else if reply.op≠opBootreply then false
  else if reply.xid≠msg.xid then false
  else if reply.htype≠msg.htype then false
  else if reply.hlen≠msg.hlen then false
  else if msg.chaddr msg.hlen.toNat≠reply.chaddr msg.hlen.toNat then false
  else true

/-- The loop of `dump_dhcp_msg` that makes a name printable up to its NUL. -/
def printableLoop : List UInt8 → List UInt8
  | [] => []
  | x::tail =>
    if x<32 ∨ 127<x then
      if x=0 then x::tail else 46::printableLoop tail
    else x::printableLoop tail

/-- One name field after `dump_dhcp_msg`, its last byte forced to NUL. -/
def printable (field : List UInt8) : List UInt8 :=
  (printableLoop field).set (field.length-1) 0

theorem printableLoop_length (field : List UInt8) :
    (printableLoop field).length=field.length := by
  induction field with
  | nil => rfl
  | cons x tail ih =>
    rw [printableLoop]
    split
    · split
      · rfl
      · simp only [List.length_cons,ih]
    · simp only [List.length_cons,ih]

theorem printable_length (field : List UInt8) : (printable field).length=field.length := by
  rw [printable,List.length_set,printableLoop_length]

/-- `dump_dhcp_msg` writes into the message it prints: `sname` and `file` of
a long enough message are made printable in place. -/
def dumpDhcpMsg (msg : DhcpMsg) (len : ℕ) : DhcpMsg :=
  if len<dhcpMsgFixedSize then msg
  else
    ⟨msg.bytes.take 44++printable ((msg.bytes.drop 44).take 64)++
        printable ((msg.bytes.drop 108).take 128)++msg.bytes.drop 236,by
      have h := msg.length_eq
      simp only [sizeofDhcpMsg] at h
      simp only [List.length_append,List.length_take,List.length_drop,printable_length,h,
        sizeofDhcpMsg]
      omega⟩

/-- Printing a message leaves everything from `options` on alone. -/
theorem dumpDhcpMsg_options (msg : DhcpMsg) (len : ℕ) :
    (dumpDhcpMsg msg len).options=msg.options := by
  have h := msg.length_eq
  simp only [sizeofDhcpMsg] at h
  unfold dumpDhcpMsg
  split
  · rfl
  · rw [DhcpMsg.options,DhcpMsg.options,dhcpMsgFixedSize]
    apply List.drop_left'
    simp only [List.length_append,List.length_take,List.length_drop,printable_length,h]
    omega

/-- The value of an option in a tag-length-value area, pads skipped. -/
def findOption (opt : UInt8) (x : List UInt8) : Option (List UInt8) :=
  match x with
  | [] => none
  | [_] => none
  | tag::len::body =>
    if tag=optPad then findOption opt (len::body)
    else if tag=optEnd then none
    else if body.length<len.toNat then none
    else if tag=opt then some (body.take len.toNat)
    else findOption opt (body.drop len.toNat)
termination_by x.length
decreasing_by
  · simp only [List.length_cons]
    omega
  · simp only [List.length_cons,List.length_drop]
    omega

/-- The option area after the cookie of the first `size` bytes of a message. -/
def DhcpMsg.optionArea (msg : DhcpMsg) (size : ℕ) : List UInt8 :=
  (msg.options.take (size-dhcpMsgFixedSize)).drop 4

/-- The message asks for this address from this server. -/
def Requests (msg : DhcpMsg) (size : ℕ) (ipaddr serveraddr : UInt32) : Prop :=
  findOption optRequestedIp (msg.optionArea size)=some (raw32 ipaddr) ∧
    findOption optServerId (msg.optionArea size)=some (raw32 serveraddr)

theorem initDhcpMsg_options (hwaddr : HwAddr) (xid : UInt32) (options : List UInt8)
    (h : options.length≤1024) :
    (initDhcpMsg hwaddr xid options h).options.take options.length=options := by
  have hf := fixedPart_length hwaddr xid
  simp only [initDhcpMsg,DhcpMsg.options,List.append_assoc]
  rw [List.drop_left' hf,List.take_left' rfl]

/-- A request message asks for the address and the server it was built from. -/
theorem requests_initDhcpRequestMsg (hwaddr : HwAddr) (xid ipaddr serveraddr : UInt32) :
    Requests (dumpDhcpMsg (initDhcpRequestMsg hwaddr xid ipaddr serveraddr).1
      (initDhcpRequestMsg hwaddr xid ipaddr serveraddr).2)
      (initDhcpRequestMsg hwaddr xid ipaddr serveraddr).2 ipaddr serveraddr := by
  have harea : (dumpDhcpMsg (initDhcpRequestMsg hwaddr xid ipaddr serveraddr).1
      (initDhcpRequestMsg hwaddr xid ipaddr serveraddr).2).optionArea
      (initDhcpRequestMsg hwaddr xid ipaddr serveraddr).2=
      (requestOptions ipaddr serveraddr).drop 4 := by
    rw [DhcpMsg.optionArea,dumpDhcpMsg_options]
    simp only [initDhcpRequestMsg,Nat.add_sub_cancel_left,initDhcpMsg_options]
  have hlist : (requestOptions ipaddr serveraddr).drop 4=
      [optMessageType,1,dhcpRequest,optParameterList,4,optSubnetMask,optGateway,optDns,
        optBroadcastAddr]++([optRequestedIp,4]++raw32 ipaddr)++
        ([optServerId,4]++raw32 serveraddr)++[optEnd] := rfl
  rw [Requests,harea,hlist]
  constructor <;>
    simp [findOption,raw32,optMessageType,dhcpRequest,optParameterList,optSubnetMask,optGateway,
      optDns,optBroadcastAddr,optRequestedIp,optServerId,optPad,optEnd]

/-- Raw stores of different words differ. -/
theorem raw32_injective : Function.Injective raw32 := by
  intro m n h
  rw [←load32At_raw32 m [],←load32At_raw32 n [],h]

/-- A message asks for one address from one server. -/
theorem Requests.unique {msg : DhcpMsg} {size : ℕ} {ip server ip' server' : UInt32}
    (h : Requests msg size ip server) (h' : Requests msg size ip' server') :
    ip=ip' ∧ server=server' := by
  constructor
  · exact raw32_injective (Option.some.inj (h.1.symm.trans h'.1))
  · exact raw32_injective (Option.some.inj (h.2.symm.trans h'.2))

end AndroidPlatform.DhcpMessage
