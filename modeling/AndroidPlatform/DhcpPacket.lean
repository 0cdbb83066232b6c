import AndroidPlatform.DhcpMessage
import AndroidPlatform.OnesComplement

/-!
# Raw DHCP datagrams of libnetutils

A datagram is twenty bytes of IP header, eight of UDP header and the first
bytes of a `dhcp_msg`. Header fields are kept as the bytes in memory, on a
little-endian machine. The read buffer of the receiver is longer than the
datagram, so its other bytes are whatever the stack held, and the length of
the final copy is the signed number that the code computes.
-/

namespace AndroidPlatform.DhcpPacket

open OnesComplement WireBytes DhcpMessage

/-- `sizeof(struct iphdr)`. -/
def sizeofIp : ℕ := 20

/-- `sizeof(struct udphdr)`. -/
def sizeofUdp : ℕ := 8

/-- `sizeof(packet)` in the receiver. -/
def sizeofPacket : ℕ := sizeofIp+sizeofUdp+sizeofDhcpMsg

/-- `PORT_BOOTP_SERVER`. -/
def portBootpServer : ℕ := 67

/-- `PORT_BOOTP_CLIENT`. -/
def portBootpClient : ℕ := 68

/-- `IPPROTO_UDP`. -/
def ipprotoUdp : UInt8 := 17

/-- Old contents of the local packet buffer of `receive_packet`. -/
structure Stack where
  /-- The bytes, in memory order. -/
  bytes : List UInt8
  /-- The buffer has its C size. -/
  length_eq : bytes.length=sizeofPacket

/-- What one `read` of the raw socket delivers. -/
structure Datagram where
  /-- The bytes read. -/
  bytes : List UInt8
  /-- `read` is given the size of the packet buffer. -/
  length_le : bytes.length ≤ sizeofPacket
  deriving DecidableEq

/-- The word loop of `checksum`, in thirty-two bit arithmetic. -/
def sumLoop (sum : ℕ) : List UInt8 → ℕ
  | [] => sum
  | [b] => (sum+b.toNat)%2^32
  | lo::hi::tail => sumLoop ((sum+(lo.toNat+256*hi.toNat))%2^32) tail

/-- The carry loop of `checksum`: while the upper half is nonzero, add it to
the lower half. -/
def foldUpper (sum : ℕ) : ℕ :=
  if sum/65536=0 then sum else foldUpper (sum%65536+sum/65536)
termination_by sum
decreasing_by omega

/-- `checksum(buffer, count, startsum)`, where the list is the counted bytes. -/
def checksum (buffer : List UInt8) (startsum : ℕ) : ℕ := foldUpper (sumLoop startsum buffer)

/-- `finish_sum`: complement, cut to sixteen bits. -/
def finishSum (sum : ℕ) : ℕ := 65535-sum%65536

/-- The word loop does not wrap while the whole sum fits thirty-two bits. -/
theorem sumLoop_eq {sum : ℕ} {buffer : List UInt8} (h : sum+wordSum buffer<2^32) :
    sumLoop sum buffer=sum+wordSum buffer := by
  induction buffer using wordSum.induct generalizing sum with
  | case1 => rw [sumLoop,wordSum_nil,Nat.add_zero]
  | case2 b =>
    rw [wordSum_singleton] at h
    rw [sumLoop,wordSum_singleton,Nat.mod_eq_of_lt h]
  | case3 lo hi tail ih =>
    rw [wordSum_cons_cons] at h
    have hm : sum+(lo.toNat+256*hi.toNat)<2^32 := by omega
    rw [sumLoop,Nat.mod_eq_of_lt hm,ih (by omega),wordSum_cons_cons]
    ring

/-- The carry loop ends at the canonical representative. -/
theorem foldUpper_eq (sum : ℕ) : foldUpper sum=canonical sum := by
  induction sum using Nat.strong_induction_on with
  | h sum ih =>
    rw [foldUpper]
    split
    · next h => rw [canonical_of_le (by omega)]
    · next h => rw [ih _ (by omega),canonical_fold]

/-- One call of `checksum` in a range where the loop cannot wrap. -/
theorem checksum_eq {buffer : List UInt8} {startsum : ℕ} (hb : buffer.length≤65535)
    (hs : startsum≤65535) : checksum buffer startsum=canonical (startsum+wordSum buffer) := by
  have hw := wordSum_le buffer
  have hn : startsum+wordSum buffer<2^32 := by omega
  rw [checksum,sumLoop_eq hn,foldUpper_eq]

/-- A further call of `checksum` continues the representative of the sum so far. -/
theorem checksum_canonical {buffer : List UInt8} (hb : buffer.length≤65535) (n : ℕ) :
    checksum buffer (canonical n)=canonical (n+wordSum buffer) := by
  rw [checksum_eq hb (canonical_le n),canonical_add]

theorem finishSum_canonical (n : ℕ) : finishSum (canonical n)=65535-canonical n := by
  have h := canonical_le n
  rw [finishSum,Nat.mod_eq_of_lt (by omega)]

/-- The IP header that `send_packet` fills, with the given check field. -/
def ipHeader (size : ℕ) (saddr daddr : UInt32) (check : ℕ) : List UInt8 :=
  [0x45,0]++htons (sizeofIp+sizeofUdp+size)++[0,0,0,0,64,ipprotoUdp]++raw16 check++
    raw32 saddr++raw32 daddr

/-- The UDP header that `send_packet` fills, with the given check field. -/
def udpHeader (size sport dport check : ℕ) : List UInt8 :=
  htons sport++htons dport++htons (sizeofUdp+size)++raw16 check

/-- The five chained sums of `send_packet` over the pseudo-header, the UDP
header without its check field and the payload. -/
def udpSum (payload : List UInt8) (saddr daddr : UInt32) (sport dport : ℕ) : ℕ :=
  let udpsum := checksum (raw32 saddr) 0
  let udpsum := checksum (raw32 daddr) udpsum
  let udpsum := checksum (htons ipprotoUdp.toNat) udpsum
  let udpsum := checksum (htons (sizeofUdp+payload.length)) udpsum
  let udpsum := checksum (udpHeader payload.length sport dport 0) udpsum
  checksum payload udpsum

/-- The three parts that `send_packet` hands to `sendmsg`. The payload is the
first `size` bytes of the message. -/
def sendPacket (msg : DhcpMsg) (size : ℕ) (saddr daddr : UInt32) (sport dport : ℕ) :
    List UInt8 :=
  let payload := msg.bytes.take size
  ipHeader size saddr daddr (finishSum (checksum (ipHeader size saddr daddr 0) 0))++
    udpHeader size sport dport (finishSum (udpSum payload saddr daddr sport dport))++payload

/-- What `receive_packet` does with the caller's message buffer. -/
inductive ReceiveResult where
  /-- A check failed: -1 is returned and nothing is copied. -/
  | rejected
  /-- `memcpy` is called with a length outside the two buffers. -/
  | overrun (dhcpSize : ℤ)
  /-- The first bytes of `msg` become these, and their number is returned. -/
  | delivered (bytes : List UInt8)
  deriving DecidableEq

/-- The value returned, if the copy comes back at all. -/
def ReceiveResult.returned : ReceiveResult → ℤ
  | .rejected => -1
  | .overrun dhcpSize => dhcpSize
  | .delivered bytes => bytes.length

/-- The chain of tests on the header fields, in the order of the code. -/
def headerValid (nread : ℕ) (packet : List UInt8) : Bool :=
  if nread < sizeofIp+sizeofUdp then false
  else if (byteAt packet 0).toNat/16≠4 ∨ (byteAt packet 0).toNat%16≠sizeofIp/4 then false
  else if nread<ntohsAt packet 2 then false
  else if byteAt packet 9≠ipprotoUdp then false
  else if (packet.drop 22).take 2≠htons portBootpClient then false
  else true

/-- The packet buffer as the receiver sums it: the IP header is zeroed and
refilled as a pseudo-header, and the UDP check field is cleared. -/
def pseudoPacket (packet : List UInt8) : List UInt8 :=
  [0,0]++(packet.drop 24).take 2++[0,0,0,0,0,ipprotoUdp,0,0]++(packet.drop 12).take 8++
    (packet.drop 20).take 6++[0,0]++packet.drop 28

/-- Both checksum tests. The second one sums `ip.tot_len` bytes, takes zero
for the full word and compares with the received field. -/
def sumsValid (packet : List UInt8) : Bool :=
  if finishSum (checksum (packet.take sizeofIp) 0)≠0 then false
  else
    let sum := finishSum (checksum ((pseudoPacket packet).take (ntohsAt packet 2)) 0)
    let sum := if sum=0 then finishSum sum else sum
    decide (load16At packet 26=sum)

/-- `udp.len` of a packet. -/
def udpLen (packet : List UInt8) : ℕ := ntohsAt packet 24

/-- The packet buffer after `read`: the datagram over the old stack bytes. -/
def packetBuffer (stack : Stack) (datagram : Datagram) : List UInt8 :=
  datagram.bytes++stack.bytes.drop datagram.bytes.length

/-- All tests of `receive_packet` before the copy. -/
def passesChecks (stack : Stack) (datagram : Datagram) : Bool :=
  headerValid datagram.bytes.length (packetBuffer stack datagram) &&
    sumsValid (packetBuffer stack datagram)

/-- `receive_packet` on a datagram returned by `read`. The copy is defined
when its length stays inside the message, which is as long as the space after
the two headers in the packet buffer. -/
def receivePacket (stack : Stack) (datagram : Datagram) : ReceiveResult :=
  if passesChecks stack datagram=false then .rejected
  else
    let packet := packetBuffer stack datagram
    let dhcpSize : ℤ := udpLen packet-sizeofUdp
    if 0≤dhcpSize ∧ dhcpSize ≤ sizeofDhcpMsg then
      .delivered ((packet.drop (sizeofIp+sizeofUdp)).take dhcpSize.toNat)
    else .overrun dhcpSize

/-- A datagram past the header tests holds both headers and all the bytes its
IP header announces. -/
theorem headerValid_length {nread : ℕ} {packet : List UInt8}
    (h : headerValid nread packet=true) : 28≤nread ∧ ntohsAt packet 2≤nread := by
  unfold headerValid at h
  split_ifs at h with h28 hip htot hproto hdest
  · exact ⟨by simpa only [sizeofIp,sizeofUdp,Nat.not_lt] using h28,Nat.not_lt.mp htot⟩

theorem passesChecks_length {stack : Stack} {datagram : Datagram}
    (h : passesChecks stack datagram=true) : 28≤datagram.bytes.length := by
  rw [passesChecks,Bool.and_eq_true] at h
  exact (headerValid_length h.1).1

theorem packetBuffer_length (stack : Stack) (datagram : Datagram) :
    (packetBuffer stack datagram).length=1288 := by
  have hs := stack.length_eq
  have hd := datagram.length_le
  simp only [sizeofPacket,sizeofIp,sizeofUdp,sizeofDhcpMsg] at hs hd
  rw [packetBuffer,List.length_append,List.length_drop]
  omega

/-- The header fields are read from the datagram, not from the stack. -/
theorem udpLen_packetBuffer {stack : Stack} {datagram : Datagram}
    (h : 28≤datagram.bytes.length) :
    udpLen (packetBuffer stack datagram)=udpLen datagram.bytes := by
  have h24 : 24<datagram.bytes.length := by omega
  have h25 : 25<datagram.bytes.length := by omega
  simp only [udpLen,ntohsAt,packetBuffer,byteAt_append_left h24,byteAt_append_left h25]

/-- The receiver's promise: the copy is never called with a length outside
the buffers, and a returned size counts bytes that were really received. -/
def DeliversReceived (stack : Stack) (datagram : Datagram) : Prop :=
  (∀ dhcpSize, receivePacket stack datagram≠.overrun dhcpSize) ∧
    ((receivePacket stack datagram).returned≠-1 →
      0≤(receivePacket stack datagram).returned ∧
      (receivePacket stack datagram).returned ≤ sizeofDhcpMsg ∧
      28+(receivePacket stack datagram).returned≤datagram.bytes.length ∧
      receivePacket stack datagram=.delivered
        ((datagram.bytes.drop 28).take (receivePacket stack datagram).returned.toNat))

/-- The tests of the receiver compare `udp.len` with nothing. Its promise is
kept exactly by the datagrams that fail a test anyway and by those whose UDP
length covers its own header and stays inside the bytes read. -/
theorem deliversReceived_iff (stack : Stack) (datagram : Datagram) :
    DeliversReceived stack datagram ↔
      (passesChecks stack datagram=true →
        8≤udpLen datagram.bytes ∧ 20+udpLen datagram.bytes≤datagram.bytes.length) := by
  by_cases hp : passesChecks stack datagram=true
  · have h28 := passesChecks_length hp
    have hu := @udpLen_packetBuffer stack _ h28
    have hl := packetBuffer_length stack datagram
    have hd := datagram.length_le
    simp only [sizeofPacket,sizeofIp,sizeofUdp,sizeofDhcpMsg] at hd
    have hr : receivePacket stack datagram=
        if (0:ℤ)≤(udpLen datagram.bytes:ℤ)-8 ∧ (udpLen datagram.bytes:ℤ)-8≤1260 then
          .delivered (((packetBuffer stack datagram).drop 28).take
            ((udpLen datagram.bytes:ℤ)-8).toNat)
        else .overrun ((udpLen datagram.bytes:ℤ)-8) := by
      rw [receivePacket,if_neg (by rw [hp]; exact Bool.noConfusion)]
      dsimp only
      rw [hu]
      rfl
    constructor
    · rintro ⟨hover,hret⟩ -
      by_cases hin : (0:ℤ)≤(udpLen datagram.bytes:ℤ)-8 ∧ (udpLen datagram.bytes:ℤ)-8≤1260
      · rw [hr,if_pos hin,ReceiveResult.returned] at hret
        rw [List.length_take,List.length_drop,hl] at hret
        have hb := (hret (by omega)).2.2.1
        omega
      · exact absurd (hr.trans (if_neg hin)) (hover _)
    · intro hc
      obtain ⟨h8,h20⟩ := hc hp
      have hin : (0:ℤ)≤(udpLen datagram.bytes:ℤ)-8 ∧ (udpLen datagram.bytes:ℤ)-8≤1260 := by
        omega
      have hcopy : ((packetBuffer stack datagram).drop 28).take
          ((udpLen datagram.bytes:ℤ)-8).toNat=
          (datagram.bytes.drop 28).take ((udpLen datagram.bytes:ℤ)-8).toNat := by
        rw [packetBuffer,List.drop_append_of_le_length h28]
        exact List.take_append_of_le_length (by rw [List.length_drop]; omega)
      rw [DeliversReceived,hr,if_pos hin,hcopy]
      have hlen : ((datagram.bytes.drop 28).take ((udpLen datagram.bytes:ℤ)-8).toNat).length=
          ((udpLen datagram.bytes:ℤ)-8).toNat := by
        rw [List.length_take,List.length_drop]
        omega
      refine ⟨fun _ => ReceiveResult.noConfusion,fun _ => ?_⟩
      simp only [ReceiveResult.returned,hlen,sizeofDhcpMsg]
      refine ⟨by omega,by omega,by omega,?_⟩
      rw [Int.toNat_natCast]
  · have hr : receivePacket stack datagram=.rejected := by
      rw [receivePacket,if_pos (Bool.eq_false_of_not_eq_true hp)]
    constructor
    · intro _ h
      exact absurd h hp
    · intro _
      rw [DeliversReceived,hr]
      exact ⟨fun _ => ReceiveResult.noConfusion,fun h => absurd rfl h⟩

/-- A stack of zero bytes. -/
def zeroStack : Stack := ⟨List.replicate sizeofPacket 0,List.length_replicate⟩

/-- A datagram without payload whose UDP header announces a length of zero and
whose two checksums are right. -/
def zeroLengthDatagram : Datagram :=
  ⟨[69,0,0,28,0,0,0,0,64,17,122,210,0,0,0,0,0,0,0,0,0,67,0,68,0,0,255,103],by decide⟩

/-- That datagram makes the receiver copy minus eight bytes. -/
theorem receivePacket_zeroLength : receivePacket zeroStack zeroLengthDatagram=.overrun (-8) := by
  decide +kernel

/-- The receiver's promise does not hold for every datagram. -/
theorem not_forall_deliversReceived :
    ¬∀ stack datagram, DeliversReceived stack datagram := by
  intro h
  exact (h zeroStack zeroLengthDatagram).1 (-8) receivePacket_zeroLength

@[simp] theorem ipHeader_length (size : ℕ) (saddr daddr : UInt32) (check : ℕ) :
    (ipHeader size saddr daddr check).length=20 := rfl

@[simp] theorem udpHeader_length (size sport dport check : ℕ) :
    (udpHeader size sport dport check).length=8 := rfl

/-- Word sum of pseudo-header, UDP header without check field, and payload,
as a plain number. -/
def pseudoSum (payload : List UInt8) (saddr daddr : UInt32) (sport dport : ℕ) : ℕ :=
  wordSum (raw32 saddr)+wordSum (raw32 daddr)+wordSum (htons ipprotoUdp.toNat)+
    wordSum (htons (sizeofUdp+payload.length))+
    wordSum (udpHeader payload.length sport dport 0)+wordSum payload

/-- The sender's chain of partial sums is one folded sum. -/
theorem udpSum_eq {payload : List UInt8} (hp : payload.length≤65535) (saddr daddr : UInt32)
    (sport dport : ℕ) :
    udpSum payload saddr daddr sport dport=
      canonical (pseudoSum payload saddr daddr sport dport) := by
  unfold udpSum
  dsimp only
  rw [checksum_eq (by rw [raw32_length]; omega) (Nat.zero_le _),Nat.zero_add,
    checksum_canonical (by rw [raw32_length]; omega),
    checksum_canonical (by rw [htons_length]; omega),
    checksum_canonical (by rw [htons_length]; omega),
    checksum_canonical (by rw [udpHeader_length]; omega),checksum_canonical hp]
  rfl

theorem pseudoSum_pos (payload : List UInt8) (saddr daddr : UInt32) (sport dport : ℕ) :
    pseudoSum payload saddr daddr sport dport≠0 := by
  have h : wordSum (htons ipprotoUdp.toNat)=4352 := by decide
  unfold pseudoSum
  omega

/-- The check field adds to the header sum like any other word. -/
theorem wordSum_ipHeader {check : ℕ} (h : check≤65535) (size : ℕ) (saddr daddr : UInt32) :
    wordSum (ipHeader size saddr daddr check)=
      wordSum (ipHeader size saddr daddr 0)+check := by
  have hlo : (UInt8.ofNat check).toNat=check%256 := UInt8.toNat_ofNat'
  have hhi : (UInt8.ofNat (check/256)).toNat=check/256%256 := UInt8.toNat_ofNat'
  have hz : (UInt8.ofNat 0).toNat=0 := rfl
  simp only [ipHeader,htons,raw16,raw32,List.cons_append,List.nil_append,wordSum_cons_cons,
    hlo,hhi,hz,Nat.zero_div]
  omega

/-- A header with its computed check field sums to the full word. -/
theorem ipHeader_verifies (size : ℕ) (saddr daddr : UInt32) :
    finishSum (checksum (ipHeader size saddr daddr
      (finishSum (checksum (ipHeader size saddr daddr 0) 0))) 0)=0 := by
  have hpos : wordSum (ipHeader size saddr daddr 0)≠0 := by
    simp only [ipHeader,List.cons_append,wordSum_cons_cons]
    have h : (0x45:UInt8).toNat=69 := rfl
    omega
  have hlen : ∀ check, (ipHeader size saddr daddr check).length≤65535 := by
    intro check
    rw [ipHeader_length]
    omega
  rw [checksum_eq (hlen 0) (Nat.zero_le _),Nat.zero_add,finishSum_canonical,
    checksum_eq (hlen _) (Nat.zero_le _),Nat.zero_add,
    wordSum_ipHeader (Nat.sub_le _ _),canonical_complement hpos]
  rfl

/-- A message as `send_packet` puts it on the wire. -/
def sentDatagram (msg : DhcpMsg) (size : ℕ) (h : size ≤ sizeofDhcpMsg) (saddr daddr : UInt32)
    (sport dport : ℕ) : Datagram :=
  ⟨sendPacket msg size saddr daddr sport dport,by
    simp only [sendPacket,List.length_append,ipHeader_length,udpHeader_length,List.length_take,
      msg.length_eq,sizeofPacket,sizeofIp,sizeofUdp]
    omega⟩

section Sent

variable {size sport ipCheck udpCheck : ℕ} {saddr daddr : UInt32} {rest : List UInt8}

/-- The receiver reads the total length that the sender wrote. -/
theorem totLen_sent (hs : size ≤ sizeofDhcpMsg) :
    ntohsAt (ipHeader size saddr daddr ipCheck++rest) 2=28+size := by
  have h : ntohsAt (ipHeader size saddr daddr ipCheck++rest) 2=(28+size)%65536 := by
    rw [ntohsAt_drop]
    exact ntohsAt_htons (28+size) _
  rw [h]
  simp only [sizeofDhcpMsg] at hs
  omega

/-- The receiver reads the UDP length that the sender wrote. -/
theorem udpLen_sent (hs : size ≤ sizeofDhcpMsg) :
    udpLen (ipHeader size saddr daddr ipCheck++
      (udpHeader size sport portBootpClient udpCheck++rest))=8+size := by
  have h : udpLen (ipHeader size saddr daddr ipCheck++
      (udpHeader size sport portBootpClient udpCheck++rest))=(8+size)%65536 := by
    rw [udpLen,ntohsAt_drop]
    exact ntohsAt_htons (8+size) _
  rw [h]
  simp only [sizeofDhcpMsg] at hs
  omega

/-- Sent headers pass the header tests. -/
theorem headerValid_sent (hs : size ≤ sizeofDhcpMsg) :
    headerValid (28+size) (ipHeader size saddr daddr ipCheck++
      (udpHeader size sport portBootpClient udpCheck++rest))=true := by
  have hread : ¬28+size < sizeofIp+sizeofUdp := by simp only [sizeofIp,sizeofUdp]; omega
  unfold headerValid
  have hversion : byteAt (ipHeader size saddr daddr ipCheck++
      (udpHeader size sport portBootpClient udpCheck++rest)) 0=0x45 := rfl
  rw [if_neg hread,hversion,if_neg (by decide),if_neg (by rw [totLen_sent hs]; omega),
    if_neg,if_neg]
  · exact fun h => h rfl
  · exact fun h => h rfl

/-- The check field as the receiver loads it. -/
theorem udpCheck_sent (hc : udpCheck≤65535) :
    load16At (ipHeader size saddr daddr ipCheck++
      (udpHeader size sport portBootpClient udpCheck++rest)) 26=udpCheck := by
  have h : load16At (ipHeader size saddr daddr ipCheck++
      (udpHeader size sport portBootpClient udpCheck++rest)) 26=udpCheck%65536 := by
    rw [load16At_drop]
    exact load16At_raw16 udpCheck _
  rw [h,Nat.mod_eq_of_lt (by omega)]

/-- The packet the receiver sums has the sender's words in another order. -/
theorem wordSum_pseudoPacket {payload junk : List UInt8} (hp : payload.length=size) :
    wordSum ((pseudoPacket (ipHeader size saddr daddr ipCheck++
      (udpHeader size sport portBootpClient udpCheck++(payload++junk)))).take (28+size))=
      pseudoSum payload saddr daddr sport portBootpClient := by
  have hpacket : (pseudoPacket (ipHeader size saddr daddr ipCheck++
      (udpHeader size sport portBootpClient udpCheck++(payload++junk))))=
      ([0,0]++htons (sizeofUdp+size)++[0,0,0,0,0,ipprotoUdp,0,0]++raw32 saddr++raw32 daddr++
        (htons sport++htons portBootpClient++htons (sizeofUdp+size))++[0,0])++
        (payload++junk) := rfl
  have hpayload : (payload++junk).take size=payload := by
    rw [←hp,List.take_left']
    rfl
  rw [hpacket,List.take_append,List.take_of_length_le (by
    simp only [List.length_append,List.length_cons,List.length_nil,htons_length,raw32_length]
    omega)]
  simp only [List.length_append,List.length_cons,List.length_nil,htons_length,raw32_length,
    Nat.zero_add,Nat.reduceAdd,Nat.add_sub_cancel_left,hpayload]
  have hz : (0:UInt8).toNat=0 := rfl
  have ho : (UInt8.ofNat 0).toNat=0 := rfl
  have hq : (UInt8.ofNat (ipprotoUdp.toNat/256)).toNat=0 := rfl
  have hr : UInt8.ofNat ipprotoUdp.toNat=ipprotoUdp := rfl
  simp only [pseudoSum,udpHeader,htons,raw16,raw32,List.cons_append,List.nil_append,
    wordSum_cons_cons,wordSum_nil,hz,ho,hq,hr,hp,Nat.zero_div]
  ring

/-- With the sender's check field the two checksum tests fail only for a zero
field, which the receiver reads as a full word. -/
theorem sumsValid_sent {payload junk : List UInt8} (hs : size ≤ sizeofDhcpMsg)
    (hp : payload.length=size)
    (hip : finishSum (checksum (ipHeader size saddr daddr ipCheck) 0)=0)
    (hc : udpCheck=65535-canonical (pseudoSum payload saddr daddr sport portBootpClient)) :
    sumsValid (ipHeader size saddr daddr ipCheck++
      (udpHeader size sport portBootpClient udpCheck++(payload++junk)))=true ↔
      pseudoSum payload saddr daddr sport portBootpClient%65535≠0 := by
  have hle := canonical_le (pseudoSum payload saddr daddr sport portBootpClient)
  have hmax := @canonical_eq_max (pseudoSum payload saddr daddr sport portBootpClient)
  have hpos := pseudoSum_pos payload saddr daddr sport portBootpClient
  have htake : ∀ packet : List UInt8, (packet.take (28+size)).length≤65535 := by
    intro packet
    rw [List.length_take]
    simp only [sizeofDhcpMsg] at hs
    omega
  have hhead : (ipHeader size saddr daddr ipCheck++
      (udpHeader size sport portBootpClient udpCheck++(payload++junk))).take sizeofIp=
      ipHeader size saddr daddr ipCheck := List.take_left' rfl
  rw [sumsValid,hhead,if_neg (not_ne_iff.mpr hip)]
  dsimp only
  rw [totLen_sent hs,checksum_eq (htake _) (Nat.zero_le _),Nat.zero_add,
    wordSum_pseudoPacket hp,finishSum_canonical,udpCheck_sent (by omega),decide_eq_true_iff,←hc]
  by_cases hz : udpCheck=0
  · have hfull := (hmax.mp (by omega)).2
    rw [if_pos hz,hz,hfull]
    decide
  · rw [if_neg hz]
    refine iff_of_true rfl ?_
    intro hf
    have := hmax.mpr ⟨hpos,hf⟩
    omega

end Sent

theorem take_length_of_le {size : ℕ} (msg : DhcpMsg) (h : size ≤ sizeofDhcpMsg) :
    (msg.bytes.take size).length=size := by
  rw [List.length_take,msg.length_eq]
  omega

/-- The receiver's buffer for a sent datagram, with the check fields that make
the headers verify. -/
theorem packetBuffer_sent (stack : Stack) (msg : DhcpMsg) {size : ℕ} (h : size ≤ sizeofDhcpMsg)
    (saddr daddr : UInt32) (sport : ℕ) :
    ∃ ipCheck junk, finishSum (checksum (ipHeader size saddr daddr ipCheck) 0)=0 ∧
      packetBuffer stack (sentDatagram msg size h saddr daddr sport portBootpClient)=
        ipHeader size saddr daddr ipCheck++
          (udpHeader size sport portBootpClient
            (65535-canonical (pseudoSum (msg.bytes.take size) saddr daddr sport portBootpClient))++
            (msg.bytes.take size++junk)) := by
  have hsmall : (msg.bytes.take size).length≤65535 := by
    rw [take_length_of_le msg h]
    simp only [sizeofDhcpMsg] at h
    omega
  refine ⟨_,stack.bytes.drop (sentDatagram msg size h saddr daddr sport
    portBootpClient).bytes.length,ipHeader_verifies size saddr daddr,?_⟩
  simp only [packetBuffer,sentDatagram,sendPacket,udpSum_eq hsmall,finishSum_canonical,
    List.append_assoc]

/-- A zeroed message. -/
def zeroMsg : DhcpMsg := ⟨List.replicate sizeofDhcpMsg 0,List.length_replicate⟩

/-- A message whose first two bytes complete a broadcast from the server port
to a sum of 65535. -/
def fullSumMsg : DhcpMsg := zeroMsg.overwrite [255,83]

/-- The receiver drops the first two bytes of that message. -/
theorem receivePacket_fullSum :
    receivePacket zeroStack (sentDatagram fullSumMsg 2 (by decide) 0 0xffffffff portBootpServer
      portBootpClient)=.rejected := by
  decide +kernel

end AndroidPlatform.DhcpPacket
