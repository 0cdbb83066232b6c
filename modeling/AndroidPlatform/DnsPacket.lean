import Mathlib.Data.Nat.Notation
import Mathlib.Data.List.Basic
import Mathlib.Tactic.Ring

/-!
# The question section of a DNS packet

A packet is the packet buffer with the number of bytes received in it. The
name reader of `rfc1035.c` follows compression pointers and writes the name
as text; the checksum of the question section is taken over these texts in
lower case and over the types and classes. A section that cannot be read to
its end has the checksum of the questions before the bad one.
-/

namespace AndroidPlatform.DnsPacket

/-- The packet buffer and the length of the packet in it. -/
structure Packet where
  /-- The bytes of the buffer, from the start of the header. -/
  bytes : ℕ → UInt8
  /-- The length of the packet. -/
  len : ℕ

/-- `ntohs` of two bytes of the packet. -/
def Packet.short (packet : Packet) (i : ℕ) : ℕ :=
  256*(packet.bytes i).toNat+(packet.bytes (i+1)).toNat

/-- `ntohs(header->id)` -/
def Packet.id (packet : Packet) : ℕ := packet.short 0

/-- `ntohs(header->qdcount)` -/
def Packet.qdcount (packet : Packet) : ℕ := packet.short 4

/-- `header->qr` -/
def Packet.qr (packet : Packet) : Bool := 128≤packet.bytes 2

/-- `header->rcode` -/
def Packet.rcode (packet : Packet) : ℕ := (packet.bytes 3).toNat%16

/-- `sizeof(HEADER)` -/
def headerSize : ℕ := 12

/-- `MAXDNAME` -/
def maxDname : ℕ := 1025

/-- `SERVFAIL` -/
def servfail : ℕ := 2

/-- `REFUSED` -/
def refused : ℕ := 5

/-- `CHECK_LEN` -/
def checkLen (packet : Packet) (p len : ℕ) : Bool := p+len≤packet.len

/-- The characters a label may have: `isascii(c) && !iscntrl(c) && c != '.'`. -/
def labelChar (c : UInt8) : Bool := 32≤c && c<127 && c≠46

/-- A digit of the text of a bit string. -/
def hexDigit (dig : ℕ) : UInt8 := if dig<10 then UInt8.ofNat (dig+48) else UInt8.ofNat (dig+55)

/-- The text of a bit-string label with its bits at `p`, and the dot behind it. -/
def bitStringText (packet : Packet) (p count : ℕ) : List UInt8 :=
  [92,91,120]++
    (List.range ((count-1)/4+1)).map (fun j =>
      let byte := (packet.bytes (p+j/2)).toNat
      hexDigit (if j%2=0 then byte/16 else byte%16))++
    [47]++(Nat.toDigits 10 count).map (fun c => UInt8.ofNat c.toNat)++[93,46]

/-- The loop of `extract_name` in extract mode: the text so far is in `cp`,
and `p1` is where the caller goes on once a pointer was followed. -/
def extractLoop (packet : Packet) (extrabytes : ℕ) (p : ℕ) (p1 : Option ℕ) (hops : ℕ)
    (cp : List UInt8) : Option (List UInt8×ℕ) :=
  if hlen : checkLen packet p 1=true then
    let l := (packet.bytes p).toNat
    if l=0 then
      if checkLen packet (p+1) extrabytes then some (cp.dropLast,p1.getD (p+1)) else none
    else if 192≤l then
      if checkLen packet (p+1) 1 then
        if 255 < hops+1 then none
        else
          extractLoop packet extrabytes (256*(l-192)+(packet.bytes (p+1)).toNat)
            (some (p1.getD (p+2))) (hops+1) cp
      else none
    else if 128≤l then none
    else if 64≤l then
      if l≠65 then none
      else
        let count := if packet.bytes (p+1)=0 then 256 else (packet.bytes (p+1)).toNat
        let digs := (count-1)/4+1
        if maxDname≤cp.length+digs+9 then none
        else if checkLen packet (p+2) ((count-1)/8) then
          extractLoop packet extrabytes (p+2+digs/2) p1 hops (cp++bitStringText packet (p+2) count)
        else none
    else
      if maxDname≤cp.length+l+1 then none
      else if checkLen packet (p+1) l then
        let label := (List.range l).map fun j => packet.bytes (p+1+j)
        if label.all labelChar then
          extractLoop packet extrabytes (p+1+l) p1 hops (cp++label++[46])
        else none
      else none
  else none
termination_by (256-hops)*(packet.len+1)+(packet.len-p)
decreasing_by
  · have hhops : 256-hops=256-(hops+1)+1 := by omega
    have hmul := Nat.add_one_mul (256-(hops+1)) (packet.len+1)
    rw [← hhops] at hmul
    omega
  · have hlt := of_decide_eq_true hlen
    omega
  · have hlt := of_decide_eq_true hlen
    omega

/-- `extract_name` in extract mode: the name, and where it ends. -/
def extractName (packet : Packet) (p extrabytes : ℕ) : Option (List UInt8×ℕ) :=
  extractLoop packet extrabytes p none 0 []

/-- The change of an upper case letter to lower case. -/
def toLower (c : UInt8) : UInt8 := if 65≤c ∧ c≤90 then c+32 else c

/-- One bit of the checksum. -/
def crcBit (crc : BitVec 32) : BitVec 32 :=
  if crc &&& 0x80000000#32≠0#32 then (crc <<< 1) ^^^ 0x04c11db7#32 else crc <<< 1

/-- One byte of the checksum: its eight bits one after the other. -/
def crcByte (crc : BitVec 32) (c : UInt8) : BitVec 32 :=
  crcBit (crcBit (crcBit (crcBit (crcBit (crcBit (crcBit (crcBit
    (crc ^^^ (BitVec.ofNat 32 c.toNat <<< 24)))))))))

/-- A question: the name in lower case, and the four bytes of type and class. -/
structure Question where
  /-- The text of the name, in lower case. -/
  name : List UInt8
  /-- The type and the class. -/
  typeClass : List UInt8
  deriving DecidableEq

/-- The four bytes behind a name. -/
def typeClassAt (packet : Packet) (p : ℕ) : List UInt8 :=
  [packet.bytes p,packet.bytes (p+1),packet.bytes (p+2),packet.bytes (p+3)]

/-- The loop of `questions_crc`. -/
def questionsCrcLoop (packet : Packet) : ℕ → ℕ → BitVec 32 → BitVec 32
  | 0,_,crc => crc
  | q+1,p,crc =>
    match extractName packet p 4 with
    | none => crc
    | some (name,p) =>
      let crc := name.foldl (fun crc c => crcByte crc (toLower c)) crc
      let crc := (typeClassAt packet p).foldl crcByte crc
      if checkLen packet (p+4) 0 then questionsCrcLoop packet q (p+4) crc else crc

/-- `0xffffffff`: the start of the checksum, and its value when no question can be read. -/
def noQuestion : BitVec 32 := 0xffffffff#32

/-- `questions_crc` -/
def questionsCrc (packet : Packet) : BitVec 32 :=
  questionsCrcLoop packet packet.qdcount headerSize noQuestion

/-- Read a number of questions; none if one of them is malformed. -/
def readQuestions (packet : Packet) : ℕ → ℕ → Option (List Question)
  | 0,_ => some []
  | q+1,p =>
    match extractName packet p 4 with
    | none => none
    | some (name,p) =>
      if checkLen packet (p+4) 0 then
        (readQuestions packet q (p+4)).map (⟨name.map toLower,typeClassAt packet p⟩::·)
      else none

/-- The question section of a packet, up to ASCII case, if it is well formed. -/
def questions (packet : Packet) : Option (List Question) :=
  readQuestions packet packet.qdcount headerSize

end AndroidPlatform.DnsPacket
