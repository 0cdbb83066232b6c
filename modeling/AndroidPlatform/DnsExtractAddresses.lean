import AndroidPlatform.DnsCache
import AndroidPlatform.DnsNameComparison

/-!
# Taking a reply into the cache

`extract_addresses` reads the answers of a reply that came from upstream. For
a question about addresses it follows the chain of CNAME records from the name
that was asked for: at each of them the name buffer gets the target, and the
scan of the answers starts again, at most five times. The records of the type
asked for that the name at the end of the chain has go into the cache. For a
PTR question the answers are scanned the same way, but the name buffer is
filled with the name of the question again before every record.

Before that, `find_soa` looks for a time to live for negative answers and lets
`do_doctor` change addresses. What `cache_insert` returns is a parameter; it
may depend on the calls before.
-/

namespace AndroidPlatform.DnsExtractAddresses

open DnsPacket DnsSkip DnsNameComparison
open DnsCache (Flags fReverse fForward fIpv4 fIpv6 fCname has hostnameIsequal)
open DnsCache.Cache (NewRecord)

/-- `F_NEG` -/
def fNeg : Flags := 32#16

/-- `F_NXDOMAIN` -/
def fNxdomain : Flags := 4096#16

/-- `NXDOMAIN` -/
def nxdomain : ℕ := 3

/-- `C_IN` -/
def cIn : ℕ := 1

/-- `T_A` -/
def tA : ℕ := 1

/-- `T_CNAME` -/
def tCname : ℕ := 5

/-- `T_SOA` -/
def tSoa : ℕ := 6

/-- `T_PTR` -/
def tPtr : ℕ := 12

/-- `T_AAAA` -/
def tAaaa : ℕ := 28

/-- `ntohs(header->ancount)` -/
def ancount (packet : Packet) : ℕ := packet.short 6

/-- `ntohs(header->nscount)` -/
def nscount (packet : Packet) : ℕ := packet.short 8

/-- `ntohs(header->arcount)` -/
def arcount (packet : Packet) : ℕ := packet.short 10

/-- `header->tc` -/
def tc (packet : Packet) : Bool := (packet.bytes 2).toNat/2%2=1

/-- `GETLONG` -/
def long (packet : Packet) (p : ℕ) : ℕ := 65536*packet.short p+packet.short (p+2)

/-- Bytes of the packet. -/
def bytesAt (packet : Packet) (p len : ℕ) : List UInt8 := (List.range len).map fun j => packet.bytes (p+j)

/-- `struct doctor`, its addresses as numbers. -/
structure Doctor where
  /-- `in` -/
  low : BitVec 32
  /-- `end` -/
  high : BitVec 32
  /-- `out` -/
  out : BitVec 32
  /-- `mask` -/
  mask : BitVec 32

/-- The part of `daemon` that is read. -/
structure Daemon where
  /-- `daemon->doctors` -/
  doctors : List Doctor
  /-- `OPT_NO_NEG` -/
  noNeg : Bool
  /-- `OPT_NO_REBIND` -/
  noRebind : Bool
  /-- `daemon->neg_ttl` -/
  negTtl : ℕ
  /-- `ULONG_MAX` of the platform. -/
  ulongMax : ℕ

/-- The address in four bytes of the packet. -/
def addrAt (packet : Packet) (p : ℕ) : BitVec 32 := BitVec.ofNat 32 (long packet p)

/-- `private_net` -/
def privateNet (addr : BitVec 32) : Bool :=
  addr &&& 0xFF000000#32 == 0x7F000000#32 ||
  addr &&& 0xFFFF0000#32 == 0xC0A80000#32 ||
  addr &&& 0xFF000000#32 == 0x0A000000#32 ||
  addr &&& 0xFFF00000#32 == 0xAC100000#32 ||
  addr &&& 0xFFFF0000#32 == 0xA9FE0000#32

/-! ## Doctoring and the time to live of negative answers -/

/-- Whether an address is in the range of a doctor. -/
def doctorApplies (addr : BitVec 32) (doctor : Doctor) : Bool :=
  if doctor.high=0#32 then doctor.low &&& doctor.mask == addr &&& doctor.mask
  else !(decide (addr<doctor.low) || decide (doctor.high<addr))

/-- The address that a doctor puts in place of another one. -/
def doctored (addr : BitVec 32) (doctor : Doctor) : BitVec 32 :=
  (addr &&& ~~~doctor.mask) ||| (doctor.out &&& doctor.mask)

/-- `header->aa = 0`, and the address is written to `p`. -/
def writeAddr (packet : Packet) (p : ℕ) (addr : BitVec 32) : Packet :=
  { packet with bytes := fun i =>
      if p ≤ i ∧ i<p+4 then UInt8.ofNat (addr.toNat/256^(3-(i-p)))
      else if i=2 then packet.bytes 2 &&& 251 else packet.bytes i }

/-- `do_doctor`: the packet, and where the records end. -/
def doDoctor (doctors : List Doctor) : ℕ → Packet → ℕ → Packet×Option ℕ
  | 0,packet,p => (packet,some p)
  | count+1,packet,p =>
    match skipName packet p 10 with
    | none => (packet,none)
    | some p =>
      let qtype := packet.short p
      let qclass := packet.short (p+2)
      let rdlen := packet.short (p+8)
      let p := p+10
      if qclass=cIn ∧ qtype=tA then
        if checkLen packet p 4 then
          let addr := addrAt packet p
          let packet := match doctors.find? (doctorApplies addr) with
            | some doctor => writeAddr packet p (doctored addr doctor)
            | none => packet
          doDoctor doctors count packet (addRdlen packet p rdlen).2
        else (packet,none)
      else doDoctor doctors count packet (addRdlen packet p rdlen).2

/-- The loop of `find_soa` over the authority section: where it ends, whether
there was a record, and the least time to live. -/
def soaLoop (packet : Packet) : ℕ → ℕ → Bool → ℕ → Option (ℕ×Bool×ℕ)
  | 0,p,found,minttl => some (p,found,minttl)
  | count+1,p,found,minttl =>
    match skipName packet p 10 with
    | none => none
    | some p =>
      let qtype := packet.short p
      let qclass := packet.short (p+2)
      let ttl := long packet (p+4)
      let rdlen := packet.short (p+8)
      let p := p+10
      if qclass=cIn ∧ qtype=tSoa then
        match skipName packet p 0 with
        | none => none
        | some p =>
          match skipName packet p 20 with
          | none => none
          | some p =>
            soaLoop packet count (p+20) true (min (min ttl minttl) (long packet (p+16)))
      else soaLoop packet count (addRdlen packet p rdlen).2 found minttl

/-- The result of `find_soa`, an `int`, as an `unsigned long`. -/
def soaResult (d : Daemon) (minttl : ℕ) : ℕ :=
  if minttl%2^32<2^31 then minttl%2^32 else d.ulongMax+1-2^32+minttl%2^32

/-- `find_soa`: the packet with changed addresses, and the time to live. -/
def findSoa (d : Daemon) (packet : Packet) : Packet×ℕ :=
  match skipQuestions packet with
  | none => (packet,0)
  | some p =>
    match doDoctor d.doctors (ancount packet) packet p with
    | (packet,none) => (packet,0)
    | (packet,some p) =>
      match soaLoop packet (nscount packet) p false d.ulongMax with
      | none => (packet,0)
      | some (p,found,minttl) =>
        match doDoctor d.doctors (arcount packet) packet p with
        | (packet,none) => (packet,0)
        | (packet,some _) => (packet,soaResult d (if found then minttl else d.negTtl))

/-! ## Names of addresses -/

/-- `MAXARPANAME` -/
def maxArpaName : ℕ := 75

/-- `"arpa"` -/
def arpa : List UInt8 := [97,114,112,97]

/-- `"in-addr"` -/
def inAddr : List UInt8 := [105,110,45,97,100,100,114]

/-- `"ip6"` -/
def ip6 : List UInt8 := [105,112,54]

/-- `"int"` -/
def int : List UInt8 := [105,110,116]

/-- `sizeof(struct all_addr)` -/
def allAddrSize : ℕ := 16

/-- `isdigit` -/
def isDigit (c : UInt8) : Bool := 48≤c && c≤57

/-- `atoi` of digits, as it is stored in a byte. -/
def atoi (digits : List UInt8) : UInt8 :=
  UInt8.ofNat (digits.foldl (fun n c => 10*n+(c.toNat-48)) 0)

/-- The value of a hexadecimal digit. -/
def xdigit (c : UInt8) : Option UInt8 :=
  if 48≤c ∧ c≤57 then some (c-48)
  else if 65≤c ∧ c≤70 then some (c-55)
  else if 97≤c ∧ c≤102 then some (c-87)
  else none

/-- The loop of `in_arpa_name_2_addr` over the numbers of an IPv4 address. -/
def dottedQuad : List (List UInt8) → List UInt8 → Option (List UInt8)
  | [],addr => some addr
  | chunk::chunks,addr =>
    if chunk.all isDigit then dottedQuad chunks (atoi chunk::(addr.take 3++addr.drop 4)) else none

/-- The loop of `in_arpa_name_2_addr` over the digits of an IPv6 address. -/
def nibbles : List (List UInt8) → List UInt8 → Option (List UInt8)
  | [],addr => some addr
  | [c]::chunks,addr =>
    match xdigit c with
    | some dig => nibbles chunks
        (List.zipWith (fun cur prev : UInt8 => (cur >>> 4) ||| (prev <<< 4)) addr (dig::addr))
    | none => none
  | _::_,_ => none

/-- The loop of `in_arpa_name_2_addr` over the digits of a bit string: the
address, and how many digits there were, if a slash follows. -/
def bitString : ℕ → List UInt8 → List UInt8 → Option (List UInt8×ℕ)
  | _,[],_ => none
  | j,c::text,addr =>
    match xdigit c with
    | some dig =>
      if j<32 then
        bitString (j+1) text
          (addr.modify (j/2) fun b => if j%2=1 then b ||| dig else dig <<< 4)
      else none
    | none => if c=47 then some (addr,j) else none

/-- `in_arpa_name_2_addr`: the flag of the family, and the address. -/
def inArpaName2Addr (namein : List UInt8) : Option (Flags×List UInt8) :=
  if maxArpaName<namein.length then none
  else
    let chunks := namein.splitOn 46
    let zero := List.replicate allAddrSize (0 : UInt8)
    if chunks.length<3 then none
    else
      let numbers := chunks.take (chunks.length-2)
      let penchunk := chunks.getD (chunks.length-2) []
      let lastchunk := chunks.getD (chunks.length-1) []
      if hostnameIsequal lastchunk arpa &&
          hostnameIsequal penchunk inAddr then
        (dottedQuad numbers zero).map fun addr => (fIpv4,addr)
      else if hostnameIsequal penchunk ip6 &&
          (hostnameIsequal lastchunk int ||
            hostnameIsequal lastchunk arpa) then
        let first := chunks.headD []
        if first.take 3=[92,91,120] ∨ first.take 3=[92,91,88] then
          match bitString 0 (first.drop 3) zero with
          | some (addr,32) => some (fIpv6,addr)
          | _ => none
        else (nibbles numbers zero).map fun addr => (fIpv6,addr)
      else none

/-! ## The answers -/

/-- What is called in the cache. -/
inductive CacheCall where
  /-- `cache_start_insert` -/
  | startInsert
  /-- `cache_insert`, for the record with its data at a position, or for none. -/
  | insert (record : Option ℕ) (new : NewRecord)
  /-- A CNAME record is made to point to the record behind it. -/
  | link (cpp newc : ℕ)
  /-- `cache_end_insert` -/
  | endInsert

/-- The variables of `extract_addresses` for one question. -/
structure Search where
  /-- The buffer `name`. -/
  name : List UInt8
  /-- `found` -/
  found : Bool
  /-- `cpp` -/
  cpp : Option ℕ
  /-- `cttl` -/
  cttl : ℕ
  /-- What was called. -/
  calls : List CacheCall

/-- How a scan of the answers ends. -/
inductive Scanned where
  /-- All answers were gone through. -/
  | finished (s : Search)
  /-- `goto cname_loop` -/
  | restart (s : Search)
  /-- `return` with a result. -/
  | quit (result : ℕ) (calls : List CacheCall)

/-- A call of `cache_insert`, and the record that it returns. -/
def callInsert (ins : List CacheCall → Option ℕ) (record : Option ℕ) (new : NewRecord)
    (s : Search) : Search×Option ℕ :=
  ({ s with calls := s.calls++[.insert record new] },ins s.calls)

/-- `if (newc && cpp)` -/
def callLink (newc : Option ℕ) (s : Search) : Search :=
  match newc,s.cpp with
  | some newc,some cpp => { s with calls := s.calls++[.link cpp newc] }
  | _,_ => s

/-- What the loops over the answers read. -/
structure Context where
  /-- The reply. -/
  packet : Packet
  /-- `daemon` -/
  d : Daemon
  /-- `now` -/
  now : ℤ
  /-- What `cache_insert` returns after some calls. -/
  ins : List CacheCall → Option ℕ

/-- The loop over the answers for an address question of type `qtype`, whose
addresses have `addrlen` bytes, with `count` CNAME records still allowed. -/
def addressScan (cx : Context) (qtype addrlen : ℕ) (flags : Flags) (count : ℕ) :
    ℕ → ℕ → Search → Scanned
  | 0,_,s => .finished s
  | j+1,p1,s =>
    match compareName cx.packet p1 10 s.name with
    | (_,none) => .quit 0 s.calls
    | (res,some p1) =>
      let aqtype := cx.packet.short p1
      let aqclass := cx.packet.short (p1+2)
      let attl := long cx.packet (p1+4)
      let p1 := p1+10
      let endrr := p1+cx.packet.short (p1-2)
      if aqclass=cIn ∧ res≠2 ∧ aqtype=tCname then
        if count=0 then .quit 0 s.calls
        else
          let (s,newc) := callInsert cx.ins (some p1)
            ⟨some s.name,none,cx.now,attl,fCname ||| fForward⟩ s
          let s := callLink newc s
          let s := { s with cpp := newc, cttl := min attl s.cttl }
          match extractName cx.packet p1 0 with
          | none => .quit 0 s.calls
          | some (name,_) => .restart { s with name := name }
      else if aqclass=cIn ∧ res≠2 ∧ aqtype=qtype then
        if checkLen cx.packet p1 addrlen then
          if cx.d.noRebind ∧ has flags fIpv4 ∧ privateNet (addrAt cx.packet p1) then
            .quit 1 s.calls
          else
            let (s,newc) := callInsert cx.ins (some p1)
              ⟨some s.name,some (bytesAt cx.packet p1 addrlen),cx.now,attl,flags ||| fForward⟩ s
            let s := { callLink newc s with found := true, cpp := none }
            if checkLen cx.packet endrr 0 then
              addressScan cx qtype addrlen flags count j endrr s
            else .quit 0 s.calls
        else .quit 0 s.calls
      else if checkLen cx.packet endrr 0 then addressScan cx qtype addrlen flags count j endrr s
      else .quit 0 s.calls

/-- The loop over the answers for a PTR question that stands at `namep`. -/
def ptrScan (cx : Context) (namep : ℕ) (encoding : Flags) (addr : List UInt8) (count : ℕ) :
    ℕ → ℕ → Search → Scanned
  | 0,_,s => .finished s
  | j+1,p1,s =>
    match extractName cx.packet namep 0 with
    | none => .quit 0 s.calls
    | some (name,_) =>
      match compareName cx.packet p1 10 name with
      | (_,none) => .quit 0 s.calls
      | (res,some p1) =>
        let aqtype := cx.packet.short p1
        let aqclass := cx.packet.short (p1+2)
        let attl := long cx.packet (p1+4)
        let p1 := p1+10
        let endrr := p1+cx.packet.short (p1-2)
        let s := { s with name := name, cttl := min attl s.cttl }
        if aqclass=cIn ∧ res≠2 ∧ (aqtype=tCname ∨ aqtype=tPtr) then
          match extractName cx.packet p1 0 with
          | none => .quit 0 s.calls
          | some (name,_) =>
            let s := { s with name := name }
            if aqtype=tCname then
              if count=0 then .quit 0 s.calls else .restart s
            else
              let s := (callInsert cx.ins (some p1)
                ⟨some s.name,some addr,cx.now,s.cttl,encoding ||| fReverse⟩ s).1
              let s := { s with found := true }
              if checkLen cx.packet endrr 0 then
                ptrScan cx namep encoding addr count j endrr s
              else .quit 0 s.calls
        else if checkLen cx.packet endrr 0 then ptrScan cx namep encoding addr count j endrr s
        else .quit 0 s.calls

/-- The scans of the answers, from `cname_loop` on. -/
def cnameLoop (packet : Packet) (scan : ℕ → ℕ → ℕ → Search → Scanned) : ℕ → Search → Scanned
  | count,s =>
    match skipQuestions packet with
    | none => .quit 0 s.calls
    | some p1 =>
      match scan count (ancount packet) p1 s with
      | .restart s =>
        match count with
        | 0 => .quit 0 s.calls
        | count+1 => cnameLoop packet scan count s
      | ended => ended

/-- How many CNAME records may be followed. -/
def cnameCount : ℕ := 5

/-- The time to live for negative answers, once it was looked for. -/
def soaTtl (cx : Context) (searched : Option ℕ) : ℕ :=
  match searched with
  | some ttl => ttl
  | none => (findSoa cx.d cx.packet).2

/-- A PTR question: how it ends, and the time to live of negative answers if it is known. -/
def ptrQuestion (cx : Context) (namep : ℕ) (encoding : Flags) (addr : List UInt8) (flags : Flags)
    (searched : Option ℕ) (s : Search) : Scanned×Option ℕ :=
  let scanned :=
    if has flags fNxdomain then .finished s
    else cnameLoop cx.packet (ptrScan cx namep encoding addr) cnameCount s
  match scanned with
  | .finished s =>
    if !s.found && !cx.d.noNeg then
      let ttl := soaTtl cx searched
      if ttl≠0 then
        (.finished (callInsert cx.ins none
          ⟨none,some addr,cx.now,ttl,encoding ||| fReverse ||| fNeg ||| flags⟩ s).1,some ttl)
      else (.finished s,some ttl)
    else (.finished s,searched)
  | ended => (ended,searched)

/-- An address question: how it ends, and the time to live of negative answers if it is known. -/
def addressQuestion (cx : Context) (qtype addrlen : ℕ) (flags : Flags) (searched : Option ℕ)
    (s : Search) : Scanned×Option ℕ :=
  let scanned :=
    if has flags fNxdomain then .finished s
    else cnameLoop cx.packet (addressScan cx qtype addrlen flags) cnameCount s
  match scanned with
  | .finished s =>
    if !s.found && !cx.d.noNeg then
      let ttl := soaTtl cx searched
      if ttl≠0 ∨ s.cpp≠none then
        let (s,newc) := callInsert cx.ins none
          ⟨some s.name,none,cx.now,if ttl≠0 then ttl else s.cttl,fForward ||| fNeg ||| flags⟩ s
        (.finished (callLink newc s),some ttl)
      else (.finished s,some ttl)
    else (.finished s,searched)
  | ended => (ended,searched)

/-- One question, which stands at `p` with its type at `q`: how it ends, and the
time to live of negative answers if it is known. -/
def question (cx : Context) (p q : ℕ) (name : List UInt8) (searched : Option ℕ)
    (calls : List CacheCall) : Scanned×Option ℕ :=
  let qtype := cx.packet.short q
  let qclass := cx.packet.short (q+2)
  let flags := if cx.packet.rcode=nxdomain then fNxdomain else 0#16
  let s : Search := ⟨name,false,none,cx.d.ulongMax,calls⟩
  if qclass≠cIn then (.finished s,searched)
  else if qtype=tPtr then
    match inArpaName2Addr name with
    | none => (.finished s,searched)
    | some (encoding,addr) => ptrQuestion cx p encoding addr flags searched s
  else if qtype=tA then addressQuestion cx qtype 4 (flags ||| fIpv4) searched s
  else if qtype=tAaaa then addressQuestion cx qtype 16 (flags ||| fIpv6) searched s
  else (.finished s,searched)

/-- The loop over the questions: what was called, and what is returned early. -/
def questionLoop (cx : Context) : ℕ → ℕ → Option ℕ → List CacheCall → List CacheCall×Option ℕ
  | 0,_,_,calls => (calls,none)
  | i+1,p,searched,calls =>
    match extractName cx.packet p 4 with
    | none => (calls,some 0)
    | some (name,q) =>
      match question cx p q name searched calls with
      | (.finished s,searched) => questionLoop cx i (q+4) searched s.calls
      | (.restart s,_) => (s.calls,some 0)
      | (.quit result calls,_) => (calls,some result)

/-- The reply as the answers are read from it: with doctors, after `find_soa`. -/
def received (d : Daemon) (packet : Packet) : Packet :=
  if d.doctors.isEmpty then packet else (findSoa d packet).1

/-- `extract_addresses`: what it calls in the cache, and what it returns. -/
def extractAddresses (d : Daemon) (packet : Packet) (now : ℤ) (ins : List CacheCall → Option ℕ) :
    List CacheCall×ℕ :=
  let searched := if d.doctors.isEmpty then none else some (findSoa d packet).2
  let cx : Context := ⟨received d packet,d,now,ins⟩
  match questionLoop cx cx.packet.qdcount headerSize searched [.startInsert] with
  | (calls,some result) => (calls,result)
  | (calls,none) => (if tc cx.packet then calls else calls++[.endInsert],0)

end AndroidPlatform.DnsExtractAddresses
