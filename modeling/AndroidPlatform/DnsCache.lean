import AndroidPlatform.CInteger
import AndroidPlatform.DnsPacket
import AndroidPlatform.LinkedLists

/-!
# The cache of the DNS forwarder

The records of `cache.c` are allocated once. A record in use is on the list of
recent use and in the hash chain of its name; a free one is on the list only;
one that is being inserted is on a chain of its own until the insertion ends.
The fields of the records are kept as one map for each field, indexed by the
record. Walks along a chain return nothing if the chain does not end.
-/

namespace AndroidPlatform.DnsCache

open CInteger DnsPacket LinkedLists

/-- `flags` of a record, an `unsigned short`. -/
abbrev Flags := BitVec 16

/-- `F_IMMORTAL` -/
def fImmortal : Flags := 1#16

/-- `F_CONFIG` -/
def fConfig : Flags := 2#16

/-- `F_REVERSE` -/
def fReverse : Flags := 4#16

/-- `F_FORWARD` -/
def fForward : Flags := 8#16

/-- `F_DHCP` -/
def fDhcp : Flags := 16#16

/-- `F_HOSTS` -/
def fHosts : Flags := 64#16

/-- `F_IPV4` -/
def fIpv4 : Flags := 128#16

/-- `F_IPV6` -/
def fIpv6 : Flags := 256#16

/-- `F_BIGNAME` -/
def fBigname : Flags := 512#16

/-- `F_CNAME` -/
def fCname : Flags := 16384#16

/-- `flags & mask` as a condition. -/
def has (flags mask : Flags) : Bool := flags &&& mask != 0#16

/-- `SMALLDNAME` -/
def smallDname : ℕ := 40

/-- What does not change: the number of records, the memory that the hash
function mixes in, and what a big name becomes when its buffer is put on the
free list, whose pointer overwrites it. -/
structure Config where
  /-- `daemon->cachesize` -/
  cachesize : ℕ
  /-- `mix_tab`, the bytes of `typestr`. -/
  mixTab : ℕ → UInt8
  /-- The text in a buffer after the pointer was stored in it. -/
  garble : Option ℕ → List UInt8 → List UInt8

/-- The cache. Fields that belong to a record are maps from records. -/
structure Cache where
  /-- `next` and `prev`, `cache_head` and `cache_tail`. -/
  links : Doubly ℕ
  /-- `new_chain` -/
  newChain : Option ℕ
  /-- `hash_table` and `hash_next`. -/
  hash : Buckets ℕ
  /-- `ttd`, the time to die. -/
  ttd : ℕ → ℤ
  /-- `uid` of a record. -/
  recordUid : ℕ → ℕ
  /-- `addr.addr` -/
  addr : ℕ → List UInt8
  /-- `addr.cname`: the record that a CNAME points to and the uid it had. -/
  cname : ℕ → Option ℕ×ℕ
  /-- `flags` -/
  flags : ℕ → Flags
  /-- `name.sname` -/
  sname : ℕ → List UInt8
  /-- `name.bname` -/
  bname : ℕ → ℕ
  /-- The text at `name.namep`. -/
  namep : ℕ → List UInt8
  /-- The counter `uid`. -/
  uid : ℕ
  /-- `insert_error` -/
  insertError : Bool
  /-- `big_free` -/
  bigFree : List ℕ
  /-- `bignames_left` -/
  bigNamesLeft : ℕ
  /-- The texts in the buffers for big names. -/
  bigNames : ℕ → List UInt8
  /-- How many buffers have been allocated. -/
  bigCount : ℕ

/-- `hostname_isequal` -/
def hostnameIsequal (a b : List UInt8) : Bool := a.map toLower==b.map toLower

/-- The value that `hash_bucket` computes. -/
def hashVal (mixTab : ℕ → UInt8) (name : List UInt8) : BitVec 32 :=
  (name.map toLower).foldl (fun val c =>
    val.rotateLeft 7+BitVec.ofNat 32 (mixTab ((val.toNat+c.toNat)%64) ^^^ c).toNat) 0x1f35#32

/-- The loop of `rehash` that doubles the size of the hash table. -/
def growHash (size newSize : ℕ) : ℕ :=
  if 0<newSize ∧ newSize < size/10 then growHash size (2*newSize) else newSize
termination_by size-newSize

/-- `hash_size` -/
def Config.hashSize (cfg : Config) : ℕ := growHash cfg.cachesize 64

/-- `hash_bucket` -/
def Config.hashBucket (cfg : Config) (name : List UInt8) : ℕ :=
  let val := hashVal cfg.mixTab name
  ((val ^^^ (val >>> 16)) &&& BitVec.ofNat 32 (cfg.hashSize-1)).toNat

namespace Cache

variable (cfg : Config) (c : Cache)

/-- `cache_get_name` -/
def cacheGetName (x : ℕ) : List UInt8 :=
  if has (c.flags x) fBigname then c.bigNames (c.bname x)
  else if has (c.flags x) (fDhcp ||| fConfig) then c.namep x
  else c.sname x

/-- `is_outdated_cname_pointer` -/
def isOutdated (x : ℕ) : Bool :=
  has (c.flags x) fCname &&
    match (c.cname x).1 with
    | some target => (c.cname x).2 != c.recordUid target
    | none => true

/-- `is_expired` -/
def isExpired (now : ℤ) (x : ℕ) : Bool :=
  !has (c.flags x) fImmortal && !decide (now<c.ttd x)

/-- A record of the hosts file or of the DHCP server. -/
def isLocal (x : ℕ) : Bool := has (c.flags x) (fHosts ||| fDhcp)

/-- `cache_link` -/
def cacheLink (x : ℕ) : Cache := { c with links := c.links.pushFront x }

/-- `cache_unlink` -/
def cacheUnlink (x : ℕ) : Cache := { c with links := c.links.unlink x }

/-- The end of `cache_free`: give the buffer of a big name back. -/
def releaseName (x : ℕ) : Cache :=
  if has (c.flags x) fBigname then
    { c with
      bigNames := Function.update c.bigNames (c.bname x)
        (cfg.garble c.bigFree.head? (c.bigNames (c.bname x)))
      bigFree := c.bname x::c.bigFree
      flags := Function.update c.flags x (c.flags x &&& ~~~fBigname) }
  else c

/-- `cache_free` -/
def cacheFree (x : ℕ) : Cache :=
  ({ c with
    flags := Function.update c.flags x (c.flags x &&& ~~~fForward &&& ~~~fReverse)
    recordUid := Function.update c.recordUid x c.uid
    uid := (c.uid+1)%4294967296
    links := c.links.pushBack x } : Cache).releaseName cfg x

/-- Go along a chain from a place while the records satisfy a condition. -/
def skipWhile (p : ℕ → Bool) (b : ℕ) : ℕ → Option ℕ → Option ℕ
  | 0,up => up
  | fuel+1,up =>
    match c.hash.read b up with
    | some y => if p y then skipWhile p b fuel (some y) else up
    | none => up

/-- The place in its bucket where `cache_hash` puts a record. -/
def hashPlace (b x : ℕ) : Option ℕ :=
  if has (c.flags x) fReverse then none
  else
    let up := c.skipWhile (fun y => has (c.flags y) fReverse) b cfg.cachesize none
    if has (c.flags x) fImmortal then
      c.skipWhile (fun y => !has (c.flags y) fImmortal) b cfg.cachesize up
    else up

/-- `cache_hash` -/
def cacheHash (x : ℕ) : Cache :=
  let b := cfg.hashBucket (c.cacheGetName x)
  { c with hash := c.hash.insert b (c.hashPlace cfg b x) x }

/-- Take a record out of its chain behind `up`, and free it. -/
def dropFree (b : ℕ) (up : Option ℕ) (x : ℕ) : Cache :=
  (({ c with hash := c.hash.remove b up x } : Cache).cacheUnlink x).cacheFree cfg x

/-- Take a record out of its chain behind `up`, and free it unless it is local. -/
def dropCrec (b : ℕ) (up : Option ℕ) (x : ℕ) : Cache :=
  if c.isLocal x then { c with hash := c.hash.remove b up x } else c.dropFree cfg b up x

/-- A name argument: a text, or the name in a record or in a big buffer. -/
inductive NameRef where
  | text (name : List UInt8)
  | small (x : ℕ)
  | big (buffer : ℕ)

/-- The text that a name argument points to now. -/
def readName : NameRef → List UInt8
  | .text name => name
  | .small x => c.sname x
  | .big buffer => c.bigNames buffer

/-- The pointer that `cache_get_name` returns for a record. -/
def nameRef (x : ℕ) : NameRef :=
  if has (c.flags x) fBigname then .big (c.bname x)
  else if has (c.flags x) (fDhcp ||| fConfig) then .text (c.namep x)
  else .small x

/-- A record that a new forward record with these flags replaces. -/
def replacedBy (name : NameRef) (flags : Flags) (x : ℕ) : Bool :=
  has (c.flags x) fForward &&
    (has (flags &&& c.flags x) (fIpv4 ||| fIpv6) || has (c.flags x ||| flags) fCname) &&
    hostnameIsequal (c.cacheGetName x) (c.readName name)

/-- The loop of `cache_scan_free` for a name; the result is what it returns. -/
def scanForward (name : NameRef) (now : ℤ) (flags : Flags) (b : ℕ) :
    ℕ → Option ℕ → Option ℕ → Cache → Option (Cache×Bool)
  | _,_,none,c => some (c,true)
  | 0,_,some _,_ => none
  | fuel+1,up,some x,c =>
    if c.isExpired now x || c.isOutdated x then
      let c' := c.dropCrec cfg b up x
      scanForward name now flags b fuel up (c'.hash.next x) c'
    else if c.replacedBy name flags x then
      if c.isLocal x then some (c,false)
      else
        let c' := c.dropFree cfg b up x
        scanForward name now flags b fuel up (c'.hash.next x) c'
    else scanForward name now flags b fuel (some x) (c.hash.next x) c

/-- `memcmp` of an address with the one of a record. -/
def sameAddr (addr : List UInt8) (addrlen x : ℕ) : Bool :=
  (c.addr x).take addrlen==addr.take addrlen

/-- The length of an address with these flags. -/
def addrlen (flags : Flags) : ℕ := if has flags fIpv6 then 16 else 4

/-- A record that a new reverse record with these flags replaces. -/
def replacedByAddr (addr : List UInt8) (flags : Flags) (x : ℕ) : Bool :=
  !c.isLocal x && has (flags &&& c.flags x) fReverse &&
    has (flags &&& c.flags x) (fIpv4 ||| fIpv6) && c.sameAddr addr (addrlen flags) x

/-- The loop of `cache_scan_free` for an address in one bucket. -/
def scanReverse (addr : List UInt8) (now : ℤ) (flags : Flags) (b : ℕ) :
    ℕ → Option ℕ → Option ℕ → Cache → Option Cache
  | _,_,none,c => some c
  | 0,_,some _,_ => none
  | fuel+1,up,some x,c =>
    if has (c.flags x) fReverse || !has (c.flags x) fImmortal then
      if c.isExpired now x then
        let c' := c.dropCrec cfg b up x
        scanReverse addr now flags b fuel up (c'.hash.next x) c'
      else if c.replacedByAddr addr flags x then
        let c' := c.dropFree cfg b up x
        scanReverse addr now flags b fuel up (c'.hash.next x) c'
      else scanReverse addr now flags b fuel (some x) (c.hash.next x) c
    else some c

/-- A loop over the buckets of the hash table. -/
def overBuckets (body : ℕ → Cache → Option Cache) : List ℕ → Cache → Option Cache
  | [],c => some c
  | b::rest,c => (body b c).bind (overBuckets body rest)

/-- `cache_scan_free` -/
def cacheScanFree (name : Option NameRef) (addr : List UInt8) (now : ℤ) (flags : Flags) :
    Option (Cache×Bool) :=
  if has flags fForward then
    name.bind fun name =>
      let b := cfg.hashBucket (c.readName name)
      scanForward cfg name now flags b cfg.cachesize none (c.hash.read b none) c
  else
    (overBuckets
      (fun b c => scanReverse cfg addr now flags b cfg.cachesize none (c.hash.read b none) c)
      (List.range cfg.hashSize) c).map fun c => (c,true)

/-- The loop of `cache_start_insert`. -/
def freeNew : ℕ → Cache → Option Cache
  | fuel,c =>
    match c.newChain,fuel with
    | none,_ => some { c with insertError := false }
    | some _,0 => none
    | some x,fuel+1 => freeNew fuel { c.cacheFree cfg x with newChain := c.links.next x }

/-- `cache_start_insert` -/
def cacheStartInsert : Option Cache := freeNew cfg cfg.cachesize c

/-- The search of `cache_insert` for a free record at the end of the list: the
cache, and the record if there is one. -/
def findFree (now : ℤ) : ℕ → Bool → Bool → Cache → Option (Cache×Option ℕ)
  | 0,_,_,_ => none
  | fuel+1,freedAll,freeAvail,c =>
    match c.links.tail with
    | none => some (c,none)
    | some x =>
      if has (c.flags x) (fForward ||| fReverse) then
        if freeAvail then some (c,none)
        else if freedAll then
          (c.cacheScanFree cfg (some (c.nameRef x)) (c.addr x) now (c.flags x)).bind fun r =>
            findFree now fuel true true r.1
        else
          (c.cacheScanFree cfg none [] now 0#16).bind fun r => findFree now fuel true false r.1
      else some (c,some x)

/-- The buffer for a long name: the cache and the buffer; none if there is no
buffer, where `malloc` says whether one can be allocated. -/
def takeBigName (malloc : Bool) : Option (Cache×ℕ) :=
  match c.bigFree with
  | buffer::rest => some ({ c with bigFree := rest },buffer)
  | [] =>
    if c.bigNamesLeft≠0 ∧ malloc=true then
      some ({ c with bigNamesLeft := c.bigNamesLeft-1, bigCount := c.bigCount+1 },c.bigCount)
    else none

/-- What is put into a record that is being inserted. -/
structure NewRecord where
  /-- The name, or null. -/
  name : Option (List UInt8)
  /-- The address, or null. -/
  addr : Option (List UInt8)
  /-- The time. -/
  now : ℤ
  /-- The time to live. -/
  ttl : ℕ
  /-- The flags. -/
  flags : Flags

/-- The flags that `cache_insert` works with. -/
def NewRecord.kept (new : NewRecord) : Flags := new.flags &&& ~~~fConfig

/-- The end of `cache_insert`: fill the record and put it on the new chain. -/
def fillCrec (new : NewRecord) (x : ℕ) (bigName : Option ℕ) : Cache :=
  { c with
    flags := Function.update c.flags x
      (if bigName.isSome then new.kept ||| fBigname else new.kept)
    bname := match bigName with
      | some buffer => Function.update c.bname x buffer
      | none => c.bname
    bigNames := match bigName with
      | some buffer => Function.update c.bigNames buffer (new.name.getD [])
      | none => c.bigNames
    sname := match bigName with
      | some _ => c.sname
      | none => Function.update c.sname x (new.name.getD [])
    addr := match new.addr with
      | some addr => Function.update c.addr x addr
      | none => c.addr
    cname := match new.addr with
      | some _ => c.cname
      | none => Function.update c.cname x (none,(c.cname x).2)
    ttd := Function.update c.ttd x (toInt (new.now+new.ttl))
    links := { c.links with next := Function.update c.links.next x c.newChain }
    newChain := some x }

/-- The insertion into a free record. -/
def insertAt (new : NewRecord) (malloc : Bool) (x : ℕ) : Cache×Option ℕ :=
  if smallDname-1<(new.name.getD []).length then
    match c.takeBigName malloc with
    | none => ({ c with insertError := true },none)
    | some (c',buffer) => ((c'.cacheUnlink x).fillCrec new x (some buffer),some x)
  else ((c.cacheUnlink x).fillCrec new x none,some x)

/-- `cache_insert`: the cache and the record. -/
def cacheInsert (new : NewRecord) (malloc : Bool) : Option (Cache×Option ℕ) :=
  if c.insertError then some (c,none)
  else
    (c.cacheScanFree cfg (new.name.map .text) (new.addr.getD []) new.now new.kept).bind fun r =>
      if r.2 then
        (findFree cfg new.now 3 (has new.flags fReverse) false r.1).map fun f =>
          match f with
          | (c',none) => ({ c' with insertError := true },none)
          | (c',some x) => c'.insertAt new malloc x
      else some ({ r.1 with insertError := true },none)

/-- The loop of `cache_end_insert`. -/
def hashNew : ℕ → Cache → Option Cache
  | fuel,c =>
    match c.newChain,fuel with
    | none,_ => some c
    | some _,0 => none
    | some x,fuel+1 =>
      if c.isOutdated x then
        hashNew fuel { c.cacheFree cfg x with newChain := c.links.next x }
      else
        hashNew fuel { (c.cacheHash cfg x).cacheLink x with newChain := c.links.next x }

/-- `cache_end_insert` -/
def cacheEndInsert : Option Cache :=
  if c.insertError then some c else hashNew cfg cfg.cachesize c

/-- The test that a record answers a query for a name. -/
def answers (name : List UInt8) (prot : Flags) (x : ℕ) : Bool :=
  has (c.flags x) fForward && has (c.flags x) prot && hostnameIsequal (c.cacheGetName x) name

/-- The chain of answers: its start `ans` and the place of the pointer `chainp`
to write next, in `ans` or in a record. -/
structure Answers where
  /-- `ans` -/
  ans : Option ℕ
  /-- `chainp` -/
  chainp : Option ℕ

/-- `*chainp = v` -/
def putAnswer (answers : Answers) (v : Option ℕ) : Cache×Answers :=
  ({ c with links := { c.links with next := turn c.links.next answers.chainp v } },
    { answers with ans := turnHead answers.ans answers.chainp v })

/-- What a lookup does with a record it has found: a local record goes on the
chain of answers, any other to the front of the list. -/
def touch (answers : Answers) (x : ℕ) : Cache×Answers :=
  if c.isLocal x then ((c.putAnswer answers (some x)).1,
    { (c.putAnswer answers (some x)).2 with chainp := some x })
  else ((c.cacheUnlink x).cacheLink x,answers)

/-- Move a record in its chain from behind `up` to behind `place`. -/
def moveCrec (b : ℕ) (up place : Option ℕ) (x : ℕ) : Cache :=
  { c with hash := (c.hash.remove b up x).insert b place x }

/-- The walk of `cache_find_by_name` along a bucket: `insert` is the place
where the records it finds are gathered, with the flags they have to share. -/
def walkName (name : List UInt8) (now : ℤ) (prot : Flags) (b : ℕ) :
    ℕ → Option ℕ → Option ℕ → Option (Option ℕ×Flags) → Cache×Answers → Option (Cache×Answers)
  | _,_,none,_,s => some s
  | 0,_,some _,_,_ => none
  | fuel+1,up,some x,insert,(c,chain) =>
    let next := c.hash.next x
    if c.isExpired now x || c.isOutdated x then
      walkName name now prot b fuel up next insert (c.dropCrec cfg b up x,chain)
    else if c.answers name prot x then
      let s := c.touch chain x
      let kind := c.flags x &&& (fReverse ||| fImmortal)
      match insert with
      | none => walkName name now prot b fuel (some x) next (some (up,kind)) s
      | some (place,insFlags) =>
        if kind=insFlags then
          walkName name now prot b fuel up next (some (some x,insFlags))
            (s.1.moveCrec b up place x,s.2)
        else walkName name now prot b fuel (some x) next insert s
    else walkName name now prot b fuel (some x) next insert (c,chain)

/-- `cache_find_by_name` without a record: the walk, and the first answer. -/
def findFirst (name : List UInt8) (now : ℤ) (prot : Flags) : Option (Cache×Option ℕ) :=
  let b := cfg.hashBucket name
  (walkName cfg name now prot b cfg.cachesize none (c.hash.read b none) none
    (c,⟨none,none⟩)).map fun s =>
      let r := s.1.putAnswer s.2 s.1.links.head
      (r.1,r.2.ans.filter (r.1.answers name prot))

/-- `cache_find_by_name` with the record it returned before. -/
def findNext (name : List UInt8) (prot : Flags) (x : ℕ) : Option ℕ :=
  (c.links.next x).filter (c.answers name prot)

/-- The answers from a record on. -/
def answersFrom (name : List UInt8) (prot : Flags) : ℕ → Option ℕ → List ℕ
  | _,none => []
  | 0,some _ => []
  | fuel+1,some x => x::answersFrom name prot fuel (c.findNext name prot x)

/-- All answers that the calls of `cache_find_by_name` give one after the other,
with the cache after the first. -/
def findAll (name : List UInt8) (now : ℤ) (prot : Flags) : Option (Cache×List ℕ) :=
  (c.findFirst cfg name now prot).map fun r =>
    (r.1,r.1.answersFrom name prot (cfg.cachesize+1) r.2)

/-- The test that a record answers a query for an address. -/
def answersAddr (addr : List UInt8) (prot : Flags) (x : ℕ) : Bool :=
  has (c.flags x) prot && c.sameAddr addr (if prot=fIpv6 then 16 else 4) x

/-- The walk of `cache_find_by_addr` along a bucket. -/
def walkAddr (addr : List UInt8) (now : ℤ) (prot : Flags) (b : ℕ) :
    ℕ → Option ℕ → Option ℕ → Cache×Answers → Option (Cache×Answers)
  | _,_,none,s => some s
  | 0,_,some _,_ => none
  | fuel+1,up,some x,(c,chain) =>
    if has (c.flags x) fReverse then
      if c.isExpired now x then
        let c' := c.dropCrec cfg b up x
        walkAddr addr now prot b fuel up (c'.hash.next x) (c',chain)
      else if c.answersAddr addr prot x then
        let s := c.touch chain x
        walkAddr addr now prot b fuel (some x) (s.1.hash.next x) s
      else walkAddr addr now prot b fuel (some x) (c.hash.next x) (c,chain)
    else some (c,chain)

/-- The loop of `cache_find_by_addr` over the buckets. -/
def walkAddrs (addr : List UInt8) (now : ℤ) (prot : Flags) :
    List ℕ → Cache×Answers → Option (Cache×Answers)
  | [],s => some s
  | b::rest,s =>
    (walkAddr cfg addr now prot b cfg.cachesize none (s.1.hash.read b none) s).bind
      (walkAddrs addr now prot rest)

/-- `cache_find_by_addr` without a record. -/
def findFirstAddr (addr : List UInt8) (now : ℤ) (prot : Flags) : Option (Cache×Option ℕ) :=
  (walkAddrs cfg addr now prot (List.range cfg.hashSize) (c,⟨none,none⟩)).map fun s =>
    let r := s.1.putAnswer s.2 s.1.links.head
    (r.1,r.2.ans.filter fun x => has (r.1.flags x) fReverse && r.1.answersAddr addr prot x)

/-- `cpp->addr.cname`: let a CNAME record point to the record behind it. -/
def linkCname (cpp newc : ℕ) : Cache :=
  { c with cname := Function.update c.cname cpp (some newc,c.recordUid newc) }

/-- The loop of `cache_init`. -/
def initCrecs : ℕ → ℕ → Cache → Cache
  | 0,_,c => c
  | n+1,x,c =>
    initCrecs n (x+1)
      { c.cacheLink x with
        flags := Function.update c.flags x 0#16
        recordUid := Function.update c.recordUid x c.uid
        uid := (c.uid+1)%4294967296 }

/-- `cache_init`, on memory with any content. -/
def cacheInit : Cache :=
  { initCrecs cfg.cachesize 0
      { c with
        links := { c.links with head := none, tail := none }
        newChain := none
        uid := 0
        insertError := false
        bigFree := []
        bigNamesLeft := cfg.cachesize/10
        bigCount := 0 } with
    hash := { c.hash with table := fun _ => none } }

end Cache

end AndroidPlatform.DnsCache
