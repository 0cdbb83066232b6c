import AndroidPlatform.WriteBackLines
import Mathlib.Data.List.FinRange

/-!
# The block cache of the Unix I/O manager

A channel reads and writes the blocks of a device through eight cache entries.
A write stays in its entry until the entry is reused for another block or the
channel is flushed; long and unaligned transfers, and writes of single bytes,
go to the device after a flush. The device is a file: it reads as zero between
the bytes that were written, a read ends at its length and a write at the
largest length it can have.
-/

namespace AndroidPlatform.UnixIo

open WriteBackLines

/-- The failures of a request. -/
inductive Errcode
  | einval
  | shortRead
  | shortWrite
deriving DecidableEq,Repr

/-- The file behind the descriptor `dev`. -/
structure Device where
  /-- Its bytes, zero where none was written. -/
  byte : ℕ → UInt8
  /-- Its length. -/
  length : ℕ
  /-- The largest offset, which a block device has from the start. -/
  limit : ℕ
  length_le : length ≤ limit
  hole : ∀ i, length ≤ i → byte i=0

/-- `read` at a location, which returns less than was asked for at the end. -/
def Device.read (d : Device) (location size : ℕ) : List UInt8 :=
  slice d.byte location (min size (d.length-location))

/-- What `write` may put at a location. -/
def Device.accepted (d : Device) (location : ℕ) (data : List UInt8) : List UInt8 :=
  data.take (d.limit-location)

/-- `write` at a location. -/
def Device.write (d : Device) (location : ℕ) (data : List UInt8) : Device where
  byte := patch d.byte location (d.accepted location data)
  length := if d.accepted location data=[] then d.length
    else max d.length (location+(d.accepted location data).length)
  limit := d.limit
  length_le := by
    have hle : (d.accepted location data).length ≤ d.limit-location := by
      simp [Device.accepted]
    split
    · exact d.length_le
    · next hne =>
      have hpos : 0 < (d.accepted location data).length := List.length_pos_of_ne_nil hne
      exact Nat.max_le.mpr ⟨d.length_le,by omega⟩
  hole i hi := by
    split at hi
    · next hnil => rw [hnil,patch_nil,d.hole i hi]
    · have hmax := Nat.max_le.mp hi
      rw [patch_behind _ _ hmax.2,d.hole i hmax.1]

/-- `CACHE_SIZE` entries, by number. -/
abbrev Slot := Fin 8

/-- `struct unix_cache`. -/
structure UnixCache where
  buf : List UInt8
  block : ℕ
  accessTime : ℕ
  dirty : Bool
  inUse : Bool
deriving Repr

/-- The parts of `struct struct_io_channel` and `struct unix_private_data` that
the requests use. The channel is not open for direct I/O, and has no handlers
of its own for errors. -/
structure Channel where
  blockSize : ℕ
  /-- `CHANNEL_FLAGS_WRITETHROUGH` among the flags. -/
  writethrough : Bool
  offset : ℕ
  accessTime : ℕ
  cache : Slot → UnixCache
  dev : Device

/-- The byte of the device at which a block starts. -/
def Channel.location (c : Channel) (block : ℕ) : ℕ := block*c.blockSize+c.offset

/-- A negative count is a number of bytes. -/
def transferSize (blockSize : ℕ) (count : ℤ) : ℕ :=
  if count < 0 then (-count).toNat else count.toNat*blockSize

/-- Replace a cache entry. -/
def Channel.setEntry (c : Channel) (slot : Slot) (entry : UnixCache) : Channel :=
  { c with cache:=Function.update c.cache slot entry }

/-- `raw_read_blk`: the status, and the bytes put in the buffer. -/
def rawReadBlk (c : Channel) (block : ℕ) (count : ℤ) : Option Errcode×List UInt8 :=
  let size := transferSize c.blockSize count
  if c.dev.limit < c.location block then (some .einval,List.replicate size 0)
  else
    let actual := c.dev.read (c.location block) size
    if actual.length=size then (none,actual)
    else (some .shortRead,actual++List.replicate (size-actual.length) 0)

/-- `raw_write_blk`. -/
def rawWriteBlk (c : Channel) (block : ℕ) (count : ℤ) (buf : List UInt8) :
    Channel×Option Errcode :=
  let data := buf.take (transferSize c.blockSize count)
  if c.dev.limit < c.location block then (c,some .einval)
  else ({ c with dev:=c.dev.write (c.location block) data },
    if (c.dev.accepted (c.location block) data).length=transferSize c.blockSize count then none
    else some .shortWrite)

/-- What `find_cached_block` finds. -/
inductive Lookup
  | found (slot : Slot)
  | missed (eldest : Slot)
deriving DecidableEq,Repr

/-- Whether an entry was used before the oldest one so far. -/
def isOlder (cache : Slot → UnixCache) (slot : Slot) : Option Slot → Bool
  | none => true
  | some oldest => decide ((cache slot).accessTime < (cache oldest).accessTime)

/-- The loop of `find_cached_block` over the entries that are left. -/
def findLoop (cache : Slot → UnixCache) (block : ℕ) (unused oldest : Option Slot) :
    List Slot → Lookup
  -- one of eight entries is unused or the oldest
  | [] => .missed ((unused <|> oldest).getD 0)
  | slot::rest =>
    if (cache slot).inUse=false then findLoop cache block (unused <|> some slot) oldest rest
    else if (cache slot).block=block then .found slot
    else findLoop cache block unused
      (if isOlder cache slot oldest then some slot else oldest) rest

/-- `find_cached_block`: an entry that is found becomes the latest. -/
def findCachedBlock (c : Channel) (block : ℕ) : Channel×Lookup :=
  match findLoop c.cache block none none (List.finRange 8) with
  | .found slot =>
    ({ c.setEntry slot { c.cache slot with accessTime:=c.accessTime+1 } with
      accessTime:=c.accessTime+1 },.found slot)
  | .missed eldest => (c,.missed eldest)

/-- `reuse_cache`: a dirty entry is written first, and no failure of that is
noticed. -/
def reuseCache (c : Channel) (slot : Slot) (block : ℕ) : Channel :=
  let entry := c.cache slot
  let c := if entry.dirty && entry.inUse then (rawWriteBlk c entry.block 1 entry.buf).1 else c
  { c.setEntry slot { entry with
      inUse:=true,dirty:=false,block:=block,accessTime:=c.accessTime+1 } with
    accessTime:=c.accessTime+1 }

/-- One entry of `flush_cached_blocks`. -/
def flushEntry (invalidate : Bool) (state : Channel×Option Errcode) (slot : Slot) :
    Channel×Option Errcode :=
  let entry := state.1.cache slot
  if entry.inUse=false then state
  else
    let entry := { entry with inUse:=!invalidate }
    let c := state.1.setEntry slot entry
    if entry.dirty=false then (c,state.2)
    else
      let written := rawWriteBlk c entry.block 1 entry.buf
      match written.2 with
      | some retval => (written.1,some retval)
      | none => (written.1.setEntry slot { entry with dirty:=false },state.2)

/-- `flush_cached_blocks`. -/
def flushCachedBlocks (c : Channel) (invalidate : Bool) : Channel×Option Errcode :=
  (List.finRange 8).foldl (flushEntry invalidate) (c,none)

/-- Look for the blocks behind the first one that was missed, up to a cached
one, and keep the entries to reuse for those that are missed too. -/
def missedRun (c : Channel) (block : ℕ) : ℕ → Channel×List Slot
  | 0 => (c,[])
  | left+1 =>
    match findCachedBlock c block with
    | (c,.found _) => (c,[])
    | (c,.missed eldest) =>
      let rest := missedRun c (block+1) left
      (rest.1,eldest::rest.2)

/-- Put the blocks that were read into the entries. -/
def saveRun (c : Channel) (block : ℕ) : List Slot → List UInt8 → Channel
  | [],_ => c
  | slot::rest,data =>
    let c := reuseCache c slot block
    let c := c.setEntry slot { c.cache slot with buf:=data.take c.blockSize }
    saveRun c (block+1) rest (data.drop c.blockSize)

theorem length_missedRun_le (c : Channel) (block left : ℕ) :
    (missedRun c block left).2.length ≤ left := by
  induction left generalizing c block with
  | zero => simp [missedRun]
  | succ left ih =>
    rw [missedRun]
    split
    · simp
    · next c' eldest _ =>
      have h := ih c' (block+1)
      simp only [List.length_cons]
      omega

/-- The loop of `unix_read_blk64`, with the bytes put in the buffer from its
current place on. -/
def readLoop (c : Channel) (block : ℕ) : ℕ → Channel×Option Errcode×List UInt8
  | 0 => (c,none,[])
  | left+1 =>
    match findCachedBlock c block with
    | (c,.found slot) =>
      let rest := readLoop c (block+1) left
      (rest.1,rest.2.1,(c.cache slot).buf++rest.2.2)
    | (c,.missed eldest) =>
      if left=0 then
        let c := reuseCache c eldest block
        let got := rawReadBlk c block 1
        let entry := { c.cache eldest with buf:=got.2 }
        match got.1 with
        | some retval => (c.setEntry eldest { entry with inUse:=false },some retval,[])
        | none => (c.setEntry eldest entry,none,got.2)
      else
        let missed := missedRun c (block+1) left
        let got := rawReadBlk missed.1 block (missed.2.length+1)
        match got.1 with
        | some retval => (missed.1,some retval,got.2)
        | none =>
          let c := saveRun missed.1 block (eldest::missed.2) got.2
          let rest := readLoop c (block+missed.2.length+1) (left-missed.2.length)
          (rest.1,rest.2.1,got.2++rest.2.2)
termination_by left => left

/-- `unix_read_blk64`. -/
def unixReadBlk64 (c : Channel) (block : ℕ) (count : ℤ) : Channel×Option Errcode×List UInt8 :=
  if count < 0 ∨ 4 < count then
    let flushed := flushCachedBlocks c false
    match flushed.2 with
    | some retval => (flushed.1,some retval,[])
    | none => (flushed.1,rawReadBlk flushed.1 block count)
  else readLoop c block count.toNat

/-- One turn of the loop of `unix_write_blk64`. -/
def storeBlock (c : Channel) (block : ℕ) (data : List UInt8) : Channel :=
  match findCachedBlock c block with
  | (c,.found slot) =>
    c.setEntry slot { c.cache slot with buf:=data,dirty:=!c.writethrough }
  | (c,.missed eldest) =>
    let c := reuseCache c eldest block
    c.setEntry eldest { c.cache eldest with buf:=data,dirty:=!c.writethrough }

/-- The loop of `unix_write_blk64`. -/
def writeLoop (c : Channel) (block : ℕ) : ℕ → List UInt8 → Channel
  | 0,_ => c
  | left+1,data =>
    writeLoop (storeBlock c block (data.take c.blockSize)) (block+1) left (data.drop c.blockSize)

/-- `unix_write_blk64`. -/
def unixWriteBlk64 (c : Channel) (block : ℕ) (count : ℤ) (buf : List UInt8) :
    Channel×Option Errcode :=
  if count < 0 ∨ 4 < count then
    let flushed := flushCachedBlocks c true
    match flushed.2 with
    | some retval => (flushed.1,some retval)
    | none => rawWriteBlk flushed.1 block count buf
  else
    let written := if c.writethrough then rawWriteBlk c block count buf else (c,none)
    (writeLoop written.1 block count.toNat buf,written.2)

/-- `unix_write_byte`. -/
def unixWriteByte (c : Channel) (offset : ℕ) (buf : List UInt8) : Channel×Option Errcode :=
  let flushed := flushCachedBlocks c true
  match flushed.2 with
  | some retval => (flushed.1,some retval)
  | none =>
    let c := flushed.1
    if c.dev.limit < offset+c.offset then (c,some .einval)
    else ({ c with dev:=c.dev.write (offset+c.offset) buf },
      if (c.dev.accepted (offset+c.offset) buf).length=buf.length then none
      else some .shortWrite)

/-- `unix_flush`, and what `unix_close` does before it closes the device. -/
def unixFlush (c : Channel) : Channel×Option Errcode := flushCachedBlocks c false

/-- `alloc_cache` for entries of a size. -/
def allocCache (blockSize : ℕ) : Slot → UnixCache := fun _ =>
  ⟨List.replicate blockSize 0,0,0,false,false⟩

/-- `unix_set_blksize`. -/
def unixSetBlksize (c : Channel) (blksize : ℕ) : Channel×Option Errcode :=
  if c.blockSize=blksize then (c,none)
  else
    let flushed := flushCachedBlocks c false
    match flushed.2 with
    | some retval => (flushed.1,some retval)
    | none => ({ flushed.1 with
        blockSize:=blksize,accessTime:=0,cache:=allocCache blksize },none)

/-- `unix_open`, with the options that may be set before the first request. -/
def unixOpen (dev : Device) (writethrough : Bool) (offset : ℕ) : Channel :=
  ⟨1024,writethrough,offset,0,allocCache 1024,dev⟩

/-- A request to the manager. -/
inductive Request
  | readBlk (block : ℕ) (count : ℤ)
  | writeBlk (block : ℕ) (count : ℤ) (buf : List UInt8)
  | writeByte (offset : ℕ) (buf : List UInt8)
  | flush
  | setBlksize (blksize : ℕ)
deriving Repr

/-- Its status, and the bytes that a read put in the buffer. -/
structure Answer where
  retval : Option Errcode
  buf : List UInt8
deriving DecidableEq,Repr

/-- Serve a request. -/
def serve (c : Channel) : Request → Channel×Answer
  | .readBlk block count =>
    let result := unixReadBlk64 c block count
    (result.1,⟨result.2.1,result.2.2⟩)
  | .writeBlk block count buf =>
    let result := unixWriteBlk64 c block count buf
    (result.1,⟨result.2,[]⟩)
  | .writeByte offset buf =>
    let result := unixWriteByte c offset buf
    (result.1,⟨result.2,[]⟩)
  | .flush =>
    let result := unixFlush c
    (result.1,⟨result.2,[]⟩)
  | .setBlksize blksize =>
    let result := unixSetBlksize c blksize
    (result.1,⟨result.2,[]⟩)

/-- Serve requests one after the other. -/
def serveAll (c : Channel) : List Request → Channel×List Answer
  | [] => (c,[])
  | request::rest =>
    let first := serve c request
    let others := serveAll first.1 rest
    (others.1,first.2::others.2)

end AndroidPlatform.UnixIo
