import AndroidPlatform.SerialNumber
import AndroidPlatform.WireBytes
import Mathlib.Logic.Function.Iterate

/-!
# Recovery of a filesystem journal

The journal code of the filesystem checker: the reader of log blocks, the table
of revoked blocks, the checksum of a transaction and the three passes over the
circular log. A pass is a step function on everything the loop changes, the
filesystem included, and is run for a number of iterations, because a ring of
blocks of one transaction makes the loop of the source endless.
Allocation does not fail here, and debugging output and counters are left out.
-/

namespace AndroidPlatform.JournalRecovery

open WireBytes

/-- The bytes of one block. -/
abbrev Block := List UInt8

/-- What the code takes from the machine it runs on. -/
structure Platform where
  /-- Width of `unsigned long`. -/
  ulongBits : ℕ
  /-- The two widths in use. -/
  ulongBits_eq : ulongBits=32 ∨ ulongBits=64
  /-- Value of `hash`, whose shift by a negative amount is left to the compiler. -/
  hash : ℕ → ℕ
  /-- Memory behind the buffer of a block, by the offset from its start. -/
  overrun : Block → ℕ → UInt8

/-- Where the log lies: in an inode of the filesystem, through its block map, or
on a device of its own. A missing value stands for a failing map or read. -/
inductive LogDevice where
  | inode (bmap : ℕ → Option ℕ)
  | external (content : ℕ → Option Block)

/-- A loaded journal; `j_last` equals `j_maxlen`. -/
structure Journal where
  /-- The log blocks. -/
  device : LogDevice
  /-- Size of a block in bytes. -/
  blocksize : ℕ
  /-- Blocks of the filesystem have at least this size. -/
  blocksize_ge : 1024≤blocksize
  /-- Length of the log in blocks. -/
  maxlen : ℕ
  /-- The length is a thirty-two bit field. -/
  maxlen_lt : maxlen<2^32
  /-- First log block. -/
  first : ℕ
  /-- The first block is a thirty-two bit field. -/
  first_lt : first<2^32
  /-- Block at which the log starts, or zero when there is nothing to recover. -/
  start : ℕ
  /-- The start is a thirty-two bit field. -/
  start_lt : start<2^32
  /-- First transaction expected in the log. -/
  sequence : UInt32
  /-- `JFS_FEATURE_INCOMPAT_64BIT`. -/
  has64bit : Bool
  /-- `JFS_FEATURE_COMPAT_CHECKSUM`. -/
  hasChecksum : Bool
  /-- `JFS_FEATURE_INCOMPAT_ASYNC_COMMIT`. -/
  hasAsyncCommit : Bool

/-- `tid_gt`. -/
def tidGt (x y : UInt32) : Bool := 0<SerialNumber.difference x.toBitVec y.toBitVec

/-- `tid_geq`. -/
def tidGeq (x y : UInt32) : Bool := 0≤SerialNumber.difference x.toBitVec y.toBitVec

/-! ## Log blocks -/

/-- `JFS_MAGIC_NUMBER`. -/
def jfsMagicNumber : UInt32 := 0xc03b3998

/-- `JFS_FLAG_ESCAPE`. -/
def jfsFlagEscape : UInt32 := 1

/-- `JFS_FLAG_SAME_UUID`. -/
def jfsFlagSameUuid : UInt32 := 2

/-- `JFS_FLAG_LAST_TAG`. -/
def jfsFlagLastTag : UInt32 := 8

/-- Errors of a pass: the input-output error of the code itself, and those of
the block map and the device. -/
inductive JournalError where
  | eio
  | device
deriving DecidableEq,Repr

/-- The block behind an offset of the log. -/
def LogDevice.read (device : LogDevice) (disk : ℕ → Block) (offset : ℕ) : Option Block :=
  match device with
  | .inode bmap => (bmap offset).map disk
  | .external content => content offset

/-- Read a log block; the number is cut to an unsigned int. -/
def jread (J : Journal) (disk : ℕ → Block) (block : ℕ) : Except JournalError Block :=
  if J.maxlen≤block%2^32 then
    .error .eio
  else match J.device.read disk (block%2^32) with
    | none => .error .device
    | some data => .ok data

/-- The `wrap` macro: the length of the ring is computed in `unsigned long`, the
subtraction in sixty-four bits. -/
def wrap (P : Platform) (J : Journal) (var : ℕ) : ℕ :=
  if J.maxlen≤var then
    (var+2^64-(J.maxlen+2^P.ulongBits-J.first)%2^P.ulongBits)%2^64
  else var

/-- Size of a tag without its identifier. -/
def journalTagBytes (J : Journal) : ℕ := if J.has64bit then 12 else 8

theorem journalTagBytes_pos (J : Journal) : 0<journalTagBytes J := by
  rw [journalTagBytes]
  split <;> omega

/-- A tag of a descriptor block. -/
structure BlockTag where
  /-- Block of the filesystem. -/
  blocknr : ℕ
  /-- Flags of the tag. -/
  flags : UInt32
deriving DecidableEq,Repr

/-- Block number of the tag at an offset. -/
def readTagBlock (J : Journal) (data : Block) (offset : ℕ) : ℕ :=
  if 8<journalTagBytes J then
    (ntohlAt data offset).toNat ||| ((ntohlAt data (offset+8)).toNat <<< 32)
  else (ntohlAt data offset).toNat

/-- The tags that the loops over a descriptor block visit from an offset on: as
long as a tag fits into the block, up to the one marked as the last. -/
def tagsFrom (J : Journal) (data : Block) (offset : ℕ) : List BlockTag :=
  if offset+journalTagBytes J≤J.blocksize then
    let flags := ntohlAt data (offset+4)
    let following := offset+journalTagBytes J+(if flags&&&jfsFlagSameUuid=0 then 16 else 0)
    ⟨readTagBlock J data offset,flags⟩::
      (if flags&&&jfsFlagLastTag≠0 then [] else tagsFrom J data following)
  else []
termination_by J.blocksize-offset
decreasing_by
  have := journalTagBytes_pos J
  omega

/-- The tags of a descriptor block, which follow its header. -/
def blockTags (J : Journal) (data : Block) : List BlockTag := tagsFrom J data 12

/-- `count_tags`. -/
def countTags (J : Journal) (data : Block) : ℕ := (blockTags J data).length

/-- The log copy with its magic number restored when the tag asks for it. -/
def restoreMagic (tag : BlockTag) (data : Block) : Block :=
  if tag.flags&&&jfsFlagEscape≠0 then [0xc0,0x3b,0x39,0x98]++data.drop 4 else data

/-! ## The revoke table -/

/-- A revoked block and the last transaction that revoked it. -/
structure RevokeRecord where
  /-- Block number, an `unsigned long`. -/
  blocknr : ℕ
  /-- Transaction of the revocation. -/
  sequence : UInt32
deriving DecidableEq,Repr

/-- The buckets of the hash table. -/
abbrev RevokeTable := ℕ → List RevokeRecord

/-- `find_revoke_record`. -/
def findRevokeRecord (P : Platform) (table : RevokeTable) (blocknr : ℕ) : Option RevokeRecord :=
  (table (P.hash blocknr)).find? fun record => record.blocknr=blocknr

/-- Store a transaction into the first record of a block in a bucket. -/
def storeSequence (blocknr : ℕ) (sequence : UInt32) : List RevokeRecord → List RevokeRecord
  | [] => []
  | record::tail =>
    if record.blocknr=blocknr then ⟨blocknr,sequence⟩::tail
    else record::storeSequence blocknr sequence tail

/-- `insert_revoke_hash`. -/
def insertRevokeHash (P : Platform) (table : RevokeTable) (blocknr : ℕ) (sequence : UInt32) :
    RevokeTable :=
  Function.update table (P.hash blocknr) (⟨blocknr,sequence⟩::table (P.hash blocknr))

/-- `journal_set_revoke`; the block number is cut to an `unsigned long`. -/
def journalSetRevoke (P : Platform) (table : RevokeTable) (block : ℕ) (sequence : UInt32) :
    RevokeTable :=
  let blocknr := block%2^P.ulongBits
  match findRevokeRecord P table blocknr with
  | some record =>
    if tidGt sequence record.sequence then
      Function.update table (P.hash blocknr)
        (storeSequence blocknr sequence (table (P.hash blocknr)))
    else table
  | none => insertRevokeHash P table blocknr sequence

/-- `journal_test_revoke`; the block number is cut to an `unsigned long`. -/
def journalTestRevoke (P : Platform) (table : RevokeTable) (block : ℕ) (sequence : UInt32) :
    Bool :=
  match findRevokeRecord P table (block%2^P.ulongBits) with
  | none => false
  | some record => !tidGt sequence record.sequence

/-- Size of a revoke record. -/
def recordLen (J : Journal) : ℕ := if J.has64bit then 8 else 4

theorem recordLen_pos (J : Journal) : 0 < recordLen J := by
  rw [recordLen]
  split <;> omega

/-- The offsets at which `scan_revoke_records` finds a record, from one on. -/
def recordOffsetsFrom (J : Journal) (max offset : ℕ) : List ℕ :=
  if offset < max then offset::recordOffsetsFrom J max (offset+recordLen J) else []
termination_by max-offset
decreasing_by
  have := recordLen_pos J
  omega

/-- The record offsets of a revoke block: `r_count` is a signed number, and the
records follow the revoke header. -/
def recordOffsets (J : Journal) (data : Block) : List ℕ :=
  recordOffsetsFrom J (ntohlAt data 12).toBitVec.toInt.toNat 16

/-- The byte at an offset from the start of a buffer of one block. -/
def bufferByte (P : Platform) (J : Journal) (data : Block) (i : ℕ) : UInt8 :=
  if i<J.blocksize then byteAt data i else P.overrun data i

/-- Block number of the record at an offset. -/
def readRecord (P : Platform) (J : Journal) (data : Block) (offset : ℕ) : ℕ :=
  (List.range (recordLen J)).foldl
    (fun value i => 256*value+(bufferByte P J data (offset+i)).toNat) 0

/-- `scan_revoke_records`. -/
def scanRevokeRecords (P : Platform) (J : Journal) (data : Block) (sequence : UInt32)
    (table : RevokeTable) : RevokeTable :=
  (recordOffsets J data).foldl
    (fun table offset => journalSetRevoke P table (readRecord P J data offset) sequence) table

/-! ## Checksums -/

/-- One bit of `crc32_be`, with its polynomial. -/
def crc32BeBit (crc : UInt32) : UInt32 :=
  (crc<<<(1 : UInt32))^^^(if crc&&&0x80000000≠0 then 0x04c11db7 else 0)

/-- `crc32_be`, in the form of the source that takes one bit at a time. -/
def crc32Be (crc : UInt32) (data : Block) : UInt32 :=
  data.foldl (fun crc byte => Nat.iterate crc32BeBit 8 (crc^^^(byte.toUInt32<<<(24 : UInt32)))) crc

/-- The test of a commit block: neither a matching checksum nor none at all. -/
def chksumErr (crc : UInt32) (data : Block) : Bool :=
  !((byteAt data 12==1 && byteAt data 13==4) && crc==ntohlAt data 16) &&
    !(byteAt data 12==0 && byteAt data 13==0 && ntohlAt data 16==0)

/-! ## The passes -/

/-- `enum passtype`. -/
inductive PassType where
  | scan
  | revoke
  | replay
deriving DecidableEq,Repr

/-- Everything a pass changes. -/
structure PassState where
  /-- `next_commit_ID`. -/
  nextCommitId : UInt32
  /-- `next_log_block`, an unsigned number of sixty-four bits. -/
  nextLogBlock : ℕ
  /-- `crc32_sum`. -/
  crc32Sum : UInt32
  /-- `info->end_transaction`. -/
  endTransaction : UInt32
  /-- `success`, with no error for zero. -/
  success : Option JournalError
  /-- The revoke table. -/
  table : RevokeTable
  /-- The filesystem. -/
  disk : ℕ → Block
  /-- `j_failed_commit`. -/
  failedCommit : UInt32

/-- Move `next_log_block` and wrap it once. -/
def PassState.advance (P : Platform) (J : Journal) (count : ℕ) (s : PassState) : PassState :=
  {s with nextLogBlock := wrap P J ((s.nextLogBlock+count)%2^64)}

/-- The loop of `calc_chksums` over the data blocks; it stops at a failing read. -/
def checksumBlocks (P : Platform) (J : Journal) : ℕ → PassState → PassState
  | 0,s => s
  | count+1,s =>
    match jread J s.disk s.nextLogBlock with
    | .error _ => s.advance P J 1
    | .ok data =>
      checksumBlocks P J count {s.advance P J 1 with crc32Sum := crc32Be s.crc32Sum data}

/-- `calc_chksums`. Either result goes on with the loop of the pass. -/
def calcChksums (P : Platform) (J : Journal) (data : Block) (s : PassState) : PassState :=
  checksumBlocks P J (countTags J data) {s with crc32Sum := crc32Be s.crc32Sum data}

/-- The replay of one tag. -/
def replayTag (P : Platform) (J : Journal) (s : PassState) (tag : BlockTag) : PassState :=
  match jread J s.disk s.nextLogBlock with
  | .error err => {s.advance P J 1 with success := some err}
  | .ok data =>
    if journalTestRevoke P s.table tag.blocknr s.nextCommitId then s.advance P J 1
    else {s.advance P J 1 with
      disk := Function.update s.disk tag.blocknr (restoreMagic tag data)}

/-- A descriptor block. -/
def descriptorBlock (P : Platform) (J : Journal) (pass : PassType) (data : Block)
    (s : PassState) : PassState :=
  match pass with
  | .scan =>
    if J.hasChecksum ∧ s.endTransaction=0 then calcChksums P J data s
    else s.advance P J (countTags J data)
  | .revoke => s.advance P J (countTags J data)
  | .replay => (blockTags J data).foldl (replayTag P J) s

/-- A commit block. The branches that leave the switch keep `next_commit_ID`. -/
def commitBlock (J : Journal) (pass : PassType) (data : Block) (s : PassState) : PassState :=
  if pass=.scan ∧ J.hasChecksum then
    if s.endTransaction≠0 then
      {s with failedCommit := s.endTransaction}
    else if chksumErr s.crc32Sum data then
      if J.hasAsyncCommit then
        {s with
          endTransaction := s.nextCommitId
          crc32Sum := 0xffffffff
          nextCommitId := s.nextCommitId+1}
      else
        {s with
          endTransaction := s.nextCommitId
          failedCommit := s.nextCommitId}
    else
      {s with
        crc32Sum := 0xffffffff
        nextCommitId := s.nextCommitId+1}
  else {s with nextCommitId := s.nextCommitId+1}

/-- A revoke block. -/
def revokeBlock (P : Platform) (J : Journal) (pass : PassType) (data : Block)
    (s : PassState) : PassState :=
  if pass=.revoke then
    {s with table := scanRevokeRecords P J data s.nextCommitId s.table}
  else s

/-- How one iteration of the loop ends. -/
inductive PassStep where
  | next (s : PassState)
  | done (s : PassState)
  | failed (err : JournalError) (s : PassState)

/-- One iteration of the loop of `do_one_pass`. -/
def passStep (P : Platform) (J : Journal) (pass : PassType) (s : PassState) : PassStep :=
  if pass≠.scan ∧ tidGeq s.nextCommitId s.endTransaction then .done s
  else match jread J s.disk s.nextLogBlock with
    | .error err => .failed err s
    | .ok data =>
      if ntohlAt data 0≠jfsMagicNumber then .done (s.advance P J 1)
      else if ntohlAt data 8≠s.nextCommitId then .done (s.advance P J 1)
      else if ntohlAt data 4=1 then .next (descriptorBlock P J pass data (s.advance P J 1))
      else if ntohlAt data 4=2 then .next (commitBlock J pass data (s.advance P J 1))
      else if ntohlAt data 4=5 then .next (revokeBlock P J pass data (s.advance P J 1))
      else .done (s.advance P J 1)

/-- What follows the label `done`. -/
def passDone (pass : PassType) (s : PassState) : Option JournalError×PassState :=
  if pass=.scan then
    (s.success,if s.endTransaction=0 then {s with endTransaction := s.nextCommitId} else s)
  else if s.endTransaction≠s.nextCommitId then
    (some (s.success.getD .eio),s)
  else (s.success,s)

/-- At most so many iterations of a pass, with its result once it returns. -/
def runPass (P : Platform) (J : Journal) (pass : PassType) :
    ℕ → PassState → Option (Option JournalError)×PassState
  | 0,s => (none,s)
  | fuel+1,s =>
    match passStep P J pass s with
    | .next s' => runPass P J pass fuel s'
    | .done s' => (some (passDone pass s').1,(passDone pass s').2)
    | .failed err s' => (some (some err),s')

/-- `do_one_pass`. -/
def doOnePass (P : Platform) (J : Journal) (pass : PassType) (fuel : ℕ) (s : PassState) :
    Option (Option JournalError)×PassState :=
  runPass P J pass fuel
    {s with
      nextCommitId := J.sequence
      nextLogBlock := J.start
      crc32Sum := 0xffffffff
      success := none}

/-- What `journal_recover` leaves behind. -/
structure Recovery where
  /-- The result, once there is one; no error stands for zero. -/
  status : Option (Option JournalError)
  /-- `j_transaction_sequence`. -/
  transactionSequence : UInt32
  /-- The filesystem. -/
  disk : ℕ → Block
  /-- `j_failed_commit`. -/
  failedCommit : UInt32

/-- The end of `journal_recover` after its last pass. -/
def report (run : Option (Option JournalError)×PassState) : Recovery :=
  ⟨run.1,run.2.endTransaction+1,run.2.disk,run.2.failedCommit⟩

/-- The state before the first pass: cleared recovery information, an empty table. -/
def initialState (J : Journal) (disk : ℕ → Block) : PassState where
  nextCommitId := J.sequence
  nextLogBlock := J.start
  crc32Sum := 0xffffffff
  endTransaction := 0
  success := none
  table := fun _ => []
  disk := disk
  failedCommit := 0

/-- `journal_recover`, with at most so many iterations in each pass. -/
def journalRecover (P : Platform) (J : Journal) (fuel : ℕ) (disk : ℕ → Block) : Recovery :=
  if J.start=0 then ⟨some none,J.sequence+1,disk,0⟩
  else
    let scan := doOnePass P J .scan fuel (initialState J disk)
    if scan.1=some none then
      let revoke := doOnePass P J .revoke fuel scan.2
      if revoke.1=some none then report (doOnePass P J .replay fuel revoke.2)
      else report revoke
    else report scan

end AndroidPlatform.JournalRecovery
