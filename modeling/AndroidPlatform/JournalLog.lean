import AndroidPlatform.JournalRecovery
import Mathlib.Data.Fintype.Card
import Mathlib.Data.List.Basic

/-!
# The committed part of a journal

What a log means, without passes: its blocks in ring order, the transactions
they belong to, the tags with the places of their copies and the revoke records.
The committed part is a list of blocks that ends with the commit block of its
last transaction. Transactions are numbered from zero in log order.
-/

namespace AndroidPlatform.JournalLog

open WireBytes JournalRecovery

/-- The block at a position of the log. -/
def readLog (J : Journal) (disk : ℕ → Block) (pos : ℕ) : Option Block :=
  if pos<J.maxlen then J.device.read disk pos else none

/-- A position that can be read lies in the log. -/
theorem lt_of_readLog {J : Journal} {disk : ℕ → Block} {pos : ℕ} {data : Block}
    (h : readLog J disk pos=some data) : pos<J.maxlen := by
  rw [readLog] at h
  by_contra hlt
  rw [if_neg hlt] at h
  cases h

/-- The next position of the ring. -/
def following (J : Journal) (pos : ℕ) : ℕ := if pos+1<J.maxlen then pos+1 else J.first

/-- So many positions further along the ring. -/
def positionAfter (J : Journal) (count pos : ℕ) : ℕ := Nat.iterate (following J) count pos

theorem positionAfter_succ (J : Journal) (count pos : ℕ) :
    positionAfter J (count+1) pos=positionAfter J count (following J pos) := rfl

/-- The kinds of log blocks. -/
inductive BlockKind where
  | descriptor
  | commit
  | revoke
deriving DecidableEq,Repr

/-- The kind of a block of the expected transaction, if it is one. -/
def kindOf (sequence : UInt32) (data : Block) : Option BlockKind :=
  if ntohlAt data 0=jfsMagicNumber ∧ ntohlAt data 8=sequence then
    if ntohlAt data 4=1 then some .descriptor
    else if ntohlAt data 4=2 then some .commit
    else if ntohlAt data 4=5 then some .revoke
    else none
  else none

/-- A block of the log with its kind and position. -/
structure LogBlock where
  /-- What the block is. -/
  kind : BlockKind
  /-- Its content. -/
  data : Block
  /-- Its position. -/
  pos : ℕ
deriving DecidableEq

/-- How many transactions the block completes. -/
def LogBlock.commits (block : LogBlock) : ℕ := if block.kind=.commit then 1 else 0

/-- How many positions the block takes, with the copies behind a descriptor. -/
def LogBlock.length (J : Journal) (block : LogBlock) : ℕ :=
  if block.kind=.descriptor then countTags J block.data+1 else 1

/-- The block of the expected transaction at a position. -/
def blockAt (log : ℕ → Option Block) (sequence : UInt32) (pos : ℕ) : Option LogBlock :=
  (log pos).bind fun data => (kindOf sequence data).map fun kind => ⟨kind,data,pos⟩

/-- The blocks from a position up to the commit block that completes so many
transactions. -/
inductive CommittedPart (J : Journal) (log : ℕ → Option Block) :
    ℕ → UInt32 → ℕ → List LogBlock → Prop where
  | nil (sequence : UInt32) (pos : ℕ) : CommittedPart J log 0 sequence pos []
  | cons {count : ℕ} {sequence : UInt32} {pos : ℕ} {block : LogBlock} {tail : List LogBlock}
      (hblock : blockAt log sequence pos=some block)
      (htail : CommittedPart J log (count+1-block.commits)
        (sequence+UInt32.ofNat block.commits) (positionAfter J (block.length J) pos) tail) :
      CommittedPart J log (count+1) sequence pos (block::tail)

/-- The blocks of all transactions that are committed: no longer part follows. -/
def AllCommitted (J : Journal) (log : ℕ → Option Block) (count : ℕ) (sequence : UInt32) (pos : ℕ)
    (blocks : List LogBlock) : Prop :=
  CommittedPart J log count sequence pos blocks ∧
    ∀ longer, ¬CommittedPart J log (count+1) sequence pos longer

/-- A tag of the log. -/
structure LoggedTag where
  /-- Number of its transaction. -/
  transaction : ℕ
  /-- The tag itself. -/
  tag : BlockTag
  /-- Position of the copy it names. -/
  copyAt : ℕ
deriving DecidableEq

/-- The tags of one descriptor block, whose copies follow each other on the ring. -/
def tagsAt (J : Journal) (transaction : ℕ) : ℕ → List BlockTag → List LoggedTag
  | _,[] => []
  | pos,tag::tail => ⟨transaction,tag,pos⟩::tagsAt J transaction (following J pos) tail

/-- The tags of one block. -/
def LogBlock.tags (J : Journal) (transaction : ℕ) (block : LogBlock) : List LoggedTag :=
  if block.kind=.descriptor then
    tagsAt J transaction (following J block.pos) (blockTags J block.data)
  else []

/-- The tags of a list of log blocks, in log order. -/
def tagsIn (J : Journal) : ℕ → List LogBlock → List LoggedTag
  | _,[] => []
  | transaction,block::tail =>
    block.tags J transaction++tagsIn J (transaction+block.commits) tail

/-- The revoke records of one block, with their transaction; the first argument
gives the records of a block's content. -/
def LogBlock.revokes (records : Block → List ℕ) (transaction : ℕ) (block : LogBlock) : List (ℕ×ℕ) :=
  if block.kind=.revoke then (records block.data).map (transaction,·) else []

/-- The revoke records of a list of log blocks, in log order. -/
def revokesIn (records : Block → List ℕ) : ℕ → List LogBlock → List (ℕ×ℕ)
  | _,[] => []
  | transaction,block::tail =>
    block.revokes records transaction++revokesIn records (transaction+block.commits) tail

/-- The big-endian number in the bytes of a record. -/
def loggedRecord (J : Journal) (data : Block) (offset : ℕ) : ℕ :=
  (List.range (recordLen J)).foldl (fun value i => 256*value+(byteAt data (offset+i)).toNat) 0

/-- The records of a revoke block: those that lie in it. -/
def blockRecords (J : Journal) (data : Block) : List ℕ :=
  ((recordOffsets J data).filter fun offset => offset+recordLen J≤J.blocksize).map
    (loggedRecord J data)

/-- A tag is revoked by a record for its block in its own or a later transaction. -/
def Revoked (J : Journal) (blocks : List LogBlock) (logged : LoggedTag) : Prop :=
  ∃ record∈revokesIn (blockRecords J) 0 blocks,
    record.2=logged.tag.blocknr ∧ logged.transaction ≤ record.1

instance (J : Journal) (blocks : List LogBlock) (logged : LoggedTag) :
    Decidable (Revoked J blocks logged) :=
  inferInstanceAs (Decidable (∃ record∈revokesIn (blockRecords J) 0 blocks,
    record.2=logged.tag.blocknr ∧ logged.transaction ≤ record.1))

/-- The last tag of a block that is not revoked. -/
def lastTag (J : Journal) (blocks : List LogBlock) (b : ℕ) : Option LoggedTag :=
  ((tagsIn J 0 blocks).filter fun logged =>
    logged.tag.blocknr=b ∧ ¬Revoked J blocks logged).getLast?

/-- The block of the filesystem is a block of the log. -/
def InLog (J : Journal) (b : ℕ) : Prop :=
  match J.device with
  | .inode bmap => ∃ offset<J.maxlen, bmap offset=some b
  | .external _ => False

/-! ## Reading the committed part -/

/-- A block found at a position is the one read there. -/
theorem blockAt_eq_some {log : ℕ → Option Block} {sequence : UInt32} {pos : ℕ} {block : LogBlock} :
    blockAt log sequence pos=some block ↔
      log pos=some block.data ∧ kindOf sequence block.data=some block.kind ∧ block.pos=pos := by
  rw [blockAt]
  constructor
  · intro h
    obtain ⟨data,hdata,h⟩ := Option.bind_eq_some_iff.mp h
    obtain ⟨kind,hkind,h⟩ := Option.map_eq_some_iff.mp h
    subst h
    exact ⟨hdata,hkind,rfl⟩
  · rintro ⟨hdata,hkind,hpos⟩
    rw [hdata,Option.bind_some,hkind,Option.map_some,←hpos]

/-- A block of the expected transaction carries its identifier. -/
theorem sequence_of_kindOf {sequence : UInt32} {data : Block} {kind : BlockKind}
    (h : kindOf sequence data=some kind) : ntohlAt data 8=sequence := by
  rw [kindOf] at h
  by_cases hheader : ntohlAt data 0=jfsMagicNumber ∧ ntohlAt data 8=sequence
  · exact hheader.2
  · rw [if_neg hheader] at h
    cases h

theorem commits_le_one (block : LogBlock) : block.commits≤1 := by
  rw [LogBlock.commits]
  split <;> omega

/-- The transactions of the tags of a committed part are counted from its first. -/
theorem tagsAt_transaction {J : Journal} {i pos : ℕ} {tags : List BlockTag} {logged : LoggedTag}
    (h : logged∈tagsAt J i pos tags) : logged.transaction=i := by
  induction tags generalizing pos with
  | nil => cases h
  | cons tag tail ih =>
    cases h with
    | head => rfl
    | tail _ htail => exact ih htail

theorem LogBlock.tags_transaction {J : Journal} {i : ℕ} {block : LogBlock} {logged : LoggedTag}
    (h : logged∈block.tags J i) : logged.transaction=i := by
  rw [LogBlock.tags] at h
  split at h
  · exact tagsAt_transaction h
  · cases h

theorem LogBlock.revokes_transaction {records : Block → List ℕ} {i : ℕ} {block : LogBlock}
    {record : ℕ×ℕ} (h : record∈block.revokes records i) : record.1=i := by
  rw [LogBlock.revokes] at h
  split at h
  · obtain ⟨b,-,heq⟩ := List.mem_map.mp h
    exact (congrArg Prod.fst heq).symm
  · cases h

variable {J : Journal} {log : ℕ → Option Block} {count i pos : ℕ} {sequence : UInt32}
  {blocks : List LogBlock}

/-- The log and the number of transactions determine the committed part. -/
theorem CommittedPart.unique {blocks' : List LogBlock}
    (h : CommittedPart J log count sequence pos blocks)
    (h' : CommittedPart J log count sequence pos blocks') : blocks=blocks' := by
  induction h generalizing blocks' with
  | nil sequence pos =>
    cases h'
    rfl
  | cons hblock htail ih =>
    cases h' with
    | cons hblock' htail' =>
      rw [hblock] at hblock'
      cases hblock'
      rw [ih htail']

/-- Where the log has a block, a part with transactions in it starts with that block. -/
theorem CommittedPart.of_blockAt {block : LogBlock} (sequence' : UInt32) (pos' : ℕ)
    (h : CommittedPart J log (count+1) sequence pos blocks)
    (hblock : blockAt log sequence pos=some block)
    (hsequence : sequence+UInt32.ofNat block.commits=sequence')
    (hpos : positionAfter J (block.length J) pos=pos') :
    ∃ tail, blocks=block::tail ∧
      CommittedPart J log (count+1-block.commits) sequence' pos' tail := by
  cases h with
  | @cons _ _ _ block' tail hblock' htail =>
    rw [hblock] at hblock'
    cases hblock'
    rw [hsequence,hpos] at htail
    exact ⟨tail,rfl,htail⟩

/-- Where the log has no block, only the empty part is left. -/
theorem CommittedPart.of_blockAt_none (h : CommittedPart J log count sequence pos blocks)
    (hblock : blockAt log sequence pos=none) : count=0 ∧ blocks=[] := by
  cases h with
  | nil => exact ⟨rfl,rfl⟩
  | cons hblock' _ =>
    rw [hblock] at hblock'
    cases hblock'

/-- Where the log ends, nothing more is committed. -/
theorem allCommitted_nil (hblock : blockAt log sequence pos=none) :
    AllCommitted J log 0 sequence pos [] := by
  refine ⟨CommittedPart.nil _ _,fun longer hlonger => ?_⟩
  have hzero := (hlonger.of_blockAt_none hblock).1
  omega

/-- What is committed from a block on is what is committed behind it, with the block
itself if a commit block follows. -/
theorem exists_allCommitted_cons {block : LogBlock} (hblock : blockAt log sequence pos=some block)
    (h : AllCommitted J log count (sequence+UInt32.ofNat block.commits)
      (positionAfter J (block.length J) pos) blocks) :
    ∃ blocks', AllCommitted J log (count+block.commits) sequence pos blocks' := by
  obtain ⟨hpart,hmaximal⟩ := h
  have hlonger : ∀ longer, ¬CommittedPart J log (count+block.commits+1) sequence pos longer := by
    intro longer hlonger
    obtain ⟨tail,-,htail⟩ := hlonger.of_blockAt _ _ hblock rfl rfl
    have hcount : count+block.commits+1-block.commits=count+1 := by omega
    rw [hcount] at htail
    exact hmaximal tail htail
  cases hsum : count+block.commits with
  | zero =>
    rw [hsum] at hlonger
    exact ⟨[],CommittedPart.nil _ _,hlonger⟩
  | succ sum =>
    rw [hsum] at hlonger
    refine ⟨block::blocks,CommittedPart.cons hblock ?_,hlonger⟩
    have hcount : sum+1-block.commits=count := by omega
    rw [hcount]
    exact hpart

/-- Every tag belongs to one of the transactions. -/
theorem CommittedPart.tag_transaction_lt {logged : LoggedTag}
    (h : CommittedPart J log count sequence pos blocks)
    (hmem : logged∈tagsIn J i blocks) : logged.transaction < i+count := by
  induction h generalizing i with
  | nil sequence pos => cases hmem
  | @cons count sequence pos block tail hblock htail ih =>
    have hcommits := commits_le_one block
    rw [tagsIn] at hmem
    rcases List.mem_append.mp hmem with hhead | hrest
    · have heq := LogBlock.tags_transaction hhead
      omega
    · have hlt := ih hrest
      omega

/-- Every revoke record belongs to one of the transactions. -/
theorem CommittedPart.record_transaction_lt {records : Block → List ℕ} {record : ℕ×ℕ}
    (h : CommittedPart J log count sequence pos blocks)
    (hmem : record∈revokesIn records i blocks) : record.1 < i+count := by
  induction h generalizing i with
  | nil sequence pos => cases hmem
  | @cons count sequence pos block tail hblock htail ih =>
    have hcommits := commits_le_one block
    rw [revokesIn] at hmem
    rcases List.mem_append.mp hmem with hhead | hrest
    · have heq := LogBlock.revokes_transaction hhead
      omega
    · have hlt := ih hrest
      omega

/-- Every transaction of a committed part has a commit block with its identifier. -/
theorem CommittedPart.exists_commit (h : CommittedPart J log count sequence pos blocks) {j : ℕ}
    (hj : j < count) : ∃ place data, log place=some data ∧
      ntohlAt data 8=sequence+UInt32.ofNat j := by
  induction h generalizing j with
  | nil sequence pos => omega
  | @cons count sequence pos block tail hblock htail ih =>
    obtain ⟨hdata,hkind,-⟩ := blockAt_eq_some.mp hblock
    by_cases hlast : j < block.commits
    · have hcommits := commits_le_one block
      obtain rfl : j=0 := by omega
      refine ⟨pos,block.data,hdata,?_⟩
      rw [sequence_of_kindOf hkind]
      exact (UInt32.add_zero _).symm
    · obtain ⟨place,data,hplace,hid⟩ := @ih (j-block.commits) (by omega)
      refine ⟨place,data,hplace,?_⟩
      rw [hid,UInt32.add_assoc,←UInt32.ofNat_add,Nat.add_sub_cancel' (by omega)]

/-- The identifiers of the transactions do not come round: there are not more
transactions than blocks. -/
theorem CommittedPart.count_lt {disk : ℕ → Block}
    (h : CommittedPart J (readLog J disk) count sequence pos blocks) : count < 2^32 := by
  by_contra hge
  have hcommit : ∀ j : Fin (2^32), ∃ place : Fin J.maxlen, ∃ data,
      readLog J disk place=some data ∧ ntohlAt data 8=sequence+UInt32.ofNat j := by
    intro j
    obtain ⟨place,data,hdata,hid⟩ := h.exists_commit (by omega : j.val<count)
    exact ⟨⟨place,lt_of_readLog hdata⟩,data,hdata,hid⟩
  choose place data hdata hid using hcommit
  have hinjective : Function.Injective place := by
    intro j j' heq
    have hsame : data j=data j' := by
      have hread := hdata j
      rw [heq,hdata j'] at hread
      exact (Option.some.inj hread).symm
    have hids : sequence+UInt32.ofNat j=sequence+UInt32.ofNat j' := by
      rw [←hid j,←hid j',hsame]
    have hnat : UInt32.ofNat j=UInt32.ofNat j' := (UInt32.add_right_inj sequence).mp hids
    have hval := congrArg UInt32.toNat hnat
    rw [UInt32.toNat_ofNat_of_lt' j.isLt,UInt32.toNat_ofNat_of_lt' j'.isLt] at hval
    exact Fin.ext hval
  have hcard := Fintype.card_le_of_injective place hinjective
  rw [Fintype.card_fin,Fintype.card_fin] at hcard
  have hmaxlen := J.maxlen_lt
  omega

/-- A committed part starts with those of fewer transactions. -/
theorem CommittedPart.exists_prefix {fewer : ℕ} (hle : fewer ≤ count)
    (h : CommittedPart J log count sequence pos blocks) :
    ∃ start, start<+:blocks ∧ CommittedPart J log fewer sequence pos start := by
  induction h generalizing fewer with
  | nil sequence pos =>
    obtain rfl : fewer=0 := by omega
    exact ⟨[],List.nil_prefix,CommittedPart.nil _ _⟩
  | @cons count sequence pos block tail hblock htail ih =>
    cases fewer with
    | zero => exact ⟨[],List.nil_prefix,CommittedPart.nil _ _⟩
    | succ fewer =>
      have hrest : fewer+1-block.commits ≤ count+1-block.commits := by omega
      obtain ⟨start,hblocks,hstart⟩ := ih hrest
      exact ⟨block::start,(List.prefix_cons_inj block).mpr hblocks,
        CommittedPart.cons hblock hstart⟩

/-- The tags of the first blocks come first. -/
theorem tagsIn_prefix {start : List LogBlock} (h : start<+:blocks) :
    tagsIn J i start<+:tagsIn J i blocks := by
  induction start generalizing blocks i with
  | nil => exact List.nil_prefix
  | cons block tail ih =>
    obtain ⟨rest,hrest⟩ := h
    have htail : tagsIn J (i+block.commits) tail<+:tagsIn J (i+block.commits) (tail++rest) :=
      ih (List.prefix_append tail rest)
    rw [←hrest]
    exact (List.prefix_append_right_inj _).mpr htail

/-- Readers that agree on the revoke blocks find the same records. -/
theorem revokesIn_congr {records records' : Block → List ℕ} {blocks : List LogBlock} (i : ℕ)
    (h : ∀ block∈blocks, block.kind=.revoke → records block.data=records' block.data) :
    revokesIn records i blocks=revokesIn records' i blocks := by
  induction blocks generalizing i with
  | nil => rfl
  | cons block tail ih =>
    have htail := ih (i+block.commits) fun b hb => h b (List.mem_cons_of_mem _ hb)
    rw [revokesIn,revokesIn,htail,LogBlock.revokes,LogBlock.revokes]
    by_cases hkind : block.kind=.revoke
    · rw [if_pos hkind,if_pos hkind,h block List.mem_cons_self hkind]
    · rw [if_neg hkind,if_neg hkind]

end AndroidPlatform.JournalLog
