import AndroidPlatform.JournalReplay

/-!
# Recovery of a journal with checksums

The scan sums up the descriptor and data blocks of each transaction and compares
the sum with the commit block. The first transaction that fails is kept as the
end of the recovery, in a field whose value zero stands for no end at all.
-/

namespace AndroidPlatform.JournalChecksum

open JournalRecovery JournalLog JournalPass JournalReplay WriteSequence

variable {P : Platform} {J : Journal} {s : PassState} {origin : UInt32} {i k pos : ℕ}
  {log : ℕ → Option Block}

/-- The checksum after a descriptor block and the copies behind it. -/
def descriptorCrc (J : Journal) (log : ℕ → Option Block) (transaction : ℕ) (crc : UInt32)
    (block : LogBlock) : UInt32 :=
  ((block.tags J transaction).filterMap fun logged => log logged.copyAt).foldl crc32Be
    (crc32Be crc block.data)

/-- The first transaction whose commit block carries checksum fields that are neither
all zero nor those of its descriptor and data blocks. -/
def firstBadCommit (J : Journal) (log : ℕ → Option Block) : UInt32 → ℕ → List LogBlock → Option ℕ
  | _,_,[] => none
  | crc,transaction,block::tail =>
    match block.kind with
    | .descriptor =>
      firstBadCommit J log (descriptorCrc J log transaction crc block) transaction tail
    | .revoke => firstBadCommit J log crc transaction tail
    | .commit =>
      if chksumErr crc block.data then some transaction
      else firstBadCommit J log 0xffffffff (transaction+1) tail

/-- A bad transaction is one of the committed part. -/
theorem firstBadCommit_lt {count : ℕ} {sequence : UInt32} {blocks : List LogBlock} {crc : UInt32}
    (h : CommittedPart J log count sequence pos blocks)
    (hbad : firstBadCommit J log crc i blocks=some k) : k < i+count := by
  induction h generalizing i crc with
  | nil sequence pos => cases hbad
  | @cons count sequence pos block tail hblock htail ih =>
    obtain ⟨kind,data,place⟩ := block
    cases kind with
    | descriptor =>
      have hlt := ih hbad
      exact hlt
    | revoke =>
      have hlt := ih hbad
      exact hlt
    | commit =>
      rw [firstBadCommit] at hbad
      by_cases herr : chksumErr crc data=true
      · rw [if_pos herr] at hbad
        have hequal : i=k := Option.some.inj hbad
        omega
      · rw [if_neg herr] at hbad
        have hlt := ih hbad
        have hcommits : (⟨.commit,data,place⟩ : LogBlock).commits=1 := rfl
        rw [hcommits] at hlt
        omega

/-! ## The scan -/

/-- Summing up copies that can be read. -/
theorem checksumBlocks_of_readable {tags : List BlockTag} (hat : AtBlock J s.nextLogBlock pos)
    (hlog : readLog J s.disk=log) (hreadable : Readable log (tagsAt J i pos tags)) :
    AtBlock J (checksumBlocks P J tags.length s).nextLogBlock (positionAfter J tags.length pos) ∧
      (checksumBlocks P J tags.length s).crc32Sum=
        ((tagsAt J i pos tags).filterMap fun logged => log logged.copyAt).foldl crc32Be
          s.crc32Sum := by
  induction tags generalizing s pos with
  | nil => exact ⟨hat,rfl⟩
  | cons tag tail ih =>
    obtain ⟨copy,hcopy⟩ := Option.isSome_iff_exists.mp (hreadable ⟨i,tag,pos⟩ List.mem_cons_self)
    have hread : jread J s.disk s.nextLogBlock=.ok copy := by
      rw [jread_eq_ok,hlog,hat.1]
      exact hcopy
    have hnext : AtBlock J (s.advance P J 1).nextLogBlock (following J pos) := by
      rw [←hlog] at hcopy
      exact hat.advance hcopy
    have hstep : checksumBlocks P J (tail.length+1) s=
        checksumBlocks P J tail.length
          {s.advance P J 1 with crc32Sum := crc32Be s.crc32Sum copy} := by
      rw [checksumBlocks,hread]
    obtain ⟨hend,hcrc⟩ := ih
      (s := {s.advance P J 1 with crc32Sum := crc32Be s.crc32Sum copy}) hnext hlog
      fun logged hlogged => hreadable logged (List.mem_cons_of_mem _ hlogged)
    rw [List.length_cons,hstep]
    refine ⟨hend,?_⟩
    rw [hcrc,tagsAt,List.filterMap_cons,hcopy]
    rfl

/-- Once the end of the recovery is known, the scan keeps it. -/
theorem runPass_scan_endTransaction (fuel : ℕ) (h : s.endTransaction≠0) :
    (runPass P J .scan fuel s).2.endTransaction=s.endTransaction := by
  refine runPass_invariant (I := fun t => t.endTransaction=s.endTransaction) ?_ ?_ fuel rfl
  · refine passStep_invariant (fun t ht => ht) ?_
    intro t kind data ht
    rw [←ht] at h
    exact ((kindStep_scan_frame P J kind data t).2.2 h).trans ht
  · intro t ht
    rw [←ht] at h
    rw [passDone,if_pos rfl]
    dsimp only
    rw [if_neg h]
    exact ht

/-- A bad commit block sets the end of the recovery. -/
theorem commitBlock_bad {data : Block} (hchecksum : J.hasChecksum=true)
    (hnone : s.endTransaction=0) (herr : chksumErr s.crc32Sum data=true) :
    (commitBlock J .scan data (s.advance P J 1)).endTransaction=s.nextCommitId := by
  have hnone' : ¬(s.advance P J 1).endTransaction≠0 := not_not.mpr hnone
  have herr' : chksumErr (s.advance P J 1).crc32Sum data=true := herr
  rw [commitBlock,if_pos ⟨rfl,hchecksum⟩,if_neg hnone',if_pos herr']
  split <;> rfl

/-- Any other commit block starts the next transaction. -/
theorem commitBlock_good {data : Block} (hchecksum : J.hasChecksum=true)
    (hnone : s.endTransaction=0) (hgood : ¬chksumErr s.crc32Sum data=true) :
    commitBlock J .scan data (s.advance P J 1)=
      {s.advance P J 1 with
        crc32Sum := 0xffffffff
        nextCommitId := s.nextCommitId+1} := by
  have hnone' : ¬(s.advance P J 1).endTransaction≠0 := not_not.mpr hnone
  have hgood' : ¬chksumErr (s.advance P J 1).crc32Sum data=true := hgood
  rw [commitBlock,if_pos ⟨rfl,hchecksum⟩,if_neg hnone',if_neg hgood']
  rfl

/-- A scan without an end goes on after a block that is no bad commit block. -/
theorem kindStep_scan_good {block : LogBlock} (tail : List LogBlock)
    (hchecksum : J.hasChecksum=true)
    (hid : s.nextCommitId=origin+UInt32.ofNat i) (hat : AtBlock J s.nextLogBlock pos)
    (hlog : readLog J s.disk=log) (hnone : s.endTransaction=0) (hdata : log pos=some block.data)
    (hplace : block.pos=pos) (hreadable : Readable log (block.tags J i))
    (hgood : ¬(block.kind=.commit ∧ chksumErr s.crc32Sum block.data=true)) :
    let s' := kindStep P J .scan block.kind block.data (s.advance P J 1)
    s'.nextCommitId=origin+UInt32.ofNat (i+block.commits) ∧
      AtBlock J s'.nextLogBlock (positionAfter J (block.length J) pos) ∧
      readLog J s'.disk=log ∧ s'.endTransaction=0 ∧
      firstBadCommit J log s.crc32Sum i (block::tail)=
        firstBadCommit J log s'.crc32Sum (i+block.commits) tail := by
  obtain ⟨kind,data,place⟩ := block
  obtain rfl : place=pos := hplace
  have hnext : AtBlock J (s.advance P J 1).nextLogBlock (following J place) := by
    rw [←hlog] at hdata
    exact hat.advance hdata
  cases kind with
  | descriptor =>
    let started : PassState := {s.advance P J 1 with crc32Sum := crc32Be s.crc32Sum data}
    have hkind : kindStep P J .scan .descriptor data (s.advance P J 1)=
        checksumBlocks P J (blockTags J data).length started := if_pos ⟨hchecksum,hnone⟩
    obtain ⟨hend,hcrc⟩ := checksumBlocks_of_readable (P := P) (s := started) hnext hlog hreadable
    obtain ⟨hdisk,hend',-,hcommit⟩ := checksumBlocks_frame P J (blockTags J data).length started
    dsimp only
    rw [hkind]
    refine ⟨hcommit.trans hid,hend,?_,hend'.trans hnone,?_⟩
    · rw [hdisk]
      exact hlog
    · rw [hcrc]
      rfl
  | revoke => exact ⟨hid,hnext,hlog,hnone,rfl⟩
  | commit =>
    have herr : ¬chksumErr s.crc32Sum data=true := fun herr => hgood ⟨rfl,herr⟩
    have hstep : kindStep P J .scan .commit data (s.advance P J 1)=
        {s.advance P J 1 with
          crc32Sum := 0xffffffff
          nextCommitId := s.nextCommitId+1} := commitBlock_good hchecksum hnone herr
    dsimp only
    rw [hstep]
    refine ⟨identifier_commit data place hid,hnext,hlog,hnone,?_⟩
    rw [firstBadCommit]
    exact if_neg herr

/-- A scan that returns ends the recovery at the first bad transaction, unless its
identifier is zero. -/
theorem runPass_scan_bad {count : ℕ} {sequence : UInt32} {blocks : List LogBlock}
    (h : CommittedPart J log count sequence pos blocks) (fuel : ℕ) (hchecksum : J.hasChecksum=true)
    (hsequence : s.nextCommitId=sequence) (hid : s.nextCommitId=origin+UInt32.ofNat i)
    (hat : AtBlock J s.nextLogBlock pos) (hlog : readLog J s.disk=log)
    (hnone : s.endTransaction=0) (hreadable : Readable log (tagsIn J i blocks))
    (hbad : firstBadCommit J log s.crc32Sum i blocks=some k) (hk : origin+UInt32.ofNat k≠0)
    (hok : (runPass P J .scan fuel s).1=some none) :
    (runPass P J .scan fuel s).2.endTransaction=origin+UInt32.ofNat k := by
  induction h generalizing s i fuel with
  | nil sequence pos => cases hbad
  | @cons count sequence pos block tail hblock htail ih =>
    cases fuel with
    | zero => cases hok
    | succ fuel =>
      obtain ⟨hdata,-,hplace⟩ := blockAt_eq_some.mp hblock
      have hstep : passStep P J .scan s=
          .next (kindStep P J .scan block.kind block.data (s.advance P J 1)) := by
        refine passStep_at_block (fun hgo => hgo.1 rfl) hat ?_
        rw [hlog,hsequence,hblock]
      rw [runPass,hstep] at hok ⊢
      by_cases hgood : block.kind=.commit ∧ chksumErr s.crc32Sum block.data=true
      · obtain ⟨hkind,herr⟩ := hgood
        have hend := commitBlock_bad (P := P) hchecksum hnone herr
        have hequal : k=i := by
          rw [firstBadCommit,hkind] at hbad
          dsimp only at hbad
          rw [if_pos herr] at hbad
          exact (Option.some.inj hbad).symm
        rw [hequal] at hk ⊢
        rw [hid] at hend
        rw [hkind]
        have hne : (commitBlock J .scan block.data (s.advance P J 1)).endTransaction≠0 := by
          rw [hend]
          exact hk
        exact (runPass_scan_endTransaction fuel hne).trans hend
      · have hhead : Readable log (block.tags J i) := fun logged hlogged =>
          hreadable logged (List.mem_append_left _ hlogged)
        obtain ⟨hid',hat',hlog',hnone',hfirst⟩ := kindStep_scan_good (P := P) tail
          hchecksum hid hat hlog hnone hdata hplace hhead hgood
        rw [hfirst] at hbad
        refine ih fuel ?_ hid' hat' hlog' hnone' ?_ hbad hok
        · rw [hid',←identifier_add,←hid,hsequence]
        · exact fun logged hlogged => hreadable logged (List.mem_append_right _ hlogged)

/-! ## Recovery -/

/-- The second filesystem is the first after writes of copies of tags of the first
transactions. -/
def WritesOnly (J : Journal) (log : ℕ → Option Block) (blocks : List LogBlock) (k : ℕ)
    (disk disk' : ℕ → Block) : Prop :=
  ∃ tags : List LoggedTag, tags.Sublist (tagsIn J 0 blocks) ∧
    (∀ logged∈tags, logged.transaction<k) ∧ disk'=applyWrites (tags.map (tagWrite log)) disk

theorem WritesOnly.refl (J : Journal) (log : ℕ → Option Block) (blocks : List LogBlock) (k : ℕ)
    (disk : ℕ → Block) : WritesOnly J log blocks k disk disk :=
  ⟨[],List.nil_sublist _,fun _ hlogged => (List.not_mem_nil hlogged).elim,rfl⟩

/-- Whatever is written to the filesystem is the copy of a tag of a transaction before
the first bad one, if the log has one. -/
def WritesBeforeBadCommit (P : Platform) (J : Journal) (fuel : ℕ) (disk : ℕ → Block) : Prop :=
  ∀ {count k : ℕ} {blocks : List LogBlock},
    CommittedPart J (readLog J disk) count J.sequence J.start blocks →
      Readable (readLog J disk) (tagsIn J 0 blocks) →
        firstBadCommit J (readLog J disk) 0xffffffff 0 blocks=some k →
          WritesOnly J (readLog J disk) blocks k disk (journalRecover P J fuel disk).disk

/-- The first bad transaction does not have the identifier zero, and the tags of the
transactions before it name no block of the log. -/
structure Stoppable (J : Journal) (disk : ℕ → Block) : Prop where
  /-- The end of the recovery can be told from no end. -/
  identifier : ∀ {count k : ℕ} {blocks : List LogBlock},
    CommittedPart J (readLog J disk) count J.sequence J.start blocks →
      firstBadCommit J (readLog J disk) 0xffffffff 0 blocks=some k →
        J.sequence+UInt32.ofNat k≠0
  /-- The replay does not write to the log. -/
  outside : ∀ {count k : ℕ} {blocks : List LogBlock},
    CommittedPart J (readLog J disk) count J.sequence J.start blocks →
      firstBadCommit J (readLog J disk) 0xffffffff 0 blocks=some k →
        ∀ logged∈tagsIn J 0 blocks, logged.transaction<k → ¬InLog J logged.tag.blocknr

/-- A recovery that ends at the first bad transaction writes nothing of it. -/
theorem doOnePass_replay_before {count : ℕ} {blocks : List LogBlock} (fuel : ℕ)
    (hpart : CommittedPart J (readLog J s.disk) count J.sequence J.start blocks) (hk : k ≤ count)
    (hend : s.endTransaction=J.sequence+UInt32.ofNat k)
    (hreadable : Readable (readLog J s.disk) (tagsIn J 0 blocks))
    (houtside : ∀ logged∈tagsIn J 0 blocks, logged.transaction<k → ¬InLog J logged.tag.blocknr) :
    WritesOnly J (readLog J s.disk) blocks k s.disk (doOnePass P J .replay fuel s).2.disk := by
  have hdistance : s.endTransaction-J.sequence=UInt32.ofNat k := by
    rw [hend,UInt32.add_comm,UInt32.add_sub_cancel]
  have hremaining : (s.endTransaction-J.sequence).toNat≤k := by
    rw [hdistance,UInt32.toNat_ofNat']
    exact Nat.mod_le _ _
  obtain ⟨start,hblocks,hstart⟩ := hpart.exists_prefix (le_trans hremaining hk)
  have hsub := tagsIn_prefix (J := J) (i := 0) hblocks
  have hbefore : ∀ logged∈tagsIn J 0 start, logged.transaction<k := by
    intro logged hlogged
    have hlt := hstart.tag_transaction_lt hlogged
    omega
  obtain ⟨tags,htags,hdisk,-⟩ := doOnePass_replay (P := P) fuel hstart
    (fun logged hlogged _ => houtside logged (hsub.subset hlogged) (hbefore logged hlogged))
    (Or.inr fun logged hlogged => hreadable logged (hsub.subset hlogged))
  refine ⟨tags.filter fun logged => !suppressed P s.table J.sequence logged,?_,?_,hdisk⟩
  · exact (List.filter_sublist.trans htags.sublist).trans hsub.sublist
  · intro logged hlogged
    exact hbefore logged (htags.subset (List.mem_of_mem_filter hlogged))

/-- A log with one transaction, whose identifier has the given last byte: a descriptor
with a tag for block 5, its copy, and a commit block with a checksum of another type. -/
def badDisk (identifier : UInt8) (b : ℕ) : Block :=
  if b=10 then
    paddedBlock [0xc0,0x3b,0x39,0x98,0,0,0,1,0,0,0,identifier,0,0,0,5,0,0,0,10]
  else if b=11 then List.replicate 1024 0xaa
  else if b=12 then
    paddedBlock [0xc0,0x3b,0x39,0x98,0,0,0,2,0,0,0,identifier,2,4,0,0,0xde,0xad,0xbe,0xef]
  else List.replicate 1024 0

/-- The journal of that log, with checksums and asynchronous commit. -/
def badJournal (sequence : UInt32) : Journal :=
  {wideJournal with
    sequence := sequence
    has64bit := false
    hasChecksum := true
    hasAsyncCommit := true}

/-- The blocks of the transaction. -/
def badBlocks (identifier : UInt8) : List LogBlock :=
  [⟨.descriptor,badDisk identifier 10,1⟩,⟨.commit,badDisk identifier 12,3⟩]

theorem stoppable_bad : Stoppable (badJournal 1) (badDisk 1) := by
  have hdescriptor : blockAt (readLog (badJournal 1) (badDisk 1)) 1 1=
      some ⟨.descriptor,badDisk 1 10,1⟩ := by decide +kernel
  have hcommit : blockAt (readLog (badJournal 1) (badDisk 1)) 1 3=
      some ⟨.commit,badDisk 1 12,3⟩ := by decide +kernel
  have herr : chksumErr (descriptorCrc (badJournal 1) (readLog (badJournal 1) (badDisk 1)) 0
      0xffffffff ⟨.descriptor,badDisk 1 10,1⟩) (badDisk 1 12)=true := by decide +kernel
  have hfirst : ∀ {count k : ℕ} {blocks : List LogBlock},
      CommittedPart (badJournal 1) (readLog (badJournal 1) (badDisk 1)) count 1 1 blocks →
        firstBadCommit (badJournal 1) (readLog (badJournal 1) (badDisk 1)) 0xffffffff 0 blocks=
          some k → k=0 := by
    intro count k blocks hpart hbad
    cases count with
    | zero =>
      cases hpart
      cases hbad
    | succ count =>
      obtain ⟨tail,rfl,htail⟩ := hpart.of_blockAt 1 3 hdescriptor (by decide) (by decide +kernel)
      obtain ⟨tail',rfl,-⟩ := CommittedPart.of_blockAt 2 4 htail hcommit (by decide)
        (by decide +kernel)
      rw [firstBadCommit] at hbad
      dsimp only at hbad
      rw [firstBadCommit] at hbad
      dsimp only at hbad
      rw [if_pos herr] at hbad
      exact (Option.some.inj hbad).symm
  constructor
  · intro count k blocks hpart hbad
    rw [hfirst hpart hbad]
    decide
  · intro count k blocks hpart hbad logged hlogged hlt
    rw [hfirst hpart hbad] at hlt
    omega

end AndroidPlatform.JournalChecksum
