import AndroidPlatform.JournalChecksum
import AndroidPlatform.JournalTermination

/-!
# The three passes visit the same blocks

The scan without checksums and the revoke pass jump over the copies of a
descriptor with one addition and one wrap; the scan with checksums and the replay
pass go over them one by one. The two ways end at the same block as long as the
copies do not go round the log a second time. The replay pass also comes to other
blocks where it has overwritten a header that it reads later.
-/

namespace AndroidPlatform.JournalPasses

open WireBytes JournalRecovery JournalLog JournalPass JournalRevoke JournalScan JournalReplay
open JournalChecksum JournalTermination

variable {P : Platform} {J : Journal} {pass : PassType} {s : PassState} {log : ℕ → Option Block}
  {origin sequence : UInt32} {pos count i : ℕ} {blocks : List LogBlock}

/-! ## Visited headers -/

/-- The header blocks that a pass visits, by position and transaction. -/
def headers (P : Platform) (J : Journal) (pass : PassType) : ℕ → PassState → List (ℕ×UInt32)
  | 0,_ => []
  | fuel+1,s =>
    match passStep P J pass s with
    | .next s' => (s.nextLogBlock%2^32,s.nextCommitId)::headers P J pass fuel s'
    | .done _ => []
    | .failed _ _ => []

/-- The state in which a pass enters its loop. -/
def passStart (J : Journal) (s : PassState) : PassState :=
  {s with
    nextCommitId := J.sequence
    nextLogBlock := J.start
    crc32Sum := 0xffffffff
    success := none}

/-- Once the scan has ended, the other passes visit the header blocks that it has
visited before the end of the recovery, they end there, and the recovery returns no
input-output error. -/
def PassesAgree (P : Platform) (J : Journal) (disk : ℕ → Block) : Prop :=
  J.start≠0 → ∀ fuel,
    let scan := doOnePass P J .scan fuel (initialState J disk)
    let revoke := doOnePass P J .revoke fuel scan.2
    let replay := doOnePass P J .replay fuel revoke.2
    let seen := (headers P J .scan fuel (initialState J disk)).takeWhile
      fun header => header.2≠scan.2.endTransaction
    scan.1≠none →
      headers P J .revoke fuel (passStart J scan.2)=seen ∧
      headers P J .replay fuel (passStart J revoke.2)=seen ∧
      revoke.2.nextCommitId=scan.2.endTransaction ∧
      replay.2.nextCommitId=scan.2.endTransaction ∧
      (journalRecover P J fuel disk).status≠some (some .eio)

/-- All blocks of the log can be read. -/
def AllReadable (J : Journal) (disk : ℕ → Block) : Prop := ∀ p<J.maxlen, readLog J disk p≠none

/-- No commit block that the scan comes to has a wrong checksum. -/
def NoChecksumError (P : Platform) (J : Journal) (disk : ℕ → Block) : Prop :=
  ∀ s data, ScanReaches P J disk s → jread J s.disk s.nextLogBlock=.ok data →
    kindOf s.nextCommitId data=some .commit → J.hasChecksum=true →
      chksumErr s.crc32Sum data=false

/-- The copies of a descriptor go round the log at most once. -/
def OneTurn (J : Journal) (block : LogBlock) : Prop :=
  following J block.pos+countTags J block.data < J.maxlen+(J.maxlen-J.first)

/-- The blocks of the log that follow each other on the ring from its start, whether
they are committed or not. -/
inductive OnRing (J : Journal) (log : ℕ → Option Block) : UInt32 → ℕ → Prop where
  | start : OnRing J log J.sequence J.start
  | next {sequence : UInt32} {pos : ℕ} {block : LogBlock} (h : OnRing J log sequence pos)
      (hblock : blockAt log sequence pos=some block) :
      OnRing J log (sequence+UInt32.ofNat block.commits) (positionAfter J (block.length J) pos)

/-- The log starts inside, the copies of the descriptors that are jumped over go
round it at most once, and fewer than half of all transactions are committed. -/
structure Followable (J : Journal) (log : ℕ → Option Block) : Prop where
  /-- The start is a block of the log. -/
  start : J.start<J.maxlen
  /-- The revoke pass jumps over the copies of committed descriptors. -/
  committed : ∀ {count blocks}, CommittedPart J log count J.sequence J.start blocks →
    ∀ block∈blocks, block.kind=.descriptor → OneTurn J block
  /-- The scan without checksums jumps over the copies of all descriptors. -/
  scanned : J.hasChecksum=false → ∀ {sequence pos block}, OnRing J log sequence pos →
    blockAt log sequence pos=some block → block.kind=.descriptor → OneTurn J block
  /-- Identifiers are compared by their signed difference. -/
  count : ∀ {count blocks}, CommittedPart J log count J.sequence J.start blocks → count≤2^31

/-- No tag that is replayed names a block of the log. -/
def Undisturbed (P : Platform) (J : Journal) (log : ℕ → Option Block) : Prop :=
  ∀ {count blocks}, AllCommitted J log count J.sequence J.start blocks →
    WrittenOutside P J (enterRecords P J.sequence (revokesIn (bufferRecords P J) 0 blocks)
      fun _ => []) J.sequence (tagsIn J 0 blocks)

/-! ## Positions -/

section Positions

variable (hfirst : J.first<J.maxlen)

include hfirst

theorem following_lt (pos : ℕ) : following J pos<J.maxlen := by
  rw [following]
  split
  · assumption
  · exact hfirst

theorem positionAfter_lt (count : ℕ) (hpos : pos<J.maxlen) : positionAfter J count pos<J.maxlen := by
  induction count generalizing pos with
  | zero => exact hpos
  | succ count ih =>
    rw [positionAfter_succ]
    exact ih (following_lt hfirst pos)

/-- One block further. -/
theorem wrap_following (hpos : pos<J.maxlen) :
    wrap P J ((pos+1)%2^64)=following J pos :=
  (atBlock_following hpos).2 (following_lt hfirst pos)

/-- Where one jump over the copies ends, if it does not go behind the log again. -/
theorem wrap_jump {v : ℕ} (hv : v < J.maxlen+(J.maxlen-J.first)) (hpos : pos < J.maxlen)
    (hle : pos ≤ v) : wrap P J (v%2^64)=positionAfter J (v-pos) pos := by
  have hmaxlen := J.maxlen_lt
  rw [Nat.mod_eq_of_lt (by omega)]
  by_cases hin : v<J.maxlen
  · rw [wrap,if_neg (by omega),positionAfter_of_lt (by omega)]
    omega
  · rw [wrap_of_le hfirst.le (by omega) (by omega),positionAfter_of_ge hpos (by omega),
      positionAfter_of_lt (by omega)]
    omega

/-- A jump that goes round once ends where single steps do. -/
theorem jump_eq {block : LogBlock} (hpos : block.pos<J.maxlen) (hturn : OneTurn J block) :
    wrap P J ((wrap P J ((block.pos+1)%2^64)+countTags J block.data)%2^64)=
      positionAfter J (countTags J block.data+1) block.pos := by
  rw [wrap_following hfirst hpos,wrap_jump hfirst hturn (following_lt hfirst _) (Nat.le_add_right _ _),
    positionAfter_succ]
  congr 1
  omega

/-- A jump that goes round more than once ends behind the log. -/
theorem jump_behind {block : LogBlock} (hroom : J.maxlen+J.blocksize≤2^32)
    (hpos : block.pos<J.maxlen) (hturn : ¬OneTurn J block) :
    J.maxlen≤wrap P J ((wrap P J ((block.pos+1)%2^64)+countTags J block.data)%2^64)%2^32 := by
  have hcount := countTags_lt J block.data
  have hnext := following_lt hfirst block.pos
  unfold OneTurn at hturn
  rw [wrap_following hfirst hpos,Nat.mod_eq_of_lt (show following J block.pos+countTags J block.data
    < 2^64 by omega),wrap_of_le hfirst.le (by omega) (by omega),Nat.mod_eq_of_lt (by omega)]
  omega

end Positions

theorem jread_of_readable {disk : ℕ → Block} (hreadable : AllReadable J disk) {p : ℕ}
    (hp : p<J.maxlen) : ∃ data, jread J disk p=.ok data ∧ readLog J disk p=some data := by
  obtain ⟨data,hdata⟩ := Option.ne_none_iff_exists'.mp (hreadable p hp)
  have hmaxlen := J.maxlen_lt
  refine ⟨data,?_,hdata⟩
  rw [jread_eq_ok,Nat.mod_eq_of_lt (by omega)]
  exact hdata

/-- Behind the log a read fails. -/
theorem jread_behind {disk : ℕ → Block} {v : ℕ} (hv : J.maxlen ≤ v%2^32) :
    jread J disk v=.error .eio := if_pos hv

theorem readable_tagsAt {disk : ℕ → Block} (hfirst : J.first<J.maxlen)
    (hreadable : AllReadable J disk) (i : ℕ) (tags : List BlockTag) (hpos : pos<J.maxlen) :
    Readable (readLog J disk) (tagsAt J i pos tags) := by
  induction tags generalizing pos with
  | nil => exact readable_nil _
  | cons tag tail ih =>
    intro logged hlogged
    rcases List.mem_cons.mp hlogged with rfl|hin
    · exact Option.isSome_iff_ne_none.mpr (hreadable pos hpos)
    · exact ih (following_lt hfirst pos) logged hin

/-! ## The scan -/

/-- A pass is at a block of the log. -/
structure At (J : Journal) (log : ℕ → Option Block) (endId sequence : UInt32) (pos : ℕ)
    (s : PassState) : Prop where
  /-- `next_commit_ID` -/
  id : s.nextCommitId=sequence
  /-- `next_log_block` -/
  block : s.nextLogBlock=pos
  /-- The position is in the log. -/
  lt : pos<J.maxlen
  /-- The log is as before. -/
  log_eq : readLog J s.disk=log
  /-- `end_transaction` -/
  end_eq : s.endTransaction=endId
  /-- No error so far. -/
  success : s.success=none

/-- A block that is passed over without a jump. -/
theorem At.advance {endId : UInt32} (hfirst : J.first<J.maxlen) (h : At J log endId sequence pos s) :
    At J log endId sequence (following J pos) (s.advance P J 1) := by
  refine ⟨h.id,?_,following_lt hfirst pos,h.log_eq,h.end_eq,h.success⟩
  rw [PassState.advance,h.block]
  exact wrap_following hfirst h.lt

/-- The iteration at a block of the expected transaction. -/
theorem At.step {endId : UInt32} {block : LogBlock} (h : At J log endId sequence block.pos s)
    (hgo : ¬(pass≠.scan ∧ tidGeq s.nextCommitId s.endTransaction))
    (hblock : blockAt log sequence block.pos=some block) :
    passStep P J pass s=.next (kindStep P J pass block.kind block.data (s.advance P J 1)) := by
  have hmaxlen := J.maxlen_lt
  have hlt := h.lt
  refine @passStep_at_block P J pass s block.pos block hgo ?_ ?_
  · rw [h.block]
    exact atBlock_of_lt (by omega)
  · rw [h.log_eq,h.id]
    exact hblock

/-- A jump over the copies of a descriptor. -/
theorem At.jump {endId : UInt32} (hfirst : J.first<J.maxlen) {block : LogBlock}
    (h : At J log endId sequence block.pos s) (hturn : OneTurn J block) :
    At J log endId sequence (positionAfter J (countTags J block.data+1) block.pos)
      ((s.advance P J 1).advance P J (countTags J block.data)) := by
  refine ⟨h.id,?_,positionAfter_lt hfirst _ h.lt,h.log_eq,h.end_eq,h.success⟩
  rw [←jump_eq hfirst h.lt hturn,PassState.advance,PassState.advance,h.block]

/-- The loop of `calc_chksums` over blocks that can be read. -/
theorem At.checksumBlocks {endId : UInt32} (hfirst : J.first<J.maxlen)
    (hreadable : ∀ p<J.maxlen, log p≠none) (n : ℕ) (h : At J log endId sequence pos s) :
    At J log endId sequence (positionAfter J n pos) (checksumBlocks P J n s) := by
  induction n generalizing s pos with
  | zero => exact h
  | succ n ih =>
    obtain ⟨data,hdata⟩ := Option.ne_none_iff_exists'.mp (hreadable pos h.lt)
    have hmaxlen := J.maxlen_lt
    have hlt := h.lt
    have hread : jread J s.disk s.nextLogBlock=.ok data := by
      rw [jread_eq_ok,h.block,h.log_eq,Nat.mod_eq_of_lt (by omega),hdata]
    have hnext := h.advance (P := P) hfirst
    rw [JournalRecovery.checksumBlocks,hread,positionAfter_succ]
    exact ih ⟨hnext.id,hnext.block,hnext.lt,hnext.log_eq,hnext.end_eq,hnext.success⟩

theorem length_descriptor {block : LogBlock} (hkind : block.kind=.descriptor) :
    block.length J=countTags J block.data+1 ∧ sequence+UInt32.ofNat block.commits=sequence := by
  refine ⟨if_pos hkind,?_⟩
  rw [LogBlock.commits,if_neg (by rw [hkind]; decide)]
  exact UInt32.add_zero _

/-- A block of the scan, if the copies of a descriptor go round at most once where
they are jumped over, and a commit block has no wrong checksum. -/
theorem At.scan {block : LogBlock} (hfirst : J.first<J.maxlen)
    (hreadable : ∀ p<J.maxlen, log p≠none) (h : At J log 0 sequence block.pos s)
    (hturn : J.hasChecksum=false → block.kind=.descriptor → OneTurn J block)
    (hsum : block.kind=.commit → J.hasChecksum=true → chksumErr s.crc32Sum block.data=false) :
    At J log 0 (sequence+UInt32.ofNat block.commits) (positionAfter J (block.length J) block.pos)
      (kindStep P J .scan block.kind block.data (s.advance P J 1)) := by
  have hnext := h.advance (P := P) hfirst
  obtain ⟨kind,data,pos⟩ := block
  cases kind with
  | descriptor =>
    obtain ⟨hlength,hid⟩ := @length_descriptor J sequence ⟨.descriptor,data,pos⟩ rfl
    rw [hlength,hid]
    dsimp only [kindStep]
    rw [descriptorBlock]
    by_cases hchecksum : J.hasChecksum=true
    · rw [if_pos ⟨hchecksum,hnext.end_eq⟩,positionAfter_succ]
      exact At.checksumBlocks hfirst hreadable (countTags J data)
        ⟨hnext.id,hnext.block,hnext.lt,hnext.log_eq,hnext.end_eq,hnext.success⟩
    · rw [if_neg fun hc => hchecksum hc.1]
      exact h.jump hfirst (hturn (by simpa using hchecksum) rfl)
  | commit =>
    by_cases hchecksum : J.hasChecksum=true
    · have hgood := commitBlock_good (P := P) (s := s) hchecksum h.end_eq
        (by rw [hsum rfl hchecksum]; decide)
      dsimp only [kindStep]
      rw [hgood]
      exact ⟨by rw [h.id]; rfl,hnext.block,hnext.lt,h.log_eq,h.end_eq,h.success⟩
    · have hcount : commitBlock J .scan data (s.advance P J 1)=
          {s.advance P J 1 with nextCommitId := s.nextCommitId+1} := by
        rw [commitBlock,if_neg fun hc => hchecksum hc.2]
        rfl
      dsimp only [kindStep]
      rw [hcount]
      exact ⟨by rw [h.id]; rfl,hnext.block,hnext.lt,h.log_eq,h.end_eq,h.success⟩
  | revoke =>
    refine ⟨?_,hnext.block,hnext.lt,h.log_eq,h.end_eq,h.success⟩
    exact h.id.trans (UInt32.add_zero _).symm

/-- The positions and transactions of blocks of the log. -/
def headerList : UInt32 → List LogBlock → List (ℕ×UInt32)
  | _,[] => []
  | sequence,block::tail =>
    (block.pos,sequence)::headerList (sequence+UInt32.ofNat block.commits) tail

/-- The blocks of a committed part belong to its transactions. -/
theorem id_of_mem_headerList (h : CommittedPart J log count sequence pos blocks)
    {header : ℕ×UInt32} (hmem : header∈headerList sequence blocks) :
    ∃ j<count, header.2=sequence+UInt32.ofNat j := by
  induction h with
  | nil sequence pos => cases hmem
  | @cons count sequence pos block tail hblock htail ih =>
    have hcommits := commits_le_one block
    rcases List.mem_cons.mp hmem with rfl|hin
    · exact ⟨0,Nat.succ_pos _,(UInt32.add_zero _).symm⟩
    · obtain ⟨j,hj,hid⟩ := ih hin
      refine ⟨j+block.commits,by omega,?_⟩
      rw [hid,UInt32.add_assoc,←UInt32.ofNat_add,Nat.add_comm]

/-- The committed blocks are those before the end of the recovery. -/
theorem takeWhile_headerList {disk : ℕ → Block} {rest : List (ℕ×UInt32)}
    (h : CommittedPart J (readLog J disk) count sequence pos blocks)
    (hrest : ∀ header∈rest, header.2=sequence+UInt32.ofNat count) :
    (headerList sequence blocks++rest).takeWhile
      (fun header => header.2≠sequence+UInt32.ofNat count)=headerList sequence blocks := by
  have hlt := h.count_lt
  have hbefore : ∀ header∈headerList sequence blocks,
      decide (header.2≠sequence+UInt32.ofNat count)=true := by
    intro header hmem
    obtain ⟨j,hj,hid⟩ := id_of_mem_headerList h hmem
    refine decide_eq_true fun hsame => ?_
    rw [hid,UInt32.add_right_inj] at hsame
    have hval := congrArg UInt32.toNat hsame
    rw [UInt32.toNat_ofNat_of_lt' (show j < 2^32 by omega),
      UInt32.toNat_ofNat_of_lt' hlt] at hval
    omega
  rw [List.takeWhile_append_of_pos hbefore]
  cases rest with
  | nil => simp
  | cons header rest =>
    rw [List.takeWhile_cons_of_neg (by simp [hrest header List.mem_cons_self]),List.append_nil]

/-- What a scan that ends has done. -/
structure Scanned (P : Platform) (J : Journal) (log : ℕ → Option Block) (fuel : ℕ)
    (sequence : UInt32) (pos : ℕ) (s : PassState) (count : ℕ) (blocks : List LogBlock)
    (rest : List (ℕ×UInt32)) : Prop where
  /-- The committed part of the log. -/
  all : AllCommitted J log count sequence pos blocks
  /-- The scan succeeds. -/
  ok : (runPass P J .scan fuel s).1=some none
  /-- It has found the end of the committed part. -/
  endId : (runPass P J .scan fuel s).2.endTransaction=sequence+UInt32.ofNat count
  /-- It has visited the committed part and, behind it, blocks of one transaction. -/
  headers : headers P J .scan fuel s=headerList sequence blocks++rest
  /-- The transaction that is not committed. -/
  restIds : ∀ header∈rest, header.2=sequence+UInt32.ofNat count
  /-- There was an iteration for each of them, and one more. -/
  length : blocks.length+rest.length<fuel

/-- In front of a scan that ends stands one more block. -/
theorem Scanned.cons {fuel : ℕ} {block : LogBlock} {s' : PassState} {rest : List (ℕ×UInt32)}
    (hstep : passStep P J .scan s=.next s')
    (hat : s.nextLogBlock%2^32=block.pos) (hid : s.nextCommitId=sequence)
    (hblock : blockAt log sequence block.pos=some block)
    (h : Scanned P J log fuel (sequence+UInt32.ofNat block.commits)
      (positionAfter J (block.length J) block.pos) s' count blocks rest) :
    ∃ count' blocks' rest', Scanned P J log (fuel+1) sequence block.pos s count' blocks' rest' := by
  have hrun : runPass P J .scan (fuel+1) s=runPass P J .scan fuel s' := by
    rw [runPass,hstep]
  have hheaders : JournalPasses.headers P J .scan (fuel+1) s=
      (block.pos,sequence)::(headerList (sequence+UInt32.ofNat block.commits) blocks++rest) := by
    rw [JournalPasses.headers,hstep]
    dsimp only
    rw [hat,hid,h.headers]
  have hids : sequence+UInt32.ofNat block.commits+UInt32.ofNat count=
      sequence+UInt32.ofNat (count+block.commits) := by
    rw [UInt32.add_assoc,←UInt32.ofNat_add,Nat.add_comm]
  have hend : (runPass P J .scan (fuel+1) s).2.endTransaction=
      sequence+UInt32.ofNat (count+block.commits) := by
    rw [hrun,h.endId,hids]
  have hlength := h.length
  obtain ⟨found,hfound⟩ := exists_allCommitted_cons hblock h.all
  cases hsum : count+block.commits with
  | zero =>
    have hzero : count=0 ∧ block.commits=0 := by omega
    rw [hsum] at hfound hend
    have hempty : blocks=[] := by
      have hpart := h.all.1
      rw [hzero.1] at hpart
      cases hpart
      rfl
    refine ⟨0,[],(block.pos,sequence)::rest,⟨CommittedPart.nil _ _,hfound.2⟩,hrun ▸ h.ok,hend,?_,
      fun header hmem => ?_,?_⟩
    · rw [hheaders,hempty]
      rfl
    · rcases List.mem_cons.mp hmem with rfl|hin
      · exact (UInt32.add_zero _).symm
      · rw [h.restIds header hin,hids,hsum]
    · rw [hempty] at hlength
      simpa using hlength
  | succ sum =>
    rw [hsum] at hfound hend
    have hpart : CommittedPart J log (sum+1) sequence block.pos (block::blocks) := by
      refine CommittedPart.cons hblock ?_
      have hcount : sum+1-block.commits=count := by omega
      rw [hcount]
      exact h.all.1
    refine ⟨sum+1,block::blocks,rest,⟨hpart,hfound.2⟩,hrun ▸ h.ok,hend,hheaders,
      fun header hmem => ?_,?_⟩
    · rw [h.restIds header hmem,hids,hsum]
    · rw [List.length_cons]
      omega

/-- A scan over a log that can be followed finds the committed part. -/
theorem scanned_of_at {disk : ℕ → Block} (hfirst : J.first<J.maxlen)
    (hreadable : AllReadable J disk) {fuel : ℕ} (h : At J (readLog J disk) 0 sequence pos s)
    (hring : OnRing J (readLog J disk) sequence pos)
    (hturns : J.hasChecksum=false → ∀ {sequence pos block}, OnRing J (readLog J disk) sequence pos →
      blockAt (readLog J disk) sequence pos=some block → block.kind=.descriptor → OneTurn J block)
    (hsums : ∀ n t data, FiniteRuns.after (scanNext P J) n s=some t →
      jread J t.disk t.nextLogBlock=.ok data → kindOf t.nextCommitId data=some .commit →
        J.hasChecksum=true → chksumErr t.crc32Sum data=false)
    (hend : (runPass P J .scan fuel s).1≠none) :
    ∃ count blocks rest, Scanned P J (readLog J disk) fuel sequence pos s count blocks rest := by
  induction fuel generalizing s sequence pos with
  | zero => exact absurd rfl hend
  | succ fuel ih =>
    have hmaxlen := J.maxlen_lt
    have hmod : pos%2^32=pos := Nat.mod_eq_of_lt (by have hlt := h.lt; omega)
    obtain ⟨data,-,hdata⟩ := jread_of_readable hreadable h.lt
    have hread : jread J s.disk s.nextLogBlock=.ok data := by
      rw [jread_eq_ok,h.block,h.log_eq,hmod,hdata]
    have hstep := @passStep_of_read P J .scan s data (fun hgo => hgo.1 rfl) hread
    rw [h.id] at hstep
    cases hkind : kindOf sequence data with
    | none =>
      rw [hkind] at hstep
      have hnone : blockAt (readLog J disk) sequence pos=none := by
        rw [blockAt,hdata,Option.bind_some,hkind]
        rfl
      refine ⟨0,[],[],allCommitted_nil hnone,?_,?_,?_,(fun _ hmem => by cases hmem),Nat.succ_pos _⟩
      · rw [runPass,hstep]
        exact congrArg some h.success
      · rw [runPass,hstep]
        dsimp only
        rw [passDone_scan (s := s.advance P J 1) h.end_eq]
        exact h.id.trans (UInt32.add_zero _).symm
      · rw [headers,hstep]
        rfl
    | some kind =>
      rw [hkind] at hstep
      dsimp only at hstep
      let block : LogBlock := ⟨kind,data,pos⟩
      have hblock : blockAt (readLog J disk) sequence pos=some block :=
        blockAt_eq_some.mpr ⟨hdata,hkind,rfl⟩
      have hnext := @At.scan P J s (readLog J disk) sequence block hfirst hreadable h
        (fun hchecksum hdescriptor => hturns hchecksum hring hblock hdescriptor)
        (fun hcommit hchecksum => hsums 0 s data rfl hread
          (by rw [h.id,hkind,show kind=.commit from hcommit]) hchecksum)
      have hmoves : scanNext P J s=some (kindStep P J .scan kind data (s.advance P J 1)) := by
        rw [scanNext,hstep]
      have hrest : (runPass P J .scan fuel (kindStep P J .scan kind data (s.advance P J 1))).1≠
          none := by
        rw [runPass,hstep] at hend
        exact hend
      obtain ⟨count,blocks,rest,hscanned⟩ := ih hnext (hring.next hblock)
        (fun n t data' hafter => hsums (n+1) t data' (by
          rw [FiniteRuns.after_succ,hmoves,Option.bind_some]
          exact hafter)) hrest
      exact hscanned.cons hstep (by rw [h.block,hmod]) h.id hblock

/-! ## The other passes -/

/-- With at least one and at most half of all transactions left, a pass goes on. -/
theorem tidGeq_eq_false {x e : UInt32} (hpos : 0 < (e-x).toNat) (hle : (e-x).toNat≤2^31) :
    tidGeq x e=false := by
  have hback : (x.toBitVec-e.toBitVec).toNat=2^32-(e-x).toNat := by
    have hsub := UInt32.toNat_sub e x
    have hx := x.toNat_lt
    have he := e.toNat_lt
    rw [BitVec.toNat_sub]
    simp only [UInt32.toNat_toBitVec]
    omega
  rw [tidGeq,SerialNumber.difference,BitVec.toInt_eq_toNat_cond,hback,decide_eq_false_iff_not]
  split
  · omega
  · omega

/-- A pass other than the scan that takes every block as it should follows the
committed part to the end of the recovery. The invariant is about the blocks that
are still to come. -/
theorem follow {endId : UInt32} (hpass : pass≠.scan) {I : PassState → List LogBlock → Prop}
    (hstep : ∀ {s sequence block tail}, At J log endId sequence block.pos s → I s (block::tail) →
      blockAt log sequence block.pos=some block →
        At J log endId (sequence+UInt32.ofNat block.commits)
          (positionAfter J (block.length J) block.pos)
          (kindStep P J pass block.kind block.data (s.advance P J 1)) ∧
        I (kindStep P J pass block.kind block.data (s.advance P J 1)) tail)
    (hpart : CommittedPart J log count sequence pos blocks) (hat : At J log endId sequence pos s)
    (hI : I s blocks) (hcount : (endId-sequence).toNat=count) (hhalf : count≤2^31) {fuel : ℕ}
    (hfuel : blocks.length<fuel) :
    (runPass P J pass fuel s).1=some none ∧ (runPass P J pass fuel s).2.nextCommitId=endId ∧
      headers P J pass fuel s=headerList sequence blocks ∧ I (runPass P J pass fuel s).2 [] := by
  induction hpart generalizing s fuel with
  | nil sequence pos =>
    obtain ⟨fuel,rfl⟩ := Nat.exists_eq_add_of_lt hfuel
    have hzero : endId-sequence=0 := UInt32.toNat_inj.mp hcount
    rw [UInt32.sub_eq_iff_eq_add,UInt32.zero_add] at hzero
    have hend : s.nextCommitId=s.endTransaction := by
      rw [hat.id,hat.end_eq,hzero]
    have hdone := passStep_stop (P := P) (J := J) hpass
      (show tidGeq s.nextCommitId s.endTransaction=true by rw [hend]; exact tidGeq_self _)
    have hresult : passDone pass s=(none,s) := by
      rw [passDone,if_neg hpass,if_neg (not_not.mpr hend.symm),hat.success]
    refine ⟨?_,?_,?_,?_⟩
    · rw [runPass,hdone]
      dsimp only
      rw [hresult]
    · rw [runPass,hdone]
      dsimp only
      rw [hresult]
      exact hat.id.trans hzero.symm
    · rw [headers,hdone]
      rfl
    · rw [runPass,hdone]
      dsimp only
      rw [hresult]
      exact hI
  | @cons count sequence pos block tail hblock htail ih =>
    cases fuel with
    | zero => exact absurd hfuel (Nat.not_lt_zero _)
    | succ fuel =>
      obtain ⟨-,-,hplace⟩ := blockAt_eq_some.mp hblock
      subst hplace
      have hmaxlen := J.maxlen_lt
      have hlt := hat.lt
      have hgo : ¬(pass≠.scan ∧ tidGeq s.nextCommitId s.endTransaction=true) := by
        rintro ⟨-,hstop⟩
        rw [hat.id,hat.end_eq,tidGeq_eq_false (by omega) (by omega)] at hstop
        cases hstop
      have hone : passStep P J pass s=
          .next (kindStep P J pass block.kind block.data (s.advance P J 1)) :=
        hat.step hgo hblock
      obtain ⟨hnext,hI'⟩ := hstep hat hI hblock
      have hleft := remaining_sub hcount (commits_le_one block)
      obtain ⟨hok,hid,hheaders,hfinal⟩ := ih hnext hI' hleft (by omega)
        (Nat.lt_of_succ_lt_succ hfuel)
      refine ⟨?_,?_,?_,?_⟩
      · rw [runPass,hone]
        exact hok
      · rw [runPass,hone]
        exact hid
      · rw [headers,hone]
        dsimp only
        rw [hheaders,hat.block,hat.id,Nat.mod_eq_of_lt (by omega)]
        rfl
      · rw [runPass,hone]
        exact hfinal

/-- The revoke pass takes a block as it should if it does not jump too far. -/
theorem At.revoke {endId : UInt32} {block : LogBlock} (hfirst : J.first<J.maxlen)
    (h : At J log endId sequence block.pos s) (hturn : block.kind=.descriptor → OneTurn J block) :
    At J log endId (sequence+UInt32.ofNat block.commits)
      (positionAfter J (block.length J) block.pos)
      (kindStep P J .revoke block.kind block.data (s.advance P J 1)) := by
  have hnext := h.advance (P := P) hfirst
  obtain ⟨kind,data,pos⟩ := block
  cases kind with
  | descriptor =>
    obtain ⟨hlength,hid⟩ := @length_descriptor J sequence ⟨.descriptor,data,pos⟩ rfl
    rw [hlength,hid]
    exact h.jump hfirst (hturn rfl)
  | commit => exact ⟨by rw [←h.id]; rfl,hnext.block,hnext.lt,h.log_eq,h.end_eq,h.success⟩
  | revoke =>
    refine ⟨?_,hnext.block,hnext.lt,h.log_eq,h.end_eq,h.success⟩
    exact h.id.trans (UInt32.add_zero _).symm

/-- What the revoke pass has entered and will enter. -/
def EntersAll (P : Platform) (J : Journal) (origin : UInt32) (table : RevokeTable) (s : PassState)
    (blocks : List LogBlock) : Prop :=
  (∀ block∈blocks, block.kind=.descriptor → OneTurn J block) ∧
    ∃ i, s.nextCommitId=origin+UInt32.ofNat i ∧
      enterRecords P origin (revokesIn (bufferRecords P J) i blocks) s.table=table

theorem EntersAll.step {endId : UInt32} {table : RevokeTable} {block : LogBlock}
    {tail : List LogBlock} (hfirst : J.first<J.maxlen)
    (hat : At J log endId sequence block.pos s)
    (h : EntersAll P J origin table s (block::tail)) :
    At J log endId (sequence+UInt32.ofNat block.commits)
        (positionAfter J (block.length J) block.pos)
        (kindStep P J .revoke block.kind block.data (s.advance P J 1)) ∧
      EntersAll P J origin table (kindStep P J .revoke block.kind block.data (s.advance P J 1))
        tail := by
  obtain ⟨hturns,i,hid,htable⟩ := h
  have hnext := hat.revoke (P := P) hfirst (hturns block List.mem_cons_self)
  refine ⟨hnext,fun other hother => hturns other (List.mem_cons_of_mem _ hother),
    i+block.commits,?_,?_⟩
  · rw [hnext.id,←hat.id,hid,identifier_add]
  · rw [kindStep_revoke_table block hid,←enterRecords_append]
    exact htable

/-- What the replay pass still has to write lies outside the log. -/
def WritesOutside (P : Platform) (J : Journal) (origin : UInt32) (table : RevokeTable)
    (s : PassState) (blocks : List LogBlock) : Prop :=
  s.table=table ∧ ∃ i, s.nextCommitId=origin+UInt32.ofNat i ∧
    WrittenOutside P J table origin (tagsIn J i blocks)

theorem WritesOutside.step {disk : ℕ → Block} {endId : UInt32} {table : RevokeTable}
    {block : LogBlock} {tail : List LogBlock} (hfirst : J.first<J.maxlen)
    (hreadable : AllReadable J disk) (hat : At J (readLog J disk) endId sequence block.pos s)
    (hblock : blockAt (readLog J disk) sequence block.pos=some block)
    (h : WritesOutside P J origin table s (block::tail)) :
    At J (readLog J disk) endId (sequence+UInt32.ofNat block.commits)
        (positionAfter J (block.length J) block.pos)
        (kindStep P J .replay block.kind block.data (s.advance P J 1)) ∧
      WritesOutside P J origin table
        (kindStep P J .replay block.kind block.data (s.advance P J 1)) tail := by
  obtain ⟨htable,i,hid,houtside⟩ := h
  obtain ⟨hdata,-,-⟩ := blockAt_eq_some.mp hblock
  have hmaxlen := J.maxlen_lt
  have hlt := hat.lt
  have hplace : AtBlock J s.nextLogBlock block.pos := by
    rw [hat.block]
    exact atBlock_of_lt (by omega)
  have hhead : WrittenOutside P J s.table origin (block.tags J i) := by
    rw [htable]
    exact fun logged hlogged => houtside logged (List.mem_append_left _ hlogged)
  have hcopies : Readable (readLog J disk) (block.tags J i) := by
    rw [LogBlock.tags]
    split
    · exact readable_tagsAt hfirst hreadable i _ (following_lt hfirst _)
    · exact readable_nil _
  obtain ⟨hreplayed,hid',hplace'⟩ := kindStep_replay hid hplace hat.log_eq hdata rfl hhead
    (Or.inr hcopies)
  have hpos := positionAfter_lt hfirst (block.length J) hlt
  have hsuccess : (kindStep P J .replay block.kind block.data (s.advance P J 1)).success=none := by
    have hnext := hat.advance (P := P) hfirst
    obtain ⟨kind,data,pos⟩ := block
    cases kind with
    | descriptor =>
      have hkept := foldl_replayTag_success_eq (s := s.advance P J 1) hid
        (by rw [hnext.block]; exact atBlock_of_lt (by have hlt := hnext.lt; omega)) hat.log_eq
        hhead hcopies
      exact hkept.trans hat.success
    | commit => exact hat.success
    | revoke => exact hat.success
  refine ⟨⟨?_,hplace'.2 hpos,hpos,hreplayed.log_eq,hreplayed.endTransaction.trans hat.end_eq,
    hsuccess⟩,hreplayed.table.trans htable,i+block.commits,hid',
    fun logged hlogged => houtside logged (List.mem_append_right _ hlogged)⟩
  rw [hid',←identifier_add,←hid,hat.id]

/-! ## Agreement of the passes -/

theorem identifier_sub {disk : ℕ → Block}
    (h : CommittedPart J (readLog J disk) count J.sequence J.start blocks) :
    (J.sequence+UInt32.ofNat count-J.sequence).toNat=count := by
  rw [UInt32.add_comm,UInt32.add_sub_cancel,UInt32.toNat_ofNat_of_lt' h.count_lt]

theorem at_initialState {disk : ℕ → Block} (hstart : J.start<J.maxlen) :
    At J (readLog J disk) 0 J.sequence J.start (initialState J disk) :=
  ⟨rfl,rfl,hstart,rfl,rfl,rfl⟩

/-- Once the scan has ended, it has found the committed part. -/
theorem scanned_initialState {disk : ℕ → Block} {fuel : ℕ} (hfirst : J.first<J.maxlen)
    (hreadable : AllReadable J disk) (hsums : NoChecksumError P J disk) (hstart : J.start<J.maxlen)
    (hturns : J.hasChecksum=false → ∀ {sequence pos block}, OnRing J (readLog J disk) sequence pos →
      blockAt (readLog J disk) sequence pos=some block → block.kind=.descriptor → OneTurn J block)
    (hend : (doOnePass P J .scan fuel (initialState J disk)).1≠none) :
    ∃ count blocks rest, Scanned P J (readLog J disk) fuel J.sequence J.start
      (initialState J disk) count blocks rest :=
  scanned_of_at hfirst hreadable (at_initialState hstart) OnRing.start hturns
    (fun n t data hafter => hsums t data ⟨n,hafter⟩) hend

/-- A log that can be followed and that the replay does not write to. -/
theorem passesAgree_of_followable {disk : ℕ → Block} (hfirst : J.first<J.maxlen)
    (hreadable : AllReadable J disk) (hsums : NoChecksumError P J disk)
    (hf : Followable J (readLog J disk)) (hu : Undisturbed P J (readLog J disk)) :
    PassesAgree P J disk := by
  intro hstart fuel scan revoke replay seen hend
  obtain ⟨count,blocks,rest,hscanned⟩ :=
    scanned_initialState hfirst hreadable hsums hf.start hf.scanned hend
  have hpart := hscanned.all.1
  have hcount := identifier_sub hpart
  have hhalf := hf.count hpart
  have hfuel : blocks.length<fuel := by
    have hlength := hscanned.length
    omega
  have hok : scan.1=some none := hscanned.ok
  have hendId : scan.2.endTransaction=J.sequence+UInt32.ofNat count := hscanned.endId
  have hseen : seen=headerList J.sequence blocks := by
    have htake := takeWhile_headerList hpart hscanned.restIds
    rw [←hscanned.headers,←hendId] at htake
    exact htake
  obtain ⟨hscanDisk,hscanTable⟩ := doOnePass_scan_frame P J fuel (initialState J disk)
  have hlog : readLog J scan.2.disk=readLog J disk := congrArg (readLog J) hscanDisk
  obtain ⟨hrevokeOk,hrevokeId,hrevokeHeaders,-,i,-,htable⟩ := follow
    (s := passStart J scan.2) (show PassType.revoke≠.scan by decide)
    (I := EntersAll P J J.sequence (enterRecords P J.sequence
      (revokesIn (bufferRecords P J) 0 blocks) fun _ => []))
    (fun hat hI _ => hI.step hfirst hat) hpart
    ⟨rfl,rfl,hf.start,hlog,hendId,rfl⟩
    ⟨hf.committed hpart,0,(UInt32.add_zero _).symm,by
      rw [show (passStart J scan.2).table=fun _ => [] from hscanTable]⟩ hcount hhalf hfuel
  obtain ⟨hrevokeDisk,hrevokeEnd⟩ := doOnePass_revoke_frame P J fuel scan.2
  have hlog' : readLog J revoke.2.disk=readLog J disk :=
    (congrArg (readLog J) hrevokeDisk).trans hlog
  obtain ⟨hreplayOk,hreplayId,hreplayHeaders,-⟩ := follow
    (s := passStart J revoke.2) (show PassType.replay≠.scan by decide)
    (I := WritesOutside P J J.sequence (enterRecords P J.sequence
      (revokesIn (bufferRecords P J) 0 blocks) fun _ => []))
    (fun hat hI hblock => hI.step hfirst hreadable hat hblock) hpart
    ⟨rfl,rfl,hf.start,hlog',hrevokeEnd.trans hendId,rfl⟩
    ⟨htable,0,(UInt32.add_zero _).symm,hu hscanned.all⟩ hcount hhalf hfuel
  refine ⟨hrevokeHeaders.trans hseen.symm,hreplayHeaders.trans hseen.symm,
    hrevokeId.trans hendId.symm,hreplayId.trans hendId.symm,?_⟩
  have hstatus : (journalRecover P J fuel disk).status=replay.1 := by
    rw [journalRecover,if_neg hstart]
    dsimp only
    rw [if_pos hok,if_pos (show (doOnePass P J .revoke fuel scan.2).1=some none from hrevokeOk)]
    rfl
  rw [hstatus,show replay.1=some none from hreplayOk]
  exact fun h => by cases h

/-! ## Where the passes do not agree -/

/-- Iterations of the scan one after the other. -/
theorem runPass_after {n fuel : ℕ} {t : PassState}
    (h : FiniteRuns.after (scanNext P J) n s=some t) :
    (runPass P J .scan (n+fuel) s).1=(runPass P J .scan fuel t).1 := by
  induction n generalizing s with
  | zero =>
    cases h
    rw [Nat.zero_add]
  | succ n ih =>
    rw [FiniteRuns.after_succ,scanNext] at h
    rw [Nat.succ_add,runPass]
    cases hstep : passStep P J .scan s with
    | next s' =>
      rw [hstep,Option.bind_some] at h
      exact ih h
    | done s' =>
      rw [hstep] at h
      cases h
    | failed err s' =>
      rw [hstep] at h
      cases h

/-- A pass fails behind the log. -/
theorem runPass_behind (hgo : ¬(pass≠.scan ∧ tidGeq s.nextCommitId s.endTransaction))
    (hv : J.maxlen ≤ s.nextLogBlock%2^32) (fuel : ℕ) :
    (runPass P J pass (fuel+1) s).1=some (some .eio) := by
  rw [runPass,passStep,if_neg hgo,jread_behind hv]

/-- Where the passes agree, no pass ends with an input-output error. -/
theorem PassesAgree.scan_ne_eio {disk : ℕ → Block} (h : PassesAgree P J disk)
    (hstart : J.start≠0) (fuel : ℕ) :
    (doOnePass P J .scan fuel (initialState J disk)).1≠some (some .eio) := by
  intro heio
  have hagree := h hstart fuel (by rw [heio]; exact Option.some_ne_none _)
  refine hagree.2.2.2.2 ?_
  rw [journalRecover,if_neg hstart]
  dsimp only
  rw [heio,if_neg (by decide)]
  exact heio

theorem PassesAgree.revoke_ne_eio {disk : ℕ → Block} {fuel : ℕ} (h : PassesAgree P J disk)
    (hstart : J.start≠0) (hok : (doOnePass P J .scan fuel (initialState J disk)).1=some none) :
    (doOnePass P J .revoke fuel (doOnePass P J .scan fuel (initialState J disk)).2).1≠
      some (some .eio) := by
  intro heio
  have hagree := h hstart fuel (by rw [hok]; exact Option.some_ne_none _)
  refine hagree.2.2.2.2 ?_
  rw [journalRecover,if_neg hstart]
  dsimp only
  rw [if_pos hok,heio,if_neg (by decide)]
  exact heio

/-- The scan without checksums comes to every block on the ring, and none of the
descriptors there makes it jump behind the log. -/
theorem PassesAgree.at_of_onRing {disk : ℕ → Block} (h : PassesAgree P J disk)
    (hfirst : J.first<J.maxlen) (hreadable : AllReadable J disk) (hchecksum : J.hasChecksum=false)
    (hstart : J.start≠0) (hroom : J.maxlen+J.blocksize≤2^32) (hlt : J.start<J.maxlen)
    (hring : OnRing J (readLog J disk) sequence pos) :
    (∃ n t, FiniteRuns.after (scanNext P J) n (initialState J disk)=some t ∧
      At J (readLog J disk) 0 sequence pos t) ∧
    ∀ block, blockAt (readLog J disk) sequence pos=some block → block.kind=.descriptor →
      OneTurn J block := by
  have hturn : ∀ {sequence pos n t}, FiniteRuns.after (scanNext P J) n (initialState J disk)=some t →
      At J (readLog J disk) 0 sequence pos t →
      ∀ block, blockAt (readLog J disk) sequence pos=some block → block.kind=.descriptor →
        OneTurn J block := by
    intro sequence pos n t hafter hat block hblock hdescriptor
    by_contra hmore
    obtain ⟨-,-,hplace⟩ := blockAt_eq_some.mp hblock
    subst hplace
    have hmaxlen := J.maxlen_lt
    have hstep : passStep P J .scan t=
        .next (kindStep P J .scan block.kind block.data (t.advance P J 1)) :=
      hat.step (fun hgo => hgo.1 rfl) hblock
    have hjump : kindStep P J .scan block.kind block.data (t.advance P J 1)=
        (t.advance P J 1).advance P J (countTags J block.data) := by
      rw [hdescriptor,kindStep,descriptorBlock,if_neg fun hc => by
        rw [hchecksum] at hc
        exact absurd hc.1 (by decide)]
    have hbehind := jump_behind (P := P) hfirst hroom hat.lt hmore
    refine h.scan_ne_eio hstart (n+2) ?_
    have hrun := @runPass_after P J (initialState J disk) n 2 t hafter
    refine hrun.trans ?_
    rw [runPass,hstep]
    refine runPass_behind (fun hgo => hgo.1 rfl) ?_ 0
    rw [hjump,PassState.advance,PassState.advance,hat.block]
    exact hbehind
  have hreach : ∃ n t, FiniteRuns.after (scanNext P J) n (initialState J disk)=some t ∧
      At J (readLog J disk) 0 sequence pos t := by
    induction hring with
    | start => exact ⟨0,_,rfl,at_initialState hlt⟩
    | @next sequence pos block _ hblock ih =>
      obtain ⟨n,t,hafter,hat⟩ := ih
      obtain ⟨-,-,hplace⟩ := blockAt_eq_some.mp hblock
      have hone := hturn hafter hat block hblock
      subst hplace
      have hmaxlen := J.maxlen_lt
      have hstep : passStep P J .scan t=
          .next (kindStep P J .scan block.kind block.data (t.advance P J 1)) :=
        hat.step (fun hgo => hgo.1 rfl) hblock
      refine ⟨n+1,kindStep P J .scan block.kind block.data (t.advance P J 1),?_,
        hat.scan hfirst hreadable (fun _ => hone)
          (fun _ hc => by rw [hchecksum] at hc; cases hc)⟩
      rw [FiniteRuns.after,hafter,Option.bind_some,scanNext,hstep]
  obtain ⟨n,t,hafter,hat⟩ := hreach
  exact ⟨⟨n,t,hafter,hat⟩,hturn hafter hat⟩

/-- The revoke pass fails behind a committed descriptor over which it jumps too far. -/
theorem oneTurn_of_revoke {endId : UInt32} (hfirst : J.first<J.maxlen)
    (hroom : J.maxlen+J.blocksize≤2^32) (hpart : CommittedPart J log count sequence pos blocks)
    (hat : At J log endId sequence pos s) (hcount : (endId-sequence).toNat=count)
    (hhalf : count≤2^31) {fuel : ℕ} (hfuel : blocks.length<fuel)
    (hrun : (runPass P J .revoke fuel s).1≠some (some .eio)) :
    ∀ block∈blocks, block.kind=.descriptor → OneTurn J block := by
  induction hpart generalizing s fuel with
  | nil sequence pos => exact fun _ h => by cases h
  | @cons count sequence pos block tail hblock htail ih =>
    cases fuel with
    | zero => exact absurd hfuel (Nat.not_lt_zero _)
    | succ fuel =>
      obtain ⟨-,-,hplace⟩ := blockAt_eq_some.mp hblock
      subst hplace
      have hmaxlen := J.maxlen_lt
      have hlt := hat.lt
      have hgo : ∀ {t : PassState} {id : UInt32}, t.nextCommitId=id → t.endTransaction=endId →
          0 < (endId-id).toNat → (endId-id).toNat≤2^31 →
          ¬(PassType.revoke≠.scan ∧ tidGeq t.nextCommitId t.endTransaction=true) := by
        rintro t id hid hend hpos hle ⟨-,hstop⟩
        rw [hid,hend,tidGeq_eq_false hpos hle] at hstop
        cases hstop
      have hone : passStep P J .revoke s=
          .next (kindStep P J .revoke block.kind block.data (s.advance P J 1)) :=
        hat.step (hgo hat.id hat.end_eq (by omega) (by omega)) hblock
      have hleft := remaining_sub hcount (commits_le_one block)
      rw [runPass,hone] at hrun
      have hturn : block.kind=.descriptor → OneTurn J block := by
        intro hdescriptor
        by_contra hmore
        obtain ⟨-,hid⟩ := @length_descriptor J sequence block hdescriptor
        have hcommits : block.commits=0 := by
          rw [LogBlock.commits,hdescriptor]
          rfl
        have hnonempty : 0 < tail.length := by
          rw [hcommits] at htail
          cases htail with
          | cons => exact Nat.succ_pos _
        obtain ⟨more,rfl⟩ : ∃ more, fuel=more+1 := by
          rw [List.length_cons] at hfuel
          exact ⟨fuel-1,by omega⟩
        have hbehind := jump_behind (P := P) hfirst hroom hat.lt hmore
        have hjump : kindStep P J .revoke block.kind block.data (s.advance P J 1)=
            (s.advance P J 1).advance P J (countTags J block.data) := by
          rw [hdescriptor]
          rfl
        refine hrun ?_
        dsimp only
        rw [hjump]
        refine runPass_behind (@hgo ((s.advance P J 1).advance P J (countTags J block.data))
          sequence hat.id hat.end_eq (by omega) (by omega)) ?_ more
        rw [PassState.advance,PassState.advance,hat.block]
        exact hbehind
      intro other hother
      rcases List.mem_cons.mp hother with rfl|hin
      · exact hturn
      · exact ih (hat.revoke hfirst hturn) hleft (by omega) (Nat.lt_of_succ_lt_succ hfuel) hrun
          other hin

/-- A revoke pass over more than half of all transactions stops at once. -/
theorem runPass_revoke_half {endId : UInt32} (hat : At J log endId sequence pos s)
    (hhalf : 2^31 < (endId-sequence).toNat) (fuel : ℕ) :
    (runPass P J .revoke (fuel+1) s).1=some (some .eio) := by
  have hsub := UInt32.toNat_sub endId sequence
  have hs := sequence.toNat_lt
  have he := endId.toNat_lt
  have hback : (sequence.toBitVec-endId.toBitVec).toNat=2^32-(endId-sequence).toNat := by
    rw [BitVec.toNat_sub]
    simp only [UInt32.toNat_toBitVec]
    omega
  have hstop : tidGeq s.nextCommitId s.endTransaction=true := by
    rw [hat.id,hat.end_eq,tidGeq,SerialNumber.difference,BitVec.toInt_eq_toNat_cond,hback,
      decide_eq_true_eq]
    split
    · omega
    · omega
  have hne : s.endTransaction≠s.nextCommitId := by
    rw [hat.id,hat.end_eq]
    intro hsame
    rw [hsame,UInt32.sub_self] at hhalf
    exact absurd hhalf (by decide)
  rw [runPass,passStep_stop (by decide) hstop]
  dsimp only
  rw [passDone,if_neg (by decide),if_pos hne,hat.success]
  rfl

/-- Where the passes agree on a log whose scan ends, it can be followed. -/
theorem followable_of_passesAgree {disk : ℕ → Block} (hfirst : J.first<J.maxlen)
    (hreadable : AllReadable J disk) (hsums : NoChecksumError P J disk) (hstart : J.start≠0)
    (hroom : J.maxlen+J.blocksize≤2^32) (hends : ScanTerminates P J disk)
    (h : PassesAgree P J disk) : Followable J (readLog J disk) := by
  have hmaxlen := J.maxlen_lt
  have hlt : J.start<J.maxlen := by
    by_contra hge
    refine h.scan_ne_eio hstart 1 (runPass_behind (fun hgo => hgo.1 rfl) ?_ 0)
    have hmod : J.start%2^32=J.start := Nat.mod_eq_of_lt J.start_lt
    exact hmod.symm ▸ Nat.not_lt.mp hge
  have hturns : J.hasChecksum=false → ∀ {sequence pos block},
      OnRing J (readLog J disk) sequence pos → blockAt (readLog J disk) sequence pos=some block →
        block.kind=.descriptor → OneTurn J block := by
    intro hchecksum sequence pos block hring hblock
    exact (h.at_of_onRing hfirst hreadable hchecksum hstart hroom hlt hring).2 block hblock
  obtain ⟨fuel,hend⟩ := hends
  obtain ⟨count,blocks,rest,hscanned⟩ :=
    scanned_initialState hfirst hreadable hsums hlt hturns hend
  have hpart := hscanned.all.1
  have hlength := hscanned.length
  have hscan : (doOnePass P J .scan fuel (initialState J disk)).1=some none := hscanned.ok
  have hrevoke := h.revoke_ne_eio hstart hscan
  have hendId : (doOnePass P J .scan fuel (initialState J disk)).2.endTransaction=
      J.sequence+UInt32.ofNat count := hscanned.endId
  have hlog : readLog J (doOnePass P J .scan fuel (initialState J disk)).2.disk=readLog J disk :=
    congrArg (readLog J) (doOnePass_scan_frame P J fuel (initialState J disk)).1
  generalize (doOnePass P J .scan fuel (initialState J disk)).2=scanned
    at hrevoke hendId hlog
  have hat : At J (readLog J disk) (J.sequence+UInt32.ofNat count) J.sequence J.start
      (passStart J scanned) := ⟨rfl,rfl,hlt,hlog,hendId,rfl⟩
  have hcount := identifier_sub hpart
  obtain ⟨more,rfl⟩ : ∃ more, fuel=more+1 := ⟨fuel-1,by omega⟩
  have hhalf : count≤2^31 := by
    by_contra hmore
    exact hrevoke (runPass_revoke_half hat (by omega) more)
  have hcommitted := oneTurn_of_revoke hfirst hroom hpart hat hcount hhalf (by omega) hrevoke
  have hfewer : ∀ {fewer start}, CommittedPart J (readLog J disk) fewer J.sequence J.start start →
      fewer ≤ count ∧ start<+:blocks := by
    intro fewer start hstartPart
    have hle : fewer ≤ count := by
      by_contra hmore
      obtain ⟨longer,-,hlonger⟩ := hstartPart.exists_prefix (Nat.lt_of_not_le hmore)
      exact hscanned.all.2 longer hlonger
    obtain ⟨start',hshorter,hstart'⟩ := hpart.exists_prefix hle
    rw [hstartPart.unique hstart']
    exact ⟨hle,hshorter⟩
  exact ⟨hlt,fun hother block hblock => hcommitted block ((hfewer hother).2.subset hblock),
    hturns,fun hother => (hfewer hother).1.trans hhalf⟩

/-- A log of three blocks, with a descriptor of transaction 7 in the first. -/
def shortDisk (b : ℕ) : Block :=
  if b=10 then paddedBlock [0xc0,0x3b,0x39,0x98,0,0,0,1,0,0,0,7] else paddedBlock []

/-- The journal of that log. -/
def shortJournal : Journal where
  device := .inode fun offset => some (offset+9)
  blocksize := 1024
  blocksize_ge := wideJournal.blocksize_ge
  maxlen := 4
  maxlen_lt := by decide
  first := 1
  first_lt := wideJournal.first_lt
  start := 1
  start_lt := wideJournal.start_lt
  sequence := 7
  has64bit := false
  hasChecksum := false
  hasAsyncCommit := false

theorem readable_short : AllReadable shortJournal shortDisk := by
  intro p hp
  rw [readLog,if_pos hp]
  exact Option.some_ne_none _

theorem noChecksumError_of_hasChecksum {disk : ℕ → Block} (h : J.hasChecksum=false) :
    NoChecksumError P J disk := by
  intro s data _ _ _ hchecksum
  rw [h] at hchecksum
  cases hchecksum

/-- Where the blocks of `wideDisk` stand on the ring. -/
theorem onRing_wide (h : OnRing wideJournal (readLog wideJournal wideDisk) sequence pos) :
    (sequence=7 ∧ pos=1) ∨ (sequence=7 ∧ pos=3) ∨ (sequence=7 ∧ pos=4) ∨
      (sequence=8 ∧ pos=5) := by
  have hdescriptor : blockAt (readLog wideJournal wideDisk) 7 1=
      some ⟨.descriptor,wideDisk 10,1⟩ := by decide +kernel
  have hrevoke : blockAt (readLog wideJournal wideDisk) 7 3=
      some ⟨.revoke,wideDisk 12,3⟩ := by decide +kernel
  have hcommit : blockAt (readLog wideJournal wideDisk) 7 4=
      some ⟨.commit,wideDisk 13,4⟩ := by decide +kernel
  have hend : blockAt (readLog wideJournal wideDisk) 8 5=none := by decide +kernel
  induction h with
  | start => exact Or.inl ⟨rfl,rfl⟩
  | next _ hblock ih =>
    rcases ih with ⟨rfl,rfl⟩ | ⟨rfl,rfl⟩ | ⟨rfl,rfl⟩ | ⟨rfl,rfl⟩
    · cases hdescriptor.symm.trans hblock
      exact Or.inr (Or.inl ⟨by decide,by decide +kernel⟩)
    · cases hrevoke.symm.trans hblock
      exact Or.inr (Or.inr (Or.inl ⟨by decide,by decide +kernel⟩))
    · cases hcommit.symm.trans hblock
      exact Or.inr (Or.inr (Or.inr ⟨by decide,by decide +kernel⟩))
    · cases hend.symm.trans hblock

theorem followable_wide : Followable wideJournal (readLog wideJournal wideDisk) := by
  have hturn : OneTurn wideJournal ⟨.descriptor,wideDisk 10,1⟩ := by
    rw [OneTurn]
    decide +kernel
  refine ⟨by decide,?_,?_,?_⟩
  · intro count blocks hpart block hblock hkind
    rcases wideLog_committed hpart with ⟨-,rfl⟩ | ⟨-,rfl⟩
    · cases hblock
    · simp only [wideBlocks,List.mem_cons,List.not_mem_nil,or_false] at hblock
      rcases hblock with rfl | rfl | rfl
      · exact hturn
      · cases hkind
      · cases hkind
  · intro _ sequence pos block hring hblock hkind
    have hfirst : blockAt (readLog wideJournal wideDisk) 7 1=
        some ⟨.descriptor,wideDisk 10,1⟩ := by decide +kernel
    have hrevoke : (blockAt (readLog wideJournal wideDisk) 7 3).map LogBlock.kind=
        some .revoke := by decide +kernel
    have hcommit : (blockAt (readLog wideJournal wideDisk) 7 4).map LogBlock.kind=
        some .commit := by decide +kernel
    have hend : blockAt (readLog wideJournal wideDisk) 8 5=none := by decide +kernel
    rcases onRing_wide hring with ⟨rfl,rfl⟩ | ⟨rfl,rfl⟩ | ⟨rfl,rfl⟩ | ⟨rfl,rfl⟩
    · cases hfirst.symm.trans hblock
      exact hturn
    · rw [hblock,Option.map_some,hkind] at hrevoke
      cases hrevoke
    · rw [hblock,Option.map_some,hkind] at hcommit
      cases hcommit
    · cases hend.symm.trans hblock
  · intro count blocks hpart
    rcases wideLog_committed hpart with ⟨rfl,-⟩ | ⟨rfl,-⟩ <;> decide

theorem undisturbed_wide : Undisturbed widePlatform wideJournal (readLog wideJournal wideDisk) := by
  have htags : tagsIn wideJournal 0 wideBlocks=[⟨0,⟨5,10⟩,2⟩] := by decide +kernel
  intro count blocks hall logged hlogged _ hin
  rcases wideLog_committed hall.1 with ⟨-,rfl⟩ | ⟨-,rfl⟩
  · cases hlogged
  · rw [htags,List.mem_singleton] at hlogged
    rw [hlogged] at hin
    obtain ⟨offset,-,hmap⟩ := hin
    have hphys : offset+9=5 := Option.some.inj hmap
    omega

/-- None of the tags that zeros give is the last one, and each has an identifier. -/
theorem length_tagsFrom_zeros {data : Block} {offset : ℕ} (h64 : J.has64bit=false)
    (hzero : ∀ i, offset ≤ i → byteAt data i=0) :
    (tagsFrom J data offset).length=(J.blocksize-offset+16)/24 := by
  have hbytes : journalTagBytes J=8 := by
    rw [journalTagBytes,h64,if_neg Bool.false_ne_true]
  fun_induction tagsFrom J data offset with
  | case1 offset hfits flags following ih =>
    have hflags : flags=0 := by
      show ntohlAt data (offset+4)=0
      rw [ntohlAt,hzero _ (by omega),hzero _ (by omega),hzero _ (by omega),hzero _ (by omega)]
      rfl
    have hfollowing : following=offset+24 := by
      show offset+journalTagBytes J+(if flags&&&jfsFlagSameUuid=0 then 16 else 0)=_
      rw [hflags,hbytes,if_pos (by decide)]
    have hlast : ¬flags&&&jfsFlagLastTag≠0 := by
      rw [hflags]
      decide
    rw [hbytes] at hfits
    rw [List.length_cons,if_neg hlast,ih (fun i hi => hzero i (by omega)),hfollowing]
    omega
  | case2 offset hfits =>
    rw [hbytes] at hfits
    rw [List.length_nil]
    omega

theorem countTags_short : countTags shortJournal (shortDisk 10)=42 := by
  refine (length_tagsFrom_zeros rfl fun i hi => ?_).trans rfl
  show (_++List.replicate _ _).getD i 0=0
  rw [List.getD_append_right _ _ _ _ hi,List.getD_eq_getElem?_getD,List.getElem?_replicate]
  split <;> rfl

end AndroidPlatform.JournalPasses
