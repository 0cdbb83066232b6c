import AndroidPlatform.JournalPass
import AndroidPlatform.JournalRevoke
import AndroidPlatform.JournalScan
import Mathlib.Algebra.Group.Nat.Defs

/-!
# Replay of the committed part of a journal

The revoke pass and the replay pass both follow the committed part of the log:
the first enters its revoke records into the table, the second writes the
copies of its tags, in log order, unless the table suppresses them.
-/

namespace AndroidPlatform.JournalReplay

open JournalRecovery JournalLog JournalPass JournalRevoke JournalScan WriteSequence

variable {P : Platform} {J : Journal} {s : PassState} {origin : UInt32} {i pos : ℕ}
  {log : ℕ → Option Block}

/-! ## Transaction identifiers -/

theorem tidGeq_self (x : UInt32) : tidGeq x x=true := by
  simp [tidGeq,SerialNumber.difference]

/-- Transactions that are left before the end, after a block of the log. -/
theorem remaining_sub {x e : UInt32} {count commits : ℕ} (h : (e-x).toNat=count+1)
    (hcommits : commits≤1) : (e-(x+UInt32.ofNat commits)).toNat=count+1-commits := by
  have hsplit : e-(x+UInt32.ofNat commits)=e-x-UInt32.ofNat commits := by
    grind
  have hlt := (e-x).toNat_lt
  have hsmall : (UInt32.ofNat commits).toNat=commits := by
    rw [UInt32.toNat_ofNat',Nat.mod_eq_of_lt (by omega)]
  rw [hsplit,UInt32.toNat_sub_of_le _ _ (UInt32.le_iff_toNat_le.mpr (by omega)),h,hsmall]

/-- An unfinished pass has transactions left. -/
theorem remaining_pos {x e : UInt32} (h : e≠x) : ∃ count, (e-x).toNat=count+1 := by
  have hne : (e-x).toNat≠0 := by
    intro hzero
    have hsub : e-x=0 := UInt32.toNat_inj.mp hzero
    rw [UInt32.sub_eq_iff_eq_add,UInt32.zero_add] at hsub
    exact h hsub
  exact ⟨(e-x).toNat-1,by omega⟩

/-- An identifier as a count from the origin, after a block of the log. -/
theorem identifier_add (origin : UInt32) (i commits : ℕ) :
    origin+UInt32.ofNat i+UInt32.ofNat commits=origin+UInt32.ofNat (i+commits) := by
  rw [UInt32.add_assoc,UInt32.ofNat_add]

/-- The identifier after a commit block. -/
theorem identifier_commit (data : Block) (place : ℕ)
    (hid : s.nextCommitId=origin+UInt32.ofNat i) :
    s.nextCommitId+1=
      origin+UInt32.ofNat (i+(⟨.commit,data,place⟩ : LogBlock).commits) := by
  have hcommits : (⟨.commit,data,place⟩ : LogBlock).commits=1 := rfl
  rw [hcommits,←identifier_add,←hid]
  rfl

/-! ## The revoke pass -/

/-- The block numbers that the revoke pass reads from a revoke block. -/
def bufferRecords (P : Platform) (J : Journal) (data : Block) : List ℕ :=
  (recordOffsets J data).map (readRecord P J data)

/-- The revoke pass enters the records of a revoke block. -/
theorem scanRevokeRecords_eq (data : Block) (table : RevokeTable) :
    scanRevokeRecords P J data (origin+UInt32.ofNat i) table=
      enterRecords P origin ((bufferRecords P J data).map (i,·)) table := by
  rw [scanRevokeRecords,enterRecords,bufferRecords,List.map_map,List.foldl_map]
  rfl

/-- The records of one block go into the table. -/
theorem kindStep_revoke_table (block : LogBlock) (hid : s.nextCommitId=origin+UInt32.ofNat i) :
    (kindStep P J .revoke block.kind block.data (s.advance P J 1)).table=
      enterRecords P origin (block.revokes (bufferRecords P J) i) s.table := by
  obtain ⟨kind,data,place⟩ := block
  cases kind with
  | descriptor => rfl
  | commit => rfl
  | revoke =>
    have htable : (kindStep P J .revoke .revoke data (s.advance P J 1)).table=
        scanRevokeRecords P J data s.nextCommitId s.table := rfl
    rw [htable,hid,scanRevokeRecords_eq]
    rfl

/-- The effect of one block in the revoke pass. -/
theorem kindStep_revoke (block : LogBlock) (hJ : Wrappable J) (hv : s.nextLogBlock<J.maxlen)
    (hid : s.nextCommitId=origin+UInt32.ofNat i) :
    let s' := kindStep P J .revoke block.kind block.data (s.advance P J 1)
    s'.nextCommitId=origin+UInt32.ofNat (i+block.commits) ∧
      Lands J s'.nextLogBlock (positionAfter J (block.length J) s.nextLogBlock) ∧
      s'.table=enterRecords P origin (block.revokes (bufferRecords P J) i) s.table := by
  obtain ⟨hcommit,hlands,-⟩ := kindStep_skipping (P := P) block (Or.inl rfl) hJ hv
  refine ⟨?_,hlands,kindStep_revoke_table block hid⟩
  rw [hcommit,hid,identifier_add]

/-- A pass other than the scan that succeeds ends at the end of the log. -/
theorem passDone_eq_none {pass : PassType} {s : PassState} (hpass : pass≠.scan)
    (h : (passDone pass s).1=none) : s.endTransaction=s.nextCommitId ∧ s.success=none := by
  rw [passDone,if_neg hpass] at h
  by_cases hend : s.endTransaction=s.nextCommitId
  · rw [if_neg (not_not.mpr hend)] at h
    exact ⟨hend,h⟩
  · rw [if_pos hend] at h
    cases h

/-- Passes other than the scan end without a change. -/
theorem passDone_state {pass : PassType} (s : PassState) (hpass : pass≠.scan) :
    (passDone pass s).2=s := by
  rw [passDone,if_neg hpass]
  split <;> rfl

/-- A revoke pass that succeeds has followed a committed part of the log up to the
end of the recovery and entered its records. -/
theorem runPass_revoke (hJ : Wrappable J) (fuel : ℕ)
    (hid : s.nextCommitId=origin+UInt32.ofNat i) (hat : Lands J s.nextLogBlock pos)
    (hok : (runPass P J .revoke fuel s).1=some none) :
    ∃ blocks, CommittedPart J (readLog J s.disk) (s.endTransaction-s.nextCommitId).toNat
        s.nextCommitId pos blocks ∧
      (runPass P J .revoke fuel s).2.table=
        enterRecords P origin (revokesIn (bufferRecords P J) i blocks) s.table := by
  induction fuel generalizing s i pos with
  | zero => cases hok
  | succ fuel ih =>
    rw [runPass] at hok ⊢
    rcases passStep_cases P J .revoke s with
      ⟨-,heq⟩ | ⟨hgo,⟨err,heq⟩ | ⟨data,-,-,heq⟩ | ⟨data,kind,hread,hkind,heq⟩⟩
    · rw [heq] at hok ⊢
      have hend := (passDone_eq_none (by decide) (Option.some.inj hok)).1
      refine ⟨[],?_,?_⟩
      · rw [hend,UInt32.sub_self]
        exact CommittedPart.nil _ _
      · dsimp only
        rw [passDone_state s (by decide)]
        rfl
    · rw [heq] at hok
      cases hok
    · rw [heq] at hok
      have hend : s.endTransaction=s.nextCommitId :=
        (passDone_eq_none (by decide) (Option.some.inj hok)).1
      refine absurd ⟨by decide,?_⟩ hgo
      rw [hend,tidGeq_self]
    · rw [heq] at hok ⊢
      obtain ⟨hpos,hv,hlog⟩ := hat.read hread
      have hne : s.endTransaction≠s.nextCommitId := by
        intro hend
        refine hgo ⟨by decide,?_⟩
        rw [hend,tidGeq_self]
      obtain ⟨count,hcount⟩ := remaining_pos hne
      let block : LogBlock := ⟨kind,data,pos⟩
      have hblock : blockAt (readLog J s.disk) s.nextCommitId pos=some block :=
        blockAt_eq_some.mpr ⟨hlog,hkind,rfl⟩
      obtain ⟨hid',hat',htable⟩ := kindStep_revoke (P := P) block hJ hv hid
      obtain ⟨hdisk,hend⟩ := kindStep_revoke_frame P J kind data (s.advance P J 1)
      obtain ⟨blocks,hpart,hfinal⟩ := ih hid' hat' hok
      refine ⟨block::blocks,?_,?_⟩
      · rw [hcount]
        refine CommittedPart.cons hblock ?_
        rw [hid',hdisk,hend,hpos,←identifier_add,←hid] at hpart
        rw [←remaining_sub hcount (commits_le_one block)]
        exact hpart
      · rw [hfinal,htable,←enterRecords_append]
        rfl

/-! ## The replay pass -/

/-- The write that a tag asks for. -/
def tagWrite (log : ℕ → Option Block) (logged : LoggedTag) : ℕ×Block :=
  (logged.tag.blocknr,restoreMagic logged.tag ((log logged.copyAt).getD []))

/-- The table suppresses the tag. -/
def suppressed (P : Platform) (table : RevokeTable) (origin : UInt32) (logged : LoggedTag) : Bool :=
  journalTestRevoke P table logged.tag.blocknr (origin+UInt32.ofNat logged.transaction)

/-- The writes of the tags that the table does not suppress. -/
def tagWrites (P : Platform) (log : ℕ → Option Block) (table : RevokeTable) (origin : UInt32)
    (tags : List LoggedTag) : List (ℕ×Block) :=
  (tags.filter fun logged => !suppressed P table origin logged).map (tagWrite log)

theorem tagWrites_append (log : ℕ → Option Block) (table : RevokeTable)
    (first second : List LoggedTag) :
    tagWrites P log table origin (first++second)=
      tagWrites P log table origin first++tagWrites P log table origin second := by
  rw [tagWrites,List.filter_append,List.map_append]
  rfl

/-- The copies of the tags can be read. -/
def Readable (log : ℕ → Option Block) (tags : List LoggedTag) : Prop :=
  ∀ logged∈tags, (log logged.copyAt).isSome

theorem readable_nil (log : ℕ → Option Block) : Readable log [] := by
  intro logged hlogged
  cases hlogged

/-- The tags that are written name no block of the log. -/
def WrittenOutside (P : Platform) (J : Journal) (table : RevokeTable) (origin : UInt32)
    (tags : List LoggedTag) : Prop :=
  ∀ logged∈tags, suppressed P table origin logged=false → ¬InLog J logged.tag.blocknr

/-- The state after the replay of some tags. -/
structure Replayed (P : Platform) (J : Journal) (log : ℕ → Option Block) (origin : UInt32)
    (tags : List LoggedTag) (s s' : PassState) : Prop where
  /-- All copies were read. -/
  readable : Readable log tags
  /-- The copies that are not suppressed were written in order. -/
  disk : s'.disk=applyWrites (tagWrites P log s.table origin tags) s.disk
  /-- The log is as before. -/
  log_eq : readLog J s'.disk=log
  /-- The end of the recovery is as before. -/
  endTransaction : s'.endTransaction=s.endTransaction
  /-- The table is as before. -/
  table : s'.table=s.table

theorem replayTag_nextCommitId (P : Platform) (J : Journal) (s : PassState) (tag : BlockTag) :
    (replayTag P J s tag).nextCommitId=s.nextCommitId := by
  rw [replayTag]
  split
  · rfl
  · split <;> rfl

theorem foldl_replayTag_nextCommitId (P : Platform) (J : Journal) (s : PassState)
    (tags : List BlockTag) : (tags.foldl (replayTag P J) s).nextCommitId=s.nextCommitId := by
  induction tags generalizing s with
  | nil => rfl
  | cons tag tail ih => exact (ih _).trans (replayTag_nextCommitId P J s tag)

theorem replayTag_success {tag : BlockTag} (h : (replayTag P J s tag).success=none) :
    s.success=none := by
  rw [replayTag] at h
  split at h
  · cases h
  · split at h <;> exact h

theorem foldl_replayTag_success {tags : List BlockTag}
    (h : (tags.foldl (replayTag P J) s).success=none) : s.success=none := by
  induction tags generalizing s with
  | nil => exact h
  | cons tag tail ih => exact replayTag_success (ih h)

/-- The replay of one tag whose copy can be read. -/
theorem replayTag_of_read {tag : BlockTag} {copy : Block}
    (hid : s.nextCommitId=origin+UInt32.ofNat i) (hat : AtBlock J s.nextLogBlock pos)
    (hlog : readLog J s.disk=log) (hcopy : log pos=some copy)
    (houtside : suppressed P s.table origin ⟨i,tag,pos⟩=false → ¬InLog J tag.blocknr) :
    Replayed P J log origin [⟨i,tag,pos⟩] s (replayTag P J s tag) ∧
      AtBlock J (replayTag P J s tag).nextLogBlock (following J pos) := by
  have hread : jread J s.disk s.nextLogBlock=.ok copy := by
    rw [jread_eq_ok,hlog,hat.1,hcopy]
  have hnext : AtBlock J (s.advance P J 1).nextLogBlock (following J pos) := by
    rw [←hlog] at hcopy
    exact hat.advance hcopy
  have hreadable : Readable log [⟨i,tag,pos⟩] := by
    intro logged hlogged
    rw [List.mem_singleton.mp hlogged,hcopy]
    rfl
  have htest : journalTestRevoke P s.table tag.blocknr s.nextCommitId=
      suppressed P s.table origin ⟨i,tag,pos⟩ := by
    rw [suppressed,hid]
  rw [replayTag,hread]
  dsimp only
  rw [htest]
  cases hsuppressed : suppressed P s.table origin ⟨i,tag,pos⟩ with
  | true =>
    rw [if_pos rfl]
    refine ⟨⟨hreadable,?_,hlog,rfl,rfl⟩,hnext⟩
    simp [tagWrites,hsuppressed,PassState.advance]
  | false =>
    rw [if_neg (by decide)]
    refine ⟨⟨hreadable,?_,?_,rfl,rfl⟩,hnext⟩
    · simp [tagWrites,hsuppressed,applyWrites,tagWrite,hcopy]
    · dsimp only
      rw [readLog_update (houtside hsuppressed),hlog]

/-- The replay of some tags and then of others. -/
theorem Replayed.trans {first second : List LoggedTag} {s s' s'' : PassState}
    (h : Replayed P J log origin first s s') (h' : Replayed P J log origin second s' s'') :
    Replayed P J log origin (first++second) s s'' where
  readable logged hlogged := by
    rcases List.mem_append.mp hlogged with hin | hin
    · exact h.readable logged hin
    · exact h'.readable logged hin
  disk := by
    rw [h'.disk,h.disk,h.table,tagWrites_append,applyWrites_append]
  log_eq := h'.log_eq
  endTransaction := h'.endTransaction.trans h.endTransaction
  table := h'.table.trans h.table

/-- The replay of the tags of a descriptor, if it succeeds or all copies can be read. -/
theorem foldl_replayTag {tags : List BlockTag} (hid : s.nextCommitId=origin+UInt32.ofNat i)
    (hat : AtBlock J s.nextLogBlock pos) (hlog : readLog J s.disk=log)
    (houtside : WrittenOutside P J s.table origin (tagsAt J i pos tags))
    (hgood : (tags.foldl (replayTag P J) s).success=none ∨ Readable log (tagsAt J i pos tags)) :
    Replayed P J log origin (tagsAt J i pos tags) s (tags.foldl (replayTag P J) s) ∧
      AtBlock J (tags.foldl (replayTag P J) s).nextLogBlock (positionAfter J tags.length pos) := by
  induction tags generalizing s pos with
  | nil =>
    exact ⟨⟨readable_nil log,rfl,hlog,rfl,rfl⟩,hat⟩
  | cons tag tail ih =>
    have hcopy : ∃ copy, log pos=some copy := by
      rcases hgood with hsuccess | hreadable
      · have hstep := foldl_replayTag_success (s := replayTag P J s tag) hsuccess
        rw [replayTag] at hstep
        cases hread : jread J s.disk s.nextLogBlock with
        | error err =>
          rw [hread] at hstep
          cases hstep
        | ok copy =>
          rw [jread_eq_ok,hlog,hat.1] at hread
          exact ⟨copy,hread⟩
      · exact Option.isSome_iff_exists.mp (hreadable ⟨i,tag,pos⟩ List.mem_cons_self)
    obtain ⟨copy,hcopy⟩ := hcopy
    obtain ⟨hone,hnext⟩ := replayTag_of_read hid hat hlog hcopy
      (houtside ⟨i,tag,pos⟩ List.mem_cons_self)
    have houtside' : WrittenOutside P J (replayTag P J s tag).table origin
        (tagsAt J i (following J pos) tail) := by
      intro logged hlogged hfalse
      rw [hone.table] at hfalse
      exact houtside logged (List.mem_cons_of_mem _ hlogged) hfalse
    obtain ⟨hrest,hend⟩ := ih (s := replayTag P J s tag)
      ((replayTag_nextCommitId P J s tag).trans hid) hnext
      hone.log_eq houtside'
      (hgood.imp id fun hreadable logged hlogged =>
        hreadable logged (List.mem_cons_of_mem _ hlogged))
    exact ⟨hone.trans hrest,hend⟩

/-- Where all copies can be read, no error is kept. -/
theorem foldl_replayTag_success_eq {tags : List BlockTag}
    (hid : s.nextCommitId=origin+UInt32.ofNat i)
    (hat : AtBlock J s.nextLogBlock pos) (hlog : readLog J s.disk=log)
    (houtside : WrittenOutside P J s.table origin (tagsAt J i pos tags))
    (hreadable : Readable log (tagsAt J i pos tags)) :
    (tags.foldl (replayTag P J) s).success=s.success := by
  induction tags generalizing s pos with
  | nil => rfl
  | cons tag tail ih =>
    obtain ⟨copy,hcopy⟩ := Option.isSome_iff_exists.mp
      (hreadable ⟨i,tag,pos⟩ List.mem_cons_self)
    obtain ⟨hone,hnext⟩ := replayTag_of_read hid hat hlog hcopy
      (houtside ⟨i,tag,pos⟩ List.mem_cons_self)
    have hread : jread J s.disk s.nextLogBlock=.ok copy := by
      rw [jread_eq_ok,hlog,hat.1,hcopy]
    have hsuccess : (replayTag P J s tag).success=s.success := by
      rw [replayTag,hread]
      dsimp only
      split <;> rfl
    have hrest := ih (s := replayTag P J s tag)
      ((replayTag_nextCommitId P J s tag).trans hid) hnext hone.log_eq
      (fun logged hlogged hfalse => houtside logged (List.mem_cons_of_mem _ hlogged)
        (by rw [←hone.table]; exact hfalse))
      fun logged hlogged => hreadable logged (List.mem_cons_of_mem _ hlogged)
    exact hrest.trans hsuccess

/-- A block without tags is replayed by going on to the next position. -/
theorem replayed_nil {s' : PassState} (hlog : readLog J s.disk=log) (hdisk : s'.disk=s.disk)
    (hend : s'.endTransaction=s.endTransaction) (htable : s'.table=s.table) :
    Replayed P J log origin [] s s' := by
  have hread : readLog J s'.disk=log := by
    rw [hdisk,hlog]
  exact ⟨readable_nil log,hdisk,hread,hend,htable⟩

/-- The effect of one block in the replay pass. -/
theorem kindStep_replay {block : LogBlock} (hid : s.nextCommitId=origin+UInt32.ofNat i)
    (hat : AtBlock J s.nextLogBlock pos) (hlog : readLog J s.disk=log)
    (hdata : log pos=some block.data) (hplace : block.pos=pos)
    (houtside : WrittenOutside P J s.table origin (block.tags J i))
    (hgood : (kindStep P J .replay block.kind block.data (s.advance P J 1)).success=none ∨
      Readable log (block.tags J i)) :
    let s' := kindStep P J .replay block.kind block.data (s.advance P J 1)
    Replayed P J log origin (block.tags J i) s s' ∧
      s'.nextCommitId=origin+UInt32.ofNat (i+block.commits) ∧
      AtBlock J s'.nextLogBlock (positionAfter J (block.length J) pos) := by
  obtain ⟨kind,data,place⟩ := block
  obtain rfl : place=pos := hplace
  have hnext : AtBlock J (s.advance P J 1).nextLogBlock (following J place) := by
    rw [←hlog] at hdata
    exact hat.advance hdata
  cases kind with
  | descriptor =>
    obtain ⟨hreplayed,hend⟩ := foldl_replayTag (s := s.advance P J 1) hid hnext hlog houtside hgood
    refine ⟨⟨hreplayed.readable,hreplayed.disk,hreplayed.log_eq,hreplayed.endTransaction,
      hreplayed.table⟩,?_,hend⟩
    exact (foldl_replayTag_nextCommitId P J _ _).trans hid
  | commit =>
    exact ⟨replayed_nil hlog rfl rfl rfl,identifier_commit data place hid,hnext⟩
  | revoke => exact ⟨replayed_nil hlog rfl rfl rfl,hid,hnext⟩

/-- A failed read is never forgotten. -/
theorem runPass_replay_success {fuel : ℕ} (h : (runPass P J .replay fuel s).1=some none) :
    s.success=none := by
  induction fuel generalizing s with
  | zero => cases h
  | succ fuel ih =>
    rw [runPass] at h
    rcases passStep_cases P J .replay s with
      ⟨-,heq⟩ | ⟨-,⟨err,heq⟩ | ⟨data,-,-,heq⟩ | ⟨data,kind,-,-,heq⟩⟩
    · rw [heq] at h
      exact (passDone_eq_none (by decide) (Option.some.inj h)).2
    · rw [heq] at h
      cases h
    · rw [heq] at h
      have hsuccess := (passDone_eq_none (by decide) (Option.some.inj h)).2
      exact hsuccess
    · rw [heq] at h
      have hsuccess := ih h
      cases kind with
      | descriptor =>
        have hbefore := foldl_replayTag_success (s := s.advance P J 1) hsuccess
        exact hbefore
      | commit => exact hsuccess
      | revoke => exact hsuccess

/-- The replay pass writes tags of the committed part, from its first on; if it
succeeds, all of them, and has read all copies. -/
theorem runPass_replay {count : ℕ} {sequence : UInt32} {blocks : List LogBlock}
    (h : CommittedPart J log count sequence pos blocks) (fuel : ℕ)
    (hsequence : s.nextCommitId=sequence) (hid : s.nextCommitId=origin+UInt32.ofNat i)
    (hat : AtBlock J s.nextLogBlock pos) (hend : (s.endTransaction-s.nextCommitId).toNat=count)
    (hlog : readLog J s.disk=log)
    (houtside : WrittenOutside P J s.table origin (tagsIn J i blocks))
    (hgood : (runPass P J .replay fuel s).1=some none ∨ Readable log (tagsIn J i blocks)) :
    ∃ tags, tags<+:tagsIn J i blocks ∧
      (runPass P J .replay fuel s).2.disk=
        applyWrites (tagWrites P log s.table origin tags) s.disk ∧
      ((runPass P J .replay fuel s).1=some none →
        tags=tagsIn J i blocks ∧ Readable log (tagsIn J i blocks)) := by
  induction h generalizing s i fuel with
  | nil sequence pos =>
    have hfinished : tidGeq s.nextCommitId s.endTransaction=true := by
      have hzero : s.endTransaction-s.nextCommitId=0 := UInt32.toNat_inj.mp hend
      rw [UInt32.sub_eq_iff_eq_add,UInt32.zero_add] at hzero
      rw [hzero,tidGeq_self]
    refine ⟨[],List.nil_prefix,?_,fun _ => ⟨rfl,readable_nil log⟩⟩
    cases fuel with
    | zero => rfl
    | succ fuel =>
      rw [runPass,passStep_stop (by decide) hfinished]
      dsimp only
      rw [passDone_state s (by decide)]
      rfl
  | @cons count sequence pos block tail hblock htail ih =>
    cases fuel with
    | zero => exact ⟨[],List.nil_prefix,rfl,fun h => by cases h⟩
    | succ fuel =>
      obtain ⟨hdata,-,hplace⟩ := blockAt_eq_some.mp hblock
      rw [runPass] at hgood ⊢
      by_cases hstop : tidGeq s.nextCommitId s.endTransaction=true
      · rw [passStep_stop (by decide) hstop]
        dsimp only
        rw [passDone_state s (by decide)]
        refine ⟨[],List.nil_prefix,rfl,fun h => ?_⟩
        have hequal := (passDone_eq_none (by decide) (Option.some.inj h)).1
        rw [hequal,UInt32.sub_self] at hend
        cases hend
      · have hstep : passStep P J .replay s=
            .next (kindStep P J .replay block.kind block.data (s.advance P J 1)) := by
          refine passStep_at_block (fun h => hstop h.2) hat ?_
          rw [hlog,hsequence,hblock]
        rw [hstep] at hgood ⊢
        dsimp only at hgood ⊢
        have hhead : WrittenOutside P J s.table origin (block.tags J i) := fun logged hlogged =>
          houtside logged (List.mem_append_left _ hlogged)
        obtain ⟨hreplayed,hid',hat'⟩ := kindStep_replay hid hat hlog hdata hplace hhead
          (hgood.imp runPass_replay_success fun hreadable logged hlogged =>
            hreadable logged (List.mem_append_left _ hlogged))
        have hrest : WrittenOutside P J
            (kindStep P J .replay block.kind block.data (s.advance P J 1)).table origin
            (tagsIn J (i+block.commits) tail) := by
          intro logged hlogged hfalse
          rw [hreplayed.table] at hfalse
          exact houtside logged (List.mem_append_right _ hlogged) hfalse
        have hsequence' : (kindStep P J .replay block.kind block.data
            (s.advance P J 1)).nextCommitId=sequence+UInt32.ofNat block.commits := by
          rw [hid',←identifier_add,←hid,hsequence]
        have hend' : ((kindStep P J .replay block.kind block.data
            (s.advance P J 1)).endTransaction-(kindStep P J .replay block.kind block.data
            (s.advance P J 1)).nextCommitId).toNat=count+1-block.commits := by
          rw [hreplayed.endTransaction,hsequence',←hsequence]
          exact remaining_sub hend (commits_le_one block)
        obtain ⟨tags,hstart,hdisk,hall⟩ := ih fuel hsequence' hid' hat' hend' hreplayed.log_eq
          hrest (hgood.imp id fun hreadable logged hlogged =>
            hreadable logged (List.mem_append_right _ hlogged))
        refine ⟨block.tags J i++tags,?_,?_,?_⟩
        · exact (List.prefix_append_right_inj _).mpr hstart
        · rw [hdisk,hreplayed.disk,hreplayed.table,tagWrites_append,applyWrites_append]
        · intro hok
          obtain ⟨htags,hreadable⟩ := hall hok
          rw [htags]
          refine ⟨rfl,fun logged hlogged => ?_⟩
          rcases List.mem_append.mp hlogged with hin | hin
          · exact hreplayed.readable logged hin
          · exact hreadable logged hin

/-! ## Recovery -/

/-- A journal on which the two widths of block numbers, the ends of the buffers and
the two ways of wrapping make no difference: in its committed transactions, the
records of the revoke blocks lie inside these blocks, a tag with a later record
that agrees with it in the width of `unsigned long` is revoked, and no other tag
names a block of the log. -/
structure Recoverable (P : Platform) (J : Journal) (disk : ℕ → Block) : Prop where
  /-- A single wrap is enough. -/
  wrappable : Wrappable J
  /-- The counts of the revoke blocks do not exceed the block. -/
  inside : ∀ {count : ℕ} {blocks : List LogBlock},
    AllCommitted J (readLog J disk) count J.sequence J.start blocks →
      ∀ block∈blocks, block.kind=.revoke →
        ∀ offset∈recordOffsets J block.data, offset+recordLen J≤J.blocksize
  /-- Cutting block numbers suppresses no tag that is not revoked. -/
  separate : ∀ {count : ℕ} {blocks : List LogBlock},
    AllCommitted J (readLog J disk) count J.sequence J.start blocks →
      ∀ logged∈tagsIn J 0 blocks, ∀ record∈revokesIn (blockRecords J) 0 blocks,
        record.2%2^P.ulongBits=logged.tag.blocknr%2^P.ulongBits →
          logged.transaction≤record.1 → Revoked J blocks logged
  /-- The replay does not write to the log. -/
  outside : ∀ {count : ℕ} {blocks : List LogBlock},
    AllCommitted J (readLog J disk) count J.sequence J.start blocks →
      ∀ logged∈tagsIn J 0 blocks, ¬Revoked J blocks logged → ¬InLog J logged.tag.blocknr

/-- Once recovery returns zero, every block holds the log copy of its last tag in the
recovered transactions that is not revoked, and is unchanged if there is none. -/
def ReplaysCommitted (P : Platform) (J : Journal) (fuel : ℕ) (disk : ℕ → Block) : Prop :=
  (journalRecover P J fuel disk).status=some none →
    ∃ blocks, CommittedPart J (readLog J disk)
        ((journalRecover P J fuel disk).transactionSequence-1-J.sequence).toNat
        J.sequence J.start blocks ∧
      ∀ b, match lastTag J blocks b with
        | some logged => ∃ copy, readLog J disk logged.copyAt=some copy ∧
            (journalRecover P J fuel disk).disk b=restoreMagic logged.tag copy
        | none => (journalRecover P J fuel disk).disk b=disk b

/-- Inside the block the buffer holds the record. -/
theorem readRecord_of_le {data : Block} {offset : ℕ} (h : offset+recordLen J≤J.blocksize) :
    readRecord P J data offset=loggedRecord J data offset := by
  rw [readRecord,loggedRecord]
  refine List.foldl_ext _ _ 0 ?_
  intro value k hk
  have hlt : k < recordLen J := List.mem_range.mp hk
  rw [bufferByte,if_pos (by omega)]

/-- With all records inside the block the pass reads what the block holds. -/
theorem bufferRecords_eq {data : Block}
    (h : ∀ offset∈recordOffsets J data, offset+recordLen J≤J.blocksize) :
    bufferRecords P J data=blockRecords J data := by
  have hall : (recordOffsets J data).filter (fun offset => offset+recordLen J≤J.blocksize)=
      recordOffsets J data := by
    refine List.filter_eq_self.mpr ?_
    intro offset hoffset
    simpa using h offset hoffset
  rw [bufferRecords,blockRecords,hall]
  exact List.map_congr_left fun offset hoffset => readRecord_of_le (h offset hoffset)

/-- A revoke pass that succeeds covers at most half of all transactions. -/
theorem remaining_le {fuel : ℕ} (hok : (runPass P J .revoke fuel s).1=some none) :
    (s.endTransaction-s.nextCommitId).toNat≤2^31 := by
  by_cases hstop : tidGeq s.nextCommitId s.endTransaction=true
  · cases fuel with
    | zero => cases hok
    | succ fuel =>
      rw [runPass,passStep_stop (by decide) hstop] at hok
      have hequal := (passDone_eq_none (by decide) (Option.some.inj hok)).1
      rw [hequal,UInt32.sub_self]
      exact Nat.zero_le _
  · have hneg : SerialNumber.difference s.nextCommitId.toBitVec s.endTransaction.toBitVec<0 := by
      simpa [tidGeq] using hstop
    exact SerialNumber.distance_le_of_difference_neg hneg

/-- On a recoverable journal the table suppresses exactly the revoked tags. -/
theorem suppressed_iff {disk : ℕ → Block} {count : ℕ} {blocks : List LogBlock} {logged : LoggedTag}
    (hJ : Recoverable P J disk)
    (hall : AllCommitted J (readLog J disk) count J.sequence J.start blocks)
    (hcount : count≤2^31) (hmem : logged∈tagsIn J 0 blocks) :
    suppressed P (enterRecords P J.sequence (revokesIn (bufferRecords P J) 0 blocks) fun _ => [])
      J.sequence logged=true ↔ Revoked J blocks logged := by
  have hrecords : revokesIn (bufferRecords P J) 0 blocks=revokesIn (blockRecords J) 0 blocks :=
    revokesIn_congr 0 fun block hblock hkind =>
      bufferRecords_eq (hJ.inside hall block hblock hkind)
  have htag := hall.1.tag_transaction_lt hmem
  have hlt : ∀ record∈revokesIn (blockRecords J) 0 blocks, record.1<2^31 := by
    intro record hrecord
    have hrecordlt := hall.1.record_transaction_lt hrecord
    omega
  rw [hrecords,suppressed,journalTestRevoke_enterRecords J.sequence _ hlt (by omega)]
  constructor
  · rintro ⟨record,hrecord,hkey,hle⟩
    exact hJ.separate hall logged hmem record hrecord hkey hle
  · rintro ⟨record,hrecord,hkey,hle⟩
    exact ⟨record,hrecord,by rw [hkey],hle⟩

/-- The replay pass keeps the end of the log. -/
theorem doOnePass_replay_endTransaction (P : Platform) (J : Journal) (fuel : ℕ) (s : PassState) :
    (doOnePass P J .replay fuel s).2.endTransaction=s.endTransaction := by
  have htag : ∀ t tag, (replayTag P J t tag).endTransaction=t.endTransaction := by
    intro t tag
    rw [replayTag]
    split
    · rfl
    · split <;> rfl
  have htags : ∀ (tags : List BlockTag) t,
      (tags.foldl (replayTag P J) t).endTransaction=t.endTransaction := by
    intro tags
    induction tags with
    | nil => exact fun t => rfl
    | cons tag tail ih => exact fun t => (ih _).trans (htag t tag)
  refine runPass_invariant (I := fun t => t.endTransaction=s.endTransaction) ?_ ?_ fuel rfl
  · refine passStep_invariant (fun t ht => ht) ?_
    intro t kind data ht
    cases kind with
    | descriptor => exact (htags _ t).trans ht
    | commit => exact ht
    | revoke => exact ht
  · intro t ht
    rw [passDone_state t (by decide)]
    exact ht

/-- A revoke pass over a journal that succeeds. -/
theorem doOnePass_revoke (hJ : Wrappable J) {fuel : ℕ}
    (hok : (doOnePass P J .revoke fuel s).1=some none) :
    (s.endTransaction-J.sequence).toNat≤2^31 ∧
      ∃ blocks, CommittedPart J (readLog J s.disk) (s.endTransaction-J.sequence).toNat
          J.sequence J.start blocks ∧
        (doOnePass P J .revoke fuel s).2.table=
          enterRecords P J.sequence (revokesIn (bufferRecords P J) 0 blocks) s.table := by
  have horigin : J.sequence=J.sequence+UInt32.ofNat 0 := (UInt32.add_zero _).symm
  exact ⟨remaining_le hok,
    runPass_revoke hJ fuel horigin (atBlock_of_lt J.start_lt).lands hok⟩

/-- A replay pass over a journal whose committed part reaches to the end. -/
theorem doOnePass_replay {blocks : List LogBlock} (fuel : ℕ)
    (hpart : CommittedPart J (readLog J s.disk) (s.endTransaction-J.sequence).toNat
      J.sequence J.start blocks)
    (houtside : WrittenOutside P J s.table J.sequence (tagsIn J 0 blocks))
    (hgood : (doOnePass P J .replay fuel s).1=some none ∨
      Readable (readLog J s.disk) (tagsIn J 0 blocks)) :
    ∃ tags, tags<+:tagsIn J 0 blocks ∧
      (doOnePass P J .replay fuel s).2.disk=
        applyWrites (tagWrites P (readLog J s.disk) s.table J.sequence tags) s.disk ∧
      ((doOnePass P J .replay fuel s).1=some none →
        tags=tagsIn J 0 blocks ∧ Readable (readLog J s.disk) (tagsIn J 0 blocks)) := by
  have horigin : J.sequence=J.sequence+UInt32.ofNat 0 := (UInt32.add_zero _).symm
  exact runPass_replay hpart fuel rfl horigin (atBlock_of_lt J.start_lt) rfl rfl houtside hgood

/-- The writes to one block are those of its tags that are not revoked. -/
theorem tagWrites_filter {table : RevokeTable} {blocks : List LogBlock} (b : ℕ)
    (hsuppressed : ∀ logged∈tagsIn J 0 blocks,
      (suppressed P table origin logged=true ↔ Revoked J blocks logged)) :
    (tagWrites P log table origin (tagsIn J 0 blocks)).filter (fun write => write.1=b)=
      ((tagsIn J 0 blocks).filter fun logged =>
        logged.tag.blocknr=b ∧ ¬Revoked J blocks logged).map (tagWrite log) := by
  rw [tagWrites,List.filter_map,List.filter_filter]
  congr 1
  refine List.filter_congr ?_
  intro logged hlogged
  have hlive : (!suppressed P table origin logged)=decide (¬Revoked J blocks logged) := by
    rw [Bool.eq_iff_iff,Bool.not_eq_true',←Bool.not_eq_true,hsuppressed logged hlogged,
      decide_eq_true_eq]
  rw [hlive,Bool.decide_and]
  rfl

/-- After these writes a block holds the copy of its last tag. -/
theorem applyWrites_lastTag {table : RevokeTable} {blocks : List LogBlock} (disk : ℕ → Block)
    (hreadable : Readable log (tagsIn J 0 blocks))
    (hsuppressed : ∀ logged∈tagsIn J 0 blocks,
      (suppressed P table origin logged=true ↔ Revoked J blocks logged)) (b : ℕ) :
    match lastTag J blocks b with
    | some logged => ∃ copy, log logged.copyAt=some copy ∧
        applyWrites (tagWrites P log table origin (tagsIn J 0 blocks)) disk b=
          restoreMagic logged.tag copy
    | none => applyWrites (tagWrites P log table origin (tagsIn J 0 blocks)) disk b=disk b := by
  rw [applyWrites_eq_last,tagWrites_filter b hsuppressed,List.getLast?_map]
  change match lastTag J blocks b with
    | some logged => ∃ copy, log logged.copyAt=some copy ∧
        ((((lastTag J blocks b).map (tagWrite log)).map Prod.snd).getD (disk b))=
          restoreMagic logged.tag copy
    | none => ((((lastTag J blocks b).map (tagWrite log)).map Prod.snd).getD (disk b))=disk b
  cases hlast : lastTag J blocks b with
  | none => rfl
  | some logged =>
    have hmem : logged∈tagsIn J 0 blocks := List.mem_of_mem_filter (List.mem_of_getLast? hlast)
    obtain ⟨copy,hcopy⟩ := Option.isSome_iff_exists.mp (hreadable logged hmem)
    refine ⟨copy,hcopy,?_⟩
    simp [tagWrite,hcopy]

/-- The passes of a recovery that returns zero. -/
theorem journalRecover_eq_report {fuel : ℕ} {disk : ℕ → Block} (hstart : J.start≠0)
    (hok : (journalRecover P J fuel disk).status=some none) :
    let scan := doOnePass P J .scan fuel (initialState J disk)
    let revoke := doOnePass P J .revoke fuel scan.2
    let replay := doOnePass P J .replay fuel revoke.2
    scan.1=some none ∧ revoke.1=some none ∧ replay.1=some none ∧
      journalRecover P J fuel disk=report replay := by
  intro scan revoke replay
  have hunfold : journalRecover P J fuel disk=
      if scan.1=some none then if revoke.1=some none then report replay else report revoke
      else report scan := by
    rw [journalRecover,if_neg hstart]
  rw [hunfold] at hok ⊢
  by_cases hscan : scan.1=some none
  · rw [if_pos hscan] at hok ⊢
    by_cases hrevoke : revoke.1=some none
    · rw [if_pos hrevoke] at hok ⊢
      exact ⟨hscan,hrevoke,hok,rfl⟩
    · rw [if_neg hrevoke] at hok
      exact absurd hok hrevoke
  · rw [if_neg hscan] at hok
    exact absurd hok hscan

/-- A block of 1024 bytes from its first bytes. -/
def paddedBlock (bytes : List UInt8) : Block := bytes++List.replicate (1024-bytes.length) 0

/-- A log with one transaction: a descriptor with a tag for block 5 and its copy, a
revoke block with a record for block 2^32+5, and a commit block. -/
def wideDisk (b : ℕ) : Block :=
  if b=10 then paddedBlock [0xc0,0x3b,0x39,0x98,0,0,0,1,0,0,0,7,0,0,0,5,0,0,0,10,0,0,0,0]
  else if b=11 then List.replicate 1024 0xaa
  else if b=12 then paddedBlock [0xc0,0x3b,0x39,0x98,0,0,0,5,0,0,0,7,0,0,0,24,0,0,0,1,0,0,0,5]
  else if b=13 then paddedBlock [0xc0,0x3b,0x39,0x98,0,0,0,2,0,0,0,7]
  else List.replicate 1024 0

/-- The journal of that log, with block numbers of sixty-four bits. -/
def wideJournal : Journal where
  device := .inode fun offset => some (offset+9)
  blocksize := 1024
  blocksize_ge := le_refl 1024
  maxlen := 1024
  maxlen_lt := by decide
  first := 1
  first_lt := by decide
  start := 1
  start_lt := by decide
  sequence := 7
  has64bit := true
  hasChecksum := false
  hasAsyncCommit := false

theorem narrow_width : 32=32 ∨ 32=64 := Or.inl rfl

theorem wide_width : 64=32 ∨ 64=64 := Or.inr rfl

/-- A machine with an `unsigned long` of thirty-two bits. -/
def narrowPlatform : Platform := ⟨32,narrow_width,fun block => block%1024,fun _ _ => 0⟩

/-- A machine with an `unsigned long` of sixty-four bits. -/
def widePlatform : Platform := ⟨64,wide_width,fun block => block%1024,fun _ _ => 0⟩

/-- The blocks of the only transaction. -/
def wideBlocks : List LogBlock :=
  [⟨.descriptor,wideDisk 10,1⟩,⟨.revoke,wideDisk 12,3⟩,⟨.commit,wideDisk 13,4⟩]

/-- The committed parts of the log. -/
theorem wideLog_committed {count : ℕ} {blocks : List LogBlock}
    (h : CommittedPart wideJournal (readLog wideJournal wideDisk) count 7 1 blocks) :
    (count=0 ∧ blocks=[]) ∨ (count=1 ∧ blocks=wideBlocks) := by
  have hdescriptor : blockAt (readLog wideJournal wideDisk) 7 1=
      some ⟨.descriptor,wideDisk 10,1⟩ := by decide +kernel
  have hrevoke : blockAt (readLog wideJournal wideDisk) 7 3=
      some ⟨.revoke,wideDisk 12,3⟩ := by decide +kernel
  have hcommit : blockAt (readLog wideJournal wideDisk) 7 4=
      some ⟨.commit,wideDisk 13,4⟩ := by decide +kernel
  have hend : blockAt (readLog wideJournal wideDisk) 8 5=none := by decide +kernel
  cases count with
  | zero =>
    cases h
    exact Or.inl ⟨rfl,rfl⟩
  | succ count =>
    obtain ⟨tail,hblocks,htail⟩ := h.of_blockAt 7 3 hdescriptor (by decide)
      (by decide +kernel)
    obtain ⟨tail',hblocks',htail'⟩ := CommittedPart.of_blockAt 7 4 htail hrevoke (by decide)
      (by decide +kernel)
    obtain ⟨tail'',hblocks'',htail''⟩ := CommittedPart.of_blockAt 8 5 htail' hcommit (by decide)
      (by decide +kernel)
    obtain ⟨hcount,hnil⟩ := htail''.of_blockAt_none hend
    have hzero : count=0 := hcount
    refine Or.inr ⟨by omega,?_⟩
    rw [hblocks,hblocks',hblocks'',hnil]
    rfl

theorem recoverable_wide : Recoverable widePlatform wideJournal wideDisk := by
  have htags : tagsIn wideJournal 0 wideBlocks=[⟨0,⟨5,10⟩,2⟩] := by decide +kernel
  have hrecords : revokesIn (blockRecords wideJournal) 0 wideBlocks=[(0,2^32+5)] := by
    decide +kernel
  have hoffsets : recordOffsets wideJournal (wideDisk 12)=[16] := by decide +kernel
  refine ⟨?_,?_,?_,?_⟩
  · rw [Wrappable]
    decide
  · intro count blocks hall block hblock hkind offset hoffset
    rcases wideLog_committed hall.1 with ⟨-,rfl⟩ | ⟨-,rfl⟩
    · cases hblock
    · have hdata : block.data=wideDisk 12 := by
        simp only [wideBlocks,List.mem_cons,List.not_mem_nil,or_false] at hblock
        rcases hblock with rfl | rfl | rfl
        · cases hkind
        · rfl
        · cases hkind
      rw [hdata,hoffsets,List.mem_singleton] at hoffset
      rw [hoffset]
      decide
  · intro count blocks hall logged hlogged record hrecord hkey hle
    rcases wideLog_committed hall.1 with ⟨-,rfl⟩ | ⟨-,rfl⟩
    · cases hlogged
    · rw [htags,List.mem_singleton] at hlogged
      rw [hrecords,List.mem_singleton] at hrecord
      rw [hlogged,hrecord] at hkey
      exact absurd hkey (by decide)
  · intro count blocks hall logged hlogged hlive hin
    rcases wideLog_committed hall.1 with ⟨-,rfl⟩ | ⟨-,rfl⟩
    · cases hlogged
    · rw [htags,List.mem_singleton] at hlogged
      rw [hlogged] at hin
      obtain ⟨offset,-,hmap⟩ := hin
      have hphys : offset+9=5 := Option.some.inj hmap
      omega

end AndroidPlatform.JournalReplay
