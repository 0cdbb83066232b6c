import AndroidPlatform.FiniteRuns
import AndroidPlatform.JournalReplay
import Mathlib.Data.Fintype.Prod

/-!
# Termination of the scan of a journal

The loop of the scan has no budget of blocks. It makes progress where a commit
block advances `next_commit_ID`, and since a log block carries one identifier
this happens at most once for every block. Everything else depends on the
content: descriptor blocks, revoke blocks and refused commit blocks keep the
identifier, and where they close into a ring the loop does not end.
-/

namespace AndroidPlatform.JournalTermination

open WireBytes JournalRecovery JournalLog JournalPass JournalReplay FiniteRuns

variable {P : Platform} {J : Journal} {s s' : PassState}

/-- An iteration of the scan after which the loop goes on. -/
def scanNext (P : Platform) (J : Journal) (s : PassState) : Option PassState :=
  match passStep P J .scan s with
  | .next s' => some s'
  | .done _ => none
  | .failed _ _ => none

/-- A commit block that the scan passes over without advancing: a checksum
failed before it, or fails here without asynchronous commit. -/
def Refused (J : Journal) (s : PassState) (data : Block) : Prop :=
  J.hasChecksum=true ∧
    (s.endTransaction≠0 ∨ (chksumErr s.crc32Sum data=true ∧ J.hasAsyncCommit=false))

/-- The next log block belongs to the transaction being scanned and does not
complete it: a descriptor block, a revoke block or a refused commit block. -/
def Keeps (J : Journal) (s : PassState) : Prop :=
  ∃ data, jread J s.disk s.nextLogBlock=.ok data ∧
    (kindOf s.nextCommitId data=some .descriptor ∨ kindOf s.nextCommitId data=some .revoke ∨
      (kindOf s.nextCommitId data=some .commit ∧ Refused J s data))

/-- The blocks from here on close into a ring: one after the other keeps the
transaction, and they lead back to where the scan is. -/
def Ring (P : Platform) (J : Journal) (s : PassState) : Prop :=
  Relation.TransGen (fun a b => Keeps J a ∧ Moves (scanNext P J) a b) s s

/-- The state in which the scan of a log begins its loop. -/
def scanStart (J : Journal) (disk : ℕ → Block) : PassState := initialState J disk

/-- The scan comes to this state. -/
def ScanReaches (P : Platform) (J : Journal) (disk : ℕ → Block) (s : PassState) : Prop :=
  ∃ n, after (scanNext P J) n (scanStart J disk)=some s

/-- `do_one_pass` with `PASS_SCAN` returns. -/
def ScanTerminates (P : Platform) (J : Journal) (disk : ℕ → Block) : Prop :=
  ∃ fuel, (doOnePass P J .scan fuel (initialState J disk)).1≠none

/-- An iteration that goes on has read a block of the transaction. -/
theorem scanNext_cases (h : Moves (scanNext P J) s s') :
    ∃ data kind, jread J s.disk s.nextLogBlock=.ok data ∧
      kindOf s.nextCommitId data=some kind ∧
      s'=kindStep P J .scan kind data (s.advance P J 1) := by
  unfold Moves scanNext at h
  rcases passStep_cases P J .scan s with
    ⟨hstop,-⟩ | ⟨-,⟨err,heq⟩ | ⟨data,-,-,heq⟩ | ⟨data,kind,hread,hkind,heq⟩⟩
  · exact absurd rfl hstop.1
  · rw [heq] at h
    cases h
  · rw [heq] at h
    cases h
  · rw [heq] at h
    exact ⟨data,kind,hread,hkind,(Option.some.inj h).symm⟩

/-- What a block does to `next_commit_ID`. -/
theorem kindStep_scan_nextCommitId (P : Platform) (J : Journal) (kind : BlockKind) (data : Block)
    (s : PassState) :
    (kind=.commit ∧ ¬Refused J s data ∧
      (kindStep P J .scan kind data s).nextCommitId=s.nextCommitId+1) ∨
    ((kind=.commit → Refused J s data) ∧
      (kindStep P J .scan kind data s).nextCommitId=s.nextCommitId) := by
  cases kind with
  | descriptor =>
    right
    refine ⟨(fun h => by cases h),?_⟩
    rw [kindStep,descriptorBlock]
    split
    · exact (checksumBlocks_frame P J (countTags J data) _).2.2.2
    · rfl
  | revoke => exact Or.inr ⟨(fun h => by cases h),rfl⟩
  | commit =>
    rw [kindStep,commitBlock]
    by_cases hc : J.hasChecksum=true
    · simp only [hc,and_self,if_true,Refused,true_and,forall_true_left]
      by_cases hend : s.endTransaction≠0
      · simp [hend]
      · by_cases herr : chksumErr s.crc32Sum data=true
        · cases hasync : J.hasAsyncCommit <;> simp [hend,herr]
        · simp [hend,herr]
    · simp [hc,Refused]

/-- A next identifier is another one. -/
theorem add_one_ne (id : UInt32) : id+1≠id := by
  simp

/-- An iteration keeps the identifier exactly at the blocks of a ring. -/
theorem keeps_iff (h : Moves (scanNext P J) s s') :
    Keeps J s ↔ s'.nextCommitId=s.nextCommitId := by
  obtain ⟨data,kind,hread,hkind,rfl⟩ := scanNext_cases h
  have hdata : ∀ data', jread J s.disk s.nextLogBlock=.ok data' → data'=data := by
    intro data' hread'
    rw [hread] at hread'
    exact (Except.ok.inj hread').symm
  rcases kindStep_scan_nextCommitId P J kind data (s.advance P J 1) with
    ⟨rfl,hrefused,hid⟩|⟨hrefused,hid⟩
  · rw [hid]
    constructor
    · rintro ⟨data',hread',hkeep⟩
      rw [hdata data' hread',hkind] at hkeep
      rcases hkeep with hk|hk|⟨-,hk⟩
      · cases hk
      · cases hk
      · exact absurd hk hrefused
    · intro heq
      exact absurd heq (add_one_ne s.nextCommitId)
  · refine ⟨fun _ => hid,fun _ => ⟨data,hread,?_⟩⟩
    cases kind with
    | descriptor => exact Or.inl hkind
    | revoke => exact Or.inr (Or.inl hkind)
    | commit => exact Or.inr (Or.inr ⟨hkind,hrefused rfl⟩)

/-- An iteration advances the identifier by one or keeps it. -/
theorem nextCommitId_cases (h : Moves (scanNext P J) s s') :
    s'.nextCommitId=s.nextCommitId ∨ s'.nextCommitId=s.nextCommitId+1 := by
  obtain ⟨data,kind,-,-,rfl⟩ := scanNext_cases h
  rcases kindStep_scan_nextCommitId P J kind data (s.advance P J 1) with ⟨-,-,hid⟩|⟨-,hid⟩
  · exact Or.inr hid
  · exact Or.inl hid

/-- A wrapped block number stays within its sixty-four bits. -/
theorem wrap_lt (P : Platform) (J : Journal) (var : ℕ) : wrap P J (var%2^64)<2^64 := by
  have hmod := Nat.mod_lt var (show 0 < 2^64 by decide)
  unfold wrap
  split
  · exact Nat.mod_lt _ (by decide)
  · exact hmod

theorem checksumBlocks_nextLogBlock_lt (count : ℕ) (h : s.nextLogBlock<2^64) :
    (checksumBlocks P J count s).nextLogBlock<2^64 := by
  induction count generalizing s with
  | zero => exact h
  | succ count ih =>
    rw [checksumBlocks]
    split
    · exact wrap_lt P J _
    · exact ih (wrap_lt P J _)

theorem checksumBlocks_success (count : ℕ) (s : PassState) :
    (checksumBlocks P J count s).success=s.success := by
  induction count generalizing s with
  | zero => rfl
  | succ count ih =>
    rw [checksumBlocks]
    split
    · rfl
    · exact ih _

/-- What an iteration of the scan leaves alone, and the range of its block. -/
theorem scanNext_frame (h : Moves (scanNext P J) s s') :
    s'.disk=s.disk ∧ s'.table=s.table ∧ s'.success=s.success ∧ s'.nextLogBlock<2^64 := by
  obtain ⟨data,kind,-,-,rfl⟩ := scanNext_cases h
  obtain ⟨hdisk,htable,-⟩ := kindStep_scan_frame P J kind data (s.advance P J 1)
  refine ⟨hdisk,htable,?_⟩
  cases kind with
  | descriptor =>
    rw [kindStep,descriptorBlock]
    split
    · exact ⟨checksumBlocks_success _ _,checksumBlocks_nextLogBlock_lt _ (wrap_lt P J _)⟩
    · exact ⟨rfl,wrap_lt P J _⟩
  | commit =>
    rw [kindStep,commitBlock]
    split_ifs <;> exact ⟨rfl,wrap_lt P J _⟩
  | revoke => exact ⟨rfl,wrap_lt P J _⟩

/-- The pass returns exactly when its loop halts. -/
theorem runPass_scan_none (P : Platform) (J : Journal) (fuel : ℕ) (s : PassState) :
    (runPass P J .scan fuel s).1=none ↔ after (scanNext P J) fuel s≠none := by
  induction fuel generalizing s with
  | zero => simp [runPass,after]
  | succ fuel ih =>
    rw [runPass,after_succ,scanNext]
    cases passStep P J .scan s with
    | next s' => exact ih s'
    | done s' => simp
    | failed err s' => simp

theorem scanTerminates_iff_halts (P : Platform) (J : Journal) (disk : ℕ → Block) :
    ScanTerminates P J disk ↔ ∃ n, after (scanNext P J) n (scanStart J disk)=none := by
  have hrun : ∀ fuel, (doOnePass P J .scan fuel (initialState J disk)).1≠none ↔
      after (scanNext P J) fuel (scanStart J disk)=none := by
    intro fuel
    have hnone := runPass_scan_none P J fuel (scanStart J disk)
    exact not_iff_comm.mp hnone.symm
  exact exists_congr hrun

/-- The block that an iteration looks at, and its identifier. -/
theorem exists_block_of_moves (h : Moves (scanNext P J) s s') :
    ∃ data, readLog J s.disk (s.nextLogBlock%2^32)=some data ∧
      ntohlAt data 8=s.nextCommitId := by
  obtain ⟨data,kind,hread,hkind,-⟩ := scanNext_cases h
  exact ⟨data,jread_eq_ok.mp hread,sequence_of_kindOf hkind⟩

/-- In an endless scan the identifier advances only finitely often: every
advance uses a block of its own, and there are fewer than identifiers. -/
theorem finite_advances {run : ℕ → PassState} (h : ∀ n, Moves (scanNext P J) (run n) (run (n+1))) :
    {k | (run (k+1)).nextCommitId≠(run k).nextCommitId}.Finite := by
  have hdisk : ∀ n, (run n).disk=(run 0).disk := by
    intro n
    induction n with
    | zero => rfl
    | succ n ih => rw [(scanNext_frame (h n)).1,ih]
  have hid : ∀ n, (run n).nextCommitId=(run 0).nextCommitId+UInt32.ofNat
      (Nat.count (fun k => (run (k+1)).nextCommitId≠(run k).nextCommitId) n) := by
    intro n
    induction n with
    | zero => simp
    | succ n ih =>
      rw [Nat.count_succ]
      rcases nextCommitId_cases (h n) with heq|heq
      · rw [if_neg (not_not.mpr heq),heq,ih,Nat.add_zero]
      · have hne : (run (n+1)).nextCommitId≠(run n).nextCommitId := by
          rw [heq]
          exact add_one_ne _
        rw [if_pos hne,heq,ih,UInt32.ofNat_add,UInt32.add_assoc]
        rfl
  apply finite_of_places (p := fun k => (run (k+1)).nextCommitId≠(run k).nextCommitId)
    J.maxlen_lt
  · intro k _
    obtain ⟨data,hlog,-⟩ := exists_block_of_moves (h k)
    exact lt_of_readLog hlog
  · intro j k _ _ hplace
    obtain ⟨data,hlog,hseq⟩ := exists_block_of_moves (h j)
    obtain ⟨data',hlog',hseq'⟩ := exists_block_of_moves (h k)
    rw [hdisk] at hlog hlog'
    rw [hplace,hlog',Option.some.injEq] at hlog
    subst hlog
    have hsame := hseq.symm.trans hseq'
    rw [hid j,hid k,UInt32.add_right_inj] at hsame
    simpa using congrArg UInt32.toNat hsame

/-- What distinguishes two states of one scan that expect the same transaction. -/
def stateKey (s : PassState) : Fin (2^64)×Fin (2^32)×Fin (2^32)×Fin (2^32) :=
  (Fin.ofNat (2^64) s.nextLogBlock,s.crc32Sum.toFin,s.endTransaction.toFin,s.failedCommit.toFin)

theorem eq_of_stateKey (hdisk : s.disk=s'.disk) (htable : s.table=s'.table)
    (hsuccess : s.success=s'.success) (hid : s.nextCommitId=s'.nextCommitId)
    (hs : s.nextLogBlock<2^64) (hs' : s'.nextLogBlock<2^64) (h : stateKey s=stateKey s') :
    s=s' := by
  simp only [stateKey,Prod.mk.injEq] at h
  obtain ⟨hblock,hcrc,hend,hfailed⟩ := h
  have hval := congrArg Fin.val hblock
  simp only [Fin.val_ofNat,Nat.mod_eq_of_lt hs,Nat.mod_eq_of_lt hs'] at hval
  have hcrc' := UInt32.toNat_inj.mp (congrArg Fin.val hcrc)
  have hend' := UInt32.toNat_inj.mp (congrArg Fin.val hend)
  have hfailed' := UInt32.toNat_inj.mp (congrArg Fin.val hfailed)
  cases s
  cases s'
  simp only [PassState.mk.injEq]
  exact ⟨hid,hval,hcrc',hend',hsuccess,htable,hdisk,hfailed'⟩

/-- An endless scan enters a ring. -/
theorem exists_ring {run : ℕ → PassState} (h : ∀ n, Moves (scanNext P J) (run n) (run (n+1))) :
    ∃ n, Ring P J (run n) := by
  obtain ⟨N,hN⟩ := (finite_advances h).bddAbove
  have hkeep : ∀ n, N < n → (run (n+1)).nextCommitId=(run n).nextCommitId := by
    intro n hn
    by_contra hne
    exact absurd (hN hne) (Nat.not_le.mpr hn)
  -- From here on only the key of the state changes.
  let tail : ℕ → PassState := fun n => run (N+1+n)
  have htail : ∀ n, (tail n).disk=(tail 0).disk ∧ (tail n).table=(tail 0).table ∧
      (tail n).success=(tail 0).success ∧ (tail n).nextCommitId=(tail 0).nextCommitId := by
    intro n
    induction n with
    | zero => exact ⟨rfl,rfl,rfl,rfl⟩
    | succ n ih =>
      obtain ⟨hd,ht,hs,-⟩ := scanNext_frame (h (N+1+n))
      obtain ⟨ihd,iht,ihs,ihid⟩ := ih
      exact ⟨hd.trans ihd,ht.trans iht,hs.trans ihs,(hkeep (N+1+n) (by omega)).trans ihid⟩
  have hlt : ∀ n, (tail n).nextLogBlock<2^64 := by
    intro n
    have hframe := scanNext_frame (h (N+n))
    rw [show N+n+1=N+1+n by omega] at hframe
    exact hframe.2.2.2
  have hmoves : ∀ n, Keeps J (tail n) ∧ Moves (scanNext P J) (tail n) (tail (n+1)) :=
    fun n => ⟨(keeps_iff (h (N+1+n))).mpr (hkeep (N+1+n) (by omega)),h (N+1+n)⟩
  obtain ⟨n,hring⟩ := @exists_cycle _ (fun a b => Keeps J a ∧ Moves (scanNext P J) a b) tail _ _
    stateKey (fun m n heq => by
      obtain ⟨hd,ht,hs,hid⟩ := htail m
      obtain ⟨hd',ht',hs',hid'⟩ := htail n
      exact eq_of_stateKey (hd.trans hd'.symm) (ht.trans ht'.symm) (hs.trans hs'.symm)
        (hid.trans hid'.symm) (hlt m) (hlt n) heq) hmoves
  exact ⟨N+1+n,hring⟩

/-- A revoke block without records of transaction 1. -/
def emptyRevoke : Block := paddedBlock [0xc0,0x3b,0x39,0x98,0,0,0,5,0,0,0,1,0,0,0,16]

/-- A log of which every block is that revoke block. -/
def revokeRing : Journal where
  device := .external fun _ => some emptyRevoke
  blocksize := 1024
  blocksize_ge := wideJournal.blocksize_ge
  maxlen := 1024
  maxlen_lt := wideJournal.maxlen_lt
  first := 1
  first_lt := wideJournal.first_lt
  start := 1
  start_lt := wideJournal.start_lt
  sequence := 1
  has64bit := false
  hasChecksum := false
  hasAsyncCommit := false

theorem kindOf_emptyRevoke : kindOf 1 emptyRevoke=some .revoke := by
  decide +kernel

/-- Every block of that log leads on to another one of it. -/
theorem moves_revokeRing (P : Platform) {s : PassState} (hid : s.nextCommitId=1)
    (hblock : s.nextLogBlock<1024) :
    Moves (scanNext P revokeRing) s (s.advance P revokeRing 1) ∧
      (s.advance P revokeRing 1).nextLogBlock<1024 := by
  have hread : jread revokeRing s.disk s.nextLogBlock=.ok emptyRevoke := by
    have hmod : s.nextLogBlock%2^32=s.nextLogBlock := Nat.mod_eq_of_lt (by omega)
    rw [jread,hmod,if_neg (show ¬revokeRing.maxlen ≤ s.nextLogBlock from Nat.not_le.mpr hblock)]
    rfl
  constructor
  · have hgo : ¬(PassType.scan≠.scan ∧ tidGeq s.nextCommitId s.endTransaction) :=
      fun h => h.1 rfl
    rw [Moves,scanNext,passStep_of_read hgo hread,hid,kindOf_emptyRevoke]
    rfl
  · have hnext : (s.advance P revokeRing 1).nextLogBlock=
        wrap P revokeRing (s.nextLogBlock+1) := by
      rw [PassState.advance,Nat.mod_eq_of_lt (by omega)]
    rw [hnext]
    by_cases hend : revokeRing.maxlen ≤ s.nextLogBlock+1
    · rw [wrap_of_le (show 1≤1024 by decide) hend (by omega)]
      have hm : revokeRing.maxlen=1024 := rfl
      have hf : revokeRing.first=1 := rfl
      omega
    · rw [wrap,if_neg hend]
      exact Nat.not_le.mp hend

end AndroidPlatform.JournalTermination
