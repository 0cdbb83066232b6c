import AndroidPlatform.JournalLog
import AndroidPlatform.WriteSequence

/-!
# One pass over the log

What an iteration of a pass reads, where it goes on, and what it leaves alone.
Positions of the ring are compared with `next_log_block`, which is wider than a
position and can leave the ring when the first block lies behind the last.
-/

namespace AndroidPlatform.JournalPass

open WireBytes JournalRecovery JournalLog WriteSequence

variable {P : Platform} {J : Journal} {pass : PassType} {s : PassState}

/-! ## Reading -/

/-- A read succeeds exactly if the log has the block. -/
theorem jread_eq_ok {disk : ℕ → Block} {v : ℕ} {data : Block} :
    jread J disk v=.ok data ↔ readLog J disk (v%2^32)=some data := by
  rw [jread,readLog]
  by_cases hlt : v%2^32<J.maxlen
  · rw [if_neg (by omega),if_pos hlt]
    cases J.device.read disk (v%2^32) <;> simp
  · rw [if_pos (by omega),if_neg hlt]
    simp

/-- A write outside the log does not change what is read from it. -/
theorem readLog_update {b : ℕ} (h : ¬InLog J b) (disk : ℕ → Block) (data : Block) :
    readLog J (Function.update disk b data)=readLog J disk := by
  funext pos
  rw [readLog,readLog]
  by_cases hlt : pos<J.maxlen
  · rw [if_pos hlt,if_pos hlt]
    cases hdevice : J.device with
    | external content => rfl
    | inode bmap =>
      rw [InLog,hdevice] at h
      cases hmap : bmap pos with
      | none => simp only [LogDevice.read,hmap,Option.map_none]
      | some phys =>
        have hne : phys≠b := by
          intro heq
          rw [heq] at hmap
          exact h ⟨pos,hlt,hmap⟩
        simp only [LogDevice.read,hmap,Option.map_some,Function.update_of_ne hne]
  · rw [if_neg hlt,if_neg hlt]

/-! ## Positions -/

/-- The next block to read is the one at a position; on the ring the two are equal. -/
def AtBlock (J : Journal) (v pos : ℕ) : Prop := v%2^32=pos ∧ (pos<J.maxlen → v=pos)

theorem atBlock_of_lt {v : ℕ} (h : v<2^32) : AtBlock J v v := ⟨Nat.mod_eq_of_lt h,fun _ => rfl⟩

/-- The length of the ring as an `unsigned long`. -/
theorem ringLength (P : Platform) (J : Journal) :
    (J.maxlen+2^P.ulongBits-J.first)%2^P.ulongBits=
      if J.first≤J.maxlen then J.maxlen-J.first else J.maxlen+2^P.ulongBits-J.first := by
  have hmaxlen := J.maxlen_lt
  have hfirst := J.first_lt
  have hwidth : 32≤P.ulongBits := by
    have hbits := P.ulongBits_eq
    omega
  have hbits : 2^32≤2^P.ulongBits := Nat.pow_le_pow_right (by omega) hwidth
  by_cases hle : J.first≤J.maxlen
  · have hsum : J.maxlen+2^P.ulongBits-J.first=J.maxlen-J.first+2^P.ulongBits := by omega
    rw [if_pos hle,hsum,Nat.add_mod_right,Nat.mod_eq_of_lt (by omega)]
  · rw [if_neg hle,Nat.mod_eq_of_lt (by omega)]

/-- Behind the end of the ring the wrapped position continues from its first block. -/
theorem wrap_of_le {var : ℕ} (hle : J.first≤J.maxlen) (hvar : J.maxlen≤var) (hlt : var<2^64) :
    wrap P J var=J.first+(var-J.maxlen) := by
  have hmaxlen := J.maxlen_lt
  rw [wrap,if_pos hvar,ringLength,if_pos hle]
  omega

/-- One block further is one position further. -/
theorem atBlock_following {v : ℕ} (h : v<J.maxlen) :
    AtBlock J (wrap P J ((v+1)%2^64)) (following J v) := by
  have hmaxlen := J.maxlen_lt
  have hfirst := J.first_lt
  have hsmall : (v+1)%2^64=v+1 := Nat.mod_eq_of_lt (by omega)
  rw [hsmall,following]
  by_cases hin : v+1<J.maxlen
  · rw [if_pos hin,wrap,if_neg (by omega)]
    exact atBlock_of_lt (by omega)
  · rw [if_neg hin]
    by_cases hle : J.first≤J.maxlen
    · have hat : wrap P J (v+1)=J.first := by
        rw [wrap_of_le hle (by omega) (by omega)]
        omega
      rw [hat]
      exact atBlock_of_lt hfirst
    · refine ⟨?_,fun hlt => absurd hlt (by omega)⟩
      rw [wrap,if_pos (by omega),ringLength,if_neg hle]
      rcases P.ulongBits_eq with h | h <;> rw [h] <;> omega

/-- After a read the next block is the one at the next position. -/
theorem AtBlock.advance {pos : ℕ} {data : Block} (h : AtBlock J s.nextLogBlock pos)
    (hdata : readLog J s.disk pos=some data) :
    AtBlock J (s.advance P J 1).nextLogBlock (following J pos) := by
  have hpos : pos<J.maxlen := lt_of_readLog hdata
  have hnext : AtBlock J (wrap P J ((pos+1)%2^64)) (following J pos) := atBlock_following hpos
  rw [PassState.advance,h.2 hpos]
  exact hnext

/-- Going over the end of the log once does not leave the range of block numbers,
not even with a first block behind the end and the copies of a whole descriptor. -/
def Wrappable (J : Journal) : Prop := J.first+(J.first-J.maxlen)+J.blocksize≤2^32

/-- The next block to read, if it lies on the ring, is the one at a position. -/
def Lands (J : Journal) (v pos : ℕ) : Prop := v%2^32<J.maxlen → v=pos ∧ v<J.maxlen

theorem AtBlock.lands {v pos : ℕ} (h : AtBlock J v pos) : Lands J v pos := by
  intro hlt
  rw [h.1] at hlt
  rw [h.2 hlt]
  exact ⟨rfl,hlt⟩

/-- A block that is read where a pass has landed is the one at the position. -/
theorem Lands.read {disk : ℕ → Block} {v pos : ℕ} {data : Block} (h : Lands J v pos)
    (hread : jread J disk v=.ok data) : v=pos ∧ v < J.maxlen ∧ readLog J disk pos=some data := by
  have hlog := jread_eq_ok.mp hread
  obtain ⟨hpos,hv⟩ := h (lt_of_readLog hlog)
  have hmaxlen := J.maxlen_lt
  rw [Nat.mod_eq_of_lt (by omega),hpos] at hlog
  exact ⟨hpos,hv,hlog⟩

/-- Positions before the end of the ring are consecutive. -/
theorem positionAfter_of_lt {count pos : ℕ} (h : pos+count<J.maxlen) :
    positionAfter J count pos=pos+count := by
  induction count generalizing pos with
  | zero => rfl
  | succ count ih =>
    have hnext : following J pos=pos+1 := by
      rw [following,if_pos (by omega)]
    rw [positionAfter_succ,hnext,ih (by omega)]
    omega

/-- Going over the end of the ring continues at its first block. -/
theorem positionAfter_of_ge {count pos : ℕ} (hpos : pos<J.maxlen) (h : J.maxlen≤pos+count) :
    positionAfter J count pos=positionAfter J (pos+count-J.maxlen) J.first := by
  induction count generalizing pos with
  | zero => omega
  | succ count ih =>
    rw [positionAfter_succ]
    by_cases hin : pos+1<J.maxlen
    · have hnext : following J pos=pos+1 := by
        rw [following,if_pos hin]
      rw [hnext,ih hin (by omega)]
      congr 1
      omega
    · have hnext : following J pos=J.first := by
        rw [following,if_neg hin]
      rw [hnext]
      congr 1
      omega

/-- A block number behind a log whose first block lies at or behind its end stays
behind it. -/
theorem wrap_behind {var : ℕ} (hge : J.maxlen≤J.first) (hvar : J.maxlen≤var%2^32)
    (hlt : var<2^64) (hroom : var%2^32+(J.first-J.maxlen)<2^32) :
    wrap P J var%2^32=var%2^32+(J.first-J.maxlen) := by
  have hmod := Nat.mod_le var (2^32)
  rw [wrap,if_pos (by omega),ringLength]
  by_cases hle : J.first≤J.maxlen
  · rw [if_pos hle]
    omega
  · rw [if_neg hle]
    rcases P.ulongBits_eq with h | h <;> rw [h] <;> omega

/-- Wrapping once over all copies of a descriptor ends where wrapping after each of
them does, if it ends on the ring. -/
theorem lands_positionAfter {v count : ℕ} (hJ : Wrappable J) (hv : v<J.maxlen)
    (hcount : count<J.blocksize) :
    Lands J (wrap P J ((wrap P J ((v+1)%2^64)+count)%2^64))
      (positionAfter J count (following J v)) := by
  have hmaxlen := J.maxlen_lt
  have hroom : J.first+(J.first-J.maxlen)+J.blocksize≤2^32 := hJ
  have hat : AtBlock J (wrap P J ((v+1)%2^64)) (following J v) := atBlock_following hv
  intro hlt
  by_cases hbelow : following J v<J.maxlen
  · have hsum : (following J v+count)%2^64=following J v+count := Nat.mod_eq_of_lt (by omega)
    rw [hat.2 hbelow,hsum] at hlt ⊢
    by_cases hin : following J v+count<J.maxlen
    · rw [wrap,if_neg (by omega),positionAfter_of_lt hin]
      exact ⟨rfl,hin⟩
    · by_cases hle : J.first≤J.maxlen
      · rw [wrap_of_le hle (by omega) (by omega)] at hlt ⊢
        rw [Nat.mod_eq_of_lt (by omega)] at hlt
        rw [positionAfter_of_ge hbelow (by omega),positionAfter_of_lt (by omega)]
        exact ⟨rfl,hlt⟩
      · rw [wrap_behind (by omega) (by omega) (by omega) (by omega)] at hlt
        omega
  · have hfollowing : following J v=J.first := by
      rw [following] at hbelow ⊢
      by_cases hin : v+1<J.maxlen
      · rw [if_pos hin] at hbelow
        exact absurd hin hbelow
      · rw [if_neg hin]
    rw [hfollowing] at hat hbelow
    have hat' := hat.1
    have hsum : (wrap P J ((v+1)%2^64)+count)%2^64%2^32=J.first+count := by
      omega
    rw [wrap_behind (by omega) (by omega) (Nat.mod_lt _ (by omega)) (by omega)] at hlt
    omega

/-- A descriptor has fewer tags than its block has bytes. -/
theorem countTags_lt (J : Journal) (data : Block) : countTags J data<J.blocksize := by
  have hsize := J.blocksize_ge
  have htags : ∀ offset, (tagsFrom J data offset).length≤J.blocksize-offset := by
    intro offset
    fun_induction tagsFrom J data offset with
    | case1 offset hfits flags next ih =>
      have hpos := journalTagBytes_pos J
      have hnext : offset+journalTagBytes J≤next := Nat.le_add_right _ _
      have htail : (if flags&&&jfsFlagLastTag≠0 then [] else tagsFrom J data next).length≤
          J.blocksize-next := by
        split
        · exact Nat.zero_le _
        · exact ih
      rw [List.length_cons]
      omega
    | case2 offset hfits => exact Nat.zero_le _
  have hcount := htags 12
  rw [countTags,blockTags]
  omega

/-! ## Iterations -/

/-- The effect of a block of a given kind. -/
def kindStep (P : Platform) (J : Journal) (pass : PassType) (kind : BlockKind) (data : Block)
    (s : PassState) : PassState :=
  match kind with
  | .descriptor => descriptorBlock P J pass data s
  | .commit => commitBlock J pass data s
  | .revoke => revokeBlock P J pass data s

/-- A pass other than the scan stops at the end of the recovery. -/
theorem passStep_stop (hpass : pass≠.scan)
    (hstop : tidGeq s.nextCommitId s.endTransaction=true) : passStep P J pass s=.done s := by
  rw [passStep,if_pos ⟨hpass,hstop⟩]

/-- An iteration that does not stop at once and reads a block acts on its kind. -/
theorem passStep_of_read {data : Block}
    (hgo : ¬(pass≠.scan ∧ tidGeq s.nextCommitId s.endTransaction))
    (hread : jread J s.disk s.nextLogBlock=.ok data) :
    passStep P J pass s=
      match kindOf s.nextCommitId data with
      | none => .done (s.advance P J 1)
      | some kind => .next (kindStep P J pass kind data (s.advance P J 1)) := by
  rw [passStep,if_neg hgo,hread]
  by_cases hmagic : ntohlAt data 0=jfsMagicNumber
  · by_cases hsequence : ntohlAt data 8=s.nextCommitId
    · by_cases hdescriptor : ntohlAt data 4=1
      · simp [kindOf,kindStep,hmagic,hsequence,hdescriptor]
      · by_cases hcommit : ntohlAt data 4=2
        · simp [kindOf,kindStep,hmagic,hsequence,hcommit]
        · by_cases hrevoke : ntohlAt data 4=5
          · simp [kindOf,kindStep,hmagic,hsequence,hrevoke]
          · simp [kindOf,hmagic,hsequence,hdescriptor,hcommit,hrevoke]
    · simp [kindOf,hmagic,hsequence]
  · simp [kindOf,hmagic]

/-- At a block of the expected transaction an iteration acts on it. -/
theorem passStep_at_block {pos : ℕ} {block : LogBlock}
    (hgo : ¬(pass≠.scan ∧ tidGeq s.nextCommitId s.endTransaction))
    (hat : AtBlock J s.nextLogBlock pos)
    (hblock : blockAt (readLog J s.disk) s.nextCommitId pos=some block) :
    passStep P J pass s=.next (kindStep P J pass block.kind block.data (s.advance P J 1)) := by
  obtain ⟨hdata,hkind,-⟩ := blockAt_eq_some.mp hblock
  have hread : jread J s.disk s.nextLogBlock=.ok block.data := by
    rw [jread_eq_ok,hat.1,hdata]
  rw [passStep_of_read hgo hread,hkind]

/-- The state with which an iteration ends. -/
def PassStep.state : PassStep → PassState
  | .next s => s
  | .done s => s
  | .failed _ s => s

/-- The four ways an iteration can go. -/
theorem passStep_cases (P : Platform) (J : Journal) (pass : PassType) (s : PassState) :
    ((pass≠.scan ∧ tidGeq s.nextCommitId s.endTransaction) ∧ passStep P J pass s=.done s) ∨
      (¬(pass≠.scan ∧ tidGeq s.nextCommitId s.endTransaction) ∧
        ((∃ err, passStep P J pass s=.failed err s) ∨
          (∃ data, jread J s.disk s.nextLogBlock=.ok data ∧ kindOf s.nextCommitId data=none ∧
            passStep P J pass s=.done (s.advance P J 1)) ∨
          ∃ data kind, jread J s.disk s.nextLogBlock=.ok data ∧
            kindOf s.nextCommitId data=some kind ∧
            passStep P J pass s=.next (kindStep P J pass kind data (s.advance P J 1)))) := by
  by_cases hstop : pass≠.scan ∧ tidGeq s.nextCommitId s.endTransaction
  · exact Or.inl ⟨hstop,passStep_stop hstop.1 hstop.2⟩
  · refine Or.inr ⟨hstop,?_⟩
    cases hread : jread J s.disk s.nextLogBlock with
    | error err =>
      refine Or.inl ⟨err,?_⟩
      rw [passStep,if_neg hstop,hread]
    | ok data =>
      have hstep := passStep_of_read (P := P) hstop hread
      cases hkind : kindOf s.nextCommitId data with
      | none =>
        rw [hkind] at hstep
        exact Or.inr (Or.inl ⟨data,rfl,hkind,hstep⟩)
      | some kind =>
        rw [hkind] at hstep
        exact Or.inr (Or.inr ⟨data,kind,rfl,hkind,hstep⟩)

/-- What every iteration and the end of a pass preserve holds after the pass. -/
theorem runPass_invariant {I : PassState → Prop}
    (hstep : ∀ s, I s → I (PassStep.state (passStep P J pass s)))
    (hdone : ∀ s, I s → I (passDone pass s).2) (fuel : ℕ) (h : I s) :
    I (runPass P J pass fuel s).2 := by
  induction fuel generalizing s with
  | zero => exact h
  | succ fuel ih =>
    have hnext := hstep s h
    rw [runPass]
    cases hcase : passStep P J pass s with
    | next s' =>
      rw [hcase] at hnext
      exact ih hnext
    | done s' =>
      rw [hcase] at hnext
      exact hdone s' hnext
    | failed err s' =>
      rw [hcase] at hnext
      exact hnext

/-- What moving on and every kind of block preserve, an iteration preserves. -/
theorem passStep_invariant {I : PassState → Prop} (hadvance : ∀ s, I s → I (s.advance P J 1))
    (hkind : ∀ s kind data, I s → I (kindStep P J pass kind data s)) (s : PassState)
    (h : I s) : I (PassStep.state (passStep P J pass s)) := by
  rcases passStep_cases P J pass s with
    ⟨-,heq⟩ | ⟨-,⟨err,heq⟩ | ⟨data,-,-,heq⟩ | ⟨data,kind,-,-,heq⟩⟩ <;> rw [heq]
  · exact h
  · exact h
  · exact hadvance s h
  · exact hkind _ kind data (hadvance s h)

/-- Checksums are only summed up. -/
theorem checksumBlocks_frame (P : Platform) (J : Journal) (count : ℕ) (s : PassState) :
    (checksumBlocks P J count s).disk=s.disk ∧
      (checksumBlocks P J count s).endTransaction=s.endTransaction ∧
      (checksumBlocks P J count s).table=s.table ∧
      (checksumBlocks P J count s).nextCommitId=s.nextCommitId := by
  induction count generalizing s with
  | zero => exact ⟨rfl,rfl,rfl,rfl⟩
  | succ count ih =>
    rw [checksumBlocks]
    split
    · exact ⟨rfl,rfl,rfl,rfl⟩
    · exact ih _

/-- Scanning a block keeps the filesystem and the table. -/
theorem kindStep_scan_frame (P : Platform) (J : Journal) (kind : BlockKind) (data : Block)
    (s : PassState) :
    (kindStep P J .scan kind data s).disk=s.disk ∧
      (kindStep P J .scan kind data s).table=s.table ∧
      (s.endTransaction≠0 → (kindStep P J .scan kind data s).endTransaction=s.endTransaction) := by
  cases kind with
  | descriptor =>
    rw [kindStep,descriptorBlock]
    split
    · have hframe := checksumBlocks_frame P J (countTags J data)
        {s with crc32Sum := crc32Be s.crc32Sum data}
      exact ⟨hframe.1,hframe.2.2.1,fun _ => hframe.2.1⟩
    · exact ⟨rfl,rfl,fun _ => rfl⟩
  | commit =>
    rw [kindStep,commitBlock]
    split
    · split
      · exact ⟨rfl,rfl,fun _ => rfl⟩
      · rename_i hzero
        have hnone : s.endTransaction=0 := not_not.mp hzero
        refine ⟨?_,?_,fun hne => absurd hnone hne⟩ <;> split <;> [split;skip;split;skip] <;> rfl
    · exact ⟨rfl,rfl,fun _ => rfl⟩
  | revoke => exact ⟨rfl,rfl,fun _ => rfl⟩

/-- The passes that skip the copies of a descriptor: the revoke pass, and the scan of a
journal without checksums. -/
def Skipping (J : Journal) (pass : PassType) : Prop :=
  pass=.revoke ∨ (pass=.scan ∧ J.hasChecksum=false)

/-- A skipping pass goes on behind the block and counts commit blocks. -/
theorem kindStep_skipping (block : LogBlock) (hpass : Skipping J pass) (hJ : Wrappable J)
    (hv : s.nextLogBlock<J.maxlen) :
    let s' := kindStep P J pass block.kind block.data (s.advance P J 1)
    s'.nextCommitId=s.nextCommitId+UInt32.ofNat block.commits ∧
      Lands J s'.nextLogBlock (positionAfter J (block.length J) s.nextLogBlock) ∧
      s'.endTransaction=s.endTransaction := by
  obtain ⟨kind,data,place⟩ := block
  have hnext : Lands J (wrap P J ((s.nextLogBlock+1)%2^64)) (following J s.nextLogBlock) :=
    (atBlock_following hv).lands
  have hstay : s.nextCommitId=s.nextCommitId+UInt32.ofNat 0 := (UInt32.add_zero _).symm
  cases kind with
  | descriptor =>
    have hskip : descriptorBlock P J pass data (s.advance P J 1)=
        (s.advance P J 1).advance P J (countTags J data) := by
      rcases hpass with rfl | ⟨rfl,hchecksum⟩
      · rfl
      · rw [descriptorBlock,if_neg fun h => by rw [hchecksum] at h; exact absurd h.1 (by decide)]
    dsimp only [kindStep]
    rw [hskip]
    exact ⟨hstay,lands_positionAfter hJ hv (countTags_lt J data),rfl⟩
  | commit =>
    have hcount : commitBlock J pass data (s.advance P J 1)=
        {s.advance P J 1 with nextCommitId := s.nextCommitId+1} := by
      rcases hpass with rfl | ⟨rfl,hchecksum⟩
      · rfl
      · rw [commitBlock,if_neg fun h => by rw [hchecksum] at h; exact absurd h.2 (by decide)]
        rfl
    dsimp only [kindStep]
    rw [hcount]
    exact ⟨rfl,hnext,rfl⟩
  | revoke =>
    rcases hpass with rfl | ⟨rfl,-⟩
    · exact ⟨hstay,hnext,rfl⟩
    · exact ⟨hstay,hnext,rfl⟩

/-- The revoke pass keeps the filesystem and the end of the log. -/
theorem kindStep_revoke_frame (P : Platform) (J : Journal) (kind : BlockKind) (data : Block)
    (s : PassState) :
    (kindStep P J .revoke kind data s).disk=s.disk ∧
      (kindStep P J .revoke kind data s).endTransaction=s.endTransaction := by
  cases kind <;> exact ⟨rfl,rfl⟩

/-- A scan leaves the filesystem and the table alone. -/
theorem doOnePass_scan_frame (P : Platform) (J : Journal) (fuel : ℕ) (s : PassState) :
    (doOnePass P J .scan fuel s).2.disk=s.disk ∧ (doOnePass P J .scan fuel s).2.table=s.table := by
  refine runPass_invariant (I := fun t => t.disk=s.disk ∧ t.table=s.table) ?_ ?_ fuel ⟨rfl,rfl⟩
  · refine passStep_invariant (fun t ht => ht) ?_
    intro t kind data ht
    have hframe := kindStep_scan_frame P J kind data t
    exact ⟨hframe.1.trans ht.1,hframe.2.1.trans ht.2⟩
  · intro t ht
    rw [passDone,if_pos rfl]
    dsimp only
    split <;> exact ht

/-- The revoke pass leaves the filesystem and the end of the log alone. -/
theorem doOnePass_revoke_frame (P : Platform) (J : Journal) (fuel : ℕ) (s : PassState) :
    (doOnePass P J .revoke fuel s).2.disk=s.disk ∧
      (doOnePass P J .revoke fuel s).2.endTransaction=s.endTransaction := by
  refine runPass_invariant (I := fun t => t.disk=s.disk ∧ t.endTransaction=s.endTransaction)
    ?_ ?_ fuel ⟨rfl,rfl⟩
  · refine passStep_invariant (fun t ht => ht) ?_
    intro t kind data ht
    have hframe := kindStep_revoke_frame P J kind data t
    exact ⟨hframe.1.trans ht.1,hframe.2.trans ht.2⟩
  · intro t ht
    rw [passDone,if_neg (by decide)]
    split <;> exact ht

end AndroidPlatform.JournalPass
