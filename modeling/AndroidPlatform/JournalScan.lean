import AndroidPlatform.JournalPass

/-!
# The scan of a journal without checksums

A scan that succeeds has seen every transaction that is committed, and the end
of the recovery is the identifier behind the last of them.
-/

namespace AndroidPlatform.JournalScan

open JournalRecovery JournalLog JournalPass

variable {P : Platform} {J : Journal} {s : PassState} {pos : ℕ}

/-- A scan that ends sets the end of the recovery behind the transactions it has seen. -/
theorem passDone_scan (hnone : s.endTransaction=0) :
    (passDone .scan s).2.endTransaction=s.nextCommitId := by
  rw [passDone,if_pos rfl]
  dsimp only
  rw [if_pos hnone]

/-- The scan finds all committed transactions. -/
theorem runPass_scan (hJ : Wrappable J) (hchecksum : J.hasChecksum=false) (fuel : ℕ)
    (hat : Lands J s.nextLogBlock pos) (hnone : s.endTransaction=0)
    (hok : (runPass P J .scan fuel s).1=some none) :
    ∃ count blocks, AllCommitted J (readLog J s.disk) count s.nextCommitId pos blocks ∧
      (runPass P J .scan fuel s).2.endTransaction=s.nextCommitId+UInt32.ofNat count := by
  induction fuel generalizing s pos with
  | zero => cases hok
  | succ fuel ih =>
    rw [runPass] at hok ⊢
    rcases passStep_cases P J .scan s with
      ⟨hstop,-⟩ | ⟨-,⟨err,heq⟩ | ⟨data,hread,hkind,heq⟩ | ⟨data,kind,hread,hkind,heq⟩⟩
    · exact absurd rfl hstop.1
    · rw [heq] at hok
      cases hok
    · obtain ⟨-,-,hlog⟩ := hat.read hread
      have hblock : blockAt (readLog J s.disk) s.nextCommitId pos=none := by
        rw [blockAt,hlog,Option.bind_some,hkind]
        rfl
      refine ⟨0,[],allCommitted_nil hblock,?_⟩
      rw [heq]
      dsimp only
      rw [passDone_scan (s := s.advance P J 1) hnone]
      exact (UInt32.add_zero _).symm
    · obtain ⟨hpos,hv,hlog⟩ := hat.read hread
      let block : LogBlock := ⟨kind,data,pos⟩
      have hblock : blockAt (readLog J s.disk) s.nextCommitId pos=some block :=
        blockAt_eq_some.mpr ⟨hlog,hkind,rfl⟩
      obtain ⟨hcommit,hlands,hend⟩ := kindStep_skipping (P := P) block (Or.inr ⟨rfl,hchecksum⟩)
        hJ hv
      have hdisk := (kindStep_scan_frame P J kind data (s.advance P J 1)).1
      rw [heq] at hok ⊢
      obtain ⟨count,blocks,hall,hfinal⟩ := ih hlands (hend.trans hnone) hok
      rw [hdisk,hcommit,hpos] at hall
      obtain ⟨blocks',hall'⟩ := exists_allCommitted_cons hblock hall
      refine ⟨count+block.commits,blocks',hall',hfinal.trans ?_⟩
      rw [hcommit,UInt32.add_assoc,←UInt32.ofNat_add,Nat.add_comm]

/-- The scan of a journal that starts somewhere. -/
theorem doOnePass_scan (hJ : Wrappable J) (hchecksum : J.hasChecksum=false) {fuel : ℕ}
    (hnone : s.endTransaction=0) (hok : (doOnePass P J .scan fuel s).1=some none) :
    ∃ count blocks, AllCommitted J (readLog J s.disk) count J.sequence J.start blocks ∧
      ((doOnePass P J .scan fuel s).2.endTransaction-J.sequence).toNat=count := by
  have hscan : ∃ count blocks, AllCommitted J (readLog J s.disk) count J.sequence J.start blocks ∧
      (doOnePass P J .scan fuel s).2.endTransaction=J.sequence+UInt32.ofNat count :=
    runPass_scan hJ hchecksum fuel (atBlock_of_lt J.start_lt).lands (by exact hnone) hok
  obtain ⟨count,blocks,hall,hend⟩ := hscan
  refine ⟨count,blocks,hall,?_⟩
  have hcount := hall.1.count_lt
  rw [hend,UInt32.add_comm,UInt32.add_sub_cancel,UInt32.toNat_ofNat_of_lt' hcount]

end AndroidPlatform.JournalScan
