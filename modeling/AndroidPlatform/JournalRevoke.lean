import AndroidPlatform.JournalLog
import Mathlib.Data.List.Induction

/-!
# The revoke table

The table keeps one record for each block number of the width of `unsigned long`,
with the latest transaction that was entered for it. A tag is suppressed exactly
by a record of its own or a later transaction whose block number agrees with the
tag's in that width. Block numbers of the log have up to sixty-four bits, so on a
narrow machine the records of one block also stand for others.
-/

namespace AndroidPlatform.JournalRevoke

open JournalRecovery JournalLog

variable {P : Platform}

/-- The transaction kept for a block number. -/
def lookup (P : Platform) (table : RevokeTable) (blocknr : ℕ) : Option UInt32 :=
  (findRevokeRecord P table blocknr).map RevokeRecord.sequence

theorem journalTestRevoke_eq (table : RevokeTable) (block : ℕ) (sequence : UInt32) :
    journalTestRevoke P table block sequence=
      (lookup P table (block%2^P.ulongBits)).any fun kept => !tidGt sequence kept := by
  rw [journalTestRevoke,lookup]
  cases findRevokeRecord P table (block%2^P.ulongBits) <;> rfl

theorem find_storeSequence_self {blocknr : ℕ} {sequence : UInt32} {bucket : List RevokeRecord}
    {record : RevokeRecord} (h : bucket.find? (fun r => r.blocknr=blocknr)=some record) :
    (storeSequence blocknr sequence bucket).find? (fun r => r.blocknr=blocknr)=
      some ⟨blocknr,sequence⟩ := by
  induction bucket with
  | nil => cases h
  | cons head tail ih =>
    rw [storeSequence]
    by_cases hhead : head.blocknr=blocknr
    · rw [if_pos hhead]
      simp
    · have htail : tail.find? (fun r => r.blocknr=blocknr)=some record := by
        simpa [hhead] using h
      rw [if_neg hhead,List.find?_cons_of_neg (by simpa using hhead)]
      exact ih htail

theorem find_storeSequence_other {blocknr other : ℕ} (sequence : UInt32)
    (bucket : List RevokeRecord) (hne : other≠blocknr) :
    (storeSequence blocknr sequence bucket).find? (fun r => r.blocknr=other)=
      bucket.find? (fun r => r.blocknr=other) := by
  induction bucket with
  | nil => rfl
  | cons head tail ih =>
    rw [storeSequence]
    by_cases hhead : head.blocknr=blocknr
    · rw [if_pos hhead,List.find?_cons_of_neg (by simpa using Ne.symm hne),
        List.find?_cons_of_neg (by simpa [hhead] using Ne.symm hne)]
    · rw [if_neg hhead,List.find?_cons,List.find?_cons,ih]

/-- After a record its block number keeps the later of the two transactions. -/
theorem lookup_journalSetRevoke_self (table : RevokeTable) (block : ℕ) (sequence : UInt32) :
    lookup P (journalSetRevoke P table block sequence) (block%2^P.ulongBits)=
      some ((lookup P table (block%2^P.ulongBits)).elim sequence fun kept =>
        if tidGt sequence kept then sequence else kept) := by
  rw [journalSetRevoke]
  cases hfind : findRevokeRecord P table (block%2^P.ulongBits) with
  | none =>
    dsimp only
    rw [lookup,lookup,hfind,findRevokeRecord,insertRevokeHash,Function.update_self]
    simp
  | some record =>
    dsimp only
    by_cases hgt : tidGt sequence record.sequence=true
    · rw [if_pos hgt,lookup,lookup,hfind,findRevokeRecord,Function.update_self,
        find_storeSequence_self hfind]
      simp [hgt]
    · rw [if_neg hgt,lookup,hfind]
      simp [hgt]

/-- A record does not touch other block numbers. -/
theorem lookup_journalSetRevoke_other (table : RevokeTable) (block : ℕ) (sequence : UInt32)
    {other : ℕ} (hne : other≠block%2^P.ulongBits) :
    lookup P (journalSetRevoke P table block sequence) other=lookup P table other := by
  rw [journalSetRevoke]
  cases hfind : findRevokeRecord P table (block%2^P.ulongBits) with
  | none =>
    dsimp only
    rw [lookup,lookup,findRevokeRecord,findRevokeRecord,insertRevokeHash]
    by_cases hhash : P.hash other=P.hash (block%2^P.ulongBits)
    · rw [hhash,Function.update_self,List.find?_cons_of_neg (by simpa using Ne.symm hne)]
    · rw [Function.update_of_ne hhash]
  | some record =>
    dsimp only
    by_cases hgt : tidGt sequence record.sequence=true
    · rw [if_pos hgt,lookup,lookup,findRevokeRecord,findRevokeRecord]
      by_cases hhash : P.hash other=P.hash (block%2^P.ulongBits)
      · rw [hhash,Function.update_self,find_storeSequence_other sequence _ hne]
      · rw [Function.update_of_ne hhash]
    · rw [if_neg hgt]

/-- Fewer than half of all transactions apart, the comparison is that of the counts. -/
theorem tidGt_add (origin : UInt32) {i j : ℕ} (hi : i<2^31) (hj : j<2^31) :
    tidGt (origin+UInt32.ofNat i) (origin+UInt32.ofNat j)=decide (j < i) := by
  have hdiff := SerialNumber.difference_add origin.toBitVec hi hj
  have hvalue : SerialNumber.difference (origin+UInt32.ofNat i).toBitVec
      (origin+UInt32.ofNat j).toBitVec=(i : ℤ)-j := hdiff
  rw [tidGt,hvalue]
  exact decide_eq_decide.mpr (by omega)

/-- Enter the records of a log, whose transactions are counted from an origin. -/
def enterRecords (P : Platform) (origin : UInt32) (records : List (ℕ×ℕ)) (table : RevokeTable) :
    RevokeTable :=
  records.foldl
    (fun table record => journalSetRevoke P table record.2 (origin+UInt32.ofNat record.1)) table

theorem enterRecords_append (origin : UInt32) (first second : List (ℕ×ℕ)) (table : RevokeTable) :
    enterRecords P origin (first++second) table=
      enterRecords P origin second (enterRecords P origin first table) := List.foldl_append

/-- The records for a block number of the width of `unsigned long`. -/
def recordsFor (P : Platform) (records : List (ℕ×ℕ)) (blocknr : ℕ) : List (ℕ×ℕ) :=
  records.filter fun record => record.2%2^P.ulongBits=blocknr

/-- What the table keeps for a block number: nothing without a record for it, and
else the latest of its transactions. -/
def KeepsLatest (P : Platform) (origin : UInt32) (records : List (ℕ×ℕ)) (blocknr : ℕ)
    (kept : Option UInt32) : Prop :=
  (recordsFor P records blocknr=[] ∧ kept=none) ∨
    ∃ record∈recordsFor P records blocknr, kept=some (origin+UInt32.ofNat record.1) ∧
      ∀ other∈recordsFor P records blocknr, other.1≤record.1

theorem recordsFor_append (records : List (ℕ×ℕ)) (record : ℕ×ℕ) (blocknr : ℕ) :
    recordsFor P (records++[record]) blocknr=
      recordsFor P records blocknr++if record.2%2^P.ulongBits=blocknr then [record] else [] := by
  rw [recordsFor,List.filter_append]
  by_cases hkey : record.2%2^P.ulongBits=blocknr
  · simp [recordsFor,hkey]
  · simp [recordsFor,hkey]

/-- The table keeps the latest record, whatever the order is. -/
theorem lookup_enterRecords (origin : UInt32) (records : List (ℕ×ℕ)) (blocknr : ℕ)
    (hlt : ∀ record∈records, record.1<2^31) :
    KeepsLatest P origin records blocknr
      (lookup P (enterRecords P origin records fun _ => []) blocknr) := by
  induction records using List.reverseRecOn with
  | nil => exact Or.inl ⟨rfl,rfl⟩
  | append_singleton earlier record ih =>
    have hearlier : ∀ r∈earlier, r.1<2^31 := fun r hr => hlt r (List.mem_append_left _ hr)
    have hrecord : record.1<2^31 := hlt record (by simp)
    have hih := ih hearlier
    have hstep : enterRecords P origin (earlier++[record]) (fun _ => [])=
        journalSetRevoke P (enterRecords P origin earlier fun _ => []) record.2
          (origin+UInt32.ofNat record.1) := enterRecords_append origin earlier [record] _
    rw [hstep]
    unfold KeepsLatest
    rw [recordsFor_append]
    by_cases hkey : record.2%2^P.ulongBits=blocknr
    · rw [if_pos hkey]
      subst hkey
      rw [lookup_journalSetRevoke_self]
      refine Or.inr ?_
      rcases hih with ⟨hnone,hlookup⟩|⟨kept,hkept,hlookup,hmax⟩
      · rw [hnone,hlookup]
        refine ⟨record,by simp,rfl,fun other hother => ?_⟩
        rw [List.mem_singleton.mp hother]
      · have hkeptlt := hearlier kept (List.mem_of_mem_filter hkept)
        rw [hlookup,Option.elim_some,tidGt_add origin hrecord hkeptlt]
        by_cases hless : kept.1 < record.1
        · refine ⟨record,by simp,by rw [if_pos (decide_eq_true hless)],fun other hother => ?_⟩
          rcases List.mem_append.mp hother with hin|hin
          · exact (hmax other hin).trans hless.le
          · rw [List.mem_singleton.mp hin]
        · refine ⟨kept,List.mem_append_left _ hkept,by rw [if_neg (by simpa using hless)],
            fun other hother => ?_⟩
          rcases List.mem_append.mp hother with hin|hin
          · exact hmax other hin
          · rw [List.mem_singleton.mp hin]
            exact Nat.not_lt.mp hless
    · rw [if_neg hkey,List.append_nil,lookup_journalSetRevoke_other _ _ _ (Ne.symm hkey)]
      exact hih

/-- A tag is suppressed exactly by a record of its own or a later transaction whose
block number agrees with the tag's in the width of `unsigned long`. -/
theorem journalTestRevoke_enterRecords (origin : UInt32) {records : List (ℕ×ℕ)} (block : ℕ)
    {i : ℕ} (hlt : ∀ record∈records, record.1<2^31) (hi : i<2^31) :
    journalTestRevoke P (enterRecords P origin records fun _ => []) block
        (origin+UInt32.ofNat i)=true ↔
      ∃ record∈records, record.2%2^P.ulongBits=block%2^P.ulongBits ∧ i ≤ record.1 := by
  have hmem : ∀ record, record∈recordsFor P records (block%2^P.ulongBits) ↔
      record∈records ∧ record.2%2^P.ulongBits=block%2^P.ulongBits := by
    intro record
    simp [recordsFor]
  rw [journalTestRevoke_eq]
  rcases lookup_enterRecords origin records (block%2^P.ulongBits) hlt with
    ⟨hnone,hlookup⟩|⟨kept,hkept,hlookup,hmax⟩
  · rw [hlookup]
    constructor
    · intro h
      cases h
    · rintro ⟨record,hrecord,hkey,-⟩
      have hin := (hmem record).mpr ⟨hrecord,hkey⟩
      rw [hnone] at hin
      cases hin
  · obtain ⟨hkeptmem,hkeptkey⟩ := (hmem kept).mp hkept
    rw [hlookup,Option.any_some,tidGt_add origin hi (hlt kept hkeptmem)]
    constructor
    · intro h
      exact ⟨kept,hkeptmem,hkeptkey,by simpa using h⟩
    · rintro ⟨record,hrecord,hkey,hle⟩
      have hlatest := hmax record ((hmem record).mpr ⟨hrecord,hkey⟩)
      simpa using hle.trans hlatest

/-! ## One record for each block -/

/-- No two places of the table have records of the same block. -/
def OneRecordEach (table : RevokeTable) : Prop :=
  ∀ (h h' i i' : ℕ) (record record' : RevokeRecord), (table h)[i]?=some record →
    (table h')[i']?=some record' → record.blocknr=record'.blocknr → h=h' ∧ i=i'

/-- Every record is in the bucket of its block, and a bucket has the records of
different blocks. -/
structure Bucketed (P : Platform) (table : RevokeTable) : Prop where
  /-- Records are where `find_revoke_record` looks for them. -/
  hash : ∀ h, ∀ record∈table h, P.hash record.blocknr=h
  /-- Blocks of one bucket are different. -/
  distinct : ∀ h, ((table h).map RevokeRecord.blocknr).Nodup

theorem Bucketed.oneRecordEach {table : RevokeTable} (h : Bucketed P table) :
    OneRecordEach table := by
  intro h₁ h₂ i j record record' hi hj hsame
  have hbucket : h₁=h₂ := by
    rw [←h.hash h₁ record (List.mem_of_getElem? hi),←h.hash h₂ record' (List.mem_of_getElem? hj),
      hsame]
  subst hbucket
  refine ⟨rfl,?_⟩
  have hmap : ((table h₁).map RevokeRecord.blocknr)[i]?=
      ((table h₁).map RevokeRecord.blocknr)[j]? := by
    rw [List.getElem?_map,List.getElem?_map,hi,hj,Option.map_some,Option.map_some,hsame]
  have hlt : i < ((table h₁).map RevokeRecord.blocknr).length := by
    rw [List.length_map]
    exact (List.getElem?_eq_some_iff.mp hi).1
  exact (List.getElem?_inj hlt (h.distinct h₁)).mp hmap

theorem storeSequence_blocknr (blocknr : ℕ) (sequence : UInt32) (bucket : List RevokeRecord) :
    (storeSequence blocknr sequence bucket).map RevokeRecord.blocknr=
      bucket.map RevokeRecord.blocknr := by
  induction bucket with
  | nil => rfl
  | cons head tail ih =>
    rw [storeSequence]
    split
    · rename_i hhead
      rw [List.map_cons,List.map_cons,hhead]
    · rw [List.map_cons,List.map_cons,ih]

/-- A bucket with the blocks of another one in the same place of the table. -/
theorem Bucketed.update {table : RevokeTable} (h : Bucketed P table) {place : ℕ}
    {bucket : List RevokeRecord}
    (hhash : ∀ blocknr∈bucket.map RevokeRecord.blocknr, P.hash blocknr=place)
    (hdistinct : (bucket.map RevokeRecord.blocknr).Nodup) :
    Bucketed P (Function.update table place bucket) := by
  constructor
  · intro h₁ record hrecord
    by_cases hplace : h₁=place
    · rw [hplace,Function.update_self] at hrecord
      rw [hplace]
      exact hhash record.blocknr (List.mem_map_of_mem hrecord)
    · rw [Function.update_of_ne hplace] at hrecord
      exact h.hash h₁ record hrecord
  · intro h₁
    by_cases hplace : h₁=place
    · rw [hplace,Function.update_self]
      exact hdistinct
    · rw [Function.update_of_ne hplace]
      exact h.distinct h₁

theorem Bucketed.journalSetRevoke {table : RevokeTable} (h : Bucketed P table) (block : ℕ)
    (sequence : UInt32) : Bucketed P (journalSetRevoke P table block sequence) := by
  have hblocks : ∀ blocknr∈(table (P.hash (block%2^P.ulongBits))).map RevokeRecord.blocknr,
      P.hash blocknr=P.hash (block%2^P.ulongBits) := by
    intro blocknr hblocknr
    obtain ⟨record,hrecord,rfl⟩ := List.mem_map.mp hblocknr
    exact h.hash _ record hrecord
  rw [JournalRecovery.journalSetRevoke]
  cases hfind : findRevokeRecord P table (block%2^P.ulongBits) with
  | none =>
    dsimp only
    refine h.update ?_ ?_
    · intro blocknr hblocknr
      rw [List.map_cons] at hblocknr
      rcases List.mem_cons.mp hblocknr with rfl|hin
      · rfl
      · exact hblocks blocknr hin
    · rw [List.map_cons,List.nodup_cons]
      refine ⟨fun hin => ?_,h.distinct _⟩
      obtain ⟨record,hrecord,hsame⟩ := List.mem_map.mp hin
      have hno := List.find?_eq_none.mp hfind record hrecord
      exact hno (decide_eq_true hsame)
  | some record =>
    dsimp only
    split
    · refine h.update ?_ ?_
      · rw [storeSequence_blocknr]
        exact hblocks
      · rw [storeSequence_blocknr]
        exact h.distinct _
    · exact h

theorem Bucketed.enterRecords {table : RevokeTable} (h : Bucketed P table) (origin : UInt32)
    (records : List (ℕ×ℕ)) : Bucketed P (enterRecords P origin records table) := by
  induction records generalizing table with
  | nil => exact h
  | cons record records ih => exact ih (h.journalSetRevoke _ _)

theorem bucketed_empty (P : Platform) : Bucketed P (fun _ => []) :=
  ⟨(fun _ _ h => by cases h),fun _ => List.nodup_nil⟩

/-! ## Block numbers of the log -/

/-- Width of the block numbers in the log. -/
def blockBits (has64bit : Bool) : ℕ := if has64bit then 64 else 32

/-- After a sequence of calls of `journal_set_revoke` the answers for all blocks
that the log can name are those of the calls, and no block has two records. -/
def TableCorrect (P : Platform) (has64bit : Bool) (origin : UInt32) (calls : List (ℕ×ℕ)) : Prop :=
  (∀ block<2^blockBits has64bit, ∀ i<2^31,
    journalTestRevoke P (enterRecords P origin calls fun _ => []) block (origin+UInt32.ofNat i)=
      true ↔ ∃ call∈calls, call.2=block ∧ i ≤ call.1) ∧
    OneRecordEach (enterRecords P origin calls fun _ => [])

/-- Every block that agrees with a called one in the width of `unsigned long` is
called for itself, in the same or a later transaction. -/
def AliasesCalled (P : Platform) (has64bit : Bool) (calls : List (ℕ×ℕ)) : Prop :=
  ∀ call∈calls, ∀ block<2^blockBits has64bit, block%2^P.ulongBits=call.2%2^P.ulongBits →
    ∃ own∈calls, own.2=block ∧ call.1≤own.1

/-- Where `unsigned long` has the width of the block numbers, only the called block
agrees with itself. -/
theorem aliasesCalled_of_wide {has64bit : Bool} {calls : List (ℕ×ℕ)}
    (hbits : blockBits has64bit ≤ P.ulongBits)
    (hblocks : ∀ call∈calls, call.2<2^blockBits has64bit) : AliasesCalled P has64bit calls := by
  intro call hcall block hblock hsame
  have hwidth : 2^blockBits has64bit≤2^P.ulongBits := Nat.pow_le_pow_right (by decide) hbits
  rw [Nat.mod_eq_of_lt (hblock.trans_le hwidth),
    Nat.mod_eq_of_lt ((hblocks call hcall).trans_le hwidth)] at hsame
  exact ⟨call,hcall,hsame.symm,le_refl _⟩

/-- The table is correct exactly if no block that was not called agrees with a
called one. -/
theorem tableCorrect_iff (P : Platform) (has64bit : Bool) (origin : UInt32)
    {calls : List (ℕ×ℕ)} (hwindow : ∀ call∈calls, call.1<2^31) :
    TableCorrect P has64bit origin calls ↔ AliasesCalled P has64bit calls := by
  constructor
  · rintro ⟨hanswers,-⟩ call hcall block hblock hsame
    refine (hanswers block hblock call.1 (hwindow call hcall)).mp ?_
    rw [journalTestRevoke_enterRecords origin block hwindow (hwindow call hcall)]
    exact ⟨call,hcall,hsame.symm,le_refl _⟩
  · intro haliases
    refine ⟨fun block hblock i hi => ?_,((bucketed_empty P).enterRecords origin calls).oneRecordEach⟩
    rw [journalTestRevoke_enterRecords origin block hwindow hi]
    constructor
    · rintro ⟨call,hcall,hkey,hle⟩
      obtain ⟨own,hown,hsame,hlater⟩ := haliases call hcall block hblock hkey.symm
      exact ⟨own,hown,hsame,hle.trans hlater⟩
    · rintro ⟨call,hcall,hsame,hle⟩
      exact ⟨call,hcall,by rw [hsame],hle⟩

/-- Two calls on a machine with an `unsigned long` of sixty-four bits, the later
transaction first. -/
theorem tableCorrect_iff_wide :
    TableCorrect ⟨64,Or.inr rfl,fun block => block%256,fun _ _ => 0⟩ true 7 [(2,5),(1,2^32+5)] ↔
      AliasesCalled ⟨64,Or.inr rfl,fun block => block%256,fun _ _ => 0⟩ true [(2,5),(1,2^32+5)] :=
  tableCorrect_iff _ true 7 (by decide)

/-- On a machine with an `unsigned long` of thirty-two bits a call for block
2^32+5 revokes block 5. -/
theorem not_tableCorrect_narrow :
    ¬TableCorrect ⟨32,Or.inl rfl,fun block => block%256,fun _ _ => 0⟩ true 7 [(0,2^32+5)] := by
  rintro ⟨hanswers,-⟩
  have hfive := (hanswers 5 (by decide) 0 (by decide)).mp (by decide)
  obtain ⟨call,hcall,hsame,-⟩ := hfive
  rw [List.mem_singleton.mp hcall] at hsame
  exact absurd hsame (by decide)

end AndroidPlatform.JournalRevoke
