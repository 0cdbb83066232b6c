import AndroidPlatform.JournalReplay

/-!
# What the loops over a log block read

The loops over descriptor and revoke blocks, over a block that has no bytes but
its own: an access to any other byte fails. The loops over tags are bounded by the
size of the block. The loop over revoke records is bounded by the number that the
block itself gives, which nothing compares with that size.
-/

namespace AndroidPlatform.JournalBounds

open WireBytes JournalRecovery JournalLog JournalReplay

variable {P : Platform} {J : Journal} {data : Block}

/-- A value that is read from some bytes of a block, if the block has them. -/
def access {α : Type} (J : Journal) (offset count : ℕ) (value : α) : Option α :=
  if offset+count≤J.blocksize then some value else none

/-- Behind a tag, with its identifier unless it is that of the last tag. -/
def nextTag (J : Journal) (offset : ℕ) (flags : UInt32) : ℕ :=
  offset+journalTagBytes J+(if flags&&&jfsFlagSameUuid=0 then 16 else 0)

/-- The loop of `count_tags` from an offset on. -/
def countTagsFrom (J : Journal) (data : Block) (offset : ℕ) : Option ℕ :=
  if offset+journalTagBytes J≤J.blocksize then
    (access J (offset+4) 4 (ntohlAt data (offset+4))).bind fun flags =>
      if flags&&&jfsFlagLastTag≠0 then some 1
      else (countTagsFrom J data (nextTag J offset flags)).map (·+1)
  else some 0
termination_by J.blocksize-offset
decreasing_by
  have hpos := journalTagBytes_pos J
  simp only [nextTag]
  omega

/-- `read_tag_block` -/
def accessTagBlock (J : Journal) (data : Block) (offset : ℕ) : Option ℕ :=
  if 8 < journalTagBytes J then
    (access J offset 4 (ntohlAt data offset)).bind fun low =>
      (access J (offset+8) 4 (ntohlAt data (offset+8))).map fun high =>
        low.toNat ||| (high.toNat <<< 32)
  else (access J offset 4 (ntohlAt data offset)).map UInt32.toNat

/-- The loop of the replay pass over the tags from an offset on. The block number
is read where the copy could be read. -/
def replayTagsFrom (P : Platform) (J : Journal) (data : Block) (offset : ℕ) (s : PassState) :
    Option PassState :=
  if offset+journalTagBytes J≤J.blocksize then
    (access J (offset+4) 4 (ntohlAt data (offset+4))).bind fun flags =>
      let blocknr :=
        match jread J s.disk s.nextLogBlock with
        | .error _ => some 0
        | .ok _ => accessTagBlock J data offset
      blocknr.bind fun blocknr =>
        let s := replayTag P J s ⟨blocknr,flags⟩
        if flags&&&jfsFlagLastTag≠0 then some s
        else replayTagsFrom P J data (nextTag J offset flags) s
  else some s
termination_by J.blocksize-offset
decreasing_by
  have hpos := journalTagBytes_pos J
  simp only [nextTag]
  omega

/-- The loop of `scan_revoke_records` from an offset on. -/
def scanRecordsFrom (P : Platform) (J : Journal) (data : Block) (sequence : UInt32) (max : ℕ)
    (offset : ℕ) (table : RevokeTable) : Option RevokeTable :=
  if offset < max then
    (access J offset (recordLen J) (loggedRecord J data offset)).bind fun blocknr =>
      scanRecordsFrom P J data sequence max (offset+recordLen J)
        (journalSetRevoke P table blocknr sequence)
  else some table
termination_by max-offset
decreasing_by
  have hpos := recordLen_pos J
  omega

/-- `scan_revoke_records`, with `r_count` as a signed number. -/
def scanRevokeBlock (P : Platform) (J : Journal) (data : Block) (sequence : UInt32)
    (table : RevokeTable) : Option RevokeTable :=
  (access J 12 4 (ntohlAt data 12)).bind fun count =>
    scanRecordsFrom P J data sequence count.toBitVec.toInt.toNat 16 table

/-! ## Tags -/

theorem journalTagBytes_ge (J : Journal) : 8≤journalTagBytes J := by
  rw [journalTagBytes]
  split <;> omega

theorem access_eq_some {α : Type} {offset count : ℕ} {value : α}
    (h : offset+count≤J.blocksize) : access J offset count value=some value := if_pos h

/-- `count_tags` reads the flags of the tags that it counts, and no byte behind
the block. -/
theorem countTagsFrom_eq (J : Journal) (data : Block) (offset : ℕ) :
    countTagsFrom J data offset=some (tagsFrom J data offset).length := by
  fun_induction tagsFrom J data offset with
  | case1 offset hfits flags following ih =>
    have hbytes := journalTagBytes_ge J
    rw [countTagsFrom,if_pos hfits,access_eq_some (by omega),Option.bind_some]
    by_cases hlast : flags&&&jfsFlagLastTag≠0
    · rw [if_pos hlast,if_pos hlast]
      rfl
    · rw [if_neg hlast,if_neg hlast,List.length_cons]
      have hrest := ih
      rw [show nextTag J offset flags=following from rfl,hrest]
      rfl
  | case2 offset hfits =>
    rw [countTagsFrom,if_neg hfits]
    rfl

theorem accessTagBlock_eq (offset : ℕ) (h : offset+journalTagBytes J≤J.blocksize) :
    accessTagBlock J data offset=some (readTagBlock J data offset) := by
  rw [accessTagBlock,readTagBlock]
  by_cases hwide : 8 < journalTagBytes J
  · have hbytes : journalTagBytes J=12 := by
      rw [journalTagBytes] at hwide ⊢
      split at hwide
      · rename_i h64
        rw [if_pos h64]
      · omega
    rw [if_pos hwide,if_pos hwide,access_eq_some (by omega),Option.bind_some,
      access_eq_some (by omega)]
    rfl
  · have hbytes := journalTagBytes_ge J
    rw [if_neg hwide,if_neg hwide,access_eq_some (by omega)]
    rfl

/-- Where the copy cannot be read, the tag does not matter. -/
theorem replayTag_of_error {s : PassState} {err : JournalError}
    (h : jread J s.disk s.nextLogBlock=.error err) (tag tag' : BlockTag) :
    replayTag P J s tag=replayTag P J s tag' := by
  rw [replayTag,replayTag,h]

/-- The replay pass reads no byte behind the block. -/
theorem replayTagsFrom_eq (P : Platform) (J : Journal) (data : Block) (offset : ℕ)
    (s : PassState) :
    replayTagsFrom P J data offset s=some ((tagsFrom J data offset).foldl (replayTag P J) s) := by
  fun_induction tagsFrom J data offset generalizing s with
  | case1 offset hfits flags following ih =>
    have hbytes := journalTagBytes_ge J
    have hrest : ∀ t : PassState,
        (if flags&&&jfsFlagLastTag≠0 then some t
          else replayTagsFrom P J data (nextTag J offset flags) t)=
        some ((if flags&&&jfsFlagLastTag≠0 then []
          else tagsFrom J data following).foldl (replayTag P J) t) := by
      intro t
      by_cases hlast : flags&&&jfsFlagLastTag≠0
      · rw [if_pos hlast,if_pos hlast]
        rfl
      · rw [if_neg hlast,if_neg hlast]
        exact ih t
    rw [replayTagsFrom,if_pos hfits,access_eq_some (by omega),Option.bind_some,List.foldl_cons]
    dsimp only
    cases hread : jread J s.disk s.nextLogBlock with
    | error err =>
      dsimp only
      rw [Option.bind_some,replayTag_of_error hread ⟨0,_⟩ ⟨readTagBlock J data offset,flags⟩]
      exact hrest _
    | ok copy =>
      dsimp only
      rw [accessTagBlock_eq offset hfits,Option.bind_some]
      exact hrest _
  | case2 offset hfits =>
    rw [replayTagsFrom,if_neg hfits]
    rfl

/-! ## Revoke records -/

theorem mem_recordOffsetsFrom {max offset o : ℕ} :
    o∈recordOffsetsFrom J max offset ↔ ∃ k, o=offset+k*recordLen J ∧ o < max := by
  fun_induction recordOffsetsFrom J max offset with
  | case1 offset hlt ih =>
    rw [List.mem_cons,ih]
    constructor
    · rintro (rfl|⟨k,rfl,hk⟩)
      · exact ⟨0,by omega,hlt⟩
      · exact ⟨k+1,by rw [Nat.succ_mul]; omega,hk⟩
    · rintro ⟨k,rfl,hk⟩
      cases k with
      | zero => exact Or.inl (by omega)
      | succ k => exact Or.inr ⟨k,by rw [Nat.succ_mul]; omega,hk⟩
  | case2 offset hge =>
    constructor
    · intro h
      cases h
    · rintro ⟨k,rfl,hk⟩
      omega

/-- The loop over the records succeeds exactly if they lie in the block. -/
theorem scanRecordsFrom_isSome {sequence : UInt32} {max offset : ℕ} {table : RevokeTable} :
    (scanRecordsFrom P J data sequence max offset table).isSome=true ↔
      ∀ o∈recordOffsetsFrom J max offset, o+recordLen J≤J.blocksize := by
  fun_induction recordOffsetsFrom J max offset generalizing table with
  | case1 offset hlt ih =>
    rw [scanRecordsFrom,if_pos hlt]
    by_cases hinside : offset+recordLen J≤J.blocksize
    · rw [access_eq_some hinside,Option.bind_some,ih]
      simp [hinside]
    · rw [access,if_neg hinside]
      simp [hinside]
  | case2 offset hge =>
    rw [scanRecordsFrom,if_neg hge]
    simp

/-- Records that lie in the block are entered as the code of the pass enters them. -/
theorem scanRecordsFrom_eq {sequence : UInt32} {max offset : ℕ} {table : RevokeTable}
    (h : ∀ o∈recordOffsetsFrom J max offset, o+recordLen J≤J.blocksize) :
    scanRecordsFrom P J data sequence max offset table=
      some ((recordOffsetsFrom J max offset).foldl
        (fun table o => journalSetRevoke P table (readRecord P J data o) sequence) table) := by
  fun_induction recordOffsetsFrom J max offset generalizing table with
  | case1 offset hlt ih =>
    have hinside := h offset List.mem_cons_self
    rw [scanRecordsFrom,if_pos hlt,access_eq_some hinside,Option.bind_some,List.foldl_cons,
      readRecord_of_le hinside]
    exact ih fun o ho => h o (List.mem_cons_of_mem _ ho)
  | case2 offset hge =>
    rw [scanRecordsFrom,if_neg hge]
    rfl

/-- Over records in the block the loop does what it does in the pass. -/
theorem scanRevokeBlock_eq {sequence : UInt32} {table : RevokeTable}
    (h : ∀ o∈recordOffsets J data, o+recordLen J≤J.blocksize) :
    scanRevokeBlock P J data sequence table=some (scanRevokeRecords P J data sequence table) := by
  have hsize := J.blocksize_ge
  rw [scanRevokeBlock,access_eq_some (by omega),Option.bind_some]
  exact scanRecordsFrom_eq h

/-! ## The count of a revoke block -/

/-- The loops read only bytes of the block, and the records are whole and in it. -/
structure ReadsInside (P : Platform) (J : Journal) (data : Block) : Prop where
  /-- `count_tags` -/
  countTags : (countTagsFrom J data 12).isSome=true
  /-- The loop of the replay pass. -/
  replayTags : ∀ s, (replayTagsFrom P J data 12 s).isSome=true
  /-- `scan_revoke_records` -/
  scanRecords : ∀ sequence table, (scanRevokeBlock P J data sequence table).isSome=true
  /-- The records that are processed. -/
  records : ∀ offset∈recordOffsets J data, offset+recordLen J≤J.blocksize

/-- The count of a revoke block is not behind the last whole record. -/
def CountInside (J : Journal) (data : Block) : Prop :=
  (ntohlAt data 12).toBitVec.toInt≤((16+recordLen J*((J.blocksize-16)/recordLen J) : ℕ) : ℤ)

theorem scanRevokeBlock_isSome {sequence : UInt32} {table : RevokeTable} :
    (scanRevokeBlock P J data sequence table).isSome=true ↔
      ∀ o∈recordOffsets J data, o+recordLen J≤J.blocksize := by
  have hsize := J.blocksize_ge
  rw [scanRevokeBlock,access_eq_some (by omega),Option.bind_some,scanRecordsFrom_isSome]
  rfl

/-- The records lie in the block exactly if their count does. -/
theorem records_inside_iff :
    (∀ o∈recordOffsets J data, o+recordLen J≤J.blocksize) ↔ CountInside J data := by
  have hsize := J.blocksize_ge
  have hpos := recordLen_pos J
  have hfit := Nat.div_mul_le_self (J.blocksize-16) (recordLen J)
  unfold CountInside recordOffsets
  rw [Nat.mul_comm (recordLen J)]
  generalize (ntohlAt data 12).toBitVec.toInt=max
  constructor
  · intro h
    by_contra hgt
    have hin := h (16+(J.blocksize-16)/recordLen J*recordLen J)
      (mem_recordOffsetsFrom.mpr ⟨_,rfl,by omega⟩)
    have hmore : (J.blocksize-16)/recordLen J+1≤(J.blocksize-16)/recordLen J := by
      rw [Nat.le_div_iff_mul_le hpos,Nat.succ_mul]
      omega
    omega
  · intro hle o ho
    obtain ⟨k,rfl,hk⟩ := mem_recordOffsetsFrom.mp ho
    have hlt : k*recordLen J < (J.blocksize-16)/recordLen J*recordLen J := by
      omega
    have hless := Nat.lt_of_mul_lt_mul_right hlt
    have hrecord := Nat.mul_le_mul_right (recordLen J) (Nat.succ_le_of_lt hless)
    rw [Nat.succ_mul] at hrecord
    omega

/-- Of a descriptor or revoke block only its own bytes are read, in whole records,
exactly if the count of the block is not behind its last record. -/
theorem readsInside_iff (P : Platform) (J : Journal) (data : Block) :
    ReadsInside P J data ↔ CountInside J data := by
  rw [←records_inside_iff]
  constructor
  · exact fun h => h.records
  · intro h
    refine ⟨?_,fun s => ?_,fun _ _ => scanRevokeBlock_isSome.mpr h,h⟩
    · rw [countTagsFrom_eq]
      rfl
    · rw [replayTagsFrom_eq]
      rfl

/-- A revoke block of 1024 bytes with a count of 1032. -/
def overlongRevoke : Block :=
  paddedBlock [0xc0,0x3b,0x39,0x98,0,0,0,5,0,0,0,7,0,0,4,8]

/-- The last record of that block is taken from the bytes behind it. -/
theorem not_readsInside_overlong : ¬ReadsInside widePlatform wideJournal overlongRevoke := by
  intro h
  have hcount : (ntohlAt overlongRevoke 12).toBitVec.toInt.toNat=1032 := by decide +kernel
  have hrecord : 1024∈recordOffsets wideJournal overlongRevoke := by
    rw [recordOffsets,hcount]
    exact mem_recordOffsetsFrom.mpr ⟨126,by decide,by decide⟩
  exact absurd (h.records 1024 hrecord) (by decide)

end AndroidPlatform.JournalBounds
