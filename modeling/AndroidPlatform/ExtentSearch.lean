import AndroidPlatform.ExtentTree

/-!
# The search in an extent tree

`ext2fs_extent_goto2` moves forward in a node until the next key is greater, goes down there
and starts again. What it finds at a level is the last entry of the whole level that does
not start after the block, or the first entry.
-/

namespace AndroidPlatform.ExtentSearch

open ExtentHandle ExtentTree SortedTable FloorSearch CInteger

/-! ## Moves of a handle that stands on an entry -/

/-- The second handle is the first one at another position. -/
structure Moved (before after : Handle) : Prop where
  fs : after.fs=before.fs
  iBlocks : after.iBlocks=before.iBlocks
  maxDepth : after.maxDepth=before.maxDepth
  root : (after.path 0).buf=(before.path 0).buf
  opened : Opened before → Opened after

theorem Moved.refl (handle : Handle) : Moved handle handle := ⟨rfl,rfl,rfl,rfl,id⟩

theorem Moved.trans {a b c : Handle} (h : Moved a b) (h' : Moved b c) : Moved a c :=
  ⟨h'.fs.trans h.fs,h'.iBlocks.trans h.iBlocks,h'.maxDepth.trans h.maxDepth,h'.root.trans h.root,
    fun ho => h'.opened (h.opened ho)⟩

/-- The handle stands on entry `i` of the node of its level. -/
structure At (handle : Handle) (i : ℕ) : Prop where
  onEntry : OnEntry handle
  tracks : Tracks handle.current i

/-- The second handle is the first one at entry `i` of the same node. -/
structure Shifted (before after : Handle) (i : ℕ) : Prop where
  at_entry : At after i
  moved : Moved before after
  level : after.level=before.level
  buf : after.current.buf=before.current.buf
  endBlk : after.current.endBlk=before.current.endBlk

theorem Shifted.trans {a b c : Handle} {i j : ℕ} (h : Shifted a b i) (h' : Shifted b c j) :
    Shifted a c j :=
  ⟨h'.at_entry,h.moved.trans h'.moved,h'.level.trans h.level,h'.buf.trans h.buf,
    h'.endBlk.trans h.endBlk⟩

theorem At.shifted {handle : Handle} {i : ℕ} (h : At handle i) : Shifted handle handle i :=
  ⟨h,Moved.refl _,rfl,rfl,rfl⟩

theorem At.slotAt {handle : Handle} {i : ℕ} (h : At handle i) :
    handle.slotAt handle.level=handle.current.buf.slot i := by
  rw [Handle.slotAt]
  change handle.current.buf.slot (handle.current.curr.getD 0)=_
  rw [h.tracks.curr]
  rfl

theorem extentGet_eq {op : Move} {handle after : Handle} {i : ℕ}
    (h : extentMove op handle=.ok () after) (hcurr : after.current.curr=some i) :
    extentGet op handle=.ok (after.extentAt i) after := by
  simp only [extentGet,h,hcurr]

/-- A step to another slot of the same node. -/
theorem At.setPath {handle : Handle} {i j : ℕ} {path : ExtentPath} (h : At handle i)
    (htracks : Tracks path j) (hbuf : path.buf=handle.current.buf)
    (hend : path.endBlk=handle.current.endBlk) :
    Shifted handle (handle.setPath handle.level path) j := by
  have hother : ∀ {k}, k<handle.level →
      (handle.setPath handle.level path).path k=handle.path k :=
    fun hk => setPath_path_of_ne handle path (by omega)
  have hpath0 : ((handle.setPath handle.level path).path 0).buf=(handle.path 0).buf := by
    by_cases hlevel : handle.level=0
    · have hself := setPath_path_self handle handle.level path
      rw [Handle.current] at hbuf
      rw [hlevel] at hself hbuf ⊢
      rw [hself,hbuf]
    · rw [hother (by omega)]
  refine ⟨⟨⟨h.onEntry.level_le,?_,?_⟩,?_⟩,⟨rfl,rfl,rfl,hpath0,?_⟩,rfl,?_,?_⟩
  · intro k hk
    by_cases heq : k=handle.level
    · rw [heq,setPath_path_self]
      exact ⟨j,htracks⟩
    · rw [hother (by simp only [setPath_level] at hk; omega)]
      exact h.onEntry.tracks hk
  · intro k hk
    simp only [setPath_level] at hk
    have hslot : (handle.setPath handle.level path).slotAt k=handle.slotAt k := by
      rw [Handle.slotAt,Handle.slotAt,hother hk]
    rw [hslot,setPath_fs,←h.onEntry.child hk]
    by_cases heq : k+1=handle.level
    · rw [heq,setPath_path_self]
      exact hbuf
    · rw [hother (by omega)]
  · rw [setPath_current]
    exact htracks
  · intro ho
    by_cases hlevel : handle.level=0
    · have hself := setPath_path_self handle handle.level path
      have hentries := htracks.entries
      have hmax := htracks.maxEntries
      rw [hlevel] at hself
      exact ⟨by rw [hlevel,hself]; exact hentries,by rw [hlevel,hself]; exact hmax⟩
    · have hroot := hother (show 0 < handle.level by omega)
      exact ⟨by rw [hroot]; exact ho.entries,by rw [hroot]; exact ho.maxEntries⟩
  · rw [setPath_current,hbuf]
  · rw [setPath_current,hend]

/-- `EXT2_EXTENT_NEXT_SIB` before the last entry. -/
theorem At.nextSib {handle : Handle} {i : ℕ} (h : At handle i) (hi : i+1 < handle.current.entries) :
    ∃ after, extentGet .nextSib handle=.ok (after.extentAt (i+1)) after ∧
      Shifted handle after (i+1) := by
  have hleft := h.tracks.left
  have hmove : ExtentHandle.nextSib handle=.ok () (handle.setPath handle.level
      {handle.current with
        curr := some (i+1), left := handle.current.left-1, visitNum := 0}) := by
    simp only [ExtentHandle.nextSib]
    rw [if_neg (by omega),h.tracks.curr]
  have htracks : Tracks {handle.current with
      curr := some (i+1), left := handle.current.left-1, visitNum := 0} (i+1) :=
    ⟨rfl,hi,h.tracks.entries,h.tracks.maxEntries,by simp only; push_cast; omega⟩
  have hshift := h.setPath htracks rfl rfl
  exact ⟨_,extentGet_eq hmove hshift.at_entry.tracks.curr,hshift⟩

/-- `EXT2_EXTENT_NEXT_SIB` on the last entry. -/
theorem At.nextSib_last {handle : Handle} {i : ℕ} (h : At handle i)
    (hi : handle.current.entries ≤ i+1) : extentGet .nextSib handle=.error .noNext handle := by
  have hleft := h.tracks.left
  have hmove : ExtentHandle.nextSib handle=.error .noNext handle := by
    simp only [ExtentHandle.nextSib]
    rw [if_pos (by omega)]
  simp only [extentGet,extentMove,hmove]

/-- `EXT2_EXTENT_PREV_SIB` after the first entry. -/
theorem At.prevSib {handle : Handle} {i : ℕ} (h : At handle (i+1)) :
    ∃ after, extentGet .prevSib handle=.ok (after.extentAt i) after ∧ Shifted handle after i := by
  have hleft := h.tracks.left
  have hlt := h.tracks.lt
  have hmove : ExtentHandle.prevSib handle=.ok () (handle.setPath handle.level
      {handle.current with
        curr := some i, left := handle.current.left+1
        visitNum := if handle.level < handle.maxDepth then 1 else handle.current.visitNum}) := by
    simp only [ExtentHandle.prevSib,h.tracks.curr]
    rw [if_neg (by push_cast at hleft; omega),Nat.add_sub_cancel]
  have htracks : Tracks {handle.current with
      curr := some i, left := handle.current.left+1
      visitNum := if handle.level < handle.maxDepth then 1 else handle.current.visitNum} i :=
    ⟨rfl,by simp only; omega,h.tracks.entries,h.tracks.maxEntries,
      by simp only; push_cast at hleft; omega⟩
  have hshift := h.setPath htracks rfl rfl
  exact ⟨_,extentGet_eq hmove hshift.at_entry.tracks.curr,hshift⟩

/-- `EXT2_EXTENT_PREV_SIB` on the first entry. -/
theorem At.prevSib_first {handle : Handle} (h : At handle 0) :
    extentGet .prevSib handle=.error .noPrev handle := by
  have hleft := h.tracks.left
  have hmove : ExtentHandle.prevSib handle=.error .noPrev handle := by
    simp only [ExtentHandle.prevSib,h.tracks.curr]
    rw [if_pos (by push_cast at hleft; omega)]
  simp only [extentGet,extentMove,hmove]

/-- Every block is read as it is on the device. -/
def Readable (fs : Filsys) : Prop := ∀ blk, fs.readBlk blk=.ok (fs.disk blk)

/-- A block that is read and has a valid header is the one on the device. -/
theorem readBlk_eq {fs : Filsys} {blk size : ℕ} {node : ExtentNode}
    (h : fs.readBlk blk=.ok node) (hverify : extentHeaderVerify node size=true) :
    node=fs.disk blk := by
  simp only [Filsys.readBlk] at h
  split at h
  · cases h
    simp [extentHeaderVerify,default,instInhabitedExtentNode.default,ext3ExtMagic] at hverify
  · split at h
    · cases h
    · cases h
      rfl

theorem readBlk_error {fs : Filsys} {blk : ℕ} {e : Errcode} (h : fs.readBlk blk=.error e) :
    e≠.recursion := by
  simp only [Filsys.readBlk] at h
  split at h
  · cases h
  · split at h
    · cases h
      exact Errcode.noConfusion
    · cases h

/-- The handle one level further down, at the first entry of a node. -/
def Handle.belowAt (handle : Handle) (i : ℕ) (node : ExtentNode) : Handle :=
  {handle.setPath (handle.level+1) (handle.current.below i node) with level := handle.level+1}

theorem At.below {handle : Handle} {i : ℕ} (h : At handle i) (hlt : handle.level < handle.maxDepth)
    {node : ExtentNode} (hnode : node=handle.fs.disk (handle.current.buf.slot i).eiLeaf)
    (hne : 0 < node.ehEntries.toNat) :
    At (Handle.belowAt handle i node) 0 ∧ Moved handle (Handle.belowAt handle i node) ∧
      (Handle.belowAt handle i node).current=handle.current.below i node := by
  have hother : ∀ {k}, k≤handle.level → (Handle.belowAt handle i node).path k=handle.path k :=
    fun hk => setPath_path_of_ne handle _ (by omega)
  have hself : (Handle.belowAt handle i node).path (handle.level+1)=handle.current.below i node :=
    setPath_path_self ..
  have htracks : Tracks (handle.current.below i node) 0 :=
    ⟨rfl,hne,rfl,rfl,by simp only [ExtentPath.below]; omega⟩
  have hroot := hother (Nat.zero_le _)
  refine ⟨⟨⟨hlt,?_,?_⟩,?_⟩,⟨rfl,rfl,rfl,?_,?_⟩,hself⟩
  · intro k hk
    by_cases heq : k=handle.level+1
    · rw [heq,hself]
      exact ⟨0,htracks⟩
    · have hle : k≤handle.level := by
        simp only [Handle.belowAt] at hk
        omega
      rw [hother hle]
      exact h.onEntry.tracks hle
  · intro k hk
    have hle : k≤handle.level := Nat.lt_succ_iff.mp hk
    have hslot : (Handle.belowAt handle i node).slotAt k=handle.slotAt k := by
      rw [Handle.slotAt,Handle.slotAt,hother hle]
    rw [hslot]
    by_cases heq : k=handle.level
    · rw [heq,hself,h.slotAt]
      exact hnode
    · rw [hother (by omega)]
      exact h.onEntry.child (by omega)
  · rw [Handle.current]
    change Tracks ((Handle.belowAt handle i node).path (handle.level+1)) 0
    rw [hself]
    exact htracks
  · rw [hroot]
  · intro ho
    exact ⟨by rw [hroot]; exact ho.entries,by rw [hroot]; exact ho.maxEntries⟩

/-- `EXT2_EXTENT_DOWN` to a node with a valid header, unless it cannot be read. -/
theorem At.goDown {handle : Handle} {i : ℕ} (h : At handle i)
    (hlt : handle.level < handle.maxDepth)
    (hverify : extentHeaderVerify (handle.fs.disk (handle.current.buf.slot i).eiLeaf)
      handle.fs.geometry.blocksize=true)
    (hne : 0 < (handle.fs.disk (handle.current.buf.slot i).eiLeaf).ehEntries.toNat) :
    (¬Readable handle.fs ∧ ∃ e after, e≠.recursion ∧ extentGet .down handle=.error e after) ∨
      ∃ after, extentGet .down handle=.ok (after.extentAt 0) after ∧ At after 0 ∧
        Moved handle after ∧ after.level=handle.level+1 ∧
        after.current.buf=handle.fs.disk (handle.current.buf.slot i).eiLeaf := by
  generalize hblk : (handle.current.buf.slot i).eiLeaf=blk at hverify hne ⊢
  have hlevel : ¬handle.maxDepth≤handle.level := by omega
  cases hread : handle.fs.readBlk blk with
  | error e =>
    refine Or.inl ⟨fun hall => ?_,e,handle,readBlk_error hread,?_⟩
    · rw [hall blk] at hread
      cases hread
    · simp only [extentGet,extentMove,ExtentHandle.goDown,h.tracks.curr,hblk,hread,if_neg hlevel]
  | ok node =>
    by_cases hnode : extentHeaderVerify node handle.fs.geometry.blocksize=true
    · have heq := readBlk_eq hread hnode
      rw [←heq] at hne ⊢
      obtain ⟨hat,hmoved,hcurrent⟩ := h.below hlt (by rw [hblk,heq]) hne
      refine Or.inr ⟨_,extentGet_eq ?_ hat.tracks.curr,hat,hmoved,rfl,?_⟩
      · simp only [extentMove,ExtentHandle.goDown,h.tracks.curr,hblk,hread,if_neg hlevel,
          if_pos hnode]
        rfl
      · rw [hcurrent]
        rfl
    · have hfail : extentGet .down handle=.error .headerBad
          (handle.setPath (handle.level+1) {handle.path (handle.level+1) with buf := node}) := by
        simp only [extentGet,extentMove,ExtentHandle.goDown,h.tracks.curr,hblk,hread,
          if_neg hlevel,if_neg hnode]
      refine Or.inl ⟨fun hall => ?_,_,_,Errcode.noConfusion,hfail⟩
      rw [hall blk] at hread
      cases hread
      exact hnode hverify

/-! ## The loop -/

/-- The loop from `go_down` on. -/
def descend (leafLevel blk : ℕ) (mid : Handle) : EStateM.Result Errcode Handle Unit :=
  match extentGet .down mid with
  | .error e handle => .error e handle
  | .ok extent handle => gotoLoop leafLevel blk extent handle

theorem gotoLoop_index {leafLevel blk : ℕ} {extent : Extent} {handle : Handle}
    (h : handle.level+leafLevel≠handle.maxDepth) :
    gotoLoop leafLevel blk extent handle=
      match indexStep blk handle with
      | .fail e handle => .error e handle
      | .again extent handle => gotoLoop leafLevel blk extent handle
      | .goDown mid => descend leafLevel blk mid := by
  rw [gotoLoop,if_neg h]
  split
  · rename_i hstep
    rw [hstep]
  · rename_i hstep
    rw [hstep]
  · rename_i hstep
    rw [hstep]
    simp only [descend]
    split
    · rename_i hget
      rw [hget]
    · rename_i hget
      rw [hget]

theorem gotoLoop_leaf {leafLevel blk : ℕ} {extent : Extent} {handle : Handle}
    (h : handle.level+leafLevel=handle.maxDepth) :
    gotoLoop leafLevel blk extent handle=
      if extent.eLblk≤blk ∧ blk<extent.eLblk+extent.eLen then .ok () handle
      else if blk<extent.eLblk then
        match extentGet .prevSib handle with
        | .error _ handle => .error .notFound handle
        | .ok _ handle => .error .notFound handle
      else
        match extentGet .nextSib handle with
        | .error .noNext handle => .error .notFound handle
        | .error e handle => .error e handle
        | .ok extent handle => gotoLoop leafLevel blk extent handle := by
  rw [gotoLoop,if_pos h]
  split
  · rfl
  · split
    · rfl
    · split
      · rename_i hget
        rw [hget]
      · rename_i hne hget
        rw [hget]
        split
        · rename_i heq
          cases heq
          exact (hne rfl).elim
        · rename_i heq
          cases heq
          rfl
        · rename_i heq
          cases heq
      · rename_i hget
        rw [hget]

/-- The last entry of a node whose key is not greater, by its index, or the first. -/
structure FloorIndex (node : ExtentNode) (blk i : ℕ) : Prop where
  le : i=0 ∨ (node.slot i).lblk≤blk
  gt : ∀ {j}, i<j → j<node.ehEntries.toNat → blk<(node.slot j).lblk

theorem FloorIndex.floor {node : ExtentNode} {blk i : ℕ} (h : FloorIndex node blk i)
    (hi : i<node.ehEntries.toNat) : Floor Slot.lblk blk (live node) (node.slot i) :=
  floor_range hi h.le fun _ hij hj => h.gt hij hj

/-- The keys of a node ascend. -/
def Ascends (node : ExtentNode) : Prop :=
  ∀ {i j}, i<j → j<node.ehEntries.toNat → (node.slot i).lblk<(node.slot j).lblk

@[simp] theorem extentAt_eLblk (handle : Handle) (i : ℕ) :
    (handle.extentAt i).eLblk=(handle.current.buf.slot i).lblk := by
  rw [Handle.extentAt]
  split <;> rfl

/-- An iteration of the loop above the level either goes on or has found the entry. -/
theorem indexStep_at {handle : Handle} {i blk : ℕ} (h : At handle i)
    (hkeys : Ascends handle.current.buf) (hle : i=0 ∨ (handle.current.buf.slot i).lblk≤blk) :
    (∃ after, indexStep blk handle=.again (after.extentAt (i+1)) after ∧
        Shifted handle after (i+1) ∧ i+1 < handle.current.entries ∧
        (handle.current.buf.slot (i+1)).lblk≤blk) ∨
      ∃ mid j, indexStep blk handle=.goDown mid ∧ Shifted handle mid j ∧
        FloorIndex handle.current.buf blk j := by
  have hentries := h.tracks.entries
  by_cases hlast : handle.current.entries ≤ i+1
  · refine Or.inr ⟨handle,i,?_,h.shifted,hle,fun hij hj => by omega⟩
    simp only [indexStep,h.nextSib_last hlast]
  · obtain ⟨next,hnext,hshift⟩ := h.nextSib (by omega)
    have hkey : (next.extentAt (i+1)).eLblk=(handle.current.buf.slot (i+1)).lblk := by
      rw [extentAt_eLblk,hshift.buf]
    have hafter : ∀ {j}, i+1<j → j<handle.current.buf.ehEntries.toNat →
        (handle.current.buf.slot (i+1)).lblk<(handle.current.buf.slot j).lblk :=
      fun hij hj => hkeys hij hj
    by_cases heq : blk=(handle.current.buf.slot (i+1)).lblk
    · refine Or.inr ⟨next,i+1,?_,hshift,Or.inr heq.ge,fun hij hj => ?_⟩
      · simp only [indexStep,hnext,hkey,if_pos heq]
      · have := hafter hij hj
        omega
    · by_cases hlt : (handle.current.buf.slot (i+1)).lblk<blk
      · refine Or.inl ⟨next,?_,hshift,by omega,hlt.le⟩
        simp only [indexStep,hnext,hkey,if_neg heq,if_pos hlt]
      · obtain ⟨back,hback,hshift'⟩ := hshift.at_entry.prevSib
        refine Or.inr ⟨back,i,?_,hshift.trans hshift',hle,fun {j} hij hj => ?_⟩
        · simp only [indexStep,hnext,hkey,if_neg heq,if_neg hlt,hback]
        · by_cases hj1 : j=i+1
          · rw [hj1]
            omega
          · have := hafter (show i+1<j by omega) hj
            omega

/-- Above the level the loop goes down at the last entry whose key is not greater. -/
theorem gotoLoop_scan {leafLevel blk : ℕ} {handle : Handle} {i : ℕ} (h : At handle i)
    (hlevel : handle.level+leafLevel≠handle.maxDepth) (hkeys : Ascends handle.current.buf)
    (hle : i=0 ∨ (handle.current.buf.slot i).lblk≤blk) (extent : Extent) :
    ∃ mid j, gotoLoop leafLevel blk extent handle=descend leafLevel blk mid ∧
      Shifted handle mid j ∧ FloorIndex handle.current.buf blk j := by
  have hlt := h.tracks.lt
  generalize hn : handle.current.entries-i=n
  induction n generalizing i handle extent with
  | zero => omega
  | succ n ih =>
    rw [gotoLoop_index hlevel]
    cases indexStep_at h hkeys hle with
    | inr hdown =>
      obtain ⟨mid,j,hstep,hshift,hfloor⟩ := hdown
      rw [hstep]
      exact ⟨mid,j,rfl,hshift,hfloor⟩
    | inl hagain =>
      obtain ⟨after,hstep,hshift,hmore,hkey⟩ := hagain
      have hentries := hshift.at_entry.tracks.entries
      rw [hshift.buf,←h.tracks.entries] at hentries
      rw [hstep]
      obtain ⟨mid,j,hloop,hshift',hfloor⟩ := ih hshift.at_entry
        (by rw [hshift.level,hshift.moved.maxDepth]; exact hlevel) (by rw [hshift.buf]; exact hkeys)
        (Or.inr (by rw [hshift.buf]; exact hkey)) (after.extentAt (i+1))
        (by omega) (by omega)
      rw [hshift.buf] at hfloor
      exact ⟨mid,j,hloop,hshift.trans hshift',hfloor⟩

/-- The number of blocks that `ext2fs_extent_get` gives for entry `i` of the current node. -/
def rangeLen (handle : Handle) (i : ℕ) : ℕ :=
  let node := handle.current.buf
  if handle.level=handle.maxDepth then (node.slot i).len
  else if i+1 < node.ehEntries.toNat then toU32 ((node.slot (i+1)).lblk-(node.slot i).lblk)
  else toU32 (handle.current.endBlk-(node.slot i).lblk)

theorem At.eLen {handle : Handle} {i : ℕ} (h : At handle i) :
    (handle.extentAt i).eLen=rangeLen handle i := by
  have hleft := h.tracks.left
  have hentries := h.tracks.entries
  rw [Handle.extentAt,rangeLen]
  split
  · rfl
  · simp only [ExtentPath.rangeEnd]
    by_cases hlast : i+1 < handle.current.buf.ehEntries.toNat
    · rw [if_pos hlast,if_pos (by omega)]
    · rw [if_neg hlast,if_neg (by omega)]

theorem Shifted.rangeLen {before after : Handle} {i : ℕ} (h : Shifted before after i) :
    rangeLen after=rangeLen before := by
  funext j
  rw [ExtentSearch.rangeLen,ExtentSearch.rangeLen,h.level,h.moved.maxDepth,h.buf,h.endBlk]

/-- Whether entry `i` of the current node contains the block. -/
def Contains (handle : Handle) (blk i : ℕ) : Prop :=
  (handle.current.buf.slot i).lblk≤blk ∧
    blk<(handle.current.buf.slot i).lblk+rangeLen handle i

/-- At the level the loop stops at the last entry that does not start after the block, and
succeeds if that entry contains it. -/
theorem gotoLoop_target {leafLevel blk : ℕ} {handle : Handle} {i : ℕ} (h : At handle i)
    (hlevel : handle.level+leafLevel=handle.maxDepth) (hkeys : Ascends handle.current.buf)
    (hgap : ∀ j, j+1 < handle.current.entries → (handle.current.buf.slot j).lblk+
      rangeLen handle j≤(handle.current.buf.slot (j+1)).lblk)
    (hpast : ∀ j, j+1=i → (handle.current.buf.slot j).lblk+rangeLen handle j≤blk) :
    ∃ after j, Shifted handle after j ∧ FloorIndex handle.current.buf blk j ∧
      (gotoLoop leafLevel blk (handle.extentAt i) handle=.ok () after ∧ Contains handle blk j ∨
        gotoLoop leafLevel blk (handle.extentAt i) handle=.error .notFound after ∧
          ¬Contains handle blk j) := by
  have hlt := h.tracks.lt
  generalize hn : handle.current.entries-i=n
  induction n generalizing i handle with
  | zero => omega
  | succ n ih =>
    have hentries := h.tracks.entries
    have hfrom : ∀ {j}, i≤j → j<handle.current.buf.ehEntries.toNat →
        (handle.current.buf.slot i).lblk≤(handle.current.buf.slot j).lblk := by
      intro j hij hj
      by_cases heq : i=j
      · rw [heq]
      · exact (hkeys (by omega) hj).le
    rw [gotoLoop_leaf hlevel,extentAt_eLblk,h.eLen]
    by_cases hin : Contains handle blk i
    · refine ⟨handle,i,h.shifted,⟨Or.inr hin.1,fun {j} hij hj => ?_⟩,Or.inl ⟨if_pos hin,hin⟩⟩
      have hnext := hgap i (by omega)
      have hblk := hin.2
      by_cases heq : i+1=j
      · rw [heq] at hnext
        omega
      · have := @hkeys (i+1) j (by omega) hj
        omega
    · have hout := hin
      rw [Contains] at hout
      rw [if_neg hout]
      by_cases hbelow : blk<(handle.current.buf.slot i).lblk
      · rw [if_pos hbelow]
        cases i with
        | zero =>
          rw [h.prevSib_first]
          refine ⟨handle,0,h.shifted,⟨Or.inl rfl,fun hij hj => ?_⟩,Or.inr ⟨rfl,hin⟩⟩
          have := hfrom hij.le hj
          omega
        | succ k =>
          obtain ⟨back,hback,hshift⟩ := h.prevSib
          have hk := hpast k rfl
          rw [hback]
          refine ⟨back,k,hshift,⟨Or.inr (by omega),fun hij hj => ?_⟩,Or.inr ⟨rfl,fun hc => ?_⟩⟩
          · have := hfrom hij hj
            omega
          · have := hc.2
            omega
      · rw [if_neg hbelow]
        have hend : (handle.current.buf.slot i).lblk+rangeLen handle i≤blk := by omega
        by_cases hlast : handle.current.entries ≤ i+1
        · rw [h.nextSib_last hlast]
          exact ⟨handle,i,h.shifted,⟨Or.inr (by omega),fun hij hj => by omega⟩,Or.inr ⟨rfl,hin⟩⟩
        · obtain ⟨next,hnext,hshift⟩ := h.nextSib (by omega)
          have hsame := hshift.at_entry.tracks.entries
          rw [hshift.buf,←hentries] at hsame
          rw [hnext]
          obtain ⟨after,j,hshift',hfloor,hresult⟩ := ih hshift.at_entry
            (by rw [hshift.level,hshift.moved.maxDepth]; exact hlevel)
            (by rw [hshift.buf]; exact hkeys)
            (by rw [hshift.buf,hshift.rangeLen,hsame]; exact hgap)
            (by
              intro k hk
              rw [hshift.buf,hshift.rangeLen,show k=i by omega]
              exact hend)
            (by omega) (by omega)
          rw [Contains,hshift.buf,hshift.rangeLen,←Contains] at hresult
          rw [hshift.buf] at hfloor
          exact ⟨after,j,hshift.trans hshift',hfloor,hresult⟩

/-! ## The descent -/

theorem Moved.shapedTree {before after : Handle} (h : Moved before after)
    (hshape : ShapedTree before) : ShapedTree after := by
  rw [ShapedTree,h.fs,h.maxDepth,h.root]
  exact hshape

theorem Moved.slotsOf {before after : Handle} (h : Moved before after) (k : ℕ) :
    slotsOf after k=slotsOf before k := by
  rw [ExtentTree.slotsOf,h.fs,h.root]

/-- The keys of a node whose entries stand in a level ascend. -/
theorem ascends_of_sublist {handle : Handle} (hshape : ShapedTree handle) {k : ℕ}
    (hk : k≤handle.maxDepth) {node : ExtentNode}
    (hsub : (live node).Sublist (slotsOf handle k)) : Ascends node :=
  fun hij hj => live_pairwise ((hshape.sortedBy hk).sublist hsub) hij hj

/-- The ranges of the entries of a node do not overlap. -/
theorem rangeLen_gap {handle : Handle} (hshape : ShapedTree handle)
    (hlevel : handle.level≤handle.maxDepth)
    (hsub : (live handle.current.buf).Sublist (slotsOf handle handle.level)) {i : ℕ}
    (hi : i+1 < handle.current.buf.ehEntries.toNat) :
    (handle.current.buf.slot i).lblk+rangeLen handle i≤(handle.current.buf.slot (i+1)).lblk := by
  rw [rangeLen]
  split
  · rename_i heq
    rw [heq] at hsub
    exact live_pairwise (hshape.sorted.sublist hsub) (Nat.lt_succ_self i) hi
  · have hlt : (handle.current.buf.slot i).lblk<(handle.current.buf.slot (i+1)).lblk :=
      ascends_of_sublist hshape hlevel hsub (Nat.lt_succ_self i) hi
    have hbound : (handle.current.buf.slot (i+1)).lblk<2^32 := UInt32.toNat_lt _
    rw [toU32_sub hlt.le (by omega)]
    omega

/-- Every entry of a child starts at the key of its index entry or after it. -/
theorem key_le_child {handle : Handle} (hshape : ShapedTree handle) {k : ℕ}
    (hk : k<handle.maxDepth) {slot entry : Slot} (hslot : slot∈slotsOf handle k)
    (hentry : entry∈live (handle.fs.disk slot.eiLeaf)) : slot.lblk≤entry.lblk := by
  obtain ⟨-,hkey⟩ := hshape.child hk hslot
  obtain ⟨i,hi,rfl⟩ := List.mem_map.mp hentry
  rw [←hkey]
  cases i with
  | zero => exact le_rfl
  | succ i =>
    exact (ascends_of_sublist hshape hk (live_sublist hslot) (Nat.succ_pos i)
      (List.mem_range.mp hi)).le

/-- Where the search stops: at the last entry of its level that does not start after the
block, or at the first entry, with the error code that says whether the block is in it. -/
structure Reached (handle : Handle) (leafLevel blk : ℕ)
    (result : EStateM.Result Errcode Handle Unit) (after : Handle) (i : ℕ) : Prop where
  at_entry : At after i
  moved : Moved handle after
  level : after.level+leafLevel=handle.maxDepth
  floor : Floor Slot.lblk blk (slotsOf handle after.level) (after.current.buf.slot i)
  result : result=.ok () after ∧ Contains after blk i ∨
    result=.error .notFound after ∧ ¬Contains after blk i

theorem gotoLoop_reached {leafLevel blk n : ℕ} {handle : Handle} (hshape : ShapedTree handle)
    (h : At handle 0) (hn : handle.level+leafLevel+n=handle.maxDepth)
    (hsub : (live handle.current.buf).Sublist (slotsOf handle handle.level))
    (hlift : ∀ {slot}, Floor Slot.lblk blk (live handle.current.buf) slot →
      Floor Slot.lblk blk (slotsOf handle handle.level) slot) :
    (¬Readable handle.fs ∧
        ∃ e after, e≠.recursion ∧
          gotoLoop leafLevel blk (handle.extentAt 0) handle=.error e after) ∨
      ∃ after i, Reached handle leafLevel blk (gotoLoop leafLevel blk (handle.extentAt 0) handle)
        after i := by
  induction n generalizing handle with
  | zero =>
    have hkeys : Ascends _ := ascends_of_sublist hshape h.onEntry.level_le hsub
    have hentries := h.tracks.entries
    obtain ⟨after,i,hshift,hfloor,hresult⟩ := gotoLoop_target h hn hkeys
      (fun j hj => rangeLen_gap hshape (by omega) hsub (by omega)) (fun j hj => by omega)
    have hi := hshift.at_entry.tracks.lt
    rw [hshift.at_entry.tracks.entries,hshift.buf] at hi
    refine Or.inr ⟨after,i,hshift.at_entry,hshift.moved,by rw [hshift.level]; exact hn,?_,?_⟩
    · rw [hshift.level,hshift.buf]
      exact hlift (hfloor.floor hi)
    · rw [Contains,hshift.buf,hshift.rangeLen,←Contains]
      exact hresult
  | succ n ih =>
    have hkeys : Ascends _ := ascends_of_sublist hshape h.onEntry.level_le hsub
    have habove : handle.level+leafLevel≠handle.maxDepth := by omega
    obtain ⟨mid,i,hloop,hshift,hfloor⟩ :=
      gotoLoop_scan h habove hkeys (Or.inl rfl) (handle.extentAt 0)
    have hi := hshift.at_entry.tracks.lt
    rw [hshift.at_entry.tracks.entries,hshift.buf] at hi
    have hmem := hsub.subset (mem_live hi)
    obtain ⟨hnode,hkey⟩ := hshape.child (show handle.level < handle.maxDepth by omega) hmem
    have hdown := hshift.at_entry.goDown (by rw [hshift.level,hshift.moved.maxDepth]; omega)
      (by rw [hshift.moved.fs,hshift.buf]; exact hnode.verify)
      (by rw [hshift.moved.fs,hshift.buf]; exact hnode.nonempty)
    rw [hloop,descend]
    cases hdown with
    | inl hfail =>
      obtain ⟨hread,e,after,he,hget⟩ := hfail
      rw [hshift.moved.fs] at hread
      rw [hget]
      exact Or.inl ⟨hread,e,after,he,rfl⟩
    | inr hdown =>
      obtain ⟨below,hget,hat,hmoved,hlevel,hbuf⟩ := hdown
      have hboth := hshift.moved.trans hmoved
      rw [hshift.level] at hlevel
      rw [hshift.moved.fs,hshift.buf] at hbuf
      rw [hget]
      have hchild := ih (hboth.shapedTree hshape) hat (by rw [hboth.maxDepth]; omega)
        (by rw [hboth.slotsOf,hlevel,hbuf]; exact live_sublist hmem)
        (by
          intro slot hslot
          rw [hbuf] at hslot
          rw [hboth.slotsOf,hlevel]
          refine Floor.flatMap (hlift (hfloor.floor hi)) hslot ?_ ?_
          · rw [head?_live hnode.nonempty,Option.map_some,hkey]
          · exact fun b hb c hc => key_le_child hshape (show handle.level < handle.maxDepth by omega) hb hc)
      cases hchild with
      | inl hfail =>
        rw [hboth.fs] at hfail
        exact Or.inl hfail
      | inr hreached =>
        obtain ⟨after,j,hreached⟩ := hreached
        refine Or.inr ⟨after,j,hreached.at_entry,hboth.trans hreached.moved,?_,?_,hreached.result⟩
        · rw [hreached.level,hboth.maxDepth]
        · have hfloor' := hreached.floor
          rw [hboth.slotsOf] at hfloor'
          exact hfloor'

/-- The handle at the root, with its path there. -/
def Handle.atRoot (handle : Handle) (path : ExtentPath) : Handle :=
  {handle with level := 0, path := Function.update handle.path 0 path}

@[simp] theorem atRoot_current (handle : Handle) (path : ExtentPath) :
    (Handle.atRoot handle path).current=path := by
  simp only [Handle.current,Handle.atRoot,Function.update_self]

/-- `EXT2_EXTENT_ROOT` in a tree that is not empty. -/
theorem extentGet_root {handle : Handle} (ho : Opened handle)
    (hne : 0 < (handle.path 0).buf.ehEntries.toNat) :
    ∃ after, extentGet .root handle=.ok (after.extentAt 0) after ∧ At after 0 ∧
      Moved handle after ∧ after.level=0 ∧ after.current.buf=(handle.path 0).buf := by
  have hentries := ho.entries
  generalize hp : ({handle.path 0 with
    curr := some 0, left := (handle.path 0).entries-1, visitNum := 0} : ExtentPath)=path
  have htracks : Tracks path 0 := by
    rw [←hp]
    exact ⟨rfl,by rw [←hentries] at hne; exact hne,ho.entries,ho.maxEntries,by simp only; omega⟩
  have hpath : (Handle.atRoot handle path).path 0=path := atRoot_current handle path
  have hmove : extentMove .root handle=.ok () (Handle.atRoot handle path) := by
    simp only [extentMove,firstSib,nextSib,Handle.current,Handle.setPath,Function.update_self,
      Function.update_idem]
    rw [if_neg (by omega),hp]
    rfl
  have hat : At (Handle.atRoot handle path) 0 := by
    refine ⟨⟨Nat.zero_le _,fun hk => ⟨0,?_⟩,fun hk => absurd hk (Nat.not_lt_zero _)⟩,?_⟩
    · rw [Nat.le_zero.mp hk,hpath]
      exact htracks
    · rw [atRoot_current]
      exact htracks
  have hbuf : path.buf=(handle.path 0).buf := by rw [←hp]
  refine ⟨_,extentGet_eq hmove hat.tracks.curr,hat,⟨rfl,rfl,rfl,?_,fun _ => ⟨?_,?_⟩⟩,rfl,?_⟩
  · rw [hpath,hbuf]
  · rw [hpath,htracks.entries]
  · rw [hpath,htracks.maxEntries]
  · rw [atRoot_current,hbuf]

/-- `EXT2_EXTENT_ROOT` in an empty tree. -/
theorem extentGet_root_empty {handle : Handle} (ho : Opened handle)
    (hzero : (handle.path 0).buf.ehEntries.toNat=0) :
    ∃ after, extentGet .root handle=.error .noNext after ∧ after.current.curr=none := by
  have hentries := ho.entries
  refine ⟨Handle.atRoot handle {handle.path 0 with
    left := (handle.path 0).entries, curr := none},?_,by rw [atRoot_current]⟩
  simp only [extentGet,extentMove,firstSib,nextSib,Handle.current,Handle.setPath,
    Function.update_self]
  rw [if_pos (by omega)]
  rfl

/-- `ext2fs_extent_goto2` in a tree that is not empty. -/
theorem extentGoto2_reached {leafLevel blk : ℕ} {handle : Handle} (hshape : ShapedTree handle)
    (ho : Opened handle) (hne : 0 < (handle.path 0).buf.ehEntries.toNat)
    (hlevel : leafLevel≤handle.maxDepth) :
    (¬Readable handle.fs ∧
        ∃ e after, e≠.recursion ∧ extentGoto2 leafLevel blk handle=.error e after) ∨
      ∃ after i, Reached handle leafLevel blk (extentGoto2 leafLevel blk handle) after i := by
  obtain ⟨root,hget,hat,hmoved,hzero,hbuf⟩ := extentGet_root ho hne
  have hlive : live root.current.buf=slotsOf root root.level := by
    rw [hmoved.slotsOf,hzero,hbuf]
    rfl
  have hgoto : extentGoto2 leafLevel blk handle=gotoLoop leafLevel blk (root.extentAt 0) root := by
    simp only [extentGoto2,hget]
    rw [if_neg (by rw [hmoved.maxDepth]; omega)]
  rw [hgoto]
  have hloop := @gotoLoop_reached leafLevel blk (handle.maxDepth-leafLevel) root
    (hmoved.shapedTree hshape) hat (by rw [hzero,hmoved.maxDepth]; omega)
    (by rw [hlive]) (by rw [hlive]; exact id)
  cases hloop with
  | inl hfail =>
    rw [hmoved.fs] at hfail
    exact Or.inl hfail
  | inr hreached =>
    obtain ⟨after,i,hreached⟩ := hreached
    have hfloor := hreached.floor
    rw [hmoved.slotsOf] at hfloor
    exact Or.inr ⟨after,i,hreached.at_entry,hmoved.trans hreached.moved,
      by rw [hreached.level,hmoved.maxDepth],hfloor,hreached.result⟩

/-! ## The leaves -/

/-- The extents of the tree in logical order. -/
abbrev leafExtents (handle : Handle) : List Slot := slotsOf handle handle.maxDepth

/-- The extent contains the logical block. -/
def Covers (slot : Slot) (blk : ℕ) : Prop := slot.lblk≤blk ∧ blk < slot.lblk+slot.len

/-- The last extent that starts before the block, or the first extent if none does. -/
def InsertionPoint (extents : List Slot) (blk : ℕ) (slot : Slot) : Prop :=
  slot∈extents ∧ slot.lblk<blk ∧ (∀ other∈extents, other.lblk<blk → other.lblk ≤ slot.lblk) ∨
    (∀ other∈extents, blk≤other.lblk) ∧ extents.head?=some slot

/-- The handle stands on that extent in a leaf of the tree of another handle. -/
structure OnLeaf (handle after : Handle) (slot : Slot) : Prop where
  moved : Moved handle after
  onEntry : OnEntry after
  level : after.level=after.maxDepth
  slotAt : after.slotAt after.level=slot

/-- The extent that contains the block is the last one that does not start after it. -/
theorem floor_eq_of_covers {handle : Handle} (hshape : ShapedTree handle) {blk : ℕ}
    {slot floor : Slot} (hfloor : Floor Slot.lblk blk (leafExtents handle) floor)
    (hmem : slot∈leafExtents handle) (hcovers : Covers slot blk) : slot=floor := by
  have hsorted := hshape.sorted
  obtain ⟨before,after,hsplit,hle,hlt⟩ := hfloor
  rw [leafExtents,ExtentTree.slotsOf] at hsplit
  rw [hsplit] at hsorted
  rw [leafExtents,ExtentTree.slotsOf,hsplit] at hmem
  obtain ⟨-,-,hacross⟩ := List.pairwise_append.mp hsorted
  obtain ⟨hstart,hend⟩ := hcovers
  cases List.mem_append.mp hmem with
  | inl hbefore =>
    have hgap := hacross slot hbefore floor List.mem_cons_self
    cases hle with
    | inl hnil => rw [hnil] at hbefore; cases hbefore
    | inr hle => omega
  | inr hrest =>
    cases List.mem_cons.mp hrest with
    | inl heq => exact heq
    | inr hafter => have := hlt slot hafter; omega

/-- If no extent contains the block, then the one where the search stops is the insertion
point. -/
theorem insertionPoint_of_floor {handle : Handle} (hshape : ShapedTree handle) {blk : ℕ}
    {floor : Slot} (hfloor : Floor Slot.lblk blk (leafExtents handle) floor)
    (hnone : ¬Covers floor blk) : InsertionPoint (leafExtents handle) blk floor := by
  have hsorted := hshape.sortedBy le_rfl
  have hpos := hshape.len_pos floor hfloor.mem
  have hmem := hfloor.mem
  obtain ⟨before,after,hsplit,hle,hlt⟩ := hfloor
  rw [InsertionPoint,hsplit]
  rw [leafExtents,ExtentTree.slotsOf] at hsplit
  rw [hsplit] at hsorted
  obtain ⟨-,-,hacross⟩ := List.pairwise_append.mp hsorted
  rw [Covers] at hnone
  by_cases hbefore : floor.lblk<blk
  · refine Or.inl ⟨List.mem_append_right _ List.mem_cons_self,hbefore,fun other hother hstart => ?_⟩
    cases List.mem_append.mp hother with
    | inl hleft => exact (hacross other hleft floor List.mem_cons_self).le
    | inr hrest =>
      cases List.mem_cons.mp hrest with
      | inl heq => rw [heq]
      | inr hright => have := hlt other hright; omega
  · have hnil : before=[] := by
      cases hle with
      | inl hnil => exact hnil
      | inr hle => omega
    rw [hnil]
    refine Or.inr ⟨fun other hother => ?_,rfl⟩
    cases List.mem_cons.mp hother with
    | inl heq => rw [heq]; omega
    | inr hright => exact (hlt other hright).le

/-- A search for a leaf either succeeds on the extent that contains the block or fails on the
insertion point. -/
theorem Reached.leaf {handle after : Handle} {blk i : ℕ}
    {result : EStateM.Result Errcode Handle Unit} (h : Reached handle 0 blk result after i) :
    ∃ slot, OnLeaf handle after slot ∧ Floor Slot.lblk blk (leafExtents handle) slot ∧
      (result=.ok () after ∧ Covers slot blk ∨ result=.error .notFound after ∧ ¬Covers slot blk) := by
  have hlevel : after.level=handle.maxDepth := h.level
  have hdepth : after.level=after.maxDepth := by rw [hlevel,h.moved.maxDepth]
  have hfloor := h.floor
  have hresult := h.result
  rw [hlevel] at hfloor
  rw [Contains,rangeLen,if_pos hdepth] at hresult
  exact ⟨_,⟨h.moved,h.at_entry.onEntry,hdepth,h.at_entry.slotAt⟩,hfloor,hresult⟩

/-- In a well-formed tree that can be read, `ext2fs_extent_goto2` for a leaf returns zero on
the extent that contains the block; if there is none, it returns `EXT2_ET_EXTENT_NOT_FOUND` on
the last extent that starts before the block, or on the first extent. -/
theorem extentGoto2_leaf {handle : Handle} (hwf : WellFormedTree handle) (ho : Opened handle)
    (hread : Readable handle.fs) (blk : ℕ) :
    (∀ slot∈leafExtents handle, Covers slot blk →
        ∃ after, extentGoto2 0 blk handle=.ok () after ∧ OnLeaf handle after slot) ∧
      ((∀ slot∈leafExtents handle, ¬Covers slot blk) →
        ∃ after, extentGoto2 0 blk handle=.error .notFound after ∧
          (leafExtents handle=[] ∧ after.current.curr=none ∨
            ∃ slot, InsertionPoint (leafExtents handle) blk slot ∧ OnLeaf handle after slot)) := by
  by_cases hzero : (handle.path 0).buf.ehEntries.toNat=0
  · have hdepth : handle.maxDepth=0 := by
      have := hwf.root_nonempty
      omega
    have hnil : leafExtents handle=[] := by
      rw [leafExtents,ExtentTree.slotsOf,hdepth,levelSlots,live,hzero]
      rfl
    obtain ⟨after,hget,hcurr⟩ := extentGet_root_empty ho hzero
    rw [hnil]
    refine ⟨(fun slot hslot => by cases hslot),fun _ => ⟨after,?_,Or.inl ⟨rfl,hcurr⟩⟩⟩
    simp only [extentGoto2,hget]
  · have hreached := @extentGoto2_reached 0 blk handle hwf.toShaped ho (by omega) (Nat.zero_le _)
    rcases hreached with ⟨hfail,-⟩ | ⟨after,i,hreached⟩
    · exact absurd hread hfail
    · obtain ⟨slot,hleaf,hfloor,hresult⟩ := hreached.leaf
      refine ⟨fun other hother hcovers => ?_,fun hnone => ?_⟩
      · have heq := floor_eq_of_covers hwf.toShaped hfloor hother hcovers
        rw [heq] at hcovers ⊢
        rcases hresult with ⟨hok,-⟩ | ⟨-,hout⟩
        · exact ⟨after,hok,hleaf⟩
        · exact absurd hcovers hout
      · have hout := hnone slot hfloor.mem
        rcases hresult with ⟨-,hcovers⟩ | ⟨hfail,-⟩
        · exact absurd hcovers hout
        · exact ⟨after,hfail,Or.inr ⟨slot,insertionPoint_of_floor hwf.toShaped hfloor hout,hleaf⟩⟩

/-- A node with these entries. -/
def nodeOf (max depth : UInt16) (slots : List Slot) : ExtentNode :=
  ⟨ext3ExtMagic,.ofNat slots.length,max,depth,fun i => slots.getD i default⟩

theorem eq_some_of_ok {found : Option ℕ} {block e : ℕ}
    (h : (match found with
      | some block => Except.ok block
      | none => Except.error e)=Except.ok block) : found=some block := by
  cases found with
  | none => cases h
  | some _ =>
    cases h
    rfl

/-- The first of 256 blocks that is not in use. -/
def firstFree : Allocator where
  newBlock blockMap _ :=
    match (List.range 256).find? fun block => block∉blockMap with
    | some block => .ok block
    | none => .error 28
  fresh h := by simpa using List.find?_some (eq_some_of_ok h)
  block_lt h := by
    have := List.mem_range.mp (List.mem_of_find?_eq_some (eq_some_of_ok h))
    omega

/-- A file system of blocks of 1024 bytes, where `i_blocks` of the inode is 4. -/
def smallFs (disk : ℕ → ExtentNode) (root : ExtentNode) (blockMap : List ℕ) : Filsys where
  rw := true
  imageFile := false
  geometry := ⟨1024,0,by decide,by decide,by decide⟩
  disk := disk
  inode := ⟨root,4⟩
  blockMap := blockMap
  allocator := firstFree
  inodeGoal := 0
  readFault _ := none
  writeFault _ := none
  writes := 0

/-- The handle that `ext2fs_extent_open` returns for a file of so many blocks. -/
def openHandle (fs : Filsys) (size : ℕ) : Handle where
  fs := fs
  iBlocks := fs.inode.iBlocks
  level := 0
  maxDepth := fs.inode.iBlock.ehDepth.toNat
  path := Function.update (fun _ => default) 0
    ⟨fs.inode.iBlock,fs.inode.iBlock.ehEntries.toNat,fs.inode.iBlock.ehMax.toNat,
      fs.inode.iBlock.ehEntries.toNat,1,size,none⟩

theorem opened_openHandle (fs : Filsys) (size : ℕ) : Opened (openHandle fs size) := ⟨rfl,rfl⟩

/-- Two leaves with one extent each, blocks 0 to 9 and blocks 20 to 24. -/
def twoLeaves : Handle :=
  openHandle
    (smallFs
      (fun blk =>
        if blk=50 then nodeOf 84 0 [⟨0,10,0,100,0⟩]
        else if blk=51 then nodeOf 84 0 [⟨20,5,0,200,0⟩]
        else default)
      (nodeOf 4 1 [⟨0,50,0,0,0⟩,⟨20,51,0,0,0⟩]) [50,51])
    25

theorem wellFormedTree_twoLeaves : WellFormedTree twoLeaves where
  root_verify := by decide
  root_depth := by decide
  root_nonempty _ := by decide
  child {k slot} hk hslot := by
    have hzero : k=0 := Nat.lt_one_iff.mp hk
    rw [hzero] at hslot ⊢
    have hslots : slot∈([⟨0,50,0,0,0⟩,⟨20,51,0,0,0⟩] : List Slot) := hslot
    rcases List.mem_cons.mp hslots with rfl | hslots
    · exact ⟨⟨by decide,by decide,by decide⟩,by decide⟩
    · rw [List.mem_singleton.mp hslots]
      exact ⟨⟨by decide,by decide,by decide⟩,by decide⟩
  sorted := by decide
  len_pos := by decide

theorem readable_twoLeaves : Readable twoLeaves.fs := fun _ => rfl

/-- The search for block 15 stops at the first of the two leaves, that for block 22 at the
second one. -/
theorem extentGoto2_leaf_twoLeaves :
    (∃ after slot, extentGoto2 0 15 twoLeaves=.error .notFound after ∧
        InsertionPoint (leafExtents twoLeaves) 15 slot ∧ OnLeaf twoLeaves after slot) ∧
      ∃ after, extentGoto2 0 22 twoLeaves=.ok () after ∧
        OnLeaf twoLeaves after ⟨20,5,0,200,0⟩ := by
  have hslots : leafExtents twoLeaves=[⟨0,10,0,100,0⟩,⟨20,5,0,200,0⟩] := by decide
  have hgoto := extentGoto2_leaf wellFormedTree_twoLeaves (opened_openHandle _ _)
    readable_twoLeaves
  refine ⟨?_,?_⟩
  · obtain ⟨after,hfail,hempty | ⟨slot,hpoint,hleaf⟩⟩ := (hgoto 15).2 (by
      rw [hslots]
      simp only [Covers]
      decide)
    · rw [hslots] at hempty
      cases hempty.1
    · exact ⟨after,slot,hfail,hpoint,hleaf⟩
  · exact (hgoto 22).1 _ (by rw [hslots]; decide) (by rw [Covers]; decide)

end AndroidPlatform.ExtentSearch
