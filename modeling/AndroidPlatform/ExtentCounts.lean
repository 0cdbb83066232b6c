import AndroidPlatform.ExtentSplitOutcome
import AndroidPlatform.ExtentWalk

/-!
# The counts of a handle

At every level of a handle the number of entries is that of the node, and a position is one
of the entries with the number of entries after it. An insertion where there is no position,
the last sibling in an empty node, and the deletion of the only entry of a node that is kept
break this; nothing else does while no node of the device is empty.
-/

namespace AndroidPlatform.ExtentCounts

open ExtentHandle ExtentSearch ExtentUpdate ExtentSplit ExtentSplitOutcome ExtentWalk

/-! ## The invariant -/

/-- The counts of a path agree with its node. -/
structure CountedPath (path : ExtentPath) : Prop where
  entries : path.entries=path.buf.ehEntries.toNat
  maxEntries : path.maxEntries=path.buf.ehMax.toNat
  position : ∀ {i}, path.curr=some i → i<path.entries ∧ path.left+1+i=path.entries
  unset : path.curr=none → path.left=path.entries

/-- No block of the device is a node without entries. -/
def NoEmptyNode (fs : Filsys) : Prop :=
  ∀ b, extentHeaderVerify (fs.disk b) fs.geometry.blocksize=true → 0 < (fs.disk b).ehEntries.toNat

/-- The counts of a handle are right, and those of the nodes that it can go down to will be. -/
structure Sound (handle : Handle) : Prop where
  counted : ∀ {k}, k≤handle.level → CountedPath (handle.path k)
  noEmpty : NoEmptyNode handle.fs
  level_le : handle.level≤handle.maxDepth

theorem CountedPath.visit {path : ExtentPath} (h : CountedPath path) (visitNum : ℕ) :
    CountedPath {path with visitNum := visitNum} :=
  ⟨h.entries,h.maxEntries,h.position,h.unset⟩

theorem Sound.current {handle : Handle} (h : Sound handle) : CountedPath handle.current :=
  h.counted le_rfl

/-- Another path with right counts at the level of the handle. -/
theorem Sound.setPath {handle : Handle} (h : Sound handle) {path : ExtentPath}
    (hpath : CountedPath path) : Sound (handle.setPath handle.level path) := by
  refine ⟨fun {k} hk => ?_,h.noEmpty,h.level_le⟩
  by_cases hlevel : k=handle.level
  · rw [hlevel,setPath_path_self]
    exact hpath
  · rw [setPath_path_of_ne handle path hlevel]
    exact h.counted hk

/-- A path with right counts at the next level. -/
theorem Sound.descend {handle : Handle} (h : Sound handle) (hlt : handle.level < handle.maxDepth)
    {path : ExtentPath} (hpath : CountedPath path) :
    Sound {handle.setPath (handle.level+1) path with level := handle.level+1} := by
  refine ⟨fun {k} hk => ?_,h.noEmpty,hlt⟩
  by_cases hlevel : k=handle.level+1
  · rw [hlevel]
    exact (setPath_path_self handle _ path).symm ▸ hpath
  · have hle : k≤handle.level := by
      have : k≤handle.level+1 := hk
      omega
    exact (setPath_path_of_ne handle path hlevel).symm ▸ h.counted hle

/-- The counts of the levels above. -/
theorem Sound.ascend {handle : Handle} (h : Sound handle) {level : ℕ} (hle : level≤handle.level) :
    Sound (atLevel handle level) :=
  ⟨fun hk => h.counted (le_trans hk hle),h.noEmpty,le_trans hle h.level_le⟩

/-! ## Moves -/

theorem CountedPath.next {path : ExtentPath} (h : CountedPath path) (hleft : 0 < path.left) :
    CountedPath {path with
      curr := some (match path.curr with | some i => i+1 | none => 0)
      left := path.left-1
      visitNum := 0} := by
  refine ⟨h.entries,h.maxEntries,fun {i} hi => ?_,nofun⟩
  cases hcurr : path.curr with
  | none =>
    have hunset := h.unset hcurr
    simp only [hcurr,Option.some.injEq] at hi ⊢
    omega
  | some j =>
    have hposition := h.position hcurr
    simp only [hcurr,Option.some.injEq] at hi ⊢
    omega

theorem sound_nextSib {handle after : Handle} (h : Sound handle)
    (hok : nextSib handle=.ok () after) : Sound after := by
  obtain ⟨hleft,rfl⟩ := nextSib_ok hok
  exact h.setPath (h.current.next hleft)

/-- The first sibling needs no position. -/
theorem sound_firstSib {handle after : Handle}
    (h : Sound (handle.setPath handle.level
      {handle.current with left := handle.current.entries, curr := none}))
    (hok : firstSib handle=.ok () after) : Sound after := sound_nextSib h hok

/-- No position, and all entries to come. -/
theorem CountedPath.rewind {path : ExtentPath} (h : CountedPath path) :
    CountedPath {path with left := path.entries, curr := none} :=
  ⟨h.entries,h.maxEntries,nofun,fun _ => rfl⟩

theorem CountedPath.prev {path : ExtentPath} (h : CountedPath path) {i : ℕ}
    (hcurr : path.curr=some i) (hleft : path.left+1 < path.entries) (visitNum : ℕ) :
    CountedPath {path with
      curr := some (i-1)
      left := path.left+1
      visitNum := visitNum} := by
  refine ⟨h.entries,h.maxEntries,fun {j} hj => ?_,nofun⟩
  have hposition := h.position hcurr
  simp only [Option.some.injEq] at hj ⊢
  omega

theorem sound_prevSib {handle after : Handle} (h : Sound handle)
    (hok : prevSib handle=.ok () after) : Sound after := by
  obtain ⟨i,hcurr,hleft,rfl⟩ := prevSib_ok hok
  exact h.setPath (h.current.prev hcurr hleft _)

/-- The node that a handle goes down to is read from the device, and its header is valid. -/
theorem readBlk_ok {handle : Handle} {blk : ℕ} {node : ExtentNode}
    (hread : handle.fs.readBlk blk=.ok node)
    (hverify : extentHeaderVerify node handle.fs.geometry.blocksize=true) (h : Sound handle) :
    0 < node.ehEntries.toNat := by
  have hdisk := readBlk_eq hread hverify
  rw [hdisk] at hverify ⊢
  exact h.noEmpty blk hverify

/-- A node that the handle has gone down to has a valid header. -/
theorem goDown_verified {handle after : Handle} (hok : goDown handle=.ok () after) :
    ∃ i blk node, handle.level < handle.maxDepth ∧ handle.fs.readBlk blk=.ok node ∧
      extentHeaderVerify node handle.fs.geometry.blocksize=true ∧
      after={handle.setPath (handle.level+1) (ExtentPath.below handle.current i node) with
        level := handle.level+1} := by
  simp only [goDown] at hok
  split at hok
  · cases hok
  · rename_i i _
    split at hok
    · cases hok
    · rename_i hlevel
      split at hok
      · cases hok
      · rename_i node hread
        split at hok
        · rename_i hverify
          cases hok
          exact ⟨i,_,node,by omega,hread,hverify,rfl⟩
        · cases hok

theorem countedPath_below (path : ExtentPath) (i : ℕ) {node : ExtentNode}
    (hne : 0 < node.ehEntries.toNat) : CountedPath (ExtentPath.below path i node) := by
  refine ⟨rfl,rfl,fun {j} hj => ?_,nofun⟩
  simp only [ExtentPath.below,Option.some.injEq] at hj ⊢
  omega

theorem sound_goDown {handle after : Handle} (h : Sound handle)
    (hok : goDown handle=.ok () after) : Sound after := by
  obtain ⟨i,blk,node,hlevel,hread,hverify,rfl⟩ := goDown_verified hok
  exact h.descend hlevel (countedPath_below _ i (readBlk_ok hread hverify h))

theorem goUp_ok {handle after : Handle} (hok : goUp handle=.ok () after) :
    handle.level≠0 ∧ after=atLevel handle (handle.level-1) := by
  simp only [goUp] at hok
  split at hok
  · cases hok
  · cases hok
    exact ⟨by assumption,rfl⟩

theorem sound_goUp {handle after : Handle} (h : Sound handle) (hok : goUp handle=.ok () after) :
    Sound after := by
  obtain ⟨-,rfl⟩ := goUp_ok hok
  exact h.ascend (Nat.sub_le _ _)

/-- Every move keeps the counts. -/
theorem sound_extentMove {move : Move} {handle after : Handle} (h : Sound handle)
    (hok : extentMove move handle=.ok () after) : Sound after := by
  cases move with
  | current => cases hok; exact h
  | root =>
    have hroot := @Sound.ascend handle h 0 (Nat.zero_le _)
    exact sound_firstSib (hroot.setPath hroot.current.rewind) hok
  | firstSib => exact sound_firstSib (h.setPath h.current.rewind) hok
  | nextSib => exact sound_nextSib h hok
  | prevSib => exact sound_prevSib h hok
  | up => exact sound_goUp h hok
  | down => exact sound_goDown h hok

/-- A move leaves the device and the depth. -/
theorem extentMove_kept {move : Move} {handle after : Handle}
    (hok : extentMove move handle=.ok () after) :
    after.fs=handle.fs ∧ after.maxDepth=handle.maxDepth := by
  cases move with
  | current => cases hok; exact ⟨rfl,rfl⟩
  | root =>
    obtain ⟨-,rfl⟩ := nextSib_ok hok
    exact ⟨rfl,rfl⟩
  | firstSib =>
    obtain ⟨-,rfl⟩ := nextSib_ok hok
    exact ⟨rfl,rfl⟩
  | nextSib =>
    obtain ⟨-,rfl⟩ := nextSib_ok hok
    exact ⟨rfl,rfl⟩
  | prevSib =>
    obtain ⟨_,-,-,rfl⟩ := prevSib_ok hok
    exact ⟨rfl,rfl⟩
  | up =>
    obtain ⟨-,rfl⟩ := goUp_ok hok
    exact ⟨rfl,rfl⟩
  | down =>
    obtain ⟨_,_,_,-,-,-,rfl⟩ := goDown_verified hok
    exact ⟨rfl,rfl⟩

/-- A call for an extent keeps the counts, and the handle has a position then. -/
theorem sound_extentGet {move : Move} {extent : Extent} {handle after : Handle} (h : Sound handle)
    (hok : extentGet move handle=.ok extent after) :
    Sound after ∧ after.current.curr.isSome ∧ after.maxDepth=handle.maxDepth := by
  obtain ⟨hmove,i,hcurr,-⟩ := extentGet_ok hok
  exact ⟨sound_extentMove h hmove,by rw [hcurr]; rfl,(extentMove_kept hmove).2⟩

/-! ## The search -/

/-- The node at the level of the handle has the room of a block at most, unless it is the
root. -/
def BlockSized (handle : Handle) : Prop :=
  handle.level≠0 → handle.current.entries ≤ maxSlots handle.fs.geometry.blocksize

theorem blockSized_nextSib {extent : Extent} {handle after : Handle} (h : BlockSized handle)
    (hok : extentGet .nextSib handle=.ok extent after) : BlockSized after := by
  obtain ⟨-,rfl⟩ := nextSib_ok (extentGet_ok hok).1
  intro hlevel
  rw [setPath_current]
  exact h hlevel

theorem blockSized_down {extent : Extent} {handle after : Handle}
    (hok : extentGet .down handle=.ok extent after) : BlockSized after := by
  obtain ⟨i,blk,node,-,-,hverify,rfl⟩ := goDown_verified (extentGet_ok hok).1
  intro _
  simp only [extentHeaderVerify,decide_eq_true_eq,UInt16.le_iff_toNat_le] at hverify
  have hle := hverify.2.1.trans hverify.2.2.1
  have hcurrent : Handle.current {handle.setPath (handle.level+1)
      (ExtentPath.below handle.current i node) with level := handle.level+1}=
      ExtentPath.below handle.current i node := setPath_path_self ..
  rw [hcurrent]
  exact hle

/-- An iteration above the level keeps the counts, and goes down or on from a position. -/
theorem indexStep_sound {blk : ℕ} {handle : Handle} (h : Sound handle) (hsized : BlockSized handle) :
    (∀ mid, indexStep blk handle=.goDown mid → Sound mid ∧ mid.maxDepth=handle.maxDepth) ∧
    ∀ extent after, indexStep blk handle=.again extent after →
      Sound after ∧ BlockSized after ∧ after.current.curr.isSome ∧
        after.maxDepth=handle.maxDepth := by
  constructor
  · intro mid hstep
    refine ⟨?_,(indexStep_goDown hstep).2⟩
    simp only [indexStep] at hstep
    split at hstep
    · rename_i hget
      cases hstep
      rw [(extentGet_nextSib_error hget).2.2]
      exact h
    · cases hstep
    · rename_i hget
      have hnext := (sound_extentGet h hget).1
      split at hstep
      · cases hstep
        exact hnext
      · split at hstep
        · cases hstep
        · split at hstep
          · cases hstep
          · rename_i hprev
            cases hstep
            exact (sound_extentGet hnext hprev).1
  · intro extent after hstep
    have hget := (indexStep_again hstep).1
    obtain ⟨hsound,hcurr,hdepth⟩ := sound_extentGet h hget
    exact ⟨hsound,blockSized_nextSib hsized hget,hcurr,hdepth⟩

/-- Where a search ends. -/
structure Found (handle after : Handle) (leafLevel : ℕ) : Prop where
  sound : Sound after
  position : after.current.curr.isSome
  sized : BlockSized after
  level : after.level+leafLevel=after.maxDepth
  maxDepth : after.maxDepth=handle.maxDepth

theorem gotoLoop_found {leafLevel blk : ℕ} {extent : Extent} {handle after : Handle}
    (h : Sound handle) (hsized : BlockSized handle) (hcurr : handle.current.curr.isSome)
    (hok : gotoLoop leafLevel blk extent handle=.ok () after) : Found handle after leafLevel := by
  fun_induction gotoLoop leafLevel blk extent handle with
  | case1 extent handle hlevel hcovers =>
    cases hok
    exact ⟨h,hcurr,hsized,hlevel,rfl⟩
  | case2 | case3 | case4 | case5 | case7 | case9 => cases hok
  | case6 extent handle hlevel hcovers hbefore extent' next hget ih =>
    obtain ⟨hsound,hcurr,hdepth⟩ := sound_extentGet h hget
    obtain ⟨hsound,hposition,hsized,hlevel,hmax⟩ :=
      ih hsound (blockSized_nextSib hsized hget) hcurr hok
    exact ⟨hsound,hposition,hsized,hlevel,hmax.trans hdepth⟩
  | case8 extent handle hlevel extent' next hstep ih =>
    obtain ⟨hsound,hsized,hcurr,hdepth⟩ := (indexStep_sound h hsized).2 _ _ hstep
    obtain ⟨hsound,hposition,hsized,hlevel,hmax⟩ := ih hsound hsized hcurr hok
    exact ⟨hsound,hposition,hsized,hlevel,hmax.trans hdepth⟩
  | case10 extent handle hlevel mid hstep extent' down hget ih =>
    obtain ⟨hsound,hmid⟩ := (indexStep_sound h hsized).1 _ hstep
    obtain ⟨hsound,hcurr,hdepth⟩ := sound_extentGet hsound hget
    obtain ⟨hsound,hposition,hsized,hlevel,hmax⟩ := ih hsound (blockSized_down hget) hcurr hok
    exact ⟨hsound,hposition,hsized,hlevel,hmax.trans (hdepth.trans hmid)⟩

theorem extentGoto2_found {leafLevel blk : ℕ} {handle after : Handle} (h : Sound handle)
    (hok : extentGoto2 leafLevel blk handle=.ok () after) : Found handle after leafLevel := by
  simp only [extentGoto2] at hok
  split at hok
  · cases hok
  · cases hok
  · rename_i extent root hget
    split at hok
    · cases hok
    · obtain ⟨hsound,hcurr,hdepth⟩ := sound_extentGet h hget
      have hzero : root.level=0 := by
        obtain ⟨-,rfl⟩ := nextSib_ok (extentGet_ok hget).1
        rfl
      obtain ⟨hsound,hposition,hsized,hlevel,hmax⟩ :=
        gotoLoop_found hsound (fun hne => absurd hzero hne) hcurr hok
      exact ⟨hsound,hposition,hsized,hlevel,hmax.trans hdepth⟩

/-! ## Writes -/

/-- Nothing but the device has changed, and it has no empty node if it had none. -/
def Wrote (handle after : Handle) : Prop :=
  ∃ fs, after={handle with fs := fs} ∧ fs.geometry=handle.fs.geometry ∧
    (NoEmptyNode handle.fs → NoEmptyNode fs)

theorem Sound.wrote {handle after : Handle} (h : Sound handle) (hwrote : Wrote handle after) :
    Sound after := by
  obtain ⟨fs,rfl,-,hfs⟩ := hwrote
  exact ⟨h.counted,hfs h.noEmpty,h.level_le⟩

theorem wrote_writeBlk {blk : ℕ} {node : ExtentNode} {handle : Handle}
    (hnode : extentHeaderVerify node handle.fs.geometry.blocksize=true →
      0 < node.ehEntries.toNat) :
    Wrote handle (handleOf (writeBlk blk node handle)) := by
  cases hwrite : writeBlk blk node handle with
  | error e after =>
    obtain ⟨-,fs,rfl,hkept,hdisk⟩ := writeBlk_error hwrite
    refine ⟨fs,rfl,hkept.geometry,fun h b => ?_⟩
    rw [hdisk,hkept.geometry]
    exact h b
  | ok _ after =>
    obtain ⟨fs,rfl,hkept,hdisk⟩ := writeBlk_ok hwrite
    refine ⟨fs,rfl,hkept.geometry,fun h b => ?_⟩
    rw [hdisk,hkept.geometry]
    by_cases hb : b=blk
    · rw [hb,Function.update_self]
      exact hnode
    · rw [Function.update_of_ne hb]
      exact h b

theorem wrote_writeInode (handle : Handle) : Wrote handle (handleOf (writeInode handle)) := by
  rw [writeInode]
  cases handle.fs.writeFault handle.fs.writes with
  | some code => exact ⟨_,rfl,rfl,id⟩
  | none => exact ⟨_,rfl,rfl,id⟩

/-- The node at the level of a handle is written, which is not empty or is the root. -/
theorem wrote_updatePath {handle : Handle}
    (h : handle.level≠0 → 0 < handle.current.buf.ehEntries.toNat) :
    Wrote handle (handleOf (updatePath handle)) := by
  rw [updatePath]
  by_cases hlevel : handle.level=0
  · rw [if_pos hlevel]
    exact wrote_writeInode handle
  · rw [if_neg hlevel]
    exact wrote_writeBlk fun _ => h hlevel

theorem handleOf_ok {α : Type} (a : α) (handle : Handle) :
    handleOf (.ok a handle : EStateM.Result Errcode Handle α)=handle := rfl

theorem handleOf_ignoring (call : Call Unit) (handle : Handle) :
    ignoring call handle=.ok () (handleOf (call handle)) := by
  rw [ignoring]
  cases call handle <;> rfl

/-! ## Deletions -/

theorem removed_entries (path : ExtentPath) (i : ℕ) :
    (ExtentPath.removed path i).entries=path.entries-1 := by
  rw [ExtentPath.removed]
  split <;> rfl

theorem removed_left (path : ExtentPath) (i : ℕ) :
    (ExtentPath.removed path i).left=if path.left≠0 then path.left-1 else path.left := by
  rw [ExtentPath.removed]
  split <;> rfl

theorem removed_curr (path : ExtentPath) (i : ℕ) :
    (ExtentPath.removed path i).curr=
      if path.entries-1=0 then none else if path.left≠0 then path.curr else some (i-1) := by
  rw [ExtentPath.removed]
  split <;> rfl

theorem removed_maxEntries (path : ExtentPath) (i : ℕ) :
    (ExtentPath.removed path i).maxEntries=path.maxEntries ∧
      (ExtentPath.removed path i).buf.ehMax=path.buf.ehMax := by
  rw [ExtentPath.removed]
  split <;> exact ⟨rfl,rfl⟩

/-- The path without its entry has right counts, once the node has its number of entries. -/
theorem CountedPath.removed {path : ExtentPath} (h : CountedPath path) {i : ℕ}
    (hcurr : path.curr=some i) (depth : UInt16) :
    CountedPath {ExtentPath.removed path i with
      buf := {(ExtentPath.removed path i).buf with
        ehEntries := .ofNat (ExtentPath.removed path i).entries
        ehDepth := depth}} := by
  have hposition := h.position hcurr
  have hentries := h.entries
  have hmax := h.maxEntries
  have hlt : path.buf.ehEntries.toNat<2^16 := path.buf.ehEntries.toNat_lt
  refine ⟨?_,?_,fun {j} hj => ?_,fun hnone => ?_⟩
  · simp only [removed_entries,UInt16.toNat_ofNat']
    omega
  · simp only [removed_maxEntries]
    exact hmax
  · simp only [removed_curr] at hj
    simp only [removed_entries,removed_left]
    by_cases hleft : path.left=0
    · rw [if_neg (not_not.mpr hleft)] at hj ⊢
      split at hj
      · cases hj
      · cases hj
        omega
    · rw [if_pos hleft] at hj ⊢
      split at hj
      · cases hj
      · cases hcurr.symm.trans hj
        omega
  · simp only [removed_curr] at hnone
    simp only [removed_entries,removed_left]
    split at hnone
    · rw [if_neg (by omega)]
      omega
    · split at hnone
      · cases hcurr.symm.trans hnone
      · cases hnone

theorem setPath_setPath (handle : Handle) (level : ℕ) (path path' : ExtentPath) :
    (handle.setPath level path).setPath level path'=handle.setPath level path' := by
  simp only [Handle.setPath,Function.update_idem]

/-- The node that loses an entry is the root or has another one. -/
theorem sound_writeRemoved {handle : Handle} {i : ℕ} (h : Sound handle)
    (hcurr : handle.current.curr=some i) (hne : handle.level≠0 → handle.current.entries≠1) :
    Sound (handleOf (deleteFrom.writeRemoved
      (handle.setPath handle.level (ExtentPath.removed handle.current i))
      (ExtentPath.removed handle.current i))) := by
  have hlt := (h.current.position hcurr).1
  have hpos : handle.level≠0 →
      0 < (UInt16.ofNat (ExtentPath.removed handle.current i).entries).toNat := by
    intro hlevel
    have hentries := (h.current.removed hcurr 0).entries
    have := hne hlevel
    have hcount := removed_entries handle.current i
    simp only at hentries
    omega
  simp only [deleteFrom.writeRemoved,setPath_level,setPath_setPath]
  split
  · rename_i hzero
    have hset := h.setPath (h.current.removed hcurr 0)
    have hroot : Sound {handle.setPath handle.level
        {ExtentPath.removed handle.current i with
          buf := {(ExtentPath.removed handle.current i).buf with
            ehEntries := .ofNat (ExtentPath.removed handle.current i).entries
            ehDepth := 0}} with maxDepth := 0} :=
      ⟨hset.counted,hset.noEmpty,hzero.2.le⟩
    exact hroot.wrote (wrote_updatePath fun hlevel => absurd hzero.2 hlevel)
  · refine (h.setPath (h.current.removed hcurr _)).wrote (wrote_updatePath fun hlevel => ?_)
    rw [setPath_current]
    exact hpos hlevel

/-- The level above that of a handle, whatever its own path is. -/
theorem Sound.parent {handle : Handle} (h : Sound handle) (hlevel : handle.level≠0)
    (path : ExtentPath) : Sound (atLevel (handle.setPath handle.level path) (handle.level-1)) := by
  refine ⟨fun {k} hk => ?_,h.noEmpty,(Nat.sub_le _ _).trans h.level_le⟩
  have hk' : k≤handle.level-1 := hk
  have heq : (atLevel (handle.setPath handle.level path) (handle.level-1)).path k=handle.path k :=
    setPath_path_of_ne handle path (by omega)
  rw [heq]
  exact h.counted (by omega)

/-- A move to the parent ends there even if it fails for want of a position. -/
theorem extentGet_up_cases {handle : Handle} (hlevel : handle.level≠0) :
    (∃ extent, extentGet .up handle=.ok extent (atLevel handle (handle.level-1))) ∨
      extentGet .up handle=.error .noCurrentNode (atLevel handle (handle.level-1)) := by
  have hmove : extentMove .up handle=.ok () (atLevel handle (handle.level-1)) := by
    rw [extentMove,goUp,if_neg hlevel]
    rfl
  simp only [extentGet,hmove]
  cases (atLevel handle (handle.level-1)).current.curr with
  | none => exact .inr rfl
  | some i => exact .inl ⟨_,rfl⟩

/-- The block of an emptied node is no longer counted and no longer in use. -/
theorem sound_freeNode {handle : Handle} (h : Sound handle) (blk : ℕ) :
    Sound (handleOf
      (let free (handle : Handle) : Handle :=
        {handle with fs := {handle.fs with blockMap := handle.fs.blockMap.erase blk}}
      match writeInode {handle with
        iBlocks := handle.iBlocks-clusterSectors handle.fs.geometry} with
      | .ok _ handle => (.ok () (free handle) : EStateM.Result Errcode Handle Unit)
      | .error e handle => .error e (free handle))) := by
  have hcounted : Sound {handle with
      iBlocks := handle.iBlocks-clusterSectors handle.fs.geometry} :=
    ⟨h.counted,h.noEmpty,h.level_le⟩
  have hwritten := hcounted.wrote (wrote_writeInode _)
  dsimp only
  cases hresult : writeInode {handle with
    iBlocks := handle.iBlocks-clusterSectors handle.fs.geometry} with
  | ok _ after =>
    rw [hresult] at hwritten
    exact ⟨hwritten.counted,hwritten.noEmpty,hwritten.level_le⟩
  | error e after =>
    rw [hresult] at hwritten
    exact ⟨hwritten.counted,hwritten.noEmpty,hwritten.level_le⟩

/-- A deletion keeps the counts even if it fails, unless it keeps an empty node. -/
theorem sound_deleteFrom {keepEmpty : Bool} {level : ℕ} :
    ∀ {handle : Handle}, handle.level=level → Sound handle →
      (keepEmpty=true → level≠0 → handle.current.curr.isSome → handle.current.entries≠1) →
      Sound (handleOf (deleteFrom level keepEmpty handle)) := by
  induction level with
  | zero =>
    intro handle hlevel h hkeep
    rw [deleteFrom]
    dsimp only
    split
    · exact h
    · split
      · exact h
      · rename_i i hcurr
        exact sound_writeRemoved h hcurr fun hne => absurd hlevel hne
  | succ parent ih =>
    intro handle hlevel h hkeep
    rw [deleteFrom]
    dsimp only
    split
    · exact h
    · split
      · exact h
      · rename_i i hcurr
        have hlt := (h.current.position hcurr).1
        split
        · rename_i hempty
          rw [removed_entries] at hempty
          split
          · rename_i hkeepEmpty
            exact absurd (show handle.current.entries=1 by omega)
              (hkeep hkeepEmpty (Nat.succ_ne_zero _) (by rw [hcurr]; rfl))
          · rename_i hdelete
            have hne : handle.level≠0 := by omega
            have hup := h.parent hne (ExtentPath.removed handle.current i)
            have hdeleted := ih (show (atLevel (handle.setPath handle.level
              (ExtentPath.removed handle.current i)) (handle.level-1)).level=parent by
                rw [hlevel]; rfl) hup fun hkeepEmpty => absurd hkeepEmpty hdelete
            rcases extentGet_up_cases (show (handle.setPath handle.level
              (ExtentPath.removed handle.current i)).level≠0 from hne) with ⟨extent,hget⟩ | hget
            · simp only [hget,setPath_level]
              cases hresult : deleteFrom parent keepEmpty (atLevel (handle.setPath handle.level
                (ExtentPath.removed handle.current i)) (handle.level-1)) with
              | ok _ deleted =>
                rw [hresult] at hdeleted
                simp only
                exact sound_freeNode hdeleted extent.ePblk
              | error e deleted =>
                rw [hresult] at hdeleted
                simp only
                exact sound_freeNode hdeleted extent.ePblk
            · simp only [hget]
              exact hup
        · rename_i hentries
          rw [removed_entries,setPath_level] at hentries
          exact sound_writeRemoved h hcurr fun hne => by omega

/-! ## Insertions -/

/-- The path with a new entry at its position, or after it, has right counts. -/
theorem CountedPath.inserted {path : ExtentPath} (h : CountedPath path) {i : ℕ}
    (hcurr : path.curr=some i) (hroom : path.entries+1<2^16) (after : Bool) :
    CountedPath (ExtentPath.inserted path after) := by
  have hposition := h.position hcurr
  refine ⟨?_,h.maxEntries,fun {j} hj => ?_,nofun⟩
  · simp only [ExtentPath.inserted,UInt16.toNat_ofNat']
    omega
  · cases after with
    | false =>
      simp only [ExtentPath.inserted,hcurr,Option.some.injEq,Bool.false_eq_true,and_false,
        if_false] at hj ⊢
      omega
    | true =>
      simp only [ExtentPath.inserted,hcurr,Option.some.injEq,Option.isSome_some,and_self,
        if_true] at hj ⊢
      omega

theorem CountedPath.storeSlot {path : ExtentPath} (h : CountedPath path) (i : ℕ) (slot : Slot) :
    CountedPath (storeSlot path i slot) :=
  ⟨h.entries,h.maxEntries,h.position,h.unset⟩

/-- The position, the counts and the depth are the same. -/
structure Stayed (handle after : Handle) : Prop where
  level : after.level=handle.level
  maxDepth : after.maxDepth=handle.maxDepth
  curr : after.current.curr=handle.current.curr
  left : after.current.left=handle.current.left
  entries : after.current.entries=handle.current.entries

theorem Stayed.trans {a b c : Handle} (h : Stayed a b) (h' : Stayed b c) : Stayed a c :=
  ⟨h'.level.trans h.level,h'.maxDepth.trans h.maxDepth,h'.curr.trans h.curr,
    h'.left.trans h.left,h'.entries.trans h.entries⟩

theorem stayed_fs (handle : Handle) (fs : Filsys) : Stayed handle {handle with fs := fs} :=
  ⟨rfl,rfl,rfl,rfl,rfl⟩

theorem stayed_updatePath (handle : Handle) : Stayed handle (handleOf (updatePath handle)) := by
  cases hupdate : updatePath handle with
  | ok _ after =>
    obtain ⟨fs,rfl,-⟩ := updatePath_ok hupdate
    exact stayed_fs handle fs
  | error e after =>
    obtain ⟨-,fs,rfl,-⟩ := updatePath_error hupdate
    exact stayed_fs handle fs

theorem stayed_store (handle : Handle) (i : ℕ) (slot : Slot) :
    Stayed handle (handleOf (updatePath (ExtentUpdate.Handle.store handle i slot))) := by
  have hstore : Stayed handle (ExtentUpdate.Handle.store handle i slot) := by
    rw [ExtentUpdate.Handle.store]
    exact ⟨rfl,rfl,by rw [setPath_current],by rw [setPath_current],by rw [setPath_current]⟩
  exact hstore.trans (stayed_updatePath _)

/-- A node with a position is not empty. -/
theorem Sound.node_pos {handle : Handle} (h : Sound handle) {i : ℕ}
    (hcurr : handle.current.curr=some i) : 0 < handle.current.buf.ehEntries.toNat := by
  have hlt := (h.current.position hcurr).1
  have hentries := h.current.entries
  omega

/-- The node is written after another slot was stored in it. -/
theorem sound_store {handle : Handle} (h : Sound handle) {i : ℕ}
    (hcurr : handle.current.curr=some i) (slot : Slot) :
    Sound (handleOf (updatePath (ExtentUpdate.Handle.store handle i slot))) := by
  have hset := h.setPath (h.current.storeSlot i slot)
  refine hset.wrote (wrote_updatePath fun _ => ?_)
  rw [setPath_current]
  exact h.node_pos hcurr

/-- A replacement stores a slot at the position. -/
theorem extentReplace_ok {extent : Extent} {handle after : Handle}
    (hok : extentReplace extent handle=.ok () after) :
    ∃ i slot, handle.current.curr=some i ∧
      after=handleOf (updatePath (ExtentUpdate.Handle.store handle i slot)) := by
  simp only [extentReplace,handleOf_ignoring] at hok
  split at hok
  · cases hok
  · split at hok
    · cases hok
    · rename_i i hcurr
      split at hok
      · split at hok
        · split at hok
          · cases hok
          · cases hok
            exact ⟨i,_,hcurr,rfl⟩
        · split at hok
          · cases hok
          · cases hok
            exact ⟨i,_,hcurr,rfl⟩
      · cases hok
        exact ⟨i,_,hcurr,rfl⟩

theorem stayed_extentReplace {extent : Extent} {handle after : Handle}
    (hok : extentReplace extent handle=.ok () after) : Stayed handle after := by
  obtain ⟨i,slot,-,rfl⟩ := extentReplace_ok hok
  exact stayed_store handle i slot

/-- A replacement keeps the counts. -/
theorem sound_extentReplace {extent : Extent} {handle after : Handle} (h : Sound handle)
    (hok : extentReplace extent handle=.ok () after) : Sound after ∧ Stayed handle after := by
  refine ⟨?_,stayed_extentReplace hok⟩
  obtain ⟨i,slot,hcurr,rfl⟩ := extentReplace_ok hok
  exact sound_store h hcurr slot

/-- What a split is to leave for an insertion. -/
def SplitSound (split : Call Unit) : Prop :=
  ∀ {handle after : Handle}, Sound handle → split handle=.ok () after →
    Sound after ∧ after.current.curr.isSome ∧ BlockSized after ∧ after.level≠0 ∧
      handle.maxDepth≤after.maxDepth

theorem maxSlots_lt (geometry : Geometry) : maxSlots geometry.blocksize+1<2^16 := by
  have := geometry.blocksize_le
  rw [maxSlots]
  omega

/-- An insertion at a position keeps the counts. -/
theorem sound_extentInsert {split : Call Unit} {after noSplit : Bool} {extent : Extent}
    {handle final : Handle} (hsplit : SplitSound split) (h : Sound handle)
    (hcurr : handle.current.curr.isSome)
    (hok : extentInsert split after noSplit extent handle=.ok () final) :
    Sound final ∧ final.current.curr.isSome ∧ handle.maxDepth≤final.maxDepth := by
  have hstored : ∀ mid, Sound mid → mid.current.curr.isSome → mid.current.entries+1<2^16 →
      (do extentReplace extent; updatePath : Call Unit)
        (mid.setPath mid.level (ExtentPath.inserted mid.current after))=.ok () final →
      Sound final ∧ final.current.curr.isSome ∧ mid.maxDepth≤final.maxDepth := by
    intro mid hmid hposition hroom hstore
    obtain ⟨i,hi⟩ := Option.isSome_iff_exists.mp hposition
    obtain ⟨_,replaced,hreplace,hupdate⟩ := bind_ok hstore
    obtain ⟨hsound,hstay⟩ :=
      sound_extentReplace (hmid.setPath (hmid.current.inserted hi hroom after)) hreplace
    have hcurrent : replaced.current.curr.isSome := by
      rw [hstay.curr,setPath_current]
      rfl
    obtain ⟨j,hj⟩ := Option.isSome_iff_exists.mp hcurrent
    have hwrote := wrote_updatePath fun _ => hsound.node_pos hj
    have hstayed := stayed_updatePath replaced
    rw [hupdate,handleOf_ok] at hwrote hstayed
    refine ⟨hsound.wrote hwrote,?_,?_⟩
    · rw [hstayed.curr]
      exact hcurrent
    · exact (hstayed.maxDepth.trans hstay.maxDepth).symm.le
  simp only [extentInsert] at hok
  split at hok
  · cases hok
  · split at hok
    · cases hok
    · rename_i mid hroom
      have hmid : (do extentReplace extent; updatePath : Call Unit)
          (mid.setPath mid.level (ExtentPath.inserted mid.current after))=.ok () final := by
        split at hok
        · rename_i hresult
          cases hok
          exact hresult
        · split at hok <;> cases hok
      split at hroom
      · split at hroom
        · cases hroom
        · obtain ⟨hsound,hposition,hsized,hlevel,hdepth⟩ := hsplit h hroom
          have hle := hsized hlevel
          have hlt := maxSlots_lt mid.fs.geometry
          obtain ⟨hfinal,hset,hmax⟩ := hstored mid hsound hposition (by omega) hmid
          exact ⟨hfinal,hset,hdepth.trans hmax⟩
      · rename_i hfull
        cases hroom
        have hmax := h.current.maxEntries
        have hlt : handle.current.buf.ehMax.toNat<2^16 := handle.current.buf.ehMax.toNat_lt
        exact hstored handle h hcurr (by omega) hmid

/-! ## Splits -/

theorem moved_tocopy {handle moved : Handle} {node : NewNode} {fs : Filsys}
    (h : EntriesMoved handle moved node fs) : 0 < tocopy handle ∧
      tocopy handle≤handle.current.buf.ehEntries.toNat := by
  refine ⟨Nat.pos_of_ne_zero h.copied,?_⟩
  rw [tocopy]
  split
  · exact le_rfl
  · exact Nat.div_le_self _ _

/-- The entries that stay in a node below the root. -/
theorem moved_kept {handle moved : Handle} {node : NewNode} {fs : Filsys}
    (hmoved : EntriesMoved handle moved node fs) (h : Sound handle) (hlevel : handle.level≠0) :
    0 < moved.current.buf.ehEntries.toNat := by
  have hpos := (moved_tocopy hmoved).1
  have hentries := h.current.entries
  have hlt : handle.current.buf.ehEntries.toNat<2^16 := handle.current.buf.ehEntries.toNat_lt
  rw [(hmoved.below hlevel).2.2.2.2.2]
  rw [tocopy,if_neg hlevel] at hpos
  simp only [tocopy,hlevel,if_false,UInt16.toNat_ofNat']
  omega

/-- Neither part of a node that was split is empty. -/
theorem moved_noEmpty {handle moved : Handle} {node : NewNode} {fs : Filsys}
    (hmoved : EntriesMoved handle moved node fs) (h : Sound handle) : NoEmptyNode fs := by
  intro b hverify
  by_cases hold : nodeBlk moved=some b
  · rw [hmoved.old b hold]
    refine moved_kept hmoved h fun hzero => ?_
    have hroot : nodeBlk moved=none := by
      rw [nodeBlk,hmoved.detached,if_pos]
      rw [ExtentUpdate.Handle.detach,if_pos hzero]
      exact hzero
    rw [hroot] at hold
    cases hold
  · by_cases hnew : b=node.pblk
    · rw [hnew,hmoved.new (by rw [←hnew]; exact hold)]
      obtain ⟨hpos,hle⟩ := moved_tocopy hmoved
      have hlt : handle.current.buf.ehEntries.toNat<2^16 := handle.current.buf.ehEntries.toNat_lt
      simp only [newNode,tailNode,UInt16.toNat_ofNat']
      omega
    · rw [hmoved.frame b hnew hold] at hverify ⊢
      rw [hmoved.geometry] at hverify
      exact h.noEmpty b hverify

/-- The levels above a node that was split. -/
theorem moved_parent {handle moved : Handle} {node : NewNode} {fs : Filsys}
    (hmoved : EntriesMoved handle moved node fs) (h : Sound handle) (hlevel : handle.level≠0) :
    Sound (atLevel moved (moved.level-1)) := by
  obtain ⟨hfs,hsame,hdepth,-,hpath,-⟩ := hmoved.below hlevel
  refine ⟨fun {k} hk => ?_,?_,?_⟩
  · have hk' : k ≤ moved.level-1 := hk
    have heq : (atLevel moved (moved.level-1)).path k=handle.path k := hpath (by omega)
    rw [heq]
    exact h.counted (by omega)
  · have heq : (atLevel moved (moved.level-1)).fs=fs := hfs
    rw [heq]
    exact moved_noEmpty hmoved h
  · have hle := h.level_le
    have hlevels : (atLevel moved (moved.level-1)).level=moved.level-1 := rfl
    have hdepths : (atLevel moved (moved.level-1)).maxDepth=moved.maxDepth := rfl
    omega

/-- The index entry of the new node is the first of the root. -/
theorem moved_root {handle moved : Handle} {node : NewNode} {fs : Filsys}
    (hmoved : EntriesMoved handle moved node fs) (h : Sound handle) (hlevel : handle.level=0) :
    Sound (moved.setPath moved.level
        {moved.current with left := moved.current.entries, curr := none}) ∧
      moved.maxDepth=handle.maxDepth+1 := by
  have hzero : moved.level=0 := by
    rw [hmoved.detached,ExtentUpdate.Handle.detach,if_pos hlevel]
    exact hlevel
  have hcurrent : moved.current.buf.ehEntries=1 ∧ moved.current.entries=1 ∧
      moved.current.maxEntries=moved.current.buf.ehMax.toNat := by
    have hmax := h.current.maxEntries
    rw [Handle.current,hzero,hmoved.detached,ExtentUpdate.Handle.detach,if_pos hlevel]
    exact ⟨rfl,rfl,hmax⟩
  have hdepth : moved.maxDepth=handle.maxDepth+1 := by
    rw [hmoved.detached,ExtentUpdate.Handle.detach,if_pos hlevel]
  have hfs : moved.fs=fs := by rw [hmoved.detached]
  refine ⟨⟨fun {k} hk => ?_,?_,?_⟩,hdepth⟩
  · have hk' : k=moved.level := by
      have : k ≤ moved.level := hk
      omega
    rw [hk',setPath_path_self]
    refine ⟨?_,hcurrent.2.2,fun hi => absurd hi (Option.some_ne_none _).symm,fun _ => rfl⟩
    rw [hcurrent.1]
    exact hcurrent.2.1
  · rw [setPath_fs,hfs]
    exact moved_noEmpty hmoved h
  · rw [setPath_level,hzero]
    exact Nat.zero_le _

/-- The index entry of the new node is made at a position. -/
theorem linkNode_sound {split : Call Unit} (hsplit : SplitSound split) {node : NewNode}
    {handle moved linked : Handle} {fs : Filsys} (hmoved : EntriesMoved handle moved node fs)
    (h : Sound handle) (hok : linkNode split node moved=.ok () linked) :
    Sound linked ∧
      (if handle.level=0 then handle.maxDepth+1 else handle.maxDepth)≤linked.maxDepth := by
  rw [linkNode,hmoved.newRoot] at hok
  by_cases hlevel : handle.level=0
  · rw [if_pos (decide_eq_true hlevel)] at hok
    obtain ⟨hsound,hdepth⟩ := moved_root hmoved h hlevel
    obtain ⟨extent,first,hget,hrest⟩ := bind_ok hok
    obtain ⟨_,_,hstate,hreplace⟩ := bind_ok hrest
    cases hstate
    have hmove := (extentGet_ok hget).1
    obtain ⟨hlinked,hstay⟩ := sound_extentReplace (sound_firstSib hsound hmove) hreplace
    rw [if_pos hlevel,hstay.maxDepth,(extentMove_kept hmove).2,hdepth]
    exact ⟨hlinked,le_rfl⟩
  · rw [if_neg (by rw [decide_eq_false hlevel]; exact Bool.noConfusion)] at hok
    obtain ⟨extent,parent,hget,hrest⟩ := bind_ok hok
    obtain ⟨_,stored,hreplace,hinsert⟩ := bind_ok hrest
    obtain ⟨hmove,i,hcurr,-⟩ := extentGet_ok hget
    obtain ⟨-,rfl⟩ := goUp_ok hmove
    obtain ⟨hstored,hstay⟩ := sound_extentReplace (moved_parent hmoved h hlevel) hreplace
    have hposition : stored.current.curr.isSome := by
      rw [hstay.curr,hcurr]
      rfl
    obtain ⟨hlinked,-,hdepth⟩ := sound_extentInsert hsplit hstored hposition hinsert
    rw [if_neg hlevel]
    refine ⟨hlinked,?_⟩
    rw [hstay.maxDepth] at hdepth
    exact (hmoved.below hlevel).2.2.1.symm.le.trans hdepth

/-- The split of a full parent returns to the node. -/
theorem splitParent_sound {split : Call Unit} (hsplit : SplitSound split) {blk goal : ℕ}
    {handle mid : Handle} (h : Sound handle)
    (hok : splitParent split (handle.maxDepth-handle.level) blk handle=.ok goal mid) :
    Sound mid ∧ mid.level+(handle.maxDepth-handle.level)=mid.maxDepth ∧
      handle.maxDepth ≤ mid.maxDepth := by
  have hle := h.level_le
  simp only [splitParent] at hok
  split at hok
  · obtain ⟨extent,parent,hget,hrest⟩ := bind_ok hok
    obtain ⟨_,halved,hhalve,hrest⟩ := bind_ok hrest
    obtain ⟨_,found,hgoto,hpure⟩ := bind_ok hrest
    cases hpure
    obtain ⟨hparent,-,hdepth⟩ := sound_extentGet h hget
    obtain ⟨hhalved,-,-,-,hgrown⟩ := hsplit hparent hhalve
    have hfound := extentGoto2_found hhalved hgoto
    refine ⟨hfound.sound,hfound.level,?_⟩
    rw [hfound.maxDepth]
    exact hdepth.symm.le.trans hgrown
  · cases hok
    exact ⟨h,by omega,le_rfl⟩

theorem sound_countBlock {handle after : Handle} (h : Sound handle)
    (hok : countBlock handle=.ok () after) : Sound after ∧ Stayed handle after ∧
      after.path=handle.path ∧ after.fs.geometry=handle.fs.geometry := by
  obtain ⟨_,counted,hmodify,hwrite⟩ := bind_ok hok
  cases hmodify
  have hsound : Sound {handle with
      iBlocks := handle.iBlocks+clusterSectors handle.fs.geometry} :=
    ⟨h.counted,h.noEmpty,h.level_le⟩
  have hwrote := wrote_writeInode {handle with
    iBlocks := handle.iBlocks+clusterSectors handle.fs.geometry}
  rw [hwrite] at hwrote
  have hafter := hsound.wrote hwrote
  obtain ⟨fs,heq,hgeometry,-⟩ := hwrote
  change after=_ at heq
  subst heq
  exact ⟨hafter,⟨rfl,rfl,rfl,rfl,rfl⟩,rfl,hgeometry⟩

/-- A split keeps the counts, and ends at a position below the root in a node that fits into
a block. -/
theorem nodeSplit_sound (calls : ℕ) : SplitSound (nodeSplit calls) := by
  induction calls with
  | zero =>
    intro handle after _ hok
    cases hok
  | succ calls ih =>
    intro handle after h hok
    simp only [nodeSplit] at hok
    split at hok
    · cases hok
    · obtain ⟨extent,_,hget,hrest⟩ := bind_ok hok
      obtain ⟨hmove,-⟩ := extentGet_ok hget
      cases hmove
      obtain ⟨goal,mid,hparent,hrest⟩ := bind_ok hrest
      obtain ⟨hmid,hheight,hgrown⟩ := splitParent_sound ih h hparent
      obtain ⟨node,moved,hnode,hrest⟩ := bind_ok hrest
      obtain ⟨_,linked,hlink,hrest⟩ := bind_ok hrest
      obtain ⟨_,found,hgoto,hcount⟩ := bind_ok hrest
      rcases @splitNode_cases goal mid with ⟨e,failed,-,hfail⟩ | ⟨node',moved',fs,hnode',hmoved⟩
      · cases hfail.symm.trans hnode
      · cases hnode'.symm.trans hnode
        obtain ⟨hlinked,hdepth⟩ := linkNode_sound ih hmoved hmid hlink
        have hfound := extentGoto2_found hlinked hgoto
        obtain ⟨hafter,hstay,hpath,hgeometry⟩ := sound_countBlock hfound.sound hcount
        have hlevel := hfound.level
        have hmax := hfound.maxDepth
        have hbelow : found.level≠0 := by
          split at hdepth
          · omega
          · omega
        refine ⟨hafter,?_,fun _ => ?_,?_,?_⟩
        · rw [hstay.curr]
          exact hfound.position
        · have hsized := hfound.sized hbelow
          rw [Handle.current,hpath,hstay.level,hgeometry]
          exact hsized
        · rw [hstay.level]
          exact hbelow
        · rw [hstay.maxDepth,hmax]
          refine hgrown.trans ?_
          split at hdepth
          · omega
          · exact hdepth

/-! ## Walks -/

theorem sound_lastSib {handle after : Handle} (h : Sound handle) (hne : 0 < handle.current.entries)
    (hok : lastSib handle=.ok () after) : Sound after := by
  cases hok
  refine h.setPath ⟨h.current.entries,h.current.maxEntries,fun {i} hi => ?_,nofun⟩
  have hentries := h.current.entries
  simp only [Option.some.injEq] at hi ⊢
  omega

theorem countedPath_belowLast (path : ExtentPath) (i : ℕ) {node : ExtentNode} (visitNum : ℕ)
    (hne : 0 < node.ehEntries.toNat) :
    CountedPath (ExtentWalk.ExtentPath.belowLast path i node visitNum) := by
  refine ⟨rfl,rfl,fun {j} hj => ?_,nofun⟩
  simp only [ExtentWalk.ExtentPath.belowLast,ExtentPath.below,Option.some.injEq] at hj ⊢
  omega

theorem sound_goDownAndLast {handle after : Handle} (h : Sound handle)
    (hok : goDownAndLast handle=.ok () after) : Sound after ∧ 0 < after.current.entries := by
  simp only [goDownAndLast] at hok
  split at hok
  · cases hok
  · rename_i i _
    split at hok
    · cases hok
    · rename_i hlevel
      split at hok
      · cases hok
      · rename_i node hread
        split at hok
        · rename_i hverify
          cases hok
          have hne := readBlk_ok hread hverify h
          refine ⟨h.descend (by omega) (countedPath_belowLast _ i _ hne),?_⟩
          rw [Handle.current]
          simp only [Handle.setPath,Function.update_self]
          exact hne
        · cases hok

/-- The choice of the operation changes no more than `visit_num`. -/
theorem chooseOp_sound {orig op : Operation} {handle after : Handle} (h : Sound handle)
    (hok : chooseOp orig handle=.ok op after) :
    Sound after ∧ after.current.entries=handle.current.entries := by
  have hnext : chooseNext handle=.ok op after →
      Sound after ∧ after.current.entries=handle.current.entries := by
    intro hchoose
    simp only [chooseNext] at hchoose
    split at hchoose
    · cases hchoose
      refine ⟨h.setPath (h.current.visit _),?_⟩
      rw [setPath_current]
    · split at hchoose
      · cases hchoose
        exact ⟨h,rfl⟩
      · split at hchoose
        · cases hchoose
          exact ⟨h,rfl⟩
        · cases hchoose
  have hprev : choosePrev handle=.ok op after →
      Sound after ∧ after.current.entries=handle.current.entries := by
    intro hchoose
    simp only [choosePrev] at hchoose
    split at hchoose
    · cases hchoose
      exact ⟨h,rfl⟩
    · split at hchoose
      · cases hchoose
        exact ⟨h,rfl⟩
      · split at hchoose
        · cases hchoose
          exact ⟨h,rfl⟩
        · cases hchoose
  have hlast : chooseLastLeaf handle=.ok op after →
      Sound after ∧ after.current.entries=handle.current.entries := by
    intro hchoose
    simp only [chooseLastLeaf] at hchoose
    split at hchoose <;> cases hchoose <;> exact ⟨h,rfl⟩
  cases orig with
  | next => exact hnext hok
  | nextLeaf => exact hnext hok
  | prev => exact hprev hok
  | prevLeaf => exact hprev hok
  | lastLeaf => exact hlast hok
  | current => cases hok; exact ⟨h,rfl⟩
  | root => cases hok; exact ⟨h,rfl⟩
  | firstSib => cases hok; exact ⟨h,rfl⟩
  | lastSib => cases hok; exact ⟨h,rfl⟩
  | nextSib => cases hok; exact ⟨h,rfl⟩
  | prevSib => cases hok; exact ⟨h,rfl⟩
  | up => cases hok; exact ⟨h,rfl⟩
  | down => cases hok; exact ⟨h,rfl⟩
  | downAndLast => cases hok; exact ⟨h,rfl⟩

/-- Whether the operation may go to the last sibling of the node where it begins. -/
def toLast (orig : Operation) : Bool := orig=.lastSib ∨ orig=.lastLeaf

theorem chooseOp_toLast {orig : Operation} {handle after : Handle}
    (hok : chooseOp orig handle=.ok .lastSib after) : toLast orig=true := by
  have hnext : chooseNext handle≠.ok .lastSib after := by
    intro hchoose
    simp only [chooseNext] at hchoose
    split at hchoose
    · cases hchoose
    · split at hchoose
      · cases hchoose
      · split at hchoose <;> cases hchoose
  have hprev : choosePrev handle≠.ok .lastSib after := by
    intro hchoose
    simp only [choosePrev] at hchoose
    split at hchoose
    · cases hchoose
    · split at hchoose
      · cases hchoose
      · split at hchoose <;> cases hchoose
  cases orig with
  | lastSib => rfl
  | lastLeaf => rfl
  | next => exact absurd hok hnext
  | nextLeaf => exact absurd hok hnext
  | prev => exact absurd hok hprev
  | prevLeaf => exact absurd hok hprev
  | _ => cases hok

theorem switchOp_sound {orig op : Operation} {handle after : Handle} (h : Sound handle)
    (hne : op=.lastSib → 0 < handle.current.entries) (hok : switchOp orig op handle=.ok () after) :
    Sound after := by
  cases op with
  | current => exact @sound_extentMove .current _ _ h hok
  | root => exact @sound_extentMove .root _ _ h hok
  | firstSib => exact @sound_extentMove .firstSib _ _ h hok
  | nextSib => exact @sound_extentMove .nextSib _ _ h hok
  | prevSib => exact @sound_extentMove .prevSib _ _ h hok
  | down => exact @sound_extentMove .down _ _ h hok
  | lastSib => exact sound_lastSib h (hne rfl) hok
  | downAndLast => exact (sound_goDownAndLast h hok).1
  | up =>
    simp only [switchOp,goUpFrom] at hok
    split at hok
    · cases hok
    · rename_i hup
      have hparent := sound_goUp h hup
      split at hok
      · cases hok
        exact hparent.setPath (hparent.current.visit 0)
      · cases hok
        exact hparent
  | next => cases hok
  | prev => cases hok
  | nextLeaf => cases hok
  | prevLeaf => cases hok
  | lastLeaf => cases hok

/-- A successful `ext2fs_extent_get` keeps the counts, and the handle has a position then. -/
theorem extentGetOp_sound {rounds : ℕ} {orig : Operation} {extent : Extent}
    {handle after : Handle} (h : Sound handle)
    (hne : toLast orig=true → 0 < handle.current.entries)
    (hok : extentGetOp rounds orig handle=.ok extent after) :
    Sound after ∧ after.current.curr.isSome := by
  induction rounds generalizing handle with
  | zero => cases hok
  | succ rounds ih =>
    simp only [extentGetOp] at hok
    split at hok
    · cases hok
    · rename_i op chosen hchoose
      obtain ⟨hchosen,hentries⟩ := chooseOp_sound h hchoose
      have hlast : op=.lastSib → 0 < chosen.current.entries := by
        rintro rfl
        rw [hentries]
        exact hne (chooseOp_toLast hchoose)
      split at hok
      · cases hok
      · rename_i moved hswitch
        have hmoved := switchOp_sound hchosen hlast hswitch
        split at hok
        · cases hok
        · rename_i i hcurr
          split at hok
          · exact ih hmoved (fun _ => (Nat.zero_le i).trans_lt (hmoved.current.position hcurr).1) hok
          · cases hok
            exact ⟨hmoved,by rw [hcurr]; rfl⟩

/-! ## Runs -/

/-- The counts of the handle are right, and its next sibling is an entry. -/
structure CountsRight (handle : Handle) : Prop where
  entries : ∀ {k}, k≤handle.level → (handle.path k).entries=(handle.path k).buf.ehEntries.toNat
  position : ∀ {k i}, k≤handle.level → (handle.path k).curr=some i →
    i<(handle.path k).entries ∧ (handle.path k).left+1+i=(handle.path k).entries
  nextSib : ∀ {next}, nextSib handle=.ok () next →
    ∃ i, next.current.curr=some i ∧ i<next.current.buf.ehEntries.toNat

/-- An insertion needs a position, the last sibling an entry, and a deletion that keeps a
node below the root empty is none of its only entry. -/
def Permitted (handle : Handle) : Request → Prop
  | .get op => toLast op=true → 0 < handle.current.entries
  | .goto _ _ => True
  | .insert _ _ _ => handle.current.curr.isSome
  | .delete keepEmpty => keepEmpty=true → handle.level≠0 → handle.current.entries≠1

theorem Sound.right {handle : Handle} (h : Sound handle) : CountsRight handle where
  entries hk := (h.counted hk).entries
  position hk hcurr := (h.counted hk).position hcurr
  nextSib {next} hok := by
    have hnext := (sound_nextSib h hok).current
    obtain ⟨-,rfl⟩ := nextSib_ok hok
    rw [setPath_current] at hnext ⊢
    refine ⟨_,rfl,?_⟩
    have hlt := (hnext.position rfl).1
    have hentries := hnext.entries
    dsimp only at hentries hlt ⊢
    omega

/-- A successful call that is permitted keeps the counts. -/
theorem perform_sound {bound : ℕ} {request : Request} {handle after : Handle} (h : Sound handle)
    (hpermitted : Permitted handle request) (hok : perform bound request handle=.ok () after) :
    Sound after := by
  cases request with
  | get op =>
    obtain ⟨extent,_,hget,hpure⟩ := bind_ok hok
    cases hpure
    exact (extentGetOp_sound h hpermitted hget).1
  | goto leafLevel blk => exact (extentGoto2_found h hok).sound
  | insert later noSplit extent =>
    exact (sound_extentInsert (nodeSplit_sound bound) h hpermitted hok).1
  | delete keepEmpty =>
    have hsound := @sound_deleteFrom keepEmpty handle.level handle rfl h
      fun hkeep hlevel _ => hpermitted hkeep hlevel
    have hdelete : deleteFrom handle.level keepEmpty handle=.ok () after := hok
    rw [hdelete] at hsound
    exact hsound

/-- A handle on an empty node has no position. -/
theorem Sound.unset_of_empty {handle : Handle} (h : Sound handle)
    (hempty : handle.current.entries=0) :
    handle.current.curr=none ∧ handle.current.left=0 := by
  cases hcurr : handle.current.curr with
  | none =>
    refine ⟨rfl,?_⟩
    rw [h.current.unset hcurr,hempty]
    rfl
  | some i => exact absurd (h.current.position hcurr).1 (by omega)

/-- The last sibling in an empty node is none of its entries. -/
theorem lastSib_wrong {handle after : Handle} (hempty : handle.current.entries=0)
    (hok : lastSib handle=.ok () after) : ¬CountsRight after := by
  cases hok
  intro hright
  have hposition := @CountsRight.position _ hright handle.level
    (handle.current.buf.ehEntries.toNat-1) le_rfl (by rw [setPath_path_self])
  rw [setPath_path_self] at hposition
  dsimp only at hposition
  omega

/-- A round that goes to the last sibling and no further. -/
theorem extentGetOp_lastSib {rounds : ℕ} {orig : Operation} {extent : Extent}
    {handle after : Handle} (hchoose : chooseOp orig handle=.ok .lastSib handle)
    (hstop : ∀ last, lastSib handle=.ok () last → retries orig last=false)
    (hok : extentGetOp (rounds+1) orig handle=.ok extent after) : lastSib handle=.ok () after := by
  obtain ⟨last,hlast⟩ : ∃ last, lastSib handle=.ok () last := ⟨_,rfl⟩
  simp only [extentGetOp,hchoose,switchOp,hlast] at hok
  split at hok
  · cases hok
  · rw [hstop last hlast,if_neg Bool.noConfusion] at hok
    cases hok
    exact hlast

theorem extentGetOp_wrong {rounds : ℕ} {orig : Operation} {extent : Extent}
    {handle after : Handle} (h : Sound handle) (hlast : toLast orig=true)
    (hempty : handle.current.entries=0)
    (hok : extentGetOp rounds orig handle=.ok extent after) : ¬CountsRight after := by
  obtain ⟨hcurr,hleft⟩ := h.unset_of_empty hempty
  cases rounds with
  | zero => cases hok
  | succ rounds =>
    refine lastSib_wrong hempty ?_
    have hcases : orig=.lastSib ∨ orig=.lastLeaf := of_decide_eq_true hlast
    rcases hcases with rfl | rfl
    · exact extentGetOp_lastSib rfl (fun _ _ => rfl) hok
    · by_cases hlevel : handle.level < handle.maxDepth
      · have hchoose : chooseOp .lastLeaf handle=.ok .down handle := if_pos ⟨hlevel,hleft⟩
        have hdown : switchOp .lastLeaf .down handle=.error .noDown handle := by
          simp only [switchOp,extentMove,goDown,hcurr]
        simp only [extentGetOp,hchoose,hdown] at hok
        cases hok
      · have hmax : handle.level=handle.maxDepth := le_antisymm h.level_le (not_lt.mp hlevel)
        have hchoose : chooseOp .lastLeaf handle=.ok .lastSib handle :=
          if_neg fun hboth => hlevel hboth.1
        refine extentGetOp_lastSib hchoose (fun last hlast => ?_) hok
        cases hlast
        rw [retries,setPath_level,setPath_maxDepth,setPath_current]
        simp [hmax]

/-- The path with an entry where there was no position. -/
theorem inserted_unset {path : ExtentPath} (hcurr : path.curr=none) (after : Bool) :
    (ExtentPath.inserted path after).curr=some 0 ∧
      (ExtentPath.inserted path after).left=path.left+1 ∧
      (ExtentPath.inserted path after).entries=path.entries+1 := by
  refine ⟨?_,?_,rfl⟩
  · simp only [ExtentPath.inserted,hcurr]
  · simp [ExtentPath.inserted,hcurr]

/-- An insertion where there is no position counts one entry too many after it. -/
theorem extentInsert_wrong {bound : ℕ} {later noSplit : Bool} {extent : Extent}
    {handle after : Handle} (h : Sound handle) (hcurr : handle.current.curr=none)
    (hok : extentInsert (nodeSplit bound) later noSplit extent handle=.ok () after) :
    ¬CountsRight after := by
  have hunset := h.current.unset hcurr
  have hsplit : ∀ mid, nodeSplit bound handle≠.ok () mid := by
    intro mid hmid
    cases bound with
    | zero => cases hmid
    | succ calls =>
      simp only [nodeSplit] at hmid
      split at hmid
      · cases hmid
      · obtain ⟨extent,_,hget,-⟩ := bind_ok hmid
        obtain ⟨hmove,i,hsome,-⟩ := extentGet_ok hget
        cases hmove
        cases hcurr.symm.trans hsome
  simp only [extentInsert] at hok
  split at hok
  · cases hok
  · split at hok
    · cases hok
    · rename_i mid hroom
      have hsame : mid=handle := by
        split at hroom
        · split at hroom
          · cases hroom
          · exact absurd hroom (hsplit mid)
        · cases hroom
          rfl
      subst hsame
      split at hok
      · rename_i hstored
        cases hok
        obtain ⟨_,replaced,hreplace,hupdate⟩ := bind_ok hstored
        have hstay := stayed_updatePath replaced
        rw [hupdate,handleOf_ok] at hstay
        have hinserted := (stayed_extentReplace hreplace).trans hstay
        have hcurr' := hinserted.curr
        have hleft := hinserted.left
        have hentries := hinserted.entries
        rw [setPath_current] at hcurr' hleft hentries
        obtain ⟨hzero,hmore,hcount⟩ := inserted_unset hcurr later
        intro hright
        have hposition := hright.position le_rfl (hcurr'.trans hzero)
        change _ ∧ after.current.left+1+_=after.current.entries at hposition
        omega
      · split at hok <;> cases hok

theorem removed_ehEntries (path : ExtentPath) (i : ℕ) :
    (ExtentPath.removed path i).buf.ehEntries=path.buf.ehEntries := by
  rw [ExtentPath.removed]
  split <;> rfl

/-- A node that is kept without entries still has its number. -/
theorem extentDelete_wrong {handle after : Handle} (h : Sound handle) (hlevel : handle.level≠0)
    (hone : handle.current.entries=1) (hok : extentDelete true handle=.ok () after) :
    ¬CountsRight after := by
  have hentries := h.current.entries
  obtain ⟨parent,hparent⟩ := Nat.exists_eq_succ_of_ne_zero hlevel
  rw [extentDelete,hparent,deleteFrom] at hok
  dsimp only at hok
  split at hok
  · cases hok
  · split at hok
    · cases hok
    · rename_i i hcurr
      rw [if_pos ⟨by rw [removed_entries,hone],hlevel⟩,if_pos rfl] at hok
      cases hok
      intro hright
      have hwrong := @CountsRight.entries _ hright handle.level le_rfl
      rw [setPath_path_self,removed_entries,removed_ehEntries] at hwrong
      omega

/-- A successful call that is not permitted makes the counts wrong. -/
theorem perform_wrong {bound : ℕ} {request : Request} {handle after : Handle} (h : Sound handle)
    (hpermitted : ¬Permitted handle request) (hok : perform bound request handle=.ok () after) :
    ¬CountsRight after := by
  cases request with
  | get op =>
    obtain ⟨hlast,hempty⟩ := Classical.not_imp.mp hpermitted
    obtain ⟨extent,_,hget,hpure⟩ := bind_ok hok
    cases hpure
    exact extentGetOp_wrong h hlast (by omega) hget
  | goto leafLevel blk => exact absurd trivial hpermitted
  | insert later noSplit extent =>
    exact extentInsert_wrong h (Option.not_isSome_iff_eq_none.mp hpermitted) hok
  | delete keepEmpty =>
    obtain ⟨rfl,hrest⟩ := Classical.not_imp.mp hpermitted
    obtain ⟨hlevel,hone⟩ := Classical.not_imp.mp hrest
    exact extentDelete_wrong h hlevel (not_not.mp hone) hok

/-- A handle that was opened has right counts. -/
theorem sound_extentOpen2 {fs : Filsys} {extentsFl : Bool} {endBlk : ℕ} {opened : Handle}
    (hopen : extentOpen2 fs extentsFl endBlk=some opened) (hempty : NoEmptyNode fs) :
    Sound opened := by
  simp only [extentOpen2] at hopen
  split at hopen
  · cases hopen
  · split at hopen
    · cases hopen
      refine ⟨fun {k} hk => ?_,hempty,Nat.zero_le _⟩
      have hzero : k=0 := Nat.le_zero.mp hk
      rw [hzero]
      exact ⟨rfl,rfl,nofun,fun _ => rfl⟩
    · cases hopen

/-- A run whose calls are permitted keeps the counts. -/
theorem runs_sound {opened after : Handle} {steps : List (Handle×Request)} (h : Sound opened)
    (hrun : Runs opened steps after) (hpermitted : ∀ step∈steps, Permitted step.1 step.2) :
    Sound after ∧ ∀ step∈steps, Sound step.1 := by
  induction hrun with
  | start => exact ⟨h,nofun⟩
  | @step steps handle after bound request _ hok ih =>
    obtain ⟨hhandle,hsteps⟩ := ih fun step hstep => hpermitted step (List.mem_cons_of_mem _ hstep)
    refine ⟨perform_sound hhandle (hpermitted _ List.mem_cons_self) hok,fun step hstep => ?_⟩
    rcases List.mem_cons.mp hstep with rfl | hstep
    · exact hhandle
    · exact hsteps step hstep

/-- In a run of successful calls on a handle that was opened, while no block of the device is
an empty node, the counts are right in all states if and only if every insertion is at a
position, every move to the last sibling begins in a node with entries, and no deletion keeps
a node below the root empty. -/
theorem counts_right_iff_permitted (fs : Filsys) (extentsFl : Bool) (endBlk : ℕ)
    (opened after : Handle) (steps : List (Handle×Request))
    (hopen : extentOpen2 fs extentsFl endBlk=some opened) (hempty : NoEmptyNode fs)
    (hrun : Runs opened steps after) :
    ((∀ step∈steps, CountsRight step.1) ∧ CountsRight after) ↔
      ∀ step∈steps, Permitted step.1 step.2 := by
  have hopened := sound_extentOpen2 hopen hempty
  constructor
  · rintro ⟨hall,hafter⟩
    induction hrun with
    | start => exact nofun
    | @step steps handle after bound request hrun hok ih =>
      have hsteps := ih (fun step hstep => hall step (List.mem_cons_of_mem _ hstep))
        (hall _ List.mem_cons_self)
      have hhandle := (runs_sound hopened hrun hsteps).1
      intro step hstep
      rcases List.mem_cons.mp hstep with rfl | hstep
      · by_contra hpermitted
        exact perform_wrong hhandle hpermitted hok hafter
      · exact hsteps step hstep
  · intro hpermitted
    obtain ⟨hafter,hsteps⟩ := runs_sound hopened hrun hpermitted
    exact ⟨fun step hstep => (hsteps step hstep).right,hafter.right⟩

/-! ## A new file -/

/-- A file whose `i_block` is zero, on a device without nodes. -/
def newFile : Filsys := smallFs (fun _ => default) default []

/-- An extent of one block. -/
def oneBlock : Extent := ⟨100,0,1,true,false,false⟩

/-- The handle on the new file. -/
def newHandle : Handle := (extentOpen2 newFile true 0).getD (openHandle newFile 0)

theorem extentOpen2_newFile : extentOpen2 newFile true 0=some newHandle := rfl

theorem wellFormedTree_newHandle : ExtentTree.WellFormedTree newHandle where
  root_verify := by decide +kernel
  root_depth := rfl
  root_nonempty hdepth := absurd hdepth (Nat.lt_irrefl _)
  child hk := absurd hk (Nat.not_lt_zero _)
  sorted := List.Pairwise.nil
  len_pos slot hslot := absurd hslot List.not_mem_nil

theorem noEmptyNode_newFile : NoEmptyNode newFile :=
  fun _ hverify => absurd
    (show extentHeaderVerify default newFile.geometry.blocksize=true from hverify)
    (by decide +kernel)

/-- The new file with an extent, and the handle on it. -/
def insertedHandle : Handle := handleOf (perform 1 (.insert false false oneBlock) newHandle)

theorem runs_insertedHandle :
    Runs newHandle [(newHandle,.insert false false oneBlock)] insertedHandle :=
  .step (.start) (show perform 1 (.insert false false oneBlock) newHandle=.ok () insertedHandle
    from rfl)

/-- In the new file the counts are right until an extent is inserted. -/
theorem counts_right_iff_permitted_newFile :
    ((∀ step∈[(newHandle,Request.insert false false oneBlock)], CountsRight step.1) ∧
        CountsRight insertedHandle) ↔
      ∀ step∈[(newHandle,Request.insert false false oneBlock)], Permitted step.1 step.2 :=
  counts_right_iff_permitted newFile true 0 newHandle insertedHandle _ extentOpen2_newFile
    noEmptyNode_newFile runs_insertedHandle

/-- The first extent of a new file is counted among those after the position. -/
theorem counts_not_always_right :
    ¬∀ (fs : Filsys) (extentsFl : Bool) (endBlk : ℕ) (opened after : Handle)
      (steps : List (Handle×Request)), extentOpen2 fs extentsFl endBlk=some opened →
      ExtentTree.WellFormedTree opened → Runs opened steps after → CountsRight after := by
  intro h
  have hright := h newFile true 0 newHandle insertedHandle _ extentOpen2_newFile
    wellFormedTree_newHandle runs_insertedHandle
  have hposition := @CountsRight.position _ hright 0 0 (Nat.zero_le _) rfl
  exact absurd hposition (by decide +kernel)

end AndroidPlatform.ExtentCounts
