import AndroidPlatform.ExtentSplit

/-!
# The tree after a split

A successful `ext2fs_extent_node_split` keeps the map of the file and the entry of the handle,
and it ends for a tree of any depth. What it can lose is in two fields: `i_blocks` has 32 bits
and no carry into its high half, and `eh_depth` of the root has 16 bits.
-/

namespace AndroidPlatform.ExtentSplitOutcome

open ExtentHandle ExtentTree ExtentSearch ExtentUpdate ExtentRegrowth ExtentSplit

/-- The physical block of a logical block, and whether it is not initialised. -/
def mapOf (extents : List Slot) (blk : ℕ) : Option (ℕ×Bool) :=
  (extents.find? fun slot => slot.lblk≤blk ∧ blk < slot.lblk+slot.len).map fun slot =>
    (slot.eeStart+(blk-slot.lblk),slot.uninit)

/-- The sectors of a cluster. -/
def sectorsOf (geometry : Geometry) : ℕ := geometry.blocksize*2^geometry.clusterRatioBits/512

/-- What a split is to leave: a well-formed tree with the same map, the handle on the entry with
the same key at the same height, at most one new level, and the new nodes in `i_blocks`. -/
structure SplitsRight (handle after : Handle) : Prop where
  wellFormed : WellFormedTree after
  stored : Stored after.fs after.maxDepth (after.path 0).buf
  map : mapOf (leafExtents after)=mapOf (leafExtents handle)
  onEntry : OnEntry after
  lblk : (after.slotAt after.level).lblk=(handle.slotAt handle.level).lblk
  height : after.maxDepth-after.level=handle.maxDepth-handle.level
  depth_ge : handle.maxDepth≤after.maxDepth
  depth_le : after.maxDepth≤handle.maxDepth+1
  inode : after.fs.inode=after.inode
  counted : ∃ added, after.fs.blockMap=added++handle.fs.blockMap ∧
    after.iBlocks.toNat=handle.iBlocks.toNat+added.length*sectorsOf handle.fs.geometry

theorem clusterSectors_toNat (geometry : Geometry) :
    (clusterSectors geometry).toNat=sectorsOf geometry := by
  rw [clusterSectors,sectorsOf,UInt32.toNat_div,UInt32.toNat_ofNat',
    Nat.mod_eq_of_lt geometry.cluster_lt]
  rfl

/-- `i_blocks` after the new blocks have been counted. -/
theorem counted_toNat (iBlocks : UInt32) (geometry : Geometry) (n : ℕ) :
    (iBlocks+.ofNat n*clusterSectors geometry).toNat=
      (iBlocks.toNat+n*sectorsOf geometry)%2^32 := by
  rw [UInt32.toNat_add,UInt32.toNat_mul,clusterSectors_toNat,UInt32.toNat_ofNat']
  simp only [Nat.add_mod_mod,Nat.mod_mul_mod]

theorem rootGrowth_le (handle : Handle) (k : ℕ) : rootGrowth handle k≤1 := by
  induction k with
  | zero => exact le_rfl
  | succ k ih =>
    rw [rootGrowth]
    split
    · exact ih
    · exact Nat.zero_le 1

section Done

variable {handle after : Handle} {grow : ℕ} {added : List ℕ}

/-- A split counts its blocks up to the wrap of the field. -/
theorem splitDone_counted_iff (h : SplitDone handle after grow added) :
    (∃ blocks, after.fs.blockMap=blocks++handle.fs.blockMap ∧
        after.iBlocks.toNat=handle.iBlocks.toNat+blocks.length*sectorsOf handle.fs.geometry) ↔
      handle.iBlocks.toNat+added.length*sectorsOf handle.fs.geometry<2^32 := by
  have htoNat := h.iBlocks ▸ counted_toNat handle.iBlocks handle.fs.geometry added.length
  have hlt : after.iBlocks.toNat<2^32 := after.iBlocks.toNat_lt
  constructor
  · rintro ⟨blocks,hblocks,hcount⟩
    have hsame : blocks=added := List.append_cancel_right (hblocks.symm.trans h.blockMap)
    rw [hsame] at hcount
    omega
  · intro hroom
    exact ⟨added,h.blockMap,by rw [htoNat,Nat.mod_eq_of_lt hroom]⟩

/-- The root has its depth unless the field wraps. -/
theorem splitDone_root_depth_iff (h : SplitDone handle after grow added)
    (hdepth : (handle.path 0).buf.ehDepth.toNat=handle.maxDepth) :
    (after.path 0).buf.ehDepth.toNat=after.maxDepth ↔ handle.maxDepth+grow<2^16 := by
  have hmax := h.maxDepth
  have hlt : (after.path 0).buf.ehDepth.toNat<2^16 := UInt16.toNat_lt _
  have heh := h.ehDepth
  by_cases hgrow : grow=0
  · rw [if_pos hgrow] at heh
    rw [heh] at hlt ⊢
    omega
  · rw [if_neg hgrow] at heh
    rw [heh,UInt16.toNat_ofNat']
    omega

/-- All but the two fields is right after every split. -/
theorem splitDone_right_iff (h : SplitDone handle after grow added) (hgrow : grow≤1)
    (hlevel : handle.level≤handle.maxDepth)
    (hdepth : (handle.path 0).buf.ehDepth.toNat=handle.maxDepth) :
    SplitsRight handle after ↔
      handle.iBlocks.toNat+added.length*sectorsOf handle.fs.geometry<2^32 ∧
        handle.maxDepth+grow<2^16 := by
  have hmax := h.maxDepth
  have hat := h.level
  constructor
  · intro hright
    exact ⟨(splitDone_counted_iff h).mp hright.counted,
      (splitDone_root_depth_iff h hdepth).mp hright.wellFormed.root_depth⟩
  · rintro ⟨hcount,hdeep⟩
    have hleaves : leafExtents after=leafExtents handle := by
      have hslots := h.slots hlevel (le_refl handle.maxDepth)
      rw [←hmax] at hslots
      exact hslots
    exact {
      wellFormed := ⟨h.ready.shaped,(splitDone_root_depth_iff h hdepth).mpr hdeep⟩
      stored := h.ready.stored
      map := by rw [hleaves]
      onEntry := h.ready.onEntry
      lblk := by rw [h.slotAt]
      height := by omega
      depth_ge := by omega
      depth_le := by omega
      inode := h.inode
      counted := (splitDone_counted_iff h).mpr hcount }

end Done

/-- With a nested call for every level above, `ext2fs_extent_node_split` does not stop for the
bound on the recursion, and a successful split is right if and only if the sectors of the new
nodes fit into `i_blocks` and the new depth into `eh_depth`. -/
theorem nodeSplit_right_iff {calls : ℕ} {handle : Handle} (hwf : WellFormedTree handle)
    (hstored : Stored handle.fs handle.maxDepth (handle.path 0).buf) (hon : OnEntry handle)
    (hcalls : handle.level<calls) :
    (∀ after, nodeSplit calls handle≠.error .recursion after) ∧
      ∀ after, nodeSplit calls handle=.ok () after →
        (SplitsRight handle after ↔
          handle.iBlocks.toNat+
              splitNodes handle handle.level*sectorsOf handle.fs.geometry<2^32 ∧
            handle.maxDepth+rootGrowth handle handle.level<2^16) := by
  by_cases hrw : handle.fs.rw=true
  · have hready : Ready handle := ⟨hrw,hon,hwf.toShaped,hstored⟩
    rcases nodeSplit_cases hready hwf.root_depth hcalls with
      ⟨e,failed,he,hfail⟩ | ⟨done,added,hok,hdone,hadded⟩
    · rw [hfail]
      refine ⟨fun after h => ?_,fun after h => by cases h⟩
      cases h
      exact he rfl
    · rw [hok]
      refine ⟨(fun after h => by cases h),fun after h => ?_⟩
      cases h
      rw [splitDone_right_iff hdone (rootGrowth_le handle handle.level) hon.level_le
        hwf.root_depth,hadded]
  · have hro : nodeSplit calls handle=.error .roFilsys handle := by
      obtain ⟨n,rfl⟩ := Nat.exists_eq_succ_of_ne_zero (show calls≠0 by omega)
      simp only [nodeSplit]
      rw [if_pos (Bool.eq_false_iff.mpr hrw)]
    rw [hro]
    exact ⟨(fun after h => by cases h),fun after h => by cases h⟩

/-! ## A file with one extent -/

/-- A file of one extent in the inode, with the handle on it. -/
def oneExtent (iBlocks : UInt32) : Handle :=
  let root := nodeOf 4 0 [⟨0,10,0,100,0⟩]
  {openHandle (smallFs (fun _ => default) root []) 10 with
    iBlocks := iBlocks
    path := Function.update (fun _ => default) 0 ⟨root,1,4,0,0,10,some 0⟩}

theorem wellFormedTree_oneExtent (iBlocks : UInt32) : WellFormedTree (oneExtent iBlocks) where
  root_verify := rfl
  root_depth := rfl
  root_nonempty _ := Nat.one_pos
  child hk := absurd hk (Nat.not_lt_zero _)
  sorted := List.pairwise_singleton _ _
  len_pos slot hslot := by
    have hslots : slot∈([⟨0,10,0,100,0⟩] : List Slot) := hslot
    rw [List.mem_singleton.mp hslots]
    decide

theorem stored_oneExtent (iBlocks : UInt32) :
    Stored (oneExtent iBlocks).fs (oneExtent iBlocks).maxDepth ((oneExtent iBlocks).path 0).buf where
  nodup hk := absurd hk (Nat.not_lt_zero _)
  disjoint _ hk := absurd hk (Nat.not_lt_zero _)
  inUse hk := absurd hk (Nat.not_lt_zero _)

theorem onEntry_oneExtent (iBlocks : UInt32) : OnEntry (oneExtent iBlocks) where
  level_le := Nat.zero_le _
  tracks hk := by
    rw [Nat.le_zero.mp hk]
    exact ⟨0,rfl,Nat.one_pos,rfl,rfl,rfl⟩
  child hk := absurd hk (Nat.not_lt_zero _)

/-- The handle in a result. -/
def handleOf {α : Type} : EStateM.Result Errcode Handle α → Handle
  | .ok _ handle => handle
  | .error _ handle => handle

/-- The handle before the search for its entry. -/
def linked (iBlocks : UInt32) : Handle :=
  handleOf ((splitNode 0 >>= linkNode (nodeSplit 0)) (oneExtent iBlocks))

theorem nodeSplit_oneExtent (iBlocks : UInt32) :
    nodeSplit 1 (oneExtent iBlocks)=
      (do extentGoto2 0 0; countBlock : Call Unit) (linked iBlocks) := rfl

section Linked

variable {iBlocks : UInt32}

/-- The root stands above one leaf with one extent. -/
theorem slotsOf_linked (h : iBlocks=4 ∨ iBlocks=4294967294) :
    slotsOf (linked iBlocks) 0=[⟨0,0,0,0,0⟩] ∧ slotsOf (linked iBlocks) 1=[⟨0,10,0,100,0⟩] ∧
      (linked iBlocks).maxDepth=1 := by
  rcases h with rfl | rfl
  · decide +kernel
  · decide +kernel

/-- The root is cached as it is. -/
theorem root_linked (h : iBlocks=4 ∨ iBlocks=4294967294) :
    extentHeaderVerify ((linked iBlocks).path 0).buf 60=true ∧
      ((linked iBlocks).path 0).buf.ehEntries=1 ∧ ((linked iBlocks).path 0).entries=1 ∧
      ((linked iBlocks).path 0).maxEntries=((linked iBlocks).path 0).buf.ehMax.toNat := by
  rcases h with rfl | rfl
  · decide +kernel
  · decide +kernel

theorem leaf_linked (h : iBlocks=4 ∨ iBlocks=4294967294) :
    NodeOk (linked iBlocks).fs.geometry.blocksize 0
        ((linked iBlocks).fs.disk (⟨0,0,0,0,0⟩ : Slot).eiLeaf) ∧
      (((linked iBlocks).fs.disk (⟨0,0,0,0,0⟩ : Slot).eiLeaf).slot 0).lblk=0 := by
  rcases h with rfl | rfl
  · exact ⟨⟨by decide +kernel,by decide +kernel,by decide +kernel⟩,by decide +kernel⟩
  · exact ⟨⟨by decide +kernel,by decide +kernel,by decide +kernel⟩,by decide +kernel⟩

/-- `i_blocks` has not changed, and two sectors are to be counted. -/
theorem count_linked (h : iBlocks=4 ∨ iBlocks=4294967294) :
    (linked iBlocks).iBlocks=iBlocks ∧ clusterSectors (linked iBlocks).fs.geometry=2 := by
  rcases h with rfl | rfl
  · decide +kernel
  · decide +kernel

theorem shapedTree_linked (h : iBlocks=4 ∨ iBlocks=4294967294) : ShapedTree (linked iBlocks) := by
  obtain ⟨hroot,hleaf,hmax⟩ := slotsOf_linked h
  obtain ⟨hverify,hentries,-,-⟩ := root_linked h
  have hextents : levelSlots (linked iBlocks).fs.disk ((linked iBlocks).path 0).buf
      (linked iBlocks).maxDepth=[⟨0,10,0,100,0⟩] := hmax.symm ▸ hleaf
  refine ⟨hverify,fun _ => ?_,fun {k slot} hk hslot => ?_,?_,fun slot hslot => ?_⟩
  · rw [hentries]
    decide
  · have hzero : k=0 := by omega
    rw [hzero] at hslot ⊢
    have hslots : slot∈([⟨0,0,0,0,0⟩] : List Slot) := hroot ▸ hslot
    rw [List.mem_singleton.mp hslots,hmax]
    exact leaf_linked h
  · rw [hextents]
    exact List.pairwise_singleton _ _
  · rw [hextents] at hslot
    rw [List.mem_singleton.mp hslot]
    decide

theorem extentGoto2_linked (h : iBlocks=4 ∨ iBlocks=4294967294) :
    ∃ after, extentGoto2 0 0 (linked iBlocks)=.ok () after ∧ Moved (linked iBlocks) after := by
  obtain ⟨-,hslots,hmax⟩ := slotsOf_linked h
  obtain ⟨-,hentries,hcached,hmaxEntries⟩ := root_linked h
  have ho : Opened (linked iBlocks) := ⟨by rw [hcached,hentries]; rfl,hmaxEntries⟩
  have hread : Readable (linked iBlocks).fs := fun _ => rfl
  have hsome : 0<((linked iBlocks).path 0).buf.ehEntries.toNat := by
    rw [hentries]
    decide
  rcases extentGoto2_reached (shapedTree_linked h) ho hsome (Nat.zero_le _) with
    ⟨hfail,-⟩ | ⟨after,i,hreached⟩
  · exact absurd hread hfail
  · obtain ⟨slot,hleaf,hfloor,⟨hok,-⟩ | ⟨-,hout⟩⟩ := hreached.leaf
    · exact ⟨after,hok,hleaf.moved⟩
    · have hmem := hfloor.mem
      rw [leafExtents,hmax,hslots] at hmem
      rw [List.mem_singleton.mp hmem] at hout
      exact absurd (show Covers ⟨0,10,0,100,0⟩ 0 by rw [Covers]; decide) hout

/-- The split counts two sectors, up to the wrap of the field. -/
theorem nodeSplit_oneExtent_counts (h : iBlocks=4 ∨ iBlocks=4294967294) :
    ∃ after, nodeSplit 1 (oneExtent iBlocks)=.ok () after ∧ after.iBlocks=iBlocks+2 := by
  obtain ⟨found,hok,hmoved⟩ := extentGoto2_linked h
  obtain ⟨hbefore,hsectors⟩ := count_linked h
  have hcount : countBlock found=writeInode
      {found with iBlocks := found.iBlocks+clusterSectors found.fs.geometry} := rfl
  have hfault : found.fs.writeFault=fun _ => none := by rw [hmoved.fs]; rfl
  have hiBlocks : found.iBlocks=iBlocks := hmoved.iBlocks.trans hbefore
  have hgeometry : clusterSectors found.fs.geometry=2 := by rw [hmoved.fs,hsectors]
  rw [nodeSplit_oneExtent,bind_eq hok,hcount,writeInode]
  simp only [hfault]
  refine ⟨_,rfl,?_⟩
  simp only [hiBlocks,hgeometry]

end Linked

/-- The split of that file is right while `i_blocks` has room for the two sectors. -/
theorem nodeSplit_right_iff_oneExtent :
    ∃ after, nodeSplit 1 (oneExtent 4)=.ok () after ∧ SplitsRight (oneExtent 4) after := by
  obtain ⟨after,hok,-⟩ := nodeSplit_oneExtent_counts (.inl rfl)
  exact ⟨after,hok,((nodeSplit_right_iff (wellFormedTree_oneExtent 4) (stored_oneExtent 4)
    (onEntry_oneExtent 4) Nat.one_pos).2 after hok).mpr (by decide +kernel)⟩

/-- A successful split of a well-formed tree can lose the count of `i_blocks`. -/
theorem nodeSplit_not_always_right :
    ¬∀ (calls : ℕ) (handle after : Handle), WellFormedTree handle →
      Stored handle.fs handle.maxDepth (handle.path 0).buf → OnEntry handle →
      handle.level<calls → nodeSplit calls handle=.ok () after → SplitsRight handle after := by
  intro h
  obtain ⟨after,hok,hzero⟩ := nodeSplit_oneExtent_counts (.inr rfl)
  obtain ⟨added,-,hcount⟩ := (h 1 (oneExtent 4294967294) after (wellFormedTree_oneExtent _)
    (stored_oneExtent _) (onEntry_oneExtent _) Nat.one_pos hok).counted
  have hbefore : (oneExtent 4294967294).iBlocks.toNat=4294967294 := rfl
  have hafter : ((4294967294 : UInt32)+2).toNat=0 := rfl
  rw [hzero,hbefore,hafter] at hcount
  omega

end AndroidPlatform.ExtentSplitOutcome
