import AndroidPlatform.ExtentRegrowth
import AndroidPlatform.ExtentSearch
import AndroidPlatform.ExtentUpdate

/-!
# Splits of the nodes of an extent tree

A successful `ext2fs_extent_node_split` leaves the extents as they are and the handle on its
entry, in a node with room for another one. Every node that it allocates is in the tree and
is counted in `i_blocks`, a field of 32 bits.
-/

namespace AndroidPlatform.ExtentSplit

open ExtentHandle ExtentTree ExtentSearch ExtentUpdate ExtentRegrowth SortedTable FloorSearch
open CInteger

/-! ## Calls -/

/-- A sequence that succeeds has two successful parts. -/
theorem bind_ok {α β : Type} {first : Call α} {next : α → Call β} {handle after : Handle} {b : β}
    (h : (first >>= next) handle=.ok b after) :
    ∃ a mid, first handle=.ok a mid ∧ next a mid=.ok b after := by
  simp only [bind,EStateM.bind] at h
  split at h
  · exact ⟨_,_,by assumption,h⟩
  · cases h

/-- A sequence fails in one of its parts. -/
theorem bind_error {α β : Type} {first : Call α} {next : α → Call β} {handle after : Handle}
    {e : Errcode} (h : (first >>= next) handle=.error e after) :
    first handle=.error e after ∨
      ∃ a mid, first handle=.ok a mid ∧ next a mid=.error e after := by
  simp only [bind,EStateM.bind] at h
  split at h
  · exact Or.inr ⟨_,_,by assumption,h⟩
  · cases h
    exact Or.inl (by assumption)

theorem bind_eq {α β : Type} {first : Call α} {next : α → Call β} {handle mid : Handle} {a : α}
    (h : first handle=.ok a mid) : (first >>= next) handle=next a mid := by
  simp only [bind,EStateM.bind,h]

/-- What writes leave of a file system: all but the blocks and the inode. -/
structure Kept (fs fs' : Filsys) : Prop where
  rw : fs'.rw=fs.rw
  geometry : fs'.geometry=fs.geometry
  blockMap : fs'.blockMap=fs.blockMap

theorem Kept.refl (fs : Filsys) : Kept fs fs := ⟨rfl,rfl,rfl⟩

theorem Kept.trans {a b c : Filsys} (h : Kept a b) (h' : Kept b c) : Kept a c :=
  ⟨h'.rw.trans h.rw,h'.geometry.trans h.geometry,h'.blockMap.trans h.blockMap⟩

theorem writeBlk_ok {blk : ℕ} {node : ExtentNode} {handle after : Handle}
    (h : writeBlk blk node handle=.ok () after) :
    ∃ fs, after={handle with fs := fs} ∧ Kept handle.fs fs ∧
      fs.disk=Function.update handle.fs.disk blk node := by
  simp only [writeBlk] at h
  split at h
  · cases h
  · cases h
    exact ⟨_,rfl,⟨rfl,rfl,rfl⟩,rfl⟩

theorem writeBlk_error {blk : ℕ} {node : ExtentNode} {handle after : Handle} {e : Errcode}
    (h : writeBlk blk node handle=.error e after) :
    e≠.recursion ∧ ∃ fs, after={handle with fs := fs} ∧ Kept handle.fs fs ∧
      fs.disk=handle.fs.disk := by
  simp only [writeBlk] at h
  split at h
  · cases h
    exact ⟨fun he => Errcode.noConfusion he,_,rfl,⟨rfl,rfl,rfl⟩,rfl⟩
  · cases h

theorem writeInode_ok {handle after : Handle} (h : writeInode handle=.ok () after) :
    ∃ fs, after={handle with fs := fs} ∧ Kept handle.fs fs ∧ fs.disk=handle.fs.disk ∧
      fs.inode=handle.inode := by
  simp only [writeInode] at h
  split at h
  · cases h
  · cases h
    exact ⟨_,rfl,⟨rfl,rfl,rfl⟩,rfl,rfl⟩

theorem writeInode_error {handle after : Handle} {e : Errcode}
    (h : writeInode handle=.error e after) :
    e≠.recursion ∧ ∃ fs, after={handle with fs := fs} ∧ Kept handle.fs fs ∧
      fs.disk=handle.fs.disk := by
  simp only [writeInode] at h
  split at h
  · cases h
    exact ⟨fun he => Errcode.noConfusion he,_,rfl,⟨rfl,rfl,rfl⟩,rfl⟩
  · cases h

/-- The block of the node at the level of the handle, none for the root. -/
def nodeBlk (handle : Handle) : Option ℕ :=
  if handle.level=0 then none else some (handle.slotAt (handle.level-1)).eiLeaf

theorem updatePath_ok {handle after : Handle} (h : updatePath handle=.ok () after) :
    ∃ fs, after={handle with fs := fs} ∧ Kept handle.fs fs ∧
      (∀ b, nodeBlk handle≠some b → fs.disk b=handle.fs.disk b) ∧
      ∀ b, nodeBlk handle=some b → fs.disk b=handle.current.buf := by
  simp only [updatePath] at h
  rw [nodeBlk]
  split at h
  · rename_i hzero
    obtain ⟨fs,hafter,hkept,hdisk,-⟩ := writeInode_ok h
    rw [if_pos hzero]
    exact ⟨fs,hafter,hkept,fun b _ => by rw [hdisk],nofun⟩
  · rename_i hlevel
    obtain ⟨fs,hafter,hkept,hdisk⟩ := writeBlk_ok h
    rw [if_neg hlevel]
    refine ⟨fs,hafter,hkept,fun b hb => ?_,fun b hb => ?_⟩
    · rw [hdisk,Function.update_of_ne]
      exact fun heq => hb (by rw [heq])
    · cases hb
      rw [hdisk,Function.update_self]

theorem updatePath_error {handle after : Handle} {e : Errcode}
    (h : updatePath handle=.error e after) :
    e≠.recursion ∧ ∃ fs, after={handle with fs := fs} ∧ Kept handle.fs fs ∧
      fs.disk=handle.fs.disk := by
  simp only [updatePath] at h
  split at h
  · exact writeInode_error h
  · exact writeBlk_error h

/-- A write of a node whose error is ignored changes at most the block of the node. -/
theorem ignoring_updatePath (handle : Handle) :
    ∃ fs, ignoring updatePath handle=.ok () {handle with fs := fs} ∧ Kept handle.fs fs ∧
      ∀ b, nodeBlk handle≠some b → fs.disk b=handle.fs.disk b := by
  rw [ignoring]
  cases h : updatePath handle with
  | ok a after =>
    obtain ⟨fs,rfl,hkept,hdisk,-⟩ := updatePath_ok h
    exact ⟨fs,rfl,hkept,hdisk⟩
  | error e after =>
    obtain ⟨-,fs,rfl,hkept,hdisk⟩ := updatePath_error h
    exact ⟨fs,rfl,hkept,fun b _ => by rw [hdisk]⟩

/-- A new block was free before and is marked now. -/
theorem allocBlock_ok {goal blk : ℕ} {handle after : Handle}
    (h : allocBlock goal handle=.ok blk after) :
    blk∉handle.fs.blockMap ∧ blk<2^48 ∧ ∃ fs, after={handle with fs := fs} ∧
      fs.rw=handle.fs.rw ∧ fs.geometry=handle.fs.geometry ∧
      fs.blockMap=blk::handle.fs.blockMap ∧ ∀ b, b≠blk → fs.disk b=handle.fs.disk b := by
  simp only [allocBlock] at h
  split at h
  · cases h
  · rename_i hnew
    split at h
    · cases h
    · rename_i hwrite
      cases h
      obtain ⟨fs,rfl,hkept,hdisk⟩ := writeBlk_ok hwrite
      refine ⟨handle.fs.allocator.fresh hnew,handle.fs.allocator.block_lt hnew,_,rfl,hkept.rw,
        hkept.geometry,?_,fun b hb => ?_⟩
      · exact congrArg (List.cons _) hkept.blockMap
      · rw [hdisk,Function.update_of_ne hb]

theorem allocBlock_error {goal : ℕ} {handle after : Handle} {e : Errcode}
    (h : allocBlock goal handle=.error e after) : e≠.recursion := by
  simp only [allocBlock] at h
  split at h
  · cases h
    exact nofun
  · split at h
    · rename_i hwrite
      cases h
      exact (writeBlk_error hwrite).1
    · cases h

/-! ## Nodes -/

theorem eiLeaf_lt (slot : Slot) : slot.eiLeaf<2^48 := by
  have h0 : slot.half0.toNat<2^16 := slot.half0.toNat_lt
  have h1 : slot.half1.toNat<2^16 := slot.half1.toNat_lt
  have h2 : slot.half2.toNat<2^16 := slot.half2.toNat_lt
  rw [Slot.eiLeaf]
  omega

/-- The slot of an index entry has its block. -/
theorem indexSlot_eiLeaf {extent : Extent} (h : extent.ePblk<2^48) :
    (indexSlot extent).eiLeaf=extent.ePblk := by
  simp only [indexSlot,Slot.eiLeaf,UInt16.toNat_ofNat']
  omega

/-- The slot of an index entry has its key. -/
theorem indexSlot_lblk {extent : Extent} (h : extent.eLblk<2^32) :
    (indexSlot extent).lblk=extent.eLblk := by
  simp only [indexSlot,Slot.lblk,UInt32.toNat_ofNat']
  omega

/-- The first entries of a node. -/
theorem live_head {node : ExtentNode} {count : ℕ} (h : count≤node.ehEntries.toNat) :
    live {node with ehEntries := .ofNat count}=(List.range count).map node.slot := by
  have hlt : node.ehEntries.toNat<2^16 := node.ehEntries.toNat_lt
  rw [live]
  simp only [UInt16.toNat_ofNat']
  rw [Nat.mod_eq_of_lt (by omega)]

/-- The last entries of a node, in the new one. -/
theorem live_tailNode {node : ExtentNode} {tocopy blocksize : ℕ}
    (h : tocopy≤node.ehEntries.toNat) :
    live (tailNode node tocopy blocksize)=
      (List.range' (node.ehEntries.toNat-tocopy) tocopy).map node.slot := by
  have hlt : node.ehEntries.toNat<2^16 := node.ehEntries.toNat_lt
  rw [live,List.range'_eq_map_range,List.map_map]
  simp only [tailNode,UInt16.toNat_ofNat']
  rw [Nat.mod_eq_of_lt (by omega)]
  refine List.map_congr_left fun j hj => ?_
  rw [if_pos (List.mem_range.mp hj)]
  rfl

theorem live_halves {node : ExtentNode} {tocopy blocksize : ℕ}
    (h : tocopy≤node.ehEntries.toNat) :
    live {node with ehEntries := .ofNat (node.ehEntries.toNat-tocopy)}++
      live (tailNode node tocopy blocksize)=live node := by
  rw [live_head (Nat.sub_le _ _),live_tailNode h,←List.map_append,List.range_eq_range']
  have hsplit := @List.range'_append_1 0 (node.ehEntries.toNat-tocopy) tocopy
  rw [Nat.zero_add,Nat.sub_add_cancel h] at hsplit
  rw [hsplit,live,List.range_eq_range']

/-- The header of the new node is valid if that of the old one is. -/
theorem verify_tailNode {node : ExtentNode} {tocopy size : ℕ} {geometry : Geometry}
    (h : extentHeaderVerify node size=true) (hcopy : tocopy ≤ maxSlots geometry.blocksize) :
    extentHeaderVerify (tailNode node tocopy geometry.blocksize) geometry.blocksize=true := by
  have hmax : maxSlots geometry.blocksize<2^16 := by
    have := geometry.blocksize_le
    rw [maxSlots]
    omega
  simp only [extentHeaderVerify,decide_eq_true_eq] at h ⊢
  simp only [tailNode,UInt16.toNat_ofNat',UInt16.le_iff_toNat_le]
  rw [Nat.mod_eq_of_lt hmax,Nat.mod_eq_of_lt (by omega)]
  exact ⟨h.1,hcopy,le_rfl,by omega⟩

/-- The header is valid with fewer entries. -/
theorem verify_entries {node : ExtentNode} {count size : ℕ}
    (h : extentHeaderVerify node size=true) (hcount : count≤node.ehMax.toNat) :
    extentHeaderVerify {node with ehEntries := .ofNat count} size=true := by
  have hlt : node.ehMax.toNat<2^16 := node.ehMax.toNat_lt
  simp only [extentHeaderVerify,decide_eq_true_eq,UInt16.le_iff_toNat_le,
    UInt16.toNat_ofNat'] at h ⊢
  rw [Nat.mod_eq_of_lt (by omega)]
  exact ⟨h.1,hcount,h.2.2⟩

/-- A node with another slot at entry `i` and a new slot after it. -/
def grownNode (node : ExtentNode) (i : ℕ) (slot' link : Slot) : ExtentNode :=
  {node with
    ehEntries := .ofNat (node.ehEntries.toNat+1)
    slot := fun j =>
      if j=i then slot'
      else if j=i+1 then link
      else if i+1<j ∧ j≤node.ehEntries.toNat then node.slot (j-1)
      else node.slot j}

theorem parentGrown_grownNode {node : ExtentNode} {i : ℕ} {slot' link : Slot}
    (hi : i<node.ehEntries.toNat) (hroom : node.ehEntries.toNat<node.ehMax.toNat) :
    ParentGrown node (grownNode node i slot' link) ((List.range i).map node.slot)
      ((List.range' (i+1) (node.ehEntries.toNat-(i+1))).map node.slot) (node.slot i) slot' link := by
  have hmax : node.ehMax.toNat<2^16 := node.ehMax.toNat_lt
  have hcount : (grownNode node i slot' link).ehEntries.toNat=node.ehEntries.toNat+1 := by
    simp only [grownNode,UInt16.toNat_ofNat']
    omega
  refine ⟨?_,?_,fun hverify => ?_,rfl⟩
  · rw [live,range_split hi,List.map_append,List.map_cons]
  · have hshift : List.range' (i+2) (node.ehEntries.toNat-(i+1))=
        (List.range' (i+1) (node.ehEntries.toNat-(i+1))).map (1+·) := by
      rw [List.map_add_range',show 1+(i+1)=i+2 by omega]
    have hsecond : List.range' (i+1) (node.ehEntries.toNat+1-(i+1))=
        (i+1)::List.range' (i+2) (node.ehEntries.toNat-(i+1)) := by
      rw [show node.ehEntries.toNat+1-(i+1)=node.ehEntries.toNat-(i+1)+1 by omega,
        List.range'_succ]
    have hbefore : ∀ j∈List.range i, (grownNode node i slot' link).slot j=node.slot j := by
      intro j hj
      have := List.mem_range.mp hj
      simp only [grownNode]
      rw [if_neg (by omega),if_neg (by omega),if_neg (by omega)]
    have hafter : ∀ j∈List.range' (i+1) (node.ehEntries.toNat-(i+1)),
        (grownNode node i slot' link).slot (1+j)=node.slot j := by
      intro j hj
      have := List.mem_range'_1.mp hj
      simp only [grownNode]
      rw [if_neg (by omega),if_neg (by omega),if_pos (by omega),Nat.add_sub_cancel_left]
    have hslot : (grownNode node i slot' link).slot i=slot' := if_pos rfl
    have hlink : (grownNode node i slot' link).slot (i+1)=link := by
      simp only [grownNode]
      rw [if_neg (by omega),if_pos trivial]
    rw [live,hcount,range_split (show i<node.ehEntries.toNat+1 by omega),List.map_append,
      List.map_cons,hsecond,List.map_cons,hshift,List.map_map,hslot,hlink,
      List.map_congr_left hbefore]
    exact congrArg _ (congrArg _ (congrArg _ (List.map_congr_left hafter)))
  · exact verify_entries hverify (by omega)

/-! ## The index entry of the new node -/

theorem nodeBlk_congr {a b : Handle} (hlevel : a.level=b.level)
    (hpath : ∀ {k}, k<b.level → a.path k=b.path k) : nodeBlk a=nodeBlk b := by
  rw [nodeBlk,nodeBlk,hlevel]
  split
  · rfl
  · rw [Handle.slotAt,Handle.slotAt,hpath (by omega)]

/-- The path at a level, with another slot. -/
def storeSlot (path : ExtentPath) (i : ℕ) (slot : Slot) : ExtentPath :=
  {path with buf := {path.buf with slot := Function.update path.buf.slot i slot}}

/-- The second handle has another path at its level, and at most the block of the node there
was written. -/
structure PathSet (before after : Handle) (path : ExtentPath) : Prop where
  level : after.level=before.level
  maxDepth : after.maxDepth=before.maxDepth
  iBlocks : after.iBlocks=before.iBlocks
  path : after.path=Function.update before.path before.level path
  kept : Kept before.fs after.fs
  disk : ∀ b, nodeBlk before≠some b → after.fs.disk b=before.fs.disk b

theorem PathSet.path_of_ne {before after : Handle} {path : ExtentPath}
    (h : PathSet before after path) {k : ℕ} (hk : k≠before.level) :
    after.path k=before.path k := by
  rw [h.path,Function.update_of_ne hk]

theorem PathSet.current {before after : Handle} {path : ExtentPath}
    (h : PathSet before after path) : after.current=path := by
  rw [Handle.current,h.path,h.level,Function.update_self]

theorem PathSet.nodeBlk {before after : Handle} {path : ExtentPath}
    (h : PathSet before after path) : nodeBlk after=nodeBlk before :=
  nodeBlk_congr h.level fun hk => h.path_of_ne (by omega)

theorem PathSet.trans {a b c : Handle} {path path' : ExtentPath} (h : PathSet a b path)
    (h' : PathSet b c path') : PathSet a c path' := by
  refine ⟨h'.level.trans h.level,h'.maxDepth.trans h.maxDepth,h'.iBlocks.trans h.iBlocks,?_,
    h.kept.trans h'.kept,fun blk hblk => ?_⟩
  · rw [h'.path,h.path,h.level,Function.update_idem]
  · rw [h'.disk blk (by rw [h.nodeBlk]; exact hblk),h.disk blk hblk]

theorem pathSet_setPath (handle : Handle) (path : ExtentPath) :
    PathSet handle (handle.setPath handle.level path) path :=
  ⟨rfl,rfl,rfl,rfl,Kept.refl _,fun _ _ => rfl⟩

/-- `ext2fs_extent_replace` above the leaves. -/
theorem extentReplace_index {extent : Extent} {handle : Handle} {i : ℕ}
    (hrw : handle.fs.rw=true) (hcurr : handle.current.curr=some i)
    (hlevel : handle.level≠handle.maxDepth) :
    ∃ after, extentReplace extent handle=.ok () after ∧
      PathSet handle after (storeSlot handle.current i (indexSlot extent)) := by
  have hset := pathSet_setPath handle (storeSlot handle.current i (indexSlot extent))
  obtain ⟨fs,hupdate,hkept,hdisk⟩ :=
    ignoring_updatePath (handle.setPath handle.level (storeSlot handle.current i (indexSlot extent)))
  have hreplace : extentReplace extent handle=.ok ()
      {handle.setPath handle.level (storeSlot handle.current i (indexSlot extent)) with
        fs := fs} := by
    simp only [extentReplace,hcurr]
    rw [if_neg (by rw [hrw]; exact Bool.noConfusion),if_neg hlevel]
    exact hupdate
  exact ⟨_,hreplace,rfl,rfl,rfl,rfl,hkept,fun b hb => hdisk b (by rw [hset.nodeBlk]; exact hb)⟩

/-- The path of the parent after the entry of the new node was inserted. -/
structure Linked (path path' : ExtentPath) (i : ℕ) (slot' link : Slot) : Prop where
  buf : path'.buf=grownNode path.buf i slot' link
  entries : path'.entries=path.entries+1
  maxEntries : path'.maxEntries=path.maxEntries

theorem linked_inserted {path : ExtentPath} {i : ℕ} (h : Tracks path i) (slot' link : Slot) :
    Linked path (storeSlot (ExtentPath.inserted (storeSlot path i slot') true) (i+1) link) i slot'
        link ∧
      (ExtentPath.inserted (storeSlot path i slot') true).curr=some (i+1) := by
  have hleft := h.left
  have hlt := h.lt
  have hentries := h.entries
  refine ⟨⟨?_,rfl,rfl⟩,?_⟩
  · simp only [storeSlot,ExtentPath.inserted,grownNode,h.curr,hentries]
    congr 1
    funext j
    simp only [Function.update_apply,Option.isSome_some,and_self,if_true]
    by_cases hj : j=i
    · rw [if_pos hj,if_neg (by omega),if_neg (by omega),if_pos hj]
    · by_cases hj' : j=i+1
      · rw [if_pos hj',if_neg hj,if_pos hj']
      · rw [if_neg hj',if_neg hj,if_neg hj',if_neg hj]
        by_cases hmoved : i+1<j ∧ j≤path.buf.ehEntries.toNat
        · rw [if_pos hmoved,if_pos (by omega),if_neg (by omega)]
        · rw [if_neg hmoved,if_neg (by omega)]
  · simp only [storeSlot,ExtentPath.inserted,h.curr]
    rfl

/-- The handle at another level. -/
def atLevel (handle : Handle) (m : ℕ) : Handle := {handle with level := m}

theorem extentGet_up {handle : Handle} {m i : ℕ} (hlevel : handle.level=m+1)
    (hcurr : (handle.path m).curr=some i) :
    extentGet .up handle=.ok ((atLevel handle m).extentAt i) (atLevel handle m) := by
  have hmove : extentMove .up handle=.ok () (atLevel handle m) := by
    simp only [extentMove,goUp,hlevel]
    rw [if_neg (by omega),Nat.add_sub_cancel]
    rfl
  exact extentGet_eq hmove hcurr

/-- How `ext2fs_extent_insert` ends, which removes the new entry again if it cannot be
written. -/
def endInsert : EStateM.Result Errcode Handle Unit → EStateM.Result Errcode Handle Unit
  | .ok _ after => .ok () after
  | .error e after =>
    match extentDelete false after with
    | .ok _ after => .error e after
    | .error _ after => .error e after

/-- The state before the last write of the parent. -/
structure LinkedHandle (handle mid : Handle) (m i : ℕ) (node : NewNode) (slot' link : Slot) :
    Prop where
  path : ∃ path', PathSet (atLevel handle m) mid path' ∧ Linked (handle.path m) path' i slot' link
  lblk : slot'.lblk=((handle.path m).buf.slot i).lblk
  eiLeaf : slot'.eiLeaf=((handle.path m).buf.slot i).eiLeaf
  linkLblk : link.lblk=node.start
  linkLeaf : link.eiLeaf=node.pblk

theorem linkNode_index {split : Call Unit} {node : NewNode} {handle : Handle} {m i : ℕ}
    (hroot : node.newRoot=false) (hrw : handle.fs.rw=true) (hlevel : handle.level=m+1)
    (hdepth : m<handle.maxDepth) (htracks : Tracks (handle.path m) i)
    (hroom : (handle.path m).entries<(handle.path m).maxEntries)
    (hstart : node.start<2^32) (hpblk : node.pblk<2^48) :
    ∃ mid slot' link, linkNode split node handle=endInsert (updatePath mid) ∧
      LinkedHandle handle mid m i node slot' link := by
  have hget := extentGet_up hlevel htracks.curr
  have hne : (atLevel handle m).level≠(atLevel handle m).maxDepth := hdepth.ne
  have hePblk : ((atLevel handle m).extentAt i).ePblk=((handle.path m).buf.slot i).eiLeaf := by
    simp only [Handle.extentAt]
    rw [if_neg hne]
    rfl
  have heLblk : ((atLevel handle m).extentAt i).eLblk=((handle.path m).buf.slot i).lblk :=
    extentAt_eLblk _ _
  -- The index entry of the node that was split is stored again.
  generalize hfirst : ({(atLevel handle m).extentAt i with
    eLen := toU32 (((atLevel handle m).extentAt i).eLen-
      toU32 (node.start-((atLevel handle m).extentAt i).eLblk))} : Extent)=first
  obtain ⟨stored,hreplace,hset⟩ :=
    @extentReplace_index first (atLevel handle m) i hrw htracks.curr hne
  have hcurrent : stored.current=storeSlot (handle.path m) i (indexSlot first) := hset.current
  obtain ⟨hlinked,hcurr⟩ := linked_inserted htracks (indexSlot first)
    (indexSlot {first with
      eLblk := node.start
      ePblk := node.pblk
      eLen := toU32 (node.start-((atLevel handle m).extentAt i).eLblk)})
  rw [←hcurrent] at hlinked hcurr
  -- The entry of the new node follows it.
  have hset2 := pathSet_setPath stored (ExtentPath.inserted stored.current true)
  have hrw2 : (stored.setPath stored.level (ExtentPath.inserted stored.current true)).fs.rw=true := by
    rw [hset2.kept.rw,hset.kept.rw]
    exact hrw
  have hne2 : (stored.setPath stored.level (ExtentPath.inserted stored.current true)).level≠
      (stored.setPath stored.level (ExtentPath.inserted stored.current true)).maxDepth := by
    rw [hset2.level,hset2.maxDepth,hset.level,hset.maxDepth]
    exact hne
  obtain ⟨mid,hreplace2,hset3⟩ :=
    @extentReplace_index {first with
      eLblk := node.start
      ePblk := node.pblk
      eLen := toU32 (node.start-((atLevel handle m).extentAt i).eLblk)} _ (i+1) hrw2
      (by rw [hset2.current]; exact hcurr) hne2
  rw [hset2.current] at hset3
  refine ⟨mid,_,_,?_,⟨_,(hset.trans hset2).trans hset3,hlinked⟩,?_,?_,?_,?_⟩
  · have hroom2 : ¬stored.current.maxEntries ≤ stored.current.entries := by
      rw [hcurrent]
      exact Nat.not_le.mpr hroom
    have hrw1 : stored.fs.rw≠false := by
      rw [hset.kept.rw]
      exact fun h => Bool.noConfusion (hrw.symm.trans h)
    have hstore : ((do extentReplace _; updatePath : Call Unit)
        (stored.setPath stored.level (ExtentPath.inserted stored.current true)))=updatePath mid :=
      bind_eq hreplace2
    simp only [linkNode,hroot]
    rw [if_neg Bool.noConfusion,bind_eq hget,hfirst,bind_eq hreplace]
    simp only [extentInsert]
    rw [if_neg hrw1,if_neg hroom2]
    subst hfirst
    exact congrArg endInsert hstore
  · rw [indexSlot_lblk,←hfirst,heLblk]
    rw [←hfirst,heLblk]
    exact UInt32.toNat_lt _
  · rw [indexSlot_eiLeaf,←hfirst,hePblk]
    rw [←hfirst,hePblk]
    exact eiLeaf_lt _
  · rw [indexSlot_lblk]
    exact hstart
  · rw [indexSlot_eiLeaf]
    exact hpblk

/-! ## The new node -/

/-- What `ext2fs_extent_node_split` has done before it makes the index entry. -/
structure EntriesMoved (handle after : Handle) (node : NewNode) (fs : Filsys) : Prop where
  copied : tocopy handle≠0
  newRoot : node.newRoot=decide (handle.level=0)
  fresh : node.pblk∉handle.fs.blockMap
  pblk : node.pblk<2^48
  start : node.start=((newNode handle).slot 0).lblk
  detached : after={Handle.detach handle (tocopy handle) with fs := fs}
  rw : fs.rw=handle.fs.rw
  geometry : fs.geometry=handle.fs.geometry
  blockMap : fs.blockMap=node.pblk::handle.fs.blockMap
  old : ∀ b, nodeBlk after=some b → fs.disk b=after.current.buf
  new : nodeBlk after≠some node.pblk → fs.disk node.pblk=newNode handle
  frame : ∀ b, b≠node.pblk → nodeBlk after≠some b → fs.disk b=handle.fs.disk b

theorem detach_fs (handle : Handle) (fs : Filsys) (count : ℕ) :
    Handle.detach {handle with fs := fs} count={Handle.detach handle count with fs := fs} := by
  rw [Handle.detach,Handle.detach]
  split <;> rfl

/-- The entries have been moved, unless the call has failed. -/
theorem splitNode_cases {goal : ℕ} {handle : Handle} :
    (∃ e after, e≠.recursion ∧ splitNode goal handle=.error e after) ∨
      ∃ node after fs, splitNode goal handle=.ok node after ∧
        EntriesMoved handle after node fs := by
  cases hresult : splitNode goal handle with
  | error e after =>
    refine Or.inl ⟨e,after,?_,rfl⟩
    simp only [splitNode] at hresult
    split at hresult
    · cases hresult
      intro he
      cases he
    · split at hresult
      · cases hresult
        intro he
        cases he
      · rcases bind_error hresult with halloc | ⟨_,_,-,hresult⟩
        · exact allocBlock_error halloc
        · rcases bind_error hresult with hwrite | ⟨_,_,-,hresult⟩
          · exact (writeBlk_error hwrite).1
          · rcases bind_error hresult with hmodify | ⟨_,_,-,hresult⟩
            · cases hmodify
            · rcases bind_error hresult with hupdate | ⟨_,_,-,hresult⟩
              · exact (updatePath_error hupdate).1
              · cases hresult
  | ok node after =>
    simp only [splitNode] at hresult
    split at hresult
    · cases hresult
    · split at hresult
      · cases hresult
      · rename_i hcopy
        obtain ⟨pblk,allocated,halloc,hwritten⟩ := bind_ok hresult
        obtain ⟨_,written,hwrite,hdetached⟩ := bind_ok hwritten
        obtain ⟨_,detached,hdetach,hupdated⟩ := bind_ok hdetached
        obtain ⟨_,updated,hupdate,hpure⟩ := bind_ok hupdated
        cases hpure
        cases hdetach
        obtain ⟨hfresh,hpblk,fs1,rfl,hrw,hgeometry,hblockMap,hdisk1⟩ := allocBlock_ok halloc
        obtain ⟨fs2,rfl,hkept2,hdisk2⟩ := writeBlk_ok hwrite
        change updatePath (Handle.detach {handle with fs := fs2} _)=_ at hupdate
        rw [detach_fs] at hupdate
        obtain ⟨fs3,rfl,hkept3,hframe3,hnode3⟩ := updatePath_ok hupdate
        refine Or.inr ⟨_,_,fs3,rfl,hcopy,rfl,hfresh,hpblk,rfl,rfl,
          (hkept3.rw.trans hkept2.rw).trans hrw,
          (hkept3.geometry.trans hkept2.geometry).trans hgeometry,
          (hkept3.blockMap.trans hkept2.blockMap).trans hblockMap,hnode3,fun hb => ?_,
          fun b hb hb' => ?_⟩
        · rw [hframe3 _ hb]
          change fs2.disk pblk=_
          rw [hdisk2,Function.update_self]
        · rw [hframe3 _ hb']
          change fs2.disk b=_
          rw [hdisk2,Function.update_of_ne hb]
          exact hdisk1 b hb

/-! ## The split of a node below the root -/

theorem slotAt_eq {handle : Handle} {k i : ℕ} (h : Tracks (handle.path k) i) :
    handle.slotAt k=(handle.path k).buf.slot i := by
  rw [Handle.slotAt,h.curr]
  rfl

theorem slotAt_mem_live {handle : Handle} (h : OnEntry handle) {k : ℕ} (hk : k≤handle.level) :
    handle.slotAt k∈live (handle.path k).buf := by
  obtain ⟨i,htracks⟩ := h.tracks hk
  rw [slotAt_eq htracks]
  exact mem_live (by rw [←htracks.entries]; exact htracks.lt)

/-- The nodes on the path of a handle are nodes of the tree at their levels. -/
theorem nodeAt_path {handle : Handle} (h : OnEntry handle) {k : ℕ} (hk : k≤handle.level) :
    NodeAt handle.fs.disk (handle.path 0).buf k (handle.path k).buf ∧
      handle.slotAt k∈slotsOf handle k := by
  induction k with
  | zero => exact ⟨rfl,slotAt_mem_live h hk⟩
  | succ k ih =>
    obtain ⟨-,hmem⟩ := ih (by omega)
    have hchild := h.child (show k<handle.level by omega)
    have hlive := slotAt_mem_live h hk
    refine ⟨⟨_,hmem,hchild⟩,?_⟩
    rw [hchild] at hlive
    exact (live_sublist hmem).subset hlive

theorem opened_of_onEntry {handle : Handle} (h : OnEntry handle) : Opened handle := by
  obtain ⟨i,htracks⟩ := h.tracks (Nat.zero_le _)
  exact ⟨htracks.entries,htracks.maxEntries⟩

/-- The handle stands on an entry of a tree whose nodes are distinct blocks in use, and the
file system may be written. -/
structure Ready (handle : Handle) : Prop where
  rw : handle.fs.rw=true
  onEntry : OnEntry handle
  shaped : ShapedTree handle
  stored : Stored handle.fs handle.maxDepth (handle.path 0).buf

/-- The handle after the entries of a node below the root have been moved. -/
theorem EntriesMoved.below {handle moved : Handle} {node : NewNode} {fs : Filsys}
    (h : EntriesMoved handle moved node fs) (hlevel : handle.level≠0) :
    moved.fs=fs ∧ moved.level=handle.level ∧ moved.maxDepth=handle.maxDepth ∧
      moved.iBlocks=handle.iBlocks ∧ (∀ {k}, k≠handle.level → moved.path k=handle.path k) ∧
      moved.current.buf={handle.current.buf with
        ehEntries := .ofNat (handle.current.entries-tocopy handle)} := by
  rw [h.detached,Handle.detach,if_neg hlevel]
  refine ⟨rfl,rfl,rfl,rfl,fun hk => setPath_path_of_ne _ _ hk,?_⟩
  simp only [Handle.current,Handle.setPath,Function.update_self]

/-- The block of the parent of the node at the level of a handle. -/
def parentBlk (handle : Handle) : ℕ → Option ℕ
  | 0 => none
  | k+1 => some (handle.slotAt k).eiLeaf

theorem nodeBlk_atLevel (handle : Handle) (m : ℕ) :
    nodeBlk (atLevel handle m)=parentBlk handle m := by
  cases m with
  | zero => rfl
  | succ k =>
    rw [nodeBlk,if_neg (show (atLevel handle (k+1)).level≠0 from Nat.succ_ne_zero k)]
    rfl

/-- The steps of the split of a node whose parent has room, to the last write of the parent. -/
structure SplitSteps (handle after : Handle) (node : NewNode) (m i : ℕ) (slot' link : Slot) :
    Prop where
  ready : Ready handle
  level : handle.level=m+1
  tracks : Tracks (handle.path m) i
  room : (handle.path m).entries<(handle.path m).maxEntries
  steps : ∃ moved fs mid, EntriesMoved handle moved node fs ∧
    LinkedHandle moved mid m i node slot' link ∧ updatePath mid=.ok () after

/-- The handle and the blocks after the split of a node, where the parent has another path. -/
structure SplitDisk (handle after : Handle) (node : NewNode) (m : ℕ) (path' : ExtentPath) :
    Prop where
  level : after.level=m
  maxDepth : after.maxDepth=handle.maxDepth
  iBlocks : after.iBlocks=handle.iBlocks
  path : after.path m=path'
  above : ∀ {k}, k < m → after.path k=handle.path k
  rw : after.fs.rw=handle.fs.rw
  geometry : after.fs.geometry=handle.fs.geometry
  blockMap : after.fs.blockMap=node.pblk::handle.fs.blockMap
  old : after.fs.disk (handle.slotAt m).eiLeaf={handle.current.buf with
    ehEntries := .ofNat (handle.current.buf.ehEntries.toNat-tocopy handle)}
  new : after.fs.disk node.pblk=newNode handle
  parent : ∀ b, parentBlk handle m=some b → after.fs.disk b=path'.buf
  frame : ∀ b, b≠node.pblk → b≠(handle.slotAt m).eiLeaf → parentBlk handle m≠some b →
    after.fs.disk b=handle.fs.disk b

namespace SplitSteps

variable {handle after : Handle} {node : NewNode} {m i : ℕ} {slot' link : Slot}

theorem m_lt (h : SplitSteps handle after node m i slot' link) : m<handle.maxDepth := by
  have hle := h.ready.onEntry.level_le
  have hlevel := h.level
  omega

theorem node_eq (h : SplitSteps handle after node m i slot' link) :
    handle.current.buf=handle.fs.disk (handle.slotAt m).eiLeaf := by
  have hlevel := h.level
  rw [Handle.current,hlevel]
  exact h.ready.onEntry.child (by omega)

theorem mem (h : SplitSteps handle after node m i slot' link) :
    handle.slotAt m∈slotsOf handle m := by
  have hlevel := h.level
  exact (nodeAt_path h.ready.onEntry (by omega)).2

theorem parentBlk_ne (h : SplitSteps handle after node m i slot' link) {b : ℕ}
    (hb : ∀ {k a}, k+1=m → a∈slotsOf handle k → a.eiLeaf≠b) : parentBlk handle m≠some b := by
  have hlevel := h.level
  cases m with
  | zero => exact nofun
  | succ k =>
    rw [parentBlk,ne_eq,Option.some.injEq]
    exact hb rfl (nodeAt_path h.ready.onEntry (by omega)).2

theorem fresh_ne (h : SplitSteps handle after node m i slot' link) {k : ℕ}
    (hk : k<handle.maxDepth) {slot : Slot} (hslot : slot∈slotsOf handle k) :
    slot.eiLeaf≠node.pblk := by
  obtain ⟨moved,fs,mid,hmoved,-⟩ := h.steps
  exact fun heq => hmoved.fresh (heq ▸ h.ready.stored.inUse hk hslot)

/-- The handle after the split, and the blocks that it has written. -/
theorem written (h : SplitSteps handle after node m i slot' link) :
    ∃ path', Linked (handle.path m) path' i slot' link ∧ SplitDisk handle after node m path' := by
  have hnew := h.fresh_ne h.m_lt h.mem
  have hparentOld := h.parentBlk_ne fun {k a} hk ha =>
    h.ready.stored.disjoint (show k < m by omega) h.m_lt ha h.mem
  have hparentNew := h.parentBlk_ne fun {k a} hk ha =>
    h.fresh_ne (show k<handle.maxDepth by have := h.m_lt; omega) ha
  obtain ⟨moved,fs,mid,hmoved,hlinked,hupdate⟩ := h.steps
  have hlevel := h.level
  obtain ⟨hfs,hlevel1,hdepth1,hiBlocks1,hpath1,hbuf1⟩ := hmoved.below (by omega)
  obtain ⟨path',hset,hlinkedPath⟩ := hlinked.path
  obtain ⟨fs2,rfl,hkept2,hframe2,hnode2⟩ := updatePath_ok hupdate
  obtain ⟨j,hcurr⟩ := h.ready.onEntry.tracks (le_refl handle.level)
  have hslot : ∀ {k}, k < m+1 → moved.slotAt k=handle.slotAt k := by
    intro k hk
    rw [Handle.slotAt,Handle.slotAt,hpath1 (by omega)]
  have hmovedBlk : nodeBlk moved=some (handle.slotAt m).eiLeaf := by
    rw [nodeBlk,if_neg (by omega),hlevel1,hlevel,Nat.add_sub_cancel,hslot (by omega)]
  have hmovedParent : parentBlk moved m=parentBlk handle m := by
    cases m with
    | zero => rfl
    | succ k => rw [parentBlk,parentBlk,hslot (by omega)]
  have hdisk := hset.disk
  rw [nodeBlk_atLevel,hmovedParent] at hdisk
  rw [hset.nodeBlk,nodeBlk_atLevel,hmovedParent] at hframe2 hnode2
  have hafter : ∀ b, parentBlk handle m≠some b → fs2.disk b=fs.disk b := by
    intro b hb
    rw [hframe2 b hb,hdisk b hb]
    exact congrFun (congrArg Filsys.disk hfs) b
  have hentries : handle.current.entries=handle.current.buf.ehEntries.toNat := hcurr.entries
  rw [hpath1 (show m≠handle.level by omega)] at hlinkedPath
  refine ⟨path',hlinkedPath,hset.level,hset.maxDepth.trans hdepth1,hset.iBlocks.trans hiBlocks1,
    ?_,fun {k} hk => ?_,?_,?_,?_,?_,?_,fun b hb => ?_,fun b hb hb' hb'' => ?_⟩
  · have hcurrent := hset.current
    rw [Handle.current,hset.level] at hcurrent
    exact hcurrent
  · have hother := hset.path_of_ne (show k≠(atLevel moved m).level from hk.ne)
    exact hother.trans (hpath1 (by omega))
  · rw [hkept2.rw,hset.kept.rw,←hmoved.rw]
    exact congrArg Filsys.rw hfs
  · rw [hkept2.geometry,hset.kept.geometry,←hmoved.geometry]
    exact congrArg Filsys.geometry hfs
  · rw [hkept2.blockMap,hset.kept.blockMap,←hmoved.blockMap]
    exact congrArg Filsys.blockMap hfs
  · change fs2.disk _=_
    rw [hafter _ hparentOld,hmoved.old _ hmovedBlk,hbuf1,hentries]
  · change fs2.disk _=_
    rw [hafter _ hparentNew]
    refine hmoved.new ?_
    rw [hmovedBlk,ne_eq,Option.some.injEq]
    exact hnew
  · change fs2.disk b=_
    rw [hnode2 b hb,hset.current]
  · change fs2.disk b=_
    rw [hafter b hb'']
    refine hmoved.frame b hb ?_
    rw [hmovedBlk,ne_eq,Option.some.injEq]
    exact hb'.symm

/-- Both halves are nodes of the height of the old one, with room for another entry. -/
theorem halves_ok (h : SplitSteps handle after node m i slot' link) :
    NodeOk handle.fs.geometry.blocksize (handle.maxDepth-1-m)
        {handle.current.buf with
          ehEntries := .ofNat (handle.current.buf.ehEntries.toNat-tocopy handle)} ∧
      NodeOk handle.fs.geometry.blocksize (handle.maxDepth-1-m) (newNode handle) := by
  obtain ⟨moved,fs,mid,hmoved,-⟩ := h.steps
  have hcopied := hmoved.copied
  have hlevel := h.level
  have hnode := h.node_eq
  obtain ⟨hok,-⟩ := h.ready.shaped.child h.m_lt h.mem
  rw [←hnode] at hok
  have hverify := hok.verify
  simp only [extentHeaderVerify,decide_eq_true_eq,UInt16.le_iff_toNat_le] at hverify
  have hcopy : tocopy handle=handle.current.buf.ehEntries.toNat/2 := by
    rw [tocopy,if_neg (by omega)]
  have hlt : handle.current.buf.ehEntries.toNat<2^16 := handle.current.buf.ehEntries.toNat_lt
  refine ⟨⟨verify_entries hok.verify (by omega),hok.depth,?_⟩,
    ⟨verify_tailNode hok.verify (by omega),hok.depth,?_⟩⟩
  · simp only [UInt16.toNat_ofNat']
    omega
  · simp only [newNode,tailNode,UInt16.toNat_ofNat']
    omega

/-- The tree after the split. -/
theorem splitBelow (h : SplitSteps handle after node m i slot' link) :
    ∃ before rest, SplitBelow handle.fs after.fs (handle.path 0).buf (after.path 0).buf
      handle.maxDepth m before rest (handle.slotAt m) slot' link := by
  obtain ⟨path',hlinkedPath,hdisk⟩ := h.written
  have htracks := h.tracks
  have hlevel := h.level
  have hroom := h.room
  obtain ⟨hleft,hright⟩ := h.halves_ok
  obtain ⟨moved,fs,mid,hmoved,hlinked,-⟩ := h.steps
  obtain ⟨-,-,-,-,hpath1,-⟩ := hmoved.below (by omega)
  have hpathm : moved.path m=handle.path m := hpath1 (by omega)
  have hlblk := hlinked.lblk
  have hleaf := hlinked.eiLeaf
  rw [hpathm,←slotAt_eq htracks] at hlblk hleaf
  rw [htracks.entries,htracks.maxEntries] at hroom
  have hgrown := @parentGrown_grownNode (handle.path m).buf i slot' link
    (by rw [←htracks.entries]; exact htracks.lt) hroom
  rw [←slotAt_eq htracks,←hlinkedPath.buf] at hgrown
  have hcopied : tocopy handle≤handle.current.buf.ehEntries.toNat := by
    rw [tocopy,if_neg (by omega)]
    omega
  generalize (List.range i).map _=before at hgrown
  generalize (List.range' (i+1) _).map _=rest at hgrown
  refine ⟨before,rest,⟨h.m_lt,hlblk,hleaf,?_,?_,?_,?_,?_,?_,hdisk.geometry,?_⟩⟩
  · rw [hlinked.linkLeaf]
    exact hmoved.fresh
  · rw [hlinked.linkLeaf,hdisk.old,hdisk.new,←h.node_eq]
    exact live_halves hcopied
  · rw [hdisk.old]
    exact hleft
  · rw [hlinked.linkLeaf,hdisk.new]
    exact hright
  · rw [hlinked.linkLeaf,hdisk.new,hlinked.linkLblk,hmoved.start]
  · refine ⟨_,_,parentBlk handle m,?_,hgrown,?_⟩
    · cases m with
      | zero => exact ⟨rfl,rfl,by rw [hdisk.path]⟩
      | succ k =>
        refine ⟨by rw [hdisk.above (Nat.succ_pos k)],_,
          (nodeAt_path h.ready.onEntry (show k≤handle.level by omega)).2,rfl,?_,?_⟩
        · exact h.ready.onEntry.child (by omega)
        · exact (hdisk.parent _ rfl).symm
    · intro b hb
      rw [hlinked.linkLeaf] at hb
      exact hdisk.frame b hb
  · rw [hlinked.linkLeaf]
    exact hdisk.blockMap

end SplitSteps

/-! ## The split of the root -/

/-- `EXT2_EXTENT_FIRST_SIB` in a node with entries. -/
theorem extentGet_firstSib {handle : Handle} (hne : 0 < handle.current.entries) :
    ∃ after, extentGet .firstSib handle=.ok (after.extentAt 0) after ∧
      PathSet handle after {handle.current with
        curr := some 0, left := handle.current.entries-1, visitNum := 0} := by
  have hmove : extentMove .firstSib handle=.ok () (handle.setPath handle.level
      {handle.current with
        curr := some 0, left := handle.current.entries-1, visitNum := 0}) := by
    simp only [extentMove,firstSib,nextSib,Handle.current,Handle.setPath,Function.update_self,
      Function.update_idem]
    rw [if_neg (by rw [Handle.current] at hne; omega)]
  have hset := pathSet_setPath handle {handle.current with
    curr := some 0, left := handle.current.entries-1, visitNum := 0}
  exact ⟨_,extentGet_eq hmove (by rw [hset.current]),hset⟩

/-- The index entry of the new node in the root. -/
theorem linkNode_root {split : Call Unit} {node : NewNode} {handle : Handle}
    (hroot : node.newRoot=true) (hrw : handle.fs.rw=true) (hlevel : handle.level≠handle.maxDepth)
    (hne : 0 < handle.current.entries) (hstart : node.start<2^32) (hpblk : node.pblk<2^48) :
    ∃ after path' link, linkNode split node handle=.ok () after ∧ PathSet handle after path' ∧
      path'.buf={handle.current.buf with slot := Function.update handle.current.buf.slot 0 link} ∧
      path'.entries=handle.current.entries ∧ path'.maxEntries=handle.current.maxEntries ∧
      link.lblk=node.start ∧ link.eiLeaf=node.pblk := by
  obtain ⟨first,hget,hset⟩ := extentGet_firstSib hne
  obtain ⟨after,hreplace,hset2⟩ :=
    @extentReplace_index {first.extentAt 0 with
      eLblk := node.start
      ePblk := node.pblk
      eLen := toU32 ((first.path 0).endBlk-node.start)} first 0
      (by rw [hset.kept.rw]; exact hrw) (by rw [hset.current])
      (by rw [hset.level,hset.maxDepth]; exact hlevel)
  rw [hset.current] at hset2
  refine ⟨after,_,_,?_,hset.trans hset2,rfl,rfl,rfl,indexSlot_lblk hstart,indexSlot_eiLeaf hpblk⟩
  simp only [linkNode,hroot]
  rw [if_pos trivial,bind_eq hget]
  exact hreplace

/-- The handle after the entries of the root have been moved. -/
theorem EntriesMoved.root {handle moved : Handle} {node : NewNode} {fs : Filsys}
    (h : EntriesMoved handle moved node fs) (hlevel : handle.level=0) :
    moved.fs=fs ∧ moved.level=0 ∧ moved.maxDepth=handle.maxDepth+1 ∧
      moved.iBlocks=handle.iBlocks ∧ moved.current.entries=1 ∧
      moved.current.maxEntries=handle.current.maxEntries ∧
      moved.current.buf={handle.current.buf with
        ehEntries := 1, ehDepth := .ofNat (handle.maxDepth+1)} := by
  rw [h.detached,Handle.detach,if_pos hlevel]
  refine ⟨rfl,hlevel,rfl,rfl,?_,?_,?_⟩ <;> simp only [Handle.current,hlevel] <;> rfl

/-- The new node of the root is a node with room for another entry. -/
theorem rootNode_ok {handle : Handle} (hready : Ready handle)
    (hdepth : (handle.path 0).buf.ehDepth.toNat=handle.maxDepth) (hlevel : handle.level=0)
    (hcopied : tocopy handle≠0) :
    NodeOk handle.fs.geometry.blocksize handle.maxDepth (newNode handle) ∧
      live (newNode handle)=live (handle.path 0).buf ∧
      (newNode handle).ehEntries.toNat<(newNode handle).ehMax.toNat := by
  have hcurrent : handle.current=handle.path 0 := by rw [Handle.current,hlevel]
  have hverify := hready.shaped.root_verify
  have hsize := handle.fs.geometry.blocksize_ge
  have hsize' := handle.fs.geometry.blocksize_le
  have hcopy : tocopy handle=(handle.path 0).buf.ehEntries.toNat := by
    rw [tocopy,if_pos hlevel,hcurrent]
  simp only [extentHeaderVerify,decide_eq_true_eq,UInt16.le_iff_toNat_le,maxSlots] at hverify
  have hslots : 84 ≤ maxSlots handle.fs.geometry.blocksize ∧
      maxSlots handle.fs.geometry.blocksize<2^16 := by
    rw [maxSlots]
    omega
  have hentries : (newNode handle).ehEntries.toNat=(handle.path 0).buf.ehEntries.toNat := by
    simp only [newNode,tailNode,UInt16.toNat_ofNat',hcopy]
    omega
  refine ⟨⟨?_,?_,by omega⟩,?_,?_⟩
  · rw [newNode,hcurrent]
    exact verify_tailNode hready.shaped.root_verify (by omega)
  · rw [newNode,hcurrent]
    exact hdepth
  · rw [newNode,hcurrent,hcopy,live_tailNode le_rfl,Nat.sub_self,live,List.range_eq_range']
  · rw [hentries]
    simp only [newNode,tailNode,UInt16.toNat_ofNat']
    omega

/-- The tree after the split of the root. -/
theorem splitRoot {split : Call Unit} {handle moved : Handle} {node : NewNode} {fs : Filsys}
    (hready : Ready handle) (hdepth : (handle.path 0).buf.ehDepth.toNat=handle.maxDepth)
    (hlevel : handle.level=0) (hmoved : EntriesMoved handle moved node fs) :
    ∃ after link, linkNode split node moved=.ok () after ∧ link.eiLeaf=node.pblk ∧
      SplitRoot handle.fs after.fs (handle.path 0).buf (after.path 0).buf handle.maxDepth link ∧
      after.maxDepth=handle.maxDepth+1 ∧ after.iBlocks=handle.iBlocks ∧ Opened after ∧
      after.fs.rw=handle.fs.rw ∧ after.fs.disk node.pblk=newNode handle ∧
      (after.path 0).buf.ehDepth=.ofNat (handle.maxDepth+1) := by
  obtain ⟨hfs,hlevel1,hdepth1,hiBlocks1,hentries1,hmax1,hbuf1⟩ := hmoved.root hlevel
  have hcurrent : handle.current=handle.path 0 := by rw [Handle.current,hlevel]
  obtain ⟨hok,hlive,-⟩ := rootNode_ok hready hdepth hlevel hmoved.copied
  have hblk : nodeBlk moved=none := by rw [nodeBlk,if_pos hlevel1]
  obtain ⟨after,path',link,hlink,hset,hbuf,hentries,hmax,hlblk,hleaf⟩ :=
    @linkNode_root split node moved (by rw [hmoved.newRoot,hlevel]; rfl)
      (by rw [hfs,hmoved.rw]; exact hready.rw) (by rw [hlevel1,hdepth1]; omega)
      (by rw [hentries1]; exact Nat.one_pos)
      (by rw [hmoved.start]; exact UInt32.toNat_lt _) hmoved.pblk
  have hlevel2 : after.level=0 := hset.level.trans hlevel1
  have hpath : after.path 0=path' := by
    have := hset.current
    rwa [Handle.current,hlevel2] at this
  have hdisk : ∀ b, after.fs.disk b=fs.disk b := by
    intro b
    rw [hset.disk b (by rw [hblk]; exact (Option.some_ne_none b).symm),hfs]
  have hnew : after.fs.disk node.pblk=newNode handle := by
    rw [hdisk]
    exact hmoved.new (by rw [hblk]; exact (Option.some_ne_none _).symm)
  have hroot : (after.path 0).buf={(handle.path 0).buf with
      ehEntries := 1
      ehDepth := .ofNat (handle.maxDepth+1)
      slot := Function.update (handle.path 0).buf.slot 0 link} := by
    rw [hpath,hbuf,hbuf1,hcurrent]
  have hverify := hready.shaped.root_verify
  simp only [extentHeaderVerify,decide_eq_true_eq,UInt16.le_iff_toNat_le] at hverify
  have hpos : 0 < (handle.path 0).buf.ehEntries.toNat := by
    have hcopied := hmoved.copied
    rw [tocopy,if_pos hlevel,hcurrent] at hcopied
    omega
  refine ⟨after,link,hlink,hleaf,⟨?_,?_,?_,?_,?_,?_,?_,?_,?_⟩,hset.maxDepth.trans hdepth1,
    hset.iBlocks.trans hiBlocks1,⟨?_,?_⟩,?_,hnew,by rw [hroot]⟩
  · rw [hroot]
    simp only [live,UInt16.toNat_one,List.range_one,List.map_cons,List.map_nil,
      Function.update_self]
  · rw [hroot]
    simp only [extentHeaderVerify,decide_eq_true_eq,UInt16.le_iff_toNat_le,UInt16.toNat_one]
    exact ⟨hverify.1,by omega,hverify.2.2⟩
  · rw [hleaf]
    exact hmoved.fresh
  · rw [hleaf,hnew,hlive]
  · rw [hleaf,hnew]
    exact hok
  · rw [hleaf,hnew,hlblk,hmoved.start]
  · intro b hb
    rw [hleaf] at hb
    rw [hdisk]
    exact hmoved.frame b hb (by rw [hblk]; exact (Option.some_ne_none b).symm)
  · rw [hset.kept.geometry,hfs,hmoved.geometry]
  · rw [hset.kept.blockMap,hfs,hmoved.blockMap,hleaf]
  · rw [hroot,hpath,hentries,hentries1]
    rfl
  · rw [hroot,hpath,hmax,hmax1,hcurrent]
    exact (opened_of_onEntry hready.onEntry).maxEntries
  · rw [hset.kept.rw,hfs,hmoved.rw]

/-! ## Back to the entry -/

/-- A search for an entry of the tree finds it. -/
theorem goto2_entry {handle : Handle} (hshape : ShapedTree handle) (ho : Opened handle)
    {k leafLevel : ℕ} (hk : k+leafLevel=handle.maxDepth) {slot : Slot}
    (hslot : slot∈slotsOf handle k) :
    (∃ e after, e≠.recursion ∧ extentGoto2 leafLevel slot.lblk handle=.error e after) ∨
      ∃ after, extentGoto2 leafLevel slot.lblk handle=.ok () after ∧ Moved handle after ∧
        OnEntry after ∧ after.level=k ∧ after.slotAt k=slot := by
  have hne : 0 < (handle.path 0).buf.ehEntries.toNat := by
    cases k with
    | zero =>
      obtain ⟨i,hi,-⟩ := List.mem_map.mp hslot
      have := List.mem_range.mp hi
      omega
    | succ k => exact hshape.root_nonempty (by omega)
  rcases @extentGoto2_reached leafLevel slot.lblk handle hshape ho hne (by omega) with
    ⟨-,e,after,he,hfail⟩ | ⟨after,i,hreached⟩
  · exact Or.inl ⟨e,after,he,hfail⟩
  · rcases hreached.result with ⟨hok,-⟩ | ⟨hfail,-⟩
    · have hlevel : after.level=k := by
        have := hreached.level
        omega
      have hfloor := hreached.floor
      rw [hlevel] at hfloor
      have heq := hfloor.eq_of_key (hshape.sortedBy (by omega)) hslot rfl
      refine Or.inr ⟨after,hok,hreached.moved,hreached.at_entry.onEntry,hlevel,?_⟩
      rw [heq,←hlevel]
      exact hreached.at_entry.slotAt
    · exact Or.inl ⟨.notFound,after,nofun,hfail⟩

/-- What depends on the blocks and the path is kept when only the counts change. -/
theorem onEntry_congr {handle after : Handle} (h : OnEntry handle)
    (hlevel : after.level=handle.level) (hdepth : after.maxDepth=handle.maxDepth)
    (hpath : after.path=handle.path) (hdisk : after.fs.disk=handle.fs.disk) : OnEntry after := by
  refine ⟨by rw [hlevel,hdepth]; exact h.level_le,fun {k} hk => ?_,fun {k} hk => ?_⟩
  · rw [hpath]
    exact h.tracks (by omega)
  · have hchild := h.child (show k<handle.level by omega)
    rw [Handle.slotAt] at hchild ⊢
    rw [hpath,hdisk]
    exact hchild

theorem countBlock_cases (handle : Handle) :
    (∃ e after, e≠.recursion ∧ countBlock handle=.error e after) ∨
      ∃ fs, countBlock handle=.ok () {handle with
          fs := fs, iBlocks := handle.iBlocks+clusterSectors handle.fs.geometry} ∧
        Kept handle.fs fs ∧ fs.disk=handle.fs.disk ∧
        fs.inode=⟨(handle.path 0).buf,handle.iBlocks+clusterSectors handle.fs.geometry⟩ := by
  have hcount : countBlock handle=
      writeInode {handle with iBlocks := handle.iBlocks+clusterSectors handle.fs.geometry} := rfl
  rw [hcount]
  cases hwrite : writeInode
      {handle with iBlocks := handle.iBlocks+clusterSectors handle.fs.geometry} with
  | error e after => exact Or.inl ⟨e,after,(writeInode_error hwrite).1,rfl⟩
  | ok _ after =>
    obtain ⟨fs,rfl,hkept,hdisk,hinode⟩ := writeInode_ok hwrite
    exact Or.inr ⟨fs,rfl,hkept,hdisk,hinode⟩

/-! ## The whole call -/

/-- The number of nodes that a split at a level allocates: one, and those for full parents. -/
def splitNodes (handle : Handle) : ℕ → ℕ
  | 0 => 1
  | k+1 =>
    if (handle.path k).maxEntries≤(handle.path k).entries then splitNodes handle k+1 else 1

/-- The number of levels that a split at a level adds. -/
def rootGrowth (handle : Handle) : ℕ → ℕ
  | 0 => 1
  | k+1 =>
    if (handle.path k).maxEntries≤(handle.path k).entries then rootGrowth handle k else 0

/-- A successful split, where `grow` levels and the blocks `added` are new. -/
structure SplitDone (handle after : Handle) (grow : ℕ) (added : List ℕ) : Prop where
  ready : Ready after
  maxDepth : after.maxDepth=handle.maxDepth+grow
  level : after.level=handle.level+grow
  slotAt : after.slotAt after.level=handle.slotAt handle.level
  slots : ∀ {k}, handle.level≤k → k≤handle.maxDepth → slotsOf after (k+grow)=slotsOf handle k
  disk : ∀ {k slot}, handle.level≤k → k<handle.maxDepth → slot∈slotsOf handle k →
    after.fs.disk slot.eiLeaf=handle.fs.disk slot.eiLeaf
  room : after.current.entries<after.current.maxEntries
  ehDepth : (after.path 0).buf.ehDepth=
    if grow=0 then (handle.path 0).buf.ehDepth else .ofNat after.maxDepth
  geometry : after.fs.geometry=handle.fs.geometry
  blockMap : after.fs.blockMap=added++handle.fs.blockMap
  iBlocks : after.iBlocks=
    handle.iBlocks+.ofNat added.length*clusterSectors handle.fs.geometry
  inode : after.fs.inode=after.inode

/-- A call fails, but not for the bound on the recursion. -/
def Fails {α : Type} (result : EStateM.Result Errcode Handle α) : Prop :=
  ∃ e after, e≠.recursion ∧ result=.error e after

theorem bind_fails {α β : Type} {first : Call α} {next : α → Call β} {handle : Handle}
    (h : Fails (first handle)) : Fails ((first >>= next) handle) := by
  obtain ⟨e,after,he,hfail⟩ := h
  refine ⟨e,after,he,?_⟩
  simp only [bind,EStateM.bind,hfail]

/-- The handle after the search for its entry, with the new block counted. -/
structure Finished (linked after : Handle) (k : ℕ) (slot : Slot) : Prop where
  rw : after.fs.rw=linked.fs.rw
  onEntry : OnEntry after
  maxDepth : after.maxDepth=linked.maxDepth
  level : after.level=k
  slotAt : after.slotAt k=slot
  root : (after.path 0).buf=(linked.path 0).buf
  disk : after.fs.disk=linked.fs.disk
  geometry : after.fs.geometry=linked.fs.geometry
  blockMap : after.fs.blockMap=linked.fs.blockMap
  iBlocks : after.iBlocks=linked.iBlocks+clusterSectors linked.fs.geometry
  inode : after.fs.inode=after.inode

theorem finish_cases {linked : Handle} (hshape : ShapedTree linked) (ho : Opened linked)
    {k leafLevel : ℕ} (hk : k+leafLevel=linked.maxDepth) {slot : Slot}
    (hslot : slot∈slotsOf linked k) :
    Fails ((do extentGoto2 leafLevel slot.lblk; countBlock : Call Unit) linked) ∨
      ∃ after, (do extentGoto2 leafLevel slot.lblk; countBlock : Call Unit) linked=.ok () after ∧
        Finished linked after k slot := by
  rcases goto2_entry hshape ho hk hslot with hfail | ⟨found,hgoto,hmoved,hon,hlevel,hfound⟩
  · exact Or.inl (bind_fails hfail)
  · rw [bind_eq hgoto]
    rcases countBlock_cases found with hfail | ⟨fs,hcount,hkept,hdisk,hinode⟩
    · exact Or.inl hfail
    · refine Or.inr ⟨_,hcount,?_,?_,hmoved.maxDepth,hlevel,hfound,hmoved.root,?_,?_,?_,?_,hinode⟩
      · exact hkept.rw.trans (congrArg Filsys.rw hmoved.fs)
      · exact onEntry_congr hon rfl rfl rfl hdisk
      · exact hdisk.trans (congrArg Filsys.disk hmoved.fs)
      · exact hkept.geometry.trans (congrArg Filsys.geometry hmoved.fs)
      · exact hkept.blockMap.trans (congrArg Filsys.blockMap hmoved.fs)
      · rw [hmoved.iBlocks,hmoved.fs]

theorem Finished.ready {linked after : Handle} {k : ℕ} {slot : Slot}
    (h : Finished linked after k slot) (hrw : linked.fs.rw=true) (hshape : ShapedTree linked)
    (hstored : Stored linked.fs linked.maxDepth (linked.path 0).buf) : Ready after := by
  refine ⟨h.rw.trans hrw,h.onEntry,?_,?_⟩
  · obtain ⟨hverify,hne,hchild,hsorted,hpos⟩ := hshape
    refine ⟨?_,?_,?_,?_,?_⟩
    · rw [h.root]; exact hverify
    · rw [h.root,h.maxDepth]; exact hne
    · rw [h.root,h.maxDepth,h.disk,h.geometry]; exact hchild
    · rw [h.root,h.maxDepth,h.disk]; exact hsorted
    · rw [h.root,h.maxDepth,h.disk]; exact hpos
  · obtain ⟨hnodup,hdisjoint,hinUse⟩ := hstored
    refine ⟨?_,?_,?_⟩
    · rw [h.root,h.maxDepth,h.disk]; exact hnodup
    · rw [h.root,h.maxDepth,h.disk]; exact hdisjoint
    · rw [h.root,h.maxDepth,h.disk,h.blockMap]; exact hinUse

theorem Finished.slotsOf {linked after : Handle} {k : ℕ} {slot : Slot}
    (h : Finished linked after k slot) (j : ℕ) : slotsOf after j=slotsOf linked j := by
  rw [ExtentTree.slotsOf,h.disk,h.root]

/-- The node at which the handle stands has room if it is one with room. -/
theorem room_of_nodeAt {handle : Handle} (hready : Ready handle) {node : ExtentNode}
    (hnode : NodeAt handle.fs.disk (handle.path 0).buf handle.level node) {slot : Slot}
    (hslot : slot∈live node) (hkey : slot.lblk=(handle.slotAt handle.level).lblk)
    (hroom : node.ehEntries.toNat<node.ehMax.toNat) :
    handle.current.entries<handle.current.maxEntries := by
  obtain ⟨i,htracks⟩ := hready.onEntry.tracks (le_refl handle.level)
  obtain ⟨hcurrent,-⟩ := nodeAt_path hready.onEntry (le_refl handle.level)
  have hmem := slotAt_mem_live hready.onEntry (le_refl handle.level)
  have heq := hnode.unique hready.shaped hready.onEntry.level_le hcurrent hslot hmem hkey
  rw [Handle.current,htracks.entries,htracks.maxEntries,←heq]
  exact hroom

/-- The handle with the index entry of the new node is open on its root. -/
theorem SplitSteps.opened {handle after : Handle} {node : NewNode} {m i : ℕ}
    {slot' link : Slot} (h : SplitSteps handle after node m i slot' link) : Opened after := by
  obtain ⟨path',hlinked,hdisk⟩ := h.written
  have htracks := h.tracks
  have hroom := h.room
  cases m with
  | zero =>
    have hmax : (handle.path 0).buf.ehMax.toNat<2^16 := (handle.path 0).buf.ehMax.toNat_lt
    have hentries := htracks.entries
    have hmaxEntries := htracks.maxEntries
    refine ⟨?_,?_⟩
    · rw [hdisk.path,hlinked.entries,hlinked.buf]
      simp only [grownNode,UInt16.toNat_ofNat']
      omega
    · rw [hdisk.path,hlinked.maxEntries,hlinked.buf,hmaxEntries]
      rfl
  | succ k =>
    have ho := opened_of_onEntry h.ready.onEntry
    exact ⟨by rw [hdisk.above (Nat.succ_pos k)]; exact ho.entries,
      by rw [hdisk.above (Nat.succ_pos k)]; exact ho.maxEntries⟩

/-- Each half has room for another entry. -/
theorem SplitSteps.halves_room {handle after : Handle} {node : NewNode} {m i : ℕ}
    {slot' link : Slot} (h : SplitSteps handle after node m i slot' link) :
    handle.current.buf.ehEntries.toNat-tocopy handle<handle.current.buf.ehMax.toNat ∧
      tocopy handle<handle.current.buf.ehEntries.toNat ∧
      (newNode handle).ehEntries.toNat<(newNode handle).ehMax.toNat := by
  obtain ⟨moved,fs,mid,hmoved,-⟩ := h.steps
  have hcopied := hmoved.copied
  have hlevel := h.level
  obtain ⟨hok,-⟩ := h.ready.shaped.child h.m_lt h.mem
  rw [←h.node_eq] at hok
  have hverify := hok.verify
  have hsize := handle.fs.geometry.blocksize_le
  simp only [extentHeaderVerify,decide_eq_true_eq,UInt16.le_iff_toNat_le,maxSlots] at hverify
  have hcopy : tocopy handle=handle.current.buf.ehEntries.toNat/2 := by
    rw [tocopy,if_neg (by omega)]
  refine ⟨by omega,by omega,?_⟩
  simp only [newNode,tailNode,UInt16.toNat_ofNat',maxSlots]
  omega

/-- After the split the handle stands in one of the halves. -/
theorem SplitSteps.room_after {handle linked after : Handle} {node : NewNode} {m i : ℕ}
    {slot' link : Slot} {before rest : List Slot}
    (h : SplitSteps handle linked node m i slot' link)
    (hbelow : SplitBelow handle.fs linked.fs (handle.path 0).buf (linked.path 0).buf
      handle.maxDepth m before rest (handle.slotAt m) slot' link)
    (hready : Ready after) (hlevel : after.level=handle.level)
    (hfinished : Finished linked after handle.level (handle.slotAt handle.level)) :
    after.current.entries<after.current.maxEntries := by
  obtain ⟨path',-,hdisk⟩ := h.written
  obtain ⟨moved,fs,mid,hmoved,hlinked,-⟩ := h.steps
  obtain ⟨hleft,hcopy,hright⟩ := h.halves_room
  have hlt : handle.current.buf.ehEntries.toNat<2^16 := handle.current.buf.ehEntries.toNat_lt
  have hslotAt := hfinished.slotAt
  obtain ⟨leftSlots,rightSlots,-,hslots⟩ := hbelow.levelSlots_at h.ready.stored
  have hlevels : levelSlots after.fs.disk (after.path 0).buf m=leftSlots++slot'::link::rightSlots := by
    rw [hfinished.disk,hfinished.root]
    exact hslots
  have hold : NodeAt after.fs.disk (after.path 0).buf after.level
      {handle.current.buf with
        ehEntries := .ofNat (handle.current.buf.ehEntries.toNat-tocopy handle)} := by
    rw [hlevel,h.level]
    refine ⟨slot',?_,?_⟩
    · rw [hlevels]
      exact List.mem_append_right _ List.mem_cons_self
    · rw [hbelow.eiLeaf,hfinished.disk,hdisk.old]
  have hnew : NodeAt after.fs.disk (after.path 0).buf after.level (newNode handle) := by
    rw [hlevel,h.level]
    refine ⟨link,?_,?_⟩
    · rw [hlevels]
      exact List.mem_append_right _ (List.mem_cons_of_mem _ List.mem_cons_self)
    · rw [hlinked.linkLeaf,hfinished.disk,hdisk.new]
  have hmem : handle.slotAt handle.level∈live handle.current.buf :=
    slotAt_mem_live h.ready.onEntry (le_refl handle.level)
  rw [←@live_halves handle.current.buf (tocopy handle) handle.fs.geometry.blocksize hcopy.le] at hmem
  have hkey : (handle.slotAt handle.level).lblk=(after.slotAt after.level).lblk := by
    rw [hlevel,hslotAt]
  rcases List.mem_append.mp hmem with hin | hin
  · refine room_of_nodeAt hready hold hin hkey ?_
    simp only [UInt16.toNat_ofNat']
    omega
  · exact room_of_nodeAt hready hnew hin hkey hright

/-- The split of a node whose parent has room. -/
theorem splitRest_below {split : Call Unit} {goal : ℕ} {handle : Handle} {m i : ℕ}
    (hready : Ready handle) (hlevel : handle.level=m+1) (htracks : Tracks (handle.path m) i)
    (hroom : (handle.path m).entries<(handle.path m).maxEntries) :
    Fails (splitRest split (handle.maxDepth-handle.level) (handle.slotAt handle.level).lblk goal
        handle) ∨
      ∃ after blk, splitRest split (handle.maxDepth-handle.level)
          (handle.slotAt handle.level).lblk goal handle=.ok () after ∧
        SplitDone handle after 0 [blk] := by
  have hm : m+1≤handle.maxDepth := by
    have := hready.onEntry.level_le
    omega
  rcases @splitNode_cases goal handle with hfail | ⟨node,moved,fs,hsplit,hmoved⟩
  · exact Or.inl (bind_fails hfail)
  obtain ⟨hfs,hlevel1,hdepth1,hiBlocks1,hpath1,-⟩ := hmoved.below (by omega)
  have hpathm : moved.path m=handle.path m := hpath1 (by omega)
  obtain ⟨mid,slot',link,hlink,hlinked⟩ :=
    @linkNode_index split node moved m i (by rw [hmoved.newRoot,hlevel]; rfl)
      (by rw [hfs,hmoved.rw]; exact hready.rw) (by omega) (by omega) (by rw [hpathm]; exact htracks)
      (by rw [hpathm]; exact hroom) (by rw [hmoved.start]; exact UInt32.toNat_lt _) hmoved.pblk
  rw [splitRest,bind_eq hsplit]
  cases hupdate : updatePath mid with
  | error e after =>
    refine Or.inl (bind_fails ?_)
    rw [hlink,hupdate,endInsert]
    split
    · exact ⟨e,_,(updatePath_error hupdate).1,rfl⟩
    · exact ⟨e,_,(updatePath_error hupdate).1,rfl⟩
  | ok _ linked =>
    rw [hupdate] at hlink
    have hsteps : SplitSteps handle linked node m i slot' link :=
      ⟨hready,hlevel,htracks,hroom,moved,fs,mid,hmoved,hlinked,hupdate⟩
    obtain ⟨path',hlinkedPath,hdisk⟩ := hsteps.written
    obtain ⟨before,rest,hbelow⟩ := hsteps.splitBelow
    have hshape : ShapedTree linked := by
      rw [ShapedTree,hdisk.maxDepth]
      exact hbelow.shaped hready.shaped hready.stored
    have hstored : Stored linked.fs linked.maxDepth (linked.path 0).buf := by
      rw [hdisk.maxDepth]
      exact hbelow.stored hready.stored
    have hslots : ∀ {k}, m<k → k≤handle.maxDepth → slotsOf linked k=slotsOf handle k :=
      fun hmk hk => hbelow.levelSlots_above hready.stored hmk hk
    have hmem := (nodeAt_path hready.onEntry (le_refl handle.level)).2
    have hmem' : handle.slotAt handle.level∈slotsOf linked handle.level := by
      rw [hslots (by omega) (by omega)]
      exact hmem
    have hheight : handle.level+(handle.maxDepth-handle.level)=linked.maxDepth := by
      rw [hdisk.maxDepth]
      omega
    rw [bind_eq hlink]
    rcases finish_cases hshape hsteps.opened hheight hmem' with hfail | ⟨after,hdone,hfinished⟩
    · exact Or.inl hfail
    · refine Or.inr ⟨after,node.pblk,hdone,?_⟩
      have hready' := hfinished.ready (hdisk.rw.trans hready.rw) hshape hstored
      have hlevel' : after.level=handle.level := hfinished.level
      have hkept : (linked.path 0).buf.ehDepth=(handle.path 0).buf.ehDepth := by
        cases m with
        | zero =>
          rw [hdisk.path,hlinkedPath.buf]
          rfl
        | succ k => rw [hdisk.above (Nat.succ_pos k)]
      refine ⟨hready',hfinished.maxDepth.trans hdisk.maxDepth,hlevel',?_,?_,?_,?_,?_,
        hfinished.geometry.trans hdisk.geometry,hfinished.blockMap.trans hdisk.blockMap,?_,
        hfinished.inode⟩
      · rw [hlevel']
        exact hfinished.slotAt
      · intro k hk hk'
        rw [Nat.add_zero,hfinished.slotsOf]
        exact hslots (by omega) hk'
      · intro k slot hk hk' hslot
        rw [hfinished.disk]
        exact hbelow.disk_eq hready.stored hk' hslot (by omega) (by omega)
      · exact hsteps.room_after hbelow hready' hlevel' hfinished
      · rw [if_pos rfl,hfinished.root]
        exact hkept
      · rw [hfinished.iBlocks,hdisk.iBlocks,hdisk.geometry,List.length_singleton]
        exact congrArg _ (UInt32.one_mul _).symm

/-- The split of the root. -/
theorem splitRest_root {split : Call Unit} {goal : ℕ} {handle : Handle}
    (hready : Ready handle) (hdepth : (handle.path 0).buf.ehDepth.toNat=handle.maxDepth)
    (hlevel : handle.level=0) :
    Fails (splitRest split (handle.maxDepth-handle.level) (handle.slotAt handle.level).lblk goal
        handle) ∨
      ∃ after blk, splitRest split (handle.maxDepth-handle.level)
          (handle.slotAt handle.level).lblk goal handle=.ok () after ∧
        SplitDone handle after 1 [blk] := by
  rcases @splitNode_cases goal handle with hfail | ⟨node,moved,fs,hsplit,hmoved⟩
  · exact Or.inl (bind_fails hfail)
  obtain ⟨-,-,hroom⟩ := rootNode_ok hready hdepth hlevel hmoved.copied
  obtain ⟨linked,link,hlink,hleaf,hroot,hdepth1,hiBlocks1,ho,hrw,hnew,hehDepth⟩ :=
    @splitRoot split handle moved node fs hready hdepth hlevel hmoved
  have hshape : ShapedTree linked := by
    rw [ShapedTree,hdepth1]
    exact hroot.shaped hready.shaped hready.stored
  have hstored : Stored linked.fs linked.maxDepth (linked.path 0).buf := by
    rw [hdepth1]
    exact hroot.stored hready.stored
  have hslots : ∀ {k}, k≤handle.maxDepth → slotsOf linked (k+1)=slotsOf handle k :=
    fun hk => hroot.levelSlots_succ hready.stored hk
  have hmem := (nodeAt_path hready.onEntry (le_refl handle.level)).2
  have hmem' : handle.slotAt handle.level∈slotsOf linked 1 := by
    rw [show 1=0+1 from rfl,hslots (Nat.zero_le _),←hlevel]
    exact hmem
  have hheight : 1+(handle.maxDepth-handle.level)=linked.maxDepth := by omega
  rw [splitRest,bind_eq hsplit,bind_eq hlink]
  rcases finish_cases hshape ho hheight hmem' with hfail | ⟨after,hdone,hfinished⟩
  · exact Or.inl hfail
  · have hready' := hfinished.ready (hrw.trans hready.rw) hshape hstored
    have hlevel' : after.level=1 := hfinished.level
    have hmax : after.maxDepth=handle.maxDepth+1 := hfinished.maxDepth.trans hdepth1
    refine Or.inr ⟨after,node.pblk,hdone,hready',hmax,by rw [hlevel',hlevel],?_,?_,?_,?_,?_,
      hfinished.geometry.trans hroot.geometry,?_,?_,hfinished.inode⟩
    · rw [hlevel']
      exact hfinished.slotAt
    · intro k _ hk'
      rw [hfinished.slotsOf]
      exact hslots hk'
    · intro k slot _ hk' hslot
      rw [hfinished.disk]
      exact hroot.disk_eq hready.stored hk' hslot
    · have hnode : NodeAt after.fs.disk (after.path 0).buf after.level (newNode handle) := by
        rw [hlevel',hfinished.disk,hfinished.root]
        refine ⟨link,?_,by rw [hleaf,hnew]⟩
        rw [hroot.levelSlots_zero]
        exact List.mem_singleton_self _
      have hlive : handle.slotAt handle.level∈live (newNode handle) := by
        rw [(rootNode_ok hready hdepth hlevel hmoved.copied).2.1]
        have := slotAt_mem_live hready.onEntry (le_refl handle.level)
        rwa [hlevel] at this ⊢
      refine room_of_nodeAt hready' hnode hlive ?_ hroom
      rw [hlevel',hfinished.slotAt]
    · rw [if_neg Nat.one_ne_zero,hfinished.root,hehDepth,hmax]
    · rw [hfinished.blockMap,hroot.blockMap,hleaf]
      rfl
    · rw [hfinished.iBlocks,hiBlocks1,hroot.geometry,List.length_singleton]
      exact congrArg _ (UInt32.one_mul _).symm

/-- Whether the parent of the node at a level is full. -/
theorem splitParent_room {split : Call Unit} {origHeight origLblk : ℕ} {handle : Handle}
    (h : handle.level=0 ∨ ∃ m, handle.level=m+1 ∧
      (handle.path m).entries<(handle.path m).maxEntries) :
    splitParent split origHeight origLblk handle=.ok 0 handle := by
  simp only [splitParent]
  rw [if_neg]
  rintro ⟨hne,hfull⟩
  rcases h with hzero | ⟨m,hlevel,hroom⟩
  · exact hne hzero
  · rw [hlevel,Nat.add_sub_cancel] at hfull
    omega

theorem extentGet_current {handle : Handle} (h : OnEntry handle) :
    ∃ extent, extentGet .current handle=.ok extent handle ∧
      extent.eLblk=(handle.slotAt handle.level).lblk := by
  obtain ⟨i,htracks⟩ := h.tracks (le_refl handle.level)
  refine ⟨_,extentGet_eq rfl htracks.curr,?_⟩
  rw [extentAt_eLblk,slotAt_eq htracks]
  rfl

/-- Two splits after each other. -/
theorem SplitDone.trans {handle mid after : Handle} {m grow : ℕ} {added : List ℕ} {blk : ℕ}
    (h : SplitDone (atLevel handle m) mid grow added) (hlevel : handle.level=m+1) {found : Handle}
    (hmoved : Moved mid found) (hfoundLevel : found.level=handle.level+grow)
    (hfoundSlot : found.slotAt found.level=handle.slotAt handle.level)
    (h' : SplitDone found after 0 [blk]) : SplitDone handle after grow (blk::added) := by
  have hdepth : found.maxDepth=handle.maxDepth+grow := hmoved.maxDepth.trans h.maxDepth
  have hslots : ∀ {k}, handle.level≤k → k≤handle.maxDepth →
      slotsOf found (k+grow)=slotsOf handle k := by
    intro k hk hk'
    rw [hmoved.slotsOf]
    exact h.slots (show m≤k by omega) hk'
  refine ⟨h'.ready,h'.maxDepth.trans hdepth,h'.level.trans hfoundLevel,h'.slotAt.trans hfoundSlot,
    ?_,?_,h'.room,?_,?_,?_,?_,h'.inode⟩
  · intro k hk hk'
    have hstep := h'.slots (show found.level≤k+grow by omega) (by omega)
    rw [Nat.add_zero] at hstep
    rw [hstep]
    exact hslots hk hk'
  · intro k slot hk hk' hslot
    rw [h'.disk (show found.level≤k+grow by omega) (by omega)
      (by rw [hslots hk hk'.le]; exact hslot),hmoved.fs]
    exact h.disk (show m≤k by omega) hk' hslot
  · rw [h'.ehDepth,if_pos rfl,hmoved.root,h.ehDepth,h'.maxDepth,hmoved.maxDepth]
    rfl
  · rw [h'.geometry,hmoved.fs]
    exact h.geometry
  · rw [h'.blockMap,hmoved.fs,h.blockMap]
    rfl
  · have hlength : (blk::added).length=added.length+1 := rfl
    rw [h'.iBlocks,hmoved.iBlocks,h.iBlocks,hmoved.fs,h.geometry,hlength,UInt32.ofNat_add,
      UInt32.add_mul,←UInt32.add_assoc]
    rfl

/-- The parent of the entry that the search finds is one of the halves of the old parent. -/
theorem SplitDone.parent_room {handle mid found : Handle} {m grow : ℕ} {added : List ℕ}
    (h : SplitDone (atLevel handle m) mid grow added) (hready : Ready handle)
    (hlevel : handle.level=m+1) (hmoved : Moved mid found) (hon : OnEntry found)
    (hfoundLevel : found.level=handle.level+grow)
    (hfoundSlot : found.slotAt (handle.level+grow)=handle.slotAt handle.level) :
    (found.path (m+grow)).entries<(found.path (m+grow)).maxEntries := by
  have hle := hready.onEntry.level_le
  have hdepth : mid.maxDepth=handle.maxDepth+grow := h.maxDepth
  have hmidLevel : mid.level=m+grow := h.level
  have hsucc : handle.level+grow=m+grow+1 := by omega
  obtain ⟨i,htracks⟩ := hon.tracks (show m+grow≤found.level by omega)
  -- The index entries over the entry in the old tree and in the new one have the same node.
  have hold : handle.slotAt m∈slotsOf mid (m+grow) := by
    rw [h.slots (le_refl m) (show m≤handle.maxDepth by omega)]
    exact (nodeAt_path hready.onEntry (show m≤handle.level by omega)).2
  have hnew : found.slotAt (m+grow)∈slotsOf mid (m+grow) := by
    rw [←hmoved.slotsOf]
    exact (nodeAt_path hon (show m+grow≤found.level by omega)).2
  have holdLive : handle.slotAt handle.level∈live (mid.fs.disk (handle.slotAt m).eiLeaf) := by
    have hsame : mid.fs.disk (handle.slotAt m).eiLeaf=handle.fs.disk (handle.slotAt m).eiLeaf :=
      h.disk (le_refl m) (show m<handle.maxDepth by omega)
        (nodeAt_path hready.onEntry (show m≤handle.level by omega)).2
    rw [hsame,←hready.onEntry.child (show m<handle.level by omega),←hlevel]
    exact slotAt_mem_live hready.onEntry (le_refl handle.level)
  have hnewLive : handle.slotAt handle.level∈live (mid.fs.disk (found.slotAt (m+grow)).eiLeaf) := by
    have hlive := slotAt_mem_live hon (show m+grow+1≤found.level by omega)
    rw [hon.child (show m+grow<found.level by omega),hmoved.fs,←hsucc,hfoundSlot] at hlive
    exact hlive
  have hnodeOld : NodeAt mid.fs.disk (mid.path 0).buf (m+grow+1)
      (mid.fs.disk (handle.slotAt m).eiLeaf) := ⟨_,hold,rfl⟩
  have hnodes := hnodeOld.unique h.ready.shaped (by omega)
    (⟨_,hnew,rfl⟩ : NodeAt mid.fs.disk (mid.path 0).buf (m+grow+1) _) holdLive hnewLive rfl
  obtain ⟨-,hkeyOld⟩ := h.ready.shaped.child (show m+grow < mid.maxDepth by omega) hold
  obtain ⟨-,hkeyNew⟩ := h.ready.shaped.child (show m+grow < mid.maxDepth by omega) hnew
  have hkey : (mid.slotAt mid.level).lblk=(found.slotAt (m+grow)).lblk := by
    rw [h.slotAt,←hkeyNew,←hnodes,hkeyOld]
    rfl
  -- So the nodes of these index entries are the same.
  have hmidNode := (nodeAt_path h.ready.onEntry (le_refl mid.level)).1
  have hmidLive := slotAt_mem_live h.ready.onEntry (le_refl mid.level)
  have hfoundNode := (nodeAt_path hon (show m+grow≤found.level by omega)).1
  have hfoundLive := slotAt_mem_live hon (show m+grow≤found.level by omega)
  rw [hmoved.fs,hmoved.root] at hfoundNode
  rw [hmidLevel] at hmidNode hmidLive hkey
  have hsame := hmidNode.unique h.ready.shaped (by omega) hfoundNode hmidLive hfoundLive hkey
  obtain ⟨j,hmidTracks⟩ := h.ready.onEntry.tracks (le_refl mid.level)
  have hroom := h.room
  rw [Handle.current,hmidTracks.entries,hmidTracks.maxEntries,hmidLevel,hsame] at hroom
  rw [htracks.entries,htracks.maxEntries]
  exact hroom

/-- After the split of a full parent the search finds the entry again, in a node whose parent
has room. -/
theorem SplitDone.found {handle mid : Handle} {m grow : ℕ} {added : List ℕ}
    (h : SplitDone (atLevel handle m) mid grow added) (hready : Ready handle)
    (hlevel : handle.level=m+1) :
    Fails (extentGoto2 (handle.maxDepth-handle.level) (handle.slotAt handle.level).lblk mid) ∨
      ∃ found, extentGoto2 (handle.maxDepth-handle.level) (handle.slotAt handle.level).lblk mid=
          .ok () found ∧ Moved mid found ∧ Ready found ∧ found.level=handle.level+grow ∧
        found.slotAt found.level=handle.slotAt handle.level ∧
        (found.path (m+grow)).entries<(found.path (m+grow)).maxEntries := by
  have hle := hready.onEntry.level_le
  have hslots : slotsOf mid (handle.level+grow)=slotsOf handle handle.level :=
    h.slots (show m≤handle.level by omega) hle
  have hmem : handle.slotAt handle.level∈slotsOf mid (handle.level+grow) := by
    rw [hslots]
    exact (nodeAt_path hready.onEntry (le_refl handle.level)).2
  have hdepth : mid.maxDepth=handle.maxDepth+grow := h.maxDepth
  rcases goto2_entry h.ready.shaped (opened_of_onEntry h.ready.onEntry)
    (show handle.level+grow+(handle.maxDepth-handle.level)=mid.maxDepth by omega) hmem with
    hfail | ⟨found,hgoto,hmoved,hon,hfoundLevel,hfoundSlot⟩
  · exact Or.inl hfail
  · refine Or.inr ⟨found,hgoto,hmoved,⟨?_,hon,hmoved.shapedTree h.ready.shaped,?_⟩,hfoundLevel,
      by rw [hfoundLevel]; exact hfoundSlot,?_⟩
    · rw [hmoved.fs]
      exact h.ready.rw
    · rw [hmoved.fs,hmoved.maxDepth,hmoved.root]
      exact h.ready.stored
    · exact h.parent_room hready hlevel hmoved hon hfoundLevel hfoundSlot

theorem ready_atLevel {handle : Handle} (h : Ready handle) {m : ℕ} (hm : m≤handle.level) :
    Ready (atLevel handle m) :=
  ⟨h.rw,⟨hm.trans h.onEntry.level_le,fun hk => h.onEntry.tracks (le_trans hk hm),
    fun hk => h.onEntry.child (lt_of_lt_of_le hk hm)⟩,h.shaped,h.stored⟩

theorem splitNodes_atLevel (handle : Handle) (m k : ℕ) :
    splitNodes (atLevel handle m) k=splitNodes handle k := by
  induction k with
  | zero => rfl
  | succ k ih =>
    rw [splitNodes,splitNodes,ih]
    rfl

theorem rootGrowth_atLevel (handle : Handle) (m k : ℕ) :
    rootGrowth (atLevel handle m) k=rootGrowth handle k := by
  induction k with
  | zero => rfl
  | succ k ih =>
    rw [rootGrowth,rootGrowth,ih]
    rfl

theorem nodeSplit_succ {calls : ℕ} {handle : Handle} (hready : Ready handle) :
    nodeSplit (calls+1) handle=
      (do
        let goal ← splitParent (nodeSplit calls) (handle.maxDepth-handle.level)
          (handle.slotAt handle.level).lblk
        splitRest (nodeSplit calls) (handle.maxDepth-handle.level)
          (handle.slotAt handle.level).lblk goal : Call Unit) handle := by
  obtain ⟨extent,hget,hlblk⟩ := extentGet_current hready.onEntry
  have hrw : handle.fs.rw≠false := by
    rw [hready.rw]
    exact Bool.noConfusion
  simp only [nodeSplit]
  rw [if_neg hrw,bind_eq hget,hlblk]

/-- The split of a full parent, and of the node after it. -/
theorem nodeSplit_full {split : Call Unit} {handle : Handle} {m grow : ℕ}
    (hready : Ready handle) (hlevel : handle.level=m+1)
    (hfull : (handle.path m).maxEntries≤(handle.path m).entries)
    (hparent : Fails (split (atLevel handle m)) ∨
      ∃ mid added, split (atLevel handle m)=.ok () mid ∧
        SplitDone (atLevel handle m) mid grow added ∧
        added.length=splitNodes (atLevel handle m) m) :
    Fails ((do
        let goal ← splitParent split (handle.maxDepth-handle.level)
          (handle.slotAt handle.level).lblk
        splitRest split (handle.maxDepth-handle.level)
          (handle.slotAt handle.level).lblk goal : Call Unit) handle) ∨
      ∃ after added, (do
        let goal ← splitParent split (handle.maxDepth-handle.level)
          (handle.slotAt handle.level).lblk
        splitRest split (handle.maxDepth-handle.level)
          (handle.slotAt handle.level).lblk goal : Call Unit) handle=.ok () after ∧
        SplitDone handle after grow added ∧ added.length=splitNodes handle m+1 := by
  obtain ⟨i,htracks⟩ := hready.onEntry.tracks (show m≤handle.level by omega)
  have hget := extentGet_up hlevel htracks.curr
  have hsplitParent : ∀ origHeight origLblk, splitParent split origHeight origLblk handle=
      (do
        split
        extentGoto2 origHeight origLblk
        pure ((atLevel handle m).extentAt i).ePblk : Call ℕ) (atLevel handle m) := by
    intro origHeight origLblk
    simp only [splitParent]
    rw [if_pos ⟨by omega,by rw [hlevel,Nat.add_sub_cancel]; exact hfull⟩,bind_eq hget]
  rcases hparent with hfail | ⟨mid,added,hsplit,hdone,hadded⟩
  · refine Or.inl (bind_fails ?_)
    rw [hsplitParent]
    exact bind_fails hfail
  · rcases hdone.found hready hlevel with hfail |
      ⟨found,hgoto,hmoved,hfoundReady,hfoundLevel,hfoundSlot,hroom⟩
    · refine Or.inl (bind_fails ?_)
      rw [hsplitParent,bind_eq hsplit]
      exact bind_fails hfail
    · have hparentDone : splitParent split (handle.maxDepth-handle.level)
          (handle.slotAt handle.level).lblk handle=
            .ok ((atLevel handle m).extentAt i).ePblk found := by
        rw [hsplitParent,bind_eq hsplit,bind_eq hgoto]
        rfl
      obtain ⟨j,hfoundTracks⟩ := hfoundReady.onEntry.tracks
        (show m+grow≤found.level by omega)
      have hfoundDepth : found.maxDepth=handle.maxDepth+grow :=
        hmoved.maxDepth.trans hdone.maxDepth
      have hrest := @splitRest_below split ((atLevel handle m).extentAt i).ePblk found (m+grow) j
        hfoundReady (by omega) hfoundTracks hroom
      rw [hfoundSlot,show found.maxDepth-found.level=handle.maxDepth-handle.level by omega] at hrest
      rw [bind_eq hparentDone]
      rcases hrest with hfail | ⟨after,blk,hok,hdone'⟩
      · exact Or.inl hfail
      · refine Or.inr ⟨after,blk::added,hok,
          hdone.trans hlevel hmoved hfoundLevel hfoundSlot hdone',?_⟩
        rw [List.length_cons,hadded,splitNodes_atLevel]

/-- With enough nested calls a split of a node of a well-formed tree succeeds or fails, and
never for the bound. -/
theorem nodeSplit_cases {calls : ℕ} {handle : Handle} (hready : Ready handle)
    (hdepth : (handle.path 0).buf.ehDepth.toNat=handle.maxDepth) (hcalls : handle.level<calls) :
    Fails (nodeSplit calls handle) ∨
      ∃ after added, nodeSplit calls handle=.ok () after ∧
        SplitDone handle after (rootGrowth handle handle.level) added ∧
        added.length=splitNodes handle handle.level := by
  induction calls generalizing handle with
  | zero => omega
  | succ calls ih =>
    rw [nodeSplit_succ hready]
    cases hlevel : handle.level with
    | zero =>
      have hrest := @splitRest_root (nodeSplit calls) 0 handle hready hdepth hlevel
      rw [hlevel] at hrest
      rw [bind_eq (splitParent_room (Or.inl hlevel))]
      rcases hrest with hfail | ⟨after,blk,hok,hdone⟩
      · exact Or.inl hfail
      · exact Or.inr ⟨after,[blk],hok,hdone,rfl⟩
    | succ m =>
      obtain ⟨i,htracks⟩ := hready.onEntry.tracks (show m≤handle.level by omega)
      rw [rootGrowth,splitNodes]
      by_cases hfull : (handle.path m).maxEntries≤(handle.path m).entries
      · have hparent := @ih (atLevel handle m) (ready_atLevel hready (by omega)) hdepth
          (show m<calls by omega)
        have hboth := nodeSplit_full hready hlevel hfull hparent
        rw [if_pos hfull,if_pos hfull,←rootGrowth_atLevel handle m m]
        rw [hlevel] at hboth
        exact hboth
      · have hrest := @splitRest_below (nodeSplit calls) 0 handle m i hready hlevel htracks (by omega)
        rw [hlevel] at hrest
        rw [if_neg hfull,if_neg hfull,bind_eq (splitParent_room (Or.inr ⟨m,hlevel,by omega⟩))]
        rcases hrest with hfail | ⟨after,blk,hok,hdone⟩
        · exact Or.inl hfail
        · exact Or.inr ⟨after,[blk],hok,hdone,rfl⟩

end AndroidPlatform.ExtentSplit
