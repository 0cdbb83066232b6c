import AndroidPlatform.ExtentHandle

/-!
# Changes of an extent tree

An entry is replaced, inserted or removed in the cached node at the level of the handle, and
the node is written. A full node is split first: the second half of its entries, or all
those of the root, moves to a new block, which gets an entry in the parent after that of the
node. A full parent is split before that.
-/

namespace AndroidPlatform.ExtentUpdate

open ExtentHandle CInteger

/-! ## Writes -/

/-- `io_channel_write_blk64`. -/
def writeBlk (blk : ℕ) (node : ExtentNode) : Call Unit := fun handle =>
  let fs := {handle.fs with writes := handle.fs.writes+1}
  match handle.fs.writeFault handle.fs.writes with
  | some code => .error (.io code) {handle with fs := fs}
  | none => .ok () {handle with fs := {fs with disk := Function.update fs.disk blk node}}

/-- `ext2fs_write_inode` for the inode of the handle. -/
def writeInode : Call Unit := fun handle =>
  let fs := {handle.fs with writes := handle.fs.writes+1}
  match handle.fs.writeFault handle.fs.writes with
  | some code => .error (.io code) {handle with fs := fs}
  | none => .ok () {handle with fs := {fs with inode := handle.inode}}

/-- `update_path`. -/
def updatePath : Call Unit := fun handle =>
  if handle.level=0 then writeInode handle
  else writeBlk (handle.slotAt (handle.level-1)).eiLeaf handle.current.buf handle

/-- A call whose error code is ignored. -/
def ignoring (call : Call Unit) : Call Unit := fun handle =>
  match call handle with
  | .ok _ handle => .ok () handle
  | .error _ handle => .ok () handle

/-- `ext2fs_alloc_block2`. -/
def allocBlock (goal : ℕ) : Call ℕ := fun handle =>
  match handle.fs.allocator.newBlock handle.fs.blockMap goal with
  | .error code => .error (.io code) handle
  | .ok blk =>
    match writeBlk blk default handle with
    | .error e handle => .error e handle
    | .ok _ handle =>
      .ok blk {handle with fs := {handle.fs with blockMap := blk::handle.fs.blockMap}}

/-! ## Entries -/

/-- The slot that `ext2fs_extent_replace` stores above the leaves. -/
def indexSlot (extent : Extent) : Slot where
  block := .ofNat extent.eLblk
  half0 := .ofNat extent.ePblk
  half1 := .ofNat (extent.ePblk/2^16)
  half2 := .ofNat (extent.ePblk/2^32)
  half3 := 0

/-- The slot that `ext2fs_extent_replace` stores in a leaf, for a value of `ee_len`. -/
def extentSlot (extent : Extent) (eeLen : UInt16) : Slot where
  block := .ofNat extent.eLblk
  half0 := eeLen
  half1 := .ofNat (extent.ePblk/2^32)
  half2 := .ofNat extent.ePblk
  half3 := .ofNat (extent.ePblk/2^16)

/-- The handle with another slot in the node of its level. -/
def Handle.store (handle : Handle) (i : ℕ) (slot : Slot) : Handle :=
  let path := handle.current
  handle.setPath handle.level
    {path with buf := {path.buf with slot := Function.update path.buf.slot i slot}}

/-- `ext2fs_extent_replace`. -/
def extentReplace (extent : Extent) : Call Unit := fun handle =>
  if handle.fs.rw=false then .error .roFilsys handle
  else
    match handle.current.curr with
    | none => .error .noCurrentNode handle
    | some i =>
      if handle.level=handle.maxDepth then
        if extent.uninit then
          if extUninitMaxLen<extent.eLen then
            .error .invalidLength
              (Handle.store handle i (extentSlot extent (handle.current.buf.slot i).half0))
          else
            ignoring updatePath
              (Handle.store handle i (extentSlot extent (.ofNat (extent.eLen+extInitMaxLen))))
        else
          if extInitMaxLen<extent.eLen then
            .error .invalidLength
              (Handle.store handle i (extentSlot extent (handle.current.buf.slot i).half0))
          else ignoring updatePath (Handle.store handle i (extentSlot extent (.ofNat extent.eLen)))
      else ignoring updatePath (Handle.store handle i (indexSlot extent))

/-- The sectors of a cluster, `fs->blocksize*EXT2FS_CLUSTER_RATIO(fs)/512`. -/
def clusterSectors (geometry : Geometry) : UInt32 :=
  .ofNat (geometry.blocksize*2^geometry.clusterRatioBits)/512

/-- The path of a node without the entry at its position. -/
def ExtentPath.removed (path : ExtentPath) (i : ℕ) : ExtentPath :=
  let path :=
    if path.left≠0 then
      {path with
        buf := {path.buf with
          slot := fun j =>
            if i≤j ∧ j < i+path.left.toNat then path.buf.slot (j+1) else path.buf.slot j}
        left := path.left-1}
    else {path with curr := some (i-1)}
  {path with
    entries := path.entries-1
    curr := if path.entries-1=0 then none else path.curr}

/-- `ext2fs_extent_delete` of a handle at a level that is not greater than the number. -/
def deleteFrom : ℕ → Bool → Call Unit
  | level,keepEmpty => fun handle =>
    if handle.fs.rw=false then .error .roFilsys handle
    else
      match handle.current.curr with
      | none => .error .noCurrentNode handle
      | some i =>
        let path := ExtentPath.removed handle.current i
        let handle := handle.setPath handle.level path
        match level with
        | parent+1 =>
          if path.entries=0 ∧ handle.level≠0 then
            if keepEmpty then .ok () handle
            else
              match extentGet .up handle with
              | .error e handle => .error e handle
              | .ok extent handle =>
                let handle :=
                  match deleteFrom parent keepEmpty handle with
                  | .ok _ handle => handle
                  | .error _ handle => handle
                let free (handle : Handle) : Handle :=
                  {handle with fs := {handle.fs with
                    blockMap := handle.fs.blockMap.erase extent.ePblk}}
                match writeInode {handle with
                  iBlocks := handle.iBlocks-clusterSectors handle.fs.geometry} with
                | .ok _ handle => .ok () (free handle)
                | .error e handle => .error e (free handle)
          else writeRemoved handle path
        | 0 => writeRemoved handle path
where
  /-- The end of `ext2fs_extent_delete` for a node that stays. -/
  writeRemoved (handle : Handle) (path : ExtentPath) : EStateM.Result Errcode Handle Unit :=
    let node := {path.buf with ehEntries := .ofNat path.entries}
    if path.entries=0 ∧ handle.level=0 then
      updatePath
        {handle.setPath handle.level {path with buf := {node with ehDepth := 0}} with maxDepth := 0}
    else updatePath (handle.setPath handle.level {path with buf := node})

/-- `ext2fs_extent_delete`. -/
def extentDelete (keepEmpty : Bool) : Call Unit := fun handle =>
  deleteFrom handle.level keepEmpty handle

/-- The path of a node with room for another entry at its position, or after it. -/
def ExtentPath.inserted (path : ExtentPath) (after : Bool) : ExtentPath :=
  let i :=
    match path.curr with
    | some i => if after then i+1 else i
    | none => 0
  let left := if path.curr.isSome ∧ after then path.left-1 else path.left
  {path with
    buf := {path.buf with
      ehEntries := .ofNat (path.entries+1)
      slot := fun j =>
        if 0≤left ∧ i<j ∧ j ≤ i+left.toNat+1 then path.buf.slot (j-1) else path.buf.slot j}
    entries := path.entries+1
    left := left+1
    curr := some i}

/-- `ext2fs_extent_insert`, where `split` is `ext2fs_extent_node_split`. -/
def extentInsert (split : Call Unit) (after noSplit : Bool) (extent : Extent) : Call Unit :=
  fun handle =>
    if handle.fs.rw=false then .error .roFilsys handle
    else
      let room :=
        if handle.current.maxEntries≤handle.current.entries then
          if noSplit then .error .cantInsert handle else split handle
        else .ok () handle
      match room with
      | .error e handle => .error e handle
      | .ok _ handle =>
        let stored : Call Unit := do
          extentReplace extent
          updatePath
        match stored (handle.setPath handle.level (ExtentPath.inserted handle.current after)) with
        | .ok _ handle => .ok () handle
        | .error e handle =>
          match extentDelete false handle with
          | .ok _ handle => .error e handle
          | .error _ handle => .error e handle

/-! ## Splits -/

/-- The split of a full parent in `ext2fs_extent_node_split`: the goal for the new block. -/
def splitParent (split : Call Unit) (origHeight origLblk : ℕ) : Call ℕ := fun handle =>
  if handle.level≠0 ∧
      (handle.path (handle.level-1)).maxEntries≤(handle.path (handle.level-1)).entries then
    (do
      let extent ← extentGet .up
      split
      extentGoto2 origHeight origLblk
      pure extent.ePblk : Call ℕ) handle
  else .ok 0 handle

/-- The node with the last `tocopy` entries of another one. -/
def tailNode (eh : ExtentNode) (tocopy blocksize : ℕ) : ExtentNode where
  ehMagic := eh.ehMagic
  ehEntries := .ofNat tocopy
  ehMax := .ofNat (maxSlots blocksize)
  ehDepth := eh.ehDepth
  slot j := if j<tocopy then eh.slot (eh.ehEntries.toNat-tocopy+j) else default

/-- The handle after the entries have been copied from the node of its level: the node has the
other entries, and the root has none but stands for one that follows. -/
def Handle.detach (handle : Handle) (tocopy : ℕ) : Handle :=
  let path := handle.current
  if handle.level=0 then
    {handle with
      maxDepth := handle.maxDepth+1
      path := fun k =>
        if k=0 then
          {path with
            buf := {path.buf with ehEntries := 1, ehDepth := .ofNat (handle.maxDepth+1)}
            entries := 1
            left := path.maxEntries-1}
        else if k≤handle.maxDepth then handle.path k
        else default}
  else
    handle.setPath handle.level
      {path with
        buf := {path.buf with ehEntries := .ofNat (path.entries-tocopy)}
        entries := path.entries-tocopy
        left := path.left-tocopy}

/-- What `ext2fs_extent_node_split` knows of the new node. -/
structure NewNode where
  /-- `new_root`. -/
  newRoot : Bool
  /-- `new_node_pblk`. -/
  pblk : ℕ
  /-- `new_node_start`. -/
  start : ℕ

/-- `tocopy`: all entries of the root, the second half of those of another node. -/
def tocopy (handle : Handle) : ℕ :=
  if handle.level=0 then handle.current.buf.ehEntries.toNat
  else handle.current.buf.ehEntries.toNat/2

/-- The node that gets the entries. -/
def newNode (handle : Handle) : ExtentNode :=
  tailNode handle.current.buf (tocopy handle) handle.fs.geometry.blocksize

/-- The part of `ext2fs_extent_node_split` that moves the entries to a new block. -/
def moveEntries (goal : ℕ) : Call NewNode := fun handle =>
  (do
    let pblk ← allocBlock (if goal=0 then handle.fs.inodeGoal else goal)
    writeBlk pblk (newNode handle)
    modify fun after => Handle.detach after (tocopy handle)
    updatePath
    pure ⟨handle.level=0,pblk,((newNode handle).slot 0).lblk⟩ : Call NewNode) handle

/-- The part of `ext2fs_extent_node_split` from the test of `path->curr` to the new block. -/
def splitNode (goal : ℕ) : Call NewNode := fun handle =>
  match handle.current.curr with
  | none => .error .noCurrentNode handle
  | some _ => if tocopy handle=0 then .error .cantSplit handle else moveEntries goal handle

/-- The part of `ext2fs_extent_node_split` that makes the index entry of the new node. -/
def linkNode (split : Call Unit) (node : NewNode) : Call Unit :=
  if node.newRoot then do
    let extent ← extentGet .firstSib
    let handle ← get
    extentReplace
      {extent with
        eLblk := node.start
        ePblk := node.pblk
        eLen := toU32 ((handle.path 0).endBlk-node.start)}
  else do
    let extent ← extentGet .up
    let length := toU32 (node.start-extent.eLblk)
    let extent := {extent with eLen := toU32 (extent.eLen-length)}
    extentReplace extent
    extentInsert split true false
      {extent with eLblk := node.start, ePblk := node.pblk, eLen := length}

/-- The part of `ext2fs_extent_node_split` that counts the new block. -/
def countBlock : Call Unit := do
  modify fun handle =>
    {handle with iBlocks := handle.iBlocks+clusterSectors handle.fs.geometry}
  writeInode

/-- The part of `ext2fs_extent_node_split` after the split of a full parent. -/
def splitRest (split : Call Unit) (origHeight origLblk goal : ℕ) : Call Unit := do
  let node ← splitNode goal
  linkNode split node
  extentGoto2 origHeight origLblk
  countBlock

/-- `ext2fs_extent_node_split`, with at most that many nested calls. -/
def nodeSplit : ℕ → Call Unit
  | 0 => throw .recursion
  | calls+1 => fun handle =>
    if handle.fs.rw=false then .error .roFilsys handle
    else
      (do
        let extent ← extentGet .current
        let origHeight := handle.maxDepth-handle.level
        let goal ← splitParent (nodeSplit calls) origHeight extent.eLblk
        splitRest (nodeSplit calls) origHeight extent.eLblk goal : Call Unit) handle

end AndroidPlatform.ExtentUpdate
