import AndroidPlatform.CInteger
import Mathlib.Logic.Function.Basic

/-!
# Extent trees and the handles on them

A node of the tree is an array of slots behind a header. A slot of twelve bytes is an index
entry above the leaves and an extent in a leaf. A handle caches the nodes from the root to
its position, with a slot and the number of slots after it for each of them. The root is in
the inode, the other nodes are blocks of the file system.
-/

namespace AndroidPlatform.ExtentHandle

open CInteger

/-! ## The nodes -/

/-- The twelve bytes of `struct ext3_extent` and of `struct ext3_extent_idx`. -/
structure Slot where
  /-- `ee_block` and `ei_block`. -/
  block : UInt32
  /-- `ee_len`, and the low half of `ei_leaf`. -/
  half0 : UInt16
  /-- `ee_start_hi`, and the high half of `ei_leaf`. -/
  half1 : UInt16
  /-- The low half of `ee_start`, and `ei_leaf_hi`. -/
  half2 : UInt16
  /-- The high half of `ee_start`, and `ei_unused`. -/
  half3 : UInt16
deriving DecidableEq, Inhabited

/-- The logical block of a slot. -/
def Slot.lblk (slot : Slot) : ℕ := slot.block.toNat

/-- `ei_leaf` and `ei_leaf_hi`: the block of the child. -/
def Slot.eiLeaf (slot : Slot) : ℕ :=
  slot.half0.toNat+2^16*slot.half1.toNat+2^32*slot.half2.toNat

/-- `ee_start` and `ee_start_hi`: the physical block. -/
def Slot.eeStart (slot : Slot) : ℕ :=
  slot.half2.toNat+2^16*slot.half3.toNat+2^32*slot.half1.toNat

/-- `EXT_INIT_MAX_LEN`. -/
def extInitMaxLen : ℕ := 2^15

/-- `EXT_UNINIT_MAX_LEN`. -/
def extUninitMaxLen : ℕ := extInitMaxLen-1

/-- Whether `ee_len` marks the extent as not initialised. -/
def Slot.uninit (slot : Slot) : Bool := extInitMaxLen < slot.half0.toNat

/-- The number of blocks in `ee_len`. -/
def Slot.len (slot : Slot) : ℕ :=
  if slot.uninit then slot.half0.toNat-extInitMaxLen else slot.half0.toNat

/-- `struct ext3_extent_header` and the slots after it. -/
structure ExtentNode where
  /-- `eh_magic`. -/
  ehMagic : UInt16
  /-- `eh_entries`. -/
  ehEntries : UInt16
  /-- `eh_max`. -/
  ehMax : UInt16
  /-- `eh_depth`. -/
  ehDepth : UInt16
  /-- The slots, those behind the entries included. -/
  slot : ℕ → Slot
deriving Inhabited

/-- `EXT3_EXT_MAGIC`. -/
def ext3ExtMagic : UInt16 := 0xf30a

/-- The number of slots in `size` bytes. -/
def maxSlots (size : ℕ) : ℕ := (size-12)/12

/-- Whether `ext2fs_extent_header_verify` returns zero. -/
def extentHeaderVerify (node : ExtentNode) (size : ℕ) : Bool :=
  node.ehMagic=ext3ExtMagic ∧ node.ehEntries≤node.ehMax ∧ node.ehMax.toNat ≤ maxSlots size ∧
    maxSlots size≤node.ehMax.toNat+2

/-! ## The file system and the handle -/

/-- The error codes of the functions. -/
inductive Errcode where
  | noNext
  | noPrev
  | noUp
  | noDown
  | notFound
  | noCurrentNode
  | opNotSupported
  | headerBad
  | cantSplit
  | cantInsert
  | invalidLength
  | roFilsys
  | io (code : ℕ)
  /-- The bound on the recursion of the model, no code of the library. -/
  | recursion
deriving DecidableEq

/-- The search for a free block by `ext2fs_new_block2` or by the callback of the file system.
It finds a block that is not in use, with a number of 48 bits. -/
structure Allocator where
  /-- The block for a bitmap and a goal. -/
  newBlock : List ℕ → ℕ → Except ℕ ℕ
  fresh : ∀ {blockMap goal block}, newBlock blockMap goal=.ok block → block∉blockMap
  block_lt : ∀ {blockMap goal block}, newBlock blockMap goal=.ok block → block<2^48

/-- The sizes of blocks and clusters. -/
structure Geometry where
  /-- `blocksize`. -/
  blocksize : ℕ
  /-- `cluster_ratio_bits`. -/
  clusterRatioBits : ℕ
  blocksize_ge : 1024≤blocksize
  blocksize_le : blocksize≤65536
  cluster_lt : blocksize*2^clusterRatioBits<2^32

/-- What `struct ext2_inode` holds for the extents. -/
structure Inode where
  /-- `i_block`. -/
  iBlock : ExtentNode
  /-- `i_blocks`. -/
  iBlocks : UInt32

/-- What `struct struct_ext2_filsys` and the device hold for the extents. -/
structure Filsys where
  /-- `EXT2_FLAG_RW`. -/
  rw : Bool
  /-- `EXT2_FLAG_IMAGE_FILE`, where the channel is not that of the image. -/
  imageFile : Bool
  /-- The sizes. -/
  geometry : Geometry
  /-- The blocks of the device. -/
  disk : ℕ → ExtentNode
  /-- The inode in the inode table. -/
  inode : Inode
  /-- The blocks that the block bitmap marks. -/
  blockMap : List ℕ
  /-- The search for a free block. -/
  allocator : Allocator
  /-- The first block of the group of the inode, or of its flex group. -/
  inodeGoal : ℕ
  /-- The error of a read, by block. -/
  readFault : ℕ → Option ℕ
  /-- The error of a write, by the number of writes before it. -/
  writeFault : ℕ → Option ℕ
  /-- The number of writes so far. -/
  writes : ℕ

/-- `struct extent_path`. -/
structure ExtentPath where
  /-- `buf`. -/
  buf : ExtentNode
  /-- `entries`. -/
  entries : ℕ
  /-- `max_entries`. -/
  maxEntries : ℕ
  /-- `left`. -/
  left : ℤ
  /-- `visit_num`. -/
  visitNum : ℕ
  /-- `end_blk`. -/
  endBlk : ℕ
  /-- `curr`, as an index into the slots. -/
  curr : Option ℕ
deriving Inhabited

/-- `struct ext2_extent_handle`. The buffer of level zero is `i_block` of its inode. -/
structure Handle where
  /-- `fs`. -/
  fs : Filsys
  /-- `i_blocks` of the inode. -/
  iBlocks : UInt32
  /-- `level`. -/
  level : ℕ
  /-- `max_depth`. -/
  maxDepth : ℕ
  /-- `path`. -/
  path : ℕ → ExtentPath

/-- `struct ext2fs_extent`. -/
structure Extent where
  /-- `e_pblk`. -/
  ePblk : ℕ
  /-- `e_lblk`. -/
  eLblk : ℕ
  /-- `e_len`. -/
  eLen : ℕ
  /-- `EXT2_EXTENT_FLAGS_LEAF`. -/
  leaf : Bool
  /-- `EXT2_EXTENT_FLAGS_UNINIT`. -/
  uninit : Bool
  /-- `EXT2_EXTENT_FLAGS_SECOND_VISIT`. -/
  secondVisit : Bool
deriving DecidableEq

/-- A call on a handle: its error code if that is not zero, and the handle after it. -/
abbrev Call := EStateM Errcode Handle

/-- `handle->path+handle->level`. -/
def Handle.current (handle : Handle) : ExtentPath := handle.path handle.level

/-- The handle with another path at a level. -/
def Handle.setPath (handle : Handle) (level : ℕ) (path : ExtentPath) : Handle :=
  {handle with path := Function.update handle.path level path}

/-- The inode of the handle. -/
def Handle.inode (handle : Handle) : Inode := ⟨(handle.path 0).buf,handle.iBlocks⟩

/-- The slot at which the handle stands at a level. -/
def Handle.slotAt (handle : Handle) (level : ℕ) : Slot :=
  (handle.path level).buf.slot ((handle.path level).curr.getD 0)

/-- The end of the range of an index entry. -/
def ExtentPath.rangeEnd (path : ExtentPath) (i : ℕ) : ℕ :=
  if 0 < path.left then (path.buf.slot (i+1)).lblk else path.endBlk

/-- The extent that `ext2fs_extent_get` makes of a slot. -/
def Handle.extentAt (handle : Handle) (i : ℕ) : Extent :=
  let path := handle.current
  let slot := path.buf.slot i
  if handle.level=handle.maxDepth then
    ⟨slot.eeStart,slot.lblk,slot.len,true,slot.uninit,path.visitNum≠0⟩
  else ⟨slot.eiLeaf,slot.lblk,toU32 (path.rangeEnd i-slot.lblk),false,false,path.visitNum≠0⟩

/-- What `io_channel_read_blk64` or, for an image, `memset` leaves in the buffer. -/
def Filsys.readBlk (fs : Filsys) (blk : ℕ) : Except Errcode ExtentNode :=
  if fs.imageFile then .ok default
  else
    match fs.readFault blk with
    | some code => .error (.io code)
    | none => .ok (fs.disk blk)

/-! ## The moves -/

/-- The operations of `ext2fs_extent_get` that are one move. -/
inductive Move where
  | current
  | root
  | firstSib
  | nextSib
  | prevSib
  | up
  | down
deriving DecidableEq

/-- `EXT2_EXTENT_NEXT_SIB`. -/
def nextSib : Call Unit := fun handle =>
  let path := handle.current
  if path.left≤0 then .error .noNext handle
  else
    .ok () (handle.setPath handle.level
      {path with
        curr := some (match path.curr with | some i => i+1 | none => 0)
        left := path.left-1
        visitNum := 0})

/-- `EXT2_EXTENT_FIRST_SIB`, which goes on with `EXT2_EXTENT_NEXT_SIB`. -/
def firstSib : Call Unit := fun handle =>
  let path := handle.current
  nextSib (handle.setPath handle.level {path with left := path.entries, curr := none})

/-- `EXT2_EXTENT_PREV_SIB`. -/
def prevSib : Call Unit := fun handle =>
  let path := handle.current
  match path.curr with
  | none => .error .noPrev handle
  | some i =>
    if path.entries≤path.left+1 then .error .noPrev handle
    else
      .ok () (handle.setPath handle.level
        {path with
          curr := some (i-1)
          left := path.left+1
          visitNum := if handle.level < handle.maxDepth then 1 else path.visitNum})

/-- `EXT2_EXTENT_UP`. -/
def goUp : Call Unit := fun handle =>
  if handle.level=0 then .error .noUp handle
  else .ok () {handle with level := handle.level-1}

/-- The new path of `EXT2_EXTENT_DOWN` for a node that was read at entry `i`. -/
def ExtentPath.below (path : ExtentPath) (i : ℕ) (node : ExtentNode) : ExtentPath where
  buf := node
  entries := node.ehEntries.toNat
  maxEntries := node.ehMax.toNat
  left := node.ehEntries.toNat-1
  visitNum := 0
  endBlk := path.rangeEnd i
  curr := some 0

/-- `EXT2_EXTENT_DOWN`. -/
def goDown : Call Unit := fun handle =>
  let path := handle.current
  match path.curr with
  | none => .error .noDown handle
  | some i =>
    if handle.maxDepth≤handle.level then .error .noDown handle
    else
      match handle.fs.readBlk (path.buf.slot i).eiLeaf with
      | .error e => .error e handle
      | .ok node =>
        if extentHeaderVerify node handle.fs.geometry.blocksize then
          .ok () {handle.setPath (handle.level+1) (path.below i node) with level := handle.level+1}
        else
          .error .headerBad
            (handle.setPath (handle.level+1) {handle.path (handle.level+1) with buf := node})

/-- The `switch` of `ext2fs_extent_get`. -/
def extentMove : Move → Call Unit
  | .current => fun handle => .ok () handle
  | .root => fun handle => firstSib {handle with level := 0}
  | .firstSib => firstSib
  | .nextSib => nextSib
  | .prevSib => prevSib
  | .up => goUp
  | .down => goDown

/-- `ext2fs_extent_get` with one of these operations. -/
def extentGet (op : Move) : Call Extent := fun handle =>
  match extentMove op handle with
  | .error e handle => .error e handle
  | .ok _ handle =>
    match handle.current.curr with
    | none => .error .noCurrentNode handle
    | some i => .ok (handle.extentAt i) handle

/-! ## The search -/

/-- How an iteration of the loop of `ext2fs_extent_goto2` above the level ends. -/
inductive IndexStep where
  /-- With `goto go_down`. -/
  | goDown (handle : Handle)
  /-- With `continue`. -/
  | again (extent : Extent) (handle : Handle)
  /-- With `return`. -/
  | fail (e : Errcode) (handle : Handle)

/-- An iteration of the loop of `ext2fs_extent_goto2` above the level, to `go_down`. -/
def indexStep (blk : ℕ) (handle : Handle) : IndexStep :=
  match extentGet .nextSib handle with
  | .error .noNext handle => .goDown handle
  | .error e handle => .fail e handle
  | .ok extent handle =>
    if blk=extent.eLblk then .goDown handle
    else if extent.eLblk<blk then .again extent handle
    else
      match extentGet .prevSib handle with
      | .error e handle => .fail e handle
      | .ok _ handle => .goDown handle

/-- The distance of a handle to the deepest level, and the slots after its position. -/
def Handle.remaining (handle : Handle) : ℕ×ℕ :=
  (handle.maxDepth-handle.level,handle.current.left.toNat)


/-- A call that returns an extent has made its move. -/
theorem extentGet_ok {op : Move} {extent : Extent} {handle after : Handle}
    (h : extentGet op handle=.ok extent after) :
    extentMove op handle=.ok () after ∧
      ∃ i, after.current.curr=some i ∧ extent=after.extentAt i := by
  simp only [extentGet] at h
  split at h
  · cases h
  · split at h
    · cases h
    · cases h
      exact ⟨by assumption,_,by assumption,rfl⟩

theorem nextSib_ok {handle after : Handle} (h : nextSib handle=.ok () after) :
    0 < handle.current.left ∧ after=handle.setPath handle.level
      {handle.current with
        curr := some (match handle.current.curr with | some i => i+1 | none => 0)
        left := handle.current.left-1
        visitNum := 0} := by
  simp only [nextSib] at h
  split at h
  · cases h
  · cases h
    exact ⟨by omega,rfl⟩

theorem prevSib_ok {handle after : Handle} (h : prevSib handle=.ok () after) :
    ∃ i, handle.current.curr=some i ∧ handle.current.left+1 < handle.current.entries ∧
      after=handle.setPath handle.level
        {handle.current with
          curr := some (i-1)
          left := handle.current.left+1
          visitNum := if handle.level < handle.maxDepth then 1 else handle.current.visitNum} := by
  simp only [prevSib] at h
  split at h
  · cases h
  · split at h
    · cases h
    · cases h
      exact ⟨_,by assumption,by omega,rfl⟩

theorem goDown_ok {handle after : Handle} (h : goDown handle=.ok () after) :
    ∃ i node, handle.current.curr=some i ∧ handle.level < handle.maxDepth ∧
      handle.fs.readBlk (handle.current.buf.slot i).eiLeaf=.ok node ∧
      after={handle.setPath (handle.level+1) (handle.current.below i node) with
        level := handle.level+1} := by
  simp only [goDown] at h
  split at h
  · cases h
  · split at h
    · cases h
    · split at h
      · cases h
      · split at h
        · cases h
          exact ⟨_,_,by assumption,by omega,by assumption,rfl⟩
        · cases h

@[simp] theorem setPath_level (handle : Handle) (level : ℕ) (path : ExtentPath) :
    (handle.setPath level path).level=handle.level := rfl

@[simp] theorem setPath_maxDepth (handle : Handle) (level : ℕ) (path : ExtentPath) :
    (handle.setPath level path).maxDepth=handle.maxDepth := rfl

@[simp] theorem setPath_fs (handle : Handle) (level : ℕ) (path : ExtentPath) :
    (handle.setPath level path).fs=handle.fs := rfl

@[simp] theorem setPath_path_self (handle : Handle) (level : ℕ) (path : ExtentPath) :
    (handle.setPath level path).path level=path := Function.update_self ..

@[simp] theorem setPath_current (handle : Handle) (path : ExtentPath) :
    (handle.setPath handle.level path).current=path := Function.update_self ..

theorem setPath_path_of_ne (handle : Handle) {level other : ℕ} (path : ExtentPath)
    (h : other≠level) : (handle.setPath level path).path other=handle.path other :=
  Function.update_of_ne h ..

theorem remaining_nextSib {extent : Extent} {handle after : Handle}
    (h : extentGet .nextSib handle=.ok extent after) :
    Prod.Lex (·<·) (·<·) after.remaining handle.remaining := by
  obtain ⟨hleft,rfl⟩ := nextSib_ok (extentGet_ok h).1
  refine Prod.Lex.right _ ?_
  simp only [setPath_current]
  omega

theorem indexStep_again {blk : ℕ} {extent : Extent} {handle after : Handle}
    (h : indexStep blk handle=.again extent after) :
    extentGet .nextSib handle=.ok extent after ∧ extent.eLblk<blk := by
  simp only [indexStep] at h
  split at h
  · cases h
  · cases h
  · split at h
    · cases h
    · split at h
      · cases h
        exact ⟨by assumption,by assumption⟩
      · split at h <;> cases h

theorem nextSib_error {e : Errcode} {handle after : Handle} (h : nextSib handle=.error e after) :
    handle.current.left≤0 ∧ e=.noNext ∧ after=handle := by
  simp only [nextSib] at h
  split at h
  · cases h
    exact ⟨by assumption,rfl,rfl⟩
  · cases h

/-- A failing move to a sibling leaves the handle at its level. -/
theorem extentGet_nextSib_error {e : Errcode} {handle after : Handle}
    (h : extentGet .nextSib handle=.error e after) :
    handle.current.left≤0 ∧ e=.noNext ∧ after=handle := by
  simp only [extentGet] at h
  split at h
  · rename_i hmove
    cases h
    exact nextSib_error hmove
  · rename_i hmove
    obtain ⟨-,rfl⟩ := nextSib_ok hmove
    rw [setPath_current] at h
    cases h

theorem indexStep_goDown {blk : ℕ} {handle after : Handle}
    (h : indexStep blk handle=.goDown after) :
    after.level=handle.level ∧ after.maxDepth=handle.maxDepth := by
  simp only [indexStep] at h
  split at h
  · rename_i hget
    cases h
    rw [(extentGet_nextSib_error hget).2.2]
    exact ⟨rfl,rfl⟩
  · cases h
  · rename_i hget
    obtain ⟨-,hnext⟩ := nextSib_ok (extentGet_ok hget).1
    split at h
    · cases h
      rw [hnext]
      exact ⟨rfl,rfl⟩
    · split at h
      · cases h
      · split at h
        · cases h
        · rename_i hprev
          cases h
          obtain ⟨_,-,-,hprev⟩ := prevSib_ok (extentGet_ok hprev).1
          rw [hprev,hnext]
          exact ⟨rfl,rfl⟩

theorem remaining_goDown {blk : ℕ} {extent : Extent} {handle mid after : Handle}
    (hstep : indexStep blk handle=.goDown mid) (hget : extentGet .down mid=.ok extent after) :
    Prod.Lex (·<·) (·<·) after.remaining handle.remaining := by
  obtain ⟨hlevel,hdepth⟩ := indexStep_goDown hstep
  obtain ⟨_,_,-,hlt,-,rfl⟩ := goDown_ok (extentGet_ok hget).1
  refine Prod.Lex.left _ _ ?_
  simp only [setPath_maxDepth]
  omega

/-- The loop of `ext2fs_extent_goto2`, at an extent of the handle. -/
def gotoLoop (leafLevel blk : ℕ) (extent : Extent) (handle : Handle) :
    EStateM.Result Errcode Handle Unit :=
  if handle.level+leafLevel=handle.maxDepth then
    if extent.eLblk≤blk ∧ blk<extent.eLblk+extent.eLen then .ok () handle
    else if blk<extent.eLblk then
      match extentGet .prevSib handle with
      | .error _ handle => .error .notFound handle
      | .ok _ handle => .error .notFound handle
    else
      match hget : extentGet .nextSib handle with
      | .error .noNext handle => .error .notFound handle
      | .error e handle => .error e handle
      | .ok extent handle => gotoLoop leafLevel blk extent handle
  else
    match hstep : indexStep blk handle with
    | .fail e handle => .error e handle
    | .again extent handle => gotoLoop leafLevel blk extent handle
    | .goDown mid =>
      match hget : extentGet .down mid with
      | .error e handle => .error e handle
      | .ok extent handle => gotoLoop leafLevel blk extent handle
termination_by handle.remaining
decreasing_by
  · exact remaining_nextSib hget
  · exact remaining_nextSib (indexStep_again hstep).1
  · exact remaining_goDown hstep hget

/-- `ext2fs_extent_goto2`. -/
def extentGoto2 (leafLevel blk : ℕ) : Call Unit := fun handle =>
  match extentGet .root handle with
  | .error .noNext handle => .error .notFound handle
  | .error e handle => .error e handle
  | .ok extent handle =>
    if handle.maxDepth<leafLevel then .error .opNotSupported handle
    else gotoLoop leafLevel blk extent handle

end AndroidPlatform.ExtentHandle
