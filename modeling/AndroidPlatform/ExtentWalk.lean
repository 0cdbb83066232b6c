import AndroidPlatform.ExtentUpdate

/-!
# Walks through an extent tree

`ext2fs_extent_get` with an operation that is not one move chooses the move by the
position, and goes on until it stands in a leaf if the operation asks for one.
-/

namespace AndroidPlatform.ExtentWalk

open ExtentHandle

/-! ## The handle -/

/-- Whether all words of `i_block` are zero. -/
def unusedIBlock (node : ExtentNode) : Bool :=
  node.ehMagic=0 ∧ node.ehEntries=0 ∧ node.ehMax=0 ∧ node.ehDepth=0 ∧
    ∀ i∈List.range (maxSlots 60),node.slot i=default

/-- The root that `ext2fs_extent_open2` works on. -/
def openedRoot (node : ExtentNode) : ExtentNode :=
  if unusedIBlock node then
    {node with
      ehMagic := ext3ExtMagic
      ehDepth := 0
      ehEntries := 0
      ehMax := .ofNat (maxSlots 60)}
  else node

/-- `ext2fs_extent_open2` for an inode with or without `EXT4_EXTENTS_FL`, whose size ends
at a block. -/
def extentOpen2 (fs : Filsys) (extentsFl : Bool) (endBlk : ℕ) : Option Handle :=
  let root := openedRoot fs.inode.iBlock
  if extentsFl=false ∧ unusedIBlock fs.inode.iBlock=false then none
  else if extentHeaderVerify root 60 then
    some
      { fs := fs
        iBlocks := fs.inode.iBlocks
        level := 0
        maxDepth := root.ehDepth.toNat
        path := Function.update (fun _ => default) 0
          ⟨root,root.ehEntries.toNat,root.ehMax.toNat,root.ehEntries.toNat,1,endBlk,none⟩ }
  else none

/-! ## Operations -/

/-- The operations of `ext2fs_extent_get`. -/
inductive Operation where
  | current
  | root
  | lastLeaf
  | firstSib
  | lastSib
  | nextSib
  | prevSib
  | nextLeaf
  | prevLeaf
  | next
  | prev
  | up
  | down
  | downAndLast
deriving DecidableEq

/-- The operation that is one of the moves. -/
def Operation.ofMove : Move → Operation
  | .current => .current
  | .root => .root
  | .firstSib => .firstSib
  | .nextSib => .nextSib
  | .prevSib => .prevSib
  | .up => .up
  | .down => .down

/-- The choice of `op` for `EXT2_EXTENT_NEXT` and `EXT2_EXTENT_NEXT_LEAF`. -/
def chooseNext : Call Operation := fun handle =>
  let path := handle.current
  if handle.level < handle.maxDepth ∧ path.visitNum=0 then
    .ok .down (handle.setPath handle.level {path with visitNum := path.visitNum+1})
  else if 0 < path.left then .ok .nextSib handle
  else if 0 < handle.level then .ok .up handle
  else .error .noNext handle

/-- The choice of `op` for `EXT2_EXTENT_PREV` and `EXT2_EXTENT_PREV_LEAF`. -/
def choosePrev : Call Operation := fun handle =>
  let path := handle.current
  if handle.level < handle.maxDepth ∧ 0 < path.visitNum then .ok .downAndLast handle
  else if path.left < path.entries-1 then .ok .prevSib handle
  else if 0 < handle.level then .ok .up handle
  else .error .noPrev handle

/-- The choice of `op` for `EXT2_EXTENT_LAST_LEAF`. -/
def chooseLastLeaf : Call Operation := fun handle =>
  if handle.level < handle.maxDepth ∧ handle.current.left=0 then .ok .down handle
  else .ok .lastSib handle

/-- The choice of `op` from `orig_op`. -/
def chooseOp : Operation → Call Operation
  | .next | .nextLeaf => chooseNext
  | .prev | .prevLeaf => choosePrev
  | .lastLeaf => chooseLastLeaf
  | op => fun handle => .ok op handle

/-- `EXT2_EXTENT_LAST_SIB`. In a node without entries the pointer stands before the first slot,
which has no index; the first one is no entry either. -/
def lastSib : Call Unit := fun handle =>
  let path := handle.current
  .ok () (handle.setPath handle.level
    {path with
      curr := some (path.buf.ehEntries.toNat-1)
      left := 0
      visitNum := 0})

/-- The new path of `EXT2_EXTENT_DOWN_AND_LAST` for a node that was read at entry `i`, where
`visit_num` was the number. -/
def ExtentPath.belowLast (path : ExtentPath) (i : ℕ) (node : ExtentNode) (visitNum : ℕ) :
    ExtentPath :=
  {ExtentPath.below path i node with
    left := 0
    visitNum := visitNum
    curr := some (node.ehEntries.toNat-1)}

/-- `EXT2_EXTENT_DOWN_AND_LAST`. -/
def goDownAndLast : Call Unit := fun handle =>
  let path := handle.current
  match path.curr with
  | none => .error .noDown handle
  | some i =>
    if handle.maxDepth≤handle.level then .error .noDown handle
    else
      match handle.fs.readBlk (path.buf.slot i).eiLeaf with
      | .error e => .error e handle
      | .ok node =>
        let newpath := handle.path (handle.level+1)
        if extentHeaderVerify node handle.fs.geometry.blocksize then
          .ok ()
            {handle.setPath (handle.level+1)
              (ExtentPath.belowLast path i node
                (if handle.level+1 < handle.maxDepth then 1 else newpath.visitNum)) with
              level := handle.level+1}
        else
          .error .headerBad (handle.setPath (handle.level+1) {newpath with buf := node})

/-- `EXT2_EXTENT_UP`, which marks the index entry as not visited on the way back. -/
def goUpFrom (orig : Operation) : Call Unit := fun handle =>
  match goUp handle with
  | .error e handle => .error e handle
  | .ok _ handle =>
    if orig=.prev ∨ orig=.prevLeaf then
      .ok () (handle.setPath handle.level {handle.current with visitNum := 0})
    else .ok () handle

/-- The `switch` of `ext2fs_extent_get`. -/
def switchOp (orig : Operation) : Operation → Call Unit
  | .current => extentMove .current
  | .root => extentMove .root
  | .firstSib => extentMove .firstSib
  | .nextSib => extentMove .nextSib
  | .prevSib => extentMove .prevSib
  | .lastSib => lastSib
  | .up => goUpFrom orig
  | .down => extentMove .down
  | .downAndLast => goDownAndLast
  | .next | .prev | .nextLeaf | .prevLeaf | .lastLeaf => fun handle =>
    .error .opNotSupported handle

/-- Whether `ext2fs_extent_get` goes back to `retry`. -/
def retries (orig : Operation) (handle : Handle) : Bool :=
  (orig=.nextLeaf ∨ orig=.prevLeaf) ∧ handle.level≠handle.maxDepth ∨
    orig=.lastLeaf ∧ (handle.level≠handle.maxDepth ∨ handle.current.left≠0)

/-- `ext2fs_extent_get`, with at most that many rounds. -/
def extentGetOp : ℕ → Operation → Call Extent
  | 0,_ => fun handle => .error .recursion handle
  | rounds+1,orig => fun handle =>
    match chooseOp orig handle with
    | .error e handle => .error e handle
    | .ok op handle =>
      match switchOp orig op handle with
      | .error e handle => .error e handle
      | .ok _ handle =>
        match handle.current.curr with
        | none => .error .noCurrentNode handle
        | some i =>
          if retries orig handle then extentGetOp rounds orig handle
          else .ok (handle.extentAt i) handle

/-- An operation that is one move makes it. -/
theorem extentGetOp_move (rounds : ℕ) (move : Move) (handle : Handle) :
    extentGetOp (rounds+1) (.ofMove move) handle=extentGet move handle := by
  rw [extentGetOp,extentGet]
  have hup : goUpFrom .up=extentMove .up := by
    funext handle
    rw [goUpFrom,extentMove]
    cases goUp handle <;> rfl
  have hswitch : switchOp (.ofMove move) (.ofMove move)=extentMove move := by
    cases move <;> first | rfl | exact hup
  have hchoose : chooseOp (.ofMove move) handle=.ok (.ofMove move) handle := by cases move <;> rfl
  simp only [hchoose,hswitch]
  cases extentMove move handle with
  | error e handle => rfl
  | ok _ handle =>
    dsimp only
    cases handle.current.curr with
    | none => rfl
    | some i =>
      have hstop : retries (.ofMove move) handle=false := by cases move <;> rfl
      rw [hstop]
      rfl

/-! ## Requests -/

/-- The calls on a handle. -/
inductive Request where
  /-- `ext2fs_extent_get` -/
  | get (op : Operation)
  /-- `ext2fs_extent_goto2`, which is `ext2fs_extent_goto` for the leaves. -/
  | goto (leafLevel blk : ℕ)
  /-- `ext2fs_extent_insert` -/
  | insert (after noSplit : Bool) (extent : Extent)
  /-- `ext2fs_extent_delete` -/
  | delete (keepEmpty : Bool)

/-- The call, with a bound on rounds and nested calls. -/
def perform (bound : ℕ) : Request → Call Unit
  | .get op => do
    let _ ← extentGetOp bound op
  | .goto leafLevel blk => ExtentHandle.extentGoto2 leafLevel blk
  | .insert after noSplit extent =>
    ExtentUpdate.extentInsert (ExtentUpdate.nodeSplit bound) after noSplit extent
  | .delete keepEmpty => ExtentUpdate.extentDelete keepEmpty

/-- A sequence of successful calls from a handle, each with the state before it, the last one
first. -/
inductive Runs (opened : Handle) : List (Handle×Request) → Handle → Prop
  | start : Runs opened [] opened
  | step {steps : List (Handle×Request)} {handle after : Handle} {bound : ℕ} {request : Request} :
    Runs opened steps handle → perform bound request handle=.ok () after →
    Runs opened ((handle,request)::steps) after

end AndroidPlatform.ExtentWalk
