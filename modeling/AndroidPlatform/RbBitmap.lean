import AndroidPlatform.RbTree
import Mathlib.Algebra.Group.Nat.Defs
import Mathlib.Logic.Function.Basic

/-!
# The red-black tree backend of the 64-bit bitmaps

Runs of set bits are kept as extents in a red-black tree. The nodes of the tree
are pointers, and the contents of the extents are memory behind them. Three
cached pointers shorten marking and testing. A walk over the tree follows
`rb_next` in the tree as it is at that time, for at most as many steps as there
are nodes. Positions are relative to the start of the bitmap, and sums of them
stay below the size of the bitmap, which fits into 64 bits.
-/

namespace AndroidPlatform.RbBitmap

open RbTree

/-- The contents of a `struct bmap_rb_extent`. -/
structure Extent where
  /-- `start`. -/
  start : ℕ
  /-- `count`. -/
  count : ℕ
  deriving DecidableEq

/-- The first position behind an extent. -/
def Extent.stop (e : Extent) : ℕ := e.start+e.count

/-- The extent contains this position. -/
def Extent.Has (e : Extent) (b : ℕ) : Prop := e.start≤b ∧ b<e.stop

instance (e : Extent) (b : ℕ) : Decidable (e.Has b) :=
  inferInstanceAs (Decidable (e.start≤b ∧ b<e.stop))

/-- `ext2fs_get_mem`: some pointer that is not in use. -/
structure Allocator where
  /-- The pointer, from those in use. -/
  getMem : List ℕ → ℕ
  /-- It is a new one. -/
  getMem_notMem : ∀ live, getMem live∉live

/-- `struct ext2fs_rb_private`, with the memory of the extents. -/
structure RbPrivate where
  /-- `root`. -/
  root : RbTree.Tree ℕ
  /-- The extent behind a pointer. -/
  extent : ℕ → Extent
  /-- `wcursor`. -/
  wcursor : Option ℕ
  /-- `rcursor`. -/
  rcursor : Option ℕ
  /-- `rcursor_next`. -/
  rcursorNext : Option ℕ

/-- A store to an extent. -/
def RbPrivate.write (bp : RbPrivate) (p : ℕ) (e : Extent) : RbPrivate :=
  {bp with extent := Function.update bp.extent p e}

/-- `rb_alloc_private_data`. -/
def rbAllocPrivateData : RbPrivate where
  root := .nil
  extent := fun _ => ⟨0,0⟩
  wcursor := none
  rcursor := none
  rcursorNext := none

/-- A cached pointer after `rb_free_extent`. -/
def clearCursor (cursor : Option ℕ) (ext : ℕ) : Option ℕ :=
  if cursor=some ext then none else cursor

/-- `rb_free_extent`. -/
def rbFreeExtent (bp : RbPrivate) (ext : ℕ) : RbPrivate :=
  {bp with
    wcursor := clearCursor bp.wcursor ext
    rcursor := clearCursor bp.rcursor ext
    rcursorNext := clearCursor bp.rcursorNext ext}

/-- `ext2fs_rb_erase` followed by `rb_free_extent`. -/
def eraseExtent (bp : RbPrivate) (ext : ℕ) : Option RbPrivate :=
  (erase ext bp.root).map fun root => rbFreeExtent {bp with root := root} ext

/-- The comparison of the searches for a position inside an extent. -/
def inside (bp : RbPrivate) (bit : ℕ) (p : ℕ) : Ordering :=
  if bit<(bp.extent p).start then .lt
  else if (bp.extent p).stop≤bit then .gt
  else .eq

/-- The comparison of the search for a position inside or right behind an
extent. -/
def touching (bp : RbPrivate) (start : ℕ) (p : ℕ) : Ordering :=
  if start<(bp.extent p).start then .lt
  else if (bp.extent p).stop < start then .gt
  else .eq

/-- `rb_test_bit` from the label `search_tree`. -/
def searchTree (bp : RbPrivate) (bit : ℕ) : RbPrivate×Bool :=
  match descend (inside bp bit) bp.root [] with
  | (.nil,_) => (bp,false)
  | (.node _ _ ext _,_) => ({bp with rcursor := some ext, rcursorNext := none},true)

/-- `rb_test_bit` after `rcursor` was no help. -/
def testWcursor (bp : RbPrivate) (bit : ℕ) : RbPrivate×Bool :=
  match bp.wcursor with
  | none => searchTree bp bit
  | some wcursor => if (bp.extent wcursor).Has bit then (bp,true) else searchTree bp bit

/-- `rb_test_bit`. -/
def rbTestBit (bp : RbPrivate) (bit : ℕ) : RbPrivate×Bool :=
  match bp.rcursor with
  | none => searchTree bp bit
  | some rcursor =>
    if (bp.extent rcursor).Has bit then (bp,true)
    else
      let nextExt := bp.rcursorNext.or (next rcursor bp.root)
      let missed := testWcursor {bp with rcursor := none, rcursorNext := none} bit
      match nextExt with
      | none => missed
      | some following =>
        if (bp.extent rcursor).stop≤bit ∧ bit<(bp.extent following).start then
          ({bp with rcursorNext := nextExt},false)
        else missed

/-- The loop of `rb_insert_extent` that absorbs the extents behind the new
one; it results in the new count. -/
def absorbLoop : ℕ → RbPrivate → Option ℕ → ℕ → ℕ → Option (RbPrivate×ℕ)
  | _,bp,none,_,count => some (bp,count)
  | 0,_,some _,_,_ => none
  | fuel+1,bp,some node,start,count =>
    let following := next node bp.root
    let ext := bp.extent node
    if ext.stop ≤ start then absorbLoop fuel bp following start count
    else if start+count<ext.start then some (bp,count)
    else if ext.stop ≤ start+count then
      (eraseExtent bp node).bind fun bp => absorbLoop fuel bp following start count
    else (eraseExtent bp node).map fun bp => (bp,count+(ext.stop-(start+count)))

/-- `rb_insert_extent` from the label `skip_insert`. -/
def skipInsert (bp : RbPrivate) (newExt start count : ℕ) : Option RbPrivate :=
  (absorbLoop bp.root.inorder.length bp (next newExt bp.root) start count).map fun result =>
    result.1.write newExt ⟨start,result.2⟩

/-- `rb_insert_extent` from the label `got_extent`. -/
def gotExtent (bp : RbPrivate) (ext start count : ℕ) : Option (RbPrivate×Bool) :=
  let e := bp.extent ext
  if start+count≤e.stop then some (bp,true)
  else (skipInsert bp ext e.start (count+(start-e.start))).map fun bp => (bp,decide (e.stop≠start))

/-- `rb_insert_extent` where no extent touches the start: a new node, joined
with the previous one if that ends at the start. -/
def insertNew (bp : RbPrivate) (newExt : ℕ) (path : List (Frame ℕ)) (start count : ℕ) :
    Option (RbPrivate×Bool) :=
  (link newExt path).bind fun root =>
    let bp := {bp.write newExt ⟨start,count⟩ with root := root, wcursor := some newExt}
    let joined :=
      match prev newExt bp.root with
      | none => some (bp,start,count)
      | some node =>
        if (bp.extent node).stop=start then
          (eraseExtent bp node).map fun bp' =>
            (bp',(bp.extent node).start,count+(bp.extent node).count)
        else some (bp,start,count)
    joined.bind fun result =>
      (skipInsert result.1 newExt result.2.1 result.2.2).map fun bp => (bp,false)

/-- `rb_insert_extent` with its search. -/
def searchInsert (alloc : Allocator) (start count : ℕ) (bp : RbPrivate) :
    Option (RbPrivate×Bool) :=
  match descend (touching bp start) bp.root [] with
  | (.node _ _ ext _,_) => gotExtent bp ext start count
  | (.nil,path) => insertNew bp (alloc.getMem bp.root.inorder) path start count

/-- `rb_insert_extent`. -/
def rbInsertExtent (alloc : Allocator) (start count : ℕ) (bp : RbPrivate) :
    Option (RbPrivate×Bool) :=
  let bp := {bp with rcursorNext := none}
  match bp.wcursor with
  | none => searchInsert alloc start count bp
  | some ext =>
    if (bp.extent ext).start ≤ start ∧ start≤(bp.extent ext).stop then gotExtent bp ext start count
    else searchInsert alloc start count bp

/-- The second loop of `rb_remove_extent`. -/
def removeLoop : ℕ → RbPrivate → Option ℕ → ℕ → ℕ → Bool → Option (RbPrivate×Bool)
  | _,bp,none,_,_,retval => some (bp,retval)
  | 0,_,some _,_,_,_ => none
  | fuel+1,bp,some node,start,count,retval =>
    let following := next node bp.root
    let ext := bp.extent node
    if ext.stop ≤ start then removeLoop fuel bp following start count retval
    else if start+count<ext.start then some (bp,retval)
    else if ext.stop ≤ start+count then
      (eraseExtent bp node).bind fun bp => removeLoop fuel bp following start count true
    else some (bp.write node ⟨start+count,ext.count-((start+count)-ext.start)⟩,true)

/-- The first loop of `rb_remove_extent`, followed by the second. An extent that
was shortened in the loop is looked at again, and the search goes on to the
right of it. -/
def removeSearch (alloc : Allocator) (start count : ℕ) :
    RbTree.Tree ℕ → List (Frame ℕ) → RbPrivate → Bool → Option (RbPrivate×Bool)
  | .nil,path,bp,retval => removeLoop bp.root.inorder.length bp (parent path) start count retval
  | .node c l ext r,path,bp,retval =>
    let e := bp.extent ext
    if start<e.start then removeSearch alloc start count l (⟨.left,c,ext,r⟩::path) bp retval
    else if e.stop ≤ start then
      removeSearch alloc start count r (⟨.right,c,ext,l⟩::path) bp retval
    else if e.start < start ∧ start+count<e.stop then
      (rbInsertExtent alloc (start+count) (e.stop-(start+count))
        (bp.write ext ⟨e.start,start-e.start⟩)).map fun result => (result.1,true)
    else
      let covered := e.stop ≤ start+count
      let short := if covered then bp.write ext ⟨e.start,start-e.start⟩ else bp
      let retval := if covered then true else retval
      if (short.extent ext).count=0 then
        let following := next ext short.root
        (eraseExtent short ext).bind fun bp =>
          removeLoop bp.root.inorder.length bp following start count retval
      else if start=e.start then
        some (short.write ext ⟨e.start+count,(short.extent ext).count-count⟩,true)
      else removeSearch alloc start count r (⟨.right,c,ext,l⟩::path) short retval

/-- `rb_remove_extent`. -/
def rbRemoveExtent (alloc : Allocator) (start count : ℕ) (bp : RbPrivate) :
    Option (RbPrivate×Bool) :=
  match bp.root with
  | .nil => some (bp,false)
  | .node c l ext r => removeSearch alloc start count (.node c l ext r) [] bp false

/-- The loop of `rb_test_clear_bmap_extent`. -/
def testClearLoop (bp : RbPrivate) (start len : ℕ) : ℕ → Option ℕ → Option Bool
  | _,none => some true
  | 0,some _ => none
  | fuel+1,some node =>
    if (bp.extent node).stop ≤ start then testClearLoop bp start len fuel (next node bp.root)
    else if start+len≤(bp.extent node).start then some true
    else some false

/-- `rb_test_clear_bmap_extent` with the position made relative. -/
def rbTestClear (bp : RbPrivate) (start len : ℕ) : Option Bool :=
  match bp.root with
  | .nil => some true
  | .node c l ext r =>
    if len=0 then some true
    else
      match descend (inside bp start) (.node c l ext r) [] with
      | (.node _ _ _ _,_) => some false
      | (.nil,path) => testClearLoop bp start len bp.root.inorder.length (parent path)

/-- `rb_free_tree` from a node on. -/
def rbFreeTree : ℕ → Option ℕ → RbTree.Tree ℕ → Option (RbTree.Tree ℕ)
  | _,none,root => some root
  | 0,some _,_ => none
  | fuel+1,some node,root =>
    let following := next node root
    (erase node root).bind fun root => rbFreeTree fuel following root

/-- The generic part of a bitmap. It holds fewer than 2^64 bits, as a count of
groups times a count of clusters in each does, both of 32 bits. -/
structure Bitmap where
  /-- `start`. -/
  start : ℕ
  /-- `real_end`. -/
  realEnd : ℕ
  /-- The range is not empty. -/
  start_le : start ≤ realEnd
  /-- Positions and sums of them fit into 64 bits. -/
  realEnd_lt : realEnd+1<2^64

/-- `rb_mark_bmap`. -/
def rbMarkBmap (alloc : Allocator) (bitmap : Bitmap) (bp : RbPrivate) (arg : ℕ) :
    Option (RbPrivate×Bool) := rbInsertExtent alloc (arg-bitmap.start) 1 bp

/-- `rb_unmark_bmap`. -/
def rbUnmarkBmap (alloc : Allocator) (bitmap : Bitmap) (bp : RbPrivate) (arg : ℕ) :
    Option (RbPrivate×Bool) := rbRemoveExtent alloc (arg-bitmap.start) 1 bp

/-- `rb_test_bmap`. -/
def rbTestBmap (bitmap : Bitmap) (bp : RbPrivate) (arg : ℕ) : RbPrivate×Bool :=
  rbTestBit bp (arg-bitmap.start)

/-- `rb_mark_bmap_extent`. -/
def rbMarkBmapExtent (alloc : Allocator) (bitmap : Bitmap) (bp : RbPrivate) (arg num : ℕ) :
    Option RbPrivate := (rbInsertExtent alloc (arg-bitmap.start) num bp).map Prod.fst

/-- `rb_unmark_bmap_extent`. -/
def rbUnmarkBmapExtent (alloc : Allocator) (bitmap : Bitmap) (bp : RbPrivate) (arg num : ℕ) :
    Option RbPrivate := (rbRemoveExtent alloc (arg-bitmap.start) num bp).map Prod.fst

/-- `rb_test_clear_bmap_extent`. -/
def rbTestClearBmapExtent (bitmap : Bitmap) (bp : RbPrivate) (start len : ℕ) : Option Bool :=
  rbTestClear bp (start-bitmap.start) len

/-- `rb_clear_bmap`. -/
def rbClearBmap (bp : RbPrivate) : Option RbPrivate :=
  (rbFreeTree bp.root.inorder.length (first bp.root) bp.root).map fun root =>
    {bp with root := root, wcursor := none, rcursor := none, rcursorNext := none}

end AndroidPlatform.RbBitmap
