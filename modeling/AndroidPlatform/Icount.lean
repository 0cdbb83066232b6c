import AndroidPlatform.CInteger
import AndroidPlatform.SortedTable
import Mathlib.Logic.Function.Basic

/-!
# Inode reference counts

A count of one is a bit of a bitmap, other counts are in a list sorted by inode
number or in a database, and a second bitmap, if there is one, tells which of
those are in use. Entries that are not in use stay where they are. The list is
searched through a cursor and by bisection, and grows by a size that is computed
in floating point; that size is a parameter here. Both bitmaps are the sets that
they refine.
-/

namespace AndroidPlatform.Icount

open SortedTable CInteger

/-- `struct ext2_icount_el`. -/
structure IcountEl where
  /-- `ino`. -/
  ino : ℕ
  /-- `count`. -/
  count : ℕ
  deriving DecidableEq

/-- The list of `struct ext2_icount`. -/
structure IcountList where
  /-- The first `count` elements of `list`. -/
  list : List IcountEl
  /-- `size`. -/
  size : ℕ
  /-- `cursor`. -/
  cursor : ℕ
  /-- `last_lookup`, as an index. -/
  lastLookup : Option ℕ

/-- Where the counts are. -/
inductive CountStore where
  | list (l : IcountList)
  | tdb (data : ℕ → Option ℕ)

/-- `struct ext2_icount`. -/
structure Ext2Icount where
  /-- `single`. -/
  single : ℕ → Bool
  /-- `multiple`. -/
  multiple : Option (ℕ → Bool)
  /-- `list` or `tdb`. -/
  store : CountStore
  /-- `num_inodes`. -/
  numInodes : ℕ

/-- The errors of the functions. -/
inductive Errcode where
  | invalidArgument
  | noMemory
  deriving DecidableEq

/-- The inode number of an element. -/
def inoAt (l : IcountList) (i : ℕ) : ℕ := keyAt IcountEl.ino l.list i

section Model

variable (grow : ℕ → ℕ → ℕ → ℕ) (numInodes : ℕ)

/-- The new size of a full list. -/
def newSize (l : IcountList) : ℕ :=
  let size :=
    if l.list.length=0 then 0
    else grow l.list.length numInodes (inoAt l (l.list.length-1))
  if size<(l.size+100)%2^32 then (l.size+100)%2^32 else size

/-- `insert_icount_el`. -/
def insertIcountEl (l : IcountList) (ino : ℕ) (pos : ℤ) : IcountList×Option ℕ :=
  match l.lastLookup.filter fun i => inoAt l i==ino with
  | some i => (l,some i)
  | none =>
    let l := if l.size≤l.list.length then {l with size := newSize grow numInodes l} else l
    if toInt l.list.length-pos<0 then (l,none)
    else ({l with list := insertAt l.list pos.toNat ⟨ino,0⟩, lastLookup := some pos.toNat},
      some pos.toNat)

/-- The bisection of `get_icount_el`; the first place behind the bisected ones
is `high+1`. -/
def bisectIcountEl (l : IcountList) (ino : ℕ) (create : Bool) : IcountList×Option ℕ :=
  match search IcountEl.ino l.list ino 0 (toInt l.list.length).toNat with
  | (true,mid) => ({l with cursor := mid+1},some mid)
  | (false,low) => if create=true then insertIcountEl grow numInodes l ino low else (l,none)

/-- `get_icount_el` from the test of the cursor on. -/
def cursorIcountEl (l : IcountList) (ino : ℕ) (create : Bool) : IcountList×Option ℕ :=
  if ino=inoAt l l.cursor then ({l with cursor := l.cursor+1},some l.cursor)
  else bisectIcountEl grow numInodes l ino create

/-- `get_icount_el`. -/
def getIcountEl (l : IcountList) (ino : ℕ) (create : Bool) : IcountList×Option ℕ :=
  if create=true ∧ (l.list.length=0 ∨ inoAt l (l.list.length-1) < ino) then
    insertIcountEl grow numInodes l ino (toInt l.list.length)
  else if l.list.length=0 then (l,none)
  else
    cursorIcountEl grow numInodes
      {l with cursor := if l.list.length≤l.cursor then 0 else l.cursor} ino create

/-- `set_inode_count`; the result tells whether it failed. -/
def setInodeCount (store : CountStore) (ino count : ℕ) : CountStore×Bool :=
  match store with
  | .tdb data =>
    if count≠0 then (.tdb (Function.update data ino (some count)),false)
    else if (data ino).isNone then (.tdb data,true)
    else (.tdb (Function.update data ino none),false)
  | .list l =>
    match getIcountEl grow numInodes l ino true with
    | (l,none) => (.list l,true)
    | (l,some i) => (.list {l with list := l.list.set i ⟨inoAt l i,count⟩},false)

/-- `get_inode_count`. -/
def getInodeCount (store : CountStore) (ino : ℕ) : CountStore×ℕ :=
  match store with
  | .tdb data => (.tdb data,(data ino).getD 0)
  | .list l =>
    match getIcountEl grow numInodes l ino false with
    | (l,none) => (.list l,0)
    | (l,some i) => (.list l,(l.list[i]?.map IcountEl.count).getD 0)

end Model

/-- `icount_16_xlate`. -/
def icount16Xlate (x : ℕ) : ℕ := if 65500<x then 65500 else x

/-- Marking or unmarking an inode in a bitmap. -/
def Ext2Icount.setSingle (icount : Ext2Icount) (ino : ℕ) (v : Bool) : Ext2Icount :=
  {icount with single := Function.update icount.single ino v}

/-- Marking or unmarking an inode in `multiple`, if there is that bitmap. -/
def Ext2Icount.setMultiple (icount : Ext2Icount) (ino : ℕ) (v : Bool) : Ext2Icount :=
  {icount with multiple := icount.multiple.map fun m => Function.update m ino v}

/-- There is a bitmap `multiple`, and the inode is not in it. -/
def Ext2Icount.notMultiple (icount : Ext2Icount) (ino : ℕ) : Bool :=
  match icount.multiple with
  | none => false
  | some m => !m ino

section Calls

variable (grow : ℕ → ℕ → ℕ → ℕ)

/-- `get_inode_count` on the whole structure. -/
def Ext2Icount.get (icount : Ext2Icount) (ino : ℕ) : Ext2Icount×ℕ :=
  let result := getInodeCount grow icount.numInodes icount.store ino
  ({icount with store := result.1},result.2)

/-- `set_inode_count` on the whole structure. -/
def Ext2Icount.set (icount : Ext2Icount) (ino count : ℕ) : Ext2Icount×Bool :=
  let result := setInodeCount grow icount.numInodes icount.store ino count
  ({icount with store := result.1},result.2)

/-- `ext2fs_icount_fetch`. -/
def icountFetch (icount : Ext2Icount) (ino : ℕ) : Ext2Icount×Except Errcode ℕ :=
  if ino=0 ∨ icount.numInodes < ino then (icount,.error .invalidArgument)
  else if icount.single ino=true then (icount,.ok 1)
  else if icount.notMultiple ino=true then (icount,.ok 0)
  else
    let result := icount.get grow ino
    (result.1,.ok (icount16Xlate result.2))

/-- The end of `ext2fs_icount_increment` after the count was stored. -/
def incremented (icount : Ext2Icount) (ino value : ℕ) : Ext2Icount×Except Errcode (Option ℕ) :=
  (icount.setMultiple ino true,.ok (some (icount16Xlate value)))

/-- The branch of `ext2fs_icount_increment` that reads the count. -/
def incrementStored (icount : Ext2Icount) (ino : ℕ) : Ext2Icount×Except Errcode (Option ℕ) :=
  let old := icount.get grow ino
  let value := (old.2+1)%2^32
  let stored := old.1.set grow ino value
  if stored.2=true then (stored.1,.error .noMemory) else incremented stored.1 ino value

/-- `ext2fs_icount_increment`. -/
def icountIncrement (icount : Ext2Icount) (ino : ℕ) : Ext2Icount×Except Errcode (Option ℕ) :=
  if ino=0 ∨ icount.numInodes < ino then (icount,.error .invalidArgument)
  else if icount.single ino=true then
    let stored := icount.set grow ino 2
    if stored.2=true then (stored.1,.error .noMemory)
    else incremented (stored.1.setSingle ino false) ino 2
  else if icount.notMultiple ino=true then (icount.setSingle ino true,.ok (some 1))
  else incrementStored grow icount ino

/-- `ext2fs_icount_decrement`. -/
def icountDecrement (icount : Ext2Icount) (ino : ℕ) : Ext2Icount×Except Errcode (Option ℕ) :=
  if ino=0 ∨ icount.numInodes < ino then (icount,.error .invalidArgument)
  else if icount.single ino=true then
    let icount := icount.setSingle ino false
    let icount :=
      if icount.multiple.isSome then icount.setMultiple ino false else (icount.set grow ino 0).1
    (icount,.ok (some 0))
  else if icount.notMultiple ino=true then (icount,.error .invalidArgument)
  else
    let old := icount.get grow ino
    if old.2=0 then (old.1,.error .invalidArgument)
    else
      let value := old.2-1
      let stored := old.1.set grow ino value
      if stored.2=true then (stored.1,.error .noMemory)
      else
        let icount := if value=1 then stored.1.setSingle ino true else stored.1
        let icount := if value=0 then icount.setMultiple ino false else icount
        (icount,.ok (some (icount16Xlate value)))

/-- `ext2fs_icount_store`. -/
def icountStore (icount : Ext2Icount) (ino count : ℕ) : Ext2Icount×Except Errcode (Option ℕ) :=
  if ino=0 ∨ icount.numInodes < ino then (icount,.error .invalidArgument)
  else if count=1 then ((icount.setSingle ino true).setMultiple ino false,.ok none)
  else if count=0 then
    let icount := icount.setSingle ino false
    (if icount.multiple.isSome then icount.setMultiple ino false else (icount.set grow ino 0).1,
      .ok none)
  else
    let stored := icount.set grow ino count
    if stored.2=true then (stored.1,.error .noMemory)
    else ((stored.1.setSingle ino false).setMultiple ino true,.ok none)

end Calls

/-- `ext2fs_icount_validate`. -/
def icountValidate (l : IcountList) : Bool :=
  decide (l.list.length≤l.size) &&
    (List.range (l.list.length-1)).all fun i => decide (inoAt l i < inoAt l (i+1))

end AndroidPlatform.Icount
