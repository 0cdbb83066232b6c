import AndroidPlatform.CInteger
import AndroidPlatform.SortedTable
import Mathlib.Data.List.Basic
import Mathlib.Tactic.Linarith

/-!
# The list of bad blocks

`badblocks.c` keeps a set of numbers in an array that grows by hundred entries
when it is full. A number above all others is appended at once; any other one
is searched for from the front, and the entries behind its place are moved up.
The binary search tests the two ends first, then narrows the interval to its
middle until nothing is left between the ends.

A call that needs memory returns an error when it gets none, and leaves the
list as it is. How many bytes there are is left to the memory, which grants
at most half of the address space in one piece.
-/

namespace AndroidPlatform.BadBlocks

open CInteger SortedTable

/-! ## The functions -/

/-- The memory a program runs in. -/
structure Memory where
  /-- The bits of `unsigned long`. -/
  wordBits : ℕ
  /-- The program runs on 32 or on 64 bits. -/
  word : wordBits=32 ∨ wordBits=64
  /-- Whether so many bytes are allocated. -/
  granted : ℕ → Bool
  /-- No object is larger than `PTRDIFF_MAX`. -/
  granted_lt : ∀ n, granted n=true → n<2^(wordBits-1)
  /-- What is in an entry that has been allocated and not been written. -/
  junk : ℕ → ℕ

/-- The conversion to `unsigned long`. -/
def Memory.ulong (mem : Memory) (n : ℤ) : ℕ := (n%(2:ℤ)^mem.wordBits).toNat

/-- `struct ext2_struct_u32_list` -/
structure U32List where
  /-- `num` -/
  num : ℕ
  /-- `size`, an `int`. -/
  size : ℤ
  /-- The entries of the array `list`. -/
  list : List ℕ
  deriving DecidableEq

/-- `EXT2_ET_NO_MEMORY` -/
inductive Errcode where
  | noMemory
  deriving DecidableEq

/-- An entry of an array. -/
def entry (list : List ℕ) (i : ℕ) : ℕ := list.getD i 0

/-- The numbers that are stored. -/
def U32List.stored (bb : U32List) : List ℕ := bb.list.take bb.num

/-- `ext2fs_u32_list_create`, whose argument is an `int`. -/
def u32ListCreate (mem : Memory) (size : ℤ) : Except Errcode U32List :=
  let size := if toInt size=0 then 10 else toInt size
  let count := mem.ulong size
  if count≠0 ∧ (2^mem.wordBits-1)/count<4 then .error .noMemory
  else if mem.granted (mem.ulong (count*4)) then .ok ⟨0,size,List.replicate count 0⟩
  else .error .noMemory

/-- The first statement of `ext2fs_u32_list_add`, which makes room for a number. -/
def makeRoom (mem : Memory) (bb : U32List) : Except Errcode U32List :=
  if bb.size≤bb.num then
    let size := toInt (bb.size+100)
    let bytes := mem.ulong (size*4)
    if mem.granted bytes then
      .ok {bb with size:=size,
                   list:=(List.range (bytes/4)).map fun i => (bb.list[i]?).getD (mem.junk i)}
    else .error .noMemory
  else .ok bb

/-- The loop for the place of a number: nothing if it is stored, else the
place of the first number above it. -/
def insertPlace (blk : ℕ) : List ℕ → ℕ → Option ℕ
  | [],i => some i
  | x::rest,i => if x=blk then none else if blk<x then some i else insertPlace blk rest (i+1)

/-- The loop that moves the entries from `j` on up by one, from entry `i` down. -/
def shiftUp (j : ℕ) : ℕ → List ℕ → List ℕ
  | 0,list => list
  | i+1,list => if j < i+1 then shiftUp j i (list.set (i+1) (entry list i)) else list

/-- `ext2fs_u32_list_add`: the list and the error, if there is one. -/
def u32ListAdd (mem : Memory) (bb : U32List) (blk : ℕ) : U32List×Option Errcode :=
  match makeRoom mem bb with
  | .error e => (bb,some e)
  | .ok bb =>
    if bb.num≠0 ∧ entry bb.list (bb.num-1)=blk then (bb,none)
    else if bb.num=0 ∨ entry bb.list (bb.num-1)<blk then
      ({bb with list:=bb.list.set bb.num blk,num:=bb.num+1},none)
    else
      match insertPlace blk bb.stored 0 with
      | none => (bb,none)
      | some j => ({bb with list:=(shiftUp j bb.num bb.list).set j blk,num:=bb.num+1},none)

/-- The loop of `ext2fs_u32_list_find`. -/
def findLoop (list : List ℕ) (blk low high : ℕ) : Option ℕ :=
  if low<high then
    let mid := (low+high)/2
    if mid=low ∨ mid=high then none
    else if blk=entry list mid then some mid
    else if blk<entry list mid then findLoop list blk low mid
    else findLoop list blk mid high
  else none
termination_by high-low

/-- `ext2fs_u32_list_find` -/
def u32ListFind (bb : U32List) (blk : ℕ) : ℤ :=
  if bb.num=0 then -1
  else if blk=entry bb.list 0 then 0
  else if blk=entry bb.list (bb.num-1) then (bb.num-1 : ℕ)
  else
    match findLoop bb.list blk 0 (bb.num-1) with
    | some mid => mid
    | none => -1

/-- `ext2fs_u32_list_test` -/
def u32ListTest (bb : U32List) (blk : ℕ) : ℤ := if u32ListFind bb blk<0 then 0 else 1

/-- The loop that moves the entries behind entry `i` down by one. -/
def shiftDown (last i : ℕ) (list : List ℕ) : List ℕ :=
  if i<last then shiftDown last (i+1) (list.set i (entry list (i+1))) else list
termination_by last-i

/-- `ext2fs_u32_list_del`: the list and the value returned. -/
def u32ListDel (bb : U32List) (blk : ℕ) : U32List×ℤ :=
  if bb.num=0 then (bb,-1)
  else
    let remloc := u32ListFind bb blk
    if remloc<0 then (bb,-1)
    else ({bb with list:=shiftDown (bb.num-1) remloc.toNat bb.list,num:=bb.num-1},0)

/-- `struct ext2_struct_u32_iterate` -/
structure U32Iterate where
  /-- `bb` -/
  bb : U32List
  /-- `ptr` -/
  ptr : ℕ

/-- `ext2fs_u32_list_iterate_begin` -/
def u32ListIterateBegin (bb : U32List) : U32Iterate := ⟨bb,0⟩

/-- `ext2fs_u32_list_iterate`: the iterator, the value returned and `*blk`. -/
def u32ListIterate (iter : U32Iterate) : U32Iterate×ℤ×ℕ :=
  if iter.ptr < iter.bb.num then ({iter with ptr:=iter.ptr+1},1,entry iter.bb.list iter.ptr)
  else (iter,0,0)

/-! ## The array -/

/-- The numbers increase, and the array has the entries and the size it says. -/
structure Proper (mem : Memory) (bb : U32List) : Prop where
  /-- The array has `size` entries. -/
  length : (bb.list.length : ℤ)=bb.size
  /-- `size` is an `int`. -/
  size_lt : bb.size<2^31
  /-- The array has been allocated. -/
  bytes_lt : 4*bb.size<2^(mem.wordBits-1)
  /-- No more numbers are stored than there is room for. -/
  num_le : bb.num≤bb.size
  /-- The numbers increase. -/
  sorted : bb.stored.Pairwise (fun a b => a<b)

variable {mem : Memory} {bb bb' : U32List} {blk : ℕ}

theorem Proper.num_le_length (h : Proper mem bb) : bb.num≤bb.list.length := by
  have hlength := h.length
  have hle := h.num_le
  omega

theorem Proper.length_stored (h : Proper mem bb) : bb.stored.length=bb.num :=
  List.length_take_of_le h.num_le_length

theorem getElem?_stored {i : ℕ} (hi : i<bb.num) : bb.stored[i]?=bb.list[i]? :=
  List.getElem?_take_of_lt hi

theorem Proper.entry_eq (h : Proper mem bb) {i : ℕ} (hi : i<bb.num) :
    bb.stored[i]?=some (entry bb.list i) := by
  have hlt : i<bb.list.length := Nat.lt_of_lt_of_le hi h.num_le_length
  rw [getElem?_stored hi,entry,List.getD_eq_getElem?_getD,List.getElem?_eq_getElem hlt,
    Option.getD_some]

/-- The entries increase from place to place. -/
theorem Proper.entry_lt (h : Proper mem bb) {i j : ℕ} (hij : i<j) (hj : j<bb.num) :
    entry bb.list i<entry bb.list j := by
  obtain ⟨hi',hi⟩ := List.getElem?_eq_some_iff.mp (h.entry_eq (Nat.lt_trans hij hj))
  obtain ⟨hj',hj⟩ := List.getElem?_eq_some_iff.mp (h.entry_eq hj)
  have hlt := List.pairwise_iff_getElem.mp h.sorted i j hi' hj' hij
  rwa [hi,hj] at hlt

/-- No number is stored twice. -/
theorem Proper.entry_inj (h : Proper mem bb) {i j : ℕ} (hi : i<bb.num) (hj : j<bb.num)
    (heq : entry bb.list i=entry bb.list j) : i=j := by
  rcases Nat.lt_trichotomy i j with hlt | hsame | hlt
  · have hless := h.entry_lt hlt hj
    omega
  · exact hsame
  · have hless := h.entry_lt hlt hi
    omega

theorem Proper.entry_mem (h : Proper mem bb) {i : ℕ} (hi : i<bb.num) :
    entry bb.list i∈bb.stored := List.mem_of_getElem? (h.entry_eq hi)

theorem Proper.mem_stored (h : Proper mem bb) :
    blk∈bb.stored ↔ ∃ i<bb.num, entry bb.list i=blk := by
  rw [List.mem_iff_getElem?]
  constructor
  · rintro ⟨i,hi⟩
    have hlt : i<bb.num := by
      rw [←h.length_stored]
      exact (List.getElem?_eq_some_iff.mp hi).1
    rw [h.entry_eq hlt] at hi
    exact ⟨i,hlt,Option.some.inj hi⟩
  · rintro ⟨i,hi,rfl⟩
    exact ⟨i,h.entry_eq hi⟩

theorem toInt_range (n : ℤ) : -2^31≤toInt n ∧ toInt n<2^31 := by
  rw [toInt,BitVec.toInt_ofInt,Int.bmod_def]
  split
  · omega
  · omega

/-- A new list is empty. -/
theorem proper_create {size : ℤ} (h : u32ListCreate mem size=.ok bb) :
    Proper mem bb ∧ bb.stored=[] := by
  rw [u32ListCreate] at h
  generalize hn : (if toInt size=0 then 10 else toInt size)=n at h
  have hrange := toInt_range size
  have hne : n≠0 ∧ -2^31≤n ∧ n<2^31 := by
    rw [←hn]
    split
    · omega
    · omega
  by_cases hover : mem.ulong n≠0 ∧ (2^mem.wordBits-1)/mem.ulong n<4
  · rw [if_pos hover] at h
    cases h
  · rw [if_neg hover] at h
    split at h
    · rename_i hgranted
      cases h
      have hsmall := mem.granted_lt _ hgranted
      have hcount : (mem.ulong n : ℤ)=n ∧ 4*n<2^(mem.wordBits-1) := by
        have hfits : mem.ulong n≠0 → 4*mem.ulong n≤2^mem.wordBits-1 := fun hpos =>
          (Nat.le_div_iff_mul_le (Nat.pos_of_ne_zero hpos)).mp
            (Nat.not_lt.mp fun hlt => hover ⟨hpos,hlt⟩)
        rw [Memory.ulong] at hfits hsmall ⊢
        rcases mem.word with hw | hw
        · rw [hw] at hfits hsmall ⊢
          rw [Memory.ulong,hw] at hsmall
          omega
        · rw [hw] at hfits hsmall ⊢
          rw [Memory.ulong,hw] at hsmall
          omega
      have hempty : (⟨0,n,List.replicate (mem.ulong n) 0⟩ : U32List).stored=[] := List.take_zero
      refine ⟨⟨?_,hne.2.2,hcount.2,?_,?_⟩,hempty⟩
      · dsimp only
        rw [List.length_replicate]
        exact hcount.1
      · have hpos := Int.natCast_nonneg (mem.ulong n)
        rw [hcount.1] at hpos
        exact hpos
      · rw [hempty]
        exact List.Pairwise.nil
    · cases h

theorem toInt_wrapped {n : ℤ} (hge : 2^31≤n) (hlt : n<2^32) : toInt n=n-2^32 := by
  rw [toInt,BitVec.toInt_ofInt,Int.bmod_def]
  split
  · omega
  · omega

/-- The room that is made keeps what is stored. -/
theorem Proper.makeRoom (h : Proper mem bb) (hroom : makeRoom mem bb=.ok bb') :
    Proper mem bb' ∧ bb'.stored=bb.stored ∧ bb'.num=bb.num ∧ (bb'.num : ℤ)<bb'.size := by
  rw [BadBlocks.makeRoom] at hroom
  have hlength := h.length
  have hlt := h.size_lt
  have hbytes := h.bytes_lt
  have hnum := h.num_le
  by_cases hfull : bb.size≤bb.num
  · rw [if_pos hfull] at hroom
    dsimp only at hroom
    split at hroom
    · rename_i hgranted
      have hsmall := mem.granted_lt _ hgranted
      -- A sum that wraps around is negative, and asks for more than is ever granted.
      have hfits : bb.size+100<2^31 := by
        rcases mem.word with hw | hw
        · rw [hw] at hbytes
          omega
        · by_contra hwrap
          rw [toInt_wrapped (by omega) (by omega),Memory.ulong,hw] at hsmall
          omega
      have hbytes' : mem.ulong ((bb.size+100)*4)=(bb.list.length+100)*4 := by
        rcases mem.word with hw | hw
        · rw [hw] at hbytes
          rw [Memory.ulong,hw]
          omega
        · rw [Memory.ulong,hw]
          omega
      rw [toInt_eq (by omega) hfits,hbytes'] at hsmall hroom
      cases hroom
      have hcount : (bb.list.length+100)*4/4=bb.list.length+100 := by omega
      have hstored : List.take bb.num ((List.range ((bb.list.length+100)*4/4)).map
          fun i => (bb.list[i]?).getD (mem.junk i))=bb.stored := by
        refine List.ext_getElem? fun i => ?_
        rw [U32List.stored,hcount,List.getElem?_take,List.getElem?_take]
        by_cases hi : i<bb.num
        · have hil : i<bb.list.length := by omega
          rw [if_pos hi,if_pos hi,List.getElem?_map,List.getElem?_range (by omega),
            Option.map_some,List.getElem?_eq_getElem hil,Option.getD_some]
        · rw [if_neg hi,if_neg hi]
      refine ⟨⟨?_,?_,?_,?_,?_⟩,hstored,rfl,?_⟩
      · dsimp only
        rw [List.length_map,List.length_range,hcount]
        omega
      · exact hfits
      · dsimp only
        rcases mem.word with hw | hw
        · rw [hw] at hsmall ⊢
          omega
        · rw [hw] at hsmall ⊢
          omega
      · dsimp only
        omega
      · rw [U32List.stored,hstored]
        exact h.sorted
      · dsimp only
        omega
    · cases hroom
  · rw [if_neg hfull] at hroom
    cases hroom
    exact ⟨h,rfl,rfl,by omega⟩

/-! ## Finding a number -/

/-- The loop finds a number between the ends, if it is there. -/
theorem Proper.findLoop (h : Proper mem bb) {low high : ℕ} (hhigh : high<bb.num) :
    (∀ i, low < i → i<high → entry bb.list i=blk → findLoop bb.list blk low high=some i) ∧
      ((∀ i, low < i → i<high → entry bb.list i≠blk) → findLoop bb.list blk low high=none) := by
  induction low,high using findLoop.induct bb.list blk with
  | case1 low high hlt mid hend =>
    rw [BadBlocks.findLoop,if_pos hlt]
    dsimp only
    rw [if_pos hend]
    exact ⟨fun i hlow hhi _ => by omega,fun _ => rfl⟩
  | case2 low high hlt mid hend heq =>
    rw [BadBlocks.findLoop,if_pos hlt]
    dsimp only
    rw [if_neg hend,if_pos heq]
    constructor
    · intro i hlow hhi hi
      rw [h.entry_inj (show i<bb.num by omega) (show mid<bb.num by omega) (hi.trans heq)]
    · intro hnone
      exact absurd heq.symm (hnone mid (by omega) (by omega))
  | case3 low high hlt mid hend hne hless ih =>
    rw [BadBlocks.findLoop,if_pos hlt]
    dsimp only
    rw [if_neg hend,if_neg hne,if_pos hless]
    obtain ⟨hfound,hmissing⟩ := ih (by omega)
    constructor
    · intro i hlow hhi hi
      refine hfound i hlow ?_ hi
      by_contra hge
      rcases Nat.eq_or_lt_of_le (Nat.not_lt.mp hge) with hsame | hmore
      · rw [hsame] at hless
        omega
      · have hlt := h.entry_lt hmore (by omega)
        omega
    · exact fun hnone => hmissing fun i hlow hhi => hnone i hlow (by omega)
  | case4 low high hlt mid hend hne hmore ih =>
    rw [BadBlocks.findLoop,if_pos hlt]
    dsimp only
    rw [if_neg hend,if_neg hne,if_neg hmore]
    obtain ⟨hfound,hmissing⟩ := ih hhigh
    constructor
    · intro i hlow hhi hi
      refine hfound i ?_ hhi hi
      by_contra hge
      rcases Nat.eq_or_lt_of_le (Nat.not_lt.mp hge) with hsame | hless
      · rw [←hsame] at hne
        omega
      · have hlt := h.entry_lt hless (by omega)
        omega
    · exact fun hnone => hmissing fun i hlow hhi => hnone i (by omega) hhi
  | case5 low high hge =>
    rw [BadBlocks.findLoop,if_neg hge]
    exact ⟨fun i hlow hhi _ => by omega,fun _ => rfl⟩

/-- **Finding.** A number that is stored is found where it is. -/
theorem Proper.find_eq (h : Proper mem bb) {i : ℕ} (hi : i<bb.num)
    (hblk : entry bb.list i=blk) : u32ListFind bb blk=i := by
  have hzero : bb.num≠0 := by omega
  rw [u32ListFind,if_neg hzero]
  by_cases hfirst : blk=entry bb.list 0
  · rw [if_pos hfirst]
    rw [h.entry_inj hi (Nat.pos_of_ne_zero hzero) (hblk.trans hfirst)]
    rfl
  · rw [if_neg hfirst]
    have hi0 : i≠0 := fun h0 => hfirst (by rw [←hblk,h0])
    by_cases hlast : blk=entry bb.list (bb.num-1)
    · rw [if_pos hlast,h.entry_inj hi (show bb.num-1<bb.num by omega) (hblk.trans hlast)]
    · have hil : i≠bb.num-1 := fun hl => hlast (by rw [←hblk,hl])
      rw [if_neg hlast,(h.findLoop (by omega)).1 i (by omega) (by omega) hblk]

/-- A number that is not stored is not found. -/
theorem Proper.find_none (h : Proper mem bb) (hblk : ∀ i<bb.num, entry bb.list i≠blk) :
    u32ListFind bb blk=-1 := by
  rw [u32ListFind]
  by_cases hzero : bb.num=0
  · rw [if_pos hzero]
  · rw [if_neg hzero,if_neg (fun he => hblk 0 (by omega) he.symm),
      if_neg (fun he => hblk (bb.num-1) (by omega) he.symm),
      (h.findLoop (by omega)).2 fun i _ hi => hblk i (by omega)]

/-! ## Moving entries -/

/-- The entries that have been moved up. -/
theorem getElem?_shiftUp (j i : ℕ) (list : List ℕ) (hi : i<list.length) (k : ℕ) :
    (shiftUp j i list)[k]?=if j<k ∧ k ≤ i then list[k-1]? else list[k]? := by
  induction i generalizing list with
  | zero =>
    rw [shiftUp,if_neg (by omega)]
  | succ i ih =>
    rw [shiftUp]
    by_cases hj : j < i+1
    · rw [if_pos hj,ih _ (by rw [List.length_set]; omega),List.getElem?_set,List.getElem?_set]
      by_cases hk : k=i+1
      · have hentry : list[i]?=some (entry list i) := by
          rw [entry,List.getD_eq_getElem?_getD,List.getElem?_eq_getElem (by omega),Option.getD_some]
        rw [if_neg (by omega),if_pos hk.symm,if_pos hi,if_pos (by omega),hk,Nat.add_sub_cancel,
          hentry]
      · by_cases hin : j<k ∧ k ≤ i
        · rw [if_pos hin,if_neg (by omega),if_pos (by omega)]
        · rw [if_neg hin,if_neg (by omega),if_neg (by omega)]
    · rw [if_neg hj,if_neg (by omega)]

theorem length_shiftUp (j i : ℕ) (list : List ℕ) : (shiftUp j i list).length=list.length := by
  induction i generalizing list with
  | zero => rw [shiftUp]
  | succ i ih =>
    rw [shiftUp]
    split
    · rw [ih,List.length_set]
    · rfl

/-- The entries that have been moved down. -/
theorem getElem?_shiftDown (last i : ℕ) (list : List ℕ) (hlast : last<list.length) (k : ℕ) :
    (shiftDown last i list)[k]?=if i≤k ∧ k<last then list[k+1]? else list[k]? := by
  induction i,list using shiftDown.induct last with
  | case1 i list hi ih =>
    rw [shiftDown,if_pos hi,ih (by rw [List.length_set]; exact hlast),List.getElem?_set,
      List.getElem?_set]
    by_cases hk : k=i
    · have hentry : list[i+1]?=some (entry list (i+1)) := by
        rw [entry,List.getD_eq_getElem?_getD,List.getElem?_eq_getElem (by omega),Option.getD_some]
      rw [if_neg (by omega),if_pos hk.symm,if_pos (by omega),if_pos (by omega),hk,hentry]
    · by_cases hin : i+1≤k ∧ k<last
      · rw [if_pos hin,if_neg (by omega),if_pos (by omega)]
      · rw [if_neg hin,if_neg (by omega),if_neg (by omega)]
  | case2 i list hi => rw [shiftDown,if_neg hi,if_neg (by omega)]

theorem length_shiftDown (last i : ℕ) (list : List ℕ) :
    (shiftDown last i list).length=list.length := by
  induction i,list using shiftDown.induct last with
  | case1 i list hi ih => rw [shiftDown,if_pos hi,ih,List.length_set]
  | case2 i list hi => rw [shiftDown,if_neg hi]

/-- The place is behind the numbers below the one to insert. -/
theorem insertPlace_eq (blk : ℕ) (rest : List ℕ) (i : ℕ) :
    (∀ j, insertPlace blk rest i=some j → i≤j ∧ j ≤ i+rest.length ∧
      (∀ x∈rest.take (j-i), x<blk) ∧ ∀ x, rest[j-i]?=some x → blk<x) ∧
    (insertPlace blk rest i=none → blk∈rest) := by
  induction rest generalizing i with
  | nil =>
    rw [insertPlace]
    refine ⟨fun j hj => ?_,fun h => (by cases h)⟩
    cases hj
    refine ⟨le_rfl,le_rfl,?_,?_⟩
    · rw [List.take_nil]
      exact fun x hx => absurd hx List.not_mem_nil
    · intro x hx
      cases hx
  | cons x rest ih =>
    rw [insertPlace]
    by_cases hx : x=blk
    · rw [if_pos hx]
      exact ⟨fun j hj => (by cases hj),fun _ => List.mem_cons.mpr (.inl hx.symm)⟩
    · rw [if_neg hx]
      by_cases hless : blk<x
      · rw [if_pos hless]
        refine ⟨fun j hj => ?_,fun h => (by cases h)⟩
        cases hj
        refine ⟨le_rfl,by omega,?_,?_⟩
        · rw [Nat.sub_self,List.take_zero]
          exact fun x hx => absurd hx List.not_mem_nil
        · intro y hy
          rw [Nat.sub_self] at hy
          cases hy
          exact hless
      · rw [if_neg hless]
        obtain ⟨hplace,hnone⟩ := ih (i+1)
        refine ⟨fun j hj => ?_,fun h => List.mem_cons_of_mem x (hnone h)⟩
        obtain ⟨hge,hle,hbefore,hat⟩ := hplace j hj
        have hstep : j-i=j-(i+1)+1 := by omega
        rw [hstep,List.take_succ_cons,List.getElem?_cons_succ]
        refine ⟨by omega,by rw [List.length_cons]; omega,fun y hy => ?_,hat⟩
        rcases List.mem_cons.mp hy with rfl | hy
        · omega
        · exact hbefore y hy

/-! ## Adding and removing a number -/

/-- A number that is put where it belongs. -/
theorem Proper.insert (h : Proper mem bb) (hroom : (bb.num : ℤ)<bb.size) {j : ℕ} (hj : j≤bb.num)
    (hbefore : ∀ i<j, entry bb.list i<blk)
    (hafter : ∀ i, j ≤ i → i<bb.num → blk<entry bb.list i) :
    Proper mem {bb with list:=(shiftUp j bb.num bb.list).set j blk,num:=bb.num+1} ∧
      ∀ b, b∈({bb with list:=(shiftUp j bb.num bb.list).set j blk,num:=bb.num+1} : U32List).stored ↔
        b=blk ∨ b∈bb.stored := by
  have hlength := h.length
  have hstored : ({bb with list:=(shiftUp j bb.num bb.list).set j blk,num:=bb.num+1} :
      U32List).stored=insertAt bb.stored j blk := by
    refine List.ext_getElem? fun k => ?_
    have htake : (bb.stored.take j).length=j := by
      rw [List.length_take,h.length_stored]
      omega
    rw [U32List.stored,insertAt,List.getElem?_take,List.getElem?_append,htake]
    by_cases hk : k<bb.num+1
    · rw [if_pos hk,List.getElem?_set,getElem?_shiftUp j bb.num bb.list (by omega),
        length_shiftUp]
      rcases Nat.lt_trichotomy k j with hless | hsame | hmore
      · rw [if_neg (by omega),if_neg (by omega),if_pos hless,List.getElem?_take_of_lt hless,
          getElem?_stored (by omega)]
      · rw [if_pos hsame.symm,if_pos (by omega),if_neg (by omega),hsame,Nat.sub_self]
        rfl
      · have hstep : k-j=k-1-j+1 := by omega
        rw [if_neg (by omega),if_pos (by omega),if_neg (by omega),hstep,List.getElem?_cons_succ,
          List.getElem?_drop,←getElem?_stored (by omega)]
        congr 1
        omega
    · rw [if_neg hk,if_neg (by omega)]
      refine (List.getElem?_eq_none ?_).symm
      rw [List.length_cons,List.length_drop,h.length_stored]
      omega
  have hkey : ∀ i<bb.num, keyAt id bb.stored i=entry bb.list i :=
    fun i hi => keyAt_eq (h.entry_eq hi)
  have hplace : Located id bb.stored blk (false,j) := by
    rw [Located,if_neg Bool.false_ne_true,h.length_stored]
    refine ⟨hj,fun i hi => ?_,fun i hge hi => ?_⟩
    · rw [hkey i (by dsimp only at hi; omega)]
      exact hbefore i hi
    · rw [hkey i hi]
      exact hafter i hge hi
  refine ⟨⟨?_,h.size_lt,h.bytes_lt,?_,?_⟩,fun b => ?_⟩
  · dsimp only
    rw [List.length_set,length_shiftUp]
    exact hlength
  · dsimp only
    omega
  · rw [hstored]
    exact @SortedBy.insertAt ℕ id bb.stored j h.sorted blk hplace
  · rw [hstored,mem_insertAt]

theorem shiftUp_self (j : ℕ) (list : List ℕ) : shiftUp j j list=list := by
  cases j with
  | zero => rw [shiftUp]
  | succ j => rw [shiftUp,if_neg (lt_irrefl _)]

/-- **Adding.** A call that gets its memory puts the number into the set. -/
theorem Proper.add (h : Proper mem bb) (hadd : u32ListAdd mem bb blk=(bb',none)) :
    Proper mem bb' ∧ ∀ b, b∈bb'.stored ↔ b=blk ∨ b∈bb.stored := by
  rw [u32ListAdd] at hadd
  cases hroom : BadBlocks.makeRoom mem bb with
  | error e =>
    rw [hroom] at hadd
    cases hadd
  | ok room =>
    obtain ⟨hp,hstored,-,hlt⟩ := h.makeRoom hroom
    rw [hroom] at hadd
    dsimp only at hadd
    rw [←hstored]
    have hpresent : blk∈room.stored → Proper mem room ∧ ∀ b, b∈room.stored ↔ b=blk ∨ b∈room.stored :=
      fun hmem => ⟨hp,fun b => ⟨.inr,fun hb => hb.elim (fun he => he ▸ hmem) fun hb => hb⟩⟩
    by_cases hlast : room.num≠0 ∧ entry room.list (room.num-1)=blk
    · rw [if_pos hlast] at hadd
      cases hadd
      refine hpresent ?_
      rw [←hlast.2]
      exact hp.entry_mem (by omega)
    · rw [if_neg hlast] at hadd
      by_cases habove : room.num=0 ∨ entry room.list (room.num-1)<blk
      · rw [if_pos habove] at hadd
        cases hadd
        have hbelow : ∀ i<room.num, entry room.list i<blk := by
          intro i hi
          rcases habove with hzero | habove
          · omega
          · by_cases hil : i=room.num-1
            · rw [hil]
              exact habove
            · have hless := hp.entry_lt (show i<room.num-1 by omega) (by omega)
              omega
        have hinsert := hp.insert hlt le_rfl hbelow fun i hge hi => absurd hge (by omega)
        rw [shiftUp_self] at hinsert
        exact hinsert
      · rw [if_neg habove] at hadd
        obtain ⟨hplace,hnone⟩ := insertPlace_eq blk room.stored 0
        cases hj : insertPlace blk room.stored 0 with
        | none =>
          rw [hj] at hadd
          cases hadd
          exact hpresent (hnone hj)
        | some j =>
          rw [hj] at hadd
          cases hadd
          obtain ⟨-,hle,hbefore,hat⟩ := hplace j hj
          rw [Nat.zero_add,hp.length_stored] at hle
          rw [Nat.sub_zero] at hbefore hat
          refine hp.insert hlt hle (fun i hi => hbefore _ ?_) fun i hge hi => ?_
          · refine List.mem_of_getElem? (i:=i) ?_
            rw [List.getElem?_take_of_lt hi]
            exact hp.entry_eq (by omega)
          · have hfirst := hat _ (hp.entry_eq (by omega))
            rcases Nat.eq_or_lt_of_le hge with rfl | hmore
            · exact hfirst
            · exact Nat.lt_trans hfirst (hp.entry_lt hmore hi)

/-- **Removing.** The number is out of the set afterwards. -/
theorem Proper.del (h : Proper mem bb) (blk : ℕ) : Proper mem (u32ListDel bb blk).1 ∧
    ∀ b, b∈(u32ListDel bb blk).1.stored ↔ b≠blk ∧ b∈bb.stored := by
  have habsent : (∀ i<bb.num, entry bb.list i≠blk) → ∀ b, b∈bb.stored ↔ b≠blk ∧ b∈bb.stored := by
    refine fun hnot b => ⟨fun hb => ⟨?_,hb⟩,fun hb => hb.2⟩
    rintro rfl
    obtain ⟨i,hi,heq⟩ := h.mem_stored.mp hb
    exact hnot i hi heq
  rw [u32ListDel]
  by_cases hzero : bb.num=0
  · rw [if_pos hzero]
    exact ⟨h,habsent fun i hi => by omega⟩
  · rw [if_neg hzero]
    by_cases hmem : ∃ i<bb.num, entry bb.list i=blk
    · obtain ⟨i,hi,hblk⟩ := hmem
      have hlength := h.num_le_length
      have hfind := h.find_eq hi hblk
      dsimp only
      rw [hfind,if_neg (by omega),Int.toNat_natCast]
      have hstored : ({bb with list:=shiftDown (bb.num-1) i bb.list,num:=bb.num-1} :
          U32List).stored=bb.stored.eraseIdx i := by
        refine List.ext_getElem? fun k => ?_
        rw [U32List.stored,List.getElem?_take,List.getElem?_eraseIdx]
        by_cases hk : k<bb.num-1
        · rw [if_pos hk,getElem?_shiftDown _ _ _ (by omega)]
          by_cases hik : i≤k
          · rw [if_pos ⟨hik,hk⟩,if_neg (by omega),getElem?_stored (by omega)]
          · rw [if_neg (by omega),if_pos (by omega),getElem?_stored (by omega)]
        · have hnone : ∀ m, bb.num ≤ m → bb.stored[m]?=none := fun m hm =>
            List.getElem?_eq_none (by rw [h.length_stored]; exact hm)
          rw [if_neg hk,if_neg (by omega),hnone (k+1) (by omega)]
      have hlen := h.length
      have hnum := h.num_le
      refine ⟨⟨?_,h.size_lt,h.bytes_lt,?_,?_⟩,fun b => ?_⟩
      · dsimp only
        rw [length_shiftDown]
        exact hlen
      · dsimp only
        omega
      · rw [hstored]
        exact h.sorted.sublist (List.eraseIdx_sublist _ _)
      · rw [hstored,List.mem_eraseIdx_iff_getElem?]
        constructor
        · rintro ⟨k,hki,hk⟩
          have hlt : k<bb.num := by
            rw [←h.length_stored]
            exact (List.getElem?_eq_some_iff.mp hk).1
          rw [h.entry_eq hlt] at hk
          refine ⟨fun he => hki (h.entry_inj hlt hi ?_),?_⟩
          · rw [Option.some.inj hk,he,hblk]
          · rw [←Option.some.inj hk]
            exact h.entry_mem hlt
        · rintro ⟨hne,hb⟩
          obtain ⟨k,hk,rfl⟩ := h.mem_stored.mp hb
          refine ⟨k,?_,h.entry_eq hk⟩
          rintro rfl
          exact hne hblk
    · have hnot : ∀ i<bb.num, entry bb.list i≠blk := fun i hi heq => hmem ⟨i,hi,heq⟩
      dsimp only
      rw [h.find_none hnot,if_pos (by decide)]
      exact ⟨h,habsent hnot⟩

/-! ## Calls -/

/-- The calls that change a list. -/
inductive Call where
  | add (blk : ℕ)
  | del (blk : ℕ)
  deriving DecidableEq

/-- The number a call is about. -/
def Call.number : Call → ℕ
  | .add blk => blk
  | .del blk => blk

/-- Some calls one after the other; nothing if one of them gets no memory. -/
def run (mem : Memory) : U32List → List Call → Option U32List
  | bb,[] => some bb
  | bb,.add blk::calls =>
    match u32ListAdd mem bb blk with
    | (bb',none) => run mem bb' calls
    | (_,some _) => none
  | bb,.del blk::calls => run mem (u32ListDel bb blk).1 calls

/-- What some calls of `ext2fs_u32_list_iterate` return, with `*blk`. -/
def visits : ℕ → U32Iterate → List (ℤ×ℕ)
  | 0,_ => []
  | calls+1,iter => (u32ListIterate iter).2::visits calls (u32ListIterate iter).1

/-- The last of the calls about a number added it. -/
def LastAdds (calls : List Call) (blk : ℕ) : Prop :=
  ∃ earlier later, calls=earlier++.add blk::later ∧ ∀ call∈later, call.number≠blk

/-- The list holds a set. -/
structure Holds (bb : U32List) (member : ℕ → Prop) : Prop where
  /-- The numbers increase. -/
  sorted : bb.stored.Pairwise (fun a b => a<b)
  /-- There is room for them. -/
  num_le : bb.num≤bb.size
  /-- They are as many as the list says. -/
  length_stored : bb.stored.length=bb.num
  /-- A member is found where it is. -/
  found : ∀ blk, member blk → ∃ i : ℕ, u32ListFind bb blk=i ∧ bb.stored[i]?=some blk
  /-- Another number is not found. -/
  missing : ∀ blk, ¬member blk → u32ListFind bb blk=-1
  /-- The test tells whether a number is a member. -/
  tested : ∀ blk, (member blk → u32ListTest bb blk=1) ∧ (¬member blk → u32ListTest bb blk=0)
  /-- The numbers are the members. -/
  mem_stored : ∀ blk, blk∈bb.stored ↔ member blk
  /-- An iteration returns each of them once and in order, and nothing from then on. -/
  visited : ∀ calls, visits calls (u32ListIterateBegin bb)=
    (bb.stored.map fun blk => ((1 : ℤ),blk)).take calls++List.replicate (calls-bb.num) (0,0)

theorem Proper.visits_from (h : Proper mem bb) (calls : ℕ) {ptr : ℕ} (hptr : ptr≤bb.num) :
    visits calls ⟨bb,ptr⟩=((bb.stored.drop ptr).map fun blk => ((1 : ℤ),blk)).take calls++
      List.replicate (calls-(bb.num-ptr)) (0,0) := by
  induction calls generalizing ptr with
  | zero => rw [visits,List.take_zero,Nat.zero_sub]; rfl
  | succ calls ih =>
    rw [visits,u32ListIterate]
    by_cases hlt : ptr<bb.num
    · have hdrop : bb.stored.drop ptr=entry bb.list ptr::bb.stored.drop (ptr+1) := by
        obtain ⟨hi,heq⟩ := List.getElem?_eq_some_iff.mp (h.entry_eq hlt)
        rw [List.drop_eq_getElem_cons hi,heq]
      have hcount : calls+1-(bb.num-ptr)=calls-(bb.num-(ptr+1)) := by omega
      rw [if_pos hlt,ih hlt,hdrop,List.map_cons,List.take_succ_cons,hcount]
      rfl
    · have hend : ptr=bb.num := by omega
      have hnil : bb.stored.drop bb.num=[] := List.drop_eq_nil_of_le (by rw [h.length_stored])
      rw [if_neg hlt,ih hptr,hend,hnil,Nat.sub_self,Nat.sub_zero,Nat.sub_zero,List.map_nil,
        List.take_nil,List.take_nil,List.nil_append,List.nil_append,List.replicate_succ]

/-- A list with a proper array holds the numbers stored. -/
theorem Proper.holds (h : Proper mem bb) {member : ℕ → Prop}
    (hmember : ∀ blk, blk∈bb.stored ↔ member blk) : Holds bb member := by
  have hfound : ∀ blk, member blk → ∃ i : ℕ, u32ListFind bb blk=i ∧ bb.stored[i]?=some blk := by
    intro blk hblk
    obtain ⟨i,hi,rfl⟩ := h.mem_stored.mp ((hmember blk).mpr hblk)
    exact ⟨i,h.find_eq hi rfl,h.entry_eq hi⟩
  have hmissing : ∀ blk, ¬member blk → u32ListFind bb blk=-1 := by
    intro blk hblk
    refine h.find_none fun i hi heq => hblk ((hmember blk).mp ?_)
    exact h.mem_stored.mpr ⟨i,hi,heq⟩
  refine ⟨h.sorted,h.num_le,h.length_stored,hfound,hmissing,fun blk => ⟨?_,?_⟩,hmember,
    fun calls => ?_⟩
  · intro hblk
    obtain ⟨i,hi,-⟩ := hfound blk hblk
    rw [u32ListTest,hi,if_neg (by omega)]
  · intro hblk
    rw [u32ListTest,hmissing blk hblk]
    rfl
  · have hvisits := h.visits_from calls (Nat.zero_le bb.num)
    rw [List.drop_zero,Nat.sub_zero] at hvisits
    exact hvisits

theorem lastAdds_snoc_add (calls : List Call) (blk b : ℕ) :
    LastAdds (calls++[.add blk]) b ↔ b=blk ∨ LastAdds calls b := by
  constructor
  · rintro ⟨earlier,later,heq,hlater⟩
    rcases List.eq_nil_or_concat later with rfl | ⟨later,last,rfl⟩
    · have hlast := (List.append_inj' heq rfl).2
      cases hlast
      exact .inl rfl
    · rw [List.concat_eq_append,←List.cons_append,←List.append_assoc] at heq
      have hsplit := List.append_inj' heq rfl
      refine .inr ⟨earlier,later,hsplit.1,fun call hcall => hlater call ?_⟩
      rw [List.concat_eq_append]
      exact List.mem_append_left _ hcall
  · intro h
    by_cases hb : b=blk
    · exact ⟨calls,[],by rw [hb],fun call hcall => absurd hcall List.not_mem_nil⟩
    · obtain ⟨earlier,later,rfl,hlater⟩ := h.resolve_left hb
      refine ⟨earlier,later++[.add blk],by rw [List.append_assoc,List.cons_append],?_⟩
      intro call hcall
      rcases List.mem_append.mp hcall with hcall | hcall
      · exact hlater call hcall
      · rw [List.mem_singleton.mp hcall]
        exact fun he => hb he.symm

theorem lastAdds_snoc_del (calls : List Call) (blk b : ℕ) :
    LastAdds (calls++[.del blk]) b ↔ b≠blk ∧ LastAdds calls b := by
  constructor
  · rintro ⟨earlier,later,heq,hlater⟩
    rcases List.eq_nil_or_concat later with rfl | ⟨later,last,rfl⟩
    · have hlast := (List.append_inj' heq rfl).2
      cases hlast
    · rw [List.concat_eq_append,←List.cons_append,←List.append_assoc] at heq
      have hsplit := List.append_inj' heq rfl
      rw [List.concat_eq_append] at hlater
      refine ⟨fun hb => ?_,earlier,later,hsplit.1,fun call hcall =>
        hlater call (List.mem_append_left _ hcall)⟩
      refine hlater last (List.mem_append_right later (List.mem_singleton_self last)) ?_
      rw [hb,←List.singleton_inj.mp hsplit.2]
      rfl
  · rintro ⟨hb,earlier,later,rfl,hlater⟩
    refine ⟨earlier,later++[.del blk],by rw [List.append_assoc,List.cons_append],?_⟩
    intro call hcall
    rcases List.mem_append.mp hcall with hcall | hcall
    · exact hlater call hcall
    · rw [List.mem_singleton.mp hcall]
      exact fun he => hb he.symm

/-- Every run of calls keeps the list to the set that the calls leave. -/
theorem Proper.run (h : Proper mem bb) {past : List Call}
    (hpast : ∀ blk, blk∈bb.stored ↔ LastAdds past blk) {calls : List Call}
    (hrun : run mem bb calls=some bb') :
    Proper mem bb' ∧ ∀ blk, blk∈bb'.stored ↔ LastAdds (past++calls) blk := by
  induction calls generalizing bb past with
  | nil =>
    rw [BadBlocks.run] at hrun
    cases hrun
    rw [List.append_nil]
    exact ⟨h,hpast⟩
  | cons call calls ih =>
    rw [List.append_cons]
    cases call with
    | add blk =>
      rw [BadBlocks.run] at hrun
      split at hrun
      · rename_i next hadd
        obtain ⟨hp,hmem⟩ := h.add hadd
        refine ih hp (fun b => ?_) hrun
        rw [hmem b,hpast b,lastAdds_snoc_add]
      · cases hrun
    | del blk =>
      rw [BadBlocks.run] at hrun
      obtain ⟨hp,hmem⟩ := h.del blk
      refine ih hp (fun b => ?_) hrun
      rw [hmem b,hpast b,lastAdds_snoc_del]

/-- **The list is a set.** After any calls that get their memory, on a list of
any initial capacity, the list holds the numbers that were added last. -/
theorem run_holds {size : ℤ} {calls : List Call} (hcreate : u32ListCreate mem size=.ok bb)
    (hrun : run mem bb calls=some bb') : Holds bb' (LastAdds calls) := by
  obtain ⟨hp,hempty⟩ := proper_create hcreate
  have hnone : ∀ blk, blk∈bb.stored ↔ LastAdds [] blk := by
    intro blk
    rw [hempty]
    refine ⟨fun h => absurd h List.not_mem_nil,?_⟩
    rintro ⟨earlier,later,heq,-⟩
    exact absurd heq.symm (by simp)
  obtain ⟨hp',hmember⟩ := hp.run hnone hrun
  exact hp'.holds hmember

/-- A machine of 64 bits that grants every object up to a megabyte. -/
def megabyte : Memory where
  wordBits := 64
  word := .inr rfl
  granted := fun n => decide (n≤2^20)
  granted_lt := fun n h => by
    have hle := of_decide_eq_true h
    omega
  junk := fun _ => 0

/-- A list with room for two numbers is filled and grows, and a number is removed. -/
theorem run_holds_grown : Holds
    ⟨3,102,[3,5,9,9]++List.replicate 98 0⟩ (LastAdds [.add 7,.add 3,.add 9,.add 5,.del 7]) := by
  have hcreate : u32ListCreate megabyte 2=.ok ⟨0,2,[0,0]⟩ := by decide +kernel
  refine run_holds hcreate ?_
  decide +kernel

end AndroidPlatform.BadBlocks
