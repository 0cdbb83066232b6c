import AndroidPlatform.BaBitmap
import AndroidPlatform.RbBitmapRefinement

/-!
# Operations on 64-bit bitmaps of either backend

The test of a bit returns 1 from a tree and the masked byte from an array. The
comparison of two bitmaps tests the bits of the last incomplete group of eight only,
and compares what the tests return. The conversion of a bitmap of blocks to one of
clusters tests the blocks before `real_end`.
-/

namespace AndroidPlatform.GenericBitmaps

open WireBytes Bitops RbBitmap BaBitmap

/-! ## Testing and marking -/

/-- `bitmap_ops` with the `private` data of the backend. -/
inductive Private where
  | rbtree (bp : RbPrivate)
  | bitarray (bits : List UInt8)

/-- The magic numbers of the 64-bit bitmaps. -/
inductive Magic where
  | generic
  | inode
  | block
deriving DecidableEq

/-- `struct ext2fs_struct_generic_bitmap`. -/
structure Bmap extends GenericBitmap where
  /-- `magic`. -/
  magic : Magic
  /-- `cluster_bits`. -/
  clusterBits : ℕ
  /-- `bitmap_ops` and `private`. -/
  content : Private

/-- The private data belong to a bitmap of this range. -/
def Private.Valid (start realEnd : ℕ) : Private → Prop
  | .rbtree bp => Inv bp
  | .bitarray bits => bits.length=arraySize start realEnd

/-- The bit of a position is set. -/
def Private.Set (start : ℕ) : Private → ℕ → Prop
  | .rbtree bp,x => Bits bp (x-start)
  | .bitarray bits,x => bitAt bits (x-start)=true

/-- What the test returns for a set bit. -/
def Private.weight (start : ℕ) : Private → ℕ → ℕ
  | .rbtree _,_ => 1
  | .bitarray _,x => 2^((x-start)%8)

/-- `test_bmap`. -/
def Private.testBmap (bitmap : Bitmap) (arg : ℕ) : Private → Private×ℕ
  | .rbtree bp => (.rbtree (rbTestBmap bitmap bp arg).1,(rbTestBmap bitmap bp arg).2.toNat)
  | .bitarray bits => (.bitarray bits,(baTestBmap bitmap bits arg).toNat)

/-- `mark_bmap`. -/
def Private.markBmap (alloc : Allocator) (bitmap : Bitmap) (arg : ℕ) : Private → Option Private
  | .rbtree bp => (rbMarkBmap alloc bitmap bp arg).map fun marked => .rbtree marked.1
  | .bitarray bits => some (.bitarray (baMarkBmap bitmap bits arg).1)

/-- `ext2fs_test_generic_bmap`. -/
def testGenericBmap (bitmap : Bmap) (arg : ℕ) : Bmap×ℕ :=
  let arg := arg>>>bitmap.clusterBits
  if arg<bitmap.start ∨ bitmap.last<arg then (bitmap,0)
  else
    let tested := bitmap.content.testBmap bitmap.toBitmap arg
    ({bitmap with content := tested.1},tested.2)

/-- `ext2fs_mark_generic_bmap`. -/
def markGenericBmap (alloc : Allocator) (bitmap : Bmap) (arg : ℕ) : Option Bmap :=
  let arg := arg>>>bitmap.clusterBits
  if arg<bitmap.start ∨ bitmap.last<arg then some bitmap
  else
    (bitmap.content.markBmap alloc bitmap.toBitmap arg).map fun marked =>
      {bitmap with content := marked}

/-- The bitmap is well formed. -/
def Bmap.Valid (bitmap : Bmap) : Prop := bitmap.content.Valid bitmap.start bitmap.realEnd

/-- The bit of a position is set. -/
def Bmap.Set (bitmap : Bmap) (x : ℕ) : Prop := bitmap.content.Set bitmap.start x

/-- The test for an argument finds a set bit. -/
def Bmap.Seen (bitmap : Bmap) (arg : ℕ) : Prop :=
  bitmap.start≤arg>>>bitmap.clusterBits ∧ arg>>>bitmap.clusterBits≤bitmap.last ∧
    bitmap.Set (arg>>>bitmap.clusterBits)

/-- What the test for an argument returns if it finds a set bit. -/
def Bmap.weight (bitmap : Bmap) (arg : ℕ) : ℕ :=
  bitmap.content.weight bitmap.start (arg>>>bitmap.clusterBits)

/-- Two bitmaps that differ in the cached pointers of a tree at most. -/
structure Same (bitmap bitmap' : Bmap) : Prop where
  generic : bitmap'.toGenericBitmap=bitmap.toGenericBitmap
  clusterBits : bitmap'.clusterBits=bitmap.clusterBits
  set : ∀ x, bitmap'.Set x ↔ bitmap.Set x
  weight : ∀ x, bitmap'.weight x=bitmap.weight x
  valid : bitmap.Valid → bitmap'.Valid

theorem Same.refl (bitmap : Bmap) : Same bitmap bitmap :=
  ⟨rfl,rfl,fun _ => Iff.rfl,fun _ => rfl,id⟩

theorem Same.seen {bitmap bitmap' : Bmap} (h : Same bitmap bitmap') (arg : ℕ) :
    bitmap'.Seen arg ↔ bitmap.Seen arg := by
  rw [Bmap.Seen,Bmap.Seen,h.generic,h.clusterBits,h.set]

/-- The masked byte of a set bit. -/
theorem testBit64_toNat (nr : ℕ) (addr : List UInt8) :
    (testBit64 nr addr).toNat=if bitAt addr nr=true then 2^(nr%8) else 0 := by
  have hnr : nr%8<8 := Nat.mod_lt nr (by omega)
  by_cases hset : bitAt addr nr=true
  · rw [if_pos hset]
    have heq : testBit64 nr addr=bitMask nr := by
      refine byte_ext fun i hi => ?_
      rw [testBit64,byteBit_and,byteBit_bitMask nr hi]
      by_cases hin : i=nr%8
      · rw [hin,decide_eq_true rfl,Bool.true_and]
        exact hset
      · rw [decide_eq_false hin,Bool.false_and]
    have hpow : ∀ i<8, ((1 : UInt8)<<<UInt8.ofNat i).toNat=2^i := by decide
    rw [heq,bitMask,hpow _ hnr]
  · rw [if_neg hset]
    have hzero : testBit64 nr addr=0 := by
      by_contra hne
      exact hset ((testBit64_ne_zero nr addr).mp hne)
    rw [hzero]
    rfl

open Classical in
/-- What the test returns, and that it changes no bit. -/
theorem testGenericBmap_spec {bitmap : Bmap} (h : bitmap.Valid) (arg : ℕ) :
    Same bitmap (testGenericBmap bitmap arg).1 ∧
      (testGenericBmap bitmap arg).2=if bitmap.Seen arg then bitmap.weight arg else 0 := by
  rw [testGenericBmap]
  dsimp only
  split_ifs with hout hseen hseen
  · exact absurd hout (by have h1 := hseen.1; have h2 := hseen.2.1; omega)
  · exact ⟨Same.refl bitmap,rfl⟩
  all_goals
    obtain ⟨generic,magic,clusterBits,content⟩ := bitmap
  · cases content with
    | rbtree bp =>
      obtain ⟨hroot,hext,hinv,hvalue⟩ := @rbTestBit_tested bp _ h
      refine ⟨⟨rfl,rfl,fun x => ?_,fun _ => rfl,fun _ => hinv⟩,?_⟩
      · change Covers _ _ _ ↔ Covers _ _ _
        rw [rbTestBmap,hroot,hext]
      · exact (congrArg Bool.toNat (hvalue.mpr hseen.2.2)).trans rfl
    | bitarray bits =>
      refine ⟨Same.refl _,?_⟩
      exact (testBit64_toNat _ bits).trans (if_pos hseen.2.2)
  · have hclear : ¬(Bmap.mk generic magic clusterBits content).Set (arg>>>clusterBits) :=
      fun hset => hseen ⟨by omega,by omega,hset⟩
    cases content with
    | rbtree bp =>
      obtain ⟨hroot,hext,hinv,hvalue⟩ := @rbTestBit_tested bp _ h
      refine ⟨⟨rfl,rfl,fun x => ?_,fun _ => rfl,fun _ => hinv⟩,?_⟩
      · change Covers _ _ _ ↔ Covers _ _ _
        rw [rbTestBmap,hroot,hext]
      · have hfalse := Bool.eq_false_iff.mpr (fun hv => hclear (hvalue.mp hv))
        exact (congrArg Bool.toNat hfalse).trans rfl
    | bitarray bits =>
      refine ⟨Same.refl _,?_⟩
      exact (testBit64_toNat _ bits).trans (if_neg hclear)

/-! ## Comparing -/

/-- `EINVAL`. -/
def EINVAL : ℕ := 22

/-- The loop of `ext2fs_compare_generic_bmap`, that many positions from `i` on. -/
def compareLoop (neq : ℕ) : ℕ → Bmap → Bmap → ℕ → ℕ
  | 0,_,_,_ => 0
  | rounds+1,bm1,bm2,i =>
    let tested1 := testGenericBmap bm1 i
    let tested2 := testGenericBmap bm2 i
    if tested1.2≠tested2.2 then neq else compareLoop neq rounds tested1.1 tested2.1 (i+1)

/-- `ext2fs_compare_generic_bmap` on pointers to 64-bit bitmaps. -/
def compareGenericBmap (neq : ℕ) : Option Bmap → Option Bmap → ℕ
  | some bm1,some bm2 =>
    if bm1.magic≠bm2.magic then EINVAL
    else if bm1.start≠bm2.start ∨ bm1.last≠bm2.last then neq
    else
      let i := bm1.last-(bm1.last-bm1.start)%8
      compareLoop neq (bm1.last+1-i) bm1 bm2 i
  | _,_ => EINVAL

/-- A position of the last incomplete group of eight bits, or the last one. -/
def LastGroup (bitmap : Bmap) (x : ℕ) : Prop :=
  bitmap.last-(bitmap.last-bitmap.start)%8≤x ∧ x≤bitmap.last

/-- The bitmaps have the same bits from `start` to `end`. -/
def Agree (bm1 bm2 : Bmap) : Prop :=
  ∀ x, bm1.start≤x → x≤bm1.last → (bm1.Set x ↔ bm2.Set x)

/-- The tests for an argument find equal bits and return the same for a set one. -/
def Alike (bm1 bm2 : Bmap) (x : ℕ) : Prop :=
  (bm1.Seen x ↔ bm2.Seen x) ∧ (bm1.Seen x → bm1.weight x=bm2.weight x)

/-- The comparison returns 0 exactly for bitmaps with the same bits. -/
def ComparesRight (neq : ℕ) (bm1 bm2 : Bmap) : Prop :=
  compareGenericBmap neq (some bm1) (some bm2)=0 ↔ Agree bm1 bm2

/-- Both bitmaps have the same backend. -/
def SameBackend (bm1 bm2 : Bmap) : Prop :=
  match bm1.content,bm2.content with
  | .rbtree _,.rbtree _ => True
  | .bitarray _,.bitarray _ => True
  | _,_ => False

/-- A set bit counts in every backend. -/
theorem weight_pos (bitmap : Bmap) (x : ℕ) : 0<bitmap.weight x := by
  rw [Bmap.weight]
  cases bitmap.content with
  | rbtree bp => exact Nat.one_pos
  | bitarray bits => exact Nat.two_pow_pos _

theorem test_eq_iff {bm1 bm2 : Bmap} (h1 : bm1.Valid) (h2 : bm2.Valid) (x : ℕ) :
    (testGenericBmap bm1 x).2=(testGenericBmap bm2 x).2 ↔ Alike bm1 bm2 x := by
  have hpos1 := weight_pos bm1 x
  have hpos2 := weight_pos bm2 x
  rw [(testGenericBmap_spec h1 x).2,(testGenericBmap_spec h2 x).2,Alike]
  by_cases hs1 : bm1.Seen x
  · by_cases hs2 : bm2.Seen x
    · rw [if_pos hs1,if_pos hs2]
      exact ⟨fun h => ⟨⟨fun _ => hs2,fun _ => hs1⟩,fun _ => h⟩,fun h => h.2 hs1⟩
    · rw [if_pos hs1,if_neg hs2]
      exact ⟨fun h => by omega,fun h => absurd (h.1.mp hs1) hs2⟩
  · by_cases hs2 : bm2.Seen x
    · rw [if_neg hs1,if_pos hs2]
      exact ⟨fun h => by omega,fun h => absurd (h.1.mpr hs2) hs1⟩
    · rw [if_neg hs1,if_neg hs2]
      exact ⟨fun _ => ⟨⟨fun h => absurd h hs1,fun h => absurd h hs2⟩,fun h => absurd h hs1⟩,
        fun _ => rfl⟩

theorem Same.alike {bm1 bm2 bm1' bm2' : Bmap} (h1 : Same bm1 bm1') (h2 : Same bm2 bm2')
    (x : ℕ) : Alike bm1' bm2' x ↔ Alike bm1 bm2 x := by
  rw [Alike,Alike,h1.seen,h2.seen,h1.weight,h2.weight]

/-- The loop returns 0 exactly if all its tests return the same. -/
theorem compareLoop_eq_zero {neq : ℕ} (hneq : neq≠0) {rounds i : ℕ} {bm1 bm2 : Bmap}
    (h1 : bm1.Valid) (h2 : bm2.Valid) :
    compareLoop neq rounds bm1 bm2 i=0 ↔ ∀ x, i≤x → x < i+rounds → Alike bm1 bm2 x := by
  induction rounds generalizing bm1 bm2 i with
  | zero => exact ⟨fun _ x hle hlt => absurd hlt (by omega),fun _ => rfl⟩
  | succ rounds ih =>
    have hsame1 := (testGenericBmap_spec h1 i).1
    have hsame2 := (testGenericBmap_spec h2 i).1
    rw [compareLoop]
    by_cases heq : (testGenericBmap bm1 i).2=(testGenericBmap bm2 i).2
    · rw [if_neg (not_not.mpr heq),ih (hsame1.valid h1) (hsame2.valid h2)]
      have hhead := (test_eq_iff h1 h2 i).mp heq
      constructor
      · intro h x hle hlt
        by_cases hx : x=i
        · exact hx ▸ hhead
        · exact (Same.alike hsame1 hsame2 x).mp (h x (by omega) (by omega))
      · intro h x hle hlt
        exact (Same.alike hsame1 hsame2 x).mpr (h x (by omega) (by omega))
    · rw [if_pos heq]
      refine ⟨fun h => absurd h hneq,fun h => absurd ?_ heq⟩
      exact (test_eq_iff h1 h2 i).mpr (h i (Nat.le_refl i) (by omega))

/-- The comparison looks at the last group only. -/
theorem compareGenericBmap_eq_zero {neq : ℕ} (hneq : neq≠0) {bm1 bm2 : Bmap} (h1 : bm1.Valid)
    (h2 : bm2.Valid) (hmagic : bm1.magic=bm2.magic) (hstart : bm1.start=bm2.start)
    (hlast : bm1.last=bm2.last) :
    compareGenericBmap neq (some bm1) (some bm2)=0 ↔ ∀ x, LastGroup bm1 x → Alike bm1 bm2 x := by
  have hrange : ¬(bm1.start≠bm2.start ∨ bm1.last≠bm2.last) := by
    rw [hstart,hlast]
    simp
  rw [compareGenericBmap,if_neg (not_not.mpr hmagic),if_neg hrange,compareLoop_eq_zero hneq h1 h2]
  exact ⟨fun h x hx => h x hx.1 (by have hle := hx.2; omega),
    fun h x hle hlt => h x ⟨hle,by omega⟩⟩

/-- With single blocks and the same backend, the tests differ exactly at positions
where the bits do. -/
theorem alike_iff_of_sameBackend {bm1 bm2 : Bmap} (hbackend : SameBackend bm1 bm2)
    (hbits1 : bm1.clusterBits=0) (hbits2 : bm2.clusterBits=0) (hstart : bm1.start=bm2.start)
    (hlast : bm1.last=bm2.last) {x : ℕ} (hx : bm1.start≤x) (hle : x≤bm1.last) :
    Alike bm1 bm2 x ↔ (bm1.Set x ↔ bm2.Set x) := by
  have hseen1 : bm1.Seen x ↔ bm1.Set x := by
    rw [Bmap.Seen,hbits1]
    exact ⟨fun h => h.2.2,fun h => ⟨hx,hle,h⟩⟩
  have hseen2 : bm2.Seen x ↔ bm2.Set x := by
    rw [Bmap.Seen,hbits2,←hstart,←hlast]
    exact ⟨fun h => h.2.2,fun h => ⟨hx,hle,h⟩⟩
  have hweight : bm1.weight x=bm2.weight x := by
    rw [Bmap.weight,Bmap.weight,hbits1,hbits2,hstart]
    rw [SameBackend] at hbackend
    split at hbackend
    · next h1 h2 => rw [h1,h2]; rfl
    · next h1 h2 => rw [h1,h2]; rfl
    · exact hbackend.elim
  rw [Alike,hseen1,hseen2]
  exact ⟨And.left,fun h => ⟨h,fun _ => hweight⟩⟩

/-- The comparison is right exactly if the tests of the last group tell whether the
bitmaps agree. For single blocks and the same backend this means that bitmaps which
agree on the last group agree everywhere. -/
theorem comparesRight_iff {neq : ℕ} (hneq : neq≠0) {bm1 bm2 : Bmap} (h1 : bm1.Valid)
    (h2 : bm2.Valid) (hmagic : bm1.magic=bm2.magic) (hstart : bm1.start=bm2.start)
    (hlast : bm1.last=bm2.last) :
    (ComparesRight neq bm1 bm2 ↔
      (Agree bm1 bm2 → ∀ x, LastGroup bm1 x → Alike bm1 bm2 x) ∧
        (¬Agree bm1 bm2 → ∃ x, LastGroup bm1 x ∧ ¬Alike bm1 bm2 x)) ∧
    (SameBackend bm1 bm2 → bm1.clusterBits=0 → bm2.clusterBits=0 →
      (ComparesRight neq bm1 bm2 ↔
        ((∀ x, LastGroup bm1 x → (bm1.Set x ↔ bm2.Set x)) → Agree bm1 bm2))) := by
  have hzero := compareGenericBmap_eq_zero hneq h1 h2 hmagic hstart hlast
  have hle := bm1.start_le_last
  constructor
  · rw [ComparesRight,hzero]
    constructor
    · intro h
      refine ⟨h.mpr,fun hdiffer => ?_⟩
      by_contra hno
      push Not at hno
      exact hdiffer (h.mp hno)
    · rintro ⟨hagree,hdiffer⟩
      refine ⟨fun hall => ?_,hagree⟩
      by_contra hno
      obtain ⟨x,hx,hne⟩ := hdiffer hno
      exact hne (hall x hx)
  · intro hbackend hbits1 hbits2
    have halike : (∀ x, LastGroup bm1 x → Alike bm1 bm2 x) ↔
        ∀ x, LastGroup bm1 x → (bm1.Set x ↔ bm2.Set x) := by
      refine forall_congr' fun x => imp_congr_right fun hx => ?_
      have hge := hx.1
      exact alike_iff_of_sameBackend hbackend hbits1 hbits2 hstart hlast (by omega) hx.2
    rw [ComparesRight,hzero,halike]
    refine ⟨Iff.mp,fun h => ⟨h,fun hagree x hx => ?_⟩⟩
    have hge := hx.1
    exact hagree x (by omega) hx.2

/-- The positions from 0 to this end, in an array of two bytes. -/
def arrayBmap (last : ℕ) (hlast : last<16) (bits : List UInt8) : Bmap where
  start := 0
  realEnd := 15
  start_le := Nat.zero_le 15
  realEnd_lt := by decide
  last := last
  start_le_last := Nat.zero_le last
  last_le := by omega
  magic := .block
  clusterBits := 0
  content := .bitarray bits

/-- Eight positions are all looked at. -/
theorem comparesRight_iff_eight :
    ComparesRight 1 (arrayBmap 7 (by decide) [1,0]) (arrayBmap 7 (by decide) [0,0]) := by
  have h1 : (arrayBmap 7 (by decide) [1,0]).Valid :=
    show [(1 : UInt8),0].length=arraySize 0 15 by decide
  have h2 : (arrayBmap 7 (by decide) [0,0]).Valid :=
    show [(0 : UInt8),0].length=arraySize 0 15 by decide
  refine ((comparesRight_iff Nat.one_ne_zero h1 h2 rfl rfl rfl).2 trivial rfl rfl).mpr ?_
  refine fun h x hx hle => h x ⟨?_,hle⟩
  have hstart : (7-(7-0)%8 : ℕ)=0 := by decide
  exact (Nat.le_of_eq hstart).trans (Nat.zero_le x)

/-- Of nine positions only the last is. -/
theorem not_comparesRight_nine :
    ¬ComparesRight 1 (arrayBmap 8 (by decide) [1,0]) (arrayBmap 8 (by decide) [0,0]) := by
  intro h
  have hset := (h.mp (by decide) 0 (Nat.zero_le 0) (Nat.zero_le 8)).mp
    (show bitAt [1,0] 0=true by decide)
  exact absurd hset (show ¬bitAt [0,0] 0=true by decide)

/-! ## Converting blocks to clusters -/

/-- What the conversion reads of `ext2_filsys`. -/
structure Filsys where
  /-- `cluster_ratio_bits`. -/
  clusterRatioBits : ℕ
  /-- `s_first_data_block`. -/
  firstDataBlock : ℕ
  /-- `ext2fs_blocks_count`. -/
  blocksCount : ℕ
  /-- `EXT2_CLUSTERS_PER_GROUP`. -/
  clustersPerGroup : ℕ
  /-- `group_desc_count`. -/
  groupDescCount : ℕ
  /-- `default_bitmap_type` leads to a tree. -/
  rbtree : Bool
  /-- The ratio is an `int`. -/
  ratio_lt : clusterRatioBits<31
  /-- There is a block. -/
  first_le : firstDataBlock>>>clusterRatioBits ≤ (blocksCount-1)>>>clusterRatioBits
  /-- The groups cover the blocks. -/
  covered : (blocksCount-1)>>>clusterRatioBits ≤
    clustersPerGroup*groupDescCount-1+firstDataBlock>>>clusterRatioBits
  /-- Positions fit into 64 bits. -/
  fits : clustersPerGroup*groupDescCount-1+firstDataBlock>>>clusterRatioBits+1<2^64

/-- `ext2fs_allocate_block_bitmap` for a 64-bit bitmap. -/
def allocateBlockBitmap (fs : Filsys) : Bmap :=
  let generic : GenericBitmap :=
    {start := fs.firstDataBlock>>>fs.clusterRatioBits
     realEnd := fs.clustersPerGroup*fs.groupDescCount-1+fs.firstDataBlock>>>fs.clusterRatioBits
     start_le := fs.first_le.trans fs.covered
     realEnd_lt := fs.fits
     last := (fs.blocksCount-1)>>>fs.clusterRatioBits
     start_le_last := fs.first_le
     last_le := fs.covered}
  {generic with
    magic := .block
    clusterBits := fs.clusterRatioBits
    content := if fs.rbtree then .rbtree rbAllocPrivateData else .bitarray (baNewBmap generic)}

/-- The bitmap with its end at `real_end`. -/
def Bmap.toRealEnd (bitmap : Bmap) : Bmap :=
  {bitmap with
    last := bitmap.realEnd
    start_le_last := bitmap.start_le
    last_le := Nat.le_refl _}

/-- The loop of `ext2fs_convert_subcluster_bitmap`; it results in the bitmap of
clusters. -/
def convertLoop (alloc : Allocator) (ratio : ℕ) : ℕ → Bmap → Bmap → ℕ → ℕ → Option Bmap
  | 0,_,_,_,_ => none
  | fuel+1,bmap,cmap,i,n =>
    if i<bmap.realEnd then
      let tested := testGenericBmap bmap i
      if tested.2≠0 then
        (markGenericBmap alloc cmap i).bind fun marked =>
          convertLoop alloc ratio fuel tested.1 marked ((i+(ratio-n))%2^64) 0
      else convertLoop alloc ratio fuel tested.1 cmap (i+1) (if ratio≤n+1 then 0 else n+1)
    else some cmap

/-- `ext2fs_convert_subcluster_bitmap`. -/
def convertSubclusterBitmap (alloc : Allocator) (fs : Filsys) (bitmap : Bmap) : Option Bmap :=
  if fs.clusterRatioBits=bitmap.clusterBits then some bitmap
  else
    let cmap := allocateBlockBitmap fs
    (convertLoop alloc (2^fs.clusterRatioBits) (bitmap.realEnd+1) bitmap.toRealEnd
      cmap.toRealEnd bitmap.start 0).map fun marked => {cmap with content := marked.content}

/-- A bitmap of single blocks from block 0 on. -/
structure SubclusterBitmap (fs : Filsys) extends Bmap where
  /-- It is well formed. -/
  valid : toBmap.Valid
  /-- It starts at block 0. -/
  start_eq : start=0
  /-- Its bits are single blocks. -/
  perBlock : clusterBits=0
  /-- Sums of a position and the size of a cluster fit into 64 bits. -/
  sums_fit : realEnd+2^fs.clusterRatioBits≤2^64

/-- The conversion results in a bitmap of clusters in which exactly the clusters of
set blocks are set. -/
def PreservesUsage (alloc : Allocator) (fs : Filsys) (bitmap : Bmap) : Prop :=
  ∃ result, convertSubclusterBitmap alloc fs bitmap=some result ∧
    result.clusterBits=fs.clusterRatioBits ∧
    ∀ c, (result.start≤c ∧ c≤result.realEnd ∧ result.Set c) ↔
      ∃ b≤bitmap.realEnd, b>>>fs.clusterRatioBits=c ∧ bitmap.Set b

theorem valid_allocateBlockBitmap (fs : Filsys) : (allocateBlockBitmap fs).Valid := by
  rw [Bmap.Valid,allocateBlockBitmap]
  dsimp only
  split
  · exact inv_rbAllocPrivateData
  · exact List.length_replicate

theorem not_set_allocateBlockBitmap (fs : Filsys) (c : ℕ) : ¬(allocateBlockBitmap fs).Set c := by
  rw [Bmap.Set,allocateBlockBitmap]
  dsimp only
  split
  · exact covers_nil _
  · rw [Private.Set,baNewBmap,bitAt_replicate_zero]
    exact Bool.false_ne_true

/-- A mark sets the bit of the cluster, if that is in the bitmap. -/
theorem markGenericBmap_spec (alloc : Allocator) {bitmap : Bmap} (h : bitmap.Valid) (arg : ℕ) :
    ∃ marked, markGenericBmap alloc bitmap arg=some marked ∧ marked.Valid ∧
      marked.toGenericBitmap=bitmap.toGenericBitmap ∧ marked.clusterBits=bitmap.clusterBits ∧
      ∀ x, bitmap.start≤x → x≤bitmap.last →
        (marked.Set x ↔ bitmap.Set x ∨ x=arg>>>bitmap.clusterBits) := by
  rw [markGenericBmap]
  split_ifs with hout
  · exact ⟨bitmap,rfl,h,rfl,rfl,fun x hge hle => ⟨Or.inl,fun hx => hx.resolve_right (by omega)⟩⟩
  · obtain ⟨generic,magic,clusterBits,content⟩ := bitmap
    cases content with
    | rbtree bp =>
      obtain ⟨bp',v,hbp',hinv,-,hbits⟩ :=
        @rbInsertExtent_spec alloc bp h (arg>>>clusterBits-generic.start) 1 Nat.one_pos
      refine ⟨⟨generic,magic,clusterBits,.rbtree bp'⟩,?_,hinv,rfl,rfl,fun x hge hle => ?_⟩
      · dsimp only [Private.markBmap,rbMarkBmap]
        rw [hbp']
        rfl
      · change Bits bp' (x-generic.start) ↔ Bits bp (x-generic.start) ∨ _
        rw [hbits]
        dsimp only at hout hge hle ⊢
        exact or_congr_right (by omega)
    | bitarray bits =>
      have hlength : bits.length=arraySize generic.start generic.realEnd := h
      refine ⟨⟨generic,magic,clusterBits,
        .bitarray (baMarkBmap generic.toBitmap bits (arg>>>clusterBits)).1⟩,rfl,?_,rfl,rfl,
        fun x hge hle => ?_⟩
      · exact (setBit64_length _ bits).trans hlength
      · change bitAt _ (x-generic.start)=true ↔ bitAt bits (x-generic.start)=true ∨ _
        have hlast := generic.last_le
        dsimp only at hout hge hle ⊢
        rw [baMarkBmap,bitAt_setBit64 (by rw [hlength,arraySize]; omega),Bool.or_eq_true,
          decide_eq_true_iff]
        exact or_congr_right (by omega)

/-- The positions from `i` to the end of its cluster are in the cluster of `i`. -/
theorem div_of_skip {ratio i b : ℕ} (hratio : 0<ratio) (hge : i≤b)
    (hlt : b < i+(ratio-i%ratio)) : b/ratio=i/ratio := by
  have hmod := Nat.mod_lt i hratio
  have hdiv := Nat.div_add_mod i ratio
  refine Nat.div_eq_of_lt_le ?_ ?_
  · rw [Nat.mul_comm]
    omega
  · rw [Nat.succ_mul,Nat.mul_comm]
    omega

theorem mod_of_skip {ratio : ℕ} (i : ℕ) (hratio : 0<ratio) : (i+(ratio-i%ratio))%ratio=0 := by
  have hmod := Nat.mod_lt i hratio
  have hdiv := Nat.div_add_mod i ratio
  have heq : i+(ratio-i%ratio)=ratio*(i/ratio+1) := by
    rw [Nat.mul_succ]
    omega
  rw [heq,Nat.mul_mod_right]

/-- The counter of the position in the cluster. -/
theorem mod_succ_counter {ratio : ℕ} (i : ℕ) (hratio : 0<ratio) :
    (if ratio ≤ i%ratio+1 then 0 else i%ratio+1)=(i+1)%ratio := by
  have hmod := Nat.mod_lt i hratio
  rw [←Nat.mod_add_mod]
  split_ifs with hend
  · have heq : i%ratio+1=ratio := by omega
    rw [heq,Nat.mod_self]
  · exact (Nat.mod_eq_of_lt (by omega)).symm

/-- The clusters of the set blocks before `i` and before `real_end` are set, and no
others. -/
def Marked (bits : ℕ) (bmap cmap : Bmap) (i : ℕ) : Prop :=
  ∀ c, cmap.start≤c → c≤cmap.last →
    (cmap.Set c ↔ ∃ b<bmap.realEnd, b < i ∧ b>>>bits=c ∧ bmap.Set b)

/-- A test does not change what is to be marked. -/
theorem Marked.same {bits i : ℕ} {bmap bmap' cmap : Bmap} (hsame : Same bmap bmap') :
    Marked bits bmap' cmap i ↔ Marked bits bmap cmap i := by
  rw [Marked,Marked,hsame.generic]
  refine forall_congr' fun c => imp_congr_right fun _ => imp_congr_right fun _ => ?_
  refine iff_congr Iff.rfl (exists_congr fun b => ?_)
  rw [hsame.set]

/-- Nothing is to be marked for a clear block. -/
theorem Marked.succ {bits i : ℕ} {bmap cmap : Bmap} (h : Marked bits bmap cmap i)
    (hclear : ¬bmap.Set i) : Marked bits bmap cmap (i+1) := by
  intro c hge hle
  rw [h c hge hle]
  constructor
  · rintro ⟨b,hlt,hb,hset⟩
    exact ⟨b,hlt,by omega,hset⟩
  · rintro ⟨b,hlt,hb,hc,hset⟩
    have hne : b≠i := fun heq => hclear (heq ▸ hset)
    exact ⟨b,hlt,by omega,hc,hset⟩

/-- The mark for a set block settles the rest of its cluster. -/
theorem Marked.skip {bits i : ℕ} {bmap cmap cmap' : Bmap} (h : Marked bits bmap cmap i)
    (hend : i<bmap.realEnd) (hset : bmap.Set i)
    (hgeneric : cmap'.toGenericBitmap=cmap.toGenericBitmap)
    (hbits : ∀ x, cmap.start≤x → x≤cmap.last → (cmap'.Set x ↔ cmap.Set x ∨ x=i>>>bits)) :
    Marked bits bmap cmap' (i+(2^bits-i%2^bits)) := by
  have hratio : 0<2^bits := Nat.two_pow_pos bits
  have hmod := Nat.mod_lt i hratio
  rw [Marked,hgeneric]
  intro c hge hle
  rw [hbits c hge hle,h c hge hle]
  constructor
  · rintro (⟨b,hlt,hb,hrest⟩|rfl)
    · exact ⟨b,hlt,by omega,hrest⟩
    · exact ⟨i,hend,by omega,rfl,hset⟩
  · rintro ⟨b,hlt,hb,hc,hbset⟩
    by_cases hbefore : b < i
    · exact Or.inl ⟨b,hlt,hbefore,hc,hbset⟩
    · refine Or.inr (hc.symm.trans ?_)
      rw [Nat.shiftRight_eq_div_pow,Nat.shiftRight_eq_div_pow]
      exact div_of_skip hratio (Nat.not_lt.mp hbefore) hb

/-- The loop marks the clusters of the set blocks before `real_end`. -/
theorem convertLoop_spec (alloc : Allocator) {bits fuel i : ℕ} {bmap cmap : Bmap}
    (hb : bmap.Valid) (hc : cmap.Valid) (hstart : bmap.start=0) (hlast : bmap.last=bmap.realEnd)
    (hblocks : bmap.clusterBits=0) (hclusters : cmap.clusterBits=bits)
    (hfits : bmap.realEnd+2^bits≤2^64) (hfuel : bmap.realEnd-i < fuel)
    (hmarked : Marked bits bmap cmap i) :
    ∃ marked, convertLoop alloc (2^bits) fuel bmap cmap i (i%2^bits)=some marked ∧
      marked.toGenericBitmap=cmap.toGenericBitmap ∧ Marked bits bmap marked bmap.realEnd := by
  have hratio : 0<2^bits := Nat.two_pow_pos bits
  have hmod := Nat.mod_lt i hratio
  induction fuel generalizing bmap cmap i with
  | zero => omega
  | succ fuel ih =>
    rw [convertLoop]
    by_cases hend : i<bmap.realEnd
    · rw [if_pos hend]
      dsimp only
      obtain ⟨hsame,hvalue⟩ := testGenericBmap_spec hb i
      have hpos := weight_pos bmap i
      have hseen : bmap.Seen i ↔ bmap.Set i := by
        rw [Bmap.Seen,hblocks,hstart,hlast,Nat.shiftRight_zero]
        exact ⟨fun h => h.2.2,fun h => ⟨Nat.zero_le i,hend.le,h⟩⟩
      have hgeneric := hsame.generic
      have hrest : ∀ {cmap' : Bmap} {j : ℕ}, cmap'.Valid → cmap'.clusterBits=bits →
          bmap.realEnd-j < fuel → Marked bits bmap cmap' j →
          ∃ marked, convertLoop alloc (2^bits) fuel (testGenericBmap bmap i).1 cmap' j
              (j%2^bits)=some marked ∧
            marked.toGenericBitmap=cmap'.toGenericBitmap ∧
            Marked bits bmap marked bmap.realEnd := by
        intro cmap' j hc' hclusters' hfuel' hmarked'
        obtain ⟨marked,hloop,hgen,hall⟩ := @ih j (testGenericBmap bmap i).1 cmap'
          (hsame.valid hb) hc' (by rw [hgeneric]; exact hstart) (by rw [hgeneric]; exact hlast)
          (hsame.clusterBits.trans hblocks) hclusters' (by rw [hgeneric]; exact hfits)
          (by rw [hgeneric]; exact hfuel') ((Marked.same hsame).mpr hmarked')
          (Nat.mod_lt j hratio)
        rw [hgeneric] at hall
        exact ⟨marked,hloop,hgen,(Marked.same hsame).mp hall⟩
      by_cases hset : bmap.Set i
      · rw [if_pos (by rw [hvalue,if_pos (hseen.mpr hset)]; omega)]
        obtain ⟨cmap',hmark,hc',hgen,hbits',hset'⟩ := markGenericBmap_spec alloc hc i
        rw [hclusters] at hset'
        have hwrap : (i+(2^bits-i%2^bits))%2^64=i+(2^bits-i%2^bits) :=
          Nat.mod_eq_of_lt (by omega)
        rw [hmark,Option.bind_some,hwrap]
        obtain ⟨marked,hloop,hgen',hall⟩ := hrest hc' (hbits'.trans hclusters) (by omega)
          (hmarked.skip hend hset hgen hset')
        rw [mod_of_skip i hratio] at hloop
        exact ⟨marked,hloop,hgen'.trans hgen,hall⟩
      · rw [if_neg (not_not.mpr (by rw [hvalue,if_neg (fun h => hset (hseen.mp h))])),
          mod_succ_counter i hratio]
        exact hrest hc hclusters (by omega) (hmarked.succ hset)
    · rw [if_neg hend]
      refine ⟨cmap,rfl,rfl,fun c hge hle => (hmarked c hge hle).trans ?_⟩
      exact exists_congr fun b => and_congr_right fun hlt =>
        and_congr_left fun _ => ⟨fun _ => hlt,fun _ => by omega⟩

/-- The converted bitmap has set exactly the clusters of set blocks, if each set block
is in a cluster of it and `real_end` is not the only set block of its cluster. Where
the bits are of the size of clusters already, nothing is converted. -/
theorem preservesUsage_iff (alloc : Allocator) (fs : Filsys) (bitmap : SubclusterBitmap fs) :
    PreservesUsage alloc fs bitmap.toBmap ↔
      (fs.clusterRatioBits≠0 →
        (∀ b≤bitmap.realEnd, bitmap.Set b →
          (allocateBlockBitmap fs).start≤b>>>fs.clusterRatioBits ∧
            b>>>fs.clusterRatioBits≤(allocateBlockBitmap fs).realEnd) ∧
        (bitmap.Set bitmap.realEnd → ∃ b<bitmap.realEnd,
          b>>>fs.clusterRatioBits=bitmap.realEnd>>>fs.clusterRatioBits ∧ bitmap.Set b)) := by
  rw [PreservesUsage,convertSubclusterBitmap,bitmap.perBlock]
  by_cases hzero : fs.clusterRatioBits=0
  · rw [if_pos hzero]
    refine ⟨fun _ h => absurd hzero h,fun _ => ⟨_,rfl,bitmap.perBlock.trans hzero.symm,fun c => ?_⟩⟩
    rw [hzero,bitmap.start_eq]
    constructor
    · rintro ⟨-,hle,hset⟩
      exact ⟨c,hle,rfl,hset⟩
    · rintro ⟨b,hle,rfl,hset⟩
      exact ⟨Nat.zero_le _,hle,hset⟩
  · rw [if_neg hzero]
    have hvalid := valid_allocateBlockBitmap fs
    have hclear := not_set_allocateBlockBitmap fs
    have hclusters : (allocateBlockBitmap fs).clusterBits=fs.clusterRatioBits := rfl
    generalize allocateBlockBitmap fs=cmap at hvalid hclear hclusters ⊢
    obtain ⟨marked,hloop,hgeneric,hall⟩ := @convertLoop_spec alloc fs.clusterRatioBits
      (bitmap.realEnd+1) 0 bitmap.toRealEnd cmap.toRealEnd bitmap.valid hvalid bitmap.start_eq rfl
      bitmap.perBlock hclusters bitmap.sums_fit (Nat.lt_succ_of_le (Nat.sub_le _ _))
      (fun c _ _ => ⟨fun h => absurd h (hclear c),fun ⟨b,_,hlt,_⟩ => absurd hlt (Nat.not_lt_zero b)⟩)
    rw [Nat.zero_mod] at hloop
    dsimp only
    rw [bitmap.start_eq,hloop,Option.map_some]
    have hstart : marked.start=cmap.start := by rw [hgeneric]; rfl
    have hset : ∀ c, cmap.start≤c → c≤cmap.realEnd →
        (marked.content.Set cmap.start c ↔
          ∃ b<bitmap.realEnd, b>>>fs.clusterRatioBits=c ∧ bitmap.Set b) := by
      intro c hge hle
      have hc := hall c (by rw [hstart]; exact hge) (by rw [hgeneric]; exact hle)
      rw [Bmap.Set,hstart] at hc
      refine hc.trans (exists_congr fun b => and_congr_right fun hlt => ?_)
      exact ⟨And.right,fun h => ⟨hlt,h⟩⟩
    constructor
    · rintro ⟨result,hresult,-,hbits⟩ -
      cases hresult
      refine ⟨fun b hle hb => ?_,fun hb => ?_⟩
      · have hin := (hbits (b>>>fs.clusterRatioBits)).mpr ⟨b,hle,rfl,hb⟩
        exact ⟨hin.1,hin.2.1⟩
      · obtain ⟨hge,hle,hmarked⟩ := (hbits (bitmap.realEnd>>>fs.clusterRatioBits)).mpr
          ⟨bitmap.realEnd,Nat.le_refl _,rfl,hb⟩
        exact (hset _ hge hle).mp hmarked
    · intro h
      obtain ⟨hrange,hlast⟩ := h hzero
      refine ⟨_,rfl,hclusters,fun c => ⟨?_,?_⟩⟩
      · rintro ⟨hge,hle,hmarked⟩
        obtain ⟨b,hlt,hc,hb⟩ := (hset c hge hle).mp hmarked
        exact ⟨b,hlt.le,hc,hb⟩
      · rintro ⟨b,hle,rfl,hb⟩
        obtain ⟨hge,hle'⟩ := hrange b hle hb
        refine ⟨hge,hle',(hset _ hge hle').mpr ?_⟩
        by_cases hend : b=bitmap.realEnd
        · rw [hend] at hb ⊢
          exact hlast hb
        · exact ⟨b,by omega,rfl,hb⟩

/-- Sixteen blocks in clusters of two. -/
def pairedBlocks : Filsys where
  clusterRatioBits := 1
  firstDataBlock := 0
  blocksCount := 16
  clustersPerGroup := 8
  groupDescCount := 1
  rbtree := false
  ratio_lt := by decide
  first_le := by decide
  covered := by decide
  fits := by decide

/-- Of the blocks the last is set. -/
def lastBlockSet : SubclusterBitmap pairedBlocks where
  toBmap := arrayBmap 15 (by decide) [0,0x80]
  valid := show [(0 : UInt8),0x80].length=arraySize 0 15 by decide
  start_eq := rfl
  perBlock := rfl
  sums_fit := by decide

/-- Its cluster is not. -/
theorem not_preservesUsage_last :
    ¬PreservesUsage bumpAllocator pairedBlocks lastBlockSet.toBmap := by
  rintro ⟨result,hconvert,-,hbits⟩
  have hset := (hbits 7).mpr ⟨15,Nat.le_refl 15,rfl,show bitAt [0,0x80] 15=true by decide⟩
  have hconverted : convertSubclusterBitmap bumpAllocator pairedBlocks lastBlockSet.toBmap=
      some {allocateBlockBitmap pairedBlocks with content := .bitarray [0]} := by rfl
  rw [hconverted,Option.some.injEq] at hconvert
  rw [←hconvert] at hset
  exact absurd hset.2.2 (show ¬bitAt [0] 7=true by decide)

end AndroidPlatform.GenericBitmaps
