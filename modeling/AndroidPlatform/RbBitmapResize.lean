import AndroidPlatform.BaBitmap
import AndroidPlatform.RbBitmapRefinement

/-!
# Resizing a bitmap

The red-black tree backend cuts the tree only when the bitmap shrinks, and it
cuts it at `new_real_end` although positions are relative to the start. No bit
of the new range is removed by that, but none is cleared either, so that
padding bits become bits of a bitmap that grows. The bit array backend clears
them first.
-/

namespace AndroidPlatform.RbBitmap

open RbTree BaBitmap Bitops

/-- `rb_truncate`. -/
def rbTruncate (newMax : ℕ) : ℕ → RbPrivate → Option RbPrivate
  | 0,_ => none
  | fuel+1,bp =>
    match last bp.root with
    | none => some bp
    | some node =>
      let ext := bp.extent node
      if ext.start+ext.count-1≤newMax then some bp
      else if newMax<ext.start then
        (erase node bp.root).bind fun root => rbTruncate newMax fuel {bp with root := root}
      else rbTruncate newMax fuel (bp.write node ⟨ext.start,newMax-ext.start+1⟩)

/-- `rb_resize_bmap`. A node is looked at again after its extent was cut. -/
def rbResizeBmap (bitmap : GenericBitmap) (bp : RbPrivate) (size : NewSize bitmap) :
    Option (GenericBitmap×RbPrivate) :=
  if bitmap.realEnd ≤ size.newRealEnd then some (bitmap.resize size,bp)
  else
    (rbTruncate size.newRealEnd (bp.root.inorder.length+2)
      {bp with rcursor := none, wcursor := none}).map fun bp => (bitmap.resize size,bp)

/-- `ext2fs_set_generic_bmap_padding` with this backend; the count is passed as
an unsigned int. -/
def rbSetBmapPadding (alloc : Allocator) (bitmap : GenericBitmap) (bp : RbPrivate) :
    Option RbPrivate :=
  rbMarkBmapExtent alloc bitmap.toBitmap bp (bitmap.last+1) ((bitmap.realEnd-bitmap.last)%2^32)

/-- Erasing the last extent while no pointer is cached. -/
theorem Inv.erase_last {bp : RbPrivate} (h : Inv bp) (hw : bp.wcursor=none)
    (hr : bp.rcursor=none) {l : List ℕ} {p : ℕ} (hin : bp.root.inorder=l++[p]) :
    ∃ root, RbTree.erase p bp.root=some root ∧ root.inorder=l ∧ Inv {bp with root := root} := by
  obtain ⟨root,herase,hrb,hroot⟩ := h.rb.erase hin h.sorted.nodup
  rw [List.append_nil] at hroot
  have hsub : l.Sublist bp.root.inorder := by
    rw [hin]
    exact List.sublist_append_left l [p]
  refine ⟨root,herase,hroot,hrb,?_,?_,?_,?_⟩
  · change Sorted bp.extent root.inorder
    rw [hroot]
    exact h.sorted.sublist hsub
  · intro q hq
    rw [hw] at hq
    cases hq
  · intro q hq
    rw [hr] at hq
    cases hq
  · intro q q' hq
    rw [hr] at hq
    cases hq

/-- `rb_truncate` keeps the bits up to the limit. -/
theorem rbTruncate_spec {newMax fuel : ℕ} {bp : RbPrivate} (h : Inv bp) (hw : bp.wcursor=none)
    (hr : bp.rcursor=none) (hfuel : bp.root.inorder.length+2≤fuel) :
    ∃ bp', rbTruncate newMax fuel bp=some bp' ∧ Inv bp' ∧
      ∀ b, Bits bp' b ↔ Bits bp b ∧ b≤newMax := by
  induction hlist : bp.root.inorder using List.reverseRecOn generalizing bp fuel with
  | nil =>
    obtain ⟨fuel,rfl⟩ : ∃ n, fuel=n+1 := ⟨fuel-1,by omega⟩
    refine ⟨bp,by rw [rbTruncate,last_eq,hlist]; rfl,h,?_⟩
    intro b
    have hnone : ¬Bits bp b := by
      rw [Bits,hlist]
      exact covers_nil b
    exact ⟨fun hb => absurd hb hnone,fun hb => absurd hb.1 hnone⟩
  | append_singleton l p ih =>
    obtain ⟨fuel,rfl⟩ : ∃ n, fuel=n+2 := ⟨fuel-2,by omega⟩
    have haround := h.around hlist
    have hpos := h.sorted.positive p (by rw [hlist]; simp)
    rw [rbTruncate,last_eq,hlist,List.getLast?_concat]
    dsimp only
    by_cases hkeep : (bp.extent p).start+(bp.extent p).count-1≤newMax
    · rw [if_pos hkeep]
      refine ⟨bp,rfl,h,?_⟩
      intro b
      refine ⟨fun hb => ⟨hb,?_⟩,And.left⟩
      rcases (haround.bits b).mp hb with hb|hb|hb
      · have hb' := haround.left b hb
        omega
      · have hb' := hb.2
        simp only [Extent.stop] at hb'
        omega
      · exact absurd hb (covers_nil b)
    · rw [if_neg hkeep]
      by_cases hbeyond : newMax<(bp.extent p).start
      · rw [if_pos hbeyond]
        obtain ⟨root,herase,hroot,hinv⟩ := h.erase_last hw hr hlist
        obtain ⟨bp',hbp',hinv',hbits'⟩ := @ih (fuel+1) {bp with root := root} hinv hw hr
          (by
            change root.inorder.length+2≤_
            rw [hlist,List.length_append,List.length_singleton] at hfuel
            rw [hroot]
            omega) hroot
        refine ⟨bp',by rw [herase]; exact hbp',hinv',?_⟩
        intro b
        rw [hbits',haround.bits,Bits]
        change Covers bp.extent root.inorder b ∧ _ ↔ _
        rw [hroot]
        constructor
        · exact fun hb => ⟨Or.inl hb.1,hb.2⟩
        · rintro ⟨hb|hb|hb,hle⟩
          · exact ⟨hb,hle⟩
          · have hb' := hb.1
            omega
          · exact absurd hb (covers_nil b)
      · rw [if_neg hbeyond]
        have hshrink := @Inv.shrink bp h l [] p hlist
          ⟨(bp.extent p).start,newMax-(bp.extent p).start+1⟩ (Nat.succ_pos _) (Nat.le_refl _)
          (by simp only [Extent.stop]; omega)
        refine ⟨_,?_,hshrink.1,?_⟩
        · rw [rbTruncate]
          change (match last bp.root with
            | none => _
            | some node => _)=_
          rw [last_eq,hlist,List.getLast?_concat]
          dsimp only
          rw [if_pos]
          simp only [RbPrivate.write,Function.update_self]
          omega
        · intro b
          rw [hshrink.2,haround.bits]
          simp only [Extent.Has,Extent.stop,covers_nil,or_false]
          constructor
          · rintro (hb|hb)
            · have hb' := haround.left b hb
              exact ⟨Or.inl hb,by omega⟩
            · exact ⟨Or.inr (by omega),by omega⟩
          · rintro ⟨hb|hb,hle⟩
            · exact Or.inl hb
            · exact Or.inr (by omega)

/-- `rb_resize_bmap` keeps every bit of the new range. -/
theorem rbResizeBmap_spec {bitmap : GenericBitmap} {bp : RbPrivate} (h : Inv bp)
    (size : NewSize bitmap) :
    ∃ bp', rbResizeBmap bitmap bp size=some (bitmap.resize size,bp') ∧ Inv bp' ∧
      ∀ b, Bits bp' b ↔ Bits bp b ∧ (bitmap.realEnd ≤ size.newRealEnd ∨ b ≤ size.newRealEnd) := by
  rw [rbResizeBmap]
  by_cases hgrow : bitmap.realEnd ≤ size.newRealEnd
  · rw [if_pos hgrow]
    exact ⟨bp,rfl,h,fun b => ⟨fun hb => ⟨hb,Or.inl hgrow⟩,And.left⟩⟩
  · rw [if_neg hgrow]
    have hclear : Inv {bp with rcursor := none, wcursor := none} :=
      ⟨h.rb,h.sorted,(fun _ hp => by cases hp),(fun _ hp => by cases hp),
        fun _ _ hp => by cases hp⟩
    obtain ⟨bp',hbp',hinv,hbits⟩ := @rbTruncate_spec size.newRealEnd (bp.root.inorder.length+2) _
      hclear rfl rfl (Nat.le_refl _)
    refine ⟨bp',by rw [hbp']; rfl,hinv,?_⟩
    intro b
    rw [hbits]
    exact and_congr_right fun _ => ⟨Or.inr,fun hb => hb.resolve_left hgrow⟩

/-- The same bits from `start` to `real_end` in both backends. -/
structure SameContent (bitmap : GenericBitmap) (bp : RbPrivate) (bitarray : List UInt8) :
    Prop where
  /-- The tree keeps the invariant of its backend. -/
  inv : Inv bp
  /-- The array has the size of the bitmap. -/
  length : bitarray.length=arraySize bitmap.start bitmap.realEnd
  /-- Each bit is set in both or in none. -/
  bits : ∀ x, bitmap.start≤x → x≤bitmap.realEnd →
    (Bits bp (x-bitmap.start) ↔ bitAt bitarray (x-bitmap.start)=true)

/-- After `resize_bmap` both backends have the same bits from `start` to
`new_end`: the old ones up to the old end, and no others. -/
def ResizedAlike (bitmap : GenericBitmap) (bp : RbPrivate) (bitarray : List UInt8)
    (size : NewSize bitmap) : Prop :=
  ∃ bp', rbResizeBmap bitmap bp size=some (bitmap.resize size,bp') ∧
    (baResizeBmap bitmap bitarray size).1=bitmap.resize size ∧
    ∀ x, bitmap.start≤x → x ≤ size.newEnd →
      ((rbTestBmap (bitmap.resize size).toBitmap bp' x).2=true ↔
        x≤bitmap.last ∧ bitAt bitarray (x-bitmap.start)=true) ∧
      (baTestBmap (bitmap.resize size).toBitmap (baResizeBmap bitmap bitarray size).2 x≠0 ↔
        x≤bitmap.last ∧ bitAt bitarray (x-bitmap.start)=true)

theorem baResizeBmap_bitmap (bitmap : GenericBitmap) (bitarray : List UInt8)
    (size : NewSize bitmap) : (baResizeBmap bitmap bitarray size).1=bitmap.resize size := by
  rw [baResizeBmap]
  split <;> rfl

/-- One bit after `rb_resize_bmap`. -/
theorem rbTestBmap_resized {bitmap : GenericBitmap} {bp bp' : RbPrivate} {size : NewSize bitmap}
    (hinv : Inv bp')
    (hbits : ∀ b, Bits bp' b ↔
      Bits bp b ∧ (bitmap.realEnd ≤ size.newRealEnd ∨ b ≤ size.newRealEnd)) {x : ℕ}
    (hend : x ≤ size.newEnd) :
    (rbTestBmap (bitmap.resize size).toBitmap bp' x).2=true ↔ Bits bp (x-bitmap.start) := by
  have htest := (@rbTestBit_tested bp' (x-bitmap.start) hinv).value
  have hle := size.newEnd_le
  rw [rbTestBmap]
  refine (htest.trans (hbits _)).trans ⟨And.left,fun hb => ⟨hb,Or.inr (by omega)⟩⟩

/-- Resizing agrees exactly if no bit between the old and the new end is set
before: no padding bit, and no bit behind `real_end` that an earlier resizing
left in the tree or in the last byte of the array. -/
theorem resizedAlike_iff {bitmap : GenericBitmap} {bp : RbPrivate} {bitarray : List UInt8}
    (h : SameContent bitmap bp bitarray) (size : NewSize bitmap) :
    ResizedAlike bitmap bp bitarray size ↔
      ∀ x, bitmap.last<x → x ≤ size.newEnd → ¬Bits bp (x-bitmap.start) ∧
        (bitmap.realEnd<x → bitAt bitarray (x-bitmap.start)=false) := by
  obtain ⟨bp',hresize,hinv,hbits⟩ := rbResizeBmap_spec h.inv size
  have hstart := bitmap.start_le_last
  have hlast := bitmap.last_le
  have hrb := fun x (hend : x ≤ size.newEnd) =>
    @rbTestBmap_resized bitmap bp bp' size hinv hbits x hend
  have hba : ∀ x, bitmap.start≤x → x ≤ size.newEnd →
      (baTestBmap (bitmap.resize size).toBitmap (baResizeBmap bitmap bitarray size).2 x≠0 ↔
        bitAt bitarray (x-bitmap.start)=true ∧ ¬(bitmap.last<x ∧ x≤bitmap.realEnd)) := by
    intro x hx hend
    have hbit := baResizeBmap_bits h.length size hx hend
    rw [baTestBmap,testBit64_ne_zero]
    change bitAt _ (x-bitmap.start)=true ↔ _
    rw [hbit,Bool.and_eq_true,Bool.not_eq_true',decide_eq_false_iff_not]
  constructor
  · rintro ⟨bp1,hresize1,-,hall⟩ x hx hend
    rw [hresize,Option.some.injEq,Prod.mk.injEq] at hresize1
    obtain ⟨-,rfl⟩ := hresize1
    obtain ⟨htree,harray⟩ := hall x (by omega) hend
    constructor
    · intro hbit
      have hle := (htree.mp ((hrb x hend).mpr hbit)).1
      omega
    · intro hreal
      by_contra hbit
      have hset := (hba x (by omega) hend).mpr ⟨Bool.eq_true_of_not_eq_false hbit,by omega⟩
      have hle := (harray.mp hset).1
      omega
  · intro hclear
    refine ⟨bp',hresize,baResizeBmap_bitmap bitmap bitarray size,?_⟩
    intro x hx hend
    rw [hrb x hend,hba x hx hend]
    by_cases hle : x≤bitmap.last
    · rw [h.bits x hx (by omega)]
      exact ⟨⟨fun hbit => ⟨hle,hbit⟩,And.right⟩,
        ⟨fun hbit => ⟨hle,hbit.1⟩,fun hbit => ⟨hbit.2,by omega⟩⟩⟩
    · obtain ⟨htree,harray⟩ := hclear x (by omega) hend
      refine ⟨⟨fun hbit => absurd hbit htree,fun hbit => absurd hbit.1 hle⟩,?_,
        fun hbit => absurd hbit.1 hle⟩
      rintro ⟨hbit,hout⟩
      rw [harray (by omega)] at hbit
      cases hbit

instance (bp : RbPrivate) (b : ℕ) : Decidable (Bits bp b) :=
  inferInstanceAs (Decidable (∃ p∈bp.root.inorder, (bp.extent p).Has b))

/-- Ten bits, and six bits of padding. -/
def paddedBitmap : GenericBitmap where
  start := 1
  last := 10
  realEnd := 16
  start_le := by decide
  realEnd_lt := by decide
  start_le_last := by decide
  last_le := by decide

/-- Two bits more in the same space. -/
def grownSize : NewSize paddedBitmap where
  newEnd := 12
  newRealEnd := 16
  start_le := by decide
  newEnd_le := by decide
  newRealEnd_lt := by decide

/-- The tree of a bitmap with one bit set. -/
def singleTree : RbPrivate := (run bumpAllocator paddedBitmap.toBitmap [.markBmap 3]).getD
  rbAllocPrivateData

/-- The array of a bitmap with one bit set. -/
def singleArray : List UInt8 := (baMarkBmap paddedBitmap.toBitmap (baNewBmap paddedBitmap) 3).1

/-- Without padding the bitmap grows alike in both backends. -/
theorem resizedAlike_single : ResizedAlike paddedBitmap singleTree singleArray grownSize := by
  obtain ⟨bp,hrun,hinv,-⟩ := run_spec bumpAllocator paddedBitmap.toBitmap
    (by decide : ∀ op∈[Op.markBmap 3], op.Valid paddedBitmap.toBitmap)
  have htree : singleTree=bp := by rw [singleTree,hrun,Option.getD_some]
  have hbits : ∀ x<17, 1≤x → (Bits singleTree (x-1) ↔ bitAt singleArray (x-1)=true) := by decide
  have hclear : ∀ x<13, 10<x → ¬Bits singleTree (x-1) := by decide
  refine (resizedAlike_iff ⟨htree ▸ hinv,by decide,?_⟩ grownSize).mpr ?_
  · intro x hx hle
    change x≤16 at hle
    exact hbits x (by omega) hx
  · intro x hx hle
    change x≤12 at hle
    refine ⟨hclear x (by omega) hx,fun hreal => ?_⟩
    change 16<x at hreal
    omega

/-- The tree of the empty bitmap with its padding set. -/
def paddedTree : RbPrivate :=
  (rbSetBmapPadding bumpAllocator paddedBitmap rbAllocPrivateData).getD rbAllocPrivateData

/-- The array of the empty bitmap with its padding set. -/
def paddedArray : List UInt8 := baSetBmapPadding paddedBitmap (baNewBmap paddedBitmap)

/-- With the tree the padding becomes bits of the bitmap, with the array it is
cleared. -/
theorem not_resizedAlike_padded :
    (rbSetBmapPadding bumpAllocator paddedBitmap rbAllocPrivateData).isSome=true ∧
      (∀ x, 1≤x → x≤16 → ((rbTestBmap paddedBitmap.toBitmap paddedTree x).2=true ↔
        baTestBmap paddedBitmap.toBitmap paddedArray x≠0)) ∧
      ¬ResizedAlike paddedBitmap paddedTree paddedArray grownSize := by
  refine ⟨by decide,?_,?_⟩
  · have hall : ∀ x<17, 1≤x → ((rbTestBmap paddedBitmap.toBitmap paddedTree x).2=true ↔
        baTestBmap paddedBitmap.toBitmap paddedArray x≠0) := by decide
    exact fun x hx hle => hall x (by omega) hx
  · rintro ⟨bp',hresize,-,hall⟩
    have hsame : rbResizeBmap paddedBitmap paddedTree grownSize=
        some (paddedBitmap.resize grownSize,paddedTree) := if_pos (by decide)
    rw [hsame,Option.some.injEq,Prod.mk.injEq] at hresize
    obtain ⟨-,rfl⟩ := hresize
    have hset : (rbTestBmap (paddedBitmap.resize grownSize).toBitmap paddedTree 11).2=true := by
      decide
    have hle := ((hall 11 (by decide) (by decide)).1.mp hset).1
    exact absurd hle (by decide)

end AndroidPlatform.RbBitmap
