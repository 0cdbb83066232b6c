import AndroidPlatform.Bitops
import AndroidPlatform.RbBitmap

/-!
# The bit array backend of the 64-bit bitmaps

The bits from `start` to `real_end` stand in an array of bytes of the smallest
size. Bits of the last byte behind `real_end` belong to no position of the
bitmap, but they are kept and come back when the bitmap grows.
-/

namespace AndroidPlatform.BaBitmap

open WireBytes Bitops

/-- The generic part of a bitmap with its `end`. The bits from there to
`real_end` are padding. -/
structure GenericBitmap extends RbBitmap.Bitmap where
  /-- `end`. -/
  last : ℕ
  /-- The bitmap has a bit. -/
  start_le_last : start ≤ last
  /-- `end` is not behind `real_end`. -/
  last_le : last≤realEnd

/-- The arguments of `resize_bmap`. -/
structure NewSize (bitmap : GenericBitmap) where
  /-- `new_end`. -/
  newEnd : ℕ
  /-- `new_real_end`. -/
  newRealEnd : ℕ
  /-- The resized bitmap has a bit. -/
  start_le : bitmap.start≤newEnd
  /-- `new_end` is not behind `new_real_end`. -/
  newEnd_le : newEnd≤newRealEnd
  /-- Positions and sums of them fit into 64 bits. -/
  newRealEnd_lt : newRealEnd+1<2^64

/-- The generic part after `resize_bmap`. -/
def GenericBitmap.resize (bitmap : GenericBitmap) (size : NewSize bitmap) : GenericBitmap where
  start := bitmap.start
  realEnd := size.newRealEnd
  last := size.newEnd
  start_le := Nat.le_trans size.start_le size.newEnd_le
  realEnd_lt := size.newRealEnd_lt
  start_le_last := size.start_le
  last_le := size.newEnd_le

/-- The size of the array in bytes. -/
def arraySize (start realEnd : ℕ) : ℕ := (realEnd-start)/8+1

/-- `ba_new_bmap`. -/
def baNewBmap (bitmap : GenericBitmap) : List UInt8 :=
  List.replicate (arraySize bitmap.start bitmap.realEnd) 0

/-- `ba_mark_bmap`. -/
def baMarkBmap (bitmap : RbBitmap.Bitmap) (bitarray : List UInt8) (arg : ℕ) : List UInt8×UInt8 :=
  setBit64 (arg-bitmap.start) bitarray

/-- `ba_unmark_bmap`. -/
def baUnmarkBmap (bitmap : RbBitmap.Bitmap) (bitarray : List UInt8) (arg : ℕ) :
    List UInt8×UInt8 := clearBit64 (arg-bitmap.start) bitarray

/-- `ba_test_bmap`. -/
def baTestBmap (bitmap : RbBitmap.Bitmap) (bitarray : List UInt8) (arg : ℕ) : UInt8 :=
  testBit64 (arg-bitmap.start) bitarray

/-- `ba_mark_bmap_extent`. -/
def baMarkBmapExtent (bitmap : RbBitmap.Bitmap) (bitarray : List UInt8) (arg : ℕ) :
    ℕ → List UInt8
  | 0 => bitarray
  | num+1 => fastSetBit64 (arg+num-bitmap.start) (baMarkBmapExtent bitmap bitarray arg num)

/-- `ext2fs_set_generic_bmap_padding` with this backend; the count is passed as
an unsigned int. -/
def baSetBmapPadding (bitmap : GenericBitmap) (bitarray : List UInt8) : List UInt8 :=
  baMarkBmapExtent bitmap.toBitmap bitarray (bitmap.last+1) ((bitmap.realEnd-bitmap.last)%2^32)

/-- The loop of `ba_resize_bmap` that clears the bits from `bitno` down to the
one behind `end`. -/
def clearTail (start last : ℕ) : ℕ → List UInt8 → List UInt8
  | 0,bitarray => bitarray
  | bitno+1,bitarray =>
    if last<bitno+1 then clearTail start last bitno (clearBit64 (bitno+1-start) bitarray).1
    else bitarray

/-- `ext2fs_resize_mem` followed by `memset` on what is new. -/
def resizeArray (bitarray : List UInt8) (newSize : ℕ) : List UInt8 :=
  bitarray.take newSize++List.replicate (newSize-bitarray.length) 0

/-- `ba_resize_bmap`. -/
def baResizeBmap (bitmap : GenericBitmap) (bitarray : List UInt8) (size : NewSize bitmap) :
    GenericBitmap×List UInt8 :=
  let cleared :=
    if bitmap.last < size.newEnd then
      clearTail bitmap.start bitmap.last (min bitmap.realEnd size.newEnd) bitarray
    else bitarray
  if size.newRealEnd=bitmap.realEnd then (bitmap.resize size,cleared)
  else (bitmap.resize size,resizeArray cleared (arraySize bitmap.start size.newRealEnd))

/-- `ba_set_bmap_range`, if it stays inside the buffers. -/
def baSetBmapRange (bitarray : List UInt8) (start num : ℕ) (input : List UInt8) :
    Option (List UInt8) := memcpy bitarray (start/8) input ((num+7)/8)

/-- `ba_get_bmap_range`, if it stays inside the buffers. -/
def baGetBmapRange (bitarray : List UInt8) (start num : ℕ) (out : List UInt8) :
    Option (List UInt8) := memcpy out 0 (bitarray.drop (start/8)) ((num+7)/8)

/-- The loop clears the bits from `bitno` down to `end`. -/
theorem bitAt_clearTail {start last bitno : ℕ} {bitarray : List UInt8} (hlast : start ≤ last)
    (hsize : (bitno-start)/8<bitarray.length) (k : ℕ) :
    bitAt (clearTail start last bitno bitarray) k=
      (bitAt bitarray k && !decide (last < start+k ∧ start+k≤bitno)) := by
  induction bitno generalizing bitarray with
  | zero =>
    rw [clearTail,decide_eq_false (by omega),Bool.not_false,Bool.and_true]
  | succ bitno ih =>
    rw [clearTail]
    by_cases hgo : last<bitno+1
    · have hle : (bitno-start)/8≤(bitno+1-start)/8 := Nat.div_le_div_right (by omega)
      rw [if_pos hgo,ih (by rw [clearBit64_length]; omega),bitAt_clearBit64 hsize,Bool.and_assoc,
        ←Bool.not_or]
      have hiff : (k=bitno+1-start ∨ (last < start+k ∧ start+k≤bitno)) ↔
          last < start+k ∧ start+k≤bitno+1 := by omega
      rw [←Bool.decide_or,decide_eq_decide.mpr hiff]
    · rw [if_neg hgo,decide_eq_false (by omega),Bool.not_false,Bool.and_true]

theorem byteAt_of_length_le {buffer : List UInt8} {i : ℕ} (h : buffer.length ≤ i) :
    byteAt buffer i=0 := List.getD_eq_default _ _ h

/-- The array with another size keeps the bits that are in both, and has no
other. -/
theorem bitAt_resizeArray (bitarray : List UInt8) (newSize k : ℕ) :
    bitAt (resizeArray bitarray newSize) k=(bitAt bitarray k && decide (k/8<newSize)) := by
  simp only [bitAt,resizeArray]
  by_cases hk : k/8<(bitarray.take newSize).length
  · have hnew : k/8<newSize := by
      rw [List.length_take] at hk
      omega
    rw [byteAt_append_left hk,decide_eq_true hnew,Bool.and_true]
    simp only [byteAt,List.getD_eq_getElem?_getD,List.getElem?_take_of_lt hnew]
  · have hzero : byteAt (bitarray.take newSize++List.replicate (newSize-bitarray.length) 0) (k/8)=
        0 := by
      simp only [byteAt,List.getD_eq_getElem?_getD]
      rw [List.getElem?_append_right (by omega),List.getElem?_replicate]
      split <;> rfl
    rw [hzero,byteBit_zero]
    rw [List.length_take] at hk
    by_cases hnew : k/8<newSize
    · rw [byteAt_of_length_le (by omega),byteBit_zero,Bool.false_and]
    · rw [decide_eq_false hnew,Bool.and_false]

/-- The bits of the new range after `ba_resize_bmap`: padding bits that become
part of the bitmap are cleared, and everything else up to the new end is kept,
the rest of the last byte included. -/
theorem baResizeBmap_bits {bitmap : GenericBitmap} {bitarray : List UInt8}
    (hsize : bitarray.length=arraySize bitmap.start bitmap.realEnd) (size : NewSize bitmap)
    {x : ℕ} (hx : bitmap.start≤x) (hend : x ≤ size.newEnd) :
    bitAt (baResizeBmap bitmap bitarray size).2 (x-bitmap.start)=
      (bitAt bitarray (x-bitmap.start) && !decide (bitmap.last<x ∧ x≤bitmap.realEnd)) := by
  have hcleared : ∀ a : List UInt8, a=(if bitmap.last < size.newEnd then
      clearTail bitmap.start bitmap.last (min bitmap.realEnd size.newEnd) bitarray
      else bitarray) → bitAt a (x-bitmap.start)=
      (bitAt bitarray (x-bitmap.start) && !decide (bitmap.last<x ∧ x≤bitmap.realEnd)) := by
    intro a ha
    rw [ha]
    split
    · have hin : (min bitmap.realEnd size.newEnd-bitmap.start)/8<bitarray.length := by
        have hle : (min bitmap.realEnd size.newEnd-bitmap.start)/8≤
            (bitmap.realEnd-bitmap.start)/8 := Nat.div_le_div_right (by omega)
        rw [hsize,arraySize]
        omega
      rw [bitAt_clearTail bitmap.start_le_last hin]
      have hiff : (bitmap.last<bitmap.start+(x-bitmap.start) ∧
          bitmap.start+(x-bitmap.start) ≤ min bitmap.realEnd size.newEnd) ↔
          (bitmap.last<x ∧ x≤bitmap.realEnd) := by omega
      rw [decide_eq_decide.mpr hiff]
    · rw [decide_eq_false (by omega),Bool.not_false,Bool.and_true]
  rw [baResizeBmap]
  split
  · exact hcleared _ rfl
  · have hle : (x-bitmap.start)/8≤(size.newRealEnd-bitmap.start)/8 := by
      have hnew := size.newEnd_le
      exact Nat.div_le_div_right (by omega)
    rw [bitAt_resizeArray,decide_eq_true (by rw [arraySize]; omega),Bool.and_true]
    exact hcleared _ rfl

/-- In the bit array backend a range that stays inside the array reads back as
the bytes that were written. -/
theorem baGetBmapRange_set {bitarray input out : List UInt8} {start num : ℕ}
    (hrange : start/8+(num+7)/8≤bitarray.length) (hinput : (num+7)/8 ≤ input.length)
    (hout : (num+7)/8≤out.length) :
    ∃ bitarray' out', baSetBmapRange bitarray start num input=some bitarray' ∧
      baGetBmapRange bitarray' start num out=some out' ∧
      ∀ k<num, bitAt out' k=bitAt input k := by
  obtain ⟨bitarray',hset,hlength,hbytes⟩ := memcpy_spec hrange hinput
  obtain ⟨out',hget,-,hread⟩ := @memcpy_spec out (bitarray'.drop (start/8)) 0 ((num+7)/8)
    (by omega) (by rw [List.length_drop]; omega)
  refine ⟨bitarray',out',hset,hget,fun k hk => ?_⟩
  rw [bitAt,hread,if_pos (by omega),byteAt_drop,hbytes,if_pos (by omega),bitAt]
  have hindex : start/8+(k/8-0)-start/8=k/8 := by omega
  rw [hindex]

end AndroidPlatform.BaBitmap
