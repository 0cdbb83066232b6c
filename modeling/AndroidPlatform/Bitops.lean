import AndroidPlatform.WireBytes

/-!
# Bits in an array of bytes

Bit `nr` of an array is bit `nr mod 8` of byte `nr / 8`. The functions return
what they find under the mask, so that a set bit gives some non-zero value and
not one. A buffer of bytes is described by its bits, and the operations by what
they do to each bit.
-/

namespace AndroidPlatform.Bitops

open WireBytes

/-- `1 << (nr & 0x07)`. -/
def bitMask (nr : ℕ) : UInt8 := 1<<<UInt8.ofNat (nr%8)

/-- `ext2fs_test_bit64`. -/
def testBit64 (nr : ℕ) (addr : List UInt8) : UInt8 := bitMask nr&&&byteAt addr (nr/8)

/-- `ext2fs_set_bit64`: the array and the returned value. -/
def setBit64 (nr : ℕ) (addr : List UInt8) : List UInt8×UInt8 :=
  (addr.set (nr/8) (byteAt addr (nr/8)|||bitMask nr),bitMask nr&&&byteAt addr (nr/8))

/-- `ext2fs_clear_bit64`: the array and the returned value. -/
def clearBit64 (nr : ℕ) (addr : List UInt8) : List UInt8×UInt8 :=
  (addr.set (nr/8) (byteAt addr (nr/8)&&&~~~bitMask nr),bitMask nr&&&byteAt addr (nr/8))

/-- `ext2fs_fast_set_bit64`. -/
def fastSetBit64 (nr : ℕ) (addr : List UInt8) : List UInt8 := (setBit64 nr addr).1

/-- The bit `i` of a byte. -/
def byteBit (b : UInt8) (i : ℕ) : Bool := b.toBitVec.getLsbD i

/-- The bit `nr` of an array. -/
def bitAt (addr : List UInt8) (nr : ℕ) : Bool := byteBit (byteAt addr (nr/8)) (nr%8)

theorem byteBit_bitMask {i : ℕ} (nr : ℕ) (hi : i<8) :
    byteBit (bitMask nr) i=decide (i=nr%8) := by
  have hnr : nr%8<8 := Nat.mod_lt nr (by omega)
  have hall : ∀ m<8, ∀ j<8, byteBit (1<<<UInt8.ofNat m) j=decide (j=m) := by decide
  exact hall (nr%8) hnr i hi

theorem byteBit_and (a b : UInt8) (i : ℕ) : byteBit (a&&&b) i=(byteBit a i && byteBit b i) := by
  simp only [byteBit,UInt8.toBitVec_and,BitVec.getLsbD_and]

theorem byteBit_or (a b : UInt8) (i : ℕ) : byteBit (a|||b) i=(byteBit a i || byteBit b i) := by
  simp only [byteBit,UInt8.toBitVec_or,BitVec.getLsbD_or]

theorem byteBit_not {i : ℕ} (a : UInt8) (hi : i<8) : byteBit (~~~a) i=!byteBit a i := by
  simp only [byteBit,UInt8.toBitVec_not,BitVec.getLsbD_not,decide_eq_true hi,Bool.true_and]

@[simp] theorem byteBit_zero (i : ℕ) : byteBit 0 i=false := by
  simp only [byteBit,UInt8.toBitVec_zero,BitVec.getLsbD_zero]

/-- Bytes with the same bits are the same. -/
theorem byte_ext {a b : UInt8} (h : ∀ i<8, byteBit a i=byteBit b i) : a=b :=
  UInt8.toBitVec_inj.mp (BitVec.eq_of_getLsbD_eq fun i hi => h i hi)

/-- What is found under a mask is not zero exactly if the bit is set. -/
theorem bitMask_and_ne_zero (nr : ℕ) (b : UInt8) :
    bitMask nr&&&b≠0 ↔ byteBit b (nr%8)=true := by
  have hnr : nr%8<8 := Nat.mod_lt nr (by omega)
  constructor
  · intro hne
    by_contra hbit
    refine hne (byte_ext fun i hi => ?_)
    rw [byteBit_and,byteBit_bitMask nr hi,byteBit_zero]
    by_cases heq : i=nr%8
    · rw [heq,Bool.eq_false_iff.mpr hbit,Bool.and_false]
    · rw [decide_eq_false heq,Bool.false_and]
  · intro hbit hzero
    have hboth := congrArg (fun c => byteBit c (nr%8)) hzero
    simp only [byteBit_and,byteBit_bitMask nr hnr,byteBit_zero,hbit,decide_true,
      Bool.and_true] at hboth
    cases hboth

/-- `ext2fs_test_bit64` returns a non-zero value exactly for a set bit. -/
theorem testBit64_ne_zero (nr : ℕ) (addr : List UInt8) :
    testBit64 nr addr≠0 ↔ bitAt addr nr=true := bitMask_and_ne_zero nr _

theorem setBit64_old (nr : ℕ) (addr : List UInt8) :
    (setBit64 nr addr).2≠0 ↔ bitAt addr nr=true := bitMask_and_ne_zero nr _

theorem clearBit64_old (nr : ℕ) (addr : List UInt8) :
    (clearBit64 nr addr).2≠0 ↔ bitAt addr nr=true := bitMask_and_ne_zero nr _

@[simp] theorem setBit64_length (nr : ℕ) (addr : List UInt8) :
    (setBit64 nr addr).1.length=addr.length := List.length_set

@[simp] theorem clearBit64_length (nr : ℕ) (addr : List UInt8) :
    (clearBit64 nr addr).1.length=addr.length := List.length_set

theorem byteAt_set {addr : List UInt8} {i : ℕ} (hi : i<addr.length) (b : UInt8) (j : ℕ) :
    byteAt (addr.set i b) j=if j=i then b else byteAt addr j := by
  simp only [byteAt,List.getD_eq_getElem?_getD]
  by_cases hj : j=i
  · rw [hj,if_pos rfl,List.getElem?_set_self hi,Option.getD_some]
  · rw [if_neg hj,List.getElem?_set_ne (Ne.symm hj)]

/-- Setting a bit of the array sets that bit only. -/
theorem bitAt_setBit64 {addr : List UInt8} {nr : ℕ} (h : nr/8<addr.length) (k : ℕ) :
    bitAt (setBit64 nr addr).1 k=(bitAt addr k || decide (k=nr)) := by
  have hk : k%8<8 := Nat.mod_lt k (by omega)
  simp only [bitAt,setBit64,byteAt_set h]
  by_cases hbyte : k/8=nr/8
  · rw [if_pos hbyte,byteBit_or,byteBit_bitMask nr hk,hbyte]
    have heq : k%8=nr%8 ↔ k=nr := by omega
    rw [decide_eq_decide.mpr heq]
  · have hne : k≠nr := fun heq => hbyte (by rw [heq])
    rw [if_neg hbyte,decide_eq_false hne,Bool.or_false]

/-- Clearing a bit of the array clears that bit only. -/
theorem bitAt_clearBit64 {addr : List UInt8} {nr : ℕ} (h : nr/8<addr.length) (k : ℕ) :
    bitAt (clearBit64 nr addr).1 k=(bitAt addr k && !decide (k=nr)) := by
  have hk : k%8<8 := Nat.mod_lt k (by omega)
  simp only [bitAt,clearBit64,byteAt_set h]
  by_cases hbyte : k/8=nr/8
  · rw [if_pos hbyte,byteBit_and,byteBit_not _ hk,byteBit_bitMask nr hk,hbyte]
    have heq : k%8=nr%8 ↔ k=nr := by omega
    rw [decide_eq_decide.mpr heq]
  · have hne : k≠nr := fun heq => hbyte (by rw [heq])
    rw [if_neg hbyte,decide_eq_false hne,Bool.not_false,Bool.and_true]

theorem bitAt_replicate_zero (n nr : ℕ) : bitAt (List.replicate n 0) nr=false := by
  rw [bitAt,byteAt,List.getD_eq_getElem?_getD,List.getElem?_replicate]
  split <;> exact byteBit_zero _

/-! ## Runs of bytes -/

/-- `memset` on a part of a buffer. -/
def memset (buffer : List UInt8) (offset : ℕ) (c : UInt8) (n : ℕ) : List UInt8 :=
  buffer.take offset++(List.replicate n c++buffer.drop (offset+n))

/-- `memcpy` to a part of a buffer, if source and destination are large
enough. -/
def memcpy (dest : List UInt8) (offset : ℕ) (src : List UInt8) (n : ℕ) : Option (List UInt8) :=
  if offset+n≤dest.length ∧ n ≤ src.length then
    some (dest.take offset++(src.take n++dest.drop (offset+n)))
  else none

/-- The bytes of a buffer in which one part is replaced. -/
theorem byteAt_splice {buffer middle : List UInt8} {offset : ℕ}
    (h : offset+middle.length≤buffer.length) (j : ℕ) :
    byteAt (buffer.take offset++(middle++buffer.drop (offset+middle.length))) j=
      if offset≤j ∧ j<offset+middle.length then byteAt middle (j-offset) else byteAt buffer j := by
  have htake : (buffer.take offset).length=offset := by
    rw [List.length_take]
    omega
  simp only [byteAt,List.getD_eq_getElem?_getD]
  by_cases hlt : j<offset
  · rw [if_neg (by omega),List.getElem?_append_left (by omega),List.getElem?_take_of_lt hlt]
  · rw [List.getElem?_append_right (by omega),htake]
    by_cases hin : j<offset+middle.length
    · rw [if_pos ⟨by omega,hin⟩,List.getElem?_append_left (by omega)]
    · rw [if_neg (by omega),List.getElem?_append_right (by omega),List.getElem?_drop]
      have hsum : offset+middle.length+(j-offset-middle.length)=j := by omega
      rw [hsum]

theorem length_splice {buffer middle : List UInt8} {offset : ℕ}
    (h : offset+middle.length≤buffer.length) :
    (buffer.take offset++(middle++buffer.drop (offset+middle.length))).length=buffer.length := by
  simp only [List.length_append,List.length_take,List.length_drop]
  omega

theorem memset_length {buffer : List UInt8} {offset n : ℕ} (h : offset+n≤buffer.length)
    (c : UInt8) : (memset buffer offset c n).length=buffer.length := by
  have hsplice := @length_splice buffer (List.replicate n c) offset (by simpa using h)
  rwa [List.length_replicate] at hsplice

theorem byteAt_memset {buffer : List UInt8} {offset n : ℕ} (h : offset+n≤buffer.length)
    (c : UInt8) (j : ℕ) :
    byteAt (memset buffer offset c n) j=
      if offset≤j ∧ j<offset+n then c else byteAt buffer j := by
  have hsplice := @byteAt_splice buffer (List.replicate n c) offset (by simpa using h) j
  rw [List.length_replicate] at hsplice
  rw [memset,hsplice]
  by_cases hin : offset≤j ∧ j<offset+n
  · rw [if_pos hin,if_pos hin,byteAt,List.getD_eq_getElem?_getD,
      List.getElem?_replicate_of_lt (by omega),Option.getD_some]
  · rw [if_neg hin,if_neg hin]

/-- The bits after a byte-wise fill. -/
theorem bitAt_memset {buffer : List UInt8} {offset n : ℕ} (h : offset+n≤buffer.length)
    (c : UInt8) (k : ℕ) :
    bitAt (memset buffer offset c n) k=
      if 8*offset≤k ∧ k<8*(offset+n) then byteBit c (k%8) else bitAt buffer k := by
  rw [bitAt,byteAt_memset h]
  by_cases hin : 8*offset≤k ∧ k<8*(offset+n)
  · rw [if_pos hin,if_pos (by omega)]
  · rw [if_neg hin,if_neg (by omega),bitAt]

theorem byteAt_take {buffer : List UInt8} {n i : ℕ} (hi : i<n) :
    byteAt (buffer.take n) i=byteAt buffer i := by
  simp only [byteAt,List.getD_eq_getElem?_getD,List.getElem?_take_of_lt hi]

/-- `memcpy` between buffers that are large enough. -/
theorem memcpy_spec {dest src : List UInt8} {offset n : ℕ} (hdest : offset+n≤dest.length)
    (hsrc : n ≤ src.length) :
    ∃ result, memcpy dest offset src n=some result ∧ result.length=dest.length ∧
      ∀ j, byteAt result j=
        if offset≤j ∧ j<offset+n then byteAt src (j-offset) else byteAt dest j := by
  have hlength : (src.take n).length=n := by
    rw [List.length_take]
    omega
  have hsplice := @byteAt_splice dest (src.take n) offset (by omega)
  have hwhole := @length_splice dest (src.take n) offset (by omega)
  rw [hlength] at hsplice hwhole
  refine ⟨_,if_pos ⟨hdest,hsrc⟩,hwhole,fun j => ?_⟩
  rw [hsplice]
  by_cases hin : offset≤j ∧ j<offset+n
  · rw [if_pos hin,if_pos hin,byteAt_take (by omega)]
  · rw [if_neg hin,if_neg hin]

/-- What is behind two parts of a buffer. -/
theorem getElem?_behind (kept gap rest : List UInt8) (i : ℕ) :
    (kept++(gap++rest))[kept.length+gap.length+i]?=rest[i]? := by
  rw [List.getElem?_append_right (by omega),List.getElem?_append_right (by omega)]
  congr 1
  omega

theorem drop_behind (kept gap rest : List UInt8) (i : ℕ) :
    (kept++(gap++rest)).drop (kept.length+gap.length+i)=rest.drop i := by
  rw [← List.drop_drop,← List.drop_drop,List.drop_left,List.drop_left]

/-- `memcpy` down within a buffer, over a gap: what was moved is kept, what comes after it stays
in its place. -/
theorem memcpy_down (kept gap piece rest : List UInt8) :
    ∃ gap',gap'.length=gap.length ∧
      memcpy (kept++(gap++(piece++rest))) kept.length
        ((kept++(gap++(piece++rest))).drop (kept.length+gap.length)) piece.length=
        some (kept++piece++(gap'++rest)) := by
  refine ⟨(gap++piece).drop piece.length,?_,?_⟩
  · rw [List.length_drop,List.length_append]
    omega
  · have hsrc : (kept++(gap++(piece++rest))).drop (kept.length+gap.length)=piece++rest :=
      drop_behind kept gap (piece++rest) 0
    have hend : (kept++(gap++(piece++rest))).drop (kept.length+piece.length)=
        (gap++piece).drop piece.length++rest := by
      rw [← List.drop_drop,List.drop_left,← List.append_assoc,List.drop_append_of_le_length]
      rw [List.length_append]
      omega
    rw [memcpy,hsrc,if_pos,List.take_left,List.take_left,hend,List.append_assoc]
    simp only [List.length_append]
    omega

/-- The same when nothing is done where there is no gap. -/
theorem memcpy_down_if {c : Prop} [Decidable c] (kept piece rest : List UInt8)
    {gap : List UInt8} (hc : ¬c → gap=[]) :
    ∃ gap',gap'.length=gap.length ∧
      (if c then memcpy (kept++(gap++(piece++rest))) kept.length
        ((kept++(gap++(piece++rest))).drop (kept.length+gap.length)) piece.length
      else some (kept++(gap++(piece++rest))))=some (kept++piece++(gap'++rest)) := by
  by_cases h : c
  · rw [if_pos h]
    exact memcpy_down kept gap piece rest
  · rw [if_neg h,hc h]
    refine ⟨[],rfl,?_⟩
    rw [List.nil_append,List.nil_append,List.append_assoc]

end AndroidPlatform.Bitops
