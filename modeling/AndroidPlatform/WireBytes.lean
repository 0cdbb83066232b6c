import Mathlib.Data.List.GetD
import Mathlib.Data.Nat.Notation
import Mathlib.Tactic.Ring

/-!
# Fixed-width numbers as bytes in memory

Buffers are byte lists. A raw store or load uses little-endian order, and
the conversions of the network interface reverse it. Reads are indexed from
the start of the buffer, as in C; a read past the end of the list gives zero,
so every result that depends on such a read has to bound its index itself.
-/

namespace AndroidPlatform.WireBytes

/-- The byte at an offset of a buffer. -/
def byteAt (buffer : List UInt8) (i : ℕ) : UInt8 := buffer.getD i 0

/-- The bytes of `htons(n)` in memory; the argument is cut to sixteen bits. -/
def htons (n : ℕ) : List UInt8 := [UInt8.ofNat (n/256),UInt8.ofNat n]

/-- The bytes of a raw sixteen-bit store. -/
def raw16 (n : ℕ) : List UInt8 := [UInt8.ofNat n,UInt8.ofNat (n/256)]

/-- The bytes of a raw thirty-two bit store. -/
def raw32 (n : UInt32) : List UInt8 :=
  [UInt8.ofNat n.toNat,UInt8.ofNat (n.toNat/256),UInt8.ofNat (n.toNat/65536),
    UInt8.ofNat (n.toNat/16777216)]

/-- `ntohs` of the two bytes at an offset. -/
def ntohsAt (buffer : List UInt8) (i : ℕ) : ℕ :=
  256*(byteAt buffer i).toNat+(byteAt buffer (i+1)).toNat

/-- The raw sixteen-bit load at an offset. -/
def load16At (buffer : List UInt8) (i : ℕ) : ℕ :=
  (byteAt buffer i).toNat+256*(byteAt buffer (i+1)).toNat

/-- The raw thirty-two bit load at an offset. -/
def load32At (buffer : List UInt8) (i : ℕ) : UInt32 :=
  UInt32.ofNat ((byteAt buffer i).toNat+256*(byteAt buffer (i+1)).toNat+
    65536*(byteAt buffer (i+2)).toNat+16777216*(byteAt buffer (i+3)).toNat)

/-- `ntohl` of the four bytes at an offset. -/
def ntohlAt (buffer : List UInt8) (i : ℕ) : UInt32 :=
  UInt32.ofNat (16777216*(byteAt buffer i).toNat+65536*(byteAt buffer (i+1)).toNat+
    256*(byteAt buffer (i+2)).toNat+(byteAt buffer (i+3)).toNat)

@[simp] theorem byteAt_nil (i : ℕ) : byteAt [] i=0 := by
  simp only [byteAt,List.getD_nil]

@[simp] theorem byteAt_cons_zero (b : UInt8) (tail : List UInt8) : byteAt (b::tail) 0=b := rfl

@[simp] theorem byteAt_cons_succ (b : UInt8) (tail : List UInt8) (i : ℕ) :
    byteAt (b::tail) (i+1)=byteAt tail i := by
  simp only [byteAt,List.getD_cons_succ]

/-- A read inside the first part does not see what follows. -/
theorem byteAt_append_left {xs : List UInt8} {i : ℕ} (h : i<xs.length) (ys : List UInt8) :
    byteAt (xs++ys) i=byteAt xs i := by
  simp only [byteAt,List.getD_append _ _ _ _ h]

/-- Advancing the pointer shifts the index. -/
theorem byteAt_drop (xs : List UInt8) (n i : ℕ) : byteAt (xs.drop n) i=byteAt xs (n+i) := by
  simp only [byteAt,List.getD_eq_getElem?_getD,List.getElem?_drop]

/-- A read inside a cut buffer is a read of the whole one. -/
theorem byteAt_take {i n : ℕ} (h : i < n) (xs : List UInt8) :
    byteAt (xs.take n) i=byteAt xs i := by
  simp only [byteAt,List.getD_eq_getElem?_getD,List.getElem?_take_of_lt h]

/-- A load inside a cut buffer is a load from the whole one. -/
theorem load32At_take {i n : ℕ} (h : i+3 < n) (xs : List UInt8) :
    load32At (xs.take n) i=load32At xs i := by
  have h0 : i < n := by omega
  have h1 : i+1 < n := by omega
  have h2 : i+2 < n := by omega
  simp only [load32At,byteAt_take h0,byteAt_take h1,byteAt_take h2,byteAt_take h]

/-- A reversed load inside a cut buffer is one from the whole buffer. -/
theorem ntohlAt_take {i n : ℕ} (h : i+3 < n) (xs : List UInt8) :
    ntohlAt (xs.take n) i=ntohlAt xs i := by
  have h0 : i < n := by omega
  have h1 : i+1 < n := by omega
  have h2 : i+2 < n := by omega
  simp only [ntohlAt,byteAt_take h0,byteAt_take h1,byteAt_take h2,byteAt_take h]

/-- A load inside the first part does not see what follows. -/
theorem load32At_append_left {xs : List UInt8} {i : ℕ} (h : i+3 < xs.length) (ys : List UInt8) :
    load32At (xs++ys) i=load32At xs i := by
  have h0 : i < xs.length := by omega
  have h1 : i+1 < xs.length := by omega
  have h2 : i+2 < xs.length := by omega
  simp only [load32At,byteAt_append_left h0,byteAt_append_left h1,byteAt_append_left h2,
    byteAt_append_left h]

@[simp] theorem htons_length (n : ℕ) : (htons n).length=2 := rfl

@[simp] theorem raw16_length (n : ℕ) : (raw16 n).length=2 := rfl

@[simp] theorem raw32_length (n : UInt32) : (raw32 n).length=4 := rfl

/-- Byte-reversed loads read back what was stored, cut to sixteen bits. -/
theorem ntohsAt_htons (n : ℕ) (tail : List UInt8) : ntohsAt (htons n++tail) 0=n%65536 := by
  simp only [ntohsAt,htons,List.cons_append,List.nil_append,byteAt_cons_zero,byteAt_cons_succ,
    UInt8.toNat_ofNat']
  omega

/-- Raw loads read back what was stored, cut to sixteen bits. -/
theorem load16At_raw16 (n : ℕ) (tail : List UInt8) : load16At (raw16 n++tail) 0=n%65536 := by
  simp only [load16At,raw16,List.cons_append,List.nil_append,byteAt_cons_zero,byteAt_cons_succ,
    UInt8.toNat_ofNat']
  omega

/-- Raw thirty-two bit loads read back what was stored. -/
theorem load32At_raw32 (n : UInt32) (tail : List UInt8) : load32At (raw32 n++tail) 0=n := by
  have hn := n.toNat_lt
  apply UInt32.toNat_inj.mp
  simp only [load32At,raw32,List.cons_append,List.nil_append,byteAt_cons_zero,byteAt_cons_succ,
    UInt8.toNat_ofNat',UInt32.toNat_ofNat']
  omega

/-- Loads at an offset are loads from the advanced pointer. -/
theorem ntohsAt_drop (xs : List UInt8) (i : ℕ) : ntohsAt xs i=ntohsAt (xs.drop i) 0 := by
  simp only [ntohsAt,byteAt_drop,Nat.add_zero,Nat.zero_add]

/-- Loads at an offset are loads from the advanced pointer. -/
theorem load16At_drop (xs : List UInt8) (i : ℕ) : load16At xs i=load16At (xs.drop i) 0 := by
  simp only [load16At,byteAt_drop,Nat.add_zero,Nat.zero_add]

end AndroidPlatform.WireBytes
