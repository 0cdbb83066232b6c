import AndroidPlatform.GenericBitmaps
import Mathlib.Algebra.Group.Nat.Defs

/-!
# Searches in the bit array

The search for a clear bit goes from single bits to bytes, to words and back. Each
phase keeps a position and a count; what it has gone over is set. The test of a
range looks at the bits of its first and last byte under masks and at the bytes
between. An `unsigned long` of thirty-two bits cannot hold every position.
-/

namespace AndroidPlatform.BaBitmapSearch

open WireBytes Bitops BaBitmap GenericBitmaps

/-! ## The search for a clear bit -/

/-- The machine on which the array is searched. -/
structure Machine where
  /-- Width of `unsigned long`. -/
  ulongBits : ℕ
  /-- There are two kinds of machines. -/
  ulongBits_eq : ulongBits=32 ∨ ulongBits=64
  /-- Address of the array. -/
  bitarray : ℕ

/-- `ENOENT`. -/
def ENOENT : ℕ := 2

/-- The variables of `ba_find_first_zero`. -/
structure Cursor where
  /-- `bitpos`. -/
  bitpos : ℕ
  /-- `count`. -/
  count : ℕ
  /-- `pos`, counted from the start of the array. -/
  pos : ℕ

/-- The loop over single bits up to a byte, for a count and a position: the position of
a clear bit, or where it has ended. -/
def toByte (M : Machine) (bits : List UInt8) : ℕ → ℕ → ℕ⊕Cursor
  | 0,bitpos => .inr ⟨bitpos,0,0⟩
  | count+1,bitpos =>
    if bitpos%8≠0 then
      if testBit64 bitpos bits=0 then .inl bitpos
      else toByte M bits count ((bitpos+1)%2^M.ulongBits)
    else .inr ⟨bitpos,count+1,0⟩

/-- The cursor some whole bytes further. -/
def Cursor.skip (M : Machine) (c : Cursor) (bytes : ℕ) : Cursor :=
  ⟨(c.bitpos+8*bytes)%2^M.ulongBits,c.count-8*bytes,c.pos+bytes⟩

/-- The loop over bytes up to a word, with `byte_found`. -/
def toWord (M : Machine) (bits : List UInt8) : ℕ → Cursor → Cursor×Bool
  | 0,c => (c,false)
  | fuel+1,c =>
    if 8≤c.count ∧ (M.bitarray+c.pos)%8≠0 then
      if byteAt bits c.pos≠0xff then (c,true) else toWord M bits fuel (c.skip M 1)
    else (c,false)

/-- The word of eight bytes at `pos` is full. -/
def wordFull (bits : List UInt8) (pos : ℕ) : Bool :=
  (List.range 8).all fun k => byteAt bits (pos+k)==0xff

/-- The byte at `pos` is full. -/
def byteFull (bits : List UInt8) (pos : ℕ) : Bool := byteAt bits pos==0xff

/-- A loop over `i` full words or bytes: what is left of `i`. -/
def skipFull (full : ℕ → Bool) (size : ℕ) : ℕ → ℕ → ℕ
  | 0,_ => 0
  | i+1,pos => if full pos then skipFull full size i (pos+size) else i+1

/-- The loop over words. -/
def wordLoop (M : Machine) (bits : List UInt8) (c : Cursor) : Cursor :=
  let maxLoopCount := c.count>>>6
  let i := skipFull (wordFull bits) 8 maxLoopCount c.pos
  c.skip M (8*(maxLoopCount-i))

/-- The loop over bytes behind the words. -/
def byteLoop (M : Machine) (bits : List UInt8) (c : Cursor) : Cursor :=
  let maxLoopCount := c.count>>>3
  let i := skipFull (byteFull bits) 1 maxLoopCount c.pos
  c.skip M (maxLoopCount-i)

/-- The last loop over single bits. -/
def bitLoop (M : Machine) (bits : List UInt8) (start : ℕ) : ℕ → ℕ → Except ℕ ℕ
  | 0,_ => .error ENOENT
  | count+1,bitpos =>
    if testBit64 bitpos bits=0 then .ok (bitpos+start)
    else bitLoop M bits start count ((bitpos+1)%2^M.ulongBits)

/-- `ba_find_first_zero`: the value of `*out`, or the error. -/
def baFindFirstZero (M : Machine) (bitmap : GenericBitmap) (clusterBits : ℕ)
    (bits : List UInt8) (start stop : ℕ) : Except ℕ ℕ :=
  if start<bitmap.start ∨ bitmap.last < stop ∨ stop < start then .error EINVAL
  else if clusterBits≠0 then .error EINVAL
  else
    match toByte M bits ((stop-start+1)%2^M.ulongBits)
        ((start-bitmap.start)%2^M.ulongBits) with
    | .inl bitpos => .ok (bitpos+bitmap.start)
    | .inr c =>
      if c.count=0 then .error ENOENT
      else
        let aligned := toWord M bits c.count {c with pos := c.bitpos>>>3}
        let found := if aligned.2 then aligned.1 else byteLoop M bits (wordLoop M bits aligned.1)
        bitLoop M bits bitmap.start found.count found.bitpos

/-- The loop of `ext2fs_find_first_zero_generic_bmap`. -/
def genericLoop (test : ℕ → UInt8) (clusterBits : ℕ) : ℕ → ℕ → Except ℕ ℕ
  | 0,_ => .error ENOENT
  | rounds+1,start =>
    if test start=0 then .ok (start<<<clusterBits)
    else genericLoop test clusterBits rounds (start+1)

/-- `ext2fs_find_first_zero_generic_bmap` on a 64-bit bitmap of a backend that has only
a test. -/
def findFirstZeroGenericBmap (bitmap : GenericBitmap) (clusterBits : ℕ) (test : ℕ → UInt8)
    (start stop : ℕ) : Except ℕ ℕ :=
  let start := start>>>clusterBits
  let stop := stop>>>clusterBits
  if start<bitmap.start ∨ bitmap.last < stop ∨ stop < start then .error EINVAL
  else genericLoop test clusterBits (stop+1-start) start

/-- The first clear bit of a range of the array. -/
def firstClear (bits : List UInt8) (pos count : ℕ) : Option ℕ :=
  (List.range' pos count).find? fun p => !bitAt bits p

/-- What a search results in. -/
def result (start : ℕ) : Option ℕ → Except ℕ ℕ
  | some p => .ok (p+start)
  | none => .error ENOENT

/-- All bits of a range are set. -/
def Full (bits : List UInt8) (pos count : ℕ) : Prop :=
  ∀ p, pos≤p → p<pos+count → bitAt bits p=true

variable {M : Machine} {bits : List UInt8} {pos count n start fuel : ℕ} {c : Cursor}

theorem firstClear_succ (pos count : ℕ) : firstClear bits pos (count+1)=
    if bitAt bits pos=true then firstClear bits (pos+1) count else some pos := by
  rw [firstClear,List.range'_succ,List.find?_cons]
  cases bitAt bits pos <;> rfl

/-- The search goes over set bits. -/
theorem firstClear_of_full (h : Full bits pos n) (hn : n≤count) :
    firstClear bits pos count=firstClear bits (pos+n) (count-n) := by
  induction n generalizing pos count with
  | zero => rfl
  | succ n ih =>
    obtain ⟨more,rfl⟩ : ∃ more, count=more+1 := ⟨count-1,by omega⟩
    rw [firstClear_succ,if_pos (h pos (Nat.le_refl pos) (by omega)),
      ih (fun p hle hlt => h p (by omega) (by omega)) (by omega)]
    congr 1 <;> omega

theorem testBit64_eq_zero (nr : ℕ) (addr : List UInt8) :
    testBit64 nr addr=0 ↔ bitAt addr nr=false := by
  rw [←not_iff_not,Bool.not_eq_false]
  exact testBit64_ne_zero nr addr

/-- The last loop is the search. -/
theorem bitLoop_eq (h : pos+count≤2^M.ulongBits) :
    bitLoop M bits start count (pos%2^M.ulongBits)=result start (firstClear bits pos count) := by
  induction count generalizing pos with
  | zero => rfl
  | succ count ih =>
    have hpos : pos%2^M.ulongBits=pos := Nat.mod_eq_of_lt (by omega)
    rw [bitLoop,hpos,firstClear_succ]
    by_cases hset : bitAt bits pos=true
    · rw [if_neg (fun hzero => by
        rw [(testBit64_eq_zero pos bits).mp hzero] at hset
        cases hset),if_pos hset]
      exact ih (by omega)
    · rw [if_pos ((testBit64_eq_zero pos bits).mpr (Bool.eq_false_iff.mpr hset)),if_neg hset]
      rfl

/-- Where a cursor stands that has gone over `n` set bits. -/
structure Skipped (M : Machine) (bits : List UInt8) (pos count n : ℕ) (c : Cursor) : Prop where
  /-- The bits are in the range. -/
  le : n≤count
  /-- They are set. -/
  full : Full bits pos n
  /-- The position behind them. -/
  bitpos : c.bitpos=(pos+n)%2^M.ulongBits
  /-- What is left. -/
  count : c.count=count-n

theorem Full.append (h : Full bits pos n) (h' : Full bits (pos+n) count) :
    Full bits pos (n+count) := by
  intro p hle hlt
  by_cases hp : p<pos+n
  · exact h p hle hp
  · exact h' p (by omega) (by omega)

/-- Full bytes are skipped. -/
theorem Skipped.skip (h : Skipped M bits pos count n c) {bytes : ℕ} (hle : 8*bytes≤c.count)
    (hfull : Full bits (pos+n) (8*bytes)) :
    Skipped M bits pos count (n+8*bytes) (c.skip M bytes) := by
  have hcount := h.count
  have hn := h.le
  refine ⟨by omega,h.full.append hfull,?_,?_⟩
  · rw [Cursor.skip,h.bitpos,Nat.mod_add_mod,Nat.add_assoc]
  · rw [Cursor.skip]
    dsimp only
    omega

/-- The last loop, from wherever the skipping ends. -/
theorem Skipped.bitLoop_eq (h : Skipped M bits pos count n c) (hfits : pos+count≤2^M.ulongBits) :
    bitLoop M bits start c.count c.bitpos=result start (firstClear bits pos count) := by
  have hn := h.le
  rw [h.count,h.bitpos,BaBitmapSearch.bitLoop_eq (by omega),firstClear_of_full h.full hn]

theorem full_of_byte {k : ℕ} (h : byteAt bits k=0xff) : Full bits (8*k) 8 := by
  have hones : ∀ i<8, byteBit 0xff i=true := by decide
  intro p hle hlt
  have hdiv : p/8=k := by omega
  rw [bitAt,hdiv,h]
  exact hones _ (Nat.mod_lt p (by omega))

theorem full_of_byteFull {k : ℕ} (h : byteFull bits k=true) : Full bits (8*k) (8*1) :=
  full_of_byte (beq_iff_eq.mp h)

theorem full_of_wordFull {k : ℕ} (h : wordFull bits k=true) : Full bits (8*k) (8*8) := by
  rw [wordFull,List.all_eq_true] at h
  intro p hle hlt
  have hbyte := beq_iff_eq.mp (h (p/8-k) (List.mem_range.mpr (by omega)))
  have heq : k+(p/8-k)=p/8 := by omega
  rw [heq] at hbyte
  exact full_of_byte hbyte p (by omega) (by omega)

/-- What the loops over full words or bytes go over. -/
theorem skipFull_spec {full : ℕ → Bool} {size k i : ℕ}
    (hfull : ∀ k, full k=true → Full bits (8*k) (8*size)) :
    skipFull full size i k ≤ i ∧ Full bits (8*k) (8*(size*(i-skipFull full size i k))) := by
  induction i generalizing k with
  | zero => exact ⟨Nat.le_refl 0,fun p hle hlt => absurd hlt (by rw [skipFull]; omega)⟩
  | succ i ih =>
    rw [skipFull]
    split_ifs with hk
    · obtain ⟨hle,hall⟩ := @ih (k+size)
      refine ⟨by omega,?_⟩
      have hsplit : 8*(size*(i+1-skipFull full size i (k+size)))=
          8*size+8*(size*(i-skipFull full size i (k+size))) := by
        rw [Nat.succ_sub hle,Nat.mul_succ]
        omega
      rw [hsplit]
      refine (hfull k hk).append ?_
      rwa [←Nat.mul_add]
    · exact ⟨Nat.le_refl _,fun p hle hlt => absurd hlt (by rw [Nat.sub_self]; omega)⟩

/-- A cursor at a byte behind set bits. -/
structure AtByte (M : Machine) (bits : List UInt8) (pos count n : ℕ) (c : Cursor) : Prop
    extends Skipped M bits pos count n c where
  /-- `pos` is the byte at which the position stands. -/
  place : 8*c.pos=pos+n

theorem AtByte.skip (h : AtByte M bits pos count n c) {bytes : ℕ} (hle : 8*bytes≤c.count)
    (hfull : Full bits (8*c.pos) (8*bytes)) :
    AtByte M bits pos count (n+8*bytes) (c.skip M bytes) := by
  have hplace := h.place
  refine ⟨h.toSkipped.skip hle (hplace ▸ hfull),?_⟩
  rw [Cursor.skip]
  dsimp only
  omega

theorem wordLoop_spec (h : AtByte M bits pos count n c) :
    ∃ n', AtByte M bits pos count n' (wordLoop M bits c) := by
  obtain ⟨hle,hfull⟩ := @skipFull_spec bits (wordFull bits) 8 c.pos (c.count>>>6)
    fun k hk => full_of_wordFull hk
  refine ⟨_,h.skip ?_ hfull⟩
  rw [Nat.shiftRight_eq_div_pow]
  omega

theorem byteLoop_spec (h : AtByte M bits pos count n c) :
    ∃ n', AtByte M bits pos count n' (byteLoop M bits c) := by
  obtain ⟨hle,hfull⟩ := @skipFull_spec bits (byteFull bits) 1 c.pos (c.count>>>3)
    fun k hk => full_of_byteFull hk
  rw [Nat.one_mul] at hfull
  refine ⟨_,h.skip ?_ hfull⟩
  rw [Nat.shiftRight_eq_div_pow]
  omega

theorem toWord_spec (h : AtByte M bits pos count n c) :
    ∃ n', AtByte M bits pos count n' (toWord M bits fuel c).1 := by
  induction fuel generalizing c n with
  | zero => exact ⟨n,h⟩
  | succ fuel ih =>
    rw [toWord]
    split_ifs with hgo hbyte
    · exact ⟨n,h⟩
    · exact ih (h.skip (by omega) (full_of_byte (not_not.mp hbyte)))
    · exact ⟨n,h⟩

/-- The first loop finds the first clear bit, or goes over set bits up to a byte. -/
theorem toByte_spec (hfits : pos+count≤2^M.ulongBits) :
    (∃ p, toByte M bits count (pos%2^M.ulongBits)=.inl p ∧ firstClear bits pos count=some p) ∨
      ∃ n c, toByte M bits count (pos%2^M.ulongBits)=.inr c ∧ Skipped M bits pos count n c ∧
        (c.count≠0 → (pos+n)%8=0) := by
  induction count generalizing pos with
  | zero =>
    exact Or.inr ⟨0,⟨pos%2^M.ulongBits,0,0⟩,rfl,
      ⟨Nat.le_refl 0,fun p hle hlt => absurd hlt (by omega),rfl,rfl⟩,fun h => absurd rfl h⟩
  | succ count ih =>
    have hpos : pos%2^M.ulongBits=pos := Nat.mod_eq_of_lt (by omega)
    rw [toByte,hpos]
    split_ifs with hbyte hclear
    · refine Or.inl ⟨pos,rfl,?_⟩
      rw [firstClear_succ,(testBit64_eq_zero pos bits).mp hclear]
      rfl
    · have hset : bitAt bits pos=true := by
        by_contra hne
        exact hclear ((testBit64_eq_zero pos bits).mpr (Bool.eq_false_iff.mpr hne))
      rcases @ih (pos+1) (by omega) with ⟨p,hp,hfirst⟩ | ⟨n,c,hc,hskipped,haligned⟩
      · exact Or.inl ⟨p,hp,by rw [firstClear_succ,if_pos hset,hfirst]⟩
      · have hle := hskipped.le
        have hone : Full bits pos 1 := fun p hle hlt => by
          have heq : p=pos := by omega
          rw [heq]
          exact hset
        refine Or.inr ⟨1+n,c,hc,⟨by omega,hone.append hskipped.full,?_,?_⟩,fun hc => ?_⟩
        · rw [hskipped.bitpos,Nat.add_assoc]
        · rw [hskipped.count]
          omega
        · rw [←Nat.add_assoc]
          exact haligned hc
    · refine Or.inr ⟨0,⟨pos,count+1,0⟩,rfl,
        ⟨Nat.zero_le _,fun p hle hlt => absurd hlt (by omega),hpos.symm,rfl⟩,fun _ => ?_⟩
      exact not_not.mp hbyte

/-- Where the position and the count fit, the phases together are the search. -/
theorem baFindFirstZero_eq {bitmap : GenericBitmap} {stop : ℕ} (hstart : bitmap.start ≤ start)
    (hle : start ≤ stop) (hstop : stop≤bitmap.last)
    (hfits : stop-bitmap.start+1≤2^M.ulongBits) (hcount : stop-start+1<2^M.ulongBits) :
    baFindFirstZero M bitmap 0 bits start stop=
      result bitmap.start (firstClear bits (start-bitmap.start) (stop-start+1)) := by
  have hrange : ¬(start<bitmap.start ∨ bitmap.last < stop ∨ stop < start) := by omega
  rw [baFindFirstZero,if_neg hrange,if_neg (fun h => h rfl),Nat.mod_eq_of_lt hcount]
  have hroom : start-bitmap.start+(stop-start+1)≤2^M.ulongBits := by omega
  generalize start-bitmap.start=pos at hroom ⊢
  generalize stop-start+1=count at hroom ⊢
  rcases @toByte_spec M bits pos count hroom with ⟨p,hp,hfirst⟩ | ⟨n,c,hc,hskipped,haligned⟩
  · rw [hp,hfirst]
    rfl
  · rw [hc]
    dsimp only
    split_ifs with hzero hfound
    · have hnone := @Skipped.bitLoop_eq M bits pos count n bitmap.start c hskipped hroom
      rw [hzero] at hnone
      exact hnone
    all_goals
      have hn := hskipped.le
      have hleft := hskipped.count
      have hbitpos : c.bitpos=pos+n := by
        rw [hskipped.bitpos]
        exact Nat.mod_eq_of_lt (by omega)
      have hat : AtByte M bits pos count n {c with pos := c.bitpos>>>3} := by
        have hmod := haligned hzero
        refine ⟨⟨hskipped.le,hskipped.full,hskipped.bitpos,hskipped.count⟩,?_⟩
        change 8*(c.bitpos>>>3)=pos+n
        rw [hbitpos,Nat.shiftRight_eq_div_pow]
        omega
      obtain ⟨n1,h1⟩ := @toWord_spec M bits pos count n c.count _ hat
    · exact h1.toSkipped.bitLoop_eq hroom
    · obtain ⟨n2,h2⟩ := wordLoop_spec h1
      obtain ⟨n3,h3⟩ := byteLoop_spec h2
      exact h3.toSkipped.bitLoop_eq hroom

/-- The generic loop is the search, too. -/
theorem genericLoop_eq {bitmap : GenericBitmap} (hstart : bitmap.start ≤ start) :
    genericLoop (baTestBmap bitmap.toBitmap bits) 0 count start=
      result bitmap.start (firstClear bits (start-bitmap.start) count) := by
  induction count generalizing start with
  | zero => rfl
  | succ count ih =>
    have hnext : start-bitmap.start+1=start+1-bitmap.start := by omega
    rw [genericLoop,firstClear_succ,baTestBmap,hnext]
    by_cases hset : bitAt bits (start-bitmap.start)=true
    · rw [if_neg (fun hzero => by
        rw [(testBit64_eq_zero _ bits).mp hzero] at hset
        cases hset),if_pos hset]
      exact ih (by omega)
    · rw [if_pos ((testBit64_eq_zero _ bits).mpr (Bool.eq_false_iff.mpr hset)),if_neg hset]
      rw [result,Nat.sub_add_cancel hstart]
      rfl

/-- The first clear bit is the least one. -/
theorem firstClear_eq_some {p : ℕ} : firstClear bits pos count=some p ↔
    (pos≤p ∧ p<pos+count ∧ bitAt bits p=false) ∧
      ∀ q, pos≤q → q<p → bitAt bits q=true := by
  rw [firstClear,List.find?_range'_eq_some]
  simp only [Bool.not_eq_true',Bool.not_not,List.mem_range'_1]
  constructor
  · rintro ⟨hclear,⟨hle,hlt⟩,hall⟩
    exact ⟨⟨hle,hlt,hclear⟩,hall⟩
  · rintro ⟨⟨hle,hlt,hclear⟩,hall⟩
    exact ⟨hclear,⟨hle,hlt⟩,hall⟩

theorem firstClear_eq_none : firstClear bits pos count=none ↔ Full bits pos count := by
  rw [firstClear,List.find?_eq_none]
  simp only [Bool.not_eq_true',Bool.not_eq_false,List.mem_range'_1,Full]
  exact ⟨fun h p hle hlt => h p ⟨hle,hlt⟩,fun h p hp => h p hp.1 hp.2⟩

/-- The least clear bit of a range is found, or `ENOENT` if there is none, and the
generic loop finds the same. -/
def FindsFirstZero (M : Machine) (bitmap : GenericBitmap) (bits : List UInt8)
    (start stop : ℕ) : Prop :=
  (match baFindFirstZero M bitmap 0 bits start stop with
    | .ok out => start≤out ∧ out ≤ stop ∧ bitAt bits (out-bitmap.start)=false ∧
        ∀ x, start≤x → x<out → bitAt bits (x-bitmap.start)=true
    | .error e => e=ENOENT ∧ ∀ x, start≤x → x ≤ stop → bitAt bits (x-bitmap.start)=true) ∧
  baFindFirstZero M bitmap 0 bits start stop=
    findFirstZeroGenericBmap bitmap 0 (baTestBmap bitmap.toBitmap bits) start stop

theorem findsFirstZero_of_fits {bitmap : GenericBitmap} {stop : ℕ} (hstart : bitmap.start ≤ start)
    (hle : start ≤ stop) (hstop : stop≤bitmap.last)
    (hfits : stop-bitmap.start+1≤2^M.ulongBits) (hcount : stop-start+1<2^M.ulongBits) :
    FindsFirstZero M bitmap bits start stop := by
  have hrange : ¬(start<bitmap.start ∨ bitmap.last < stop ∨ stop < start) := by omega
  have hrounds : stop+1-start=stop-start+1 := by omega
  rw [FindsFirstZero,baFindFirstZero_eq hstart hle hstop hfits hcount,findFirstZeroGenericBmap,
    Nat.shiftRight_zero,Nat.shiftRight_zero,if_neg hrange,hrounds,genericLoop_eq hstart]
  refine ⟨?_,rfl⟩
  cases hfirst : firstClear bits (start-bitmap.start) (stop-start+1) with
  | none =>
    have hfull := firstClear_eq_none.mp hfirst
    exact ⟨rfl,fun x hge hle => hfull _ (by omega) (by omega)⟩
  | some p =>
    obtain ⟨⟨hge,hlt,hclear⟩,hleast⟩ := firstClear_eq_some.mp hfirst
    refine ⟨by omega,by omega,?_,fun x hge hlt => hleast _ (by omega) (by omega)⟩
    rw [Nat.add_sub_cancel]
    exact hclear

/-- A position that is found fits into an `unsigned long`. -/
theorem toByte_lt {p : ℕ} (hpos : pos<2^M.ulongBits) (h : toByte M bits count pos=.inl p) :
    p<2^M.ulongBits := by
  induction count generalizing pos with
  | zero => cases h
  | succ count ih =>
    rw [toByte] at h
    split_ifs at h with hbyte hclear
    · cases h
      exact hpos
    · exact ih (Nat.mod_lt _ (Nat.two_pow_pos _)) h

theorem bitLoop_lt {out : ℕ} (hpos : pos<2^M.ulongBits)
    (h : bitLoop M bits start count pos=.ok out) : out<2^M.ulongBits+start := by
  induction count generalizing pos with
  | zero => cases h
  | succ count ih =>
    rw [bitLoop] at h
    split_ifs at h with hclear
    · cases h
      omega
    · exact ih (Nat.mod_lt _ (Nat.two_pow_pos _)) h

theorem toByte_bitpos_lt (hpos : pos<2^M.ulongBits) (h : toByte M bits count pos=.inr c) :
    c.bitpos<2^M.ulongBits := by
  induction count generalizing pos with
  | zero =>
    cases h
    exact hpos
  | succ count ih =>
    rw [toByte] at h
    split_ifs at h
    · exact ih (Nat.mod_lt _ (Nat.two_pow_pos _)) h
    · cases h
      exact hpos

theorem toWord_bitpos_lt (hc : c.bitpos<2^M.ulongBits) :
    (toWord M bits fuel c).1.bitpos<2^M.ulongBits := by
  induction fuel generalizing c with
  | zero => exact hc
  | succ fuel ih =>
    rw [toWord]
    split_ifs
    · exact hc
    · exact ih (Nat.mod_lt _ (Nat.two_pow_pos _))
    · exact hc

/-- Every position that the search returns fits into an `unsigned long`. -/
theorem baFindFirstZero_lt {bitmap : GenericBitmap} {clusterBits stop out : ℕ}
    (h : baFindFirstZero M bitmap clusterBits bits start stop=.ok out) :
    out<2^M.ulongBits+bitmap.start := by
  have hpos : (start-bitmap.start)%2^M.ulongBits<2^M.ulongBits :=
    Nat.mod_lt _ (Nat.two_pow_pos _)
  rw [baFindFirstZero] at h
  split_ifs at h
  split at h
  · next p hp =>
    cases h
    have hlt := toByte_lt hpos hp
    omega
  · next c hc =>
    have hlt := toByte_bitpos_lt hpos hc
    split_ifs at h
    refine bitLoop_lt ?_ h
    split
    · exact toWord_bitpos_lt hlt
    · exact Nat.mod_lt _ (Nat.two_pow_pos _)

/-- An array with one clear bit. -/
def oneClear (size nr : ℕ) : List UInt8 := (clearBit64 nr (List.replicate size 0xff)).1

theorem oneClear_length (size nr : ℕ) : (oneClear size nr).length=size := by
  rw [oneClear,clearBit64_length,List.length_replicate]

theorem bitAt_oneClear {size nr p : ℕ} (hnr : nr/8 < size) (hp : p/8 < size) :
    bitAt (oneClear size nr) p=!decide (p=nr) := by
  have hones : ∀ i<8, byteBit 0xff i=true := by decide
  have hfull : bitAt (List.replicate size 0xff) p=true := by
    rw [bitAt,byteAt,List.getD_eq_getElem?_getD,List.getElem?_replicate_of_lt hp,Option.getD_some]
    exact hones _ (Nat.mod_lt p (by omega))
  rw [oneClear,bitAt_clearBit64 (by rw [List.length_replicate]; exact hnr),hfull,Bool.true_and]

/-! ## The test of a range -/

/-- The loops that mark some bits of a byte from `mark_bit` down. -/
def markBits : ℕ → ℕ → UInt8
  | 0,_ => 0
  | count+1,markBit => bitMask markBit|||markBits count (markBit-1)

/-- The loop of `ext2fs_mem_is_zero`, with the number of whole buffers of 256 bytes. -/
def memIsZeroLoop (bits : List UInt8) : ℕ → ℕ → ℕ → Bool
  | 0,mem,len => (List.range len).all fun k => byteAt bits (mem+k)==0
  | buffers+1,mem,len =>
    ((List.range 256).all fun k => byteAt bits (mem+k)==0) &&
      memIsZeroLoop bits buffers (mem+256) (len-256)

/-- `ext2fs_mem_is_zero`. -/
def memIsZero (bits : List UInt8) (mem len : ℕ) : Bool := memIsZeroLoop bits (len/256) mem len

/-- `ba_test_clear_bmap_extent` behind the first byte. -/
def testTail (bits : List UInt8) (startByte lenBit lenByte : ℕ) : Bool :=
  if lenBit≠0 then
    if markBits lenBit (lenBit-1)&&&byteAt bits (startByte+lenByte)≠0 then false
    else if lenByte=0 then true
    else memIsZero bits startByte lenByte
  else memIsZero bits startByte lenByte

/-- `ba_test_clear_bmap_extent`. -/
def baTestClearBmapExtent (bitmap : GenericBitmap) (bits : List UInt8) (start len : ℕ) : Bool :=
  let start := start-bitmap.start
  let startByte := start>>>3
  let startBit := start%8
  if startBit≠0 then
    let markCount := if len<8-startBit then len else 8-startBit
    let markBit := if len<8-startBit then len+startBit-1 else 7
    if markBits markCount markBit&&&byteAt bits startByte≠0 then false
    else if len≤8-startBit then true
    else testTail bits (startByte+1) ((len-markCount)%8) ((len-markCount)>>>3)
  else testTail bits startByte (len%8) (len>>>3)

/-- All bits of a range are clear. -/
def Clear (bits : List UInt8) (pos count : ℕ) : Prop :=
  ∀ p, pos≤p → p<pos+count → bitAt bits p=false

theorem clear_append (pos count n : ℕ) :
    Clear bits pos (count+n) ↔ Clear bits pos count ∧ Clear bits (pos+count) n := by
  constructor
  · intro h
    exact ⟨fun p hle hlt => h p hle (by omega),fun p hle hlt => h p (by omega) (by omega)⟩
  · rintro ⟨hfirst,hsecond⟩ p hle hlt
    by_cases hp : p<pos+count
    · exact hfirst p hle hp
    · exact hsecond p (by omega) (by omega)

theorem byteBit_markBits {count markBit i : ℕ} (hcount : count ≤ markBit+1) (hbit : markBit<8)
    (hi : i<8) : byteBit (markBits count markBit) i=
      decide (markBit+1-count ≤ i ∧ i ≤ markBit ∧ 0<count) := by
  induction count generalizing markBit with
  | zero => rw [markBits,byteBit_zero,decide_eq_false (by omega)]
  | succ count ih =>
    rw [markBits,byteBit_or,byteBit_bitMask markBit hi]
    cases markBit with
    | zero =>
      have hzero : count=0 := by omega
      rw [hzero,markBits,byteBit_zero,Bool.or_false,decide_eq_decide]
      omega
    | succ markBit =>
      rw [Nat.add_sub_cancel,ih (by omega) (by omega),Bool.or_eq_decide,decide_eq_decide,
        decide_eq_true_iff,decide_eq_true_iff]
      omega

/-- The masked byte is zero exactly if the bits under the mask are clear. -/
theorem markBits_and_eq_zero {k count markBit : ℕ} (hcount : count ≤ markBit+1)
    (hbit : markBit<8) : markBits count markBit&&&byteAt bits k=0 ↔
      Clear bits (8*k+(markBit+1-count)) count := by
  constructor
  · intro hzero p hle hlt
    have hmod := Nat.mod_lt p (show 0<8 by omega)
    have hdiv : p/8=k := by omega
    have hboth := congrArg (fun b => byteBit b (p%8)) hzero
    simp only [byteBit_and,byteBit_zero,byteBit_markBits hcount hbit hmod] at hboth
    rw [decide_eq_true (by omega),Bool.true_and] at hboth
    rw [bitAt,hdiv]
    exact hboth
  · intro hclear
    refine byte_ext fun i hi => ?_
    rw [byteBit_and,byteBit_zero,byteBit_markBits hcount hbit hi]
    by_cases hin : markBit+1-count ≤ i ∧ i ≤ markBit ∧ 0<count
    · have hbitAt := hclear (8*k+i) (by omega) (by omega)
      have hdiv : (8*k+i)/8=k := by omega
      have hmod : (8*k+i)%8=i := by omega
      rw [bitAt,hdiv,hmod] at hbitAt
      rw [hbitAt,Bool.and_false]
    · rw [decide_eq_false hin,Bool.false_and]

theorem byteAt_eq_zero_iff {k : ℕ} : byteAt bits k=0 ↔ Clear bits (8*k) 8 := by
  constructor
  · intro hzero p hle hlt
    have hdiv : p/8=k := by omega
    rw [bitAt,hdiv,hzero,byteBit_zero]
  · intro hclear
    refine byte_ext fun i hi => ?_
    have hbitAt := hclear (8*k+i) (by omega) (by omega)
    have hdiv : (8*k+i)/8=k := by omega
    have hmod : (8*k+i)%8=i := by omega
    rw [bitAt,hdiv,hmod] at hbitAt
    rw [hbitAt,byteBit_zero]

/-- Some bytes are zero exactly if their bits are clear. -/
theorem all_zero_iff {mem len : ℕ} :
    ((List.range len).all fun k => byteAt bits (mem+k)==0)=true ↔ Clear bits (8*mem) (8*len) := by
  rw [List.all_eq_true]
  constructor
  · intro h p hle hlt
    have hbyte := beq_iff_eq.mp (h (p/8-mem) (List.mem_range.mpr (by omega)))
    exact byteAt_eq_zero_iff.mp hbyte p (by omega) (by omega)
  · intro h k hk
    have hlt := List.mem_range.mp hk
    exact beq_iff_eq.mpr (byteAt_eq_zero_iff.mpr fun p hle hlt' => h p (by omega) (by omega))

theorem memIsZeroLoop_iff {buffers mem len : ℕ} (h : 256*buffers≤len) :
    memIsZeroLoop bits buffers mem len=true ↔ Clear bits (8*mem) (8*len) := by
  induction buffers generalizing mem len with
  | zero => exact all_zero_iff
  | succ buffers ih =>
    have hsplit : 8*len=8*256+8*(len-256) := by omega
    rw [memIsZeroLoop,Bool.and_eq_true,all_zero_iff,ih (by omega),hsplit,clear_append,Nat.mul_add]

theorem memIsZero_iff {mem len : ℕ} :
    memIsZero bits mem len=true ↔ Clear bits (8*mem) (8*len) :=
  memIsZeroLoop_iff (Nat.mul_div_le len 256)

/-- The rest of the test: some bytes, and the first bits of the byte behind them. -/
theorem testTail_iff {startByte lenBit lenByte : ℕ} (hbit : lenBit<8) :
    testTail bits startByte lenBit lenByte=true ↔
      Clear bits (8*startByte) (8*lenByte+lenBit) := by
  rw [testTail,clear_append]
  by_cases hzero : lenBit=0
  · rw [if_neg (not_not.mpr hzero),memIsZero_iff,hzero]
    exact ⟨fun h => ⟨h,fun p hle hlt => absurd hlt (by omega)⟩,And.left⟩
  · have hlow : lenBit-1+1-lenBit=0 := by omega
    have hmask := @markBits_and_eq_zero bits (startByte+lenByte) lenBit (lenBit-1) (by omega)
      (by omega)
    rw [hlow,Nat.add_zero,Nat.mul_add] at hmask
    rw [if_pos hzero,←hmask]
    by_cases hset : markBits lenBit (lenBit-1)&&&byteAt bits (startByte+lenByte)=0
    · rw [if_neg (not_not.mpr hset)]
      by_cases hnone : lenByte=0
      · rw [if_pos hnone]
        exact ⟨fun _ => ⟨fun p hle hlt => absurd hlt (by omega),hset⟩,fun _ => rfl⟩
      · rw [if_neg hnone,memIsZero_iff]
        exact ⟨fun h => ⟨h,hset⟩,And.left⟩
    · rw [if_pos hset]
      exact ⟨fun h => absurd h Bool.false_ne_true,fun h => absurd h.2 hset⟩

/-- The test of a range tells whether its bits are clear. -/
theorem baTestClearBmapExtent_iff {bitmap : GenericBitmap} {len : ℕ} :
    baTestClearBmapExtent bitmap bits start len=true ↔
      Clear bits (start-bitmap.start) len := by
  rw [baTestClearBmapExtent]
  dsimp only
  generalize start-bitmap.start=s
  rw [Nat.shiftRight_eq_div_pow]
  by_cases hzero : s%8=0
  · have hstart : 8*(s/2^3)=s := by omega
    have hlen : 8*(len>>>3)+len%8=len := by
      rw [Nat.shiftRight_eq_div_pow]
      omega
    rw [if_neg (not_not.mpr hzero),testTail_iff (Nat.mod_lt len (by omega)),hstart,hlen]
  · rw [if_pos hzero]
    by_cases hshort : len<8-s%8
    · rw [if_pos hshort,if_pos hshort]
      have hmask := @markBits_and_eq_zero bits (s/2^3) len (len+s%8-1) (by omega) (by omega)
      have hplace : 8*(s/2^3)+(len+s%8-1+1-len)=s := by omega
      rw [hplace] at hmask
      rw [←hmask]
      by_cases hset : markBits len (len+s%8-1)&&&byteAt bits (s/2^3)=0
      · rw [if_neg (not_not.mpr hset),if_pos hshort.le]
        exact ⟨fun _ => hset,fun _ => rfl⟩
      · rw [if_pos hset]
        exact ⟨fun h => absurd h Bool.false_ne_true,fun h => absurd h hset⟩
    · rw [if_neg hshort,if_neg hshort]
      have hmask := @markBits_and_eq_zero bits (s/2^3) (8-s%8) 7 (by omega) (by omega)
      have hplace : 8*(s/2^3)+(7+1-(8-s%8))=s := by omega
      have hnext : 8*(s/2^3+1)=s+(8-s%8) := by omega
      have hlen : 8*((len-(8-s%8))>>>3)+(len-(8-s%8))%8=len-(8-s%8) := by
        rw [Nat.shiftRight_eq_div_pow]
        omega
      have hsplit := @clear_append bits s (8-s%8) (len-(8-s%8))
      rw [Nat.add_sub_cancel' (Nat.not_lt.mp hshort)] at hsplit
      rw [hplace] at hmask
      have htail := @testTail_iff bits (s/2^3+1) ((len-(8-s%8))%8) ((len-(8-s%8))>>>3)
        (Nat.mod_lt _ (by omega))
      rw [hnext,hlen] at htail
      rw [hsplit,←hmask]
      by_cases hset : markBits (8-s%8) 7&&&byteAt bits (s/2^3)=0
      · rw [if_neg (not_not.mpr hset)]
        by_cases hend : len≤8-s%8
        · rw [if_pos hend]
          exact ⟨fun _ => ⟨hset,fun p hle hlt => absurd hlt (by omega)⟩,fun _ => rfl⟩
        · rw [if_neg hend,htail]
          exact ⟨fun h => ⟨hset,h⟩,And.right⟩
      · rw [if_pos hset]
        exact ⟨fun h => absurd h Bool.false_ne_true,fun h => absurd h.1 hset⟩

/-- Both searches are right for every array of the bitmap. -/
def SearchesRight (M : Machine) (bitmap : GenericBitmap) (start stop : ℕ) : Prop :=
  ∀ bits : List UInt8, bits.length=arraySize bitmap.start bitmap.realEnd →
    FindsFirstZero M bitmap bits start stop ∧
      ∀ base len, baTestClearBmapExtent bitmap bits base len=true ↔
        ∀ k<len, bitAt bits (base-bitmap.start+k)=false

/-- The searches are right exactly if an `unsigned long` holds the positions and the
number of the bits in the range. -/
theorem searchesRight_iff (M : Machine) {bitmap : GenericBitmap} {start stop : ℕ}
    (hstart : bitmap.start ≤ start) (hle : start ≤ stop) (hstop : stop≤bitmap.last) :
    SearchesRight M bitmap start stop ↔
      M.ulongBits=64 ∨ (stop-bitmap.start<2^32 ∧ stop-start+1<2^32) := by
  have hlast := bitmap.last_le
  have hend := bitmap.realEnd_lt
  constructor
  · intro h
    rcases M.ulongBits_eq with hnarrow | hwide
    · refine Or.inr ?_
      by_contra hbig
      have hsize : (stop-bitmap.start)/8<arraySize bitmap.start bitmap.realEnd := by
        rw [arraySize]
        omega
      have hbit : ∀ x, start≤x → x ≤ stop →
          bitAt (oneClear (arraySize bitmap.start bitmap.realEnd) (stop-bitmap.start))
            (x-bitmap.start)=!decide (x-bitmap.start=stop-bitmap.start) :=
        fun x hge hle => bitAt_oneClear hsize (by omega)
      have hfinds := (h (oneClear (arraySize bitmap.start bitmap.realEnd) (stop-bitmap.start))
        (oneClear_length _ _)).1.1
      have hclear := hbit stop hle (Nat.le_refl stop)
      rw [decide_eq_true rfl] at hclear
      cases hfind : baFindFirstZero M bitmap 0
          (oneClear (arraySize bitmap.start bitmap.realEnd) (stop-bitmap.start)) start stop with
      | error e =>
        rw [hfind] at hfinds
        have hset := hfinds.2 stop hle (Nat.le_refl stop)
        rw [hclear] at hset
        cases hset
      | ok out =>
        have hlt := baFindFirstZero_lt hfind
        rw [hfind] at hfinds
        obtain ⟨hge,hout,hzero,-⟩ := hfinds
        rw [hbit out hge hout,Bool.not_eq_false',decide_eq_true_iff] at hzero
        rw [hnarrow] at hlt
        have hcount : (stop-start+1)%2^M.ulongBits=0 := by
          rw [hnarrow]
          omega
        have hrange : ¬(start<bitmap.start ∨ bitmap.last < stop ∨ stop < start) := by omega
        rw [baFindFirstZero,if_neg hrange,if_neg (fun h => h rfl),hcount] at hfind
        cases hfind
    · exact Or.inl hwide
  · intro hfits bits _
    refine ⟨?_,fun base len => ?_⟩
    · rcases hfits with hwide | ⟨hpos,hcount⟩
      · exact findsFirstZero_of_fits hstart hle hstop (by rw [hwide]; omega)
          (by rw [hwide]; omega)
      · rcases M.ulongBits_eq with hnarrow | hwide
        · exact findsFirstZero_of_fits hstart hle hstop (by rw [hnarrow]; omega)
            (by rw [hnarrow]; omega)
        · exact findsFirstZero_of_fits hstart hle hstop (by rw [hwide]; omega)
            (by rw [hwide]; omega)
    · rw [baTestClearBmapExtent_iff]
      constructor
      · intro h k hk
        exact h _ (by omega) (by omega)
      · intro h p hge hlt
        have hbit := h (p-(base-bitmap.start)) (by omega)
        rwa [Nat.add_sub_cancel' hge] at hbit

theorem wide_words : 64=32 ∨ 64=64 := Or.inr rfl

/-- A machine with words of sixty-four bits, and an array that is not aligned to them. -/
def wideMachine : Machine := ⟨64,wide_words,1003⟩

/-- A machine with words of thirty-two bits. -/
def narrowMachine : Machine := ⟨32,Or.inl rfl,1024⟩

/-- A bitmap of 2^32 bits. -/
def largeBitmap : GenericBitmap where
  start := 0
  realEnd := 4294967295
  start_le := Nat.zero_le _
  realEnd_lt := by decide
  last := 4294967295
  start_le_last := Nat.zero_le _
  last_le := Nat.le_refl _

theorem searchesRight_iff_large : SearchesRight wideMachine largeBitmap 3 4294967290 :=
  (searchesRight_iff wideMachine (show 0≤3 by decide) (by decide)
    (show 4294967290≤4294967295 by decide)).mpr (Or.inl rfl)

/-- The number of all the bits does not fit: no clear bit is found in an empty
array. -/
theorem not_searchesRight_narrow : ¬SearchesRight narrowMachine largeBitmap 0 4294967295 := by
  intro h
  have hfinds := (h (List.replicate (arraySize 0 4294967295) 0) List.length_replicate).1.1
  have hfind : ∀ bits, baFindFirstZero narrowMachine largeBitmap 0 bits 0 4294967295=
      .error ENOENT := by
    intro bits
    have hrange : ¬((0 : ℕ)<largeBitmap.start ∨ largeBitmap.last<4294967295 ∨
      (4294967295 : ℕ)<0) := by decide
    have hcount : (4294967295-0+1)%2^narrowMachine.ulongBits=0 := by decide
    rw [baFindFirstZero,if_neg hrange,if_neg (fun h => h rfl),hcount]
    rfl
  rw [hfind] at hfinds
  have hset := hfinds.2 0 (Nat.le_refl 0) (by decide)
  rw [bitAt_replicate_zero] at hset
  cases hset

end AndroidPlatform.BaBitmapSearch
