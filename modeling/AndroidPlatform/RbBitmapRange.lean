import AndroidPlatform.BaBitmap
import AndroidPlatform.CInteger
import AndroidPlatform.RbBitmapRefinement

/-!
# Bulk transfer between a bitmap and a buffer

Runs of set bits of the buffer are inserted as extents, and extents are written
as runs of set bits, whole bytes at a time where that is possible. Indices and
lengths go through variables of type `int`. Setting never removes a bit, and
getting from an empty tree leaves the buffer as it is.
-/

namespace AndroidPlatform.RbBitmap

open RbTree WireBytes Bitops CInteger

/-- The loop of `rb_set_bmap_range`. The index of `ext2fs_test_bit` is an
unsigned int. -/
def setLoop (alloc : Allocator) (bitmap : Bitmap) (start num : ℕ) (input : List UInt8) (i : ℕ)
    (firstSet : ℤ) (bp : RbPrivate) : Option RbPrivate :=
  if i<num then
    if i%8=0 ∧ byteAt input (i/8)=0xFF then
      setLoop alloc bitmap start num input (i+8) (if firstSet=-1 then toInt i else firstSet) bp
    else if i%8=0 ∧ byteAt input (i/8)=0 ∧ firstSet=-1 then
      setLoop alloc bitmap start num input (i+8) firstSet bp
    else if testBit64 (i%2^32) input≠0 then
      setLoop alloc bitmap start num input (i+1) (if firstSet=-1 then toInt i else firstSet) bp
    else if firstSet=-1 then setLoop alloc bitmap start num input (i+1) firstSet bp
    else
      (rbInsertExtent alloc (toU64 (start+firstSet-bitmap.start)) (toU64 (i-firstSet)) bp).bind
        fun result => setLoop alloc bitmap start num input (i+1) (-1) result.1
  else if firstSet=-1 then some bp
  else
    (rbInsertExtent alloc (toU64 (start+firstSet-bitmap.start)) (toU64 (num-firstSet)) bp).map
      Prod.fst
termination_by num-i

/-- `rb_set_bmap_range`. -/
def rbSetBmapRange (alloc : Allocator) (bitmap : Bitmap) (bp : RbPrivate) (start num : ℕ)
    (input : List UInt8) : Option RbPrivate := setLoop alloc bitmap start num input 0 (-1) bp

/-- The inner loop of `rb_get_bmap_range`: set `count` bits from an offset on,
in whole bytes if the offset is at the start of one. -/
def fillLoop (offset count : ℕ) (out : List UInt8) : List UInt8 :=
  if h : 0 < count then
    if 8≤count ∧ offset%8=0 then
      fillLoop (offset+8*(count/8)) (count-8*(count/8)) (memset out (offset/8) 0xFF (count/8))
    else fillLoop (offset+1) (count-1) (fastSetBit64 offset out)
  else out
termination_by count

/-- The end of an extent is moved into the range, and its bits are set. -/
def fillExtent (start num pos : ℕ) (count : ℤ) (out : List UInt8) : List UInt8 :=
  let count := if start+num<toU64 (pos+count) then toInt (start+num-pos) else count
  fillLoop (pos-start) count.toNat out

/-- The outer loop of `rb_get_bmap_range`. -/
def getLoop (bp : RbPrivate) (start num : ℕ) : ℕ → Option ℕ → List UInt8 → Option (List UInt8)
  | _,none,out => some out
  | 0,some _,_ => none
  | fuel+1,some node,out =>
    let following := next node bp.root
    let pos := (bp.extent node).start
    let count := toInt (bp.extent node).count
    if start+num≤pos then some out
    else if pos < start then
      let count := toInt (count-(start-pos))
      if count<0 then getLoop bp start num fuel following out
      else getLoop bp start num fuel following (fillExtent start num start count out)
    else getLoop bp start num fuel following (fillExtent start num pos count out)

/-- The search of `rb_get_bmap_range`: the node that has the position, or else
the last node on the way. -/
def getParent (bp : RbPrivate) (start : ℕ) : Option ℕ :=
  match descend (inside bp start) bp.root [] with
  | (.node _ _ ext _,_) => some ext
  | (.nil,path) => parent path

/-- `rb_get_bmap_range`. -/
def rbGetBmapRange (bitmap : Bitmap) (bp : RbPrivate) (start num : ℕ) (out : List UInt8) :
    Option (List UInt8) :=
  match bp.root with
  | .nil => some out
  | .node _ _ _ _ =>
    getLoop bp (start-bitmap.start) num bp.root.inorder.length (getParent bp (start-bitmap.start))
      (memset out 0 0 ((num+7)/8))

/-! ## Setting -/

theorem bitAt_of_byteAt {input : List UInt8} {i j : ℕ} {c : UInt8} (h : byteAt input (i/8)=c)
    (hj : j/8=i/8) : bitAt input j=byteBit c (j%8) := by
  rw [bitAt,hj,h]

theorem byteBit_full {i : ℕ} (hi : i<8) : byteBit 0xFF i=true := by
  have hall : ∀ i<8, byteBit 0xFF i=true := by decide
  exact hall i hi

/-- Where `rb_set_bmap_range` is: no run is open and the last bit was clear, or
a run of set bits started at `done`. -/
def Pending (input : List UInt8) (num i : ℕ) (firstSet : ℤ) (done : ℕ) : Prop :=
  (firstSet=-1 ∧ done=i ∧ (i=0 ∨ num ≤ i ∨ bitAt input (i-1)=false)) ∨
  (firstSet=done ∧ done<2^31 ∧ done < i ∧ done<num ∧
    ∀ j, done≤j → j < i → j<num → bitAt input j=true)

/-- Runs of set bits start where an `int` holds their index. -/
def RunsFit (input : List UInt8) (num : ℕ) : Prop :=
  ∀ j<num, 2^31≤j → bitAt input j=true → bitAt input (j-1)=true

section Setting

variable {input : List UInt8} {num i done n : ℕ} {firstSet : ℤ}

/-- Set bits keep a run open or open one. -/
theorem Pending.set (h : Pending input num i firstSet done) (hruns : RunsFit input num)
    (hi : i<num) (hn : 0<n) (hset : ∀ j, i≤j → j < i+n → bitAt input j=true) :
    Pending input num (i+n) (if firstSet=-1 then toInt i else firstSet) done := by
  refine Or.inr ?_
  rcases h with ⟨hfirst,hdone,hprev⟩|⟨hfirst,hlt,hdone,hnum,hrun⟩
  · have hsmall : i<2^31 := by
      by_contra hbig
      have hbit := hruns i hi (by omega) (hset i (Nat.le_refl _) (by omega))
      rcases hprev with hzero|hbeyond|hclear
      · omega
      · omega
      · rw [hclear] at hbit
        cases hbit
    rw [if_pos hfirst,toInt_of_lt hsmall,hdone]
    exact ⟨rfl,hsmall,by omega,hi,fun j hge hlt _ => hset j hge hlt⟩
  · rw [if_neg (by omega)]
    refine ⟨hfirst,hlt,by omega,hnum,fun j hge hj hjn => ?_⟩
    by_cases hold : j < i
    · exact hrun j hge hold hjn
    · exact hset j (by omega) hj

/-- The bits that are still to be inserted. -/
def Todo (input : List UInt8) (num offset done b : ℕ) : Prop :=
  ∃ j<num, done≤j ∧ bitAt input j=true ∧ b=offset+j

theorem todo_skip {offset : ℕ} (hclear : ∀ j, done≤j → j<n → j<num → bitAt input j=false)
    (hle : done≤n) (b : ℕ) : Todo input num offset done b ↔ Todo input num offset n b := by
  constructor
  · rintro ⟨j,hj,hge,hbit,hb⟩
    refine ⟨j,hj,?_,hbit,hb⟩
    by_contra hlt
    rw [hclear j hge (by omega) hj] at hbit
    cases hbit
  · rintro ⟨j,hj,hge,hbit,hb⟩
    exact ⟨j,hj,by omega,hbit,hb⟩

/-- A run of set bits is inserted as one extent. -/
theorem todo_run {offset : ℕ} (hset : ∀ j, done≤j → j<n → bitAt input j=true) (hle : done≤n)
    (hnum : n≤num) (b : ℕ) :
    Todo input num offset done b ↔
      (offset+done≤b ∧ b<offset+done+(n-done)) ∨ Todo input num offset n b := by
  constructor
  · rintro ⟨j,hj,hge,hbit,hb⟩
    by_cases hlt : j<n
    · exact Or.inl ⟨by omega,by omega⟩
    · exact Or.inr ⟨j,hj,by omega,hbit,hb⟩
  · rintro (hb|⟨j,hj,hge,hbit,hb⟩)
    · exact ⟨b-offset,by omega,by omega,hset _ (by omega) (by omega),by omega⟩
    · exact ⟨j,hj,by omega,hbit,hb⟩

theorem todo_end {offset : ℕ} (hle : num≤n) (b : ℕ) : ¬Todo input num offset n b := by
  rintro ⟨j,hj,hge,-,-⟩
  omega

/-- The loop inserts what is still to be inserted. -/
theorem setLoop_spec (alloc : Allocator) {bitmap : Bitmap} {start : ℕ} {bp : RbPrivate}
    (hstart : bitmap.start ≤ start) (hrange : start+num<2^64) (hnum : num<2^32)
    (hruns : RunsFit input num) (h : Inv bp) (hpending : Pending input num i firstSet done) :
    ∃ bp', setLoop alloc bitmap start num input i firstSet bp=some bp' ∧ Inv bp' ∧
      ∀ b, Bits bp' b ↔ Bits bp b ∨ Todo input num (start-bitmap.start) done b := by
  have hinsert : ∀ (bp : RbPrivate) (f n : ℕ), Inv bp → f<n → n≤num →
      ∃ bp' v, rbInsertExtent alloc (toU64 (start+(f : ℤ)-bitmap.start)) (toU64 ((n : ℤ)-f)) bp=
        some (bp',v) ∧ Inv bp' ∧
        ∀ b, Bits bp' b ↔ Bits bp b ∨
          (start-bitmap.start+f≤b ∧ b < start-bitmap.start+f+(n-f)) := by
    intro bp f n hinv hlt hle
    obtain ⟨bp',v,hbp',hinv',-,hbits⟩ :=
      @rbInsertExtent_spec alloc bp hinv (start-bitmap.start+f) (n-f) (by omega)
    refine ⟨bp',v,?_,hinv',hbits⟩
    rw [@toU64_of_lt _ (start-bitmap.start+f) (by omega) (by omega),
      @toU64_of_lt _ (n-f) (by omega) (by omega)]
    exact hbp'
  induction i, firstSet, bp using setLoop.induct num input generalizing done with
  | case1 i firstSet bp hi hfull ih =>
    rw [setLoop,if_pos hi,if_pos hfull]
    refine ih h (hpending.set hruns hi (by omega) fun j hge hlt => ?_)
    rw [bitAt_of_byteAt hfull.2 (by omega),byteBit_full (Nat.mod_lt j (by omega))]
  | case2 i firstSet bp hi hfull hempty ih =>
    have hclear : ∀ j, i≤j → j < i+8 → bitAt input j=false := by
      intro j hge hlt
      rw [bitAt_of_byteAt hempty.2.1 (by omega),byteBit_zero]
    rw [setLoop,if_pos hi,if_neg hfull,if_pos hempty]
    obtain ⟨bp',hbp',hinv',hbits⟩ := @ih (i+8) h
      (Or.inl ⟨hempty.2.2,rfl,Or.inr (Or.inr (hclear _ (by omega) (by omega)))⟩)
    have hdone : done=i := by
      rcases hpending with hp|hp
      · exact hp.2.1
      · have hneg := hp.1.symm.trans hempty.2.2
        omega
    subst hdone
    refine ⟨bp',hbp',hinv',fun b => ?_⟩
    rw [hbits,todo_skip (fun j hge hlt _ => hclear j hge hlt) (by omega)]
  | case3 i firstSet bp hi hfull hempty htest ih =>
    rw [setLoop,if_pos hi,if_neg hfull,if_neg hempty,if_pos htest]
    refine ih h (hpending.set hruns hi (by omega) fun j hge hlt => ?_)
    rw [Nat.mod_eq_of_lt (by omega),testBit64_ne_zero] at htest
    have hj : j=i := by omega
    rw [hj,htest]
  | case4 i bp hi hfull htest hempty ih =>
    have hclear : ∀ j, i≤j → j < i+1 → bitAt input j=false := by
      intro j hge hlt
      rw [Nat.mod_eq_of_lt (by omega),testBit64_ne_zero] at htest
      have hj : j=i := by omega
      rw [hj]
      exact Bool.eq_false_iff.mpr htest
    rw [setLoop,if_pos hi,if_neg hfull,if_neg hempty,if_neg htest,if_pos rfl]
    obtain ⟨bp',hbp',hinv',hbits⟩ := @ih (i+1) h
      (Or.inl ⟨rfl,rfl,Or.inr (Or.inr (hclear _ (by omega) (by omega)))⟩)
    have hdone : done=i := by
      rcases hpending with hp|hp
      · exact hp.2.1
      · have hneg := hp.1
        omega
    subst hdone
    refine ⟨bp',hbp',hinv',fun b => ?_⟩
    rw [hbits,todo_skip (fun j hge hlt _ => hclear j hge hlt) (by omega)]
  | case5 i firstSet bp hi hfull hempty htest hopen ih =>
    have hclear : bitAt input i=false := by
      rw [Nat.mod_eq_of_lt (by omega),testBit64_ne_zero] at htest
      exact Bool.eq_false_iff.mpr htest
    rcases hpending with hp|⟨hfirst,hlt,hdone,hn,hrun⟩
    · exact absurd hp.1 hopen
    · subst hfirst
      obtain ⟨bp1,v,hbp1,hinv1,hbits1⟩ := hinsert bp done i h hdone (by omega)
      obtain ⟨bp',hbp',hinv',hbits⟩ := @ih (bp1,v) (i+1) hinv1
        (Or.inl ⟨rfl,rfl,Or.inr (Or.inr hclear)⟩)
      rw [setLoop,if_pos hi,if_neg hfull,if_neg hempty,if_neg htest,if_neg hopen,hbp1]
      refine ⟨bp',hbp',hinv',fun b => ?_⟩
      rw [hbits,hbits1,todo_run (fun j hge hj => hrun j hge hj (by omega)) (by omega) (by omega),
        or_assoc,@todo_skip input num i (i+1) _ (fun j hge hj _ => by
          have hji : j=i := by omega
          rw [hji,hclear]) (by omega)]
  | case6 i bp hi =>
    rw [setLoop,if_neg hi,if_pos rfl]
    refine ⟨bp,rfl,h,fun b => ⟨Or.inl,fun hb => hb.resolve_right ?_⟩⟩
    rcases hpending with hp|hp
    · exact todo_end (by omega) b
    · have hneg := hp.1
      omega
  | case7 i firstSet bp hi hopen =>
    rcases hpending with hp|⟨hfirst,hlt,hdone,hn,hrun⟩
    · exact absurd hp.1 hopen
    · subst hfirst
      obtain ⟨bp1,v,hbp1,hinv1,hbits1⟩ := hinsert bp done num h hn (by omega)
      rw [setLoop,if_neg hi,if_neg hopen,hbp1]
      refine ⟨bp1,rfl,hinv1,fun b => ?_⟩
      rw [hbits1,todo_run (fun j hge hj => hrun j hge (by omega) hj) (by omega) (by omega)]
      exact ⟨fun hb => hb.imp_right Or.inl,
        fun hb => hb.imp_right fun hor => hor.resolve_right (todo_end (Nat.le_refl _) b)⟩

end Setting

/-! ## Getting -/

/-- The inner loop sets the bits of its range. -/
theorem fillLoop_spec {offset count : ℕ} {out : List UInt8} (h : offset+count≤8*out.length) :
    (fillLoop offset count out).length=out.length ∧
      ∀ k, bitAt (fillLoop offset count out) k=true ↔
        bitAt out k=true ∨ (offset≤k ∧ k<offset+count) := by
  induction offset, count, out using fillLoop.induct with
  | case1 offset count out hpos hbytes ih =>
    have hfit : offset/8+count/8≤out.length := by omega
    have hlength := memset_length hfit 0xFF
    obtain ⟨hlen,hbits⟩ := ih (by rw [hlength]; omega)
    rw [fillLoop,dif_pos hpos,if_pos hbytes]
    refine ⟨hlen.trans hlength,fun k => ?_⟩
    rw [hbits,bitAt_memset hfit]
    by_cases hin : 8*(offset/8)≤k ∧ k<8*(offset/8+count/8)
    · rw [if_pos hin,byteBit_full (Nat.mod_lt k (by omega))]
      exact ⟨fun _ => Or.inr (by omega),fun _ => Or.inl rfl⟩
    · rw [if_neg hin]
      exact or_congr_right (by omega)
  | case2 offset count out hpos hbit ih =>
    have hfit : offset/8<out.length := by omega
    obtain ⟨hlen,hbits⟩ := ih (by rw [fastSetBit64,setBit64_length]; omega)
    rw [fillLoop,dif_pos hpos,if_neg hbit]
    refine ⟨hlen.trans (setBit64_length offset out),fun k => ?_⟩
    rw [hbits,fastSetBit64,bitAt_setBit64 hfit,Bool.or_eq_true,decide_eq_true_iff,or_assoc]
    exact or_congr_right (by omega)
  | case3 offset count out hzero =>
    rw [fillLoop,dif_neg hzero]
    exact ⟨rfl,fun k => ⟨Or.inl,fun hb => hb.resolve_right (by omega)⟩⟩

section Getting

variable {bp : RbPrivate} {start num : ℕ}

/-- The bits of one extent, clipped to the range. -/
theorem fillExtent_spec {pos count : ℕ} {out : List UInt8} (hge : start≤pos)
    (hlt : pos ≤ start+num) (hcount : count<2^31) (hend : pos+count<2^64)
    (hout : num≤8*out.length) :
    (fillExtent start num pos count out).length=out.length ∧
      ∀ k, bitAt (fillExtent start num pos count out) k=true ↔
        bitAt out k=true ∨ (k<num ∧ pos ≤ start+k ∧ start+k<pos+count) := by
  have hsum : toU64 ((pos : ℤ)+count)=pos+count := toU64_of_lt (by omega) hend
  rw [fillExtent,hsum]
  by_cases hclip : start+num<pos+count
  · have hrest : ((start : ℤ)+num-pos)=((start+num-pos : ℕ) : ℤ) := by omega
    rw [if_pos hclip,hrest,toInt_of_lt (by omega),Int.toNat_natCast]
    obtain ⟨hlen,hbits⟩ := @fillLoop_spec (pos-start) (start+num-pos) out (by omega)
    exact ⟨hlen,fun k => (hbits k).trans (or_congr_right (by omega))⟩
  · rw [if_neg hclip,Int.toNat_natCast]
    obtain ⟨hlen,hbits⟩ := @fillLoop_spec (pos-start) count out (by omega)
    exact ⟨hlen,fun k => (hbits k).trans (or_congr_right (by omega))⟩

/-- The lengths that `rb_get_bmap_range` computes for this extent fit into an
`int`. -/
structure FitsInt (start num : ℕ) (e : Extent) : Prop where
  /-- An extent before the range is near. -/
  before : e.stop ≤ start → start≤e.stop+2^31
  /-- An extent in the range ends soon. -/
  inside : start<e.stop → e.start < start+num → e.stop < max start e.start+2^31
  /-- Its end is a 64-bit number. -/
  stop_lt : e.stop<2^64

/-- The loop ends, whatever the lengths are. -/
theorem getLoop_returns {l r : List ℕ} {fuel : ℕ} (out : List UInt8) (h : Inv bp)
    (hin : bp.root.inorder=l++r) (hfuel : r.length≤fuel) :
    ∃ out', getLoop bp start num fuel r.head? out=some out' := by
  induction r generalizing fuel l out with
  | nil => exact ⟨out,by rw [List.head?_nil,getLoop]⟩
  | cons p r ih =>
    cases fuel with
    | zero => simp at hfuel
    | succ fuel =>
      have hnext : next p bp.root=r.head? := next_eq hin h.sorted.nodup
      have hrest := fun out1 => @ih (l++[p]) fuel out1 (by rw [hin,List.append_assoc]; rfl)
        (by simpa using hfuel)
      rw [List.head?_cons,getLoop,hnext]
      dsimp only
      split_ifs
      · exact ⟨out,rfl⟩
      · exact hrest _
      · exact hrest _
      · exact hrest _

/-- The loop sets the bits that the extents have in the range. -/
theorem getLoop_spec {l r : List ℕ} {fuel : ℕ} {out : List UInt8} (h : Inv bp)
    (hin : bp.root.inorder=l++r) (hfit : ∀ p∈r, FitsInt start num (bp.extent p))
    (hout : num≤8*out.length) (hfuel : r.length≤fuel) :
    ∃ out', getLoop bp start num fuel r.head? out=some out' ∧ out'.length=out.length ∧
      ∀ k, bitAt out' k=true ↔
        bitAt out k=true ∨ (k<num ∧ Covers bp.extent r (start+k)) := by
  induction r generalizing fuel l out with
  | nil =>
    refine ⟨out,by rw [List.head?_nil,getLoop],rfl,fun k => ?_⟩
    exact ⟨Or.inl,fun hb => hb.resolve_right fun hc => covers_nil _ hc.2⟩
  | cons p r ih =>
    cases fuel with
    | zero => simp at hfuel
    | succ fuel =>
      have hnext : next p bp.root=r.head? := next_eq hin h.sorted.nodup
      have haround := h.around hin
      have hp := hfit p List.mem_cons_self
      have hstop := hp.stop_lt
      have hpos := h.sorted.positive p (by rw [hin]; simp)
      have hrest : ∀ out1 : List UInt8, out1.length=out.length →
          (∀ k, bitAt out1 k=true ↔
            bitAt out k=true ∨ (k<num ∧ (bp.extent p).Has (start+k))) →
          ∃ out', getLoop bp start num fuel r.head? out1=some out' ∧ out'.length=out.length ∧
            ∀ k, bitAt out' k=true ↔
              bitAt out k=true ∨ (k<num ∧ Covers bp.extent (p::r) (start+k)) := by
        intro out1 hlen1 hbits1
        obtain ⟨out',hloop,hlen,hbits⟩ := @ih (l++[p]) fuel out1
          (by rw [hin,List.append_assoc]; rfl) (fun q hq => hfit q (List.mem_cons_of_mem p hq))
          (by rw [hlen1]; exact hout) (by simpa using hfuel)
        refine ⟨out',hloop,hlen.trans hlen1,fun k => ?_⟩
        rw [hbits,hbits1,covers_cons,or_assoc,←and_or_left]
      rw [List.head?_cons,getLoop,hnext]
      dsimp only
      by_cases hbreak : start+num≤(bp.extent p).start
      · rw [if_pos hbreak]
        refine ⟨out,rfl,rfl,fun k => ⟨Or.inl,fun hb => hb.resolve_right ?_⟩⟩
        rintro ⟨hk,hcovers⟩
        rcases (covers_cons _).mp hcovers with hb|hb
        · have hb' := hb.1
          omega
        · have hb' := haround.right _ hb
          simp only [Extent.stop] at hb'
          omega
      · rw [if_neg hbreak]
        have hbefore := hp.before
        have hinside := hp.inside
        simp only [Extent.Has,Extent.stop] at hbefore hinside hstop hrest
        by_cases hleft : (bp.extent p).start < start
        · rw [if_pos hleft,toInt_sub]
          have hvalue : toInt (((bp.extent p).count : ℤ)-((start : ℤ)-(bp.extent p).start))=
              ((bp.extent p).count : ℤ)-((start : ℤ)-(bp.extent p).start) :=
            toInt_eq (by omega) (by omega)
          rw [hvalue]
          by_cases hneg : ((bp.extent p).count : ℤ)-((start : ℤ)-(bp.extent p).start)<0
          · rw [if_pos hneg]
            exact hrest out rfl fun k => ⟨Or.inl,fun hb => hb.resolve_right (by omega)⟩
          · rw [if_neg hneg]
            have hcast : ((bp.extent p).count : ℤ)-((start : ℤ)-(bp.extent p).start)=
                (((bp.extent p).start+(bp.extent p).count-start : ℕ) : ℤ) := by omega
            rw [hcast]
            obtain ⟨hlen,hbits⟩ := @fillExtent_spec start num start
              ((bp.extent p).start+(bp.extent p).count-start) out (Nat.le_refl _) (by omega)
              (by omega) (by omega) hout
            exact hrest _ hlen fun k => (hbits k).trans (or_congr_right (by omega))
        · rw [if_neg hleft,toInt_of_lt (by omega)]
          obtain ⟨hlen,hbits⟩ := @fillExtent_spec start num (bp.extent p).start
            (bp.extent p).count out (by omega) (by omega) (by omega) (by omega) hout
          exact hrest _ hlen fun k => (hbits k).trans (or_congr_right (by omega))

/-- The walk starts at the extent that has the position, or at a neighbour of
it. -/
theorem getParent_spec (h : Inv bp) (start : ℕ) :
    ∃ l r, bp.root.inorder=l++r ∧ getParent bp start=r.head? ∧
      (∀ p∈l, (bp.extent p).stop ≤ start) ∧
      ∀ p∈r, (bp.extent p).stop ≤ start →
        ∀ b, (bp.extent p).stop≤b → b ≤ start → ¬Bits bp b := by
  rw [getParent]
  rcases hdescend : descend (inside bp start) bp.root [] with ⟨t,path⟩
  cases t with
  | node c tl x tr =>
    have hhas := inside_eq_iff.mp (descend_found hdescend)
    obtain ⟨l,r,hin⟩ := List.append_of_mem (descend_mem hdescend)
    have haround := h.around hin
    refine ⟨l,x::r,hin,rfl,?_,?_⟩
    · intro p hp
      have hp' := haround.before p hp
      have hx := hhas.1
      omega
    · intro p hp hle
      have hx := hhas.2
      rcases List.mem_cons.mp hp with rfl|hp
      · omega
      · have hp' := haround.after p hp
        simp only [Extent.stop] at hp' hle hx
        omega
  | nil =>
    obtain ⟨hin,-,hgt,hlt⟩ := h.missed (h.sorted.monotone_inside start) hdescend
    obtain ⟨l,r,hsplit,hparent,hcase⟩ := parent_split path
    refine ⟨l,r,hin.trans hsplit,hparent,?_,?_⟩
    · intro p hp
      rcases hcase with ⟨rfl,-⟩|⟨x,hx,-⟩
      · exact inside_gt_iff.mp (hgt p hp)
      · exact inside_gt_iff.mp (hgt p (hx ▸ List.mem_append_left _ hp))
    · intro p hp hle b hge hb
      have hafter : ∀ q∈after path, b<(bp.extent q).start := by
        intro q hq
        have hq' := inside_lt_iff.mp (hlt q hq)
        omega
      rcases hcase with ⟨-,rfl⟩|⟨x,hx,rfl⟩
      · have hp' := hafter p hp
        simp only [Extent.stop] at hge
        omega
      · rcases List.mem_cons.mp hp with rfl|hp
        · have haround := h.around (hin.trans (by rw [hx,List.append_assoc]; rfl))
          intro hbits
          rcases (haround.bits b).mp hbits with hb'|hb'|⟨q,hq,hb'⟩
          · have hlt' := haround.left b hb'
            simp only [Extent.stop] at hge
            omega
          · have hlt' := hb'.2
            omega
          · have hq' := hafter q hq
            have hge' := hb'.1
            omega
        · have hp' := hafter p hp
          simp only [Extent.stop] at hge
          omega

/-- If the first bit is clear, the last set bit before it is near. -/
def NearBefore (bits : ℕ → Prop) (start : ℕ) : Prop :=
  ∀ b < start, bits b → (∀ c, b<c → c ≤ start → ¬bits c) → start≤b+1+2^31

/-- No run of set bits that an `int` cannot count starts in the range. -/
def ShortRuns (bits : ℕ → Prop) (start num : ℕ) : Prop :=
  ∀ b, start≤b → b < start+num → ∃ c, b≤c ∧ c<b+2^31 ∧ ¬bits c

theorem has_bits {p b : ℕ} (hp : p∈bp.root.inorder) (hb : (bp.extent p).Has b) : Bits bp b :=
  ⟨p,hp,hb⟩

/-- `rb_get_bmap_range` on a tree with an extent. -/
theorem rbGetBmapRange_spec (h : Inv bp) {bitmap : Bitmap} {out : List UInt8}
    (hbound : ∀ b, Bits bp b → b+1<2^64) (hsome : ∃ b, Bits bp b)
    (hnear : NearBefore (Bits bp) (start-bitmap.start))
    (hshort : ShortRuns (Bits bp) (start-bitmap.start) num) (hout : (num+7)/8≤out.length) :
    ∃ out', rbGetBmapRange bitmap bp start num out=some out' ∧
      ∀ k<8*((num+7)/8), bitAt out' k=true ↔ k<num ∧ Bits bp (start-bitmap.start+k) := by
  obtain ⟨l,r,hin,hparent,hbefore,hgap⟩ := getParent_spec h (start-bitmap.start)
  have hfuel : r.length≤bp.root.inorder.length := by
    rw [hin,List.length_append]
    exact Nat.le_add_left _ _
  have hwalk : ∀ out', getLoop bp (start-bitmap.start) num bp.root.inorder.length r.head?
      (memset out 0 0 ((num+7)/8))=some out' →
      rbGetBmapRange bitmap bp start num out=some out' := by
    intro out' hloop
    rw [rbGetBmapRange]
    split
    · next hroot =>
      obtain ⟨b,hb⟩ := hsome
      rw [Bits,hroot] at hb
      exact absurd hb (covers_nil b)
    · rw [hparent]
      exact hloop
  rcases Nat.eq_zero_or_pos num with hzero|hnum
  · obtain ⟨out',hloop⟩ := @getLoop_returns bp (start-bitmap.start) num l r _
      (memset out 0 0 ((num+7)/8)) h hin hfuel
    exact ⟨out',hwalk out' hloop,fun k hk => by omega⟩
  have hfit : ∀ p∈r, FitsInt (start-bitmap.start) num (bp.extent p) := by
    intro p hp
    have hmem : p∈bp.root.inorder := hin ▸ List.mem_append_right l hp
    have hpos := h.sorted.positive p hmem
    have hlast : Bits bp ((bp.extent p).stop-1) :=
      has_bits hmem ⟨by simp only [Extent.stop]; omega,by simp only [Extent.stop]; omega⟩
    constructor
    · intro hle
      have hclear := hgap p hp hle
      by_contra hfar
      have hle' := hnear ((bp.extent p).stop-1) (by simp only [Extent.stop] at hle ⊢; omega) hlast
        (fun c hc hcs => hclear c (by omega) hcs)
      simp only [Extent.stop] at hle' hfar
      omega
    · intro hlt hstart
      obtain ⟨c,hge,hc,hclear⟩ := hshort (max (start-bitmap.start) (bp.extent p).start)
        (Nat.le_max_left _ _) (by omega)
      by_contra hlong
      exact hclear (has_bits hmem ⟨by omega,by omega⟩)
    · have hlt := hbound _ hlast
      simp only [Extent.stop] at hlt ⊢
      omega
  have hclear : ∀ k<8*((num+7)/8), bitAt (memset out 0 0 ((num+7)/8)) k=false := by
    intro k hk
    rw [bitAt_memset (by omega),if_pos (by omega),byteBit_zero]
  have hlength : (memset out 0 0 ((num+7)/8)).length=out.length := memset_length (by omega) 0
  obtain ⟨out',hloop,-,hbits⟩ := @getLoop_spec bp (start-bitmap.start) num l r
    bp.root.inorder.length (memset out 0 0 ((num+7)/8)) h hin hfit (by omega)
    hfuel
  refine ⟨out',hwalk out' hloop,fun k hk => ?_⟩
  rw [hbits,hclear k hk]
  have hcovers : Bits bp (start-bitmap.start+k) ↔
      Covers bp.extent r (start-bitmap.start+k) := by
    rw [Bits,hin,covers_append]
    refine ⟨fun hb => hb.resolve_left ?_,Or.inr⟩
    rintro ⟨q,hq,hb⟩
    have hq' := hbefore q hq
    have hb' := hb.2
    omega
  rw [hcovers]
  exact ⟨fun hb => hb.resolve_left (fun hf => by cases hf),Or.inr⟩

/-- `rb_get_bmap_range` on an empty tree. -/
theorem rbGetBmapRange_empty (h : Inv bp) {bitmap : Bitmap} {out : List UInt8}
    (hnone : ¬∃ b, Bits bp b) : rbGetBmapRange bitmap bp start num out=some out := by
  rw [rbGetBmapRange]
  split
  · rfl
  · next c l x r hroot =>
    have hmem : x∈bp.root.inorder := by
      rw [hroot]
      simp [RbTree.Tree.inorder]
    have hpos := h.sorted.positive x hmem
    exact absurd ⟨(bp.extent x).start,has_bits hmem ⟨Nat.le_refl _,by
      simp only [Extent.stop]
      omega⟩⟩ hnone

end Getting

end AndroidPlatform.RbBitmap
