import AndroidPlatform.RbBitmapRange
import AndroidPlatform.RbBitmapResize
import AndroidPlatform.TransitionSystem

/-!
# The two backends side by side

A bitmap is used through all functions of the red-black tree backend, resizing
and bulk transfer included, and the invariant holds all the time. Then the
values that marking and unmarking return are compared with those of the bit
array backend, and bulk transfer with single bits.
-/

namespace AndroidPlatform.RbBitmap

open RbTree WireBytes Bitops BaBitmap TransitionSystem

/-! ## Reachable bitmaps -/

/-- A call of a function of the backend that changes the bitmap. -/
inductive Call where
  | op (op : Op)
  | setBmapRange (start num : ℕ) (input : List UInt8)
  | resizeBmap (newEnd newRealEnd : ℕ)

/-- The effect of a call. -/
def call (alloc : Allocator) (s : GenericBitmap×RbPrivate) :
    Call → Option (GenericBitmap×RbPrivate)
  | .op op => (step alloc s.1.toBitmap s.2 op).map fun bp => (s.1,bp)
  | .setBmapRange start num input =>
    (rbSetBmapRange alloc s.1.toBitmap s.2 start num input).map fun bp => (s.1,bp)
  | .resizeBmap newEnd newRealEnd =>
    if h : s.1.start≤newEnd ∧ newEnd≤newRealEnd ∧ newRealEnd+1<2^64 then
      rbResizeBmap s.1 s.2 ⟨newEnd,newRealEnd,h.1,h.2.1,h.2.2⟩
    else none

/-- Calls are for bits inside the bitmap, and the index of each run of set bits
in a buffer fits into an `int`. -/
def Call.Allowed (s : GenericBitmap×RbPrivate) : Call → Prop
  | .op o => o.Valid s.1.toBitmap
  | .setBmapRange start num input => s.1.start ≤ start ∧ start+num ≤ s.1.realEnd+1 ∧
    num<2^32 ∧ RunsFit input num
  | .resizeBmap newEnd newRealEnd => s.1.start≤newEnd ∧ newEnd≤newRealEnd ∧ newRealEnd+1<2^64

/-- The bitmaps that calls make of a new one. -/
def ReachableBitmap (alloc : Allocator) (bitmap : GenericBitmap) (bp : RbPrivate) : Prop :=
  ∃ new : GenericBitmap,
    Reachable (call alloc) Call.Allowed (new,rbAllocPrivateData) (bitmap,bp)

/-- `rb_set_bmap_range` adds the set bits of the buffer. -/
theorem rbSetBmapRange_spec (alloc : Allocator) {bitmap : Bitmap} {bp : RbPrivate}
    {start num : ℕ} {input : List UInt8} (h : Inv bp) (hstart : bitmap.start ≤ start)
    (hrange : start+num≤bitmap.realEnd+1) (hnum : num<2^32) (hruns : RunsFit input num) :
    ∃ bp', rbSetBmapRange alloc bitmap bp start num input=some bp' ∧ Inv bp' ∧
      ∀ b, Bits bp' b ↔ Bits bp b ∨
        ∃ j<num, bitAt input j=true ∧ b=start-bitmap.start+j := by
  have hlt := bitmap.realEnd_lt
  obtain ⟨bp',hbp',hinv,hbits⟩ := @setLoop_spec input num 0 0 (-1) alloc bitmap start bp hstart
    (by omega) hnum hruns h (Or.inl ⟨rfl,rfl,Or.inl rfl⟩)
  refine ⟨bp',hbp',hinv,fun b => (hbits b).trans (or_congr_right ?_)⟩
  exact exists_congr fun j => and_congr_right fun _ =>
    ⟨And.right,fun hb => ⟨Nat.zero_le j,hb⟩⟩

/-- What holds of a reachable bitmap: the invariant of the tree, and positions
that fit into 64 bits. -/
structure Proper (s : GenericBitmap×RbPrivate) : Prop where
  inv : Inv s.2
  bound : ∀ b, Bits s.2 b → b+1<2^64

/-- A single operation sets bits of the bitmap only. -/
theorem step_bits (alloc : Allocator) {bitmap : Bitmap} {bp bp' : RbPrivate} (h : Inv bp)
    {op : Op} (hvalid : op.Valid bitmap) (hstep : step alloc bitmap bp op=some bp') :
    Inv bp' ∧ ∀ b, Bits bp' b → Bits bp b ∨ b≤bitmap.realEnd := by
  cases op with
  | markBmap arg =>
    obtain ⟨bp1,v,hbp1,hinv,-,hbits⟩ :=
      @rbInsertExtent_spec alloc bp h (arg-bitmap.start) 1 Nat.one_pos
    rw [step,rbMarkBmap,hbp1] at hstep
    cases hstep
    have hle := hvalid.2
    exact ⟨hinv,fun b hb => ((hbits b).mp hb).imp_right fun hin => by omega⟩
  | unmarkBmap arg =>
    obtain ⟨bp1,v,hbp1,hinv,hbits⟩ :=
      @rbRemoveExtent_spec bp (arg-bitmap.start) 1 alloc h Nat.one_pos
    rw [step,rbUnmarkBmap,hbp1] at hstep
    cases hstep
    exact ⟨hinv,fun b hb => Or.inl ((hbits b).mp hb).1⟩
  | markBmapExtent arg num =>
    obtain ⟨bp1,v,hbp1,hinv,-,hbits⟩ :=
      @rbInsertExtent_spec alloc bp h (arg-bitmap.start) num hvalid.2.1
    rw [step,rbMarkBmapExtent,hbp1] at hstep
    cases hstep
    have hle := hvalid.2.2
    exact ⟨hinv,fun b hb => ((hbits b).mp hb).imp_right fun hin => by omega⟩
  | unmarkBmapExtent arg num =>
    obtain ⟨bp1,v,hbp1,hinv,hbits⟩ :=
      @rbRemoveExtent_spec bp (arg-bitmap.start) num alloc h hvalid.2.1
    rw [step,rbUnmarkBmapExtent,hbp1] at hstep
    cases hstep
    exact ⟨hinv,fun b hb => Or.inl ((hbits b).mp hb).1⟩
  | testBmap arg =>
    obtain ⟨hroot,hext,hinv,-⟩ := @rbTestBit_tested bp (arg-bitmap.start) h
    cases hstep
    refine ⟨hinv,fun b hb => Or.inl ?_⟩
    change Covers (rbTestBit bp (arg-bitmap.start)).1.extent
      (rbTestBit bp (arg-bitmap.start)).1.root.inorder b at hb
    rw [hroot,hext] at hb
    exact hb
  | testClearBmapExtent start len =>
    obtain ⟨v,hv,-⟩ := rbTestClear_spec h (start-bitmap.start) len
    rw [step,rbTestClearBmapExtent,hv] at hstep
    cases hstep
    exact ⟨h,fun b hb => Or.inl hb⟩
  | clearBmap =>
    have hfree := rbFreeTree_spec h.rb h.sorted.nodup (Nat.le_refl bp.root.inorder.length)
    rw [step,rbClearBmap,hfree] at hstep
    cases hstep
    exact ⟨⟨⟨⟨0,.nil⟩,rfl⟩,⟨fun _ hp => absurd hp List.not_mem_nil,List.Pairwise.nil⟩,
      (fun _ hp => by cases hp),(fun _ hp => by cases hp),fun _ _ hp => by cases hp⟩,
      fun b hb => absurd hb (covers_nil b)⟩

/-- Every call keeps this. -/
theorem Proper.call (alloc : Allocator) {s t : GenericBitmap×RbPrivate} {c : Call}
    (h : Proper s) (hallowed : c.Allowed s) (hcall : call alloc s c=some t) : Proper t := by
  have hlt := s.1.realEnd_lt
  cases c with
  | op op =>
    rw [RbBitmap.call,Option.map_eq_some_iff] at hcall
    obtain ⟨bp,hstep,rfl⟩ := hcall
    obtain ⟨hinv,hbits⟩ := step_bits alloc h.inv hallowed hstep
    refine ⟨hinv,fun b hb => (hbits b hb).elim (h.bound b) fun hle => by omega⟩
  | setBmapRange start num input =>
    rw [RbBitmap.call,Option.map_eq_some_iff] at hcall
    obtain ⟨bp,hset,rfl⟩ := hcall
    obtain ⟨hstart,hrange,hnum,hruns⟩ := hallowed
    obtain ⟨bp',hbp',hinv,hbits⟩ :=
      rbSetBmapRange_spec alloc h.inv hstart hrange hnum hruns
    rw [hset,Option.some.injEq] at hbp'
    subst hbp'
    refine ⟨hinv,fun b hb => ?_⟩
    rcases (hbits b).mp hb with hb|⟨j,hj,-,hb⟩
    · exact h.bound b hb
    · omega
  | resizeBmap newEnd newRealEnd =>
    have hfit : s.1.start≤newEnd ∧ newEnd≤newRealEnd ∧ newRealEnd+1<2^64 := hallowed
    rw [RbBitmap.call,dif_pos hfit] at hcall
    obtain ⟨bp',hbp',hinv,hbits⟩ := rbResizeBmap_spec h.inv
      (⟨newEnd,newRealEnd,hfit.1,hfit.2.1,hfit.2.2⟩ : NewSize s.1)
    rw [hbp',Option.some.injEq] at hcall
    subst hcall
    exact ⟨hinv,fun b hb => h.bound b ((hbits b).mp hb).1⟩

theorem ReachableBitmap.proper {alloc : Allocator} {bitmap : GenericBitmap} {bp : RbPrivate}
    (h : ReachableBitmap alloc bitmap bp) : Proper (bitmap,bp) := by
  obtain ⟨new,hreach⟩ := h
  exact hreach.invariant ⟨inv_rbAllocPrivateData,fun b hb => absurd hb (covers_nil b)⟩
    fun s t c _ hs hallowed hcall => hs.call alloc hallowed hcall

/-! ## Old values -/

/-- Once the returned value is set, the second loop of `rb_remove_extent` keeps
it. -/
theorem removeLoop_true {start count fuel : ℕ} {bp bp' : RbPrivate} {node : Option ℕ} {v : Bool}
    (h : removeLoop fuel bp node start count true=some (bp',v)) : v=true := by
  induction fuel generalizing bp node with
  | zero =>
    cases node with
    | none =>
      rw [removeLoop] at h
      cases h
      rfl
    | some p =>
      rw [removeLoop] at h
      cases h
  | succ fuel ih =>
    cases node with
    | none =>
      rw [removeLoop] at h
      cases h
      rfl
    | some p =>
      rw [removeLoop] at h
      split_ifs at h
      · exact ih h
      · cases h
        rfl
      · obtain ⟨bp1,-,hloop⟩ := Option.bind_eq_some_iff.mp h
        exact ih hloop
      · cases h
        rfl

theorem removeSearch_true {alloc : Allocator} {start count : ℕ} {t : RbTree.Tree ℕ}
    {path : List (Frame ℕ)} {bp bp' : RbPrivate} {v : Bool}
    (h : removeSearch alloc start count t path bp true=some (bp',v)) : v=true := by
  induction t generalizing path bp with
  | nil =>
    rw [removeSearch] at h
    exact removeLoop_true h
  | node c l x r ihl ihr =>
    rw [removeSearch] at h
    dsimp only at h
    rw [ite_self] at h
    split_ifs at h
    · exact ihl h
    · exact ihr h
    · obtain ⟨result,-,heq⟩ := Option.map_eq_some_iff.mp h
      cases heq
      rfl
    all_goals first
      | exact ihr h
      | (cases h; rfl)
      | (obtain ⟨bp1,-,hloop⟩ := Option.bind_eq_some_iff.mp h; exact removeLoop_true hloop)

/-- The second loop also returns 1 for an extent that only touches the end of
the range. -/
theorem removeLoop_value {l r : List ℕ} {start count fuel : ℕ} {bp bp' : RbPrivate} {v : Bool}
    (h : Inv bp) (hin : bp.root.inorder=l++r)
    (hr : ∀ p∈r, (bp.extent p).stop ≤ start ∨ start≤(bp.extent p).start)
    (hfuel : r.length≤fuel)
    (heq : removeLoop fuel bp r.head? start count false=some (bp',v)) :
    v=true ↔ ∃ b, start≤b ∧ b ≤ start+count ∧ Covers bp.extent r b := by
  induction r generalizing fuel l with
  | nil =>
    rw [List.head?_nil,removeLoop] at heq
    cases heq
    refine ⟨(fun hf => by cases hf),?_⟩
    rintro ⟨b,-,-,hb⟩
    exact absurd hb (covers_nil b)
  | cons p r ih =>
    cases fuel with
    | zero => simp at hfuel
    | succ fuel =>
      have hnext : next p bp.root=r.head? := next_eq hin h.sorted.nodup
      have haround := h.around hin
      have hpos := h.sorted.positive p (by rw [hin]; simp)
      rw [List.head?_cons,removeLoop,hnext] at heq
      by_cases hbelow : (bp.extent p).stop ≤ start
      · rw [if_pos hbelow] at heq
        rw [@ih (l++[p]) fuel (by rw [hin,List.append_assoc]; rfl)
          (fun q hq => hr q (List.mem_cons_of_mem p hq)) (by simpa using hfuel) heq]
        refine exists_congr fun b => and_congr_right fun hge => and_congr_right fun _ => ?_
        rw [covers_cons]
        refine ⟨Or.inr,fun hb => hb.resolve_left fun hhas => ?_⟩
        have hlt := hhas.2
        omega
      · rw [if_neg hbelow] at heq
        have hge := (hr p List.mem_cons_self).resolve_left hbelow
        by_cases hbreak : start+count<(bp.extent p).start
        · rw [if_pos hbreak] at heq
          cases heq
          refine ⟨(fun hf => by cases hf),?_⟩
          rintro ⟨b,-,hle,hb⟩
          rcases (covers_cons b).mp hb with hb|hb
          · have hb' := hb.1
            omega
          · have hb' := haround.right b hb
            simp only [Extent.stop] at hb'
            omega
        · rw [if_neg hbreak] at heq
          have hv : v=true := by
            split at heq
            · obtain ⟨bp1,-,hloop⟩ := Option.bind_eq_some_iff.mp heq
              exact removeLoop_true hloop
            · cases heq
              rfl
          refine ⟨fun _ => ⟨(bp.extent p).start,hge,by omega,?_⟩,fun _ => hv⟩
          rw [covers_cons]
          exact Or.inl ⟨Nat.le_refl _,by simp only [Extent.stop]; omega⟩

/-- Unmarking where an extent has the start returns 1. -/
theorem removeSearch_node_true {alloc : Allocator} {start count p : ℕ} {c : Color}
    {l r : RbTree.Tree ℕ} {path : List (Frame ℕ)} {bp bp' : RbPrivate} {v : Bool}
    (hhas : (bp.extent p).Has start)
    (h : removeSearch alloc start count (.node c l p r) path bp false=some (bp',v)) : v=true := by
  obtain ⟨hge,hlt⟩ := hhas
  have hcount : (bp.extent p).count≠0 := by
    simp only [Extent.stop] at hlt
    omega
  rw [removeSearch,if_neg (by omega),if_neg (by omega)] at h
  by_cases hsplit : (bp.extent p).start < start ∧ start+count<(bp.extent p).stop
  · rw [if_pos hsplit] at h
    obtain ⟨result,-,heq⟩ := Option.map_eq_some_iff.mp h
    cases heq
    rfl
  · rw [if_neg hsplit] at h
    by_cases hcovered : (bp.extent p).stop ≤ start+count
    · simp only [if_pos hcovered] at h
      split_ifs at h
      · obtain ⟨bp1,-,hloop⟩ := Option.bind_eq_some_iff.mp h
        exact removeLoop_true hloop
      · cases h
        rfl
      · exact removeSearch_true h
    · simp only [if_neg hcovered] at h
      rw [if_neg hcount,if_pos (by omega)] at h
      cases h
      rfl

/-- The value of `rb_remove_extent`: some bit of the range is set, or the bit
right behind it. -/
theorem rbRemoveExtent_value {alloc : Allocator} {start count : ℕ} {bp bp' : RbPrivate} {v : Bool}
    (h : Inv bp) (heq : rbRemoveExtent alloc start count bp=some (bp',v)) :
    v=true ↔ ∃ b, start≤b ∧ b ≤ start+count ∧ Bits bp b := by
  unfold rbRemoveExtent at heq
  split at heq
  · next hroot =>
    cases heq
    refine ⟨(fun hf => by cases hf),?_⟩
    rintro ⟨b,-,-,hb⟩
    rw [Bits,hroot] at hb
    exact absurd hb (covers_nil b)
  · next hroot =>
    rw [←hroot] at heq
    rcases hdescend : descend (inside bp start) bp.root [] with ⟨t,path⟩
    cases t with
    | nil =>
      obtain ⟨l,r,hin',hparent,hbefore,hafter⟩ := h.missed_parent hdescend
      rw [removeSearch_missed alloc hdescend,hparent] at heq
      rw [removeLoop_value h hin' hafter
        (by rw [hin',List.length_append]; exact Nat.le_add_left _ _) heq]
      refine exists_congr fun b => and_congr_right fun hge => and_congr_right fun _ => ?_
      rw [Bits,hin',covers_append]
      refine ⟨Or.inr,fun hb => hb.resolve_left ?_⟩
      rintro ⟨q,hq,hb⟩
      have hq' := hbefore q hq
      have hb' := hb.2
      omega
    | node c l x r =>
      rw [removeSearch_found alloc hdescend] at heq
      have hhas := inside_eq_iff.mp (descend_found hdescend)
      refine ⟨fun _ => ⟨start,Nat.le_refl _,Nat.le_add_right _ _,x,descend_mem hdescend,hhas⟩,
        fun _ => removeSearch_node_true hhas heq⟩

/-- Marking and unmarking a bit tell whether it was set, in both backends. -/
def OldValuesAgree (alloc : Allocator) (bitmap : GenericBitmap) (bp : RbPrivate)
    (bitarray : List UInt8) (x : ℕ) : Prop :=
  (∃ bp' v, rbMarkBmap alloc bitmap.toBitmap bp x=some (bp',v) ∧
    (v=true ↔ (rbTestBmap bitmap.toBitmap bp x).2=true) ∧
    ((baMarkBmap bitmap.toBitmap bitarray x).2≠0 ↔ v=true)) ∧
  ∃ bp' v, rbUnmarkBmap alloc bitmap.toBitmap bp x=some (bp',v) ∧
    (v=true ↔ (rbTestBmap bitmap.toBitmap bp x).2=true) ∧
    ((baUnmarkBmap bitmap.toBitmap bitarray x).2≠0 ↔ v=true)

/-- The backends report the same old values of a bit exactly if the bit is set
or the next one is clear. Unmarking a clear bit right before a set one returns 1
from the tree. -/
theorem oldValuesAgree_iff {alloc : Allocator} {bitmap : GenericBitmap} {bp : RbPrivate}
    {bitarray : List UInt8} (hreach : ReachableBitmap alloc bitmap bp)
    (hsame : SameContent bitmap bp bitarray) {x : ℕ} (hx : bitmap.start≤x)
    (hend : x≤bitmap.realEnd) :
    OldValuesAgree alloc bitmap bp bitarray x ↔
      (Bits bp (x-bitmap.start) ∨ ¬Bits bp (x+1-bitmap.start)) := by
  have h := hreach.proper.inv
  have htest := (@rbTestBit_tested bp (x-bitmap.start) h).value
  have hbit := hsame.bits x hx hend
  have hnext : x+1-bitmap.start=x-bitmap.start+1 := by omega
  obtain ⟨bp1,v1,hmark,-,hv1,-⟩ :=
    @rbInsertExtent_spec alloc bp h (x-bitmap.start) 1 Nat.one_pos
  obtain ⟨bp2,v2,hunmark,-,-⟩ := @rbRemoveExtent_spec bp (x-bitmap.start) 1 alloc h Nat.one_pos
  have hv2 := rbRemoveExtent_value h hunmark
  have hold : (∃ b, x-bitmap.start≤b ∧ b≤x-bitmap.start+1 ∧ Bits bp b) ↔
      (Bits bp (x-bitmap.start) ∨ Bits bp (x+1-bitmap.start)) := by
    rw [hnext]
    constructor
    · rintro ⟨b,hge,hle,hb⟩
      rcases Nat.eq_or_lt_of_le hge with heq|hlt
      · exact Or.inl (heq ▸ hb)
      · have heq : b=x-bitmap.start+1 := by omega
        exact Or.inr (heq ▸ hb)
    · rintro (hb|hb)
      · exact ⟨_,Nat.le_refl _,by omega,hb⟩
      · exact ⟨_,by omega,Nat.le_refl _,hb⟩
  have hmarkArray : (baMarkBmap bitmap.toBitmap bitarray x).2≠0 ↔ Bits bp (x-bitmap.start) :=
    (setBit64_old _ _).trans hbit.symm
  have hunmarkArray : (baUnmarkBmap bitmap.toBitmap bitarray x).2≠0 ↔ Bits bp (x-bitmap.start) :=
    (clearBit64_old _ _).trans hbit.symm
  constructor
  · rintro ⟨-,bp',v,heq,hv,-⟩
    rw [rbUnmarkBmap,hunmark,Option.some.injEq,Prod.mk.injEq] at heq
    obtain ⟨-,rfl⟩ := heq
    by_cases hset : Bits bp (x-bitmap.start)
    · exact Or.inl hset
    · refine Or.inr fun hafter => hset ?_
      exact htest.mp (hv.mp (hv2.mpr (hold.mpr (Or.inr hafter))))
  · intro hcond
    refine ⟨⟨bp1,v1,hmark,hv1.trans htest.symm,hmarkArray.trans hv1.symm⟩,?_⟩
    have hv : v2=true ↔ Bits bp (x-bitmap.start) := by
      rw [hv2,hold]
      refine ⟨fun hb => hb.elim id fun hafter => ?_,Or.inl⟩
      exact hcond.resolve_right fun hclear => hclear hafter
    exact ⟨bp2,v2,hunmark,hv.trans htest.symm,hunmarkArray.trans hv.symm⟩

theorem reachable_singleTree : ReachableBitmap bumpAllocator paddedBitmap singleTree :=
  ⟨paddedBitmap,Reachable.step (a := .op (.markBmap 3)) Reachable.start
    (by decide : Op.Valid paddedBitmap.toBitmap (.markBmap 3)) rfl⟩

theorem sameContent_single : SameContent paddedBitmap singleTree singleArray := by
  have hbits : ∀ x<17, 1≤x → (Bits singleTree (x-1) ↔ bitAt singleArray (x-1)=true) := by decide
  refine ⟨reachable_singleTree.proper.inv,by decide,fun x hx hle => ?_⟩
  change x≤16 at hle
  exact hbits x (by omega) hx

/-- A set bit is reported by both. -/
theorem oldValuesAgree_single :
    OldValuesAgree bumpAllocator paddedBitmap singleTree singleArray 3 :=
  (oldValuesAgree_iff reachable_singleTree sameContent_single (by decide) (by decide)).mpr
    (by decide)

/-- The clear bit before it is reported as set by unmarking it in the tree. -/
theorem not_oldValuesAgree_before :
    ReachableBitmap bumpAllocator paddedBitmap singleTree ∧
      SameContent paddedBitmap singleTree singleArray ∧
      ¬OldValuesAgree bumpAllocator paddedBitmap singleTree singleArray 2 := by
  refine ⟨reachable_singleTree,sameContent_single,?_⟩
  rintro ⟨-,bp',v,hunmark,hv,-⟩
  have hvalue : (rbUnmarkBmap bumpAllocator paddedBitmap.toBitmap singleTree 2).map Prod.snd=
      some true := by decide
  rw [hunmark] at hvalue
  have htrue : v=true := by simpa using hvalue
  have htest : (rbTestBmap paddedBitmap.toBitmap singleTree 2).2=false := by decide
  have hset := hv.mp htrue
  rw [htest] at hset
  cases hset

/-! ## Bulk transfer -/

/-- The content of a bitmap after a range of it was written. -/
def Written (bitmap : Bitmap) (bp : RbPrivate) (start num : ℕ) (input : List UInt8) (b : ℕ) :
    Prop :=
  if start-bitmap.start≤b ∧ b < start-bitmap.start+num then
    bitAt input (b-(start-bitmap.start))=true
  else Bits bp b

/-- Bulk transfer agrees with single bits: `rb_set_bmap_range` writes the bits
of the range and no others, `rb_get_bmap_range` reads them and clears the rest
of the last byte, and what was set is read back, as from the bit array where
the range starts with a byte. -/
def TransferAgrees (alloc : Allocator) (bitmap : Bitmap) (bp : RbPrivate) (start num : ℕ)
    (input out : List UInt8) : Prop :=
  (∃ bp', rbSetBmapRange alloc bitmap bp start num input=some bp' ∧
    (∀ x, bitmap.start≤x → x≤bitmap.realEnd → ((rbTestBmap bitmap bp' x).2=true ↔
      if start≤x ∧ x < start+num then bitAt input (x-start)=true
      else (rbTestBmap bitmap bp x).2=true)) ∧
    ∃ out', rbGetBmapRange bitmap bp' start num out=some out' ∧
      ∀ k<num, bitAt out' k=bitAt input k) ∧
  (∃ out', rbGetBmapRange bitmap bp start num out=some out' ∧
    ∀ k<8*((num+7)/8), bitAt out' k=true ↔ k<num ∧ (rbTestBmap bitmap bp (start+k)).2=true) ∧
  ((start-bitmap.start)%8=0 →
    ∀ bitarray : List UInt8, bitarray.length=arraySize bitmap.start bitmap.realEnd →
      ∃ bitarray' out', baSetBmapRange bitarray start num input=some bitarray' ∧
        baGetBmapRange bitarray' start num out=some out' ∧
        ∀ k<num, bitAt out' k=bitAt input k)

/-- If every set bit of the range is set in the buffer too, writing it adds the
set bits of the buffer. -/
theorem written_eq {bitmap : Bitmap} {bp bp' : RbPrivate} {start num : ℕ} {input : List UInt8}
    (hbits : ∀ b, Bits bp' b ↔ Bits bp b ∨
      ∃ j<num, bitAt input j=true ∧ b=start-bitmap.start+j)
    (hkeep : ∀ k<num, Bits bp (start-bitmap.start+k) → bitAt input k=true) :
    Bits bp'=Written bitmap bp start num input := by
  funext b
  refine propext ?_
  rw [hbits,Written]
  by_cases hin : start-bitmap.start≤b ∧ b < start-bitmap.start+num
  · rw [if_pos hin]
    have hb : start-bitmap.start+(b-(start-bitmap.start))=b := by omega
    constructor
    · rintro (hold|⟨j,-,hset,hj⟩)
      · exact hkeep _ (by omega) (by rw [hb]; exact hold)
      · have hindex : b-(start-bitmap.start)=j := by omega
        rw [hindex]
        exact hset
    · exact fun hset => Or.inr ⟨_,by omega,hset,hb.symm⟩
  · rw [if_neg hin]
    refine ⟨fun hor => hor.resolve_right ?_,Or.inl⟩
    rintro ⟨j,hj,-,hb⟩
    omega

theorem not_bits_singleTree {b : ℕ} (h : 3≤b) : ¬Bits singleTree b := by
  rintro ⟨p,hp,hb⟩
  have hall : ∀ p∈singleTree.root.inorder, (singleTree.extent p).stop≤3 := by decide
  have hle := hall p hp
  have hlt := hb.2
  omega

end AndroidPlatform.RbBitmap
