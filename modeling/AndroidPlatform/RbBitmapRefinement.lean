import AndroidPlatform.RbBitmapExtents
import Mathlib.Data.List.Induction

/-!
# The red-black tree backend refines a set of bits

Testing a bit changes only the cached pointers, whatever they were, and agrees
with the covered bits. By induction over a sequence of operations the covered
bits are those that the last operation on them marked.
-/

namespace AndroidPlatform.RbBitmap

open RbTree

/-! ## Testing -/

section Testing

variable {bp : RbPrivate} {bit : ℕ}

/-- A test: the tree and the extents stay, the invariant holds, and the result
tells whether the bit is set. -/
structure Tested (bp : RbPrivate) (bit : ℕ) (result : RbPrivate×Bool) : Prop where
  root : result.1.root=bp.root
  extent : result.1.extent=bp.extent
  inv : Inv result.1
  value : result.2=true ↔ Bits bp bit

theorem searchTree_tested (h : Inv bp) : Tested bp bit (searchTree bp bit) := by
  unfold searchTree
  split
  · next path hdescend =>
    obtain ⟨hin,-,hgt,hlt⟩ := h.missed (h.sorted.monotone_inside bit) hdescend
    refine ⟨rfl,rfl,h,(fun h => by cases h),?_⟩
    rintro ⟨q,hq,hb⟩
    rw [hin,List.mem_append] at hq
    rcases hq with hq|hq
    · have hq' := inside_gt_iff.mp (hgt q hq)
      have hb' := hb.2
      omega
    · have hq' := inside_lt_iff.mp (hlt q hq)
      have hb' := hb.1
      omega
  · next c l ext r path hdescend =>
    have hmem := descend_mem hdescend
    have hhas := inside_eq_iff.mp (descend_found hdescend)
    refine ⟨rfl,rfl,⟨h.rb,h.sorted,h.wcursor,?_,fun _ _ _ hnext => by cases hnext⟩,
      ⟨fun _ => ⟨ext,hmem,hhas⟩,fun _ => rfl⟩⟩
    intro p hp
    cases hp
    exact hmem

theorem testWcursor_tested (h : Inv bp) : Tested bp bit (testWcursor bp bit) := by
  unfold testWcursor
  split
  · exact searchTree_tested h
  · next wcursor hw =>
    split
    · next hhas =>
      exact ⟨rfl,rfl,h,⟨fun _ => ⟨wcursor,h.wcursor wcursor hw,hhas⟩,fun _ => rfl⟩⟩
    · exact searchTree_tested h

/-- Between two extents that follow each other no bit is set. -/
theorem Inv.not_bits_between (h : Inv bp) {l r : List ℕ} {p q : ℕ}
    (hin : bp.root.inorder=l++p::q::r) (hge : (bp.extent p).stop≤bit)
    (hlt : bit<(bp.extent q).start) : ¬Bits bp bit := by
  have hsorted := h.sorted
  rw [hin,sorted_append_cons] at hsorted
  obtain ⟨-,hsorted',-,hbefore,-⟩ := hsorted
  obtain ⟨-,-,-,-,hafter⟩ := (@sorted_append_cons bp.extent [] r q).mp hsorted'
  rw [Bits,hin,covers_append,covers_cons,covers_cons]
  rintro (⟨x,hx,hb⟩|hb|hb|⟨x,hx,hb⟩)
  · have hx' := hbefore x hx
    have hb' := hb.2
    simp only [Extent.stop] at hge hx' hb'
    omega
  · have hb' := hb.2
    omega
  · have hb' := hb.1
    omega
  · have hx' := hafter x hx
    have hb' := hb.1
    simp only [Extent.stop] at hx'
    omega

/-- `rb_test_bit` with whatever is cached. -/
theorem rbTestBit_tested (h : Inv bp) : Tested bp bit (rbTestBit bp bit) := by
  unfold rbTestBit
  split
  · exact searchTree_tested h
  · next rcursor hr =>
    split
    · next hhas =>
      exact ⟨rfl,rfl,h,⟨fun _ => ⟨rcursor,h.rcursor rcursor hr,hhas⟩,fun _ => rfl⟩⟩
    · have hfollows : ∀ q, bp.rcursorNext.or (next rcursor bp.root)=some q →
          ∃ l r, bp.root.inorder=l++rcursor::q::r := by
        intro q hq
        cases hn : bp.rcursorNext with
        | some q' =>
          rw [hn,Option.some_or,Option.some.injEq] at hq
          exact h.rcursorNext rcursor q hr (hn.trans (congrArg some hq))
        | none =>
          obtain ⟨l,r,hin⟩ := List.append_of_mem (h.rcursor rcursor hr)
          rw [hn,Option.none_or,next_eq hin h.sorted.nodup] at hq
          cases r with
          | nil => cases hq
          | cons q' r =>
            cases hq
            exact ⟨l,r,hin⟩
      have hmissed : Tested bp bit
          (testWcursor {bp with rcursor := none, rcursorNext := none} bit) := by
        have hclear : Inv {bp with rcursor := none, rcursorNext := none} :=
          ⟨h.rb,h.sorted,h.wcursor,(fun _ hp => by cases hp),fun _ _ hp => by cases hp⟩
        obtain ⟨hroot,hext,hinv,hvalue⟩ := @testWcursor_tested _ bit hclear
        exact ⟨hroot,hext,hinv,hvalue⟩
      dsimp only
      split
      · exact hmissed
      · next following hfollowing =>
        obtain ⟨l,r,hin⟩ := hfollows following hfollowing
        split
        · next hbetween =>
          refine ⟨rfl,rfl,⟨h.rb,h.sorted,h.wcursor,h.rcursor,?_⟩,(fun h => by cases h),fun hb =>
            absurd hb (h.not_bits_between hin hbetween.1 hbetween.2)⟩
          intro p q hp hq
          cases hr.symm.trans hp
          exact hfollows q hq
        · exact hmissed

theorem testClearLoop_spec {l r : List ℕ} {start len fuel : ℕ} (h : Inv bp)
    (hin : bp.root.inorder=l++r)
    (hr : ∀ p∈r, (bp.extent p).stop ≤ start ∨ start≤(bp.extent p).start)
    (hfuel : r.length≤fuel) :
    ∃ v, testClearLoop bp start len fuel r.head?=some v ∧
      (v=true ↔ ∀ b, start≤b → b < start+len → ¬Covers bp.extent r b) := by
  induction r generalizing fuel l with
  | nil => exact ⟨true,by rw [List.head?_nil,testClearLoop],by simp⟩
  | cons p r ih =>
    cases fuel with
    | zero => simp at hfuel
    | succ fuel =>
      have hnext : next p bp.root=r.head? := next_eq hin h.sorted.nodup
      have haround := h.around hin
      have hsorted := h.sorted
      rw [hin,sorted_append_cons] at hsorted
      have hpos := hsorted.2.2.1
      rw [List.head?_cons,testClearLoop,hnext]
      by_cases hbelow : (bp.extent p).stop ≤ start
      · rw [if_pos hbelow]
        obtain ⟨v,hv,hiff⟩ := @ih (l++[p]) fuel (by rw [hin,List.append_assoc]; rfl)
          (fun q hq => hr q (List.mem_cons_of_mem p hq)) (by simpa using hfuel)
        refine ⟨v,hv,hiff.trans (forall_congr' fun b => forall_congr' fun hb => ?_)⟩
        rw [covers_cons]
        have hnot : ¬(bp.extent p).Has b := by
          intro hb'
          have hb'' := hb'.2
          omega
        exact ⟨fun hf hlt => fun hc => hf hlt (hc.resolve_left hnot),
          fun hf hlt hc => hf hlt (Or.inr hc)⟩
      · rw [if_neg hbelow]
        have hge := (hr p List.mem_cons_self).resolve_left hbelow
        split
        · next hfar =>
          refine ⟨true,rfl,⟨fun _ => ?_,fun _ => rfl⟩⟩
          intro b _ hlt hb
          rcases (covers_cons b).mp hb with hb|hb
          · have hb' := hb.1
            omega
          · have hb' := haround.right b hb
            simp only [Extent.stop] at hb'
            omega
        · next hnear =>
          refine ⟨false,rfl,⟨(fun h => by cases h),fun hf => ?_⟩⟩
          refine absurd ((covers_cons _).mpr (Or.inl ?_)) (hf (bp.extent p).start hge (by omega))
          exact ⟨Nat.le_refl _,by simp only [Extent.stop]; omega⟩

/-- `rb_test_clear_bmap_extent` tells whether no bit of the range is set. -/
theorem rbTestClear_spec (h : Inv bp) (start len : ℕ) :
    ∃ v, rbTestClear bp start len=some v ∧
      (v=true ↔ ∀ b, start≤b → b < start+len → ¬Bits bp b) := by
  unfold rbTestClear
  split
  · next hroot =>
    refine ⟨true,rfl,⟨fun _ b _ _ => ?_,fun _ => rfl⟩⟩
    rw [Bits,hroot]
    exact covers_nil b
  · next hroot =>
    split
    · next hzero => exact ⟨true,rfl,⟨fun _ b _ _ => by omega,fun _ => rfl⟩⟩
    · next hpos =>
      rw [←hroot]
      rcases hdescend : descend (inside bp start) bp.root [] with ⟨t,path⟩
      cases t with
      | node c l x r =>
        have hmem := descend_mem hdescend
        have hhas := inside_eq_iff.mp (descend_found hdescend)
        exact ⟨false,rfl,⟨(fun h => by cases h),fun hf =>
          absurd ⟨x,hmem,hhas⟩ (hf start (Nat.le_refl _) (by omega))⟩⟩
      | nil =>
        obtain ⟨l,r,hin',hparent,hbefore,hafter⟩ := h.missed_parent hdescend
        obtain ⟨v,hv,hiff⟩ := @testClearLoop_spec bp l r start len bp.root.inorder.length h hin'
          hafter (by rw [hin',List.length_append]; exact Nat.le_add_left _ _)
        dsimp only
        rw [hparent]
        refine ⟨v,hv,hiff.trans (forall_congr' fun b => forall_congr' fun hb => ?_)⟩
        rw [Bits,hin',covers_append]
        have hnot : ¬Covers bp.extent l b := by
          rintro ⟨q,hq,hb'⟩
          have hq' := hbefore q hq
          have hb'' := hb'.2
          omega
        exact ⟨fun hf hlt hc => hf hlt (hc.resolve_left hnot),
          fun hf hlt hc => hf hlt (Or.inr hc)⟩

end Testing

/-- `rb_free_tree` empties the tree. -/
theorem rbFreeTree_spec {root : RbTree.Tree ℕ} {fuel : ℕ} (hrb : IsRb root)
    (hnodup : root.inorder.Nodup)
    (hfuel : root.inorder.length≤fuel) : rbFreeTree fuel (first root) root=some .nil := by
  rw [first_eq]
  induction hlist : root.inorder generalizing root fuel with
  | nil =>
    rw [List.head?_nil,rbFreeTree]
    cases root with
    | nil => rfl
    | node c l x r => simp [RbTree.Tree.inorder] at hlist
  | cons p r ih =>
    rw [hlist] at hfuel
    cases fuel with
    | zero => simp at hfuel
    | succ fuel =>
      have hin : root.inorder=[]++p::r := hlist
      obtain ⟨root',herase,hrb',hin'⟩ := hrb.erase hin hnodup
      rw [List.head?_cons,rbFreeTree,next_eq hin hnodup,herase,Option.bind_some]
      have hnodup' : root'.inorder.Nodup := by
        rw [hin']
        rw [hlist] at hnodup
        exact (List.nodup_cons.mp hnodup).2
      exact ih hrb' hnodup' (by rw [hin']; simpa using hfuel) hin'

/-! ## Sequences of operations -/

/-- The operations of the backend on one bitmap. -/
inductive Op where
  | markBmap (arg : ℕ)
  | unmarkBmap (arg : ℕ)
  | markBmapExtent (arg num : ℕ)
  | unmarkBmapExtent (arg num : ℕ)
  | testBmap (arg : ℕ)
  | testClearBmapExtent (start len : ℕ)
  | clearBmap
  deriving DecidableEq

/-- The bits are inside the bitmap, and marked or unmarked ranges are not
empty. -/
def Op.Valid (bitmap : Bitmap) : Op → Prop
  | .markBmap arg => bitmap.start≤arg ∧ arg≤bitmap.realEnd
  | .unmarkBmap arg => bitmap.start≤arg ∧ arg≤bitmap.realEnd
  | .markBmapExtent arg num => bitmap.start≤arg ∧ 0<num ∧ arg+num≤bitmap.realEnd+1
  | .unmarkBmapExtent arg num => bitmap.start≤arg ∧ 0<num ∧ arg+num≤bitmap.realEnd+1
  | .testBmap arg => bitmap.start≤arg ∧ arg≤bitmap.realEnd
  | .testClearBmapExtent start len => bitmap.start ≤ start ∧ start+len≤bitmap.realEnd+1
  | .clearBmap => True

instance (bitmap : Bitmap) : (op : Op) → Decidable (op.Valid bitmap)
  | .markBmap arg => inferInstanceAs (Decidable (bitmap.start≤arg ∧ arg≤bitmap.realEnd))
  | .unmarkBmap arg => inferInstanceAs (Decidable (bitmap.start≤arg ∧ arg≤bitmap.realEnd))
  | .markBmapExtent arg num =>
    inferInstanceAs (Decidable (bitmap.start≤arg ∧ 0<num ∧ arg+num≤bitmap.realEnd+1))
  | .unmarkBmapExtent arg num =>
    inferInstanceAs (Decidable (bitmap.start≤arg ∧ 0<num ∧ arg+num≤bitmap.realEnd+1))
  | .testBmap arg => inferInstanceAs (Decidable (bitmap.start≤arg ∧ arg≤bitmap.realEnd))
  | .testClearBmapExtent start len =>
    inferInstanceAs (Decidable (bitmap.start ≤ start ∧ start+len≤bitmap.realEnd+1))
  | .clearBmap => inferInstanceAs (Decidable True)

/-- One operation of the backend. -/
def step (alloc : Allocator) (bitmap : Bitmap) (bp : RbPrivate) : Op → Option RbPrivate
  | .markBmap arg => (rbMarkBmap alloc bitmap bp arg).map Prod.fst
  | .unmarkBmap arg => (rbUnmarkBmap alloc bitmap bp arg).map Prod.fst
  | .markBmapExtent arg num => rbMarkBmapExtent alloc bitmap bp arg num
  | .unmarkBmapExtent arg num => rbUnmarkBmapExtent alloc bitmap bp arg num
  | .testBmap arg => some (rbTestBmap bitmap bp arg).1
  | .testClearBmapExtent start len => (rbTestClearBmapExtent bitmap bp start len).map fun _ => bp
  | .clearBmap => rbClearBmap bp

/-- A sequence of operations on a new bitmap. -/
def run (alloc : Allocator) (bitmap : Bitmap) (ops : List Op) : Option RbPrivate :=
  ops.foldlM (step alloc bitmap) rbAllocPrivateData

/-- What an operation makes of a bit, if it covers the bit. -/
def Op.effect (x : ℕ) : Op → Option Bool
  | .markBmap arg => if x=arg then some true else none
  | .unmarkBmap arg => if x=arg then some false else none
  | .markBmapExtent arg num => if arg≤x ∧ x<arg+num then some true else none
  | .unmarkBmapExtent arg num => if arg≤x ∧ x<arg+num then some false else none
  | .testBmap _ => none
  | .testClearBmapExtent _ _ => none
  | .clearBmap => some false

/-- The last operation that covers the bit marked it. -/
def marked (ops : List Op) (x : ℕ) : Bool := ops.foldl (fun v op => (op.effect x).getD v) false

theorem marked_append (ops : List Op) (op : Op) (x : ℕ) :
    marked (ops++[op]) x=(op.effect x).getD (marked ops x) := by
  rw [marked,List.foldl_append]
  rfl

/-- The set bits are the marked ones. -/
def Agrees (bitmap : Bitmap) (bp : RbPrivate) (ops : List Op) : Prop :=
  ∀ b, Bits bp b ↔ marked ops (b+bitmap.start)=true

/-- Marking a range inside the bitmap. -/
theorem agrees_mark {bitmap : Bitmap} {bp bp' : RbPrivate} {ops : List Op} {op : Op}
    {arg num : ℕ} (h : Agrees bitmap bp ops) (harg : bitmap.start≤arg)
    (hop : ∀ x, op.effect x=if arg≤x ∧ x<arg+num then some true else none)
    (hbits : ∀ b, Bits bp' b ↔
      Bits bp b ∨ (arg-bitmap.start≤b ∧ b<arg-bitmap.start+num)) :
    Agrees bitmap bp' (ops++[op]) := by
  intro b
  rw [hbits,marked_append,hop]
  by_cases hb : arg≤b+bitmap.start ∧ b+bitmap.start<arg+num
  · rw [if_pos hb]
    exact ⟨fun _ => rfl,fun _ => Or.inr (by omega)⟩
  · rw [if_neg hb,Option.getD_none,←h b]
    exact ⟨fun hor => hor.resolve_right (by omega),Or.inl⟩

/-- Unmarking a range inside the bitmap. -/
theorem agrees_unmark {bitmap : Bitmap} {bp bp' : RbPrivate} {ops : List Op} {op : Op}
    {arg num : ℕ} (h : Agrees bitmap bp ops) (harg : bitmap.start≤arg)
    (hop : ∀ x, op.effect x=if arg≤x ∧ x<arg+num then some false else none)
    (hbits : ∀ b, Bits bp' b ↔
      Bits bp b ∧ ¬(arg-bitmap.start≤b ∧ b<arg-bitmap.start+num)) :
    Agrees bitmap bp' (ops++[op]) := by
  intro b
  rw [hbits,marked_append,hop]
  by_cases hb : arg≤b+bitmap.start ∧ b+bitmap.start<arg+num
  · rw [if_pos hb]
    exact ⟨fun hand => absurd ⟨by omega,by omega⟩ hand.2,(fun h => by cases h)⟩
  · rw [if_neg hb,Option.getD_none,←h b]
    exact ⟨And.left,fun hbit => ⟨hbit,by omega⟩⟩

theorem effect_single (arg x : ℕ) (v : Bool) :
    (if x=arg then some v else none)=if arg≤x ∧ x<arg+1 then some v else none := by
  by_cases h : x=arg
  · rw [if_pos h,if_pos (by omega)]
  · rw [if_neg h,if_neg (by omega)]

/-- One operation keeps the invariant and follows the marks. -/
theorem step_spec (alloc : Allocator) {bitmap : Bitmap} {bp : RbPrivate} {ops : List Op}
    (h : Inv bp) (hagrees : Agrees bitmap bp ops) {op : Op} (hvalid : op.Valid bitmap) :
    ∃ bp', step alloc bitmap bp op=some bp' ∧ Inv bp' ∧ Agrees bitmap bp' (ops++[op]) := by
  cases op with
  | markBmap arg =>
    obtain ⟨bp',v,hstep,hinv,-,hbits⟩ :=
      @rbInsertExtent_spec alloc bp h (arg-bitmap.start) 1 Nat.one_pos
    exact ⟨bp',by rw [step,rbMarkBmap,hstep]; rfl,hinv,
      agrees_mark hagrees hvalid.1 (fun x => effect_single arg x true) hbits⟩
  | unmarkBmap arg =>
    obtain ⟨bp',v,hstep,hinv,hbits⟩ :=
      @rbRemoveExtent_spec bp (arg-bitmap.start) 1 alloc h Nat.one_pos
    exact ⟨bp',by rw [step,rbUnmarkBmap,hstep]; rfl,hinv,
      agrees_unmark hagrees hvalid.1 (fun x => effect_single arg x false) hbits⟩
  | markBmapExtent arg num =>
    obtain ⟨bp',v,hstep,hinv,-,hbits⟩ :=
      @rbInsertExtent_spec alloc bp h (arg-bitmap.start) num hvalid.2.1
    exact ⟨bp',by rw [step,rbMarkBmapExtent,hstep]; rfl,hinv,
      agrees_mark hagrees hvalid.1 (fun _ => rfl) hbits⟩
  | unmarkBmapExtent arg num =>
    obtain ⟨bp',v,hstep,hinv,hbits⟩ :=
      @rbRemoveExtent_spec bp (arg-bitmap.start) num alloc h hvalid.2.1
    exact ⟨bp',by rw [step,rbUnmarkBmapExtent,hstep]; rfl,hinv,
      agrees_unmark hagrees hvalid.1 (fun _ => rfl) hbits⟩
  | testBmap arg =>
    obtain ⟨hroot,hext,hinv,-⟩ := @rbTestBit_tested bp (arg-bitmap.start) h
    refine ⟨_,rfl,hinv,?_⟩
    intro b
    rw [Bits]
    change Covers (rbTestBit bp (arg-bitmap.start)).1.extent
      (rbTestBit bp (arg-bitmap.start)).1.root.inorder b ↔ _
    rw [hroot,hext,marked_append]
    exact hagrees b
  | testClearBmapExtent start len =>
    obtain ⟨v,hv,-⟩ := rbTestClear_spec h (start-bitmap.start) len
    refine ⟨bp,by rw [step,rbTestClearBmapExtent,hv]; rfl,h,?_⟩
    intro b
    rw [marked_append]
    exact hagrees b
  | clearBmap =>
    have hfree := rbFreeTree_spec h.rb h.sorted.nodup (Nat.le_refl bp.root.inorder.length)
    refine ⟨_,by rw [step,rbClearBmap,hfree]; rfl,?_,?_⟩
    · exact ⟨⟨⟨0,.nil⟩,rfl⟩,⟨fun _ hp => absurd hp List.not_mem_nil,List.Pairwise.nil⟩,
        (fun _ hp => by cases hp),(fun _ hp => by cases hp),fun _ _ hp => by cases hp⟩
    · intro b
      rw [marked_append]
      exact ⟨fun hb => absurd hb (covers_nil b),(fun h => by cases h)⟩

theorem run_append (alloc : Allocator) (bitmap : Bitmap) (ops : List Op) (op : Op) :
    run alloc bitmap (ops++[op])=(run alloc bitmap ops).bind fun bp => step alloc bitmap bp op := by
  rw [run,List.foldlM_append,run]
  simp only [List.foldlM_cons,List.foldlM_nil,bind_pure]
  rfl

/-- A whole sequence. -/
theorem run_spec (alloc : Allocator) (bitmap : Bitmap) {ops : List Op}
    (hvalid : ∀ op∈ops, op.Valid bitmap) :
    ∃ bp, run alloc bitmap ops=some bp ∧ Inv bp ∧ Agrees bitmap bp ops := by
  induction ops using List.reverseRecOn with
  | nil =>
    refine ⟨rbAllocPrivateData,rfl,inv_rbAllocPrivateData,?_⟩
    intro b
    exact ⟨fun hb => absurd hb (covers_nil b),(fun h => by cases h)⟩
  | append_singleton ops op ih =>
    obtain ⟨bp,hrun,hinv,hagrees⟩ := ih fun x hx => hvalid x (List.mem_append_left _ hx)
    obtain ⟨bp',hstep,hinv',hagrees'⟩ := step_spec alloc hinv hagrees
      (hvalid op (List.mem_append_right _ (List.mem_singleton.mpr rfl)))
    exact ⟨bp',by rw [run_append,hrun,Option.bind_some,hstep],hinv',hagrees'⟩

theorem marked_le {bitmap : Bitmap} {ops : List Op} (hvalid : ∀ op∈ops, op.Valid bitmap) {x : ℕ}
    (hx : marked ops x=true) : x≤bitmap.realEnd := by
  induction ops using List.reverseRecOn with
  | nil => cases hx
  | append_singleton ops op ih =>
    have hop := hvalid op (List.mem_append_right _ (List.mem_singleton.mpr rfl))
    rw [marked_append] at hx
    cases heffect : op.effect x with
    | none =>
      rw [heffect] at hx
      exact ih (fun y hy => hvalid y (List.mem_append_left _ hy)) hx
    | some v =>
      rw [heffect,Option.getD_some] at hx
      subst hx
      cases op with
      | markBmap arg =>
        rw [Op.effect] at heffect
        split at heffect
        · next heq =>
          rw [heq]
          exact hop.2
        · cases heffect
      | markBmapExtent arg num =>
        rw [Op.effect] at heffect
        split at heffect
        · next hin =>
          have hle := hop.2.2
          omega
        · cases heffect
      | unmarkBmap arg =>
        rw [Op.effect] at heffect
        split at heffect <;> cases heffect
      | unmarkBmapExtent arg num =>
        rw [Op.effect] at heffect
        split at heffect <;> cases heffect
      | testBmap arg => cases heffect
      | testClearBmapExtent start len => cases heffect
      | clearBmap => cases heffect

/-- No extent reaches beyond the bitmap, so that sums of positions are those of
64-bit words. -/
theorem run_stop_lt (alloc : Allocator) (bitmap : Bitmap) {ops : List Op}
    (hvalid : ∀ op∈ops, op.Valid bitmap) {bp : RbPrivate} (hrun : run alloc bitmap ops=some bp)
    {p : ℕ} (hp : p∈bp.root.inorder) : (bp.extent p).stop<2^64 := by
  obtain ⟨bp',hrun',hinv,hagrees⟩ := run_spec alloc bitmap hvalid
  rw [hrun,Option.some.injEq] at hrun'
  subst hrun'
  have hpos := hinv.sorted.positive p hp
  have hlast : Bits bp ((bp.extent p).start+((bp.extent p).count-1)) :=
    ⟨p,hp,Nat.le_add_right _ _,by simp only [Extent.stop]; omega⟩
  rw [hagrees] at hlast
  have hle := marked_le hvalid hlast
  have hrange := bitmap.realEnd_lt
  simp only [Extent.stop]
  omega

/-- The test of `check_tree` on the extents in tree order: none is empty, and
each ends before the next one starts. -/
def checkTree : List Extent → Bool
  | [] => true
  | [e] => decide (0<e.count)
  | e::f::rest => decide (0<e.count) && decide (e.stop<f.start) && checkTree (f::rest)

theorem checkTree_map {ext : ℕ → Extent} {ps : List ℕ} (h : Sorted ext ps) :
    checkTree (ps.map ext)=true := by
  induction ps with
  | nil => rfl
  | cons p ps ih =>
    obtain ⟨-,htail,hpos,-,hafter⟩ := (@sorted_append_cons ext [] ps p).mp h
    cases ps with
    | nil => exact decide_eq_true hpos
    | cons q ps =>
      have hlt := hafter q List.mem_cons_self
      rw [List.map_cons,List.map_cons,checkTree,decide_eq_true hpos,decide_eq_true hlt,Bool.true_and,
        Bool.true_and]
      exact ih htail

/-- After every sequence of operations on bits inside the bitmap, a bit tests
as set exactly if the last operation that covers it marked it, a range tests as
clear exactly if none of its bits is set, and the extents in tree order pass
`check_tree`. -/
theorem rbBitmap_refines (alloc : Allocator) (bitmap : Bitmap) (ops : List Op)
    (hvalid : ∀ op∈ops, op.Valid bitmap) :
    ∃ bp, run alloc bitmap ops=some bp ∧
      (∀ x, bitmap.start≤x → x≤bitmap.realEnd → (rbTestBmap bitmap bp x).2=marked ops x) ∧
      (∀ s len, bitmap.start ≤ s → s+len≤bitmap.realEnd+1 →
        rbTestClearBmapExtent bitmap bp s len=
          some (decide (∀ x < s+len, s≤x → marked ops x=false))) ∧
      checkTree (bp.root.inorder.map bp.extent)=true := by
  obtain ⟨bp,hrun,hinv,hagrees⟩ := run_spec alloc bitmap hvalid
  refine ⟨bp,hrun,?_,?_,checkTree_map hinv.sorted⟩
  · intro x hx _
    have htest := (@rbTestBit_tested bp (x-bitmap.start) hinv).value
    rw [hagrees,Nat.sub_add_cancel hx] at htest
    exact Bool.eq_iff_iff.mpr htest
  · intro s len hs _
    obtain ⟨v,hv,hiff⟩ := rbTestClear_spec hinv (s-bitmap.start) len
    rw [rbTestClearBmapExtent,hv]
    refine congrArg some (Bool.eq_iff_iff.mpr ?_)
    rw [hiff,decide_eq_true_iff]
    constructor
    · intro hclear x hlt hle
      have hbit := hclear (x-bitmap.start) (by omega) (by omega)
      rw [hagrees,Nat.sub_add_cancel (Nat.le_trans hs hle)] at hbit
      exact Bool.eq_false_iff.mpr hbit
    · intro hclear b hle hlt
      rw [hagrees,hclear (b+bitmap.start) (by omega) (by omega)]
      exact (fun h => by cases h)

/-- Pointers from a counter above those in use. -/
def bumpAllocator : Allocator where
  getMem live := live.foldr max 0+1
  getMem_notMem live := by
    have hle : ∀ p∈live, p≤live.foldr max 0 := by
      induction live with
      | nil => simp
      | cons q live ih =>
        intro p hp
        rcases List.mem_cons.mp hp with rfl|hp
        · exact Nat.le_max_left _ _
        · exact Nat.le_trans (ih p hp) (Nat.le_max_right _ _)
    intro hmem
    have hlast := hle _ hmem
    omega

/-- A bitmap of 100 bits from bit 1 on. -/
def smallBitmap : Bitmap where
  start := 1
  realEnd := 100
  start_le := by decide
  realEnd_lt := by decide

/-- Two extents are joined, tested through the cached pointers, and split. -/
theorem rbBitmap_refines_smallBitmap :
    ∃ bp, run bumpAllocator smallBitmap [.markBmapExtent 10 5,.markBmapExtent 20 5,.testBmap 12,
        .testBmap 17,.markBmapExtent 15 5,.unmarkBmap 12]=some bp ∧
      (rbTestBmap smallBitmap bp 17).2=true ∧ (rbTestBmap smallBitmap bp 12).2=false := by
  obtain ⟨bp,hrun,htest,-,-⟩ := rbBitmap_refines bumpAllocator smallBitmap
    [.markBmapExtent 10 5,.markBmapExtent 20 5,.testBmap 12,.testBmap 17,.markBmapExtent 15 5,
      .unmarkBmap 12] (by decide)
  refine ⟨bp,hrun,?_,?_⟩
  · rw [htest 17 (by decide) (by decide)]
    decide
  · rw [htest 12 (by decide) (by decide)]
    decide

end AndroidPlatform.RbBitmap
