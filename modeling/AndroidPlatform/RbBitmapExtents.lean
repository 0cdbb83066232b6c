import AndroidPlatform.RbBitmap
import Mathlib.Data.List.Nodup
import Mathlib.Tactic.Common

/-!
# Marking and unmarking in the red-black tree backend

Everything is read off the list of the pointers in tree order: it is sorted and
its extents are apart, the cached pointers are in it, and `rcursor_next` follows
`rcursor` in it. Each loop over the tree is described by what it does to this
list, and then marking and unmarking by what they do to the set of covered
bits.
-/

namespace AndroidPlatform.RbBitmap

open RbTree

/-! ## Lists of extents -/

section Extents

variable {ext ext' : ℕ → Extent} {ps qs : List ℕ} {p : ℕ}

/-- The extents behind these pointers are not empty and do not touch. -/
structure Sorted (ext : ℕ → Extent) (ps : List ℕ) : Prop where
  /-- No extent is empty. -/
  positive : ∀ p∈ps, 0<(ext p).count
  /-- Each extent ends before the next one starts. -/
  apart : ps.Pairwise fun p q => (ext p).stop<(ext q).start

/-- Some extent behind these pointers has this position. -/
def Covers (ext : ℕ → Extent) (ps : List ℕ) (b : ℕ) : Prop := ∃ p∈ps, (ext p).Has b

@[simp] theorem covers_nil (b : ℕ) : ¬Covers ext [] b := by
  rintro ⟨p,hp,-⟩
  cases hp

@[simp] theorem covers_cons (b : ℕ) :
    Covers ext (p::ps) b ↔ (ext p).Has b ∨ Covers ext ps b := by
  simp only [Covers,List.mem_cons,exists_eq_or_imp]

@[simp] theorem covers_append (b : ℕ) :
    Covers ext (ps++qs) b ↔ Covers ext ps b ∨ Covers ext qs b := by
  simp only [Covers,List.mem_append,or_and_right,exists_or]

theorem covers_congr (h : ∀ q∈ps, ext' q=ext q) (b : ℕ) : Covers ext' ps b ↔ Covers ext ps b := by
  constructor
  · rintro ⟨q,hq,hb⟩
    exact ⟨q,hq,h q hq ▸ hb⟩
  · rintro ⟨q,hq,hb⟩
    exact ⟨q,hq,(h q hq).symm ▸ hb⟩

theorem covers_update {e : Extent} (hp : p∉ps) (b : ℕ) :
    Covers (Function.update ext p e) ps b ↔ Covers ext ps b := by
  refine covers_congr ?_ b
  intro q hq
  refine Function.update_of_ne ?_ e ext
  intro heq
  exact hp (heq ▸ hq)

theorem Sorted.stop_le (h : Sorted ext ps) (hp : p∈ps) : (ext p).start<(ext p).stop := by
  have hpos := h.positive p hp
  simp only [Extent.stop]
  omega

theorem Sorted.congr (h : Sorted ext ps) (he : ∀ q∈ps, ext' q=ext q) : Sorted ext' ps := by
  constructor
  · intro q hq
    rw [he q hq]
    exact h.positive q hq
  · refine h.apart.imp_of_mem ?_
    intro q r hq hr hlt
    rw [he q hq,he r hr]
    exact hlt

theorem Sorted.sublist (h : Sorted ext ps) (hs : qs.Sublist ps) : Sorted ext qs :=
  ⟨fun q hq => h.positive q (hs.subset hq),h.apart.sublist hs⟩

theorem Sorted.nodup (h : Sorted ext ps) : ps.Nodup := by
  refine List.Pairwise.imp_of_mem ?_ h.apart
  intro q r hq _ hlt heq
  subst heq
  have hle := h.stop_le hq
  omega

/-- In a list without repetition an element is in neither part around it. -/
theorem not_mem_of_nodup (h : (ps++p::qs).Nodup) : p∉ps ∧ p∉qs := by
  have hout := (List.nodup_cons.mp (List.nodup_middle.mp h)).1
  exact not_or.mp fun hin => hout (List.mem_append.mpr hin)

/-- A pointer in the list separates smaller from greater extents. -/
theorem sorted_append_cons : Sorted ext (ps++p::qs) ↔ Sorted ext ps ∧ Sorted ext qs ∧
    0<(ext p).count ∧ (∀ q∈ps, (ext q).stop<(ext p).start) ∧
    (∀ q∈qs, (ext p).stop<(ext q).start) := by
  constructor
  · intro h
    have hapart := h.apart
    rw [List.pairwise_append] at hapart
    obtain ⟨-,hright,hcross⟩ := hapart
    rw [List.pairwise_cons] at hright
    refine ⟨h.sublist (List.sublist_append_left _ _),
      h.sublist ((List.sublist_cons_self _ _).trans (List.sublist_append_right _ _)),
      h.positive p (by simp),?_,hright.1⟩
    intro q hq
    exact hcross q hq p List.mem_cons_self
  · rintro ⟨hps,hqs,hpos,hleft,hright⟩
    constructor
    · intro q hq
      rcases List.mem_append.mp hq with hq|hq
      · exact hps.positive q hq
      · rcases List.mem_cons.mp hq with rfl|hq
        · exact hpos
        · exact hqs.positive q hq
    · rw [List.pairwise_append,List.pairwise_cons]
      refine ⟨hps.apart,⟨hright,hqs.apart⟩,?_⟩
      intro q hq r hr
      rcases List.mem_cons.mp hr with rfl|hr
      · exact hleft q hq
      · have h1 := hleft q hq
        have h2 := hright r hr
        simp only [Extent.stop] at h1 h2 ⊢
        omega

section Searches

variable {bp : RbPrivate} {bit : ℕ}

theorem inside_lt_iff : inside bp bit p=.lt ↔ bit<(bp.extent p).start := by
  unfold inside
  split_ifs with h1 h2
  · exact ⟨fun _ => h1,fun _ => rfl⟩
  · exact ⟨nofun,fun hp => absurd hp h1⟩
  · exact ⟨nofun,fun hp => absurd hp h1⟩

theorem inside_gt_iff : inside bp bit p=.gt ↔ (bp.extent p).stop≤bit := by
  unfold inside
  split_ifs with h1 h2
  · refine ⟨nofun,fun hp => ?_⟩
    simp only [Extent.stop] at hp
    omega
  · exact ⟨fun _ => h2,fun _ => rfl⟩
  · exact ⟨nofun,fun hp => absurd hp h2⟩

theorem inside_eq_iff : inside bp bit p=.eq ↔ (bp.extent p).Has bit := by
  unfold inside
  split_ifs with h1 h2
  · exact ⟨nofun,fun hp => absurd hp.1 (by omega)⟩
  · exact ⟨nofun,fun hp => absurd hp.2 (by omega)⟩
  · exact ⟨fun _ => ⟨by omega,by omega⟩,fun _ => rfl⟩

theorem touching_lt_iff : touching bp bit p=.lt ↔ bit<(bp.extent p).start := by
  unfold touching
  split_ifs with h1 h2
  · exact ⟨fun _ => h1,fun _ => rfl⟩
  · exact ⟨nofun,fun hp => absurd hp h1⟩
  · exact ⟨nofun,fun hp => absurd hp h1⟩

theorem touching_gt_iff : touching bp bit p=.gt ↔ (bp.extent p).stop<bit := by
  unfold touching
  split_ifs with h1 h2
  · refine ⟨nofun,fun hp => ?_⟩
    simp only [Extent.stop] at hp
    omega
  · exact ⟨fun _ => h2,fun _ => rfl⟩
  · exact ⟨nofun,fun hp => absurd hp h2⟩

theorem touching_eq_iff :
    touching bp bit p=.eq ↔ (bp.extent p).start≤bit ∧ bit≤(bp.extent p).stop := by
  unfold touching
  split_ifs with h1 h2
  · exact ⟨nofun,fun hp => absurd hp.1 (by omega)⟩
  · exact ⟨nofun,fun hp => absurd hp.2 (by omega)⟩
  · exact ⟨fun _ => ⟨by omega,by omega⟩,fun _ => rfl⟩

/-- The searches agree with the order of the extents. -/
theorem Sorted.monotone_inside (h : Sorted bp.extent ps) (bit : ℕ) :
    Monotone (inside bp bit) ps := by
  constructor
  · intro l x r hps hx y hy
    rw [hps,sorted_append_cons] at h
    have hy' := h.2.2.2.1 y hy
    rw [inside_gt_iff] at hx ⊢
    simp only [Extent.stop] at hy' hx ⊢
    omega
  · intro l x r hps hx y hy
    rw [hps,sorted_append_cons] at h
    have hy' := h.2.2.2.2 y hy
    rw [inside_lt_iff] at hx ⊢
    simp only [Extent.stop] at hy'
    omega

theorem Sorted.monotone_touching (h : Sorted bp.extent ps) (bit : ℕ) :
    Monotone (touching bp bit) ps := by
  constructor
  · intro l x r hps hx y hy
    rw [hps,sorted_append_cons] at h
    have hy' := h.2.2.2.1 y hy
    rw [touching_gt_iff] at hx ⊢
    simp only [Extent.stop] at hy' hx ⊢
    omega
  · intro l x r hps hx y hy
    rw [hps,sorted_append_cons] at h
    have hy' := h.2.2.2.2 y hy
    rw [touching_lt_iff] at hx ⊢
    simp only [Extent.stop] at hy'
    omega

end Searches

end Extents

/-! ## The loops -/

/-- Some extents are erased and freed; nothing else happens to the memory and
the cached pointers. -/
structure Freed (gone : List ℕ) (bp bp' : RbPrivate) : Prop where
  extent : bp'.extent=bp.extent
  wcursor : ∀ p, bp'.wcursor=some p → bp.wcursor=some p ∧ p∉gone
  rcursor : ∀ p, bp'.rcursor=some p → bp.rcursor=some p ∧ p∉gone
  rcursorNext : ∀ p, bp'.rcursorNext=some p → bp.rcursorNext=some p ∧ p∉gone

theorem Freed.refl (bp : RbPrivate) : Freed [] bp bp :=
  ⟨rfl,fun _ h => ⟨h,List.not_mem_nil⟩,fun _ h => ⟨h,List.not_mem_nil⟩,
    fun _ h => ⟨h,List.not_mem_nil⟩⟩

theorem Freed.trans {gone gone' : List ℕ} {bp bp' bp'' : RbPrivate} (h : Freed gone bp bp')
    (h' : Freed gone' bp' bp'') : Freed (gone++gone') bp bp'' := by
  have hboth : ∀ {p : ℕ}, p∉gone → p∉gone' → p∉gone++gone' := by
    intro p h1 h2 hp
    exact (List.mem_append.mp hp).elim h1 h2
  constructor
  · exact h'.extent.trans h.extent
  · intro p hp
    obtain ⟨h1,h2⟩ := h'.wcursor p hp
    obtain ⟨h3,h4⟩ := h.wcursor p h1
    exact ⟨h3,hboth h4 h2⟩
  · intro p hp
    obtain ⟨h1,h2⟩ := h'.rcursor p hp
    obtain ⟨h3,h4⟩ := h.rcursor p h1
    exact ⟨h3,hboth h4 h2⟩
  · intro p hp
    obtain ⟨h1,h2⟩ := h'.rcursorNext p hp
    obtain ⟨h3,h4⟩ := h.rcursorNext p h1
    exact ⟨h3,hboth h4 h2⟩

theorem clearCursor_eq {cursor : Option ℕ} {ext p : ℕ} (h : clearCursor cursor ext=some p) :
    cursor=some p ∧ p∉[ext] := by
  unfold clearCursor at h
  split at h
  · cases h
  · next hne =>
    refine ⟨h,?_⟩
    rw [List.mem_singleton]
    intro heq
    exact hne (heq ▸ h)

theorem eraseExtent_spec {bp : RbPrivate} {l r : List ℕ} {p : ℕ} (hrb : IsRb bp.root)
    (hin : bp.root.inorder=l++p::r) (hnodup : bp.root.inorder.Nodup) :
    ∃ bp', eraseExtent bp p=some bp' ∧ IsRb bp'.root ∧ bp'.root.inorder=l++r ∧
      Freed [p] bp bp' := by
  obtain ⟨root,hroot,hrb',hin'⟩ := hrb.erase hin hnodup
  refine ⟨rbFreeExtent {bp with root := root} p,by rw [eraseExtent,hroot]; rfl,hrb',hin',?_⟩
  exact ⟨rfl,fun _ h => clearCursor_eq h,fun _ h => clearCursor_eq h,fun _ h => clearCursor_eq h⟩

/-- The absorbing loop erases a first part of the extents that follow, and
grows the new extent by what they cover. -/
theorem absorbLoop_spec {l r : List ℕ} {start : ℕ} {fuel count : ℕ} {bp : RbPrivate}
    (hrb : IsRb bp.root) (hin : bp.root.inorder=l++r) (hnodup : bp.root.inorder.Nodup)
    (hsorted : Sorted bp.extent r) (hstart : ∀ p∈r, start<(bp.extent p).start)
    (hfuel : r.length≤fuel) :
    ∃ bp' gone rest count', absorbLoop fuel bp r.head? start count=some (bp',count') ∧
      r=gone++rest ∧ IsRb bp'.root ∧ bp'.root.inorder=l++rest ∧ Freed gone bp bp' ∧
      count ≤ count' ∧ (∀ p∈rest, start+count'<(bp.extent p).start) ∧
      ∀ b, (start≤b ∧ b < start+count') ↔
        (start≤b ∧ b < start+count) ∨ Covers bp.extent gone b := by
  induction r generalizing fuel count bp with
  | nil =>
    refine ⟨bp,[],[],count,?_,rfl,hrb,hin,Freed.refl bp,Nat.le_refl _,by simp,by simp⟩
    rw [List.head?_nil,absorbLoop]
  | cons p r ih =>
    cases fuel with
    | zero => simp at hfuel
    | succ fuel =>
      have hnext : next p bp.root=r.head? := next_eq hin hnodup
      obtain ⟨-,hsorted',hpos,-,hafter⟩ := (@sorted_append_cons bp.extent [] r p).mp hsorted
      have hp := hstart p List.mem_cons_self
      rw [List.head?_cons,absorbLoop,hnext,if_neg (by simp only [Extent.stop]; omega)]
      by_cases hbreak : start+count<(bp.extent p).start
      · rw [if_pos hbreak]
        refine ⟨bp,[],p::r,count,rfl,rfl,hrb,hin,Freed.refl bp,Nat.le_refl _,?_,by simp⟩
        intro q hq
        rcases List.mem_cons.mp hq with rfl|hq
        · exact hbreak
        · have hq' := hafter q hq
          simp only [Extent.stop] at hq'
          omega
      · rw [if_neg hbreak]
        obtain ⟨bp1,herase,hrb1,hin1,hfreed1⟩ := eraseExtent_spec hrb hin hnodup
        by_cases hall : (bp.extent p).stop ≤ start+count
        · rw [if_pos hall,herase,Option.bind_some]
          have hnodup1 : bp1.root.inorder.Nodup := by
            rw [hin1]
            rw [hin] at hnodup
            exact hnodup.sublist (List.Sublist.append_left (List.sublist_cons_self p r) l)
          obtain ⟨bp',gone,rest,count',hloop,hr,hrb',hin',hfreed,hle,hrest,hcov⟩ :=
            @ih fuel count bp1 hrb1 hin1 hnodup1 (hfreed1.extent ▸ hsorted')
              (fun q hq => by
                rw [hfreed1.extent]
                exact hstart q (List.mem_cons_of_mem p hq))
              (by simpa using hfuel)
          rw [hfreed1.extent] at hrest hcov
          refine ⟨bp',p::gone,rest,count',hloop,by rw [hr]; rfl,hrb',hin',
            hfreed1.trans hfreed,hle,hrest,?_⟩
          intro b
          rw [hcov b,covers_cons]
          simp only [Extent.Has,Extent.stop] at hall ⊢
          constructor
          · rintro (hb|hb)
            · exact Or.inl hb
            · exact Or.inr (Or.inr hb)
          · rintro (hb|hb|hb)
            · exact Or.inl hb
            · exact Or.inl ⟨by omega,by omega⟩
            · exact Or.inr hb
        · rw [if_neg hall,herase,Option.map_some]
          refine ⟨bp1,[p],r,_,rfl,rfl,hrb1,hin1,hfreed1,by omega,?_,?_⟩
          · intro q hq
            have hq' := hafter q hq
            simp only [Extent.stop] at hq' hall ⊢
            omega
          · intro b
            rw [covers_cons]
            simp only [Extent.Has,Extent.stop,covers_nil,or_false] at hall ⊢
            omega

/-! ## Marking -/

/-- The invariant of the backend. -/
structure Inv (bp : RbPrivate) : Prop where
  /-- The tree is a red-black tree. -/
  rb : IsRb bp.root
  /-- Its extents are in order and apart. -/
  sorted : Sorted bp.extent bp.root.inorder
  /-- `wcursor` is in the tree. -/
  wcursor : ∀ p, bp.wcursor=some p → p∈bp.root.inorder
  /-- `rcursor` is in the tree. -/
  rcursor : ∀ p, bp.rcursor=some p → p∈bp.root.inorder
  /-- `rcursor_next` follows `rcursor`. -/
  rcursorNext : ∀ p q, bp.rcursor=some p → bp.rcursorNext=some q →
    ∃ l r, bp.root.inorder=l++p::q::r

/-- The set bits. -/
def Bits (bp : RbPrivate) (b : ℕ) : Prop := Covers bp.extent bp.root.inorder b

theorem inv_rbAllocPrivateData : Inv rbAllocPrivateData where
  rb := ⟨⟨0,.nil⟩,rfl⟩
  sorted := ⟨fun _ h => absurd h List.not_mem_nil,List.Pairwise.nil⟩
  wcursor := nofun
  rcursor := nofun
  rcursorNext := nofun

theorem mem_of_freed {l gone rest : List ℕ} {p : ℕ} (hp : p∈l++(gone++rest)) (hgone : p∉gone) :
    p∈l++rest := by
  simp only [List.mem_append] at hp ⊢
  rcases hp with hp|hp|hp
  · exact Or.inl hp
  · exact absurd hp hgone
  · exact Or.inr hp

theorem skipInsert_spec {bp : RbPrivate} {l r : List ℕ} {newExt start count : ℕ}
    (hrb : IsRb bp.root) (hin : bp.root.inorder=l++newExt::r)
    (hnodup : bp.root.inorder.Nodup) (hl : Sorted bp.extent l) (hr : Sorted bp.extent r)
    (hbefore : ∀ q∈l, (bp.extent q).stop < start) (hafter : ∀ q∈r, start<(bp.extent q).start)
    (hcount : 0 < count) (hw : ∀ p, bp.wcursor=some p → p∈bp.root.inorder)
    (hrc : ∀ p, bp.rcursor=some p → p∈bp.root.inorder) (hrn : bp.rcursorNext=none) :
    ∃ bp', skipInsert bp newExt start count=some bp' ∧ Inv bp' ∧
      ∀ b, Bits bp' b ↔
        Covers bp.extent l b ∨ (start≤b ∧ b < start+count) ∨ Covers bp.extent r b := by
  have hnext : next newExt bp.root=r.head? := next_eq hin hnodup
  have hin' : bp.root.inorder=(l++[newExt])++r := by rw [hin,List.append_assoc]; rfl
  have hfuel : r.length≤bp.root.inorder.length := by
    rw [hin',List.length_append]
    exact Nat.le_add_left _ _
  obtain ⟨bp1,gone,rest,count',hloop,hgone,hrb1,hin1,hfreed,hle,hrest,hcov⟩ :=
    @absorbLoop_spec (l++[newExt]) r start _ count bp hrb hin' hnodup hr hafter hfuel
  have hin1' : bp1.root.inorder=l++newExt::rest := by rw [hin1,List.append_assoc]; rfl
  have hapart := hnodup
  rw [hin,hgone] at hapart
  obtain ⟨hnewl,hnewr⟩ := not_mem_of_nodup hapart
  have hnewrest : newExt∉rest := fun h => hnewr (List.mem_append_right gone h)
  have hlive : ∀ p, p∈bp.root.inorder → p∉gone → p∈bp1.root.inorder := by
    intro p hp hpg
    rw [hin1]
    rw [hin',hgone] at hp
    exact mem_of_freed hp hpg
  refine ⟨bp1.write newExt ⟨start,count'⟩,by rw [skipInsert,hnext,hloop]; rfl,?_,?_⟩
  · constructor
    · exact hrb1
    · change Sorted (Function.update bp1.extent newExt ⟨start,count'⟩) bp1.root.inorder
      have hother : ∀ q, q≠newExt →
          Function.update bp1.extent newExt ⟨start,count'⟩ q=bp.extent q := by
        intro q hq
        rw [Function.update_of_ne hq,hfreed.extent]
      have hnew : Function.update bp1.extent newExt ⟨start,count'⟩ newExt=⟨start,count'⟩ :=
        Function.update_self ..
      rw [hin1',sorted_append_cons,hnew]
      refine ⟨hl.congr fun q hq => hother q fun h => hnewl (h ▸ hq),
        (hr.sublist (hgone ▸ List.sublist_append_right gone rest)).congr fun q hq =>
          hother q fun h => hnewrest (h ▸ hq),by dsimp only; omega,?_,?_⟩
      · intro q hq
        rw [hother q fun h => hnewl (h ▸ hq)]
        exact hbefore q hq
      · intro q hq
        rw [hother q fun h => hnewrest (h ▸ hq)]
        exact hrest q hq
    · intro p hp
      obtain ⟨hp,hpg⟩ := hfreed.wcursor p hp
      exact hlive p (hw p hp) hpg
    · intro p hp
      obtain ⟨hp,hpg⟩ := hfreed.rcursor p hp
      exact hlive p (hrc p hp) hpg
    · intro p q _ hq
      have hnone := (hfreed.rcursorNext q hq).1
      rw [hrn] at hnone
      cases hnone
  · intro b
    change Covers (Function.update bp1.extent newExt ⟨start,count'⟩) bp1.root.inorder b ↔ _
    rw [hin1',covers_append,covers_cons,covers_update hnewl,covers_update hnewrest,
      Function.update_self,hfreed.extent,hgone,covers_append]
    have hb := hcov b
    simp only [Extent.Has,Extent.stop]
    rw [hb,or_assoc]

theorem add_middle {left middle right added : Prop} :
    left ∨ (middle ∨ added) ∨ right ↔ (left ∨ middle ∨ right) ∨ added := by
  tauto

/-- Marking in an extent that the start touches. -/
theorem gotExtent_spec {bp : RbPrivate} (h : Inv bp) (hrn : bp.rcursorNext=none) {ext start : ℕ}
    {count : ℕ} (hext : ext∈bp.root.inorder) (hcount : 0 < count)
    (hle : (bp.extent ext).start ≤ start) (hge : start≤(bp.extent ext).stop) :
    ∃ bp' v, gotExtent bp ext start count=some (bp',v) ∧ Inv bp' ∧
      (v=true ↔ Bits bp start) ∧
      ∀ b, Bits bp' b ↔ Bits bp b ∨ (start≤b ∧ b < start+count) := by
  obtain ⟨l,r,hin⟩ := List.append_of_mem hext
  have hsorted := h.sorted
  rw [hin,sorted_append_cons] at hsorted
  obtain ⟨hl,hr,hpos,hbefore,hafter⟩ := hsorted
  have hbits : ∀ b, Bits bp b ↔ Covers bp.extent l b ∨ (bp.extent ext).Has b ∨
      Covers bp.extent r b := by
    intro b
    rw [Bits,hin,covers_append,covers_cons]
  rw [gotExtent]
  by_cases hinside : start+count≤(bp.extent ext).stop
  · rw [if_pos hinside]
    have hhas : Bits bp start := (hbits start).mpr (Or.inr (Or.inl ⟨hle,by omega⟩))
    refine ⟨bp,true,rfl,h,⟨fun _ => hhas,fun _ => rfl⟩,?_⟩
    intro b
    refine ⟨Or.inl,?_⟩
    rintro (hb|hb)
    · exact hb
    · exact (hbits b).mpr (Or.inr (Or.inl ⟨by omega,by omega⟩))
  · rw [if_neg hinside]
    obtain ⟨bp',hskip,hinv,hcov⟩ := @skipInsert_spec bp l r ext (bp.extent ext).start
      (count+(start-(bp.extent ext).start)) h.rb hin h.sorted.nodup hl hr hbefore
      (fun q hq => by
        have hq' := hafter q hq
        simp only [Extent.stop] at hq'
        omega)
      (by omega) h.wcursor h.rcursor hrn
    refine ⟨bp',_,by rw [hskip]; rfl,hinv,?_,?_⟩
    · rw [decide_eq_true_eq,hbits]
      constructor
      · intro hne
        exact Or.inr (Or.inl ⟨hle,by omega⟩)
      · rintro (⟨q,hq,hb⟩|hb|⟨q,hq,hb⟩) heq
        · have hq' := hbefore q hq
          have hb' := hb.2
          omega
        · have hb' := hb.2
          omega
        · have hq' := hafter q hq
          have hb' := hb.1
          omega
    · intro b
      rw [hcov,hbits]
      simp only [Extent.Has,Extent.stop] at hge ⊢
      have hmid : (bp.extent ext).start≤b ∧
          b<(bp.extent ext).start+(count+(start-(bp.extent ext).start)) ↔
          ((bp.extent ext).start≤b ∧ b<(bp.extent ext).start+(bp.extent ext).count) ∨
            (start≤b ∧ b < start+count) := by
        simp only [Extent.stop] at hinside
        omega
      rw [hmid]
      exact add_middle

/-- A search that misses stands between the extents left and right of it. -/
theorem Inv.missed {bp : RbPrivate} (h : Inv bp) {compare : ℕ → Ordering}
    (hmono : Monotone compare bp.root.inorder) {path : List (Frame ℕ)}
    (hdescend : descend compare bp.root []=(.nil,path)) :
    bp.root.inorder=before path++after path ∧ IsRb (plug .nil path) ∧
      (∀ q∈before path, compare q=.gt) ∧ ∀ q∈after path, compare q=.lt := by
  have hplug : plug .nil path=bp.root := by
    have hall := plug_descend compare bp.root []
    rw [hdescend] at hall
    exact hall
  obtain ⟨hgt,hlt⟩ := @descend_missed ℕ compare bp.root [] path hmono (by simp [before])
    (by simp [after]) hdescend
  refine ⟨?_,by rw [hplug]; exact h.rb,hgt,hlt⟩
  have hin := inorder_plug .nil path
  rw [hplug,RbTree.Tree.inorder,List.append_nil] at hin
  exact hin

/-- The parent of the place of a search that missed: what is before it ends
before the position, and what follows is before or behind the position. -/
theorem Inv.missed_parent {bp : RbPrivate} (h : Inv bp) {start : ℕ} {path : List (Frame ℕ)}
    (hdescend : descend (inside bp start) bp.root []=(.nil,path)) :
    ∃ l r, bp.root.inorder=l++r ∧ parent path=r.head? ∧ (∀ p∈l, (bp.extent p).stop ≤ start) ∧
      ∀ p∈r, (bp.extent p).stop ≤ start ∨ start≤(bp.extent p).start := by
  obtain ⟨hin,-,hgt,hlt⟩ := h.missed (h.sorted.monotone_inside start) hdescend
  obtain ⟨l,r,hsplit,hparent,hcase⟩ := parent_split path
  refine ⟨l,r,hin.trans hsplit,hparent,?_,?_⟩
  · intro p hp
    rcases hcase with ⟨rfl,-⟩|⟨x,hx,-⟩
    · exact inside_gt_iff.mp (hgt p hp)
    · exact inside_gt_iff.mp (hgt p (hx ▸ List.mem_append_left _ hp))
  · intro p hp
    rcases hcase with ⟨-,rfl⟩|⟨x,hx,rfl⟩
    · exact Or.inr (Nat.le_of_lt (inside_lt_iff.mp (hlt p hp)))
    · rcases List.mem_cons.mp hp with rfl|hp
      · exact Or.inl (inside_gt_iff.mp
          (hgt p (hx ▸ List.mem_append_right _ (List.mem_singleton.mpr rfl))))
      · exact Or.inr (Nat.le_of_lt (inside_lt_iff.mp (hlt p hp)))

/-- Marking with a new extent. -/
theorem insertNew_spec {bp : RbPrivate} (h : Inv bp) (hrn : bp.rcursorNext=none)
    {newExt start count : ℕ} {path : List (Frame ℕ)} (hnew : newExt∉bp.root.inorder)
    (hcount : 0 < count) (hdescend : descend (touching bp start) bp.root []=(.nil,path)) :
    ∃ bp' v, insertNew bp newExt path start count=some (bp',v) ∧ Inv bp' ∧
      (v=true ↔ Bits bp start) ∧
      ∀ b, Bits bp' b ↔ Bits bp b ∨ (start≤b ∧ b < start+count) := by
  obtain ⟨hin,hplug,hgt,hlt⟩ := h.missed (h.sorted.monotone_touching start) hdescend
  obtain ⟨root,hlink,hrb,hroot⟩ := hplug.link newExt
  have hnewl : newExt∉before path := fun hm => hnew (hin ▸ List.mem_append_left _ hm)
  have hnewr : newExt∉after path := fun hm => hnew (hin ▸ List.mem_append_right _ hm)
  have hnodup : root.inorder.Nodup := by
    have hold := h.sorted.nodup
    rw [hin] at hold
    rw [hroot]
    exact List.perm_middle.nodup_iff.mpr (List.nodup_cons.mpr ⟨by simp [hnewl,hnewr],hold⟩)
  have hother : ∀ q, q≠newExt →
      Function.update bp.extent newExt ⟨start,count⟩ q=bp.extent q :=
    fun q hq => Function.update_of_ne hq _ _
  have hmem : ∀ p, p∈bp.root.inorder → p∈root.inorder := by
    intro p hp
    rw [hin,List.mem_append] at hp
    rw [hroot,List.mem_append,List.mem_cons]
    tauto
  have hsorted := h.sorted
  rw [hin] at hsorted
  obtain ⟨bp',hskip,hinv,hcov⟩ := @skipInsert_spec
    {bp.write newExt ⟨start,count⟩ with root := root, wcursor := some newExt}
    (before path) (after path) newExt start count hrb hroot hnodup
    ((hsorted.sublist (List.sublist_append_left _ _)).congr fun q hq =>
      hother q fun heq => hnewl (heq ▸ hq))
    ((hsorted.sublist (List.sublist_append_right _ _)).congr fun q hq =>
      hother q fun heq => hnewr (heq ▸ hq))
    (fun q hq => by
      have hq' := touching_gt_iff.mp (hgt q hq)
      dsimp only [RbPrivate.write]
      rw [hother q fun heq => hnewl (heq ▸ hq)]
      exact hq')
    (fun q hq => by
      have hq' := touching_lt_iff.mp (hlt q hq)
      dsimp only [RbPrivate.write]
      rw [hother q fun heq => hnewr (heq ▸ hq)]
      exact hq')
    hcount
    (fun p hp => by
      cases hp
      dsimp only
      rw [hroot]
      simp)
    (fun p hp => hmem p (h.rcursor p hp)) hrn
  refine ⟨bp',false,?_,hinv,?_,?_⟩
  · rw [insertNew,hlink,Option.bind_some]
    have hprev : prev newExt root=(before path).getLast? := prev_eq hroot hnodup
    dsimp only
    rw [hprev]
    cases hlast : (before path).getLast? with
    | none =>
      dsimp only
      rw [Option.bind_some,hskip]
      rfl
    | some node =>
      have hnode : node∈before path := List.mem_of_getLast? hlast
      have hstop := touching_gt_iff.mp (hgt node hnode)
      dsimp only
      rw [if_neg,Option.bind_some,hskip]
      · rfl
      · dsimp only [RbPrivate.write]
        rw [hother node fun heq => hnewl (heq ▸ hnode)]
        omega
  · refine ⟨nofun,?_⟩
    rintro ⟨q,hq,hb⟩
    rw [hin,List.mem_append] at hq
    rcases hq with hq|hq
    · have hq' := touching_gt_iff.mp (hgt q hq)
      have hb' := hb.2
      omega
    · have hq' := touching_lt_iff.mp (hlt q hq)
      have hb' := hb.1
      omega
  · intro b
    rw [hcov,Bits,hin,covers_append]
    change Covers (Function.update bp.extent newExt ⟨start,count⟩) _ _ ∨ _ ∨
      Covers (Function.update bp.extent newExt ⟨start,count⟩) _ _ ↔ _
    rw [covers_update hnewl,covers_update hnewr]
    tauto

theorem searchInsert_spec (alloc : Allocator) {bp : RbPrivate} (h : Inv bp)
    (hrn : bp.rcursorNext=none) {start count : ℕ} (hcount : 0 < count) :
    ∃ bp' v, searchInsert alloc start count bp=some (bp',v) ∧ Inv bp' ∧
      (v=true ↔ Bits bp start) ∧
      ∀ b, Bits bp' b ↔ Bits bp b ∨ (start≤b ∧ b < start+count) := by
  unfold searchInsert
  split
  · next c l ext r path hdescend =>
    have hext : ext∈bp.root.inorder := by
      have hplug := plug_descend (touching bp start) bp.root []
      rw [hdescend] at hplug
      change _=bp.root at hplug
      rw [←hplug,inorder_plug]
      simp [RbTree.Tree.inorder]
    obtain ⟨hle,hge⟩ := touching_eq_iff.mp (descend_found hdescend)
    exact gotExtent_spec h hrn hext hcount hle hge
  · next path hdescend =>
    exact insertNew_spec h hrn (alloc.getMem_notMem _) hcount hdescend

/-- `rb_insert_extent` sets the bits of the range, and tells whether the first
of them was set. -/
theorem rbInsertExtent_spec (alloc : Allocator) {bp : RbPrivate} (h : Inv bp) {start count : ℕ}
    (hcount : 0 < count) : ∃ bp' v, rbInsertExtent alloc start count bp=some (bp',v) ∧ Inv bp' ∧
      (v=true ↔ Bits bp start) ∧
      ∀ b, Bits bp' b ↔ Bits bp b ∨ (start≤b ∧ b < start+count) := by
  have h' : Inv {bp with rcursorNext := none} := ⟨h.rb,h.sorted,h.wcursor,h.rcursor,nofun⟩
  rw [rbInsertExtent]
  dsimp only
  cases hw : bp.wcursor with
  | none =>
    have hbp : ({bp with rcursorNext := none} : RbPrivate)=
        {root := bp.root, extent := bp.extent, wcursor := none, rcursor := bp.rcursor,
          rcursorNext := none} := by rw [←hw]
    rw [hbp] at h'
    exact searchInsert_spec alloc h' rfl hcount
  | some ext =>
    have hbp : ({bp with rcursorNext := none} : RbPrivate)=
        {root := bp.root, extent := bp.extent, wcursor := some ext, rcursor := bp.rcursor,
          rcursorNext := none} := by rw [←hw]
    rw [hbp] at h'
    dsimp only
    split
    · next hhit => exact gotExtent_spec h' rfl (h.wcursor ext hw) hcount hhit.1 hhit.2
    · exact searchInsert_spec alloc h' rfl hcount

/-! ## Unmarking -/

theorem follows_erase {ps l' r' : List ℕ} {p q x : ℕ} (h : ps=l'++p::q::r')
    (hp : x≠p) (hq : x≠q) : ∃ l r, ps.erase x=l++p::q::r := by
  rw [h,List.erase_append]
  split
  · exact ⟨_,_,rfl⟩
  · refine ⟨l',r'.erase x,?_⟩
    rw [List.erase_cons_tail (by simpa using hp.symm),
      List.erase_cons_tail (by simpa using hq.symm)]

/-- Erasing an extent, whatever was stored in it just before. -/
theorem Inv.erase {bp : RbPrivate} (h : Inv bp) {l r : List ℕ} {p : ℕ}
    (hin : bp.root.inorder=l++p::r) (e : Extent) :
    ∃ bp', eraseExtent (bp.write p e) p=some bp' ∧ Inv bp' ∧ bp'.root.inorder=l++r ∧
      ∀ q∈l++r, bp'.extent q=bp.extent q := by
  have hnodup := h.sorted.nodup
  obtain ⟨bp',herase,hrb,hin',hfreed⟩ := @eraseExtent_spec (bp.write p e) l r p h.rb hin hnodup
  rw [hin] at hnodup
  obtain ⟨hpl,hpr⟩ := not_mem_of_nodup hnodup
  have hext : ∀ q∈l++r, bp'.extent q=bp.extent q := by
    intro q hq
    rw [hfreed.extent]
    refine Function.update_of_ne ?_ e bp.extent
    intro heq
    rcases List.mem_append.mp hq with hq|hq
    · exact hpl (heq ▸ hq)
    · exact hpr (heq ▸ hq)
  have hlive : ∀ q, q∈bp.root.inorder → q∉[p] → q∈bp'.root.inorder := by
    intro q hq hne
    rw [hin'] 
    rw [hin] at hq
    exact @mem_of_freed l [p] r q hq hne
  refine ⟨bp',herase,?_,hin',hext⟩
  constructor
  · exact hrb
  · have hsub : (l++r).Sublist bp.root.inorder := by
      rw [hin]
      exact List.Sublist.append_left (List.sublist_cons_self p r) l
    rw [hin']
    exact (h.sorted.sublist hsub).congr hext
  · intro q hq
    obtain ⟨hq,hne⟩ := hfreed.wcursor q hq
    exact hlive q (h.wcursor q hq) hne
  · intro q hq
    obtain ⟨hq,hne⟩ := hfreed.rcursor q hq
    exact hlive q (h.rcursor q hq) hne
  · intro q q' hq hq'
    obtain ⟨hq,hne⟩ := hfreed.rcursor q hq
    obtain ⟨hq',hne'⟩ := hfreed.rcursorNext q' hq'
    obtain ⟨l',r',hsplit⟩ := h.rcursorNext q q' hq hq'
    have herased : bp.root.inorder.erase p=l++r := by
      rw [hin,List.erase_append_right _ hpl,List.erase_cons_head]
    rw [hin',←herased]
    rw [List.mem_singleton] at hne hne'
    exact follows_erase hsplit (Ne.symm hne) (Ne.symm hne')

/-- Storing another extent that leaves the order intact. -/
theorem Inv.write {bp : RbPrivate} (h : Inv bp) {p : ℕ} {e : Extent}
    (hsorted : Sorted (Function.update bp.extent p e) bp.root.inorder) : Inv (bp.write p e) :=
  ⟨h.rb,hsorted,h.wcursor,h.rcursor,h.rcursorNext⟩

theorem write_self (bp : RbPrivate) (p : ℕ) : bp.write p (bp.extent p)=bp := by
  rw [RbPrivate.write,Function.update_eq_self]

/-- One extent is replaced by a part of it. -/
theorem Inv.shrink {bp : RbPrivate} (h : Inv bp) {l r : List ℕ} {p : ℕ}
    (hin : bp.root.inorder=l++p::r) {e : Extent} (hpos : 0<e.count)
    (hstart : (bp.extent p).start≤e.start) (hstop : e.stop≤(bp.extent p).stop) :
    Inv (bp.write p e) ∧ ∀ b, Bits (bp.write p e) b ↔
      Covers bp.extent l b ∨ e.Has b ∨ Covers bp.extent r b := by
  have hnodup := h.sorted.nodup
  rw [hin] at hnodup
  obtain ⟨hpl,hpr⟩ := not_mem_of_nodup hnodup
  have hother : ∀ q, q≠p → Function.update bp.extent p e q=bp.extent q :=
    fun q hq => Function.update_of_ne hq _ _
  have hsorted := h.sorted
  rw [hin,sorted_append_cons] at hsorted
  obtain ⟨hl,hr,-,hbefore,hafter⟩ := hsorted
  constructor
  · refine h.write ?_
    rw [hin,sorted_append_cons,Function.update_self]
    refine ⟨hl.congr fun q hq => hother q fun heq => hpl (heq ▸ hq),
      hr.congr fun q hq => hother q fun heq => hpr (heq ▸ hq),hpos,?_,?_⟩
    · intro q hq
      rw [hother q fun heq => hpl (heq ▸ hq)]
      have hq' := hbefore q hq
      omega
    · intro q hq
      rw [hother q fun heq => hpr (heq ▸ hq)]
      have hq' := hafter q hq
      omega
  · intro b
    change Covers (Function.update bp.extent p e) bp.root.inorder b ↔ _
    rw [hin,covers_append,covers_cons,covers_update hpl,covers_update hpr,Function.update_self]

theorem drop_removed {left middle right removed : Prop} (h : middle → removed) :
    (left ∨ right) ∧ ¬removed ↔ (left ∨ middle ∨ right) ∧ ¬removed := by
  tauto

theorem keep_outside {left middle right removed : Prop} (hl : left → ¬removed)
    (hr : right → ¬removed) :
    left ∨ (middle ∧ ¬removed) ∨ right ↔ (left ∨ middle ∨ right) ∧ ¬removed := by
  tauto

/-- What is known around one extent. -/
structure Around (bp : RbPrivate) (l : List ℕ) (p : ℕ) (r : List ℕ) : Prop where
  before : ∀ q∈l, (bp.extent q).stop<(bp.extent p).start
  after : ∀ q∈r, (bp.extent p).stop<(bp.extent q).start
  bits : ∀ b, Bits bp b ↔ Covers bp.extent l b ∨ (bp.extent p).Has b ∨ Covers bp.extent r b
  left : ∀ b, Covers bp.extent l b → b<(bp.extent p).start
  right : ∀ b, Covers bp.extent r b → (bp.extent p).stop<b
  notMem : p∉l ∧ p∉r

theorem Inv.around {bp : RbPrivate} (h : Inv bp) {l r : List ℕ} {p : ℕ}
    (hin : bp.root.inorder=l++p::r) : Around bp l p r := by
  have hsorted := h.sorted
  rw [hin,sorted_append_cons] at hsorted
  obtain ⟨-,-,hpos,hbefore,hafter⟩ := hsorted
  have hnodup := h.sorted.nodup
  rw [hin] at hnodup
  refine ⟨hbefore,hafter,?_,?_,?_,not_mem_of_nodup hnodup⟩
  · intro b
    rw [Bits,hin,covers_append,covers_cons]
  · rintro b ⟨q,hq,hb⟩
    have hq' := hbefore q hq
    have hb' := hb.2
    omega
  · rintro b ⟨q,hq,hb⟩
    have hq' := hafter q hq
    have hb' := hb.1
    omega

/-- An extent that reaches beyond the range keeps its part behind it. -/
theorem Inv.cutFront {bp : RbPrivate} {l r : List ℕ} {p start count : ℕ} (h : Inv bp)
    (hin : bp.root.inorder=l++p::r) (hge : start≤(bp.extent p).start)
    (hreach : (bp.extent p).start ≤ start+count) (hbeyond : start+count<(bp.extent p).stop)
    (hleft : ∀ b, Covers bp.extent l b → ¬(start≤b ∧ b < start+count)) :
    let kept : Extent := ⟨start+count,(bp.extent p).count-((start+count)-(bp.extent p).start)⟩
    Inv (bp.write p kept) ∧
      ∀ b, Bits (bp.write p kept) b ↔ Bits bp b ∧ ¬(start≤b ∧ b < start+count) := by
  intro kept
  have haround := h.around hin
  have hshrink := @Inv.shrink bp h l r p hin kept
    (by simp only [Extent.stop] at hbeyond; simp only [kept]; omega)
    (by simp only [kept]; omega) (by simp only [kept,Extent.stop] at hbeyond ⊢; omega)
  refine ⟨hshrink.1,fun b => ?_⟩
  have hpart : kept.Has b ↔ (bp.extent p).Has b ∧ ¬(start≤b ∧ b < start+count) := by
    simp only [kept,Extent.Has,Extent.stop] at hbeyond ⊢
    omega
  have hright : Covers bp.extent r b → ¬(start≤b ∧ b < start+count) := by
    intro hb
    have hb' := haround.right b hb
    omega
  rw [hshrink.2,haround.bits,hpart]
  exact keep_outside (hleft b) hright

/-- The second loop removes the range from the extents that it walks over. -/
theorem removeLoop_spec {l r : List ℕ} {start count fuel : ℕ} {bp : RbPrivate} {retval : Bool}
    (h : Inv bp) (hin : bp.root.inorder=l++r) (hl : ∀ p∈l, (bp.extent p).stop ≤ start)
    (hr : ∀ p∈r, (bp.extent p).stop ≤ start ∨ start≤(bp.extent p).start)
    (hfuel : r.length≤fuel) :
    ∃ bp' v, removeLoop fuel bp r.head? start count retval=some (bp',v) ∧ Inv bp' ∧
      ∀ b, Bits bp' b ↔ Bits bp b ∧ ¬(start≤b ∧ b < start+count) := by
  have hleft : ∀ b, Covers bp.extent l b → ¬(start≤b ∧ b < start+count) := by
    rintro b ⟨q,hq,hb⟩
    have hq' := hl q hq
    have hb' := hb.2
    omega
  induction r generalizing fuel bp retval l with
  | nil =>
    refine ⟨bp,retval,by rw [List.head?_nil,removeLoop],h,?_⟩
    intro b
    refine ⟨fun hb => ⟨hb,?_⟩,And.left⟩
    rw [Bits,hin,List.append_nil] at hb
    exact hleft b hb
  | cons p r ih =>
    cases fuel with
    | zero => simp at hfuel
    | succ fuel =>
      have hnext : next p bp.root=r.head? := next_eq hin h.sorted.nodup
      have haround := h.around hin
      have hp := hr p List.mem_cons_self
      rw [List.head?_cons,removeLoop,hnext]
      by_cases hbelow : (bp.extent p).stop ≤ start
      · rw [if_pos hbelow]
        refine @ih (l++[p]) fuel bp retval h (by rw [hin,List.append_assoc]; rfl) ?_
          (fun q hq => hr q (List.mem_cons_of_mem p hq)) (by simpa using hfuel) ?_
        · intro q hq
          rcases List.mem_append.mp hq with hq|hq
          · exact hl q hq
          · rw [List.mem_singleton.mp hq]
            exact hbelow
        · intro b hb
          rw [covers_append] at hb
          rcases hb with hb|hb
          · exact hleft b hb
          · rw [covers_cons] at hb
            have hb' := (hb.resolve_right (covers_nil b)).2
            omega
      · rw [if_neg hbelow]
        have hge := hp.resolve_left hbelow
        by_cases hbreak : start+count<(bp.extent p).start
        · rw [if_pos hbreak]
          refine ⟨bp,retval,rfl,h,?_⟩
          intro b
          refine ⟨fun hb => ⟨hb,?_⟩,And.left⟩
          rcases (haround.bits b).mp hb with hb|hb|hb
          · exact hleft b hb
          · have hb' := hb.1
            omega
          · have hb' := haround.right b hb
            simp only [Extent.stop] at hb'
            omega
        · rw [if_neg hbreak]
          by_cases hall : (bp.extent p).stop ≤ start+count
          · rw [if_pos hall]
            obtain ⟨bp1,herase,hinv1,hin1,hext1⟩ := h.erase hin (bp.extent p)
            rw [write_self] at herase
            have hextl : ∀ q∈l, bp1.extent q=bp.extent q :=
              fun q hq => hext1 q (List.mem_append_left r hq)
            have hextr : ∀ q∈r, bp1.extent q=bp.extent q :=
              fun q hq => hext1 q (List.mem_append_right l hq)
            obtain ⟨bp',v,hloop,hinv',hcov⟩ := @ih l fuel bp1 true hinv1 hin1
              (fun q hq => by rw [hextl q hq]; exact hl q hq)
              (fun q hq => by rw [hextr q hq]; exact hr q (List.mem_cons_of_mem p hq))
              (by simpa using hfuel)
              (fun b hb => hleft b ((covers_congr hextl b).mp hb))
            refine ⟨bp',v,by rw [herase]; exact hloop,hinv',?_⟩
            intro b
            rw [hcov,Bits,hin1,covers_append,covers_congr hextl,covers_congr hextr,haround.bits]
            have hgone : (bp.extent p).Has b → start≤b ∧ b < start+count := by
              rintro ⟨hb1,hb2⟩
              omega
            exact drop_removed hgone
          · rw [if_neg hall]
            have hcut := h.cutFront hin hge (by omega) (by omega) hleft
            exact ⟨_,true,rfl,hcut⟩

/-- The first loop goes down to the place of the search. -/
theorem removeSearch_missed (alloc : Allocator) {start count : ℕ} {t : RbTree.Tree ℕ}
    {path path' : List (Frame ℕ)} {bp : RbPrivate} {retval : Bool}
    (h : descend (inside bp start) t path=(.nil,path')) :
    removeSearch alloc start count t path bp retval=
      removeLoop bp.root.inorder.length bp (parent path') start count retval := by
  induction t generalizing path with
  | nil =>
    rw [descend] at h
    cases h
    rw [removeSearch]
  | node c l x r ihl ihr =>
    rw [descend] at h
    rw [removeSearch]
    split at h
    · next hlt =>
      rw [if_pos (inside_lt_iff.mp hlt)]
      exact ihl h
    · next hgt =>
      have hstop := inside_gt_iff.mp hgt
      rw [if_neg (by simp only [Extent.stop] at hstop; omega),if_pos hstop]
      exact ihr h
    · cases h

theorem removeSearch_found (alloc : Allocator) {start count : ℕ} {t : RbTree.Tree ℕ}
    {path path' : List (Frame ℕ)} {bp : RbPrivate} {retval : Bool} {c : Color} {l r : RbTree.Tree ℕ}
    {x : ℕ} (h : descend (inside bp start) t path=(.node c l x r,path')) :
    removeSearch alloc start count t path bp retval=
      removeSearch alloc start count (.node c l x r) path' bp retval := by
  induction t generalizing path with
  | nil =>
    rw [descend] at h
    cases h
  | node c' l' x' r' ihl ihr =>
    rw [descend] at h
    split at h
    · next hlt =>
      rw [removeSearch,if_pos (inside_lt_iff.mp hlt)]
      exact ihl h
    · next hgt =>
      have hstop := inside_gt_iff.mp hgt
      rw [removeSearch,if_neg (by simp only [Extent.stop] at hstop; omega),if_pos hstop]
      exact ihr h
    · cases h
      rfl

/-- From the place of a search that missed, the second loop removes the range. -/
theorem removeLoop_parent {start count : ℕ} {bp : RbPrivate} {retval : Bool}
    {path : List (Frame ℕ)} (h : Inv bp) (hin : bp.root.inorder=before path++after path)
    (hbefore : ∀ p∈before path, (bp.extent p).stop ≤ start)
    (hafter : ∀ p∈after path, start<(bp.extent p).start) :
    ∃ bp' v, removeLoop bp.root.inorder.length bp (parent path) start count retval=some (bp',v) ∧
      Inv bp' ∧ ∀ b, Bits bp' b ↔ Bits bp b ∧ ¬(start≤b ∧ b < start+count) := by
  obtain ⟨l,r,hsplit,hparent,hcase⟩ := parent_split path
  have hin' : bp.root.inorder=l++r := hin.trans hsplit
  rw [hparent]
  refine removeLoop_spec h hin' ?_ ?_ (by rw [hin',List.length_append]; exact Nat.le_add_left _ _)
  · intro p hp
    rcases hcase with ⟨rfl,-⟩|⟨x,hx,-⟩
    · exact hbefore p hp
    · exact hbefore p (hx ▸ List.mem_append_left _ hp)
  · intro p hp
    rcases hcase with ⟨-,rfl⟩|⟨x,hx,rfl⟩
    · exact Or.inr (Nat.le_of_lt (hafter p hp))
    · rcases List.mem_cons.mp hp with rfl|hp
      · exact Or.inl (hbefore p (hx ▸ List.mem_append_right _ (List.mem_singleton.mpr rfl)))
      · exact Or.inr (Nat.le_of_lt (hafter p hp))

section Remove

variable {bp : RbPrivate} {l r : List ℕ} {p start count : ℕ}

/-- Replacing one extent by its part outside the range removes the range, if
nothing behind the extent is in it. -/
theorem Around.bits_of_part (h : Around bp l p r) (hge : (bp.extent p).start ≤ start)
    (hle : start+count≤(bp.extent p).stop) {part : Prop} {b : ℕ}
    (hpart : part ↔ (bp.extent p).Has b ∧ ¬(start≤b ∧ b < start+count)) :
    Covers bp.extent l b ∨ part ∨ Covers bp.extent r b ↔
      Bits bp b ∧ ¬(start≤b ∧ b < start+count) := by
  have hl : Covers bp.extent l b → ¬(start≤b ∧ b < start+count) := by
    intro hb
    have hb' := h.left b hb
    omega
  have hr : Covers bp.extent r b → ¬(start≤b ∧ b < start+count) := by
    intro hb
    have hb' := h.right b hb
    omega
  rw [h.bits,hpart]
  exact keep_outside hl hr

/-- The range lies strictly inside an extent: it is cut off there, and the rest
behind the range is inserted again. -/
theorem remove_middle (alloc : Allocator) (h : Inv bp) (hin : bp.root.inorder=l++p::r)
    (hlt : (bp.extent p).start < start) (hgt : start+count<(bp.extent p).stop) :
    ∃ bp' v, rbInsertExtent alloc (start+count) ((bp.extent p).stop-(start+count))
        (bp.write p ⟨(bp.extent p).start,start-(bp.extent p).start⟩)=some (bp',v) ∧ Inv bp' ∧
      ∀ b, Bits bp' b ↔ Bits bp b ∧ ¬(start≤b ∧ b < start+count) := by
  obtain ⟨hinv1,hbits1⟩ := @Inv.shrink bp h _ _ p hin
    ⟨(bp.extent p).start,start-(bp.extent p).start⟩ (by dsimp only; omega)
    (Nat.le_refl _) (by simp only [Extent.stop] at hgt ⊢; omega)
  obtain ⟨bp',v,hinsert,hinv',-,hbits'⟩ := @rbInsertExtent_spec alloc _ hinv1 (start+count)
    ((bp.extent p).stop-(start+count)) (by omega)
  refine ⟨bp',v,hinsert,hinv',?_⟩
  intro b
  rw [hbits',hbits1,←add_middle]
  refine (h.around hin).bits_of_part (by omega) (by omega) ?_
  simp only [Extent.Has,Extent.stop] at hgt ⊢
  omega

/-- The range starts with an extent and ends behind it: the extent is erased,
and the second loop goes on with the next one. -/
theorem remove_whole (h : Inv bp) (hin : bp.root.inorder=l++p::r)
    (heq : start=(bp.extent p).start) (hle : (bp.extent p).stop ≤ start+count) (e : Extent) :
    ∃ bp1 bp' v, eraseExtent (bp.write p e) p=some bp1 ∧
      removeLoop bp1.root.inorder.length bp1 (next p bp.root) start count true=some (bp',v) ∧
      Inv bp' ∧ ∀ b, Bits bp' b ↔ Bits bp b ∧ ¬(start≤b ∧ b < start+count) := by
  have haround := h.around hin
  obtain ⟨bp1,herase,hinv1,hin1,hext1⟩ := h.erase hin e
  have hextl : ∀ q∈l, bp1.extent q=bp.extent q := fun q hq => hext1 q (List.mem_append_left _ hq)
  have hextr : ∀ q∈r, bp1.extent q=bp.extent q := fun q hq => hext1 q (List.mem_append_right _ hq)
  have hfuel : r.length≤bp1.root.inorder.length := by
    rw [hin1,List.length_append]
    exact Nat.le_add_left _ _
  have hl : ∀ q∈l, (bp1.extent q).stop ≤ start := by
    intro q hq
    rw [hextl q hq]
    have hq' := haround.before q hq
    omega
  have hr : ∀ q∈r, (bp1.extent q).stop ≤ start ∨ start≤(bp1.extent q).start := by
    intro q hq
    rw [hextr q hq]
    have hq' := haround.after q hq
    simp only [Extent.stop] at hq'
    omega
  obtain ⟨bp',v,hloop,hinv',hbits'⟩ :=
    @removeLoop_spec _ _ start count _ bp1 true hinv1 hin1 hl hr hfuel
  refine ⟨bp1,bp',v,herase,?_,hinv',?_⟩
  · rw [next_eq hin h.sorted.nodup]
    exact hloop
  · intro b
    rw [hbits',Bits,hin1,covers_append,covers_congr hextl,covers_congr hextr,haround.bits]
    refine drop_removed ?_
    rintro ⟨hb1,hb2⟩
    omega

/-- The range starts inside an extent and ends behind it: the extent is cut
off, and the search goes on to its right, where it finds nothing. -/
theorem remove_back (alloc : Allocator) (h : Inv bp) {c : Color} {tl tr : RbTree.Tree ℕ}
    {path : List (Frame ℕ)} (hplug : plug (.node c tl p tr) path=bp.root)
    (hlt : (bp.extent p).start < start) (hhas : start<(bp.extent p).stop)
    (hle : (bp.extent p).stop ≤ start+count) :
    ∃ bp' v, removeSearch alloc start count tr (⟨.right,c,p,tl⟩::path)
        (bp.write p ⟨(bp.extent p).start,start-(bp.extent p).start⟩) true=some (bp',v) ∧
      Inv bp' ∧ ∀ b, Bits bp' b ↔ Bits bp b ∧ ¬(start≤b ∧ b < start+count) := by
  have hin : bp.root.inorder=(before path++tl.inorder)++p::(tr.inorder++after path) := by
    rw [←hplug,inorder_plug]
    simp [RbTree.Tree.inorder]
  have haround := h.around hin
  obtain ⟨hinv1,hbits1⟩ := @Inv.shrink bp h _ _ p hin
    ⟨(bp.extent p).start,start-(bp.extent p).start⟩ (by dsimp only; omega)
    (Nat.le_refl _) (by simp only [Extent.stop] at hhas ⊢; omega)
  have hwritten : (bp.write p ⟨(bp.extent p).start,start-(bp.extent p).start⟩).extent p=
      ⟨(bp.extent p).start,start-(bp.extent p).start⟩ := Function.update_self ..
  have hother : ∀ q, q≠p →
      (bp.write p ⟨(bp.extent p).start,start-(bp.extent p).start⟩).extent q=bp.extent q :=
    fun q hq => Function.update_of_ne hq _ _
  have hplug' : plug tr (⟨.right,c,p,tl⟩::path)=
      (bp.write p ⟨(bp.extent p).start,start-(bp.extent p).start⟩).root := hplug
  revert hinv1 hbits1 hwritten hother hplug'
  generalize bp.write p ⟨(bp.extent p).start,start-(bp.extent p).start⟩=short
  intro hinv1 hbits1 hwritten hother hplug'
  have hbefore1 : ∀ q∈before (⟨.right,c,p,tl⟩::path), inside short start q=.gt := by
    intro q hq
    rw [inside_gt_iff]
    change q∈before path++tl.inorder++[p] at hq
    rcases List.mem_append.mp hq with hq|hq
    · rw [hother q fun heq => haround.notMem.1 (heq ▸ hq)]
      have hq' := haround.before q hq
      omega
    · rw [List.mem_singleton.mp hq,hwritten]
      simp only [Extent.stop]
      omega
  have hafter1 : ∀ q∈tr.inorder++after path, start<(short.extent q).start := by
    intro q hq
    rw [hother q fun heq => haround.notMem.2 (heq ▸ hq)]
    have hq' := haround.after q hq
    omega
  rcases hdescend : descend (inside short start) tr (⟨.right,c,p,tl⟩::path) with ⟨t,path'⟩
  cases t with
  | node c' l' x' r' =>
    have hx := hafter1 x' (List.mem_append_left _ (descend_mem hdescend))
    have hx' := (inside_eq_iff.mp (descend_found hdescend)).1
    omega
  | nil =>
    have hmono : Monotone (inside short start) (plug tr (⟨.right,c,p,tl⟩::path)).inorder := by
      rw [hplug']
      exact hinv1.sorted.monotone_inside start
    obtain ⟨hgt,hlt'⟩ := descend_missed hmono hbefore1
      (fun q hq => inside_lt_iff.mpr (hafter1 q (List.mem_append_right _ hq))) hdescend
    have hplug'' := plug_descend (inside short start) tr (⟨.right,c,p,tl⟩::path)
    rw [hdescend,hplug'] at hplug''
    have hin' : short.root.inorder=before path'++after path' := by
      have hall := inorder_plug .nil path'
      rw [hplug'',RbTree.Tree.inorder,List.append_nil] at hall
      exact hall
    obtain ⟨bp',v,hloop,hinv',hbits'⟩ := @removeLoop_parent start count short true path'
      hinv1 hin' (fun q hq => inside_gt_iff.mp (hgt q hq))
      (fun q hq => inside_lt_iff.mp (hlt' q hq))
    refine ⟨bp',v,by rw [removeSearch_missed alloc hdescend]; exact hloop,hinv',?_⟩
    intro b
    have hfront : (⟨(bp.extent p).start,start-(bp.extent p).start⟩ : Extent).Has b ↔
        (bp.extent p).Has b ∧ ¬(start≤b ∧ b < start+((bp.extent p).stop-start)) := by
      simp only [Extent.Has,Extent.stop] at hhas ⊢
      omega
    rw [hbits',hbits1,haround.bits_of_part (by omega) (by omega) hfront,and_assoc]
    have hless : ¬(start≤b ∧ b < start+count) →
        ¬(start≤b ∧ b < start+((bp.extent p).stop-start)) := by
      omega
    exact and_congr_right fun _ => ⟨And.right,fun hb => ⟨hless hb,hb⟩⟩

/-- Unmarking where an extent has the start. -/
theorem removeSearch_node (alloc : Allocator) (h : Inv bp) {c : Color} {tl tr : RbTree.Tree ℕ}
    {path : List (Frame ℕ)} {retval : Bool} (hplug : plug (.node c tl p tr) path=bp.root)
    (hcount : 0 < count) (hhas : (bp.extent p).Has start) :
    ∃ bp' v, removeSearch alloc start count (.node c tl p tr) path bp retval=some (bp',v) ∧
      Inv bp' ∧ ∀ b, Bits bp' b ↔ Bits bp b ∧ ¬(start≤b ∧ b < start+count) := by
  have hin : bp.root.inorder=(before path++tl.inorder)++p::(tr.inorder++after path) := by
    rw [←hplug,inorder_plug]
    simp [RbTree.Tree.inorder]
  obtain ⟨hge,hlt⟩ := hhas
  rw [removeSearch,if_neg (by omega),if_neg (by omega)]
  by_cases hsplit : (bp.extent p).start < start ∧ start+count<(bp.extent p).stop
  · rw [if_pos hsplit]
    obtain ⟨bp',v,hinsert,hinv,hbits⟩ := remove_middle alloc h hin hsplit.1 hsplit.2
    exact ⟨bp',true,by rw [hinsert]; rfl,hinv,hbits⟩
  · rw [if_neg hsplit]
    by_cases hcovered : (bp.extent p).stop ≤ start+count
    · have hwritten : (bp.write p ⟨(bp.extent p).start,start-(bp.extent p).start⟩).extent p=
          ⟨(bp.extent p).start,start-(bp.extent p).start⟩ := Function.update_self ..
      simp only [if_pos hcovered,hwritten]
      by_cases hzero : start-(bp.extent p).start=0
      · rw [if_pos hzero]
        obtain ⟨bp1,bp',v,herase,hloop,hinv,hbits⟩ := remove_whole h hin (by omega) hcovered
          ⟨(bp.extent p).start,start-(bp.extent p).start⟩
        exact ⟨bp',v,by rw [herase]; exact hloop,hinv,hbits⟩
      · rw [if_neg hzero,if_neg (by omega)]
        exact remove_back alloc h hplug (by omega) hlt hcovered
    · simp only [if_neg hcovered]
      have hcountp : (bp.extent p).count≠0 := by
        simp only [Extent.stop] at hlt
        omega
      rw [if_neg hcountp,if_pos (by omega)]
      obtain ⟨hinv1,hbits1⟩ := @Inv.shrink bp h _ _ p hin
        ⟨(bp.extent p).start+count,(bp.extent p).count-count⟩
        (by simp only [Extent.stop] at hcovered; dsimp only; omega) (by dsimp only; omega)
        (by simp only [Extent.stop] at hcovered ⊢; omega)
      refine ⟨_,true,rfl,hinv1,?_⟩
      intro b
      rw [hbits1]
      refine (h.around hin).bits_of_part hge (by omega) ?_
      simp only [Extent.Has,Extent.stop] at hcovered hsplit ⊢
      omega

/-- `rb_remove_extent` clears the bits of the range. -/
theorem rbRemoveExtent_spec (alloc : Allocator) (h : Inv bp) (hcount : 0 < count) :
    ∃ bp' v, rbRemoveExtent alloc start count bp=some (bp',v) ∧ Inv bp' ∧
      ∀ b, Bits bp' b ↔ Bits bp b ∧ ¬(start≤b ∧ b < start+count) := by
  unfold rbRemoveExtent
  split
  · next hroot =>
    refine ⟨bp,false,rfl,h,?_⟩
    intro b
    have hnone : ¬Bits bp b := by
      rw [Bits,hroot]
      exact covers_nil b
    exact ⟨fun hb => absurd hb hnone,fun hb => absurd hb.1 hnone⟩
  · next hroot =>
    rw [←hroot]
    rcases hdescend : descend (inside bp start) bp.root [] with ⟨t,path⟩
    cases t with
    | nil =>
      obtain ⟨hin,-,hgt,hlt⟩ := h.missed (h.sorted.monotone_inside start) hdescend
      rw [removeSearch_missed alloc hdescend]
      exact removeLoop_parent h hin (fun q hq => inside_gt_iff.mp (hgt q hq))
        fun q hq => inside_lt_iff.mp (hlt q hq)
    | node c' l' x' r' =>
      rw [removeSearch_found alloc hdescend]
      have hplug := plug_descend (inside bp start) bp.root []
      rw [hdescend] at hplug
      exact removeSearch_node alloc h hplug hcount (inside_eq_iff.mp (descend_found hdescend))

end Remove

end AndroidPlatform.RbBitmap
