import AndroidPlatform.ExtentSplitOutcome

/-!
# A replaced extent and its reading

`ee_len` holds the length of an extent and, from 32769 on, the mark that it is not
initialised. `ext2fs_extent_replace` stores the blocks of an extent, tests its length and
stores that; `ext2fs_extent_get` takes the three apart.
-/

namespace AndroidPlatform.ExtentReplacement

open ExtentHandle ExtentTree ExtentSearch ExtentUpdate ExtentSplit ExtentSplitOutcome

/-- What a replacement in a leaf is to do: a stored extent is read back, and one with a bad
length leaves the node as it was. -/
structure ReplacesRight (handle : Handle) (extent : Extent) : Prop where
  reads : ∀ after, extentReplace extent handle=.ok () after →
    ∃ got, extentGet .current after=.ok got after ∧ got.eLblk=extent.eLblk ∧
      got.ePblk=extent.ePblk ∧ got.eLen=extent.eLen ∧ got.uninit=extent.uninit
  keeps : ∀ after, extentReplace extent handle=.error .invalidLength after →
    after.current.buf=handle.current.buf

/-- The lengths that `ext2fs_extent_replace` accepts in a leaf. -/
def Accepted (extent : Extent) : Prop :=
  if extent.uninit then extent.eLen≤extUninitMaxLen else extent.eLen≤extInitMaxLen

instance (extent : Extent) : Decidable (Accepted extent) := by
  unfold Accepted
  infer_instance

/-- The value of `ee_len` for an extent. -/
def eeLen (extent : Extent) : UInt16 :=
  .ofNat (if extent.uninit then extent.eLen+extInitMaxLen else extent.eLen)

/-! ## The fields of a slot -/

theorem extentSlot_lblk {extent : Extent} (h : extent.eLblk<2^32) (len : UInt16) :
    (extentSlot extent len).lblk=extent.eLblk := by
  simp only [extentSlot,Slot.lblk,UInt32.toNat_ofNat']
  omega

theorem extentSlot_eeStart {extent : Extent} (h : extent.ePblk<2^48) (len : UInt16) :
    (extentSlot extent len).eeStart=extent.ePblk := by
  simp only [extentSlot,Slot.eeStart,UInt16.toNat_ofNat']
  omega

/-- The slot is the old one if the blocks are the old ones. -/
theorem extentSlot_eq_iff {extent : Extent} (hlblk : extent.eLblk<2^32)
    (hpblk : extent.ePblk<2^48) (slot : Slot) :
    extentSlot extent slot.half0=slot ↔ slot.lblk=extent.eLblk ∧ slot.eeStart=extent.ePblk := by
  constructor
  · intro h
    rw [←h]
    exact ⟨extentSlot_lblk hlblk _,extentSlot_eeStart hpblk _⟩
  · rintro ⟨hblock,hstart⟩
    obtain ⟨block,half0,half1,half2,half3⟩ := slot
    have h1 := half1.toNat_lt
    have h2 := half2.toNat_lt
    have h3 := half3.toNat_lt
    simp only [Slot.lblk,Slot.eeStart] at hblock hstart
    simp only [extentSlot,Slot.mk.injEq,true_and,←UInt32.toNat_inj,←UInt16.toNat_inj,
      UInt32.toNat_ofNat',UInt16.toNat_ofNat']
    omega

/-- What is read of a value of `ee_len`. -/
theorem extentSlot_read (extent : Extent) {len : UInt16} {n : ℕ} (h : len.toNat=n) :
    ((extentSlot extent len).uninit=true ↔ extInitMaxLen<n) ∧
      (extentSlot extent len).len=if extInitMaxLen<n then n-extInitMaxLen else n := by
  have huninit : (extentSlot extent len).uninit=decide (extInitMaxLen<n) := by rw [←h]; rfl
  refine ⟨by rw [huninit,decide_eq_true_eq],?_⟩
  rw [Slot.len,huninit,←h]
  by_cases hlt : extInitMaxLen<len.toNat
  · rw [if_pos hlt,if_pos (decide_eq_true hlt)]
    rfl
  · rw [if_neg hlt,if_neg (by rw [decide_eq_false hlt]; exact Bool.noConfusion)]
    rfl

/-- The mark and the length of an accepted extent are in `ee_len`, except for an extent of no
blocks that is not initialised. -/
theorem extentSlot_decode {extent : Extent} (h : Accepted extent) :
    (extentSlot extent (eeLen extent)).len=extent.eLen ∧
        (extentSlot extent (eeLen extent)).uninit=extent.uninit ↔
      ¬(extent.uninit=true ∧ extent.eLen=0) := by
  have hmax : extInitMaxLen=32768 := rfl
  rw [Accepted,extUninitMaxLen] at h
  by_cases huninit : extent.uninit=true
  · rw [if_pos huninit] at h
    have hhalf : (eeLen extent).toNat=extent.eLen+extInitMaxLen := by
      rw [eeLen,if_pos huninit,UInt16.toNat_ofNat']
      omega
    obtain ⟨hmark,hlen⟩ := extentSlot_read extent hhalf
    rw [hlen,huninit,hmark]
    constructor
    · rintro ⟨-,hlt⟩ ⟨-,hzero⟩
      omega
    · intro hboth
      have hpos : extent.eLen≠0 := fun hzero => hboth ⟨rfl,hzero⟩
      rw [if_pos (by omega)]
      omega
  · rw [if_neg huninit] at h
    have hhalf : (eeLen extent).toNat=extent.eLen := by
      rw [eeLen,if_neg huninit,UInt16.toNat_ofNat']
      omega
    obtain ⟨hmark,hlen⟩ := extentSlot_read extent hhalf
    rw [hlen,if_neg (by omega)]
    refine ⟨fun _ hboth => huninit hboth.1,fun _ => ⟨rfl,?_⟩⟩
    rw [Bool.eq_false_iff.mpr huninit,Bool.eq_false_iff]
    intro htrue
    have := hmark.mp htrue
    omega

/-! ## The replacement -/

variable {handle : Handle} {extent : Extent} {i : ℕ}

/-- `ext2fs_extent_replace` of an extent that it accepts stores its slot. -/
theorem extentReplace_accepted (hrw : handle.fs.rw≠false) (hlevel : handle.level=handle.maxDepth)
    (hcurr : handle.current.curr=some i) (h : Accepted extent) :
    ∃ fs, extentReplace extent handle=
      .ok () {Handle.store handle i (extentSlot extent (eeLen extent)) with fs := fs} := by
  rw [Accepted] at h
  obtain ⟨fs,hwrite,-⟩ :=
    ignoring_updatePath (Handle.store handle i (extentSlot extent (eeLen extent)))
  refine ⟨fs,?_⟩
  rw [←hwrite]
  simp only [extentReplace,hcurr]
  rw [if_neg hrw,if_pos hlevel]
  by_cases huninit : extent.uninit=true
  · rw [if_pos huninit] at h
    rw [if_pos huninit,if_neg (by omega),eeLen,if_pos huninit]
  · rw [if_neg huninit] at h
    rw [if_neg huninit,if_neg (by omega),eeLen,if_neg huninit]

/-- An extent that it does not accept has already its blocks in the slot. -/
theorem extentReplace_refused (hrw : handle.fs.rw≠false) (hlevel : handle.level=handle.maxDepth)
    (hcurr : handle.current.curr=some i) (h : ¬Accepted extent) :
    extentReplace extent handle=.error .invalidLength
      (Handle.store handle i (extentSlot extent (handle.current.buf.slot i).half0)) := by
  rw [Accepted] at h
  simp only [extentReplace,hcurr]
  rw [if_neg hrw,if_pos hlevel]
  by_cases huninit : extent.uninit=true
  · rw [if_pos huninit] at h
    rw [if_pos huninit,if_pos (by omega)]
  · rw [if_neg huninit] at h
    rw [if_neg huninit,if_pos (by omega)]

/-- The node of the handle after a store. -/
theorem store_buf (handle : Handle) (i : ℕ) (slot : Slot) :
    (Handle.store handle i slot).current.buf=
      {handle.current.buf with slot := Function.update handle.current.buf.slot i slot} := by
  simp only [Handle.store,Handle.current,Handle.setPath,Function.update_self]

/-- The reading of the slot that was stored in a leaf. -/
theorem extentGet_stored (hlevel : handle.level=handle.maxDepth)
    (hcurr : handle.current.curr=some i) (slot : Slot) (fs : Filsys) :
    ∃ got, extentGet .current {Handle.store handle i slot with fs := fs}=
        .ok got {Handle.store handle i slot with fs := fs} ∧
      got.eLblk=slot.lblk ∧ got.ePblk=slot.eeStart ∧ got.eLen=slot.len ∧
        got.uninit=slot.uninit := by
  have hpath : ({Handle.store handle i slot with fs := fs} : Handle).current=
      {handle.current with buf := {handle.current.buf with
        slot := Function.update handle.current.buf.slot i slot}} := by
    simp only [Handle.store,Handle.current,Handle.setPath,Function.update_self]
  refine ⟨_,extentGet_eq rfl (by rw [hpath]; exact hcurr),?_⟩
  rw [Handle.extentAt,if_pos (show (Handle.store handle i slot).level=
    (Handle.store handle i slot).maxDepth from hlevel),hpath]
  simp only [Function.update_self,true_and]

/-- A replacement in a leaf is right in exactly these cases: the file system is read-only; the
length is accepted, and the extent is not one of no blocks that is not initialised; or the
length is refused, and the entry has the blocks of the extent already. -/
theorem extentReplace_right_iff (hlevel : handle.level=handle.maxDepth)
    (hcurr : handle.current.curr=some i) (hlblk : extent.eLblk<2^32)
    (hpblk : extent.ePblk<2^48) :
    ReplacesRight handle extent ↔
      handle.fs.rw=false ∨
        Accepted extent ∧ ¬(extent.uninit=true ∧ extent.eLen=0) ∨
        ¬Accepted extent ∧ (handle.current.buf.slot i).lblk=extent.eLblk ∧
          (handle.current.buf.slot i).eeStart=extent.ePblk := by
  by_cases hrw : handle.fs.rw=false
  · have hro : extentReplace extent handle=.error .roFilsys handle := by
      simp only [extentReplace]
      rw [if_pos hrw]
    exact ⟨fun _ => Or.inl hrw,fun _ => ⟨fun after h => (by rw [hro] at h; cases h),
      fun after h => (by rw [hro] at h; cases h)⟩⟩
  · by_cases haccepted : Accepted extent
    · obtain ⟨fs,hok⟩ := extentReplace_accepted hrw hlevel hcurr haccepted
      obtain ⟨got,hget,hgotLblk,hgotPblk,hgotLen,hgotUninit⟩ :=
        extentGet_stored hlevel hcurr (extentSlot extent (eeLen extent)) fs
      have hdecode := extentSlot_decode haccepted
      constructor
      · intro hright
        obtain ⟨got',hget',-,-,hlen,huninit⟩ := hright.reads _ hok
        rw [hget] at hget'
        cases hget'
        exact Or.inr (Or.inl ⟨haccepted,hdecode.mp ⟨hgotLen ▸ hlen,hgotUninit ▸ huninit⟩⟩)
      · intro hcases
        have hnonzero : ¬(extent.uninit=true ∧ extent.eLen=0) := by
          rcases hcases with hro | ⟨-,hnonzero⟩ | ⟨hrefused,-⟩
          · exact absurd hro hrw
          · exact hnonzero
          · exact absurd haccepted hrefused
        obtain ⟨hlen,huninit⟩ := hdecode.mpr hnonzero
        refine ⟨fun after h => ?_,fun after h => (by rw [hok] at h; cases h)⟩
        rw [hok] at h
        cases h
        exact ⟨got,hget,hgotLblk.trans (extentSlot_lblk hlblk _),
          hgotPblk.trans (extentSlot_eeStart hpblk _),hgotLen.trans hlen,hgotUninit.trans huninit⟩
    · have hfail := extentReplace_refused hrw hlevel hcurr haccepted
      rw [←extentSlot_eq_iff hlblk hpblk]
      constructor
      · intro hright
        have hbuf := hright.keeps _ hfail
        rw [store_buf] at hbuf
        have hslot := congrArg (fun node => node.slot i) hbuf
        simp only [Function.update_self] at hslot
        exact Or.inr (Or.inr ⟨haccepted,hslot⟩)
      · intro hcases
        have hsame : extentSlot extent (handle.current.buf.slot i).half0=
            handle.current.buf.slot i := by
          rcases hcases with hro | ⟨haccept,-⟩ | ⟨-,hsame⟩
          · exact absurd hro hrw
          · exact absurd haccept haccepted
          · exact hsame
        refine ⟨fun after h => (by rw [hfail] at h; cases h),fun after h => ?_⟩
        rw [hfail] at h
        cases h
        rw [store_buf,hsame,Function.update_eq_self]

/-- In the file with one extent, its replacement by one of five blocks at block 300. -/
theorem extentReplace_right_iff_oneExtent :
    ReplacesRight (oneExtent 4) ⟨300,7,5,true,true,false⟩ :=
  (@extentReplace_right_iff (oneExtent 4) ⟨300,7,5,true,true,false⟩ 0 rfl rfl (by decide)
    (by decide)).mpr (Or.inr (Or.inl ⟨by decide,by decide⟩))

/-- In the file with one extent, one of no blocks that is not initialised is stored and read as
one of 32768 blocks that is, and one of 40000 blocks is refused after its blocks were stored. -/
theorem extentReplace_not_right :
    (¬∀ (handle : Handle) (extent : Extent) (i : ℕ), handle.level=handle.maxDepth →
        handle.current.curr=some i → extent.eLblk<2^32 → extent.ePblk<2^48 →
        ReplacesRight handle extent) ∧
      ¬ReplacesRight (oneExtent 4) ⟨300,7,0,true,true,false⟩ ∧
      ¬ReplacesRight (oneExtent 4) ⟨300,7,40000,true,true,false⟩ := by
  have hempty : ¬ReplacesRight (oneExtent 4) ⟨300,7,0,true,true,false⟩ := by
    intro h
    obtain ⟨got,hget,-,-,hlen,-⟩ := h.reads _ rfl
    cases hget
    exact absurd hlen (by decide)
  refine ⟨fun h => hempty (h _ _ 0 rfl rfl (by decide) (by decide)),hempty,fun h => ?_⟩
  have hslot := congrArg (fun node => (node.slot 0).lblk) (h.keeps _ rfl)
  exact absurd hslot (by decide)

end AndroidPlatform.ExtentReplacement
