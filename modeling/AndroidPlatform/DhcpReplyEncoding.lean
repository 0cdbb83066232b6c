import AndroidPlatform.DhcpReplyOptions
import Mathlib.Data.List.Pairwise

/-!
# Options that are put into a reply are found in it

The options and the spare fields of a reply are areas of fields. Each call adds
fields at the end of an area, in bytes that nothing else uses, as long as nothing is
put into `sname` that does not fit there. The finished packet then yields the first
option of each code.
-/

namespace AndroidPlatform.DhcpReplyOptions

open TaggedFields

/-! ## Memory -/

namespace Mess

variable {m m' : Mess} {p i : ℕ} {v : UInt8} {data : List UInt8}

theorem store_self : (m.store p v).byte p=v :=
  @Function.update_self ℕ (fun _ => UInt8) _ p v m.byte

theorem store_of_ne (h : i≠p) : (m.store p v).byte i=m.byte i :=
  @Function.update_of_ne ℕ (fun _ => UInt8) _ i p h v m.byte

theorem copy_of_outside (h : i < p ∨ p+data.length ≤ i) : (m.copy p data).byte i=m.byte i := by
  induction data generalizing m p with
  | nil => rfl
  | cons v data ih =>
    rw [List.length_cons] at h
    rw [copy,ih (by omega),store_of_ne (by omega)]

theorem copy_inside (h : i < data.length) : data[i]?=some ((m.copy p data).byte (p+i)) := by
  induction data generalizing m p i with
  | nil => exact absurd h (Nat.not_lt_zero _)
  | cons v data ih =>
    rw [copy]
    cases i with
    | zero =>
      rw [copy_of_outside (Or.inl (by omega)),Nat.add_zero,store_self]
      rfl
    | succ i =>
      have heq : p+(i+1)=p+1+i := by omega
      rw [List.getElem?_cons_succ,heq]
      exact ih (Nat.lt_of_succ_lt_succ h)

/-! ## Walking over fields -/

variable {start stop limit minsize : ℕ} {fields : List Field} {opt : UInt8}

theorem next_field {f : Field} (h : f.HeldBy m.byte) :
    f.start+(m.byte (f.start+1)).toNat+2=f.stop := by
  rw [h.length,Field.stop]
  omega

theorem skipOpts_laid (h : Laid m.byte start fields stop) (hzero : m.byte stop=0)
    (hsize : stop < m.size) : m.skipOpts start=some stop := by
  induction fields generalizing start with
  | nil =>
    obtain rfl : start=stop := h
    rw [skipOpts,if_pos hsize,if_pos hzero]
  | cons f fields ih =>
    obtain ⟨rfl,htag,hheld,hrest⟩ := h
    have hle := hrest.le
    have hstop : f.stop=f.start+2+f.data.length := rfl
    rw [skipOpts,if_pos (by omega),hheld.tag,if_neg htag,next_field hheld]
    exact ih hrest

theorem findOverloadFrom_laid (h : Laid m.byte start fields stop) (hzero : m.byte stop=0)
    (hsize : stop < m.size) : m.findOverloadFrom start=
      some ((fields.find? fun f => f.tag=optionOverload).map Field.start) := by
  induction fields generalizing start with
  | nil =>
    obtain rfl : start=stop := h
    rw [findOverloadFrom,if_pos hsize,if_pos hzero]
    rfl
  | cons f fields ih =>
    obtain ⟨rfl,htag,hheld,hrest⟩ := h
    have hle := hrest.le
    have hstop : f.stop=f.start+2+f.data.length := rfl
    rw [findOverloadFrom,if_pos (by omega),hheld.tag,if_neg htag,next_field hheld]
    by_cases hover : f.tag=optionOverload
    · rw [if_pos hover,List.find?_cons,decide_eq_true hover]
      rfl
    · rw [if_neg hover,List.find?_cons,decide_eq_false hover]
      exact ih hrest

theorem optionFind1_laid (h : Laid m.byte start fields stop) (hend : m.byte stop=optionEnd)
    (hlimit : stop≤limit) (htags : ∀ f∈fields, f.tag≠optionEnd) (hopt : opt≠optionEnd) :
    m.optionFind1 start limit opt minsize=
      (fields.find? fun f => f.tag=opt ∧ f.data.length≥minsize).map Field.start := by
  induction fields generalizing start with
  | nil =>
    obtain rfl : start=stop := h
    rw [optionFind1,if_neg (by omega),if_pos hend,if_neg hopt]
    rfl
  | cons f fields ih =>
    obtain ⟨rfl,htag,hheld,hrest⟩ := h
    have hle := hrest.le
    have hstop : f.stop=f.start+2+f.data.length := rfl
    have hlength := hheld.length
    rw [optionFind1,if_neg (by omega),hheld.tag,if_neg (htags f List.mem_cons_self),if_neg htag,
      if_neg (by omega),if_neg (by omega),next_field hheld,hlength]
    by_cases hfound : f.tag=opt ∧ f.data.length≥minsize
    · rw [if_pos hfound,List.find?_cons,decide_eq_true hfound]
      rfl
    · rw [if_neg hfound,List.find?_cons,decide_eq_false hfound]
      exact ih hrest (fun g hg => htags g (List.mem_cons_of_mem f hg))

end Mess

/-! ## What the areas contain -/

/-- The fields in the areas: before and behind the overload option, and in the spare
fields, with the end of each area. -/
structure Contents where
  before : List Field
  after : List Field
  mainEnd : ℕ
  fields : Spare → List Field
  stop : Spare → ℕ

/-- The options, with the overload option when there is one. -/
def Contents.main (c : Contents) : Option (ℕ×UInt8) → List Field
  | none => c.before
  | some (o,flags) => c.before++⟨o,optionOverload,[flags]⟩::c.after

/-- A field that was put by a call. -/
def Contents.Has (c : Contents) (f : Field) : Prop :=
  f∈c.before ∨ f∈c.after ∨ ∃ k, f∈c.fields k

/-- How the packet is laid out. A spare field that is free holds options, the other
ones hold a name. The overload option has the bits of all spare fields with options. -/
structure Layout (limit : ℕ) (free : Spare → Bool) (m : Mess) (c : Contents)
    (ovl : Option (ℕ×UInt8)) : Prop where
  size : limit ≤ m.size
  main : Area m.byte optionsAt (c.main ovl) c.mainEnd limit
  spare : ∀ k, free k=true → Area m.byte k.start (c.fields k) (c.stop k) k.limit
  named : ∀ k, free k=false → m.byte k.start≠0 ∧ c.fields k=[]
  unused : ovl=none → c.after=[] ∧ ∀ k, c.fields k=[]
  flags : ∀ o flags, ovl=some (o,flags) → ∀ k,
    (flags &&& k.bit≠0 → free k=true) ∧ (c.fields k≠[] → flags &&& k.bit≠0)
  tags : ∀ f, c.Has f → f.tag≠optionEnd ∧ f.tag≠optionOverload

/-- The addresses that calls may write to. -/
def Inside (limit p : ℕ) : Prop :=
  optionsAt≤p ∧ p < limit ∨ ∃ k : Spare, k.start≤p ∧ p < k.limit

/-- An address outside of all fields that calls have put. -/
def Clear (c : Contents) (p : ℕ) : Prop := ∀ f, c.Has f → p < f.start ∨ f.stop≤p

theorem Spare.limit_le (k : Spare) : k.limit≤236 := by
  cases k with
  | file => decide
  | sname => decide

theorem Spare.start_lt (k : Spare) : k.start < k.limit := by
  cases k with
  | file => decide
  | sname => decide

/-- Two spare fields do not overlap. -/
theorem Spare.eq_of_start {k k' : Spare} {p : ℕ} (h : k.start≤p ∧ p < k.limit)
    (h' : k'.start≤p ∧ p < k'.limit) : k=k' := by
  cases k with
  | file =>
    cases k' with
    | file => rfl
    | sname => exact absurd h.1 (Nat.not_le.mpr h'.2)
  | sname =>
    cases k' with
    | file => exact absurd h'.1 (Nat.not_le.mpr h.2)
    | sname => rfl

namespace Layout

variable {limit : ℕ} {free : Spare → Bool} {m : Mess} {c : Contents} {ovl : Option (ℕ×UInt8)}
  {p o : ℕ} {flags : UInt8}

theorem mainEnd_lt (h : Layout limit free m c ovl) : c.mainEnd < m.size :=
  Nat.lt_of_lt_of_le h.main.lt h.size

theorem optionsAt_le (h : Layout limit free m c ovl) : optionsAt≤c.mainEnd := h.main.laid.le

theorem free_of_mem (h : Layout limit free m c ovl) {k : Spare} {f : Field}
    (hf : f∈c.fields k) : free k=true := by
  cases hfree : free k with
  | true => rfl
  | false =>
    rw [(h.named k hfree).2] at hf
    exact absurd hf List.not_mem_nil

theorem mem_main (h : Layout limit free m c ovl) {f : Field} (hf : f∈c.before ∨ f∈c.after) :
    f∈c.main ovl := by
  cases ovl with
  | none =>
    rw [(h.unused rfl).1] at hf
    exact hf.resolve_right List.not_mem_nil
  | some ovl =>
    refine List.mem_append.mpr ?_
    exact hf.imp_right (List.mem_cons_of_mem _)

/-- Each field that was put stands in the options or in a free spare field. -/
theorem place (h : Layout limit free m c ovl) {f : Field} (hf : c.Has f) :
    (optionsAt≤f.start ∧ f.stop≤c.mainEnd) ∨
      ∃ k, free k=true ∧ f∈c.fields k ∧ k.start≤f.start ∧ f.stop≤c.stop k := by
  have hmain : f∈c.before ∨ f∈c.after → optionsAt≤f.start ∧ f.stop≤c.mainEnd :=
    fun hf => h.main.laid.inside (h.mem_main hf)
  rcases hf with hf | hf | ⟨k,hf⟩
  · exact Or.inl (hmain (Or.inl hf))
  · exact Or.inl (hmain (Or.inr hf))
  · have hfree := h.free_of_mem hf
    exact Or.inr ⟨k,hfree,hf,(h.spare k hfree).laid.inside hf⟩

theorem skipOpts_main (h : Layout limit free m c ovl) :
    m.skipOpts optionsAt=some c.mainEnd :=
  Mess.skipOpts_laid h.main.laid (h.main.zeros _ le_rfl h.main.lt) h.mainEnd_lt

theorem skipOpts_spare (h : Layout limit free m c ovl) {k : Spare} (hfree : free k=true) :
    m.skipOpts k.start=some (c.stop k) := by
  have harea := h.spare k hfree
  have hlimit := k.limit_le
  have hlt := harea.lt
  have hmain := h.mainEnd_lt
  have hstart := h.optionsAt_le
  have h240 : optionsAt=240 := rfl
  exact Mess.skipOpts_laid harea.laid (harea.zeros _ le_rfl hlt) (by omega)

/-- Where the overload option stands. -/
theorem overload (h : Layout limit free m c (some (o,flags))) :
    m.byte (o+2)=flags ∧ optionsAt≤o ∧ o+3≤c.mainEnd ∧
      (∀ f∈c.before, f.stop≤o) ∧ ∀ f∈c.after, o+3≤f.start := by
  obtain ⟨mid,hbefore,hstart,-,hheld,hafter⟩ := laid_append.mp h.main.laid
  obtain rfl : o=mid := hstart
  have hstop : (⟨o,optionOverload,[flags]⟩ : Field).stop=o+3 := rfl
  rw [hstop] at hafter
  refine ⟨?_,hbefore.le,hafter.le,fun f hf => (hbefore.inside hf).2,
    fun f hf => (hafter.inside hf).1⟩
  exact (Option.some.inj (hheld.data 0 Nat.one_pos)).symm

theorem find_overload (h : Layout limit free m c ovl) :
    (c.main ovl).find? (fun f => f.tag=optionOverload)=
      ovl.map fun ovl => ⟨ovl.1,optionOverload,[ovl.2]⟩ := by
  have hnone : ∀ fields : List Field, (∀ f∈fields, c.Has f) →
      fields.find? (fun f => f.tag=optionOverload)=none := by
    intro fields hfields
    refine List.find?_eq_none.mpr (fun f hf htag => ?_)
    exact (h.tags f (hfields f hf)).2 (of_decide_eq_true htag)
  cases ovl with
  | none => exact hnone c.before (fun f hf => Or.inl hf)
  | some ovl =>
    rw [Contents.main,List.find?_append,hnone c.before (fun f hf => Or.inl hf),Option.none_or,
      List.find?_cons,decide_eq_true rfl]
    rfl

theorem findOverload_eq (h : Layout limit free m c ovl) :
    m.findOverload=some (ovl.map Prod.fst) := by
  rw [Mess.findOverload,Mess.findOverloadFrom_laid h.main.laid (h.main.zeros _ le_rfl h.main.lt)
    h.mainEnd_lt,h.find_overload,Option.map_map]
  rfl

theorem head_eq_zero (h : Layout limit free m c ovl) (k : Spare) :
    m.byte k.start=0 ↔ free k=true ∧ c.fields k=[] := by
  cases hfree : free k with
  | true => exact (h.spare k hfree).head_eq_zero.trans ⟨fun h => ⟨rfl,h⟩,fun h => h.2⟩
  | false => exact ⟨fun hzero => absurd hzero (h.named k hfree).1,fun hand => absurd hand.1 (by decide)⟩

/-! ## Addresses that are clear -/

theorem clear_main (h : Layout limit free m c ovl) (hp : c.mainEnd≤p) : Clear c p := by
  have hstart := h.optionsAt_le
  have h240 : optionsAt=240 := rfl
  intro f hf
  rcases h.place hf with hmain | ⟨k,hfree,-,-,hstop⟩
  · exact Or.inr (by omega)
  · have hlt := (h.spare k hfree).lt
    have hlimit := k.limit_le
    exact Or.inr (by omega)

theorem clear_flags (h : Layout limit free m c (some (o,flags))) : Clear c (o+2) := by
  obtain ⟨-,hstart,-,hbefore,hafter⟩ := h.overload
  have h240 : optionsAt=240 := rfl
  intro f hf
  rcases hf with hf | hf | ⟨k,hf⟩
  · have hstop := hbefore f hf
    exact Or.inr (by omega)
  · have hafter := hafter f hf
    exact Or.inl (by omega)
  · have hfree := h.free_of_mem hf
    have hlt := (h.spare k hfree).lt
    have hlimit := k.limit_le
    have hstop := ((h.spare k hfree).laid.inside hf).2
    exact Or.inr (by omega)

theorem clear_spare (h : Layout limit free m c ovl) {k : Spare} (hp : c.stop k≤p)
    (hlimit : p < k.limit) (hfree : free k=true) : Clear c p := by
  have hk := k.limit_le
  have h240 : optionsAt=240 := rfl
  have hle := (h.spare k hfree).laid.le
  intro f hf
  rcases h.place hf with hmain | ⟨k',hfree',hf',hstart',hstop'⟩
  · exact Or.inl (by omega)
  · rcases Nat.lt_or_ge p f.start with hlt | hge
    · exact Or.inl hlt
    · rcases Nat.lt_or_ge p f.stop with hlt | hge'
      · have hlt' := (h.spare k' hfree').lt
        obtain rfl := Spare.eq_of_start ⟨hle.trans hp,hlimit⟩ ⟨hstart'.trans hge,by omega⟩
        exact Or.inr (by omega)
      · exact Or.inr hge'

end Layout

/-! ## Steps of a call -/

/-- From `m` to `m'` bytes are written at addresses that calls may write to and that are
clear. -/
structure Writes (limit : ℕ) (c : Contents) (m m' : Mess) : Prop where
  size : m'.size=m.size
  frame : ∀ i, ¬Inside limit i → m'.byte i=m.byte i
  log : ∃ news, m'.log=news++m.log ∧
    ∀ event∈news, ∃ p, event=.wrote p ∧ Inside limit p ∧ Clear c p

namespace Writes

variable {limit : ℕ} {c : Contents} {m m' m'' : Mess} {p : ℕ} {v : UInt8}

theorem refl : Writes limit c m m :=
  ⟨rfl,fun _ _ => rfl,[],rfl,fun _ h => absurd h List.not_mem_nil⟩

theorem trans (h : Writes limit c m m') (h' : Writes limit c m' m'') : Writes limit c m m'' := by
  obtain ⟨hsize,hframe,news,hlog,hnews⟩ := h
  obtain ⟨hsize',hframe',news',hlog',hnews'⟩ := h'
  refine ⟨hsize'.trans hsize,fun i hi => (hframe' i hi).trans (hframe i hi),news'++news,
    by rw [hlog',hlog,List.append_assoc],fun event hevent => ?_⟩
  rcases List.mem_append.mp hevent with hevent | hevent
  · exact hnews' event hevent
  · exact hnews event hevent

theorem store (hin : Inside limit p) (hclear : Clear c p) : Writes limit c m (m.store p v) := by
  refine ⟨rfl,fun i hi => Mess.store_of_ne (fun heq => hi ?_),[.wrote p],rfl,
    fun event hevent => ⟨p,?_,hin,hclear⟩⟩
  · rw [heq]
    exact hin
  · exact List.mem_singleton.mp hevent

theorem copy {data : List UInt8}
    (hin : ∀ i, p ≤ i → i < p+data.length → Inside limit i ∧ Clear c i) :
    Writes limit c m (m.copy p data) := by
  induction data generalizing m p with
  | nil => exact refl
  | cons v data ih =>
    have hlength : (v::data).length=data.length+1 := rfl
    have hfirst := hin p le_rfl (by omega)
    exact (store hfirst.1 hfirst.2).trans (ih (fun i hi hlt => hin i (by omega) (by omega)))

/-- The contents matter only for the fields that were put. -/
theorem of_has {c' : Contents} (h : Writes limit c m m') (hhas : ∀ f, c'.Has f → c.Has f) :
    Writes limit c' m m' := by
  obtain ⟨hsize,hframe,news,hlog,hnews⟩ := h
  refine ⟨hsize,hframe,news,hlog,fun event hevent => ?_⟩
  obtain ⟨p,heq,hin,hclear⟩ := hnews event hevent
  exact ⟨p,heq,hin,fun f hf => hclear f (hhas f hf)⟩

end Writes

/-- The option that `free_space` and its caller write at `p`. -/
def Mess.writeOption (m : Mess) (p : ℕ) (opt : UInt8) (data : List UInt8) : Mess :=
  ((m.store p opt).store (p+1) (UInt8.ofNat data.length)).copy (p+2) data

section

variable {m : Mess} {p i : ℕ} {opt : UInt8} {data : List UInt8}

theorem writeOption_held (hlen : data.length≤255) :
    (⟨p,opt,data⟩ : Field).HeldBy (m.writeOption p opt data).byte := by
  refine Field.heldBy_mk ?_ ?_ (fun i hi => Mess.copy_inside hi)
  · rw [Mess.writeOption,Mess.copy_of_outside (Or.inl (by omega)),Mess.store_of_ne (by omega),
      Mess.store_self]
  · rw [Mess.writeOption,Mess.copy_of_outside (Or.inl (by omega)),Mess.store_self,
      UInt8.toNat_ofNat',Nat.mod_eq_of_lt (by omega)]

theorem writeOption_of_outside (h : i < p ∨ p+2+data.length ≤ i) :
    (m.writeOption p opt data).byte i=m.byte i := by
  rw [Mess.writeOption,Mess.copy_of_outside (by omega),Mess.store_of_ne (by omega),
    Mess.store_of_ne (by omega)]

theorem writes_writeOption {limit : ℕ} {c : Contents}
    (hin : ∀ i, p ≤ i → i < p+2+data.length → Inside limit i ∧ Clear c i) :
    Writes limit c m (m.writeOption p opt data) := by
  have hfirst := hin p le_rfl (by omega)
  have hsecond := hin (p+1) (by omega) (by omega)
  have hhead : Writes limit c m ((m.store p opt).store (p+1) (UInt8.ofNat data.length)) :=
    (Writes.store hfirst.1 hfirst.2).trans (Writes.store hsecond.1 hsecond.2)
  exact hhead.trans (Writes.copy (fun i hi hlt => hin i (by omega) hlt))

end

namespace Layout

variable {limit : ℕ} {free : Spare → Bool} {m m' : Mess} {c : Contents} {ovl : Option (ℕ×UInt8)}
  {o : ℕ} {flags : UInt8}

/-- A change in the options leaves the spare fields alone. -/
theorem spare_of_same (h : Layout limit free m c ovl)
    (hsame : ∀ i < optionsAt, m'.byte i=m.byte i) :
    (∀ k, free k=true → Area m'.byte k.start (c.fields k) (c.stop k) k.limit) ∧
    ∀ k, free k=false → m'.byte k.start≠0 ∧ c.fields k=[] := by
  have h240 : optionsAt=240 := rfl
  constructor
  · intro k hfree
    have hlimit := k.limit_le
    exact (h.spare k hfree).congr (fun i _ hi => hsame i (by omega))
  · intro k hfree
    have hlimit := k.limit_le
    have hstart := k.start_lt
    rw [hsame k.start (by omega)]
    exact h.named k hfree

/-- The overload option is created at the end of the options. -/
theorem create (h : Layout limit free m c none) (hroom : c.mainEnd+3 < limit) :
    Layout limit free ((m.store c.mainEnd optionOverload).store (c.mainEnd+1) 1)
      { c with mainEnd := c.mainEnd+3 } (some (c.mainEnd,0)) := by
  have hat := h.optionsAt_le
  have hsame : ∀ i, i < c.mainEnd ∨ c.mainEnd+2 ≤ i →
      ((m.store c.mainEnd optionOverload).store (c.mainEnd+1) 1).byte i=m.byte i := by
    intro i hi
    rw [Mess.store_of_ne (by omega),Mess.store_of_ne (by omega)]
  obtain ⟨hspare,hnamed⟩ := h.spare_of_same
    (fun i hi => hsame i (Or.inl (by omega)))
  refine ⟨h.size,?_,hspare,hnamed,fun hnone => absurd hnone (Option.some_ne_none _),?_,h.tags⟩
  · have hmain : (Contents.main { c with mainEnd := c.mainEnd+3 } (some (c.mainEnd,0)))=
        c.before++[⟨c.mainEnd,optionOverload,[0]⟩] := by
      rw [Contents.main,(h.unused rfl).1]
    rw [hmain]
    refine h.main.add rfl (show optionOverload≠0 by decide)
      (Field.heldBy_mk ?_ ?_ (fun i hi => ?_)) hroom (fun i _ _ hi => ?_)
    · rw [Mess.store_of_ne (by omega),Mess.store_self]
    · rw [Mess.store_self]
      rfl
    · obtain rfl : i=0 := Nat.lt_one_iff.mp hi
      rw [hsame _ (Or.inr (by omega)),h.main.zeros _ (by omega) (by omega)]
      rfl
    · refine hsame i (hi.imp_right (fun hi => ?_))
      exact Nat.le_of_succ_le hi
  · intro o flags heq k
    obtain ⟨-,rfl⟩ := Prod.mk.inj (Option.some.inj heq)
    refine ⟨fun hbit => absurd (UInt8.zero_and) hbit,fun hne => absurd ((h.unused rfl).2 k) hne⟩

/-- The value of the overload option changes. -/
theorem setFlags (h : Layout limit free m c (some (o,flags))) {v : UInt8}
    (hv : ∀ k, (v &&& k.bit≠0 → free k=true) ∧ (c.fields k≠[] → v &&& k.bit≠0)) :
    Layout limit free (m.store (o+2) v) c (some (o,v)) := by
  obtain ⟨-,hat,hend,-,-⟩ := h.overload
  have hsame : ∀ i, i≠o+2 → (m.store (o+2) v).byte i=m.byte i := fun i hi => Mess.store_of_ne hi
  obtain ⟨hspare,hnamed⟩ := h.spare_of_same (fun i hi => hsame i (by omega))
  refine ⟨h.size,⟨?_,h.main.lt,fun i hi hlt => ?_⟩,hspare,hnamed,fun hnone => absurd hnone (Option.some_ne_none _),?_,
    h.tags⟩
  · obtain ⟨mid,hbefore,hstart,htag,hheld,hafter⟩ := laid_append.mp h.main.laid
    obtain rfl : o=mid := hstart
    refine laid_append.mpr ⟨o,hbefore.congr (fun i _ hi => hsame i (by omega)),rfl,htag,
      Field.heldBy_mk ?_ ?_ (fun i hi => ?_),hafter.congr (fun i hi _ => hsame i ?_)⟩
    · rw [hsame o (by omega)]
      exact hheld.tag
    · rw [hsame (o+1) (by omega)]
      exact hheld.length
    · obtain rfl : i=0 := Nat.lt_one_iff.mp hi
      exact congrArg some Mess.store_self.symm
    · have hstop : (⟨o,optionOverload,[flags]⟩ : Field).stop=o+3 := rfl
      omega
  · rw [hsame i (by omega)]
    exact h.main.zeros i hi hlt
  · intro o' flags' heq
    obtain ⟨-,rfl⟩ := Prod.mk.inj (Option.some.inj heq)
    exact hv

end Layout

/-! ## Finding space -/

/-- The bits of the overload option when one is set. -/
theorem or_bit_and_bit (flags : UInt8) (k k' : Spare) :
    (flags ||| k.bit) &&& k'.bit≠0 ↔ k=k' ∨ flags &&& k'.bit≠0 := by
  have hdistrib : (flags ||| k.bit) &&& k'.bit=flags &&& k'.bit ||| k.bit &&& k'.bit := by
    refine UInt8.toBitVec_inj.mp (BitVec.eq_of_getLsbD_eq (fun i _ => ?_))
    simp only [UInt8.toBitVec_and,UInt8.toBitVec_or,BitVec.getLsbD_and,BitVec.getLsbD_or,
      Bool.and_or_distrib_right]
  have hboth : (flags ||| k'.bit) &&& k'.bit=k'.bit := by
    refine UInt8.toBitVec_inj.mp (BitVec.eq_of_getLsbD_eq (fun i _ => ?_))
    rw [UInt8.toBitVec_and,UInt8.toBitVec_or,BitVec.getLsbD_and,BitVec.getLsbD_or]
    cases k'.bit.toBitVec.getLsbD i with
    | false => exact Bool.and_false _
    | true => rw [Bool.or_true,Bool.and_true]
  by_cases hk : k=k'
  · subst hk
    refine ⟨fun _ => Or.inl rfl,fun _ => ?_⟩
    rw [hboth]
    cases k with
    | file => decide
    | sname => decide
  · have hzero : k.bit &&& k'.bit=0 := by
      cases k with
      | file =>
        cases k' with
        | file => exact absurd rfl hk
        | sname => decide
      | sname =>
        cases k' with
        | file => decide
        | sname => exact absurd rfl hk
    rw [hdistrib,hzero,UInt8.or_zero]
    exact ⟨Or.inr,fun h => h.resolve_left hk⟩

/-- The space that `free_space` finds in a spare field, for which it uses the size of
`file`. -/
def Contents.room (c : Contents) (free : Spare → Bool) (len : ℕ) (k : Spare) : Option ℕ :=
  if free k=true ∧ c.stop k+len+3 < k.start+128 then some (c.stop k) else none

namespace Layout

variable {limit : ℕ} {free : Spare → Bool} {m m' : Mess} {c : Contents} {ovl : Option (ℕ×UInt8)}
  {o : ℕ} {flags : UInt8}

theorem inside_flags (h : Layout limit free m c (some (o,flags))) : Inside limit (o+2) := by
  obtain ⟨-,hat,hend,-,-⟩ := h.overload
  have hlt := h.main.lt
  exact Or.inl ⟨by omega,by omega⟩

/-- The bit of a spare field is set, if it is free. -/
theorem setBit (h : Layout limit free m c (some (o,flags))) (k : Spare) :
    ∃ m' flags',
      (if m.byte k.start=0 then m.store (o+2) (m.byte (o+2) ||| k.bit) else m)=m' ∧
      Layout limit free m' c (some (o,flags')) ∧ Writes limit c m m' ∧
      (flags' &&& k.bit≠0 ↔ free k=true) := by
  by_cases hzero : m.byte k.start=0
  · obtain ⟨hfree,-⟩ := (h.head_eq_zero k).mp hzero
    refine ⟨_,flags ||| k.bit,if_pos hzero,?_,Writes.store h.inside_flags h.clear_flags,?_⟩
    · rw [h.overload.1]
      refine h.setFlags (fun k' => ?_)
      obtain ⟨hset,hused⟩ := h.flags o flags rfl k'
      refine ⟨fun hbit => ?_,fun hne => (or_bit_and_bit flags k k').mpr (Or.inr (hused hne))⟩
      rcases (or_bit_and_bit flags k k').mp hbit with rfl | hbit
      · exact hfree
      · exact hset hbit
    · exact ⟨fun _ => hfree,fun _ => (or_bit_and_bit flags k k).mpr (Or.inl rfl)⟩
  · refine ⟨m,flags,if_neg hzero,h,Writes.refl,(h.flags o flags rfl k).1,fun hfree => ?_⟩
    refine (h.flags o flags rfl k).2 (fun hnil => hzero ?_)
    exact (h.head_eq_zero k).mpr ⟨hfree,hnil⟩

theorem spillInto_spec (h : Layout limit free m c (some (o,flags))) (len : ℕ) (k : Spare) :
    ∃ m' flags', m.spillInto o len k=some (m',c.room free len k) ∧
      Layout limit free m' c (some (o,flags')) ∧ Writes limit c m m' ∧
      (free k=true → flags' &&& k.bit≠0) := by
  obtain ⟨m',flags',heq,hlayout,hwrites,hbit⟩ := h.setBit k
  refine ⟨m',flags',?_,hlayout,hwrites,hbit.mpr⟩
  rw [Mess.spillInto]
  simp only [heq]
  rw [hlayout.overload.1]
  by_cases hfree : free k=true
  · rw [if_pos (hbit.mpr hfree),hlayout.skipOpts_spare hfree,Option.map_some,Contents.room]
    by_cases hroom : c.stop k+len+3 < k.start+128
    · rw [if_neg (Nat.not_le.mpr hroom),if_pos ⟨hfree,hroom⟩]
    · rw [if_pos (Nat.le_of_not_lt hroom),if_neg (fun h => hroom h.2)]
  · rw [if_neg (fun hset => hfree (hbit.mp hset)),Contents.room,if_neg (fun h => hfree h.1)]

/-- The overload option is there, or is created if a spare field is free. -/
theorem makeOverload (h : Layout limit free m c ovl)
    (hroom : ovl=none → (∃ k, free k=true) → c.mainEnd+3 < limit) :
    ∃ m' c' ovl', (if ovl.map Prod.fst=none ∧
        (m.byte Spare.file.start=0 ∨ m.byte Spare.sname.start=0) then
        ((m.store c.mainEnd optionOverload).store (c.mainEnd+1) 1,some c.mainEnd)
        else (m,ovl.map Prod.fst))=(m',ovl'.map Prod.fst) ∧
      Layout limit free m' c' ovl' ∧ Writes limit c m m' ∧
      (c'.before=c.before ∧ c'.after=c.after ∧ c'.fields=c.fields ∧ c'.stop=c.stop) ∧
      (ovl'=none → ovl=none ∧ c'.mainEnd=c.mainEnd ∧ ∀ k, free k=false) := by
  have hat := h.optionsAt_le
  cases ovl with
  | some ovl =>
    refine ⟨m,c,some ovl,if_neg (fun hand => absurd hand.1 (Option.some_ne_none _)),h,Writes.refl,
      ⟨rfl,rfl,rfl,rfl⟩,fun hnone => absurd hnone (Option.some_ne_none _)⟩
  | none =>
    have hempty := (h.unused rfl).2
    by_cases hzero : m.byte Spare.file.start=0 ∨ m.byte Spare.sname.start=0
    · have hfree : ∃ k, free k=true := by
        rcases hzero with hzero | hzero
        · exact ⟨.file,((h.head_eq_zero .file).mp hzero).1⟩
        · exact ⟨.sname,((h.head_eq_zero .sname).mp hzero).1⟩
      have hlt := hroom rfl hfree
      refine ⟨_,_,some (c.mainEnd,0),if_pos ⟨rfl,hzero⟩,h.create hlt,?_,⟨rfl,rfl,rfl,rfl⟩,
        fun hnone => absurd hnone (Option.some_ne_none _)⟩
      exact (Writes.store (Or.inl ⟨hat,by omega⟩) (h.clear_main le_rfl)).trans
        (Writes.store (Or.inl ⟨by omega,by omega⟩) (h.clear_main (by omega)))
    · refine ⟨m,c,none,if_neg (fun hand => hzero hand.2),h,Writes.refl,⟨rfl,rfl,rfl,rfl⟩,
        fun _ => ⟨rfl,rfl,fun k => ?_⟩⟩
      cases hfree : free k with
      | false => rfl
      | true =>
        have hhead := (h.head_eq_zero k).mpr ⟨hfree,hempty k⟩
        cases k with
        | file => exact absurd (Or.inl hhead) hzero
        | sname => exact absurd (Or.inr hhead) hzero

end Layout

/-- The same fields were put. -/
structure Contents.Same (c c' : Contents) : Prop where
  before : c'.before=c.before
  after : c'.after=c.after
  fields : c'.fields=c.fields
  stop : c'.stop=c.stop

theorem Contents.Same.has {c c' : Contents} (h : c.Same c') (f : Field) : c'.Has f ↔ c.Has f := by
  rw [Contents.Has,Contents.Has,h.before,h.after,h.fields]

theorem Contents.Same.room {c c' : Contents} (h : c.Same c') (free : Spare → Bool) (len : ℕ)
    (k : Spare) : c'.room free len k=c.room free len k := by
  rw [Contents.room,Contents.room,h.stop]

/-- The spare field that `free_space` chooses, when there is no space in the options. -/
def Contents.target (c : Contents) (free : Spare → Bool) (len : ℕ) : Option Spare :=
  if (c.room free len .file).isSome then some .file
  else if (c.room free len .sname).isSome then some .sname else none

theorem Contents.room_of_isSome {c : Contents} {free : Spare → Bool} {len : ℕ} {k : Spare}
    (h : (c.room free len k).isSome=true) : free k=true ∧ c.stop k+len+3 < k.start+128 := by
  by_contra hnot
  rw [Contents.room,if_neg hnot] at h
  cases h

theorem Contents.room_eq {c : Contents} {free : Spare → Bool} {len : ℕ} {k : Spare}
    (h : (c.room free len k).isSome=true) : c.room free len k=some (c.stop k) :=
  if_pos (Contents.room_of_isSome h)

/-- The spare field that is chosen has room. -/
theorem Contents.room_of_target {c : Contents} {free : Spare → Bool} {len : ℕ} {k : Spare}
    (h : c.target free len=some k) : (c.room free len k).isSome=true ∧
      (k=.sname → (c.room free len .file).isSome=false) := by
  rw [Contents.target] at h
  by_cases hfile : (c.room free len .file).isSome=true
  · rw [if_pos hfile] at h
    obtain rfl := Option.some.inj h
    exact ⟨hfile,fun hk => by cases hk⟩
  · rw [if_neg hfile] at h
    by_cases hsname : (c.room free len .sname).isSome=true
    · rw [if_pos hsname] at h
      obtain rfl := Option.some.inj h
      exact ⟨hsname,fun _ => Bool.eq_false_iff.mpr hfile⟩
    · rw [if_neg hsname] at h
      cases h

namespace Layout

variable {limit : ℕ} {free : Spare → Bool} {m m' : Mess} {c : Contents} {ovl : Option (ℕ×UInt8)}

theorem spill_spec (h : Layout limit free m c ovl)
    (hroom : ovl=none → (∃ k, free k=true) → c.mainEnd+3 < limit) (len : ℕ) :
    ∃ m' c' ovl', m.spill c.mainEnd len=some (m',(c.target free len).map c.stop) ∧
      Layout limit free m' c' ovl' ∧ Writes limit c m m' ∧ c.Same c' ∧
      (ovl'=none → ovl=none ∧ c'.mainEnd=c.mainEnd) ∧
      ∀ k, c.target free len=some k → ∃ o flags, ovl'=some (o,flags) ∧ flags &&& k.bit≠0 := by
  obtain ⟨m1,c1,ovl1,hmake,hlayout1,hwrites1,⟨hbefore,hafter,hfields,hstop⟩,hnone⟩ :=
    h.makeOverload hroom
  have hsame : c.Same c1 := ⟨hbefore,hafter,hfields,hstop⟩
  rw [Mess.spill,h.findOverload_eq,Option.bind_some]
  simp only [hmake]
  cases ovl1 with
  | none =>
    obtain ⟨hover,hend,hfree⟩ := hnone rfl
    have hrooms : ∀ k, c.room free len k=none := by
      intro k
      refine if_neg (fun hand => ?_)
      rw [hfree k] at hand
      exact absurd hand.1 (by decide)
    have htarget : c.target free len=none := by
      rw [Contents.target,hrooms .file,hrooms .sname]
      rfl
    refine ⟨m1,c1,none,?_,hlayout1,hwrites1,hsame,fun _ => ⟨hover,hend⟩,fun k hk => ?_⟩
    · rw [htarget]
      rfl
    · rw [htarget] at hk
      cases hk
  | some ovl1 =>
    obtain ⟨m2,flags2,hfile,hlayout2,hwrites2,hbit2⟩ := hlayout1.spillInto_spec len .file
    have hwrites2 : Writes limit c m1 m2 := hwrites2.of_has (fun f hf => (hsame.has f).mpr hf)
    change ∃ m' c' ovl', ((m1.spillInto ovl1.1 len .file).bind _)=_ ∧ _
    rw [hfile,Option.bind_some,hsame.room]
    by_cases hhas : (c.room free len .file).isSome=true
    · have htarget : c.target free len=some .file := if_pos hhas
      refine ⟨m2,c1,some (ovl1.1,flags2),?_,hlayout2,hwrites1.trans hwrites2,hsame,
        fun hn => absurd hn (Option.some_ne_none _),fun k hk => ?_⟩
      · rw [Contents.room_eq hhas,htarget]
        rfl
      · rw [htarget] at hk
        obtain rfl := Option.some.inj hk
        exact ⟨_,_,rfl,hbit2 (Contents.room_of_isSome hhas).1⟩
    · have hempty : c.room free len .file=none := Option.not_isSome_iff_eq_none.mp hhas
      obtain ⟨m3,flags3,hsname,hlayout3,hwrites3,hbit3⟩ := hlayout2.spillInto_spec len .sname
      have hwrites3 : Writes limit c m2 m3 := hwrites3.of_has (fun f hf => (hsame.has f).mpr hf)
      have htarget : c.target free len=
          if (c.room free len .sname).isSome=true then some .sname else none := if_neg hhas
      refine ⟨m3,c1,some (ovl1.1,flags3),?_,hlayout3,(hwrites1.trans hwrites2).trans hwrites3,
        hsame,fun hn => absurd hn (Option.some_ne_none _),fun k hk => ?_⟩
      · rw [hempty]
        change m2.spillInto ovl1.1 len .sname=_
        rw [hsname,hsame.room,htarget]
        by_cases hroomS : (c.room free len .sname).isSome=true
        · rw [if_pos hroomS,Contents.room_eq hroomS]
          rfl
        · rw [if_neg hroomS,Option.not_isSome_iff_eq_none.mp hroomS]
          rfl
      · obtain ⟨hsome,-⟩ := Contents.room_of_target hk
        cases k with
        | file => exact absurd hsome hhas
        | sname => exact ⟨_,_,rfl,hbit3 (Contents.room_of_isSome hsome).1⟩

end Layout

/-! ## Putting an option -/

/-- A field is added to the options. -/
def Contents.addMain (c : Contents) (f : Field) : Option (ℕ×UInt8) → Contents
  | none => { c with before := c.before++[f], mainEnd := f.stop }
  | some _ => { c with after := c.after++[f], mainEnd := f.stop }

/-- A field is added to a spare field. -/
def Contents.addSpare (c : Contents) (f : Field) (k : Spare) : Contents :=
  { c with
    fields := Function.update c.fields k (c.fields k++[f])
    stop := Function.update c.stop k f.stop }

theorem Contents.main_addMain (c : Contents) (f : Field) (ovl : Option (ℕ×UInt8)) :
    (c.addMain f ovl).main ovl=c.main ovl++[f] := by
  cases ovl with
  | none => rfl
  | some ovl => rw [addMain,main,main,List.append_assoc,List.cons_append]

theorem Contents.fields_addMain (c : Contents) (f : Field) (ovl : Option (ℕ×UInt8)) :
    (c.addMain f ovl).fields=c.fields ∧ (c.addMain f ovl).stop=c.stop ∧
      (c.addMain f ovl).mainEnd=f.stop := by
  cases ovl with
  | none => exact ⟨rfl,rfl,rfl⟩
  | some ovl => exact ⟨rfl,rfl,rfl⟩

theorem Contents.has_addMain {c : Contents} {f g : Field} {ovl : Option (ℕ×UInt8)}
    (h : (c.addMain f ovl).Has g) : c.Has g ∨ g=f := by
  cases ovl with
  | none =>
    rcases h with h | h
    · exact (List.mem_append.mp h).imp Or.inl List.mem_singleton.mp
    · exact Or.inl (Or.inr h)
  | some ovl =>
    rcases h with h | h | h
    · exact Or.inl (Or.inl h)
    · exact (List.mem_append.mp h).imp (fun h => Or.inr (Or.inl h)) List.mem_singleton.mp
    · exact Or.inl (Or.inr (Or.inr h))

theorem Contents.addSpare_self (c : Contents) (f : Field) (k : Spare) :
    (c.addSpare f k).fields k=c.fields k++[f] ∧ (c.addSpare f k).stop k=f.stop :=
  ⟨Function.update_self k _ c.fields,Function.update_self k _ c.stop⟩

theorem Contents.addSpare_of_ne (c : Contents) (f : Field) {k k' : Spare} (h : k'≠k) :
    (c.addSpare f k).fields k'=c.fields k' ∧ (c.addSpare f k).stop k'=c.stop k' :=
  ⟨Function.update_of_ne h _ c.fields,Function.update_of_ne h _ c.stop⟩

theorem Contents.has_addSpare {c : Contents} {f g : Field} {k : Spare}
    (h : (c.addSpare f k).Has g) : c.Has g ∨ g=f := by
  rcases h with h | h | ⟨k',h⟩
  · exact Or.inl (Or.inl h)
  · exact Or.inl (Or.inr (Or.inl h))
  · by_cases hk : k'=k
    · subst hk
      rw [(c.addSpare_self f k').1] at h
      exact (List.mem_append.mp h).imp (fun h => Or.inr (Or.inr ⟨k',h⟩)) List.mem_singleton.mp
    · rw [(c.addSpare_of_ne f hk).1] at h
      exact Or.inl (Or.inr (Or.inr ⟨k',h⟩))

/-- A code that calls may put. -/
def ProperCode (opt : UInt8) : Prop := opt≠0 ∧ opt≠optionEnd ∧ opt≠optionOverload

namespace Layout

variable {limit : ℕ} {free : Spare → Bool} {m : Mess} {c : Contents} {ovl : Option (ℕ×UInt8)}
  {opt : UInt8} {data : List UInt8}

theorem addMain (h : Layout limit free m c ovl) (hopt : ProperCode opt)
    (hlen : data.length≤255) (hroom : c.mainEnd+data.length+2 < limit) :
    Layout limit free (m.writeOption c.mainEnd opt data)
      (c.addMain ⟨c.mainEnd,opt,data⟩ ovl) ovl ∧
    Writes limit c m (m.writeOption c.mainEnd opt data) := by
  have hat := h.optionsAt_le
  have hwrites : Writes limit c m (m.writeOption c.mainEnd opt data) :=
    writes_writeOption
      (fun i hi hlt => ⟨Or.inl ⟨by omega,by omega⟩,h.clear_main hi⟩)
  obtain ⟨hfields,hstop,hend⟩ := c.fields_addMain ⟨c.mainEnd,opt,data⟩ ovl
  obtain ⟨hspare,hnamed⟩ := h.spare_of_same
    (fun i hi => @writeOption_of_outside m c.mainEnd i opt data (Or.inl (by omega)))
  refine ⟨⟨?_,?_,?_,?_,?_,?_,?_⟩,hwrites⟩
  · rw [hwrites.size]
    exact h.size
  · rw [Contents.main_addMain,hend]
    refine h.main.add rfl hopt.1 (writeOption_held hlen) ?_ (fun i _ _ hi => ?_)
    · change c.mainEnd+2+data.length < limit
      omega
    · exact writeOption_of_outside hi
  · rw [hfields,hstop]
    exact hspare
  · rw [hfields]
    exact hnamed
  · intro hnone
    rw [hfields]
    cases ovl with
    | none => exact h.unused rfl
    | some ovl => cases hnone
  · rw [hfields]
    exact h.flags
  · intro g hg
    rcases Contents.has_addMain hg with hg | rfl
    · exact h.tags g hg
    · exact hopt.2

theorem addSpare (h : Layout limit free m c ovl) (hopt : ProperCode opt)
    (hlen : data.length≤255) {k : Spare} (hfree : free k=true)
    (hroom : c.stop k+data.length+2 < k.limit)
    (hbit : ∃ o flags, ovl=some (o,flags) ∧ flags &&& k.bit≠0) :
    Layout limit free (m.writeOption (c.stop k) opt data)
      (c.addSpare ⟨c.stop k,opt,data⟩ k) ovl ∧
    Writes limit c m (m.writeOption (c.stop k) opt data) := by
  obtain ⟨o,flags,rfl,hset⟩ := hbit
  have harea := h.spare k hfree
  have hle := harea.laid.le
  have hk := k.limit_le
  have h240 : optionsAt=240 := rfl
  have hwrites : Writes limit c m (m.writeOption (c.stop k) opt data) :=
    writes_writeOption (fun i hi hlt =>
      ⟨Or.inr ⟨k,by omega,by omega⟩,h.clear_spare hi (by omega) hfree⟩)
  have hother : ∀ k' ≠ k, ∀ i, k'.start ≤ i → i < k'.limit →
      (m.writeOption (c.stop k) opt data).byte i=m.byte i := by
    intro k' hne i hi hlt
    refine writeOption_of_outside ?_
    by_contra hin
    exact hne (Spare.eq_of_start ⟨hi,hlt⟩ ⟨by omega,by omega⟩)
  refine ⟨⟨?_,?_,?_,?_,fun hnone => absurd hnone (Option.some_ne_none _),?_,?_⟩,hwrites⟩
  · rw [hwrites.size]
    exact h.size
  · exact h.main.congr (fun i hi _ => writeOption_of_outside (Or.inr (by omega)))
  · intro k' hfree'
    by_cases hne : k'=k
    · subst hne
      rw [(c.addSpare_self _ k').1,(c.addSpare_self _ k').2]
      refine harea.add rfl hopt.1 (writeOption_held hlen) ?_ (fun i _ _ hi => ?_)
      · change c.stop k'+2+data.length < k'.limit
        omega
      · exact writeOption_of_outside hi
    · rw [(c.addSpare_of_ne _ hne).1,(c.addSpare_of_ne _ hne).2]
      exact (h.spare k' hfree').congr (hother k' hne)
  · intro k' hfree'
    have hne : k'≠k := fun heq => by
      rw [heq,hfree] at hfree'
      cases hfree'
    rw [hother k' hne k'.start le_rfl k'.start_lt,(c.addSpare_of_ne _ hne).1]
    exact h.named k' hfree'
  · intro o' flags' heq k'
    obtain ⟨-,rfl⟩ := Prod.mk.inj (Option.some.inj heq)
    refine ⟨(h.flags o flags rfl k').1,fun hne => ?_⟩
    by_cases hk' : k'=k
    · rw [hk']
      exact hset
    · rw [(c.addSpare_of_ne _ hk').1] at hne
      exact (h.flags o flags rfl k').2 hne
  · intro g hg
    rcases Contents.has_addSpare hg with hg | rfl
    · exact h.tags g hg
    · exact hopt.2

end Layout

/-- Where a new field goes: into the options if there is space before `room`, or else into
the spare field that `free_space` chooses. -/
inductive Adds (free : Spare → Bool) (room : ℕ) (c : Contents) (f : Field) : Contents → Prop
  | main {c' : Contents} (hroom : c.mainEnd+f.data.length+3 < room) (hstart : f.start=c.mainEnd)
      (hmain : c'.before++c'.after=c.before++c.after++[f]) (hfields : c'.fields=c.fields) :
      Adds free room c f c'
  | spare {c' : Contents} {k : Spare} (hroom : ¬c.mainEnd+f.data.length+3 < room)
      (htarget : c.target free f.data.length=some k) (hstart : f.start=c.stop k)
      (hbefore : c'.before=c.before) (hafter : c'.after=c.after)
      (hfields : c'.fields=Function.update c.fields k (c.fields k++[f])) : Adds free room c f c'

/-- What putting an option does: no space is found, or a field is added. -/
inductive Puts (limit : ℕ) (free : Spare → Bool) (room : ℕ) (c : Contents) (opt : UInt8)
    (data : List UInt8) (m : Mess) : Mess → Contents → Prop
  | lost {m' : Mess} {c' : Contents} (hwrites : Writes limit c m m') (hsame : c.Same c') :
      Puts limit free room c opt data m m' c'
  | added {m' : Mess} {c' : Contents} {p : ℕ} (hwrites : Writes limit c m m')
      (hadds : Adds free room c ⟨p,opt,data⟩ c') :
      Puts limit free room c opt data m (m'.note ⟨p,opt,data⟩) c'

/-- The end of the options as long as there is no overload option. -/
def Contents.Low (c : Contents) (ovl : Option (ℕ×UInt8)) (room : ℕ) : Prop :=
  ovl=none → c.mainEnd < room

theorem Layout.note {limit : ℕ} {free : Spare → Bool} {m : Mess} {c : Contents}
    {ovl : Option (ℕ×UInt8)} (h : Layout limit free m c ovl) (f : Field) :
    Layout limit free (m.note f) c ovl :=
  ⟨h.size,h.main,h.spare,h.named,h.unused,h.flags,h.tags⟩

theorem Layout.putOption_spec {limit : ℕ} {free : Spare → Bool} {m : Mess} {c : Contents}
    {ovl : Option (ℕ×UInt8)} {room : ℕ} {opt : UInt8} {data : List UInt8}
    (h : Layout limit free m c ovl) (hlow : c.Low ovl room) (hle : room≤limit)
    (hkeep : (∃ k, free k=true) → room+3≤limit) (hopt : ProperCode opt)
    (hlen : data.length≤255)
    (hfits : ¬c.mainEnd+data.length+3 < room → ∀ k, c.target free data.length=some k →
      c.stop k+data.length+3≤k.limit) :
    ∃ m' c' ovl', m.putOption room opt data.length data=some m' ∧
      Layout limit free m' c' ovl' ∧ c'.Low ovl' room ∧
      Puts limit free room c opt data m m' c' := by
  rw [Mess.putOption,Mess.freeSpace,h.skipOpts_main,Option.bind_some]
  by_cases hroom : c.mainEnd+data.length+3 < room
  · obtain ⟨hlayout,hwrites⟩ := h.addMain hopt hlen (by omega)
    rw [if_neg (Nat.not_le.mpr hroom)]
    refine ⟨_,_,ovl,rfl,hlayout.note ⟨c.mainEnd,opt,data⟩,fun _ => ?_,
      Puts.added hwrites (Adds.main hroom rfl ?_ ?_)⟩
    · rw [(c.fields_addMain _ ovl).2.2]
      change c.mainEnd+2+data.length < room
      omega
    · cases ovl with
      | none =>
        change c.before++[_]++c.after=_
        rw [(h.unused rfl).1,List.append_nil,List.append_nil]
        rfl
      | some ovl => exact (List.append_assoc _ _ _).symm
    · exact (c.fields_addMain _ ovl).1
  · rw [if_pos (Nat.le_of_not_lt hroom)]
    obtain ⟨m1,c1,ovl1,hspill,hlayout1,hwrites1,hsame,hend,hbit⟩ :=
      h.spill_spec (fun hnone hfree => by
        have hlt := hlow hnone
        have hthree := hkeep hfree
        omega) data.length
    have hlow1 : c1.Low ovl1 room := by
      intro hnone
      obtain ⟨hover,heq⟩ := hend hnone
      rw [heq]
      exact hlow hover
    rw [hspill]
    cases htarget : c.target free data.length with
    | none => exact ⟨m1,c1,ovl1,rfl,hlayout1,hlow1,Puts.lost hwrites1 hsame⟩
    | some k =>
      obtain ⟨hsome,-⟩ := Contents.room_of_target htarget
      obtain ⟨hfree,-⟩ := Contents.room_of_isSome hsome
      have hstop : c1.stop k=c.stop k := congrFun hsame.stop k
      have hfit := hfits hroom k htarget
      obtain ⟨hlayout,hwrites⟩ := hlayout1.addSpare hopt hlen hfree (by omega) (hbit k htarget)
      have hwrites : Writes limit c m1 _ := hwrites.of_has (fun f hf => (hsame.has f).mpr hf)
      rw [hstop] at hlayout hwrites
      refine ⟨_,_,ovl1,rfl,hlayout.note ⟨c.stop k,opt,data⟩,hlow1,
        Puts.added (hwrites1.trans hwrites) (Adds.spare hroom htarget rfl hsame.before hsame.after ?_)⟩
      rw [Contents.addSpare,hsame.fields]
      rfl

end AndroidPlatform.DhcpReplyOptions
