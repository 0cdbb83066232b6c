import Mathlib.Data.List.Basic
import Mathlib.Data.Nat.Notation
import Mathlib.Order.Nat

/-!
# Fields with a tag and a length

Fields stand one behind the other in a memory of bytes: a tag, the number of data
bytes and the data. A tag is not zero, and a zero byte ends the fields.
-/

namespace AndroidPlatform.TaggedFields

/-- A field: where it stands, its tag and its data. -/
structure Field where
  start : ℕ
  tag : UInt8
  data : List UInt8
deriving DecidableEq

/-- The first address behind a field. -/
def Field.stop (f : Field) : ℕ := f.start+2+f.data.length

/-- The memory holds the bytes of a field. -/
structure Field.HeldBy (f : Field) (mem : ℕ → UInt8) : Prop where
  tag : mem f.start=f.tag
  length : (mem (f.start+1)).toNat=f.data.length
  data : ∀ i < f.data.length, f.data[i]?=some (mem (f.start+2+i))

/-- Fields one behind the other from `start` to `stop`. -/
def Laid (mem : ℕ → UInt8) : ℕ → List Field → ℕ → Prop
  | start,[],stop => start=stop
  | start,f::fields,stop =>
    f.start=start ∧ f.tag≠0 ∧ f.HeldBy mem ∧ Laid mem f.stop fields stop

variable {mem mem' : ℕ → UInt8} {start stop mid limit : ℕ} {fields : List Field} {f : Field}

theorem Field.heldBy_mk {p : ℕ} {tag : UInt8} {data : List UInt8} (htag : mem p=tag)
    (hlength : (mem (p+1)).toNat=data.length)
    (hdata : ∀ i < data.length, data[i]?=some (mem (p+2+i))) :
    (⟨p,tag,data⟩ : Field).HeldBy mem := ⟨htag,hlength,hdata⟩

theorem Field.HeldBy.congr (h : f.HeldBy mem)
    (hsame : ∀ i, f.start ≤ i → i < f.stop → mem' i=mem i) : f.HeldBy mem' := by
  have hstop : f.stop=f.start+2+f.data.length := rfl
  refine ⟨?_,?_,fun i hi => ?_⟩
  · rw [hsame f.start le_rfl (by omega)]
    exact h.tag
  · rw [hsame (f.start+1) (by omega) (by omega)]
    exact h.length
  · rw [hsame (f.start+2+i) (by omega) (by omega)]
    exact h.data i hi

theorem laid_append {first second : List Field} :
    Laid mem start (first++second) stop ↔
      ∃ mid, Laid mem start first mid ∧ Laid mem mid second stop := by
  induction first generalizing start with
  | nil => exact ⟨fun h => ⟨start,rfl,h⟩,fun ⟨_,hmid,h⟩ => by rw [show start=_ from hmid]; exact h⟩
  | cons f first ih =>
    constructor
    · rintro ⟨hstart,htag,hheld,hrest⟩
      obtain ⟨mid,hfirst,hsecond⟩ := ih.mp hrest
      exact ⟨mid,⟨hstart,htag,hheld,hfirst⟩,hsecond⟩
    · rintro ⟨mid,⟨hstart,htag,hheld,hfirst⟩,hsecond⟩
      exact ⟨hstart,htag,hheld,ih.mpr ⟨mid,hfirst,hsecond⟩⟩

namespace Laid

theorem le (h : Laid mem start fields stop) : start ≤ stop := by
  induction fields generalizing start with
  | nil => exact le_of_eq h
  | cons f fields ih =>
    obtain ⟨hstart,-,-,hrest⟩ := h
    have hle := ih hrest
    have hstop : f.stop=f.start+2+f.data.length := rfl
    omega

/-- Each field stands between the ends. -/
theorem inside (h : Laid mem start fields stop) (hf : f∈fields) :
    start≤f.start ∧ f.stop ≤ stop := by
  induction fields generalizing start with
  | nil => exact absurd hf List.not_mem_nil
  | cons g fields ih =>
    obtain ⟨hstart,-,-,hrest⟩ := h
    have hle := hrest.le
    have hstop : g.stop=g.start+2+g.data.length := rfl
    rcases List.mem_cons.mp hf with rfl | hf
    · exact ⟨le_of_eq hstart.symm,hle⟩
    · have hin := ih hrest hf
      exact ⟨by omega,hin.2⟩

theorem held (h : Laid mem start fields stop) (hf : f∈fields) : f.HeldBy mem := by
  induction fields generalizing start with
  | nil => exact absurd hf List.not_mem_nil
  | cons g fields ih =>
    obtain ⟨-,-,hheld,hrest⟩ := h
    rcases List.mem_cons.mp hf with rfl | hf
    · exact hheld
    · exact ih hrest hf

/-- The bytes between the ends are all that matters. -/
theorem congr (h : Laid mem start fields stop)
    (hsame : ∀ i, start ≤ i → i < stop → mem' i=mem i) : Laid mem' start fields stop := by
  induction fields generalizing start with
  | nil => exact h
  | cons f fields ih =>
    obtain ⟨hstart,htag,hheld,hrest⟩ := h
    have hle := hrest.le
    have hstop : f.stop=f.start+2+f.data.length := rfl
    exact ⟨hstart,htag,hheld.congr (fun i hi hlt => hsame i (by omega) (by omega)),
      ih hrest (fun i hi hlt => hsame i (by omega) hlt)⟩

end Laid

/-- An area that is filled with fields up to `stop`, and with zeros from there to its
limit. At least one zero is left. -/
structure Area (mem : ℕ → UInt8) (start : ℕ) (fields : List Field) (stop limit : ℕ) : Prop where
  laid : Laid mem start fields stop
  lt : stop < limit
  zeros : ∀ i, stop ≤ i → i < limit → mem i=0

namespace Area

theorem congr (h : Area mem start fields stop limit)
    (hsame : ∀ i, start ≤ i → i < limit → mem' i=mem i) : Area mem' start fields stop limit := by
  have hle := h.laid.le
  have hlt := h.lt
  refine ⟨h.laid.congr (fun i hi hstop => hsame i hi (by omega)),h.lt,fun i hi hlimit => ?_⟩
  rw [hsame i (by omega) hlimit]
  exact h.zeros i hi hlimit

/-- A field is added behind the others. -/
theorem add (h : Area mem start fields stop limit) (hstart : f.start=stop) (htag : f.tag≠0)
    (hheld : f.HeldBy mem') (hlimit : f.stop < limit)
    (hsame : ∀ i, start ≤ i → i < limit → i < f.start ∨ f.stop ≤ i → mem' i=mem i) :
    Area mem' start (fields++[f]) f.stop limit := by
  have hle := h.laid.le
  have hstop : f.stop=f.start+2+f.data.length := rfl
  refine ⟨laid_append.mpr ⟨stop,?_,hstart,htag,hheld,rfl⟩,hlimit,fun i hi hlt => ?_⟩
  · exact h.laid.congr (fun i hi hlt => hsame i hi (by omega) (Or.inl (by omega)))
  · rw [hsame i (by omega) hlt (Or.inr hi)]
    exact h.zeros i (by omega) hlt

/-- The first byte is zero exactly if there are no fields. -/
theorem head_eq_zero (h : Area mem start fields stop limit) : mem start=0 ↔ fields=[] := by
  cases fields with
  | nil =>
    refine ⟨fun _ => rfl,fun _ => ?_⟩
    have heq : start=stop := h.laid
    exact h.zeros start (le_of_eq heq.symm) (by rw [heq]; exact h.lt)
  | cons f fields =>
    obtain ⟨hstart,htag,hheld,-⟩ := h.laid
    refine ⟨fun hzero => ?_,fun hnil => absurd hnil (List.cons_ne_nil _ _)⟩
    rw [← hstart,hheld.tag] at hzero
    exact absurd hzero htag

end Area

end AndroidPlatform.TaggedFields
