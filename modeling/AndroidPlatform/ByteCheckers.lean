import Mathlib.Data.List.Forall2
import Mathlib.Data.Nat.Notation

/-!
# Checkers of byte strings

A checker reads the start of a byte string and returns the rest, or fails. It
accepts a byte string if it succeeds exactly on what starts with that string. The
checkers of the parts of a message give a checker of the message.
-/

namespace AndroidPlatform.ByteCheckers

variable {check : List UInt8 → Option (List UInt8)}

/-- The checker succeeds exactly on what starts with the bytes. -/
def Accepts (check : List UInt8 → Option (List UInt8)) (bytes : List UInt8) : Prop :=
  ∀ p rest, check p=some rest ↔ p=bytes++rest

/-- The checker always fails. -/
def Refuses (check : List UInt8 → Option (List UInt8)) : Prop := ∀ p, check p=none

/-- One checker after the other. -/
def checkAll : List (List UInt8 → Option (List UInt8)) → List UInt8 → Option (List UInt8)
  | [],p => some p
  | check::checks,p => (check p).bind (checkAll checks)

/-- Compare byte by byte. -/
def checkBytes : List UInt8 → List UInt8 → Option (List UInt8)
  | [],p => some p
  | v::vs,c::p => if c≠v then none else checkBytes vs p
  | _::_,[] => none

theorem accepts_some : Accepts some [] := by
  intro p rest
  rw [Option.some.injEq,List.nil_append]

theorem accepts_checkBytes (bytes : List UInt8) : Accepts (checkBytes bytes) bytes := by
  induction bytes with
  | nil => exact accepts_some
  | cons v vs ih =>
    intro p rest
    cases p with
    | nil => exact iff_of_false (Option.some_ne_none rest ∘ Eq.symm) (List.cons_ne_nil _ _ ∘ Eq.symm)
    | cons c p =>
      rw [checkBytes,List.cons_append,List.cons_eq_cons]
      by_cases hc : c=v
      · rw [if_neg (not_not.mpr hc),ih p rest]
        exact (and_iff_right hc).symm
      · rw [if_pos hc]
        exact iff_of_false (Option.some_ne_none rest ∘ Eq.symm) (fun h => hc h.1)

/-- The checkers of the parts, in their order. -/
theorem accepts_checkAll {checks : List (List UInt8 → Option (List UInt8))}
    {blocks : List (List UInt8)} (h : List.Forall₂ Accepts checks blocks) :
    Accepts (checkAll checks) blocks.flatten := by
  induction h with
  | nil => exact accepts_some
  | @cons check block checks blocks hhead _ ih =>
    intro p rest
    rw [checkAll,Option.bind_eq_some_iff,List.flatten_cons,List.append_assoc]
    constructor
    · rintro ⟨q,hq,hrest⟩
      rw [(hhead p q).mp hq,(ih q rest).mp hrest]
    · intro hp
      exact ⟨blocks.flatten++rest,(hhead p _).mpr hp,(ih _ rest).mpr rfl⟩

/-- One part that fails is enough. -/
theorem refuses_checkAll {checks : List (List UInt8 → Option (List UInt8))}
    (hmem : check∈checks) (h : Refuses check) : Refuses (checkAll checks) := by
  intro p
  induction checks generalizing p with
  | nil => exact absurd hmem List.not_mem_nil
  | cons first checks ih =>
    rw [checkAll]
    rcases List.mem_cons.mp hmem with rfl | hmem
    · rw [h p,Option.bind_none]
    · exact Option.bind_eq_none_iff.mpr (fun q _ => ih hmem q)

/-- A checker of a fixed number of bytes. -/
theorem accepts_of_iff {check : List UInt8 → Option (List UInt8)} {bytes : List UInt8}
    (hshort : ∀ p : List UInt8, p.length<bytes.length → check p=none)
    (hread : ∀ q rest : List UInt8, q.length=bytes.length →
      check (q++rest)=if q=bytes then some rest else none) : Accepts check bytes := by
  intro p rest
  by_cases hlength : p.length<bytes.length
  · rw [hshort p hlength]
    refine iff_of_false (Option.some_ne_none rest ∘ Eq.symm) (fun hp => ?_)
    rw [hp,List.length_append] at hlength
    omega
  · have htake : (p.take bytes.length).length=bytes.length :=
      List.length_take_of_le (Nat.le_of_not_lt hlength)
    have hsplit := List.take_append_drop bytes.length p
    rw [← hsplit,hread _ _ htake]
    constructor
    · intro h
      split_ifs at h with hq
      rw [hq,Option.some.inj h]
    · intro h
      obtain ⟨hq,hrest⟩ := List.append_inj h htake
      rw [if_pos hq,hrest]

/-- Two checkers. -/
theorem accepts_pair {check' : List UInt8 → Option (List UInt8)} {bytes bytes' : List UInt8}
    (h : Accepts check bytes) (h' : Accepts check' bytes') :
    Accepts (checkAll [check,check']) (bytes++bytes') := by
  have hboth := accepts_checkAll (List.Forall₂.cons h (List.Forall₂.cons h' List.Forall₂.nil))
  rwa [List.flatten_cons,List.flatten_cons,List.flatten_nil,List.append_nil] at hboth

/-- A checker that accepts a string reads all of it. -/
theorem Accepts.eq_nil_iff {bytes : List UInt8} (h : Accepts check bytes) (p : List UInt8) :
    check p=some [] ↔ p=bytes := by
  rw [h p [],List.append_nil]

end AndroidPlatform.ByteCheckers
