import Mathlib.Algebra.Group.Nat.Defs
import Mathlib.Data.Int.Notation
import Mathlib.Data.List.Basic
import Mathlib.Data.Nat.Notation
import Mathlib.Tactic.Common

/-!
# Allocations within a region

The allocated parts of a region are a list of intervals in order. A new interval that
touches one of them, or two, is merged with it. The end of an interval is computed in 32
bits: if it wraps, the interval is only refused where the wrapped end or the start lies
in an allocated part.
-/

namespace AndroidPlatform.RegionAllocation

/-! ## The functions -/

/-- `struct region_el`. -/
structure RegionEl where
  /-- `start`. -/
  start : ℕ
  /-- `end`. -/
  stop : ℕ
deriving DecidableEq

/-- `struct region_struct`. -/
structure RegionStruct where
  /-- `min`. -/
  min : ℕ
  /-- `max`. -/
  max : ℕ
  /-- It has 32 bits. -/
  max_lt : max<2^32
  /-- `allocated`. -/
  allocated : List RegionEl

/-- The arguments of `region_allocate`. -/
structure Call where
  /-- `start`. -/
  start : ℕ
  /-- `n`. -/
  n : ℕ
  /-- A start has 32 bits. -/
  start_lt : start<2^32
  /-- The size is an `int`. -/
  n_lt : n<2^31

/-- `region_create`. -/
def regionCreate (min max : UInt32) : RegionStruct := ⟨min.toNat,max.toNat,max.toNat_lt,[]⟩

/-- The test for an overlap. -/
def overlaps (start stop : ℕ) (r : RegionEl) : Bool :=
  decide ((r.start ≤ start ∧ start<r.stop) ∨ (r.start < stop ∧ stop≤r.stop) ∨
    (start≤r.start ∧ r.stop ≤ stop))

/-- The branch of `region_allocate` for an interval that starts where another one ends. -/
def extendRegion (stop : ℕ) (r : RegionEl) : List RegionEl → List RegionEl×ℤ
  | [] => ([⟨r.start,stop⟩],0)
  | next::others =>
    if next.start < stop then (r::next::others,1)
    else if stop=next.start then (⟨r.start,next.stop⟩::others,0)
    else (⟨r.start,stop⟩::next::others,0)

/-- The loop of `region_allocate` with the insertion behind it: the new list and what is
returned. -/
def insertRegion (start stop : ℕ) : List RegionEl → List RegionEl×ℤ
  | [] => ([⟨start,stop⟩],0)
  | r::rest =>
    if overlaps start stop r=true then (r::rest,1)
    else if stop=r.start then (⟨start,r.stop⟩::rest,0)
    else if start=r.stop then extendRegion stop r rest
    else if start<r.start then (⟨start,stop⟩::r::rest,0)
    else
      let inserted := insertRegion start stop rest
      (r::inserted.1,inserted.2)

/-- `region_allocate`. -/
def regionAllocate (region : RegionStruct) (call : Call) : RegionStruct×ℤ :=
  let stop := (call.start+call.n)%2^32
  if call.start<region.min ∨ region.max < stop then (region,-1)
  else if call.n=0 then (region,1)
  else
    let inserted := insertRegion call.start stop region.allocated
    ({region with allocated := inserted.1},inserted.2)

/-! ## Intervals in order -/

/-- The intervals are not empty, and each ends before the next one starts. -/
structure Proper (list : List RegionEl) : Prop where
  /-- No interval is empty. -/
  positive : ∀ r∈list, r.start<r.stop
  /-- The intervals are in order and do not touch. -/
  apart : list.Pairwise fun a b => a.stop<b.start

/-- A position is allocated. -/
def Covered (list : List RegionEl) (x : ℕ) : Prop := ∃ r∈list, r.start≤x ∧ x<r.stop

variable {start stop x : ℕ} {r : RegionEl} {list rest : List RegionEl}

theorem proper_nil : Proper [] := ⟨fun _ h => absurd h List.not_mem_nil,List.Pairwise.nil⟩

theorem proper_cons : Proper (r::rest) ↔
    r.start<r.stop ∧ (∀ q∈rest, r.stop<q.start) ∧ Proper rest := by
  constructor
  · intro h
    obtain ⟨hall,hrest⟩ := List.pairwise_cons.mp h.apart
    exact ⟨h.positive r List.mem_cons_self,hall,fun q hq => h.positive q (List.mem_cons_of_mem r hq),
      hrest⟩
  · rintro ⟨hpos,hall,hrest⟩
    refine ⟨fun q hq => ?_,List.pairwise_cons.mpr ⟨hall,hrest.apart⟩⟩
    rcases List.mem_cons.mp hq with rfl | hq
    · exact hpos
    · exact hrest.positive q hq

theorem covered_cons : Covered (r::rest) x ↔ (r.start≤x ∧ x<r.stop) ∨ Covered rest x := by
  simp only [Covered,List.mem_cons,exists_eq_or_imp]

theorem overlaps_iff (hr : r.start<r.stop) (hne : start < stop) :
    overlaps start stop r=true ↔ start<r.stop ∧ r.start < stop := by
  rw [overlaps,decide_eq_true_iff]
  omega

/-- Every interval after an insertion starts where an interval did, or at the new
start. -/
theorem start_of_mem_insertRegion {q : RegionEl} (hq : q∈(insertRegion start stop list).1) :
    q.start=start ∨ ∃ p∈list, q.start=p.start := by
  induction list with
  | nil =>
    rw [insertRegion,List.mem_singleton] at hq
    exact Or.inl (by rw [hq])
  | cons r rest ih =>
    have hold : ∀ {others : List RegionEl}, others.Sublist rest → q∈r::others →
        q.start=start ∨ ∃ p∈r::rest, q.start=p.start :=
      fun hsub hmem => Or.inr ⟨q,(hsub.cons_cons r).subset hmem,rfl⟩
    have hnew : ∀ {stop' : ℕ} {others : List RegionEl}, others.Sublist rest →
        q∈⟨r.start,stop'⟩::others → q.start=start ∨ ∃ p∈r::rest, q.start=p.start := by
      intro stop' others hsub hmem
      rcases List.mem_cons.mp hmem with rfl | hmem
      · exact Or.inr ⟨r,List.mem_cons_self,rfl⟩
      · exact Or.inr ⟨q,List.mem_cons_of_mem r (hsub.subset hmem),rfl⟩
    rw [insertRegion] at hq
    split_ifs at hq with hover hstop hstart hbefore
    · exact hold (List.Sublist.refl rest) hq
    · rcases List.mem_cons.mp hq with rfl | hq
      · exact Or.inl rfl
      · exact Or.inr ⟨q,List.mem_cons_of_mem r hq,rfl⟩
    · cases rest with
      | nil => exact hnew (List.Sublist.refl []) hq
      | cons next others =>
        rw [extendRegion] at hq
        split_ifs at hq
        · exact hold (List.Sublist.refl _) hq
        · exact hnew (List.sublist_cons_self next others) hq
        · exact hnew (List.Sublist.refl _) hq
    · rcases List.mem_cons.mp hq with rfl | hq
      · exact Or.inl rfl
      · exact Or.inr ⟨q,hq,rfl⟩
    · rcases List.mem_cons.mp hq with rfl | hq
      · exact Or.inr ⟨q,List.mem_cons_self,rfl⟩
      · exact (ih hq).imp_right fun ⟨p,hp,hstart⟩ => ⟨p,List.mem_cons_of_mem r hp,hstart⟩

/-- What the insertion of an interval does: it is refused where it overlaps, or the list
covers it afterwards. -/
structure Inserts (start stop : ℕ) (list : List RegionEl) (inserted : List RegionEl×ℤ) : Prop where
  /-- It is refused exactly where it overlaps. -/
  accepted : inserted.2=0 ↔ ∀ x, start≤x → x < stop → ¬Covered list x
  /-- Otherwise nothing changes. -/
  refused : inserted.2≠0 → inserted.1=list
  /-- The new list is in order. -/
  proper : inserted.2=0 → Proper inserted.1
  /-- The new list covers the interval, too. -/
  covered : inserted.2=0 → ∀ x, Covered inserted.1 x ↔ Covered list x ∨ (start≤x ∧ x < stop)

/-- A refused interval. -/
theorem inserts_refused (hge : start≤x) (hlt : x < stop) (hcovered : Covered list x) :
    Inserts start stop list (list,1) :=
  have hone : (1 : ℤ)≠0 := by decide
  ⟨⟨fun hzero => absurd hzero hone,fun hall => absurd hcovered (hall x hge hlt)⟩,
    fun _ => rfl,fun hzero => absurd hzero hone,fun hzero => absurd hzero hone⟩

/-- An accepted interval. -/
theorem inserts_accepted {list' : List RegionEl}
    (hfree : ∀ x, start≤x → x < stop → ¬Covered list x) (hproper : Proper list')
    (hcovered : ∀ x, Covered list' x ↔ Covered list x ∨ (start≤x ∧ x < stop)) :
    Inserts start stop list (list',0) :=
  ⟨⟨fun _ => hfree,fun _ => rfl⟩,fun hfail => absurd rfl hfail,fun _ => hproper,fun _ => hcovered⟩

theorem not_covered (h : ∀ q∈list, x<q.start) : ¬Covered list x :=
  fun ⟨q,hq,hin⟩ => Nat.not_lt.mpr hin.1 (h q hq)

theorem not_covered_cons (h : ¬(r.start≤x ∧ x<r.stop)) (h' : ¬Covered rest x) :
    ¬Covered (r::rest) x := fun hc => (covered_cons.mp hc).elim h h'

/-- An interval grows by another one. -/
theorem covered_grow {r' : RegionEl}
    (h : r'.start≤x ∧ x<r'.stop ↔ (r.start≤x ∧ x<r.stop) ∨ (start≤x ∧ x < stop)) :
    Covered (r'::rest) x ↔ Covered (r::rest) x ∨ (start≤x ∧ x < stop) := by
  rw [covered_cons,covered_cons,h]
  exact or_right_comm

/-- Two intervals grow together. -/
theorem covered_join {r' next : RegionEl} (h : r'.start≤x ∧ x<r'.stop ↔
    (r.start≤x ∧ x<r.stop) ∨ (next.start≤x ∧ x<next.stop) ∨ (start≤x ∧ x < stop)) :
    Covered (r'::rest) x ↔ Covered (r::next::rest) x ∨ (start≤x ∧ x < stop) := by
  rw [covered_cons,covered_cons,covered_cons,h]
  constructor
  · rintro ((hin | hin | hin) | hin)
    · exact Or.inl (Or.inl hin)
    · exact Or.inl (Or.inr (Or.inl hin))
    · exact Or.inr hin
    · exact Or.inl (Or.inr (Or.inr hin))
  · rintro ((hin | hin | hin) | hin)
    · exact Or.inl (Or.inl hin)
    · exact Or.inl (Or.inr (Or.inl hin))
    · exact Or.inr hin
    · exact Or.inl (Or.inr (Or.inr hin))

/-- An interval that starts where another one ends. -/
theorem extendRegion_inserts (h : Proper (r::rest)) (hstart : start=r.stop) (hne : start < stop) :
    Inserts start stop (r::rest) (extendRegion stop r rest) := by
  obtain ⟨hpos,hafter,hrest⟩ := proper_cons.mp h
  have hlong : (⟨r.start,stop⟩ : RegionEl).start < stop := by
    dsimp only
    omega
  cases rest with
  | nil =>
    have hnone : ∀ q∈([] : List RegionEl), stop<q.start := fun q hq => absurd hq List.not_mem_nil
    refine inserts_accepted (fun x hge hlt => not_covered_cons (by omega) ?_)
      (proper_cons.mpr ⟨hlong,hnone,proper_nil⟩) fun x => covered_grow (by dsimp only; omega)
    exact not_covered fun q hq => absurd hq List.not_mem_nil
  | cons next others =>
    have hnext := hafter next List.mem_cons_self
    obtain ⟨hnpos,hnafter,hothers⟩ := proper_cons.mp hrest
    have hlater : ∀ x<next.stop, ¬Covered others x :=
      fun x hx => not_covered fun q hq => Nat.lt_trans hx (hnafter q hq)
    rw [extendRegion]
    split_ifs with hover htouch
    · refine @inserts_refused start stop next.start _ (by omega) hover ?_
      exact covered_cons.mpr (Or.inr (covered_cons.mpr (Or.inl ⟨Nat.le_refl _,hnpos⟩)))
    · refine inserts_accepted (fun x hge hlt => ?_) (proper_cons.mpr ⟨?_,hnafter,hothers⟩)
        fun x => covered_join (by dsimp only; omega)
      · exact not_covered_cons (by omega) (not_covered_cons (by omega) (hlater x (by omega)))
      · dsimp only
        omega
    · refine inserts_accepted (fun x hge hlt => ?_) (proper_cons.mpr ⟨hlong,fun q hq => ?_,hrest⟩)
        fun x => covered_grow (by dsimp only; omega)
      · exact not_covered_cons (by omega) (not_covered_cons (by omega) (hlater x (by omega)))
      · rcases List.mem_cons.mp hq with rfl | hq
        · dsimp only
          omega
        · have hq' := hnafter q hq
          dsimp only
          omega

/-- An interval whose end did not wrap is inserted. -/
theorem insertRegion_inserts (h : Proper list) (hne : start < stop) :
    Inserts start stop list (insertRegion start stop list) := by
  induction list with
  | nil =>
    refine inserts_accepted (fun x _ _ => not_covered fun q hq => absurd hq List.not_mem_nil)
      (proper_cons.mpr ⟨hne,(fun q hq => absurd hq List.not_mem_nil),proper_nil⟩) fun x => ?_
    rw [covered_cons]
    exact or_comm
  | cons r rest ih =>
    obtain ⟨hpos,hafter,hrest⟩ := proper_cons.mp h
    have hlater : ∀ x≤r.stop, ¬Covered rest x :=
      fun x hx => not_covered fun q hq => Nat.lt_of_le_of_lt hx (hafter q hq)
    rw [insertRegion]
    by_cases hover : overlaps start stop r=true
    · have hboth := (overlaps_iff hpos hne).mp hover
      rw [if_pos hover]
      refine @inserts_refused start stop (max start r.start) _ ?_ ?_
        (covered_cons.mpr (Or.inl ?_)) <;> omega
    rw [if_neg hover]
    rw [overlaps_iff hpos hne] at hover
    split_ifs with hstop hstart hbefore
    · refine inserts_accepted (fun x hge hlt => not_covered_cons (by omega) (hlater x (by omega)))
        (proper_cons.mpr ⟨?_,hafter,hrest⟩) fun x => covered_grow (by dsimp only; omega)
      dsimp only
      omega
    · exact extendRegion_inserts h hstart hne
    · refine inserts_accepted (fun x hge hlt => not_covered_cons (by omega) (hlater x (by omega)))
        (proper_cons.mpr ⟨hne,fun q hq => ?_,h⟩) fun x => ?_
      · rcases List.mem_cons.mp hq with rfl | hq
        · dsimp only
          omega
        · have hq' := hafter q hq
          dsimp only
          omega
      · rw [covered_cons]
        exact or_comm
    · obtain ⟨haccepted,hrefused,hproper,hcovered⟩ := ih hrest
      refine ⟨haccepted.trans ?_,fun hfail => ?_,fun hzero => ?_,fun hzero x => ?_⟩
      · refine forall_congr' fun x => forall_congr' fun hge => forall_congr' fun hlt => ?_
        rw [covered_cons,or_iff_right (by omega)]
      · exact congrArg (List.cons r) (hrefused hfail)
      · refine proper_cons.mpr ⟨hpos,fun q hq => ?_,hproper hzero⟩
        rcases start_of_mem_insertRegion hq with heq | ⟨p,hp,heq⟩
        · omega
        · have hp' := hafter p hp
          omega
      · rw [covered_cons,covered_cons,hcovered hzero]
        exact or_assoc.symm

/-! ## Wrapped ends -/

/-- The loop refuses an interval whose end has wrapped: the end is in an allocated
interval, or the start is and the end is not before the start of another one. -/
def Hit (start stop : ℕ) (list : List RegionEl) : Prop :=
  (∃ r∈list, r.start < stop ∧ stop≤r.stop) ∨
    ∃ r∈list, (r.start ≤ start ∧ start<r.stop) ∧ ∀ q∈list, q.start=stop → start<q.stop

/-- An interval that the loop goes past does not count. -/
theorem hit_cons (hend : ¬(r.start < stop ∧ stop≤r.stop)) (hstart : ¬(r.start ≤ start ∧ start<r.stop))
    (hne : stop≠r.start) : Hit start stop (r::rest) ↔ Hit start stop rest := by
  simp only [Hit,List.mem_cons,exists_eq_or_imp,forall_eq_or_imp]
  refine or_congr (or_iff_right hend) ?_
  constructor
  · rintro (⟨hin,-⟩ | ⟨q,hq,hin,-,hall⟩)
    · exact absurd hin hstart
    · exact ⟨q,hq,hin,hall⟩
  · rintro ⟨q,hq,hin,hall⟩
    exact Or.inr ⟨q,hq,hin,fun heq => absurd heq.symm hne,hall⟩

/-- What the loop does with an interval whose end has wrapped. -/
theorem insertRegion_wrapped (h : Proper list) (hwrap : stop < start) :
    ((insertRegion start stop list).2≠0 ↔ Hit start stop list) ∧
      ((insertRegion start stop list).2≠0 → (insertRegion start stop list).1=list) := by
  have hone : (1 : ℤ)≠0 := by decide
  induction list with
  | nil =>
    refine ⟨⟨fun hfail => absurd rfl hfail,?_⟩,fun hfail => absurd rfl hfail⟩
    rintro (⟨r,hr,-⟩ | ⟨r,hr,-⟩) <;> exact absurd hr List.not_mem_nil
  | cons r rest ih =>
    obtain ⟨hpos,hafter,hrest⟩ := proper_cons.mp h
    rw [insertRegion]
    by_cases hover : overlaps start stop r=true
    · rw [if_pos hover]
      refine ⟨⟨fun _ => ?_,fun _ => hone⟩,fun _ => rfl⟩
      rw [overlaps,decide_eq_true_iff] at hover
      rcases hover with hin | hin | hin
      · refine Or.inr ⟨r,List.mem_cons_self,hin,fun q hq heq => ?_⟩
        rcases List.mem_cons.mp hq with rfl | hq
        · exact hin.2
        · have hq' := hafter q hq
          omega
      · exact Or.inl ⟨r,List.mem_cons_self,hin⟩
      · omega
    rw [if_neg hover]
    rw [overlaps,decide_eq_true_iff] at hover
    have haccept : ∀ list' : List RegionEl, stop≤r.stop →
        (∀ p∈r::rest, p.start ≤ start ∧ start<p.stop → stop=r.start ∧ r.stop ≤ start) →
        (((list',(0 : ℤ)).2≠0 ↔ Hit start stop (r::rest)) ∧
          ((list',(0 : ℤ)).2≠0 → list'=r::rest)) := by
      intro list' hle hnone
      refine ⟨⟨fun hfail => absurd rfl hfail,?_⟩,fun hfail => absurd rfl hfail⟩
      rintro (⟨q,hq,hin⟩ | ⟨p,hp,hin,hall⟩)
      · rcases List.mem_cons.mp hq with rfl | hq
        · omega
        · have hq' := hafter q hq
          omega
      · obtain ⟨hstop,hpast⟩ := hnone p hp hin
        have hlt := hall r List.mem_cons_self hstop.symm
        omega
    split_ifs with hstop hstart hbefore
    · exact haccept _ (by omega) fun p hp hin => ⟨hstop,by omega⟩
    · have hextend : extendRegion stop r rest=((extendRegion stop r rest).1,0) := by
        cases rest with
        | nil => rfl
        | cons next others =>
          have hnext := hafter next List.mem_cons_self
          rw [extendRegion,if_neg (by omega),if_neg (by omega)]
      rw [hextend]
      refine haccept _ (by omega) fun p hp hin => ?_
      rcases List.mem_cons.mp hp with rfl | hp
      · omega
      · have hp' := hafter p hp
        omega
    · refine haccept _ (by omega) fun p hp hin => ?_
      rcases List.mem_cons.mp hp with rfl | hp
      · omega
      · have hp' := hafter p hp
        omega
    · rw [hit_cons (by omega) (by omega) hstop]
      obtain ⟨hiff,hkept⟩ := ih hrest
      exact ⟨hiff,fun hfail => congrArg (List.cons r) (hkept hfail)⟩

/-! ## Calls -/

/-- The list is in order and covers what is taken. -/
structure Holds (region : RegionStruct) (taken : ℕ → Prop) : Prop where
  /-- The list is in order. -/
  proper : Proper region.allocated
  /-- It covers what is taken. -/
  covered : ∀ x, Covered region.allocated x ↔ taken x

/-- The interval is not empty, lies in the region, and nothing of it is taken. -/
def Fits (region : RegionStruct) (taken : ℕ → Prop) (call : Call) : Prop :=
  0<call.n ∧ region.min≤call.start ∧ call.start+call.n≤region.max ∧
    ∀ x, call.start≤x → x<call.start+call.n → ¬taken x

/-- What is taken after a call. -/
def takenAfter (region : RegionStruct) (taken : ℕ → Prop) (call : Call) (x : ℕ) : Prop :=
  taken x ∨ ((regionAllocate region call).2=0 ∧ call.start≤x ∧ x<call.start+call.n)

/-- Each call returns 0 exactly if its interval fits, which is taken then; the list holds
what is taken all the time. -/
def AllocatesRight : RegionStruct → (ℕ → Prop) → List Call → Prop
  | region,taken,[] => Holds region taken
  | region,taken,call::calls =>
    Holds region taken ∧ ((regionAllocate region call).2=0 ↔ Fits region taken call) ∧
      AllocatesRight (regionAllocate region call).1 (takenAfter region taken call) calls

/-- The end of the interval has 32 bits, or it wraps and the call is refused all the
same. -/
def EndFits (region : RegionStruct) (call : Call) : Prop :=
  call.start+call.n<2^32 ∨ call.start<region.min ∨ region.max < call.start+call.n-2^32 ∨
    Hit call.start (call.start+call.n-2^32) region.allocated

/-- The ends of all calls fit. -/
def EndsFit : RegionStruct → List Call → Prop
  | _,[] => True
  | region,call::calls => EndFits region call ∧ EndsFit (regionAllocate region call).1 calls

variable {region : RegionStruct} {taken : ℕ → Prop} {call : Call} {calls : List Call}

/-- A refused call. -/
theorem Holds.refused (h : Holds region taken) (hfail : (regionAllocate region call).2≠0)
    (hkept : (regionAllocate region call).1.allocated=region.allocated)
    (hfits : ¬Fits region taken call) :
    ((regionAllocate region call).2=0 ↔ Fits region taken call) ∧
      Holds (regionAllocate region call).1 (takenAfter region taken call) := by
  refine ⟨⟨fun hzero => absurd hzero hfail,fun hf => absurd hf hfits⟩,?_,fun x => ?_⟩
  · rw [hkept]
    exact h.proper
  · rw [hkept,h.covered]
    exact ⟨Or.inl,fun htaken => htaken.resolve_right fun hzero => hfail hzero.1⟩

/-- A call whose end has 32 bits. -/
theorem Holds.allocate (h : Holds region taken) (hend : call.start+call.n<2^32) :
    ((regionAllocate region call).2=0 ↔ Fits region taken call) ∧
      Holds (regionAllocate region call).1 (takenAfter region taken call) := by
  have hstop : (call.start+call.n)%2^32=call.start+call.n := Nat.mod_eq_of_lt hend
  by_cases hout : call.start<region.min ∨ region.max < call.start+call.n
  · have hcall : regionAllocate region call=(region,-1) := by
      rw [regionAllocate,hstop,if_pos hout]
    refine h.refused ?_ ?_ fun hf => ?_
    · rw [hcall]
      exact (by decide : (-1 : ℤ)≠0)
    · rw [hcall]
    · have hmin := hf.2.1
      have hmax := hf.2.2.1
      omega
  by_cases hnone : call.n=0
  · have hcall : regionAllocate region call=(region,1) := by
      rw [regionAllocate,hstop,if_neg hout,if_pos hnone]
    refine h.refused ?_ ?_ fun hf => ?_
    · rw [hcall]
      exact (by decide : (1 : ℤ)≠0)
    · rw [hcall]
    · have hpos := hf.1
      omega
  have hins := insertRegion_inserts h.proper (show call.start<call.start+call.n by omega)
  have hcall : regionAllocate region call=
      ({region with allocated := (insertRegion call.start (call.start+call.n) region.allocated).1},
        (insertRegion call.start (call.start+call.n) region.allocated).2) := by
    rw [regionAllocate,hstop,if_neg hout,if_neg hnone]
  have hfits : (regionAllocate region call).2=0 ↔ Fits region taken call := by
    rw [hcall,Fits]
    refine hins.accepted.trans ?_
    constructor
    · intro hfree
      exact ⟨by omega,by omega,by omega,fun x hge hlt htaken =>
        hfree x hge hlt ((h.covered x).mpr htaken)⟩
    · rintro ⟨-,-,-,hfree⟩ x hge hlt hcovered
      exact hfree x hge hlt ((h.covered x).mp hcovered)
  by_cases hzero : (regionAllocate region call).2=0
  · refine ⟨hfits,?_,fun x => ?_⟩
    · rw [hcall] at hzero ⊢
      exact hins.proper hzero
    · rw [takenAfter,←h.covered]
      rw [hcall] at hzero ⊢
      rw [hins.covered hzero]
      exact or_congr_right ⟨fun hin => ⟨hzero,hin⟩,And.right⟩
  · refine h.refused hzero ?_ fun hf => hzero (hfits.mpr hf)
    rw [hcall] at hzero ⊢
    exact hins.refused hzero

/-- A call whose end has wrapped is refused exactly if it fits nevertheless. -/
theorem Holds.wrapped (h : Holds region taken) (hend : ¬call.start+call.n<2^32) :
    ((regionAllocate region call).2≠0 ↔ EndFits region call) ∧
      ((regionAllocate region call).2≠0 →
        (regionAllocate region call).1.allocated=region.allocated) := by
  have hstart := call.start_lt
  have hn := call.n_lt
  have hstop : (call.start+call.n)%2^32=call.start+call.n-2^32 := by omega
  rw [EndFits,or_iff_right hend,←or_assoc]
  by_cases hout : call.start<region.min ∨ region.max < call.start+call.n-2^32
  · have hcall : regionAllocate region call=(region,-1) := by
      rw [regionAllocate,hstop,if_pos hout]
    rw [hcall]
    exact ⟨⟨fun _ => Or.inl hout,fun _ => (by decide : (-1 : ℤ)≠0)⟩,fun _ => rfl⟩
  · have hcall : regionAllocate region call=({region with allocated :=
          (insertRegion call.start (call.start+call.n-2^32) region.allocated).1},
        (insertRegion call.start (call.start+call.n-2^32) region.allocated).2) := by
      rw [regionAllocate,hstop,if_neg hout,if_neg (by omega)]
    rw [hcall,or_iff_right hout]
    exact insertRegion_wrapped h.proper (by omega)

theorem AllocatesRight.holds (h : AllocatesRight region taken calls) : Holds region taken := by
  cases calls with
  | nil => exact h
  | cons call calls => exact h.1

/-- From a list that holds what is taken, the calls are right exactly if their ends
fit. -/
theorem Holds.allocates_iff (h : Holds region taken) :
    AllocatesRight region taken calls ↔ EndsFit region calls := by
  induction calls generalizing region taken with
  | nil => exact ⟨fun _ => trivial,fun _ => h⟩
  | cons call calls ih =>
    have hmax := region.max_lt
    rw [AllocatesRight,EndsFit]
    by_cases hend : call.start+call.n<2^32
    · obtain ⟨hfits,hnext⟩ := h.allocate hend
      rw [ih hnext]
      exact ⟨fun hright => ⟨Or.inl hend,hright.2.2⟩,fun hfit => ⟨h,hfits,hfit.2⟩⟩
    · obtain ⟨hiff,hkept⟩ := h.wrapped hend
      have hnot : ¬Fits region taken call := fun hf => by
        have hle := hf.2.2.1
        omega
      constructor
      · rintro ⟨-,hfits,hrest⟩
        have hfail : (regionAllocate region call).2≠0 := fun hzero => hnot (hfits.mp hzero)
        exact ⟨hiff.mp hfail,(ih hrest.holds).mp hrest⟩
      · rintro ⟨hfit,hrest⟩
        have hfail := hiff.mpr hfit
        obtain ⟨hfits,hnext⟩ := h.refused hfail (hkept hfail) hnot
        exact ⟨h,hfits,(ih hnext).mpr hrest⟩

/-- Every sequence of calls on a new region is right exactly if the ends of its intervals
fit. -/
theorem allocatesRight_iff (min max : UInt32) (calls : List Call) :
    AllocatesRight (regionCreate min max) (fun _ => False) calls ↔
      EndsFit (regionCreate min max) calls := by
  have h : Holds (regionCreate min max) fun _ => False :=
    ⟨proper_nil,fun x => ⟨fun ⟨r,hr,_⟩ => absurd hr List.not_mem_nil,False.elim⟩⟩
  exact h.allocates_iff

/-- The end of an interval at the top of the addresses wraps to 0. -/
theorem not_allocatesRight_wrapped :
    ¬AllocatesRight (regionCreate 0 1024) (fun _ => False)
      [⟨4294967292,4,by decide,by decide⟩] := by
  rintro ⟨-,hfits,-⟩
  have hle := (hfits.mp (by decide)).2.2.1
  exact absurd hle (by decide)

end AndroidPlatform.RegionAllocation
