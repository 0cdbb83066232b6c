import AndroidPlatform.BpfLiveness

/-!
# Stores that nothing reads are removed

`opt_deadstores` keeps the last store to every atom while it goes through a
block forwards, and removes a store when the next one comes before a read, or
at the end of the block when the atom is not in `out_use`. These are the stores
to atoms that are not live behind them. Where a filter comes to a return
without them it came to the same return with them.
-/

namespace AndroidPlatform.BpfDeadStores

open BpfProgram (Stmt nop Block BlockGraph Machine Event)
open BpfLevels BpfPeephole BpfValues BpfLiveness LiveVariables CountedResource

/-! ## What is removed -/

/-- A statement writes an atom only that is not live behind it. -/
def Dead (live : ℕ → Prop) (s : Stmt) : Prop := ∃ a, Writes s a ∧ ¬live a

open Classical in
/-- A statement that may have been removed. -/
noncomputable def removed (p : Prop) (s : Stmt) : Stmt := if p then {s with code:=nop} else s

/-- The statements, those that are dead removed. -/
noncomputable def dropDead (out : ℕ → Prop) : List Stmt → List Stmt
  | [] => []
  | s::rest => removed (Dead (LiveBefore Reads Writes out rest) s) s::dropDead out rest

variable {out live : ℕ → Prop} {s : Stmt} {l rest : List Stmt} {a i j n : ℕ}

theorem getElem?_dropDead (out : ℕ → Prop) (l : List Stmt) (i : ℕ) :
    (dropDead out l)[i]?=
      l[i]?.map fun s => removed (Dead (LiveBefore Reads Writes out (l.drop (i+1))) s) s := by
  induction l generalizing i with
  | nil => rfl
  | cons s rest ih =>
    cases i with
    | zero => rfl
    | succ i => exact ih i

/-- Atoms that some statements touch. -/
def Touches (l : List Stmt) (a : ℕ) : Prop := ∃ s∈l, Reads s a ∨ Writes s a

/-- Dead whatever is live behind some statements. -/
def DeadWithin (l : List Stmt) (s : Stmt) : Prop := Dead (LiveBefore Reads Writes (fun _ => True) l) s

/-- A block without some statements of another one. -/
structure Removes (b b' : OptBlock) (dead : ℕ → Stmt → Prop) : Prop where
  /-- Nothing but statements has changed. -/
  rest : b'={b with stmts:=b'.stmts}
  /-- No statement is taken away. -/
  length : b'.stmts.length=b.stmts.length
  /-- The dead ones have been removed. -/
  code : ∀ i s, b.stmts[i]?=some s → b'.stmts[i]?=some (removed (dead i s) s)

/-- What the loop of `opt_deadstores` has done up to a place. -/
structure Passed (b : OptBlock) (j : ℕ) (b' : OptBlock) (last : Last) : Prop where
  /-- The statements that are dead already have been removed. -/
  removes : Removes b b' fun i s => i<j ∧ DeadWithin ((b.stmts.take j).drop (i+1)) s
  /-- The last stores that nothing has read. -/
  last : ∀ (a : ℕ) p, a<18 → (last a=some p ↔ ∃ i s, p=.stmt i ∧ i<j ∧ b.stmts[i]?=some s ∧
    Writes s a ∧ ¬Touches ((b.stmts.take j).drop (i+1)) a)

theorem not_touches_append (t : Stmt) : ¬Touches (l++[t]) a ↔
    ¬Touches l a ∧ ¬Reads t a ∧ ¬Writes t a := by
  simp only [Touches,List.mem_append,List.mem_singleton,or_and_right,exists_or,exists_eq_left,
    not_or]

/-- A store is dead in front of some statements if they write again first, or if they do not
touch the atom and it is dead behind them. -/
theorem dead_iff : Dead (LiveBefore Reads Writes out l) s ↔ DeadWithin l s ∨
    ∃ a, Writes s a ∧ ¬Touches l a ∧ ¬out a := by
  constructor
  · rintro ⟨a,hs,hlive⟩
    rw [liveBefore_iff,not_or] at hlive
    by_cases hw : ∀ t∈l, ¬Writes t a
    · have hr := not_reads_of_not_readFirst hlive.1 hw
      refine .inr ⟨a,hs,?_,fun hout => hlive.2 ⟨hw,hout⟩⟩
      rintro ⟨t,ht,hread | hwrite⟩
      · exact hr t ht hread
      · exact hw t ht hwrite
    · refine .inl ⟨a,hs,?_⟩
      rw [liveBefore_iff,not_or]
      exact ⟨hlive.1,fun h => hw h.1⟩
  · rintro (⟨a,hs,hlive⟩ | ⟨a,hs,htouch,hout⟩)
    · refine ⟨a,hs,fun h => hlive ?_⟩
      rw [liveBefore_iff] at h ⊢
      exact h.imp_right fun h => ⟨h.1,trivial⟩
    · refine ⟨a,hs,?_⟩
      rw [liveBefore_iff,not_or]
      have hr : ¬ReadFirst Reads Writes l a :=
        not_readFirst_of_not_reads fun t ht hread => htouch ⟨t,ht,.inl hread⟩
      exact ⟨hr,fun h => hout h.2⟩

/-- A store is dead behind one more statement if it was, or if that statement stores again
what nothing has touched. -/
theorem deadWithin_append (t : Stmt) : DeadWithin (l++[t]) s ↔ DeadWithin l s ∨
    ∃ a, Writes s a ∧ ¬Touches l a ∧ ¬Reads t a ∧ Writes t a := by
  have hout : ∀ a, LiveBefore Reads Writes (fun _ => True) [t] a ↔ Reads t a ∨ ¬Writes t a := by
    intro a
    simp only [LiveBefore,and_true]
  have hlive : LiveBefore Reads Writes (fun _ => True) (l++[t])=
      LiveBefore Reads Writes (LiveBefore Reads Writes (fun _ => True) [t]) l :=
    funext fun a => propext (liveBefore_append [t])
  rw [DeadWithin,hlive,dead_iff]
  simp only [hout,not_or,not_not]

/-! ## The loop -/

/-- A part of the optimiser that ends with a value, whatever the static variables hold. -/
def Yields {α : Type} (m : Opt α) (x : α) : Prop := ∀ g, ∃ g', exec m g=(.ok x,g')

theorem yields_pure {α : Type} (x : α) : Yields (pure x) x := fun g => ⟨g,rfl⟩

theorem Yields.bind {α β : Type} {m : Opt α} {f : α → Opt β} {x : α} {y : β} (h : Yields m x)
    (hf : Yields (f x) y) : Yields (m >>= f) y := by
  intro g
  obtain ⟨g1,h1⟩ := h g
  obtain ⟨g2,h2⟩ := hf g1
  refine ⟨g2,?_⟩
  rw [exec_bind,h1]
  exact h2

theorem yields_notDone : Yields notDone () := fun g => ⟨{g with done:=false},rfl⟩

theorem readAtoms_apply (h : Slotted s) (last : Last) (ha : a<18) (p : Place) :
    readAtoms s last (a : ℤ)=some p ↔ last (a : ℤ)=some p ∧ ¬Reads s a := by
  have hax : (a : ℤ)≠axAtom := fun heq => by
    rw [axAtom] at heq
    omega
  rw [readAtoms]
  rcases atomuse_cases h with hnone | hax' | ⟨n,hn,hatom⟩
  · have hreads : ¬Reads s a := by
      rintro (⟨heq,-⟩ | ⟨heq,-⟩)
      · cases hnone.symm.trans heq
      · cases hnone.symm.trans heq
    rw [hnone]
    exact (and_iff_left hreads).symm
  · have hreads : Reads s a ↔ a=16 ∨ a=17 := by
      simp only [Reads,hax',Option.some.injEq,hax.symm,false_and,false_or,true_and]
    have hneg : ¬axAtom<0 := by decide
    rw [hax',hreads]
    dsimp only
    rw [if_neg hneg,if_pos rfl]
    by_cases h16 : (a : ℤ)=aAtom
    · rw [h16,Function.update_self]
      rw [aAtom] at h16
      refine iff_of_false (Option.some_ne_none p).symm fun hand => hand.2 (.inl (by omega))
    · rw [Function.update_of_ne h16]
      by_cases h17 : (a : ℤ)=xAtom
      · rw [h17,Function.update_self]
        rw [xAtom] at h17
        refine iff_of_false (Option.some_ne_none p).symm fun hand => hand.2 (.inr (by omega))
      · rw [Function.update_of_ne h17]
        rw [aAtom] at h16
        rw [xAtom] at h17
        exact (and_iff_left (by omega)).symm
  · have hnax : (n : ℤ)≠axAtom := fun heq => by
      rw [axAtom] at heq
      omega
    have hreads : Reads s a ↔ n=a := by
      simp only [Reads,hatom,Option.some.injEq,hnax,false_and,or_false,Nat.cast_inj,
        and_iff_left ha]
    have hneg : ¬(n : ℤ)<0 := by omega
    rw [hatom,hreads]
    dsimp only
    rw [if_neg hneg,if_neg hnax]
    by_cases hna : (a : ℤ)=(n : ℤ)
    · rw [hna,Function.update_self]
      exact iff_of_false (Option.some_ne_none p).symm fun hand => hand.2 (Nat.cast_inj.mp hna).symm
    · rw [Function.update_of_ne hna]
      exact (and_iff_left fun heq => hna (by rw [heq])).symm

variable {b b' : OptBlock} {last : Last}

/-- The statements up to the next place. -/
theorem drop_take_succ (hs : b.stmts[j]?=some s) (hi : i<j) :
    (b.stmts.take (j+1)).drop (i+1)=(b.stmts.take j).drop (i+1)++[s] := by
  have hlt : j<b.stmts.length := (List.getElem?_eq_some_iff.mp hs).1
  rw [List.take_add_one,hs,Option.toList_some,List.drop_append_of_le_length]
  rw [List.length_take]
  omega

theorem drop_take_self (stmts : List Stmt) (j : ℕ) : (stmts.take (j+1)).drop (j+1)=[] :=
  List.drop_eq_nil_of_le (List.length_take_le _ _)

theorem removed_congr {p q : Prop} (h : p ↔ q) (s : Stmt) : removed p s=removed q s := by
  rw [propext h]

/-- Removing a statement again changes nothing. -/
theorem removed_or (p q : Prop) (s : Stmt) : removed q (removed p s)=removed (p ∨ q) s := by
  by_cases hp : p
  · by_cases hq : q
    · simp only [removed,hp,hq,if_true,or_self]
    · simp only [removed,hp,hq,if_true,if_false,or_false]
  · by_cases hq : q
    · simp only [removed,hp,hq,if_true,if_false,or_true]
    · simp only [removed,hp,hq,if_false,or_self]

theorem removes_none {dead : ℕ → Stmt → Prop} (h : ∀ i s, b.stmts[i]?=some s → ¬dead i s) :
    Removes b b dead := by
  refine ⟨rfl,rfl,fun i s hs => ?_⟩
  rw [removed,if_neg (h i s hs)]
  exact hs

theorem removes_kill (b : OptBlock) (k : ℕ) : Removes b (kill b (.stmt k)) fun i _ => k=i := by
  refine ⟨rfl,List.length_modify _ _ _,fun i s hs => ?_⟩
  rw [kill,setCode,List.getElem?_modify,hs,Option.map_eq_map,Option.map_some]
  by_cases hk : k=i
  · rw [removed,if_pos hk,if_pos hk]
  · rw [removed,if_neg hk,if_neg hk]

theorem Removes.congr {dead dead' : ℕ → Stmt → Prop} (h : Removes b b' dead)
    (hiff : ∀ i s, b.stmts[i]?=some s → (dead i s ↔ dead' i s)) : Removes b b' dead' := by
  refine ⟨h.rest,h.length,fun i s hs => ?_⟩
  rw [←removed_congr (hiff i s hs)]
  exact h.code i s hs

theorem Removes.trans {b2 : OptBlock} {dead : ℕ → Stmt → Prop} {dead2 : ℕ → Prop}
    (h : Removes b b' dead) (h' : Removes b' b2 fun i _ => dead2 i) :
    Removes b b2 fun i s => dead i s ∨ dead2 i := by
  refine ⟨?_,h'.length.trans h.length,fun i s hs => ?_⟩
  · rw [h'.rest,h.rest]
  · rw [h'.code i _ (h.code i s hs),removed_or]

/-- Whatever is removed as the place says, the loop has gone on. -/
theorem Passed.advance (h : Passed b j b' last) (hs : b.stmts[j]?=some s) (hslot : Slotted s)
    {b2 : OptBlock} {last2 : Last}
    (hremoves : Removes b' b2 fun i _ => ∃ a : ℕ, Writes s a ∧ readAtoms s last a=some (.stmt i))
    (hlast : ∀ (a : ℕ) p, a<18 → (last2 a=some p ↔
      Writes s a ∧ p=.stmt j ∨ ¬Writes s a ∧ readAtoms s last a=some p)) :
    Passed b (j+1) b2 last2 := by
  refine ⟨(h.removes.trans hremoves).congr fun i t ht => ?_,fun a p ha => ?_⟩
  · have hread : ∀ a : ℕ, Writes s a → (readAtoms s last a=some (.stmt i) ↔
        (i<j ∧ Writes t a ∧ ¬Touches ((b.stmts.take j).drop (i+1)) a) ∧ ¬Reads s a) := by
      intro a ha
      rw [readAtoms_apply hslot last (ha.lt hslot),h.last a _ (ha.lt hslot)]
      refine and_congr_left fun _ => ⟨?_,fun hor => ⟨i,t,rfl,hor.1,ht,hor.2⟩⟩
      rintro ⟨i',t',heq,hi,ht',hand⟩
      obtain rfl := Place.stmt.inj heq
      cases ht.symm.trans ht'
      exact ⟨hi,hand⟩
    have hnew : (∃ a : ℕ, Writes s a ∧ readAtoms s last a=some (.stmt i)) ↔
        i<j ∧ ∃ a, Writes t a ∧ ¬Touches ((b.stmts.take j).drop (i+1)) a ∧ ¬Reads s a ∧
          Writes s a := by
      constructor
      · rintro ⟨a,ha,hr⟩
        obtain ⟨⟨hi,hw,htouch⟩,hr⟩ := (hread a ha).mp hr
        exact ⟨hi,a,hw,htouch,hr,ha⟩
      · rintro ⟨hi,a,hw,htouch,hr,ha⟩
        exact ⟨a,ha,(hread a ha).mpr ⟨⟨hi,hw,htouch⟩,hr⟩⟩
    rw [hnew]
    by_cases hi : i<j
    · rw [drop_take_succ hs hi,deadWithin_append]
      simp only [hi,Nat.lt_succ_of_lt hi,true_and]
    · simp only [hi,false_and,or_false,false_iff,not_and]
      intro hlt
      obtain rfl : i=j := by omega
      rw [drop_take_self]
      rintro ⟨a,-,hlive⟩
      exact hlive trivial
  · rw [hlast a p ha,readAtoms_apply hslot last ha,h.last a p ha]
    constructor
    · rintro (⟨hw,rfl⟩ | ⟨hw,⟨i,t,rfl,hi,ht,hwt,htouch⟩,hr⟩)
      · refine ⟨j,s,rfl,Nat.lt_succ_self j,hs,hw,?_⟩
        rw [drop_take_self]
        rintro ⟨t,ht,-⟩
        exact absurd ht List.not_mem_nil
      · refine ⟨i,t,rfl,Nat.lt_succ_of_lt hi,ht,hwt,?_⟩
        rw [drop_take_succ hs hi,not_touches_append]
        exact ⟨htouch,hr,hw⟩
    · rintro ⟨i,t,rfl,hi,ht,hwt,htouch⟩
      by_cases hij : i<j
      · rw [drop_take_succ hs hij,not_touches_append] at htouch
        exact .inr ⟨htouch.2.2,⟨i,t,rfl,hij,ht,hwt,htouch.1⟩,htouch.2.1⟩
      · obtain rfl : i=j := by omega
        cases hs.symm.trans ht
        exact .inl ⟨hwt,rfl⟩

/-- The loop of `opt_deadstores` goes on by one statement. -/
theorem Passed.next (h : Passed b j b' last) (hs : b.stmts[j]?=some s) (hslot : Slotted s) :
    ∃ r, Yields (deadstmt b' last (.stmt j)) r ∧ Passed b (j+1) r.1 r.2 := by
  have hstmt : stmtAt b' (.stmt j)=s := by
    have hget := h.removes.code j s hs
    rw [removed,if_neg fun hj => lt_irrefl _ hj.1] at hget
    rw [stmtAt,hget]
    rfl
  rcases atomdef_cases hslot with hnone | ⟨n,hn,hatom⟩
  · have hwrites : ∀ a, ¬Writes s a := fun a heq => by cases hnone.symm.trans heq
    refine ⟨(b',readAtoms s last),?_,h.advance hs hslot (removes_none fun i t _ => ?_) fun a p _ => ?_⟩
    · rw [deadstmt,hstmt,hnone]
      exact yields_pure _
    · exact fun hex => hex.elim fun a ha => hwrites a ha.1
    · simp only [hwrites,false_and,not_false_eq_true,true_and,false_or]
  · have hwrites : ∀ a, Writes s a ↔ a=n := by
      intro a
      rw [Writes,hatom,Option.some.injEq,Nat.cast_inj,eq_comm]
    have hneg : ¬(n : ℤ)<0 := by omega
    have hlast : ∀ (a : ℕ) p, a<18 →
        (Function.update (readAtoms s last) (n : ℤ) (some (.stmt j)) (a : ℤ)=some p ↔
          Writes s a ∧ p=.stmt j ∨ ¬Writes s a ∧ readAtoms s last a=some p) := by
      intro a p _
      rw [hwrites]
      by_cases ha : a=n
      · rw [ha,Function.update_self]
        simp only [Option.some.injEq,true_and,not_true_eq_false,false_and,or_false,eq_comm]
      · rw [Function.update_of_ne fun heq => ha (Nat.cast_inj.mp heq)]
        simp only [ha,false_and,not_false_eq_true,true_and,false_or]
    have hone : ∀ i, (∃ a : ℕ, Writes s a ∧ readAtoms s last a=some (.stmt i)) ↔
        readAtoms s last (n : ℤ)=some (.stmt i) := by
      intro i
      simp only [hwrites,exists_eq_left]
    cases hold : readAtoms s last (n : ℤ) with
    | none =>
      refine ⟨(b',Function.update (readAtoms s last) (n : ℤ) (some (.stmt j))),?_,
        h.advance hs hslot (removes_none fun i t _ => ?_) hlast⟩
      · simp only [deadstmt,hstmt,hatom,if_neg hneg,hold]
        exact yields_pure _
      · rw [hone,hold]
        exact (Option.some_ne_none _).symm
    | some p =>
      obtain ⟨k,t,rfl,-⟩ := (h.last n p hn).mp ((readAtoms_apply hslot last hn p).mp hold).1
      refine ⟨(kill b' (.stmt k),Function.update (readAtoms s last) (n : ℤ) (some (.stmt j))),?_,
        h.advance hs hslot ((removes_kill b' k).congr fun i t _ => ?_) hlast⟩
      · simp only [deadstmt,hstmt,hatom,if_neg hneg,hold]
        exact yields_notDone.bind (yields_pure _)
      · rw [hone,hold,Option.some.injEq,Place.stmt.injEq]

theorem passed_start (b : OptBlock) : Passed b 0 b fun _ => none := by
  refine ⟨removes_none fun i t _ hand => Nat.not_lt_zero i hand.1,fun a p _ => ?_⟩
  refine iff_of_false (Option.some_ne_none p).symm ?_
  rintro ⟨i,-,-,hi,-⟩
  exact Nat.not_lt_zero i hi

/-- The loop over the statements. -/
theorem passed_range (hslot : ∀ s∈b.stmts, Slotted s) (hj : j≤b.stmts.length) :
    ∃ r, Yields (((List.range j).map Place.stmt).foldlM (fun r place => deadstmt r.1 r.2 place)
      (b,fun _ => none)) r ∧ Passed b j r.1 r.2 := by
  induction j with
  | zero => exact ⟨(b,fun _ => none),yields_pure _,passed_start b⟩
  | succ j ih =>
    obtain ⟨r,hr,hpassed⟩ := ih (Nat.le_of_succ_le hj)
    have hs : b.stmts[j]?=some b.stmts[j] := List.getElem?_eq_getElem hj
    obtain ⟨r',hr',hpassed'⟩ := hpassed.next hs (hslot _ (List.getElem_mem hj))
    refine ⟨r',?_,hpassed'⟩
    rw [List.range_succ,List.map_append,List.foldlM_append]
    refine hr.bind ?_
    rw [List.map_singleton,List.foldlM_cons]
    exact hr'.bind (yields_pure _)

/-- One turn of the loop over the atoms. -/
theorem killUnused_removes (outUse k : ℕ) (hlast : ∀ p, last k=some p → ∃ i, p=.stmt i)
    (b : OptBlock) : ∃ b', Yields (killUnused outUse last b k) b' ∧
      Removes b b' fun i _ => last k=some (.stmt i) ∧ outUse.testBit k=false := by
  have helem : BpfPeephole.atomElem outUse (k : ℤ)=outUse.testBit k := by
    rw [BpfPeephole.atomElem,Int.toNat_natCast]
  cases hp : last (k : ℤ) with
  | none =>
    refine ⟨b,?_,removes_none fun i t _ hand => (Option.some_ne_none _).symm hand.1⟩
    simp only [killUnused,hp]
    exact yields_pure b
  | some p =>
    cases hbit : outUse.testBit k with
    | true =>
      refine ⟨b,?_,removes_none fun i t _ hand => by cases hand.2⟩
      simp only [killUnused,hp,helem,hbit,Bool.true_eq_false,if_false]
      exact yields_pure b
    | false =>
      obtain ⟨j,rfl⟩ := hlast p hp
      refine ⟨kill b (.stmt j),?_,(removes_kill b j).congr fun i t _ => ?_⟩
      · simp only [killUnused,hp,helem,hbit,if_true]
        exact yields_notDone.bind (yields_pure _)
      · rw [Option.some.injEq,Place.stmt.injEq,and_iff_left rfl]

/-- What the loop over the atoms has removed. -/
theorem killed_range (outUse : ℕ) (hlast : ∀ (a : ℕ) p, a<18 → last a=some p → ∃ i, p=.stmt i)
    {k : ℕ} (hk : k≤18) :
    ∃ b', Yields ((List.range k).foldlM (killUnused outUse last) b) b' ∧
      Removes b b' fun i _ => ∃ a : ℕ, a<k ∧ last a=some (.stmt i) ∧ outUse.testBit a=false := by
  induction k with
  | zero => exact ⟨b,yields_pure b,removes_none fun i t _ hex =>
      hex.elim fun a ha => Nat.not_lt_zero a ha.1⟩
  | succ k ih =>
    obtain ⟨b1,hb1,hremoves⟩ := ih (Nat.le_of_succ_le hk)
    obtain ⟨b2,hb2,hone⟩ := killUnused_removes outUse k (hlast k · hk) b1
    refine ⟨b2,?_,(hremoves.trans hone).congr fun i t _ => ?_⟩
    · rw [List.range_succ,List.foldlM_append]
      refine hb1.bind ?_
      rw [List.foldlM_cons]
      exact hb2.bind (yields_pure _)
    · simp only [Nat.lt_succ_iff_lt_or_eq,or_and_right,exists_or,exists_eq_left]

/-- `opt_deadstores` removes the stores to atoms that are not live behind them, and nothing
else. -/
theorem optDeadstores_yields (outUse : ℕ) (hslot : ∀ s∈b.stmts, Slotted s) (hbranch : Slotted b.s)
    (hdef : atomdef b.s=none) : Yields (optDeadstores outUse b)
      {b with stmts:=dropDead (fun a => Reads b.s a ∨ outUse.testBit a=true) b.stmts} := by
  obtain ⟨r,hr,hpassed⟩ := passed_range hslot le_rfl
  have hs : r.1.s=b.s := by rw [hpassed.removes.rest]
  have hread : ∀ (a : ℕ) p, a<18 → (readAtoms b.s r.2 a=some p ↔ r.2 a=some p ∧ ¬Reads b.s a) :=
    fun a p ha => readAtoms_apply hbranch r.2 ha p
  obtain ⟨b2,hb2,hkilled⟩ := @killed_range r.1 (readAtoms b.s r.2) outUse (fun a p ha hp => by
    obtain ⟨i,-,rfl,-⟩ := (hpassed.last a p ha).mp ((hread a p ha).mp hp).1
    exact ⟨i,rfl⟩) 18 le_rfl
  have hremoves := hpassed.removes.trans hkilled
  have hresult : b2={b with
      stmts:=dropDead (fun a => Reads b.s a ∨ outUse.testBit a=true) b.stmts} := by
    have hstmts : b2.stmts=dropDead (fun a => Reads b.s a ∨ outUse.testBit a=true) b.stmts := by
      refine List.ext_getElem? fun i => ?_
      rw [getElem?_dropDead]
      cases ht : b.stmts[i]? with
      | none =>
        rw [Option.map_none,List.getElem?_eq_none_iff,hremoves.length]
        exact List.getElem?_eq_none_iff.mp ht
      | some t =>
        have hlt : i<b.stmts.length := (List.getElem?_eq_some_iff.mp ht).1
        have htslot : Slotted t := hslot t (List.mem_of_getElem? ht)
        rw [hremoves.code i t ht,Option.map_some,List.take_length]
        refine congrArg some (removed_congr ?_ t)
        rw [dead_iff,and_iff_right hlt]
        refine or_congr_right ⟨?_,?_⟩
        · rintro ⟨a,ha,hp,hbit⟩
          obtain ⟨hp,hr⟩ := (hread a _ ha).mp hp
          obtain ⟨i',t',heq,-,ht',hw,htouch⟩ := (hpassed.last a _ ha).mp hp
          obtain rfl := Place.stmt.inj heq
          cases ht.symm.trans ht'
          rw [List.take_length] at htouch
          refine ⟨a,hw,htouch,?_⟩
          rintro (hread | hout)
          · exact hr hread
          · rw [hbit] at hout
            cases hout
        · rintro ⟨a,hw,htouch,hout⟩
          rw [not_or,Bool.not_eq_true] at hout
          have ha := hw.lt htslot
          rw [←List.take_length (l:=b.stmts)] at htouch
          exact ⟨a,ha,(hread a _ ha).mpr
            ⟨(hpassed.last a _ ha).mpr ⟨i,t,rfl,hlt,ht,hw,htouch⟩,hout.1⟩,hout.2⟩
    rw [←hstmts,hremoves.rest]
  rw [←hresult,optDeadstores]
  have hall : Yields (((List.range b.stmts.length).map Place.stmt++[Place.branch]).foldlM
      (fun r place => deadstmt r.1 r.2 place) (b,fun _ => none)) (r.1,readAtoms b.s r.2) := by
    rw [List.foldlM_append]
    refine hr.bind ?_
    have hstep : Yields (deadstmt r.1 r.2 .branch) (r.1,readAtoms b.s r.2) := by
      simp only [deadstmt,stmtAt,hs,hdef]
      exact yields_pure _
    rw [List.foldlM_cons]
    exact hstep.bind (yields_pure _)
  exact hall.bind hb2

/-! ## What a filter without them does -/

section Run

variable {σ ρ π β : Type} {M : Machine σ ρ} {other : σ → π} {atom : σ → ℕ → β} {g : FlowGraph}

/-- Two states differ at most in atoms that are not live. -/
def Agree (other : σ → π) (atom : σ → ℕ → β) (live : ℕ → Prop) (s s' : σ) : Prop :=
  other s=other s' ∧ ∀ a<18, live a → atom s a=atom s' a

/-- A machine whose instructions read and write the atoms that `atomuse` and `atomdef` name; the
packet is the rest of the state. -/
structure Atomic (M : Machine σ ρ) (other : σ → π) (atom : σ → ℕ → β) : Prop where
  /-- What is written depends on the packet and on what is read. -/
  ok : ∀ st s s' t, Slotted st → st.code≠nop → Agree other atom (Reads st) s s' →
    M.exec (BpfProgram.uShort st.code) (BpfProgram.uInt32 st.k) s=.ok t →
      ∃ t', M.exec (BpfProgram.uShort st.code) (BpfProgram.uInt32 st.k) s'=.ok t' ∧
        ∀ a, Writes st a → atom t a=atom t' a
  /-- So does the result of an instruction that ends the filter. -/
  error : ∀ st s s' r, Slotted st → st.code≠nop → Agree other atom (Reads st) s s' →
    M.exec (BpfProgram.uShort st.code) (BpfProgram.uInt32 st.k) s=.error r →
      M.exec (BpfProgram.uShort st.code) (BpfProgram.uInt32 st.k) s'=.error r
  /-- Nothing else is written. -/
  frame : ∀ st s t, Slotted st → st.code≠nop →
    M.exec (BpfProgram.uShort st.code) (BpfProgram.uInt32 st.k) s=.ok t →
      other t=other s ∧ ∀ a, ¬Writes st a → atom t a=atom s a
  /-- A branch depends on what it reads. -/
  test : ∀ st s s', Slotted st → st.code≠nop → Agree other atom (Reads st) s s' →
    M.test (BpfProgram.uShort st.code) (BpfProgram.uInt32 st.k) s=
      M.test (BpfProgram.uShort st.code) (BpfProgram.uInt32 st.k) s'

/-- A run comes to a return. -/
def Returns (events : List Event) : Prop :=
  ∃ front code k, events=front++[.stmt code k] ∧ BpfProgram.bpfClass code=BpfProgram.bpfRet

theorem Agree.mono {live live' : ℕ → Prop} {s s' : σ} (h : Agree other atom live s s')
    (hlive : ∀ a<18, live' a → live a) : Agree other atom live' s s' :=
  ⟨h.1,fun a ha hl => h.2 a ha (hlive a ha hl)⟩

theorem classOf_uShort (code : ℤ) :
    (BpfProgram.bpfClass (BpfProgram.uShort code) : ℤ)=classOf code := by
  rw [BpfProgram.bpfClass,BpfProgram.uShort,classOf]
  omega

theorem not_dead_of_ret {st : Stmt} (h : BpfProgram.bpfClass (BpfProgram.uShort st.code)=
    BpfProgram.bpfRet) : atomdef st=none := by
  have hclass : classOf st.code=bpfRet := by
    rw [←classOf_uShort,h]
    rfl
  unfold atomdef
  rw [hclass]
  split_ifs with _ hld hldx hst hmisc _
  · rfl
  · exact absurd hld (by decide)
  · exact absurd hldx (by decide)
  · exact absurd hst (by decide)
  · exact absurd hmisc (by decide)
  · exact absurd hmisc (by decide)
  · rfl

/-- An event is the decision of a branch. -/
def isBranch : Event → Bool
  | .stmt _ _ => false
  | .branch _ _ _ => true

/-- Only statements are missing from the second run. -/
structure Thins (events events' : List Event) : Prop where
  /-- What is left comes in the same order. -/
  sublist : events'.Sublist events
  /-- No branch is missing. -/
  branches : events'.filter isBranch=events.filter isBranch

theorem thins_nil : Thins [] [] := ⟨.slnil,rfl⟩

theorem Thins.cons {events events' : List Event} (h : Thins events events') (e : Event) :
    Thins (e::events) (e::events') := by
  refine ⟨h.sublist.cons_cons e,?_⟩
  rw [List.filter_cons,List.filter_cons,h.branches]

theorem Thins.drop {events events' : List Event} (h : Thins events events') (code k : ℕ) :
    Thins (.stmt code k::events) events' := ⟨h.sublist.cons _,h.branches⟩

theorem Thins.append {events events' more more' : List Event} (h : Thins events events')
    (h' : Thins more more') : Thins (events++more) (events'++more') := by
  refine ⟨h.sublist.append h'.sublist,?_⟩
  rw [List.filter_append,List.filter_append,h.branches,h'.branches]

theorem Returns.of_cons {events : List Event} {e : Event} (h : Returns (e::events))
    (hne : events≠[]) : Returns events := by
  obtain ⟨front,code,k,heq,hret⟩ := h
  cases front with
  | nil => exact absurd (List.cons.inj heq).2 hne
  | cons e' front => exact ⟨front,code,k,(List.cons.inj heq).2,hret⟩

theorem Returns.of_append {events more : List Event} (h : Returns (events++more))
    (hne : more≠[]) : Returns more := by
  induction events with
  | nil => exact h
  | cons e events ih => exact ih (h.of_cons (List.append_ne_nil_of_right_ne_nil events hne))

theorem returns_singleton {code k : ℕ} (h : Returns [.stmt code k]) :
    BpfProgram.bpfClass code=BpfProgram.bpfRet := by
  obtain ⟨front,code',k',heq,hret⟩ := h
  cases front with
  | nil =>
    cases heq
    exact hret
  | cons e front => exact absurd (List.cons.inj heq).2.symm (List.append_ne_nil_of_right_ne_nil _
      (List.cons_ne_nil _ _))

theorem runStmts_nop {st : Stmt} (h : st.code=nop) (rest : List Stmt) (s : σ) :
    M.runStmts (st::rest) s=M.runStmts rest s := by
  rw [Machine.runStmts,if_pos h]

theorem runStmts_error {st : Stmt} (h : st.code≠nop) (rest : List Stmt) {s : σ} {r : ρ}
    (hexec : M.exec (BpfProgram.uShort st.code) (BpfProgram.uInt32 st.k) s=.error r) :
    M.runStmts (st::rest) s=
      ([.stmt (BpfProgram.uShort st.code) (BpfProgram.uInt32 st.k)],.error r) := by
  rw [Machine.runStmts,if_neg h,hexec]

theorem runStmts_ok {st : Stmt} (h : st.code≠nop) (rest : List Stmt) {s t : σ}
    (hexec : M.exec (BpfProgram.uShort st.code) (BpfProgram.uInt32 st.k) s=.ok t) :
    M.runStmts (st::rest) s=
      (.stmt (BpfProgram.uShort st.code) (BpfProgram.uInt32 st.k)::(M.runStmts rest t).1,
        (M.runStmts rest t).2) := by
  rw [Machine.runStmts,if_neg h,hexec]

/-- Statements that end the filter do something. -/
theorem ne_nil_of_error {stmts : List Stmt} {s : σ} {r : ρ}
    (h : (M.runStmts stmts s).2=.error r) : (M.runStmts stmts s).1≠[] := by
  induction stmts with
  | nil => cases h
  | cons st rest ih =>
    by_cases hnop : st.code=nop
    · rw [runStmts_nop hnop] at h ⊢
      exact ih h
    · cases hexec : M.exec (BpfProgram.uShort st.code) (BpfProgram.uInt32 st.k) s with
      | error r' =>
        rw [runStmts_error hnop rest hexec]
        exact List.cons_ne_nil _ _
      | ok t =>
        rw [runStmts_ok hnop rest hexec]
        exact List.cons_ne_nil _ _

theorem not_dead_of_atomdef {st : Stmt} (h : atomdef st=none) : ¬Dead live st := by
  rintro ⟨a,ha,-⟩
  cases h.symm.trans ha

/-- What removing the dead statements does to a run of the statements of a block. -/
theorem runStmts_dropDead (hM : Atomic M other atom) {stmts : List Stmt}
    (hslot : ∀ st∈stmts, Slotted st) {s s' : σ}
    (h : Agree other atom (LiveBefore Reads Writes out stmts) s s') :
    (∀ t, (M.runStmts stmts s).2=.ok t → ∃ events' t',
      M.runStmts (dropDead out stmts) s'=(events',.ok t') ∧ Agree other atom out t t' ∧
        Thins (M.runStmts stmts s).1 events') ∧
    (∀ r, (M.runStmts stmts s).2=.error r → Returns (M.runStmts stmts s).1 → ∃ events',
      M.runStmts (dropDead out stmts) s'=(events',.error r) ∧
        Thins (M.runStmts stmts s).1 events') := by
  induction stmts generalizing s s' with
  | nil =>
    refine ⟨fun t ht => ?_,fun r hr => by cases hr⟩
    cases ht
    exact ⟨[],s',rfl,h,thins_nil⟩
  | cons st rest ih =>
    have hst : Slotted st := hslot st List.mem_cons_self
    have hrest : ∀ st∈rest, Slotted st := fun st hmem => hslot st (List.mem_cons_of_mem _ hmem)
    rw [dropDead]
    by_cases hnop : st.code=nop
    · -- a statement that had been removed before
      have hdef : atomdef st=none := by rw [atomdef,if_pos hnop]
      have hwrites : ∀ a, ¬Writes st a := fun a ha => by cases hdef.symm.trans ha
      rw [removed,if_neg (not_dead_of_atomdef hdef),runStmts_nop hnop,runStmts_nop hnop]
      exact ih hrest (h.mono fun a _ hlive => .inr ⟨hwrites a,hlive⟩)
    · cases hexec : M.exec (BpfProgram.uShort st.code) (BpfProgram.uInt32 st.k) s with
      | error r =>
        rw [runStmts_error hnop rest hexec]
        refine ⟨fun t ht => ?_,fun r' hr hret => ?_⟩
        · cases ht
        · cases hr
          have hdef := not_dead_of_ret (returns_singleton hret)
          have hexec' := hM.error st s s' r hst hnop (h.mono fun a _ hread => .inl hread) hexec
          rw [removed,if_neg (not_dead_of_atomdef hdef),runStmts_error hnop _ hexec']
          exact ⟨_,rfl,thins_nil.cons _⟩
      | ok t1 =>
        obtain ⟨hother,hframe⟩ := hM.frame st s t1 hst hnop hexec
        rw [runStmts_ok hnop rest hexec]
        by_cases hdead : Dead (LiveBefore Reads Writes out rest) st
        · -- the store is removed, and what is live behind it is as it was
          have hagree : Agree other atom (LiveBefore Reads Writes out rest) t1 s' := by
            refine ⟨hother.trans h.1,fun a ha hlive => ?_⟩
            obtain ⟨b,hb,hbdead⟩ := hdead
            have hwrites : ¬Writes st a := fun hw => hbdead (hb.unique hw ▸ hlive)
            rw [hframe a hwrites]
            exact h.2 a ha (.inr ⟨hwrites,hlive⟩)
          obtain ⟨hok,herror⟩ := ih hrest hagree
          rw [removed,if_pos hdead,runStmts_nop rfl]
          refine ⟨fun t ht => ?_,fun r hr hret => ?_⟩
          · obtain ⟨events',t',hrun,hag,hthin⟩ := hok t ht
            exact ⟨events',t',hrun,hag,hthin.drop _ _⟩
          · obtain ⟨events',hrun,hthin⟩ := herror r hr (hret.of_cons (ne_nil_of_error hr))
            exact ⟨events',hrun,hthin.drop _ _⟩
        · obtain ⟨t1',hexec',hwritten⟩ :=
            hM.ok st s s' t1 hst hnop (h.mono fun a _ hread => .inl hread) hexec
          obtain ⟨hother',hframe'⟩ := hM.frame st s' t1' hst hnop hexec'
          have hagree : Agree other atom (LiveBefore Reads Writes out rest) t1 t1' := by
            refine ⟨by rw [hother,hother',h.1],fun a ha hlive => ?_⟩
            by_cases hwrites : Writes st a
            · exact hwritten a hwrites
            · rw [hframe a hwrites,hframe' a hwrites]
              exact h.2 a ha (.inr ⟨hwrites,hlive⟩)
          obtain ⟨hok,herror⟩ := ih hrest hagree
          rw [removed,if_neg hdead,runStmts_ok hnop _ hexec']
          refine ⟨fun t ht => ?_,fun r hr hret => ?_⟩
          · obtain ⟨events',t',hrun,hag,hthin⟩ := hok t ht
            exact ⟨_,t',by rw [hrun],hag,hthin.cons _⟩
          · obtain ⟨events',hrun,hthin⟩ := herror r hr (hret.of_cons (ne_nil_of_error hr))
            exact ⟨_,by rw [hrun],hthin.cons _⟩

section Blocks

variable {g : BlockGraph} {p : ℕ} {s t : σ} {events : List Event}

theorem runBlock_error {r : ρ} (h : M.runStmts (g.block p).stmts s=(events,.error r)) :
    M.runBlock g (some p) s=(events,some r) := by
  rw [Machine.runBlock,h]

theorem runBlock_return {r : ρ} (h : M.runStmts (g.block p).stmts s=(events,.ok t))
    (hclass : BpfProgram.bpfClass (BpfProgram.uShort (g.block p).s.code)≠BpfProgram.bpfJmp)
    (hexec : M.exec (BpfProgram.uShort (g.block p).s.code) (BpfProgram.uInt32 (g.block p).s.k) t=
      .error r) :
    M.runBlock g (some p) s=(events++[.stmt (BpfProgram.uShort (g.block p).s.code)
      (BpfProgram.uInt32 (g.block p).s.k)],some r) := by
  rw [Machine.runBlock,h]
  dsimp only
  rw [if_neg hclass,hexec]

theorem runBlock_branch (h : M.runStmts (g.block p).stmts s=(events,.ok t))
    (hclass : BpfProgram.bpfClass (BpfProgram.uShort (g.block p).s.code)=BpfProgram.bpfJmp)
    {taken : Bool} (htest : M.test (BpfProgram.uShort (g.block p).s.code)
      (BpfProgram.uInt32 (g.block p).s.k) t=taken) :
    M.runBlock g (some p) s=
      (events++.branch (BpfProgram.uShort (g.block p).s.code) (BpfProgram.uInt32 (g.block p).s.k)
          taken::(M.runBlock g (if taken then (g.block p).jt else (g.block p).jf) t).1,
        (M.runBlock g (if taken then (g.block p).jt else (g.block p).jf) t).2) := by
  rw [Machine.runBlock,h]
  dsimp only
  rw [if_pos hclass,htest]
  cases taken with
  | false => rfl
  | true => rfl

/-- A run from a block does something. -/
theorem runBlock_ne_nil (hs : g.Straight) {r : ρ} (h : (M.runBlock g (some p) s).2=some r) :
    (M.runBlock g (some p) s).1≠[] := by
  rcases hrun : M.runStmts (g.block p).stmts s with ⟨events,r' | t⟩
  · have hne := @ne_nil_of_error σ ρ M (g.block p).stmts s r' (by rw [hrun])
    rw [hrun] at hne
    rw [runBlock_error hrun]
    exact hne
  · rcases hs.ends p with ⟨-,-,hret⟩ | ⟨_,_,-,-,hjmp,-⟩
    · obtain ⟨r',hr'⟩ := M.ret _ (BpfProgram.uInt32 (g.block p).s.k) t hret
      have hclass : BpfProgram.bpfClass (BpfProgram.uShort (g.block p).s.code)≠
          BpfProgram.bpfJmp := by
        rw [hret]
        exact fun heq => by cases heq
      rw [runBlock_return hrun hclass hr']
      exact List.append_ne_nil_of_right_ne_nil _ (List.cons_ne_nil _ _)
    · rw [runBlock_branch hrun hjmp rfl]
      exact List.append_ne_nil_of_right_ne_nil _ (List.cons_ne_nil _ _)

end Blocks

/-- The graphs that the code generator makes. -/
structure Generated (g : FlowGraph) : Prop where
  /-- The statements contain no jumps, and a block branches or returns. -/
  straight : g.Straight
  /-- The scratch registers are among the sixteen. -/
  slotted : ∀ p, g.Reached p → (∀ st∈(g.block p).stmts, Slotted st) ∧ Slotted (g.block p).s
  /-- `gen_retblk` returns constants only. -/
  constant : ∀ p, g.Reached p → (g.block p).jt=none → atomuse (g.block p).s=none

/-- The graph whose blocks have gone through `opt_deadstores`. -/
structure Deadstored (g : FlowGraph) (ud : UdFields) (g' : BlockGraph) : Prop where
  /-- It starts at the same block. -/
  root : g'.root=g.root
  /-- Its blocks are what is left. -/
  block : ∀ p, g.Reached p → ∃ b,
    Yields (optDeadstores (ud.outUse p).toNat (BpfOptimizeLoop.initBlocks g.toBlockGraph p)) b ∧
      (g'.block p).stmts=b.stmts ∧ (g'.block p).s=b.s ∧ (g'.block p).jt=b.jt ∧
      (g'.block p).jf=b.jf

theorem Yields.unique {α : Type} {m : Opt α} {x y : α} (hx : Yields m x) (hy : Yields m y) :
    x=y := by
  obtain ⟨g1,h1⟩ := hx BpfOptimizeLoop.initGlobals
  obtain ⟨g2,h2⟩ := hy BpfOptimizeLoop.initGlobals
  exact Except.ok.inj (Prod.mk.inj (h1.symm.trans h2)).1

/-- The atoms that are live behind the statements of a block. -/
def liveOut (g : FlowGraph) (ud : UdFields) (p a : ℕ) : Prop :=
  Reads (g.block p).s a ∨ (ud.outUse p).toNat.testBit a=true

namespace Generated

variable {ud : UdFields} {p : ℕ} {g' : BlockGraph} (h : Generated g)

include h

/-- The branch of a block writes nothing. -/
theorem atomdef_branch (p : ℕ) : atomdef (g.block p).s=none := by
  rcases h.straight.ends p with ⟨-,-,hret⟩ | ⟨t,f,-,-,hjmp,-⟩
  · exact not_dead_of_ret hret
  · cases hdef : atomdef (g.block p).s with
    | none => rfl
    | some atom =>
      have hclass : classOf (g.block p).s.code=bpfJmp := by
        rw [←classOf_uShort,hjmp]
        rfl
      unfold atomdef at hdef
      rw [hclass] at hdef
      split_ifs at hdef with _ hld hldx hst hmisc _
      · exact absurd hld (by decide)
      · exact absurd hldx (by decide)
      · exact absurd hst (by decide)
      · exact absurd hmisc (by decide)
      · exact absurd hmisc (by decide)

theorem yields (hp : g.Reached p) : Yields
    (optDeadstores (ud.outUse p).toNat (BpfOptimizeLoop.initBlocks g.toBlockGraph p))
    {BpfOptimizeLoop.initBlocks g.toBlockGraph p with
      stmts:=dropDead (liveOut g ud p) (g.block p).stmts} :=
  optDeadstores_yields _ (h.slotted p hp).1 (h.slotted p hp).2 (h.atomdef_branch p)

/-- There is such a graph. -/
theorem exists_deadstored (ud : UdFields) : ∃ g', Deadstored g ud g' := by
  refine ⟨⟨fun p => {g.block p with stmts:=dropDead (liveOut g ud p) (g.block p).stmts},g.root,
    g.rank,g.rank_jt,g.rank_jf⟩,rfl,fun p hp => ⟨_,h.yields hp,rfl,rfl,rfl,rfl⟩⟩

theorem block_eq (hg : Deadstored g ud g') (hp : g.Reached p) :
    (g'.block p).stmts=dropDead (liveOut g ud p) (g.block p).stmts ∧
      (g'.block p).s=(g.block p).s ∧ (g'.block p).jt=(g.block p).jt ∧
      (g'.block p).jf=(g.block p).jf := by
  obtain ⟨b,hb,hstmts,hs,hjt,hjf⟩ := hg.block p hp
  obtain rfl := hb.unique (h.yields hp)
  exact ⟨hstmts,hs,hjt,hjf⟩

/-- What is live in front of a block is needed there. -/
theorem needed_of_live (hud : ∀ p, g.Reached p → ∀ a<18,
    ((ud.outUse p).getLsbD a=true ↔ ∃ c∈g.succ p, Needed g a c)) (hp : g.Reached p) (ha : a<18)
    (hlive : LiveBefore Reads Writes (liveOut g ud p) (g.block p).stmts a) : Needed g a p := by
  have hbranch : ¬Writes (g.block p).s a := fun hw => by cases (h.atomdef_branch p).symm.trans hw
  rw [liveBefore_iff] at hlive
  rw [Needed,demanded_iff,codeOf,readFirst_append]
  rcases hlive with hfirst | ⟨hwrites,hread | hout⟩
  · exact .inl (.inl hfirst)
  · rcases h.straight.ends p with ⟨hjt,-,-⟩ | ⟨t,f,-,-,hjmp,-⟩
    · have hnone := h.constant p hp hjt
      rcases hread with ⟨heq,-⟩ | ⟨heq,-⟩
      · cases hnone.symm.trans heq
      · cases hnone.symm.trans heq
    · have hclass : classOf (g.block p).s.code=bpfJmp := by
        rw [←classOf_uShort,hjmp]
        rfl
      rw [if_pos hclass]
      exact .inl (.inr ⟨hwrites,readFirst_singleton.mpr hread⟩)
  · rw [BitVec.testBit_toNat,hud p hp a ha] at hout
    refine .inr ⟨fun st hst => ?_,hout⟩
    rcases List.mem_append.mp hst with hst | hst
    · exact hwrites st hst
    · split at hst
      · rw [List.mem_singleton.mp hst]
        exact hbranch
      · exact absurd hst List.not_mem_nil

/-- From a block on, the filter without the dead stores comes to the same return. -/
theorem run (hM : Atomic M other atom) (hg : Deadstored g ud g')
    (hud : ∀ p, g.Reached p → ∀ a<18,
      ((ud.outUse p).getLsbD a=true ↔ ∃ c∈g.succ p, Needed g a c))
    (hp : g.Reached p) {s s' : σ} (hagree : Agree other atom (fun a => Needed g a p) s s') {r : ρ}
    (hr : (M.runBlock g.toBlockGraph (some p) s).2=some r)
    (hret : Returns (M.runBlock g.toBlockGraph (some p) s).1) :
    ∃ events', M.runBlock g' (some p) s'=(events',some r) ∧
      Thins (M.runBlock g.toBlockGraph (some p) s).1 events' := by
  induction hrank : g.rank p using Nat.strong_induction_on generalizing p s s' with
  | _ rank ih =>
    subst hrank
    obtain ⟨hstmts,hs,hjt,hjf⟩ := h.block_eq hg hp
    obtain ⟨hok,herror⟩ := runStmts_dropDead hM (h.slotted p hp).1
      (hagree.mono fun a ha hlive => h.needed_of_live hud hp ha hlive)
    rcases hrun : M.runStmts (g.block p).stmts s with ⟨events,r' | t⟩
    · rw [hrun] at herror
      rw [runBlock_error hrun] at hr hret ⊢
      cases hr
      obtain ⟨events',hrun',hthin⟩ := herror r rfl hret
      rw [←hstmts] at hrun'
      exact ⟨events',runBlock_error hrun',hthin⟩
    · rw [hrun] at hok
      obtain ⟨events',t',hrun',hag,hthin⟩ := hok t rfl
      rw [←hstmts] at hrun'
      have hbranch : Slotted (g.block p).s := (h.slotted p hp).2
      have hread : Agree other atom (Reads (g.block p).s) t t' := hag.mono fun a _ hr => .inl hr
      rcases h.straight.ends p with ⟨-,-,hclass⟩ | ⟨x,y,hx,hy,hclass,-⟩
      · have hnop : (g.block p).s.code≠nop := fun hnop => by
          rw [hnop] at hclass
          exact absurd hclass (by decide)
        have hjmp : BpfProgram.bpfClass (BpfProgram.uShort (g.block p).s.code)≠
            BpfProgram.bpfJmp := by
          rw [hclass]
          exact fun heq => by cases heq
        obtain ⟨r',hexec⟩ := M.ret _ (BpfProgram.uInt32 (g.block p).s.k) t hclass
        have hexec' := hM.error _ t t' r' hbranch hnop hread hexec
        rw [runBlock_return hrun hjmp hexec] at hr ⊢
        cases hr
        rw [←hs] at hjmp hexec' ⊢
        exact ⟨_,runBlock_return hrun' hjmp hexec',hthin.append (thins_nil.cons _)⟩
      · have hnop : (g.block p).s.code≠nop := fun hnop => by
          rw [hnop] at hclass
          exact absurd hclass (by decide)
        have htest := hM.test _ t t' hbranch hnop hread
        generalize htaken : M.test (BpfProgram.uShort (g.block p).s.code)
          (BpfProgram.uInt32 (g.block p).s.k) t=taken at htest
        rw [runBlock_branch hrun hclass htaken] at hr hret ⊢
        obtain ⟨c,hc,hsucc,hlower⟩ : ∃ c, (if taken then (g.block p).jt else (g.block p).jf)=
            some c ∧ c∈g.succ p ∧ g.rank c<g.rank p := by
          cases taken with
          | false => exact ⟨y,hy,BpfLayout.mem_succ.mpr (.inr hy),g.rank_jf p y hy⟩
          | true => exact ⟨x,hx,BpfLayout.mem_succ.mpr (.inl hx),g.rank_jt p x hx⟩
        rw [hc] at hr hret ⊢
        dsimp only at hr hret
        have hne := runBlock_ne_nil h.straight hr
        have hret' := (hret.of_append (List.cons_ne_nil _ _)).of_cons hne
        have hneeded : Agree other atom (fun a => Needed g a c) t t' :=
          hag.mono fun a ha hn => .inr (by rw [BitVec.testBit_toNat,hud p hp a ha]; exact ⟨c,hsucc,hn⟩)
        obtain ⟨more,hmore,hthin'⟩ := ih (g.rank c) hlower
          (hp.tail hsucc) hneeded hr hret' rfl
        rw [←hs] at hclass htest ⊢
        rw [←hjt,←hjf] at hc
        refine ⟨_,?_,hthin.append (hthin'.cons _)⟩
        rw [runBlock_branch hrun' hclass htest.symm,hc,hmore]

end Generated

end Run

/-- **The stores that are removed are not missed.** For every graph that the code generator can
make, `find_ud` ends, and `opt_deadstores` can go through all blocks with the fields it has set.
On every machine whose instructions read and write what `atomuse` and `atomdef` say, a filter
that comes to a return from any state comes to the same return without the stores that are
removed, with the same branches in the same order and no statement that it did not execute before. -/
theorem deadstores_returns (g : FlowGraph) (h : Generated g) (level : ℕ → ℕ) (ud : UdFields) :
    ∃ ud', findUd g level ud=.ok ud' ∧ (∃ g', Deadstored g ud' g') ∧ ∀ g', Deadstored g ud' g' →
      ∀ (σ ρ π β : Type) (M : Machine σ ρ) (other : σ → π) (atom : σ → ℕ → β),
        Atomic M other atom → ∀ s r, (M.runBlock g.toBlockGraph (some g.root) s).2=some r →
          Returns (M.runBlock g.toBlockGraph (some g.root) s).1 →
            ∃ events', M.runBlock g' (some g'.root) s=(events',some r) ∧
              Thins (M.runBlock g.toBlockGraph (some g.root) s).1 events' := by
  have hcode : ∀ p, g.Reached p → ∀ s∈codeOf (g.block p), Slotted s := by
    intro p hp s hs
    rcases List.mem_append.mp hs with hs | hs
    · exact (h.slotted p hp).1 s hs
    · split at hs
      · rw [List.mem_singleton.mp hs]
        exact (h.slotted p hp).2
      · exact absurd hs List.not_mem_nil
  obtain ⟨ud',hud',hall⟩ := findUd_needed g level ud hcode
  refine ⟨ud',hud',h.exists_deadstored ud',fun g' hg σ ρ π β M other atom hM s r hr hret => ?_⟩
  rw [hg.root]
  exact h.run hM hg (fun p hp a ha => (hall p hp a ha).2) .refl ⟨rfl,fun _ _ _ => rfl⟩ hr hret

/-! ## A machine of words -/

/-- What an instruction writes, for the packet and the values that it reads. -/
def wordValue (st : Stmt) (packet : List UInt8) (a x : ℕ) : ℕ :=
  if classOf st.code=bpfLd ∧ modeOf st.code=bpfAbs then (packet[st.k.toNat]?.map UInt8.toNat).getD 0
  else if modeOf st.code=bpfImm ∧ (classOf st.code=bpfLd ∨ classOf st.code=bpfLdx) then st.k.toNat
  else if classOf st.code=bpfAlu then a+if srcOf st.code=bpfX then x else st.k.toNat
  else a

/-- The values that a statement reads. -/
def wordArgs (st : Stmt) (atoms : ℕ → ℕ) : ℕ×ℕ :=
  match atomuse st with
  | none => (0,0)
  | some atom => if atom=axAtom then (atoms 16,atoms 17) else (atoms atom.toNat,0)

/-- A machine with the packet, the registers and the scratch memory, which loads, stores, adds
and compares for equality. -/
def wordMachine : Machine (List UInt8×(ℕ → ℕ)) ℕ where
  exec code k s :=
    let st : Stmt := ⟨code,none,none,k⟩
    if BpfProgram.bpfClass code=BpfProgram.bpfRet then
      .error (if atomuse st=none then k else (wordArgs st s.2).1)
    else
      match atomdef st with
      | none => .ok s
      | some atom => .ok (s.1,Function.update s.2 atom.toNat
          (wordValue st s.1 (wordArgs st s.2).1 (wordArgs st s.2).2))
  test code k s :=
    let st : Stmt := ⟨code,none,none,k⟩
    (wordArgs st s.2).1=if srcOf code=bpfX then (wordArgs st s.2).2 else k
  ret code k s h := ⟨_,if_pos h⟩

/-- The statement as the machine sees it. -/
def asWord (st : Stmt) : Stmt :=
  ⟨(BpfProgram.uShort st.code : ℤ),none,none,(BpfProgram.uInt32 st.k : ℤ)⟩

theorem uShort_cast (code : ℤ) : (BpfProgram.uShort code : ℤ)=code%65536 :=
  Int.toNat_of_nonneg (Int.emod_nonneg code (by decide))

/-- Codes are told apart by their lower bits. -/
theorem asWord_code (st : Stmt) : (asWord st).code≠nop ∧ classOf (asWord st).code=classOf st.code ∧
    modeOf (asWord st).code=modeOf st.code ∧ srcOf (asWord st).code=srcOf st.code ∧
    sizeBits (asWord st).code=sizeBits st.code ∧ miscOpOf (asWord st).code=miscOpOf st.code := by
  have hcode : (asWord st).code=st.code%65536 := uShort_cast st.code
  rw [hcode]
  refine ⟨?_,?_,?_,?_,?_,?_⟩
  · rw [nop]
    omega
  · rw [classOf,classOf]
    omega
  · rw [modeOf,modeOf]
    omega
  · rw [srcOf,srcOf]
    omega
  · rw [sizeBits,sizeBits]
    omega
  · rw [miscOpOf,miscOpOf]
    omega

theorem asWord_k {st : Stmt} (h : 0 ≤ st.k ∧ st.k<16) : (asWord st).k=st.k := by
  have hk : (asWord st).k=st.k%4294967296 := Int.toNat_of_nonneg (Int.emod_nonneg st.k (by decide))
  rw [hk]
  omega

theorem atomuse_asWord {st : Stmt} (h : Slotted st) (hnop : st.code≠nop) :
    atomuse (asWord st)=atomuse st := by
  obtain ⟨hnop',hclass,hmode,hsrc,hsize,hmisc⟩ := asWord_code st
  unfold atomuse
  rw [hclass,hmode,hsrc,hsize,hmisc,if_neg hnop',if_neg hnop]
  by_cases hmem : (classOf st.code=bpfLd ∨ classOf st.code=bpfLdx) ∧ modeOf st.code=bpfMem
  · rw [asWord_k (h (.inl hmem))]
  · split_ifs with _ _ _ hload _ hm
    all_goals first | rfl | exact absurd ⟨hload,hm⟩ hmem

theorem atomdef_asWord {st : Stmt} (h : Slotted st) (hnop : st.code≠nop) :
    atomdef (asWord st)=atomdef st := by
  obtain ⟨hnop',hclass,-,-,-,hmisc⟩ := asWord_code st
  unfold atomdef
  rw [hclass,hmisc,if_neg hnop',if_neg hnop]
  by_cases hstore : classOf st.code=bpfSt ∨ classOf st.code=bpfStx
  · rw [asWord_k (h (.inr hstore))]
  · simp only [if_neg hstore]

theorem wordArgs_congr {st : Stmt} (h : Slotted st) (hnop : st.code≠nop) {s s' : List UInt8×(ℕ → ℕ)}
    (hagree : Agree Prod.fst Prod.snd (Reads st) s s') :
    wordArgs (asWord st) s.2=wordArgs (asWord st) s'.2 := by
  rw [wordArgs,wordArgs,atomuse_asWord h hnop]
  rcases atomuse_cases h with hnone | hax | ⟨n,hn,hatom⟩
  · rw [hnone]
  · have h16 := hagree.2 16 (by decide) (.inr ⟨hax,.inl rfl⟩)
    have h17 := hagree.2 17 (by decide) (.inr ⟨hax,.inr rfl⟩)
    rw [hax]
    dsimp only
    rw [if_pos rfl,if_pos rfl,h16,h17]
  · have hnax : (n : ℤ)≠axAtom := fun heq => by
      rw [axAtom] at heq
      omega
    have hval := hagree.2 n hn (.inl ⟨hatom,hn⟩)
    rw [hatom]
    dsimp only
    rw [if_neg hnax,if_neg hnax,Int.toNat_natCast,hval]

theorem wordMachine_exec (st : Stmt) (s : List UInt8×(ℕ → ℕ)) :
    wordMachine.exec (BpfProgram.uShort st.code) (BpfProgram.uInt32 st.k) s=
      if BpfProgram.bpfClass (BpfProgram.uShort st.code)=BpfProgram.bpfRet then
        .error (if atomuse (asWord st)=none then BpfProgram.uInt32 st.k
          else (wordArgs (asWord st) s.2).1)
      else
        match atomdef (asWord st) with
        | none => .ok s
        | some atom => .ok (s.1,Function.update s.2 atom.toNat
            (wordValue (asWord st) s.1 (wordArgs (asWord st) s.2).1 (wordArgs (asWord st) s.2).2)) :=
  rfl

theorem wordMachine_atomic : Atomic wordMachine Prod.fst Prod.snd := by
  refine ⟨fun st s s' t h hnop hagree hexec => ?_,fun st s s' r h hnop hagree hexec => ?_,
    fun st s t h hnop hexec => ?_,fun st s s' h hnop hagree => ?_⟩
  · have hargs := wordArgs_congr h hnop hagree
    have hpacket : s.1=s'.1 := hagree.1
    rw [wordMachine_exec] at hexec ⊢
    split_ifs at hexec with hret
    rw [if_neg hret]
    cases hdef : atomdef (asWord st) with
    | none =>
      rw [hdef] at hexec
      cases hexec
      refine ⟨s',rfl,fun a ha => ?_⟩
      rw [atomdef_asWord h hnop] at hdef
      cases hdef.symm.trans ha
    | some atom =>
      rw [hdef] at hexec
      cases hexec
      refine ⟨_,rfl,fun a ha => ?_⟩
      rw [atomdef_asWord h hnop] at hdef
      have hatom : atom=(a : ℤ) := Option.some.inj (hdef.symm.trans ha)
      rw [hatom,Int.toNat_natCast]
      dsimp only
      rw [Function.update_self,Function.update_self,hargs,hpacket]
  · have hargs := wordArgs_congr h hnop hagree
    rw [wordMachine_exec] at hexec ⊢
    by_cases hret : BpfProgram.bpfClass (BpfProgram.uShort st.code)=BpfProgram.bpfRet
    · rw [if_pos hret] at hexec ⊢
      rw [←hargs]
      exact hexec
    · rw [if_neg hret] at hexec
      cases hdef : atomdef (asWord st) with
      | none =>
        rw [hdef] at hexec
        cases hexec
      | some atom =>
        rw [hdef] at hexec
        cases hexec
  · rw [wordMachine_exec] at hexec
    split_ifs at hexec with hret
    cases hdef : atomdef (asWord st) with
    | none =>
      rw [hdef] at hexec
      cases hexec
      exact ⟨rfl,fun _ _ => rfl⟩
    | some atom =>
      rw [hdef] at hexec
      cases hexec
      refine ⟨rfl,fun a ha => Function.update_of_ne (fun heq => ha ?_) _ _⟩
      rcases atomdef_cases h with hnone | ⟨n,-,hn⟩
      · rw [atomdef_asWord h hnop,hnone] at hdef
        cases hdef
      · rw [atomdef_asWord h hnop,hn] at hdef
        obtain rfl := Option.some.inj hdef
        rw [Int.toNat_natCast] at heq
        rw [heq]
        exact hn
  · have hargs := wordArgs_congr h hnop hagree
    have htest : ∀ s : List UInt8×(ℕ → ℕ),
        wordMachine.test (BpfProgram.uShort st.code) (BpfProgram.uInt32 st.k) s=
          decide ((wordArgs (asWord st) s.2).1=if srcOf (asWord st).code=bpfX then
            (wordArgs (asWord st) s.2).2 else BpfProgram.uInt32 st.k) := fun _ => rfl
    rw [htest,htest,hargs]

/-- The filter that stores a byte which it never looks at again. -/
def wastingFilter : FlowGraph where
  block
    | 0 => ⟨[⟨0x30,none,none,9⟩,⟨0x02,none,none,3⟩,⟨0x30,none,none,0⟩],⟨0x15,none,none,69⟩,
        some 1,some 2,0,0⟩
    | 1 => ⟨[],⟨6,none,none,96⟩,none,none,0,0⟩
    | _ => ⟨[],⟨6,none,none,0⟩,none,none,0,0⟩
  root := 0
  rank p := 1-p
  rank_jt p c h := by
    match p with
    | 0 =>
      cases h
      decide
    | 1 => cases h
    | p+2 => cases h
  rank_jf p c h := by
    match p with
    | 0 =>
      cases h
      decide
    | 1 => cases h
    | p+2 => cases h
  both p := by
    match p with
    | 0 => exact ⟨nofun,nofun⟩
    | 1 => exact Iff.rfl
    | p+2 => exact Iff.rfl

theorem generated_wastingFilter : Generated wastingFilter := by
  refine ⟨⟨fun p st hst => ?_,fun p => ?_⟩,fun p _ => ?_,fun p _ hjt => ?_⟩
  · match p with
    | 0 =>
      simp only [wastingFilter,List.mem_cons,List.not_mem_nil,or_false] at hst
      rcases hst with rfl | rfl | rfl
      all_goals decide
    | 1 => cases hst
    | p+2 => cases hst
  · match p with
    | 0 => exact .inr ⟨1,2,rfl,rfl,rfl,by decide⟩
    | 1 => exact .inl ⟨rfl,rfl,rfl⟩
    | p+2 => exact .inl ⟨rfl,rfl,rfl⟩
  · match p with
    | 0 => decide
    | 1 => decide
    | p+2 =>
      have hret : Slotted ⟨6,none,none,0⟩ := by decide
      exact ⟨fun st hst => absurd hst List.not_mem_nil,hret⟩
  · match p with
    | 0 => cases hjt
    | 1 => rfl
    | p+2 => rfl

/-- The packet of the example, with the states of the registers at the start. -/
def wordStart : List UInt8×(ℕ → ℕ) := ([69,0,0,60,0,0,0,0,64,6],fun _ => 0)

theorem deadstores_returns_wasting : ∃ ud' g' events',
    findUd wastingFilter (fun _ => 0) ⟨fun _ => 0,fun _ => 0,fun _ => 0,fun _ => 0⟩=.ok ud' ∧
      Deadstored wastingFilter ud' g' ∧
      wordMachine.runBlock g' (some g'.root) wordStart=(events',some 96) := by
  obtain ⟨ud',hud',⟨g',hg'⟩,hall⟩ := deadstores_returns wastingFilter generated_wastingFilter
    (fun _ => 0) ⟨fun _ => 0,fun _ => 0,fun _ => 0,fun _ => 0⟩
  have hrun : wordMachine.runBlock wastingFilter.toBlockGraph (some 0) wordStart=
      ([.stmt 0x30 9,.stmt 0x02 3,.stmt 0x30 0,.branch 0x15 69 true,.stmt 6 96],some 96) := by
    obtain ⟨t,hstmts,htest⟩ : ∃ t, wordMachine.runStmts (wastingFilter.block 0).stmts wordStart=
        ([.stmt 0x30 9,.stmt 0x02 3,.stmt 0x30 0],.ok t) ∧ wordMachine.test 0x15 69 t=true :=
      ⟨_,rfl,rfl⟩
    have hclass : BpfProgram.bpfClass (BpfProgram.uShort (wastingFilter.block 1).s.code)≠
        BpfProgram.bpfJmp := by decide
    have hnext : wordMachine.runBlock wastingFilter.toBlockGraph (some 1) t=([.stmt 6 96],some 96) :=
      runBlock_return rfl hclass rfl
    rw [runBlock_branch hstmts rfl htest]
    exact congrArg (fun r : List Event×Option ℕ => (_++_::r.1,r.2)) hnext
  have hreturns : Returns (wordMachine.runBlock wastingFilter.toBlockGraph (some 0) wordStart).1 := by
    rw [hrun]
    exact ⟨[.stmt 0x30 9,.stmt 0x02 3,.stmt 0x30 0,.branch 0x15 69 true],6,96,rfl,rfl⟩
  obtain ⟨events',hrun',-⟩ := hall g' hg' _ _ _ _ wordMachine Prod.fst Prod.snd
    wordMachine_atomic wordStart 96 (congrArg Prod.snd hrun) hreturns
  exact ⟨ud',g',events',hud',hg',hrun'⟩

end AndroidPlatform.BpfDeadStores
