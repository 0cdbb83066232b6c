import AndroidPlatform.BpfDeadStores
import AndroidPlatform.NumberedValues

/-!
# What the value numbers stand for

`opt_stmt` of `optimize.c` gives a number to the value of every statement,
removes a statement that puts into an atom what is there already, and replaces
one whose operands are constants. A number stands for one value of the packet
throughout, so that the statements it leaves do to every machine what the
statements of the block did.
-/

namespace AndroidPlatform.BpfNumbering

open BpfProgram (Stmt nop Machine)
open BpfPeephole BpfValues BpfLiveness LiveVariables NumberedValues
open BpfDeadStores (asWord asWord_k atomdef_asWord atomuse_asWord uShort_cast)
open CInteger CountedResource

/-! ## The machine -/

/-- The cases of the `switch` of `opt_stmt`. -/
inductive Kind
  | abs | ind | len | imm | immX | msh | neg | aluK | aluX | txa | mem | tax | memX | st | stx
  | other
  deriving DecidableEq

/-- The case of a code. -/
def kindOf (code : ℤ) : Kind :=
  if code∈sized (bpfLd+bpfAbs) then .abs
  else if code∈sized (bpfLd+bpfInd) then .ind
  else if code=bpfLd+bpfLen then .len
  else if code=bpfLd+bpfImm then .imm
  else if code=bpfLdx+bpfImm then .immX
  else if code=bpfLdx+bpfMsh+bpfB then .msh
  else if code=bpfAlu+bpfNeg then .neg
  else if code∈aluOps.map (fun op => bpfAlu+op+bpfK) then .aluK
  else if code∈aluOps.map (fun op => bpfAlu+op+bpfX) then .aluX
  else if code=bpfMisc+bpfTxa then .txa
  else if code=bpfLd+bpfMem then .mem
  else if code=bpfMisc+bpfTax then .tax
  else if code=bpfLdx+bpfMem then .memX
  else if code=bpfSt then .st
  else if code=bpfStx then .stx
  else .other

/-- An operation on two words; nothing where it divides by zero. -/
def arith (op : ℤ) (a b : ℕ) : Option ℕ := (foldValue op a b).toOption

/-- What a statement puts in the atom that it writes, on a packet that is read
with `fetch`: nothing where the filter ends, since the packet is too short or
a zero divides. -/
def compute (fetch : ℤ → ℕ → Option ℕ) (s : Stmt) (reg : ℕ → ℕ) : Option ℕ :=
  match kindOf s.code with
  | .abs | .msh => fetch s.code (toU32 s.k)
  | .ind => fetch (bpfLd+bpfAbs+sizeBits s.code) (toU32 (s.k+reg 17))
  | .len => fetch s.code 0
  | .imm | .immX => some (toU32 s.k)
  | .neg => some (toU32 (-reg 16))
  | .aluK => arith (opOf s.code) (reg 16) (toU32 s.k)
  | .aluX => arith (opOf s.code) (reg 16) (reg 17)
  | .txa | .stx => some (reg 17)
  | .mem | .memX => some (reg s.k.toNat)
  | .tax | .st => some (reg 16)
  | .other => none

/-- A machine for filters: its states are a packet and words in the atoms, and
a statement puts its value in the atom that it writes, or ends the filter. -/
structure Computes {σ ρ π : Type} (M : Machine σ ρ) (packet : σ → π) (reg : σ → ℕ → ℕ)
    (fetch : π → ℤ → ℕ → Option ℕ) (reject : ρ) : Prop where
  /-- There is nothing else in a state. -/
  ext : ∀ s t, packet s=packet t → reg s=reg t → s=t
  /-- The atoms hold words. -/
  word : ∀ s a, reg s a < 2^32
  /-- A statement without a value ends the filter. -/
  none : ∀ st s, kindOf st.code≠.other → Slotted st → compute (fetch (packet s)) st (reg s)=none →
    M.exec (BpfProgram.uShort st.code) (BpfProgram.uInt32 st.k) s=.error reject
  /-- Any other statement writes its value. -/
  some : ∀ st s a w, kindOf st.code≠.other → Slotted st → Writes st a →
    compute (fetch (packet s)) st (reg s)=some w →
    ∃ t, M.exec (BpfProgram.uShort st.code) (BpfProgram.uInt32 st.k) s=.ok t ∧
      packet t=packet s ∧ reg t=Function.update (reg s) a w

/-! ## The numbers -/

/-- The numbers that a value refers to. -/
def operandsOf (code v0 v1 : ℤ) : List ℕ :=
  match kindOf code with
  | .ind => [v1.toNat]
  | .neg => [v0.toNat]
  | .aluK | .aluX => [v0.toNat,v1.toNat]
  | _ => []

/-- What a value of `F` stands for: a constant, a part of the packet, or the
result of an operation. -/
def meaningOf (fetch : ℤ → ℕ → Option ℕ) (den : ℕ → Option ℕ) (code v0 v1 : ℤ) : Option ℕ :=
  if loadsConst code then some (toU32 v0)
  else
    match kindOf code with
    | .ind => (den v1.toNat).bind fun x => fetch (bpfLd+bpfAbs+sizeBits code) (toU32 (v0+x))
    | .neg => (den v0.toNat).map fun a => toU32 (-a)
    | .aluK | .aluX =>
      (den v0.toNat).bind fun a => (den v1.toNat).bind fun b => arith (opOf code) a b
    | _ => fetch code (toU32 v0)

/-- The values of the optimiser as operations on numbers. -/
def operations (fetch : ℤ → ℕ → Option ℕ) : Operations (ℤ×ℤ×ℤ) ℕ where
  operands n := operandsOf n.1 n.2.1 n.2.2
  meaning den n := meaningOf fetch den n.1 n.2.1 n.2.2
  congr den den' n h := by
    rw [meaningOf,meaningOf]
    dsimp only [operandsOf] at h
    split
    · rfl
    · cases hkind : kindOf n.1 <;> simp only [hkind,List.forall_mem_cons] at h ⊢
      · rw [h.1]
      · rw [h.1]
      · rw [h.1,h.2.1]
      · rw [h.1,h.2.1]

/-- The entries of the hash table. -/
def tableOf (g : Globals) (n : ℤ×ℤ×ℤ) (v : ℕ) : Prop :=
  ∃ h, ∃ p∈g.hashtbl h, (p.code,p.v0,p.v1)=n ∧ p.val=v

/-- The numbers handed out so far stand for values of the packet. -/
structure Meant (fetch : ℤ → ℕ → Option ℕ) (den : ℕ → Option ℕ) (g : Globals) : Prop where
  table : Describes (operations fetch) (tableOf g) g.curval den
  /-- `vmap` knows constants. -/
  const : ∀ v c, g.vmap v=some c → v ≤ g.curval ∧ den v=some (toU32 c)
  /-- It knows all that are in the table. -/
  loads : ∀ code v0 v1 v, tableOf g (code,v0,v1) v → loadsConst code → g.vmap v=some v0

/-- The atoms hold what their numbers stand for, unless nothing is known. -/
def Holds (den : ℕ → Option ℕ) (val : Vals) (reg : ℕ → ℕ) : Prop :=
  ∀ a : ℕ, a<18 → val a≠0 → den (val a)=some (reg a)

/-- The numbers of the atoms have been handed out. -/
def Handed (g : Globals) (val : Vals) : Prop := ∀ a, val a ≤ g.curval

variable {maxval : ℕ} {fetch : ℤ → ℕ → Option ℕ} {den : ℕ → Option ℕ} {g g' : Globals}

/-- A successful run of two parts one after the other. -/
theorem exec_bind_eq_ok {α β : Type} {m : Opt α} {f : α → Opt β} {b : β}
    (h : exec (m >>= f) g=(.ok b,g')) :
    ∃ a g1, exec m g=(.ok a,g1) ∧ exec (f a) g1=(.ok b,g') := by
  rw [exec_bind] at h
  rcases hm : exec m g with ⟨e | a,g1⟩
  · rw [hm] at h
    cases h
  · rw [hm] at h
    exact ⟨a,g1,rfl,h⟩

/-- What a part of the optimiser leaves: more numbers, and the old ones as they
were. -/
structure More (fetch : ℤ → ℕ → Option ℕ) (den : ℕ → Option ℕ) (g : Globals)
    (den' : ℕ → Option ℕ) (g' : Globals) : Prop where
  ext : Extends g.curval den den'
  le : g.curval ≤ g'.curval
  vmap : ∀ v, v ≤ g.curval → g'.vmap v=g.vmap v
  meant : Meant fetch den' g'

theorem More.refl (h : Meant fetch den g) : More fetch den g den g :=
  ⟨.refl _ _,le_rfl,fun _ _ => rfl,h⟩

theorem More.trans {den' den'' : ℕ → Option ℕ} {g'' : Globals}
    (h : More fetch den g den' g') (h' : More fetch den' g' den'' g'') :
    More fetch den g den'' g'' :=
  ⟨h.ext.trans h'.ext h.le,h.le.trans h'.le,
    fun v hv => (h'.vmap v (hv.trans h.le)).trans (h.vmap v hv),h'.meant⟩

/-- The atoms keep what their numbers stand for. -/
theorem More.holds {den' : ℕ → Option ℕ} (h : More fetch den g den' g') {val : Vals}
    (hval : Handed g val) {reg : ℕ → ℕ} : Holds den val reg ↔ Holds den' val reg :=
  forall₃_congr fun a _ _ => by rw [h.ext _ (hval a)]

/-- A new entry of the hash table. -/
theorem tableOf_insert (g : Globals) (p : Valnode) (n : ℤ×ℤ×ℤ) (v : ℕ) (h : ℕ) :
    (∃ i, ∃ q∈Function.update g.hashtbl h (p::g.hashtbl h) i,
        (q.code,q.v0,q.v1)=n ∧ q.val=v) ↔
      tableOf g n v ∨ n=(p.code,p.v0,p.v1) ∧ v=p.val := by
  constructor
  · rintro ⟨i,q,hq,hn,hv⟩
    by_cases hi : i=h
    · subst hi
      rw [Function.update_self] at hq
      rcases List.mem_cons.mp hq with rfl | hq
      · exact .inr ⟨hn.symm,hv.symm⟩
      · exact .inl ⟨i,q,hq,hn,hv⟩
    · rw [Function.update_of_ne hi] at hq
      exact .inl ⟨i,q,hq,hn,hv⟩
  · rintro (⟨i,q,hq,hn,hv⟩ | ⟨rfl,rfl⟩)
    · refine ⟨i,q,?_,hn,hv⟩
      by_cases hi : i=h
      · subst hi
        rw [Function.update_self]
        exact List.mem_cons_of_mem _ hq
      · rwa [Function.update_of_ne hi]
    · exact ⟨h,p,by rw [Function.update_self]; exact List.mem_cons_self,rfl,rfl⟩

/-- `F` gives a number to a value of known operands, and it stands for that value. -/
theorem Meant.F (hg : Meant fetch den g) {code v0 v1 : ℤ} {v : ℕ}
    (hops : ∀ w∈operandsOf code v0 v1, w≠0 ∧ w ≤ g.curval)
    (hrun : exec (F maxval code v0 v1) g=(.ok v,g')) :
    ∃ den', More fetch den g den' g' ∧ v≠0 ∧ v ≤ g'.curval ∧
      den' v=meaningOf fetch den' code v0 v1 ∧ tableOf g' (code,v0,v1) v := by
  rw [exec,BpfValues.F] at hrun
  cases hfind : (g.hashtbl (hashOf code v0 v1)).find?
      fun p => p.code==code && p.v0==v0 && p.v1==v1 with
  | some p =>
    rw [hfind] at hrun
    dsimp only at hrun
    obtain ⟨hv,rfl⟩ := Prod.mk.inj hrun
    have hv := Except.ok.inj hv
    have hkey := List.find?_some hfind
    simp only [Bool.and_eq_true,beq_iff_eq] at hkey
    have htable : tableOf g (code,v0,v1) v :=
      ⟨_,p,List.mem_of_find?_eq_some hfind,by rw [hkey.1.1,hkey.1.2,hkey.2],hv⟩
    obtain ⟨hpos,hle,-⟩ := hg.table.bounded _ _ htable
    exact ⟨den,⟨.refl _ _,le_rfl,fun _ _ => rfl,⟨hg.table,hg.const,hg.loads⟩⟩,hpos,hle,
      hg.table.meant _ _ htable fun w hw => (hops w hw).1,htable⟩
  | none =>
    rw [hfind] at hrun
    dsimp only at hrun
    split at hrun
    · cases hrun
    · split at hrun
      · cases hrun
      · obtain ⟨hv,rfl⟩ := Prod.mk.inj hrun
        have hv := Except.ok.inj hv
        subst hv
        obtain ⟨hext,hnew,hdescribes⟩ := hg.table.insert (n:=(code,v0,v1))
          fun w hw => (hops w hw).2
        have hvmap : ∀ w, w ≤ g.curval → (if loadsConst code then
            Function.update g.vmap (g.curval+1) (some v0) else g.vmap) w=g.vmap w := by
          intro w hw
          split
          · exact Function.update_of_ne (by omega) _ _
          · rfl
        refine ⟨_,⟨hext,Nat.le_succ _,hvmap,⟨?_,fun w c hc => ?_,fun c w0 w1 w hw hload => ?_⟩⟩,
          Nat.succ_ne_zero _,le_rfl,hnew,
          (tableOf_insert g ⟨code,v0,v1,g.curval+1⟩ _ _ _).mpr (.inr ⟨rfl,rfl⟩)⟩
        · have htable := funext fun n => funext fun w => propext
            (tableOf_insert g ⟨code,v0,v1,g.curval+1⟩ n w (hashOf code v0 v1))
          dsimp only at hdescribes htable
          rw [←htable] at hdescribes
          exact hdescribes
        · have hcase : w=g.curval+1 ∧ loadsConst code ∧ c=v0 ∨ g.vmap w=some c := by
            dsimp only at hc
            split at hc
            · next hload =>
              by_cases hw : w=g.curval+1
              · rw [hw,Function.update_self] at hc
                exact .inl ⟨hw,hload,(Option.some.inj hc).symm⟩
              · rw [Function.update_of_ne hw] at hc
                exact .inr hc
            · exact .inr hc
          rcases hcase with ⟨rfl,hload,rfl⟩ | hold
          · refine ⟨le_rfl,hnew.trans ?_⟩
            exact if_pos hload
          · obtain ⟨hle,hden⟩ := hg.const w c hold
            exact ⟨Nat.le_succ_of_le hle,(hext w hle).trans hden⟩
        · rcases (tableOf_insert g ⟨code,v0,v1,g.curval+1⟩ _ w (hashOf code v0 v1)).mp hw with
            hw | ⟨hn,rfl⟩
          · obtain ⟨-,hle,-⟩ := hg.table.bounded _ _ hw
            exact (hvmap w hle).trans (hg.loads c w0 w1 w hw hload)
          · obtain ⟨rfl,hn⟩ := Prod.mk.inj hn
            obtain ⟨rfl,-⟩ := Prod.mk.inj hn
            dsimp only
            rw [if_pos hload,Function.update_self]

/-- A constant has a number that stands for it. -/
theorem Meant.K (hg : Meant fetch den g) {i : ℤ} {v : ℕ}
    (hrun : exec (K maxval i) g=(.ok v,g')) :
    ∃ den', More fetch den g den' g' ∧ v≠0 ∧ v ≤ g'.curval ∧ den' v=some (toU32 i) ∧
      g'.vmap v=some i := by
  have hops : ∀ w∈operandsOf (bpfLd+bpfImm+bpfW) i 0, w≠0 ∧ w ≤ g.curval := by
    intro w hw
    cases hw
  obtain ⟨den',hmore,hpos,hle,hden,htable⟩ := hg.F hops hrun
  exact ⟨den',hmore,hpos,hle,hden.trans (if_pos (by decide)),
    hmore.meant.loads _ _ _ _ htable (by decide)⟩

/-- What is found in `vmap`. -/
theorem vmapAt_eq_ok {v : ℕ} {c : Option ℤ} (hrun : exec (vmapAt maxval v) g=(.ok c,g')) :
    g'=g ∧ c=g.vmap v := by
  rw [exec,vmapAt] at hrun
  split at hrun
  · obtain ⟨hc,rfl⟩ := Prod.mk.inj hrun
    exact ⟨rfl,(Except.ok.inj hc).symm⟩
  · cases hrun

theorem constIf_eq_ok {alter : Bool} {v : ℕ} {c : Option ℤ}
    (hrun : exec (constIf maxval alter v) g=(.ok c,g')) :
    g'=g ∧ ∀ i, c=some i → g.vmap v=some i := by
  rw [BpfValues.constIf] at hrun
  split at hrun
  · obtain ⟨rfl,rfl⟩ := vmapAt_eq_ok hrun
    exact ⟨rfl,fun _ => id⟩
  · rw [exec_pure] at hrun
    obtain ⟨hc,rfl⟩ := Prod.mk.inj hrun
    refine ⟨rfl,fun i hi => ?_⟩
    rw [←Except.ok.inj hc] at hi
    cases hi

theorem notDone_eq_ok {u : Unit} (hrun : exec notDone g=(.ok u,g')) :
    g'={ g with done:=false } := by
  rw [notDone,exec_modify] at hrun
  exact (Prod.mk.inj hrun).2.symm

theorem Meant.notDone (hg : Meant fetch den g) {u : Unit}
    (hrun : exec notDone g=(.ok u,g')) : More fetch den g den g' := by
  rw [notDone_eq_ok hrun]
  exact ⟨.refl _ _,le_rfl,fun _ _ => rfl,⟨hg.table,hg.const,hg.loads⟩⟩

/-! ## The effect of a statement -/

/-- What a statement makes of the atoms; nothing where the filter ends. -/
def Effect (fetch : ℤ → ℕ → Option ℕ) (s : Stmt) (reg reg' : ℕ → ℕ) : Prop :=
  s.code=nop ∧ reg'=reg ∨ kindOf s.code≠.other ∧
    ∃ a w, Writes s a ∧ compute fetch s reg=some w ∧ reg'=Function.update reg a w

/-- A division by the index register, which is zero. -/
def Divides (s : Stmt) (reg : ℕ → ℕ) : Prop := s.code=bpfAlu+bpfDiv+bpfX ∧ reg 17=0

/-- A statement that `opt_stmt` knows, or none. -/
def Plain (s : Stmt) : Prop := (s.code=nop ∨ kindOf s.code≠.other) ∧ Slotted s

instance : DecidablePred Plain := fun s => inferInstanceAs <| Decidable <|
  (s.code=nop ∨ kindOf s.code≠.other) ∧ Slotted s

theorem slotted_nop (s : Stmt) : Slotted { s with code:=nop } := by
  intro h
  dsimp only at h
  exact absurd h (by decide)

/-- Zero divides nothing. -/
theorem compute_of_divides {s : Stmt} {reg : ℕ → ℕ} (h : Divides s reg) :
    compute fetch s reg=none := by
  have hkind : kindOf s.code=.aluX := by
    rw [h.1]
    decide
  have hop : opOf s.code=bpfDiv := by
    rw [h.1]
    decide
  rw [compute,hkind]
  dsimp only
  rw [arith,hop,h.2]
  rfl

/-- How `opt_stmt` treats a statement: its atoms have numbers behind it, and in
every state that the numbers describe the statement it leaves has the same effect. -/
def Follows (fetch : ℤ → ℕ → Option ℕ) (den : ℕ → Option ℕ) (g : Globals) (s : Stmt)
    (val : Vals) (r : Stmt×Vals) (g' : Globals) : Prop :=
  ∃ den', More fetch den g den' g' ∧ Handed g' r.2 ∧ Plain r.1 ∧
    (∀ a : ℕ, Writes s a → r.2 a≠0) ∧ (∀ a : ℕ, ¬Writes s a → r.2 a=val a) ∧
    ∀ reg : ℕ → ℕ, (∀ a, reg a < 2^32) → Holds den val reg →
      (∀ reg', Effect fetch s reg reg' → Effect fetch r.1 reg reg' ∧ Holds den' r.2 reg') ∧
      (Divides s reg ∨ ∀ reg', Effect fetch r.1 reg reg' → Effect fetch s reg reg')

/-- The number of the value of a statement, and a statement with the same value. -/
structure Valued (fetch : ℤ → ℕ → Option ℕ) (den' : ℕ → Option ℕ) (s s₁ : Stmt) (val : Vals)
    (d v : ℕ) : Prop where
  kind : kindOf s.code≠.other
  writes : Writes s d
  kind₁ : kindOf s₁.code≠.other
  slotted₁ : Slotted s₁
  writes₁ : Writes s₁ d
  number : v≠0
  value : ∀ reg : ℕ → ℕ, (∀ a, reg a < 2^32) → Holds den' val reg →
    (compute fetch s reg=den' v ∨ Divides s reg) ∧ compute fetch s₁ reg=den' v

section Follows

variable {den' : ℕ → Option ℕ} {s s₁ : Stmt} {val : Vals} {d v : ℕ} {alter : Bool}

theorem nop_not_kind (hkind : kindOf s.code≠.other) : s.code≠nop := by
  intro hnop
  rw [hnop] at hkind
  exact hkind (by decide)

/-- The statement that is left is executed. -/
theorem Valued.assign (h : Valued fetch den' s s₁ val d v) (hmore : More fetch den g den' g')
    (hval : Handed g val) (hv : v ≤ g'.curval) :
    Follows fetch den g s val (s₁,Function.update val d v) g' := by
  refine ⟨den',hmore,fun a => ?_,⟨.inr h.kind₁,h.slotted₁⟩,fun a ha => ?_,fun a ha => ?_,
    fun reg hword hholds => ?_⟩
  · dsimp only
    by_cases ha : a=d
    · subst ha
      rw [Function.update_self]
      exact hv
    · rw [Function.update_of_ne ha]
      exact (hval a).trans hmore.le
  · dsimp only
    rw [ha.unique h.writes,Function.update_self]
    exact h.number
  · have hne : (a : ℤ)≠d := fun he => ha (Int.ofNat_inj.mp he ▸ h.writes)
    exact Function.update_of_ne hne _ _
  · obtain ⟨hs,hs₁⟩ := h.value reg hword ((hmore.holds hval).mp hholds)
    refine ⟨fun reg' heffect => ?_,hs.symm.imp_right fun hs reg' heffect => ?_⟩
    · rcases heffect with ⟨hnop,-⟩ | ⟨-,a,w,ha,hw,rfl⟩
      · exact absurd hnop (nop_not_kind h.kind)
      · obtain rfl := ha.unique h.writes
        have hden : den' v=some w := by
          rcases hs with hs | hs
          · exact hs.symm.trans hw
          · cases (compute_of_divides hs).symm.trans hw
        refine ⟨.inr ⟨h.kind₁,_,w,h.writes₁,hs₁.trans hden,rfl⟩,fun b hb hne => ?_⟩
        dsimp only at hne ⊢
        by_cases hba : b=a
        · subst hba
          rw [Function.update_self,Function.update_self,hden]
        · rw [Function.update_of_ne (fun he => hba (Nat.cast_inj.mp he))] at hne ⊢
          rw [Function.update_of_ne hba]
          exact (hmore.holds hval).mp hholds b hb hne
    · rcases heffect with ⟨hnop,-⟩ | ⟨-,a,w,ha,hw,rfl⟩
      · exact absurd hnop (nop_not_kind h.kind₁)
      · obtain rfl := ha.unique h.writes₁
        exact .inr ⟨h.kind,_,w,h.writes,hs.trans (hs₁.symm.trans hw),rfl⟩

/-- A statement that puts into an atom what it holds is removed. -/
theorem follows_nop (hkind : kindOf s.code≠.other) (hwrites : Writes s d) (hd : d<18)
    (hmore : More fetch den g den' g') (hval : Handed g val) (hnumber : val d≠0)
    (hvalue : ∀ reg : ℕ → ℕ, (∀ a, reg a < 2^32) → Holds den' val reg →
      compute fetch s reg=some (reg d) ∨ Divides s reg) (s₁ : Stmt) :
    Follows fetch den g s val ({ s₁ with code:=nop },val) g' := by
  refine ⟨den',hmore,fun a => (hval a).trans hmore.le,⟨.inl rfl,slotted_nop s₁⟩,fun a ha => ?_,
    fun a _ => rfl,fun reg hword hholds => ?_⟩
  · rw [ha.unique hwrites]
    exact hnumber
  · have hholds' := (hmore.holds hval).mp hholds
    refine ⟨fun reg' heffect => ?_,(hvalue reg hword hholds').symm.imp_right
      fun hs reg' heffect => ?_⟩
    · rcases heffect with ⟨hnop,-⟩ | ⟨-,a,w,ha,hw,rfl⟩
      · exact absurd hnop (nop_not_kind hkind)
      · obtain rfl := ha.unique hwrites
        rcases hvalue reg hword hholds' with hs | hs
        · have hsame : w=reg a := Option.some.inj (hw.symm.trans hs)
          rw [hsame,Function.update_eq_self]
          exact ⟨.inl ⟨rfl,rfl⟩,hholds'⟩
        · cases (compute_of_divides hs).symm.trans hw
    · rcases heffect with ⟨-,hreg⟩ | ⟨hnop,-⟩
      · exact .inr ⟨hkind,d,reg d,hwrites,hs,hreg.trans (Function.update_eq_self _ _).symm⟩
      · exact absurd (by decide : kindOf nop=.other) hnop

/-- What `vstore` leaves. -/
theorem Valued.vstore (h : Valued fetch den' s s₁ val d v) (hd : d<18)
    (hmore : More fetch den g den' g') (hval : Handed g val) (hv : v ≤ g'.curval) :
    Follows fetch den g s val (BpfValues.vstore s₁ val d v alter) g' := by
  rw [BpfValues.vstore]
  split
  · next hsame =>
    have hnumber : val d≠0 := hsame.2 ▸ h.number
    refine follows_nop h.kind h.writes hd hmore hval hnumber ?_ s₁
    intro reg hword hholds
    have hden := hholds d hd hnumber
    rw [hsame.2] at hden
    exact (h.value reg hword hholds).1.imp_left fun hs => hs.trans hden
  · exact h.assign hmore hval hv

end Follows

/-! ## The cases of `opt_stmt` -/

theorem pure_eq_ok {α : Type} {a b : α} (h : exec (pure a : Opt α) g=(.ok b,g')) :
    b=a ∧ g'=g := by
  rw [exec_pure] at h
  obtain ⟨ha,hg⟩ := Prod.mk.inj h
  exact ⟨(Except.ok.inj ha).symm,hg.symm⟩

theorem writes_a {s : Stmt} (hnop : s.code≠nop)
    (hclass : classOf s.code=bpfLd ∨ classOf s.code=bpfAlu) : Writes s 16 := by
  rw [Writes,atomdef,if_neg hnop,if_pos hclass]
  rfl

theorem writes_x {s : Stmt} (h : classOf s.code=bpfLdx) (hnop : s.code≠nop) : Writes s 17 := by
  rw [Writes,atomdef,if_neg hnop,if_neg (by rw [h]; decide),if_pos h]
  rfl

/-- A statement without a scratch register. -/
theorem slotted_of_code {s : Stmt} (h : ¬((classOf s.code=bpfLd ∨ classOf s.code=bpfLdx) ∧
    modeOf s.code=bpfMem ∨ classOf s.code=bpfSt ∨ classOf s.code=bpfStx)) : Slotted s :=
  fun hslot => absurd hslot h

theorem toU32_toInt (n : ℤ) : toU32 (toInt n)=toU32 n := by
  rw [toU32,toU32,toInt,BitVec.toInt_ofInt]
  congr 1
  exact Int.bmod_emod

theorem toU32_add_toU32 (k c : ℤ) : toU32 (k+(toU32 c : ℕ))=toU32 (k+c) := by
  simp only [toU32]
  omega

theorem toU32_neg_toU32 (c : ℤ) : toU32 (-(toU32 c : ℕ))=toU32 (-c) := by
  simp only [toU32]
  omega

theorem toU32_lt (n : ℤ) : toU32 n < 2^32 := by
  simp only [toU32]
  omega

theorem toU32_natCast {n : ℕ} (h : n < 2^32) : toU32 n=n := by
  simp only [toU32]
  omega

section Cases

variable {s : Stmt} {val : Vals} {alter : Bool} {r : Stmt×Vals}

/-- The number of a value, before the statement is chosen. -/
theorem Meant.F_valued (hg : Meant fetch den g) {s₁ : Stmt} {d : ℕ}
    {code v0 v1 : ℤ} {v : ℕ} (hkind : kindOf s.code≠.other) (hwrites : Writes s d)
    (hkind₁ : kindOf s₁.code≠.other) (hslotted₁ : Slotted s₁) (hwrites₁ : Writes s₁ d)
    (hops : ∀ w∈operandsOf code v0 v1, w≠0 ∧ w ≤ g.curval)
    (hrun : exec (BpfValues.F maxval code v0 v1) g=(.ok v,g'))
    (hvalue : ∀ den' : ℕ → Option ℕ, Extends g.curval den den' → ∀ reg : ℕ → ℕ,
      (∀ a, reg a < 2^32) → Holds den' val reg →
      (compute fetch s reg=meaningOf fetch den' code v0 v1 ∨ Divides s reg) ∧
        compute fetch s₁ reg=meaningOf fetch den' code v0 v1) :
    ∃ den', More fetch den g den' g' ∧ v ≤ g'.curval ∧ Valued fetch den' s s₁ val d v := by
  obtain ⟨den',hmore,hpos,hle,hden,-⟩ := hg.F hops hrun
  refine ⟨den',hmore,hle,hkind,hwrites,hkind₁,hslotted₁,hwrites₁,hpos,fun reg hword hholds => ?_⟩
  rw [hden]
  exact hvalue den' hmore.ext reg hword hholds

/-- A load of a part of the packet that no atom decides. -/
theorem follows_optLoad (hg : Meant fetch den g) (hval : Handed g val) {d : ℕ} {v0 : ℤ}
    (hd : d<18) (hkind : kindOf s.code≠.other) (hslotted : Slotted s) (hwrites : Writes s d)
    (hops : operandsOf s.code v0 0=[])
    (hvalue : ∀ (den : ℕ → Option ℕ) reg, compute fetch s reg=meaningOf fetch den s.code v0 0)
    (hrun : exec (optLoad maxval s val alter d v0) g=(.ok r,g')) :
    Follows fetch den g s val r g' := by
  obtain ⟨v,g1,hF,hrest⟩ := exec_bind_eq_ok hrun
  obtain ⟨rfl,rfl⟩ := pure_eq_ok hrest
  obtain ⟨den',hmore,hle,hvalued⟩ := hg.F_valued hkind hwrites hkind hslotted hwrites
    (by rw [hops]; exact fun w hw => absurd hw List.not_mem_nil) hF
    fun den' _ reg _ _ => ⟨.inl (hvalue den' reg),hvalue den' reg⟩
  exact hvalued.vstore hd hmore hval hle

/-- A load of a constant. -/
theorem follows_K (hg : Meant fetch den g) (hval : Handed g val) {s₁ : Stmt} {d v : ℕ}
    (hkind : kindOf s.code≠.other) (hwrites : Writes s d) (hkind₁ : kindOf s₁.code≠.other)
    (hslotted₁ : Slotted s₁) (hwrites₁ : Writes s₁ d)
    (hrun : exec (K maxval s₁.k) g=(.ok v,g'))
    (hvalue₁ : ∀ reg, compute fetch s₁ reg=some (toU32 s₁.k))
    (hvalue : ∀ reg : ℕ → ℕ, (∀ a, reg a < 2^32) → Holds den val reg →
      compute fetch s reg=some (toU32 s₁.k) ∨ Divides s reg) :
    ∃ den', More fetch den g den' g' ∧ v ≤ g'.curval ∧ Valued fetch den' s s₁ val d v := by
  obtain ⟨den',hmore,hpos,hle,hden,-⟩ := hg.K hrun
  refine ⟨den',hmore,hle,hkind,hwrites,hkind₁,hslotted₁,hwrites₁,hpos,fun reg hword hholds => ?_⟩
  rw [hden]
  exact ⟨hvalue reg hword ((hmore.holds hval).mpr hholds),hvalue₁ reg⟩

theorem sizedAbs_code : ∀ c∈sized (bpfLd+bpfAbs), kindOf c=.abs ∧ ¬loadsConst c ∧ c≠nop ∧
    classOf c=bpfLd ∧ modeOf c≠bpfMem := by
  decide

theorem sizedInd_code : ∀ c∈sized (bpfLd+bpfInd), kindOf c=.ind ∧ ¬loadsConst c ∧ c≠nop ∧
    classOf c=bpfLd ∧ modeOf c=bpfInd ∧ bpfLd+bpfAbs+sizeBits c∈sized (bpfLd+bpfAbs) := by
  decide

theorem aluK_code : ∀ c∈aluOps.map (fun op => bpfAlu+op+bpfK), kindOf c=.aluK ∧ ¬loadsConst c ∧
    c≠nop ∧ classOf c=bpfAlu ∧ srcOf c≠bpfX := by
  decide

theorem aluX_code : ∀ c∈aluOps.map (fun op => bpfAlu+op+bpfX), kindOf c=.aluX ∧ ¬loadsConst c ∧
    c≠nop ∧ classOf c=bpfAlu ∧ srcOf c=bpfX ∧ opOf c∈aluOps ∧ opOf (bpfAlu+bpfK+opOf c)=opOf c ∧
    bpfAlu+bpfK+opOf c∈aluOps.map fun op => bpfAlu+op+bpfK := by
  decide

theorem writes_sizedAbs (h : s.code∈sized (bpfLd+bpfAbs)) : Writes s 16 :=
  writes_a (sizedAbs_code _ h).2.2.1 (.inl (sizedAbs_code _ h).2.2.2.1)

theorem slotted_sizedAbs (h : s.code∈sized (bpfLd+bpfAbs)) : Slotted s := by
  obtain ⟨-,-,-,hclass,hmode⟩ := sizedAbs_code _ h
  apply slotted_of_code
  rw [hclass]
  simp only [hmode,and_false,false_or]
  decide

theorem reads_sizedInd (h : s.code∈sized (bpfLd+bpfInd)) : Reads s 17 := by
  obtain ⟨-,-,hnop,hclass,hmode,-⟩ := sizedInd_code _ h
  left
  rw [atomuse,if_neg hnop,if_neg (by rw [hclass]; decide),if_pos (.inl hclass),if_pos hmode]
  exact ⟨rfl,by decide⟩

/-- The branch for an indirect load. -/
theorem follows_optLoadInd (hg : Meant fetch den g) (hval : Handed g val)
    (hcode : s.code∈sized (bpfLd+bpfInd)) (hslotted : Slotted s) (hknown : val xAtom≠0)
    (hrun : exec (optLoadInd maxval s val alter) g=(.ok r,g')) :
    Follows fetch den g s val r g' := by
  obtain ⟨hkind,hconst,hnop,hclass,hmode,habs⟩ := sizedInd_code _ hcode
  have hother : kindOf s.code≠.other := by rw [hkind]; decide
  have hwrites : Writes s 16 := writes_a hnop (.inl hclass)
  obtain ⟨c,g1,hc,hrest⟩ := exec_bind_eq_ok hrun
  obtain ⟨rfl,hvmap⟩ := constIf_eq_ok hc
  cases c with
  | some c =>
    obtain ⟨v,g2,hF,hrest⟩ := exec_bind_eq_ok hrest
    obtain ⟨u,g3,hdone,hrest⟩ := exec_bind_eq_ok hrest
    obtain ⟨rfl,rfl⟩ := pure_eq_ok hrest
    obtain ⟨habsKind,habsConst,-⟩ := sizedAbs_code _ habs
    have hmeaning (den' : ℕ → Option ℕ) : meaningOf fetch den' (bpfLd+bpfAbs+sizeBits s.code)
        (toInt (s.k+c)) 0=fetch (bpfLd+bpfAbs+sizeBits s.code) (toU32 (s.k+c)) := by
      rw [meaningOf,if_neg habsConst,habsKind]
      dsimp only
      rw [toU32_toInt]
    have hwrites₁ : Writes { s with
        code:=bpfLd+bpfAbs+sizeBits s.code,k:=toInt (s.k+c) } 16 := writes_sizedAbs habs
    obtain ⟨den',hmore,hle,hvalued⟩ := hg.F_valued hother hwrites
      (by rw [habsKind]; decide) (slotted_sizedAbs habs) hwrites₁
      (by rw [operandsOf,habsKind]; exact fun w hw => absurd hw List.not_mem_nil) hF
      (fun den' hext reg hword hholds => by
        have hx := hholds 17 (by decide) hknown
        rw [show val ((17 : ℕ) : ℤ)=val xAtom from rfl,hext _ (hval _),
          (hg.const _ _ (hvmap c rfl)).2] at hx
        rw [hmeaning,compute,hkind]
        dsimp only
        rw [←Option.some.inj hx,toU32_add_toU32,compute,habsKind]
        dsimp only
        rw [toU32_toInt]
        exact ⟨.inl rfl,rfl⟩)
    have hmore' := hmore.trans (hmore.meant.notDone hdone)
    exact hvalued.vstore (by decide) hmore' hval (hle.trans (hmore.meant.notDone hdone).le)
  | none =>
    obtain ⟨v,g2,hF,hrest⟩ := exec_bind_eq_ok hrest
    obtain ⟨rfl,rfl⟩ := pure_eq_ok hrest
    have hops : ∀ w∈operandsOf s.code s.k (val xAtom), w≠0 ∧ w ≤ g1.curval := by
      rw [operandsOf,hkind]
      intro w hw
      rw [List.mem_singleton.mp hw,Int.toNat_natCast]
      exact ⟨hknown,hval _⟩
    obtain ⟨den',hmore,hle,hvalued⟩ := hg.F_valued hother hwrites hother hslotted hwrites
      hops hF (fun den' hext reg hword hholds => by
        have hx : den' (val xAtom)=some (reg 17) := hholds 17 (by decide) hknown
        rw [meaningOf,if_neg hconst,hkind,compute,hkind]
        dsimp only
        rw [Int.toNat_natCast,hx]
        exact ⟨.inl rfl,rfl⟩)
    exact hvalued.vstore (by decide) hmore hval hle

theorem reads_a (hnop : s.code≠nop) (hclass : classOf s.code=bpfAlu) : Reads s 16 := by
  have hld : ¬(classOf s.code=bpfLd ∨ classOf s.code=bpfLdx) := by rw [hclass]; decide
  have hrest : classOf s.code≠bpfRet ∧ classOf s.code≠bpfSt ∧ classOf s.code≠bpfStx := by
    rw [hclass]
    decide
  rw [Reads,atomuse,if_neg hnop,if_neg hrest.1,if_neg hld,if_neg hrest.2.1,if_neg hrest.2.2,
    if_pos (.inr hclass)]
  split
  · exact .inr ⟨rfl,.inl rfl⟩
  · exact .inl ⟨rfl,by decide⟩

theorem reads_ax (hnop : s.code≠nop) (hclass : classOf s.code=bpfAlu) (hsrc : srcOf s.code=bpfX) :
    Reads s 17 := by
  have hld : ¬(classOf s.code=bpfLd ∨ classOf s.code=bpfLdx) := by rw [hclass]; decide
  have hrest : classOf s.code≠bpfRet ∧ classOf s.code≠bpfSt ∧ classOf s.code≠bpfStx := by
    rw [hclass]
    decide
  rw [Reads,atomuse,if_neg hnop,if_neg hrest.1,if_neg hld,if_neg hrest.2.1,if_neg hrest.2.2,
    if_pos (.inr hclass),if_pos hsrc]
  exact .inr ⟨rfl,.inr rfl⟩

/-- A load of a constant into the accumulator. -/
theorem imm_code (s : Stmt) (k : ℤ) : kindOf (⟨bpfLd+bpfImm,s.jt,s.jf,k⟩ : Stmt).code≠.other ∧
    Slotted ⟨bpfLd+bpfImm,s.jt,s.jf,k⟩ ∧ Writes ⟨bpfLd+bpfImm,s.jt,s.jf,k⟩ 16 ∧
    ∀ reg, compute fetch ⟨bpfLd+bpfImm,s.jt,s.jf,k⟩ reg=some (toU32 k) :=
  ⟨by dsimp only; decide,slotted_of_code (by dsimp only; decide),rfl,fun _ => rfl⟩

/-- A load of a constant into the index register. -/
theorem immX_code (s : Stmt) (k : ℤ) :
    kindOf (⟨bpfLdx+bpfImm,s.jt,s.jf,k⟩ : Stmt).code≠.other ∧
      Slotted ⟨bpfLdx+bpfImm,s.jt,s.jf,k⟩ ∧ Writes ⟨bpfLdx+bpfImm,s.jt,s.jf,k⟩ 17 ∧
      ∀ reg, compute fetch ⟨bpfLdx+bpfImm,s.jt,s.jf,k⟩ reg=some (toU32 k) :=
  ⟨by dsimp only; decide,slotted_of_code (by dsimp only; decide),rfl,fun _ => rfl⟩

/-- A statement is replaced by a constant. -/
theorem follows_imm (hg : Meant fetch den g) (hval : Handed g val) {k : ℤ} {v : ℕ}
    (hkind : kindOf s.code≠.other) (hwrites : Writes s 16)
    (hrun : exec (K maxval k) g=(.ok v,g'))
    (hvalue : ∀ reg : ℕ → ℕ, (∀ a, reg a < 2^32) → Holds den val reg →
      compute fetch s reg=some (toU32 k) ∨ Divides s reg) :
    ∃ den', More fetch den g den' g' ∧ v ≤ g'.curval ∧
      Valued fetch den' s ⟨bpfLd+bpfImm,s.jt,s.jf,k⟩ val 16 v := by
  obtain ⟨hkind₁,hslotted₁,hwrites₁,hcompute⟩ := imm_code s k
  exact follows_K hg hval hkind hwrites hkind₁ hslotted₁ hwrites₁ hrun hcompute hvalue

/-- The branch for a negation. -/
theorem follows_optNeg (hg : Meant fetch den g) (hval : Handed g val)
    (hcode : s.code=bpfAlu+bpfNeg) (hslotted : Slotted s) (hknown : val aAtom≠0)
    (hrun : exec (optNeg maxval s val alter) g=(.ok r,g')) : Follows fetch den g s val r g' := by
  have hkind : kindOf s.code=.neg := by rw [hcode]; decide
  have hother : kindOf s.code≠.other := by rw [hkind]; decide
  have hwrites : Writes s 16 := writes_a (by rw [hcode]; decide) (.inr (by rw [hcode]; decide))
  obtain ⟨c,g1,hc,hrest⟩ := exec_bind_eq_ok hrun
  obtain ⟨rfl,hvmap⟩ := constIf_eq_ok hc
  cases c with
  | some c =>
    obtain ⟨v,g2,hK,hrest⟩ := exec_bind_eq_ok hrest
    obtain ⟨rfl,rfl⟩ := pure_eq_ok hrest
    obtain ⟨den',hmore,hle,hvalued⟩ := follows_imm hg hval hother hwrites hK
      (fun reg hword hholds => by
        have ha : den (val aAtom)=some (reg 16) := hholds 16 (by decide) hknown
        rw [(hg.const _ _ (hvmap c rfl)).2] at ha
        rw [compute,hkind]
        dsimp only
        rw [←Option.some.inj ha,toU32_neg_toU32,toU32_toInt]
        exact .inl rfl)
    exact hvalued.assign hmore hval hle
  | none =>
    obtain ⟨v,g2,hF,hrest⟩ := exec_bind_eq_ok hrest
    obtain ⟨rfl,rfl⟩ := pure_eq_ok hrest
    have hops : ∀ w∈operandsOf s.code (val aAtom) 0, w≠0 ∧ w ≤ g1.curval := by
      rw [operandsOf,hkind]
      intro w hw
      rw [List.mem_singleton.mp hw,Int.toNat_natCast]
      exact ⟨hknown,hval _⟩
    obtain ⟨den',hmore,hle,hvalued⟩ := hg.F_valued hother hwrites hother hslotted hwrites
      hops hF (fun den' hext reg hword hholds => by
        have ha : den' (val aAtom)=some (reg 16) := hholds 16 (by decide) hknown
        have hconst : ¬loadsConst s.code := by rw [hcode]; decide
        rw [meaningOf,if_neg hconst,hkind,compute,hkind]
        dsimp only
        rw [Int.toNat_natCast,ha]
        exact ⟨.inl rfl,rfl⟩)
    exact hvalued.assign hmore hval hle

/-! ### Arithmetic -/

/-- The operations of `opt_stmt` with a zero on one side. -/
theorem arith_zero_right {op : ℤ} {a : ℕ} (ha : a < 2^32)
    (hop : op=bpfAdd ∨ op=bpfLsh ∨ op=bpfRsh ∨ op=bpfOr) : arith op a 0=some a := by
  have hmod := Nat.mod_eq_of_lt ha
  rcases hop with rfl | rfl | rfl | rfl
  · rw [arith,foldValue,if_pos rfl,Nat.add_zero,hmod]
    rfl
  · simp only [arith,foldValue,Nat.pow_zero,Nat.mul_one,hmod]
    rfl
  · simp only [arith,foldValue,Nat.pow_zero,Nat.div_one]
    rfl
  · simp only [arith,foldValue,Nat.or_zero]
    rfl

theorem arith_zero_right_zero {op : ℤ} (a : ℕ) (hop : op=bpfMul ∨ op=bpfAnd) :
    arith op a 0=some 0 := by
  rcases hop with rfl | rfl
  · simp only [arith,foldValue,Nat.mul_zero,Nat.zero_mod]
    rfl
  · simp only [arith,foldValue,Nat.and_zero]
    rfl

theorem arith_zero_left {op : ℤ} {b : ℕ} (hb : b < 2^32) (hop : op=bpfAdd ∨ op=bpfOr) :
    arith op 0 b=some b := by
  rcases hop with rfl | rfl
  · rw [arith,foldValue,if_pos rfl,Nat.zero_add,Nat.mod_eq_of_lt hb]
    rfl
  · simp only [arith,foldValue,Nat.zero_or]
    rfl

theorem arith_zero_left_zero {op : ℤ} {b : ℕ}
    (hop : op=bpfMul ∨ op=bpfDiv ∨ op=bpfAnd ∨ op=bpfLsh ∨ op=bpfRsh) :
    arith op 0 b=some 0 ∨ op=bpfDiv ∧ b=0 := by
  rcases hop with rfl | rfl | rfl | rfl | rfl
  · simp only [arith,foldValue,Nat.zero_mul,Nat.zero_mod]
    exact .inl rfl
  · by_cases hb : b=0
    · exact .inr ⟨rfl,hb⟩
    · simp only [arith,foldValue,if_neg hb,Nat.zero_div]
      exact .inl rfl
  · simp only [arith,foldValue,Nat.zero_and]
    exact .inl rfl
  · simp only [arith,foldValue,Nat.zero_mul,Nat.zero_mod,ite_self]
    exact .inl rfl
  · simp only [arith,foldValue,Nat.zero_div]
    exact .inl rfl

/-- Words give words. -/
theorem arith_lt {op : ℤ} {a b w : ℕ} (ha : a < 2^32) (hb : b < 2^32) (h : arith op a b=some w) :
    w < 2^32 := by
  have hpos : 0 < 2^32 := by decide
  simp only [arith,foldValue] at h
  split_ifs at h <;> simp only [Except.toOption,Option.some.injEq,reduceCtorEq] at h <;> subst h
  · exact Nat.mod_lt _ hpos
  · exact Nat.mod_lt _ hpos
  · exact Nat.mod_lt _ hpos
  · exact (Nat.div_le_self _ _).trans_lt ha
  · exact Nat.and_lt_two_pow _ hb
  · exact Nat.or_lt_two_pow ha hb
  · exact Nat.mod_lt _ hpos
  · exact hpos
  · exact (Nat.div_le_self _ _).trans_lt ha

/-- What `fold_op` leaves. -/
theorem foldOp_eq_ok {v0 v1 : ℕ} {s₁ : Stmt}
    (hrun : exec (foldOp maxval s v0 v1) g=(.ok s₁,g')) :
    ∃ w, arith (opOf s.code) (toU32 ((g.vmap v0).getD 0)) (toU32 ((g.vmap v1).getD 0))=some w ∧
      s₁=⟨bpfLd+bpfImm,s.jt,s.jf,toInt w⟩ ∧ g'={ g with done:=false } := by
  obtain ⟨a,g1,ha,hrest⟩ := exec_bind_eq_ok hrun
  obtain ⟨b,g2,hb,hrest⟩ := exec_bind_eq_ok hrest
  obtain ⟨rfl,rfl⟩ := vmapAt_eq_ok ha
  obtain ⟨rfl,rfl⟩ := vmapAt_eq_ok hb
  cases hfold : foldValue (opOf s.code) (toU32 ((g2.vmap v0).getD 0))
      (toU32 ((g2.vmap v1).getD 0)) with
  | error e =>
    rw [hfold] at hrest
    cases hrest
  | ok w =>
    rw [hfold] at hrest
    obtain ⟨u,g3,hdone,hrest⟩ := exec_bind_eq_ok hrest
    obtain ⟨rfl,rfl⟩ := pure_eq_ok hrest
    exact ⟨w,by rw [arith,hfold]; rfl,rfl,notDone_eq_ok hdone⟩

theorem slotted_alu (hclass : classOf s.code=bpfAlu) : Slotted s := by
  apply slotted_of_code
  rw [hclass]
  rintro (⟨h | h,-⟩ | h | h) <;> exact absurd h (by decide)

theorem Handed.more {den' : ℕ → Option ℕ} (hval : Handed g val)
    (h : More fetch den g den' g') : Handed g' val :=
  fun a => (hval a).trans h.le

/-- The branch for an operation with a constant that is not known to be simpler. -/
theorem follows_optAluKPlain (hg : Meant fetch den g) (hval : Handed g val) {s₁ : Stmt}
    (hkind : kindOf s.code≠.other) (hwrites : Writes s 16)
    (hcode₁ : s₁.code∈aluOps.map fun op => bpfAlu+op+bpfK) (hknown : val aAtom≠0)
    (hvalue : ∀ reg : ℕ → ℕ, (∀ a, reg a < 2^32) → Holds den val reg →
      compute fetch s reg=compute fetch s₁ reg)
    (hrun : exec (optAluKPlain maxval s₁ val) g=(.ok r,g')) : Follows fetch den g s val r g' := by
  obtain ⟨hkind₁,hconst,hnop,hclass,-⟩ := aluK_code _ hcode₁
  obtain ⟨k,g1,hK,hrest⟩ := exec_bind_eq_ok hrun
  obtain ⟨v,g2,hF,hrest⟩ := exec_bind_eq_ok hrest
  obtain ⟨rfl,rfl⟩ := pure_eq_ok hrest
  obtain ⟨den1,hmore1,hpos,hle,hden,-⟩ := hg.K hK
  have hval1 := hval.more hmore1
  have hops : ∀ w∈operandsOf s₁.code (val aAtom) k, w≠0 ∧ w ≤ g1.curval := by
    rw [operandsOf,hkind₁]
    simp only [List.forall_mem_cons,Int.toNat_natCast]
    exact ⟨⟨hknown,hval1 _⟩,⟨hpos,hle⟩,fun w hw => absurd hw List.not_mem_nil⟩
  obtain ⟨den2,hmore2,hle2,hvalued⟩ := hmore1.meant.F_valued hkind hwrites
    (by rw [hkind₁]; decide) (slotted_alu hclass) (writes_a (s:=s₁) hnop (.inr hclass))
    hops hF (fun den' hext reg hword hholds => by
      have ha : den' (val aAtom)=some (reg 16) := hholds 16 (by decide) hknown
      have hk : den' k=some (toU32 s₁.k) := (hext k hle).trans hden
      have hold : Holds den1 val reg := fun a hlt hne => by
        rw [←hext _ (hval1 a)]
        exact hholds a hlt hne
      have hmeaning : compute fetch s₁ reg=meaningOf fetch den' s₁.code (val aAtom) k := by
        rw [meaningOf,if_neg hconst,hkind₁,compute,hkind₁]
        dsimp only
        rw [Int.toNat_natCast,Int.toNat_natCast,ha,hk]
        rfl
      rw [hvalue reg hword ((hmore1.holds hval).mpr hold)]
      exact ⟨.inl hmeaning,hmeaning⟩)
  exact hvalued.assign (hmore1.trans hmore2) hval hle2

/-- Both operands are constants. -/
theorem follows_fold (hg : Meant fetch den g) (hval : Handed g val) {v0 v1 v : ℕ} {s₁ : Stmt}
    {g1 : Globals} {a b : ℤ} (hkind : kindOf s.code≠.other) (hwrites : Writes s 16)
    (ha : g.vmap v0=some a) (hb : g.vmap v1=some b)
    (hvalue : ∀ reg : ℕ → ℕ, (∀ a, reg a < 2^32) → Holds den val reg →
      compute fetch s reg=arith (opOf s.code) (toU32 a) (toU32 b))
    (hfold : exec (foldOp maxval s v0 v1) g=(.ok s₁,g1))
    (hK : exec (K maxval s₁.k) g1=(.ok v,g')) :
    Follows fetch den g s val (s₁,Function.update val aAtom v) g' := by
  obtain ⟨w,harith,rfl,rfl⟩ := foldOp_eq_ok hfold
  rw [ha,hb] at harith
  have hdone : More fetch den g den { g with done:=false } :=
    ⟨.refl _ _,le_rfl,fun _ _ => rfl,⟨hg.table,hg.const,hg.loads⟩⟩
  have hword : w < 2^32 := arith_lt (toU32_lt _) (toU32_lt _) harith
  obtain ⟨den',hmore,hle,hvalued⟩ := follows_imm hdone.meant (hval.more hdone) hkind hwrites hK
    (fun reg hreg hholds => by
      rw [toU32_toInt,toU32_natCast hword]
      exact .inl ((hvalue reg hreg hholds).trans harith))
  exact hvalued.assign (hdone.trans hmore) hval hle

/-- The branch for an operation with a constant. -/
theorem follows_optAluK (hg : Meant fetch den g) (hval : Handed g val)
    (hcode : s.code∈aluOps.map fun op => bpfAlu+op+bpfK) (hknown : val aAtom≠0)
    (hrun : exec (optAluK maxval s val alter) g=(.ok r,g')) : Follows fetch den g s val r g' := by
  obtain ⟨hkind,hconst,hnop,hclass,-⟩ := aluK_code _ hcode
  have hother : kindOf s.code≠.other := by rw [hkind]; decide
  have hwrites : Writes s 16 := writes_a hnop (.inr hclass)
  have hcompute (reg : ℕ → ℕ) : compute fetch s reg=arith (opOf s.code) (reg 16) (toU32 s.k) := by
    rw [compute,hkind]
  rw [optAluK] at hrun
  dsimp only at hrun
  split at hrun
  · next hzero =>
    obtain ⟨rfl,rfl⟩ := pure_eq_ok hrun
    refine follows_nop hother hwrites (by decide) (.refl hg) hval hknown ?_ s
    intro reg hword _
    rw [hcompute,hzero.2.1]
    exact .inl (arith_zero_right (hword 16) hzero.2.2)
  · split at hrun
    · next hzero =>
      obtain ⟨v,g1,hK,hrest⟩ := exec_bind_eq_ok hrun
      obtain ⟨rfl,rfl⟩ := pure_eq_ok hrest
      obtain ⟨den',hmore,hle,hvalued⟩ := follows_imm hg hval hother hwrites hK
        (fun reg hword _ => by
          rw [hcompute,hzero.2.1]
          exact .inl (arith_zero_right_zero _ hzero.2.2))
      exact hvalued.assign hmore hval hle
    · obtain ⟨c,g1,hc,hrest⟩ := exec_bind_eq_ok hrun
      obtain ⟨rfl,hvmap⟩ := constIf_eq_ok hc
      cases c with
      | some c =>
        obtain ⟨k,g2,hK,hrest⟩ := exec_bind_eq_ok hrest
        obtain ⟨s₁,g3,hfold,hrest⟩ := exec_bind_eq_ok hrest
        obtain ⟨v,g4,hK',hrest⟩ := exec_bind_eq_ok hrest
        obtain ⟨rfl,rfl⟩ := pure_eq_ok hrest
        obtain ⟨den1,hmore,-,-,-,hk⟩ := hg.K hK
        have ha := (hmore.vmap _ (hval aAtom)).trans (hvmap c rfl)
        obtain ⟨den',hmore',hrest⟩ := follows_fold hmore.meant (hval.more hmore) hother hwrites
          ha hk (fun reg hword hholds => by
            have hreg : den1 (val aAtom)=some (reg 16) := hholds 16 (by decide) hknown
            rw [(hmore.meant.const _ _ ha).2] at hreg
            rw [hcompute,←Option.some.inj hreg]) hfold hK'
        refine ⟨den',hmore.trans hmore',hrest.1,hrest.2.1,hrest.2.2.1,hrest.2.2.2.1,?_⟩
        exact fun reg hword hholds => hrest.2.2.2.2 reg hword ((hmore.holds hval).mp hholds)
      | none =>
        exact follows_optAluKPlain hg hval hother hwrites hcode hknown (fun _ _ _ => rfl) hrest

/-- The branches for a load of a constant. -/
theorem follows_optImm (hg : Meant fetch den g) (hval : Handed g val) {d : ℕ}
    (hkind : kindOf s.code≠.other) (hslotted : Slotted s) (hd : d<18) (hwrites : Writes s d)
    (hcompute : ∀ reg, compute fetch s reg=some (toU32 s.k))
    (hrun : exec (optImm maxval s val alter d) g=(.ok r,g')) : Follows fetch den g s val r g' := by
  obtain ⟨v,g1,hK,hrest⟩ := exec_bind_eq_ok hrun
  obtain ⟨rfl,rfl⟩ := pure_eq_ok hrest
  obtain ⟨den',hmore,hle,hvalued⟩ := follows_K hg hval hkind hwrites hkind hslotted hwrites
    hK hcompute fun reg _ _ => .inl (hcompute reg)
  exact hvalued.vstore hd hmore hval hle

/-- A transfer to the accumulator. -/
theorem txa_code (fetch : ℤ → ℕ → Option ℕ) (s : Stmt) : kindOf (bpfMisc+bpfTxa)≠.other ∧
    Slotted { s with code:=bpfMisc+bpfTxa } ∧ Writes { s with code:=bpfMisc+bpfTxa } 16 ∧
    ∀ reg, compute fetch { s with code:=bpfMisc+bpfTxa } reg=some (reg 17) :=
  ⟨by decide,slotted_of_code (by dsimp only; decide),rfl,fun _ => rfl⟩

/-- The branch for an operation with the index register, behind the test for a constant in it. -/
theorem follows_optAluXZero (hg : Meant fetch den g) (hval : Handed g val)
    (hcode : s.code∈aluOps.map fun op => bpfAlu+op+bpfX) (ha : val aAtom≠0) (hx : val xAtom≠0)
    (hrun : exec (optAluXZero maxval s val alter) g=(.ok r,g')) :
    Follows fetch den g s val r g' := by
  obtain ⟨hkind,hconst,hnop,hclass,-,hop,-⟩ := aluX_code _ hcode
  have hother : kindOf s.code≠.other := by rw [hkind]; decide
  have hwrites : Writes s 16 := writes_a hnop (.inr hclass)
  have hcompute (reg : ℕ → ℕ) : compute fetch s reg=arith (opOf s.code) (reg 16) (reg 17) := by
    rw [compute,hkind]
  obtain ⟨c,g1,hc,hrest⟩ := exec_bind_eq_ok hrun
  obtain ⟨rfl,hvmap⟩ := constIf_eq_ok hc
  have hzero (h : c=some 0) (reg : ℕ → ℕ) (hholds : Holds den val reg) : reg 16=0 := by
    have hreg : den (val aAtom)=some (reg 16) := hholds 16 (by decide) ha
    rw [(hg.const _ _ (hvmap 0 h)).2] at hreg
    exact (Option.some.inj hreg).symm
  split at hrest
  · next h =>
    obtain ⟨rfl,rfl⟩ := pure_eq_ok hrest
    obtain ⟨hkind₁,hslotted₁,hwrites₁,hcompute₁⟩ := txa_code fetch s
    have hvalued : Valued fetch den s { s with code:=bpfMisc+bpfTxa } val 16 (val xAtom) := by
      refine ⟨hother,hwrites,hkind₁,hslotted₁,hwrites₁,hx,fun reg hword hholds => ?_⟩
      have hreg : den (val xAtom)=some (reg 17) := hholds 17 (by decide) hx
      rw [hreg,hcompute₁,hcompute,hzero h.1 reg hholds]
      exact ⟨.inl (arith_zero_left (hword 17) h.2),rfl⟩
    exact hvalued.vstore (by decide) (.refl hg) hval (hval _)
  · split at hrest
    · next h =>
      obtain ⟨v,g2,hK,hrest⟩ := exec_bind_eq_ok hrest
      obtain ⟨rfl,rfl⟩ := pure_eq_ok hrest
      obtain ⟨den',hmore,hle,hvalued⟩ := follows_imm hg hval hother hwrites hK
        (fun reg hword hholds => by
          rw [hcompute,hzero h.1 reg hholds]
          refine (arith_zero_left_zero h.2).imp_right fun hdiv => ⟨?_,hdiv.2⟩
          have hof : ∀ c∈aluOps.map (fun op => bpfAlu+op+bpfX), opOf c=bpfDiv →
              c=bpfAlu+bpfDiv+bpfX := by decide
          exact hof _ hcode hdiv.1)
      exact hvalued.vstore (by decide) hmore hval hle
    · split at hrest
      · next h =>
        have hneg : bpfNeg∉aluOps := by decide
        exact absurd (h.2 ▸ hop) hneg
      · obtain ⟨v,g2,hF,hrest⟩ := exec_bind_eq_ok hrest
        obtain ⟨rfl,rfl⟩ := pure_eq_ok hrest
        have hops : ∀ w∈operandsOf s.code (val aAtom) (val xAtom), w≠0 ∧ w ≤ g1.curval := by
          rw [operandsOf,hkind]
          simp only [List.forall_mem_cons,Int.toNat_natCast]
          exact ⟨⟨ha,hval _⟩,⟨hx,hval _⟩,fun w hw => absurd hw List.not_mem_nil⟩
        obtain ⟨den',hmore,hle,hvalued⟩ := hg.F_valued hother hwrites hother
          (slotted_alu hclass) hwrites hops hF (fun den' hext reg hword hholds => by
            have hreg : den' (val aAtom)=some (reg 16) := hholds 16 (by decide) ha
            have hreg' : den' (val xAtom)=some (reg 17) := hholds 17 (by decide) hx
            rw [meaningOf,if_neg hconst,hkind,hcompute]
            dsimp only
            rw [Int.toNat_natCast,Int.toNat_natCast,hreg,hreg']
            exact ⟨.inl rfl,rfl⟩)
        exact hvalued.assign hmore hval hle

/-- The branch for an operation with the index register. -/
theorem follows_optAluX (hg : Meant fetch den g) (hval : Handed g val)
    (hcode : s.code∈aluOps.map fun op => bpfAlu+op+bpfX) (ha : val aAtom≠0) (hx : val xAtom≠0)
    (hrun : exec (optAluX maxval s val alter) g=(.ok r,g')) : Follows fetch den g s val r g' := by
  obtain ⟨hkind,hconst,hnop,hclass,-,hop,hsame,hcodeK⟩ := aluX_code _ hcode
  have hother : kindOf s.code≠.other := by rw [hkind]; decide
  have hwrites : Writes s 16 := writes_a hnop (.inr hclass)
  have hcompute (reg : ℕ → ℕ) : compute fetch s reg=arith (opOf s.code) (reg 16) (reg 17) := by
    rw [compute,hkind]
  obtain ⟨c,g1,hc,hrest⟩ := exec_bind_eq_ok hrun
  obtain ⟨rfl,hvmap⟩ := constIf_eq_ok hc
  cases c with
  | none => exact follows_optAluXZero hg hval hcode ha hx hrest
  | some x =>
    have hreg (reg : ℕ → ℕ) (hholds : Holds den val reg) : reg 17=toU32 x := by
      have hreg : den (val xAtom)=some (reg 17) := hholds 17 (by decide) hx
      rw [(hg.const _ _ (hvmap x rfl)).2] at hreg
      exact (Option.some.inj hreg).symm
    obtain ⟨a,g2,hva,hrest⟩ := exec_bind_eq_ok hrest
    obtain ⟨rfl,rfl⟩ := vmapAt_eq_ok hva
    cases hvmapA : g2.vmap (val aAtom) with
    | some a =>
      rw [hvmapA] at hrest
      obtain ⟨s₁,g3,hfold,hrest⟩ := exec_bind_eq_ok hrest
      obtain ⟨v,g4,hK,hrest⟩ := exec_bind_eq_ok hrest
      obtain ⟨rfl,rfl⟩ := pure_eq_ok hrest
      refine follows_fold hg hval hother hwrites hvmapA (hvmap x rfl) ?_ hfold hK
      intro reg hword hholds
      have hregA : den (val aAtom)=some (reg 16) := hholds 16 (by decide) ha
      rw [(hg.const _ _ hvmapA).2] at hregA
      rw [hcompute,hreg reg hholds,Option.some.inj hregA]
    | none =>
      rw [hvmapA] at hrest
      obtain ⟨u,g3,hdone,hrest⟩ := exec_bind_eq_ok hrest
      have hmore := hg.notDone hdone
      have hcode₁ : ({ s with code:=bpfAlu+bpfK+opOf s.code,k:=x } : Stmt).code∈
          aluOps.map fun op => bpfAlu+op+bpfK := hcodeK
      obtain ⟨den',hmore',hfollows⟩ := follows_optAluKPlain hmore.meant (hval.more hmore)
        hother hwrites hcode₁ ha (fun reg hword hholds => by
          rw [hcompute,hreg reg hholds,compute,(aluK_code _ hcode₁).1]
          dsimp only
          rw [hsame]) hrest
      exact ⟨den',hmore.trans hmore',hfollows⟩

/-! ### Moves between atoms -/

/-- A statement that copies an atom that has a number. -/
theorem follows_move (hg : Meant fetch den g) (hval : Handed g val) {d e : ℕ}
    (hkind : kindOf s.code≠.other) (hslotted : Slotted s) (hwrites : Writes s d) (hd : d<18)
    (he : e<18) (hknown : val e≠0) (hvalue : ∀ reg, compute fetch s reg=some (reg e))
    (hrun : exec (pure (vstore s val d (val e) alter) : Opt (Stmt×Vals)) g=(.ok r,g')) :
    Follows fetch den g s val r g' := by
  obtain ⟨rfl,rfl⟩ := pure_eq_ok hrun
  have hvalued : Valued fetch den s s val d (val e) := by
    refine ⟨hkind,hwrites,hkind,hslotted,hwrites,hknown,fun reg hword hholds => ?_⟩
    rw [hholds e he hknown,hvalue]
    exact ⟨.inl rfl,rfl⟩
  exact hvalued.vstore hd (.refl hg) hval (hval _)

/-- The branches for a load of a scratch register. -/
theorem follows_optMem (hg : Meant fetch den g) (hval : Handed g val) {d e : ℕ} {imm : ℤ}
    (hkind : kindOf s.code≠.other) (hslotted : Slotted s) (hwrites : Writes s d) (hd : d<18)
    (he : e<18) (hk : s.k=e) (hknown : val e≠0)
    (hvalue : ∀ reg, compute fetch s reg=some (reg e))
    (himm : ∀ c, kindOf ({ s with code:=imm,k:=c } : Stmt).code≠.other ∧
      Slotted { s with code:=imm,k:=c } ∧ Writes { s with code:=imm,k:=c } d ∧
      ∀ reg, compute fetch { s with code:=imm,k:=c } reg=some (toU32 c))
    (hrun : exec (optMem maxval s val alter d imm) g=(.ok r,g')) :
    Follows fetch den g s val r g' := by
  rw [optMem,hk] at hrun
  obtain ⟨c,g1,hc,hrest⟩ := exec_bind_eq_ok hrun
  obtain ⟨rfl,hvmap⟩ := constIf_eq_ok hc
  cases c with
  | none => exact follows_move hg hval hkind hslotted hwrites hd he hknown hvalue hrest
  | some c =>
    obtain ⟨u,g2,hdone,hrest⟩ := exec_bind_eq_ok hrest
    obtain ⟨rfl,rfl⟩ := pure_eq_ok hrest
    have hmore := hg.notDone hdone
    obtain ⟨hkind₁,hslotted₁,hwrites₁,hcompute₁⟩ := himm c
    have hvalued : Valued fetch den s { s with code:=imm,k:=c } val d (val e) := by
      refine ⟨hkind,hwrites,hkind₁,hslotted₁,hwrites₁,hknown,fun reg hword hholds => ?_⟩
      have hreg := hholds e he hknown
      rw [hvalue,hcompute₁,hreg]
      rw [(hg.const _ _ (hvmap c rfl)).2] at hreg
      exact ⟨.inl rfl,hreg⟩
    exact hvalued.vstore hd hmore hval ((hval _).trans hmore.le)

/-- Nothing is done to no statement. -/
theorem follows_none (hg : Meant fetch den g) (hval : Handed g val) (hnop : s.code=nop)
    (hslotted : Slotted s) : Follows fetch den g s val (s,val) g := by
  refine ⟨den,.refl hg,hval,⟨.inl hnop,hslotted⟩,fun a ha => ?_,fun _ _ => rfl,
    fun reg _ hholds => ⟨fun reg' heffect => ⟨heffect,?_⟩,.inr fun _ => id⟩⟩
  · rw [Writes,atomdef,if_pos hnop] at ha
    cases ha
  · rcases heffect with ⟨-,rfl⟩ | ⟨hkind,-⟩
    · exact hholds
    · exact absurd hnop (nop_not_kind hkind)

/-- A scratch register of a statement. -/
theorem exists_slot (hslotted : Slotted s) (h : (classOf s.code=bpfLd ∨ classOf s.code=bpfLdx) ∧
    modeOf s.code=bpfMem ∨ classOf s.code=bpfSt ∨ classOf s.code=bpfStx) :
    ∃ d : ℕ, d<18 ∧ s.k=d ∧ s.k.toNat=d := by
  obtain ⟨d,hd,hk⟩ := hslotted.operand h
  have hk := Option.some.inj hk
  exact ⟨d,hd,hk,by rw [hk,Int.toNat_natCast]⟩

/-- The codes that `opt_stmt` knows. -/
def knownCodes : List ℤ :=
  sized (bpfLd+bpfAbs)++sized (bpfLd+bpfInd)++
    [bpfLd+bpfLen,bpfLd+bpfImm,bpfLdx+bpfImm,bpfLdx+bpfMsh+bpfB,bpfAlu+bpfNeg]++
    aluOps.map (fun op => bpfAlu+op+bpfK)++aluOps.map (fun op => bpfAlu+op+bpfX)++
    [bpfMisc+bpfTxa,bpfLd+bpfMem,bpfMisc+bpfTax,bpfLdx+bpfMem,bpfSt,bpfStx]

theorem mem_of_kind {code : ℤ} (h : kindOf code≠.other) : code∈knownCodes := by
  by_contra hmem
  simp only [knownCodes,List.mem_append,List.mem_cons,List.not_mem_nil,or_false,not_or] at hmem
  obtain ⟨⟨⟨⟨⟨h1,h2⟩,h3,h4,h5,h6,h7⟩,h8⟩,h9⟩,h10,h11,h12,h13,h14,h15⟩ := hmem
  apply h
  rw [kindOf,if_neg h1,if_neg h2,if_neg h3,if_neg h4,if_neg h5,if_neg h6,if_neg h7,if_neg h8,
    if_neg h9,if_neg h10,if_neg h11,if_neg h12,if_neg h13,if_neg h14,if_neg h15]

/-- The branch of `opt_stmt` for a kind of statements. -/
def optKind (maxval : ℕ) (s : Stmt) (val : Vals) (alter : Bool) : Kind → Opt (Stmt×Vals)
  | .abs => optLoad maxval s val alter aAtom s.k
  | .ind => optLoadInd maxval s val alter
  | .len => optLoad maxval s val alter aAtom 0
  | .imm => optImm maxval s val alter aAtom
  | .immX => optImm maxval s val alter xAtom
  | .msh => optLoad maxval s val alter xAtom s.k
  | .neg => optNeg maxval s val alter
  | .aluK => optAluK maxval s val alter
  | .aluX => optAluX maxval s val alter
  | .txa => pure (vstore s val aAtom (val xAtom) alter)
  | .mem => optMem maxval s val alter aAtom (bpfLd+bpfImm)
  | .tax => pure (vstore s val xAtom (val aAtom) alter)
  | .memX => optMem maxval s val alter xAtom (bpfLdx+bpfImm)
  | .st => pure (vstore s val s.k (val aAtom) alter)
  | .stx => pure (vstore s val s.k (val xAtom) alter)
  | .other => pure (s,val)

theorem optStmt_eq :
    optStmt maxval s val alter=optKind maxval s val alter (kindOf s.code) := by
  rw [optStmt,kindOf]
  simp only [apply_ite (optKind maxval s val alter)]
  rfl

/-- The codes of a kind. -/
def codesOf : Kind → List ℤ
  | .abs => sized (bpfLd+bpfAbs)
  | .ind => sized (bpfLd+bpfInd)
  | .len => [bpfLd+bpfLen]
  | .imm => [bpfLd+bpfImm]
  | .immX => [bpfLdx+bpfImm]
  | .msh => [bpfLdx+bpfMsh+bpfB]
  | .neg => [bpfAlu+bpfNeg]
  | .aluK => aluOps.map fun op => bpfAlu+op+bpfK
  | .aluX => aluOps.map fun op => bpfAlu+op+bpfX
  | .txa => [bpfMisc+bpfTxa]
  | .mem => [bpfLd+bpfMem]
  | .tax => [bpfMisc+bpfTax]
  | .memX => [bpfLdx+bpfMem]
  | .st => [bpfSt]
  | .stx => [bpfStx]
  | .other => []

theorem mem_codesOf {code : ℤ} {k : Kind} (h : kindOf code=k) (hk : k≠.other) :
    code∈codesOf k := by
  have hknown : ∀ c∈knownCodes, c∈codesOf (kindOf c) := by decide
  exact h ▸ hknown code (mem_of_kind (h ▸ hk))

/-- `opt_stmt` gives numbers to what a statement writes, and leaves a statement
with the same effect. -/
theorem follows_optStmt (hg : Meant fetch den g) (hval : Handed g val) (hplain : Plain s)
    (hknown : ∀ a : ℕ, a<18 → Reads s a → val a≠0)
    (hrun : exec (optStmt maxval s val alter) g=(.ok r,g')) : Follows fetch den g s val r g' := by
  obtain ⟨hcode,hslotted⟩ := hplain
  rw [optStmt_eq] at hrun
  by_cases hother : kindOf s.code=.other
  · rw [hother] at hrun
    obtain ⟨rfl,rfl⟩ := pure_eq_ok hrun
    exact follows_none hg hval (hcode.resolve_right fun hkind => hkind hother) hslotted
  have hcompute (reg : ℕ → ℕ) := compute.eq_def fetch s reg
  have hreadsA (h : atomuse s=some 16) := hknown 16 (by decide) (.inl ⟨h,by decide⟩)
  have hreadsX (h : atomuse s=some 17) := hknown 17 (by decide) (.inl ⟨h,by decide⟩)
  cases hkind : kindOf s.code <;> rw [hkind] at hrun hother <;> simp only [hkind] at hcompute
  case other => exact absurd rfl hother
  case abs =>
    have h := mem_codesOf hkind hother
    refine follows_optLoad hg hval (d:=16) (by decide) (by rwa [hkind]) hslotted
      (writes_sizedAbs h) (by rw [operandsOf,hkind]) (fun den reg => ?_) hrun
    rw [hcompute,meaningOf,if_neg (sizedAbs_code _ h).2.1,hkind]
  case ind =>
    have h := mem_codesOf hkind hother
    exact follows_optLoadInd hg hval h hslotted (hknown 17 (by decide) (reads_sizedInd h)) hrun
  case aluK =>
    have h := mem_codesOf hkind hother
    obtain ⟨-,-,hnop,hclass,-⟩ := aluK_code _ h
    exact follows_optAluK hg hval h (hknown 16 (by decide) (reads_a hnop hclass)) hrun
  case aluX =>
    have h := mem_codesOf hkind hother
    obtain ⟨-,-,hnop,hclass,hsrc,-⟩ := aluX_code _ h
    exact follows_optAluX hg hval h (hknown 16 (by decide) (reads_a hnop hclass))
      (hknown 17 (by decide) (reads_ax hnop hclass hsrc)) hrun
  all_goals have h := List.mem_singleton.mp (mem_codesOf hkind hother)
  all_goals
    have hother : kindOf s.code≠.other := by rwa [hkind]
  case len =>
    refine follows_optLoad hg hval (d:=16) (by decide) hother hslotted
      (writes_a (by rw [h]; decide) (.inl (by rw [h]; decide))) (by rw [operandsOf,hkind])
      (fun den reg => ?_) hrun
    rw [hcompute,meaningOf,if_neg (by rw [h]; decide),hkind]
    rfl
  case msh =>
    refine follows_optLoad hg hval (d:=17) (by decide) hother hslotted
      (writes_x (by rw [h]; decide) (by rw [h]; decide)) (by rw [operandsOf,hkind])
      (fun den reg => ?_) hrun
    rw [hcompute,meaningOf,if_neg (by rw [h]; decide),hkind]
  case imm =>
    exact follows_optImm hg hval hother hslotted (by decide)
      (writes_a (by rw [h]; decide) (.inl (by rw [h]; decide))) hcompute hrun
  case immX =>
    exact follows_optImm hg hval hother hslotted (by decide)
      (writes_x (by rw [h]; decide) (by rw [h]; decide)) hcompute hrun
  case neg =>
    have hreads := reads_a (s:=s) (by rw [h]; decide) (by rw [h]; decide)
    exact follows_optNeg hg hval h hslotted (hknown 16 (by decide) hreads) hrun
  case txa =>
    exact follows_move hg hval (d:=16) (e:=17) hother hslotted (by rw [Writes,atomdef,h]; rfl)
      (by decide) (by decide) (hreadsX (by rw [atomuse,h]; rfl)) hcompute hrun
  case tax =>
    exact follows_move hg hval (d:=17) (e:=16) hother hslotted (by rw [Writes,atomdef,h]; rfl)
      (by decide) (by decide) (hreadsA (by rw [atomuse,h]; rfl)) hcompute hrun
  case mem =>
    obtain ⟨e,he,hk,hnat⟩ := exists_slot hslotted (.inl (by rw [h]; decide))
    have hreads : Reads s e := by rw [Reads,atomuse,h,hk]; exact .inl ⟨rfl,he⟩
    exact follows_optMem hg hval (d:=16) hother hslotted
      (writes_a (by rw [h]; decide) (.inl (by rw [h]; decide))) (by decide) he hk
      (hknown e he hreads) (fun reg => by rw [hcompute,hnat]) (imm_code s) hrun
  case memX =>
    obtain ⟨e,he,hk,hnat⟩ := exists_slot hslotted (.inl (by rw [h]; decide))
    have hreads : Reads s e := by rw [Reads,atomuse,h,hk]; exact .inl ⟨rfl,he⟩
    exact follows_optMem hg hval (d:=17) hother hslotted
      (writes_x (by rw [h]; decide) (by rw [h]; decide)) (by decide) he hk
      (hknown e he hreads) (fun reg => by rw [hcompute,hnat]) (immX_code s) hrun
  case st =>
    obtain ⟨d,hd,hk,-⟩ := exists_slot hslotted (.inr (by rw [h]; decide))
    rw [optKind,hk] at hrun
    exact follows_move hg hval (e:=16) hother hslotted (by rw [Writes,atomdef,h,hk]; rfl) hd
      (by decide) (hreadsA (by rw [atomuse,h]; rfl)) hcompute hrun
  case stx =>
    obtain ⟨d,hd,hk,-⟩ := exists_slot hslotted (.inr (by rw [h]; decide))
    rw [optKind,hk] at hrun
    exact follows_move hg hval (e:=17) hother hslotted (by rw [Writes,atomdef,h,hk]; rfl) hd
      (by decide) (hreadsX (by rw [atomuse,h]; rfl)) hcompute hrun

end Cases

/-! ## Blocks -/

/-- The class of a statement that writes an atom. -/
def WritesClass (code : ℤ) : Prop := code≠nop ∧
  (classOf code=bpfLd ∨ classOf code=bpfAlu ∨ classOf code=bpfLdx ∨ classOf code=bpfSt ∨
    classOf code=bpfStx ∨ classOf code=bpfMisc)

instance : DecidablePred WritesClass := fun _ => inferInstanceAs (Decidable (_ ∧ _))

theorem class_of_kind {code : ℤ} (h : kindOf code≠.other) : WritesClass code :=
  have hknown : ∀ c∈knownCodes, WritesClass c := by decide
  hknown code (mem_of_kind h)

/-- A known code fits the half-word of an instruction. -/
theorem code_mod_of_kind {code : ℤ} (h : kindOf code≠.other) : code%65536=code :=
  have hknown : ∀ c∈knownCodes, c%65536=c := by decide
  hknown code (mem_of_kind h)

/-- Every statement that `opt_stmt` knows writes an atom. -/
theorem exists_writes {s : Stmt} (h : kindOf s.code≠.other) (hs : Slotted s) :
    ∃ a, Writes s a := by
  rcases atomdef_cases hs with hnone | ⟨n,-,hn⟩
  · obtain ⟨hnop,hclass⟩ := class_of_kind h
    rw [atomdef,if_neg hnop] at hnone
    split_ifs at hnone with hld hldx hst hmisc
    tauto
  · exact ⟨n,hn⟩

section Runs

variable {σ ρ π : Type} {M : Machine σ ρ} {packet : σ → π} {reg : σ → ℕ → ℕ}
  {fetchOf : π → ℤ → ℕ → Option ℕ} {reject : ρ}

/-- One statement. -/
def stepStmt (M : Machine σ ρ) (st : Stmt) (s : σ) : Except ρ σ :=
  if st.code=nop then .ok s
  else M.exec (BpfProgram.uShort st.code) (BpfProgram.uInt32 st.k) s

theorem runStmts_nil (s : σ) : (M.runStmts [] s).2=.ok s := rfl

theorem runStmts_cons (st : Stmt) (rest : List Stmt) (s : σ) :
    (M.runStmts (st::rest) s).2=
      match stepStmt M st s with
      | .ok t => (M.runStmts rest t).2
      | .error r => .error r := by
  rw [Machine.runStmts,stepStmt]
  split
  · rfl
  · cases M.exec (BpfProgram.uShort st.code) (BpfProgram.uInt32 st.k) s <;> rfl

/-- A statement has its effect on the state. -/
theorem Computes.step_of_effect (hM : Computes M packet reg fetchOf reject) {st : Stmt} {s : σ}
    {r : ℕ → ℕ} (hplain : Plain st) (h : Effect (fetchOf (packet s)) st (reg s) r) :
    ∃ t, stepStmt M st s=.ok t ∧ packet t=packet s ∧ reg t=r := by
  rcases h with ⟨hnop,rfl⟩ | ⟨hkind,a,w,hwrites,hw,rfl⟩
  · exact ⟨s,if_pos hnop,rfl,rfl⟩
  · rw [stepStmt,if_neg (nop_not_kind hkind)]
    exact hM.some st s a w hkind hplain.2 hwrites hw

/-- Or it ends the filter. -/
theorem Computes.step_of_no_effect (hM : Computes M packet reg fetchOf reject) {st : Stmt} {s : σ}
    (hplain : Plain st) (h : ∀ r, ¬Effect (fetchOf (packet s)) st (reg s) r) :
    stepStmt M st s=.error reject := by
  rcases hplain.1 with hnop | hkind
  · exact absurd (.inl ⟨hnop,rfl⟩) (h (reg s))
  · rw [stepStmt,if_neg (nop_not_kind hkind)]
    obtain ⟨a,ha⟩ := exists_writes hkind hplain.2
    refine hM.none st s hkind hplain.2 ?_
    cases hw : compute (fetchOf (packet s)) st (reg s) with
    | none => rfl
    | some w => exact absurd (.inr ⟨hkind,a,w,ha,hw,rfl⟩) (h _)

/-- On the way some statement divides by an index register that is zero. -/
def DividesByZero (M : Machine σ ρ) (reg : σ → ℕ → ℕ) (stmts : List Stmt) (s : σ) : Prop :=
  ∃ before st after t, stmts=before++st::after ∧ (M.runStmts before s).2=.ok t ∧
    Divides st (reg t)

theorem DividesByZero.cons {st : Stmt} {rest : List Stmt} {s t : σ} (hstep : stepStmt M st s=.ok t)
    (h : DividesByZero M reg rest t) : DividesByZero M reg (st::rest) s := by
  obtain ⟨before,st',after,t',rfl,hrun,hdiv⟩ := h
  refine ⟨st::before,st',after,t',rfl,?_,hdiv⟩
  rw [runStmts_cons,hstep]
  exact hrun

/-- What the statements that `opt_blk` leaves do: for every packet the numbers
of the atoms stand for what the atoms hold, and the run is the one of the
statements before, unless one of these divides by zero. -/
theorem optStmts_computes (hM : Computes M packet reg fetchOf reject) (p : π)
    {den : ℕ → Option ℕ} (hg : Meant (fetchOf p) den g) {val : Vals} (hval : Handed g val)
    {stmts : List Stmt} (hplain : ∀ st∈stmts, Plain st)
    (hknown : ∀ a : ℕ, a<18 → ReadFirst Reads Writes stmts a → val a≠0) {alter : Bool}
    {r : List Stmt×Vals} (hrun : exec (optStmts maxval stmts val alter) g=(.ok r,g')) :
    ∃ den', More (fetchOf p) den g den' g' ∧ Handed g' r.2 ∧
      ∀ s, packet s=p → Holds den val (reg s) →
        ((M.runStmts r.1 s).2=(M.runStmts stmts s).2 ∨ DividesByZero M reg stmts s) ∧
        ∀ t, (M.runStmts stmts s).2=.ok t → Holds den' r.2 (reg t) := by
  induction stmts generalizing den g val r with
  | nil =>
    obtain ⟨rfl,rfl⟩ := pure_eq_ok hrun
    refine ⟨den,.refl hg,hval,fun s _ hholds => ⟨.inl rfl,fun t ht => ?_⟩⟩
    rw [runStmts_nil,Except.ok.injEq] at ht
    exact ht ▸ hholds
  | cons st rest ih =>
    obtain ⟨hst,hrestPlain⟩ := List.forall_mem_cons.mp hplain
    obtain ⟨r1,g1,hfirst,hrun⟩ := exec_bind_eq_ok hrun
    obtain ⟨r2,g2,hrest,hrun⟩ := exec_bind_eq_ok hrun
    obtain ⟨rfl,rfl⟩ := pure_eq_ok hrun
    obtain ⟨den1,hmore1,hval1,hplain1,hwritten,hkept,heffect⟩ :=
      follows_optStmt hg hval hst (fun a ha hread => hknown a ha (.inl hread)) hfirst
    have hknown1 : ∀ a : ℕ, a<18 → ReadFirst Reads Writes rest a → r1.2 a≠0 := by
      intro a ha hread
      by_cases hw : Writes st a
      · exact hwritten a hw
      · rw [hkept a hw]
        exact hknown a ha (.inr ⟨hw,hread⟩)
    obtain ⟨den2,hmore2,hval2,hruns⟩ := ih hmore1.meant hval1 hrestPlain hknown1 hrest
    refine ⟨den2,hmore1.trans hmore2,hval2,fun s hs hholds => ?_⟩
    obtain ⟨hsame,hback⟩ := heffect (reg s) (hM.word s) hholds
    rw [runStmts_cons,runStmts_cons]
    by_cases heff : ∃ r', Effect (fetchOf p) st (reg s) r'
    · obtain ⟨r',heff⟩ := heff
      obtain ⟨heff1,hholds1⟩ := hsame r' heff
      subst hs
      obtain ⟨t,hstep,hpacket,hreg⟩ := hM.step_of_effect hst heff
      obtain ⟨t1,hstep1,hpacket1,hreg1⟩ := hM.step_of_effect hplain1 heff1
      have ht : t1=t := hM.ext t1 t (hpacket1.trans hpacket.symm) (hreg1.trans hreg.symm)
      rw [ht] at hstep1
      rw [hstep,hstep1]
      obtain ⟨hruns,hends⟩ := hruns t hpacket (hreg ▸ hholds1)
      exact ⟨hruns.imp_right fun hdiv => hdiv.cons hstep,hends⟩
    · have hnone : ∀ r', ¬Effect (fetchOf (packet s)) st (reg s) r' := by
        rw [hs]
        exact fun r' heff' => heff ⟨r',heff'⟩
      rw [hM.step_of_no_effect hst hnone]
      refine ⟨?_,fun t ht => by cases ht⟩
      rcases hback with hdiv | hback
      · exact .inr ⟨[],st,rest,s,rfl,rfl,hdiv⟩
      · left
        have hnone1 : ∀ r', ¬Effect (fetchOf (packet s)) r1.1 (reg s) r' := by
          rw [hs]
          exact fun r' heff' => heff ⟨r',hback r' heff'⟩
        rw [hM.step_of_no_effect hplain1 hnone1]

end Runs

/-- Behind `init_val` no number has been handed out. -/
theorem meant_initVal (fetch : ℤ → ℕ → Option ℕ) {u : Unit}
    (hrun : exec initVal g=(.ok u,g')) : Meant fetch (fun _ => none) g' ∧ Handed g' fun _ => 0 := by
  rw [initVal,exec_modify] at hrun
  obtain ⟨-,rfl⟩ := Prod.mk.inj hrun
  refine ⟨⟨?_,fun v c hc => (by cases hc),fun code v0 v1 v hv => ?_⟩,fun _ => Nat.zero_le _⟩
  · have htable : tableOf { g with
        curval:=0,nextVnode:=0,vmap:=fun _ => none,hashtbl:=fun _ => [] }=fun _ _ => False := by
      funext n v
      refine propext ⟨fun hv => ?_,False.elim⟩
      obtain ⟨h,q,hq,-⟩ := hv
      cases hq
    rw [htable]
    exact describes_empty _ _
  · obtain ⟨h,q,hq,-⟩ := hv
    cases hq

/-! ## A machine for filters -/

/-- The word, the half-word or the byte at an offset of a packet. -/
def readBytes (packet : List UInt8) (k n : ℕ) : Option ℕ :=
  if k+n ≤ packet.length then
    some (((packet.drop k).take n).foldl (fun w b => w*256+b.toNat) 0%2^32)
  else none

/-- What the loads of the filter machine read. -/
def fetchBytes (packet : List UInt8) (code : ℤ) (k : ℕ) : Option ℕ :=
  if code=bpfLd+bpfLen then some (packet.length%2^32)
  else if code=bpfLdx+bpfMsh+bpfB then (readBytes packet k 1).map fun b => 4*(b%16)
  else readBytes packet k (if sizeBits code=bpfW then 4 else if sizeBits code=bpfH then 2 else 1)

/-- A machine with a packet and words in the atoms, which ends with zero where
the packet is too short. -/
def filterMachine : Machine (List UInt8×(ℕ → BitVec 32)) ℕ where
  exec code k s :=
    let st : Stmt := ⟨code,none,none,k⟩
    if BpfProgram.bpfClass code=BpfProgram.bpfRet then
      .error (if atomuse st=none then k else (s.2 16).toNat)
    else
      match atomdef st,compute (fetchBytes s.1) st fun a => (s.2 a).toNat with
      | some a,some w => .ok (s.1,Function.update s.2 a.toNat (BitVec.ofNat 32 w))
      | _,_ => .error 0
  test code k s :=
    let b := if srcOf code=bpfX then (s.2 17).toNat else k
    if opOf code=bpfJgt then b < (s.2 16).toNat
    else if opOf code=bpfJge then b ≤ (s.2 16).toNat
    else if opOf code=bpfJset then (s.2 16).toNat &&& b≠0
    else (s.2 16).toNat=b
  ret code k s h := ⟨_,if_pos h⟩

theorem fetchBytes_lt {packet : List UInt8} {code : ℤ} {k w : ℕ}
    (h : fetchBytes packet code k=some w) : w < 2^32 := by
  have hread {k n w : ℕ} (h : readBytes packet k n=some w) : w < 2^32 := by
    rw [readBytes] at h
    split at h
    · rw [←Option.some.inj h]
      exact Nat.mod_lt _ (by decide)
    · cases h
  rw [fetchBytes] at h
  split at h
  · rw [←Option.some.inj h]
    exact Nat.mod_lt _ (by decide)
  · split at h
    · obtain ⟨b,-,rfl⟩ := Option.map_eq_some_iff.mp h
      omega
    · exact hread h

theorem compute_lt {packet : List UInt8} {s : Stmt} {reg : ℕ → ℕ} {w : ℕ}
    (hreg : ∀ a, reg a < 2^32) (h : compute (fetchBytes packet) s reg=some w) : w < 2^32 := by
  rw [compute] at h
  cases hkind : kindOf s.code <;> rw [hkind] at h <;> dsimp only at h
  all_goals first
    | exact fetchBytes_lt h
    | exact arith_lt (hreg _) (toU32_lt _) h
    | exact arith_lt (hreg _) (hreg _) h
    | (rw [←Option.some.inj h]; first | exact toU32_lt _ | exact hreg _)
    | cases h

/-- The code and the operand are the same for the machine. -/
theorem compute_asWord {fetch : ℤ → ℕ → Option ℕ} {st : Stmt} {reg : ℕ → ℕ}
    (hkind : kindOf st.code≠.other) (hslotted : Slotted st) :
    compute fetch (asWord st) reg=compute fetch st reg := by
  have hcode : (asWord st).code=st.code := (uShort_cast st.code).trans (code_mod_of_kind hkind)
  have hk : (asWord st).k=st.k%2^32 := Int.toNat_of_nonneg (Int.emod_nonneg st.k (by decide))
  have hword (i : ℤ) : toU32 (st.k%2^32+i)=toU32 (st.k+i) := by
    rw [toU32,toU32,Int.emod_add_emod]
  have hwordK : toU32 (st.k%2^32)=toU32 st.k := by
    rw [toU32,toU32,Int.emod_emod]
  have hmem (h : kindOf st.code=.mem ∨ kindOf st.code=.memX) : (asWord st).k=st.k := by
    refine asWord_k (hslotted (.inl ?_))
    have hload : ∀ c∈knownCodes, kindOf c=.mem ∨ kindOf c=.memX →
        (classOf c=bpfLd ∨ classOf c=bpfLdx) ∧ modeOf c=bpfMem := by decide
    exact hload st.code (mem_of_kind hkind) h
  rw [compute,compute,hcode]
  cases hcase : kindOf st.code with
  | mem =>
    dsimp only
    rw [hmem (.inl hcase)]
  | memX =>
    dsimp only
    rw [hmem (.inr hcase)]
  | abs | ind | imm | immX | msh | aluK =>
    dsimp only
    rw [hk]
    first | rw [hwordK] | rw [hword]
  | len | neg | aluX | txa | tax | st | stx | other => rfl

/-- The machine for filters obeys the laws. -/
theorem filterMachine_computes :
    Computes filterMachine Prod.fst (fun s a => (s.2 a).toNat) fetchBytes 0 := by
  have hret {code : ℤ} (h : kindOf code≠.other) :
      BpfProgram.bpfClass (BpfProgram.uShort code)≠BpfProgram.bpfRet := by
    have hknown : ∀ c∈knownCodes,
        BpfProgram.bpfClass (BpfProgram.uShort c)≠BpfProgram.bpfRet := by decide
    exact hknown code (mem_of_kind h)
  have hexec (st : Stmt) (s : List UInt8×(ℕ → BitVec 32)) (h : kindOf st.code≠.other)
      (hslotted : Slotted st) :
      filterMachine.exec (BpfProgram.uShort st.code) (BpfProgram.uInt32 st.k) s=
        match atomdef st,compute (fetchBytes s.1) st fun a => (s.2 a).toNat with
        | some a,some w => .ok (s.1,Function.update s.2 a.toNat (BitVec.ofNat 32 w))
        | _,_ => .error 0 := by
    rw [←atomdef_asWord hslotted fun hnop => (class_of_kind h).1 hnop,
      ←compute_asWord h hslotted]
    exact if_neg (hret h)
  refine ⟨fun s t hpacket hreg => ?_,fun s a => BitVec.isLt _,fun st s h hslotted hnone => ?_,
    fun st s a w h hslotted ha hw => ?_⟩
  · exact Prod.ext hpacket (funext fun a => BitVec.eq_of_toNat_eq (congrFun hreg a))
  · rw [hexec st s h hslotted,hnone]
    cases atomdef st <;> rfl
  · rw [hexec st s h hslotted,hw,ha]
    refine ⟨_,rfl,rfl,funext fun b => ?_⟩
    have hlt : w < 2^32 := compute_lt (fun b => BitVec.isLt _) hw
    by_cases hb : b=a
    · rw [hb,Int.toNat_natCast]
      dsimp only
      rw [Function.update_self,Function.update_self,BitVec.toNat_ofNat,Nat.mod_eq_of_lt hlt]
    · rw [Int.toNat_natCast]
      dsimp only
      rw [Function.update_of_ne hb,Function.update_of_ne hb]

/-- A block that keeps an offset in a scratch register. -/
def slottedBlock : List Stmt :=
  [⟨0x00,none,none,3⟩,⟨0x02,none,none,0⟩,⟨0x61,none,none,0⟩,⟨0x50,none,none,5⟩,⟨0x04,none,none,0⟩]

/-- The variables of the optimiser behind `init_val`. -/
def initialGlobals : Globals := ⟨true,0,0,fun _ => none,fun _ => [],[]⟩

theorem slottedBlock_known : ∀ a : ℕ, a<18 → ¬ReadFirst Reads Writes slottedBlock a := by
  simp only [slottedBlock,ReadFirst,LiveBefore,Writes]
  decide

/-- The offset is known, and the byte is loaded from its place. -/
theorem optStmts_computes_slotted : ∃ r g',
    exec (optStmts 100 slottedBlock (fun _ => 0) true) initialGlobals=(.ok r,g') ∧
    r.1=[⟨0x00,none,none,3⟩,⟨0x02,none,none,0⟩,⟨0x01,none,none,3⟩,⟨0x30,none,none,8⟩,
      ⟨nop,none,none,0⟩] ∧
    ∀ s, (filterMachine.runStmts r.1 s).2=(filterMachine.runStmts slottedBlock s).2 ∨
      DividesByZero filterMachine (fun s a => (s.2 a).toNat) slottedBlock s := by
  have hrun : ∃ r g', exec (optStmts 100 slottedBlock (fun _ => 0) true) initialGlobals=(.ok r,g') ∧
      r.1=[⟨0x00,none,none,3⟩,⟨0x02,none,none,0⟩,⟨0x01,none,none,3⟩,⟨0x30,none,none,8⟩,
        ⟨nop,none,none,0⟩] := ⟨_,_,rfl,rfl⟩
  obtain ⟨r,g',hrun,hr⟩ := hrun
  refine ⟨r,g',hrun,hr,fun s => ?_⟩
  have hinit : exec initVal initialGlobals=(.ok (),initialGlobals) := rfl
  obtain ⟨hmeant,hhanded⟩ := meant_initVal (fetchBytes s.1) hinit
  obtain ⟨den',-,-,hruns⟩ := optStmts_computes filterMachine_computes s.1 hmeant hhanded
    (by decide) (fun a ha hread => absurd hread (slottedBlock_known a ha)) hrun
  exact (hruns s rfl fun a ha h => absurd rfl h).1

end AndroidPlatform.BpfNumbering
