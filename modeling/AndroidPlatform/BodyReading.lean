import Mathlib.Data.List.Basic
import Mathlib.Data.Nat.Notation

/-!
# Reading the body of a packet

A body is read from a pointer on, and the length that is left is counted apart. Reading can leave
the body, find something bad, or go on. A reader is inside if it does not leave the body.
-/

namespace AndroidPlatform.BodyReading

/-- The outcome of a part of a reader. -/
inductive Reading (α : Type) where
  /-- A byte outside of the body was accessed. -/
  | outside
  /-- The body is bad. -/
  | bad
  /-- The reader goes on. -/
  | ok (a : α)

namespace Reading

variable {α β : Type}

/-- One part after the other. -/
def bind (x : Reading α) (f : α → Reading β) : Reading β :=
  match x with
  | outside => outside
  | bad => bad
  | ok a => f a

instance : Monad Reading where
  pure := ok
  bind := bind

/-- The body is not left, and the result has the property if there is one. -/
def Inside (x : Reading α) (P : α → Prop) : Prop :=
  match x with
  | outside => False
  | bad => True
  | ok a => P a

theorem Inside.bind {x : Reading α} {f : α → Reading β} {P : α → Prop} {Q : β → Prop}
    (hx : x.Inside P) (hf : ∀ a,P a → (f a).Inside Q) : (x >>= f).Inside Q := by
  cases x with
  | outside => exact hx.elim
  | bad => exact trivial
  | ok a => exact hf a hx

theorem Inside.mono {x : Reading α} {P Q : α → Prop} (hx : x.Inside P) (h : ∀ a,P a → Q a) :
    x.Inside Q := by
  cases x with
  | outside => exact hx
  | bad => exact trivial
  | ok a => exact h a hx

theorem Inside.ne_outside {x : Reading α} {P : α → Prop} (hx : x.Inside P) : x≠outside := by
  rintro rfl
  exact hx

theorem inside_ite {c : Prop} [Decidable c] {x y : Reading α} {P : α → Prop}
    (hx : c → x.Inside P) (hy : ¬c → y.Inside P) : (if c then x else y).Inside P := by
  by_cases h : c
  · rw [if_pos h]
    exact hx h
  · rw [if_neg h]
    exact hy h

@[simp] theorem ok_bind (a : α) (f : α → Reading β) : (ok a >>= f)=f a := rfl

@[simp] theorem outside_bind (f : α → Reading β) : ((outside : Reading α) >>= f)=outside := rfl

@[simp] theorem bad_bind (f : α → Reading β) : ((bad : Reading α) >>= f)=bad := rfl

end Reading

open Reading

/-- The pointer into the body, as the bytes from it to the end, and the length that is left. -/
structure Cursor where
  /-- The bytes from the pointer on. -/
  p : List UInt8
  /-- The length. -/
  len : ℕ

/-- Look at a byte without moving. -/
def peek (p : List UInt8) (i : ℕ) : Reading UInt8 :=
  match p[i]? with
  | some c => ok c
  | none => outside

theorem peek_of_lt {p : List UInt8} {i : ℕ} (h : i<p.length) : peek p i=ok p[i] := by
  rw [peek,List.getElem?_eq_getElem h]

/-! ## What is left -/

section

variable {σ : Type}

theorem sub_lt_of_not_bad {len cilen : ℕ} (h : ¬(cilen<2 ∨ len<cilen)) : len-cilen < len := by
  omega

/-- A loop over what is left: each option has a type, a length and a value that is looked at. -/
def trailing (other : UInt8 → ℕ → List UInt8 → σ → Reading σ) (c : Cursor) (s : σ) : Reading σ :=
  if c.len<2 then ok s
  else do
    let citype ← peek c.p 0
    let cilen ← peek c.p 1
    if _hbad : cilen.toNat<2 ∨ c.len<cilen.toNat then bad
    else
      let s ← other citype cilen.toNat (c.p.drop 2) s
      trailing other ⟨c.p.drop cilen.toNat,c.len-cilen.toNat⟩ s
termination_by c.len
decreasing_by exact sub_lt_of_not_bad _hbad

theorem trailing_inside {other : UInt8 → ℕ → List UInt8 → σ → Reading σ} {P : σ → Prop}
    (hother : ∀ citype cilen p s,2≤cilen → cilen-2≤p.length → P s →
      (other citype cilen p s).Inside P) (n : ℕ) :
    ∀ (c : Cursor) (s : σ),c.len≤n → c.len≤c.p.length → P s →
      (trailing other c s).Inside P := by
  induction n with
  | zero =>
    intro c s hlen hle hs
    rw [trailing,if_pos (by omega)]
    exact hs
  | succ n ih =>
    intro c s hlen hle hs
    rw [trailing]
    refine inside_ite (fun _ => hs) fun hlong => ?_
    rw [peek_of_lt (by omega : 0<c.p.length),peek_of_lt (by omega : 1<c.p.length),ok_bind,ok_bind]
    split_ifs with hbad
    · exact trivial
    · refine (hother _ _ _ s (by omega) (by rw [List.length_drop]; omega) hs).bind fun s' hs' => ?_
      refine ih _ s' ?_ ?_ hs'
      · dsimp only
        omega
      · dsimp only
        rw [List.length_drop]
        omega

end

/-! ## Options that are looked for -/

/-- A part of a reader that looks for one option. -/
structure Item (σ : Type) where
  /-- Whether the option is looked for. -/
  asked : Bool
  /-- What is done then. -/
  part : Cursor×σ → Reading (Cursor×σ)

/-- An option as a reader expects it. -/
structure Expected where
  /-- Whether it is looked for. -/
  asked : Bool
  /-- Its type. -/
  type : UInt8
  /-- The bytes that it can have. -/
  fits : List UInt8 → Prop

/-- One part after the other. -/
def runItems {σ : Type} : List (Item σ) → Cursor×σ → Reading (Cursor×σ)
  | [],x => ok x
  | item::items,x => (if item.asked then item.part x else ok x) >>= runItems items

/-- The body is a row of options that are expected, in their order, and less than two bytes, and
one more option is looked for after them. -/
def RunsOut : List Expected → List UInt8 → Prop
  | [],_ => False
  | e::later,p =>
    RunsOut later p ∨
      (e.asked=true ∧ (p.length<2 ∨ ∃ b rest,e.fits b ∧ p=b++rest ∧ RunsOut later rest))

section

variable {σ : Type}

/-- The length that is left is that of the bytes at most. -/
def Cursor.Bounded (c : Cursor) : Prop := c.len≤c.p.length

/-- The length that is left is less than that of the bytes by two at least. -/
def Cursor.Behind (c : Cursor) : Prop := c.len+2≤c.p.length

/-- Parts that stay inside one after the other stay inside. -/
theorem runItems_inside {P : Cursor → Prop} {items : List (Item σ)}
    (h : ∀ item∈items,∀ c s,P c → (item.part (c,s)).Inside fun r => P r.1) {c : Cursor} {s : σ}
    (hc : P c) : (runItems items (c,s)).Inside fun r => P r.1 := by
  induction items generalizing c s with
  | nil => exact hc
  | cons item items ih =>
    have hfirst : (if item.asked then item.part (c,s) else ok (c,s)).Inside fun r => P r.1 :=
      inside_ite (fun _ => h item List.mem_cons_self c s hc) fun _ => hc
    refine hfirst.bind fun r hr => ?_
    exact ih (fun item' hin => h item' (List.mem_cons_of_mem _ hin)) hr

/-- The part looks at the length of an option first, whether or not there are two bytes. -/
structure Looks (item : Item σ) (e : Expected) : Prop where
  asked : item.asked=e.asked
  starts : ∀ b,e.fits b → b.head?=some e.type
  short : ∀ c s,c.p.length<2 → item.part (c,s)=outside
  alone : ∀ c s,2≤c.p.length → c.p.head?≠some e.type → item.part (c,s)=ok (c,s)
  takes : ∀ b rest s,e.fits b →
    ∃ s',item.part (⟨b++rest,(b++rest).length⟩,s)=ok (⟨rest,rest.length⟩,s')
  cases : ∀ (p : List UInt8) s,2≤p.length →
    item.part (⟨p,p.length⟩,s)=bad ∨ item.part (⟨p,p.length⟩,s)=ok (⟨p,p.length⟩,s) ∨
      (∃ b rest s',e.fits b ∧ p=b++rest ∧
        item.part (⟨p,p.length⟩,s)=ok (⟨rest,rest.length⟩,s')) ∨
      ∃ c' s',Cursor.Behind c' ∧ item.part (⟨p,p.length⟩,s)=ok (c',s')
  behind : ∀ c s,Cursor.Behind c → (item.part (c,s)).Inside fun r => r.1.Behind

theorem runItems_behind {items : List (Item σ)} {es : List Expected}
    (h : List.Forall₂ Looks items es) {c : Cursor} {s : σ} (hc : c.Behind) :
    (runItems items (c,s)).Inside fun r => r.1.Behind := by
  induction h generalizing c s with
  | nil => exact hc
  | @cons item e items later hlooks hrest ih =>
    have hfirst : (if item.asked then item.part (c,s) else ok (c,s)).Inside fun r => r.1.Behind :=
      inside_ite (fun _ => hlooks.behind c s hc) fun _ => hc
    exact hfirst.bind fun r hr => ih hr

/-- A body that runs out starts with an option that is looked for, or is short. -/
theorem RunsOut.head {items : List (Item σ)} {es : List Expected} {p : List UInt8}
    (h : List.Forall₂ Looks items es) (hout : RunsOut es p) :
    p.length<2 ∨ ∃ type∈es.map Expected.type,p.head?=some type := by
  induction h generalizing p with
  | nil => exact hout.elim
  | @cons item e items later hlooks hrest ih =>
    rcases hout with hlater | ⟨-,hshort | ⟨b,rest,hfits,rfl,-⟩⟩
    · exact (ih hlater).imp_right fun ⟨type,hin,hhead⟩ => ⟨type,List.mem_cons_of_mem _ hin,hhead⟩
    · exact Or.inl hshort
    · refine Or.inr ⟨e.type,List.mem_cons_self,?_⟩
      have hhead := hlooks.starts b hfits
      have hne : b≠[] := by
        rintro rfl
        cases hhead
      rw [List.head?_append_of_ne_nil b hne]
      exact hhead

/-- The length that is left is that of the bytes, or less by two at least. -/
def Cursor.Settled (c : Cursor) : Prop := c.len=c.p.length ∨ c.Behind

theorem Cursor.Settled.bounded {c : Cursor} (h : c.Settled) : c.Bounded := by
  rcases h with heq | hbehind
  · exact Nat.le_of_eq heq
  · unfold Cursor.Behind at hbehind
    unfold Cursor.Bounded
    omega

theorem Looks.settled {item : Item σ} {e : Expected} (h : Looks item e) {c : Cursor} {s : σ}
    {r : Cursor×σ} (hc : c.Settled) (hok : item.part (c,s)=ok r) : r.1.Settled := by
  rcases hc with hlen | hbehind
  · obtain ⟨p,len⟩ := c
    dsimp only at hlen
    subst hlen
    by_cases hshort : p.length<2
    · rw [h.short _ _ hshort] at hok
      cases hok
    · rcases h.cases p s (Nat.not_lt.mp hshort) with hbad | hsame | ⟨b,rest,s',-,-,htakes⟩ |
        ⟨c',s',hc',hbehind⟩
      · rw [hbad] at hok
        cases hok
      · rw [hsame] at hok
        cases hok
        exact Or.inl rfl
      · rw [htakes] at hok
        cases hok
        exact Or.inl rfl
      · rw [hbehind] at hok
        cases hok
        exact Or.inr hc'
  · have hstays := h.behind c s hbehind
    rw [hok] at hstays
    exact Or.inr hstays

theorem runItems_settled {items : List (Item σ)} {es : List Expected}
    (h : List.Forall₂ Looks items es) {c : Cursor} {s : σ} {r : Cursor×σ} (hc : c.Settled)
    (hok : runItems items (c,s)=ok r) : r.1.Settled := by
  induction h generalizing c s with
  | nil =>
    cases hok
    exact hc
  | @cons item e items later hlooks hrest ih =>
    rw [runItems] at hok
    by_cases hasked : item.asked=true
    · rw [if_pos hasked] at hok
      cases hfirst : item.part (c,s) with
      | outside =>
        rw [hfirst] at hok
        cases hok
      | bad =>
        rw [hfirst] at hok
        cases hok
      | ok r₁ =>
        rw [hfirst,ok_bind] at hok
        exact ih (hlooks.settled hc hfirst) hok
    · rw [if_neg hasked,ok_bind] at hok
      exact ih hc hok

/-- A reader leaves the body exactly where the body runs out before the last option that is looked
for. -/
theorem runItems_outside_iff {items : List (Item σ)} {es : List Expected}
    (h : List.Forall₂ Looks items es) (htypes : (es.map Expected.type).Nodup) (p : List UInt8)
    (s : σ) : runItems items (⟨p,p.length⟩,s)=outside ↔ RunsOut es p := by
  induction h generalizing p s with
  | nil => exact iff_of_false (fun hout => by cases hout) id
  | @cons item e items later hlooks hrest ih =>
    obtain ⟨hnew,hnodup⟩ := List.nodup_cons.mp htypes
    rw [runItems,RunsOut]
    cases hasked : item.asked with
    | false =>
      rw [← hlooks.asked,hasked,if_neg Bool.false_ne_true,ok_bind,ih hnodup]
      simp
    | true =>
      rw [← hlooks.asked,hasked,if_pos rfl]
      by_cases hshort : p.length<2
      · rw [hlooks.short _ _ hshort,outside_bind]
        exact iff_of_true rfl (Or.inr ⟨rfl,Or.inl hshort⟩)
      constructor
      · intro hout
        rcases hlooks.cases p s (Nat.not_lt.mp hshort) with hbad | hsame | ⟨b,rest,s',hfits,hp,hok⟩ |
          ⟨c',s',hc',hok⟩
        · rw [hbad,bad_bind] at hout
          cases hout
        · rw [hsame,ok_bind,ih hnodup] at hout
          exact Or.inl hout
        · rw [hok,ok_bind,ih hnodup] at hout
          exact Or.inr ⟨rfl,Or.inr ⟨b,rest,hfits,hp,hout⟩⟩
        · rw [hok,ok_bind] at hout
          exact absurd hout (runItems_behind hrest hc').ne_outside
      · rintro (hout | ⟨-,hless | ⟨b,rest,hfits,rfl,hout⟩⟩)
        · have hother : p.head?≠some e.type := by
            intro hhead
            rcases hout.head hrest with hless | ⟨type,hin,hhead'⟩
            · exact hshort hless
            · rw [hhead,Option.some.injEq] at hhead'
              exact hnew (hhead' ▸ hin)
          rw [hlooks.alone ⟨p,p.length⟩ s (Nat.not_lt.mp hshort) hother,ok_bind,ih hnodup]
          exact hout
        · exact absurd hless hshort
        · obtain ⟨s',htakes⟩ := hlooks.takes b rest s hfits
          rw [htakes,ok_bind,ih hnodup]
          exact hout

end

end AndroidPlatform.BodyReading
