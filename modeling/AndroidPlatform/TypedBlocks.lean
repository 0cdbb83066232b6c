import Mathlib.Data.List.Basic
import Mathlib.Data.List.Forall2
import Mathlib.Data.Nat.Notation

/-!
# Blocks with a type and a length

A byte string is split into blocks: a type, a length that counts the whole block, and a
value. Readers of blocks are run over a selection of them: each reader takes its block away
when the string starts with it, and leaves the string alone otherwise.
-/

namespace AndroidPlatform.TypedBlocks

/-! ## Splitting -/

/-- A type, the length of all and a value. -/
def IsBlock (b : List UInt8) : Prop :=
  ∃ type len value,b=type::len::value ∧ len.toNat=value.length+2

/-- The blocks of a byte string, up to one that is too short. -/
def split : List UInt8 → List (List UInt8)
  | type::len::p =>
    if 2≤len.toNat then (type::len::p.take (len.toNat-2))::split (p.drop (len.toNat-2)) else []
  | _ => []
termination_by p => p.length
decreasing_by
  simp only [List.length_cons,List.length_drop]
  omega

variable {b b' p : List UInt8} {bs sel : List (List UInt8)}

theorem split_append (h : IsBlock b) (p : List UInt8) : split (b++p)=b::split p := by
  obtain ⟨type,len,value,rfl,hlen⟩ := h
  have hvalue : len.toNat-2=value.length := by omega
  rw [List.cons_append,List.cons_append,split,if_pos (by omega),hvalue,List.take_left,
    List.drop_left]

/-- Blocks one behind the other are found again. -/
theorem split_flatten (h : ∀ b∈bs,IsBlock b) : split bs.flatten=bs := by
  induction bs with
  | nil => rw [List.flatten_nil,split]; exact fun _ _ _ heq => by cases heq
  | cons b bs ih =>
    rw [List.flatten_cons,split_append (h b List.mem_cons_self),
      ih fun b hb => h b (List.mem_cons_of_mem _ hb)]

/-- Empty strings between blocks do not matter. -/
theorem flatten_filter (bs : List (List UInt8)) : (bs.filter (·≠[])).flatten=bs.flatten := by
  induction bs with
  | nil => rfl
  | cons b bs ih =>
    by_cases hb : b=[]
    · rw [List.filter_cons_of_neg (by simpa using hb),ih,hb]
      rfl
    · rw [List.filter_cons_of_pos (by simpa using hb),List.flatten_cons,List.flatten_cons,ih]

/-! ## Splitting completely -/

/-- The blocks of a byte string, and as the last one all that is left where a block is not
whole. -/
def pieces : List UInt8 → List (List UInt8)
  | [] => []
  | [b] => [[b]]
  | type::len::p =>
    if 2≤len.toNat ∧ len.toNat≤p.length+2 then
      (type::len::p.take (len.toNat-2))::pieces (p.drop (len.toNat-2))
    else [type::len::p]
termination_by p => p.length
decreasing_by
  simp only [List.length_cons,List.length_drop]
  omega

/-- The pieces go through a byte string from its start. -/
@[elab_as_elim]
theorem pieces_induction {motive : List UInt8 → Prop} (nil : motive [])
    (short : ∀ b,motive [b])
    (bad : ∀ type len p,¬(2≤len.toNat ∧ len.toNat≤p.length+2) → motive (type::len::p))
    (block : ∀ type len value rest,len.toNat=value.length+2 → motive rest →
      motive (type::len::(value++rest))) (p : List UInt8) : motive p := by
  induction p using pieces.induct with
  | case1 => exact nil
  | case2 b => exact short b
  | case3 type len p hlen ih =>
    have hvalue : len.toNat=(p.take (len.toNat-2)).length+2 := by
      rw [List.length_take]
      omega
    have hwhole := block type len (p.take (len.toNat-2)) (p.drop (len.toNat-2)) hvalue ih
    rwa [List.take_append_drop] at hwhole
  | case4 type len p hlen => exact bad type len p hlen

theorem pieces_bad {type len : UInt8} (h : ¬(2≤len.toNat ∧ len.toNat≤p.length+2)) :
    pieces (type::len::p)=[type::len::p] := by
  rw [pieces,if_neg h]

theorem pieces_block {type len : UInt8} {value rest : List UInt8}
    (h : len.toNat=value.length+2) :
    pieces (type::len::(value++rest))=(type::len::value)::pieces rest := by
  have hvalue : len.toNat-2=value.length := by omega
  rw [pieces,if_pos (by rw [List.length_append]; omega),hvalue,List.take_left,List.drop_left]

/-- Nothing is lost. -/
theorem pieces_flatten (p : List UInt8) : (pieces p).flatten=p := by
  induction p using pieces_induction with
  | nil => rw [pieces,List.flatten_nil]
  | short b => rw [pieces,List.flatten_cons,List.flatten_nil,List.append_nil]
  | bad type len p h => rw [pieces_bad h,List.flatten_cons,List.flatten_nil,List.append_nil]
  | block type len value rest h ih => rw [pieces_block h,List.flatten_cons,ih]; rfl

/-- Blocks one behind the other are the pieces. -/
theorem pieces_flatten_of_blocks (h : ∀ b∈bs,IsBlock b) : pieces bs.flatten=bs := by
  induction bs with
  | nil => rw [List.flatten_nil,pieces]
  | cons b bs ih =>
    obtain ⟨type,len,value,rfl,hlen⟩ := h b List.mem_cons_self
    have hrest := ih fun b hb => h b (List.mem_cons_of_mem _ hb)
    rw [List.flatten_cons,List.cons_append,List.cons_append,pieces_block hlen,hrest]

/-! ## Reading a selection -/

/-- A reader: it fails, or tells whether it has taken its block away, and what it does to a
state then. -/
structure Reader (α : Type*) where
  read : List UInt8 → Option (Bool×List UInt8)
  apply : α → α

/-- The readers one after the other. -/
def run {α : Type*} : List (Reader α) → α → List UInt8 → Option (α×List UInt8)
  | [],a,p => some (a,p)
  | r::rs,a,p => (r.read p).bind fun (found,p) => run rs (if found then r.apply a else a) p

/-- A reader leaves a string alone that starts with the block. -/
def Passes (read : List UInt8 → Option (Bool×List UInt8)) (b : List UInt8) : Prop :=
  b≠[] → ∀ rest,read (b++rest)=some (false,b++rest)

/-- A reader takes a block away if its value fits, and fails if it does not. -/
structure Reads (fits : List UInt8 → Prop) (read : List UInt8 → Option (Bool×List UInt8))
    (b : List UInt8) : Prop where
  empty : read []=some (false,[])
  reads : b≠[] → fits b → ∀ rest,read (b++rest)=some (true,rest)
  fails : b≠[] → ¬fits b → ∀ rest,read (b++rest)=none

/-- Readers for blocks, each of which leaves the later ones alone. -/
inductive Covers {α : Type*} (fits : List UInt8 → Prop) :
    List (Reader α) → List (List UInt8) → Prop
  | nil : Covers fits [] []
  | cons {r : Reader α} {rs : List (Reader α)} {b : List UInt8} {bs : List (List UInt8)}
      (hreads : Reads fits r.read b) (hpasses : ∀ later∈bs,Passes r.read later)
      (hrest : Covers fits rs bs) : Covers fits (r::rs) (b::bs)

local instance lawfulBytes : LawfulBEq (List UInt8) := inferInstance

/-- What the readers of the selected blocks do to a state. -/
def applied {α : Type*} : List (Reader α) → List (List UInt8) → List (List UInt8) → α → α
  | r::rs,b::bs,sel,a => applied rs bs sel (if b∈sel then r.apply a else a)
  | _,_,_,a => a

section

variable {α : Type*} {fits : List UInt8 → Prop} {rs : List (Reader α)}

theorem applied_cons_of_not_mem (h : b∉bs) (a : α) :
    applied rs bs (b::sel) a=applied rs bs sel a := by
  induction bs generalizing rs a with
  | nil =>
    cases rs with
    | nil => rfl
    | cons r rs => rfl
  | cons b' bs ih =>
    cases rs with
    | nil => rfl
    | cons r rs =>
      have hne : b'≠b := fun heq => h (heq ▸ List.mem_cons_self)
      rw [applied,applied,ih (fun hin => h (List.mem_cons_of_mem _ hin))]
      simp only [List.mem_cons,hne,false_or]

/-- A block that is read is none of the blocks that are left alone. -/
theorem Reads.not_mem {read : List UInt8 → Option (Bool×List UInt8)} (hreads : Reads fits read b)
    (hpasses : ∀ later∈bs,Passes read later) (hb : b≠[]) : b∉bs := by
  intro hin
  have hpass := hpasses b hin hb []
  by_cases hfit : fits b
  · rw [hreads.reads hb hfit] at hpass
    cases hpass
  · rw [hreads.fails hb hfit] at hpass
    cases hpass

/-- What the first reader does to a selection of the blocks. -/
theorem Reads.selection {r : Reader α} (hreads : Reads fits r.read b)
    (hpasses : ∀ later∈bs,Passes r.read later) (hsel : sel.Sublist ((b::bs).filter (·≠[]))) :
    (b∉sel ∧ sel.Sublist (bs.filter (·≠[])) ∧ r.read sel.flatten=some (false,sel.flatten)) ∨
      ∃ rest,sel=b::rest ∧ b≠[] ∧ b∉bs ∧ rest.Sublist (bs.filter (·≠[])) := by
  have hskips : sel.Sublist (bs.filter (·≠[])) → r.read sel.flatten=some (false,sel.flatten) := by
    intro hskip
    cases sel with
    | nil => exact hreads.empty
    | cons later sel =>
      obtain ⟨hin,hne⟩ := List.mem_filter.mp (hskip.subset List.mem_cons_self)
      exact hpasses later hin (by simpa using hne) sel.flatten
  by_cases hb : b=[]
  · rw [List.filter_cons_of_neg (by simpa using hb)] at hsel
    refine Or.inl ⟨fun hin => ?_,hsel,hskips hsel⟩
    have hne := (List.mem_filter.mp (hsel.subset hin)).2
    rw [hb] at hne
    simp at hne
  · have hnot := hreads.not_mem hpasses hb
    rw [List.filter_cons_of_pos (by simpa using hb)] at hsel
    rcases List.sublist_cons_iff.mp hsel with hskip | ⟨rest,rfl,hrest⟩
    · exact Or.inl ⟨fun hin => hnot (List.mem_filter.mp (hskip.subset hin)).1,hskip,hskips hskip⟩
    · exact Or.inr ⟨rest,rfl,hb,hnot,hrest⟩

/-- The readers take a whole selection away if all its values fit. -/
theorem Covers.run_of_fits (h : Covers fits rs bs) (hsel : sel.Sublist (bs.filter (·≠[]))) (hfits : ∀ b∈sel,fits b) (a : α) :
    run rs a sel.flatten=some (applied rs bs sel a,[]) := by
  induction h generalizing sel a with
  | nil =>
    obtain rfl := List.sublist_nil.mp hsel
    rfl
  | @cons r rs b bs hreads hpasses hrest ih =>
    rcases hreads.selection hpasses hsel with ⟨hnot,hskip,hread⟩ | ⟨rest,rfl,hb,hnot,hskip⟩
    · rw [run,hread,Option.bind_some,applied,if_neg hnot]
      exact ih hskip hfits a
    · rw [run,List.flatten_cons,hreads.reads hb (hfits b List.mem_cons_self),Option.bind_some,
        applied,if_pos List.mem_cons_self,applied_cons_of_not_mem hnot]
      exact ih hskip (fun b' hin => hfits b' (List.mem_cons_of_mem _ hin)) _

/-- They fail if the value of a selected block does not fit. -/
theorem Covers.run_of_not_fits (h : Covers fits rs bs) (hsel : sel.Sublist (bs.filter (·≠[]))) (hbad : ∃ b∈sel,¬fits b) (a : α) :
    run rs a sel.flatten=none := by
  induction h generalizing sel a with
  | nil =>
    obtain rfl := List.sublist_nil.mp hsel
    obtain ⟨b,hin,-⟩ := hbad
    exact absurd hin List.not_mem_nil
  | @cons r rs b bs hreads hpasses hrest ih =>
    rcases hreads.selection hpasses hsel with ⟨-,hskip,hread⟩ | ⟨rest,rfl,hb,hnot,hskip⟩
    · rw [run,hread,Option.bind_some]
      exact ih hskip hbad a
    · by_cases hfit : fits b
      · rw [run,List.flatten_cons,hreads.reads hb hfit,Option.bind_some]
        refine ih hskip ?_ _
        obtain ⟨b',hin,hnotfits⟩ := hbad
        rcases List.mem_cons.mp hin with rfl | hin
        · exact absurd hfit hnotfits
        · exact ⟨b',hin,hnotfits⟩
      · rw [run,List.flatten_cons,hreads.fails hb hfit,Option.bind_none]

/-- A flag that one of the selected readers clears, and that no reader sets, is clear
afterwards. -/
theorem applied_off {flag : α → Bool} (hkeep : ∀ r∈rs,∀ a,flag a=false → flag (r.apply a)=false)
    (hoff : (∃ r b,(r,b)∈rs.zip bs ∧ b∈sel ∧ ∀ a,flag (r.apply a)=false) ∨ flag a=false) :
    flag (applied rs bs sel a)=false := by
  induction rs generalizing bs a with
  | nil =>
    rcases hoff with ⟨r,b,hin,-⟩ | hclear
    · exact absurd hin List.not_mem_nil
    · cases bs with
      | nil => exact hclear
      | cons b bs => exact hclear
  | cons r rs ih =>
    cases bs with
    | nil =>
      rcases hoff with ⟨r,b,hin,-⟩ | hclear
      · exact absurd hin List.not_mem_nil
      · exact hclear
    | cons b bs =>
      refine ih (fun r hr => hkeep r (List.mem_cons_of_mem _ hr)) ?_
      have hstay : flag a=false → flag (if b∈sel then r.apply a else a)=false := by
        intro hclear
        split
        · exact hkeep r List.mem_cons_self a hclear
        · exact hclear
      rcases hoff with ⟨r',b',hin,hsel,hclears⟩ | hclear
      · rcases List.mem_cons.mp hin with heq | hin
        · obtain ⟨rfl,rfl⟩ := Prod.mk.inj heq
          rw [if_pos hsel]
          exact Or.inr (hclears a)
        · exact Or.inl ⟨r',b',hin,hsel,hclears⟩
      · exact Or.inr (hstay hclear)

end

/-! ## Types -/

/-- The blocks have the types, unless they are empty. -/
def HaveTypes (bs : List (List UInt8)) (types : List UInt8) : Prop :=
  List.Forall₂ (fun b type => b≠[] → b.head?=some type) bs types

/-- The blocks that stand for a type. -/
def ofType (bs : List (List UInt8)) (types : List UInt8) (type : UInt8) : List (List UInt8) :=
  ((bs.zip types).filter fun entry => entry.2=type).map Prod.fst

theorem HaveTypes.head_mem {types : List UInt8} (h : HaveTypes bs types) (hin : b∈bs)
    (hne : b≠[]) : ∃ type∈types,b.head?=some type := by
  unfold HaveTypes at h
  induction h with
  | nil => exact absurd hin List.not_mem_nil
  | @cons b' type bs types hb' hrest ih =>
    rcases List.mem_cons.mp hin with rfl | hin
    · exact ⟨type,List.mem_cons_self,hb' hne⟩
    · obtain ⟨type',hin',hhead⟩ := ih hin
      exact ⟨type',List.mem_cons_of_mem _ hin',hhead⟩

theorem HaveTypes.mem_ofType {types : List UInt8} {type : UInt8} (h : HaveTypes bs types)
    (hin : b∈bs) (hne : b≠[]) (hhead : b.head?=some type) : b∈ofType bs types type := by
  unfold HaveTypes at h
  induction h with
  | nil => exact absurd hin List.not_mem_nil
  | @cons b' type' bs types hb' hrest ih =>
    unfold ofType
    rcases List.mem_cons.mp hin with rfl | hin
    · have htype : type'=type := Option.some.inj ((hb' hne).symm.trans hhead)
      rw [List.zip_cons_cons,List.filter_cons,if_pos (decide_eq_true htype)]
      exact List.mem_cons_self
    · have hmem := ih hin
      unfold ofType at hmem
      rw [List.zip_cons_cons,List.filter_cons]
      split
      · exact List.mem_cons_of_mem _ hmem
      · exact hmem

/-- A block is not among others when none of its type is equal to it. -/
theorem HaveTypes.not_mem {types : List UInt8} {type : UInt8} (h : HaveTypes bs types)
    (hne : b≠[]) (hhead : b.head?=some type) (hnone : ∀ b'∈ofType bs types type, b'≠b) : b∉bs :=
  fun hin => hnone b (h.mem_ofType hin hne hhead) rfl

end AndroidPlatform.TypedBlocks
