import Mathlib.Data.List.Basic
import Mathlib.Data.List.Nodup
import Mathlib.Logic.Function.Basic
import Mathlib.Logic.Function.Iterate

/-!
# Intrusive linked lists

Nodes carry their own pointers. A chain of nodes is what following one pointer
visits; a doubly linked list is a chain along each of its two pointers; a hash
table is a chain from each bucket. The usual surgery (unlinking a node, putting
it at either end, taking it out of a chain or putting it in behind a place) is
done by a few pointer writes, and each is shown to do to the lists of nodes
what its name says, and nothing to nodes outside of them.
-/

namespace AndroidPlatform.LinkedLists

variable {α : Type*}

/-- Following `next` from a pointer visits the nodes of the list and ends with a pointer. -/
def Chain (next : α → Option α) : Option α → List α → Option α → Prop
  | h,[],e => h=e
  | h,x::l,e => h=some x ∧ Chain next (next x) l e

variable {next next' : α → Option α} {h e : Option α} {l : List α}

theorem chain_append {a b : List α} :
    Chain next h (a++b) e ↔ ∃ m, Chain next h a m ∧ Chain next m b e := by
  induction a generalizing h with
  | nil =>
    constructor
    · exact fun hb => ⟨h,rfl,hb⟩
    · rintro ⟨m,rfl,hb⟩
      exact hb
  | cons x a ih =>
    constructor
    · rintro ⟨hx,hrest⟩
      obtain ⟨m,ha,hb⟩ := ih.mp hrest
      exact ⟨m,⟨hx,ha⟩,hb⟩
    · rintro ⟨m,⟨hx,ha⟩,hb⟩
      exact ⟨hx,ih.mpr ⟨m,ha,hb⟩⟩

/-- A chain depends on the pointers of its nodes only. -/
theorem Chain.congr (hc : Chain next h l e) (heq : ∀ x∈l, next' x=next x) :
    Chain next' h l e := by
  induction l generalizing h with
  | nil => exact hc
  | cons x l ih =>
    refine ⟨hc.1,?_⟩
    rw [heq x List.mem_cons_self]
    exact ih hc.2 (fun y hy => heq y (List.mem_cons_of_mem x hy))

theorem Chain.head_eq (hc : Chain next h l none) : h=l.head? := by
  cases l with
  | nil => exact hc
  | cons x l => exact hc.1

/-- The nodes of a chain that ends are determined by its start. -/
theorem Chain.unique {l' : List α} (hc : Chain next h l none) (hc' : Chain next h l' none) :
    l=l' := by
  induction l generalizing h l' with
  | nil =>
    cases l' with
    | nil => rfl
    | cons x l' => cases hc.symm.trans hc'.1
  | cons x l ih =>
    cases l' with
    | nil => cases hc'.symm.trans hc.1
    | cons y l' =>
      cases hc.1.symm.trans hc'.1
      rw [ih hc.2 hc'.2]

/-- A node in the middle of a chain. -/
theorem chain_middle {a b : List α} {x : α} :
    Chain next h (a++x::b) e ↔ Chain next h a (some x) ∧ Chain next (next x) b e := by
  rw [chain_append]
  constructor
  · rintro ⟨m,ha,rfl,hb⟩
    exact ⟨ha,hb⟩
  · rintro ⟨ha,hb⟩
    exact ⟨some x,ha,rfl,hb⟩

/-- The last node of a part is not in what follows it. -/
theorem getLast?_ne_of_nodup {a b : List α} (hnodup : (a++b).Nodup) {x : α} (hx : x∈b) :
    a.getLast?≠some x := fun heq =>
  (List.nodup_append.mp hnodup).2.2 x (List.mem_of_getLast? heq) x hx rfl

/-! ## Turning the last pointer -/

section Turn

variable [DecidableEq α]

/-- Write the pointer behind a place: the one of a node, or of the start if there is none. -/
def turn (next : α → Option α) (place v : Option α) : α → Option α :=
  match place with
  | some p => Function.update next p v
  | none => next

/-- The start of a chain after writing the pointer behind a place. -/
def turnHead (h place v : Option α) : Option α :=
  match place with
  | some _ => h
  | none => v

theorem turn_of_ne {place v : Option α} {x : α} (hne : place≠some x) :
    turn next place v x=next x := by
  cases place with
  | none => rfl
  | some p => exact Function.update_of_ne (fun heq => hne (congrArg some heq.symm)) v next

theorem turn_self {v : Option α} {x : α} : turn next (some x) v x=v := by
  rw [turn,Function.update_self]

/-- A chain without the place is left as it is. -/
theorem Chain.turn_of_notMem {place : Option α} (hc : Chain next h l e)
    (hplace : ∀ x∈l, place≠some x) (v : Option α) : Chain (turn next place v) h l e :=
  hc.congr (fun x hx => turn_of_ne (hplace x hx))

/-- Writing behind the last node turns the end of the chain. -/
theorem Chain.turn_last (hc : Chain next h l e) (hnodup : l.Nodup) (v : Option α) :
    Chain (turn next l.getLast? v) (turnHead h l.getLast? v) l v := by
  rcases List.eq_nil_or_concat l with rfl | ⟨a,p,rfl⟩
  · rfl
  · rw [List.concat_eq_append] at hc hnodup ⊢
    rw [List.getLast?_append_of_ne_nil _ (List.cons_ne_nil p []),List.getLast?_singleton]
    obtain ⟨ha,-⟩ := chain_middle.mp hc
    have hp : p∉a := fun hmem =>
      (List.nodup_append.mp hnodup).2.2 p hmem p (List.mem_singleton_self p) rfl
    refine chain_middle.mpr ⟨?_,turn_self⟩
    exact ha.turn_of_notMem (fun x hx heq => hp (by rwa [Option.some.inj heq])) v

/-- Leaving out the node behind a part of a chain. -/
theorem Chain.turn_remove {a b : List α} {x : α} (hc : Chain next h (a++x::b) e)
    (hnodup : (a++x::b).Nodup) :
    Chain (turn next a.getLast? (next x)) (turnHead h a.getLast? (next x)) (a++b) e := by
  obtain ⟨ha,hb⟩ := chain_middle.mp hc
  refine chain_append.mpr ⟨next x,ha.turn_last (List.nodup_append.mp hnodup).1 _,?_⟩
  exact hb.turn_of_notMem
    (fun y hy => getLast?_ne_of_nodup hnodup (List.mem_cons_of_mem x hy)) _

/-- Putting a node behind a part of a chain. -/
theorem Chain.turn_insert {a b : List α} {x : α} {m : Option α} (ha : Chain next h a m)
    (hb : Chain next m b e) (hnodup : (a++b).Nodup) (hx : x∉a++b) (hm : next x=m) :
    Chain (turn next a.getLast? (some x)) (turnHead h a.getLast? (some x)) (a++x::b) e := by
  refine chain_middle.mpr ⟨ha.turn_last (List.nodup_append.mp hnodup).1 _,?_⟩
  rw [turn_of_ne (fun heq => hx (List.mem_append_left b (List.mem_of_getLast? heq))),hm]
  exact hb.turn_of_notMem (fun y hy => getLast?_ne_of_nodup hnodup hy) _

end Turn

/-! ## Doubly linked lists -/

/-- The pointers of a doubly linked list. -/
structure Doubly (α : Type*) where
  /-- The next node. -/
  next : α → Option α
  /-- The node before. -/
  prev : α → Option α
  /-- The first node. -/
  head : Option α
  /-- The last node. -/
  tail : Option α

/-- The pointers hold these nodes, in both directions. -/
structure Doubly.Holds (d : Doubly α) (l : List α) : Prop where
  /-- Forward. -/
  forward : Chain d.next d.head l none
  /-- Backward. -/
  backward : Chain d.prev d.tail l.reverse none
  /-- No node twice. -/
  nodup : l.Nodup

namespace Doubly

variable {d : Doubly α} {a b l : List α} {x : α}

/-- The pointers of a node in the list. -/
theorem Holds.around (h : d.Holds (a++x::b)) : d.prev x=a.getLast? ∧ d.next x=b.head? := by
  have hforward := (chain_middle.mp h.forward).2.head_eq
  have hback := h.backward
  rw [List.reverse_append,List.reverse_cons,List.append_assoc,List.singleton_append] at hback
  have hbackward := (chain_middle.mp hback).2.head_eq
  rw [List.head?_reverse] at hbackward
  exact ⟨hbackward,hforward⟩

theorem Holds.tail_eq (h : d.Holds l) : d.tail=l.getLast? := by
  rw [h.backward.head_eq,List.head?_reverse]

variable [DecidableEq α]

/-- Let what is before a node point behind it. -/
def skipForward (d : Doubly α) (x : α) : Doubly α :=
  { d with
    next := turn d.next (d.prev x) (d.next x)
    head := turnHead d.head (d.prev x) (d.next x) }

/-- Let what is behind a node point before it. -/
def skipBackward (d : Doubly α) (x : α) : Doubly α :=
  { d with
    prev := turn d.prev (d.next x) (d.prev x)
    tail := turnHead d.tail (d.next x) (d.prev x) }

/-- Take a node out. -/
def unlink (d : Doubly α) (x : α) : Doubly α := (d.skipForward x).skipBackward x

/-- Put a node in front. -/
def pushFront (d : Doubly α) (x : α) : Doubly α where
  next := Function.update d.next x d.head
  prev := Function.update (turn d.prev d.head (some x)) x none
  head := some x
  tail := turnHead d.tail d.tail (some x)

/-- Put a node at the end. -/
def pushBack (d : Doubly α) (x : α) : Doubly α where
  next := Function.update (turn d.next d.tail (some x)) x none
  prev := Function.update d.prev x d.tail
  head := turnHead d.head d.tail (some x)
  tail := some x

/-- Unlinking takes the node out of the list. -/
theorem Holds.unlink (h : d.Holds (a++x::b)) : (d.unlink x).Holds (a++b) := by
  obtain ⟨hprev,hnext⟩ := h.around
  have hback := h.backward
  have hnodup := List.nodup_reverse.mpr h.nodup
  rw [List.reverse_append,List.reverse_cons,List.append_assoc,List.singleton_append] at hback hnodup
  have hforward := h.forward.turn_remove h.nodup
  have hbackward := hback.turn_remove hnodup
  rw [← List.reverse_append] at hbackward
  have hx : d.prev x≠some x := by
    rw [hprev]
    exact getLast?_ne_of_nodup h.nodup List.mem_cons_self
  have hkeep : (d.skipForward x).next x=b.reverse.getLast? := by
    rw [List.getLast?_reverse,← hnext]
    exact turn_of_ne hx
  refine ⟨?_,?_,h.nodup.sublist (List.Sublist.append_left (List.sublist_cons_self x b) a)⟩
  · rw [← hprev] at hforward
    exact hforward
  · rw [← hkeep] at hbackward
    exact hbackward

/-- Unlinking leaves the pointers of other nodes. -/
theorem Holds.unlink_next (h : d.Holds (a++x::b)) {y : α} (hy : y∉a++x::b) :
    (d.unlink x).next y=d.next y := by
  refine turn_of_ne ?_
  rw [h.around.1]
  exact fun heq => hy (List.mem_append_left _ (List.mem_of_getLast? heq))

theorem Holds.pushFront (h : d.Holds l) (hx : x∉l) : (d.pushFront x).Holds (x::l) := by
  have hne : ∀ y∈l, y≠x := fun y hy heq => hx (heq ▸ hy)
  refine ⟨⟨rfl,?_⟩,?_,List.nodup_cons.mpr ⟨hx,h.nodup⟩⟩
  · dsimp only [Doubly.pushFront]
    rw [Function.update_self]
    exact h.forward.congr (fun y hy => Function.update_of_ne (hne y hy) _ _)
  · have hlast : d.head=l.reverse.getLast? := by
      rw [h.forward.head_eq,List.getLast?_reverse]
    have htail : turnHead d.tail d.tail (some x)=turnHead d.tail d.head (some x) := by
      rw [h.tail_eq,hlast,List.getLast?_reverse]
      cases l with
      | nil => rfl
      | cons y l => rw [List.getLast?_cons,List.head?_cons]; rfl
    have hturn := h.backward.turn_last (List.nodup_reverse.mpr h.nodup) (some x)
    rw [← hlast,← htail] at hturn
    rw [List.reverse_cons]
    refine chain_middle.mpr ⟨hturn.congr (fun y hy => ?_),?_⟩
    · exact Function.update_of_ne (hne y (List.mem_reverse.mp hy)) _ _
    · exact Function.update_self (x : α) _ _

theorem Holds.pushBack (h : d.Holds l) (hx : x∉l) : (d.pushBack x).Holds (l++[x]) := by
  have hne : ∀ y∈l, y≠x := fun y hy heq => hx (heq ▸ hy)
  have hnodup : (l++[x]).Nodup := by
    rw [List.nodup_append]
    exact ⟨h.nodup,List.nodup_singleton x,fun y hy z hz heq => hx (by
      rw [← List.mem_singleton.mp hz,← heq]; exact hy)⟩
  refine ⟨?_,?_,hnodup⟩
  · have hturn := h.forward.turn_last h.nodup (some x)
    rw [← h.tail_eq] at hturn
    refine chain_middle.mpr ⟨hturn.congr (fun y hy => ?_),?_⟩
    · exact Function.update_of_ne (hne y hy) _ _
    · exact Function.update_self (x : α) _ _
  · rw [List.reverse_append]
    refine ⟨rfl,?_⟩
    dsimp only [Doubly.pushBack]
    rw [Function.update_self]
    exact h.backward.congr
      (fun y hy => Function.update_of_ne (hne y (List.mem_reverse.mp hy)) _ _)

theorem pushFront_next {y : α} (hy : y≠x) : (d.pushFront x).next y=d.next y :=
  Function.update_of_ne hy _ _

theorem Holds.pushBack_next (h : d.Holds l) {y : α} (hy : y∉l) (hyx : y≠x) :
    (d.pushBack x).next y=d.next y := by
  refine (Function.update_of_ne hyx _ _).trans (turn_of_ne ?_)
  rw [h.tail_eq]
  exact fun heq => hy (List.mem_of_getLast? heq)

/-! ## A list and a chain that share their pointers -/

/-- A doubly linked list and, apart from it, a chain along the same pointers. -/
structure Splits (d : Doubly α) (c : Option α) (l m : List α) : Prop where
  /-- The doubly linked list. -/
  list : d.Holds l
  /-- The chain. -/
  chain : Chain d.next c m none
  /-- No node twice. -/
  nodup : (l++m).Nodup

namespace Splits

variable {c : Option α} {m : List α}

omit [DecidableEq α] in
theorem notMem_list (h : Splits d c l m) {y : α} (hy : y∈m) : y∉l := fun hl =>
  (List.nodup_append.mp h.nodup).2.2 y hl y hy rfl

omit [DecidableEq α] in
theorem notMem_of_cons (h : Splits d c l (x::m)) : x∉l ∧ x∉m :=
  ⟨h.notMem_list List.mem_cons_self,
    (List.nodup_cons.mp (List.nodup_append.mp h.nodup).2.1).1⟩

/-- Taking a node of the list out. -/
theorem unlink (h : Splits d c l m) (hx : x∈l) : Splits (d.unlink x) c (l.erase x) m := by
  obtain ⟨a,b,rfl⟩ := List.append_of_mem hx
  have hxa : x∉a := fun ha =>
    (List.nodup_append.mp h.list.nodup).2.2 x ha x List.mem_cons_self rfl
  rw [List.erase_append_right _ hxa,List.erase_cons_head]
  refine ⟨h.list.unlink,?_,?_⟩
  · exact h.chain.congr (fun y hy => h.list.unlink_next (h.notMem_list hy))
  · refine h.nodup.sublist (List.Sublist.append_right ?_ m)
    exact List.Sublist.append_left (List.sublist_cons_self x b) a

theorem pushFront (h : Splits d c l m) (hl : x∉l) (hm : x∉m) :
    Splits (d.pushFront x) c (x::l) m := by
  refine ⟨h.list.pushFront hl,?_,?_⟩
  · exact h.chain.congr (fun y hy => pushFront_next (fun heq => hm (heq ▸ hy)))
  · rw [List.cons_append,List.nodup_cons,List.mem_append]
    exact ⟨not_or.mpr ⟨hl,hm⟩,h.nodup⟩

theorem pushBack (h : Splits d c l m) (hl : x∉l) (hm : x∉m) :
    Splits (d.pushBack x) c (l++[x]) m := by
  refine ⟨h.list.pushBack hl,?_,?_⟩
  · exact h.chain.congr (fun y hy =>
      h.list.pushBack_next (h.notMem_list hy) (fun heq => hm (heq ▸ hy)))
  · rw [List.append_assoc,List.singleton_append,List.nodup_middle,List.nodup_cons,List.mem_append]
    exact ⟨not_or.mpr ⟨hl,hm⟩,h.nodup⟩

omit [DecidableEq α] in
/-- Taking the first node off the chain. -/
theorem tail (h : Splits d c l (x::m)) : Splits d (d.next x) l m :=
  ⟨h.list,h.chain.2,h.nodup.sublist
    (List.Sublist.append_left (List.sublist_cons_self x m) l)⟩

/-- Putting a node on the chain. -/
theorem cons (h : Splits d c l m) (hl : x∉l) (hm : x∉m) :
    Splits { d with next := Function.update d.next x c } (some x) l (x::m) := by
  have hne : ∀ {s : List α}, x∉s → ∀ y∈s, Function.update d.next x c y=d.next y :=
    fun hs y hy => Function.update_of_ne (fun heq : y=x => hs (heq ▸ hy)) _ _
  refine ⟨⟨h.list.forward.congr (hne hl),h.list.backward,h.list.nodup⟩,⟨rfl,?_⟩,?_⟩
  · dsimp only
    rw [Function.update_self]
    exact h.chain.congr (hne hm)
  · rw [List.nodup_middle,List.nodup_cons,List.mem_append]
    exact ⟨not_or.mpr ⟨hl,hm⟩,h.nodup⟩

theorem notMem_erase (h : Splits d c l m) : x∉l.erase x := h.list.nodup.not_mem_erase

end Splits

end Doubly

/-! ## Hash chains -/

/-- The pointers of a hash table: the start of every bucket, and the next node. -/
structure Buckets (α : Type*) where
  /-- The start of a bucket. -/
  table : ℕ → Option α
  /-- The next node in the same bucket. -/
  next : α → Option α

namespace Buckets

/-- Read the pointer behind a place of a bucket. -/
def read (t : Buckets α) (b : ℕ) : Option α → Option α
  | some x => t.next x
  | none => t.table b

/-- Every bucket holds the nodes of its list, and no node is in a bucket twice
or in two buckets. -/
structure Holds (t : Buckets α) (nodes : ℕ → List α) : Prop where
  /-- The chain of a bucket. -/
  chain : ∀ b, Chain t.next (t.table b) (nodes b) none
  /-- No node twice. -/
  nodup : ∀ b, (nodes b).Nodup
  /-- No node in two buckets. -/
  disjoint : ∀ b b' x, x∈nodes b → x∈nodes b' → b=b'

variable {t : Buckets α} {nodes : ℕ → List α} {b : ℕ} {before behind : List α} {x : α}

/-- The pointer behind a part of a bucket is the next node. -/
theorem Holds.read_eq (h : t.Holds nodes) (hb : nodes b=before++behind) :
    t.read b before.getLast?=behind.head? := by
  have hchain := h.chain b
  rw [hb] at hchain
  obtain ⟨m,hbefore,hbehind⟩ := chain_append.mp hchain
  rw [← hbehind.head_eq]
  rcases List.eq_nil_or_concat before with rfl | ⟨a,p,rfl⟩
  · exact hbefore
  · rw [List.concat_eq_append] at hbefore ⊢
    rw [List.getLast?_append_of_ne_nil _ (List.cons_ne_nil p []),List.getLast?_singleton]
    exact (chain_middle.mp hbefore).2

variable [DecidableEq α]

/-- Write the pointer behind a place of a bucket. -/
def write (t : Buckets α) (b : ℕ) (place v : Option α) : Buckets α where
  table := Function.update t.table b (turnHead (t.table b) place v)
  next := turn t.next place v

/-- Take a node out behind a place. -/
def remove (t : Buckets α) (b : ℕ) (place : Option α) (x : α) : Buckets α :=
  t.write b place (t.next x)

/-- Put a node in behind a place. -/
def insert (t : Buckets α) (b : ℕ) (place : Option α) (x : α) : Buckets α :=
  ({ t with next := Function.update t.next x (t.read b place) } : Buckets α).write b place (some x)

/-- Taking a node out behind a part of a bucket. -/
theorem Holds.remove (h : t.Holds nodes) (hb : nodes b=before++x::behind) :
    (t.remove b before.getLast? x).Holds (Function.update nodes b (before++behind)) := by
  have hnodup := h.nodup b
  rw [hb] at hnodup
  have hsub : ∀ y∈before++behind, y∈nodes b := by
    intro y hy
    rw [hb]
    exact (List.Sublist.append_left (List.sublist_cons_self x behind) before).subset hy
  refine ⟨fun b' => ?_,fun b' => ?_,fun b' b'' y hy hy' => ?_⟩
  · by_cases hbb : b'=b
    · rw [hbb]
      dsimp only [Buckets.remove,write]
      rw [Function.update_self,Function.update_self]
      have hchain := h.chain b
      rw [hb] at hchain
      exact hchain.turn_remove hnodup
    · dsimp only [Buckets.remove,write]
      rw [Function.update_of_ne hbb,Function.update_of_ne hbb]
      refine (h.chain b').turn_of_notMem (fun y hy heq => hbb ?_) _
      refine h.disjoint b' b y hy ?_
      rw [hb]
      exact List.mem_append_left _ (List.mem_of_getLast? heq)
  · by_cases hbb : b'=b
    · rw [hbb,Function.update_self]
      exact hnodup.sublist (List.Sublist.append_left (List.sublist_cons_self x behind) before)
    · rw [Function.update_of_ne hbb]
      exact h.nodup b'
  · have hold : ∀ c, y∈Function.update nodes b (before++behind) c → y∈nodes c := by
      intro c hc
      by_cases hcb : c=b
      · rw [hcb,Function.update_self] at hc
        rw [hcb]
        exact hsub y hc
      · rwa [Function.update_of_ne hcb] at hc
    exact h.disjoint b' b'' y (hold b' hy) (hold b'' hy')

/-- Putting a node that is in no bucket behind a part of a bucket. -/
theorem Holds.insert (h : t.Holds nodes) (hb : nodes b=before++behind)
    (hx : ∀ c, x∉nodes c) :
    (t.insert b before.getLast? x).Holds (Function.update nodes b (before++x::behind)) := by
  have hnodup := h.nodup b
  have hxb := hx b
  rw [hb] at hnodup hxb
  have hnew : (before++x::behind).Nodup := by
    rw [List.nodup_middle,List.nodup_cons]
    exact ⟨hxb,hnodup⟩
  refine ⟨fun b' => ?_,fun b' => ?_,fun b' b'' y hy hy' => ?_⟩
  · have hkeep : ∀ c, ∀ y∈nodes c, Function.update t.next x (t.read b before.getLast?) y=t.next y :=
      fun c y hy => Function.update_of_ne (fun heq => hx c (by rwa [← heq])) _ _
    by_cases hbb : b'=b
    · rw [hbb]
      dsimp only [Buckets.insert,write]
      rw [Function.update_self,Function.update_self]
      have hchain := (h.chain b).congr (hkeep b)
      rw [hb] at hchain
      obtain ⟨m,hbefore,hbehind⟩ := chain_append.mp hchain
      refine hbefore.turn_insert hbehind hnodup hxb ?_
      rw [Function.update_self,h.read_eq hb,← hbehind.head_eq]
    · dsimp only [Buckets.insert,write]
      rw [Function.update_of_ne hbb,Function.update_of_ne hbb]
      refine ((h.chain b').congr (hkeep b')).turn_of_notMem (fun y hy heq => hbb ?_) _
      refine h.disjoint b' b y hy ?_
      rw [hb]
      exact List.mem_append_left _ (List.mem_of_getLast? heq)
  · by_cases hbb : b'=b
    · rw [hbb,Function.update_self]
      exact hnew
    · rw [Function.update_of_ne hbb]
      exact h.nodup b'
  · have hold : ∀ c, y∈Function.update nodes b (before++x::behind) c → (y=x ∧ c=b) ∨ y∈nodes c := by
      intro c hc
      by_cases hcb : c=b
      · rw [hcb,Function.update_self,List.mem_append,List.mem_cons] at hc
        rw [hcb,hb,List.mem_append]
        rcases hc with hc | hc | hc
        · exact Or.inr (Or.inl hc)
        · exact Or.inl ⟨hc,rfl⟩
        · exact Or.inr (Or.inr hc)
      · rw [Function.update_of_ne hcb] at hc
        exact Or.inr hc
    rcases hold b' hy with ⟨hyx,hb'⟩ | hy
    · rcases hold b'' hy' with ⟨-,hb''⟩ | hy'
      · rw [hb',hb'']
      · exact absurd (hyx ▸ hy') (hx b'')
    · rcases hold b'' hy' with ⟨hyx,-⟩ | hy'
      · exact absurd (hyx ▸ hy) (hx b')
      · exact h.disjoint b' b'' y hy hy'

end Buckets

/-! ## Circles -/

/-- The pointers of circular doubly linked lists. -/
structure Circle (α : Type*) where
  /-- The next node. -/
  next : α → α
  /-- The node before. -/
  prev : α → α

/-- From the head the pointers visit these nodes and come back, in both directions. -/
structure Circle.Holds (r : Circle α) (head : α) (l : List α) : Prop where
  /-- Forward. -/
  forward : Chain (fun x => some (r.next x)) (some head) (head::l) (some head)
  /-- Backward. -/
  backward : Chain (fun x => some (r.prev x)) (some head) (head::l.reverse) (some head)
  /-- No node twice, nor the head. -/
  nodup : (head::l).Nodup

namespace Circle

variable {r : Circle α} {head x : α} {a b l : List α}

/-- Reading forward between two parts. -/
theorem Holds.next_last (h : r.Holds head (a++b)) :
    some (r.next ((head::a).getLast (List.cons_ne_nil _ _)))=(b++[head]).head? := by
  have hforward := h.forward
  rw [←List.cons_append,chain_append] at hforward
  obtain ⟨m,ha,hb⟩ := hforward
  have hm : m=(b++[head]).head? := by
    cases b with
    | nil => exact hb
    | cons y b => exact hb.1
  rw [←hm]
  rw [←List.dropLast_append_getLast (List.cons_ne_nil head a),chain_append] at ha
  obtain ⟨m',-,-,hlast⟩ := ha
  exact hlast

/-- The node before one of the circle. -/
theorem Holds.prev_eq (h : r.Holds head (a++x::b)) :
    r.prev x=(head::a).getLast (List.cons_ne_nil _ _) := by
  have hback := h.backward
  rw [List.reverse_append,List.reverse_cons,List.append_assoc,List.singleton_append,
    ←List.cons_append,chain_middle] at hback
  have hlast := hback.2
  cases ha : a.reverse with
  | nil =>
    rw [ha] at hlast
    rw [List.reverse_eq_nil_iff] at ha
    subst ha
    exact Option.some.inj hlast
  | cons y a' =>
    rw [ha] at hlast
    have hy := Option.some.inj hlast.1
    rw [List.reverse_eq_cons_iff] at ha
    subst ha
    rw [hy]
    simp

theorem Holds.next_getLast (h : r.Holds head (a++b)) {p : α} (hp : (head::a).getLast?=some p) :
    some (r.next p)=(b++[head]).head? := by
  rw [List.getLast?_eq_some_getLast (List.cons_ne_nil head a)] at hp
  rw [←Option.some.inj hp]
  exact h.next_last

/-- Following `next` from the head. -/
theorem iterate_chain {l : List α} (h : Chain (fun x => some (r.next x)) (some head) (head::l) e)
    {n : ℕ} (hn : n<(head::l).length) : r.next^[n] head=(head::l)[n] := by
  induction n generalizing head l with
  | zero => rfl
  | succ n ih =>
    cases l with
    | nil => exact absurd hn (by simp)
    | cons y l =>
      have hy := Option.some.inj h.2.1
      have hrest : Chain (fun x => some (r.next x)) (some y) (y::l) e := hy ▸ h.2
      rw [Function.iterate_succ_apply,hy,ih hrest (Nat.lt_of_succ_lt_succ hn)]
      rfl

/-- The circle in the other direction. -/
def flip (r : Circle α) : Circle α := ⟨r.prev,r.next⟩

theorem Holds.flip (h : r.Holds head l) : r.flip.Holds head l.reverse := by
  refine ⟨h.backward,?_,?_⟩
  · rw [List.reverse_reverse]
    exact h.forward
  · rw [List.nodup_cons,List.mem_reverse,List.nodup_reverse]
    exact List.nodup_cons.mp h.nodup

/-- The node before one of the circle, or before the head. -/
theorem Holds.getLast_prev (h : r.Holds head (a++b)) {y : α} (hy : some y=(b++[head]).head?) :
    (head::a).getLast?=some (r.prev y) := by
  cases b with
  | nil =>
    obtain rfl : y=head := Option.some.inj hy
    have hback := h.flip.next_getLast (a := []) (p := y) rfl
    rw [List.append_nil] at hback
    rw [show r.prev y=r.flip.next y from rfl,hback]
    simp [List.getLast?_cons]
  | cons z b =>
    obtain rfl : y=z := Option.some.inj hy
    rw [h.prev_eq,List.getLast?_eq_some_getLast (List.cons_ne_nil head a)]

/-- What is written at nodes outside does not matter. -/
theorem Holds.congr {r' : Circle α} (h : r.Holds head l) (hnext : ∀ x∈head::l,r'.next x=r.next x)
    (hprev : ∀ x∈head::l,r'.prev x=r.prev x) : r'.Holds head l := by
  refine ⟨h.forward.congr fun x hx => congrArg some (hnext x hx),
    h.backward.congr fun x hx => congrArg some (hprev x ?_),h.nodup⟩
  rw [List.mem_cons,List.mem_reverse] at hx
  exact List.mem_cons.mpr hx

variable [DecidableEq α]

/-- Take a node out. -/
def remove (r : Circle α) (x : α) : Circle α where
  next := Function.update r.next (r.prev x) (r.next x)
  prev := Function.update r.prev (r.next x) (r.prev x)

theorem turn_some (next : α → α) (p v : α) :
    turn (fun x => some (next x)) (some p) (some v)=fun x => some (Function.update next p v x) := by
  funext y
  by_cases hy : y=p
  · subst hy
    rw [turn_self,Function.update_self]
  · rw [turn_of_ne fun heq => hy (Option.some.inj heq).symm,Function.update_of_ne hy]

/-- Leaving a node out in one direction. -/
theorem Holds.forward_remove (h : r.Holds head (a++x::b)) :
    Chain (fun y => some (Function.update r.next (r.prev x) (r.next x) y)) (some head)
      (head::(a++b)) (some head) := by
  have hturn := Chain.turn_remove (a := head::a) h.forward h.nodup
  rw [List.getLast?_eq_some_getLast (List.cons_ne_nil head a),←h.prev_eq,turn_some] at hturn
  exact hturn

/-- Removing takes the node out of the circle. -/
theorem Holds.remove (h : r.Holds head (a++x::b)) : (r.remove x).Holds head (a++b) := by
  have hflip := h.flip
  rw [List.reverse_append,List.reverse_cons,List.append_assoc,List.singleton_append] at hflip
  refine ⟨h.forward_remove,?_,?_⟩
  · rw [List.reverse_append]
    exact hflip.forward_remove
  · exact h.nodup.sublist (List.Sublist.cons_cons _ (List.Sublist.append_left (List.sublist_cons_self x b) a))

section Loops

variable {β : Type*}

/-- A loop over the nodes from one on up to another one. The body may leave it with a result. -/
def forEach (r : Circle α) (stop : α) (body : α → Option β) : ℕ → α → Option (Option β)
  | 0,_ => none
  | fuel+1,pos =>
    if pos=stop then some none
    else
      match body pos with
      | some b => some (some b)
      | none => forEach r stop body fuel (r.next pos)

variable {body : α → Option β} {fuel : ℕ} {stop : α}

theorem forEach_chain (h : Chain (fun x => some (r.next x)) (some x) l (some stop))
    (hstop : stop∉l) (hfuel : l.length<fuel) :
    r.forEach stop body fuel x=some (l.findSome? body) := by
  induction fuel generalizing l x with
  | zero => exact absurd hfuel (Nat.not_lt_zero _)
  | succ fuel ih =>
    cases l with
    | nil =>
      rw [forEach,if_pos (Option.some.inj h)]
      rfl
    | cons y l =>
      obtain rfl : x=y := Option.some.inj h.1
      have hne : x≠stop := fun heq => hstop (heq ▸ List.mem_cons_self)
      rw [forEach,if_neg hne,List.findSome?_cons]
      cases body x with
      | some b => rfl
      | none =>
        exact ih h.2 (fun hin => hstop (List.mem_cons_of_mem x hin)) (Nat.lt_of_succ_lt_succ hfuel)

/-- The loop over all nodes. -/
theorem Holds.forEach_all (h : r.Holds head l) (hfuel : l.length<fuel) :
    r.forEach head body fuel (r.next head)=some (l.findSome? body) :=
  forEach_chain h.forward.2 (List.nodup_cons.mp h.nodup).1 hfuel

/-- The loop from a node on that stops before it comes back to the node before: it crosses the head
unless the node is the first. -/
theorem Holds.forEach_from (h : r.Holds head (a++x::b)) (hfuel : (a++x::b).length+1<fuel) :
    r.forEach (r.prev x) body fuel (r.next (r.prev x))=
      some ((x::b++if a=[] then [] else head::a.dropLast).findSome? body) := by
  have hstart : r.next (r.prev x)=x := by
    rw [h.prev_eq]
    exact Option.some.inj h.next_last
  have hforward := h.forward
  have hnodup := h.nodup
  rw [←List.cons_append,chain_append] at hforward
  obtain ⟨m,ha,hb⟩ := hforward
  obtain rfl : m=some x := hb.1
  rw [List.length_append] at hfuel
  rw [hstart,h.prev_eq]
  obtain rfl | ⟨a,y,rfl⟩ := a.eq_nil_or_concat'
  · rw [if_pos rfl,List.append_nil]
    exact forEach_chain hb (List.nodup_cons.mp hnodup).1 (by omega)
  · have hy : (head::(a++[y])).getLast (List.cons_ne_nil _ _)=y := by simp
    rw [if_neg (List.append_ne_nil_of_right_ne_nil _ (List.cons_ne_nil _ _)),
      List.dropLast_concat,hy]
    rw [←List.cons_append,chain_append] at ha
    obtain ⟨m,ha,hlast⟩ := ha
    obtain rfl : m=some y := hlast.1
    refine forEach_chain (chain_append.mpr ⟨_,hb,ha⟩) ?_ ?_
    · rw [←List.cons_append,←List.cons_append,List.append_assoc,List.singleton_append,
        List.nodup_middle,List.nodup_cons] at hnodup
      intro hin
      refine hnodup.1 (List.mem_append.mpr ?_)
      exact (List.mem_append.mp hin).symm
    · simp only [List.length_append,List.length_cons,List.length_nil] at hfuel ⊢
      omega

end Loops

section Insertion

/-- Put a node between two nodes. -/
def insert (r : Circle α) (x p q : α) : Circle α where
  next := Function.update (Function.update r.next x q) p x
  prev := Function.update (Function.update r.prev q x) x p

theorem flip_insert {p q : α} (hp : x≠p) (hq : x≠q) :
    (r.insert x p q).flip=r.flip.insert x q p := by
  unfold flip insert
  dsimp only
  rw [Function.update_comm hq,Function.update_comm hp]

/-- The node that a part ends with is followed by the head of what is behind it. -/
theorem getLast?_head_cons_reverse {y : α} (hy : some y=(b++[head]).head?) :
    (head::b.reverse).getLast?=some y := by
  rw [hy]
  cases b with
  | nil => rfl
  | cons z b =>
    rw [List.reverse_cons,←List.cons_append,List.getLast?_concat]
    rfl

/-- Inserting in one direction. -/
theorem Holds.forward_insert (h : r.Holds head (a++b)) (hx : x∉head::(a++b)) {p q : α}
    (hp : (head::a).getLast?=some p) (hq : some q=(b++[head]).head?) :
    Chain (fun y => some ((r.insert x p q).next y)) (some head) (head::(a++x::b)) (some head) := by
  have hforward := h.forward
  rw [←List.cons_append,chain_append] at hforward
  obtain ⟨m,ha,hb⟩ := hforward
  have hm : m=some q := by
    rw [hq]
    cases b with
    | nil => exact hb
    | cons y b => exact hb.1
  subst hm
  have hne : ∀ y∈head::a++b,y≠x := fun y hy heq => hx (heq ▸ hy)
  have ha' : Chain (fun y => some (Function.update r.next x q y)) (some head) (head::a) (some q) :=
    ha.congr fun y hy => congrArg some
      (Function.update_of_ne (hne y (List.mem_append_left b hy)) _ _)
  have hb' : Chain (fun y => some (Function.update r.next x q y)) (some q) b (some head) :=
    hb.congr fun y hy => congrArg some
      (Function.update_of_ne (hne y (List.mem_append_right (head::a) hy)) _ _)
  have hturn := ha'.turn_insert hb' h.nodup hx (congrArg some (Function.update_self x q r.next))
  rw [hp,turn_some] at hturn
  exact hturn

/-- Inserting puts the node between the two parts. -/
theorem Holds.insert (h : r.Holds head (a++b)) (hx : x∉head::(a++b)) {p q : α}
    (hp : (head::a).getLast?=some p) (hq : some q=(b++[head]).head?) :
    (r.insert x p q).Holds head (a++x::b) := by
  have hflip := h.flip
  rw [List.reverse_append] at hflip
  have hxp : x≠p := fun heq => hx (List.mem_append_left b (heq ▸ List.mem_of_getLast? hp))
  have hxq : x≠q := by
    intro heq
    have hin := List.mem_of_head? hq.symm
    rw [←heq,List.mem_append,List.mem_singleton] at hin
    rcases hin with hin | hin
    · exact hx (List.mem_cons_of_mem head (List.mem_append_right a hin))
    · exact hx (hin ▸ List.mem_cons_self)
  refine ⟨h.forward_insert hx hp hq,?_,?_⟩
  · have hx' : x∉head::(b.reverse++a.reverse) := by
      rw [←List.reverse_append,List.mem_cons,List.mem_reverse,←List.mem_cons]
      exact hx
    have hp' : some p=(a.reverse++[head]).head? := by
      rw [←hp]
      simp [List.getLast?_cons]
    have hback := hflip.forward_insert hx' (getLast?_head_cons_reverse hq) hp'
    rw [←flip_insert hxp hxq] at hback
    rw [List.reverse_append,List.reverse_cons,List.append_assoc,List.singleton_append]
    exact hback
  · rw [←List.cons_append,List.nodup_middle,List.nodup_cons]
    exact ⟨hx,h.nodup⟩

end Insertion

end Circle

end AndroidPlatform.LinkedLists
