import Mathlib.Data.List.Basic
import Mathlib.Data.Nat.Notation
import Mathlib.Tactic.Common

/-!
# Tables sorted by a key

A table is a list whose entries have strictly increasing keys. A binary search
finds the entry of a key, or the place where an entry with that key belongs, and
an insertion there keeps the order. The content of a table is its lookup
function.
-/

namespace AndroidPlatform.SortedTable

variable {α : Type*} {key : α → ℕ} {table : List α} {k i : ℕ}

/-- The keys increase strictly. -/
def SortedBy (key : α → ℕ) (table : List α) : Prop := table.Pairwise fun a b => key a<key b

/-- The key of an entry; zero if there is none. -/
def keyAt (key : α → ℕ) (table : List α) (i : ℕ) : ℕ := (table[i]?.map key).getD 0

/-- The entry with a key. -/
def lookup (key : α → ℕ) (table : List α) (k : ℕ) : Option α := table.find? fun a => key a==k

/-- Binary search in the places from `low` to before `stop`: whether the key was
found, and where it is or belongs. -/
def search (key : α → ℕ) (table : List α) (k low stop : ℕ) : Bool×ℕ :=
  if low < stop then
    let mid := (low+(stop-1))/2
    if k=keyAt key table mid then (true,mid)
    else if k<keyAt key table mid then search key table k low mid
    else search key table k (mid+1) stop
  else (false,low)
termination_by stop-low

/-- A new entry at a place. -/
def insertAt (table : List α) (i : ℕ) (a : α) : List α := table.take i++a::table.drop i

theorem keyAt_eq {a : α} (h : table[i]?=some a) : keyAt key table i=key a := by
  rw [keyAt,h,Option.map_some,Option.getD_some]

/-- The keys increase from place to place. -/
theorem SortedBy.keyAt_lt (h : SortedBy key table) {j : ℕ} (hij : i<j) (hj : j<table.length) :
    keyAt key table i<keyAt key table j := by
  have hi : i<table.length := Nat.lt_trans hij hj
  rw [keyAt_eq (List.getElem?_eq_getElem hi),keyAt_eq (List.getElem?_eq_getElem hj)]
  exact List.pairwise_iff_getElem.mp h i j hi hj hij

/-- Entries with the same key are the same. -/
theorem SortedBy.eq_of_key (h : SortedBy key table) {a b : α} (ha : a∈table) (hb : b∈table)
    (hkey : key a=key b) : a=b := by
  obtain ⟨i,hi,rfl⟩ := List.mem_iff_getElem.mp ha
  obtain ⟨j,hj,rfl⟩ := List.mem_iff_getElem.mp hb
  have hlt := fun {i j : ℕ} (hi : i<table.length) (hj : j<table.length) (hij : i<j) =>
    List.pairwise_iff_getElem.mp h i j hi hj hij
  rcases Nat.lt_trichotomy i j with hij|hij|hij
  · have hless := hlt hi hj hij
    omega
  · subst hij
    rfl
  · have hless := hlt hj hi hij
    omega

/-- Looking a key up finds the entry that has it. -/
theorem SortedBy.lookup_eq_some (h : SortedBy key table) {a : α} :
    lookup key table k=some a ↔ a∈table ∧ key a=k := by
  constructor
  · intro hfind
    exact ⟨List.mem_of_find?_eq_some hfind,by simpa using List.find?_some hfind⟩
  · rintro ⟨ha,hkey⟩
    cases hfind : lookup key table k with
    | none =>
      have hnone := List.find?_eq_none.mp hfind a ha
      simp [hkey] at hnone
    | some b =>
      have hb : key b=k := by simpa using List.find?_some hfind
      rw [h.eq_of_key (List.mem_of_find?_eq_some hfind) ha (hb.trans hkey.symm)]

theorem lookup_eq_none : lookup key table k=none ↔ ∀ a∈table, key a≠k := by
  rw [lookup,List.find?_eq_none]
  refine forall_congr' fun a => forall_congr' fun _ => ?_
  simp

/-- What a search tells: a place with the key, or the place where it belongs. -/
def Located (key : α → ℕ) (table : List α) (k : ℕ) (result : Bool×ℕ) : Prop :=
  if result.1=true then result.2<table.length ∧ keyAt key table result.2=k
  else result.2≤table.length ∧ (∀ j<result.2, keyAt key table j<k) ∧
    ∀ j, result.2≤j → j<table.length → k<keyAt key table j

/-- Binary search from any interval outside of which the key cannot be. -/
theorem search_located (h : SortedBy key table) {low stop : ℕ} (hle : low ≤ stop)
    (hstop : stop≤table.length) (hlow : ∀ j<low, keyAt key table j<k)
    (hhigh : ∀ j, stop≤j → j<table.length → k<keyAt key table j) :
    Located key table k (search key table k low stop) := by
  induction low, stop using search.induct key table k with
  | case1 low stop hlt mid heq =>
    rw [search,if_pos hlt,if_pos heq,Located,if_pos rfl]
    exact ⟨by omega,heq.symm⟩
  | case2 low stop hlt mid hne hless ih =>
    rw [search,if_pos hlt,if_neg hne,if_pos hless]
    refine ih (by omega) (by omega) hlow fun j hge hj => ?_
    rcases Nat.eq_or_lt_of_le hge with heq|hgt
    · exact heq ▸ hless
    · exact Nat.lt_trans hless (h.keyAt_lt hgt hj)
  | case3 low stop hlt mid hne hless ih =>
    rw [search,if_pos hlt,if_neg hne,if_neg hless]
    refine ih (by omega) hstop (fun j hj => ?_) hhigh
    have hmid : keyAt key table mid<k := by
      change k≠keyAt key table mid at hne
      change ¬k<keyAt key table mid at hless
      omega
    rcases Nat.eq_or_lt_of_le (Nat.le_of_lt_succ hj) with heq|hjm
    · exact heq ▸ hmid
    · exact Nat.lt_trans (h.keyAt_lt hjm (by omega)) hmid
  | case4 low stop hlt =>
    have heq : low=stop := by omega
    rw [search,if_neg hlt,Located,if_neg (fun hf => by cases hf)]
    exact ⟨by omega,hlow,fun j hge hj => hhigh j (by omega) hj⟩

/-- A search over the whole table. -/
theorem search_whole (h : SortedBy key table) (k : ℕ) :
    Located key table k (search key table k 0 table.length) :=
  search_located h (Nat.zero_le _) (Nat.le_refl _) (fun j hj => absurd hj (Nat.not_lt_zero j))
    fun _ hge hj => absurd hj (Nat.not_lt.mpr hge)

/-! ## Changing a table -/

@[simp] theorem mem_insertAt {a b : α} : b∈insertAt table i a ↔ b=a ∨ b∈table := by
  rw [insertAt,List.mem_append,List.mem_cons]
  have hsplit : b∈table ↔ b∈table.take i ∨ b∈table.drop i := by
    rw [←List.mem_append,List.take_append_drop]
  rw [hsplit]
  tauto

theorem length_insertAt (hi : i≤table.length) (a : α) :
    (insertAt table i a).length=table.length+1 := by
  rw [insertAt,List.length_append,List.length_cons,List.length_take,List.length_drop]
  omega

theorem insertAt_getElem? (hi : i≤table.length) (a : α) : (insertAt table i a)[i]?=some a := by
  have htake : (table.take i).length=i := by
    rw [List.length_take]
    omega
  rw [insertAt,List.getElem?_append_right (by omega),htake,Nat.sub_self]
  rfl

/-- An entry inserted where its key belongs keeps the order. -/
theorem SortedBy.insertAt (h : SortedBy key table) {a : α}
    (hplace : Located key table (key a) (false,i)) : SortedBy key (insertAt table i a) := by
  rw [Located,if_neg (fun hf => by cases hf)] at hplace
  obtain ⟨hle,hbefore,hafter⟩ := hplace
  have hsplit : SortedBy key (table.take i++table.drop i) := by
    rw [List.take_append_drop]
    exact h
  obtain ⟨htake,hdrop,hcross⟩ := List.pairwise_append.mp hsplit
  have hless : ∀ b∈table.take i, key b<key a := by
    intro b hb
    obtain ⟨j,hj,rfl⟩ := List.mem_iff_getElem.mp hb
    rw [List.length_take] at hj
    have hlt := hbefore j (by omega)
    rw [keyAt_eq (List.getElem?_eq_getElem (by omega))] at hlt
    rw [List.getElem_take]
    exact hlt
  have hmore : ∀ b∈table.drop i, key a<key b := by
    intro b hb
    obtain ⟨j,hj,rfl⟩ := List.mem_iff_getElem.mp hb
    rw [List.length_drop] at hj
    have hlt := hafter (i+j) (by omega) (by omega)
    rw [keyAt_eq (List.getElem?_eq_getElem (by omega))] at hlt
    rw [List.getElem_drop]
    exact hlt
  refine List.pairwise_append.mpr ⟨htake,List.pairwise_cons.mpr ⟨hmore,hdrop⟩,?_⟩
  intro b hb c hc
  rcases List.mem_cons.mp hc with rfl|hc
  · exact hless b hb
  · exact hcross b hb c hc

/-- No entry has a key that a search did not find. -/
theorem Located.key_ne (h : Located key table k (false,i)) {a : α} (ha : a∈table) : key a≠k := by
  rw [Located,if_neg (fun hf => by cases hf)] at h
  obtain ⟨j,hj,rfl⟩ := List.mem_iff_getElem.mp ha
  have hkey : keyAt key table j=key table[j] := keyAt_eq (List.getElem?_eq_getElem hj)
  by_cases hlt : j < i
  · have hless := h.2.1 j hlt
    omega
  · have hless := h.2.2 j (by omega) hj
    omega

/-- The content after an insertion. -/
theorem SortedBy.lookup_insertAt (h : SortedBy key table) {a : α}
    (hplace : Located key table (key a) (false,i)) (k : ℕ) :
    lookup key (SortedTable.insertAt table i a) k=if k=key a then some a else lookup key table k := by
  have hsorted := h.insertAt hplace
  by_cases hk : k=key a
  · rw [if_pos hk,hsorted.lookup_eq_some]
    exact ⟨mem_insertAt.mpr (Or.inl rfl),hk.symm⟩
  · rw [if_neg hk]
    cases hold : lookup key table k with
    | none =>
      rw [lookup_eq_none] at hold ⊢
      intro b hb
      rcases mem_insertAt.mp hb with rfl|hb
      · exact fun heq => hk heq.symm
      · exact hold b hb
    | some b =>
      obtain ⟨hb,hkey⟩ := h.lookup_eq_some.mp hold
      exact hsorted.lookup_eq_some.mpr ⟨mem_insertAt.mpr (Or.inr hb),hkey⟩

/-- An entry may be replaced by one with the same key. -/
theorem SortedBy.set (h : SortedBy key table) {a : α} (hkey : keyAt key table i=key a)
    (hi : i<table.length) : SortedBy key (table.set i a) := by
  refine List.pairwise_iff_getElem.mpr fun j l hj hl hjl => ?_
  rw [List.length_set] at hj hl
  have hold : ∀ m, m<table.length → key ((table.set i a)[m]?.getD a)=keyAt key table m := by
    intro m hm
    by_cases hmi : m=i
    · rw [hmi,List.getElem?_set_self hi,Option.getD_some,hkey]
    · rw [List.getElem?_set_ne (Ne.symm hmi),List.getElem?_eq_getElem hm,Option.getD_some,
        keyAt_eq (List.getElem?_eq_getElem hm)]
  have hfirst := hold j hj
  have hsecond := hold l hl
  rw [List.getElem?_eq_getElem (by rw [List.length_set]; exact hj),Option.getD_some] at hfirst
  rw [List.getElem?_eq_getElem (by rw [List.length_set]; exact hl),Option.getD_some] at hsecond
  rw [hfirst,hsecond]
  exact h.keyAt_lt hjl hl

/-- The content after an entry was replaced by one with the same key. -/
theorem SortedBy.lookup_set (h : SortedBy key table) {a : α} (hkey : keyAt key table i=key a)
    (hi : i<table.length) (k : ℕ) :
    lookup key (table.set i a) k=if k=key a then some a else lookup key table k := by
  have hsorted := h.set hkey hi
  by_cases hk : k=key a
  · rw [if_pos hk,hsorted.lookup_eq_some]
    exact ⟨List.mem_set hi a,hk.symm⟩
  · rw [if_neg hk]
    cases hold : lookup key table k with
    | none =>
      rw [lookup_eq_none] at hold ⊢
      intro b hb
      rcases List.mem_or_eq_of_mem_set hb with hb|rfl
      · exact hold b hb
      · exact fun heq => hk heq.symm
    | some b =>
      obtain ⟨hb,hkeyb⟩ := h.lookup_eq_some.mp hold
      refine hsorted.lookup_eq_some.mpr ⟨?_,hkeyb⟩
      obtain ⟨j,hj,rfl⟩ := List.mem_iff_getElem.mp hb
      have hji : j≠i := by
        intro heq
        subst heq
        rw [keyAt_eq (List.getElem?_eq_getElem hj)] at hkey
        exact hk (hkeyb.symm.trans hkey)
      refine List.mem_iff_getElem?.mpr ⟨j,?_⟩
      rw [List.getElem?_set_ne (Ne.symm hji),List.getElem?_eq_getElem hj]

/-- The entry at a place is what its key looks up. -/
theorem SortedBy.lookup_keyAt (h : SortedBy key table) (hi : i<table.length) :
    lookup key table (keyAt key table i)=table[i]? := by
  rw [List.getElem?_eq_getElem hi,h.lookup_eq_some,keyAt_eq (List.getElem?_eq_getElem hi)]
  exact ⟨List.getElem_mem hi,rfl⟩

end AndroidPlatform.SortedTable
