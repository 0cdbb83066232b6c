import AndroidPlatform.SortedTable
import Mathlib.Data.List.Pairwise

/-!
# The entry below a key

In a table sorted by keys, a search forward stops at the last entry whose key is not
greater than the key that it looks for, or at the first entry if there is none. In an
index, where every entry stands for a group of entries that starts at its key, the search
in the group of that entry is the search in all the groups.
-/

namespace AndroidPlatform.FloorSearch

open SortedTable

variable {α β : Type*} {key : α → ℕ} {x : ℕ}

/-- The entry is the last of the table whose key is not greater than `x`, or the first. -/
def Floor (key : α → ℕ) (x : ℕ) (table : List α) (a : α) : Prop :=
  ∃ before after, table=before++a::after ∧ (before=[] ∨ key a≤x) ∧ ∀ b∈after, x<key b

theorem Floor.mem {table : List α} {a : α} (h : Floor key x table a) : a∈table := by
  obtain ⟨before,after,rfl,-,-⟩ := h
  exact List.mem_append_right _ List.mem_cons_self

theorem range_split {n i : ℕ} (hi : i<n) :
    List.range n=List.range i++i::List.range' (i+1) (n-(i+1)) := by
  have hn : n=i+(1+(n-(i+1))) := by omega
  conv_lhs => rw [hn,List.range_eq_range',←List.range'_append_1,Nat.zero_add,
    ←List.range'_append_1]
  rw [List.range_eq_range',List.range'_one,List.singleton_append]

/-- The floor in the first `n` values of a sequence, by its index. -/
theorem floor_range {f : ℕ → α} {n i : ℕ} (hi : i<n) (hle : i=0 ∨ key (f i)≤x)
    (hlt : ∀ j, i<j → j<n → x<key (f j)) : Floor key x ((List.range n).map f) (f i) := by
  refine ⟨(List.range i).map f,(List.range' (i+1) (n-(i+1))).map f,?_,?_,?_⟩
  · rw [range_split hi,List.map_append,List.map_cons]
  · cases hle with
    | inl hzero => exact Or.inl (by rw [hzero]; rfl)
    | inr hle => exact Or.inr hle
  · intro b hb
    obtain ⟨j,hj,rfl⟩ := List.mem_map.mp hb
    rw [List.mem_range'_1] at hj
    exact hlt j (by omega) (by omega)

/-- An entry with the key itself is the floor. -/
theorem Floor.eq_of_key {table : List α} {a b : α} (h : Floor key x table a)
    (hsorted : SortedBy key table) (hb : b∈table) (hkey : key b=x) : b=a := by
  obtain ⟨before,after,rfl,hle,hlt⟩ := h
  obtain ⟨-,hrest,hacross⟩ := List.pairwise_append.mp hsorted
  cases List.mem_append.mp hb with
  | inl hbefore =>
    have hba := hacross b hbefore a List.mem_cons_self
    cases hle with
    | inl hnil => rw [hnil] at hbefore; cases hbefore
    | inr hle => omega
  | inr hrest =>
    cases List.mem_cons.mp hrest with
    | inl heq => exact heq
    | inr hafter => have := hlt b hafter; omega

/-- The floor in a group of the floor of an index is the floor in all the groups. -/
theorem Floor.flatMap {key' : β → ℕ} {table : List α} {group : α → List β} {a : α} {c : β}
    (h : Floor key x table a) (hgroup : Floor key' x (group a) c)
    (hhead : ((group a).head?.map key')=some (key a))
    (hge : ∀ b∈table, ∀ c∈group b, key b≤key' c) :
    Floor key' x (table.flatMap group) c := by
  obtain ⟨before,after,rfl,hle,hlt⟩ := h
  obtain ⟨left,right,hsplit,hle',hlt'⟩ := hgroup
  refine ⟨before.flatMap group++left,right++after.flatMap group,?_,?_,?_⟩
  · rw [List.flatMap_append,List.flatMap_cons,hsplit]
    simp
  · cases hle' with
    | inr hle' => exact Or.inr hle'
    | inl hnil =>
      rw [hsplit,hnil,List.nil_append,List.head?_cons,Option.map_some,Option.some.injEq] at hhead
      cases hle with
      | inl hbefore => exact Or.inl (by rw [hbefore,hnil]; rfl)
      | inr hle => exact Or.inr (by omega)
  · intro b hb
    cases List.mem_append.mp hb with
    | inl hright => exact hlt' b hright
    | inr hafter =>
      obtain ⟨d,hd,hbd⟩ := List.mem_flatMap.mp hafter
      have hdb := hge d (List.mem_append_right _ (List.mem_cons_of_mem _ hd)) b hbd
      have hxd := hlt d hd
      omega

/-- Two groups of a sorted table of groups with a common key are those of one entry. -/
theorem group_unique {key : β → ℕ} {table : List α} {group : α → List β}
    (h : SortedBy key (table.flatMap group)) {a b : α} (ha : a∈table) (hb : b∈table) {c d : β}
    (hc : c∈group a) (hd : d∈group b) (hkey : key c=key d) : a=b := by
  obtain ⟨-,hacross⟩ := List.pairwise_flatMap.mp h
  by_contra hne
  have hsymm : Std.Symm fun a b => ∀ c∈group a, ∀ d∈group b, key c≠key d :=
    ⟨fun a b hab c hc d hd => (hab d hd c hc).symm⟩
  have hdistinct : table.Pairwise fun a b => ∀ c∈group a, ∀ d∈group b, key c≠key d :=
    hacross.imp fun hlt c hc d hd => Nat.ne_of_lt (hlt c hc d hd)
  exact hdistinct.forall ha hb hne c hc d hd hkey

end AndroidPlatform.FloorSearch
