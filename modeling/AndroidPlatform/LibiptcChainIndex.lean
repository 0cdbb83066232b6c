import AndroidPlatform.HalvingSearch
import AndroidPlatform.Libiptc
import AndroidPlatform.LinkedLists
import Mathlib.Data.List.Infix
import Mathlib.Data.List.Sort

/-!
# The chain index of libiptc

The chains are the nodes of a circle, built-in ones first and the others sorted by name. An array
points to some of the sorted ones, so that a lookup need not walk over all of them. A walk that is
started from the array can cross the head of the circle, which is then read as if it were a chain.
-/

namespace AndroidPlatform.LibiptcChainIndex

open Libiptc LinkedLists HalvingSearch

/-- `strcmp` -/
def strcmp (a b : Name) : Ordering := compare a b

/-- The chains of a table. -/
structure ChainTable where
  /-- The list heads at their addresses. -/
  circle : Circle ℕ
  /-- `&handle->chains` -/
  head : ℕ
  /-- What is read at an address as `struct chain_head`. -/
  chain : ℕ → Libiptc.Chain
  /-- `chain_index`, with its null pointers. Its length is `chain_index_sz`. -/
  chainIndex : List (Option ℕ)
  /-- `num_chains` -/
  numChains : ℕ

/-- The loop of `__iptcc_bsearch_chain_index` by name: the place in the list and `*idx`. -/
def bsearchLoop (t : ChainTable) (name : Name) : ℕ → ℕ → ℕ → ℕ → Option (ℕ×ℕ)
  | 0,_,_,_ => none
  | fuel+1,pos,stop,idx =>
    match t.chainIndex[pos]? with
    | none => none
    | some none => some (t.head,idx)
    | some (some c) =>
      match strcmp name (t.chain c).name with
      | .eq => some (c,pos)
      | .lt => if pos=0 then some (c,pos) else bsearchLoop t name fuel (pos/2) pos pos
      | .gt =>
        if pos+1=t.chainIndex.length then some (c,pos)
        else
          match t.chainIndex[pos+1]? with
          | some (some d) =>
            if strcmp name (t.chain d).name=.lt then some (c,pos)
            else bsearchLoop t name fuel ((pos+stop)/2) stop pos
          | _ => none

/-- `iptcc_bsearch_chain_index` -/
def bsearchChainIndex (fuel : ℕ) (t : ChainTable) (name : Name) (idx : ℕ) : Option (ℕ×ℕ) :=
  if t.chainIndex.length=0 then some (t.head,idx)
  else bsearchLoop t name fuel (t.chainIndex.length/2) t.chainIndex.length idx

/-- The loop of `iptcc_linearly_search_chain_index`. -/
def linearLoop (t : ChainTable) (name : Name) : List (Option ℕ) → ℕ → ℕ
  | [],listPos => listPos
  | none::rest,listPos => linearLoop t name rest listPos
  | some c::rest,listPos =>
    match strcmp (t.chain c).name name with
    | .gt => listPos
    | .eq => c
    | .lt => linearLoop t name rest c

/-- `iptcc_linearly_search_chain_index` -/
def linearlySearchChainIndex (t : ChainTable) (name : Name) : ℕ :=
  match t.chainIndex with
  | [] => t.head
  | first::_ => linearLoop t name t.chainIndex (first.getD 0)

/-- How the loop over the built-in chains is left. -/
inductive Leaves where
  /-- A chain is returned. -/
  | found (c : ℕ)
  /-- The first chain that is not built-in is reached. -/
  | stopped (pos : ℕ)

/-- The loop of `iptcc_find_label` over the built-in chains. -/
def builtinBody (t : ChainTable) (name : Name) (pos : ℕ) : Option Leaves :=
  if (t.chain pos).hooknum=0 then some (.stopped pos)
  else if (t.chain pos).name=name then some (.found pos)
  else none

/-- The loop of `iptcc_find_label` from the place that was found. -/
def labelBody (t : ChainTable) (name : Name) (pos : ℕ) : Option (Option ℕ) :=
  match strcmp (t.chain pos).name name with
  | .eq => some (some pos)
  | .gt =>
    if (t.chain pos).hooknum=0 then some none
    else if pos=t.head then some none
    else none
  | .lt => if pos=t.head then some none else none

/-- The part of `iptcc_find_label` behind the built-in chains. -/
def findUser (fuel : ℕ) (t : ChainTable) (name : Name) (pos : ℕ) : Option (Option ℕ) :=
  (bsearchChainIndex fuel t name 0).bind fun found =>
    let start := if found.1=t.head then pos else found.1
    if t.numChains=0 then some none
    else
      (t.circle.forEach (t.circle.prev start) (labelBody t name) fuel
        (t.circle.next (t.circle.prev start))).map fun left => left.getD none

/-- `iptcc_find_label` -/
def findLabel (fuel : ℕ) (t : ChainTable) (name : Name) : Option (Option ℕ) :=
  if t.circle.next t.head=t.head then some none
  else
    (t.circle.forEach t.head (builtinBody t name) fuel (t.circle.next t.head)).bind fun left =>
      match left with
      | some (.found c) => some (some c)
      | some (.stopped pos) => findUser fuel t name pos
      | none => findUser fuel t name t.head

/-- `list_add` -/
def listAdd (circle : Circle ℕ) (new head : ℕ) : Circle ℕ :=
  circle.insert new head (circle.next head)

/-- `list_add_tail` -/
def listAddTail (circle : Circle ℕ) (new head : ℕ) : Circle ℕ :=
  circle.insert new (circle.prev head) head

/-- The loop of `iptc_insert_chain`: a chain to insert before, or nothing once the head is
reached. -/
def insertBody (t : ChainTable) (c : ℕ) (tmp : ℕ) : Option (Option ℕ) :=
  if (t.chain tmp).hooknum=0 ∧ strcmp (t.chain c).name (t.chain tmp).name≠.gt then some (some tmp)
  else if tmp=t.head then some none
  else none

/-- `iptc_insert_chain` -/
def insertChain (fuel : ℕ) (t : ChainTable) (c : ℕ) : Option ChainTable :=
  (bsearchChainIndex fuel t (t.chain c).name 1).bind fun found =>
    -- The index 0 was compared last, so that there is an index.
    let first := (t.chainIndex.head?.join).getD 0
    let before : Bool :=
      decide (found.2=0 ∧ strcmp (t.chain c).name (t.chain first).name≠.gt)
    let chainIndex := if before then t.chainIndex.set 0 (some c) else t.chainIndex
    let start := if before then t.circle.next t.head else found.1
    let start := if start=t.head then t.circle.next t.head else start
    if (t.chain c).hooknum=0 then
      (t.circle.forEach (t.circle.prev start) (insertBody t c) fuel
        (t.circle.next (t.circle.prev start))).map fun left =>
          match left.join with
          | some tmp => {t with
            chainIndex := chainIndex, circle := listAdd t.circle c (t.circle.prev tmp)}
          | none => {t with chainIndex := chainIndex, circle := listAddTail t.circle c t.head}
    else some {t with chainIndex := chainIndex, circle := listAddTail t.circle c t.head}

/-! ## The order of names -/

theorem strcmp_eq_iff {a b : Name} : strcmp a b=.eq ↔ a=b :=
  @Std.compare_eq_iff_eq _ _ _ a b

theorem strcmp_gt_iff {a b : Name} : strcmp a b=.gt ↔ strcmp b a=.lt :=
  @Std.OrientedCmp.gt_iff_lt _ compare _ a b

theorem strcmp_trans {a b c : Name} (hab : strcmp a b=.lt) (hbc : strcmp b c=.lt) :
    strcmp a c=.lt :=
  @Std.TransCmp.lt_trans _ compare _ a b c hab hbc

theorem strcmp_swap (a b : Name) : strcmp a b=(strcmp b a).swap :=
  @Std.OrientedCmp.eq_swap _ compare _ a b

/-- The chains are sorted and indexed: built-in ones come first, the names of the others increase,
and the index points to some of them in their order, to the first one if it points to any. -/
structure Indexed (t : ChainTable) (builtins users : List ℕ) : Prop where
  /-- The circle holds the chains. -/
  circle : t.circle.Holds t.head (builtins++users)
  /-- The first chains are built-in. -/
  hooks : ∀ c∈builtins,(t.chain c).hooknum≠0
  /-- The others are not. -/
  noHooks : ∀ c∈users,(t.chain c).hooknum=0
  /-- Their names increase. -/
  sorted : users.Pairwise fun c d => strcmp (t.chain c).name (t.chain d).name=.lt
  /-- The index. -/
  index : ∃ selected : List ℕ,t.chainIndex=selected.map some ∧ selected.Sublist users ∧
    ∀ c∈selected.head?,users.head?=some c

section Searches

variable {t : ChainTable} {name : Name} {selected : List ℕ}

/-- The comparisons of a search. -/
def compares (t : ChainTable) (name : Name) (selected : List ℕ) (i : ℕ) : Ordering :=
  strcmp name (t.chain (selected.getD i 0)).name

theorem compares_increasing
    (hsorted : selected.Pairwise fun c d => strcmp (t.chain c).name (t.chain d).name=.lt) :
    Increasing (compares t name selected) selected.length := by
  intro i j hij hj hne
  have hi : i < selected.length := by omega
  have hlt := List.pairwise_iff_getElem.mp hsorted i j hi hj hij
  unfold compares at hne ⊢
  rw [List.getD_eq_getElem _ _ hi] at hne
  rw [List.getD_eq_getElem _ _ hj]
  cases hcmp : strcmp name (t.chain selected[i]).name with
  | lt => exact strcmp_trans hcmp hlt
  | eq => rwa [strcmp_eq_iff.mp hcmp]
  | gt => exact absurd hcmp hne

/-- The search of the code is the search by halves. -/
theorem bsearchLoop_eq (hindex : t.chainIndex=selected.map some) {fuel pos stop idx : ℕ}
    (hpos : pos < selected.length) (hstop : stop ≤ selected.length) :
    bsearchLoop t name fuel pos stop idx=
      (search (compares t name selected) selected.length fuel pos stop).map fun p =>
        (selected.getD p 0,p) := by
  induction fuel generalizing pos stop idx with
  | zero => rfl
  | succ fuel ih =>
    have hread : ∀ i,(hi : i < selected.length) →
        t.chainIndex[i]?=some (some (selected.getD i 0)) := by
      intro i hi
      rw [hindex,List.getElem?_map,List.getElem?_eq_getElem hi,List.getD_eq_getElem _ _ hi]
      rfl
    have hlength : t.chainIndex.length=selected.length := by
      rw [hindex,List.length_map]
    rw [bsearchLoop,search,hread pos hpos,hlength]
    dsimp only
    cases hcmp : compares t name selected pos with
    | eq =>
      unfold compares at hcmp
      rw [hcmp]
      rfl
    | lt =>
      unfold compares at hcmp
      rw [hcmp]
      dsimp only
      by_cases hzero : pos=0
      · rw [if_pos hzero,if_pos hzero]
        rfl
      · rw [if_neg hzero,if_neg hzero]
        exact ih (by omega) hpos.le
    | gt =>
      unfold compares at hcmp
      rw [hcmp]
      dsimp only
      by_cases hlast : pos+1=selected.length
      · rw [if_pos hlast,if_pos hlast]
        rfl
      rw [if_neg hlast,if_neg hlast,hread (pos+1) (by omega)]
      dsimp only
      by_cases hnext : compares t name selected (pos+1)=.lt
      · rw [if_pos hnext]
        unfold compares at hnext
        rw [if_pos hnext]
        rfl
      · rw [if_neg hnext]
        unfold compares at hnext
        rw [if_neg hnext]
        exact ih (by omega) hstop

/-- The linear search stops at the same place. -/
theorem linearLoop_stops (hnonempty : selected≠[]) {k : ℕ} (hk : k ≤ selected.length)
    (hbefore : ∀ i<k,compares t name selected i=.gt) :
    ∃ p,linearLoop t name ((selected.drop k).map some) (selected.getD (k-1) 0)=selected.getD p 0 ∧
      Stops (compares t name selected) selected.length p := by
  have hpos := List.length_pos_of_ne_nil hnonempty
  induction hleft : selected.length-k generalizing k with
  | zero =>
    rw [List.drop_eq_nil_of_le (by omega)]
    exact ⟨k-1,rfl,by omega,Or.inr (Or.inl ⟨hbefore _ (by omega),fun _ => by omega⟩)⟩
  | succ left ih =>
    have hk' : k < selected.length := by omega
    rw [List.drop_eq_getElem_cons hk',List.map_cons,linearLoop]
    have hcmp : strcmp (t.chain selected[k]).name name=(compares t name selected k).swap := by
      unfold compares
      rw [List.getD_eq_getElem _ _ hk']
      exact strcmp_swap _ _
    rw [hcmp]
    cases hcase : compares t name selected k with
    | eq => exact ⟨k,(List.getD_eq_getElem _ _ hk').symm,hk',Or.inl hcase⟩
    | lt =>
      by_cases hzero : k=0
      · subst hzero
        exact ⟨0,rfl,hpos,Or.inr (Or.inr ⟨rfl,hcase⟩)⟩
      · refine ⟨k-1,rfl,by omega,Or.inr (Or.inl ⟨hbefore _ (by omega),fun _ => ?_⟩)⟩
        rw [Nat.sub_add_cancel (Nat.pos_of_ne_zero hzero)]
        exact hcase
    | gt =>
      have hbefore' : ∀ i<k+1,compares t name selected i=.gt := by
        intro i hi
        rcases Nat.lt_succ_iff_lt_or_eq.mp hi with hi | rfl
        · exact hbefore i hi
        · exact hcase
      have hlater := ih (k := k+1) hk' hbefore' (by omega)
      rw [Nat.add_sub_cancel,List.getD_eq_getElem _ _ hk'] at hlater
      exact hlater

/-- Where both searches stop. -/
theorem searches_stop (hindex : t.chainIndex=selected.map some) (hnonempty : selected≠[])
    (hsorted : selected.Pairwise fun c d => strcmp (t.chain c).name (t.chain d).name=.lt)
    {fuel : ℕ} (hfuel : selected.length*selected.length+selected.length<fuel) (idx : ℕ) :
    ∃ p,bsearchChainIndex fuel t name idx=some (selected.getD p 0,p) ∧
      linearlySearchChainIndex t name=selected.getD p 0 ∧
      Stops (compares t name selected) selected.length p := by
  have hpos := List.length_pos_of_ne_nil hnonempty
  have hincreasing := @compares_increasing t name selected hsorted
  have hlength : t.chainIndex.length=selected.length := by
    rw [hindex,List.length_map]
  obtain ⟨p,hsearch,hp⟩ := search_stops hincreasing hpos hfuel
  obtain ⟨q,hlinear,hq⟩ := @linearLoop_stops t name selected hnonempty 0 (Nat.zero_le _)
    fun i hi => absurd hi (Nat.not_lt_zero i)
  obtain rfl := hp.unique hq hincreasing
  refine ⟨p,?_,?_,hp⟩
  · unfold bsearchChainIndex
    rw [hlength,if_neg (by omega),bsearchLoop_eq hindex (by omega) (Nat.le_refl _),hsearch]
    rfl
  · unfold linearlySearchChainIndex
    cases selected with
    | nil => exact absurd rfl hnonempty
    | cons c selected =>
      rw [hindex]
      exact hlinear

end Searches

/-! ## Finding a chain -/

section Finding

variable {t : ChainTable} {name : Name} {builtins users : List ℕ}

/-- The chain of a name. -/
def named (t : ChainTable) (chains : List ℕ) (name : Name) : Option ℕ :=
  chains.find? fun c => (t.chain c).name=name

/-- The walk over the sorted chains leaves early or finds the chain. -/
theorem findSome_labelBody {chains : List ℕ} (hno : ∀ c∈chains,(t.chain c).hooknum=0)
    (hhead : t.head∉chains)
    (hsorted : chains.Pairwise fun c d => strcmp (t.chain c).name (t.chain d).name=.lt) :
    chains.findSome? (labelBody t name)=
      match named t chains name with
      | some c => some (some c)
      | none => if ∀ c∈chains,strcmp (t.chain c).name name=.lt then none else some none := by
  induction chains with
  | nil => rfl
  | cons c chains ih =>
    obtain ⟨hlater,hsorted⟩ := List.pairwise_cons.mp hsorted
    obtain ⟨hc,hno⟩ := List.forall_mem_cons.mp hno
    have hne : c≠t.head := fun heq => hhead (heq ▸ List.mem_cons_self)
    unfold named at ih ⊢
    rw [List.findSome?_cons,List.find?_cons]
    cases hcmp : strcmp (t.chain c).name name with
    | eq =>
      have hbody : labelBody t name c=some (some c) := by
        unfold labelBody
        rw [hcmp]
      rw [hbody,decide_eq_true (strcmp_eq_iff.mp hcmp)]
    | lt =>
      have hbody : labelBody t name c=none := by
        unfold labelBody
        rw [hcmp]
        exact if_neg hne
      have hother : ¬(t.chain c).name=name := fun heq => by
        rw [strcmp_eq_iff.mpr heq] at hcmp
        cases hcmp
      have hrest := ih hno (fun hin => hhead (List.mem_cons_of_mem c hin)) hsorted
      rw [hbody,decide_eq_false hother]
      dsimp only
      rw [hrest]
      simp only [List.forall_mem_cons,hcmp,true_and]
    | gt =>
      have hbody : labelBody t name c=some none := by
        unfold labelBody
        rw [hcmp]
        exact if_pos hc
      have hother : ¬(t.chain c).name=name := fun heq => by
        rw [strcmp_eq_iff.mpr heq] at hcmp
        cases hcmp
      have hnone : chains.find? (fun c => decide ((t.chain c).name=name))=none := by
        rw [List.find?_eq_none]
        intro d hd heq
        have hlt := hlater d hd
        rw [of_decide_eq_true heq] at hlt
        rw [hlt] at hcmp
        cases hcmp
      rw [hbody,decide_eq_false hother,hnone]
      dsimp only
      rw [if_neg]
      intro hall
      rw [hall c List.mem_cons_self] at hcmp
      cases hcmp

/-- The walk over the built-in chains. -/
theorem findSome_builtinBody (hhooks : ∀ c∈builtins,(t.chain c).hooknum≠0)
    (hno : ∀ c∈users,(t.chain c).hooknum=0) :
    (builtins++users).findSome? (builtinBody t name)=
      match named t builtins name with
      | some c => some (.found c)
      | none => users.head?.map Leaves.stopped := by
  induction builtins with
  | nil =>
    cases users with
    | nil => rfl
    | cons c users =>
      rw [List.nil_append,List.findSome?_cons,builtinBody,if_pos (hno c List.mem_cons_self)]
      rfl
  | cons c builtins ih =>
    obtain ⟨hc,hhooks⟩ := List.forall_mem_cons.mp hhooks
    unfold named at ih ⊢
    rw [List.cons_append,List.findSome?_cons,List.find?_cons,builtinBody,if_neg hc]
    by_cases hname : (t.chain c).name=name
    · rw [if_pos hname,decide_eq_true hname]
    · rw [if_neg hname,decide_eq_false hname]
      exact ih hhooks

/-- The walk from a place of the index crosses the head. -/
def Crosses (t : ChainTable) (builtins : List ℕ) : Prop :=
  builtins≠[] ∨ 1<t.chainIndex.length

/-- What is read as the name of the head is taken for the name of a chain: it is the name of none,
but greater than those of all sorted chains. -/
def Mistaken (t : ChainTable) (builtins users : List ℕ) (name : Name) : Prop :=
  users≠[] ∧ Crosses t builtins ∧ named t builtins name=none ∧
    (∀ c∈users,strcmp (t.chain c).name name=.lt) ∧ (t.chain t.head).name=name

instance (t : ChainTable) (builtins users : List ℕ) (name : Name) :
    Decidable (Mistaken t builtins users name) :=
  inferInstanceAs (Decidable (users≠[] ∧ (builtins≠[] ∨ 1<t.chainIndex.length) ∧
    named t builtins name=none ∧ (∀ c∈users,strcmp (t.chain c).name name=.lt) ∧
      (t.chain t.head).name=name))

/-- Where the walk over the sorted chains starts. -/
structure Starts (t : ChainTable) (name : Name) (users : List ℕ) (start : ℕ) (a b : List ℕ) :
    Prop where
  /-- The place. -/
  split : users=a++start::b
  /-- What is skipped has smaller names. -/
  skipped : ∀ c∈a,strcmp (t.chain c).name name=.lt
  /-- If all names are smaller, the walk starts at the first chain only if there is no other one in
  the index. -/
  first : (∀ c∈users,strcmp (t.chain c).name name=.lt) → (a≠[] ↔ 1<t.chainIndex.length)

theorem Indexed.head_notMem (h : Indexed t builtins users) : t.head∉builtins++users :=
  (List.nodup_cons.mp h.circle.nodup).1

/-- The index gives a place to start from, or there is none and the walk starts at the first of the
sorted chains. -/
theorem Indexed.starts (h : Indexed t builtins users) {fuel : ℕ}
    (hfuel : t.chainIndex.length*t.chainIndex.length+t.chainIndex.length<fuel) (idx : ℕ) :
    (t.chainIndex=[] ∧ bsearchChainIndex fuel t name idx=some (t.head,idx) ∧
        linearlySearchChainIndex t name=t.head) ∨
      ∃ c p a b,bsearchChainIndex fuel t name idx=some (c,p) ∧
        linearlySearchChainIndex t name=c ∧ Starts t name users c a b ∧
        (p=0 → t.chainIndex.head?=some (some c)) ∧
          (strcmp name (t.chain c).name=.lt → a=[] ∧ p=0) := by
  obtain ⟨selected,hindex,hsub,hfirst⟩ := h.index
  have hlength : t.chainIndex.length=selected.length := by
    rw [hindex,List.length_map]
  by_cases hnil : selected=[]
  · subst hnil
    refine Or.inl ⟨hindex,?_,?_⟩
    · unfold bsearchChainIndex
      exact if_pos hlength
    · unfold linearlySearchChainIndex
      rw [hindex]
      rfl
  have hsorted := h.sorted.sublist hsub
  have hincreasing := @compares_increasing t name selected hsorted
  rw [hlength] at hfuel
  obtain ⟨p,hsearch,hlinear,hstops⟩ := @searches_stop t name selected hindex hnil hsorted fuel hfuel idx
  have hp := hstops.1
  rw [List.getD_eq_getElem _ _ hp] at hsearch hlinear
  have hcmp : compares t name selected p=strcmp name (t.chain selected[p]).name := by
    unfold compares
    rw [List.getD_eq_getElem _ _ hp]
  obtain ⟨a,b,hsplit⟩ := List.append_of_mem (hsub.subset (List.getElem_mem hp))
  have hnodup : users.Nodup := (List.nodup_append.mp (List.nodup_cons.mp h.circle.nodup).2).2.1
  have hhead : selected.head?=some selected[0] := List.head?_eq_getElem? ▸ List.getElem?_eq_getElem _
  have huser : users.head?=some selected[0] := hfirst _ hhead
  have hzero : a=[] ↔ p=0 := by
    constructor
    · rintro rfl
      rw [hsplit] at huser
      exact ((hnodup.sublist hsub).getElem_inj_iff).mp (Option.some.inj huser)
    · rintro rfl
      cases a with
      | nil => rfl
      | cons x a =>
        rw [hsplit] at huser hnodup
        have hx : x=selected[0] := Option.some.inj huser
        exact absurd (List.mem_append_right a List.mem_cons_self)
          (hx ▸ (List.nodup_cons.mp hnodup).1)
  have hacross : ∀ u∈a,strcmp (t.chain u).name (t.chain selected[p]).name=.lt := by
    have hsorted' := h.sorted
    rw [hsplit] at hsorted'
    exact fun u hu => (List.pairwise_append.mp hsorted').2.2 u hu _ List.mem_cons_self
  refine Or.inr ⟨selected[p],p,a,b,hsearch,hlinear,⟨hsplit,fun u hu => ?_,fun hall => ?_⟩,
    ?_,fun hlt => ?_⟩
  · rcases hstops.2 with heq | ⟨hgt,-⟩ | ⟨rfl,-⟩
    · rw [hcmp] at heq
      rw [strcmp_eq_iff.mp heq]
      exact hacross u hu
    · rw [hcmp] at hgt
      exact strcmp_trans (hacross u hu) (strcmp_gt_iff.mp hgt)
    · rw [hzero.mpr rfl] at hu
      cases hu
  · have hgreater : ∀ i,i < selected.length → compares t name selected i=.gt := by
      intro i hi
      unfold compares
      rw [List.getD_eq_getElem _ _ hi,strcmp_gt_iff]
      exact hall _ (hsub.subset (List.getElem_mem hi))
    have hlast : p+1=selected.length := by
      rcases hstops.2 with heq | ⟨-,hnext⟩ | ⟨rfl,hlt⟩
      · rw [hgreater p hp] at heq
        cases heq
      · by_contra hne
        have hlt := hnext (by omega)
        rw [hgreater (p+1) (by omega)] at hlt
        cases hlt
      · rw [hgreater 0 hp] at hlt
        cases hlt
    rw [ne_eq,hzero,hlength]
    omega
  · rintro rfl
    rw [hindex,List.head?_map,hhead]
    rfl
  · rcases hstops.2 with heq | ⟨hgt,-⟩ | ⟨hp0,-⟩
    · rw [hcmp,hlt] at heq
      cases heq
    · rw [hcmp,hlt] at hgt
      cases hgt
    · exact ⟨hzero.mpr hp0,hp0⟩

/-- At the head the walk ends, unless its name is taken for that of a chain. -/
theorem labelBody_head :
    labelBody t name t.head=some (if (t.chain t.head).name=name then some t.head else none) := by
  unfold labelBody
  cases hcmp : strcmp (t.chain t.head).name name with
  | eq =>
    rw [if_pos (strcmp_eq_iff.mp hcmp)]
  | lt =>
    have hne : (t.chain t.head).name≠name := fun heq => by
      rw [strcmp_eq_iff.mpr heq] at hcmp
      cases hcmp
    rw [if_neg hne]
    exact if_pos rfl
  | gt =>
    have hne : (t.chain t.head).name≠name := fun heq => by
      rw [strcmp_eq_iff.mpr heq] at hcmp
      cases hcmp
    rw [if_neg hne]
    dsimp only
    by_cases hook : (t.chain t.head).hooknum=0
    · rw [if_pos hook]
    · rw [if_neg hook,if_pos rfl]

theorem named_append_of_none {a b : List ℕ} (hno : named t a name=none) :
    named t (a++b) name=named t b name := by
  unfold named at hno ⊢
  rw [List.find?_append,hno,Option.none_or]

theorem named_of_smaller {a : List ℕ} (h : ∀ c∈a,strcmp (t.chain c).name name=.lt) :
    named t a name=none := by
  refine List.find?_eq_none.mpr fun c hc heq => ?_
  have hlt := h c hc
  rw [strcmp_eq_iff.mpr (of_decide_eq_true heq)] at hlt
  cases hlt

/-- What the walk from a place yields. -/
theorem Indexed.walk (h : Indexed t builtins users) {start : ℕ} {a b : List ℕ}
    (hs : Starts t name users start a b) (hno : named t builtins name=none) {fuel : ℕ}
    (hfuel : (builtins++users).length+1<fuel) :
    (t.circle.forEach (t.circle.prev start) (labelBody t name) fuel
        (t.circle.next (t.circle.prev start))).map (fun left => left.getD none)=
      some (if Mistaken t builtins users name then some t.head
        else named t (builtins++users) name) := by
  obtain ⟨hsplit,hskipped,hfirst⟩ := hs
  have hcircle := h.circle
  have hnot := h.head_notMem
  rw [hsplit,←List.append_assoc] at hcircle hfuel hnot
  rw [hcircle.forEach_from hfuel,Option.map_some,List.findSome?_append]
  have hbehind : start::b⊆users := hsplit ▸ List.subset_append_right a (start::b)
  have hsuffix : (start::b).Sublist users := hsplit ▸ List.sublist_append_right a (start::b)
  rw [findSome_labelBody (fun c hc => h.noHooks c (hbehind hc))
    (fun hin => hnot (List.mem_append_right _ hin)) (h.sorted.sublist hsuffix)]
  have hnamed : named t (builtins++users) name=named t (start::b) name := by
    rw [named_append_of_none hno,hsplit,named_append_of_none (named_of_smaller hskipped)]
  rw [hnamed]
  cases hfound : named t (start::b) name with
  | some c =>
    have hname : (t.chain c).name=name := by simpa using List.find?_some hfound
    have hnot' : ¬Mistaken t builtins users name := by
      rintro ⟨-,-,-,hall,-⟩
      have hlt := hall c (hbehind (List.mem_of_find?_eq_some hfound))
      rw [strcmp_eq_iff.mpr hname] at hlt
      cases hlt
    rw [if_neg hnot']
    rfl
  | none =>
    dsimp only
    by_cases hall : ∀ c∈start::b,strcmp (t.chain c).name name=.lt
    · have hall' : ∀ c∈users,strcmp (t.chain c).name name=.lt := by
        intro c hc
        rw [hsplit] at hc
        exact (List.mem_append.mp hc).elim (hskipped c) (hall c)
      have hcrosses : builtins++a≠[] ↔ Crosses t builtins := by
        unfold Crosses
        rw [←hfirst hall',ne_eq,List.append_eq_nil_iff,not_and_or]
      rw [if_pos hall,Option.none_or]
      by_cases hempty : builtins++a=[]
      · have hnot' : ¬Mistaken t builtins users name :=
          fun hm => (hcrosses.mpr hm.2.1) hempty
        rw [if_pos hempty,if_neg hnot']
        rfl
      · rw [if_neg hempty,List.findSome?_cons,labelBody_head]
        dsimp only
        by_cases hname : (t.chain t.head).name=name
        · have hm : Mistaken t builtins users name :=
            ⟨hsplit ▸ List.append_ne_nil_of_right_ne_nil a (List.cons_ne_nil start b),
              hcrosses.mp hempty,hno,hall',hname⟩
          rw [if_pos hname,if_pos hm]
          rfl
        · rw [if_neg hname,if_neg fun hm => hname hm.2.2.2.2]
          rfl
    · have hnot' : ¬Mistaken t builtins users name := by
        rintro ⟨-,-,-,hall',-⟩
        exact hall fun c hc => hall' c (hbehind hc)
      rw [if_neg hall,if_neg hnot']
      rfl

/-- What the search behind the built-in chains returns. -/
theorem Indexed.findUser_eq (h : Indexed t builtins users) (hnum : t.numChains=users.length)
    (hno : named t builtins name=none) {fuel : ℕ} (hfuel : (builtins++users).length+1<fuel)
    (hindex : t.chainIndex.length*t.chainIndex.length+t.chainIndex.length<fuel) :
    findUser fuel t name (users.head?.getD t.head)=
      some (if Mistaken t builtins users name then some t.head
        else named t (builtins++users) name) := by
  unfold findUser
  rw [hnum]
  cases users with
  | nil =>
    have hnot : ¬Mistaken t builtins [] name := fun hm => hm.1 rfl
    rw [if_neg hnot,named_append_of_none hno]
    rcases @Indexed.starts t name _ _ h _ hindex 0 with ⟨-,hsearch,-⟩ | ⟨c,p,a,b,hsearch,-⟩
    · rw [hsearch]
      rfl
    · rw [hsearch]
      rfl
  | cons u users =>
    have hsome : (u::users).length≠0 := Nat.succ_ne_zero users.length
    rcases @Indexed.starts t name _ _ h _ hindex 0 with ⟨hnil,hsearch,-⟩ | ⟨c,p,a,b,hsearch,-,hs,-⟩
    · have hs : Starts t name (u::users) u [] users :=
        ⟨rfl,fun c hc => absurd hc List.not_mem_nil,fun _ => by rw [hnil]; simp⟩
      rw [hsearch,Option.bind_some]
      dsimp only
      rw [if_pos rfl,if_neg hsome]
      exact h.walk hs hno hfuel
    · have hc : c≠t.head := by
        rintro rfl
        refine h.head_notMem (List.mem_append_right builtins ?_)
        rw [hs.split]
        exact List.mem_append_right a List.mem_cons_self
      rw [hsearch,Option.bind_some]
      dsimp only
      rw [if_neg hc,if_neg hsome]
      exact h.walk hs hno hfuel

/-- What `iptcc_find_label` returns. -/
theorem Indexed.findLabel_eq (h : Indexed t builtins users) (hnum : t.numChains=users.length)
    {fuel : ℕ} (hfuel : (builtins++users).length+1<fuel)
    (hindex : t.chainIndex.length*t.chainIndex.length+t.chainIndex.length<fuel) :
    findLabel fuel t name=some (if Mistaken t builtins users name then some t.head
      else named t (builtins++users) name) := by
  have hnext : some (t.circle.next t.head)=((builtins++users)++[t.head]).head? :=
    Circle.Holds.next_last (a := []) h.circle
  unfold findLabel
  by_cases hempty : builtins++users=[]
  · have hnot : ¬Mistaken t builtins users name :=
      fun hm => hm.1 (List.append_eq_nil_iff.mp hempty).2
    rw [hempty] at hnext ⊢
    rw [if_pos (Option.some.inj hnext),if_neg hnot]
    rfl
  have hne : t.circle.next t.head≠t.head := by
    intro heq
    rw [heq,List.head?_append_of_ne_nil _ hempty] at hnext
    exact h.head_notMem (List.mem_of_head? hnext.symm)
  rw [if_neg hne,h.circle.forEach_all (by omega),findSome_builtinBody h.hooks h.noHooks,
    Option.bind_some]
  cases hbuiltin : named t builtins name with
  | some c =>
    have hnot : ¬Mistaken t builtins users name := fun hm => by
      rw [hm.2.2.1] at hbuiltin
      cases hbuiltin
    have hnamed : named t (builtins++users) name=some c := by
      unfold named at hbuiltin ⊢
      rw [List.find?_append,hbuiltin,Option.some_or]
    rw [if_neg hnot,hnamed]
  | none =>
    have hrest := h.findUser_eq hnum hbuiltin hfuel hindex
    dsimp only
    cases users with
    | nil => exact hrest
    | cons u users => exact hrest

end Finding

/-! ## Inserting a chain -/

section Inserting

variable {t : ChainTable} {builtins users : List ℕ} {c : ℕ}

/-- A chain to be inserted: it is not built-in, and no chain has its address or its name. -/
structure New (t : ChainTable) (builtins users : List ℕ) (c : ℕ) : Prop where
  /-- The address. -/
  addr : c∉t.head::(builtins++users)
  /-- The hook. -/
  noHook : (t.chain c).hooknum=0
  /-- The name. -/
  name : ∀ d∈builtins++users,(t.chain d).name≠(t.chain c).name

/-- The place of a new name in the order. -/
theorem exists_place {chains : List ℕ}
    (hsorted : chains.Pairwise fun c d => strcmp (t.chain c).name (t.chain d).name=.lt)
    (hname : ∀ d∈chains,(t.chain d).name≠(t.chain c).name) :
    ∃ lo hi,chains=lo++hi ∧ (∀ d∈lo,strcmp (t.chain d).name (t.chain c).name=.lt) ∧
      ∀ d∈hi,strcmp (t.chain c).name (t.chain d).name=.lt := by
  induction chains with
  | nil => exact ⟨[],[],rfl,fun _ hin => absurd hin List.not_mem_nil,
      fun _ hin => absurd hin List.not_mem_nil⟩
  | cons d chains ih =>
    obtain ⟨hlater,hsorted⟩ := List.pairwise_cons.mp hsorted
    obtain ⟨hd,hname⟩ := List.forall_mem_cons.mp hname
    cases hcmp : strcmp (t.chain c).name (t.chain d).name with
    | eq => exact absurd (strcmp_eq_iff.mp hcmp).symm hd
    | lt =>
      refine ⟨[],d::chains,rfl,fun _ hin => absurd hin List.not_mem_nil,?_⟩
      exact List.forall_mem_cons.mpr ⟨hcmp,fun e he => strcmp_trans hcmp (hlater e he)⟩
    | gt =>
      obtain ⟨lo,hi,rfl,hlo,hhi⟩ := ih hsorted hname
      exact ⟨d::lo,hi,rfl,List.forall_mem_cons.mpr ⟨strcmp_gt_iff.mp hcmp,hlo⟩,hhi⟩

/-- What the loop of the insertion leaves the circle with. -/
def insertLeft (t : ChainTable) (c : ℕ) (left : Option (Option ℕ)) : Circle ℕ :=
  match left.join with
  | some tmp => listAdd t.circle c (t.circle.prev tmp)
  | none => listAddTail t.circle c t.head

/-- The new chain is put before the rest of the chains. -/
theorem listAdd_holds {a b : List ℕ} (h : t.circle.Holds t.head (a++b)) (hc : c∉t.head::(a++b))
    {tmp : ℕ} (htmp : some tmp=(b++[t.head]).head?) :
    (listAdd t.circle c (t.circle.prev tmp)).Holds t.head (a++c::b) :=
  h.insert hc (h.getLast_prev htmp) (h.next_getLast (h.getLast_prev htmp))

theorem listAddTail_holds {a : List ℕ} (h : t.circle.Holds t.head a) (hc : c∉t.head::a) :
    (listAddTail t.circle c t.head).Holds t.head (a++[c]) := by
  rw [←List.append_nil a] at h hc
  exact h.insert hc (h.getLast_prev rfl) rfl

/-- The loop stops at the first chain behind the new one, or at the head. -/
theorem insertLeft_holds (h : Indexed t builtins users) (hnew : New t builtins users c)
    {lo hi passed : List ℕ} (hsplit : users=lo++hi)
    (hpassed : ∀ d∈passed,insertBody t c d=none)
    (hhi : ∀ d∈hi,strcmp (t.chain c).name (t.chain d).name=.lt) {rest : List ℕ}
    (hrest : rest=[] ∨ ∃ later,rest=t.head::later) :
    (insertLeft t c ((passed++hi++rest).findSome? (insertBody t c))).Holds t.head
      (builtins++(lo++c::hi)) := by
  have hcircle := h.circle
  have haddr := hnew.addr
  rw [hsplit,←List.append_assoc] at hcircle haddr
  rw [List.append_assoc,List.findSome?_append,List.findSome?_eq_none_iff.mpr hpassed,
    Option.none_or,←List.append_assoc builtins]
  cases hi with
  | cons d hi =>
    have hd : insertBody t c d=some (some d) := by
      have hin : d∈users := hsplit ▸ List.mem_append_right lo List.mem_cons_self
      have hlt := hhi d List.mem_cons_self
      refine if_pos ⟨h.noHooks d hin,?_⟩
      rw [hlt]
      exact Ordering.noConfusion
    rw [List.cons_append,List.findSome?_cons,hd]
    exact listAdd_holds hcircle haddr rfl
  | nil =>
    rw [List.append_nil] at hcircle haddr
    rcases hrest with rfl | ⟨later,rfl⟩
    · exact listAddTail_holds hcircle haddr
    · rw [List.nil_append,List.findSome?_cons]
      unfold insertBody
      by_cases hgarbage : (t.chain t.head).hooknum=0 ∧
          strcmp (t.chain c).name (t.chain t.head).name≠.gt
      · rw [if_pos hgarbage]
        rw [←List.append_nil (builtins++lo)] at hcircle haddr
        exact listAdd_holds hcircle haddr rfl
      · rw [if_neg hgarbage,if_pos rfl]
        exact listAddTail_holds hcircle haddr

/-- Built-in chains and chains with smaller names are passed. -/
theorem insertBody_passed (h : Indexed t builtins users) {passed : List ℕ}
    (hin : passed⊆builtins++users)
    (hpassed : ∀ d∈passed,d∈users → strcmp (t.chain d).name (t.chain c).name=.lt) :
    ∀ d∈passed,insertBody t c d=none := by
  intro d hd
  have hne : d≠t.head := by
    rintro rfl
    exact h.head_notMem (hin hd)
  have hnot : ¬((t.chain d).hooknum=0 ∧ strcmp (t.chain c).name (t.chain d).name≠.gt) := by
    rintro ⟨hook,hcmp⟩
    rcases List.mem_append.mp (hin hd) with hb | hu
    · exact h.hooks d hb hook
    · exact hcmp (strcmp_gt_iff.mpr (hpassed d hd hu))
  unfold insertBody
  rw [if_neg hnot,if_neg hne]

/-- The walk of the insertion from a chain that is not behind the place. -/
theorem insertLeft_from (h : Indexed t builtins users) (hnew : New t builtins users c)
    {lo hi a b passed : List ℕ} {start : ℕ} (hsplit : users=lo++hi)
    (hlo : ∀ d∈lo,strcmp (t.chain d).name (t.chain c).name=.lt)
    (hhi : ∀ d∈hi,strcmp (t.chain c).name (t.chain d).name=.lt)
    (hstart : builtins++users=a++start::b) (hpassed : start::b=passed++hi) {fuel : ℕ}
    (hfuel : (builtins++users).length+1<fuel) :
    ∃ left,t.circle.forEach (t.circle.prev start) (insertBody t c) fuel
        (t.circle.next (t.circle.prev start))=some left ∧
      (insertLeft t c left).Holds t.head (builtins++(lo++c::hi)) := by
  have hcircle := h.circle
  rw [hstart] at hcircle hfuel
  refine ⟨_,hcircle.forEach_from hfuel,?_⟩
  rw [hpassed]
  refine insertLeft_holds h hnew hsplit (insertBody_passed h (fun d hd => ?_) fun d hd hu => ?_)
    hhi ?_
  · rw [hstart,hpassed]
    exact List.mem_append_right a (List.mem_append_left hi hd)
  · rw [hsplit] at hu
    rcases List.mem_append.mp hu with hin | hin
    · exact hlo d hin
    · -- It would be in the list twice.
      have hnodup := (List.nodup_cons.mp hcircle.nodup).2
      rw [hpassed] at hnodup
      have hdisjoint := (List.nodup_append.mp (List.nodup_append.mp hnodup).2.1).2.2
      exact absurd rfl (hdisjoint d hd d hin)
  · by_cases hempty : a=[]
    · exact Or.inl (if_pos hempty)
    · exact Or.inr ⟨_,if_neg hempty⟩

/-- The walk of the insertion from the first chain, or from the head if there is none. -/
theorem insertLeft_first (h : Indexed t builtins users) (hnew : New t builtins users c)
    {lo hi : List ℕ} (hsplit : users=lo++hi)
    (hlo : ∀ d∈lo,strcmp (t.chain d).name (t.chain c).name=.lt)
    (hhi : ∀ d∈hi,strcmp (t.chain c).name (t.chain d).name=.lt) {fuel : ℕ}
    (hfuel : (builtins++users).length+1<fuel) :
    ∃ left,t.circle.forEach (t.circle.prev (t.circle.next t.head)) (insertBody t c) fuel
        (t.circle.next (t.circle.prev (t.circle.next t.head)))=some left ∧
      (insertLeft t c left).Holds t.head (builtins++(lo++c::hi)) := by
  have hnext : some (t.circle.next t.head)=((builtins++users)++[t.head]).head? :=
    Circle.Holds.next_last (a := []) h.circle
  cases hall : builtins++users with
  | nil =>
    rw [hall] at hnext
    obtain ⟨rfl,husers⟩ := List.append_eq_nil_iff.mp hall
    rw [hsplit] at husers
    obtain ⟨rfl,rfl⟩ := List.append_eq_nil_iff.mp husers
    have hcircle := h.circle
    rw [hall] at hcircle
    have hprev : some t.head=some (t.circle.prev t.head) :=
      hcircle.getLast_prev (a := []) (b := []) rfl
    rw [Option.some.inj hnext,←Option.some.inj hprev,Option.some.inj hnext]
    refine ⟨none,?_,listAddTail_holds hcircle fun hin => hnew.addr ?_⟩
    · cases fuel with
      | zero => exact absurd hfuel (Nat.not_lt_zero _)
      | succ fuel =>
        rw [Circle.forEach,if_pos rfl]
    · rw [hall]
      exact hin
  | cons x b =>
    rw [hall] at hnext
    rw [Option.some.inj hnext]
    refine @insertLeft_from t _ _ c h hnew lo hi [] b (builtins++lo) x hsplit hlo hhi hall ?_ _ hfuel
    rw [←hall,hsplit,List.append_assoc]

/-- The chains and the index after an insertion. -/
theorem Indexed.inserted (h : Indexed t builtins users) (hnew : New t builtins users c)
    {lo hi : List ℕ} (hsplit : users=lo++hi)
    (hlo : ∀ d∈lo,strcmp (t.chain d).name (t.chain c).name=.lt)
    (hhi : ∀ d∈hi,strcmp (t.chain c).name (t.chain d).name=.lt) {circle : Circle ℕ}
    (hcircle : circle.Holds t.head (builtins++(lo++c::hi))) {chainIndex : List (Option ℕ)}
    (hindex : chainIndex=t.chainIndex ∧ (lo≠[] ∨ t.chainIndex=[]) ∨
      chainIndex=t.chainIndex.set 0 (some c) ∧ lo=[]) :
    Indexed {t with circle := circle, chainIndex := chainIndex} builtins (lo++c::hi) := by
  obtain ⟨selected,hselected,hsub,hfirst⟩ := h.index
  have hsorted := h.sorted
  rw [hsplit] at hsorted hsub hfirst
  obtain ⟨hslo,hshi,hacross⟩ := List.pairwise_append.mp hsorted
  refine ⟨hcircle,h.hooks,fun d hd => ?_,?_,?_⟩
  · rcases List.mem_append.mp hd with hd | hd
    · exact h.noHooks d (hsplit ▸ List.mem_append_left hi hd)
    · rcases List.mem_cons.mp hd with rfl | hd
      · exact hnew.noHook
      · exact h.noHooks d (hsplit ▸ List.mem_append_right lo hd)
  · refine List.pairwise_append.mpr ⟨hslo,List.pairwise_cons.mpr ⟨hhi,hshi⟩,fun d hd e he => ?_⟩
    rcases List.mem_cons.mp he with rfl | he
    · exact hlo d hd
    · exact hacross d hd e he
  · rcases hindex with ⟨heq,hnot⟩ | ⟨heq,rfl⟩
    · refine ⟨selected,heq.trans hselected,
        hsub.trans (List.Sublist.append_left (List.sublist_cons_self c hi) lo),fun d hd => ?_⟩
      rcases hnot with hne | hnil
      · have hhead := hfirst d hd
        rw [List.head?_append_of_ne_nil _ hne] at hhead ⊢
        exact hhead
      · rw [hnil] at hselected
        rw [List.map_eq_nil_iff.mp hselected.symm] at hd
        cases hd
    · cases selected with
      | nil =>
        rw [hselected] at heq
        exact ⟨[],heq,List.nil_sublist _,fun d hd => by cases hd⟩
      | cons s selected =>
        rw [hselected] at heq
        refine ⟨c::selected,heq,List.Sublist.cons_cons c (List.sublist_of_cons_sublist hsub),?_⟩
        intro d hd
        exact hd

/-- An insertion ends, and the chains and the index are in order after it. -/
theorem Indexed.insertChain_spec (h : Indexed t builtins users) (hnew : New t builtins users c)
    {fuel : ℕ} (hfuel : (builtins++users).length+1<fuel)
    (hindex : t.chainIndex.length*t.chainIndex.length+t.chainIndex.length<fuel) :
    ∃ t' lo hi,insertChain fuel t c=some t' ∧ users=lo++hi ∧
      (∀ d∈lo,strcmp (t.chain d).name (t.chain c).name=.lt) ∧
      (∀ d∈hi,strcmp (t.chain c).name (t.chain d).name=.lt) ∧
      Indexed t' builtins (lo++c::hi) ∧ t'.head=t.head ∧ t'.chain=t.chain ∧
        t'.chainIndex.length=t.chainIndex.length := by
  have hnames : ∀ d∈users,(t.chain d).name≠(t.chain c).name := fun d hd =>
    hnew.name d (List.mem_append_right builtins hd)
  obtain ⟨lo,hi,hsplit,hlo,hhi⟩ := exists_place (c := c) h.sorted hnames
  have hfirst := insertLeft_first h hnew hsplit hlo hhi hfuel
  have hresult : ∀ left chainIndex,
      (match Option.join left with
        | some tmp => {t with
          chainIndex := chainIndex, circle := listAdd t.circle c (t.circle.prev tmp)}
        | none => {t with chainIndex := chainIndex, circle := listAddTail t.circle c t.head})=
      ({t with circle := insertLeft t c left, chainIndex := chainIndex} : ChainTable) := by
    intro left chainIndex
    unfold insertLeft
    cases left.join with
    | none => rfl
    | some tmp => rfl
  unfold insertChain
  rcases @Indexed.starts t (t.chain c).name _ _ h _ hindex 1 with
    ⟨hnil,hsearch,-⟩ | ⟨s,p,a,b,hsearch,-,hs,hp,hbelow⟩
  · -- There is no index, and the walk starts at the first chain.
    obtain ⟨left,hleft,hholds⟩ := hfirst
    rw [hsearch,Option.bind_some]
    simp only [one_ne_zero,false_and,decide_false,Bool.false_eq_true,if_false,if_pos,hnew.noHook]
    rw [hleft,Option.map_some,hresult]
    exact ⟨_,lo,hi,rfl,hsplit,hlo,hhi,h.inserted hnew hsplit hlo hhi hholds
      (Or.inl ⟨rfl,Or.inr hnil⟩),rfl,rfl,rfl⟩
  have hsmem : s∈users := by
    rw [hs.split]
    exact List.mem_append_right a List.mem_cons_self
  have hsne : s≠t.head := fun heq =>
    h.head_notMem (List.mem_append_right builtins (heq ▸ hsmem))
  rw [hsearch,Option.bind_some]
  cases hcmp : strcmp (t.chain c).name (t.chain s).name with
  | eq => exact absurd (strcmp_eq_iff.mp hcmp).symm (hnames s hsmem)
  | lt =>
    -- The new chain is the first of the sorted ones.
    obtain ⟨rfl,rfl⟩ := hbelow hcmp
    have hlonil : lo=[] := by
      cases lo with
      | nil => rfl
      | cons x lo =>
        have hx : s=x := (List.cons.inj (hs.split.symm.trans hsplit)).1
        have hlt := hlo s (hx ▸ List.mem_cons_self)
        rw [strcmp_gt_iff.mpr hlt] at hcmp
        cases hcmp
    have hbefore : decide ((0 : ℕ)=0 ∧ strcmp (t.chain c).name
        (t.chain (t.chainIndex.head?.join.getD 0)).name≠.gt)=true := by
      rw [hp rfl]
      refine decide_eq_true ⟨rfl,?_⟩
      show strcmp (t.chain c).name (t.chain s).name≠.gt
      rw [hcmp]
      exact Ordering.noConfusion
    obtain ⟨left,hleft,hholds⟩ := hfirst
    dsimp only
    rw [hbefore]
    simp only [if_true,hnew.noHook,ite_self]
    rw [hleft,Option.map_some,hresult]
    exact ⟨_,lo,hi,rfl,hsplit,hlo,hhi,h.inserted hnew hsplit hlo hhi hholds
      (Or.inr ⟨rfl,hlonil⟩),rfl,rfl,List.length_set⟩
  | gt =>
    -- The walk starts at a chain with a smaller name.
    have hbefore : decide (p=0 ∧ strcmp (t.chain c).name
        (t.chain (t.chainIndex.head?.join.getD 0)).name≠.gt)=false := by
      refine decide_eq_false ?_
      rintro ⟨hzero,hle⟩
      rw [hp hzero] at hle
      exact hle hcmp
    have hnothi : s∉hi := by
      intro hin
      rw [hhi s hin] at hcmp
      cases hcmp
    obtain ⟨passed,hlopassed,hpassed⟩ : ∃ passed,lo=a++passed ∧ s::b=passed++hi := by
      rcases List.append_eq_append_iff.mp (hs.split.symm.trans hsplit) with
        ⟨passed,hlo',hrest⟩ | ⟨passed,-,hrest⟩
      · exact ⟨passed,hlo',hrest⟩
      · exact absurd (hrest ▸ List.mem_append_right passed List.mem_cons_self) hnothi
    have hlone : lo≠[] := by
      rintro rfl
      obtain ⟨rfl,rfl⟩ := List.append_eq_nil_iff.mp hlopassed.symm
      rw [List.nil_append] at hpassed
      exact hnothi (hpassed ▸ List.mem_cons_self)
    have hstart : builtins++users=(builtins++a)++s::b := by
      rw [hs.split,List.append_assoc]
    obtain ⟨left,hleft,hholds⟩ := insertLeft_from h hnew hsplit hlo hhi hstart hpassed hfuel
    simp only [hbefore,Bool.false_eq_true,if_false,if_neg hsne,hnew.noHook,if_true]
    rw [hleft,Option.map_some,hresult]
    exact ⟨_,lo,hi,rfl,hsplit,hlo,hhi,h.inserted hnew hsplit hlo hhi hholds
      (Or.inl ⟨rfl,Or.inl hlone⟩),rfl,rfl,rfl⟩

end Inserting

/-! ## The table without an index -/

section Refinement

variable {t : ChainTable} {builtins users : List ℕ} {c : ℕ}

theorem strcmpLe_iff (a b : Name) : strcmpLe a b=true ↔ strcmp a b≠.gt := by
  induction a generalizing b with
  | nil =>
    cases b with
    | nil => exact iff_of_true rfl (by decide)
    | cons y b => exact iff_of_true rfl Ordering.noConfusion
  | cons x a ih =>
    cases b with
    | nil => exact iff_of_false Bool.noConfusion fun h => h rfl
    | cons y b =>
      rw [strcmpLe,strcmp,List.compare_cons_cons]
      by_cases hxy : x=y
      · subst hxy
        have hself : compare x x=.eq := Std.ReflCmp.compare_self
        rw [if_pos rfl,hself]
        exact ih b
      · have hbyte : compare x y=if x<y then .lt else .gt := by
          show (if x<y then Ordering.lt else if x=y then Ordering.eq else Ordering.gt)=_
          rw [if_neg hxy]
        rw [if_neg hxy,hbyte]
        by_cases hlt : x<y
        · rw [if_pos hlt]
          exact iff_of_true (decide_eq_true hlt) Ordering.noConfusion
        · rw [if_neg hlt,decide_eq_false hlt]
          exact iff_of_false Bool.noConfusion fun hne => hne rfl

/-- Lookups in the table without an index find the same chain. -/
theorem findLabel_map (name : Name) (chains : List ℕ) :
    Libiptc.findLabel name (chains.map t.chain)=(named t chains name).map t.chain := by
  unfold Libiptc.findLabel named
  rw [List.find?_map]
  rfl

/-- A chain that is not behind the new one is passed. -/
theorem insertChain_passed {chain : Libiptc.Chain} {passed rest : List Libiptc.Chain}
    (hpassed : ∀ d∈passed,d.hooknum=0 → strcmp chain.name d.name=.gt) :
    Libiptc.insertChain chain (passed++rest)=passed++Libiptc.insertChain chain rest := by
  induction passed with
  | nil => rfl
  | cons d passed ih =>
    obtain ⟨hd,hpassed⟩ := List.forall_mem_cons.mp hpassed
    have hnot : ¬(chain.hooknum=0 ∧ d.hooknum=0 ∧ strcmpLe chain.name d.name=true) := by
      rintro ⟨-,hook,hle⟩
      exact (strcmpLe_iff _ _).mp hle (hd hook)
    rw [List.cons_append,Libiptc.insertChain,if_neg hnot,ih hpassed,List.cons_append]

/-- The insertion is that of the table without an index. -/
theorem insertChain_refines (h : Indexed t builtins users) (hnew : New t builtins users c) :
    ∃ enough,∀ fuel,enough≤fuel → ∃ t' users',insertChain fuel t c=some t' ∧
      Indexed t' builtins users' ∧
        (builtins++users').map t'.chain=
          Libiptc.insertChain (t.chain c) ((builtins++users).map t.chain) := by
  refine ⟨(builtins++users).length+2+
    (t.chainIndex.length*t.chainIndex.length+t.chainIndex.length),fun fuel hfuel => ?_⟩
  obtain ⟨t',lo,hi,hinsert,rfl,hlo,hhi,hindexed,-,hchain,-⟩ :=
    @Indexed.insertChain_spec t _ _ c h hnew fuel (by omega) (by omega)
  refine ⟨t',lo++c::hi,hinsert,hindexed,?_⟩
  have hpassed : ∀ d∈(builtins++lo).map t.chain,
      d.hooknum=0 → strcmp (t.chain c).name d.name=.gt := by
    intro d hd hook
    obtain ⟨e,he,rfl⟩ := List.mem_map.mp hd
    rcases List.mem_append.mp he with he | he
    · exact absurd hook (h.hooks e he)
    · exact strcmp_gt_iff.mpr (hlo e he)
  rw [hchain,←List.append_assoc,←List.append_assoc,List.map_append,@List.map_append _ _ _ _ hi,
    insertChain_passed hpassed]
  congr 1
  cases hi with
  | nil => rfl
  | cons d hi =>
    have hcond : (t.chain c).hooknum=0 ∧ (t.chain d).hooknum=0 ∧
        strcmpLe (t.chain c).name (t.chain d).name=true := by
      refine ⟨hnew.noHook,h.noHooks d (List.mem_append_right lo List.mem_cons_self),?_⟩
      rw [strcmpLe_iff,hhi d List.mem_cons_self]
      exact Ordering.noConfusion
    rw [List.map_cons,List.map_cons,Libiptc.insertChain,if_pos hcond]

end Refinement

/-! ## The index as a whole -/

/-- The search by halves ends where the linear one does, a chain is found exactly if there is one of
the name, and an insertion keeps the chains sorted and indexed. -/
structure Works (t : ChainTable) (builtins users : List ℕ) : Prop where
  /-- `__iptcc_bsearch_chain_index` -/
  search : ∀ name idx,∃ enough,∀ fuel,enough≤fuel →
    ∃ p,bsearchChainIndex fuel t name idx=some (linearlySearchChainIndex t name,p)
  /-- `iptcc_find_label` -/
  find : ∀ name,∃ enough,∀ fuel,enough≤fuel →
    findLabel fuel t name=some (named t (builtins++users) name)
  /-- `iptc_insert_chain` -/
  insert : ∀ c,New t builtins users c → ∃ enough,∀ fuel,enough≤fuel →
    ∃ t' users',insertChain fuel t c=some t' ∧ users'.Perm (c::users) ∧
      Indexed t' builtins users' ∧ t'.head=t.head ∧ t'.chain=t.chain ∧
        t'.chainIndex.length=t.chainIndex.length

/-- A name that is taken for a chain is found though there is no such chain. -/
theorem not_works_of_mistaken {t : ChainTable} {builtins users : List ℕ}
    (h : Indexed t builtins users) (hnum : t.numChains=users.length)
    (hmistaken : Mistaken t builtins users (t.chain t.head).name) : ¬Works t builtins users := by
  intro hworks
  obtain ⟨enough,hfind⟩ := hworks.find (t.chain t.head).name
  have hfound := hfind (enough+(builtins++users).length+2+
    (t.chainIndex.length*t.chainIndex.length+t.chainIndex.length)) (by omega)
  rw [h.findLabel_eq hnum (by omega) (by omega),if_pos hmistaken] at hfound
  exact h.head_notMem (List.mem_of_find?_eq_some (Option.some.inj hfound).symm)

/-- Everything about the index works exactly if what is read as the name of the list head is not
taken for a chain. -/
theorem works_iff {t : ChainTable} {builtins users : List ℕ} (h : Indexed t builtins users)
    (hnum : t.numChains=users.length) :
    Works t builtins users ↔ ¬Mistaken t builtins users (t.chain t.head).name := by
  constructor
  · exact fun hworks hmistaken => not_works_of_mistaken h hnum hmistaken hworks
  · intro hclear
    refine ⟨fun name idx => ⟨t.chainIndex.length*t.chainIndex.length+t.chainIndex.length+1,
      fun fuel hfuel => ?_⟩,fun name => ⟨(builtins++users).length+2+
        (t.chainIndex.length*t.chainIndex.length+t.chainIndex.length),fun fuel hfuel => ?_⟩,
      fun c hnew => ⟨(builtins++users).length+2+
        (t.chainIndex.length*t.chainIndex.length+t.chainIndex.length),fun fuel hfuel => ?_⟩⟩
    · rcases @Indexed.starts t name _ _ h _ (Nat.lt_of_succ_le hfuel) idx with
        ⟨-,hsearch,hlinear⟩ | ⟨c,p,a,b,hsearch,hlinear,-⟩
      · exact ⟨idx,by rw [hsearch,hlinear]⟩
      · exact ⟨p,by rw [hsearch,hlinear]⟩
    · have hnot : ¬Mistaken t builtins users name := by
        intro hm
        rw [←hm.2.2.2.2] at hm
        exact hclear hm
      rw [h.findLabel_eq hnum (by omega) (by omega),if_neg hnot]
    · obtain ⟨t',lo,hi,hinsert,hsplit,-,-,hindexed,hrest⟩ :=
        @Indexed.insertChain_spec t _ _ c h hnew fuel (by omega) (by omega)
      refine ⟨t',lo++c::hi,hinsert,?_,hindexed,hrest⟩
      rw [hsplit]
      exact List.perm_middle

/-- A table with the chains `INPUT` and `A`, of which the second is in the index. What is read as the
name of the list head is the iterator of the chains. -/
def twoChains (iterator : Name) : ChainTable where
  circle := ⟨fun x => if x=8 then 1000 else if x=1000 then 2000 else 8,
    fun x => if x=8 then 2000 else if x=2000 then 1000 else 8⟩
  head := 8
  chain := fun x =>
    if x=1000 then allocChainHead 1000 [73,78,80,85,84] 1
    else if x=2000 then allocChainHead 2000 [65] 0
    else allocChainHead 8 iterator 0
  chainIndex := [some 2000]
  numChains := 1

theorem twoChains_indexed (iterator : Name) : Indexed (twoChains iterator) [1000] [2000] := by
  refine ⟨⟨⟨rfl,rfl,rfl,rfl⟩,⟨rfl,rfl,rfl,rfl⟩,
    (show ([8,1000,2000] : List ℕ).Nodup by decide)⟩,?_,?_,List.pairwise_singleton _ _,
    [2000],rfl,List.Sublist.refl _,fun c hc => hc⟩
  · intro c hc
    obtain rfl := List.mem_singleton.mp hc
    exact Nat.one_ne_zero
  · intro c hc
    obtain rfl := List.mem_singleton.mp hc
    rfl

/-- The iterator is a null pointer. -/
theorem works_iff_noIterator : Works (twoChains []) [1000] [2000] :=
  (works_iff (twoChains_indexed []) rfl).mpr (by decide)

/-- The iterator is a pointer whose bytes spell a name. -/
theorem not_works_iterator :
    Indexed (twoChains [96,82,82,65]) [1000] [2000] ∧ ¬Works (twoChains [96,82,82,65]) [1000] [2000] :=
  ⟨twoChains_indexed _,not_works_of_mistaken (twoChains_indexed _) rfl (by decide)⟩

end AndroidPlatform.LibiptcChainIndex
