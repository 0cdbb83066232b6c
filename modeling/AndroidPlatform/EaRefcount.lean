import AndroidPlatform.CInteger
import AndroidPlatform.SortedTable
import Mathlib.Logic.Function.Basic

/-!
# Reference counts of blocks with extended attributes

The counts are in a table sorted by block. Entries with a count of zero stay until the
table is full; then a lookup that is to create an entry removes them and starts again.
A cursor serves the lookups as a hint and the iteration as its place. The bisection
adds two indices of type `int`.
-/

namespace AndroidPlatform.EaRefcount

open SortedTable CInteger

/-! ## The functions -/

/-- `struct ea_refcount_el`. -/
structure RefcountEl where
  /-- `ea_blk`. -/
  eaBlk : ℕ
  /-- `ea_count`. -/
  eaCount : ℤ
deriving DecidableEq

/-- `struct ea_refcount`. -/
structure Refcount where
  /-- The first `count` elements of `list`. -/
  list : List RefcountEl
  /-- `size`. -/
  size : ℕ
  /-- `cursor`. -/
  cursor : ℕ
deriving DecidableEq

/-- The errors of the functions. -/
inductive Errcode where
  | noMemory
  | invalidArgument
deriving DecidableEq

/-- `ea_refcount_create`. -/
def eaRefcountCreate (size : ℕ) : Refcount := ⟨[],if size=0 then 500 else size,0⟩

/-- The loop of `refcount_collapse`: the list, and the last `j`. -/
def collapseLoop : ℕ → ℕ → ℕ → List RefcountEl → List RefcountEl×ℕ
  | 0,_,j,list => (list,j)
  | rounds+1,i,j,list =>
    match list[i]? with
    | none => (list,j)
    | some el =>
      if el.eaCount≠0 then
        collapseLoop rounds (i+1) (j+1) (if i≠j then list.set j el else list)
      else collapseLoop rounds (i+1) j list

/-- `refcount_collapse`. -/
def refcountCollapse (refcount : Refcount) : Refcount :=
  let collapsed := collapseLoop refcount.list.length 0 0 refcount.list
  {refcount with list := collapsed.1.take collapsed.2}

/-- `insert_refcount_el`, with enough memory: the new element, as an index. -/
def insertRefcountEl (refcount : Refcount) (blk : ℕ) (pos : ℤ) : Refcount×Option ℕ :=
  let refcount :=
    if refcount.size≤refcount.list.length then {refcount with size := (refcount.size+100)%2^32}
    else refcount
  if toInt refcount.list.length-pos<0 then (refcount,none)
  else ({refcount with list := insertAt refcount.list pos.toNat ⟨blk,0⟩},some pos.toNat)

/-- The bisection of `get_refcount_el`, where `stop` is `high+1`. It is not defined if the
sum of the indices is no `int`. -/
def bisect (list : List RefcountEl) (blk : ℕ) (low stop : ℕ) : Option (Bool×ℕ) :=
  if low < stop then
    if 2^31≤low+(stop-1) then none
    else
      let mid := (low+(stop-1))/2
      if blk=keyAt RefcountEl.eaBlk list mid then some (true,mid)
      else if blk<keyAt RefcountEl.eaBlk list mid then bisect list blk low mid
      else bisect list blk (mid+1) stop
  else some (false,low)
termination_by stop-low

/-- The block of the last element, if its index is not negative. -/
def lastBlk (refcount : Refcount) : Option ℕ :=
  if toInt refcount.list.length-1<0 then none
  else refcount.list[(toInt refcount.list.length-1).toNat]?.map RefcountEl.eaBlk

/-- `get_refcount_el` where the new element is the last. -/
def appendRefcountEl (refcount : Refcount) (blk : ℕ) : Refcount×Option ℕ :=
  let refcount :=
    if refcount.size≤refcount.list.length then refcountCollapse refcount else refcount
  insertRefcountEl refcount blk (toInt refcount.list.length)

/-- `get_refcount_el` from the test of the cursor on. -/
def searchRefcountEl (retry : Refcount → Option (Refcount×Option ℕ)) (refcount : Refcount)
    (blk : ℕ) (create : Bool) : Option (Refcount×Option ℕ) :=
  if refcount.list.length=0 then some (refcount,none)
  else
    let refcount :=
      {refcount with
        cursor := if refcount.list.length≤refcount.cursor then 0 else refcount.cursor}
    if blk=keyAt RefcountEl.eaBlk refcount.list refcount.cursor then
      some ({refcount with cursor := refcount.cursor+1},some refcount.cursor)
    else
      match bisect refcount.list blk 0 (toInt refcount.list.length).toNat with
      | none => none
      | some (true,mid) => some ({refcount with cursor := mid+1},some mid)
      | some (false,low) =>
        if create=true then
          if refcount.size≤refcount.list.length then
            let collapsed := refcountCollapse refcount
            if collapsed.list.length < collapsed.size then retry collapsed
            else some (insertRefcountEl collapsed blk low)
          else some (insertRefcountEl refcount blk low)
        else some (refcount,none)

/-- `get_refcount_el`, with at most that many restarts; the element that it returns, as an
index. -/
def getRefcountEl : ℕ → Refcount → ℕ → Bool → Option (Refcount×Option ℕ)
  | 0,_,_,_ => none
  | tries+1,refcount,blk,create =>
    let search := searchRefcountEl (fun collapsed => getRefcountEl tries collapsed blk create)
      refcount blk create
    if create=true then
      if refcount.list.length=0 then some (appendRefcountEl refcount blk)
      else
        match lastBlk refcount with
        | none => none
        | some last => if last<blk then some (appendRefcountEl refcount blk) else search
    else search

/-- The count of an element. -/
def countAt (refcount : Refcount) (i : ℕ) : ℤ := (refcount.list[i]?.map RefcountEl.eaCount).getD 0

/-- A store to the count of an element. -/
def setCount (refcount : Refcount) (i : ℕ) (count : ℤ) : Refcount :=
  {refcount with list := refcount.list.set i ⟨keyAt RefcountEl.eaBlk refcount.list i,count⟩}

/-- `ea_refcount_fetch`. -/
def eaRefcountFetch (refcount : Refcount) (blk : ℕ) : Option (Refcount×ℤ) :=
  (getRefcountEl 2 refcount blk false).map fun got =>
    match got.2 with
    | none => (got.1,0)
    | some el => (got.1,countAt got.1 el)

/-- `ea_refcount_increment`. -/
def eaRefcountIncrement (refcount : Refcount) (blk : ℕ) : Option (Refcount×Except Errcode ℤ) :=
  (getRefcountEl 2 refcount blk true).map fun got =>
    match got.2 with
    | none => (got.1,.error .noMemory)
    | some el =>
      let count := toInt (countAt got.1 el+1)
      (setCount got.1 el count,.ok count)

/-- `ea_refcount_decrement`. -/
def eaRefcountDecrement (refcount : Refcount) (blk : ℕ) : Option (Refcount×Except Errcode ℤ) :=
  (getRefcountEl 2 refcount blk false).map fun got =>
    match got.2 with
    | none => (got.1,.error .invalidArgument)
    | some el =>
      if countAt got.1 el=0 then (got.1,.error .invalidArgument)
      else
        let count := toInt (countAt got.1 el-1)
        (setCount got.1 el count,.ok count)

/-- `ea_refcount_store`. -/
def eaRefcountStore (refcount : Refcount) (blk : ℕ) (count : ℤ) :
    Option (Refcount×Except Errcode ℤ) :=
  (getRefcountEl 2 refcount blk (decide (count≠0))).map fun got =>
    match got.2 with
    | none => (got.1,if count≠0 then .error .noMemory else .ok 0)
    | some el => (setCount got.1 el count,.ok 0)

/-- `ea_refcount_intr_begin`. -/
def eaRefcountIntrBegin (refcount : Refcount) : Refcount := {refcount with cursor := 0}

/-- The loop of `ea_refcount_intr_next`: the block that is returned, and the count. -/
def intrNextLoop : ℕ → Refcount → Refcount×ℕ×Option ℤ
  | 0,refcount => (refcount,0,none)
  | rounds+1,refcount =>
    match refcount.list[refcount.cursor]? with
    | none => (refcount,0,none)
    | some el =>
      let next := {refcount with cursor := refcount.cursor+1}
      if el.eaCount≠0 then (next,el.eaBlk,some el.eaCount) else intrNextLoop rounds next

/-- `ea_refcount_intr_next`. -/
def eaRefcountIntrNext (refcount : Refcount) : Refcount×ℕ×Option ℤ :=
  intrNextLoop (refcount.list.length+1) refcount

/-! ## Content of a table -/

/-- The count of a block. -/
def Refcount.value (refcount : Refcount) (blk : ℕ) : ℤ :=
  ((lookup RefcountEl.eaBlk refcount.list blk).map RefcountEl.eaCount).getD 0

/-- The table is sorted and not larger than its memory. -/
structure Refcount.Proper (refcount : Refcount) : Prop where
  /-- The blocks increase. -/
  sorted : SortedBy RefcountEl.eaBlk refcount.list
  /-- The elements have room. -/
  length_le : refcount.list.length≤refcount.size

variable {refcount refcount' : Refcount} {blk i : ℕ} {create : Bool}

/-- The loop moves the elements that are in use to the front. -/
theorem collapseLoop_eq {rounds i j : ℕ} {list : List RefcountEl} (hi : i+rounds=list.length)
    (hj : j ≤ i) :
    (collapseLoop rounds i j list).1.take (collapseLoop rounds i j list).2=
      list.take j++(list.drop i).filter fun el => el.eaCount≠0 := by
  induction rounds generalizing i j list with
  | zero =>
    have hdrop : list.drop i=[] := List.drop_eq_nil_of_le (by omega)
    rw [hdrop,List.filter_nil,List.append_nil,collapseLoop]
  | succ rounds ih =>
    have hlt : i<list.length := by omega
    rw [collapseLoop,List.getElem?_eq_getElem hlt,List.drop_eq_getElem_cons hlt]
    dsimp only
    by_cases hzero : list[i].eaCount=0
    · rw [if_neg (not_not.mpr hzero),ih (by omega) (by omega),
        List.filter_cons_of_neg (by simpa using hzero)]
    · rw [if_pos hzero,List.filter_cons_of_pos (by simpa using hzero)]
      have hstep : ∀ list', (list' : List RefcountEl).length=list.length →
          list'.take (j+1)=list.take j++[list[i]] → list'.drop (i+1)=list.drop (i+1) →
          (collapseLoop rounds (i+1) (j+1) list').1.take
            (collapseLoop rounds (i+1) (j+1) list').2=
            list.take j++list[i]::(list.drop (i+1)).filter fun el => el.eaCount≠0 := by
        intro list' hlength htake hdrop
        rw [ih (by omega) (by omega),htake,hdrop,List.append_assoc]
        rfl
      by_cases hij : i=j
      · rw [if_neg (not_not.mpr hij)]
        refine hstep list rfl ?_ rfl
        rw [←hij,List.take_succ_eq_append_getElem hlt]
      · rw [if_pos hij]
        refine hstep _ List.length_set ?_ ?_
        · rw [List.take_succ_eq_append_getElem (by rw [List.length_set]; omega),
            List.take_set_of_le (Nat.le_refl j),List.getElem_set_self]
        · rw [List.drop_set_of_lt (by omega)]

/-- `refcount_collapse` removes the elements with a count of zero. -/
theorem refcountCollapse_eq (refcount : Refcount) :
    refcountCollapse refcount=
      {refcount with list := refcount.list.filter fun el => el.eaCount≠0} := by
  have h := @collapseLoop_eq refcount.list.length 0 0 refcount.list (by omega) (Nat.le_refl 0)
  rw [List.take_zero,List.drop_zero,List.nil_append] at h
  rw [refcountCollapse,h]

theorem Refcount.Proper.value_eq (h : refcount.Proper) {count : ℤ} (hcount : count≠0) :
    refcount.value blk=count ↔ (⟨blk,count⟩ : RefcountEl)∈refcount.list := by
  rw [Refcount.value]
  constructor
  · intro hvalue
    cases hfind : lookup RefcountEl.eaBlk refcount.list blk with
    | none =>
      rw [hfind] at hvalue
      exact absurd hvalue.symm hcount
    | some el =>
      obtain ⟨hmem,hblk⟩ := h.sorted.lookup_eq_some.mp hfind
      rw [hfind,Option.map_some,Option.getD_some] at hvalue
      rw [←hblk,←hvalue]
      exact hmem
  · intro hmem
    rw [h.sorted.lookup_eq_some.mpr ⟨hmem,rfl⟩]
    rfl

/-- Removing the elements with a count of zero changes no count. -/
theorem Refcount.Proper.collapse (h : refcount.Proper) :
    (refcountCollapse refcount).Proper ∧
      ∀ b, (refcountCollapse refcount).value b=refcount.value b := by
  rw [refcountCollapse_eq]
  have hproper : Refcount.Proper
      {refcount with list := refcount.list.filter fun el => el.eaCount≠0} :=
    ⟨List.Pairwise.filter _ h.sorted,(List.length_filter_le _ _).trans h.length_le⟩
  refine ⟨hproper,fun b => ?_⟩
  by_cases hzero : refcount.value b=0
  · rw [hzero]
    by_contra hne
    have hmem := List.mem_of_mem_filter ((hproper.value_eq hne).mp rfl)
    exact hne ((h.value_eq hne).mpr hmem ▸ hzero)
  · have hmem := (h.value_eq hzero).mp rfl
    exact (hproper.value_eq hzero).mpr (List.mem_filter.mpr ⟨hmem,by simpa using hzero⟩)

theorem collapse_length_le (refcount : Refcount) :
    (refcountCollapse refcount).list.length≤refcount.list.length := by
  rw [refcountCollapse_eq]
  exact List.length_filter_le _ _

/-- If nothing is removed, the list stays. -/
theorem collapse_list (h : refcount.list.length≤(refcountCollapse refcount).list.length) :
    (refcountCollapse refcount).list=refcount.list := by
  rw [refcountCollapse_eq] at h ⊢
  exact List.filter_sublist.eq_of_length (Nat.le_antisymm (List.length_filter_le _ _) h)

/-- With at most 2^30 elements the sums of the indices are of type `int`. -/
theorem bisect_eq {list : List RefcountEl} {low stop : ℕ} (hstop : stop≤2^30) :
    bisect list blk low stop=some (search RefcountEl.eaBlk list blk low stop) := by
  induction low, stop using search.induct RefcountEl.eaBlk list blk with
  | case1 low stop hlt mid heq =>
    rw [bisect,search,if_pos hlt,if_neg (by omega),if_pos heq,if_pos hlt,if_pos heq]
  | case2 low stop hlt mid hne hless ih =>
    rw [bisect,search,if_pos hlt,if_neg (by omega),if_neg hne,if_pos hless,if_pos hlt,if_neg hne,
      if_pos hless]
    exact ih (by omega)
  | case3 low stop hlt mid hne hless ih =>
    rw [bisect,search,if_pos hlt,if_neg (by omega),if_neg hne,if_neg hless,if_pos hlt,if_neg hne,
      if_neg hless]
    exact ih hstop
  | case4 low stop hlt => rw [bisect,search,if_neg hlt,if_neg hlt]

/-- What a lookup results in. -/
structure Got (refcount : Refcount) (blk : ℕ) (create : Bool) (got : Refcount×Option ℕ) :
    Prop where
  /-- The table is proper. -/
  proper : got.1.Proper
  /-- No count has changed. -/
  value : ∀ b, got.1.value b=refcount.value b
  /-- The element that is found has the block. -/
  found : ∀ i, got.2=some i → i<got.1.list.length ∧ keyAt RefcountEl.eaBlk got.1.list i=blk
  /-- Without an element the count is zero and none was to be created. -/
  missed : got.2=none → create=false ∧ refcount.value blk=0

/-- An element is inserted where its block belongs. -/
theorem insertRefcountEl_got (h : refcount.Proper) (hlength : refcount.list.length≤2^30)
    (hplace : Located RefcountEl.eaBlk refcount.list blk (false,i)) :
    Got refcount blk create (insertRefcountEl refcount blk i) := by
  have hle : i≤refcount.list.length := by
    rw [Located,if_neg (fun hf => by cases hf)] at hplace
    exact hplace.1
  have hmissing : refcount.value blk=0 := by
    rw [Refcount.value,lookup_eq_none.mpr fun el hel => hplace.key_ne hel]
    rfl
  have hroom := h.length_le
  rw [insertRefcountEl]
  generalize hgrown : (if refcount.size≤refcount.list.length then
    {refcount with size := (refcount.size+100)%2^32} else refcount)=grown
  have hlist : grown.list=refcount.list ∧ refcount.list.length+1≤grown.size := by
    rw [←hgrown]
    split_ifs with hfull
    · exact ⟨rfl,by dsimp only; omega⟩
    · exact ⟨rfl,by omega⟩
  have hint : toInt grown.list.length=grown.list.length := by
    rw [hlist.1]
    exact toInt_of_lt (by omega)
  rw [hint,hlist.1,if_neg (by omega),Int.toNat_natCast]
  refine ⟨⟨h.sorted.insertAt (a := ⟨blk,0⟩) hplace,?_⟩,fun b => ?_,fun j hj => ?_,
    fun hnone => by cases hnone⟩
  · dsimp only
    rw [length_insertAt hle]
    exact hlist.2
  · rw [Refcount.value,h.sorted.lookup_insertAt (a := ⟨blk,0⟩) hplace]
    split_ifs with hb
    · have hblk : b=blk := hb
      rw [hblk,hmissing]
      rfl
    · rfl
  · cases hj
    refine ⟨?_,keyAt_eq (insertAt_getElem? hle _)⟩
    dsimp only
    rw [length_insertAt hle]
    omega

/-- An element with the largest block is the last. -/
theorem appendRefcountEl_got (h : refcount.Proper) (hlength : refcount.list.length≤2^30)
    (hlast : ∀ el∈refcount.list, el.eaBlk<blk) :
    Got refcount blk create (appendRefcountEl refcount blk) := by
  obtain ⟨hproper,hvalue⟩ := h.collapse
  have hshorter := collapse_length_le refcount
  have hmem : ∀ el∈(refcountCollapse refcount).list, el∈refcount.list := by
    rw [refcountCollapse_eq]
    exact fun el hel => List.mem_of_mem_filter hel
  have hinsert : ∀ {table : Refcount}, table.Proper → table.list.length≤2^30 →
      (∀ el∈table.list, el.eaBlk<blk) →
      Got table blk create (insertRefcountEl table blk (toInt table.list.length)) := by
    intro table htable hle hall
    rw [toInt_of_lt (by omega)]
    refine insertRefcountEl_got htable hle ?_
    rw [Located,if_neg (fun hf => by cases hf)]
    refine ⟨Nat.le_refl _,fun j hj => ?_,fun j hge hj => absurd hj (Nat.not_lt.mpr hge)⟩
    rw [keyAt_eq (List.getElem?_eq_getElem hj)]
    exact hall _ (List.getElem_mem hj)
  rw [appendRefcountEl]
  split_ifs with hfull
  · obtain ⟨hp,hv,hfound,hmissed⟩ := hinsert hproper (by omega) fun el hel => hlast el (hmem el hel)
    exact ⟨hp,fun b => (hv b).trans (hvalue b),hfound,
      fun hnone => ⟨(hmissed hnone).1,(hvalue blk).symm.trans (hmissed hnone).2⟩⟩
  · exact hinsert h hlength hlast

theorem Got.of_value {got : Refcount×Option ℕ} (h : Got refcount' blk create got)
    (hvalue : ∀ b, refcount'.value b=refcount.value b) : Got refcount blk create got :=
  ⟨h.proper,fun b => (h.value b).trans (hvalue b),h.found,
    fun hnone => ⟨(h.missed hnone).1,(hvalue blk).symm.trans (h.missed hnone).2⟩⟩

/-- The search behind the test for the last element. -/
theorem searchRefcountEl_got {retry : Refcount → Option (Refcount×Option ℕ)} (h : refcount.Proper)
    (hlength : refcount.list.length≤2^30) (hcreate : create=true → refcount.list.length≠0)
    (hretry : refcount.size≤refcount.list.length → ∀ table : Refcount, table.Proper →
      table.list.length≤2^30 → table.list.length<table.size →
        ∃ got, retry table=some got ∧ Got table blk create got) :
    ∃ got, searchRefcountEl retry refcount blk create=some got ∧ Got refcount blk create got := by
  rw [searchRefcountEl]
  by_cases hempty : refcount.list.length=0
  · rw [if_pos hempty]
    refine ⟨_,rfl,h,fun _ => rfl,(fun i hi => by cases hi),fun _ => ⟨?_,?_⟩⟩
    · by_contra hne
      exact hcreate (Bool.eq_true_of_not_eq_false hne) hempty
    · rw [Refcount.value,List.length_eq_zero_iff.mp hempty]
      rfl
  · rw [if_neg hempty]
    dsimp only
    generalize hplace : (if refcount.list.length≤refcount.cursor then 0 else refcount.cursor)=place
    have hlt : place<refcount.list.length := by
      rw [←hplace]
      split_ifs <;> omega
    by_cases hcursor : blk=keyAt RefcountEl.eaBlk refcount.list place
    · rw [if_pos hcursor]
      refine ⟨_,rfl,⟨h.sorted,h.length_le⟩,fun _ => rfl,fun i hi => ?_,fun hnone => by cases hnone⟩
      cases hi
      exact ⟨hlt,hcursor.symm⟩
    · rw [if_neg hcursor,toInt_of_lt (by omega),Int.toNat_natCast,bisect_eq hlength]
      have hlocated := search_whole h.sorted blk
      generalize search RefcountEl.eaBlk refcount.list blk 0 refcount.list.length=found at hlocated
      obtain ⟨hit,low⟩ := found
      cases hit with
      | true =>
        rw [Located,if_pos rfl] at hlocated
        refine ⟨_,rfl,⟨h.sorted,h.length_le⟩,fun _ => rfl,fun i hi => ?_,
          fun hnone => by cases hnone⟩
        cases hi
        exact hlocated
      | false =>
        have hmissing : refcount.value blk=0 := by
          rw [Refcount.value,lookup_eq_none.mpr fun el hel => hlocated.key_ne hel]
          rfl
        dsimp only
        by_cases hnew : create=true
        · rw [if_pos hnew]
          have hmoved : ({refcount with cursor := place} : Refcount).Proper :=
            ⟨h.sorted,h.length_le⟩
          by_cases hfull : refcount.size≤refcount.list.length
          · rw [if_pos hfull]
            obtain ⟨hproper,hvalue⟩ := hmoved.collapse
            have hshorter := collapse_length_le {refcount with cursor := place}
            have hlist := @collapse_list {refcount with cursor := place}
            have hsize : (refcountCollapse {refcount with cursor := place}).size=refcount.size := by
              rw [refcountCollapse_eq]
            generalize refcountCollapse {refcount with cursor := place}=collapsed
              at hproper hvalue hshorter hlist hsize ⊢
            dsimp only at hshorter hlist
            have hkept : ∀ b, collapsed.value b=refcount.value b := hvalue
            have hroomy := h.length_le
            by_cases hroom : collapsed.list.length<collapsed.size
            · rw [if_pos hroom]
              obtain ⟨got,hgot,hspec⟩ := hretry hfull collapsed hproper (by omega) hroom
              exact ⟨got,hgot,hspec.of_value hkept⟩
            · rw [if_neg hroom]
              have hplace' : Located RefcountEl.eaBlk collapsed.list blk (false,low) := by
                rw [hlist (by omega)]
                exact hlocated
              have hbelow : collapsed.list.length≤2^30 := by omega
              have hgot := @insertRefcountEl_got collapsed blk low create hproper hbelow hplace'
              exact ⟨_,rfl,hgot.of_value hkept⟩
          · rw [if_neg hfull]
            have hgot := @insertRefcountEl_got _ blk low create hmoved hlength hlocated
            exact ⟨_,rfl,hgot.of_value fun _ => rfl⟩
        · rw [if_neg hnew]
          exact ⟨_,rfl,⟨h.sorted,h.length_le⟩,fun _ => rfl,(fun i hi => by cases hi),
            fun _ => ⟨Bool.eq_false_iff.mpr hnew,hmissing⟩⟩

/-- The last block is the largest. -/
theorem lastBlk_eq (h : refcount.Proper) (hlength : refcount.list.length≤2^30)
    (hne : refcount.list.length≠0) :
    ∃ last, lastBlk refcount=some last ∧ (last<blk → ∀ el∈refcount.list, el.eaBlk<blk) := by
  have hlt : refcount.list.length-1<refcount.list.length := by omega
  have hindex : (toInt refcount.list.length-1).toNat=refcount.list.length-1 := by
    rw [toInt_of_lt (by omega)]
    omega
  refine ⟨refcount.list[refcount.list.length-1].eaBlk,?_,fun hless el hel => ?_⟩
  · rw [lastBlk,if_neg (by rw [toInt_of_lt (by omega)]; omega),hindex,
      List.getElem?_eq_getElem hlt]
    rfl
  · obtain ⟨j,hj,rfl⟩ := List.mem_iff_getElem.mp hel
    by_cases heq : j=refcount.list.length-1
    · simp only [heq]
      exact hless
    · have hkeys := h.sorted.keyAt_lt (show j<refcount.list.length-1 by omega) hlt
      rw [keyAt_eq (List.getElem?_eq_getElem hj),keyAt_eq (List.getElem?_eq_getElem hlt)] at hkeys
      exact hkeys.trans hless

/-- One round of the lookup. -/
theorem getRefcountEl_round {tries : ℕ} (h : refcount.Proper)
    (hlength : refcount.list.length≤2^30)
    (hretry : refcount.size≤refcount.list.length → ∀ table : Refcount, table.Proper →
      table.list.length≤2^30 → table.list.length<table.size →
        ∃ got, getRefcountEl tries table blk create=some got ∧ Got table blk create got) :
    ∃ got, getRefcountEl (tries+1) refcount blk create=some got ∧ Got refcount blk create got := by
  rw [getRefcountEl]
  by_cases hnew : create=true
  · rw [if_pos hnew]
    by_cases hempty : refcount.list.length=0
    · rw [if_pos hempty]
      refine ⟨_,rfl,appendRefcountEl_got h hlength fun el hel => ?_⟩
      rw [List.length_eq_zero_iff.mp hempty] at hel
      cases hel
    · rw [if_neg hempty]
      obtain ⟨last,hlast,hall⟩ := @lastBlk_eq refcount blk h hlength hempty
      rw [hlast]
      dsimp only
      split_ifs with hless
      · exact ⟨_,rfl,appendRefcountEl_got h hlength (hall hless)⟩
      · exact searchRefcountEl_got h hlength (fun _ => hempty) hretry
  · rw [if_neg hnew]
    exact searchRefcountEl_got h hlength (fun htrue => absurd htrue hnew) hretry

/-- A lookup changes no count; it finds the element of the block, or creates it. -/
theorem getRefcountEl_got (h : refcount.Proper) (hlength : refcount.list.length≤2^30) :
    ∃ got, getRefcountEl 2 refcount blk create=some got ∧ Got refcount blk create got :=
  getRefcountEl_round h hlength fun _ _ htable hle hroom =>
    getRefcountEl_round htable hle fun hfull => absurd hroom (Nat.not_lt.mpr hfull)

theorem Refcount.Proper.countAt_eq (h : refcount.Proper) (hi : i<refcount.list.length) :
    countAt refcount i=refcount.value (keyAt RefcountEl.eaBlk refcount.list i) := by
  rw [countAt,Refcount.value,h.sorted.lookup_keyAt hi]

/-- A store to the count of an element. -/
theorem Refcount.Proper.setCount (h : refcount.Proper) (hi : i<refcount.list.length) (count : ℤ) :
    (setCount refcount i count).Proper ∧ (EaRefcount.setCount refcount i count).value=
      Function.update refcount.value (keyAt RefcountEl.eaBlk refcount.list i) count := by
  have hkey : keyAt RefcountEl.eaBlk refcount.list i=
      (⟨keyAt RefcountEl.eaBlk refcount.list i,count⟩ : RefcountEl).eaBlk := rfl
  refine ⟨⟨h.sorted.set hkey hi,?_⟩,funext fun b => ?_⟩
  · rw [EaRefcount.setCount]
    dsimp only
    rw [List.length_set]
    exact h.length_le
  · rw [EaRefcount.setCount,Refcount.value,h.sorted.lookup_set hkey hi,Function.update_apply]
    split_ifs <;> rfl

/-! ## Calls -/

/-- The calls on a table. -/
inductive Op where
  | store (blk : ℕ) (count : ℤ)
  | increment (blk : ℕ)
  | decrement (blk : ℕ)
  | fetch (blk : ℕ)
  | intrBegin
  | intrNext

/-- One call. The results of the iteration are stated apart. -/
def step (refcount : Refcount) : Op → Option (Refcount×Except Errcode ℤ)
  | .store blk count => eaRefcountStore refcount blk count
  | .increment blk => eaRefcountIncrement refcount blk
  | .decrement blk => eaRefcountDecrement refcount blk
  | .fetch blk => (eaRefcountFetch refcount blk).map fun fetched => (fetched.1,.ok fetched.2)
  | .intrBegin => some (eaRefcountIntrBegin refcount,.ok 0)
  | .intrNext => some ((eaRefcountIntrNext refcount).1,.ok 0)

/-- The call on a map from blocks to counts. -/
def mapStep (map : ℕ → ℤ) : Op → (ℕ → ℤ)×Except Errcode ℤ
  | .store blk count => (Function.update map blk count,.ok 0)
  | .increment blk => (Function.update map blk (map blk+1),.ok (map blk+1))
  | .decrement blk =>
    if map blk=0 then (map,.error .invalidArgument)
    else (Function.update map blk (map blk-1),.ok (map blk-1))
  | .fetch blk => (map,.ok (map blk))
  | .intrBegin => (map,.ok 0)
  | .intrNext => (map,.ok 0)

/-- The new count is of type `int`. -/
def Op.Fits (map : ℕ → ℤ) : Op → Prop
  | .increment blk => -2^31 ≤ map blk+1 ∧ map blk+1<2^31
  | .decrement blk => -2^31 ≤ map blk-1 ∧ map blk-1<2^31
  | _ => True

/-- Some calls after each other, with their results. -/
def run : Refcount → List Op → Option (Refcount×List (Except Errcode ℤ))
  | refcount,[] => some (refcount,[])
  | refcount,op::ops =>
    (step refcount op).bind fun stepped =>
      (run stepped.1 ops).map fun ran => (ran.1,stepped.2::ran.2)

/-- Some calls on a map. -/
def mapRun : (ℕ → ℤ) → List Op → (ℕ → ℤ)×List (Except Errcode ℤ)
  | map,[] => (map,[])
  | map,op::ops =>
    let stepped := mapStep map op
    let ran := mapRun stepped.1 ops
    (ran.1,stepped.2::ran.2)

/-- What some calls of `ea_refcount_intr_next` return. -/
def visits : ℕ → Refcount → List (ℕ×Option ℤ)
  | 0,_ => []
  | calls+1,refcount =>
    let next := eaRefcountIntrNext refcount
    next.2::visits calls next.1

/-- The elements in use from the cursor on. -/
def ahead (refcount : Refcount) : List RefcountEl :=
  (refcount.list.drop refcount.cursor).filter fun el => el.eaCount≠0

theorem intrNextLoop_spec {rounds : ℕ} (h : refcount.list.length<refcount.cursor+rounds) :
    (intrNextLoop rounds refcount).1.list=refcount.list ∧
      (intrNextLoop rounds refcount).1.size=refcount.size ∧
      (intrNextLoop rounds refcount).2=
        (match ahead refcount with
          | [] => (0,none)
          | el::_ => (el.eaBlk,some el.eaCount)) ∧
      ahead (intrNextLoop rounds refcount).1=(ahead refcount).tail := by
  induction rounds generalizing refcount with
  | zero =>
    have hnone : ahead refcount=[] := by
      rw [ahead,List.drop_eq_nil_of_le (by omega)]
      rfl
    rw [intrNextLoop,hnone]
    exact ⟨rfl,rfl,rfl,rfl⟩
  | succ rounds ih =>
    rw [intrNextLoop]
    by_cases hlt : refcount.cursor<refcount.list.length
    · have hel := List.getElem?_eq_getElem hlt
      have hdrop := List.drop_eq_getElem_cons hlt
      rw [hel]
      dsimp only
      by_cases hzero : refcount.list[refcount.cursor].eaCount=0
      · rw [if_neg (not_not.mpr hzero)]
        have hahead : ahead {refcount with cursor := refcount.cursor+1}=ahead refcount := by
          rw [ahead,ahead,hdrop,List.filter_cons_of_neg (by simpa using hzero)]
        have hnext := @ih {refcount with cursor := refcount.cursor+1}
          (by dsimp only; omega)
        rw [hahead] at hnext
        exact hnext
      · rw [if_pos hzero]
        have hahead : ahead refcount=refcount.list[refcount.cursor]::
            ahead {refcount with cursor := refcount.cursor+1} := by
          rw [ahead,ahead,hdrop,List.filter_cons_of_pos (by simpa using hzero)]
        rw [hahead]
        exact ⟨rfl,rfl,rfl,rfl⟩
    · have hnone : ahead refcount=[] := by
        rw [ahead,List.drop_eq_nil_of_le (by omega)]
        rfl
      rw [List.getElem?_eq_none (by omega),hnone]
      exact ⟨rfl,rfl,rfl,rfl⟩

/-- The iteration goes through the elements in use. -/
theorem visits_eq (calls : ℕ) (refcount : Refcount) : visits calls refcount=
    ((ahead refcount).map fun el => (el.eaBlk,some el.eaCount)).take calls++
      List.replicate (calls-(ahead refcount).length) (0,none) := by
  induction calls generalizing refcount with
  | zero => rw [visits,List.take_zero,Nat.zero_sub]; rfl
  | succ calls ih =>
    obtain ⟨-,-,hresult,hahead⟩ := @intrNextLoop_spec refcount (refcount.list.length+1) (by omega)
    rw [visits,ih,eaRefcountIntrNext,hresult,hahead]
    cases ahead refcount with
    | nil =>
      rw [List.tail_nil,List.length_nil,Nat.sub_zero,Nat.sub_zero,List.replicate_succ,
        List.map_nil,List.take_nil,List.take_nil]
      rfl
    | cons el els =>
      rw [List.tail_cons,List.map_cons,List.take_succ_cons,List.length_cons,Nat.succ_sub_succ]
      rfl

/-- The iteration returns the blocks with a count other than zero, each once and in
order, and zero from then on. -/
def Enumerates (refcount : Refcount) (map : ℕ → ℤ) : Prop :=
  ∃ entries : List (ℕ×ℤ), entries.Pairwise (fun a b => a.1<b.1) ∧
    (∀ blk count, (blk,count)∈entries ↔ count≠0 ∧ map blk=count) ∧
    ∀ calls, visits calls (eaRefcountIntrBegin refcount)=
      (entries.map fun entry => (entry.1,some entry.2)).take calls++
        List.replicate (calls-entries.length) (0,none)

/-- The table holds the map: it is sorted, each count is fetched, and the iteration
enumerates. -/
structure Refines (refcount : Refcount) (map : ℕ → ℤ) : Prop where
  /-- The blocks increase. -/
  sorted : SortedBy RefcountEl.eaBlk refcount.list
  /-- Each count is fetched. -/
  fetched : ∀ blk, ∃ fetched, eaRefcountFetch refcount blk=some (fetched,map blk)
  /-- The counts other than zero are enumerated. -/
  enumerated : Enumerates refcount map

theorem Refcount.Proper.enumerates (h : refcount.Proper) : Enumerates refcount refcount.value := by
  refine ⟨(ahead (eaRefcountIntrBegin refcount)).map fun el => (el.eaBlk,el.eaCount),?_,?_,?_⟩
  · rw [List.pairwise_map]
    exact List.Pairwise.filter _ h.sorted
  · intro blk count
    rw [List.mem_map,ahead,eaRefcountIntrBegin,List.drop_zero]
    constructor
    · rintro ⟨el,hel,heq⟩
      obtain ⟨rfl,rfl⟩ := Prod.mk.inj heq
      obtain ⟨hmem,hne⟩ := List.mem_filter.mp hel
      have hcount : el.eaCount≠0 := by simpa using hne
      exact ⟨hcount,(h.value_eq hcount).mpr hmem⟩
    · rintro ⟨hcount,hvalue⟩
      exact ⟨⟨blk,count⟩,List.mem_filter.mpr ⟨(h.value_eq hcount).mp hvalue,by simpa using hcount⟩,
        rfl⟩
  · intro calls
    rw [visits_eq,List.map_map,List.length_map]
    rfl

/-- Each call does on the table what it does on the map. -/
theorem step_spec {op : Op} (h : refcount.Proper) (hlength : refcount.list.length≤2^30)
    (hfits : op.Fits refcount.value) :
    ∃ stepped, step refcount op=some (stepped,(mapStep refcount.value op).2) ∧
      stepped.Proper ∧ stepped.value=(mapStep refcount.value op).1 := by
  have hset : ∀ {blk create i} {got : Refcount×Option ℕ} (count : ℤ),
      Got refcount blk create got → got.2=some i →
        countAt got.1 i=refcount.value blk ∧ (setCount got.1 i count).Proper ∧
          (setCount got.1 i count).value=Function.update refcount.value blk count := by
    intro blk create i got count hgot hi
    obtain ⟨hlt,hkey⟩ := hgot.found i hi
    obtain ⟨hproper,hvalue⟩ := hgot.proper.setCount hlt count
    refine ⟨?_,hproper,?_⟩
    · rw [hgot.proper.countAt_eq hlt,hkey,hgot.value]
    · rw [hvalue,hkey,funext hgot.value]
  cases op with
  | store blk count =>
    obtain ⟨⟨table,r⟩,hget,hgot⟩ := @getRefcountEl_got refcount blk (decide (count≠0)) h hlength
    rw [step,eaRefcountStore,hget]
    cases r with
    | none =>
      obtain ⟨hzero,hvalue⟩ := hgot.missed rfl
      have hcount : count=0 := not_not.mp (of_decide_eq_false hzero)
      refine ⟨table,?_,hgot.proper,?_⟩
      · rw [hcount]
        rfl
      · rw [funext hgot.value,mapStep,hcount,←hvalue,Function.update_eq_self]
    | some i =>
      obtain ⟨-,hproper,hvalue⟩ := hset count hgot rfl
      exact ⟨_,rfl,hproper,hvalue⟩
  | increment blk =>
    obtain ⟨⟨table,r⟩,hget,hgot⟩ := @getRefcountEl_got refcount blk true h hlength
    rw [step,eaRefcountIncrement,hget]
    cases r with
    | none => exact absurd (hgot.missed rfl).1 (fun hf => by cases hf)
    | some i =>
      have hcount := (hset 0 hgot rfl).1
      have hint := toInt_eq hfits.1 hfits.2
      obtain ⟨-,hproper,hvalue⟩ := hset (refcount.value blk+1) hgot rfl
      refine ⟨setCount table i (refcount.value blk+1),?_,hproper,hvalue⟩
      rw [Option.map_some]
      dsimp only at hcount ⊢
      rw [hcount,hint]
      rfl
  | decrement blk =>
    obtain ⟨⟨table,r⟩,hget,hgot⟩ := @getRefcountEl_got refcount blk false h hlength
    rw [step,eaRefcountDecrement,hget,mapStep]
    cases r with
    | none =>
      rw [if_pos (hgot.missed rfl).2]
      exact ⟨table,rfl,hgot.proper,funext hgot.value⟩
    | some i =>
      have hcount := (hset 0 hgot rfl).1
      rw [Option.map_some]
      dsimp only at hcount ⊢
      rw [hcount]
      by_cases hzero : refcount.value blk=0
      · rw [if_pos hzero,if_pos hzero]
        exact ⟨table,rfl,hgot.proper,funext hgot.value⟩
      · have hint := toInt_eq hfits.1 hfits.2
        obtain ⟨-,hproper,hvalue⟩ := hset (refcount.value blk-1) hgot rfl
        rw [if_neg hzero,if_neg hzero,hint]
        exact ⟨_,rfl,hproper,hvalue⟩
  | fetch blk =>
    obtain ⟨⟨table,r⟩,hget,hgot⟩ := @getRefcountEl_got refcount blk false h hlength
    rw [step,eaRefcountFetch,hget,mapStep]
    refine ⟨table,?_,hgot.proper,funext hgot.value⟩
    cases r with
    | none =>
      rw [(hgot.missed rfl).2]
      rfl
    | some i =>
      have hcount := (hset 0 hgot rfl).1
      rw [Option.map_some,Option.map_some]
      dsimp only at hcount ⊢
      rw [hcount]
  | intrBegin => exact ⟨_,rfl,⟨h.sorted,h.length_le⟩,rfl⟩
  | intrNext =>
    obtain ⟨hlist,hsize,-,-⟩ := @intrNextLoop_spec refcount (refcount.list.length+1) (by omega)
    refine ⟨_,rfl,⟨?_,?_⟩,funext fun b => ?_⟩
    · rw [eaRefcountIntrNext,hlist]
      exact h.sorted
    · rw [eaRefcountIntrNext,hlist,hsize]
      exact h.length_le
    · rw [Refcount.value,eaRefcountIntrNext,hlist]
      rfl

/-- Before each of the calls, and after them, the table has at most 2^30 elements, and
the counts are of type `int`. -/
def Bounded : Refcount → (ℕ → ℤ) → List Op → Prop
  | refcount,_,[] => refcount.list.length≤2^30
  | refcount,map,op::ops => refcount.list.length≤2^30 ∧ op.Fits map ∧
      ∀ stepped result, step refcount op=some (stepped,result) →
        Bounded stepped (mapStep map op).1 ops

/-- The calls are defined, return what they return on a map, and leave a table that holds
the map. -/
def RunRefines (refcount : Refcount) (map : ℕ → ℤ) (ops : List Op) : Prop :=
  ∃ table, run refcount ops=some (table,(mapRun map ops).2) ∧ Refines table (mapRun map ops).1

theorem Refcount.Proper.runRefines {ops : List Op} (h : refcount.Proper)
    (hbounded : Bounded refcount refcount.value ops) : RunRefines refcount refcount.value ops := by
  induction ops generalizing refcount with
  | nil =>
    refine ⟨refcount,rfl,h.sorted,fun blk => ?_,h.enumerates⟩
    obtain ⟨stepped,hstep,-,-⟩ := @step_spec refcount (.fetch blk) h hbounded trivial
    rw [step,Option.map_eq_some_iff] at hstep
    obtain ⟨⟨table,count⟩,hfetch,heq⟩ := hstep
    cases heq
    exact ⟨table,hfetch⟩
  | cons op ops ih =>
    obtain ⟨hlength,hfits,hrest⟩ := hbounded
    obtain ⟨stepped,hstep,hproper,hvalue⟩ := step_spec h hlength hfits
    have hnext := hrest stepped _ hstep
    rw [←hvalue] at hnext
    obtain ⟨table,hrun,hrefines⟩ := ih hproper hnext
    rw [hvalue] at hrun hrefines
    refine ⟨table,?_,hrefines⟩
    rw [run,hstep,Option.bind_some,hrun]
    rfl

theorem proper_eaRefcountCreate (size : ℕ) : (eaRefcountCreate size).Proper :=
  ⟨List.Pairwise.nil,Nat.zero_le _⟩

/-- As long as the table has at most 2^30 elements, the calls refine a map. -/
theorem eaRefcount_refines {size : ℕ} {ops : List Op}
    (hbounded : Bounded (eaRefcountCreate size) (fun _ => 0) ops) :
    RunRefines (eaRefcountCreate size) (fun _ => 0) ops :=
  (proper_eaRefcountCreate size).runRefines hbounded

theorem bounded_cons {map : ℕ → ℤ} {op : Op} {ops : List Op} {stepped : Refcount}
    {result : Except Errcode ℤ} (hlength : refcount.list.length≤2^30) (hfits : op.Fits map)
    (hstep : step refcount op=some (stepped,result))
    (hrest : Bounded stepped (mapStep map op).1 ops) : Bounded refcount map (op::ops) := by
  refine ⟨hlength,hfits,fun stepped' result' hstep' => ?_⟩
  rw [hstep] at hstep'
  cases hstep'
  exact hrest

/-- The table is collapsed when block 7 is stored. -/
theorem eaRefcount_refines_small : RunRefines (eaRefcountCreate 2) (fun _ => 0)
    [.store 5 3,.store 9 1,.increment 5,.decrement 9,.store 7 2] := by
  have hcollapsed : step ⟨[⟨5,4⟩,⟨9,0⟩],2,2⟩ (.store 7 2)=
      some (⟨[⟨5,4⟩,⟨7,2⟩],2,0⟩,.ok 0) := by decide +kernel
  have hlength : ∀ n≤2, n≤2^30 := fun n hn => hn.trans (by decide)
  refine eaRefcount_refines (bounded_cons (hlength 0 (by decide)) trivial rfl ?_)
  refine bounded_cons (hlength 1 (by decide)) trivial rfl ?_
  refine bounded_cons (hlength 2 (by decide)) ⟨by decide,by decide⟩ rfl ?_
  refine bounded_cons (hlength 2 (by decide)) ⟨by decide,by decide⟩ rfl ?_
  exact bounded_cons (hlength 2 (by decide)) trivial hcollapsed (hlength 2 (by decide))

/-! ## Too many elements for the bisection -/

/-- That many blocks are stored in order. -/
def ascending (n : ℕ) : List Op := (List.range n).map fun i => .store (i+1) 1

/-- The elements of these blocks. -/
def ascendingEls (n : ℕ) : List RefcountEl := (List.range n).map fun i => ⟨i+1,1⟩

theorem length_ascendingEls (n : ℕ) : (ascendingEls n).length=n := by
  rw [ascendingEls,List.length_map,List.length_range]

theorem ascendingEls_succ (n : ℕ) : ascendingEls (n+1)=ascendingEls n++[⟨n+1,1⟩] := by
  rw [ascendingEls,List.range_succ,List.map_append]
  rfl

theorem keyAt_ascendingEls {n : ℕ} (hi : i<n) : keyAt RefcountEl.eaBlk (ascendingEls n) i=i+1 := by
  refine keyAt_eq (a := (⟨i+1,1⟩ : RefcountEl)) ?_
  rw [ascendingEls,List.getElem?_map,List.getElem?_range hi]
  rfl

theorem run_snoc {ops : List Op} {op : Op} {table table' : Refcount}
    {results : List (Except Errcode ℤ)} {result : Except Errcode ℤ}
    (hrun : run refcount ops=some (table,results)) (hstep : step table op=some (table',result)) :
    run refcount (ops++[op])=some (table',results++[result]) := by
  induction ops generalizing refcount results with
  | nil =>
    cases hrun
    rw [List.nil_append,run,hstep]
    rfl
  | cons first ops ih =>
    rw [run,Option.bind_eq_some_iff] at hrun
    obtain ⟨stepped,hfirst,hmap⟩ := hrun
    obtain ⟨ran,hran,heq⟩ := Option.map_eq_some_iff.mp hmap
    cases heq
    rw [List.cons_append,run,hfirst,Option.bind_some,ih hran]
    rfl

/-- A new last block. -/
theorem store_ascending {n size : ℕ} (hn : n<2^31-1) (hsize : n ≤ size) :
    ∃ size', n+1 ≤ size' ∧ step ⟨ascendingEls n,size,0⟩ (.store (n+1) 1)=
      some (⟨ascendingEls (n+1),size',0⟩,.ok 0) := by
  have hlength := length_ascendingEls n
  have hint : toInt (ascendingEls n).length=n := by rw [hlength]; exact toInt_of_lt (by omega)
  have hcollapse : refcountCollapse ⟨ascendingEls n,size,0⟩=⟨ascendingEls n,size,0⟩ := by
    rw [refcountCollapse_eq]
    have hall : (ascendingEls n).filter (fun el => el.eaCount≠0)=ascendingEls n := by
      refine List.filter_eq_self.mpr fun el hel => ?_
      obtain ⟨i,-,rfl⟩ := List.mem_map.mp hel
      rfl
    dsimp only
    rw [hall]
  have hinsert : insertAt (ascendingEls n) n ⟨n+1,0⟩=ascendingEls n++[⟨n+1,0⟩] := by
    rw [insertAt,List.take_of_length_le (by omega),List.drop_eq_nil_of_le (by omega)]
  have happend : ∃ size', n+1 ≤ size' ∧ appendRefcountEl ⟨ascendingEls n,size,0⟩ (n+1)=
      (⟨ascendingEls n++[⟨n+1,0⟩],size',0⟩,some n) := by
    rw [appendRefcountEl]
    dsimp only
    rw [hcollapse,ite_self,hint,insertRefcountEl]
    dsimp only
    rw [hlength]
    split_ifs with hfull hneg hneg
    · dsimp only at hneg
      rw [hint] at hneg
      omega
    · exact ⟨(size+100)%2^32,by omega,by rw [←hinsert]; rfl⟩
    · dsimp only at hneg
      rw [hint] at hneg
      omega
    · exact ⟨size,by omega,by rw [←hinsert]; rfl⟩
  obtain ⟨size',hroom,heq⟩ := happend
  have hget : getRefcountEl 2 ⟨ascendingEls n,size,0⟩ (n+1) true=
      some (⟨ascendingEls n++[⟨n+1,0⟩],size',0⟩,some n) := by
    rw [getRefcountEl,if_pos rfl]
    dsimp only
    by_cases hzero : (ascendingEls n).length=0
    · rw [if_pos hzero,heq]
    · have hindex : (toInt (ascendingEls n).length-1).toNat=n-1 := by omega
      have hlast : lastBlk ⟨ascendingEls n,size,0⟩=some n := by
        rw [lastBlk]
        dsimp only
        rw [if_neg (by omega),hindex,ascendingEls,List.getElem?_map,
          List.getElem?_range (by omega)]
        exact congrArg some (by dsimp only; omega)
      rw [if_neg hzero,hlast]
      dsimp only
      rw [if_pos (Nat.lt_succ_self n),heq]
  refine ⟨size',hroom,?_⟩
  have hkey : keyAt RefcountEl.eaBlk (ascendingEls n++[⟨n+1,0⟩]) n=n+1 := by
    refine keyAt_eq (a := (⟨n+1,0⟩ : RefcountEl)) ?_
    rw [List.getElem?_append_right (by omega),hlength,Nat.sub_self]
    rfl
  rw [step,eaRefcountStore,show decide ((1 : ℤ)≠0)=true from rfl,hget,Option.map_some]
  dsimp only [setCount]
  rw [hkey,List.set_append_right _ _ (by omega),hlength,Nat.sub_self,ascendingEls_succ]
  rfl

theorem run_ascending {n : ℕ} (hn : n<2^31) : ∃ size results, n ≤ size ∧
    run (eaRefcountCreate 0) (ascending n)=some (⟨ascendingEls n,size,0⟩,results) := by
  induction n with
  | zero => exact ⟨500,[],Nat.zero_le _,rfl⟩
  | succ n ih =>
    obtain ⟨size,results,hsize,hrun⟩ := ih (by omega)
    obtain ⟨size',hsize',hstep⟩ := store_ascending (show n<2^31-1 by omega) hsize
    have hsplit : ascending (n+1)=ascending n++[.store (n+1) 1] := by
      rw [ascending,List.range_succ,List.map_append]
      rfl
    rw [hsplit]
    exact ⟨size',_,hsize',run_snoc hrun hstep⟩

/-- The bisection for the last element of a large table adds too large indices. -/
theorem bisect_none {list : List RefcountEl} {low stop : ℕ}
    (hkeys : ∀ i < stop, keyAt RefcountEl.eaBlk list i=i+1) (hbig : 2^31≤2*(stop-1))
    (hlow : low < stop) : bisect list stop low stop=none := by
  induction hleft : stop-low using Nat.strong_induction_on generalizing low with
  | _ left ih =>
    rw [bisect,if_pos hlow]
    by_cases hover : 2^31≤low+(stop-1)
    · rw [if_pos hover]
    · have hkey := hkeys ((low+(stop-1))/2) (by omega)
      rw [if_neg hover]
      dsimp only
      rw [hkey,if_neg (by omega),if_neg (by omega)]
      exact ih _ (by omega) (by omega) rfl

/-- The last block of a large table cannot be looked up. -/
theorem not_runRefines_ascending {n : ℕ} (hbig : 2^30<n) (hn : n<2^31) :
    ¬RunRefines (eaRefcountCreate 0) (fun _ => 0) (ascending n) := by
  rintro ⟨table,hrun,hrefines⟩
  obtain ⟨size,results,-,hascending⟩ := run_ascending hn
  rw [hascending,Option.some.injEq,Prod.mk.injEq] at hrun
  obtain ⟨fetched,hfetch⟩ := hrefines.fetched n
  rw [←hrun.1,eaRefcountFetch,Option.map_eq_some_iff] at hfetch
  obtain ⟨got,hget,-⟩ := hfetch
  have hlength := length_ascendingEls n
  have hkey := @keyAt_ascendingEls 0 n (by omega)
  rw [getRefcountEl,if_neg (fun hf => by cases hf),searchRefcountEl] at hget
  dsimp only at hget
  rw [if_neg (by omega),hlength,if_neg (show ¬n≤0 by omega),hkey,if_neg (by omega),
    toInt_of_lt (by omega),Int.toNat_natCast,
    bisect_none (fun i hi => keyAt_ascendingEls hi) (by omega) (by omega)] at hget
  cases hget

/-- So it is after 2^30+1 stores. -/
theorem not_eaRefcount_refines_large :
    ¬RunRefines (eaRefcountCreate 0) (fun _ => 0) (ascending (2^30+1)) :=
  not_runRefines_ascending (by omega) (by omega)

end AndroidPlatform.EaRefcount
