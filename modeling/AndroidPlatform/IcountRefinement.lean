import AndroidPlatform.Icount

/-!
# Reference counts refine a map

The list or the database is read as one function from inodes to stored values,
and each access to it by what it does to that function. The count of an inode is
then one, the stored value or zero, as the two bitmaps tell. Each call follows
the map of the counts, and so does every sequence of calls.
-/

namespace AndroidPlatform.Icount

open SortedTable CInteger

/-! ## The stored values -/

/-- The value that a list has for an inode. -/
def IcountList.value (l : IcountList) (ino : ℕ) : ℕ :=
  ((lookup IcountEl.ino l.list ino).map IcountEl.count).getD 0

/-- The stored value of an inode. -/
def CountStore.value : CountStore → ℕ → ℕ
  | .list l,ino => l.value ino
  | .tdb data,ino => (data ino).getD 0

/-- The number of elements of the list. -/
def CountStore.entries : CountStore → ℕ
  | .list l => l.list.length
  | .tdb _ => 0

/-- A list is sorted and fits into its memory. -/
structure IcountList.Proper (l : IcountList) : Prop where
  sorted : SortedBy IcountEl.ino l.list
  length_le : l.list.length≤l.size

/-- What holds of the store all the time. -/
def CountStore.Proper : CountStore → Prop
  | .list l => l.Proper
  | .tdb _ => True

section Lists

variable {grow : ℕ → ℕ → ℕ → ℕ} {numInodes : ℕ} {l : IcountList} {ino : ℕ}

theorem newSize_gt (hlength : l.list.length≤l.size) (hfits : l.list.length<2^31)
    (hfull : l.size≤l.list.length) : l.list.length<newSize grow numInodes l := by
  have hmod : (l.size+100)%2^32=l.size+100 := Nat.mod_eq_of_lt (by omega)
  rw [newSize,hmod]
  split_ifs <;> omega

/-- An element of the list that has the inode, where the stored values are as
before. -/
structure Obtained (l l' : IcountList) (ino i : ℕ) : Prop where
  proper : l'.Proper
  lt : i<l'.list.length
  key : inoAt l' i=ino
  value : ∀ k, l'.value k=l.value k

theorem inoAt_lt {i : ℕ} (hino : ino≠0) (hkey : inoAt l i=ino) : i<l.list.length := by
  by_contra hge
  rw [inoAt,keyAt,List.getElem?_eq_none (by omega)] at hkey
  exact hino hkey.symm

/-- `insert_icount_el` at the place where the inode belongs. -/
theorem insertIcountEl_spec (h : l.Proper) (hfits : l.list.length<2^31) (hino : ino≠0) {i : ℕ}
    (hplace : Located IcountEl.ino l.list ino (false,i)) {pos : ℤ} (hpos : pos=i) :
    ∃ l' j, insertIcountEl grow numInodes l ino pos=(l',some j) ∧ Obtained l l' ino j := by
  subst hpos
  have hle : i≤l.list.length := by
    rw [Located,if_neg (fun hf => by cases hf)] at hplace
    exact hplace.1
  rw [insertIcountEl]
  split
  · next j hhit =>
    obtain ⟨-,hkey⟩ := Option.filter_eq_some_iff.mp hhit
    have hkey' : inoAt l j=ino := by simpa using hkey
    exact ⟨l,j,rfl,h,inoAt_lt hino hkey',hkey',fun _ => rfl⟩
  · have hgrown : ∀ l1 : IcountList, l1=(if l.size≤l.list.length then
        {l with size := newSize grow numInodes l} else l) →
        l1.list=l.list ∧ l.list.length+1≤l1.size := by
      intro l1 hl1
      rw [hl1]
      split
      · next hfull => exact ⟨rfl,newSize_gt h.length_le hfits hfull⟩
      · exact ⟨rfl,by omega⟩
    obtain ⟨hlist,hsize⟩ := hgrown _ rfl
    have hnum : ¬toInt (l.list.length : ℤ)-(i : ℤ)<0 := by
      rw [toInt_of_lt (by omega)]
      omega
    dsimp only
    rw [hlist,if_neg hnum,Int.toNat_natCast]
    refine ⟨_,i,rfl,⟨h.sorted.insertAt hplace,?_⟩,?_,?_,?_⟩
    · change (insertAt l.list i ⟨ino,0⟩).length≤_
      rw [length_insertAt hle]
      exact hsize
    · change i<(insertAt l.list i ⟨ino,0⟩).length
      rw [length_insertAt hle]
      omega
    · exact keyAt_eq (insertAt_getElem? hle _)
    · intro k
      rw [IcountList.value,IcountList.value]
      change ((lookup IcountEl.ino (insertAt l.list i ⟨ino,0⟩) k).map _).getD 0=_
      rw [h.sorted.lookup_insertAt hplace]
      by_cases hk : k=ino
      · rw [if_pos hk]
        have hnone : lookup IcountEl.ino l.list k=none := by
          rw [lookup_eq_none,hk]
          exact fun a ha => hplace.key_ne ha
        rw [hnone]
        rfl
      · rw [if_neg hk]

/-- The bisection finds the element of the inode or creates it. -/
theorem bisectIcountEl_find (h : l.Proper) (hfits : l.list.length<2^31) :
    ∃ l' r, bisectIcountEl grow numInodes l ino false=(l',r) ∧ l'.list=l.list ∧ l'.size=l.size ∧
      (∀ i, r=some i → i<l.list.length ∧ inoAt l i=ino) ∧
      (r=none → lookup IcountEl.ino l.list ino=none) := by
  have hlocated := search_whole h.sorted ino
  rw [bisectIcountEl,toInt_of_lt (by omega),Int.toNat_natCast]
  split
  · next mid hsearch =>
    rw [hsearch,Located,if_pos rfl] at hlocated
    exact ⟨_,_,rfl,rfl,rfl,(fun i hi => by cases hi; exact hlocated),fun hnone => by cases hnone⟩
  · next low hsearch =>
    rw [hsearch] at hlocated
    refine ⟨_,_,rfl,rfl,rfl,(fun i hi => by cases hi),fun _ => ?_⟩
    exact lookup_eq_none.mpr fun a ha => hlocated.key_ne ha

theorem bisectIcountEl_create (h : l.Proper) (hfits : l.list.length<2^31) (hino : ino≠0) :
    ∃ l' i, bisectIcountEl grow numInodes l ino true=(l',some i) ∧ Obtained l l' ino i := by
  have hlocated := search_whole h.sorted ino
  rw [bisectIcountEl,toInt_of_lt (by omega),Int.toNat_natCast]
  split
  · next mid hsearch =>
    rw [hsearch,Located,if_pos rfl] at hlocated
    exact ⟨_,_,rfl,⟨h.sorted,h.length_le⟩,hlocated.1,hlocated.2,fun _ => rfl⟩
  · next low hsearch =>
    rw [hsearch] at hlocated
    rw [if_pos rfl]
    exact insertIcountEl_spec h hfits hino hlocated rfl

/-- A search without creating does not change the list, and finds the element
if there is one. -/
theorem getIcountEl_find (h : l.Proper) (hfits : l.list.length<2^31) :
    ∃ l' r, getIcountEl grow numInodes l ino false=(l',r) ∧ l'.list=l.list ∧ l'.size=l.size ∧
      (∀ i, r=some i → i<l.list.length ∧ inoAt l i=ino) ∧
      (r=none → lookup IcountEl.ino l.list ino=none) := by
  rw [getIcountEl,if_neg (fun hf => by cases hf.1)]
  by_cases hempty : l.list.length=0
  · rw [if_pos hempty]
    refine ⟨l,none,rfl,rfl,rfl,(fun i hi => by cases hi),fun _ => ?_⟩
    rw [List.length_eq_zero_iff.mp hempty]
    rfl
  · rw [if_neg hempty]
    generalize hcursor : (if l.list.length≤l.cursor then 0 else l.cursor)=cursor
    have hlt : cursor<l.list.length := by
      rw [←hcursor]
      split_ifs <;> omega
    rw [cursorIcountEl]
    split
    · next hhit =>
      exact ⟨_,_,rfl,rfl,rfl,(fun i hi => by cases hi; exact ⟨hlt,hhit.symm⟩),
        fun hnone => by cases hnone⟩
    · exact @bisectIcountEl_find grow numInodes {l with cursor := cursor} ino
        ⟨h.sorted,h.length_le⟩ hfits

/-- A search with creating results in an element for the inode. -/
theorem getIcountEl_create (h : l.Proper) (hfits : l.list.length<2^31) (hino : ino≠0) :
    ∃ l' i, getIcountEl grow numInodes l ino true=(l',some i) ∧ Obtained l l' ino i := by
  rw [getIcountEl]
  by_cases hlast : l.list.length=0 ∨ inoAt l (l.list.length-1) < ino
  · rw [if_pos ⟨rfl,hlast⟩]
    refine insertIcountEl_spec h hfits hino ?_ (toInt_of_lt (by omega))
    rw [Located,if_neg (fun hf => by cases hf)]
    refine ⟨Nat.le_refl _,fun j hj => ?_,fun j hge hj => absurd hj (Nat.not_lt.mpr hge)⟩
    change j<l.list.length at hj
    rcases hlast with hzero|hless
    · omega
    · rcases Nat.eq_or_lt_of_le (Nat.le_sub_one_of_lt hj) with heq|hjl
      · rw [heq]
        exact hless
      · exact Nat.lt_trans (h.sorted.keyAt_lt hjl (by omega)) hless
  · rw [if_neg (fun hf => hlast hf.2),if_neg (fun hzero => hlast (Or.inl hzero))]
    generalize hcursor : (if l.list.length≤l.cursor then 0 else l.cursor)=cursor
    have hlt : cursor<l.list.length := by
      rw [←hcursor]
      split_ifs <;> omega
    rw [cursorIcountEl]
    split
    · next hhit => exact ⟨_,_,rfl,⟨h.sorted,h.length_le⟩,hlt,hhit.symm,fun _ => rfl⟩
    · obtain ⟨l',i,hbisect,hobtained⟩ := @bisectIcountEl_create grow numInodes
        {l with cursor := cursor} ino ⟨h.sorted,h.length_le⟩ hfits hino
      exact ⟨l',i,hbisect,hobtained.proper,hobtained.lt,hobtained.key,hobtained.value⟩

end Lists

section Stores

variable {grow : ℕ → ℕ → ℕ → ℕ} {numInodes : ℕ} {store : CountStore} {ino : ℕ}

/-- `get_inode_count` reads the stored value. -/
theorem getInodeCount_spec (h : store.Proper) (hfits : store.entries<2^31) :
    ∃ store', getInodeCount grow numInodes store ino=(store',store.value ino) ∧ store'.Proper ∧
      (∀ k, store'.value k=store.value k) ∧ store'.entries=store.entries := by
  cases store with
  | tdb data => exact ⟨.tdb data,rfl,trivial,(fun _ => rfl),rfl⟩
  | list l =>
    obtain ⟨l',r,hget,hlist,hsize,hsome,hnone⟩ :=
      @getIcountEl_find grow numInodes l ino h hfits
    have hvalue : ∀ k, l'.value k=l.value k := fun k => by rw [IcountList.value,hlist]; rfl
    have hproper : l'.Proper := ⟨hlist ▸ h.sorted,by rw [hlist,hsize]; exact h.length_le⟩
    refine ⟨.list l',?_,hproper,hvalue,congrArg List.length hlist⟩
    rw [getInodeCount,hget]
    cases r with
    | none =>
      change (CountStore.list l',0)=_
      rw [CountStore.value,IcountList.value,hnone rfl]
      rfl
    | some i =>
      obtain ⟨hi,hkey⟩ := hsome i rfl
      change (CountStore.list l',(l'.list[i]?.map IcountEl.count).getD 0)=_
      rw [CountStore.value,IcountList.value,←hkey,inoAt,h.sorted.lookup_keyAt hi,hlist]

/-- `set_inode_count` stores the value; it fails only if an absent value is
deleted. -/
theorem setInodeCount_spec (h : store.Proper) (hfits : store.entries<2^31) (hino : ino≠0)
    (count : ℕ) :
    ∃ store' failed, setInodeCount grow numInodes store ino count=(store',failed) ∧
      store'.Proper ∧ (count≠0 ∨ store.value ino≠0 → failed=false) ∧
      ∀ k, store'.value k=if k=ino then count else store.value k := by
  cases store with
  | tdb data =>
    rw [setInodeCount]
    have hupdate : ∀ (v : Option ℕ) (k : ℕ), (Function.update data ino v k).getD 0=
        if k=ino then v.getD 0 else (data k).getD 0 := by
      intro v k
      by_cases hk : k=ino
      · rw [hk,Function.update_self,if_pos rfl]
      · rw [Function.update_of_ne hk,if_neg hk]
    by_cases hcount : count≠0
    · rw [if_pos hcount]
      exact ⟨_,_,rfl,trivial,fun _ => rfl,fun k => hupdate (some count) k⟩
    · rw [if_neg hcount]
      have hzero : count=0 := not_not.mp hcount
      split
      · next hnone =>
        have hdata : data ino=none := Option.isNone_iff_eq_none.mp hnone
        refine ⟨_,_,rfl,trivial,?_,fun k => ?_⟩
        · rintro (hne|hne)
          · exact absurd hzero hne
          · rw [CountStore.value,hdata] at hne
            exact absurd rfl hne
        · by_cases hk : k=ino
          · rw [if_pos hk,CountStore.value,hk,hdata,hzero]
            rfl
          · rw [if_neg hk]
      · refine ⟨_,_,rfl,trivial,fun _ => rfl,fun k => ?_⟩
        rw [hzero]
        exact hupdate none k
  | list l =>
    obtain ⟨l',i,hget,hobtained⟩ := @getIcountEl_create grow numInodes l ino h hfits hino
    have hkey : keyAt IcountEl.ino l'.list i=(⟨inoAt l' i,count⟩ : IcountEl).ino := rfl
    refine ⟨.list {l' with list := l'.list.set i ⟨inoAt l' i,count⟩},false,?_,⟨?_,?_⟩,
      fun _ => rfl,fun k => ?_⟩
    · rw [setInodeCount,hget]
    · exact hobtained.proper.sorted.set hkey hobtained.lt
    · change (l'.list.set i _).length≤l'.size
      rw [List.length_set]
      exact hobtained.proper.length_le
    · change ((lookup IcountEl.ino (l'.list.set i ⟨inoAt l' i,count⟩) k).map _).getD 0=_
      rw [hobtained.proper.sorted.lookup_set hkey hobtained.lt,hobtained.key]
      by_cases hk : k=ino
      · rw [if_pos hk,if_pos hk]
        rfl
      · rw [if_neg hk,if_neg hk]
        exact hobtained.value k

end Stores

/-! ## The calls -/

/-- The count of an inode. -/
def Ext2Icount.count (icount : Ext2Icount) (ino : ℕ) : ℕ :=
  if icount.single ino=true then 1
  else if icount.notMultiple ino=true then 0
  else icount.store.value ino

section Calls

variable {grow : ℕ → ℕ → ℕ → ℕ} {icount : Ext2Icount} {ino : ℕ}

theorem get_spec (h : icount.store.Proper) (hfits : icount.store.entries<2^31) :
    ∃ store', icount.get grow ino=({icount with store := store'},icount.store.value ino) ∧
      store'.Proper ∧ (∀ k, store'.value k=icount.store.value k) ∧
      store'.entries=icount.store.entries := by
  obtain ⟨store',hget,hproper,hvalue,hentries⟩ :=
    @getInodeCount_spec grow icount.numInodes icount.store ino h hfits
  exact ⟨store',by rw [Ext2Icount.get,hget],hproper,hvalue,hentries⟩

theorem set_spec (h : icount.store.Proper) (hfits : icount.store.entries<2^31) (hino : ino≠0)
    (count : ℕ) :
    ∃ store' failed, icount.set grow ino count=({icount with store := store'},failed) ∧
      store'.Proper ∧ (count≠0 ∨ icount.store.value ino≠0 → failed=false) ∧
      ∀ k, store'.value k=if k=ino then count else icount.store.value k := by
  obtain ⟨store',failed,hset,hproper,hfailed,hvalue⟩ :=
    @setInodeCount_spec grow icount.numInodes icount.store ino h hfits hino count
  exact ⟨store',failed,by rw [Ext2Icount.set,hset],hproper,hfailed,hvalue⟩

theorem single_self (v : Bool) : (icount.setSingle ino v).single ino=v := Function.update_self ..

theorem single_other {k : ℕ} (hk : k≠ino) (v : Bool) :
    (icount.setSingle ino v).single k=icount.single k := Function.update_of_ne hk ..

theorem notMultiple_other {k : ℕ} (hk : k≠ino) (v : Bool) :
    (icount.setMultiple ino v).notMultiple k=icount.notMultiple k := by
  rw [Ext2Icount.notMultiple,Ext2Icount.notMultiple,Ext2Icount.setMultiple]
  cases icount.multiple with
  | none => rfl
  | some m =>
    change (!Function.update m ino v k)=!m k
    rw [Function.update_of_ne hk]

theorem notMultiple_marked : (icount.setMultiple ino true).notMultiple ino=false := by
  rw [Ext2Icount.notMultiple,Ext2Icount.setMultiple]
  cases icount.multiple with
  | none => rfl
  | some m =>
    change (!Function.update m ino true ino)=false
    rw [Function.update_self]
    rfl

theorem notMultiple_unmarked (h : icount.multiple.isSome=true) :
    (icount.setMultiple ino false).notMultiple ino=true := by
  obtain ⟨m,hm⟩ := Option.isSome_iff_exists.mp h
  rw [Ext2Icount.notMultiple,Ext2Icount.setMultiple,hm]
  change (!Function.update m ino false ino)=true
  rw [Function.update_self]
  rfl

theorem notMultiple_none (h : ¬icount.multiple.isSome=true) : icount.notMultiple ino=false := by
  rw [Ext2Icount.notMultiple]
  cases hm : icount.multiple with
  | none => rfl
  | some m =>
    rw [hm] at h
    exact absurd rfl h

theorem count_eq_one (h : icount.single ino=true) : icount.count ino=1 := if_pos h

theorem count_eq_zero (h : icount.single ino=false) (hm : icount.notMultiple ino=true) :
    icount.count ino=0 := by
  rw [Ext2Icount.count,h,if_neg (fun hf => by cases hf),if_pos hm]

theorem count_eq_value {value : ℕ} (h : icount.single ino=false)
    (hm : icount.notMultiple ino=false) (hvalue : icount.store.value ino=value) :
    icount.count ino=value := by
  rw [Ext2Icount.count,h,hm,if_neg (fun hf => by cases hf),if_neg (fun hf => by cases hf),hvalue]

theorem count_eq_zero_of_value (h : icount.single ino=false) (hvalue : icount.store.value ino=0) :
    icount.count ino=0 := by
  rw [Ext2Icount.count,h,if_neg (fun hf => by cases hf),hvalue,ite_self]

/-- The counts after a change at one inode. -/
theorem count_of_change {icount' : Ext2Icount} {value : ℕ}
    (hother : ∀ k, k≠ino → icount'.single k=icount.single k ∧
      icount'.notMultiple k=icount.notMultiple k ∧
      icount'.store.value k=icount.store.value k)
    (hself : icount'.count ino=value) :
    icount'.count=Function.update icount.count ino value := by
  funext k
  rw [Function.update_apply]
  by_cases hk : k=ino
  · rw [if_pos hk,hk,hself]
  · obtain ⟨hsingle,hmultiple,hvalue⟩ := hother k hk
    rw [if_neg hk,Ext2Icount.count,Ext2Icount.count,hsingle,hmultiple,hvalue]

theorem icount16Xlate_eq (x : ℕ) : icount16Xlate x=min x 65500 := by
  rw [icount16Xlate]
  split_ifs <;> omega

/-- `ext2fs_icount_fetch` reports the count, at most 65500, and changes none. -/
theorem icountFetch_spec (h : icount.store.Proper) (hfits : icount.store.entries<2^31)
    (hino : ino≠0) (hnum : ino ≤ icount.numInodes) :
    (icountFetch grow icount ino).2=.ok (min (icount.count ino) 65500) := by
  have hrange : ¬(ino=0 ∨ icount.numInodes < ino) := by omega
  rw [icountFetch,if_neg hrange,Ext2Icount.count]
  by_cases hsingle : icount.single ino=true
  · rw [if_pos hsingle,if_pos hsingle]
    rfl
  · rw [if_neg hsingle,if_neg hsingle]
    by_cases hmultiple : icount.notMultiple ino=true
    · rw [if_pos hmultiple,if_pos hmultiple]
      rfl
    · rw [if_neg hmultiple,if_neg hmultiple]
      obtain ⟨store',hget,-,-,-⟩ := @get_spec grow icount ino h hfits
      rw [hget]
      exact congrArg Except.ok (icount16Xlate_eq _)

/-- What a call results in: the value, the counts, and a proper store. -/
structure Follows (result : Ext2Icount×Except Errcode (Option ℕ)) (numInodes : ℕ) (count : ℕ → ℕ)
    (value : Except Errcode (Option ℕ)) : Prop where
  value : result.2=value
  count : result.1.count=count
  proper : result.1.store.Proper
  numInodes : result.1.numInodes=numInodes

theorem icountStore_spec (h : icount.store.Proper) (hfits : icount.store.entries<2^31)
    (hino : ino≠0) (hnum : ino ≤ icount.numInodes) (count : ℕ) :
    Follows (icountStore grow icount ino count) icount.numInodes
      (Function.update icount.count ino count) (.ok none) := by
  have hrange : ¬(ino=0 ∨ icount.numInodes < ino) := by omega
  rw [icountStore,if_neg hrange]
  by_cases hone : count=1
  · rw [if_pos hone,hone]
    exact ⟨rfl,count_of_change (fun k hk => ⟨single_other hk _,notMultiple_other hk _,rfl⟩)
      (count_eq_one (single_self true)),h,rfl⟩
  · rw [if_neg hone]
    by_cases hzero : count=0
    · rw [if_pos hzero,hzero]
      dsimp only
      by_cases hmultiple : (icount.setSingle ino false).multiple.isSome=true
      · rw [if_pos hmultiple]
        exact ⟨rfl,count_of_change (fun k hk => ⟨single_other hk _,notMultiple_other hk _,rfl⟩)
          (count_eq_zero (single_self false) (notMultiple_unmarked hmultiple)),h,rfl⟩
      · rw [if_neg hmultiple]
        obtain ⟨store',failed,hset,hproper,-,hvalue⟩ :=
          @set_spec grow (icount.setSingle ino false) ino h hfits hino 0
        rw [hset]
        exact ⟨rfl,count_of_change
          (fun k hk => ⟨single_other hk _,rfl,(hvalue k).trans (if_neg hk)⟩)
          (count_eq_value (single_self false) (notMultiple_none hmultiple)
            ((hvalue ino).trans (if_pos rfl))),hproper,rfl⟩
    · rw [if_neg hzero]
      obtain ⟨store',failed,hset,hproper,hfailed,hvalue⟩ := @set_spec grow icount ino h hfits hino
        count
      rw [hset,hfailed (Or.inl hzero)]
      dsimp only
      rw [if_neg (fun hf => by cases hf)]
      exact ⟨rfl,count_of_change
        (fun k hk => ⟨single_other hk _,notMultiple_other hk _,(hvalue k).trans (if_neg hk)⟩)
        (count_eq_value (single_self false) notMultiple_marked
          ((hvalue ino).trans (if_pos rfl))),hproper,rfl⟩

/-- `ext2fs_icount_increment` of a count that fits into 32 bits. -/
theorem icountIncrement_spec (h : icount.store.Proper) (hfits : icount.store.entries<2^31)
    (hino : ino≠0) (hnum : ino ≤ icount.numInodes) (hcount : icount.count ino+1<2^32) :
    Follows (icountIncrement grow icount ino) icount.numInodes
      (Function.update icount.count ino (icount.count ino+1))
      (.ok (some (min (icount.count ino+1) 65500))) := by
  have hrange : ¬(ino=0 ∨ icount.numInodes < ino) := by omega
  rw [icountIncrement,if_neg hrange]
  by_cases hsingle : icount.single ino=true
  · have hold : icount.count ino=1 := count_eq_one hsingle
    obtain ⟨store',failed,hset,hproper,hfailed,hvalue⟩ := @set_spec grow icount ino h hfits hino 2
    rw [if_pos hsingle,hset,hfailed (Or.inl (by omega)),hold]
    dsimp only
    rw [if_neg (fun hf => by cases hf)]
    exact ⟨rfl,count_of_change
      (fun k hk => ⟨single_other hk _,notMultiple_other hk _,(hvalue k).trans (if_neg hk)⟩)
      (count_eq_value (single_self false) notMultiple_marked
        ((hvalue ino).trans (if_pos rfl))),hproper,rfl⟩
  · rw [if_neg hsingle]
    have hclear := Bool.eq_false_iff.mpr hsingle
    by_cases hmultiple : icount.notMultiple ino=true
    · have hold : icount.count ino=0 := count_eq_zero hclear hmultiple
      rw [if_pos hmultiple,hold]
      exact ⟨rfl,count_of_change (fun k hk => ⟨single_other hk _,rfl,rfl⟩)
        (count_eq_one (single_self true)),h,rfl⟩
    · have hold : icount.count ino=icount.store.value ino :=
        count_eq_value hclear (Bool.eq_false_iff.mpr hmultiple) rfl
      obtain ⟨store1,hget,hproper1,hvalue1,hentries⟩ := @get_spec grow icount ino h hfits
      rw [if_neg hmultiple,incrementStored,hget,←hold]
      dsimp only
      rw [Nat.mod_eq_of_lt hcount]
      obtain ⟨store',failed,hset,hproper,hfailed,hvalue⟩ :=
        @set_spec grow {icount with store := store1} ino hproper1 (hentries ▸ hfits) hino
          (icount.count ino+1)
      rw [hset,hfailed (Or.inl (Nat.succ_ne_zero _))]
      dsimp only
      rw [if_neg (fun hf => by cases hf),incremented,icount16Xlate_eq]
      exact ⟨rfl,count_of_change
        (fun k hk => ⟨rfl,notMultiple_other hk _,
          ((hvalue k).trans (if_neg hk)).trans (hvalue1 k)⟩)
        (count_eq_value hclear notMultiple_marked ((hvalue ino).trans (if_pos rfl))),hproper,rfl⟩

/-- `ext2fs_icount_decrement`. -/
theorem icountDecrement_spec (h : icount.store.Proper) (hfits : icount.store.entries<2^31)
    (hino : ino≠0) (hnum : ino ≤ icount.numInodes) :
    if icount.count ino=0 then
      Follows (icountDecrement grow icount ino) icount.numInodes icount.count
        (.error .invalidArgument)
    else Follows (icountDecrement grow icount ino) icount.numInodes
      (Function.update icount.count ino (icount.count ino-1))
      (.ok (some (min (icount.count ino-1) 65500))) := by
  have hrange : ¬(ino=0 ∨ icount.numInodes < ino) := by omega
  rw [icountDecrement,if_neg hrange]
  by_cases hsingle : icount.single ino=true
  · have hold : icount.count ino=1 := count_eq_one hsingle
    rw [if_pos hsingle,hold,if_neg (by omega)]
    dsimp only
    by_cases hmultiple : (icount.setSingle ino false).multiple.isSome=true
    · rw [if_pos hmultiple]
      exact ⟨rfl,count_of_change (fun k hk => ⟨single_other hk _,notMultiple_other hk _,rfl⟩)
        (count_eq_zero (single_self false) (notMultiple_unmarked hmultiple)),h,rfl⟩
    · rw [if_neg hmultiple]
      obtain ⟨store',failed,hset,hproper,-,hvalue⟩ :=
        @set_spec grow (icount.setSingle ino false) ino h hfits hino 0
      rw [hset]
      exact ⟨rfl,count_of_change
        (fun k hk => ⟨single_other hk _,rfl,(hvalue k).trans (if_neg hk)⟩)
        (count_eq_value (single_self false) (notMultiple_none hmultiple)
          ((hvalue ino).trans (if_pos rfl))),hproper,rfl⟩
  · rw [if_neg hsingle]
    have hclear := Bool.eq_false_iff.mpr hsingle
    by_cases hmultiple : icount.notMultiple ino=true
    · have hold : icount.count ino=0 := count_eq_zero hclear hmultiple
      rw [if_pos hmultiple,if_pos hold]
      exact ⟨rfl,rfl,h,rfl⟩
    · have hin := Bool.eq_false_iff.mpr hmultiple
      have hold : icount.count ino=icount.store.value ino := count_eq_value hclear hin rfl
      obtain ⟨store1,hget,hproper1,hvalue1,hentries⟩ := @get_spec grow icount ino h hfits
      rw [if_neg hmultiple,hget,←hold]
      dsimp only
      by_cases hzero : icount.count ino=0
      · rw [if_pos hzero,if_pos hzero]
        refine ⟨rfl,?_,hproper1,rfl⟩
        funext k
        rw [Ext2Icount.count,Ext2Icount.count,hvalue1]
        rfl
      · rw [if_neg hzero,if_neg hzero]
        obtain ⟨store',failed,hset,hproper,hfailed,hvalue⟩ :=
          @set_spec grow {icount with store := store1} ino hproper1 (hentries ▸ hfits) hino
            (icount.count ino-1)
        have hstored : store1.value ino≠0 := by
          rw [hvalue1,←hold]
          exact hzero
        rw [hset,hfailed (Or.inr hstored)]
        dsimp only
        rw [if_neg (fun hf => by cases hf),icount16Xlate_eq]
        have hother : ∀ k, k≠ino → store'.value k=icount.store.value k :=
          fun k hk => ((hvalue k).trans (if_neg hk)).trans (hvalue1 k)
        have hself : store'.value ino=icount.count ino-1 := (hvalue ino).trans (if_pos rfl)
        by_cases hone : icount.count ino-1=1
        · rw [if_pos hone,if_neg (by omega),hone]
          exact ⟨rfl,count_of_change (fun k hk => ⟨single_other hk _,rfl,hother k hk⟩)
            (count_eq_one (single_self true)),hproper,rfl⟩
        · rw [if_neg hone]
          by_cases hnone : icount.count ino-1=0
          · rw [if_pos hnone,hnone]
            exact ⟨rfl,count_of_change (fun k hk => ⟨rfl,notMultiple_other hk _,hother k hk⟩)
              (count_eq_zero_of_value hclear (hself.trans hnone)),hproper,rfl⟩
          · rw [if_neg hnone]
            exact ⟨rfl,count_of_change (fun k hk => ⟨rfl,rfl,hother k hk⟩)
              (count_eq_value hclear hin hself),hproper,rfl⟩

end Calls

/-! ## Sequences of calls -/

/-- The calls that change a count. -/
inductive Op where
  | store (ino count : ℕ)
  | increment (ino : ℕ)
  | decrement (ino : ℕ)
  deriving DecidableEq

/-- The inode of a call. -/
def Op.ino : Op → ℕ
  | .store ino _ => ino
  | .increment ino => ino
  | .decrement ino => ino

/-- One call. -/
def step (grow : ℕ → ℕ → ℕ → ℕ) (icount : Ext2Icount) : Op → Ext2Icount×Except Errcode (Option ℕ)
  | .store ino count => icountStore grow icount ino count
  | .increment ino => icountIncrement grow icount ino
  | .decrement ino => icountDecrement grow icount ino

/-- A sequence of calls, with what they return. -/
def run (grow : ℕ → ℕ → ℕ → ℕ) :
    Ext2Icount → List Op → Ext2Icount×List (Except Errcode (Option ℕ))
  | icount,[] => (icount,[])
  | icount,op::ops =>
    ((run grow (step grow icount op).1 ops).1,
      (step grow icount op).2::(run grow (step grow icount op).1 ops).2)

/-- One call on the map of the counts. Values are reported up to 65500. -/
def mapStep (count : ℕ → ℕ) : Op → (ℕ → ℕ)×Except Errcode (Option ℕ)
  | .store ino value => (Function.update count ino value,.ok none)
  | .increment ino =>
    (Function.update count ino (count ino+1),.ok (some (min (count ino+1) 65500)))
  | .decrement ino =>
    if count ino=0 then (count,.error .invalidArgument)
    else (Function.update count ino (count ino-1),.ok (some (min (count ino-1) 65500)))

/-- A sequence of calls on the map of the counts. -/
def mapRun : (ℕ → ℕ) → List Op → (ℕ → ℕ)×List (Except Errcode (Option ℕ))
  | count,[] => (count,[])
  | count,op::ops =>
    ((mapRun (mapStep count op).1 ops).1,(mapStep count op).2::(mapRun (mapStep count op).1 ops).2)

/-- In every state of a run the number of list elements fits into an `int`, and
no count of 2^32-1 is incremented. -/
def Fits (grow : ℕ → ℕ → ℕ → ℕ) : Ext2Icount → (ℕ → ℕ) → List Op → Prop
  | icount,_,[] => icount.store.entries<2^31
  | icount,count,op::ops => icount.store.entries<2^31 ∧
    (op=.increment op.ino → count op.ino+1<2^32) ∧
    Fits grow (step grow icount op).1 (mapStep count op).1 ops

theorem step_follows {grow : ℕ → ℕ → ℕ → ℕ} {icount : Ext2Icount} {op : Op}
    (h : icount.store.Proper) (hfits : icount.store.entries<2^31)
    (hcount : op=.increment op.ino → icount.count op.ino+1<2^32)
    (hino : op.ino≠0) (hnum : op.ino ≤ icount.numInodes) :
    Follows (step grow icount op) icount.numInodes (mapStep icount.count op).1
      (mapStep icount.count op).2 := by
  cases op with
  | store ino count => exact icountStore_spec h hfits hino hnum count
  | increment ino => exact icountIncrement_spec h hfits hino hnum (hcount rfl)
  | decrement ino =>
    have hspec := @icountDecrement_spec grow icount ino h hfits hino hnum
    rw [step,mapStep]
    split at hspec
    · next hzero =>
      rw [if_pos hzero]
      exact hspec
    · next hpos =>
      rw [if_neg hpos]
      exact hspec

/-- A whole run follows the map. -/
theorem run_follows {grow : ℕ → ℕ → ℕ → ℕ} {icount : Ext2Icount} {ops : List Op}
    (h : icount.store.Proper) (hops : ∀ op∈ops, op.ino≠0 ∧ op.ino ≤ icount.numInodes)
    (hfits : Fits grow icount icount.count ops) :
    (run grow icount ops).2=(mapRun icount.count ops).2 ∧
      (run grow icount ops).1.count=(mapRun icount.count ops).1 ∧
      (run grow icount ops).1.store.Proper ∧
      (run grow icount ops).1.numInodes=icount.numInodes ∧
      (run grow icount ops).1.store.entries<2^31 := by
  induction ops generalizing icount with
  | nil => exact ⟨rfl,rfl,h,rfl,hfits⟩
  | cons op ops ih =>
    obtain ⟨hentries,hcount,hrest⟩ := hfits
    obtain ⟨hino,hnum⟩ := hops op List.mem_cons_self
    have hstep := @step_follows grow icount op h hentries hcount hino hnum
    rw [←hstep.count] at hrest
    have hnext := ih hstep.proper
      (fun o ho => by rw [hstep.numInodes]; exact hops o (List.mem_cons_of_mem op ho)) hrest
    rw [run,mapRun]
    dsimp only
    rw [hstep.value,←hstep.count]
    exact ⟨by rw [hnext.1],hnext.2.1,hnext.2.2.1,hnext.2.2.2.1.trans hstep.numInodes,
      hnext.2.2.2.2⟩

/-- `ext2fs_create_icount2`, with the inodes of the hint. -/
def createIcount2 (numInodes size : ℕ) (increment : Bool) (hint : List ℕ) : Ext2Icount where
  single := fun _ => false
  multiple := if increment=true then some fun _ => false else none
  store := .list ⟨hint.map fun ino => ⟨ino,0⟩,size,0,none⟩
  numInodes := numInodes

/-- `ext2fs_create_icount_tdb`. -/
def createIcountTdb (numInodes : ℕ) (increment : Bool) : Ext2Icount where
  single := fun _ => false
  multiple := if increment=true then some fun _ => false else none
  store := .tdb fun _ => none
  numInodes := numInodes

/-- A new structure in one of its configurations. The hint is the list of
another one. -/
inductive Created (numInodes : ℕ) : Ext2Icount → Prop
  | list {size : ℕ} {increment : Bool} {hint : List ℕ} (sorted : hint.Pairwise (· < ·))
      (length_le : hint.length ≤ size) :
      Created numInodes (createIcount2 numInodes size increment hint)
  | tdb {increment : Bool} : Created numInodes (createIcountTdb numInodes increment)

theorem Created.proper {numInodes : ℕ} {icount : Ext2Icount} (h : Created numInodes icount) :
    icount.store.Proper := by
  cases h with
  | list sorted length_le =>
    exact ⟨List.pairwise_map.mpr sorted,by rw [List.length_map]; exact length_le⟩
  | tdb => exact trivial

theorem Created.numInodes_eq {numInodes : ℕ} {icount : Ext2Icount}
    (h : Created numInodes icount) : icount.numInodes=numInodes := by
  cases h with
  | list => rfl
  | tdb => rfl

theorem value_hint (hint : List ℕ) (size ino : ℕ) :
    (IcountList.mk (hint.map fun ino => ⟨ino,0⟩) size 0 none).value ino=0 := by
  rw [IcountList.value]
  cases hfind : lookup IcountEl.ino (hint.map fun ino => (⟨ino,0⟩ : IcountEl)) ino with
  | none => rfl
  | some el =>
    obtain ⟨i,-,rfl⟩ := List.mem_map.mp (List.mem_of_find?_eq_some hfind)
    rfl

theorem Created.count_eq {numInodes : ℕ} {icount : Ext2Icount} (h : Created numInodes icount) :
    icount.count=fun _ => 0 := by
  funext ino
  cases h with
  | list => exact count_eq_zero_of_value rfl (value_hint _ _ _)
  | tdb => exact count_eq_zero_of_value rfl rfl

theorem icountValidate_of_proper {l : IcountList} (h : l.Proper) : icountValidate l=true := by
  rw [icountValidate,Bool.and_eq_true,decide_eq_true_iff,List.all_eq_true]
  refine ⟨h.length_le,fun i hi => ?_⟩
  rw [List.mem_range] at hi
  exact decide_eq_true (h.sorted.keyAt_lt (by omega) (by omega))

/-- In every run in which list elements can be counted in an `int` and no count
overflows, calls return what the map says, every count can be fetched, a list
passes `ext2fs_icount_validate`, and every other configuration returns the
same. -/
theorem icount_refines {grow : ℕ → ℕ → ℕ → ℕ} {numInodes : ℕ} {icount : Ext2Icount}
    (hcreated : Created numInodes icount) {ops : List Op}
    (hops : ∀ op∈ops, op.ino≠0 ∧ op.ino≤numInodes) (hfits : Fits grow icount (fun _ => 0) ops) :
    (run grow icount ops).2=(mapRun (fun _ => 0) ops).2 ∧
      (∀ ino, ino≠0 → ino≤numInodes → (icountFetch grow (run grow icount ops).1 ino).2=
        .ok (min ((mapRun (fun _ => 0) ops).1 ino) 65500)) ∧
      (∀ l, (run grow icount ops).1.store=.list l → icountValidate l=true) ∧
      ∀ (grow' : ℕ → ℕ → ℕ → ℕ) (icount' : Ext2Icount), Created numInodes icount' →
        Fits grow' icount' (fun _ => 0) ops → (run grow' icount' ops).2=(run grow icount ops).2 := by
  have hfollows : ∀ (grow : ℕ → ℕ → ℕ → ℕ) (icount : Ext2Icount), Created numInodes icount →
      Fits grow icount (fun _ => 0) ops →
      (run grow icount ops).2=(mapRun (fun _ => 0) ops).2 ∧
      (run grow icount ops).1.count=(mapRun (fun _ => 0) ops).1 ∧
      (run grow icount ops).1.store.Proper ∧
      (run grow icount ops).1.numInodes=numInodes ∧
      (run grow icount ops).1.store.entries<2^31 := by
    intro grow icount hcreated hfits
    have hrun := @run_follows grow icount ops hcreated.proper
      (by rw [hcreated.numInodes_eq]; exact hops) (by rw [hcreated.count_eq]; exact hfits)
    rw [hcreated.count_eq,hcreated.numInodes_eq] at hrun
    exact hrun
  obtain ⟨hvalues,hcount,hproper,hnum,hentries⟩ := hfollows grow icount hcreated hfits
  refine ⟨hvalues,?_,?_,?_⟩
  · intro ino hino hle
    rw [icountFetch_spec hproper hentries hino (by rw [hnum]; exact hle),hcount]
  · intro l hl
    rw [hl] at hproper
    exact icountValidate_of_proper hproper
  · intro grow' icount' hcreated' hfits'
    exact (hfollows grow' icount' hcreated' hfits').1.trans hvalues.symm

instance decidableFits (grow : ℕ → ℕ → ℕ → ℕ) : (icount : Ext2Icount) → (count : ℕ → ℕ) →
    (ops : List Op) → Decidable (Fits grow icount count ops)
  | icount,_,[] => inferInstanceAs (Decidable (icount.store.entries<2^31))
  | icount,count,op::ops =>
    have := decidableFits grow (step grow icount op).1 (mapStep count op).1 ops
    inferInstanceAs (Decidable (icount.store.entries<2^31 ∧
      (op=.increment op.ino → count op.ino+1<2^32) ∧
      Fits grow (step grow icount op).1 (mapStep count op).1 ops))

/-- Counts in a list that grows, where stale elements are left behind. -/
theorem icount_refines_small :
    (icountFetch (fun count numInodes last => count*(numInodes/last))
      (run (fun count numInodes last => count*(numInodes/last)) (createIcount2 50 1 true [7])
        [.store 42 42,.store 3 3,.store 42 1,.increment 42,.decrement 3,.decrement 3]).1 42).2=
      .ok 2 := by
  have hfetch := (icount_refines (@Created.list 50 1 true [7] (by decide) (by decide))
    (by decide : ∀ op∈[Op.store 42 42,.store 3 3,.store 42 1,.increment 42,.decrement 3,
      .decrement 3], op.ino≠0 ∧ op.ino≤50)
    (by decide +kernel : Fits (fun count numInodes last => count*(numInodes/last)) _ _ _)).2.1
  exact hfetch 42 (by decide) (by decide)

/-- The structure in the database after incrementing one count. -/
def incrementedTdb (n : ℕ) : Ext2Icount :=
  {createIcountTdb 1 false with
    store := .tdb (Function.update (fun _ => none) 1 (if n=0 then none else some n))}

theorem increment_incrementedTdb (grow : ℕ → ℕ → ℕ → ℕ) (n : ℕ) (hn : n<2^32) :
    (step grow (incrementedTdb n) (.increment 1)).1=incrementedTdb ((n+1)%2^32) := by
  have hvalue : (Function.update (fun _ => none) 1 (if n=0 then none else some n) 1 :
      Option ℕ).getD 0=n := by
    rw [Function.update_self]
    split_ifs with hzero
    · exact hzero.symm
    · rfl
  have hget : (incrementedTdb n).get grow 1=(incrementedTdb n,n) := by
    rw [Ext2Icount.get]
    exact congrArg (Prod.mk (incrementedTdb n)) hvalue
  have hset : ((incrementedTdb n).set grow 1 ((n+1)%2^32))=
      (incrementedTdb ((n+1)%2^32),false) := by
    rw [Ext2Icount.set,incrementedTdb]
    dsimp only
    rw [setInodeCount]
    by_cases hwrap : (n+1)%2^32≠0
    · rw [if_pos hwrap,Function.update_idem,incrementedTdb,if_neg hwrap]
    · have hpos : n≠0 := by omega
      rw [if_neg hwrap,Function.update_idem,if_neg hpos,Function.update_self,
        if_neg (fun hf => by cases hf),incrementedTdb,if_pos (not_not.mp hwrap)]
  have hrange : ¬(1=0 ∨ (incrementedTdb n).numInodes<1) := by
    change ¬(1=0 ∨ 1<1)
    omega
  rw [step,icountIncrement,if_neg hrange,if_neg (fun hf => by cases hf),if_neg (fun hf => by cases hf),incrementStored,hget]
  dsimp only
  rw [hset,if_neg (fun hf => by cases hf)]
  rfl

theorem run_replicate_increment (grow : ℕ → ℕ → ℕ → ℕ) (m n : ℕ) (hn : n<2^32) :
    (run grow (incrementedTdb n) (List.replicate m (.increment 1))).1=
      incrementedTdb ((n+m)%2^32) := by
  induction m generalizing n with
  | zero => rw [List.replicate_zero,run,Nat.add_zero,Nat.mod_eq_of_lt hn]
  | succ m ih =>
    rw [List.replicate_succ,run,increment_incrementedTdb grow n hn]
    dsimp only
    rw [ih _ (Nat.mod_lt _ (by decide))]
    have hsum : ((n+1)%2^32+m)%2^32=(n+(m+1))%2^32 := by omega
    rw [hsum]

theorem mapRun_replicate_increment (m : ℕ) (count : ℕ → ℕ) :
    (mapRun count (List.replicate m (.increment 1))).1 1=count 1+m := by
  induction m generalizing count with
  | zero => rfl
  | succ m ih =>
    rw [List.replicate_succ,mapRun]
    dsimp only
    rw [ih]
    change Function.update count 1 (count 1+1) 1+m=count 1+(m+1)
    rw [Function.update_self]
    omega

/-- After 2^32 increments a count is zero again. -/
theorem not_icount_refines_wrapped :
    (icountFetch (fun _ _ _ => 0) (run (fun _ _ _ => 0) (createIcountTdb 1 false)
      (List.replicate (2^32) (.increment 1))).1 1).2≠
      .ok (min ((mapRun (fun _ => 0) (List.replicate (2^32) (.increment 1))).1 1) 65500) := by
  have hnew : createIcountTdb 1 false=incrementedTdb 0 := by
    rw [incrementedTdb,if_pos rfl,Function.update_eq_self_iff.mpr rfl]
    rfl
  rw [hnew,run_replicate_increment _ _ _ (by decide),mapRun_replicate_increment]
  have hzero : (0+2^32)%2^32=0 := by omega
  rw [hzero]
  decide

end AndroidPlatform.Icount
