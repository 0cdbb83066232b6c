import AndroidPlatform.DhcpReplyOptions

/-!
# Reads of the search for options

`option_find1` walks over pads and options up to the one that is looked for. It tests its
position against the end of the range with `>`, so that a range of pads and options that
ends without `OPTION_END` has it read the byte behind the range.
-/

namespace AndroidPlatform.DhcpOptionReads

open DhcpReplyOptions

/-! ## The search with its reads -/

/-- `option_find1`: the addresses that are read, and the result. -/
def findReads (m : Mess) (p limit : ℕ) (opt : UInt8) (minsize : ℕ) : List ℕ×Option ℕ :=
  if p>limit then ([],none)
  else if m.byte p=optionEnd then ([p],if opt=optionEnd then some p else none)
  else if m.byte p=0 then
    let rest := findReads m (p+1) limit opt minsize
    (p::rest.1,rest.2)
  else if p+2>limit then ([p],none)
  else if p+(2+(m.byte (p+1)).toNat)>limit then ([p,p+1],none)
  else if m.byte p=opt ∧ (m.byte (p+1)).toNat≥minsize then ([p,p+1],some p)
  else
    let rest := findReads m (p+(m.byte (p+1)).toNat+2) limit opt minsize
    (p::(p+1)::rest.1,rest.2)
termination_by limit+1-p

/-- `option_find`: the addresses that are read, and the result. -/
def optionFindReads (m : Mess) (size : ℕ) (opt : UInt8) (minsize : ℕ) : List ℕ×Option ℕ :=
  let main := findReads m optionsAt size opt minsize
  match main.2 with
  | some p => (main.1,some p)
  | none =>
    let found := findReads m optionsAt size optionOverload 1
    match found.2 with
    | none => (main.1++found.1,none)
    | some overload =>
      let file :=
        if m.byte (overload+2) &&& 1≠0 then
          findReads m Spare.file.start (Spare.file.start+128) opt minsize
        else ([],none)
      match file.2 with
      | some p => (main.1++found.1++(overload+2)::file.1,some p)
      | none =>
        let sname :=
          if m.byte (overload+2) &&& 2≠0 then
            findReads m Spare.sname.start (Spare.sname.start+64) opt minsize
          else ([],none)
        (main.1++found.1++(overload+2)::file.1++sname.1,sname.2)

variable {m : Mess} {p q limit size minsize : ℕ} {opt : UInt8} {options : List ℕ}

theorem findReads_snd (m : Mess) (p limit : ℕ) (opt : UInt8) (minsize : ℕ) :
    (findReads m p limit opt minsize).2=m.optionFind1 p limit opt minsize := by
  fun_induction findReads m p limit opt minsize with
  | case1 p h => rw [Mess.optionFind1,if_pos h]
  | case2 p h hend => rw [Mess.optionFind1,if_neg h,if_pos hend]
  | case3 p h hend hpad rest ih =>
    rw [Mess.optionFind1,if_neg h,if_neg hend,if_pos hpad]
    exact ih
  | case4 p h hend hpad hshort =>
    rw [Mess.optionFind1,if_neg h,if_neg hend,if_neg hpad,if_pos hshort]
  | case5 p h hend hpad hshort hlong =>
    rw [Mess.optionFind1,if_neg h,if_neg hend,if_neg hpad,if_neg hshort,if_pos hlong]
  | case6 p h hend hpad hshort hlong hfound =>
    rw [Mess.optionFind1,if_neg h,if_neg hend,if_neg hpad,if_neg hshort,if_neg hlong,if_pos hfound]
  | case7 p h hend hpad hshort hlong hfound rest ih =>
    rw [Mess.optionFind1,if_neg h,if_neg hend,if_neg hpad,if_neg hshort,if_neg hlong,if_neg hfound]
    exact ih

/-- The search with its reads has the result of `option_find`. -/
theorem optionFindReads_snd (m : Mess) (size : ℕ) (opt : UInt8) (minsize : ℕ) :
    (optionFindReads m size opt minsize).2=m.optionFind size opt minsize := by
  have hmain := findReads_snd m optionsAt size opt minsize
  have hover := findReads_snd m optionsAt size optionOverload 1
  simp only [optionFindReads,Mess.optionFind,← hmain,← hover]
  cases (findReads m optionsAt size opt minsize).2 with
  | some p => rfl
  | none =>
    cases (findReads m optionsAt size optionOverload 1).2 with
    | none => rfl
    | some overload =>
      dsimp only
      by_cases hfile : m.byte (overload+2) &&& 1≠0
      · rw [if_pos hfile,if_pos hfile,← findReads_snd]
        cases (findReads m Spare.file.start (Spare.file.start+128) opt minsize).2 with
        | some p => rfl
        | none =>
          dsimp only
          split
          · exact findReads_snd _ _ _ _ _
          · rfl
      · rw [if_neg hfile,if_neg hfile]
        dsimp only
        split
        · exact findReads_snd _ _ _ _ _
        · rfl

/-! ## Sequences of options -/

/-- An option fits into the range. -/
def Fits (m : Mess) (limit p : ℕ) : Prop := p+2+(m.byte (p+1)).toNat≤limit

/-- Pads and options that fit stand from the first address up to the second one. The list has
the addresses of the options. -/
inductive Sequence (m : Mess) (limit : ℕ) : ℕ → List ℕ → ℕ → Prop
  | nil {p : ℕ} : Sequence m limit p [] p
  | pad {p q : ℕ} {options : List ℕ} : p < limit → m.byte p=0 →
    Sequence m limit (p+1) options q → Sequence m limit p options q
  | option {p q : ℕ} {options : List ℕ} : m.byte p≠0 → m.byte p≠optionEnd → Fits m limit p →
    Sequence m limit (p+(m.byte (p+1)).toNat+2) options q → Sequence m limit p (p::options) q

/-- The sequence is the longest one: behind it the range ends, or an `OPTION_END` or an option
that does not fit stands there. -/
def Stops (m : Mess) (limit q : ℕ) : Prop :=
  q=limit ∨ q < limit ∧ (m.byte q=optionEnd ∨ m.byte q≠0 ∧ ¬Fits m limit q)

/-- The option has the code and at least that many bytes. -/
def Matches (m : Mess) (opt : UInt8) (minsize p : ℕ) : Prop :=
  m.byte p=opt ∧ minsize≤(m.byte (p+1)).toNat

instance (m : Mess) (opt : UInt8) (minsize : ℕ) : DecidablePred (Matches m opt minsize) :=
  fun _ => inferInstanceAs (Decidable (_ ∧ _))

/-- What is to be found: the first option of the sequence that matches, or the `OPTION_END`
behind it. -/
def expected (m : Mess) (limit : ℕ) (opt : UInt8) (minsize : ℕ) (options : List ℕ) (q : ℕ) :
    Option ℕ :=
  if opt=optionEnd then if q < limit ∧ m.byte q=optionEnd then some q else none
  else options.find? fun p => Matches m opt minsize p

/-- The search reads the range only, and finds what is to be found in it. -/
def FindsFirst (m : Mess) (p limit : ℕ) (opt : UInt8) (minsize : ℕ) : Prop :=
  (∀ a∈(findReads m p limit opt minsize).1, p≤a ∧ a < limit) ∧
  ∃ options q, Sequence m limit p options q ∧ Stops m limit q ∧
    (findReads m p limit opt minsize).2=expected m limit opt minsize options q

/-- The range is filled with pads and options, none of which is looked for. -/
def RunsOff (m : Mess) (p limit : ℕ) (opt : UInt8) (minsize : ℕ) : Prop :=
  ∃ options, Sequence m limit p options limit ∧ ∀ o∈options, ¬Matches m opt minsize o

/-- Every range has a longest sequence. -/
theorem exists_sequence (m : Mess) (hp : p≤limit) :
    ∃ options q, Sequence m limit p options q ∧ Stops m limit q := by
  induction hn : limit-p using Nat.strong_induction_on generalizing p with
  | _ n ih =>
    rcases Nat.lt_or_eq_of_le hp with hlt | rfl
    · by_cases hend : m.byte p=optionEnd
      · exact ⟨[],p,.nil,.inr ⟨hlt,.inl hend⟩⟩
      · by_cases hpad : m.byte p=0
        · obtain ⟨options,q,hseq,hstop⟩ := ih (limit-(p+1)) (by omega) (by omega) rfl
          exact ⟨options,q,.pad hlt hpad hseq,hstop⟩
        · by_cases hfits : Fits m limit p
          · have hle : p+2+(m.byte (p+1)).toNat≤limit := hfits
            obtain ⟨options,q,hseq,hstop⟩ :=
              ih (limit-(p+(m.byte (p+1)).toNat+2)) (by omega) (by omega) rfl
            exact ⟨p::options,q,.option hpad hend hfits hseq,hstop⟩
          · exact ⟨[],p,.nil,.inr ⟨hlt,.inr ⟨hpad,hfits⟩⟩⟩
    · exact ⟨[],p,.nil,.inl rfl⟩

/-! ## What is read -/

/-- Reads go no further than the address behind the range. -/
theorem findReads_le : ∀ a∈(findReads m p limit opt minsize).1, p≤a ∧ a≤limit := by
  fun_induction findReads m p limit opt minsize with
  | case1 p h => exact nofun
  | case2 p h hend => intro a ha; have := List.mem_singleton.mp ha; omega
  | case3 p h hend hpad rest ih =>
    intro a ha
    rcases List.mem_cons.mp ha with rfl | ha
    · omega
    · have := ih a ha
      omega
  | case4 p h hend hpad hshort => intro a ha; have := List.mem_singleton.mp ha; omega
  | case5 p h hend hpad hshort hlong =>
    intro a ha
    rcases List.mem_cons.mp ha with rfl | ha
    · omega
    · have := List.mem_singleton.mp ha
      omega
  | case6 p h hend hpad hshort hlong hfound =>
    intro a ha
    rcases List.mem_cons.mp ha with rfl | ha
    · omega
    · have := List.mem_singleton.mp ha
      omega
  | case7 p h hend hpad hshort hlong hfound rest ih =>
    intro a ha
    rcases List.mem_cons.mp ha with rfl | ha
    · omega
    · rcases List.mem_cons.mp ha with rfl | ha
      · omega
      · have := ih a ha
        omega

/-- The search at an option that fits. -/
theorem findReads_option (hpad : m.byte p≠0) (hend : m.byte p≠optionEnd)
    (hfits : Fits m limit p) :
    findReads m p limit opt minsize=
      if Matches m opt minsize p then ([p,p+1],some p)
      else
        (p::(p+1)::(findReads m (p+(m.byte (p+1)).toNat+2) limit opt minsize).1,
          (findReads m (p+(m.byte (p+1)).toNat+2) limit opt minsize).2) := by
  have hle : p+2+(m.byte (p+1)).toNat≤limit := hfits
  rw [findReads,if_neg (by omega),if_neg hend,if_neg hpad,if_neg (by omega),if_neg (by omega)]
  exact if_congr Iff.rfl rfl rfl

theorem expected_nil :
    expected m limit opt minsize [] q=
      if opt=optionEnd ∧ q < limit ∧ m.byte q=optionEnd then some q else none := by
  rw [expected]
  by_cases hopt : opt=optionEnd <;> simp [hopt]

/-- In a range that is filled with other options the address behind it is read. -/
theorem Sequence.reads_limit (h : Sequence m limit p options q) (hq : q=limit)
    (hnone : ∀ o∈options, ¬Matches m opt minsize o) :
    limit∈(findReads m p limit opt minsize).1 := by
  induction h with
  | @nil p =>
    subst hq
    rw [findReads,if_neg (lt_irrefl _)]
    split_ifs <;> exact List.mem_cons_self
  | @pad p q options hlt hpad hseq ih =>
    rw [findReads,if_neg (by omega),hpad,if_neg (by decide),if_pos rfl]
    exact List.mem_cons_of_mem _ (ih hq hnone)
  | @option p q options hpad hend hfits hseq ih =>
    rw [findReads_option hpad hend hfits,if_neg (hnone p List.mem_cons_self)]
    exact List.mem_cons_of_mem _ (List.mem_cons_of_mem _
      (ih hq fun o ho => hnone o (List.mem_cons_of_mem _ ho)))

theorem expected_cons (hother : ¬Matches m opt minsize p) :
    expected m limit opt minsize (p::options) q=expected m limit opt minsize options q := by
  rw [expected,expected,List.find?_cons,decide_eq_false hother]

/-- In any other range only the range is read, and what is to be found is found. -/
theorem Sequence.finds (h : Sequence m limit p options q) (hstop : Stops m limit q)
    (hp : p≤limit) (hother : ¬(q=limit ∧ ∀ o∈options, ¬Matches m opt minsize o)) :
    (∀ a∈(findReads m p limit opt minsize).1, a < limit) ∧
      (findReads m p limit opt minsize).2=expected m limit opt minsize options q := by
  induction h with
  | @nil q =>
    rcases hstop with heq | ⟨hlt,hstop⟩
    · exact absurd ⟨heq,nofun⟩ hother
    · rw [expected_nil]
      by_cases hend : m.byte q=optionEnd
      · rw [findReads,if_neg (by omega),if_pos hend]
        refine ⟨fun a ha => ?_,?_⟩
        · rw [List.mem_singleton.mp ha]
          exact hlt
        · simp only [hlt,hend,and_true]
      · obtain ⟨hpad,hfits⟩ := hstop.resolve_left hend
        have hgt : ¬q+2+(m.byte (q+1)).toNat≤limit := hfits
        rw [if_neg fun hboth => hend hboth.2.2,findReads,if_neg (by omega),if_neg hend,if_neg hpad]
        by_cases hshort : q+2>limit
        · rw [if_pos hshort]
          refine ⟨fun a ha => ?_,rfl⟩
          rw [List.mem_singleton.mp ha]
          exact hlt
        · rw [if_neg hshort,if_pos (by omega)]
          refine ⟨fun a ha => ?_,rfl⟩
          rcases List.mem_cons.mp ha with rfl | ha
          · exact hlt
          · rw [List.mem_singleton.mp ha]
            omega
  | @pad p q options hlt hpad hseq ih =>
    obtain ⟨hreads,hresult⟩ := ih hstop (by omega) hother
    rw [findReads,if_neg (by omega),hpad,if_neg (by decide),if_pos rfl]
    refine ⟨fun a ha => ?_,hresult⟩
    rcases List.mem_cons.mp ha with rfl | ha
    · exact hlt
    · exact hreads a ha
  | @option p q options hpad hend hfits hseq ih =>
    have hle : p+2+(m.byte (p+1)).toNat≤limit := hfits
    rw [findReads_option hpad hend hfits]
    by_cases hfound : Matches m opt minsize p
    · have hopt : opt≠optionEnd := fun heq => hend (hfound.1.trans heq)
      rw [if_pos hfound,expected,if_neg hopt,List.find?_cons,decide_eq_true hfound]
      refine ⟨fun a ha => ?_,rfl⟩
      rcases List.mem_cons.mp ha with rfl | ha
      · omega
      · rw [List.mem_singleton.mp ha]
        omega
    · obtain ⟨hreads,hresult⟩ := ih hstop (by omega) fun hboth => hother ⟨hboth.1,fun o ho => by
        rcases List.mem_cons.mp ho with rfl | ho
        · exact hfound
        · exact hboth.2 o ho⟩
      rw [if_neg hfound,expected_cons hfound]
      refine ⟨fun a ha => ?_,hresult⟩
      rcases List.mem_cons.mp ha with rfl | ha
      · omega
      · rcases List.mem_cons.mp ha with rfl | ha
        · omega
        · exact hreads a ha

/-- The search reads its range only and finds the option in it if and only if the range is not
filled with pads and other options. -/
theorem findsFirst_iff (hp : p≤limit) :
    FindsFirst m p limit opt minsize ↔ ¬RunsOff m p limit opt minsize := by
  constructor
  · rintro ⟨hreads,-⟩ ⟨options,hseq,hnone⟩
    exact absurd (hreads limit (hseq.reads_limit rfl hnone)).2 (lt_irrefl _)
  · intro hother
    obtain ⟨options,q,hseq,hstop⟩ := exists_sequence m hp
    obtain ⟨hreads,hresult⟩ := hseq.finds hstop hp fun hboth =>
      hother ⟨options,hboth.1 ▸ hseq,hboth.2⟩
    exact ⟨fun a ha => ⟨(findReads_le a ha).1,hreads a ha⟩,options,q,hseq,hstop,hresult⟩

/-! ## Requests -/

/-- No option of a sequence is an `OPTION_END`. -/
theorem Sequence.ne_end (h : Sequence m limit p options q) : ∀ o∈options, m.byte o≠optionEnd := by
  induction h with
  | nil => exact nofun
  | pad _ _ _ ih => exact ih
  | option _ hend _ _ ih =>
    intro o ho
    rcases List.mem_cons.mp ho with rfl | ho
    · exact hend
    · exact ih o ho

/-- The options of a sequence fit into the range. -/
theorem Sequence.fits (h : Sequence m limit p options q) : ∀ o∈options, Fits m limit o := by
  induction h with
  | nil => exact nofun
  | pad _ _ _ ih => exact ih
  | option _ _ hfits _ ih =>
    intro o ho
    rcases List.mem_cons.mp ho with rfl | ho
    · exact hfits
    · exact ih o ho

/-- Where one option is looked for in vain without running off the range, another one is
looked for without that as well. -/
theorem not_runsOff_of_none {other : UInt8} {minsize' : ℕ} (hp : p≤limit)
    (h : ¬RunsOff m p limit opt minsize) (hnone : (findReads m p limit opt minsize).2=none) :
    ¬RunsOff m p limit other minsize' := by
  rintro ⟨options,hseq,-⟩
  refine h ⟨options,hseq,fun o ho hmatch => ?_⟩
  have hopt : opt≠optionEnd := fun heq => hseq.ne_end o ho (hmatch.1.trans heq)
  obtain ⟨-,hresult⟩ := hseq.finds (.inl rfl) hp fun hboth => hboth.2 o ho hmatch
  rw [hnone,expected,if_neg hopt] at hresult
  exact List.find?_eq_none.mp hresult.symm o ho (decide_eq_true hmatch)

/-- The value of an overload option that is found lies in the packet. -/
theorem overload_inside {overload : ℕ} (hp : p≤limit)
    (h : ¬RunsOff m p limit optionOverload 1)
    (hfound : (findReads m p limit optionOverload 1).2=some overload) : overload+2 < limit := by
  obtain ⟨-,options,q,hseq,-,hresult⟩ := (findsFirst_iff hp).mpr h
  rw [hfound,expected,if_neg (by decide)] at hresult
  have hmem := List.mem_of_find?_eq_some hresult.symm
  have hmatch : Matches m optionOverload 1 overload :=
    of_decide_eq_true
      (List.find?_some (p := fun o => decide (Matches m optionOverload 1 o)) hresult.symm)
  have hlen := hmatch.2
  have hfits : overload+2+(m.byte (overload+1)).toNat≤limit := hseq.fits overload hmem
  omega

/-- A request is read behind its end if and only if its options fill it and the option that is
looked for is none of them. -/
theorem optionFindReads_lt_iff (hsize : 236 ≤ size) :
    (∀ a∈(optionFindReads m size opt minsize).1, a < size) ↔
      ¬(optionsAt ≤ size ∧ RunsOff m optionsAt size opt minsize) := by
  have hmain : ∀ a∈(findReads m optionsAt size opt minsize).1,
      a∈(optionFindReads m size opt minsize).1 := by
    intro a ha
    simp only [optionFindReads]
    split
    · exact ha
    · split
      · exact List.mem_append_left _ ha
      · split
        · exact List.mem_append_left _ (List.mem_append_left _ ha)
        · exact List.mem_append_left _ (List.mem_append_left _ (List.mem_append_left _ ha))
  constructor
  · rintro hall ⟨hle,options,hseq,hnone⟩
    exact absurd (hall size (hmain size (hseq.reads_limit rfl hnone))) (lt_irrefl _)
  · intro hother
    by_cases hle : optionsAt ≤ size
    · have hrun : ¬RunsOff m optionsAt size opt minsize := fun h => hother ⟨hle,h⟩
      have hreads := ((findsFirst_iff hle).mpr hrun).1
      have h240 : 240 ≤ size := hle
      simp only [optionFindReads]
      split
      · exact fun a ha => (hreads a ha).2
      · rename_i hnone
        have hover := @not_runsOff_of_none _ _ _ _ _ optionOverload 1 hle hrun hnone
        have hover_reads := ((findsFirst_iff hle).mpr hover).1
        split
        · intro a ha
          rcases List.mem_append.mp ha with ha | ha
          · exact (hreads a ha).2
          · exact (hover_reads a ha).2
        · rename_i overload hfound
          have hvalue := overload_inside hle hover hfound
          have hspare : ∀ (spare : Spare) (length : ℕ) (used : Prop) [Decidable used],
              spare.start+length < size →
              ∀ a∈(if used then findReads m spare.start (spare.start+length) opt minsize
                else ([],none)).1, a < size := by
            intro spare length used _ hlt a ha
            split at ha
            · exact (findReads_le a ha).2.trans_lt hlt
            · exact absurd ha List.not_mem_nil
          have hfile := hspare .file 128 (m.byte (overload+2) &&& 1≠0)
            (show 108+128 < size by omega)
          have hsname := hspare .sname 64 (m.byte (overload+2) &&& 2≠0)
            (show 44+64 < size by omega)
          have hbefore : ∀ a∈(findReads m optionsAt size opt minsize).1++
              (findReads m optionsAt size optionOverload 1).1, a < size := by
            intro a ha
            rcases List.mem_append.mp ha with ha | ha
            · exact (hreads a ha).2
            · exact (hover_reads a ha).2
          split
          · intro a ha
            rcases List.mem_append.mp ha with ha | ha
            · exact hbefore a ha
            · rcases List.mem_cons.mp ha with rfl | ha
              · exact hvalue
              · exact hfile a ha
          · intro a ha
            rcases List.mem_append.mp ha with ha | ha
            · rcases List.mem_append.mp ha with ha | ha
              · exact hbefore a ha
              · rcases List.mem_cons.mp ha with rfl | ha
                · exact hvalue
                · exact hfile a ha
            · exact hsname a ha
    · have hempty : ∀ opt minsize, findReads m optionsAt size opt minsize=([],none) := by
        intro opt minsize
        rw [findReads,if_pos (by omega)]
      simp only [optionFindReads,hempty]
      exact fun a ha => absurd ha List.not_mem_nil

/-- What the search is to do in a range, and in a request. -/
def SearchesInside (m : Mess) (p limit : ℕ) (opt : UInt8) (minsize size : ℕ) : Prop :=
  FindsFirst m p limit opt minsize ∧ ∀ a∈(optionFindReads m size opt minsize).1, a < size

/-- `option_find1` reads its range only and finds the first option, and `option_find` reads the
packet only, if and only if neither the range nor the options of the packet are filled with pads
and other options. -/
theorem searchesInside_iff (m : Mess) (p limit : ℕ) (opt : UInt8) (minsize size : ℕ) (hp : p≤limit)
    (hsize : 236 ≤ size) :
    SearchesInside m p limit opt minsize size ↔
      ¬RunsOff m p limit opt minsize ∧ ¬(optionsAt ≤ size ∧ RunsOff m optionsAt size opt minsize) :=
  and_congr (findsFirst_iff hp) (optionFindReads_lt_iff hsize)

/-- A request of 243 bytes whose only option is its message type. -/
def typeOnly : Mess :=
  ⟨300,fun i => if i=240 then 53 else if i=241 then 1 else if i=242 then 1 else 0,[]⟩

theorem typeOnly_sequence : Sequence typeOnly 243 240 [240] 243 :=
  .option (by decide) (by decide) (show 240+2+1≤243 by decide) .nil

/-- In that request the message type is found without a read behind its end. -/
theorem searchesInside_iff_typeOnly :
    SearchesInside typeOnly 240 243 53 1 243 ↔
      ¬RunsOff typeOnly 240 243 53 1 ∧ ¬(optionsAt≤243 ∧ RunsOff typeOnly optionsAt 243 53 1) :=
  searchesInside_iff typeOnly 240 243 53 1 243 (by decide) (by decide)

/-- The search for another option reads the byte behind it. -/
theorem searches_not_always_inside :
    ¬∀ (m : Mess) (p limit : ℕ) (opt : UInt8) (minsize size : ℕ), p≤limit → 236 ≤ size →
      SearchesInside m p limit opt minsize size := by
  intro h
  have hinside := (h typeOnly 240 243 57 2 243 (by decide) (by decide)).1
  have hrun : RunsOff typeOnly 240 243 57 2 :=
    ⟨[240],typeOnly_sequence,fun o ho => by rw [List.mem_singleton.mp ho]; decide⟩
  exact (findsFirst_iff (by decide)).mp hinside hrun

end AndroidPlatform.DhcpOptionReads
