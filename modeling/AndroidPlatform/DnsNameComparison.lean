import AndroidPlatform.DnsNameSpelling

/-!
# Comparing a name with a packet

In compare mode the loop of `extract_name` walks over the labels of the packet and over a string
at once. It goes on after a difference and then only remembers that there was one. It does not
look at the characters of the labels themselves, so that a dot or a control character in a label
is compared like any other.
-/

namespace AndroidPlatform.DnsNameComparison

open DnsPacket DnsSkip DnsNameReading DnsNameSpelling

/-! ## The code -/

/-- The comparison of the characters of a label: the rest of `name`, and `retvalue`. -/
def compareLabel : List UInt8 → List UInt8 → ℕ → List UInt8×ℕ
  | [],cp,retvalue => (cp,retvalue)
  | _::label,[],_ => compareLabel label [] 2
  | c2::label,c1::cp,retvalue =>
    compareLabel label cp (if toLower c1≠toLower c2 then 2 else retvalue)

/-- `else if (*cp != 0 && *cp++ != '.') retvalue = 2`. -/
def compareDot : List UInt8 → ℕ → List UInt8×ℕ
  | [],retvalue => ([],retvalue)
  | c::cp,retvalue => (cp,if c≠46 then 2 else retvalue)

/-- The loop of `extract_name` in compare mode: what it returns, and what it leaves in `*pp`. The
rest of the string `name` is `cp`. -/
def compareLoop (packet : Packet) (extrabytes : ℕ) (name : List UInt8) (p : ℕ) (p1 : Option ℕ)
    (hops : ℕ) (cp : List UInt8) (retvalue : ℕ) : ℕ×Option ℕ :=
  if hlen : checkLen packet p 1=true then
    let l := (packet.bytes p).toNat
    if l=0 then
      if checkLen packet (p+1) extrabytes then
        (if cp≠[] then 2 else retvalue,some (p1.getD (p+1)))
      else (0,none)
    else if 192≤l then
      if checkLen packet (p+1) 1 then
        if 255 < hops+1 then (0,none)
        else
          compareLoop packet extrabytes name (256*(l-192)+(packet.bytes (p+1)).toNat)
            (some (p1.getD (p+2))) (hops+1) cp retvalue
      else (0,none)
    else if 128≤l then (0,none)
    else if 64≤l then (0,none)
    else
      if maxDname≤name.length-cp.length+l+1 then (0,none)
      else if checkLen packet (p+1) l then
        let chars := compareLabel (labelAt packet (p+1) l) cp retvalue
        let dot := compareDot chars.1 chars.2
        compareLoop packet extrabytes name (p+1+l) p1 hops dot.1 dot.2
      else (0,none)
  else (0,none)
termination_by (256-hops)*(packet.len+1)+(packet.len-p)
decreasing_by
  · have hhops : 256-hops=256-(hops+1)+1 := by omega
    have hmul := Nat.add_one_mul (256-(hops+1)) (packet.len+1)
    rw [← hhops] at hmul
    omega
  · have hlt := of_decide_eq_true hlen
    omega

/-- `extract_name` in compare mode. -/
def compareName (packet : Packet) (p extrabytes : ℕ) (name : List UInt8) : ℕ×Option ℕ :=
  compareLoop packet extrabytes name p none 0 name 1

/-! ## Labels and strings -/

theorem compareLabel_fst (label cp : List UInt8) (retvalue : ℕ) :
    (compareLabel label cp retvalue).1=cp.drop label.length := by
  induction label generalizing cp retvalue with
  | nil => rfl
  | cons c2 label ih =>
    cases cp with
    | nil =>
      rw [compareLabel,ih,List.drop_nil,List.drop_nil]
    | cons c1 cp => exact ih cp _

/-- A label is equal so far if the string starts with it up to case. -/
theorem compareLabel_iff (label cp : List UInt8) (retvalue : ℕ) :
    (compareLabel label cp retvalue).2=1 ↔ retvalue=1 ∧
      label.map toLower++(cp.drop label.length).map toLower=cp.map toLower := by
  induction label generalizing cp retvalue with
  | nil => exact ⟨fun h => ⟨h,rfl⟩,fun h => h.1⟩
  | cons c2 label ih =>
    cases cp with
    | nil =>
      rw [compareLabel,ih]
      refine ⟨fun h => absurd h.1 (by decide),fun h => ?_⟩
      cases h.2
    | cons c1 cp =>
      rw [compareLabel,ih]
      simp only [List.map_cons,List.cons_append,List.length_cons,List.drop_succ_cons,
        List.cons.injEq]
      by_cases hc : toLower c1=toLower c2
      · rw [if_neg (not_not.mpr hc)]
        exact ⟨fun h => ⟨h.1,hc.symm,h.2⟩,fun h => ⟨h.1,h.2.2⟩⟩
      · rw [if_pos hc]
        exact ⟨fun h => absurd h.1 (by decide),fun h => absurd h.2.1.symm hc⟩

theorem compareDot_iff (cp : List UInt8) (retvalue : ℕ) :
    (compareDot cp retvalue).2=1 ↔
      retvalue=1 ∧ (cp=[] ∨ cp=46::(compareDot cp retvalue).1) := by
  cases cp with
  | nil => exact ⟨fun h => ⟨h,Or.inl rfl⟩,fun h => h.1⟩
  | cons c cp =>
    simp only [compareDot,List.cons.injEq,and_true]
    by_cases hc : c=46
    · rw [if_neg (not_not.mpr hc)]
      exact ⟨fun h => ⟨h,Or.inr hc⟩,fun h => h.1⟩
    · rw [if_pos hc]
      refine ⟨fun h => absurd h (by decide),fun h => ?_⟩
      rcases h.2 with hnil | hdot
      · cases hnil
      · exact absurd hdot hc

theorem compareDot_fst (cp : List UInt8) (retvalue : ℕ) :
    (compareDot cp retvalue).1=cp.drop 1 := by
  cases cp with
  | nil => rfl
  | cons c cp => rfl

theorem toLower_dot {c : UInt8} : toLower c=46 ↔ c=46 := by
  rw [toLower]
  constructor
  · intro h
    split_ifs at h with hupper
    · obtain ⟨hlow,hhigh⟩ := hupper
      rw [UInt8.le_iff_toNat_le] at hlow hhigh
      have hsum := congrArg UInt8.toNat h
      rw [UInt8.toNat_add] at hsum
      have h65 : (65 : UInt8).toNat=65 := rfl
      have h90 : (90 : UInt8).toNat=90 := rfl
      have h32 : (32 : UInt8).toNat=32 := rfl
      have h46 : (46 : UInt8).toNat=46 := rfl
      omega
    · exact h
  · rintro rfl
    decide

/-- The string is the text of the labels, up to case and to a dot at its end. -/
def Agrees (labels : List (List UInt8)) (cp : List UInt8) : Prop :=
  (dotted labels).map toLower=cp.map toLower++[46] ∨ (dotted labels).map toLower=cp.map toLower

variable {packet : Packet} {extrabytes p hops stop : ℕ} {labels : List (List UInt8)}

/-- A name is empty or has a character and a dot. -/
theorem Spelled.two_le_dotted (h : Spelled packet p hops labels stop) :
    labels=[] ∨ 2≤(dotted labels).length := by
  induction h with
  | root hp hl => exact Or.inl rfl
  | label hpos hl hfits rest ih =>
    right
    rw [length_dotted_cons,length_labelAt]
    omega
  | pointer hp hl hhops rest ih => exact ih

theorem map_dotted_cons (label : List UInt8) (labels : List (List UInt8)) :
    (dotted (label::labels)).map toLower=
      label.map toLower++46::(dotted labels).map toLower := by
  rw [dotted_cons,List.map_append,List.map_cons]
  rfl

/-- What is left of a string behind its first characters, if all are those of a label, a dot and
a text, or a dot less. -/
theorem agrees_split {label cp tail : List UInt8}
    (h : label.map toLower++46::tail=cp.map toLower++[46] ∨
      label.map toLower++46::tail=cp.map toLower) :
    label.map toLower++(cp.drop label.length).map toLower=cp.map toLower ∧
      (46::tail=(cp.drop label.length).map toLower++[46] ∨
        46::tail=(cp.drop label.length).map toLower) := by
  have hcp : cp.map toLower=
      (cp.take label.length).map toLower++(cp.drop label.length).map toLower := by
    rw [←List.map_append,List.take_append_drop]
  have hlen : label.length≤cp.length := by
    rcases h with h | h
    · have := congrArg List.length h
      simp only [List.length_append,List.length_map,List.length_cons,List.length_nil] at this
      omega
    · have := congrArg List.length h
      simp only [List.length_append,List.length_map,List.length_cons] at this
      omega
  have hsame : (label.map toLower).length=((cp.take label.length).map toLower).length := by
    rw [List.length_map,List.length_map,List.length_take,Nat.min_eq_left hlen]
  rw [hcp]
  rcases h with h | h
  · rw [hcp,List.append_assoc] at h
    obtain ⟨htake,hdrop⟩ := List.append_inj h hsame
    exact ⟨by rw [htake],Or.inl hdrop⟩
  · rw [hcp] at h
    obtain ⟨htake,hdrop⟩ := List.append_inj h hsame
    exact ⟨by rw [htake],Or.inr hdrop⟩

/-- A string agrees with labels if it starts with the first one, has a dot or nothing behind it,
and the rest agrees with the others. -/
theorem agrees_cons {label cp : List UInt8} (hlabels : labels=[] ∨ 2≤(dotted labels).length) :
    Agrees (label::labels) cp ↔
      label.map toLower++(cp.drop label.length).map toLower=cp.map toLower ∧
        (cp.drop label.length=[] ∨
          cp.drop label.length=46::(cp.drop label.length).drop 1) ∧
        Agrees labels ((cp.drop label.length).drop 1) := by
  rw [Agrees,map_dotted_cons]
  constructor
  · intro h
    obtain ⟨hhead,hrest⟩ := agrees_split h
    refine ⟨hhead,?_⟩
    generalize cp.drop label.length=rest at hrest
    cases rest with
    | nil =>
      refine ⟨Or.inl rfl,Or.inr ?_⟩
      rcases hrest with hrest | hrest
      · exact (List.cons.inj hrest).2
      · cases hrest
    | cons c rest =>
      rcases hrest with hrest | hrest
      · obtain ⟨hc,htail⟩ := List.cons.inj hrest
        exact ⟨Or.inr (by rw [toLower_dot.mp hc.symm]; rfl),Or.inl htail⟩
      · obtain ⟨hc,htail⟩ := List.cons.inj hrest
        exact ⟨Or.inr (by rw [toLower_dot.mp hc.symm]; rfl),Or.inr htail⟩
  · rintro ⟨hhead,hdot,hrest⟩
    rw [←hhead]
    rcases hdot with hnil | hdot
    · rw [hnil] at hrest ⊢
      left
      have hzero : dotted labels=[] := by
        rcases hlabels with rfl | htwo
        · rfl
        · rcases hrest with hrest | hrest
          · have := congrArg List.length hrest
            rw [List.length_map] at this
            simp only [List.drop_nil,List.map_nil,List.nil_append,List.length_singleton] at this
            omega
          · have := congrArg List.length hrest
            rw [List.length_map] at this
            simp only [List.drop_nil,List.map_nil,List.length_nil] at this
            omega
      rw [hzero,List.map_nil,List.append_nil]
    · generalize (cp.drop label.length).drop 1=rest at hdot hrest
      rw [hdot,List.map_cons,toLower_dot.mpr rfl]
      rcases hrest with hrest | hrest
      · left
        rw [hrest,List.append_assoc]
        rfl
      · right
        rw [hrest]

/-- Where the loop returns zero there is no name. -/
theorem compare_refused {name cp : List UInt8} {retvalue : ℕ}
    (h : ∀ labels stop, Spelled packet p hops labels stop → stop+extrabytes≤packet.len →
      name.length-cp.length+(dotted labels).length < maxDname → False) :
    ((0,none) : ℕ×Option ℕ).1=1 ↔
      retvalue=1 ∧ ∃ labels stop, Spelled packet p hops labels stop ∧
        stop+extrabytes≤packet.len ∧
        name.length-cp.length+(dotted labels).length < maxDname ∧ Agrees labels cp := by
  refine ⟨fun h => absurd h (by decide),?_⟩
  rintro ⟨-,labels,stop,hspelled,hroom,hlen,-⟩
  exact (h labels stop hspelled hroom hlen).elim

/-- Compare mode returns one for the strings that agree with the name, if that fits into the
buffer. -/
theorem compareLoop_iff {name cp : List UInt8} {p1 : Option ℕ} {retvalue : ℕ}
    (hle : cp.length≤name.length) (hcp : name.length-cp.length < maxDname) :
    (compareLoop packet extrabytes name p p1 hops cp retvalue).1=1 ↔
      retvalue=1 ∧ ∃ labels stop, Spelled packet p hops labels stop ∧
        stop+extrabytes≤packet.len ∧
        name.length-cp.length+(dotted labels).length < maxDname ∧ Agrees labels cp := by
  fun_induction compareLoop packet extrabytes name p p1 hops cp retvalue with
  | case1 p p1 hops cp retvalue hlen l hl hroom =>
    constructor
    · intro h
      have hnil : cp=[] := by
        by_contra hne
        rw [if_pos hne] at h
        cases h
      rw [hnil] at h hcp ⊢
      exact ⟨h,[],_,.root (checkLen_iff.mp hlen) hl,checkLen_iff.mp hroom,hcp,Or.inr rfl⟩
    · rintro ⟨hone,labels,stop,hspelled,-,-,hagrees⟩
      have hnil : cp=[] := by
        cases hspelled with
        | root hp hl' =>
          rcases hagrees with hagrees | hagrees
          · cases hempty : cp.map toLower with
            | nil => rw [hempty] at hagrees; cases hagrees
            | cons c rest => rw [hempty] at hagrees; cases hagrees
          · exact List.map_eq_nil_iff.mp hagrees.symm
        | label hpos hl' hfits rest => omega
        | pointer hp hl' hhops rest => omega
      rw [if_neg (not_not.mpr hnil)]
      exact hone
  | case2 p p1 hops cp retvalue hlen l hl hroom =>
    refine compare_refused fun labels stop hspelled hstop _ => hroom (checkLen_iff.mpr ?_)
    cases hspelled with
    | root hp hl' => exact hstop
    | label hpos hl' hfits rest => omega
    | pointer hp hl' hhops rest => omega
  | case3 p p1 hops cp retvalue hlen l hl hpointer hsecond hhops =>
    refine compare_refused fun labels stop hspelled hstop _ => ?_
    cases hspelled with
    | root hp hl' => omega
    | label hpos hl' hfits rest => omega
    | pointer hp hl' hhops' rest => omega
  | case4 p p1 hops cp retvalue hlen l hl hpointer hsecond hhops ih =>
    rw [ih hle hcp]
    have hboth : ∀ labels stop, Spelled packet p hops labels stop ↔
        Spelled packet (256*(l-192)+(packet.bytes (p+1)).toNat) (hops+1) labels stop := by
      intro labels stop
      constructor
      · intro hspelled
        cases hspelled with
        | root hp hl' => omega
        | label hpos hl' hfits rest => omega
        | pointer hp hl' hhops' rest => exact rest
      · exact .pointer (checkLen_iff.mp hsecond) hpointer (by omega)
    simp only [hboth]
  | case5 p p1 hops cp retvalue hlen l hl hpointer hsecond =>
    refine compare_refused fun labels stop hspelled hstop _ => hsecond (checkLen_iff.mpr ?_)
    cases hspelled with
    | root hp hl' => omega
    | label hpos hl' hfits rest => omega
    | pointer hp hl' hhops' rest => exact hp
  | case6 p p1 hops cp retvalue hlen l hl hpointer hreserved =>
    refine compare_refused fun labels stop hspelled hstop _ => ?_
    cases hspelled with
    | root hp hl' => omega
    | label hpos hl' hfits rest => omega
    | pointer hp hl' hhops' rest => omega
  | case7 p p1 hops cp retvalue hlen l hl hpointer hreserved hextended =>
    refine compare_refused fun labels stop hspelled hstop _ => ?_
    cases hspelled with
    | root hp hl' => omega
    | label hpos hl' hfits rest => omega
    | pointer hp hl' hhops' rest => omega
  | case8 p p1 hops cp retvalue hlen l hl hpointer hreserved hextended hlong =>
    refine compare_refused fun labels stop hspelled hstop hfitsName => ?_
    cases hspelled with
    | root hp hl' => omega
    | label hpos hl' hfits rest =>
      rw [length_dotted_cons,length_labelAt] at hfitsName
      omega
    | pointer hp hl' hhops' rest => omega
  | case9 p p1 hops cp retvalue hlen l hl hpointer hreserved hextended hlong hfits chars dot ih =>
    have hrest : dot.1=(cp.drop (labelAt packet (p+1) l).length).drop 1 := by
      rw [show dot.1=_ from compareDot_fst _ _,show chars.1=_ from compareLabel_fst _ _ _]
    have hdotLen : dot.1.length=cp.length-l-1 := by
      rw [hrest,List.length_drop,List.length_drop,length_labelAt]
    have hle' : dot.1.length≤name.length := by clear ih; omega
    have hcp' : name.length-dot.1.length < maxDname := by clear ih; omega
    rw [ih hle' hcp',show dot.2=1 ↔ _ from compareDot_iff _ _,
      show chars.2=1 ↔ _ from compareLabel_iff _ _ _,
      show (compareDot chars.1 chars.2).1=dot.1 from rfl,show chars.1=_ from compareLabel_fst _ _ _,
      hrest]
    clear ih
    constructor
    · rintro ⟨⟨⟨hone,hhead⟩,hdot⟩,labels,stop,hspelled,hroom,hlen',hagrees⟩
      have hcons := (agrees_cons (Spelled.two_le_dotted hspelled)).mpr ⟨hhead,hdot,hagrees⟩
      refine ⟨hone,_,stop,.label (by omega) (by omega) (checkLen_iff.mp hfits) hspelled,hroom,?_,
        hcons⟩
      have hheadLen := congrArg List.length hhead
      simp only [List.length_append,List.length_map,List.length_drop,length_labelAt] at hheadLen
      rw [length_dotted_cons,length_labelAt]
      rw [List.length_drop,List.length_drop,length_labelAt] at hlen'
      rcases hdot with hnil | hdot
      · rw [hnil] at hagrees
        have hzero : (dotted labels).length=0 := by
          rcases Spelled.two_le_dotted hspelled with rfl | htwo
          · rfl
          · rcases hagrees with hagrees | hagrees
            · have := congrArg List.length hagrees
              simp only [List.length_append,List.length_map,List.drop_nil,List.length_nil,
                List.length_singleton] at this
              omega
            · have := congrArg List.length hagrees
              simp only [List.length_map,List.drop_nil,List.length_nil] at this
              omega
        omega
      · have hdotLen' := congrArg List.length hdot
        simp only [List.length_drop,List.length_cons,length_labelAt] at hdotLen'
        omega
    · rintro ⟨hone,labels,stop,hspelled,hroom,hlen',hagrees⟩
      cases hspelled with
      | root hp hl' => omega
      | pointer hp hl' hhops rest => omega
      | @label _ _ _ labels hpos hl' hfits' rest =>
        obtain ⟨hhead,hdot,hagrees'⟩ :=
          (agrees_cons (Spelled.two_le_dotted rest)).mp hagrees
        refine ⟨⟨⟨hone,hhead⟩,hdot⟩,labels,stop,rest,hroom,?_,hagrees'⟩
        rw [length_dotted_cons,length_labelAt] at hlen'
        rw [List.length_drop,List.length_drop,length_labelAt]
        omega
  | case10 p p1 hops cp retvalue hlen l hl hpointer hreserved hextended hlong hfits =>
    refine compare_refused fun labels stop hspelled hstop _ => hfits (checkLen_iff.mpr ?_)
    cases hspelled with
    | root hp hl' => omega
    | label hpos hl' hfits' rest => exact hfits'
    | pointer hp hl' hhops' rest => omega
  | case11 p p1 hops cp retvalue hlen =>
    refine compare_refused fun labels stop hspelled hstop _ => hlen (checkLen_iff.mpr ?_)
    cases hspelled with
    | root hp hl' => omega
    | label hpos hl' hfits' rest => omega
    | pointer hp hl' hhops' rest => omega

/-- A string without a dot at its end agrees with labels if it is their text up to case. -/
theorem agrees_iff {name : List UInt8} (hdot : name.getLast?≠some 46) :
    Agrees labels name ↔ (spelling labels).map toLower=name.map toLower := by
  by_cases hlabels : labels=[]
  · rw [hlabels,Agrees]
    simp only [spelling,dotted,List.flatMap_nil,List.dropLast_nil,List.map_nil]
    refine ⟨fun h => ?_,Or.inr⟩
    rcases h with h | h
    · exact absurd (congrArg List.length h) (by
        rw [List.length_append,List.length_nil,List.length_singleton]; omega)
    · exact h
  · rw [Agrees,dotted_eq hlabels,List.map_append,List.map_singleton,toLower_dot.mpr rfl]
    constructor
    · intro h
      rcases h with h | h
      · exact List.append_cancel_right h
      · have hlast := congrArg List.getLast? h
        rw [List.getLast?_concat,List.getLast?_map] at hlast
        obtain ⟨c,hc,hlower⟩ := Option.map_eq_some_iff.mp hlast.symm
        rw [toLower_dot.mp hlower] at hc
        exact absurd hc hdot
    · intro h
      exact Or.inl (by rw [h])

/-- Compare mode returns one for the names whose text is the string up to case. -/
theorem compareName_iff {name : List UInt8} (hdot : name.getLast?≠some 46) :
    (compareName packet p extrabytes name).1=1 ↔
      ∃ labels stop, Spelled packet p 0 labels stop ∧ stop+extrabytes≤packet.len ∧
        (dotted labels).length < maxDname ∧ (spelling labels).map toLower=name.map toLower := by
  rw [compareName,compareLoop_iff le_rfl (by rw [Nat.sub_self]; decide),Nat.sub_self]
  simp only [Nat.zero_add,true_and,agrees_iff hdot]

/-- Compare mode agrees with extract mode. -/
def ComparesRight (packet : Packet) (p extrabytes : ℕ) (name : List UInt8) : Prop :=
  (compareName packet p extrabytes name).1=1 ↔
    ∃ text q, extractName packet p extrabytes=some (text,q) ∧
      text.map toLower=name.map toLower

/-- Where no bit-string label is met, compare mode agrees with extract mode on a string without a
dot at its end if and only if the name, where its text is that string up to case, has allowed
characters only. -/
theorem compareName_right_iff {packet : Packet} {p extrabytes : ℕ} {name : List UInt8}
    (hbits : NoBits packet p) (hdot : name.getLast?≠some 46) :
    ComparesRight packet p extrabytes name ↔
      ∀ labels stop, Spelled packet p 0 labels stop → stop+extrabytes≤packet.len →
        (dotted labels).length < maxDname → (spelling labels).map toLower=name.map toLower →
          AllowedChars labels := by
  rw [ComparesRight,compareName_iff hdot]
  constructor
  · intro h labels stop hspelled hroom hlen hname
    obtain ⟨text,q,hextract,-⟩ := h.mp ⟨labels,stop,hspelled,hroom,hlen,hname⟩
    obtain ⟨labels',stop',hspelled',-,hallowed,-⟩ := (extractName_iff hbits).mp ⟨q,hextract⟩
    rw [(hspelled.unique hspelled').1]
    exact hallowed
  · intro h
    constructor
    · rintro ⟨labels,stop,hspelled,hroom,hlen,hname⟩
      obtain ⟨q,hextract⟩ := (@extractName_iff packet extrabytes p hbits (spelling labels)).mpr
        ⟨labels,stop,hspelled,hroom,h labels stop hspelled hroom hlen hname,hlen,rfl⟩
      exact ⟨_,q,hextract,hname⟩
    · rintro ⟨text,q,hextract,hname⟩
      obtain ⟨labels,stop,hspelled,hroom,-,hlen,rfl⟩ := (extractName_iff hbits).mp ⟨q,hextract⟩
      exact ⟨labels,stop,hspelled,hroom,hlen,hname⟩

/-- A header, and the name `a.b` in two labels. -/
def twoLabels : Packet := packetOf [0,0,1,0,0,1,0,0,0,0,0,0,1,97,1,98,0]

/-- The name `a.b` is compared with `A.b` as it is extracted. -/
theorem compareName_right_iff_twoLabels : ComparesRight twoLabels 12 0 [65,46,98] := by
  have hspelled : Spelled twoLabels 12 0 [[97],[98]] 17 :=
    .label (by decide) (by decide) (by decide)
      (.label (by decide) (by decide) (by decide) (.root (by decide) (by decide)))
  refine (compareName_right_iff (noBits_of_bytes (by decide) 12) (by decide)).mpr
    fun labels stop h _ _ _ => ?_
  rw [(h.unique hspelled).1,AllowedChars]
  decide

/-- A header, and a name of one label of the three characters `a.b`. -/
def dotLabel : Packet := packetOf [0,0,1,0,0,1,0,0,0,0,0,0,3,97,46,98,0]

/-- The label with a dot in it is found equal to a string that extract mode never returns. -/
theorem compareName_not_right :
    ¬∀ (packet : Packet) (p extrabytes : ℕ) (name : List UInt8), NoBits packet p →
      name.getLast?≠some 46 → ComparesRight packet p extrabytes name := by
  intro h
  have hbits := @noBits_of_bytes dotLabel (by decide) 12
  have hspelled : Spelled dotLabel 12 0 [[97,46,98]] 17 :=
    .label (by decide) (by decide) (by decide) (.root (by decide) (by decide))
  have hone := (@compareName_iff dotLabel 0 12 [97,46,98] (by decide)).mpr
    ⟨_,_,hspelled,by decide,by decide,by decide⟩
  obtain ⟨text,q,hextract,-⟩ := (h dotLabel 12 0 [97,46,98] hbits (by decide)).mp hone
  obtain ⟨labels,stop,hspelled',-,hallowed,-⟩ := (extractName_iff hbits).mp ⟨q,hextract⟩
  rw [←(hspelled.unique hspelled').1,AllowedChars] at hallowed
  exact absurd hallowed (by decide)

end AndroidPlatform.DnsNameComparison
