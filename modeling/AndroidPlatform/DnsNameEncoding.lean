import AndroidPlatform.DnsNameSpelling

/-!
# Names from configuration to the wire

`check_name` accepts a string for its characters and for the gaps between its dots, and
`do_rfc1035_name` writes a length byte and the characters for every part between dots. A part
without characters becomes the zero byte that ends a name, and a string may be longer than what
`extract_name` has room for.
-/

namespace AndroidPlatform.DnsNameEncoding

open DnsPacket DnsSkip DnsNameReading DnsNameSpelling

/-! ## The code -/

/-- `MAXLABEL` -/
def maxLabel : ℕ := 63

/-- The loop of `check_name`, with `dotgap` and `nowhite`. -/
def checkChars : List UInt8 → ℕ → Bool → Bool
  | [],_,nowhite => nowhite
  | c::rest,dotgap,nowhite =>
    if c=46 then checkChars rest 0 nowhite
    else if maxLabel < dotgap+1 then false
    else if c<32 ∨ c=127 then false
    else if 128≤c then false
    else checkChars rest (dotgap+1) (if c≠32 then true else nowhite)

/-- `check_name`: the string without a dot at its end, if it is accepted. -/
def checkName (s : List UInt8) : Option (List UInt8) :=
  if s.length=0 ∨ maxDname < s.length then none
  else if s.getLast?=some 46 then
    if s.length=1 then none
    else if checkChars s.dropLast 0 false then some s.dropLast else none
  else if checkChars s 0 false then some s else none

/-- `canonicalise` without IDNA: a copy of the string that `check_name` leaves. -/
def canonicalise (s : List UInt8) : Option (List UInt8) := checkName s

/-- The characters of a string up to its first dot. -/
def firstPart (s : List UInt8) : List UInt8 := s.takeWhile (·≠46)

/-- The characters behind the first dot. -/
def afterDot (s : List UInt8) : List UInt8 := (s.dropWhile (·≠46)).drop 1

theorem length_afterDot_lt {s : List UInt8} (h : s≠[]) : (afterDot s).length < s.length := by
  have hpos := List.length_pos_iff.mpr h
  have hle := (List.dropWhile_sublist (·≠46) (l := s)).length_le
  rw [afterDot,List.length_drop]
  omega

/-- `do_rfc1035_name`: the bytes that it writes. -/
def doRfc1035Name (sval : List UInt8) : List UInt8 :=
  if hnil : sval=[] then []
  else .ofNat (firstPart sval).length::firstPart sval++doRfc1035Name (afterDot sval)
termination_by sval.length
decreasing_by exact length_afterDot_lt hnil

/-! ## Parts of a string -/

/-- The labels up to the first part without characters. -/
def wireLabels (sval : List UInt8) : List (List UInt8) :=
  if hnil : sval=[] then []
  else if firstPart sval=[] then [] else firstPart sval::wireLabels (afterDot sval)
termination_by sval.length
decreasing_by exact length_afterDot_lt hnil

theorem not_mem_firstPart (s : List UInt8) : 46∉firstPart s := by
  intro hmem
  have hall := List.all_eq_true.mp (@List.all_takeWhile UInt8 (·≠46) s) 46 hmem
  simp at hall

/-- A string is its first part, or has a dot and the rest behind it. -/
theorem eq_firstPart (s : List UInt8) :
    s=firstPart s ∧ afterDot s=[] ∨ s=firstPart s++46::afterDot s := by
  have hsplit := @List.takeWhile_append_dropWhile UInt8 (·≠46) s
  rw [firstPart,afterDot]
  cases hrest : s.dropWhile (·≠46) with
  | nil =>
    rw [hrest,List.append_nil] at hsplit
    exact Or.inl ⟨hsplit.symm,rfl⟩
  | cons c rest =>
    have hdot : c=46 := by
      have hhead := @List.head?_dropWhile_not UInt8 (·≠46) s
      rw [hrest] at hhead
      simpa using hhead
    rw [hrest,hdot] at hsplit
    exact Or.inr hsplit.symm

/-- The parts of a string between its dots. -/
abbrev parts (s : List UInt8) : List (List UInt8) := s.splitOn 46

theorem parts_eq (s : List UInt8) :
    s=firstPart s ∧ afterDot s=[] ∧ parts s=[firstPart s] ∨
      s=firstPart s++46::afterDot s ∧ parts s=firstPart s::parts (afterDot s) := by
  rcases eq_firstPart s with ⟨hs,hafter⟩ | hs
  · refine Or.inl ⟨hs,hafter,?_⟩
    have hparts := List.splitOn_eq_singleton (not_mem_firstPart s)
    rw [←hs] at hparts ⊢
    exact hparts
  · refine Or.inr ⟨hs,?_⟩
    have hparts := List.splitOn_append_cons_self_of_not_mem (not_mem_firstPart s) (afterDot s)
    rw [←hs] at hparts
    exact hparts

/-- If every part has characters, the labels are the parts. -/
theorem wireLabels_eq {s : List UInt8} (h : []∉parts s) : wireLabels s=parts s := by
  induction s using wireLabels.induct with
  | case1 => exact absurd List.mem_cons_self h
  | case2 s hnil hfirst =>
    rcases parts_eq s with ⟨-,-,hparts⟩ | ⟨-,hparts⟩
    · rw [hparts,hfirst] at h
      exact absurd List.mem_cons_self h
    · rw [hparts,hfirst] at h
      exact absurd List.mem_cons_self h
  | case3 s hnil hfirst ih =>
    rw [wireLabels,dif_neg hnil,if_neg hfirst]
    rcases parts_eq s with ⟨-,hafter,hparts⟩ | ⟨-,hparts⟩
    · rw [hparts,hafter,wireLabels]
      rfl
    · rw [hparts] at h ⊢
      rw [ih fun hmem => h (List.mem_cons_of_mem _ hmem)]

/-- The labels have characters and no dots. -/
theorem wireLabels_chars (s : List UInt8) : ∀ label∈wireLabels s, label≠[] ∧ 46∉label := by
  induction s using wireLabels.induct with
  | case1 => rw [wireLabels]; exact nofun
  | case2 s hnil hfirst => rw [wireLabels,dif_neg hnil,if_pos hfirst]; exact nofun
  | case3 s hnil hfirst ih =>
    rw [wireLabels,dif_neg hnil,if_neg hfirst]
    intro label hlabel
    rcases List.mem_cons.mp hlabel with rfl | hlabel
    · exact ⟨hfirst,not_mem_firstPart s⟩
    · exact ih label hlabel

/-- The labels are among the parts. -/
theorem wireLabels_subset (s : List UInt8) : ∀ label∈wireLabels s, label∈parts s := by
  induction s using wireLabels.induct with
  | case1 => rw [wireLabels]; exact nofun
  | case2 s hnil hfirst => rw [wireLabels,dif_neg hnil,if_pos hfirst]; exact nofun
  | case3 s hnil hfirst ih =>
    rw [wireLabels,dif_neg hnil,if_neg hfirst]
    intro label hlabel
    rcases parts_eq s with ⟨-,hafter,hparts⟩ | ⟨-,hparts⟩
    · rw [hparts]
      rcases List.mem_cons.mp hlabel with rfl | hlabel
      · exact List.mem_cons_self
      · rw [hafter,wireLabels] at hlabel
        cases hlabel
    · rw [hparts]
      rcases List.mem_cons.mp hlabel with rfl | hlabel
      · exact List.mem_cons_self
      · exact List.mem_cons_of_mem _ (ih label hlabel)

theorem spelling_eq_intercalate (labels : List (List UInt8)) :
    spelling labels=[46].intercalate labels := by
  induction labels with
  | nil => rfl
  | cons label labels ih =>
    cases labels with
    | nil =>
      rw [spelling,dotted_cons,dotted,List.flatMap_nil,List.intercalate_singleton]
      exact List.dropLast_concat
    | cons next labels =>
      rw [List.intercalate_cons_cons,←ih,spelling,dotted_cons,spelling,
        dotted_eq (List.cons_ne_nil next labels),←List.cons_append,←List.append_assoc,
        List.dropLast_concat,List.dropLast_concat,List.append_assoc]
      rfl

/-! ## Accepted strings -/

/-- A part of an accepted string is short, and its characters are allowed. -/
def GoodPart (part : List UInt8) : Prop := part.length ≤ maxLabel ∧ part.all labelChar=true

theorem labelChar_of_checks {c : UInt8} (hdot : c≠46) (hcontrol : ¬(c<32 ∨ c=127))
    (hascii : ¬128≤c) : labelChar c=true := by
  rw [not_or] at hcontrol
  obtain ⟨hlow,hdel⟩ := hcontrol
  rw [UInt8.lt_iff_toNat_lt] at hlow
  rw [UInt8.le_iff_toNat_le] at hascii
  rw [←UInt8.toNat_inj] at hdel
  have h32 : (32 : UInt8).toNat=32 := rfl
  have h127 : (127 : UInt8).toNat=127 := rfl
  have h128 : (128 : UInt8).toNat=128 := rfl
  have hge : (32 : UInt8)≤c := by rw [UInt8.le_iff_toNat_le]; omega
  have hlt : c<127 := by rw [UInt8.lt_iff_toNat_lt]; omega
  rw [labelChar,decide_eq_true hge,decide_eq_true hlt,decide_eq_true hdot]
  rfl

/-- What the loop of `check_name` accepts, with so many characters before it in its part. -/
theorem checkChars_parts {s : List UInt8} {dotgap : ℕ} {nowhite : Bool}
    (h : checkChars s dotgap nowhite=true) (hgap : dotgap ≤ maxLabel) :
    ∃ first rest, parts s=first::rest ∧ dotgap+first.length ≤ maxLabel ∧
      first.all labelChar=true ∧ ∀ part∈rest, GoodPart part := by
  induction s generalizing dotgap nowhite with
  | nil => exact ⟨[],[],rfl,hgap,rfl,nofun⟩
  | cons c s ih =>
    rw [checkChars] at h
    rw [parts,List.splitOn_cons_eq_if_modifyHead]
    by_cases hdot : c=46
    · rw [if_pos hdot] at h
      rw [if_pos (beq_iff_eq.mpr hdot)]
      obtain ⟨first,rest,hparts,hlen,hchars,hrest⟩ := ih h (Nat.zero_le _)
      refine ⟨[],_,rfl,hgap,rfl,?_⟩
      rw [show s.splitOn 46=_ from hparts]
      intro part hpart
      rcases List.mem_cons.mp hpart with rfl | hpart
      · exact ⟨by omega,hchars⟩
      · exact hrest part hpart
    · rw [if_neg hdot] at h
      rw [if_neg (by rw [beq_iff_eq]; exact hdot)]
      have hlong : ¬maxLabel < dotgap+1 := fun hlong => by rw [if_pos hlong] at h; cases h
      rw [if_neg hlong] at h
      have hcontrol : ¬(c<32 ∨ c=127) := fun hcontrol => by rw [if_pos hcontrol] at h; cases h
      rw [if_neg hcontrol] at h
      have hascii : ¬128≤c := fun hascii => by rw [if_pos hascii] at h; cases h
      rw [if_neg hascii] at h
      obtain ⟨first,rest,hparts,hlen,hchars,hrest⟩ := ih h (by omega)
      rw [show s.splitOn 46=_ from hparts]
      refine ⟨c::first,rest,rfl,by rw [List.length_cons]; omega,?_,hrest⟩
      rw [List.all_cons,labelChar_of_checks hdot hcontrol hascii,hchars]
      rfl

/-- `check_name` accepts strings of good parts. -/
theorem checkName_parts {input s : List UInt8} (h : checkName input=some s) :
    s≠[] ∧ ∀ part∈parts s, GoodPart part := by
  have hloop : checkChars s 0 false=true := by
    rw [checkName] at h
    split_ifs at h with hlen hdot hone hcheck hcheck
    · cases h
      exact hcheck
    · cases h
      exact hcheck
  refine ⟨fun hnil => ?_,fun part hpart => ?_⟩
  · rw [hnil] at hloop
    cases hloop
  · obtain ⟨first,rest,hparts,hlen,hchars,hrest⟩ := checkChars_parts hloop (Nat.zero_le _)
    rw [hparts] at hpart
    rcases List.mem_cons.mp hpart with rfl | hpart
    · exact ⟨by omega,hchars⟩
    · exact hrest part hpart

/-! ## The name in a packet -/

variable {packet : Packet} {p : ℕ}

/-- The bytes stand in the packet from a position on. -/
def Holds (packet : Packet) (p : ℕ) (bytes : List UInt8) : Prop :=
  p+bytes.length≤packet.len ∧ ∀ i, i<bytes.length → bytes[i]?=some (packet.bytes (p+i))

theorem Holds.append {first second : List UInt8} (h : Holds packet p (first++second)) :
    Holds packet p first ∧ Holds packet (p+first.length) second := by
  obtain ⟨hlen,hbytes⟩ := h
  rw [List.length_append] at hlen hbytes
  refine ⟨⟨by omega,fun i hi => ?_⟩,⟨by omega,fun i hi => ?_⟩⟩
  · rw [←hbytes i (by omega),List.getElem?_append_left hi]
  · rw [Nat.add_assoc,←hbytes (first.length+i) (by omega),
      List.getElem?_append_right (Nat.le_add_right _ _),Nat.add_sub_cancel_left]

theorem Holds.head {c : UInt8} {rest : List UInt8} (h : Holds packet p (c::rest)) :
    packet.bytes p=c ∧ p<packet.len := by
  obtain ⟨hlen,hbytes⟩ := h
  rw [List.length_cons] at hlen hbytes
  exact ⟨(Option.some.inj (hbytes 0 (by omega))).symm,by omega⟩

theorem Holds.labelAt_eq {label : List UInt8} (h : Holds packet p label) :
    labelAt packet p label.length=label := by
  refine List.ext_getElem? fun i => ?_
  by_cases hi : i<label.length
  · rw [h.2 i hi,labelAt,List.getElem?_map,List.getElem?_range hi]
    rfl
  · rw [List.getElem?_eq_none (by rw [length_labelAt]; omega),List.getElem?_eq_none (by omega)]

theorem doRfc1035Name_behind {s : List UInt8} (hnil : s≠[]) :
    doRfc1035Name s++[0]=
      .ofNat (firstPart s).length::(firstPart s++(doRfc1035Name (afterDot s)++[0])) := by
  rw [doRfc1035Name,dif_neg hnil,List.cons_append,List.cons_append,List.append_assoc]

/-- What `do_rfc1035_name` writes, with a zero byte behind it, is the name of its labels. -/
theorem spelled_of_holds {s : List UInt8} (hparts : ∀ part∈parts s, GoodPart part)
    (h : Holds packet p (doRfc1035Name s++[0])) (hops : ℕ) :
    ∃ stop, Spelled packet p hops (wireLabels s) stop ∧
      stop≤p+(doRfc1035Name s++[0]).length := by
  induction s using wireLabels.induct generalizing p with
  | case1 =>
    rw [doRfc1035Name,wireLabels] at *
    obtain ⟨hzero,hlt⟩ := Holds.head h
    exact ⟨p+1,.root hlt (by rw [hzero]; rfl),le_rfl⟩
  | case2 s hnil hfirst =>
    rw [doRfc1035Name_behind hnil] at h ⊢
    obtain ⟨hzero,hlt⟩ := h.head
    rw [wireLabels,dif_neg hnil,if_pos hfirst,List.length_cons]
    exact ⟨p+1,.root hlt (by rw [hzero,hfirst]; rfl),by omega⟩
  | case3 s hnil hfirst ih =>
    rw [doRfc1035Name_behind hnil] at h ⊢
    obtain ⟨hcount,hlt⟩ := h.head
    have hpos := List.length_pos_iff.mpr hfirst
    have hmem : firstPart s∈parts s := by
      rcases parts_eq s with ⟨-,-,heq⟩ | ⟨-,heq⟩
      · rw [heq]; exact List.mem_cons_self
      · rw [heq]; exact List.mem_cons_self
    have hshort : (firstPart s).length≤63 := (hparts _ hmem).1
    have hl : (packet.bytes p).toNat=(firstPart s).length := by
      rw [hcount,UInt8.toNat_ofNat']
      omega
    have hbehind := (@Holds.append packet p [.ofNat (firstPart s).length] _ h).2
    obtain ⟨hlabel,hrest⟩ := hbehind.append
    have hlabelAt : labelAt packet (p+1) (packet.bytes p).toNat=firstPart s := by
      rw [hl]
      exact hlabel.labelAt_eq
    have hgood : ∀ part∈parts (afterDot s), GoodPart part := by
      intro part hpart
      rcases parts_eq s with ⟨-,hafter,heq⟩ | ⟨-,heq⟩
      · rw [hafter] at hpart
        rw [List.mem_singleton.mp hpart]
        exact ⟨Nat.zero_le _,rfl⟩
      · exact hparts part (by rw [heq]; exact List.mem_cons_of_mem _ hpart)
    obtain ⟨stop,hspelled,hstop⟩ := ih hgood hrest
    refine ⟨stop,?_,?_⟩
    · rw [wireLabels,dif_neg hnil,if_neg hfirst,←hlabelAt]
      refine .label (by omega) (by omega) (by rw [hl]; exact hlabel.1) ?_
      rw [hl]
      exact hspelled
    · rw [List.length_cons,List.length_append]
      rw [List.length_singleton] at hstop
      omega

/-! ## The round trip -/

/-- A place at which the name reader arrives in a name of ordinary labels is inside of it. -/
theorem Met.spelled {start stop : ℕ} {labels : List (List UInt8)}
    (h : Spelled packet start 0 labels stop) {s : Place} (hmet : Met packet start s) :
    ∃ rest, Spelled packet s.p s.hops rest stop := by
  induction hmet with
  | start => exact ⟨labels,h⟩
  | step hmet hadvance ih =>
    obtain ⟨rest,hspelled⟩ := ih
    cases hadvance with
    | label hp hpos hl hroom hfits hchars =>
      cases hspelled with
      | root hp' hl' => omega
      | label hpos' hl' hfits' hrest => exact ⟨_,hrest⟩
      | pointer hp' hl' hhops hrest => omega
    | pointer hp hl hhops =>
      cases hspelled with
      | root hp' hl' => omega
      | label hpos' hl' hfits' hrest => omega
      | pointer hp' hl' hhops hrest => exact ⟨_,hrest⟩
    | bits hp hl hroom hfits =>
      cases hspelled with
      | root hp' hl' => omega
      | label hpos' hl' hfits' hrest => omega
      | pointer hp' hl' hhops hrest => omega

theorem noBits_of_spelled {start stop : ℕ} {labels : List (List UInt8)}
    (h : Spelled packet start 0 labels stop) : NoBits packet start := by
  intro s hmet _ hl
  obtain ⟨rest,hspelled⟩ := Met.spelled h hmet
  cases hspelled with
  | root hp' hl' => omega
  | label hpos' hl' hfits' hrest => omega
  | pointer hp' hl' hhops hrest => omega

/-- The string that was written into any packet, with a zero byte and `extrabytes` bytes behind
it, is read from there. -/
def RoundTrips (s : List UInt8) : Prop :=
  ∀ (packet : Packet) (p extrabytes : ℕ), Holds packet p (doRfc1035Name s++[0]) →
    p+(doRfc1035Name s++[0]).length+extrabytes≤packet.len →
    ∃ q, extractName packet p extrabytes=some (s,q)

/-- What is read of a string that was written. -/
theorem extract_written {s : List UInt8} (hparts : ∀ part∈parts s, GoodPart part)
    {extrabytes : ℕ} (h : Holds packet p (doRfc1035Name s++[0]))
    (hroom : p+(doRfc1035Name s++[0]).length+extrabytes≤packet.len) {text : List UInt8} :
    (∃ q, extractName packet p extrabytes=some (text,q)) ↔
      (dotted (wireLabels s)).length < maxDname ∧ text=spelling (wireLabels s) := by
  obtain ⟨stop,hspelled,hstop⟩ := spelled_of_holds hparts h 0
  rw [extractName_iff (noBits_of_spelled hspelled)]
  constructor
  · rintro ⟨labels,stop',hspelled',-,-,hlen,htext⟩
    rw [(hspelled.unique hspelled').1]
    exact ⟨hlen,htext⟩
  · rintro ⟨hlen,htext⟩
    exact ⟨_,stop,hspelled,by omega,
      fun label hlabel => (hparts label (wireLabels_subset s label hlabel)).2,hlen,htext⟩

theorem holds_packetOf (bytes : List UInt8) : Holds (packetOf bytes) 0 bytes := by
  refine ⟨by rw [Nat.zero_add]; exact le_rfl,fun i hi => ?_⟩
  simp only [Nat.zero_add,packetOf,List.getD_eq_getElem?_getD,List.getElem?_eq_getElem hi,
    Option.getD_some]

/-- The text of the labels fits into the buffer if it has at most 1023 characters. -/
theorem dotted_lt_iff {labels : List (List UInt8)} (h : labels≠[]) :
    (dotted labels).length < maxDname ↔ (spelling labels).length≤1023 := by
  rw [dotted_eq h,List.length_append,List.length_singleton,maxDname]
  omega

/-- A string that comes back has no part without characters and is not too long. -/
theorem clean_of_roundTrips {s : List UInt8} (hne : s≠[]) (hparts : ∀ part∈parts s, GoodPart part)
    (hround : RoundTrips s) : []∉parts s ∧ s.length≤1023 := by
  have hholds := holds_packetOf (doRfc1035Name s++[0])
  have hroom : 0+(doRfc1035Name s++[0]).length+0≤(packetOf (doRfc1035Name s++[0])).len := by
    rw [Nat.zero_add,Nat.add_zero]
    exact le_rfl
  obtain ⟨hlen,hspelling⟩ :=
    (extract_written hparts hholds hroom).mp (hround _ 0 0 hholds hroom)
  have hlabels : wireLabels s≠[] := by
    intro hnil
    rw [hnil] at hspelling
    exact hne hspelling
  have hchars := wireLabels_chars s
  have hsplit := List.splitOn_intercalate 46 (fun label hlabel => (hchars label hlabel).2) hlabels
  rw [←spelling_eq_intercalate,←hspelling] at hsplit
  rw [dotted_lt_iff hlabels,←hspelling] at hlen
  refine ⟨?_,hlen⟩
  rw [parts,hsplit]
  exact fun hmem => (hchars [] hmem).1 rfl

/-- A string without such parts that is not too long comes back. -/
theorem roundTrips_of_clean {s : List UInt8} (hparts : ∀ part∈parts s, GoodPart part)
    (hclean : []∉parts s) (hshort : s.length≤1023) : RoundTrips s := by
  intro packet p extrabytes hholds hroom
  have hlabels := wireLabels_eq hclean
  have hspelling : spelling (wireLabels s)=s := by
    rw [hlabels,spelling_eq_intercalate]
    exact List.intercalate_splitOn 46
  have hne : wireLabels s≠[] := by
    rw [hlabels]
    exact List.splitOn_ne_nil 46 s
  refine (extract_written hparts hholds hroom).mpr ⟨?_,hspelling.symm⟩
  rw [dotted_lt_iff hne,hspelling]
  exact hshort

/-- A string that `canonicalise` accepts is read back from the wire if and only if every part
between its dots has characters and there are at most 1023 characters in all. -/
theorem doRfc1035Name_roundTrips_iff {input s : List UInt8} (h : canonicalise input=some s) :
    RoundTrips s ↔ []∉parts s ∧ s.length≤1023 := by
  obtain ⟨hne,hparts⟩ := checkName_parts h
  exact ⟨clean_of_roundTrips hne hparts,fun h => roundTrips_of_clean hparts h.1 h.2⟩

/-- The name `a.bc.`, with a dot at its end, comes back without the dot. -/
theorem doRfc1035Name_roundTrips_dot : RoundTrips [97,46,98,99] :=
  (@doRfc1035Name_roundTrips_iff [97,46,98,99,46] [97,46,98,99] (by decide)).mpr
    ⟨by decide,by decide⟩

/-- A string with two dots side by side is accepted and is not read back. -/
theorem doRfc1035Name_not_always :
    ¬∀ input s, canonicalise input=some s → RoundTrips s := by
  intro h
  have haccepted : canonicalise [97,46,46,98]=some [97,46,46,98] := by decide
  obtain ⟨hne,hparts⟩ := checkName_parts haccepted
  exact absurd (clean_of_roundTrips hne hparts (h _ _ haccepted)).1 (by decide)

end AndroidPlatform.DnsNameEncoding
