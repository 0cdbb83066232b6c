import AndroidPlatform.DnsPacket

/-!
# Skipping names and records

`skip_name` and `skip_section` find the end of a name and of a number of records. `ADD_RDLEN`
is meant to be a test and an update; its comma is outside of the conditional expression, so that
it is always true, and a length that runs past the end of the packet is not rejected but passed
over. The walk of the code is thus longer than the grammar of names: after a label that is cut
by the end of the packet it goes on behind the length byte.
-/

namespace AndroidPlatform.DnsSkip

open DnsPacket

/-! ## The code -/

/-- `ADD_RDLEN`: its value, and the pointer after it. -/
def addRdlen (packet : Packet) (pp len : ℕ) : Bool×ℕ :=
  (true,if checkLen packet pp len then pp+len else pp)

theorem le_addRdlen (packet : Packet) (pp len : ℕ) : pp≤(addRdlen packet pp len).2 := by
  rw [addRdlen]
  split
  · exact Nat.le_add_right pp len
  · exact le_rfl

/-- The bytes of the bits of a bit-string label. -/
def bitBytes (count : ℕ) : ℕ := if count=0 then 32 else (count-1)/8+1

/-- The loop of `skip_name`: where it is left with `break`. -/
def skipLoop (packet : Packet) (ansp : ℕ) : Option ℕ :=
  if hlen : checkLen packet ansp 1=true then
    let l := (packet.bytes ansp).toNat
    if 192≤l then some (ansp+2)
    else if 128≤l then none
    else if 64≤l then
      if checkLen packet ansp 2 then
        if l≠65 then none
        else skipLoop packet (ansp+2+bitBytes (packet.bytes (ansp+1)).toNat)
      else none
    else
      if (addRdlen packet (ansp+1) l).1=false then none
      else if l=0 then some (addRdlen packet (ansp+1) l).2
      else skipLoop packet (addRdlen packet (ansp+1) l).2
  else none
termination_by packet.len-ansp
decreasing_by
  · have hlt := of_decide_eq_true hlen
    omega
  · have hlt := of_decide_eq_true hlen
    have hle := le_addRdlen packet (ansp+1) (packet.bytes ansp).toNat
    omega

/-- `skip_name` -/
def skipName (packet : Packet) (ansp extrabytes : ℕ) : Option ℕ :=
  match skipLoop packet ansp with
  | none => none
  | some ansp => if checkLen packet ansp extrabytes then some ansp else none

/-- The loop of `skip_questions`. -/
def skipQuestionsLoop (packet : Packet) : ℕ → ℕ → Option ℕ
  | 0,ansp => some ansp
  | q+1,ansp =>
    match skipName packet ansp 4 with
    | none => none
    | some ansp => skipQuestionsLoop packet q (ansp+4)

/-- `skip_questions` -/
def skipQuestions (packet : Packet) : Option ℕ :=
  skipQuestionsLoop packet packet.qdcount headerSize

/-- `skip_section` -/
def skipSection (packet : Packet) : ℕ → ℕ → Option ℕ
  | 0,ansp => some ansp
  | count+1,ansp =>
    match skipName packet ansp 10 with
    | none => none
    | some ansp =>
      let rdlen := packet.short (ansp+8)
      if (addRdlen packet (ansp+10) rdlen).1=false then none
      else skipSection packet count (addRdlen packet (ansp+10) rdlen).2

/-! ## The grammar -/

/-- The bytes from the first position up to the second one form a name. -/
inductive NameAt (packet : Packet) : ℕ → ℕ → Prop
  /-- A zero label. -/
  | root {p : ℕ} (hl : (packet.bytes p).toNat=0) : NameAt packet p (p+1)
  /-- A pointer of two bytes. -/
  | pointer {p : ℕ} (hl : 192≤(packet.bytes p).toNat) : NameAt packet p (p+2)
  /-- An ordinary label. -/
  | label {p q : ℕ} (hpos : 0 < (packet.bytes p).toNat) (hl : (packet.bytes p).toNat<64)
    (rest : NameAt packet (p+1+(packet.bytes p).toNat) q) : NameAt packet p q
  /-- A bit-string label. -/
  | bits {p q : ℕ} (hl : (packet.bytes p).toNat=65)
    (rest : NameAt packet (p+2+bitBytes (packet.bytes (p+1)).toNat) q) : NameAt packet p q

/-- So many records stand from the first position up to the second one, inside the packet. -/
def RecordsAt (packet : Packet) : ℕ → ℕ → ℕ → Prop
  | 0,p,q => p=q
  | count+1,p,q => ∃ r, NameAt packet p r ∧ r+10+packet.short (r+8)≤packet.len ∧
      RecordsAt packet count (r+10+packet.short (r+8)) q

/-- A walk over a name that passes behind the length byte of an ordinary label that the end of
the packet cuts. It tells whether there was one. -/
inductive Walked (packet : Packet) : ℕ → ℕ → Bool → Prop
  | root {p : ℕ} (hl : (packet.bytes p).toNat=0) : Walked packet p (p+1) false
  | pointer {p : ℕ} (hl : 192≤(packet.bytes p).toNat) : Walked packet p (p+2) false
  | label {p q : ℕ} {cut : Bool} (hpos : 0 < (packet.bytes p).toNat)
    (hl : (packet.bytes p).toNat<64) (hfits : p+1+(packet.bytes p).toNat≤packet.len)
    (rest : Walked packet (p+1+(packet.bytes p).toNat) q cut) : Walked packet p q cut
  | bits {p q : ℕ} {cut : Bool} (hl : (packet.bytes p).toNat=65)
    (rest : Walked packet (p+2+bitBytes (packet.bytes (p+1)).toNat) q cut) : Walked packet p q cut
  | cut {p q : ℕ} {cut : Bool} (hpos : 0 < (packet.bytes p).toNat)
    (hl : (packet.bytes p).toNat<64) (hpast : packet.len < p+1+(packet.bytes p).toNat)
    (rest : Walked packet (p+1) q cut) : Walked packet p q true

/-- A walk over records that passes over data that the end of the packet cuts. It tells whether
there was such data or a cut label. -/
def RecordsWalked (packet : Packet) : ℕ → ℕ → ℕ → Bool → Prop
  | 0,p,q,cut => p=q ∧ cut=false
  | count+1,p,q,cut => ∃ r nameCut restCut, Walked packet p r nameCut ∧ r+10≤packet.len ∧
      (r+10+packet.short (r+8)≤packet.len ∧ cut=(nameCut || restCut) ∧
          RecordsWalked packet count (r+10+packet.short (r+8)) q restCut ∨
        packet.len < r+10+packet.short (r+8) ∧ cut=true ∧
          RecordsWalked packet count (r+10) q restCut)

variable {packet : Packet} {p q : ℕ} {cut : Bool}

theorem NameAt.lt (h : NameAt packet p q) : p<q := by
  induction h with
  | root hl => omega
  | pointer hl => omega
  | label hpos hl rest ih => omega
  | bits hl rest ih => omega

theorem Walked.lt (h : Walked packet p q cut) : p<q := by
  induction h with
  | root hl => omega
  | pointer hl => omega
  | label hpos hl hfits rest ih => omega
  | bits hl rest ih => omega
  | cut hpos hl hpast rest ih => omega

/-- There is one end of a name. -/
theorem NameAt.unique {r : ℕ} (h : NameAt packet p q) (h' : NameAt packet p r) : q=r := by
  induction h generalizing r with
  | root hl =>
    cases h' with
    | root hl' => rfl
    | pointer hl' => omega
    | label hpos hl' rest => omega
    | bits hl' rest => omega
  | pointer hl =>
    cases h' with
    | root hl' => omega
    | pointer hl' => rfl
    | label hpos hl' rest => omega
    | bits hl' rest => omega
  | label hpos hl rest ih =>
    cases h' with
    | root hl' => omega
    | pointer hl' => omega
    | label hpos' hl' rest' => exact ih rest'
    | bits hl' rest' => omega
  | bits hl rest ih =>
    cases h' with
    | root hl' => omega
    | pointer hl' => omega
    | label hpos' hl' rest' => omega
    | bits hl' rest' => exact ih rest'

/-- A walk without a cut label is a name. -/
theorem walked_false_iff (hq : q≤packet.len) : Walked packet p q false ↔ NameAt packet p q := by
  constructor
  · intro h
    generalize hcut : false=cut at h
    induction h with
    | root hl => exact .root hl
    | pointer hl => exact .pointer hl
    | label hpos hl hfits rest ih => exact .label hpos hl (ih hq hcut)
    | bits hl rest ih => exact .bits hl (ih hq hcut)
    | cut hpos hl hpast rest ih => cases hcut
  · intro h
    induction h with
    | root hl => exact .root hl
    | pointer hl => exact .pointer hl
    | label hpos hl rest ih =>
      have hlt := rest.lt
      exact .label hpos hl (by omega) (ih hq)
    | bits hl rest ih => exact .bits hl (ih hq)

/-- There is one walk from a position. -/
theorem Walked.unique {r : ℕ} {cut' : Bool} (h : Walked packet p q cut)
    (h' : Walked packet p r cut') : q=r ∧ cut=cut' := by
  induction h generalizing r cut' with
  | root hl =>
    cases h' with
    | root hl' => exact ⟨rfl,rfl⟩
    | pointer hl' => omega
    | label hpos hl' hfits rest => omega
    | bits hl' rest => omega
    | cut hpos' hl' hpast rest => omega
  | pointer hl =>
    cases h' with
    | root hl' => omega
    | pointer hl' => exact ⟨rfl,rfl⟩
    | label hpos hl' hfits rest => omega
    | bits hl' rest => omega
    | cut hpos' hl' hpast rest => omega
  | label hpos hl hfits rest ih =>
    cases h' with
    | root hl' => omega
    | pointer hl' => omega
    | label hpos' hl' hfits' rest' => exact ih rest'
    | bits hl' rest' => omega
    | cut hpos' hl' hpast rest' => omega
  | bits hl rest ih =>
    cases h' with
    | root hl' => omega
    | pointer hl' => omega
    | label hpos' hl' hfits' rest' => omega
    | bits hl' rest' => exact ih rest'
    | cut hpos' hl' hpast rest' => omega
  | cut hpos hl hpast rest ih =>
    cases h' with
    | root hl' => omega
    | pointer hl' => omega
    | label hpos' hl' hfits' rest' => omega
    | bits hl' rest' => omega
    | cut hpos' hl' hpast' rest' => exact ⟨(ih rest').1,rfl⟩

/-! ## What the code accepts -/

theorem checkLen_iff {n : ℕ} : checkLen packet p n=true ↔ p+n≤packet.len := decide_eq_true_iff

/-- `ADD_RDLEN` where the bytes are there, and where they are not. -/
theorem addRdlen_eq (n : ℕ) :
    addRdlen packet p n=(true,if p+n≤packet.len then p+n else p) := by
  simp only [addRdlen,checkLen_iff]

/-- `skip_name` finds the end of every walk that ends in the packet. -/
theorem skipLoop_walked (h : Walked packet p q cut) (hq : q≤packet.len) :
    skipLoop packet p=some q := by
  induction h with
  | root hl =>
    rw [skipLoop,dif_pos (checkLen_iff.mpr hq)]
    simp only [hl,addRdlen_eq]
    rw [if_pos hq]
    rfl
  | @pointer p hl =>
    rw [skipLoop,dif_pos (checkLen_iff.mpr (by omega))]
    exact if_pos hl
  | @label p q cut hpos hl hfits rest ih =>
    have hlt := rest.lt
    rw [skipLoop,dif_pos (checkLen_iff.mpr (by omega))]
    simp only [addRdlen_eq]
    rw [if_neg (by omega),if_neg (by omega),if_neg (by omega),if_neg Bool.noConfusion,
      if_neg (by omega),if_pos hfits]
    exact ih hq
  | @bits p q cut hl rest ih =>
    have hlt := rest.lt
    rw [skipLoop,dif_pos (checkLen_iff.mpr (by omega))]
    simp only [hl,checkLen_iff]
    rw [if_neg (by omega),if_neg (by omega),if_pos (by omega),if_pos (by omega),if_neg (by omega)]
    exact ih hq
  | @cut p q cut hpos hl hpast rest ih =>
    have hlt := rest.lt
    rw [skipLoop,dif_pos (checkLen_iff.mpr (by omega))]
    simp only [addRdlen_eq]
    rw [if_neg (by omega),if_neg (by omega),if_neg (by omega),if_neg Bool.noConfusion,
      if_neg (by omega),if_neg (by omega)]
    exact ih hq

/-- Where the loop is left there is the end of a walk. -/
theorem walked_of_skipLoop (h : skipLoop packet p=some q) : ∃ cut, Walked packet p q cut := by
  induction p using skipLoop.induct packet with
  | case1 p hlen l hl =>
    rw [skipLoop,dif_pos hlen] at h
    simp only at h
    rw [if_pos hl] at h
    cases h
    exact ⟨false,.pointer hl⟩
  | case2 p hlen l hpointer hl =>
    rw [skipLoop,dif_pos hlen] at h
    simp only at h
    rw [if_neg hpointer,if_pos hl] at h
    cases h
  | case3 p hlen l hpointer hreserved hl hcount hother =>
    rw [skipLoop,dif_pos hlen] at h
    simp only at h
    rw [if_neg hpointer,if_neg hreserved,if_pos hl,if_pos hcount,if_pos hother] at h
    cases h
  | case4 p hlen l hpointer hreserved hl hcount hbits ih =>
    rw [skipLoop,dif_pos hlen] at h
    simp only at h
    rw [if_neg hpointer,if_neg hreserved,if_pos hl,if_pos hcount,if_neg hbits] at h
    obtain ⟨cut,hrest⟩ := ih h
    exact ⟨cut,.bits (not_not.mp hbits) hrest⟩
  | case5 p hlen l hpointer hreserved hl hcount =>
    rw [skipLoop,dif_pos hlen] at h
    simp only at h
    rw [if_neg hpointer,if_neg hreserved,if_pos hl,if_neg hcount] at h
    cases h
  | case6 p hlen l hpointer hreserved hl hfits =>
    cases hfits
  | case7 p hlen l hpointer hreserved hl hfits hzero =>
    rw [skipLoop,dif_pos hlen] at h
    simp only at h
    rw [if_neg hpointer,if_neg hreserved,if_neg hl,if_neg hfits,if_pos hzero,Option.some.injEq] at h
    rw [←h,addRdlen_eq,show (packet.bytes p).toNat=0 from hzero,Nat.add_zero,ite_self]
    exact ⟨false,.root hzero⟩
  | case8 p hlen l hpointer hreserved hl hfits hzero ih =>
    rw [skipLoop,dif_pos hlen] at h
    simp only at h
    rw [if_neg hpointer,if_neg hreserved,if_neg hl,if_neg hfits,if_neg hzero] at h
    obtain ⟨cut,hrest⟩ := ih h
    rw [addRdlen_eq] at hrest
    by_cases hin : p+1+(packet.bytes p).toNat≤packet.len
    · rw [if_pos hin] at hrest
      exact ⟨cut,.label (by omega) (by omega) hin hrest⟩
    · rw [if_neg hin] at hrest
      exact ⟨true,.cut (by omega) (by omega) (by omega) hrest⟩
  | case9 p hlen =>
    rw [skipLoop,dif_neg hlen] at h
    cases h

/-- `skip_name` accepts the walks with enough bytes behind them. -/
theorem skipName_iff {extrabytes : ℕ} : skipName packet p extrabytes=some q ↔
    (∃ cut, Walked packet p q cut) ∧ q+extrabytes≤packet.len := by
  rw [skipName]
  constructor
  · intro h
    cases hloop : skipLoop packet p with
    | none => simp only [hloop] at h; cases h
    | some r =>
      simp only [hloop,checkLen_iff] at h
      split_ifs at h with hfits
      cases h
      exact ⟨walked_of_skipLoop hloop,hfits⟩
  · rintro ⟨⟨cut,hwalked⟩,hfits⟩
    rw [skipLoop_walked hwalked (by omega)]
    exact if_pos (checkLen_iff.mpr hfits)

/-- `skip_section` accepts the walks over records. -/
theorem skipSection_iff {count : ℕ} :
    skipSection packet count p=some q ↔ ∃ cut, RecordsWalked packet count p q cut := by
  induction count generalizing p with
  | zero =>
    rw [skipSection,Option.some.injEq]
    exact ⟨fun h => ⟨false,h,rfl⟩,fun ⟨cut,h,_⟩ => h⟩
  | succ count ih =>
    rw [skipSection]
    constructor
    · intro h
      cases hname : skipName packet p 10 with
      | none => simp only [hname] at h; cases h
      | some r =>
        simp only [hname,addRdlen_eq] at h
        rw [if_neg Bool.noConfusion,ih] at h
        obtain ⟨⟨nameCut,hwalked⟩,hroom⟩ := skipName_iff.mp hname
        obtain ⟨restCut,hrest⟩ := h
        by_cases hfits : r+10+packet.short (r+8)≤packet.len
        · rw [if_pos hfits] at hrest
          exact ⟨_,r,nameCut,restCut,hwalked,hroom,Or.inl ⟨hfits,rfl,hrest⟩⟩
        · rw [if_neg hfits] at hrest
          exact ⟨_,r,nameCut,restCut,hwalked,hroom,Or.inr ⟨by omega,rfl,hrest⟩⟩
    · rintro ⟨cut,r,nameCut,restCut,hwalked,hroom,hrest⟩
      rw [skipName_iff.mpr ⟨⟨nameCut,hwalked⟩,hroom⟩]
      simp only [addRdlen_eq]
      rw [if_neg Bool.noConfusion,ih]
      rcases hrest with ⟨hfits,-,hrest⟩ | ⟨hpast,-,hrest⟩
      · rw [if_pos hfits]
        exact ⟨restCut,hrest⟩
      · rw [if_neg (by omega)]
        exact ⟨restCut,hrest⟩

/-- Records that are walked over without a cut are records in the packet. -/
theorem recordsWalked_false_iff {count : ℕ} :
    RecordsWalked packet count p q false ↔ RecordsAt packet count p q := by
  induction count generalizing p with
  | zero => exact ⟨fun h => h.1,fun h => ⟨h,rfl⟩⟩
  | succ count ih =>
    constructor
    · rintro ⟨r,nameCut,restCut,hwalked,hroom,⟨hfits,hcut,hrest⟩ | ⟨-,hcut,-⟩⟩
      · obtain ⟨rfl,rfl⟩ := Bool.or_eq_false_iff.mp hcut.symm
        exact ⟨r,(walked_false_iff (by omega)).mp hwalked,hfits,ih.mp hrest⟩
      · cases hcut
    · rintro ⟨r,hname,hfits,hrest⟩
      exact ⟨r,false,false,(walked_false_iff (by omega)).mpr hname,by omega,
        Or.inl ⟨hfits,rfl,ih.mpr hrest⟩⟩

/-- There is one walk over a number of records. -/
theorem recordsWalked_unique {count r : ℕ} {cut' : Bool} (h : RecordsWalked packet count p q cut)
    (h' : RecordsWalked packet count p r cut') : cut=cut' := by
  induction count generalizing p cut cut' with
  | zero => rw [h.2,h'.2]
  | succ count ih =>
    obtain ⟨s,nameCut,restCut,hwalked,-,hrest⟩ := h
    obtain ⟨s',nameCut',restCut',hwalked',-,hrest'⟩ := h'
    obtain ⟨rfl,rfl⟩ := hwalked.unique hwalked'
    rcases hrest with ⟨hfits,hcut,hrest⟩ | ⟨hpast,hcut,-⟩
    · rcases hrest' with ⟨-,hcut',hrest'⟩ | ⟨hpast',-⟩
      · rw [hcut,hcut',ih hrest hrest']
      · omega
    · rcases hrest' with ⟨hfits',-⟩ | ⟨-,hcut',-⟩
      · omega
      · rw [hcut,hcut']

/-- `skip_name` accepts exactly the names with `extrabytes` bytes behind them if and only if no
walk past a cut label ends so; `skip_section` accepts exactly the records that lie in the packet
if and only if no walk past cut data or a cut label ends at all. -/
theorem skip_right_iff (packet : Packet) (p extrabytes count : ℕ) :
    ((∀ q, skipName packet p extrabytes=some q ↔ NameAt packet p q ∧ q+extrabytes≤packet.len) ↔
        ∀ q, q+extrabytes≤packet.len → ¬Walked packet p q true) ∧
      ((∀ q, skipSection packet count p=some q ↔ RecordsAt packet count p q) ↔
        ∀ q, ¬RecordsWalked packet count p q true) := by
  refine ⟨⟨fun h q hq hcut => ?_,fun h q => ?_⟩,fun h q hcut => ?_,fun h q => ?_⟩
  · obtain ⟨hname,-⟩ := (h q).mp (skipName_iff.mpr ⟨⟨true,hcut⟩,hq⟩)
    cases (hcut.unique ((walked_false_iff (by omega)).mpr hname)).2
  · rw [skipName_iff]
    constructor
    · rintro ⟨⟨cut,hwalked⟩,hq⟩
      cases cut with
      | false => exact ⟨(walked_false_iff (by omega)).mp hwalked,hq⟩
      | true => exact absurd hwalked (h q hq)
    · rintro ⟨hname,hq⟩
      exact ⟨⟨false,(walked_false_iff (by omega)).mpr hname⟩,hq⟩
  · have hrecords := (h q).mp (skipSection_iff.mpr ⟨true,hcut⟩)
    cases recordsWalked_unique hcut (recordsWalked_false_iff.mpr hrecords)
  · rw [skipSection_iff]
    constructor
    · rintro ⟨cut,hwalked⟩
      cases cut with
      | false => exact recordsWalked_false_iff.mp hwalked
      | true => exact absurd hwalked (h q)
    · intro hrecords
      exact ⟨false,recordsWalked_false_iff.mpr hrecords⟩

/-- A packet of these bytes. -/
def packetOf (bytes : List UInt8) : Packet := ⟨fun i => bytes.getD i 0,bytes.length⟩

/-- A header, and a name that ends after the length byte and one byte of its label. -/
def cutLabel : Packet := packetOf [0,0,1,0,0,1,0,0,0,0,0,0,5,0]

/-- A header, and a record of the root with four bytes of data, of which none are there. -/
def cutData : Packet := packetOf [0,0,129,128,0,0,0,1,0,0,0,0,0,0,1,0,1,0,0,0,0,0,4]

/-- The cut label is skipped as if it were a name, and the cut data as if they were there. -/
theorem skip_not_right :
    (¬∀ (packet : Packet) (p extrabytes q : ℕ),
        skipName packet p extrabytes=some q ↔ NameAt packet p q ∧ q+extrabytes≤packet.len) ∧
      ¬∀ (packet : Packet) (p count q : ℕ),
        skipSection packet count p=some q ↔ RecordsAt packet count p q := by
  constructor
  · intro h
    have hwalked : Walked cutLabel 12 14 true :=
      .cut (by decide) (by decide) (by decide) (.root (by decide))
    have hname := ((h cutLabel 12 0 14).mp (skipName_iff.mpr ⟨⟨true,hwalked⟩,by decide⟩)).1
    cases (hwalked.unique ((walked_false_iff (by decide)).mpr hname)).2
  · intro h
    have hwalked : RecordsWalked cutData 1 12 23 true :=
      ⟨13,false,false,.root (by decide),by decide,Or.inr ⟨by decide,rfl,rfl,rfl⟩⟩
    have hrecords := (h cutData 12 1 23).mp (skipSection_iff.mpr ⟨true,hwalked⟩)
    cases recordsWalked_unique hwalked (recordsWalked_false_iff.mpr hrecords)

end AndroidPlatform.DnsSkip
