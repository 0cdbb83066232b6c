import AndroidPlatform.DnsExtractAddresses
import AndroidPlatform.DnsNameSpelling
import Mathlib.Data.List.Forall2
import Mathlib.Data.List.TakeWhile

/-!
# Chains of CNAME records in a reply

A well-formed reply to one question has answers that lie one behind the other
in the packet. From the name of the question a chain of CNAME records leads to
the name that has the records asked for. `extract_addresses` is to put these
into the cache, wherever in the section the records of the chain stand.
-/

namespace AndroidPlatform.DnsAnswerChains

open DnsPacket DnsSkip DnsNameReading DnsNameSpelling DnsNameComparison DnsExtractAddresses
open DnsCache (Flags fReverse fForward fIpv4 fIpv6 fCname has)
open DnsCache.Cache (NewRecord)

variable {packet : Packet}

/-! ## Names -/

/-- A name at a position with the position behind it; where it goes on behind a
pointer, it ends before. -/
structure NameRead (packet : Packet) (p : ℕ) (labels : List (List UInt8)) (q : ℕ) : Prop where
  /-- Its labels. -/
  spelled : ∃ stop, Spelled packet p 0 labels stop ∧ stop≤q
  /-- Its end. -/
  ends : NameAt packet p q
  /-- It fits into the buffer. -/
  fits : (dotted labels).length < maxDname

/-- Extract mode returns the end of the name, or the position behind the pointer
that was followed first. -/
theorem run_spelled_end {p hops stop : ℕ} {labels : List (List UInt8)} {extrabytes : ℕ}
    (h : Spelled packet p hops labels stop) (hroom : stop+extrabytes≤packet.len)
    (hchars : AllowedChars labels) (p1 : Option ℕ) {cp : List UInt8}
    (hlen : cp.length+(dotted labels).length < maxDname) :
    ∃ e, NameAt packet p e ∧ ((⟨p,p1,hops,cp⟩ : Place).run packet extrabytes).result=
      some ((cp++dotted labels).dropLast,p1.getD e) := by
  induction h generalizing p1 cp with
  | @root p hops hp hl =>
    refine ⟨p+1,.root hl,?_⟩
    rw [Place.run,readLoop,dif_pos (checkLen_iff.mpr hp),dotted,List.flatMap_nil,List.append_nil]
    exact congrArg Reading.result ((if_pos hl).trans (if_pos (checkLen_iff.mpr hroom)))
  | @label p hops stop labels hpos hl hfits rest ih =>
    rw [length_dotted_cons,length_labelAt] at hlen
    have hadvance := @Advance.label packet ⟨p,p1,hops,cp⟩ (by simp only; omega) hpos hl
      (by simp only; omega) hfits (hchars _ List.mem_cons_self)
    rw [run_advance hadvance]
    obtain ⟨e,hends,hresult⟩ := @ih hroom
      (fun label hlabel => hchars label (List.mem_cons_of_mem _ hlabel))
      p1 (cp++labelAt packet (p+1) (packet.bytes p).toNat++[46]) (by
        rw [List.length_append,List.length_append,length_labelAt,List.length_singleton]
        omega)
    refine ⟨e,.label hpos hl hends,hresult.trans ?_⟩
    rw [dotted_cons]
    simp only [List.append_assoc,List.singleton_append]
  | @pointer p hops stop labels hp hl hhops rest ih =>
    have hadvance := @Advance.pointer packet ⟨p,p1,hops,cp⟩ hp hl hhops
    rw [run_advance hadvance]
    obtain ⟨e,-,hresult⟩ := ih hroom hchars (some (p1.getD (p+2))) hlen
    exact ⟨p+2,.pointer hl,hresult⟩

/-- A name with allowed characters is extracted, and its end is found. -/
theorem extractName_of_read {p q extrabytes : ℕ} {labels : List (List UInt8)}
    (h : NameRead packet p labels q) (hchars : AllowedChars labels)
    (hroom : q+extrabytes≤packet.len) :
    extractName packet p extrabytes=some (spelling labels,q) := by
  obtain ⟨⟨stop,hspelled,hstop⟩,hends,hfits⟩ := h
  obtain ⟨e,he,hresult⟩ := @run_spelled_end packet p 0 stop labels extrabytes hspelled (by omega)
    hchars none [] (by simpa using hfits)
  rw [hends.unique he,← readName_result,readName]
  exact hresult

theorem compareLabel_cases (label : List UInt8) (cp : List UInt8) {retvalue : ℕ}
    (h : retvalue=1 ∨ retvalue=2) :
    (compareLabel label cp retvalue).2=1 ∨ (compareLabel label cp retvalue).2=2 := by
  induction label generalizing cp retvalue with
  | nil => exact h
  | cons c2 label ih =>
    cases cp with
    | nil => exact ih [] (.inr rfl)
    | cons c1 cp =>
      refine ih cp ?_
      split_ifs
      · exact .inr rfl
      · exact h

theorem compareDot_cases (cp : List UInt8) {retvalue : ℕ} (h : retvalue=1 ∨ retvalue=2) :
    (compareDot cp retvalue).2=1 ∨ (compareDot cp retvalue).2=2 := by
  cases cp with
  | nil => exact h
  | cons c cp =>
    rw [compareDot]
    split_ifs
    · exact .inr rfl
    · exact h

/-- Compare mode returns the end of the name, or the position behind the pointer
that was followed first, and one or two. -/
theorem compareLoop_spelled {p hops stop : ℕ} {labels : List (List UInt8)} {extrabytes : ℕ}
    (h : Spelled packet p hops labels stop) (hroom : stop+extrabytes≤packet.len)
    (name : List UInt8) (p1 : Option ℕ) {cp : List UInt8} {retvalue : ℕ}
    (hle : cp.length≤name.length)
    (hlen : name.length-cp.length+(dotted labels).length < maxDname)
    (hret : retvalue=1 ∨ retvalue=2) :
    ∃ e v, NameAt packet p e ∧ (v=1 ∨ v=2) ∧
      compareLoop packet extrabytes name p p1 hops cp retvalue=(v,some (p1.getD e)) := by
  induction h generalizing p1 cp retvalue with
  | @root p hops hp hl =>
    refine ⟨p+1,if cp≠[] then 2 else retvalue,.root hl,?_,?_⟩
    · split_ifs
      · exact .inr rfl
      · exact hret
    · rw [compareLoop,dif_pos (checkLen_iff.mpr hp)]
      exact (if_pos hl).trans (if_pos (checkLen_iff.mpr hroom))
  | @label p hops stop labels hpos hl hfits rest ih =>
    rw [length_dotted_cons,length_labelAt] at hlen
    have hchars : (compareLabel (labelAt packet (p+1) (packet.bytes p).toNat) cp retvalue).2=1 ∨
        (compareLabel (labelAt packet (p+1) (packet.bytes p).toNat) cp retvalue).2=2 :=
      compareLabel_cases _ _ hret
    have hdot := compareDot_cases
      (compareLabel (labelAt packet (p+1) (packet.bytes p).toNat) cp retvalue).1 hchars
    have hrest : (compareDot (compareLabel (labelAt packet (p+1) (packet.bytes p).toNat) cp
        retvalue).1 (compareLabel (labelAt packet (p+1) (packet.bytes p).toNat) cp retvalue).2).1=
        (cp.drop (packet.bytes p).toNat).drop 1 := by
      rw [compareDot_fst,compareLabel_fst,length_labelAt]
    have hrestLen : ((cp.drop (packet.bytes p).toNat).drop 1).length=
        cp.length-(packet.bytes p).toNat-1 := by
      rw [List.length_drop,List.length_drop]
    have hle' : ((cp.drop (packet.bytes p).toNat).drop 1).length≤name.length := by omega
    have hlen' : name.length-((cp.drop (packet.bytes p).toNat).drop 1).length+
        (dotted labels).length < maxDname := by omega
    rw [← hrest] at hle' hlen'
    obtain ⟨e,v,hends,hv,hresult⟩ := ih hroom p1 hle' hlen' hdot
    refine ⟨e,v,.label hpos hl hends,hv,?_⟩
    rw [compareLoop,dif_pos (checkLen_iff.mpr (by omega))]
    exact (if_neg (by omega)).trans ((if_neg (by omega)).trans ((if_neg (by omega)).trans
      ((if_neg (by omega)).trans ((if_neg (by omega)).trans
        ((if_pos (checkLen_iff.mpr hfits)).trans hresult)))))
  | @pointer p hops stop labels hp hl hhops rest ih =>
    obtain ⟨e,v,-,hv,hresult⟩ := ih hroom (some (p1.getD (p+2))) hle hlen hret
    refine ⟨p+2,v,.pointer hl,hv,?_⟩
    rw [compareLoop,dif_pos (checkLen_iff.mpr (by omega))]
    exact (if_neg (by omega)).trans ((if_pos hl).trans
      ((if_pos (checkLen_iff.mpr (by omega))).trans ((if_neg (by omega)).trans hresult)))

/-- A name is compared, and its end is found. -/
theorem compareName_of_read {p q extrabytes : ℕ} {labels : List (List UInt8)}
    (h : NameRead packet p labels q) (hroom : q+extrabytes≤packet.len) {name : List UInt8}
    (hdot : name.getLast?≠some 46) :
    ∃ v, compareName packet p extrabytes name=(v,some q) ∧
      (v≠2 ↔ (spelling labels).map toLower=name.map toLower) := by
  obtain ⟨⟨stop,hspelled,hstop⟩,hends,hfits⟩ := h
  obtain ⟨e,v,he,hv,hresult⟩ := @compareLoop_spelled packet p 0 stop labels extrabytes hspelled
    (by omega) name none name 1 le_rfl (by omega) (.inl rfl)
  rw [Option.getD_none,← hends.unique he] at hresult
  refine ⟨v,hresult,?_⟩
  have hone : (compareName packet p extrabytes name).1=1 ↔ _ := compareName_iff hdot
  rw [compareName,hresult] at hone
  constructor
  · intro hne
    obtain ⟨labels',stop',hspelled',-,-,htext⟩ := hone.mp (hv.resolve_right hne)
    rw [(hspelled.unique hspelled').1]
    exact htext
  · intro htext
    rw [show v=1 from hone.mpr ⟨labels,stop,hspelled,by omega,hfits,htext⟩]
    decide

theorem Spelled.ne_nil {p hops stop : ℕ} {labels : List (List UInt8)}
    (h : Spelled packet p hops labels stop) : ∀ label∈labels, label≠[] := by
  induction h with
  | root hp hl => exact fun label hlabel => by cases hlabel
  | @label p hops stop labels hpos hl hfits rest ih =>
    intro label hlabel
    rcases List.mem_cons.mp hlabel with rfl | hlabel
    · intro hnil
      have hlen := length_labelAt packet (p+1) (packet.bytes p).toNat
      rw [hnil] at hlen
      exact absurd hlen hpos.ne
    · exact ih label hlabel
  | pointer hp hl hhops rest ih => exact ih

/-- The text of a name of allowed characters does not end in a dot. -/
theorem NameRead.getLast?_ne {p q : ℕ} {labels : List (List UInt8)}
    (h : NameRead packet p labels q) (hchars : AllowedChars labels) :
    (spelling labels).getLast?≠some 46 := by
  obtain ⟨⟨stop,hspelled,-⟩,-,-⟩ := h
  have hne := Spelled.ne_nil hspelled
  rcases List.eq_nil_or_concat labels with rfl | ⟨before,last,rfl⟩
  · exact fun h => by cases h
  · have hmem : last∈before.concat last := by simp
    have htext : spelling (before.concat last)=dotted before++last := by
      rw [spelling,dotted,List.concat_eq_append,List.flatMap_append,List.flatMap_singleton,
        ← List.append_assoc,List.dropLast_concat]
      rfl
    intro hlast
    rw [htext,List.getLast?_append_of_ne_nil _ (hne last hmem)] at hlast
    have hdot := List.all_eq_true.mp (hchars last hmem) 46 (List.mem_of_getLast? hlast)
    exact absurd hdot (by decide)

/-! ## Replies -/

/-- A record of the answer section. -/
structure Answer where
  /-- The name it is for. -/
  owner : List (List UInt8)
  /-- Where its type stands. -/
  place : ℕ
  /-- `aqtype` -/
  aqtype : ℕ
  /-- `aqclass` -/
  aqclass : ℕ
  /-- `attl` -/
  attl : ℕ
  /-- `ardlen` -/
  ardlen : ℕ
  /-- The name in the data of a CNAME or PTR record. -/
  target : List (List UInt8)

/-- Where the data stands. -/
def Answer.rdata (r : Answer) : ℕ := r.place+10

/-- `endrr` -/
def Answer.endrr (r : Answer) : ℕ := r.rdata+r.ardlen

/-- A record stands at a position of the packet. -/
structure AnswerAt (packet : Packet) (p : ℕ) (r : Answer) : Prop where
  /-- Its name. -/
  owner : NameRead packet p r.owner r.place
  /-- Its type. -/
  aqtype : packet.short r.place=r.aqtype
  /-- Its class. -/
  aqclass : packet.short (r.place+2)=r.aqclass
  /-- Its time to live. -/
  attl : long packet (r.place+4)=r.attl
  /-- The length of its data. -/
  ardlen : packet.short (r.place+8)=r.ardlen
  /-- The data lies in the packet. -/
  inside : r.endrr≤packet.len
  /-- The data of a CNAME or PTR record is a name. -/
  target : r.aqclass=cIn → r.aqtype=tCname ∨ r.aqtype=tPtr →
    NameRead packet r.rdata r.target r.endrr ∧ AllowedChars r.target
  /-- The data of an A record is an IPv4 address. -/
  inet : r.aqclass=cIn → r.aqtype=tA → r.ardlen=4
  /-- The data of an AAAA record is an IPv6 address. -/
  inet6 : r.aqclass=cIn → r.aqtype=tAaaa → r.ardlen=16

/-- Records stand one behind the other. -/
def AnswersAt (packet : Packet) : ℕ → List Answer → Prop
  | _,[] => True
  | p,r::records => AnswerAt packet p r ∧ AnswersAt packet r.endrr records

/-- Two names are the same up to case. -/
def sameName (a b : List (List UInt8)) : Bool :=
  (spelling a).map toLower==(spelling b).map toLower

/-- The record belongs to the name. -/
def ownedBy (name : List (List UInt8)) (r : Answer) : Bool :=
  r.aqclass==cIn && sameName r.owner name

/-- A well-formed reply to one question. -/
structure Reply (packet : Packet) (question : List (List UInt8)) (qtype : ℕ)
    (records : List Answer) : Prop where
  /-- There is one question. -/
  qdcount : packet.qdcount=1
  /-- Its name has allowed characters. -/
  chars : AllowedChars question
  /-- It stands behind the header, and the answers stand behind it. -/
  layout : ∃ q, NameRead packet headerSize question q ∧ q+4≤packet.len ∧
    packet.short q=qtype ∧ packet.short (q+2)=cIn ∧ AnswersAt packet (q+4) records
  /-- The answers are these. -/
  ancount : ancount packet=records.length
  /-- A name with a CNAME record has none of the records asked for. -/
  alone : ∀ c∈records, ∀ r∈records, c.aqtype=tCname → r.aqtype=qtype →
    ownedBy c.owner c=true → ownedBy c.owner r=false
  /-- The CNAME records of a name agree. -/
  single : ∀ c∈records, ∀ c'∈records, c.aqtype=tCname → c'.aqtype=tCname →
    ownedBy c.owner c=true → ownedBy c.owner c'=true → sameName c'.target c.target=true

/-- A chain of so many CNAME records from a name to a record that was asked for. -/
inductive Chain (records : List Answer) (qtype : ℕ) : ℕ → List (List UInt8) → Answer → Prop
  /-- A record that the name has. -/
  | final {name r} : r∈records → r.aqtype=qtype → ownedBy name r=true →
      Chain records qtype 0 name r
  /-- A CNAME record that the name has, and a chain from its target. -/
  | follow {k name c r} : c∈records → c.aqtype=tCname → ownedBy name c=true →
      Chain records qtype k c.target r → Chain records qtype (k+1) name r

theorem sameName_iff {a b : List (List UInt8)} :
    sameName a b=true ↔ (spelling a).map toLower=(spelling b).map toLower := beq_iff_eq

theorem ownedBy_iff {name : List (List UInt8)} {r : Answer} :
    ownedBy name r=true ↔ r.aqclass=cIn ∧ sameName r.owner name=true := by
  rw [ownedBy,Bool.and_eq_true,beq_iff_eq]

theorem ownedBy_congr {a b : List (List UInt8)} (h : sameName a b=true) (r : Answer) :
    ownedBy a r=ownedBy b r := by
  rw [ownedBy,ownedBy,sameName,sameName,sameName_iff.mp h]

/-- A name with other capitals has the same chains. -/
theorem Chain.congr {records : List Answer} {qtype k : ℕ} {a b : List (List UInt8)} {r : Answer}
    (hab : sameName a b=true) (h : Chain records qtype k a r) : Chain records qtype k b r := by
  cases h with
  | final hr htype ho => exact .final hr htype (ownedBy_congr hab r ▸ ho)
  | follow hc htype ho rest => exact .follow hc htype (ownedBy_congr hab _ ▸ ho) rest

/-! ## One record -/

/-- The records that were inserted, by the position of their data. -/
def marks (calls : List CacheCall) : List (ℕ×NewRecord) :=
  calls.filterMap fun call =>
    match call with
    | .insert (some record) new => some (record,new)
    | _ => none

@[simp] theorem marks_append (a b : List CacheCall) : marks (a++b)=marks a++marks b :=
  List.filterMap_append

@[simp] theorem marks_insert (record : ℕ) (new : NewRecord) :
    marks [.insert (some record) new]=[(record,new)] := rfl

@[simp] theorem marks_negative (new : NewRecord) : marks [.insert none new]=[] := rfl

@[simp] theorem marks_callLink (newc : Option ℕ) (s : Search) :
    marks (callLink newc s).calls=marks s.calls := by
  unfold callLink
  split
  · exact (marks_append _ _).trans (List.append_nil _)
  · rfl

@[simp] theorem callLink_name (newc : Option ℕ) (s : Search) : (callLink newc s).name=s.name := by
  unfold callLink
  split <;> rfl

/-- What is called up to the end of a scan. -/
def Scanned.calls : Scanned → List CacheCall
  | .finished s => s.calls
  | .restart s => s.calls
  | .quit _ calls => calls

variable {cx : Context} {p1 j count qtype addrlen : ℕ} {flags : Flags} {s : Search} {r : Answer}
  {cur : List (List UInt8)}

/-- What the comparison of the owner of a record returns. -/
theorem AnswerAt.compare (h : AnswerAt packet p1 r) {name : List UInt8}
    (hname : name=spelling cur) (hdot : (spelling cur).getLast?≠some 46) :
    ∃ v, compareName packet p1 10 name=(v,some r.place) ∧
      (packet.short (r.place+2)=cIn ∧ v≠2 ↔ ownedBy cur r=true) := by
  have hinside := h.inside
  simp only [Answer.endrr,Answer.rdata] at hinside
  obtain ⟨v,hv,hiff⟩ := @compareName_of_read packet p1 r.place 10 r.owner h.owner (by omega) name
    (hname ▸ hdot)
  refine ⟨v,hv,?_⟩
  rw [hiff,ownedBy_iff,h.aqclass,sameName_iff,hname]

/-- A record of another name or another type is passed over. -/
theorem addressScan_other (h : AnswerAt cx.packet p1 r) (hname : s.name=spelling cur)
    (hdot : (spelling cur).getLast?≠some 46)
    (hno : ¬(ownedBy cur r=true ∧ (r.aqtype=tCname ∨ r.aqtype=qtype))) :
    addressScan cx qtype addrlen flags count (j+1) p1 s=
      addressScan cx qtype addrlen flags count j r.endrr s := by
  obtain ⟨v,hv,hown⟩ := h.compare hname hdot
  rw [addressScan,hv]
  simp only [h.aqtype,Nat.add_sub_cancel]
  have hlen : r.place+10-2=r.place+8 := by omega
  rw [if_neg (fun hn => hno ⟨hown.mp ⟨hn.1,hn.2.1⟩,.inl hn.2.2⟩),
    if_neg (fun hn => hno ⟨hown.mp ⟨hn.1,hn.2.1⟩,.inr hn.2.2⟩),hlen,h.ardlen]
  exact if_pos (checkLen_iff.mpr h.inside)

/-- At a CNAME record of the name the scan starts again with its target. -/
theorem addressScan_cname (h : AnswerAt cx.packet p1 r) (hname : s.name=spelling cur)
    (hdot : (spelling cur).getLast?≠some 46) (ho : ownedBy cur r=true) (ht : r.aqtype=tCname)
    (hcount : count≠0) :
    ∃ s', addressScan cx qtype addrlen flags count (j+1) p1 s=.restart s' ∧
      s'.name=spelling r.target ∧
      marks s'.calls=marks s.calls++
        [(r.rdata,⟨some s.name,none,cx.now,r.attl,fCname ||| fForward⟩)] := by
  obtain ⟨v,hv,hown⟩ := h.compare hname hdot
  obtain ⟨hclass,hv2⟩ := hown.mpr ho
  obtain ⟨htarget,hchars⟩ := h.target (h.aqclass ▸ hclass) (.inl ht)
  have hext := @extractName_of_read cx.packet r.rdata r.endrr 0 r.target htarget hchars h.inside
  rw [addressScan,hv]
  simp only [h.aqtype,h.attl]
  rw [if_pos ⟨hclass,hv2,ht⟩,if_neg hcount]
  simp only [Answer.rdata] at hext
  simp only [hext]
  refine ⟨_,rfl,rfl,?_⟩
  simp [callInsert,Answer.rdata]

/-- The address of the record is refused. -/
def blocks (d : Daemon) (packet : Packet) (qtype : ℕ) (r : Answer) : Bool :=
  d.noRebind && qtype==tA && privateNet (addrAt packet r.rdata)

/-- The record that is inserted for an answer. -/
def newRecord (cx : Context) (name : List UInt8) (flags : Flags) (r : Answer) : NewRecord :=
  ⟨some name,some (bytesAt cx.packet r.rdata r.ardlen),cx.now,r.attl,flags ||| fForward⟩

/-- A refused address ends the scan. -/
theorem addressScan_blocked (h : AnswerAt cx.packet p1 r) (hname : s.name=spelling cur)
    (hdot : (spelling cur).getLast?≠some 46) (ho : ownedBy cur r=true) (ht : r.aqtype=qtype)
    (hq : qtype≠tCname) (hlen : r.ardlen=addrlen) (hflags : has flags fIpv4=(qtype==tA))
    (hb : blocks cx.d cx.packet qtype r=true) :
    addressScan cx qtype addrlen flags count (j+1) p1 s=.quit 1 s.calls := by
  obtain ⟨v,hv,hown⟩ := h.compare hname hdot
  obtain ⟨hclass,hv2⟩ := hown.mpr ho
  simp only [blocks,Bool.and_eq_true,← hflags,Answer.rdata] at hb
  have hinside := h.inside
  rw [Answer.endrr,Answer.rdata,hlen] at hinside
  rw [addressScan,hv]
  simp only [h.aqtype,h.attl]
  rw [if_neg (fun hn => hq (ht.symm.trans hn.2.2)),if_pos ⟨hclass,hv2,ht⟩,
    if_pos (checkLen_iff.mpr hinside),if_pos ⟨hb.1.1,hb.1.2,hb.2⟩]

/-- A record that was asked for is inserted. -/
theorem addressScan_answer (h : AnswerAt cx.packet p1 r) (hname : s.name=spelling cur)
    (hdot : (spelling cur).getLast?≠some 46) (ho : ownedBy cur r=true) (ht : r.aqtype=qtype)
    (hq : qtype≠tCname) (hlen : r.ardlen=addrlen) (hflags : has flags fIpv4=(qtype==tA))
    (hb : blocks cx.d cx.packet qtype r=false) :
    ∃ s', addressScan cx qtype addrlen flags count (j+1) p1 s=
        addressScan cx qtype addrlen flags count j r.endrr s' ∧ s'.name=s.name ∧
      marks s'.calls=marks s.calls++[(r.rdata,newRecord cx s.name flags r)] := by
  obtain ⟨v,hv,hown⟩ := h.compare hname hdot
  obtain ⟨hclass,hv2⟩ := hown.mpr ho
  have hinside := h.inside
  have hlen' : r.place+10-2=r.place+8 := by omega
  rw [addressScan,hv]
  simp only [h.aqtype,h.attl,hlen',h.ardlen]
  rw [if_neg (fun hn => hq (ht.symm.trans hn.2.2)),if_pos ⟨hclass,hv2,ht⟩,
    if_pos (checkLen_iff.mpr (by rw [← hlen]; exact hinside)),if_neg]
  · refine ⟨_,if_pos (checkLen_iff.mpr hinside),?_,?_⟩
    · exact callLink_name _ _
    · simp [callInsert,newRecord,Answer.rdata,hlen]
  · intro hn
    simp only [blocks,← hflags,Answer.rdata,hn.1,hn.2.1,hn.2.2] at hb
    exact absurd hb (by decide)

section Ptr

variable {namep q : ℕ} {encoding : Flags} {addr : List UInt8}
  (hname : extractName cx.packet namep 0=some (spelling cur,q))
  (hdot : (spelling cur).getLast?≠some 46)

include hname hdot

/-- A record of another name or another type is passed over. -/
theorem ptrScan_other (h : AnswerAt cx.packet p1 r)
    (hno : ¬(ownedBy cur r=true ∧ (r.aqtype=tCname ∨ r.aqtype=tPtr))) :
    ∃ s', ptrScan cx namep encoding addr count (j+1) p1 s=
        ptrScan cx namep encoding addr count j r.endrr s' ∧ s'.calls=s.calls := by
  obtain ⟨v,hv,hown⟩ := h.compare rfl hdot
  have hlen : r.place+10-2=r.place+8 := by omega
  rw [ptrScan,hname]
  simp only [hv,h.aqtype,h.attl,hlen,h.ardlen]
  rw [if_neg (fun hn => hno ⟨hown.mp ⟨hn.1,hn.2.1⟩,hn.2.2⟩)]
  exact ⟨_,if_pos (checkLen_iff.mpr h.inside),rfl⟩

/-- At a CNAME record of the name the scan starts again, if it may. -/
theorem ptrScan_cname (h : AnswerAt cx.packet p1 r) (ho : ownedBy cur r=true)
    (ht : r.aqtype=tCname) :
    ∃ s', ptrScan cx namep encoding addr count (j+1) p1 s=
        (if count=0 then .quit 0 s.calls else .restart s') ∧ s'.calls=s.calls := by
  obtain ⟨v,hv,hown⟩ := h.compare rfl hdot
  obtain ⟨hclass,hv2⟩ := hown.mpr ho
  obtain ⟨htarget,hchars⟩ := h.target (h.aqclass ▸ hclass) (.inl ht)
  have hext := @extractName_of_read cx.packet r.rdata r.endrr 0 r.target htarget hchars h.inside
  rw [Answer.rdata] at hext
  rw [ptrScan,hname]
  simp only [hv,h.aqtype,h.attl]
  rw [if_pos ⟨hclass,hv2,.inl ht⟩]
  simp only [hext]
  exact ⟨_,if_pos ht,rfl⟩

/-- A PTR record of the name is inserted. -/
theorem ptrScan_answer (h : AnswerAt cx.packet p1 r) (ho : ownedBy cur r=true)
    (ht : r.aqtype=tPtr) :
    ∃ s' ttl, ptrScan cx namep encoding addr count (j+1) p1 s=
        ptrScan cx namep encoding addr count j r.endrr s' ∧ ttl≤r.attl ∧
      marks s'.calls=marks s.calls++[(r.rdata,
        ⟨some (spelling r.target),some addr,cx.now,ttl,encoding ||| fReverse⟩)] := by
  obtain ⟨v,hv,hown⟩ := h.compare rfl hdot
  obtain ⟨hclass,hv2⟩ := hown.mpr ho
  obtain ⟨htarget,hchars⟩ := h.target (h.aqclass ▸ hclass) (.inr ht)
  have hext := @extractName_of_read cx.packet r.rdata r.endrr 0 r.target htarget hchars h.inside
  have hlen : r.place+10-2=r.place+8 := by omega
  have hne : r.aqtype≠tCname := by rw [ht]; decide
  rw [Answer.rdata] at hext
  rw [ptrScan,hname]
  simp only [hv,h.aqtype,h.attl,hlen,h.ardlen]
  rw [if_pos ⟨hclass,hv2,.inr ht⟩]
  simp only [hext,if_neg hne]
  refine ⟨_,min r.attl s.cttl,if_pos (checkLen_iff.mpr h.inside),Nat.min_le_left _ _,?_⟩
  simp [callInsert,Answer.rdata]

end Ptr

/-! ## All records -/

/-- The answers that the name has. -/
def answersOf (qtype : ℕ) (name : List (List UInt8)) (records : List Answer) : List Answer :=
  records.filter fun r => ownedBy name r && r.aqtype==qtype

/-- The answers that the name has in front of the first address that is refused. -/
def admitted (d : Daemon) (packet : Packet) (qtype : ℕ) (name : List (List UInt8))
    (records : List Answer) : List Answer :=
  (answersOf qtype name records).takeWhile fun r => !blocks d packet qtype r

theorem answersOf_cons (qtype : ℕ) (name : List (List UInt8)) (r : Answer)
    (records : List Answer) : answersOf qtype name (r::records)=
      if ownedBy name r=true ∧ r.aqtype=qtype then r::answersOf qtype name records
      else answersOf qtype name records := by
  rw [answersOf,List.filter_cons]
  simp only [Bool.and_eq_true,beq_iff_eq]
  rfl

theorem mem_answersOf {name : List (List UInt8)} {records : List Answer} :
    r∈answersOf qtype name records ↔ r∈records ∧ ownedBy name r=true ∧ r.aqtype=qtype := by
  rw [answersOf,List.mem_filter,Bool.and_eq_true,beq_iff_eq]

/-- The last scan: the name has no CNAME record. What was asked for is inserted
up to the first address that is refused. -/
theorem addressScan_final {records : List Answer} (hdot : (spelling cur).getLast?≠some 46)
    (hq : qtype≠tCname) (hflags : has flags fIpv4=(qtype==tA))
    (hlen : ∀ r∈records, ownedBy cur r=true → r.aqtype=qtype → r.ardlen=addrlen)
    (hno : ∀ r∈records, ownedBy cur r=true → r.aqtype≠tCname) :
    ∀ {p1 : ℕ} {s : Search}, AnswersAt cx.packet p1 records → s.name=spelling cur →
      ∃ ended, addressScan cx qtype addrlen flags count records.length p1 s=ended ∧
        (∀ s', ended≠.restart s') ∧
        marks (Scanned.calls ended)=marks s.calls++
          (admitted cx.d cx.packet qtype cur records).map
            fun r => (r.rdata,newRecord cx (spelling cur) flags r) := by
  induction records with
  | nil =>
    intro p1 s _ _
    exact ⟨.finished s,rfl,fun _ h => (by cases h),(List.append_nil _).symm⟩
  | cons r records ih =>
    intro p1 s hat hname
    have hih := @ih (fun t ht => hlen t (List.mem_cons_of_mem _ ht))
      (fun t ht => hno t (List.mem_cons_of_mem _ ht)) r.endrr
    rw [List.length_cons,admitted,answersOf_cons]
    by_cases ho : ownedBy cur r=true ∧ r.aqtype=qtype
    · rw [if_pos ho,List.takeWhile_cons]
      have hr := hlen r List.mem_cons_self ho.1 ho.2
      cases hb : blocks cx.d cx.packet qtype r with
      | true =>
        rw [addressScan_blocked hat.1 hname hdot ho.1 ho.2 hq hr hflags hb]
        exact ⟨_,rfl,fun _ h => (by cases h),(List.append_nil _).symm⟩
      | false =>
        obtain ⟨s',hscan,hname',hmarks⟩ := @addressScan_answer cx p1 records.length count qtype
          addrlen flags s r cur hat.1 hname hdot ho.1 ho.2 hq hr hflags hb
        obtain ⟨ended,hended,hnr,hcalls⟩ := hih hat.2 (hname'.trans hname)
        refine ⟨ended,hscan.trans hended,hnr,?_⟩
        rw [hcalls,hmarks,hname,List.append_assoc]
        rfl
    · rw [if_neg ho]
      have hskip : ¬(ownedBy cur r=true ∧ (r.aqtype=tCname ∨ r.aqtype=qtype)) := by
        rintro ⟨hown,ht | ht⟩
        · exact hno r List.mem_cons_self hown ht
        · exact ho ⟨hown,ht⟩
      rw [addressScan_other hat.1 hname hdot hskip]
      exact hih hat.2 hname

/-- A scan in front of the last: the name has a CNAME record and none of the
records asked for. -/
theorem addressScan_alias {records : List Answer} (hdot : (spelling cur).getLast?≠some 46)
    (hno : ∀ r∈records, ownedBy cur r=true → r.aqtype≠qtype) (hcount : count≠0)
    (hsome : ∃ c∈records, ownedBy cur c=true ∧ c.aqtype=tCname) :
    ∀ {p1 : ℕ} {s : Search}, AnswersAt cx.packet p1 records → s.name=spelling cur →
      ∃ s' c, addressScan cx qtype addrlen flags count records.length p1 s=.restart s' ∧
        c∈records ∧ ownedBy cur c=true ∧ c.aqtype=tCname ∧ s'.name=spelling c.target ∧
        (spelling c.target).getLast?≠some 46 ∧ marks s'.calls=marks s.calls++
          [(c.rdata,⟨some (spelling cur),none,cx.now,c.attl,fCname ||| fForward⟩)] := by
  induction records with
  | nil =>
    obtain ⟨c,hc,-⟩ := hsome
    cases hc
  | cons r records ih =>
    intro p1 s hat hname
    rw [List.length_cons]
    by_cases ho : ownedBy cur r=true ∧ r.aqtype=tCname
    · obtain ⟨s',hscan,hname',hmarks⟩ := @addressScan_cname cx p1 records.length count qtype
        addrlen flags s r cur hat.1 hname hdot ho.1 ho.2 hcount
      obtain ⟨htarget,hchars⟩ := hat.1.target (ownedBy_iff.mp ho.1).1 (.inl ho.2)
      exact ⟨s',r,hscan,List.mem_cons_self,ho.1,ho.2,hname',htarget.getLast?_ne hchars,
        hname ▸ hmarks⟩
    · have hskip : ¬(ownedBy cur r=true ∧ (r.aqtype=tCname ∨ r.aqtype=qtype)) := by
        rintro ⟨hown,ht | ht⟩
        · exact ho ⟨hown,ht⟩
        · exact hno r List.mem_cons_self hown ht
      have hsome' : ∃ c∈records, ownedBy cur c=true ∧ c.aqtype=tCname := by
        obtain ⟨c,hc,hown,ht⟩ := hsome
        rcases List.mem_cons.mp hc with rfl | hc
        · exact absurd ⟨hown,ht⟩ ho
        · exact ⟨c,hc,hown,ht⟩
      obtain ⟨s',c,hscan,hc,hrest⟩ := ih (fun t ht => hno t (List.mem_cons_of_mem _ ht)) hsome'
        hat.2 hname
      rw [addressScan_other hat.1 hname hdot hskip]
      exact ⟨s',c,hscan,List.mem_cons_of_mem _ hc,hrest⟩

section Ptr

variable {namep q : ℕ} {encoding : Flags} {addr : List UInt8}
  (hname : extractName cx.packet namep 0=some (spelling cur,q))
  (hdot : (spelling cur).getLast?≠some 46)

include hname hdot

/-- The scan for a PTR question whose name has no CNAME record inserts what was asked for. -/
theorem ptrScan_final {records : List Answer}
    (hno : ∀ r∈records, ownedBy cur r=true → r.aqtype≠tCname) :
    ∀ {p1 : ℕ} {s : Search}, AnswersAt cx.packet p1 records →
      ∃ s' news, ptrScan cx namep encoding addr count records.length p1 s=.finished s' ∧
        marks s'.calls=marks s.calls++news ∧
        List.Forall₂ (fun r m => ∃ ttl, ttl≤r.attl ∧ m=(r.rdata,
          (⟨some (spelling r.target),some addr,cx.now,ttl,encoding ||| fReverse⟩ : NewRecord)))
          (answersOf tPtr cur records) news := by
  induction records with
  | nil => exact fun {p1 s} _ => ⟨s,[],rfl,(List.append_nil _).symm,.nil⟩
  | cons r records ih =>
    intro p1 s hat
    rw [List.length_cons,answersOf_cons]
    have hno' := fun t ht => hno t (List.mem_cons_of_mem _ ht)
    by_cases ho : ownedBy cur r=true ∧ r.aqtype=tPtr
    · obtain ⟨s',ttl,hscan,httl,hmarks⟩ := @ptrScan_answer cx p1 records.length count s r cur
        namep q encoding addr hname hdot hat.1 ho.1 ho.2
      obtain ⟨s'',news,hrest,hcalls,hall⟩ := @ih hno' r.endrr s' hat.2
      refine ⟨s'',(r.rdata,⟨some (spelling r.target),some addr,cx.now,ttl,
        encoding ||| fReverse⟩)::news,hscan.trans hrest,?_,?_⟩
      · rw [hcalls,hmarks,List.append_assoc]
        rfl
      · rw [if_pos ho]
        exact .cons ⟨ttl,httl,rfl⟩ hall
    · have hskip : ¬(ownedBy cur r=true ∧ (r.aqtype=tCname ∨ r.aqtype=tPtr)) := by
        rintro ⟨hown,ht | ht⟩
        · exact hno r List.mem_cons_self hown ht
        · exact ho ⟨hown,ht⟩
      obtain ⟨s',hscan,hsame⟩ := @ptrScan_other cx p1 records.length count s r cur namep q encoding
        addr hname hdot hat.1 hskip
      obtain ⟨s'',news,hrest,hcalls,hall⟩ := @ih hno' r.endrr s' hat.2
      rw [if_neg ho]
      exact ⟨s'',news,hscan.trans hrest,hsame ▸ hcalls,hall⟩

/-- The scan for a PTR question whose name has a CNAME record and no PTR record
inserts nothing and starts again, if it may. -/
theorem ptrScan_alias {records : List Answer}
    (hno : ∀ r∈records, ownedBy cur r=true → r.aqtype≠tPtr)
    (hsome : ∃ c∈records, ownedBy cur c=true ∧ c.aqtype=tCname) :
    ∀ {p1 : ℕ} {s : Search}, AnswersAt cx.packet p1 records →
      ∃ s', ptrScan cx namep encoding addr count records.length p1 s=
        (if count=0 then .quit 0 s.calls else .restart s') ∧ s'.calls=s.calls := by
  induction records with
  | nil =>
    obtain ⟨c,hc,-⟩ := hsome
    cases hc
  | cons r records ih =>
    intro p1 s hat
    rw [List.length_cons]
    by_cases ho : ownedBy cur r=true ∧ r.aqtype=tCname
    · exact ptrScan_cname hname hdot hat.1 ho.1 ho.2
    · have hskip : ¬(ownedBy cur r=true ∧ (r.aqtype=tCname ∨ r.aqtype=tPtr)) := by
        rintro ⟨hown,ht | ht⟩
        · exact ho ⟨hown,ht⟩
        · exact hno r List.mem_cons_self hown ht
      have hsome' : ∃ c∈records, ownedBy cur c=true ∧ c.aqtype=tCname := by
        obtain ⟨c,hc,hown,ht⟩ := hsome
        rcases List.mem_cons.mp hc with rfl | hc
        · exact absurd ⟨hown,ht⟩ ho
        · exact ⟨c,hc,hown,ht⟩
      obtain ⟨s',hscan,hsame⟩ := @ptrScan_other cx p1 records.length count s r cur namep q encoding
        addr hname hdot hat.1 hskip
      obtain ⟨s'',hrest,hcalls⟩ := @ih (fun t ht => hno t (List.mem_cons_of_mem _ ht)) hsome'
        r.endrr s' hat.2
      rw [hsame] at hrest hcalls
      exact ⟨s'',hscan.trans hrest,hcalls⟩

end Ptr

/-! ## All scans -/

theorem ownedBy_self {c : Answer} (h : ownedBy cur c=true) : ownedBy c.owner c=true := by
  rw [ownedBy_iff]
  exact ⟨(ownedBy_iff.mp h).1,sameName_iff.mpr rfl⟩

theorem ownedBy_owner {c : Answer} (h : ownedBy cur c=true) (r : Answer) :
    ownedBy c.owner r=ownedBy cur r :=
  ownedBy_congr (ownedBy_iff.mp h).2 r

/-- A name with a CNAME record has none of the records that were asked for. -/
theorem Reply.not_both {question : List (List UInt8)} {records : List Answer}
    (w : Reply packet question qtype records) {c r : Answer} (hc : c∈records)
    (hoc : ownedBy cur c=true) (htc : c.aqtype=tCname) (hr : r∈records)
    (hor : ownedBy cur r=true) : r.aqtype≠qtype := by
  intro ht
  have hno := w.alone c hc r hr htc ht (ownedBy_self hoc)
  rw [ownedBy_owner hoc,hor] at hno
  cases hno

theorem admitted_congr {a b : List (List UInt8)} (h : sameName a b=true) (d : Daemon)
    (packet : Packet) (qtype : ℕ) (records : List Answer) :
    admitted d packet qtype a records=admitted d packet qtype b records := by
  rw [admitted,admitted,answersOf,answersOf]
  simp only [ownedBy_congr h]

/-- From a chain to a record, the scans end with the records that the name of
that record has. -/
theorem cnameLoop_chain {question : List (List UInt8)} {records : List Answer} {start : ℕ}
    (w : Reply cx.packet question qtype records) (hskip : skipQuestions cx.packet=some start)
    (hat : AnswersAt cx.packet start records) (hq : qtype≠tCname)
    (hflags : has flags fIpv4=(qtype==tA))
    (hlen : ∀ r∈records, r.aqclass=cIn → r.aqtype=qtype → r.ardlen=addrlen) :
    ∀ {k count : ℕ} {s : Search} {cur : List (List UInt8)}, Chain records qtype k cur r →
      k≤count → s.name=spelling cur → (spelling cur).getLast?≠some 46 →
      ∃ ended earlier name,
        cnameLoop cx.packet (addressScan cx qtype addrlen flags) count s=ended ∧
        (∀ s', ended≠.restart s') ∧ name.map toLower=(spelling r.owner).map toLower ∧
        (∀ m∈earlier, ∃ c∈records, c.aqtype=tCname ∧ m.1=c.rdata) ∧
        marks (Scanned.calls ended)=marks s.calls++(earlier++
          (admitted cx.d cx.packet qtype r.owner records).map
            fun x => (x.rdata,newRecord cx name flags x)) := by
  intro k
  induction k with
  | zero =>
    intro count s cur hchain _ hname hdot
    cases hchain with
    | final hr ht ho =>
      have hsame := (ownedBy_iff.mp ho).2
      obtain ⟨ended,hended,hnr,hmarks⟩ := @addressScan_final cx count qtype addrlen flags cur
        records hdot hq hflags (fun x hx hox htx => hlen x hx (ownedBy_iff.mp hox).1 htx)
        (fun c hc hoc htc => w.not_both hc hoc htc hr ho ht) start s hat hname
      refine ⟨ended,[],spelling cur,?_,hnr,(sameName_iff.mp hsame).symm,
        fun _ hm => (by cases hm),?_⟩
      · rw [cnameLoop.eq_def]
        simp only [hskip,w.ancount,hended]
      · rw [hmarks,admitted_congr hsame]
        rfl
  | succ k ih =>
    intro count s cur hchain hk hname hdot
    cases hchain with
    | @follow _ _ c _ hc ht ho rest =>
      obtain ⟨count,rfl⟩ := Nat.exists_eq_add_of_le' hk
      obtain ⟨s',c',hscan,hc',ho',ht',hname',hdot',hmarks⟩ := @addressScan_alias cx (count+k+1)
        qtype addrlen flags cur records hdot
        (fun x hx hox => w.not_both hc ho ht hx hox) (Nat.succ_ne_zero _) ⟨c,hc,ho,ht⟩ start s hat
        hname
      have hsame := w.single c hc c' hc' ht ht' (ownedBy_self ho)
        ((ownedBy_owner ho c').trans ho')
      have hsame' : sameName c.target c'.target=true :=
        sameName_iff.mpr (sameName_iff.mp hsame).symm
      obtain ⟨ended,earlier,name,hloop,hnr,hn,hall,hcalls⟩ := @ih (count+k) s' c'.target
        (rest.congr hsame') (Nat.le_add_left _ _) hname' hdot'
      refine ⟨ended,(c'.rdata,⟨some (spelling cur),none,cx.now,c'.attl,fCname ||| fForward⟩)::
        earlier,name,?_,hnr,hn,fun m hm => ?_,?_⟩
      · rw [← Nat.add_assoc,cnameLoop]
        simp only [hskip,w.ancount,hscan]
        exact hloop
      · rcases List.mem_cons.mp hm with rfl | hm
        · exact ⟨c',hc',ht',rfl⟩
        · exact hall m hm
      · rw [hcalls,hmarks,List.append_assoc]
        rfl

/-- A PTR question whose name has a CNAME record ends without an insertion. -/
theorem cnameLoop_ptr_alias {question : List (List UInt8)} {records : List Answer}
    {start namep q : ℕ} {encoding : Flags} {addr : List UInt8}
    (w : Reply cx.packet question qtype records) (hskip : skipQuestions cx.packet=some start)
    (hat : AnswersAt cx.packet start records)
    (hname : extractName cx.packet namep 0=some (spelling cur,q))
    (hdot : (spelling cur).getLast?≠some 46)
    (hno : ∀ r∈records, ownedBy cur r=true → r.aqtype≠tPtr)
    (hsome : ∃ c∈records, ownedBy cur c=true ∧ c.aqtype=tCname) :
    ∀ {count : ℕ} {s : Search},
      cnameLoop cx.packet (ptrScan cx namep encoding addr) count s=.quit 0 s.calls := by
  intro count
  induction count with
  | zero =>
    intro s
    obtain ⟨s',hscan,-⟩ := @ptrScan_alias cx 0 cur namep q encoding addr hname hdot records hno
      hsome start s hat
    rw [cnameLoop]
    simp only [hskip,w.ancount,hscan,if_true]
  | succ count ih =>
    intro s
    obtain ⟨s',hscan,hcalls⟩ := @ptrScan_alias cx (count+1) cur namep q encoding addr hname hdot
      records hno hsome start s hat
    rw [if_neg (Nat.succ_ne_zero count)] at hscan
    rw [cnameLoop]
    simp only [hskip,w.ancount,hscan]
    rw [ih,hcalls]

/-! ## The whole reply -/

theorem place_gt {records : List Answer} :
    ∀ {p : ℕ}, AnswersAt packet p records → ∀ x∈records, p<x.place := by
  induction records with
  | nil => exact fun _ x hx => by cases hx
  | cons r records ih =>
    intro p hat x hx
    have hr := hat.1.owner.ends.lt
    rcases List.mem_cons.mp hx with rfl | hx
    · exact hr
    · have hlt := ih hat.2 x hx
      simp only [Answer.endrr,Answer.rdata] at hlt
      omega

/-- Records with their data at the same position are the same. -/
theorem rdata_inj {records : List Answer} :
    ∀ {p : ℕ}, AnswersAt packet p records → ∀ x∈records, ∀ y∈records, x.rdata=y.rdata → x=y := by
  induction records with
  | nil => exact fun _ x hx => by cases hx
  | cons r records ih =>
    intro p hat x hmx y hmy hxy
    have hlater : ∀ z∈records, r.rdata≠z.rdata := by
      intro z hz heq
      have hlt := place_gt hat.2 z hz
      simp only [Answer.endrr,Answer.rdata] at hlt heq
      omega
    rcases List.mem_cons.mp hmx with rfl | hx
    · rcases List.mem_cons.mp hmy with rfl | hy
      · rfl
      · exact absurd hxy (hlater y hy)
    · rcases List.mem_cons.mp hmy with rfl | hy
      · exact absurd hxy.symm (hlater x hx)
      · exact ih hat.2 x hx y hy hxy

theorem mem_marks {calls : List CacheCall} {record : ℕ} {new : NewRecord} :
    (record,new)∈marks calls ↔ CacheCall.insert (some record) new∈calls := by
  rw [marks,List.mem_filterMap]
  constructor
  · rintro ⟨call,hcall,heq⟩
    split at heq
    · cases heq
      exact hcall
    · cases heq
  · exact fun h => ⟨_,h,rfl⟩

/-- The question section of a well-formed reply is read and passed over. -/
theorem Reply.questions {question : List (List UInt8)} {records : List Answer}
    (w : Reply packet question qtype records) :
    ∃ q, extractName packet headerSize 4=some (spelling question,q) ∧
      extractName packet headerSize 0=some (spelling question,q) ∧
      skipQuestions packet=some (q+4) ∧ packet.short q=qtype ∧ packet.short (q+2)=cIn ∧
      AnswersAt packet (q+4) records ∧ (spelling question).getLast?≠some 46 := by
  obtain ⟨q,hread,hlen,htype,hclass,hat⟩ := w.layout
  refine ⟨q,extractName_of_read hread w.chars hlen,extractName_of_read hread w.chars (by omega),
    ?_,htype,hclass,hat,hread.getLast?_ne w.chars⟩
  have hskip : skipName packet headerSize 4=some q :=
    skipName_iff.mpr ⟨⟨false,(walked_false_iff (by omega)).mpr hread.ends⟩,hlen⟩
  rw [skipQuestions,w.qdcount,skipQuestionsLoop,hskip]
  rfl

/-- What a PTR question inserts for records is what its scans insert. -/
theorem ptrQuestion_marks (cx : Context) (namep : ℕ) (encoding : Flags) (addr : List UInt8)
    (flags : Flags) (searched : Option ℕ) (s : Search) :
    marks (Scanned.calls (ptrQuestion cx namep encoding addr flags searched s).1)=
      marks (Scanned.calls (if has flags fNxdomain then .finished s
        else cnameLoop cx.packet (ptrScan cx namep encoding addr) cnameCount s)) := by
  unfold ptrQuestion
  generalize (if has flags fNxdomain then Scanned.finished s
    else cnameLoop cx.packet (ptrScan cx namep encoding addr) cnameCount s)=scanned
  cases scanned with
  | restart s => rfl
  | quit result calls => rfl
  | finished s =>
    dsimp only
    split_ifs <;> simp [callInsert,Scanned.calls]

/-- What an address question inserts for records is what its scans insert. -/
theorem addressQuestion_marks (cx : Context) (qtype addrlen : ℕ) (flags : Flags)
    (searched : Option ℕ) (s : Search) :
    marks (Scanned.calls (addressQuestion cx qtype addrlen flags searched s).1)=
      marks (Scanned.calls (if has flags fNxdomain then .finished s
        else cnameLoop cx.packet (addressScan cx qtype addrlen flags) cnameCount s)) := by
  unfold addressQuestion
  generalize (if has flags fNxdomain then Scanned.finished s
    else cnameLoop cx.packet (addressScan cx qtype addrlen flags) cnameCount s)=scanned
  cases scanned with
  | restart s => rfl
  | quit result calls => rfl
  | finished s =>
    dsimp only
    split_ifs <;> simp [callInsert,Scanned.calls]

theorem questionLoop_one {cx : Context} {p q : ℕ} {name : List UInt8} {searched : Option ℕ}
    {calls : List CacheCall} (hext : extractName cx.packet p 4=some (name,q)) :
    (questionLoop cx 1 p searched calls).1=
      Scanned.calls (question cx p q name searched calls).1 := by
  rw [questionLoop,hext]
  dsimp only
  rcases question cx p q name searched calls with ⟨_ | _ | _,_⟩ <;> rfl

/-- What a reply inserts for records is what its one question inserts. -/
theorem extractAddresses_marks {d : Daemon} {packet : Packet} {now : ℤ}
    {ins : List CacheCall → Option ℕ} {name : List UInt8} {q : ℕ}
    (hone : (received d packet).qdcount=1)
    (hext : extractName (received d packet) headerSize 4=some (name,q)) :
    ∃ searched, marks (extractAddresses d packet now ins).1=marks (Scanned.calls
      (question ⟨received d packet,d,now,ins⟩ headerSize q name searched [.startInsert]).1) := by
  refine ⟨if d.doctors.isEmpty then none else some (findSoa d packet).2,?_⟩
  unfold extractAddresses
  generalize (if d.doctors.isEmpty then none else some (findSoa d packet).2)=searched
  dsimp only
  rw [hone,← @questionLoop_one ⟨received d packet,d,now,ins⟩ headerSize q name searched
    [.startInsert] hext]
  rcases questionLoop ⟨received d packet,d,now,ins⟩ 1 headerSize searched [.startInsert] with
    ⟨calls,_ | result⟩
  · dsimp only
    split_ifs
    · rfl
    · exact (marks_append _ _).trans (List.append_nil _)
  · rfl

/-- The new record of the cache tells what the record of the reply says. -/
def Describes (cx : Context) (name : List (List UInt8)) (qtype : ℕ) (r : Answer)
    (new : NewRecord) : Prop :=
  new.now=cx.now ∧
  if qtype=tPtr then
    new.name=some (spelling r.target) ∧ new.ttl≤r.attl ∧
    ∃ encoding addr, inArpaName2Addr (spelling name)=some (encoding,addr) ∧
      new.addr=some addr ∧ new.flags=encoding ||| fReverse
  else
    (∃ text, new.name=some text ∧ text.map toLower=(spelling r.owner).map toLower) ∧
    new.ttl=r.attl ∧ new.addr=some (bytesAt cx.packet r.rdata r.ardlen) ∧
    new.flags=(if qtype=tA then fIpv4 else fIpv6) ||| fForward

/-- `extract_addresses` calls `cache_insert` for the record. -/
def Inserted (d : Daemon) (packet : Packet) (now : ℤ) (ins : List CacheCall → Option ℕ)
    (name : List (List UInt8)) (qtype : ℕ) (r : Answer) : Prop :=
  ∃ new, CacheCall.insert (some r.rdata) new∈(extractAddresses d packet now ins).1 ∧
    Describes ⟨received d packet,d,now,ins⟩ name qtype r new

/-- The reply is no `NXDOMAIN`, a PTR question is about the name of an address
that has the record without an alias, and none of the addresses up to the record
is refused. -/
def Reachable (d : Daemon) (packet : Packet) (name : List (List UInt8)) (qtype : ℕ)
    (records : List Answer) (k : ℕ) (r : Answer) : Prop :=
  packet.rcode≠nxdomain ∧
  (qtype=tPtr → k=0 ∧ (inArpaName2Addr (spelling name)).isSome) ∧
  r∈admitted d packet qtype r.owner records

variable {d : Daemon} {now : ℤ} {ins : List CacheCall → Option ℕ} {name : List (List UInt8)}
  {records : List Answer} {k : ℕ}

theorem Chain.mem {records : List Answer} {k : ℕ} {r : Answer} (h : Chain records qtype k cur r) :
    r∈records ∧ r.aqclass=cIn ∧ r.aqtype=qtype := by
  induction h with
  | final hr ht ho => exact ⟨hr,(ownedBy_iff.mp ho).1,ht⟩
  | follow _ _ _ _ ih => exact ih

theorem has_nxdomain (rcode : ℕ) (family : Flags) (h : family=0#16 ∨ family=fIpv4 ∨ family=fIpv6) :
    has ((if rcode=nxdomain then fNxdomain else 0#16) ||| family) fNxdomain=
      decide (rcode=nxdomain) := by
  by_cases hr : rcode=nxdomain
  · rw [if_pos hr,decide_eq_true hr]
    rcases h with rfl | rfl | rfl <;> decide
  · rw [if_neg hr,decide_eq_false hr]
    rcases h with rfl | rfl | rfl <;> decide

theorem answerAt_of_mem {records : List Answer} :
    ∀ {p : ℕ}, AnswersAt packet p records → ∀ x∈records, ∃ p, AnswerAt packet p x := by
  induction records with
  | nil => exact fun _ x hx => by cases hx
  | cons r records ih =>
    intro p hat x hx
    rcases List.mem_cons.mp hx with rfl | hx
    · exact ⟨p,hat.1⟩
    · exact ih hat.2 x hx

/-- The scans of an address question, whose addresses have so many bytes. -/
theorem question_address {cx : Context} {qtype addrlen : ℕ} {family : Flags} {q : ℕ}
    {text : List UInt8} {searched : Option ℕ} {calls : List CacheCall}
    (htype : cx.packet.short q=qtype) (hclass : cx.packet.short (q+2)=cIn)
    (hq : qtype=tA ∧ addrlen=4 ∧ family=fIpv4 ∨ qtype=tAaaa ∧ addrlen=16 ∧ family=fIpv6) :
    marks (Scanned.calls (question cx headerSize q text searched calls).1)=
      marks (Scanned.calls (if cx.packet.rcode=nxdomain
        then .finished ⟨text,false,none,cx.d.ulongMax,calls⟩
        else cnameLoop cx.packet (addressScan cx qtype addrlen family) cnameCount
          ⟨text,false,none,cx.d.ulongMax,calls⟩)) := by
  have hfamily : family=0#16 ∨ family=fIpv4 ∨ family=fIpv6 := by
    rcases hq with ⟨-,-,h⟩ | ⟨-,-,h⟩
    · exact .inr (.inl h)
    · exact .inr (.inr h)
  have hnx := has_nxdomain cx.packet.rcode family hfamily
  have hstep : question cx headerSize q text searched calls=addressQuestion cx qtype addrlen
      ((if cx.packet.rcode=nxdomain then fNxdomain else 0#16) ||| family) searched
      ⟨text,false,none,cx.d.ulongMax,calls⟩ := by
    unfold question
    rcases hq with ⟨rfl,rfl,rfl⟩ | ⟨rfl,rfl,rfl⟩
    · simp only [htype,hclass]
      rfl
    · simp only [htype,hclass]
      rfl
  rw [hstep,addressQuestion_marks,hnx]
  by_cases hr : cx.packet.rcode=nxdomain
  · simp only [hr,decide_true,if_true]
  · simp only [hr,decide_false,if_false,BitVec.zero_or]
    rfl

/-- An address question inserts the records at the end of the chain, up to the
first address that is refused. -/
theorem question_marks_address (w : Reply cx.packet name qtype records)
    (hq : qtype=tA ∨ qtype=tAaaa) (hchain : Chain records qtype k name r)
    (hk : k≤cnameCount) {q : ℕ} (hext : extractName cx.packet headerSize 4=some (spelling name,q))
    {searched : Option ℕ} {calls : List CacheCall} :
    ∃ earlier text, text.map toLower=(spelling r.owner).map toLower ∧
      (∀ m∈earlier, ∃ c∈records, c.aqtype=tCname ∧ m.1=c.rdata) ∧
      marks (Scanned.calls (question cx headerSize q (spelling name) searched calls).1)=
        marks calls++if cx.packet.rcode=nxdomain then [] else earlier++
          (admitted cx.d cx.packet qtype r.owner records).map fun x =>
            (x.rdata,newRecord cx text (if qtype=tA then fIpv4 else fIpv6) x) := by
  obtain ⟨q',hext',-,hskip,htype,hclass,hat,hdot⟩ := w.questions
  cases Option.some.inj (hext.symm.trans hext')
  have hkind : ∃ addrlen family, (qtype=tA ∧ addrlen=4 ∧ family=fIpv4 ∨
      qtype=tAaaa ∧ addrlen=16 ∧ family=fIpv6) ∧ family=(if qtype=tA then fIpv4 else fIpv6) ∧
      has family fIpv4=(qtype==tA) ∧ qtype≠tCname ∧
      ∀ x∈records, x.aqclass=cIn → x.aqtype=qtype → x.ardlen=addrlen := by
    rcases hq with rfl | rfl
    · refine ⟨4,fIpv4,.inl ⟨rfl,rfl,rfl⟩,rfl,by decide,by decide,fun x hx hc ht => ?_⟩
      obtain ⟨p,hx⟩ := answerAt_of_mem hat x hx
      exact hx.inet hc ht
    · refine ⟨16,fIpv6,.inr ⟨rfl,rfl,rfl⟩,rfl,by decide,by decide,fun x hx hc ht => ?_⟩
      obtain ⟨p,hx⟩ := answerAt_of_mem hat x hx
      exact hx.inet6 hc ht
  obtain ⟨addrlen,family,hcase,hfamily,hflags,hcname,hlen⟩ := hkind
  obtain ⟨ended,earlier,text,hloop,-,htext,hall,hmarks⟩ := @cnameLoop_chain cx qtype addrlen
    family r name records (q+4) w hskip hat hcname hflags hlen k cnameCount
    ⟨spelling name,false,none,cx.d.ulongMax,calls⟩ name hchain hk rfl hdot
  refine ⟨earlier,text,htext,hall,?_⟩
  rw [question_address htype hclass hcase,← hfamily]
  split_ifs
  · exact (List.append_nil _).symm
  · rw [hloop,hmarks]

/-- A PTR question inserts the records that its name has. -/
theorem question_marks_ptr (w : Reply cx.packet name tPtr records)
    (hchain : Chain records tPtr k name r) {q : ℕ}
    (hext : extractName cx.packet headerSize 4=some (spelling name,q))
    {searched : Option ℕ} {calls : List CacheCall} :
    ∃ news, marks (Scanned.calls (question cx headerSize q (spelling name) searched calls).1)=
        marks calls++news ∧
      if cx.packet.rcode≠nxdomain ∧ k=0 then
        match inArpaName2Addr (spelling name) with
        | none => news=[]
        | some (encoding,addr) =>
          List.Forall₂ (fun x m => ∃ ttl, ttl≤x.attl ∧ m=(x.rdata,
            (⟨some (spelling x.target),some addr,cx.now,ttl,encoding ||| fReverse⟩ : NewRecord)))
            (answersOf tPtr r.owner records) news
      else news=[] := by
  obtain ⟨q',hext',hext0,hskip,htype,hclass,hat,hdot⟩ := w.questions
  cases Option.some.inj (hext.symm.trans hext')
  cases harpa : inArpaName2Addr (spelling name) with
  | none =>
    refine ⟨[],?_,by split_ifs <;> rfl⟩
    unfold question
    simp only [htype,hclass,harpa]
    exact (List.append_nil _).symm
  | some found =>
    obtain ⟨encoding,addr⟩ := found
    have hstep : question cx headerSize q (spelling name) searched calls=
        ptrQuestion cx headerSize encoding addr
          (if cx.packet.rcode=nxdomain then fNxdomain else 0#16) searched
          ⟨spelling name,false,none,cx.d.ulongMax,calls⟩ := by
      unfold question
      simp only [htype,hclass,harpa]
      rfl
    have hnx := has_nxdomain cx.packet.rcode 0#16 (.inl rfl)
    rw [BitVec.or_zero] at hnx
    rw [hstep,ptrQuestion_marks,hnx]
    by_cases hr : cx.packet.rcode=nxdomain
    · refine ⟨[],?_,by rw [if_neg fun h => h.1 hr]⟩
      simp only [hr,decide_true,if_true]
      exact (List.append_nil _).symm
    · simp only [hr,decide_false,Bool.false_eq_true,if_false]
      cases hchain with
      | final hr' ht ho =>
        have hno : ∀ c∈records, ownedBy name c=true → c.aqtype≠tCname :=
          fun c hc hoc htc => w.not_both hc hoc htc hr' ho ht
        obtain ⟨s',news,hscan,hmarks,hall⟩ := @ptrScan_final cx cnameCount name headerSize q
          encoding addr hext0 hdot records hno (q+4)
          ⟨spelling name,false,none,cx.d.ulongMax,calls⟩ hat
        refine ⟨news,?_,?_⟩
        · rw [cnameLoop.eq_def]
          simp only [hskip,w.ancount,hscan]
          exact hmarks
        · rw [if_pos ⟨hr,rfl⟩]
          have hsame := (ownedBy_iff.mp ho).2
          rw [answersOf]
          simp only [ownedBy_congr hsame]
          exact hall
      | follow hc ht ho rest =>
        refine ⟨[],?_,by rw [if_neg fun h => absurd h.2 (Nat.succ_ne_zero _)]⟩
        rw [cnameLoop_ptr_alias w hskip hat hext0 hdot
          (fun x hx hox => w.not_both hc ho ht hx hox) ⟨_,hc,ho,ht⟩]
        exact (List.append_nil _).symm

theorem mem_admitted {x : Answer} {packet : Packet} {owner : List (List UInt8)}
    (h : x∈admitted d packet qtype owner records) :
    x∈records ∧ ownedBy owner x=true ∧ x.aqtype=qtype :=
  mem_answersOf.mp (List.takeWhile_subset _ h)

/-- Nothing but a record of type A is refused. -/
theorem admitted_of_ne (h : qtype≠tA) (d : Daemon) (packet : Packet)
    (owner : List (List UInt8)) (records : List Answer) :
    admitted d packet qtype owner records=answersOf qtype owner records := by
  rw [admitted,List.takeWhile_eq_self_iff]
  intro x _
  rw [blocks,beq_eq_false_iff_ne.mpr h,Bool.and_false,Bool.false_and]
  rfl

/-- What is related to a list has an element for each of its elements. -/
theorem exists_of_forall₂ {α β : Type} {R : α → β → Prop} {l : List α} {l' : List β}
    (h : List.Forall₂ R l l') {x : α} (hx : x∈l) : ∃ y∈l', R x y := by
  induction h with
  | nil => cases hx
  | cons hr _ ih =>
    rcases List.mem_cons.mp hx with rfl | hx
    · exact ⟨_,List.mem_cons_self,hr⟩
    · obtain ⟨y,hy,hr⟩ := ih hx
      exact ⟨y,List.mem_cons_of_mem _ hy,hr⟩

/-- For a PTR question the record is put into the cache if and only if the question has
it without an alias. -/
theorem inserted_ptr_iff (w : Reply (received d packet) name tPtr records)
    (hchain : Chain records tPtr k name r) :
    Inserted d packet now ins name tPtr r ↔
      Reachable d (received d packet) name tPtr records k r := by
  obtain ⟨q,hext,-⟩ := w.questions
  obtain ⟨searched,hmarks⟩ := @extractAddresses_marks d packet now ins (spelling name) q w.qdcount
    hext
  obtain ⟨hr,hclass,hrtype⟩ := hchain.mem
  have hstart : marks [CacheCall.startInsert]=[] := rfl
  simp only [Inserted,← mem_marks]
  rw [hmarks]
  obtain ⟨news,hnews,hspec⟩ := @question_marks_ptr ⟨received d packet,d,now,ins⟩ r name records k
    w hchain q hext searched [.startInsert]
  rw [hnews,hstart,List.nil_append,Reachable,admitted_of_ne (by decide)]
  have hmem : r∈answersOf tPtr r.owner records :=
    mem_answersOf.mpr ⟨hr,ownedBy_iff.mpr ⟨hclass,sameName_iff.mpr rfl⟩,hrtype⟩
  split_ifs at hspec with hcond
  · cases harpa : inArpaName2Addr (spelling name) with
    | none =>
      rw [harpa] at hspec
      dsimp only at hspec
      rw [hspec]
      refine iff_of_false (fun ⟨new,hn,_⟩ => (by cases hn)) fun h => ?_
      exact absurd (h.2.1 rfl).2 (by decide)
    | some found =>
      obtain ⟨encoding,addr⟩ := found
      rw [harpa] at hspec
      dsimp only at hspec
      refine iff_of_true ?_ ⟨hcond.1,fun _ => ⟨hcond.2,rfl⟩,hmem⟩
      obtain ⟨m,hm,ttl,httl,rfl⟩ := exists_of_forall₂ hspec hmem
      refine ⟨_,hm,rfl,?_⟩
      rw [if_pos rfl]
      exact ⟨rfl,httl,encoding,addr,harpa,rfl,rfl⟩
  · rw [hspec]
    refine iff_of_false (fun ⟨new,hn,_⟩ => (by cases hn)) fun h => hcond ⟨h.1,(h.2.1 rfl).1⟩

/-- For a question of an address the record is put into the cache if and only if none of
the addresses up to it is refused. -/
theorem inserted_address_iff (w : Reply (received d packet) name qtype records)
    (hq : qtype=tA ∨ qtype=tAaaa) (hchain : Chain records qtype k name r) (hk : k≤cnameCount) :
    Inserted d packet now ins name qtype r ↔
      Reachable d (received d packet) name qtype records k r := by
  obtain ⟨q,hext,-,-,-,-,hat,-⟩ := w.questions
  obtain ⟨searched,hmarks⟩ := @extractAddresses_marks d packet now ins (spelling name) q w.qdcount
    hext
  obtain ⟨hr,-,hrtype⟩ := hchain.mem
  have hstart : marks [CacheCall.startInsert]=[] := rfl
  have hptr : qtype≠tPtr := by rcases hq with rfl | rfl <;> decide
  have hcname : qtype≠tCname := by rcases hq with rfl | rfl <;> decide
  simp only [Inserted,← mem_marks]
  rw [hmarks]
  obtain ⟨earlier,text,htext,hall,hnews⟩ := @question_marks_address
    ⟨received d packet,d,now,ins⟩ qtype r name records k w hq hchain hk q hext searched
    [.startInsert]
  rw [hnews,hstart,List.nil_append,Reachable]
  by_cases hrcode : (received d packet).rcode=nxdomain
  · rw [if_pos hrcode]
    exact iff_of_false (fun ⟨new,hn,_⟩ => (by cases hn)) fun h => h.1 hrcode
  · rw [if_neg hrcode]
    constructor
    · rintro ⟨new,hn,-⟩
      refine ⟨hrcode,fun h => absurd h hptr,?_⟩
      rcases List.mem_append.mp hn with hn | hn
      · obtain ⟨c,hc,htc,heq⟩ := hall _ hn
        have hsame := rdata_inj hat c hc r hr heq.symm
        rw [hsame] at htc
        exact absurd (hrtype.symm.trans htc) hcname
      · obtain ⟨x,hx,heq⟩ := List.mem_map.mp hn
        have hsame := rdata_inj hat x (mem_admitted hx).1 r hr (congrArg Prod.fst heq)
        exact hsame ▸ hx
    · rintro ⟨-,-,hadm⟩
      refine ⟨_,List.mem_append_right _ (List.mem_map.mpr ⟨r,hadm,rfl⟩),rfl,?_⟩
      rw [if_neg hptr]
      exact ⟨⟨text,rfl,htext⟩,rfl,rfl,rfl⟩

/-- For a chain of at most five CNAME records from the question to a record of
the type asked for, the record is put into the cache if and only if the reply is
no `NXDOMAIN`, none of the addresses up to it is refused, and a PTR question is
about the name of an address and has no CNAME record. -/
theorem extractAddresses_inserts_iff (d : Daemon) (packet : Packet) (now : ℤ)
    (ins : List CacheCall → Option ℕ) (name : List (List UInt8)) (qtype : ℕ)
    (records : List Answer) (k : ℕ) (r : Answer)
    (w : Reply (received d packet) name qtype records)
    (hq : qtype=tA ∨ qtype=tAaaa ∨ qtype=tPtr) (hchain : Chain records qtype k name r)
    (hk : k≤5) :
    Inserted d packet now ins name qtype r ↔
      Reachable d (received d packet) name qtype records k r := by
  rcases hq with rfl | rfl | rfl
  · exact inserted_address_iff w (.inl rfl) hchain hk
  · exact inserted_address_iff w (.inr rfl) hchain hk
  · exact inserted_ptr_iff w hchain

/-! ## A reply with an alias -/

/-- A daemon without options. -/
def plainDaemon : Daemon := ⟨[],false,false,0,2^64-1⟩

/-- The name `4.3.2.1.in-addr.arpa`. -/
def reverseName : List (List UInt8) :=
  [[52],[51],[50],[49],[105,110,45,97,100,100,114],[97,114,112,97]]

/-- Its alias record, with the target `x.4.3.2.1.in-addr.arpa`. -/
def aliasAnswer : Answer := ⟨reverseName,40,tCname,cIn,9,4,[120]::reverseName⟩

/-- The record of the target, with the name `h`. -/
def hostAnswer : Answer := ⟨[120]::reverseName,56,tPtr,cIn,9,3,[[104]]⟩

/-- A PTR question about `4.3.2.1.in-addr.arpa`, whose name is an alias. -/
def aliasReply : Packet := packetOf
  [0,5,129,128,0,1,0,2,0,0,0,0,
   1,52,1,51,1,50,1,49,7,105,110,45,97,100,100,114,4,97,114,112,97,0,0,12,0,1,
   192,12,0,5,0,1,0,0,0,9,0,4,1,120,192,12,
   192,50,0,12,0,1,0,0,0,9,0,3,1,104,0]

/-- The name of the question, read behind so many pointers. -/
theorem reverseName_spelled (hops : ℕ) : Spelled aliasReply 12 hops reverseName 34 :=
  .label (by decide) (by decide) (by decide) (.label (by decide) (by decide) (by decide)
    (.label (by decide) (by decide) (by decide) (.label (by decide) (by decide) (by decide)
      (.label (by decide) (by decide) (by decide) (.label (by decide) (by decide) (by decide)
        (.root (by decide) (by decide)))))))

theorem reverseName_at : NameAt aliasReply 12 34 :=
  .label (by decide) (by decide) (.label (by decide) (by decide) (.label (by decide) (by decide)
    (.label (by decide) (by decide) (.label (by decide) (by decide) (.label (by decide) (by decide)
      (.root (by decide)))))))

theorem aliasReply_spec : Reply (received plainDaemon aliasReply) reverseName tPtr
    [aliasAnswer,hostAnswer] := by
  have htarget : ∀ hops, hops+1≤255 → Spelled aliasReply 50 hops ([120]::reverseName) 34 :=
    fun hops h => .label (by decide) (by decide) (by decide)
      (.pointer (by decide) (by decide) (by omega) (reverseName_spelled _))
  have hchars : AllowedChars ([120]::reverseName) := by rw [AllowedChars]; decide
  refine ⟨by decide,by rw [AllowedChars]; decide,⟨34,⟨⟨34,reverseName_spelled 0,by decide⟩,
    reverseName_at,by decide⟩,by decide,by decide,by decide,?_,?_,trivial⟩,by decide,
    by decide,by decide⟩
  · refine ⟨⟨⟨34,.pointer (by decide) (by decide) (by decide) (reverseName_spelled 1),by decide⟩,
      .pointer (by decide),by decide⟩,by decide,by decide,by decide,by decide,by decide,
      fun _ _ => ⟨⟨⟨34,htarget 0 (by decide),by decide⟩,
        .label (by decide) (by decide) (.pointer (by decide)),by decide⟩,hchars⟩,
      by decide,by decide⟩
  · refine ⟨⟨⟨34,.pointer (by decide) (by decide) (by decide) (htarget 1 (by decide)),by decide⟩,
      .pointer (by decide),by decide⟩,by decide,by decide,by decide,by decide,by decide,
      fun _ _ => ⟨⟨⟨69,.label (by decide) (by decide) (by decide)
          (.root (by decide) (by decide)),by decide⟩,
        .label (by decide) (by decide) (.root (by decide)),by decide⟩,
        by rw [AllowedChars]; decide⟩,
      by decide,by decide⟩

theorem aliasReply_chain : Chain [aliasAnswer,hostAnswer] tPtr 1 reverseName hostAnswer :=
  .follow (List.mem_cons_self) rfl (by decide)
    (.final (List.mem_cons_of_mem _ List.mem_cons_self) rfl (by decide))

/-- The record that the alias leads to is put into the cache if and only if it can be
reached. -/
theorem extractAddresses_inserts_iff_aliasReply :
    Inserted plainDaemon aliasReply 0 (fun _ => none) reverseName tPtr hostAnswer ↔
      Reachable plainDaemon (received plainDaemon aliasReply) reverseName tPtr
        [aliasAnswer,hostAnswer] 1 hostAnswer :=
  extractAddresses_inserts_iff plainDaemon aliasReply 0 (fun _ => none) reverseName tPtr
    [aliasAnswer,hostAnswer] 1 hostAnswer aliasReply_spec (.inr (.inr rfl)) aliasReply_chain
    (by decide)

/-- A PTR record behind an alias is not put into the cache. -/
theorem extractAddresses_misses_alias :
    ¬∀ (d : Daemon) (packet : Packet) (now : ℤ) (ins : List CacheCall → Option ℕ)
      (name : List (List UInt8)) (qtype : ℕ) (records : List Answer) (k : ℕ) (r : Answer),
      Reply (received d packet) name qtype records →
      qtype=tA ∨ qtype=tAaaa ∨ qtype=tPtr → Chain records qtype k name r → k≤5 →
      Inserted d packet now ins name qtype r := by
  intro h
  have hinserted := h plainDaemon aliasReply 0 (fun _ => none) reverseName tPtr
    [aliasAnswer,hostAnswer] 1 hostAnswer aliasReply_spec (.inr (.inr rfl)) aliasReply_chain
    (by decide)
  have hreachable := (inserted_ptr_iff aliasReply_spec aliasReply_chain).mp hinserted
  exact absurd (hreachable.2.1 rfl).1 (by decide)

end AndroidPlatform.DnsAnswerChains
