import AndroidPlatform.BodyReading
import AndroidPlatform.IpcpRequests
import AndroidPlatform.LcpRequests

/-!
# Acknowledgements, counter-proposals and rejections of the peer

The handlers of `lcp.c` and `ipcp.c` for the replies to a request and for echo requests, with every
access to the body. A handler returns a flag and the options that are asked for next, unless it
leaves the body.
-/

namespace AndroidPlatform.PppOptions

open BodyReading BodyReading.Reading ByteCheckers

/-! ## Reading -/

/-- `GETCHAR` -/
def readChar : List UInt8 → Reading (UInt8×List UInt8)
  | c::p => ok (c,p)
  | [] => outside

/-- `GETSHORT` -/
def readShort : List UInt8 → Reading (ℕ×List UInt8)
  | high::low::p => ok (getShort high low,p)
  | _ => outside

/-- `GETLONG` -/
def readLong : List UInt8 → Reading (UInt32×List UInt8)
  | a::b::c::d::p => ok (getLong a b c d,p)
  | _ => outside

theorem readChar_inside {p : List UInt8} (h : 1≤p.length) :
    (readChar p).Inside fun r => r.2.length=p.length-1 := by
  match p with
  | [] => simp at h
  | _::_ => exact rfl

theorem readShort_inside {p : List UInt8} (h : 2≤p.length) :
    (readShort p).Inside fun r => r.2.length=p.length-2 := by
  match p with
  | [] => simp at h
  | [_] => simp at h
  | _::_::_ => exact rfl

theorem readLong_inside {p : List UInt8} (h : 4≤p.length) :
    (readLong p).Inside fun r => r.2.length=p.length-4 := by
  match p with
  | [] => simp at h
  | [_] => simp at h
  | [_,_] => simp at h
  | [_,_,_] => simp at h
  | _::_::_::_::_ => exact rfl

/-- A check that reads some bytes. -/
structure Check where
  /-- The bytes that are read. -/
  width : ℕ
  /-- The check. -/
  check : List UInt8 → Option (List UInt8)

/-- A check of the bytes at the pointer. -/
def Check.read (c : Check) (p : List UInt8) : Reading (List UInt8) :=
  if p.length<c.width then outside
  else
    match c.check p with
    | some p => ok p
    | none => bad

/-- One check after the other. -/
def readChecks : List Check → List UInt8 → Reading (List UInt8)
  | [],p => ok p
  | c::cs,p => c.read p >>= readChecks cs

/-- A check is left with the bytes behind the ones that it reads. -/
def Check.Takes (c : Check) : Prop := ∀ p rest,c.check p=some rest → rest.length=p.length-c.width

/-- The bytes that the checks of a value read. -/
def totalWidth (cs : List Check) : ℕ := (cs.map Check.width).sum

/-- Within the body the checks do what they do on the bytes. -/
theorem readChecks_eq {cs : List Check} (hcs : ∀ c∈cs,c.Takes) {p : List UInt8}
    (hp : totalWidth cs≤p.length) :
    readChecks cs p=(match checkAll (cs.map Check.check) p with
      | some rest => ok rest
      | none => bad) ∧
    ∀ rest,checkAll (cs.map Check.check) p=some rest → rest.length=p.length-totalWidth cs := by
  induction cs generalizing p with
  | nil => exact ⟨rfl,fun rest hrest => by cases hrest; rfl⟩
  | cons c cs ih =>
    have hwidth : totalWidth (c::cs)=c.width+totalWidth cs := rfl
    rw [hwidth] at hp
    have hread : c.read p=(match c.check p with
        | some rest => ok rest
        | none => bad) := if_neg (by omega)
    rw [readChecks,hread,List.map_cons,checkAll,hwidth]
    cases hc : c.check p with
    | none => exact ⟨rfl,fun rest hrest => by cases hrest⟩
    | some rest =>
      have hlength := hcs c List.mem_cons_self p rest hc
      obtain ⟨heq,hrest⟩ := @ih (fun c' hin => hcs c' (List.mem_cons_of_mem _ hin)) rest (by omega)
      refine ⟨heq,fun rest' hrest' => ?_⟩
      rw [hrest rest' hrest']
      omega

theorem readChecks_inside {cs : List Check} (hcs : ∀ c∈cs,c.Takes) {p : List UInt8}
    (hp : totalWidth cs≤p.length) :
    (readChecks cs p).Inside fun rest => rest.length=p.length-totalWidth cs := by
  obtain ⟨heq,hrest⟩ := readChecks_eq hcs hp
  rw [heq]
  cases hc : checkAll (cs.map Check.check) p with
  | none => exact trivial
  | some rest => exact hrest rest hc

theorem takes_of_accepts {c : Check} {bytes : List UInt8} (h : Accepts c.check bytes)
    (hwidth : c.width=bytes.length) : c.Takes := by
  intro p rest hrest
  rw [(h p rest).mp hrest,List.length_append,hwidth,Nat.add_sub_cancel_left]

theorem takes_of_refuses {c : Check} (h : Refuses c.check) : c.Takes := by
  intro p rest hrest
  rw [h p] at hrest
  cases hrest

theorem takes_checkChar (val : UInt8) : Check.Takes ⟨1,checkChar val⟩ :=
  takes_of_accepts (accepts_checkChar val) rfl

theorem takes_checkLong (val : UInt32) : Check.Takes ⟨4,checkLong val⟩ :=
  takes_of_accepts (accepts_checkLong val) rfl

theorem takes_checkAddr (val : UInt32) : Check.Takes ⟨4,checkAddr val⟩ :=
  takes_of_accepts (accepts_checkAddr val) rfl

theorem takes_checkShort (val : ℤ) : Check.Takes ⟨2,checkShort val⟩ := by
  by_cases h : 0≤val ∧ val<65536
  · exact takes_of_accepts (accepts_checkShort h.1 h.2) rfl
  · exact takes_of_refuses (refuses_checkShort h)

theorem takes_checkInt (val : ℤ) : Check.Takes ⟨1,checkInt val⟩ := by
  by_cases h : 0≤val ∧ val<256
  · exact takes_of_accepts (accepts_checkInt h.1 h.2) rfl
  · exact takes_of_refuses (refuses_checkInt h)

/-! ## The macros -/

/-- The test of `NAKCIVOID` and its siblings, and of `REJCIVOID` and its siblings. -/
def startsLcp (opt : UInt8) (cilen : ℕ) (c : Cursor) : Reading Bool :=
  if c.len<cilen then ok false
  else do
    let len ← peek c.p 1
    if len.toNat≠cilen then ok false
    else do
      let citype ← peek c.p 0
      ok (decide (citype=opt))

/-- The test of `NAKCIADDRS` and its siblings, and of `REJCIADDRS` and its siblings: the length of
the option is read before the length that is left is tested. -/
def startsIpcp (opt : UInt8) (cilen : ℕ) (c : Cursor) : Reading Bool := do
  let len ← peek c.p 1
  if len.toNat≠cilen then ok false
  else if c.len<cilen then ok false
  else do
    let citype ← peek c.p 0
    ok (decide (citype=opt))

/-- An option of a fixed length, whose value is read behind its header. -/
def takeOption {σ : Type} (starts : Cursor → Reading Bool) (cilen : ℕ)
    (value : List UInt8 → σ → Reading (List UInt8×σ)) (x : Cursor×σ) : Reading (Cursor×σ) := do
  if ← starts x.1 then
    let (p,s) ← value (x.1.p.drop 2) x.2
    ok (⟨p,x.1.len-cilen⟩,s)
  else ok x

/-- `ACKCIVOID` and its siblings -/
def ackItem (opt : UInt8) (cilen : ℕ) (neg : Bool) (checks : List Check) : Item Unit where
  asked := neg
  part := fun x =>
    if x.1.len<cilen then bad
    else do
      let (citype,p) ← readChar x.1.p
      let (len,p) ← readChar p
      if len.toNat≠cilen ∨ citype≠opt then bad
      else
        let p ← readChecks checks p
        ok (⟨p,x.1.len-cilen⟩,x.2)

/-- `REJCIVOID` and its siblings: the value is checked, and the option is switched off. -/
def rejValue {σ : Type} (checks : List Check) (off : σ → σ) (p : List UInt8) (tried : σ) :
    Reading (List UInt8×σ) := do
  let p ← readChecks checks p
  ok (p,off tried)

theorem startsLcp_inside (opt : UInt8) {cilen : ℕ} (hcilen : 2≤cilen) {c : Cursor}
    (hc : c.Bounded) : (startsLcp opt cilen c).Inside fun found => found=true → cilen≤c.len := by
  unfold Cursor.Bounded at hc
  unfold startsLcp
  refine inside_ite (fun _ h => by cases h) fun hlong => ?_
  rw [peek_of_lt (by omega : 1<c.p.length),ok_bind,peek_of_lt (by omega : 0<c.p.length),ok_bind]
  refine inside_ite (fun _ h => by cases h) fun _ _ => ?_
  omega

theorem takeOption_inside {σ : Type} {starts : Cursor → Reading Bool} {cilen : ℕ}
    {value : List UInt8 → σ → Reading (List UInt8×σ)} {c : Cursor} {s : σ} (hc : c.Bounded)
    (hstarts : (starts c).Inside fun found => found=true → cilen≤c.len)
    (hvalue : cilen-2≤(c.p.drop 2).length →
      (value (c.p.drop 2) s).Inside fun r => c.p.length-cilen≤r.1.length) :
    (takeOption starts cilen value (c,s)).Inside fun r => r.1.Bounded := by
  unfold takeOption
  refine hstarts.bind fun found hfound => ?_
  cases found with
  | false => exact hc
  | true =>
    have hlong := hfound rfl
    unfold Cursor.Bounded at hc
    refine (hvalue (by rw [List.length_drop]; omega)).bind fun r hr => ?_
    unfold Reading.Inside Cursor.Bounded
    dsimp only
    omega

theorem ackItem_inside {opt : UInt8} {cilen : ℕ} {neg : Bool} {checks : List Check}
    (hchecks : ∀ c∈checks,c.Takes) (hcilen : cilen=totalWidth checks+2) (c : Cursor) (s : Unit)
    (hc : c.Bounded) :
    ((ackItem opt cilen neg checks).part (c,s)).Inside fun r => r.1.Bounded := by
  unfold Cursor.Bounded at hc
  unfold ackItem
  refine inside_ite (fun _ => trivial) fun hlong => ?_
  dsimp only at hlong ⊢
  refine (readChar_inside (by omega)).bind fun r₁ hr₁ => ?_
  refine (readChar_inside (by omega)).bind fun r₂ hr₂ => ?_
  refine inside_ite (fun _ => trivial) fun _ => ?_
  refine (readChecks_inside hchecks (by omega)).bind fun p hp => ?_
  unfold Reading.Inside Cursor.Bounded
  dsimp only
  omega

theorem rejValue_inside {σ : Type} {checks : List Check} {cilen : ℕ} {off : σ → σ}
    (hchecks : ∀ c∈checks,c.Takes) (hcilen : cilen=totalWidth checks+2) (p : List UInt8) (s : σ)
    (hp : cilen-2≤(p.drop 2).length) :
    (rejValue checks off (p.drop 2) s).Inside fun r => p.length-cilen≤r.1.length := by
  refine (readChecks_inside hchecks (by omega)).bind fun rest hrest => ?_
  unfold Reading.Inside
  dsimp only
  rw [hrest,List.length_drop]
  omega

/-! ## LCP -/

/-- What a handler returns, and the options that are asked for afterwards. -/
structure Handled (σ : Type) where
  /-- The value that is returned. -/
  ret : Bool
  /-- `*go` -/
  go : σ

/-- The end of `lcp_ackci` and `ipcp_ackci`. -/
def finishAck {σ : Type} (go : σ) : Reading (Cursor×Unit) → Option (Handled σ)
  | outside => none
  | bad => some ⟨false,go⟩
  | ok x => some ⟨decide (x.1.len=0),go⟩

/-- The end of `lcp_rejci` and `ipcp_rejci`. -/
def finishRej {σ : Type} (go : σ) (opened : Bool) : Reading (Cursor×σ) → Option (Handled σ)
  | outside => none
  | bad => some ⟨false,go⟩
  | ok x =>
    if x.1.len≠0 then some ⟨false,go⟩
    else some ⟨true,if opened then go else x.2⟩

/-- `lcp_options`, with the counter that requests do not depend on. -/
structure FullLcpOptions extends LcpOptions where
  /-- `numloops` -/
  numloops : ℤ

/-- The test of `REJCIENDP`. -/
def startsEndp (opt : UInt8) (cilen : ℕ) (c : Cursor) : Reading Bool :=
  if c.len<cilen then ok false
  else do
    let citype ← peek c.p 0
    if citype≠opt then ok false
    else do
      let len ← peek c.p 1
      ok (decide (len.toNat=cilen))

/-- The checks of an endpoint discriminator. -/
def endpChecks (endpoint : Epdisc) : List Check :=
  ⟨1,checkChar endpoint.epdClass⟩::endpoint.bytes.map fun v => ⟨1,checkChar v⟩

/-- The checks of `lcp_ackci`, one after the other. -/
def LcpOptions.ackItems (go : LcpOptions) : List (Item Unit) :=
  [ackItem ciMru cilenShort go.asksMru [⟨2,checkShort go.mru⟩],
    ackItem ciAsyncmap cilenLong go.asksAsyncmap [⟨4,checkLong go.asyncmap⟩],
    ackItem ciAuthtype cilenShort go.negEap [⟨2,checkShort pppEap⟩],
    ackItem ciAuthtype cilenChap (!go.negEap && go.negChap)
      [⟨2,checkShort pppChap⟩,⟨1,checkChar (chapDigest go.chapMdtype)⟩],
    ackItem ciAuthtype cilenShort (!go.negEap && !go.negChap && go.negUpap) [⟨2,checkShort pppPap⟩],
    ackItem ciQuality cilenLqr go.negLqr [⟨2,checkShort pppLqr⟩,⟨4,checkLong go.lqrPeriod⟩],
    ackItem ciCallback cilenChar go.negCbcp [⟨1,checkChar cbcpOpt⟩],
    ackItem ciMagicnumber cilenLong go.negMagicnumber [⟨4,checkLong go.magicnumber⟩],
    ackItem ciPcompression cilenVoid go.negPcompression [],
    ackItem ciAccompression cilenVoid go.negAccompression [],
    ackItem ciMrru cilenShort go.negMrru [⟨2,checkShort go.mrru⟩],
    ackItem ciSsnhf cilenVoid go.negSsnhf [],
    ackItem ciEpdisc (cilenChar+go.endpoint.length) go.negEndpoint (endpChecks go.endpoint)]

/-- `REJCIVOID` and its siblings of LCP -/
def rejItemLcp (opt : UInt8) (cilen : ℕ) (neg : Bool) (checks : List Check)
    (off : FullLcpOptions → FullLcpOptions) : Item FullLcpOptions where
  asked := neg
  part := takeOption (startsLcp opt cilen) cilen (rejValue checks off)

/-- `REJCIENDP` -/
def rejItemEndp (neg : Bool) (endpoint : Epdisc) : Item FullLcpOptions where
  asked := neg
  part := takeOption (startsEndp ciEpdisc (cilenChar+endpoint.length)) (cilenChar+endpoint.length)
    (rejValue (endpChecks endpoint) fun tried => { tried with negEndpoint := false })

/-- The checks of `lcp_rejci`, one after the other. -/
def LcpOptions.rejItems (go : LcpOptions) : List (Item FullLcpOptions) :=
  [rejItemLcp ciMru cilenShort go.negMru [⟨2,checkShort go.mru⟩]
      (fun tried => { tried with negMru := false }),
    rejItemLcp ciAsyncmap cilenLong go.negAsyncmap [⟨4,checkLong go.asyncmap⟩]
      (fun tried => { tried with negAsyncmap := false }),
    rejItemLcp ciAuthtype cilenShort go.negEap [⟨2,checkShort pppEap⟩]
      (fun tried => { tried with negEap := false }),
    rejItemLcp ciAuthtype cilenChap (!go.negEap && go.negChap)
      [⟨3,checkAll [checkShort pppChap,checkChar (chapDigest go.chapMdtype)]⟩]
      (fun tried => { tried with negChap := false, negEap := false, negUpap := false }),
    rejItemLcp ciAuthtype cilenShort (!go.negEap && !go.negChap && go.negUpap)
      [⟨2,checkShort pppPap⟩] (fun tried => { tried with negUpap := false }),
    rejItemLcp ciQuality cilenLqr go.negLqr
      [⟨6,checkAll [checkShort pppLqr,checkLong go.lqrPeriod]⟩]
      (fun tried => { tried with negLqr := false }),
    rejItemLcp ciCallback cilenCbcp go.negCbcp [⟨1,checkChar cbcpOpt⟩]
      (fun tried => { tried with negCbcp := false }),
    rejItemLcp ciMagicnumber cilenLong go.negMagicnumber [⟨4,checkLong go.magicnumber⟩]
      (fun tried => { tried with negMagicnumber := false }),
    rejItemLcp ciPcompression cilenVoid go.negPcompression []
      (fun tried => { tried with negPcompression := false }),
    rejItemLcp ciAccompression cilenVoid go.negAccompression []
      (fun tried => { tried with negAccompression := false }),
    rejItemLcp ciMrru cilenShort go.negMrru [⟨2,checkShort go.mrru⟩]
      (fun tried => { tried with negMrru := false }),
    rejItemLcp ciSsnhf cilenVoid go.negSsnhf [] (fun tried => { tried with negSsnhf := false }),
    rejItemEndp go.negEndpoint go.endpoint]

/-- `lcp_ackci` -/
def lcpAckci (go : FullLcpOptions) (p : List UInt8) : Option (Handled FullLcpOptions) :=
  finishAck go (runItems go.ackItems (⟨p,p.length⟩,()))

/-- `lcp_rejci` -/
def lcpRejci (go : FullLcpOptions) (opened : Bool) (p : List UInt8) :
    Option (Handled FullLcpOptions) :=
  finishRej go opened (runItems go.rejItems (⟨p,p.length⟩,go))

/-- The echo requests of `lcp_extcode`: the body of the reply that is sent, if any. -/
def lcpEchoRequest (go : FullLcpOptions) (opened : Bool) (inp : List UInt8) :
    Option (Option (List UInt8)) :=
  if opened=false then some none
  else if inp.length<4 then none
  else some (some (setLong inp 0 go.magicnumber))

/-! ## Counter-proposals of LCP -/

/-- The state of `lcp_nakci`. -/
structure LcpNak where
  /-- `no` -/
  no : LcpOptions
  /-- `try` -/
  tried : FullLcpOptions
  /-- `looped_back` -/
  loopedBack : Bool

/-- `NAKCISHORT` -/
def nakShort (opt : UInt8) (neg : Bool) (code : ℕ → LcpNak → LcpNak) : Item LcpNak where
  asked := neg
  part := takeOption (startsLcp opt cilenShort) cilenShort fun p s => do
    let (cishort,p) ← readShort p
    ok (p,code cishort s)

/-- `NAKCILONG` -/
def nakLong (opt : UInt8) (neg : Bool) (code : UInt32 → LcpNak → LcpNak) : Item LcpNak where
  asked := neg
  part := takeOption (startsLcp opt cilenLong) cilenLong fun p s => do
    let (cilong,p) ← readLong p
    ok (p,code cilong s)

/-- `NAKCICHAR` -/
def nakChar (opt : UInt8) (neg : Bool) (code : UInt8 → LcpNak → LcpNak) : Item LcpNak where
  asked := neg
  part := takeOption (startsLcp opt cilenChar) cilenChar fun p s => do
    let (cichar,p) ← readChar p
    ok (p,code cichar s)

/-- `NAKCILQR` -/
def nakLqr (opt : UInt8) (neg : Bool) (code : ℕ → UInt32 → LcpNak → LcpNak) : Item LcpNak where
  asked := neg
  part := takeOption (startsLcp opt cilenLqr) cilenLqr fun p s => do
    let (cishort,p) ← readShort p
    let (cilong,p) ← readLong p
    ok (p,code cishort cilong s)

/-- `NAKCIVOID` -/
def nakVoid (opt : UInt8) (neg : Bool) (code : LcpNak → LcpNak) : Item LcpNak where
  asked := neg
  part := takeOption (startsLcp opt cilenVoid) cilenVoid fun p s => ok (p,code s)

/-- `NAKCIENDP` -/
def nakEndp (neg : Bool) : Item LcpNak where
  asked := neg
  part := fun x =>
    if x.1.len<cilenChar then ok x
    else do
      let citype ← peek x.1.p 0
      if citype≠ciEpdisc then ok x
      else do
        let len ← peek x.1.p 1
        if len.toNat<cilenChar ∨ x.1.len<len.toNat then ok x
        else
          ok (⟨x.1.p.drop len.toNat,x.1.len-len.toNat⟩,
            { x.2 with no := { x.2.no with negEndpoint := true },
                       tried := { x.2.tried with negEndpoint := false } })

/-- `CI_AUTHTYPE` in a CONFNAK with `PPP_PAP` -/
def nakPap (go : LcpOptions) (tried : FullLcpOptions) : Reading FullLcpOptions :=
  if go.negEap then ok { tried with negEap := false }
  else if go.negChap then ok { tried with negChap := false }
  else bad

/-- `CHAP_MDTYPE` -/
def chapMdtypeFirst (mdtype : UInt8) : UInt8 := (mdtype ^^^ (mdtype-1)) &&& mdtype

/-- `CI_AUTHTYPE` in a CONFNAK with `PPP_CHAP` -/
def nakChap (go : LcpOptions) (cichar : UInt8) (tried : FullLcpOptions) : Reading FullLcpOptions :=
  if go.negEap then
    if chapCandigest go.chapMdtype cichar then
      ok { tried with negEap := false, chapMdtype := chapMdtypeD cichar }
    else ok { tried with negEap := false }
  else if go.negChap then
    if cichar≠chapDigest go.chapMdtype then
      if chapCandigest go.chapMdtype cichar then
        ok { tried with chapMdtype := chapMdtypeD cichar }
      else
        let chapMdtype := tried.chapMdtype &&& ~~~chapMdtypeFirst tried.chapMdtype
        ok { tried with chapMdtype := chapMdtype, negChap := tried.negChap && decide (chapMdtype≠0) }
    else bad
  else ok { tried with negUpap := false }

/-- `CI_AUTHTYPE` in a CONFNAK with another protocol or another length -/
def nakOtherAuth (go : LcpOptions) (tried : FullLcpOptions) : FullLcpOptions :=
  if go.negEap then { tried with negEap := false }
  else if go.negChap then { tried with negChap := false }
  else { tried with negUpap := false }

/-- `CI_AUTHTYPE` in a CONFNAK -/
def nakAuthtype (go : LcpOptions) : Item LcpNak where
  asked := go.negChap || go.negUpap || go.negEap
  part := fun x =>
    if x.1.len<cilenShort then ok x
    else do
      let citype ← peek x.1.p 0
      if citype≠ciAuthtype then ok x
      else do
        let cilen ← peek x.1.p 1
        if cilen.toNat<cilenShort ∨ x.1.len<cilen.toNat then ok x
        else
          let no := { x.2.no with negChap := go.negChap, negUpap := go.negUpap, negEap := go.negEap }
          let len := x.1.len-cilen.toNat
          let (cishort,p) ← readShort (x.1.p.drop 2)
          if (cishort : ℤ)=pppPap ∧ cilen.toNat=cilenShort then do
            let tried ← nakPap go x.2.tried
            ok (⟨p,len⟩,{ x.2 with no := no, tried := tried })
          else if (cishort : ℤ)=pppChap ∧ cilen.toNat=cilenChap then do
            let (cichar,p) ← readChar p
            let tried ← nakChap go cichar x.2.tried
            ok (⟨p,len⟩,{ x.2 with no := no, tried := tried })
          else
            ok (⟨p.drop (cilen.toNat-cilenShort),len⟩,
              { x.2 with no := no, tried := nakOtherAuth go x.2.tried })

/-- The options that `lcp_nakci` looks for, one after the other. -/
def LcpOptions.nakItems (go wo : LcpOptions) (treatAsReject : Bool) (magic : UInt32) :
    List (Item LcpNak) :=
  [nakShort ciMru go.asksMru fun cishort s =>
      { s with no := { s.no with negMru := true },
               tried := if (cishort : ℤ)≤wo.mru ∨ (cishort : ℤ)≤defmru
                 then { s.tried with mru := cishort } else s.tried },
    nakLong ciAsyncmap go.asksAsyncmap fun cilong s =>
      { s with no := { s.no with negAsyncmap := true },
               tried := { s.tried with asyncmap := go.asyncmap ||| cilong } },
    nakAuthtype go,
    nakLqr ciQuality go.negLqr fun cishort cilong s =>
      { s with no := { s.no with negLqr := true },
               tried := if (cishort : ℤ)≠pppLqr then { s.tried with negLqr := false }
                 else { s.tried with lqrPeriod := cilong } },
    nakChar ciCallback go.negCbcp fun _ s =>
      { s with no := { s.no with negCbcp := true }, tried := { s.tried with negCbcp := false } },
    nakLong ciMagicnumber go.negMagicnumber fun _ s =>
      { no := { s.no with negMagicnumber := true }, tried := { s.tried with magicnumber := magic },
        loopedBack := true },
    nakVoid ciPcompression go.negPcompression fun s =>
      { s with no := { s.no with negPcompression := true },
               tried := { s.tried with negPcompression := false } },
    nakVoid ciAccompression go.negAccompression fun s =>
      { s with no := { s.no with negAccompression := true },
               tried := { s.tried with negAccompression := false } },
    nakShort ciMrru go.negMrru fun cishort s =>
      { s with no := { s.no with negMrru := true },
               tried := if treatAsReject then { s.tried with negMrru := false }
                 else if (cishort : ℤ)≤wo.mrru then { s.tried with mrru := cishort }
                 else s.tried },
    nakVoid ciSsnhf go.negSsnhf fun s =>
      { s with no := { s.no with negSsnhf := true }, tried := { s.tried with negSsnhf := false } },
    nakEndp go.negEndpoint]

/-- An option that was not asked for, in a CONFNAK of LCP. -/
def lcpOther (go : LcpOptions) (citype : UInt8) (cilen : ℕ) (p : List UInt8) (s : LcpNak) :
    Reading LcpNak :=
  if citype=ciMru then
    if go.asksMru=true ∨ s.no.negMru=true ∨ cilen≠cilenShort then bad
    else do
      let (cishort,_) ← readShort p
      if (cishort : ℤ)<defmru then ok { s with tried := { s.tried with negMru := true, mru := cishort } }
      else ok s
  else if citype=ciAsyncmap then
    if go.asksAsyncmap=true ∨ s.no.negAsyncmap=true ∨ cilen≠cilenLong then bad else ok s
  else if citype=ciAuthtype then
    if go.negChap=true ∨ s.no.negChap=true ∨ go.negUpap=true ∨ s.no.negUpap=true ∨
      go.negEap=true ∨ s.no.negEap=true then bad else ok s
  else if citype=ciMagicnumber then
    if go.negMagicnumber=true ∨ s.no.negMagicnumber=true ∨ cilen≠cilenLong then bad else ok s
  else if citype=ciPcompression then
    if go.negPcompression=true ∨ s.no.negPcompression=true ∨ cilen≠cilenVoid then bad else ok s
  else if citype=ciAccompression then
    if go.negAccompression=true ∨ s.no.negAccompression=true ∨ cilen≠cilenVoid then bad else ok s
  else if citype=ciQuality then
    if go.negLqr=true ∨ s.no.negLqr=true ∨ cilen≠cilenLqr then bad else ok s
  else if citype=ciMrru then
    if go.negMrru=true ∨ s.no.negMrru=true ∨ cilen≠cilenShort then bad else ok s
  else if citype=ciSsnhf then
    if go.negSsnhf=true ∨ s.no.negSsnhf=true ∨ cilen≠cilenVoid then bad
    else ok { s with tried := { s.tried with negSsnhf := true } }
  else if citype=ciEpdisc then
    if go.negEndpoint=true ∨ s.no.negEndpoint=true ∨ cilen<cilenChar then bad else ok s
  else ok s

/-- What the replies of LCP depend on besides the body. -/
structure LcpReply where
  /-- `go` -/
  go : FullLcpOptions
  /-- `wo` -/
  wo : LcpOptions
  /-- Whether the state is `OPENED`. -/
  opened : Bool
  /-- `treat_as_reject` -/
  treatAsReject : Bool
  /-- What `magic` returns. -/
  magic : UInt32
  /-- `lcp_loopbackfail` -/
  loopbackfail : ℤ

/-- The part of `lcp_nakci` that reads the body. -/
def LcpReply.readNak (reply : LcpReply) (p : List UInt8) : Reading LcpNak := do
  let (c,s) ← runItems (reply.go.nakItems reply.wo reply.treatAsReject reply.magic)
    (⟨p,p.length⟩,⟨.zero,reply.go,false⟩)
  trailing (lcpOther reply.go.toLcpOptions) c s

/-- `lcp_nakci`, and whether it calls `lcp_close`. -/
def LcpReply.nakci (reply : LcpReply) (p : List UInt8) :
    Option (Handled FullLcpOptions×Bool) :=
  match reply.readNak p with
  | outside => none
  | bad => some (⟨false,reply.go⟩,false)
  | ok s =>
    if reply.opened then some (⟨true,reply.go⟩,false)
    else if s.loopedBack then
      some (⟨true,{ s.tried with numloops := s.tried.numloops+1 }⟩,
        decide (reply.loopbackfail ≤ s.tried.numloops+1))
    else some (⟨true,{ s.tried with numloops := 0 }⟩,false)

/-! ## IPCP -/

/-- `REJCIADDRS` and its siblings of IPCP -/
def rejItemIpcp (opt : UInt8) (cilen : ℕ) (neg : Bool) (checks : List Check)
    (off : AddressOptions → AddressOptions) : Item AddressOptions where
  asked := neg
  part := takeOption (startsIpcp opt cilen) cilen (rejValue checks off)

/-- The checks of the compression option. -/
def IpcpOptions.vjChecks (go : IpcpOptions) : List Check :=
  if go.oldVj then [⟨2,checkShort go.vjProtocol⟩]
  else [⟨2,checkShort go.vjProtocol⟩,⟨1,checkInt go.maxslotindex⟩,⟨1,checkChar go.cflag⟩]

/-- The checks of `ipcp_ackci`, one after the other. -/
def IpcpOptions.ackItems (go : IpcpOptions) : List (Item Unit) :=
  [ackItem ciAddrs cilenAddrs go.asksAddrs [⟨4,checkAddr go.ouraddr⟩,⟨4,checkAddr go.hisaddr⟩],
    ackItem ciCompresstype (vjlen go.oldVj) go.negVj go.vjChecks,
    ackItem ciAddr cilenAddr go.negAddr [⟨4,checkAddr go.ouraddr⟩],
    ackItem ciMsDns1 cilenAddr go.reqDns1 [⟨4,checkAddr go.dnsaddr0⟩],
    ackItem ciMsDns2 cilenAddr go.reqDns2 [⟨4,checkAddr go.dnsaddr1⟩],
    ackItem ciMsWins1 cilenAddr (decide (go.winsaddr0≠0)) [⟨4,checkAddr go.winsaddr0⟩],
    ackItem ciMsWins2 cilenAddr (decide (go.winsaddr1≠0)) [⟨4,checkAddr go.winsaddr1⟩]]

/-- The checks of `ipcp_rejci`, one after the other. -/
def IpcpOptions.rejItems (go : IpcpOptions) : List (Item AddressOptions) :=
  [rejItemIpcp ciAddrs cilenAddrs go.asksAddrs
      [⟨4,checkAddr go.ouraddr⟩,⟨4,checkAddr go.hisaddr⟩]
      (fun tried => { tried with oldAddrs := false }),
    rejItemIpcp ciCompresstype (vjlen go.oldVj) go.negVj go.vjChecks
      (fun tried => { tried with negVj := false }),
    rejItemIpcp ciAddr cilenAddr go.negAddr [⟨4,checkAddr go.ouraddr⟩]
      (fun tried => { tried with negAddr := false }),
    rejItemIpcp ciMsDns1 cilenAddr go.reqDns1 [⟨4,checkAddr go.dnsaddr0⟩]
      (fun tried => { tried with reqDns1 := false }),
    rejItemIpcp ciMsDns2 cilenAddr go.reqDns2 [⟨4,checkAddr go.dnsaddr1⟩]
      (fun tried => { tried with reqDns2 := false }),
    rejItemIpcp ciMsWins1 cilenAddr (decide (go.winsaddr0≠0)) [⟨4,checkAddr go.winsaddr0⟩]
      (fun tried => { tried with winsaddr0 := 0 }),
    rejItemIpcp ciMsWins2 cilenAddr (decide (go.winsaddr1≠0)) [⟨4,checkAddr go.winsaddr1⟩]
      (fun tried => { tried with winsaddr1 := 0 })]

/-- `ipcp_ackci` -/
def ipcpAckci (go : AddressOptions) (p : List UInt8) : Option (Handled AddressOptions) :=
  finishAck go (runItems go.ackItems (⟨p,p.length⟩,()))

/-- `ipcp_rejci` -/
def ipcpRejci (go : AddressOptions) (opened : Bool) (p : List UInt8) :
    Option (Handled AddressOptions) :=
  finishRej go opened (runItems go.rejItems (⟨p,p.length⟩,go))

/-- The state of `ipcp_nakci`. -/
structure IpcpNak where
  /-- `no` -/
  no : IpcpOptions
  /-- `try` -/
  tried : AddressOptions

/-- `NAKCIADDRS` -/
def nakAddrs (go : AddressOptions) (treatAsReject : Bool) : Item IpcpNak where
  asked := go.asksAddrs
  part := takeOption (startsIpcp ciAddrs cilenAddrs) cilenAddrs fun p s => do
    let (l₁,p) ← readLong p
    let (l₂,p) ← readLong p
    let no := { s.no with oldAddrs := true }
    if treatAsReject then ok (p,⟨no,{ s.tried with oldAddrs := false }⟩)
    else
      let tried := if go.acceptLocal=true ∧ htonl l₁≠0 then { s.tried with ouraddr := htonl l₁ }
        else s.tried
      let tried := if go.acceptRemote=true ∧ htonl l₂≠0 then { tried with hisaddr := htonl l₂ }
        else tried
      ok (p,⟨no,tried⟩)

/-- The value of the compression option in a CONFNAK, of `cilen` bytes with its header. -/
def nakVjValue (go : AddressOptions) (treatAsReject : Bool) (cilen : ℕ) (p : List UInt8)
    (s : IpcpNak) : Reading (List UInt8×IpcpNak) := do
  let (cishort,p) ← readShort p
  let no := { s.no with negVj := true }
  if treatAsReject then ok (p,⟨no,{ s.tried with negVj := false }⟩)
  else if cilen=cilenVj then do
    let (cimaxslotindex,p) ← readChar p
    let (cicflag,p) ← readChar p
    if cishort=ipcpVjComp then
      let tried := { s.tried with oldVj := false }
      let tried := if (cimaxslotindex.toNat : ℤ)<go.maxslotindex
        then { tried with maxslotindex := cimaxslotindex.toNat } else tried
      ok (p,⟨no,if cicflag=0 then { tried with cflag := 0 } else tried⟩)
    else ok (p,⟨no,{ s.tried with negVj := false }⟩)
  else if cishort=ipcpVjComp ∨ cishort=ipcpVjCompOld then
    ok (p,⟨no,{ s.tried with oldVj := true, vjProtocol := cishort }⟩)
  else ok (p,⟨no,{ s.tried with negVj := false }⟩)

/-- `NAKCIVJ` -/
def nakVj (go : AddressOptions) (treatAsReject : Bool) : Item IpcpNak where
  asked := go.negVj
  part := fun x => do
    let cilen ← peek x.1.p 1
    if cilen.toNat≠cilenCompress ∧ cilen.toNat≠cilenVj then ok x
    else if x.1.len<cilen.toNat then ok x
    else do
      let citype ← peek x.1.p 0
      if citype≠ciCompresstype then ok x
      else
        let (p,s) ← nakVjValue go treatAsReject cilen.toNat (x.1.p.drop 2) x.2
        ok (⟨p,x.1.len-cilen.toNat⟩,s)

/-- `NAKCIADDR` and `NAKCIDNS` -/
def nakAddr (opt : UInt8) (neg : Bool) (code : UInt32 → IpcpNak → IpcpNak) : Item IpcpNak where
  asked := neg
  part := takeOption (startsIpcp opt cilenAddr) cilenAddr fun p s => do
    let (l,p) ← readLong p
    ok (p,code (htonl l) s)

/-- The options that `ipcp_nakci` looks for, one after the other. -/
def AddressOptions.nakItems (go : AddressOptions) (treatAsReject : Bool) : List (Item IpcpNak) :=
  [nakAddrs go treatAsReject,
    nakVj go treatAsReject,
    nakAddr ciAddr go.negAddr fun ciaddr1 s =>
      ⟨{ s.no with negAddr := true },
        if treatAsReject then { s.tried with negAddr := false, oldAddrs := false }
        else if go.acceptLocal=true ∧ ciaddr1≠0 then { s.tried with ouraddr := ciaddr1 }
        else s.tried⟩,
    nakAddr ciMsDns1 go.reqDns1 fun cidnsaddr s =>
      ⟨{ s.no with reqDns1 := true },
        if treatAsReject then { s.tried with reqDns1 := false }
        else { s.tried with dnsaddr0 := cidnsaddr }⟩,
    nakAddr ciMsDns2 go.reqDns2 fun cidnsaddr s =>
      ⟨{ s.no with reqDns2 := true },
        if treatAsReject then { s.tried with reqDns2 := false }
        else { s.tried with dnsaddr1 := cidnsaddr }⟩]

/-- `CI_ADDRS` that was not asked for. -/
def otherAddrs (go : AddressOptions) (cilen : ℕ) (p : List UInt8) (s : IpcpNak) :
    Reading IpcpNak :=
  if go.asksAddrs=true ∨ s.no.oldAddrs=true ∨ cilen≠cilenAddrs then bad
  else do
    let (l₁,p) ← readLong p
    let (l₂,_) ← readLong p
    let tried := { s.tried with negAddr := false }
    let tried := if htonl l₁≠0 ∧ go.acceptLocal=true then { tried with ouraddr := htonl l₁ }
      else tried
    let tried := if htonl l₂≠0 ∧ go.acceptRemote=true then { tried with hisaddr := htonl l₂ }
      else tried
    ok ⟨{ s.no with oldAddrs := true },tried⟩

/-- `CI_ADDR` that was not asked for. -/
def otherAddr (go : AddressOptions) (cilen : ℕ) (p : List UInt8) (s : IpcpNak) :
    Reading IpcpNak :=
  if go.negAddr=true ∨ s.no.negAddr=true ∨ cilen≠cilenAddr then bad
  else do
    let (l,_) ← readLong p
    let tried := { s.tried with oldAddrs := false }
    let tried := if htonl l≠0 ∧ go.acceptLocal=true then { tried with ouraddr := htonl l }
      else tried
    let tried := if tried.ouraddr≠0 then { tried with negAddr := true } else tried
    ok ⟨{ s.no with negAddr := true },tried⟩

/-- `CI_MS_DNS1` and `CI_MS_DNS2` that were not asked for, and `CI_MS_WINS1` and
`CI_MS_WINS2`. -/
def otherServer (refused : Bool) (cilen : ℕ) (code : UInt32 → IpcpNak) (p : List UInt8) :
    Reading IpcpNak :=
  if refused=true ∨ cilen≠cilenAddr then bad
  else do
    let (l,_) ← readLong p
    ok (code (htonl l))

/-- An option that was not asked for, in a CONFNAK of IPCP. -/
def ipcpOther (go : AddressOptions) (citype : UInt8) (cilen : ℕ) (p : List UInt8) (s : IpcpNak) :
    Reading IpcpNak :=
  if citype=ciCompresstype then
    if go.negVj=true ∨ s.no.negVj=true ∨ (cilen≠cilenVj ∧ cilen≠cilenCompress) then bad
    else ok { s with no := { s.no with negVj := true } }
  else if citype=ciAddrs then otherAddrs go cilen p s
  else if citype=ciAddr then otherAddr go cilen p s
  else if citype=ciMsDns1 then
    otherServer (go.reqDns1 || s.no.reqDns1) cilen (fun addr =>
      ⟨{ s.no with reqDns1 := true },{ s.tried with dnsaddr0 := addr, reqDns1 := true }⟩) p
  else if citype=ciMsDns2 then
    otherServer (go.reqDns2 || s.no.reqDns2) cilen (fun addr =>
      ⟨{ s.no with reqDns2 := true },{ s.tried with dnsaddr1 := addr, reqDns2 := true }⟩) p
  else if citype=ciMsWins1 then
    otherServer false cilen (fun addr =>
      if addr≠0 then { s with tried := { s.tried with winsaddr0 := addr } } else s) p
  else if citype=ciMsWins2 then
    otherServer false cilen (fun addr =>
      if addr≠0 then { s with tried := { s.tried with winsaddr1 := addr } } else s) p
  else ok s

/-- What the replies of IPCP depend on besides the body. -/
structure IpcpReply where
  /-- `go` -/
  go : AddressOptions
  /-- Whether the state is `OPENED`. -/
  opened : Bool
  /-- `treat_as_reject` -/
  treatAsReject : Bool

/-- The part of `ipcp_nakci` that reads the body. -/
def IpcpReply.readNak (reply : IpcpReply) (p : List UInt8) : Reading IpcpNak := do
  let (c,s) ← runItems (reply.go.nakItems reply.treatAsReject)
    (⟨p,p.length⟩,⟨.zero,reply.go⟩)
  trailing (ipcpOther reply.go) c s

/-- `ipcp_nakci` -/
def IpcpReply.nakci (reply : IpcpReply) (p : List UInt8) : Option (Handled AddressOptions) :=
  match reply.readNak p with
  | outside => none
  | bad => some ⟨false,reply.go⟩
  | ok s => some ⟨true,if reply.opened then reply.go else s.tried⟩

/-! ## LCP stays inside -/

theorem takes_one {c : Check} (h : c.Takes) : ∀ c'∈[c],c'.Takes := List.forall_mem_singleton.mpr h

theorem takes_two {c₁ c₂ : Check} (h₁ : c₁.Takes) (h₂ : c₂.Takes) : ∀ c∈[c₁,c₂],c.Takes :=
  List.forall_mem_cons.mpr ⟨h₁,takes_one h₂⟩

theorem takes_none : ∀ c∈([] : List Check),c.Takes := fun _ hin => absurd hin List.not_mem_nil

theorem takes_endpChecks (endpoint : Epdisc) : ∀ c∈endpChecks endpoint,c.Takes := by
  refine List.forall_mem_cons.mpr ⟨takes_checkChar _,fun c hin => ?_⟩
  obtain ⟨v,-,rfl⟩ := List.mem_map.mp hin
  exact takes_checkChar v

theorem totalWidth_endpChecks (endpoint : Epdisc) :
    totalWidth (endpChecks endpoint)+2=cilenChar+endpoint.length := by
  have hones : (endpoint.bytes.map fun _ => 1).sum=endpoint.length := by
    rw [List.map_const',List.sum_replicate_nat,length_bytes,Nat.mul_one]
  have hmap : totalWidth (endpChecks endpoint)=1+(endpoint.bytes.map fun _ => 1).sum := by
    rw [totalWidth,endpChecks,List.map_cons,List.sum_cons,List.map_map]
    rfl
  rw [hmap,hones,cilenChar]
  omega

/-- A part of a handler of LCP stays inside. -/
def StaysInside {σ : Type} (item : Item σ) : Prop :=
  ∀ c s,Cursor.Bounded c → (item.part (c,s)).Inside fun r => r.1.Bounded

theorem startsEndp_inside (opt : UInt8) {cilen : ℕ} (hcilen : 2≤cilen) {c : Cursor}
    (hc : c.Bounded) : (startsEndp opt cilen c).Inside fun found => found=true → cilen≤c.len := by
  unfold Cursor.Bounded at hc
  unfold startsEndp
  refine inside_ite (fun _ h => by cases h) fun hlong => ?_
  rw [peek_of_lt (by omega : 0<c.p.length),ok_bind,peek_of_lt (by omega : 1<c.p.length),ok_bind]
  refine inside_ite (fun _ h => by cases h) fun _ _ => ?_
  omega

theorem rejItemLcp_inside {opt : UInt8} {cilen : ℕ} {neg : Bool} {checks : List Check}
    {off : FullLcpOptions → FullLcpOptions} (hchecks : ∀ c∈checks,c.Takes)
    (hcilen : cilen=totalWidth checks+2) : StaysInside (rejItemLcp opt cilen neg checks off) :=
  fun _ s hc => takeOption_inside hc (startsLcp_inside opt (by omega) hc)
    fun hlong => rejValue_inside hchecks hcilen _ s hlong

namespace LcpOptions

variable (go : LcpOptions)

theorem ackItems_inside : ∀ item∈go.ackItems,StaysInside item := by
  have hshort : ∀ val,∀ c∈[Check.mk 2 (checkShort val)],c.Takes :=
    fun val => takes_one (takes_checkShort val)
  have hlong : ∀ val,∀ c∈[Check.mk 4 (checkLong val)],c.Takes :=
    fun val => takes_one (takes_checkLong val)
  have hendp := (totalWidth_endpChecks go.endpoint).symm
  simp only [ackItems,List.forall_mem_cons]
  exact ⟨ackItem_inside (hshort _) rfl,ackItem_inside (hlong _) rfl,
    ackItem_inside (hshort _) rfl,
    ackItem_inside (takes_two (takes_checkShort _) (takes_checkChar _)) rfl,
    ackItem_inside (hshort _) rfl,
    ackItem_inside (takes_two (takes_checkShort _) (takes_checkLong _)) rfl,
    ackItem_inside (takes_one (takes_checkChar _)) rfl,ackItem_inside (hlong _) rfl,
    ackItem_inside takes_none rfl,ackItem_inside takes_none rfl,
    ackItem_inside (hshort _) rfl,ackItem_inside takes_none rfl,
    ackItem_inside (takes_endpChecks _) hendp,fun _ hin => absurd hin List.not_mem_nil⟩

theorem rejItems_inside : ∀ item∈go.rejItems,StaysInside item := by
  have hshort : ∀ val,∀ c∈[Check.mk 2 (checkShort val)],c.Takes :=
    fun val => takes_one (takes_checkShort val)
  have hlong : ∀ val,∀ c∈[Check.mk 4 (checkLong val)],c.Takes :=
    fun val => takes_one (takes_checkLong val)
  have hchap : ∀ val,∀ c∈[Check.mk 3 (checkAll [checkShort pppChap,checkChar val])],c.Takes :=
    fun val => takes_one (takes_of_accepts
      (accepts_pair (accepts_checkShort (by decide) (by decide)) (accepts_checkChar val)) rfl)
  have hlqr : ∀ val,∀ c∈[Check.mk 6 (checkAll [checkShort pppLqr,checkLong val])],c.Takes :=
    fun val => takes_one (takes_of_accepts
      (accepts_pair (accepts_checkShort (by decide) (by decide)) (accepts_checkLong val)) rfl)
  have hendp := (totalWidth_endpChecks go.endpoint).symm
  simp only [rejItems,List.forall_mem_cons]
  refine ⟨rejItemLcp_inside (hshort _) rfl,rejItemLcp_inside (hlong _) rfl,
    rejItemLcp_inside (hshort _) rfl,rejItemLcp_inside (hchap _) rfl,
    rejItemLcp_inside (hshort _) rfl,rejItemLcp_inside (hlqr _) rfl,
    rejItemLcp_inside (takes_one (takes_checkChar _)) rfl,rejItemLcp_inside (hlong _) rfl,
    rejItemLcp_inside takes_none rfl,rejItemLcp_inside takes_none rfl,
    rejItemLcp_inside (hshort _) rfl,rejItemLcp_inside takes_none rfl,fun c s hc => ?_,
    fun _ hin => absurd hin List.not_mem_nil⟩
  exact takeOption_inside hc (startsEndp_inside _ (by omega) hc)
    fun hlong => rejValue_inside (takes_endpChecks _) hendp _ s hlong

end LcpOptions

/-- A part of `lcp_nakci` whose value is read as a whole. -/
theorem nakItem_inside {opt : UInt8} {cilen : ℕ} {neg : Bool}
    {value : List UInt8 → LcpNak → Reading (List UInt8×LcpNak)} (hcilen : 2≤cilen)
    (hvalue : ∀ p s,cilen-2≤p.length →
      (value p s).Inside fun r => p.length-(cilen-2)≤r.1.length) :
    StaysInside ⟨neg,takeOption (startsLcp opt cilen) cilen value⟩ := by
  intro c s hc
  refine takeOption_inside hc (startsLcp_inside opt hcilen hc) fun hlong => ?_
  refine (hvalue (c.p.drop 2) s hlong).mono fun r hr => ?_
  rw [List.length_drop] at hr
  omega

theorem nakShort_inside (opt : UInt8) (neg : Bool) (code : ℕ → LcpNak → LcpNak) :
    StaysInside (nakShort opt neg code) := by
  refine nakItem_inside (by decide) fun p s hp => ?_
  exact (readShort_inside hp).bind fun r hr => hr.ge

theorem nakLong_inside (opt : UInt8) (neg : Bool) (code : UInt32 → LcpNak → LcpNak) :
    StaysInside (nakLong opt neg code) := by
  refine nakItem_inside (by decide) fun p s hp => ?_
  exact (readLong_inside hp).bind fun r hr => hr.ge

theorem nakChar_inside (opt : UInt8) (neg : Bool) (code : UInt8 → LcpNak → LcpNak) :
    StaysInside (nakChar opt neg code) := by
  refine nakItem_inside (by decide) fun p s hp => ?_
  exact (readChar_inside hp).bind fun r hr => hr.ge

theorem nakLqr_inside (opt : UInt8) (neg : Bool) (code : ℕ → UInt32 → LcpNak → LcpNak) :
    StaysInside (nakLqr opt neg code) := by
  refine nakItem_inside (by decide) fun p s hp => ?_
  rw [cilenLqr] at hp ⊢
  refine (@readShort_inside p (by omega)).bind fun r₁ hr₁ => ?_
  refine (@readLong_inside r₁.2 (by omega)).bind fun r₂ hr₂ => ?_
  unfold Reading.Inside
  dsimp only
  omega

theorem nakVoid_inside (opt : UInt8) (neg : Bool) (code : LcpNak → LcpNak) :
    StaysInside (nakVoid opt neg code) :=
  nakItem_inside (by decide) fun p s _ => Nat.sub_le p.length 0

theorem nakEndp_inside (neg : Bool) : StaysInside (nakEndp neg) := by
  intro c s hc
  unfold Cursor.Bounded at hc
  unfold nakEndp
  refine inside_ite (fun _ => hc) fun hlong => ?_
  rw [cilenChar] at hlong
  dsimp only at hlong ⊢
  rw [peek_of_lt (by omega : 0<c.p.length),ok_bind]
  refine inside_ite (fun _ => hc) fun _ => ?_
  rw [peek_of_lt (by omega : 1<c.p.length),ok_bind]
  refine inside_ite (fun _ => hc) fun _ => ?_
  unfold Reading.Inside Cursor.Bounded
  dsimp only
  rw [List.length_drop]
  omega

theorem nakPap_inside (go : LcpOptions) (tried : FullLcpOptions) :
    (nakPap go tried).Inside fun _ => True := by
  unfold nakPap
  exact inside_ite (fun _ => trivial) fun _ => inside_ite (fun _ => trivial) fun _ => trivial

theorem nakChap_inside (go : LcpOptions) (cichar : UInt8) (tried : FullLcpOptions) :
    (nakChap go cichar tried).Inside fun _ => True := by
  unfold nakChap
  refine inside_ite (fun _ => ?_) fun _ => inside_ite (fun _ => ?_) fun _ => trivial
  · exact inside_ite (fun _ => trivial) fun _ => trivial
  · exact inside_ite (fun _ => inside_ite (fun _ => trivial) fun _ => trivial) fun _ => trivial

theorem nakAuthtype_inside (go : LcpOptions) : StaysInside (nakAuthtype go) := by
  intro c s hc
  unfold Cursor.Bounded at hc
  unfold nakAuthtype
  refine inside_ite (fun _ => hc) fun hlong => ?_
  rw [cilenShort] at hlong
  dsimp only at hlong ⊢
  rw [peek_of_lt (by omega : 0<c.p.length),ok_bind]
  refine inside_ite (fun _ => hc) fun _ => ?_
  rw [peek_of_lt (by omega : 1<c.p.length),ok_bind]
  refine inside_ite (fun _ => hc) fun hfits => ?_
  obtain ⟨hshort,hle⟩ := not_or.mp hfits
  rw [not_lt,cilenShort] at hshort
  rw [not_lt] at hle
  have hrest : (c.p.drop 2).length=c.p.length-2 := List.length_drop ..
  refine (@readShort_inside (c.p.drop 2) (by omega)).bind fun r hr => ?_
  refine inside_ite (fun hpap => ?_) fun _ => inside_ite (fun hchap => ?_) fun _ => ?_
  · refine (nakPap_inside go s.tried).bind fun tried _ => ?_
    have hlen := hpap.2
    rw [cilenShort] at hlen
    unfold Reading.Inside Cursor.Bounded
    dsimp only
    omega
  · have hlen := hchap.2
    rw [cilenChap] at hlen
    refine (@readChar_inside r.2 (by omega)).bind fun r' hr' => ?_
    refine (nakChap_inside go r'.1 s.tried).bind fun tried _ => ?_
    unfold Reading.Inside Cursor.Bounded
    dsimp only
    omega
  · unfold Reading.Inside Cursor.Bounded
    dsimp only
    rw [List.length_drop,cilenShort]
    omega

theorem LcpOptions.nakItems_inside (go wo : LcpOptions) (treatAsReject : Bool) (magic : UInt32) :
    ∀ item∈go.nakItems wo treatAsReject magic,StaysInside item := by
  simp only [nakItems,List.forall_mem_cons]
  exact ⟨nakShort_inside _ _ _,nakLong_inside _ _ _,nakAuthtype_inside _,nakLqr_inside _ _ _,
    nakChar_inside _ _ _,nakLong_inside _ _ _,nakVoid_inside _ _ _,nakVoid_inside _ _ _,
    nakShort_inside _ _ _,nakVoid_inside _ _ _,nakEndp_inside _,
    fun _ hin => absurd hin List.not_mem_nil⟩

theorem refuse_inside {σ : Type} {c : Prop} [Decidable c] {s : σ} :
    (if c then bad else ok s).Inside fun _ => True :=
  inside_ite (fun _ => trivial) fun _ => trivial

theorem lcpOther_inside (go : LcpOptions) (citype : UInt8) (cilen : ℕ) (p : List UInt8)
    (s : LcpNak) (hp : cilen-2≤p.length) : (lcpOther go citype cilen p s).Inside fun _ => True := by
  unfold lcpOther
  -- the bound is left abstract: comparing with the numeral would be evaluated
  generalize defmru=bound
  refine inside_ite (fun _ => inside_ite (fun _ => trivial) fun hgood => ?_) fun _ => ?_
  · have hshort : cilen=cilenShort := not_not.mp (not_or.mp (not_or.mp hgood).2).2
    rw [cilenShort] at hshort
    refine (@readShort_inside p (by omega)).bind fun r _ => ?_
    exact inside_ite (fun _ => trivial) fun _ => trivial
  refine inside_ite (fun _ => refuse_inside) fun _ => ?_
  refine inside_ite (fun _ => refuse_inside) fun _ => ?_
  refine inside_ite (fun _ => refuse_inside) fun _ => ?_
  refine inside_ite (fun _ => refuse_inside) fun _ => ?_
  refine inside_ite (fun _ => refuse_inside) fun _ => ?_
  refine inside_ite (fun _ => refuse_inside) fun _ => ?_
  refine inside_ite (fun _ => refuse_inside) fun _ => ?_
  refine inside_ite (fun _ => refuse_inside) fun _ => ?_
  exact inside_ite (fun _ => refuse_inside) fun _ => trivial

theorem LcpReply.readNak_inside (reply : LcpReply) (p : List UInt8) :
    (reply.readNak p).Inside fun _ => True := by
  have hitems := runItems_inside (P := Cursor.Bounded) (s := ⟨.zero,reply.go,false⟩)
    (c := ⟨p,p.length⟩)
    (reply.go.nakItems_inside reply.wo reply.treatAsReject reply.magic) (Nat.le_refl p.length)
  refine hitems.bind fun r hr => ?_
  exact trailing_inside (fun citype cilen p s _ hp _ => lcpOther_inside _ citype cilen p s hp)
    r.1.len r.1 r.2 (Nat.le_refl _) hr trivial

/-! ## IPCP runs out -/

/-- The bytes of an option with a value. -/
def OptionOf (opt : UInt8) (cilen : ℕ) (fits : List UInt8 → Prop) (b : List UInt8) : Prop :=
  ∃ v,b=opt::UInt8.ofNat cilen::v ∧ v.length+2=cilen ∧ fits v

theorem peek_outside {p : List UInt8} {i : ℕ} (h : p.length ≤ i) : peek p i=outside := by
  rw [peek,List.getElem?_eq_none h]

theorem startsIpcp_short {opt : UInt8} {cilen : ℕ} {c : Cursor} (h : c.p.length<2) :
    startsIpcp opt cilen c=outside := by
  rw [startsIpcp,peek_outside (by omega),outside_bind]

/-- The test finds the option or not. -/
theorem startsIpcp_cases (opt : UInt8) {cilen : ℕ} (hcilen : cilen<256) {c : Cursor}
    (h : 2≤c.p.length) :
    (startsIpcp opt cilen c=ok false ∧ ∀ q,c.p=opt::UInt8.ofNat cilen::q → c.len<cilen) ∨
      (startsIpcp opt cilen c=ok true ∧ cilen≤c.len ∧ ∃ q,c.p=opt::UInt8.ofNat cilen::q) := by
  obtain ⟨p,left⟩ := c
  match p with
  | [] => simp at h
  | [_] => simp at h
  | citype::len::q =>
    have hbyte : (UInt8.ofNat cilen).toNat=cilen := by
      rw [UInt8.toNat_ofNat',Nat.mod_eq_of_lt hcilen]
    have hone : peek (citype::len::q) 1=ok len := rfl
    have hzero : peek (citype::len::q) 0=ok citype := rfl
    unfold startsIpcp
    dsimp only
    rw [hone,ok_bind,hzero]
    by_cases hlen : len.toNat≠cilen
    · rw [if_pos hlen]
      refine Or.inl ⟨rfl,fun q' heq => absurd ?_ hlen⟩
      rw [(List.cons_eq_cons.mp (List.cons_eq_cons.mp heq).2).1,hbyte]
    rw [if_neg hlen]
    rw [not_not] at hlen
    by_cases hleft : left<cilen
    · rw [if_pos hleft]
      exact Or.inl ⟨rfl,fun _ _ => hleft⟩
    rw [if_neg hleft,ok_bind]
    by_cases htype : citype=opt
    · rw [decide_eq_true htype]
      refine Or.inr ⟨rfl,not_lt.mp hleft,q,?_⟩
      rw [htype,← hlen,UInt8.ofNat_toNat]
    · rw [decide_eq_false htype]
      refine Or.inl ⟨rfl,fun q' heq => absurd ?_ htype⟩
      exact (List.cons_eq_cons.mp heq).1

theorem head_optionOf {opt : UInt8} {cilen : ℕ} {fits : List UInt8 → Prop} {b : List UInt8}
    (h : OptionOf opt cilen fits b) : b.head?=some opt := by
  obtain ⟨v,rfl,-,-⟩ := h
  rfl

/-- The macro finds its option, and reads the value, or not. -/
theorem takeOption_cases {σ : Type} (opt : UInt8) {cilen : ℕ} (hcilen : cilen<256)
    (value : List UInt8 → σ → Reading (List UInt8×σ)) {c : Cursor} (h : 2≤c.p.length) (s : σ) :
    (takeOption (startsIpcp opt cilen) cilen value (c,s)=ok (c,s) ∧
      ∀ q,c.p=opt::UInt8.ofNat cilen::q → c.len<cilen) ∨
    ∃ q,c.p=opt::UInt8.ofNat cilen::q ∧ cilen≤c.len ∧
      takeOption (startsIpcp opt cilen) cilen value (c,s)=
        (value q s >>= fun r => ok (⟨r.1,c.len-cilen⟩,r.2)) := by
  unfold takeOption
  rcases startsIpcp_cases opt hcilen h with ⟨hno,hless⟩ | ⟨hyes,hle,q,hq⟩
  · rw [hno]
    exact Or.inl ⟨rfl,hless⟩
  · rw [hyes]
    refine Or.inr ⟨q,hq,hle,?_⟩
    rw [hq]
    rfl

/-- The value of an option, and what is behind it. -/
theorem exists_value {cilen : ℕ} {p q : List UInt8} {citype len : UInt8}
    (hp : p=citype::len::q) (hge : 2≤cilen) (hle : cilen≤p.length) :
    ∃ v rest,q=v++rest ∧ v.length+2=cilen ∧ rest.length=p.length-cilen := by
  have hlength : p.length=q.length+2 := by
    rw [hp]
    rfl
  refine ⟨q.take (cilen-2),q.drop (cilen-2),(List.take_append_drop _ _).symm,?_,?_⟩
  · rw [List.length_take]
    omega
  · rw [List.length_drop]
    omega

/-- A macro that reads the length of its option first. -/
theorem looks_takeOption {σ : Type} {opt : UInt8} {cilen : ℕ} (neg : Bool) (hge : 2≤cilen)
    (hlt : cilen<256) {value : List UInt8 → σ → Reading (List UInt8×σ)} {fits : List UInt8 → Prop}
    (hvalue : ∀ v rest s,v.length+2=cilen →
      (fits v ∧ ∃ s',value (v++rest) s=ok (rest,s')) ∨ (¬fits v ∧ value (v++rest) s=bad)) :
    Looks ⟨neg,takeOption (startsIpcp opt cilen) cilen value⟩ ⟨neg,opt,OptionOf opt cilen fits⟩ where
  asked := rfl
  starts := fun _ => head_optionOf
  short := by
    intro c s hshort
    dsimp only [takeOption]
    rw [startsIpcp_short hshort,outside_bind]
  alone := by
    intro c s hlong hhead
    rcases takeOption_cases opt hlt value hlong s with
      ⟨hsame,-⟩ | ⟨q,hq,-,-⟩
    · exact hsame
    · rw [hq] at hhead
      exact absurd rfl hhead
  takes := by
    rintro b rest s ⟨v,rfl,hv,hfits⟩
    have hlength : (opt::UInt8.ofNat cilen::v++rest).length=cilen+rest.length := by
      rw [List.length_append,List.length_cons,List.length_cons]
      omega
    rcases takeOption_cases opt hlt value
      (c := ⟨opt::UInt8.ofNat cilen::v++rest,(opt::UInt8.ofNat cilen::v++rest).length⟩)
      (by dsimp only; omega) s with ⟨-,hless⟩ | ⟨q,hq,-,hfound⟩
    · have hshort := hless (v++rest) rfl
      dsimp only at hshort
      omega
    · obtain rfl : v++rest=q := (List.cons_eq_cons.mp (List.cons_eq_cons.mp hq).2).2
      rcases hvalue v rest s hv with ⟨-,s',hok⟩ | ⟨hnot,-⟩
      · refine ⟨s',?_⟩
        dsimp only
        rw [hfound,hok,ok_bind]
        dsimp only
        rw [hlength,Nat.add_sub_cancel_left]
      · exact absurd hfits hnot
  cases := by
    intro p s hlong
    dsimp only
    rcases takeOption_cases opt hlt value (c := ⟨p,p.length⟩) hlong s with
      ⟨hsame,-⟩ | ⟨q,hq,hle,hfound⟩
    · exact Or.inr (Or.inl hsame)
    · obtain ⟨v,rest,rfl,hv,hrest⟩ := exists_value hq hge hle
      rw [hfound]
      rcases hvalue v rest s hv with ⟨hfits,s',hok⟩ | ⟨-,hbad⟩
      · rw [hok,ok_bind]
        refine Or.inr (Or.inr (Or.inl ⟨opt::UInt8.ofNat cilen::v,rest,s',⟨v,rfl,hv,hfits⟩,hq,?_⟩))
        rw [hrest]
      · rw [hbad]
        exact Or.inl rfl
  behind := by
    intro c s hbehind
    unfold Cursor.Behind at hbehind
    dsimp only
    rcases takeOption_cases opt hlt value (c := c) (by omega) s with
      ⟨hsame,-⟩ | ⟨q,hq,hle,hfound⟩
    · rw [hsame]
      exact hbehind
    · obtain ⟨v,rest,rfl,hv,hrest⟩ := exists_value hq hge (by omega)
      rw [hfound]
      rcases hvalue v rest s hv with ⟨-,s',hok⟩ | ⟨-,hbad⟩
      · rw [hok,ok_bind]
        unfold Reading.Inside Cursor.Behind
        dsimp only
        omega
      · rw [hbad]
        exact trivial

/-- A rejection of IPCP looks for the option with its value. -/
theorem looks_rej {opt : UInt8} {cilen : ℕ} (neg : Bool) {checks : List Check}
    (off : AddressOptions → AddressOptions) {value : List UInt8} (hchecks : ∀ c∈checks,c.Takes)
    (hcilen : cilen=totalWidth checks+2) (hlt : cilen<256) (hvalue : value.length+2=cilen)
    (h : Accepts (checkAll (checks.map Check.check)) value) :
    Looks (rejItemIpcp opt cilen neg checks off) ⟨neg,opt,OptionOf opt cilen (·=value)⟩ := by
  refine looks_takeOption neg (by omega) hlt fun v rest s hv => ?_
  have hwidth : totalWidth checks≤(v++rest).length := by
    rw [List.length_append]
    omega
  unfold rejValue
  rw [(readChecks_eq hchecks hwidth).1]
  by_cases heq : v=value
  · rw [(h (v++rest) rest).mpr (by rw [heq])]
    exact Or.inl ⟨heq,off s,rfl⟩
  · refine Or.inr ⟨heq,?_⟩
    cases hcheck : checkAll (checks.map Check.check) (v++rest) with
    | none => rfl
    | some rest' =>
      have hsplit := (h _ _).mp hcheck
      exact absurd (List.append_inj_left hsplit (by omega)) heq

/-- A rejection that can not have its value. -/
theorem looks_rej_refuses {opt : UInt8} {cilen : ℕ} (neg : Bool) {checks : List Check}
    (off : AddressOptions → AddressOptions) (hchecks : ∀ c∈checks,c.Takes)
    (hcilen : cilen=totalWidth checks+2) (hlt : cilen<256)
    (h : Refuses (checkAll (checks.map Check.check))) :
    Looks (rejItemIpcp opt cilen neg checks off) ⟨neg,opt,OptionOf opt cilen fun _ => False⟩ := by
  refine looks_takeOption neg (by omega) hlt fun v rest s hv => Or.inr ⟨id,?_⟩
  have hwidth : totalWidth checks≤(v++rest).length := by
    rw [List.length_append]
    omega
  unfold rejValue
  rw [(readChecks_eq hchecks hwidth).1,h]
  rfl

namespace IpcpOptions

variable (go : IpcpOptions)

theorem takes_vjChecks : ∀ c∈go.vjChecks,c.Takes := by
  unfold vjChecks
  split_ifs
  · exact takes_one (takes_checkShort _)
  · exact List.forall_mem_cons.mpr
      ⟨takes_checkShort _,takes_two (takes_checkInt _) (takes_checkChar _)⟩

theorem vjlen_eq_width : vjlen go.oldVj=totalWidth go.vjChecks+2 := by
  unfold vjlen vjChecks
  split_ifs
  · rfl
  · rfl

theorem accepts_vjChecks (h : go.VjNumbersFit) :
    Accepts (checkAll (go.vjChecks.map Check.check)) go.vjValue := by
  obtain ⟨hprotocol,hslot⟩ := h
  have hshort := accepts_checkShort hprotocol.1 hprotocol.2
  unfold vjChecks vjValue
  split_ifs with hold
  · have hall := accepts_checkAll (.cons hshort .nil)
    rwa [List.flatten_cons,List.flatten_nil,List.append_nil] at hall
  · obtain ⟨hge,hlt⟩ := hslot ((Bool.not_eq_true _).mp hold)
    have hall := accepts_checkAll
      (.cons hshort (.cons (accepts_checkInt hge hlt) (.cons (accepts_checkChar go.cflag) .nil)))
    simpa using hall

theorem refuses_vjChecks (h : ¬go.VjNumbersFit) :
    Refuses (checkAll (go.vjChecks.map Check.check)) := by
  unfold vjChecks
  rcases not_and_or.mp h with hprotocol | hslot
  · split_ifs
    · exact refuses_checkAll List.mem_cons_self (refuses_checkShort hprotocol)
    · exact refuses_checkAll List.mem_cons_self (refuses_checkShort hprotocol)
  · obtain ⟨hold,hslot⟩ := Classical.not_imp.mp hslot
    rw [hold,if_neg Bool.false_ne_true]
    exact refuses_checkAll (List.mem_cons_of_mem _ List.mem_cons_self) (refuses_checkInt hslot)

/-- The options of a CONFREJ, with their values. -/
def rejExpected : List Expected :=
  [⟨go.asksAddrs,ciAddrs,OptionOf ciAddrs cilenAddrs
      (·=putLong (ntohl go.ouraddr)++putLong (ntohl go.hisaddr))⟩,
    ⟨go.negVj,ciCompresstype,OptionOf ciCompresstype (vjlen go.oldVj)
      fun v => go.VjNumbersFit ∧ v=go.vjValue⟩,
    ⟨go.negAddr,ciAddr,OptionOf ciAddr cilenAddr (·=putLong (ntohl go.ouraddr))⟩,
    ⟨go.reqDns1,ciMsDns1,OptionOf ciMsDns1 cilenAddr (·=putLong (ntohl go.dnsaddr0))⟩,
    ⟨go.reqDns2,ciMsDns2,OptionOf ciMsDns2 cilenAddr (·=putLong (ntohl go.dnsaddr1))⟩,
    ⟨decide (go.winsaddr0≠0),ciMsWins1,OptionOf ciMsWins1 cilenAddr
      (·=putLong (ntohl go.winsaddr0))⟩,
    ⟨decide (go.winsaddr1≠0),ciMsWins2,OptionOf ciMsWins2 cilenAddr
      (·=putLong (ntohl go.winsaddr1))⟩]

theorem nodup_rejTypes : (go.rejExpected.map Expected.type).Nodup := by
  show [ciAddrs,ciCompresstype,ciAddr,ciMsDns1,ciMsDns2,ciMsWins1,ciMsWins2].Nodup
  decide

theorem looks_rejItems : List.Forall₂ Looks go.rejItems go.rejExpected := by
  have haddr : ∀ opt neg val off,
      Looks (rejItemIpcp opt cilenAddr neg [⟨4,checkAddr val⟩] off)
        ⟨neg,opt,OptionOf opt cilenAddr (·=putLong (ntohl val))⟩ := by
    intro opt neg val off
    have hall := accepts_checkAll (.cons (accepts_checkAddr val) .nil)
    rw [List.flatten_cons,List.flatten_nil,List.append_nil] at hall
    exact looks_rej neg off (takes_one (takes_checkAddr val)) rfl (by decide) rfl hall
  refine .cons ?_ (.cons ?_ (.cons (haddr _ _ _ _) (.cons (haddr _ _ _ _) (.cons (haddr _ _ _ _)
    (.cons (haddr _ _ _ _) (.cons (haddr _ _ _ _) .nil))))))
  · have hall := accepts_pair (accepts_checkAddr go.ouraddr) (accepts_checkAddr go.hisaddr)
    exact looks_rej _ _ (takes_two (takes_checkAddr _) (takes_checkAddr _)) rfl (by decide) rfl hall
  · by_cases hfit : go.VjNumbersFit
    · have hlooks := @looks_rej ciCompresstype _ go.negVj _
        (fun tried => { tried with negVj := false }) _ go.takes_vjChecks go.vjlen_eq_width (vjlen_lt _) go.vjlen_eq.symm
        (go.accepts_vjChecks hfit)
      simpa only [hfit,true_and] using hlooks
    · have hlooks := @looks_rej_refuses ciCompresstype _ go.negVj _
        (fun tried => { tried with negVj := false }) go.takes_vjChecks go.vjlen_eq_width (vjlen_lt _)
        (go.refuses_vjChecks hfit)
      simpa only [hfit,false_and] using hlooks

end IpcpOptions

theorem looks_nakAddr (opt : UInt8) (neg : Bool) (code : UInt32 → IpcpNak → IpcpNak) :
    Looks (nakAddr opt neg code) ⟨neg,opt,OptionOf opt cilenAddr fun _ => True⟩ := by
  refine looks_takeOption neg (by decide) (by decide) fun v rest s hv => Or.inl ⟨trivial,?_⟩
  match v with
  | [a,b,c,d] => exact ⟨_,rfl⟩

theorem looks_nakAddrs (go : AddressOptions) (treatAsReject : Bool) :
    Looks (nakAddrs go treatAsReject)
      ⟨go.asksAddrs,ciAddrs,OptionOf ciAddrs cilenAddrs fun _ => True⟩ := by
  refine looks_takeOption go.asksAddrs (by decide) (by decide)
    fun v rest s hv => Or.inl ⟨trivial,?_⟩
  match v with
  | [a,b,c,d,e,f,g,h] =>
    cases treatAsReject with
    | true => exact ⟨_,rfl⟩
    | false => exact ⟨_,rfl⟩

/-- The compression option as `ipcp_nakci` reads it to its end. -/
def VjOption (treatAsReject : Bool) (b : List UInt8) : Prop :=
  OptionOf ciCompresstype cilenCompress (fun _ => True) b ∨
    (treatAsReject=false ∧ OptionOf ciCompresstype cilenVj (fun _ => True) b)

/-- Of a long compression option that is treated as rejected only the protocol is read. -/
theorem nakVjValue_cases (go : AddressOptions) (treatAsReject : Bool) {cilen : ℕ}
    (hcilen : cilen=cilenCompress ∨ cilen=cilenVj) {v rest : List UInt8} (s : IpcpNak)
    (hv : v.length+2=cilen) :
    ∃ s',(¬(treatAsReject=true ∧ cilen=cilenVj) ∧
        nakVjValue go treatAsReject cilen (v++rest) s=ok (rest,s')) ∨
      (treatAsReject=true ∧ cilen=cilenVj ∧
        nakVjValue go treatAsReject cilen (v++rest) s=ok (v.drop 2++rest,s')) := by
  rcases hcilen with rfl | rfl
  · match v with
    | [high,low] =>
      have hread : readShort ([high,low]++rest)=ok (getShort high low,rest) := rfl
      have hshort : ¬cilenCompress=cilenVj := by decide
      have hwhole : ¬(treatAsReject=true ∧ cilenCompress=cilenVj) := fun hand => hshort hand.2
      unfold nakVjValue
      rw [hread,ok_bind]
      dsimp only
      rw [if_neg hshort]
      cases treatAsReject with
      | true => exact ⟨_,Or.inl ⟨hwhole,rfl⟩⟩
      | false =>
        rw [if_neg Bool.false_ne_true]
        by_cases hprotocol : getShort high low=ipcpVjComp ∨ getShort high low=ipcpVjCompOld
        · rw [if_pos hprotocol]
          exact ⟨_,Or.inl ⟨hwhole,rfl⟩⟩
        · rw [if_neg hprotocol]
          exact ⟨_,Or.inl ⟨hwhole,rfl⟩⟩
  · match v with
    | [high,low,slot,flag] =>
      have hread : readShort ([high,low,slot,flag]++rest)=ok (getShort high low,slot::flag::rest) :=
        rfl
      unfold nakVjValue
      rw [hread,ok_bind]
      dsimp only
      cases treatAsReject with
      | true => exact ⟨_,Or.inr ⟨rfl,rfl,rfl⟩⟩
      | false =>
        have hwhole : ¬(false=true ∧ cilenVj=cilenVj) := fun hand => Bool.false_ne_true hand.1
        rw [if_neg Bool.false_ne_true,if_pos rfl]
        have hslot : readChar (slot::flag::rest)=ok (slot,flag::rest) := rfl
        have hflag : readChar (flag::rest)=ok (flag,rest) := rfl
        rw [hslot,ok_bind]
        dsimp only
        rw [hflag,ok_bind]
        dsimp only
        by_cases hprotocol : getShort high low=ipcpVjComp
        · rw [if_pos hprotocol]
          exact ⟨_,Or.inl ⟨hwhole,rfl⟩⟩
        · rw [if_neg hprotocol]
          exact ⟨_,Or.inl ⟨hwhole,rfl⟩⟩

/-- The two lengths of a compression option. -/
theorem vjLengths {cilen : ℕ} (h : cilen=cilenCompress ∨ cilen=cilenVj) : 2≤cilen ∧ cilen<256 := by
  rcases h with rfl | rfl
  · decide
  · decide

/-- The macro finds the compression option, and reads the value, or not. -/
theorem nakVj_cases (go : AddressOptions) (treatAsReject : Bool) {c : Cursor} (h : 2≤c.p.length)
    (s : IpcpNak) :
    ((nakVj go treatAsReject).part (c,s)=ok (c,s) ∧
      ∀ cilen q,cilen=cilenCompress ∨ cilen=cilenVj →
        c.p=ciCompresstype::UInt8.ofNat cilen::q → c.len<cilen) ∨
    ∃ cilen q,(cilen=cilenCompress ∨ cilen=cilenVj) ∧ c.p=ciCompresstype::UInt8.ofNat cilen::q ∧
      cilen≤c.len ∧ (nakVj go treatAsReject).part (c,s)=
        (nakVjValue go treatAsReject cilen q s >>= fun r => ok (⟨r.1,c.len-cilen⟩,r.2)) := by
  obtain ⟨p,left⟩ := c
  match p with
  | [] => simp at h
  | [_] => simp at h
  | citype::len::q =>
    have hone : peek (citype::len::q) 1=ok len := rfl
    have hzero : peek (citype::len::q) 0=ok citype := rfl
    have hbyte : ∀ cilen,cilen=cilenCompress ∨ cilen=cilenVj →
        (UInt8.ofNat cilen).toNat=cilen := by
      rintro cilen (rfl | rfl)
      · rfl
      · rfl
    unfold nakVj
    dsimp only
    rw [hone,ok_bind,hzero]
    by_cases hlen : len.toNat≠cilenCompress ∧ len.toNat≠cilenVj
    · rw [if_pos hlen]
      refine Or.inl ⟨rfl,fun cilen q' hcilen heq => ?_⟩
      have hsame : len.toNat=cilen := by
        rw [(List.cons_eq_cons.mp (List.cons_eq_cons.mp heq).2).1,hbyte cilen hcilen]
      rw [hsame] at hlen
      exact absurd hcilen (not_or.mpr hlen)
    rw [if_neg hlen]
    rw [not_and_or,not_not,not_not] at hlen
    by_cases hleft : left<len.toNat
    · rw [if_pos hleft]
      refine Or.inl ⟨rfl,fun cilen q' hcilen heq => ?_⟩
      rwa [(List.cons_eq_cons.mp (List.cons_eq_cons.mp heq).2).1,hbyte cilen hcilen] at hleft
    rw [if_neg hleft,ok_bind]
    by_cases htype : citype≠ciCompresstype
    · rw [if_pos htype]
      exact Or.inl ⟨rfl,fun cilen q' _ heq => absurd (List.cons_eq_cons.mp heq).1 htype⟩
    rw [if_neg htype]
    refine Or.inr ⟨len.toNat,q,hlen,?_,not_lt.mp hleft,rfl⟩
    rw [not_not.mp htype,UInt8.ofNat_toNat]

theorem looks_nakVj (go : AddressOptions) (treatAsReject : Bool) :
    Looks (nakVj go treatAsReject) ⟨go.negVj,ciCompresstype,VjOption treatAsReject⟩ where
  asked := rfl
  starts := by
    rintro b (h | ⟨-,h⟩)
    · exact head_optionOf h
    · exact head_optionOf h
  short := by
    intro c s hshort
    unfold nakVj
    dsimp only
    rw [peek_outside (by omega),outside_bind]
  alone := by
    intro c s hlong hhead
    rcases nakVj_cases go treatAsReject hlong s with ⟨hsame,-⟩ | ⟨cilen,q,-,hq,-,-⟩
    · exact hsame
    · rw [hq] at hhead
      exact absurd rfl hhead
  takes := by
    intro b rest s hb
    obtain ⟨cilen,v,hcilen,rfl,hv,hwhole⟩ : ∃ cilen v,(cilen=cilenCompress ∨ cilen=cilenVj) ∧
        b=ciCompresstype::UInt8.ofNat cilen::v ∧ v.length+2=cilen ∧
          ¬(treatAsReject=true ∧ cilen=cilenVj) := by
      rcases hb with ⟨v,hb,hv,-⟩ | ⟨hreject,v,hb,hv,-⟩
      · exact ⟨_,v,Or.inl rfl,hb,hv,fun hand => absurd hand.2 (by decide)⟩
      · exact ⟨_,v,Or.inr rfl,hb,hv,fun hand => by rw [hreject] at hand; cases hand.1⟩
    have hlength : (ciCompresstype::UInt8.ofNat cilen::v++rest).length=cilen+rest.length := by
      rw [List.length_append,List.length_cons,List.length_cons]
      omega
    have hbyte : ∀ n,n=cilenCompress ∨ n=cilenVj → (UInt8.ofNat n).toNat=n := fun n hn => by
      rw [UInt8.toNat_ofNat',Nat.mod_eq_of_lt (vjLengths hn).2]
    have hge := (vjLengths hcilen).1
    rcases nakVj_cases go treatAsReject
      (c := ⟨ciCompresstype::UInt8.ofNat cilen::v++rest,
        (ciCompresstype::UInt8.ofNat cilen::v++rest).length⟩) (by dsimp only; omega) s with
      ⟨-,hless⟩ | ⟨cilen',q,hcilen',hq,-,hfound⟩
    · have hshort := hless cilen (v++rest) hcilen rfl
      dsimp only at hshort
      omega
    · obtain ⟨hlen,rfl⟩ := List.cons_eq_cons.mp (List.cons_eq_cons.mp hq).2
      obtain rfl : cilen=cilen' := by
        rw [← hbyte cilen hcilen,hlen,hbyte cilen' hcilen']
      obtain ⟨s',⟨-,hok⟩ | ⟨hreject,hvj,-⟩⟩ := nakVjValue_cases go treatAsReject hcilen s hv
      · refine ⟨s',?_⟩
        dsimp only at hfound ⊢
        rw [hfound,hlength]
        change (nakVjValue go treatAsReject cilen (v++rest) s >>= _)=_
        rw [hok,ok_bind]
        dsimp only
        rw [Nat.add_sub_cancel_left]
      · exact absurd ⟨hreject,hvj⟩ hwhole
  cases := by
    intro p s hlong
    rcases nakVj_cases go treatAsReject (c := ⟨p,p.length⟩) hlong s with
      ⟨hsame,-⟩ | ⟨cilen,q,hcilen,hq,hle,hfound⟩
    · exact Or.inr (Or.inl hsame)
    obtain ⟨v,rest,rfl,hv,hrest⟩ := exists_value hq (vjLengths hcilen).1 hle
    obtain ⟨s',⟨hwhole,hok⟩ | ⟨hreject,hvj,hpart⟩⟩ := nakVjValue_cases go treatAsReject hcilen s hv
    · rw [hfound,hok,ok_bind]
      refine Or.inr (Or.inr (Or.inl ⟨ciCompresstype::UInt8.ofNat cilen::v,rest,s',?_,hq,?_⟩))
      · rcases hcilen with rfl | rfl
        · exact Or.inl ⟨v,rfl,hv,trivial⟩
        · refine Or.inr ⟨?_,v,rfl,hv,trivial⟩
          exact (Bool.not_eq_true _).mp fun hreject => hwhole ⟨hreject,rfl⟩
      · rw [hrest]
    · rw [hfound,hpart,ok_bind]
      refine Or.inr (Or.inr (Or.inr ⟨_,s',?_,rfl⟩))
      unfold Cursor.Behind
      dsimp only at hle hrest ⊢
      rw [List.length_append,List.length_drop]
      rw [hvj,cilenVj] at hv hrest hle ⊢
      omega
  behind := by
    intro c s hbehind
    unfold Cursor.Behind at hbehind
    rcases nakVj_cases go treatAsReject (c := c) (by omega) s with
      ⟨hsame,-⟩ | ⟨cilen,q,hcilen,hq,hle,hfound⟩
    · rw [hsame]
      exact hbehind
    obtain ⟨v,rest,rfl,hv,hrest⟩ := exists_value hq (vjLengths hcilen).1 (by omega)
    rw [hfound]
    obtain ⟨s',⟨-,hok⟩ | ⟨-,-,hpart⟩⟩ := nakVjValue_cases go treatAsReject hcilen s hv
    · rw [hok,ok_bind]
      unfold Reading.Inside Cursor.Behind
      dsimp only
      omega
    · rw [hpart,ok_bind]
      unfold Reading.Inside Cursor.Behind
      dsimp only
      rw [List.length_append]
      omega

/-- The options of a CONFNAK. -/
def AddressOptions.nakExpected (go : AddressOptions) (treatAsReject : Bool) : List Expected :=
  [⟨go.asksAddrs,ciAddrs,OptionOf ciAddrs cilenAddrs fun _ => True⟩,
    ⟨go.negVj,ciCompresstype,VjOption treatAsReject⟩,
    ⟨go.negAddr,ciAddr,OptionOf ciAddr cilenAddr fun _ => True⟩,
    ⟨go.reqDns1,ciMsDns1,OptionOf ciMsDns1 cilenAddr fun _ => True⟩,
    ⟨go.reqDns2,ciMsDns2,OptionOf ciMsDns2 cilenAddr fun _ => True⟩]

theorem AddressOptions.nodup_nakTypes (go : AddressOptions) (treatAsReject : Bool) :
    ((go.nakExpected treatAsReject).map Expected.type).Nodup := by
  show [ciAddrs,ciCompresstype,ciAddr,ciMsDns1,ciMsDns2].Nodup
  decide

theorem AddressOptions.looks_nakItems (go : AddressOptions) (treatAsReject : Bool) :
    List.Forall₂ Looks (go.nakItems treatAsReject) (go.nakExpected treatAsReject) :=
  .cons (looks_nakAddrs _ _) (.cons (looks_nakVj _ _) (.cons (looks_nakAddr _ _ _)
    (.cons (looks_nakAddr _ _ _) (.cons (looks_nakAddr _ _ _) .nil))))

theorem otherServer_inside (refused : Bool) {cilen : ℕ} (code : UInt32 → IpcpNak)
    {p : List UInt8} (hp : cilen-2≤p.length) :
    (otherServer refused cilen code p).Inside fun _ => True := by
  refine inside_ite (fun _ => trivial) fun hgood => ?_
  have hlong : cilen=cilenAddr := not_not.mp (not_or.mp hgood).2
  rw [cilenAddr] at hlong
  exact (@readLong_inside p (by omega)).bind fun _ _ => trivial

theorem ipcpOther_inside (go : AddressOptions) (citype : UInt8) (cilen : ℕ) (p : List UInt8)
    (s : IpcpNak) (hp : cilen-2≤p.length) :
    (ipcpOther go citype cilen p s).Inside fun _ => True := by
  unfold ipcpOther
  refine inside_ite (fun _ => refuse_inside) fun _ => ?_
  refine inside_ite (fun _ => ?_) fun _ => ?_
  · refine inside_ite (fun _ => trivial) fun hgood => ?_
    have hlong : cilen=cilenAddrs := not_not.mp (not_or.mp (not_or.mp hgood).2).2
    rw [cilenAddrs] at hlong
    refine (@readLong_inside p (by omega)).bind fun r hr => ?_
    exact (@readLong_inside r.2 (by omega)).bind fun _ _ => trivial
  refine inside_ite (fun _ => ?_) fun _ => ?_
  · refine inside_ite (fun _ => trivial) fun hgood => ?_
    have hlong : cilen=cilenAddr := not_not.mp (not_or.mp (not_or.mp hgood).2).2
    rw [cilenAddr] at hlong
    exact (@readLong_inside p (by omega)).bind fun _ _ => trivial
  refine inside_ite (fun _ => otherServer_inside _ _ hp) fun _ => ?_
  refine inside_ite (fun _ => otherServer_inside _ _ hp) fun _ => ?_
  refine inside_ite (fun _ => otherServer_inside _ _ hp) fun _ => ?_
  exact inside_ite (fun _ => otherServer_inside _ _ hp) fun _ => trivial

/-- `ipcp_nakci` leaves the body exactly where the body runs out. -/
theorem IpcpReply.readNak_outside_iff (reply : IpcpReply) (p : List UInt8) :
    reply.readNak p=outside ↔ RunsOut (reply.go.nakExpected reply.treatAsReject) p := by
  have hlooks := reply.go.looks_nakItems reply.treatAsReject
  have hiff := runItems_outside_iff hlooks (reply.go.nodup_nakTypes _) p
    (⟨.zero,reply.go⟩ : IpcpNak)
  rw [← hiff]
  unfold readNak
  cases hrun : runItems (reply.go.nakItems reply.treatAsReject)
      (⟨p,p.length⟩,⟨.zero,reply.go⟩) with
  | outside => exact iff_of_true rfl rfl
  | bad => exact iff_of_false (fun heq => by cases heq) (fun heq => by cases heq)
  | ok r =>
    refine iff_of_false ?_ (fun heq => by cases heq)
    have hsettled := runItems_settled hlooks (Or.inl rfl) hrun
    exact (trailing_inside (P := fun _ => True)
      (fun citype cilen p s _ hp _ => ipcpOther_inside _ citype cilen p s hp)
      r.1.len r.1 r.2 (Nat.le_refl _) hsettled.bounded trivial).ne_outside

/-! ## The handlers -/

/-- The handler stays inside the body, and leaves the options as they are if it returns 0 or the
state is `OPENED`. -/
def Sound {σ : Type} (go : σ) (opened : Bool) (result : Option (Handled σ)) : Prop :=
  ∃ h,result=some h ∧ (h.ret=false ∨ opened=true → h.go=go)

/-- What the handlers are for. -/
def HandlersSound (lcp : LcpReply) (ipcp : IpcpReply) (p : List UInt8) : Prop :=
  Sound lcp.go lcp.opened (lcpAckci lcp.go p) ∧
    Sound lcp.go lcp.opened ((lcp.nakci p).map Prod.fst) ∧
    Sound lcp.go lcp.opened (lcpRejci lcp.go lcp.opened p) ∧
    (lcpEchoRequest lcp.go lcp.opened p).isSome=true ∧
    Sound ipcp.go ipcp.opened (ipcpAckci ipcp.go p) ∧
    Sound ipcp.go ipcp.opened (ipcp.nakci p) ∧
    Sound ipcp.go ipcp.opened (ipcpRejci ipcp.go ipcp.opened p)

theorem sound_finishAck {σ : Type} {go : σ} {opened : Bool} {x : Reading (Cursor×Unit)} :
    Sound go opened (finishAck go x) ↔ x≠outside := by
  cases x with
  | outside => exact iff_of_false (fun ⟨h,heq,_⟩ => by cases heq) fun hne => hne rfl
  | bad => exact iff_of_true ⟨_,rfl,fun _ => rfl⟩ fun heq => by cases heq
  | ok r => exact iff_of_true ⟨_,rfl,fun _ => rfl⟩ fun heq => by cases heq

theorem sound_finishRej {σ : Type} {go : σ} {opened : Bool} {x : Reading (Cursor×σ)} :
    Sound go opened (finishRej go opened x) ↔ x≠outside := by
  cases x with
  | outside => exact iff_of_false (fun ⟨h,heq,_⟩ => by cases heq) fun hne => hne rfl
  | bad => exact iff_of_true ⟨_,rfl,fun _ => rfl⟩ fun heq => by cases heq
  | ok r =>
    refine iff_of_true ?_ fun heq => by cases heq
    unfold finishRej
    dsimp only
    split_ifs with hleft hopened
    · exact ⟨_,rfl,fun _ => rfl⟩
    · exact ⟨_,rfl,fun _ => rfl⟩
    · refine ⟨_,rfl,fun hor => ?_⟩
      rcases hor with hret | hopened'
      · cases hret
      · exact absurd hopened' hopened

theorem LcpReply.sound_nakci (reply : LcpReply) (p : List UInt8) :
    Sound reply.go reply.opened ((reply.nakci p).map Prod.fst) := by
  have hinside := reply.readNak_inside p
  unfold nakci
  cases hread : reply.readNak p with
  | outside =>
    rw [hread] at hinside
    exact hinside.elim
  | bad => exact ⟨_,rfl,fun _ => rfl⟩
  | ok s =>
    dsimp only
    by_cases hopened : reply.opened=true
    · rw [if_pos hopened]
      exact ⟨_,rfl,fun _ => rfl⟩
    · rw [if_neg hopened]
      have hother : ∀ go : FullLcpOptions,(Handled.mk true go).ret=false ∨ reply.opened=true →
          (Handled.mk true go).go=reply.go := by
        rintro go (hret | hopened')
        · cases hret
        · exact absurd hopened' hopened
      split_ifs
      · exact ⟨_,rfl,hother _⟩
      · exact ⟨_,rfl,hother _⟩

theorem IpcpReply.sound_nakci_iff (reply : IpcpReply) (p : List UInt8) :
    Sound reply.go reply.opened (reply.nakci p) ↔ reply.readNak p≠outside := by
  unfold nakci
  cases reply.readNak p with
  | outside => exact iff_of_false (fun ⟨h,heq,_⟩ => by cases heq) fun hne => hne rfl
  | bad => exact iff_of_true ⟨_,rfl,fun _ => rfl⟩ fun heq => by cases heq
  | ok s =>
    refine iff_of_true ⟨_,rfl,fun hor => ?_⟩ fun heq => by cases heq
    rcases hor with hret | hopened
    · cases hret
    · exact if_pos hopened

theorem IpcpOptions.ackItems_inside (go : IpcpOptions) : ∀ item∈go.ackItems,StaysInside item := by
  have haddr : ∀ val,∀ c∈[Check.mk 4 (checkAddr val)],c.Takes :=
    fun val => takes_one (takes_checkAddr val)
  simp only [ackItems,List.forall_mem_cons]
  exact ⟨ackItem_inside (takes_two (takes_checkAddr _) (takes_checkAddr _)) rfl,
    ackItem_inside go.takes_vjChecks go.vjlen_eq_width,ackItem_inside (haddr _) rfl,
    ackItem_inside (haddr _) rfl,ackItem_inside (haddr _) rfl,ackItem_inside (haddr _) rfl,
    ackItem_inside (haddr _) rfl,fun _ hin => absurd hin List.not_mem_nil⟩

/-- The handlers stay inside the body and keep the options exactly if an echo request in `OPENED`
has four bytes, and the body does not run out in the handlers of IPCP. -/
theorem handlers_sound_iff (lcp : LcpReply) (ipcp : IpcpReply) (p : List UInt8) :
    HandlersSound lcp ipcp p ↔
      (lcp.opened=true → 4≤p.length) ∧ ¬RunsOut (ipcp.go.nakExpected ipcp.treatAsReject) p ∧
        ¬RunsOut ipcp.go.rejExpected p := by
  have hbounded : (Cursor.mk p p.length).Bounded := Nat.le_refl _
  have hlcpAck := (runItems_inside (s := ()) lcp.go.ackItems_inside hbounded).ne_outside
  have hlcpRej := (runItems_inside (s := lcp.go) lcp.go.rejItems_inside hbounded).ne_outside
  have hipcpAck := (runItems_inside (s := ()) ipcp.go.ackItems_inside hbounded).ne_outside
  have hipcpRej := runItems_outside_iff ipcp.go.looks_rejItems ipcp.go.nodup_rejTypes p ipcp.go
  have hecho : (lcpEchoRequest lcp.go lcp.opened p).isSome=true ↔
      (lcp.opened=true → 4≤p.length) := by
    unfold lcpEchoRequest
    cases lcp.opened with
    | false => exact iff_of_true rfl Bool.noConfusion
    | true =>
      rw [if_neg Bool.noConfusion]
      by_cases hshort : p.length<4
      · rw [if_pos hshort]
        exact iff_of_false Bool.noConfusion fun h => absurd (h rfl) (not_le.mpr hshort)
      · rw [if_neg hshort]
        exact iff_of_true rfl fun _ => not_lt.mp hshort
  unfold HandlersSound lcpAckci lcpRejci ipcpAckci ipcpRejci
  rw [sound_finishAck,sound_finishRej,sound_finishAck,sound_finishRej,ipcp.sound_nakci_iff,hecho,
    ne_eq (ipcp.readNak p),ipcp.readNak_outside_iff,ne_eq,ne_eq,ne_eq,ne_eq,hipcpRej]
  constructor
  · rintro ⟨-,-,-,hopened,-,hnak,hrej⟩
    exact ⟨hopened,hnak,hrej⟩
  · rintro ⟨hopened,hnak,hrej⟩
    exact ⟨hlcpAck,lcp.sound_nakci p,hlcpRej,hopened,hipcpAck,hnak,hrej⟩

/-- Nothing is asked for by LCP. -/
def LcpReply.quiet (opened : Bool) : LcpReply where
  go := { LcpOptions.zero with numloops := 0 }
  wo := LcpOptions.zero
  opened := opened
  treatAsReject := false
  magic := 1
  loopbackfail := 10

/-- IPCP asks for an address and a name server. -/
def IpcpReply.asksAddrDns : IpcpReply where
  go := { IpcpOptions.zero with
    negAddr := true, reqDns1 := true, reqAddr := false, acceptLocal := false, acceptRemote := false }
  opened := false
  treatAsReject := false

/-- The magic number is written behind an empty echo request, and after the rejection of the address
alone the name server is looked for behind the body. -/
theorem not_handlers_sound :
    ¬HandlersSound (LcpReply.quiet true) IpcpReply.asksAddrDns [] ∧
      ¬HandlersSound (LcpReply.quiet false) IpcpReply.asksAddrDns [3,6,0,0,0,0] := by
  constructor
  · rintro ⟨-,-,-,hecho,-⟩
    cases hecho
  · rintro ⟨-,-,-,-,-,-,h,heq,-⟩
    cases heq

end AndroidPlatform.PppOptions
