import AndroidPlatform.ByteCheckers
import Mathlib.Algebra.Group.Nat.Defs
import Mathlib.Data.Int.Notation
import Mathlib.Data.Vector.Defs
import Mathlib.Order.Basic

/-!
# The options of LCP

The options that `lcp.c` asks for: their length, the bytes that are written, and
the check of an acknowledgement. Each option is listed in all three.
-/

namespace AndroidPlatform.PppOptions

open ByteCheckers

/-! ## Bytes -/

/-- `PUTSHORT`; the value is an `int`. -/
def putShort (s : ℤ) : List UInt8 := [UInt8.ofInt (s/256),UInt8.ofInt s]

/-- `GETSHORT` -/
def getShort (high low : UInt8) : ℕ := 256*high.toNat+low.toNat

/-- `PUTLONG` -/
def putLong (l : UInt32) : List UInt8 :=
  [UInt8.ofNat (l.toNat/2^24),UInt8.ofNat (l.toNat/2^16),UInt8.ofNat (l.toNat/2^8),
    UInt8.ofNat l.toNat]

/-- `GETLONG` -/
def getLong (a b c d : UInt8) : UInt32 :=
  UInt32.ofNat (2^24*a.toNat+2^16*b.toNat+2^8*c.toNat+d.toNat)

/-- The check of `GETCHAR`. -/
def checkChar (val : UInt8) : List UInt8 → Option (List UInt8)
  | cichar::p => if cichar≠val then none else some p
  | [] => none

/-- The check of `GETSHORT`; the value is an `int`. -/
def checkShort (val : ℤ) : List UInt8 → Option (List UInt8)
  | high::low::p => if (getShort high low : ℤ)≠val then none else some p
  | _ => none

/-- The check of `GETLONG`. -/
def checkLong (val : UInt32) : List UInt8 → Option (List UInt8)
  | a::b::c::d::p => if getLong a b c d≠val then none else some p
  | _ => none

theorem accepts_checkChar (val : UInt8) : Accepts (checkChar val) [val] := by
  intro p rest
  cases p with
  | nil => exact iff_of_false (Option.some_ne_none rest ∘ Eq.symm) (List.cons_ne_nil _ _ ∘ Eq.symm)
  | cons c p =>
    rw [checkChar,List.cons_append,List.nil_append,List.cons_eq_cons]
    by_cases hc : c=val
    · rw [if_neg (not_not.mpr hc),Option.some.injEq]
      exact (and_iff_right hc).symm
    · rw [if_pos hc]
      exact iff_of_false (Option.some_ne_none rest ∘ Eq.symm) (fun h => hc h.1)

/-- The bytes of a value that fits determine it and are determined by it. -/
theorem getShort_eq_iff {val : ℤ} (hge : 0≤val) (hlt : val<65536) (high low : UInt8) :
    (getShort high low : ℤ)=val ↔ [high,low]=putShort val := by
  have hhigh := high.toNat_lt
  have hlow := low.toNat_lt
  simp only [getShort,putShort,List.cons_eq_cons,and_true,← UInt8.toNat_inj,UInt8.ofInt,
    UInt8.toNat_ofNat']
  omega

theorem getLong_eq_iff (val : UInt32) (a b c d : UInt8) :
    getLong a b c d=val ↔ [a,b,c,d]=putLong val := by
  have ha := a.toNat_lt
  have hb := b.toNat_lt
  have hc := c.toNat_lt
  have hd := d.toNat_lt
  have hval := val.toNat_lt
  simp only [getLong,putLong,List.cons_eq_cons,and_true,← UInt8.toNat_inj,← UInt32.toNat_inj,
    UInt8.toNat_ofNat',UInt32.toNat_ofNat']
  omega

theorem accepts_checkShort {val : ℤ} (hge : 0≤val) (hlt : val<65536) :
    Accepts (checkShort val) (putShort val) := by
  refine accepts_of_iff (fun p hp => ?_) (fun q rest hq => ?_)
  · match p with
    | [] => rfl
    | [_] => rfl
    | _::_::p =>
      simp only [putShort,List.length_cons,List.length_nil] at hp
      omega
  · obtain ⟨high,low,rfl⟩ := List.length_eq_two.mp hq
    rw [List.cons_append,List.cons_append,List.nil_append,checkShort]
    simp only [← getShort_eq_iff hge hlt,ite_not]

/-- A value that does not fit is never read. -/
theorem refuses_checkShort {val : ℤ} (h : ¬(0≤val ∧ val<65536)) : Refuses (checkShort val) := by
  intro p
  match p with
  | [] => rfl
  | [_] => rfl
  | high::low::p =>
    have hhigh := high.toNat_lt
    have hlow := low.toNat_lt
    rw [checkShort,if_pos]
    rw [getShort]
    omega

theorem accepts_checkLong (val : UInt32) : Accepts (checkLong val) (putLong val) := by
  refine accepts_of_iff (fun p hp => ?_) (fun q rest hq => ?_)
  · rcases p with _ | ⟨_,_ | ⟨_,_ | ⟨_,_ | ⟨_,p⟩⟩⟩⟩
    · rfl
    · rfl
    · rfl
    · rfl
    · simp only [putLong,List.length_cons,List.length_nil] at hp
      omega
  · obtain ⟨a,b,c,d,rfl⟩ := List.length_eq_four.mp hq
    rw [List.cons_append,List.cons_append,List.cons_append,List.cons_append,List.nil_append,
      checkLong]
    simp only [← getLong_eq_iff,ite_not]

/-! ## One option -/

/-- `LENCIVOID` and its siblings. -/
def lenCi (cilen : ℕ) (neg : Bool) : ℕ := if neg then cilen else 0

/-- `ADDCIVOID` and its siblings: the type, the length and the value of an option. -/
def addCi (opt : UInt8) (cilen : ℕ) (neg : Bool) (value : List UInt8) : List UInt8 :=
  if neg then opt::UInt8.ofNat cilen::value else []

/-- `ACKCIVOID` and its siblings: the checks of the length and the type of an option,
and those of its value. -/
def ackCi (opt : UInt8) (cilen : ℕ) (neg : Bool) (value : List UInt8 → Option (List UInt8))
    (p : List UInt8) : Option (List UInt8) :=
  if neg then
    if p.length<cilen then none
    else
      match p with
      | citype::len::p => if len.toNat≠cilen ∨ citype≠opt then none else value p
      | _ => none
  else some p

/-- A list of checks stands for a list of blocks of bytes. -/
theorem accepts_ackCi {opt : UInt8} {cilen : ℕ} {neg : Bool} {value : List UInt8}
    {check : List UInt8 → Option (List UInt8)} (hlength : cilen=value.length+2)
    (hcilen : cilen<256) (h : neg=true → Accepts check value) :
    Accepts (ackCi opt cilen neg check) (addCi opt cilen neg value) := by
  cases neg with
  | false => exact accepts_some
  | true =>
    intro p rest
    have hbyte : (UInt8.ofNat cilen).toNat=cilen := by
      rw [UInt8.toNat_ofNat',Nat.mod_eq_of_lt hcilen]
    unfold ackCi
    rw [if_pos rfl,addCi,if_pos rfl]
    constructor
    · intro hack
      split_ifs at hack with hshort
      split at hack
      · rename_i citype len p
        split_ifs at hack with hbad
        obtain ⟨hlen,htype⟩ := not_or.mp hbad
        rw [not_not] at hlen htype
        rw [(h rfl p rest).mp hack,htype,← hlen,UInt8.ofNat_toNat]
        rfl
      · cases hack
    · rintro rfl
      rw [if_neg]
      · dsimp only [List.cons_append]
        rw [if_neg (not_or.mpr ⟨not_not.mpr hbyte,not_not.mpr rfl⟩)]
        exact (h rfl _ rest).mpr rfl
      · rw [List.length_append,List.length_cons,List.length_cons]
        omega

theorem refuses_ackCi {opt : UInt8} {cilen : ℕ} {check : List UInt8 → Option (List UInt8)}
    (h : Refuses check) : Refuses (ackCi opt cilen true check) := by
  intro p
  unfold ackCi
  rw [if_pos rfl]
  split_ifs with hshort
  · rfl
  · split
    · split_ifs
      · rfl
      · exact h _
    · rfl

theorem length_addCi {opt : UInt8} {cilen : ℕ} {neg : Bool} {value : List UInt8}
    (hlength : cilen=value.length+2) : (addCi opt cilen neg value).length=lenCi cilen neg := by
  cases neg with
  | false => rfl
  | true => exact hlength.symm

/-! ## The options -/

/-- `MAX_ENDP_LEN` -/
def maxEndpLen : ℕ := 20

/-- `struct epdisc` -/
structure Epdisc where
  /-- `class` -/
  epdClass : UInt8
  /-- `value` -/
  value : List.Vector UInt8 maxEndpLen
  /-- `length` -/
  length : ℕ
  /-- The length is one of the array at most. -/
  length_le : length ≤ maxEndpLen

/-- The bytes of the value that are used. -/
def Epdisc.bytes (endpoint : Epdisc) : List UInt8 := endpoint.value.toList.take endpoint.length

/-- `lcp_options`, as far as requests depend on it. -/
structure LcpOptions where
  /-- `neg_mru` -/
  negMru : Bool
  /-- `neg_asyncmap` -/
  negAsyncmap : Bool
  /-- `neg_upap` -/
  negUpap : Bool
  /-- `neg_chap` -/
  negChap : Bool
  /-- `neg_eap` -/
  negEap : Bool
  /-- `neg_magicnumber` -/
  negMagicnumber : Bool
  /-- `neg_pcompression` -/
  negPcompression : Bool
  /-- `neg_accompression` -/
  negAccompression : Bool
  /-- `neg_lqr` -/
  negLqr : Bool
  /-- `neg_cbcp` -/
  negCbcp : Bool
  /-- `neg_mrru` -/
  negMrru : Bool
  /-- `neg_ssnhf` -/
  negSsnhf : Bool
  /-- `neg_endpoint` -/
  negEndpoint : Bool
  /-- `mru` -/
  mru : ℤ
  /-- `mrru` -/
  mrru : ℤ
  /-- `chap_mdtype` -/
  chapMdtype : UInt8
  /-- `asyncmap` -/
  asyncmap : UInt32
  /-- `magicnumber` -/
  magicnumber : UInt32
  /-- `lqr_period` -/
  lqrPeriod : UInt32
  /-- `endpoint` -/
  endpoint : Epdisc

/-- `CILEN_VOID` -/
def cilenVoid : ℕ := 2

/-- `CILEN_CHAR` -/
def cilenChar : ℕ := 3

/-- `CILEN_SHORT` -/
def cilenShort : ℕ := 4

/-- `CILEN_CHAP` -/
def cilenChap : ℕ := 5

/-- `CILEN_LONG` -/
def cilenLong : ℕ := 6

/-- `CILEN_LQR` -/
def cilenLqr : ℕ := 8

/-- `CILEN_CBCP` -/
def cilenCbcp : ℕ := 3

/-- `CI_MRU` -/
def ciMru : UInt8 := 1

/-- `CI_ASYNCMAP` -/
def ciAsyncmap : UInt8 := 2

/-- `CI_AUTHTYPE` -/
def ciAuthtype : UInt8 := 3

/-- `CI_QUALITY` -/
def ciQuality : UInt8 := 4

/-- `CI_MAGICNUMBER` -/
def ciMagicnumber : UInt8 := 5

/-- `CI_PCOMPRESSION` -/
def ciPcompression : UInt8 := 7

/-- `CI_ACCOMPRESSION` -/
def ciAccompression : UInt8 := 8

/-- `CI_CALLBACK` -/
def ciCallback : UInt8 := 13

/-- `CI_MRRU` -/
def ciMrru : UInt8 := 17

/-- `CI_SSNHF` -/
def ciSsnhf : UInt8 := 18

/-- `CI_EPDISC` -/
def ciEpdisc : UInt8 := 19

/-- `DEFMRU` -/
def defmru : ℤ := 1500

/-- `CBCP_OPT` -/
def cbcpOpt : UInt8 := 6

/-- `PPP_PAP` -/
def pppPap : ℤ := 0xc023

/-- `PPP_LQR` -/
def pppLqr : ℤ := 0xc025

/-- `PPP_CHAP` -/
def pppChap : ℤ := 0xc223

/-- `PPP_EAP` -/
def pppEap : ℤ := 0xc227

/-- `CHAP_DIGEST` -/
def chapDigest (mdtype : UInt8) : UInt8 :=
  if mdtype &&& 4≠0 then 5 else if mdtype &&& 1≠0 then 0x81 else if mdtype &&& 2≠0 then 0x80 else 0

/-- `ADDCIVOID` -/
def addCiVoid (opt : UInt8) (neg : Bool) : List UInt8 := addCi opt cilenVoid neg []

/-- `ADDCISHORT` -/
def addCiShort (opt : UInt8) (neg : Bool) (val : ℤ) : List UInt8 :=
  addCi opt cilenShort neg (putShort val)

/-- `ADDCICHAP` -/
def addCiChap (opt : UInt8) (neg : Bool) (val : UInt8) : List UInt8 :=
  addCi opt cilenChap neg (putShort pppChap++[chapDigest val])

/-- `ADDCILONG` -/
def addCiLong (opt : UInt8) (neg : Bool) (val : UInt32) : List UInt8 :=
  addCi opt cilenLong neg (putLong val)

/-- `ADDCILQR` -/
def addCiLqr (opt : UInt8) (neg : Bool) (val : UInt32) : List UInt8 :=
  addCi opt cilenLqr neg (putShort pppLqr++putLong val)

/-- `ADDCICHAR` -/
def addCiChar (opt : UInt8) (neg : Bool) (val : UInt8) : List UInt8 :=
  addCi opt cilenChar neg [val]

/-- `ADDCIENDP` -/
def addCiEndp (opt : UInt8) (neg : Bool) (endpoint : Epdisc) : List UInt8 :=
  addCi opt (cilenChar+endpoint.length) neg (endpoint.epdClass::endpoint.bytes)

/-- `ACKCIVOID` -/
def ackCiVoid (opt : UInt8) (neg : Bool) : List UInt8 → Option (List UInt8) :=
  ackCi opt cilenVoid neg some

/-- `ACKCISHORT` -/
def ackCiShort (opt : UInt8) (neg : Bool) (val : ℤ) : List UInt8 → Option (List UInt8) :=
  ackCi opt cilenShort neg (checkShort val)

/-- `ACKCICHAP` -/
def ackCiChap (opt : UInt8) (neg : Bool) (val : UInt8) : List UInt8 → Option (List UInt8) :=
  ackCi opt cilenChap neg (checkAll [checkShort pppChap,checkChar (chapDigest val)])

/-- `ACKCILONG` -/
def ackCiLong (opt : UInt8) (neg : Bool) (val : UInt32) : List UInt8 → Option (List UInt8) :=
  ackCi opt cilenLong neg (checkLong val)

/-- `ACKCILQR` -/
def ackCiLqr (opt : UInt8) (neg : Bool) (val : UInt32) : List UInt8 → Option (List UInt8) :=
  ackCi opt cilenLqr neg (checkAll [checkShort pppLqr,checkLong val])

/-- `ACKCICHAR` -/
def ackCiChar (opt : UInt8) (neg : Bool) (val : UInt8) : List UInt8 → Option (List UInt8) :=
  ackCi opt cilenChar neg (checkChar val)

/-- `ACKCIENDP` -/
def ackCiEndp (opt : UInt8) (neg : Bool) (endpoint : Epdisc) :
    List UInt8 → Option (List UInt8) :=
  ackCi opt (cilenChar+endpoint.length) neg
    (checkAll [checkChar endpoint.epdClass,checkBytes endpoint.bytes])

namespace LcpOptions

variable (go : LcpOptions)

/-- Whether the MRU is asked for. -/
def asksMru : Bool := go.negMru && decide (go.mru≠defmru)

/-- Whether the map of control characters is asked for. -/
def asksAsyncmap : Bool := go.negAsyncmap && decide (go.asyncmap≠0xFFFFFFFF)

/-- `lcp_cilen` -/
def cilen : ℕ :=
  lenCi cilenShort go.asksMru+
  lenCi cilenLong go.asksAsyncmap+
  lenCi cilenShort go.negEap+
  lenCi cilenChap (!go.negEap && go.negChap)+
  lenCi cilenShort (!go.negEap && !go.negChap && go.negUpap)+
  lenCi cilenLqr go.negLqr+
  lenCi cilenCbcp go.negCbcp+
  lenCi cilenLong go.negMagicnumber+
  lenCi cilenVoid go.negPcompression+
  lenCi cilenVoid go.negAccompression+
  lenCi cilenShort go.negMrru+
  lenCi cilenVoid go.negSsnhf+
  lenCi (cilenChar+go.endpoint.length) go.negEndpoint

/-- The options that `lcp_addci` writes, one after the other. -/
def requests : List (List UInt8) :=
  [addCiShort ciMru go.asksMru go.mru,
    addCiLong ciAsyncmap go.asksAsyncmap go.asyncmap,
    addCiShort ciAuthtype go.negEap pppEap,
    addCiChap ciAuthtype (!go.negEap && go.negChap) go.chapMdtype,
    addCiShort ciAuthtype (!go.negEap && !go.negChap && go.negUpap) pppPap,
    addCiLqr ciQuality go.negLqr go.lqrPeriod,
    addCiChar ciCallback go.negCbcp cbcpOpt,
    addCiLong ciMagicnumber go.negMagicnumber go.magicnumber,
    addCiVoid ciPcompression go.negPcompression,
    addCiVoid ciAccompression go.negAccompression,
    addCiShort ciMrru go.negMrru go.mrru,
    addCiVoid ciSsnhf go.negSsnhf,
    addCiEndp ciEpdisc go.negEndpoint go.endpoint]

/-- `lcp_addci` -/
def addci : List UInt8 := go.requests.flatten

/-- The checks of `lcp_ackci`, one after the other. -/
def checks : List (List UInt8 → Option (List UInt8)) :=
  [ackCiShort ciMru go.asksMru go.mru,
    ackCiLong ciAsyncmap go.asksAsyncmap go.asyncmap,
    ackCiShort ciAuthtype go.negEap pppEap,
    ackCiChap ciAuthtype (!go.negEap && go.negChap) go.chapMdtype,
    ackCiShort ciAuthtype (!go.negEap && !go.negChap && go.negUpap) pppPap,
    ackCiLqr ciQuality go.negLqr go.lqrPeriod,
    ackCiChar ciCallback go.negCbcp cbcpOpt,
    ackCiLong ciMagicnumber go.negMagicnumber go.magicnumber,
    ackCiVoid ciPcompression go.negPcompression,
    ackCiVoid ciAccompression go.negAccompression,
    ackCiShort ciMrru go.negMrru go.mrru,
    ackCiVoid ciSsnhf go.negSsnhf,
    ackCiEndp ciEpdisc go.negEndpoint go.endpoint]

/-- `lcp_ackci`: nothing may be left. -/
def ackci (p : List UInt8) : Bool := decide (checkAll go.checks p=some [])

/-- What the three functions are for: as many bytes are written as announced, and
exactly they are accepted. -/
def Agrees : Prop := go.addci.length=go.cilen ∧ ∀ p, go.ackci p=true ↔ p=go.addci

/-- The numbers that are asked for fit in sixteen bits. -/
def Fits : Prop :=
  (go.asksMru=true → 0≤go.mru ∧ go.mru<65536) ∧ (go.negMrru=true → 0≤go.mrru ∧ go.mrru<65536)

end LcpOptions

theorem length_bytes (endpoint : Epdisc) : endpoint.bytes.length=endpoint.length := by
  rw [Epdisc.bytes,List.length_take,List.Vector.toList_length,
    Nat.min_eq_left endpoint.length_le]

theorem cilen_endpoint (endpoint : Epdisc) :
    cilenChar+endpoint.length=(endpoint.epdClass::endpoint.bytes).length+2 := by
  rw [List.length_cons,length_bytes,cilenChar]
  omega

namespace LcpOptions

variable (go : LcpOptions)

theorem length_addci : go.addci.length=go.cilen := by
  have hendpoint := cilen_endpoint go.endpoint
  have hshort : ∀ opt neg val, (addCiShort opt neg val).length=lenCi cilenShort neg :=
    fun _ _ _ => length_addCi rfl
  have hlong : ∀ opt neg val, (addCiLong opt neg val).length=lenCi cilenLong neg :=
    fun _ _ _ => length_addCi rfl
  have hvoid : ∀ opt neg, (addCiVoid opt neg).length=lenCi cilenVoid neg :=
    fun _ _ => length_addCi rfl
  have hchap : ∀ opt neg val, (addCiChap opt neg val).length=lenCi cilenChap neg :=
    fun _ _ _ => length_addCi rfl
  have hlqr : ∀ opt neg val, (addCiLqr opt neg val).length=lenCi cilenLqr neg :=
    fun _ _ _ => length_addCi rfl
  have hcbcp : ∀ opt neg val, (addCiChar opt neg val).length=lenCi cilenCbcp neg :=
    fun _ _ _ => length_addCi rfl
  have hendp : ∀ opt neg, (addCiEndp opt neg go.endpoint).length=
      lenCi (cilenChar+go.endpoint.length) neg := fun _ _ => length_addCi hendpoint
  rw [addci,List.length_flatten]
  simp only [requests,List.map_cons,List.map_nil,List.sum_cons,List.sum_nil,hshort,hlong,hvoid,
    hchap,hlqr,hcbcp,hendp,cilen]
  omega

/-- The checks accept what is written if the numbers fit. -/
theorem accepts_checks (h : go.Fits) : Accepts (checkAll go.checks) go.addci := by
  have hendpoint := cilen_endpoint go.endpoint
  have hle : cilenChar+go.endpoint.length<256 := by
    have hlength := go.endpoint.length_le
    rw [maxEndpLen] at hlength
    rw [cilenChar]
    omega
  have hshort : ∀ val : ℤ, 0≤val ∧ val<65536 → Accepts (checkShort val) (putShort val) :=
    fun val hval => accepts_checkShort hval.1 hval.2
  refine accepts_checkAll (.cons ?_ (.cons ?_ (.cons ?_ (.cons ?_ (.cons ?_ (.cons ?_ (.cons ?_
    (.cons ?_ (.cons ?_ (.cons ?_ (.cons ?_ (.cons ?_ (.cons ?_ .nil)))))))))))))
  · exact accepts_ackCi rfl (by decide) (fun hasks => hshort _ (h.1 hasks))
  · exact accepts_ackCi rfl (by decide) (fun _ => accepts_checkLong go.asyncmap)
  · exact accepts_ackCi rfl (by decide) (fun _ => hshort _ (by decide))
  · exact accepts_ackCi rfl (by decide)
      (fun _ => accepts_pair (hshort _ (by decide)) (accepts_checkChar _))
  · exact accepts_ackCi rfl (by decide) (fun _ => hshort _ (by decide))
  · exact accepts_ackCi rfl (by decide)
      (fun _ => accepts_pair (hshort _ (by decide)) (accepts_checkLong _))
  · exact accepts_ackCi rfl (by decide) (fun _ => accepts_checkChar cbcpOpt)
  · exact accepts_ackCi rfl (by decide) (fun _ => accepts_checkLong go.magicnumber)
  · exact accepts_ackCi rfl (by decide) (fun _ => accepts_some)
  · exact accepts_ackCi rfl (by decide) (fun _ => accepts_some)
  · exact accepts_ackCi rfl (by decide) (fun hasks => hshort _ (h.2 hasks))
  · exact accepts_ackCi rfl (by decide) (fun _ => accepts_some)
  · exact accepts_ackCi hendpoint hle
      (fun _ => accepts_pair (accepts_checkChar _) (accepts_checkBytes _))

/-- A number that does not fit makes every acknowledgement bad. -/
theorem refuses_checks (h : ¬go.Fits) : Refuses (checkAll go.checks) := by
  rcases not_and_or.mp h with h | h
  · obtain ⟨hasks,hmru⟩ := Classical.not_imp.mp h
    have hrefuses : Refuses (ackCiShort ciMru go.asksMru go.mru) := by
      rw [hasks]
      exact refuses_ackCi (refuses_checkShort hmru)
    exact refuses_checkAll (by rw [checks]; exact List.mem_cons_self) hrefuses
  · obtain ⟨hasks,hmrru⟩ := Classical.not_imp.mp h
    have hrefuses : Refuses (ackCiShort ciMrru go.negMrru go.mrru) := by
      rw [hasks]
      exact refuses_ackCi (refuses_checkShort hmrru)
    refine refuses_checkAll ?_ hrefuses
    rw [checks]
    simp only [List.mem_cons,true_or,or_true]

/-- `lcp_ackci` accepts what `lcp_addci` has written exactly if the numbers fit. -/
theorem agrees_iff : go.Agrees ↔ go.Fits := by
  constructor
  · intro hagrees
    by_contra hfits
    have hown : go.ackci go.addci=true := (hagrees.2 go.addci).mpr rfl
    rw [ackci,decide_eq_true_iff,go.refuses_checks hfits go.addci] at hown
    cases hown
  · intro hfits
    refine ⟨go.length_addci,fun p => ?_⟩
    rw [ackci,decide_eq_true_iff]
    exact (go.accepts_checks hfits).eq_nil_iff p

end LcpOptions

end AndroidPlatform.PppOptions
