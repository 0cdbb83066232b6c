import AndroidPlatform.Bitops
import AndroidPlatform.PppFsm
import AndroidPlatform.PppRejects

/-!
# The requests of the peer

`lcp_reqci` goes through the options of a request. Counter-proposals are collected in a buffer
of their own, and options that are refused are moved to the start of the request, over the
options before them.
-/

namespace AndroidPlatform.PppOptions

open Bitops PppFsm TypedBlocks

/-! ## Reading -/

/-- `GETCHAR` -/
def getCharAt : List UInt8 → Option UInt8
  | c::_ => some c
  | [] => none

/-- `GETSHORT` -/
def getShortAt : List UInt8 → Option ℕ
  | high::low::_ => some (getShort high low)
  | _ => none

/-- `GETLONG` -/
def getLongAt : List UInt8 → Option UInt32
  | a::b::c::d::_ => some (getLong a b c d)
  | _ => none

theorem getCharAt_append {p : List UInt8} (h : 1≤p.length) (rest : List UInt8) :
    ∃ c,getCharAt p=some c ∧ getCharAt (p++rest)=some c := by
  match p with
  | [] => simp at h
  | c::p => exact ⟨c,rfl,rfl⟩

theorem getShortAt_append {p : List UInt8} (h : 2≤p.length) (rest : List UInt8) :
    ∃ s,getShortAt p=some s ∧ getShortAt (p++rest)=some s := by
  match p with
  | [] => simp at h
  | [_] => simp at h
  | high::low::p => exact ⟨getShort high low,rfl,rfl⟩

theorem getLongAt_append {p : List UInt8} (h : 4≤p.length) (rest : List UInt8) :
    ∃ l,getLongAt p=some l ∧ getLongAt (p++rest)=some l := by
  match p with
  | [] => simp at h
  | [_] => simp at h
  | [_,_] => simp at h
  | [_,_,_] => simp at h
  | a::b::c::d::p => exact ⟨getLong a b c d,rfl,rfl⟩

/-! ## One option -/

/-- `MINMRU` -/
def minmru : ℕ := 128

/-- `PPP_MRU` -/
def pppMru : ℕ := 1500

/-- `CHAP_CANDIGEST` -/
def chapCandigest (mdtype digest : UInt8) : Bool :=
  if digest=0x81 then decide (mdtype &&& 1≠0)
  else if digest=0x80 then decide (mdtype &&& 2≠0)
  else if digest=5 then decide (mdtype &&& 4≠0)
  else false

/-- `CHAP_MDTYPE_D` -/
def chapMdtypeD (digest : UInt8) : UInt8 :=
  if digest=0x81 then 1 else if digest=0x80 then 2 else if digest=5 then 4 else 0

/-- The options of the peer, and how many numbers `magic` has given. -/
structure His where
  /-- `ho` -/
  ho : LcpOptions
  /-- The calls of `magic`. -/
  magics : ℕ

/-- What becomes of one option. -/
structure Answer where
  /-- `orc` -/
  orc : Reply
  /-- The options of the peer afterwards. -/
  his : His
  /-- What is put into `nak_buffer`. -/
  proposal : List UInt8

/-- The option is accepted. -/
def His.accept (his : His) (ho : LcpOptions) : Answer := ⟨.ack,{ his with ho := ho },[]⟩

/-- `CONFREJ` for one option. -/
def His.refuse (his : His) : Answer := ⟨.rej,his,[]⟩

/-- `CONFNAK` for one option, with a counter-proposal. -/
def His.propose (his : His) (proposal : List UInt8) : Answer := ⟨.nak,his,proposal⟩

/-- What `lcp_reqci` depends on besides the request. -/
structure LcpRequest where
  /-- `go` -/
  go : LcpOptions
  /-- `ao` -/
  ao : LcpOptions
  /-- `reject_if_disagree` -/
  rejectIfDisagree : Bool
  /-- `multilink` -/
  multilink : Bool
  /-- What the calls of `magic` return, one after the other. -/
  magic : ℕ → UInt32

namespace LcpRequest

variable (req : LcpRequest)

/-- `CI_MRU` -/
def answerMru (his : His) (cilen : ℕ) (p : List UInt8) : Option Answer :=
  if req.ao.negMru=false ∨ cilen≠cilenShort then some his.refuse
  else do
    let cishort ← getShortAt p
    if cishort < minmru then some (his.propose (addCiShort ciMru true minmru))
    else some (his.accept { his.ho with negMru := true, mru := cishort })

/-- `CI_ASYNCMAP` -/
def answerAsyncmap (his : His) (cilen : ℕ) (p : List UInt8) : Option Answer :=
  if req.ao.negAsyncmap=false ∨ cilen≠cilenLong then some his.refuse
  else do
    let cilong ← getLongAt p
    if req.ao.asyncmap &&& ~~~cilong≠0 then
      some (his.propose (addCiLong ciAsyncmap true (req.ao.asyncmap ||| cilong)))
    else some (his.accept { his.ho with negAsyncmap := true, asyncmap := cilong })

/-- The proposal of CHAP. -/
def proposeChap : List UInt8 := addCiChap ciAuthtype true req.ao.chapMdtype

/-- The proposal of EAP. -/
def proposeEap : List UInt8 := addCiShort ciAuthtype true pppEap

/-- The proposal of PAP. -/
def proposePap : List UInt8 := addCiShort ciAuthtype true pppPap

/-- `CI_AUTHTYPE` with `PPP_PAP` -/
def answerPap (his : His) (cilen : ℕ) : Answer :=
  if his.ho.negChap=true ∨ his.ho.negEap=true ∨ cilen≠cilenShort then his.refuse
  else if req.ao.negUpap=false then
    his.propose (if req.ao.negEap then proposeEap else req.proposeChap)
  else his.accept { his.ho with negUpap := true }

/-- `CI_AUTHTYPE` with `PPP_CHAP` -/
def answerChap (his : His) (cilen : ℕ) (p : List UInt8) : Option Answer :=
  if his.ho.negUpap=true ∨ his.ho.negEap=true ∨ cilen≠cilenChap then some his.refuse
  else if req.ao.negChap=false then
    some (his.propose (if req.ao.negEap then proposeEap else proposePap))
  else do
    let cichar ← getCharAt p
    if chapCandigest req.ao.chapMdtype cichar=false then some (his.propose req.proposeChap)
    else some (his.accept { his.ho with chapMdtype := chapMdtypeD cichar, negChap := true })

/-- `CI_AUTHTYPE` with `PPP_EAP` -/
def answerEap (his : His) (cilen : ℕ) : Answer :=
  if his.ho.negChap=true ∨ his.ho.negUpap=true ∨ cilen≠cilenShort then his.refuse
  else if req.ao.negEap=false then
    his.propose (if req.ao.negChap then req.proposeChap else proposePap)
  else his.accept { his.ho with negEap := true }

/-- `CI_AUTHTYPE` -/
def answerAuthtype (his : His) (cilen : ℕ) (p : List UInt8) : Option Answer :=
  if cilen<cilenShort ∨ ¬(req.ao.negUpap=true ∨ req.ao.negChap=true ∨ req.ao.negEap=true) then
    some his.refuse
  else do
    let cishort ← getShortAt p
    if (cishort : ℤ)=pppPap then some (req.answerPap his cilen)
    else if (cishort : ℤ)=pppChap then req.answerChap his cilen (p.drop 2)
    else if (cishort : ℤ)=pppEap then some (req.answerEap his cilen)
    else
      some (his.propose (if req.ao.negEap then proposeEap
        else if req.ao.negChap then req.proposeChap else proposePap))

/-- `CI_QUALITY` -/
def answerQuality (his : His) (cilen : ℕ) (p : List UInt8) : Option Answer :=
  if req.ao.negLqr=false ∨ cilen≠cilenLqr then some his.refuse
  else do
    let cishort ← getShortAt p
    let _ ← getLongAt (p.drop 2)
    if (cishort : ℤ)≠pppLqr then some (his.propose (addCiLqr ciQuality true req.ao.lqrPeriod))
    else some (his.accept his.ho)

/-- `CI_MAGICNUMBER` -/
def answerMagicnumber (his : His) (cilen : ℕ) (p : List UInt8) : Option Answer :=
  if ¬(req.ao.negMagicnumber=true ∨ req.go.negMagicnumber=true) ∨ cilen≠cilenLong then
    some his.refuse
  else do
    let cilong ← getLongAt p
    if req.go.negMagicnumber=true ∧ cilong=req.go.magicnumber then
      some (His.propose { his with magics := his.magics+1 }
        (addCiLong ciMagicnumber true (req.magic his.magics)))
    else some (his.accept { his.ho with negMagicnumber := true, magicnumber := cilong })

/-- `CI_PCOMPRESSION` -/
def answerPcompression (his : His) (cilen : ℕ) : Answer :=
  if req.ao.negPcompression=false ∨ cilen≠cilenVoid then his.refuse
  else his.accept { his.ho with negPcompression := true }

/-- `CI_ACCOMPRESSION` -/
def answerAccompression (his : His) (cilen : ℕ) : Answer :=
  if req.ao.negAccompression=false ∨ cilen≠cilenVoid then his.refuse
  else his.accept { his.ho with negAccompression := true }

/-- `CI_MRRU` -/
def answerMrru (his : His) (cilen : ℕ) (p : List UInt8) : Option Answer :=
  if req.ao.negMrru=false ∨ req.multilink=false ∨ cilen≠cilenShort then some his.refuse
  else do
    let cishort ← getShortAt p
    some (his.accept { his.ho with negMrru := true, mrru := cishort })

/-- `CI_SSNHF` -/
def answerSsnhf (his : His) (cilen : ℕ) : Answer :=
  if req.ao.negSsnhf=false ∨ req.multilink=false ∨ cilen≠cilenVoid then his.refuse
  else his.accept { his.ho with negSsnhf := true }

end LcpRequest

/-- The endpoint discriminator that is read: its class, its length and as many bytes of the
value. -/
def Epdisc.receive (endpoint : Epdisc) (cichar : UInt8) (cilen : ℕ) (p : List UInt8) :
    Option Epdisc :=
  if h : cilen ≤ maxEndpLen then
    if cilen≤p.length then
      some ⟨cichar,List.Vector.ofFn fun i : Fin maxEndpLen =>
        if i.val<cilen then p.getD i.val 0 else endpoint.value.get i,cilen,h⟩
    else none
  else none

namespace LcpRequest

variable (req : LcpRequest)

/-- `CI_EPDISC` -/
def answerEpdisc (his : His) (cilen : ℕ) (p : List UInt8) : Option Answer :=
  if req.ao.negEndpoint=false ∨ cilen<cilenChar ∨ cilenChar+maxEndpLen<cilen then
    some his.refuse
  else do
    let cichar ← getCharAt p
    let endpoint ← his.ho.endpoint.receive cichar (cilen-cilenChar) (p.drop 1)
    some (his.accept { his.ho with negEndpoint := true, endpoint := endpoint })

/-- The switch over the types of the options. -/
def answer (his : His) (citype : UInt8) (cilen : ℕ) (p : List UInt8) : Option Answer :=
  if citype=ciMru then req.answerMru his cilen p
  else if citype=ciAsyncmap then req.answerAsyncmap his cilen p
  else if citype=ciAuthtype then req.answerAuthtype his cilen p
  else if citype=ciQuality then req.answerQuality his cilen p
  else if citype=ciMagicnumber then req.answerMagicnumber his cilen p
  else if citype=ciPcompression then some (req.answerPcompression his cilen)
  else if citype=ciAccompression then some (req.answerAccompression his cilen)
  else if citype=ciMrru then req.answerMrru his cilen p
  else if citype=ciSsnhf then some (req.answerSsnhf his cilen)
  else if citype=ciEpdisc then req.answerEpdisc his cilen p
  else some his.refuse

end LcpRequest

/-! ## The answer to one option -/

/-- Only counter-proposals are put into the buffer. They are whole, and as long as the option at
most, unless CHAP is proposed instead of a shorter one. -/
def Answer.Sized (req : LcpRequest) (cilen : ℕ) (a : Answer) : Prop :=
  (a.orc≠.nak ∧ a.proposal=[]) ∨
    (a.orc=.nak ∧ IsBlock a.proposal ∧ cilenShort≤a.proposal.length ∧
      (a.proposal.length≤cilen ∨
        (a.proposal.length=cilenChap ∧ cilen=cilenShort ∧ req.ao.negEap=false ∧
          req.ao.negChap=true)))

/-- An answer depends on the bytes of the option only, and is sized. -/
def Settles (req : LcpRequest) (cilen : ℕ) (result : List UInt8 → Option Answer) : Prop :=
  ∀ value rest,cilen=value.length+2 →
    ∃ a,result value=some a ∧ result (value++rest)=some a ∧ a.Sized req cilen

section

variable {req : LcpRequest} {his : His} {cilen : ℕ}

theorem sized_refuse : his.refuse.Sized req cilen := Or.inl ⟨Reply.noConfusion,rfl⟩

theorem sized_accept {ho : LcpOptions} : (his.accept ho).Sized req cilen :=
  Or.inl ⟨Reply.noConfusion,rfl⟩

theorem sized_propose {opt : UInt8} {n : ℕ} {value : List UInt8} (hlength : n=value.length+2)
    (hn : n<256) (hshort : cilenShort≤n) (hle : n≤cilen ∨ (n=cilenChap ∧ cilen=cilenShort ∧
      req.ao.negEap=false ∧ req.ao.negChap=true)) :
    (his.propose (addCi opt n true value)).Sized req cilen := by
  have hsize : (addCi opt n true value).length=n := length_addCi hlength
  have hne : addCi opt n true value≠[] := List.cons_ne_nil _ _
  refine Or.inr ⟨rfl,isBlock_addCi hlength hn hne,?_,?_⟩
  · exact hshort.trans_eq hsize.symm
  · dsimp only [His.propose]
    rwa [hsize]

theorem sized_short {opt : UInt8} {val : ℤ} (h : cilenShort≤cilen) :
    (his.propose (addCiShort opt true val)).Sized req cilen :=
  sized_propose rfl (by decide) le_rfl (Or.inl h)

theorem sized_chap (h : cilenChap≤cilen ∨ (cilen=cilenShort ∧ req.ao.negEap=false ∧
    req.ao.negChap=true)) : (his.propose req.proposeChap).Sized req cilen :=
  sized_propose rfl (by decide) (by decide) (h.imp_right fun hshort => ⟨rfl,hshort⟩)

theorem settles_of_sized {a : Answer} (h : a.Sized req cilen) :
    Settles req cilen fun _ => some a :=
  fun _ _ _ => ⟨a,rfl,rfl,h⟩

theorem settles_answerMru : Settles req cilen (req.answerMru his cilen) := by
  intro value rest hcilen
  unfold LcpRequest.answerMru
  split_ifs with hbad
  · exact ⟨_,rfl,rfl,sized_refuse⟩
  · obtain ⟨-,hshort⟩ := not_or.mp hbad
    rw [not_not] at hshort
    have hlong : 2≤value.length := by
      rw [hshort,cilenShort] at hcilen
      omega
    obtain ⟨cishort,hread,hreads⟩ := getShortAt_append hlong rest
    rw [hread,hreads]
    dsimp only [Option.bind_eq_bind,Option.bind_some]
    split_ifs with hmin
    · exact ⟨_,rfl,rfl,sized_short hshort.ge⟩
    · exact ⟨_,rfl,rfl,sized_accept⟩

theorem settles_answerAsyncmap : Settles req cilen (req.answerAsyncmap his cilen) := by
  intro value rest hcilen
  unfold LcpRequest.answerAsyncmap
  split_ifs with hbad
  · exact ⟨_,rfl,rfl,sized_refuse⟩
  · obtain ⟨-,hlong⟩ := not_or.mp hbad
    rw [not_not] at hlong
    have hfour : 4≤value.length := by
      rw [hlong,cilenLong] at hcilen
      omega
    obtain ⟨cilong,hread,hreads⟩ := getLongAt_append hfour rest
    rw [hread,hreads]
    dsimp only [Option.bind_eq_bind,Option.bind_some]
    split_ifs with hmap
    · exact ⟨_,rfl,rfl,sized_propose rfl (by decide) (by decide) (Or.inl hlong.ge)⟩
    · exact ⟨_,rfl,rfl,sized_accept⟩

theorem sized_answerPap (h : req.ao.negUpap=true ∨ req.ao.negChap=true ∨ req.ao.negEap=true) :
    (req.answerPap his cilen).Sized req cilen := by
  unfold LcpRequest.answerPap
  split_ifs with hbad hpap heap
  · exact sized_refuse
  · exact sized_short (not_not.mp (not_or.mp (not_or.mp hbad).2).2).ge
  · rw [Bool.not_eq_true] at heap
    have hchap : req.ao.negChap=true := by simpa [hpap,heap] using h
    exact sized_chap (Or.inr ⟨not_not.mp (not_or.mp (not_or.mp hbad).2).2,heap,hchap⟩)
  · exact sized_accept

theorem sized_answerEap : (req.answerEap his cilen).Sized req cilen := by
  unfold LcpRequest.answerEap
  split_ifs with hbad heap hchap
  · exact sized_refuse
  · exact sized_chap (Or.inr ⟨not_not.mp (not_or.mp (not_or.mp hbad).2).2,heap,hchap⟩)
  · exact sized_short (not_not.mp (not_or.mp (not_or.mp hbad).2).2).ge
  · exact sized_accept

end

section

variable {req : LcpRequest} {his : His} {cilen : ℕ}

/-- `answerChap` is called behind the number of the protocol. -/
theorem settles_answerChap {value rest : List UInt8} (hcilen : cilen=value.length+4) :
    ∃ a,req.answerChap his cilen value=some a ∧ req.answerChap his cilen (value++rest)=some a ∧
      a.Sized req cilen := by
  unfold LcpRequest.answerChap
  split_ifs with hbad hneg heap
  · exact ⟨_,rfl,rfl,sized_refuse⟩
  · exact ⟨_,rfl,rfl,sized_short (by rw [cilenShort]; omega)⟩
  · exact ⟨_,rfl,rfl,sized_short (by rw [cilenShort]; omega)⟩
  · have hchap : cilen=cilenChap := not_not.mp (not_or.mp (not_or.mp hbad).2).2
    have hone : 1≤value.length := by
      rw [hchap,cilenChap] at hcilen
      omega
    obtain ⟨cichar,hread,hreads⟩ := getCharAt_append hone rest
    rw [hread,hreads]
    dsimp only [Option.bind_eq_bind,Option.bind_some]
    split_ifs with hdigest
    · exact ⟨_,rfl,rfl,sized_chap (Or.inl hchap.ge)⟩
    · exact ⟨_,rfl,rfl,sized_accept⟩

theorem settles_answerAuthtype : Settles req cilen (req.answerAuthtype his cilen) := by
  intro value rest hcilen
  unfold LcpRequest.answerAuthtype
  by_cases hbad : cilen<cilenShort ∨
      ¬(req.ao.negUpap=true ∨ req.ao.negChap=true ∨ req.ao.negEap=true)
  · rw [if_pos hbad,if_pos hbad]
    exact ⟨_,rfl,rfl,sized_refuse⟩
  · rw [if_neg hbad,if_neg hbad]
    obtain ⟨hshort,hauth⟩ := not_or.mp hbad
    rw [not_lt] at hshort
    rw [not_not] at hauth
    have htwo : 2≤value.length := by
      rw [cilenShort] at hshort
      omega
    obtain ⟨cishort,hread,hreads⟩ := getShortAt_append htwo rest
    rw [hread,hreads]
    dsimp only [Option.bind_eq_bind,Option.bind_some]
    by_cases hpap : (cishort : ℤ)=pppPap
    · rw [if_pos hpap,if_pos hpap]
      exact ⟨_,rfl,rfl,sized_answerPap hauth⟩
    rw [if_neg hpap,if_neg hpap]
    by_cases hchap : (cishort : ℤ)=pppChap
    · rw [if_pos hchap,if_pos hchap,List.drop_append_of_le_length htwo]
      exact settles_answerChap (by rw [List.length_drop]; omega)
    rw [if_neg hchap,if_neg hchap]
    by_cases heap : (cishort : ℤ)=pppEap
    · rw [if_pos heap]
      exact ⟨_,rfl,rfl,sized_answerEap⟩
    rw [if_neg heap]
    refine ⟨_,rfl,rfl,?_⟩
    split_ifs with hown hother
    · exact sized_short hshort
    · refine sized_chap ?_
      rcases hshort.eq_or_lt with heq | hlt
      · exact Or.inr ⟨heq.symm,(Bool.not_eq_true _).mp hown,hother⟩
      · exact Or.inl hlt
    · exact sized_short hshort

theorem settles_answerQuality : Settles req cilen (req.answerQuality his cilen) := by
  intro value rest hcilen
  unfold LcpRequest.answerQuality
  split_ifs with hbad
  · exact ⟨_,rfl,rfl,sized_refuse⟩
  · have hlqr : cilen=cilenLqr := not_not.mp (not_or.mp hbad).2
    have hsix : 6≤value.length := by
      rw [hlqr,cilenLqr] at hcilen
      omega
    obtain ⟨cishort,hshort,hshorts⟩ := @getShortAt_append value (by omega) rest
    obtain ⟨cilong,hlong,hlongs⟩ :=
      @getLongAt_append (value.drop 2) (by rw [List.length_drop]; omega) rest
    rw [hshort,hshorts,List.drop_append_of_le_length (by omega : 2≤value.length)]
    dsimp only [Option.bind_eq_bind,Option.bind_some]
    rw [hlong,hlongs]
    dsimp only [Option.bind_some]
    split_ifs with hprotocol
    · exact ⟨_,rfl,rfl,sized_propose rfl (by decide) (by decide) (Or.inl hlqr.ge)⟩
    · exact ⟨_,rfl,rfl,sized_accept⟩

theorem settles_answerMagicnumber : Settles req cilen (req.answerMagicnumber his cilen) := by
  intro value rest hcilen
  unfold LcpRequest.answerMagicnumber
  split_ifs with hbad
  · exact ⟨_,rfl,rfl,sized_refuse⟩
  · have hlong : cilen=cilenLong := not_not.mp (not_or.mp hbad).2
    have hfour : 4≤value.length := by
      rw [hlong,cilenLong] at hcilen
      omega
    obtain ⟨cilong,hread,hreads⟩ := getLongAt_append hfour rest
    rw [hread,hreads]
    dsimp only [Option.bind_eq_bind,Option.bind_some]
    split_ifs with hloop
    · exact ⟨_,rfl,rfl,sized_propose rfl (by decide) (by decide) (Or.inl hlong.ge)⟩
    · exact ⟨_,rfl,rfl,sized_accept⟩

theorem settles_answerMrru : Settles req cilen (req.answerMrru his cilen) := by
  intro value rest hcilen
  unfold LcpRequest.answerMrru
  split_ifs with hbad
  · exact ⟨_,rfl,rfl,sized_refuse⟩
  · have hshort : cilen=cilenShort := not_not.mp (not_or.mp (not_or.mp hbad).2).2
    have htwo : 2≤value.length := by
      rw [hshort,cilenShort] at hcilen
      omega
    obtain ⟨cishort,hread,hreads⟩ := getShortAt_append htwo rest
    rw [hread,hreads]
    exact ⟨_,rfl,rfl,sized_accept⟩

theorem receive_append {endpoint : Epdisc} {cichar : UInt8} {value rest : List UInt8}
    (h : value.length ≤ maxEndpLen) :
    ∃ endpoint',endpoint.receive cichar value.length value=some endpoint' ∧
      endpoint.receive cichar value.length (value++rest)=some endpoint' := by
  unfold Epdisc.receive
  rw [dif_pos h,dif_pos h,if_pos le_rfl,if_pos (by rw [List.length_append]; omega)]
  refine ⟨_,rfl,?_⟩
  congr 3
  funext i
  split_ifs with hi
  · rw [List.getD_append _ _ _ _ hi]
  · rfl

theorem settles_answerEpdisc : Settles req cilen (req.answerEpdisc his cilen) := by
  intro value rest hcilen
  unfold LcpRequest.answerEpdisc
  split_ifs with hbad
  · exact ⟨_,rfl,rfl,sized_refuse⟩
  · obtain ⟨hchar,hmax⟩ := not_or.mp (not_or.mp hbad).2
    rw [not_lt,cilenChar] at hchar hmax
    have hone : 1≤value.length := by omega
    have hrest : cilen-cilenChar=(value.drop 1).length := by
      rw [List.length_drop,cilenChar]
      omega
    obtain ⟨cichar,hread,hreads⟩ := getCharAt_append hone rest
    obtain ⟨endpoint,htake,htakes⟩ := @receive_append his.ho.endpoint cichar (value.drop 1) rest
      (by rw [List.length_drop]; omega)
    rw [hread,hreads,List.drop_append_of_le_length hone,hrest]
    dsimp only [Option.bind_eq_bind,Option.bind_some]
    rw [htake,htakes]
    exact ⟨_,rfl,rfl,sized_accept⟩

theorem settles_ite {c : Prop} [Decidable c] {f g : List UInt8 → Option Answer}
    (hf : Settles req cilen f) (hg : Settles req cilen g) :
    Settles req cilen fun p => if c then f p else g p := by
  by_cases hc : c
  · simpa only [if_pos hc] using hf
  · simpa only [if_neg hc] using hg

theorem sized_void {c : Prop} [Decidable c] {ho : LcpOptions} :
    (if c then his.refuse else his.accept ho).Sized req cilen := by
  split_ifs
  · exact sized_refuse
  · exact sized_accept

/-- Every option is answered from its own bytes. -/
theorem settles_answer (citype : UInt8) : Settles req cilen (req.answer his citype cilen) := by
  unfold LcpRequest.answer
  refine settles_ite settles_answerMru ?_
  refine settles_ite settles_answerAsyncmap ?_
  refine settles_ite settles_answerAuthtype ?_
  refine settles_ite settles_answerQuality ?_
  refine settles_ite settles_answerMagicnumber ?_
  refine settles_ite (settles_of_sized sized_void) ?_
  refine settles_ite (settles_of_sized sized_void) ?_
  refine settles_ite settles_answerMrru ?_
  refine settles_ite (settles_of_sized sized_void) ?_
  exact settles_ite settles_answerEpdisc (settles_of_sized sized_refuse)

end

/-! ## The request -/

/-- Options that are all zero. -/
def LcpOptions.zero : LcpOptions where
  negMru := false
  negAsyncmap := false
  negUpap := false
  negChap := false
  negEap := false
  negMagicnumber := false
  negPcompression := false
  negAccompression := false
  negLqr := false
  negCbcp := false
  negMrru := false
  negSsnhf := false
  negEndpoint := false
  mru := 0
  mrru := 0
  chapMdtype := 0
  asyncmap := 0
  magicnumber := 0
  lqrPeriod := 0
  endpoint := ⟨0,List.Vector.replicate maxEndpLen 0,0,Nat.zero_le _⟩

/-- The state of `lcp_reqci`. -/
structure Requesting where
  /-- The bytes at `inp`. -/
  inp : List UInt8
  /-- `next` -/
  next : ℕ
  /-- `rejp` -/
  rejp : ℕ
  /-- The bytes of `nak_buffer` before `nakp`. -/
  nak : List UInt8
  /-- `rc` -/
  rc : Reply
  /-- The options of the peer. -/
  his : His

/-- What is returned, and the bytes that were written into `nak_buffer`. -/
structure Requested where
  /-- The code of the reply. -/
  rc : Reply
  /-- The first `*lenp` bytes at `inp`. -/
  out : List UInt8
  /-- The bytes that were written into `nak_buffer`. -/
  nak : List UInt8

namespace LcpRequest

variable (req : LcpRequest)

/-- The part of `lcp_reqci` from `endswitch` on, for the option at `cip`. -/
def conclude (citype : UInt8) (cip cilen : ℕ) (a : Answer) (s : Requesting) :
    Option Requesting :=
  let s := { s with nak := s.nak++a.proposal, his := a.his }
  if a.orc=.ack ∧ s.rc≠.ack then some s
  else
    let orc := if a.orc=.nak ∧ req.rejectIfDisagree=true ∧ citype≠ciMagicnumber then .rej else a.orc
    if orc=.nak then some (if s.rc=.rej then s else { s with rc := .nak })
    else if orc=.rej then
      (if cip≠s.rejp then memcpy s.inp s.rejp (s.inp.drop cip) cilen else some s.inp).map fun inp =>
        { s with inp := inp, rc := .rej, rejp := s.rejp+cilen }
    else some s

/-- The loop of `lcp_reqci` over the `left` bytes from `next` on. A bad length makes one option
of type 0 of them all. -/
def reqciLoop (left : ℕ) (s : Requesting) : Option Requesting :=
  if hleft : left=0 then some s
  else if left<2 then req.conclude 0 s.next left s.his.refuse s
  else do
    let cilen ← s.inp[s.next+1]?
    if hbad : cilen.toNat<2 ∨ left<cilen.toNat then req.conclude 0 s.next left s.his.refuse s
    else
      let citype ← s.inp[s.next]?
      let a ← req.answer s.his citype cilen.toNat (s.inp.drop (s.next+2))
      let s ← req.conclude citype s.next cilen.toNat a { s with next := s.next+cilen.toNat }
      reqciLoop (left-cilen.toNat) s
termination_by left

/-- `lcp_reqci` -/
def reqci (inp : List UInt8) : Option Requested := do
  let s ← req.reqciLoop inp.length ⟨inp,0,0,[],.ack,⟨.zero,0⟩⟩
  match s.rc with
  | .ack => some ⟨.ack,s.inp.take s.next,s.nak⟩
  | .nak => some ⟨.nak,s.nak,s.nak⟩
  | .rej => some ⟨.rej,s.inp.take s.rejp,s.nak⟩

/-! ## What a request is answered with -/

/-- The answer to a piece of the request: to an option, or to bytes that are none. -/
def judge (his : His) : List UInt8 → Answer
  | citype::len::value =>
    if len.toNat=value.length+2 then (req.answer his citype len.toNat value).getD his.refuse
    else his.refuse
  | _ => his.refuse

/-- The pieces with their answers, one after the other. -/
def answers : His → List (List UInt8) → List (List UInt8×Answer)
  | _,[] => []
  | his,piece::pieces => (piece,req.judge his piece)::answers (req.judge his piece).his pieces

/-- The options that are refused: the ones that are rejected, and in place of a counter-proposal
all but the magic number. -/
def refuses (entry : List UInt8×Answer) : Bool :=
  decide (entry.2.orc=.rej ∨
    (entry.2.orc=.nak ∧ req.rejectIfDisagree=true ∧ entry.1.head?≠some ciMagicnumber))

/-- The bytes that are kept of an option. -/
def keeps (entry : List UInt8×Answer) : List UInt8 := if req.refuses entry then entry.1 else []

/-- The options that are refused, in their order. -/
def refused (entries : List (List UInt8×Answer)) : List UInt8 := (entries.map req.keeps).flatten

/-- The reply after one more answer. -/
def after (rc : Reply) (entry : List UInt8×Answer) : Reply :=
  if req.refuses entry then .rej
  else if entry.2.orc=.nak ∧ rc≠.rej then .nak
  else rc

end LcpRequest

/-- The counter-proposals, in their order. -/
def proposals (entries : List (List UInt8×Answer)) : List UInt8 :=
  (entries.map fun entry => entry.2.proposal).flatten

/-- What `lcp_reqci` is for: it reads within the request, it writes within `nak_buffer`, and it
accepts all the options, returns the ones that it refuses, or makes whole counter-proposals. -/
def LcpRequest.Meets (req : LcpRequest) (inp : List UInt8) : Prop :=
  ∃ o,req.reqci inp=some o ∧ o.nak.length≤pppMru ∧
    ((o.rc=.ack ∧ o.out=inp) ∨
      (o.rc=.rej ∧ o.out=req.refused (req.answers ⟨.zero,0⟩ (pieces inp))) ∨
      (o.rc=.nak ∧ ∃ bs : List (List UInt8),(∀ b∈bs,IsBlock b) ∧ o.out=bs.flatten))

namespace LcpRequest

variable {req : LcpRequest}

/-- One option is concluded. -/
structure Concludes (req : LcpRequest) (s : Requesting) (entries : List (List UInt8×Answer))
    (s' : Requesting) : Prop where
  nak : s'.nak=s.nak++proposals entries
  rc : s'.rc=entries.foldl req.after s.rc
  inp : (∀ entry∈entries,req.refuses entry=false) → s'.inp=s.inp

/-- The bytes of the request: what is kept, a gap, and what is not read yet. -/
structure Placed (kept gap rest : List UInt8) (s : Requesting) : Prop where
  inp : s.inp=kept++(gap++rest)
  rejp : s.rejp=kept.length

theorem conclude_of_ack {citype : UInt8} {cip cilen : ℕ} {a : Answer} {s : Requesting}
    (h : a.orc=.ack) :
    req.conclude citype cip cilen a s=some { s with nak := s.nak++a.proposal, his := a.his } := by
  unfold conclude
  simp only [h,reduceCtorEq,false_and,if_false]
  split_ifs
  · rfl
  · rfl

theorem conclude_of_nak {citype : UInt8} {cip cilen : ℕ} {a : Answer} {s : Requesting}
    (h : a.orc=.nak) (hnot : ¬(req.rejectIfDisagree=true ∧ citype≠ciMagicnumber)) :
    req.conclude citype cip cilen a s=some { s with nak := s.nak++a.proposal, his := a.his, rc := if s.rc=.rej then .rej else .nak } := by
  unfold conclude
  simp only [h,hnot,reduceCtorEq,false_and,and_false,if_false,if_true]
  split_ifs with hrc
  · rw [← hrc]
  · rfl

theorem conclude_of_rej {citype : UInt8} {cip cilen : ℕ} {a : Answer} {s : Requesting}
    (h : a.orc=.rej ∨ (a.orc=.nak ∧ req.rejectIfDisagree=true ∧ citype≠ciMagicnumber)) :
    req.conclude citype cip cilen a s=
      (if cip≠s.rejp then memcpy s.inp s.rejp (s.inp.drop cip) cilen else some s.inp).map
        fun inp => { s with inp := inp, nak := s.nak++a.proposal, his := a.his, rc := .rej,
                            rejp := s.rejp+cilen } := by
  unfold conclude
  rcases h with h | ⟨h,hdisagree⟩
  · simp only [h,reduceCtorEq,false_and,if_false,if_true]
  · simp only [h,hdisagree,reduceCtorEq,false_and,if_false,if_true,and_self,ne_eq,
      not_false_eq_true]

theorem conclude_spec {kept gap piece rest : List UInt8} {citype : UInt8} {a : Answer}
    {s : Requesting} (hplaced : Placed kept gap (piece++rest) s)
    (htype : a.orc=.nak → piece.head?=some citype) :
    ∃ s' gap',req.conclude citype (kept.length+gap.length) piece.length a s=some s' ∧
      Placed (kept++req.keeps (piece,a)) gap' rest s' ∧
      (kept++req.keeps (piece,a)).length+gap'.length=kept.length+gap.length+piece.length ∧
      s'.next=s.next ∧ s'.his=a.his ∧ req.Concludes s [(piece,a)] s' := by
  obtain ⟨hinp,hrejp⟩ := hplaced
  have hstay : ∀ rc,req.refuses (piece,a)=false → req.after s.rc (piece,a)=rc →
      ∃ s' gap',some { s with nak := s.nak++a.proposal, his := a.his, rc := rc }=some s' ∧
        Placed (kept++req.keeps (piece,a)) gap' rest s' ∧
        (kept++req.keeps (piece,a)).length+gap'.length=kept.length+gap.length+piece.length ∧
        s'.next=s.next ∧ s'.his=a.his ∧ req.Concludes s [(piece,a)] s' := by
    intro rc hnot hrc
    have hkeeps : req.keeps (piece,a)=[] := by
      rw [keeps,hnot]
      rfl
    refine ⟨_,gap++piece,rfl,⟨?_,?_⟩,?_,rfl,rfl,⟨?_,hrc.symm,fun _ => rfl⟩⟩
    · rw [hkeeps,List.append_nil,List.append_assoc]
      exact hinp
    · rw [hkeeps,List.append_nil]
      exact hrejp
    · rw [hkeeps,List.append_nil,List.length_append]
      omega
    · simp [proposals]
  have hmove : req.refuses (piece,a)=true →
      ∃ s' gap',((if kept.length+gap.length≠s.rejp then
          memcpy s.inp s.rejp (s.inp.drop (kept.length+gap.length)) piece.length
        else some s.inp).map fun inp =>
          { s with inp := inp, nak := s.nak++a.proposal, his := a.his, rc := .rej,
                   rejp := s.rejp+piece.length })=some s' ∧
        Placed (kept++req.keeps (piece,a)) gap' rest s' ∧
        (kept++req.keeps (piece,a)).length+gap'.length=kept.length+gap.length+piece.length ∧
        s'.next=s.next ∧ s'.his=a.his ∧ req.Concludes s [(piece,a)] s' := by
    intro hrefuses
    have hkeeps : req.keeps (piece,a)=piece := by
      rw [keeps,hrefuses]
      rfl
    have hrc : req.after s.rc (piece,a)=.rej := if_pos hrefuses
    obtain ⟨gap',hlength,hcopy⟩ := @memcpy_down_if (kept.length+gap.length≠s.rejp) _ kept piece
      rest gap fun hsame => List.length_eq_zero_iff.mp (by omega)
    rw [hkeeps,hinp,hrejp]
    rw [hrejp] at hcopy
    rw [hcopy]
    refine ⟨_,gap',rfl,⟨rfl,(List.length_append ..).symm⟩,?_,rfl,rfl,by simp [proposals],hrc.symm,
      fun hnone => ?_⟩
    · rw [List.length_append]
      omega
    · rw [hnone (piece,a) List.mem_cons_self] at hrefuses
      cases hrefuses
  by_cases hrefuses : req.refuses (piece,a)=true
  · rw [conclude_of_rej]
    · exact hmove hrefuses
    · rcases of_decide_eq_true hrefuses with hrej | ⟨hnak,hdisagree,hmagic⟩
      · exact Or.inl hrej
      · refine Or.inr ⟨hnak,hdisagree,fun heq => hmagic ?_⟩
        rw [htype hnak,heq]
  · rw [Bool.not_eq_true] at hrefuses
    have hnot := of_decide_eq_false hrefuses
    cases horc : a.orc with
    | ack =>
      rw [conclude_of_ack horc]
      refine hstay s.rc hrefuses ?_
      rw [after,hrefuses,horc]
      rfl
    | nak =>
      rw [conclude_of_nak horc]
      · refine hstay _ hrefuses ?_
        rw [after,hrefuses,horc]
        by_cases hrc : s.rc=.rej
        · rw [hrc]
          rfl
        · simp [hrc]
      · intro hand
        refine hnot (Or.inr ⟨horc,hand.1,fun heq => hand.2 ?_⟩)
        rw [htype horc,Option.some.injEq] at heq
        exact heq
    | rej => exact absurd (Or.inl horc) hnot

theorem judge_block {citype len : UInt8} {value rest : List UInt8} (his : His)
    (hlen : len.toNat=value.length+2) :
    req.answer his citype len.toNat (value++rest)=some (req.judge his (citype::len::value)) ∧
      (req.judge his (citype::len::value)).Sized req (value.length+2) := by
  obtain ⟨a,hvalue,hwhole,hsized⟩ := @settles_answer req his len.toNat citype value rest hlen
  have hjudge : req.judge his (citype::len::value)=a := by
    rw [judge,if_pos hlen,hvalue,Option.getD_some]
  rw [hjudge,← hlen]
  exact ⟨hwhole,hsized⟩

theorem judge_bad {citype len : UInt8} {p : List UInt8} (his : His)
    (h : ¬(2≤len.toNat ∧ len.toNat≤p.length+2)) :
    req.judge his (citype::len::p)=his.refuse := by
  rw [judge,if_neg (by omega)]

theorem Concludes.trans {s s₁ s₂ : Requesting} {entry : List UInt8×Answer}
    {entries : List (List UInt8×Answer)} (h₁ : req.Concludes s [entry] s₁)
    (h₂ : req.Concludes s₁ entries s₂) : req.Concludes s (entry::entries) s₂ := by
  refine ⟨?_,?_,fun hnone => ?_⟩
  · rw [h₂.nak,h₁.nak,List.append_assoc]
    simp [proposals]
  · rw [h₂.rc,h₁.rc]
    rfl
  · rw [h₂.inp fun e he => hnone e (List.mem_cons_of_mem _ he),
      h₁.inp fun e he => hnone e (List.mem_singleton.mp he ▸ List.mem_cons_self)]

/-- The end of the loop: what could not be split is refused. -/
theorem conclude_bad {kept gap rest : List UInt8} {s : Requesting} (hplaced : Placed kept gap rest s) :
    ∃ s' gap',req.conclude 0 (kept.length+gap.length) rest.length s.his.refuse s=some s' ∧
      Placed (kept++req.refused [(rest,s.his.refuse)]) gap' [] s' ∧
      req.Concludes s [(rest,s.his.refuse)] s' := by
  rw [← List.append_nil rest] at hplaced
  obtain ⟨s',gap',hconclude,hplaced',-,-,-,hconcludes⟩ :=
    @conclude_spec req kept gap rest [] 0 s.his.refuse s hplaced Reply.noConfusion
  refine ⟨s',gap',hconclude,?_,hconcludes⟩
  simpa [refused] using hplaced'

/-- The loop goes through the pieces of what is left. -/
theorem reqciLoop_spec (rest : List UInt8) : ∀ (kept gap : List UInt8) (s : Requesting),
    Placed kept gap rest s → s.next=kept.length+gap.length →
    ∃ s' gap',req.reqciLoop rest.length s=some s' ∧
      Placed (kept++req.refused (req.answers s.his (pieces rest))) gap' [] s' ∧
      req.Concludes s (req.answers s.his (pieces rest)) s' ∧
      ((∀ entry∈req.answers s.his (pieces rest),req.refuses entry=false) →
        s'.next=s.next+rest.length) := by
  induction rest using pieces_induction with
  | nil =>
    intro kept gap s hplaced hnext
    have hpieces : pieces []=[] := by rw [pieces]
    rw [hpieces,reqciLoop,dif_pos List.length_nil]
    refine ⟨s,gap,rfl,?_,⟨(List.append_nil _).symm,rfl,fun _ => rfl⟩,fun _ => rfl⟩
    rw [answers,refused,List.map_nil,List.flatten_nil,List.append_nil]
    exact hplaced
  | short b =>
    intro kept gap s hplaced hnext
    have hpieces : pieces [b]=[[b]] := by rw [pieces]
    obtain ⟨s',gap',hconclude,hplaced',hconcludes⟩ := conclude_bad hplaced
    rw [hpieces,reqciLoop,dif_neg (by simp),if_pos (by simp),hnext]
    refine ⟨s',gap',hconclude,hplaced',hconcludes,fun hnone => ?_⟩
    exact absurd (hnone _ List.mem_cons_self) (by simp [refuses,judge,His.refuse])
  | bad type len p hbad =>
    intro kept gap s hplaced hnext
    obtain ⟨s',gap',hconclude,hplaced',hconcludes⟩ := conclude_bad hplaced
    have hlen := getElem?_behind kept gap (type::len::p) 1
    have hjudge := @judge_bad req type _ _ s.his hbad
    rw [pieces_bad hbad,answers,hjudge,answers,reqciLoop,dif_neg (by simp),if_neg (by simp),hnext,
      hplaced.inp,hlen]
    refine ⟨s',gap',?_,hplaced',hconcludes,fun hnone => ?_⟩
    · simp only [List.getElem?_cons_succ,List.getElem?_cons_zero,Option.bind_eq_bind,
        Option.bind_some]
      rw [dif_pos]
      · exact hconclude
      · rw [List.length_cons,List.length_cons]
        omega
    · exact absurd (hnone _ List.mem_cons_self) (by simp [refuses,His.refuse])
  | block type len value rest hlen ih =>
    intro kept gap s hplaced hnext
    obtain ⟨hanswer,-⟩ := @judge_block req type _ _ rest s.his hlen
    generalize ha : req.judge s.his (type::len::value)=a at hanswer
    have hplaced₀ : Placed kept gap ((type::len::value)++rest)
        { s with next := s.next+len.toNat } := ⟨hplaced.inp,hplaced.rejp⟩
    obtain ⟨s₁,gap₁,hconclude,hplaced₁,hlength,hnext₁,hhis₁,hconcludes₁⟩ :=
      @conclude_spec req _ _ _ _ type a _ hplaced₀ fun _ => rfl
    have hcilen : (type::len::value).length=len.toNat := by
      rw [hlen]
      rfl
    rw [hcilen] at hconclude hlength
    obtain ⟨s',gap',hloop,hplaced',hconcludes',hend⟩ := ih _ gap₁ s₁ hplaced₁ (by
      rw [hlength,hnext₁]
      dsimp only
      omega)
    have hleft : (type::len::(value++rest)).length=rest.length+len.toNat := by
      rw [hlen,List.length_cons,List.length_cons,List.length_append]
      omega
    have hconcludes₀ : req.Concludes s [(type::len::value,a)] s₁ :=
      ⟨hconcludes₁.nak,hconcludes₁.rc,hconcludes₁.inp⟩
    rw [hhis₁] at hplaced' hconcludes' hend
    rw [pieces_block hlen,answers,ha]
    refine ⟨s',gap',?_,?_,hconcludes₀.trans hconcludes',fun hnone => ?_⟩
    · have hget := getElem?_behind kept gap (type::len::(value++rest))
      have hdrop := drop_behind kept gap (type::len::(value++rest)) 2
      rw [reqciLoop,dif_neg (by simp),if_neg (by simp),hnext,hplaced.inp,hget 1]
      simp only [List.getElem?_cons_succ,List.getElem?_cons_zero,Option.bind_eq_bind,
        Option.bind_some]
      rw [dif_neg (by rw [hleft]; omega)]
      have hget₀ := hget 0
      rw [Nat.add_zero] at hget₀
      rw [hget₀,List.getElem?_cons_zero,Option.bind_some,hdrop]
      simp only [List.drop_succ_cons,List.drop_zero]
      rw [hanswer,Option.bind_some]
      rw [hnext,hplaced.inp] at hconclude
      rw [hconclude,Option.bind_some,hleft,Nat.add_sub_cancel]
      exact hloop
    · rw [refused,List.map_cons,List.flatten_cons,← List.append_assoc]
      exact hplaced'
    · rw [hend fun e he => hnone e (List.mem_cons_of_mem _ he),hnext₁,hleft]
      dsimp only
      omega

/-! ## The size of the counter-proposals -/

theorem answers_sized (p : List UInt8) : ∀ his,∀ entry∈req.answers his (pieces p),
    entry.2.Sized req entry.1.length := by
  induction p using pieces_induction with
  | nil =>
    intro his entry hin
    have hpieces : pieces []=[] := by rw [pieces]
    rw [hpieces] at hin
    exact absurd hin List.not_mem_nil
  | short b =>
    intro his entry hin
    have hpieces : pieces [b]=[[b]] := by rw [pieces]
    rw [hpieces] at hin
    rw [List.mem_singleton.mp hin]
    exact sized_refuse
  | bad type len p hbad =>
    intro his entry hin
    rw [pieces_bad hbad,answers,judge_bad his hbad] at hin
    rw [List.mem_singleton.mp hin]
    exact sized_refuse
  | block type len value rest hlen ih =>
    intro his entry hin
    rw [pieces_block hlen,answers] at hin
    rcases List.mem_cons.mp hin with rfl | hin
    · exact (@judge_block req type len value rest his hlen).2
    · exact ih _ entry hin

theorem flatten_answers (ps : List (List UInt8)) (his : His) :
    ((req.answers his ps).map Prod.fst)=ps := by
  induction ps generalizing his with
  | nil => rfl
  | cons piece ps ih => rw [answers,List.map_cons,ih]

/-- No counter-proposal is longer than its option if CHAP is not proposed. -/
theorem length_proposals_le {entries : List (List UInt8×Answer)}
    (h : ∀ entry∈entries,entry.2.Sized req entry.1.length)
    (hchap : req.ao.negEap=true ∨ req.ao.negChap=false) :
    (proposals entries).length≤(entries.map Prod.fst).flatten.length := by
  induction entries with
  | nil => exact le_rfl
  | cons entry entries ih =>
    have hrest := ih fun e he => h e (List.mem_cons_of_mem _ he)
    have hle : entry.2.proposal.length≤entry.1.length := by
      rcases h entry List.mem_cons_self with ⟨-,hnil⟩ | ⟨-,-,-,hle | ⟨-,-,heap,hneg⟩⟩
      · rw [hnil]
        exact Nat.zero_le _
      · exact hle
      · rw [heap,hneg] at hchap
        simp at hchap
    unfold proposals at hrest ⊢
    simp only [List.map_cons,List.flatten_cons,List.length_append]
    omega

/-- With CHAP they are the fives that stand for fours, and the others. -/
theorem length_proposals {entries : List (List UInt8×Answer)}
    (h : ∀ entry∈entries,entry.2.Sized req entry.1.length) :
    ∃ fives others,(proposals entries).length=5*fives+others ∧
      4*fives+others≤(entries.map Prod.fst).flatten.length ∧ (others=0 ∨ 4≤others) := by
  induction entries with
  | nil => exact ⟨0,0,rfl,le_rfl,Or.inl rfl⟩
  | cons entry entries ih =>
    obtain ⟨fives,others,hsum,hle,hothers⟩ := ih fun e he => h e (List.mem_cons_of_mem _ he)
    have hhead := h entry List.mem_cons_self
    unfold proposals at hsum ⊢
    simp only [List.map_cons,List.flatten_cons,List.length_append]
    rw [hsum]
    rcases hhead with ⟨-,hnil⟩ | ⟨-,-,hshort,hfits | ⟨hchap,hfour,-,-⟩⟩
    · refine ⟨fives,others,?_,by omega,hothers⟩
      rw [hnil,List.length_nil,Nat.zero_add]
    · rw [cilenShort] at hshort
      exact ⟨fives,entry.2.proposal.length+others,by omega,by omega,by omega⟩
    · rw [cilenChap] at hchap
      rw [cilenShort] at hfour
      exact ⟨fives+1,others,by omega,by omega,hothers⟩

/-! ## The replies -/

theorem refuses_of_ack {entries : List (List UInt8×Answer)} {rc : Reply}
    (h : entries.foldl req.after rc=.ack) : ∀ entry∈entries,req.refuses entry=false := by
  have hrc : ∀ (es : List (List UInt8×Answer)) (rc : Reply),es.foldl req.after rc=.ack → rc=.ack := by
    intro es
    induction es with
    | nil => exact fun rc h => h
    | cons e es ih =>
      intro rc hes
      have hafter := ih _ hes
      unfold after at hafter
      split_ifs at hafter
      exact hafter
  induction entries generalizing rc with
  | nil => exact fun _ hin => absurd hin List.not_mem_nil
  | cons e es ih =>
    intro entry hin
    rcases List.mem_cons.mp hin with rfl | hin
    · have hafter := hrc es _ h
      unfold after at hafter
      split_ifs at hafter with hrefuses
      · exact (Bool.not_eq_true _).mp hrefuses
    · exact ih h entry hin

/-- The counter-proposals are whole options. -/
theorem proposals_blocks {entries : List (List UInt8×Answer)}
    (h : ∀ entry∈entries,entry.2.Sized req entry.1.length) :
    ∃ bs : List (List UInt8),(∀ b∈bs,IsBlock b) ∧ proposals entries=bs.flatten := by
  let bs : List (List UInt8) := entries.map fun entry => entry.2.proposal
  refine ⟨bs.filter (·≠[]),fun b hb => ?_,(flatten_filter bs).symm⟩
  obtain ⟨hin,hne⟩ := List.mem_filter.mp hb
  obtain ⟨entry,hentry,rfl⟩ := List.mem_map.mp hin
  rcases h entry hentry with ⟨-,hnil⟩ | ⟨-,hblock,-⟩
  · rw [hnil] at hne
    simp at hne
  · exact hblock

/-- The request meets what it is for exactly if the counter-proposals to its options fit. -/
theorem meets_iff {inp : List UInt8} :
    req.Meets inp ↔ (proposals (req.answers ⟨.zero,0⟩ (pieces inp))).length≤pppMru := by
  have hsized := @answers_sized req inp ⟨.zero,0⟩
  obtain ⟨s,gap,hloop,hplaced,hconcludes,hend⟩ := @reqciLoop_spec req inp [] []
    ⟨inp,0,0,[],.ack,⟨.zero,0⟩⟩ ⟨rfl,rfl⟩ rfl
  have hnak : s.nak=proposals (req.answers ⟨.zero,0⟩ (pieces inp)) := hconcludes.nak
  rw [Meets,reqci,hloop]
  dsimp only [Option.bind_eq_bind,Option.bind_some]
  rw [← hnak]
  cases hrc : s.rc with
  | ack =>
    have hnone := refuses_of_ack (hconcludes.rc.symm.trans hrc)
    have hinp : s.inp=inp := hconcludes.inp hnone
    have hnext : s.next=inp.length := (hend hnone).trans (Nat.zero_add _)
    constructor
    · rintro ⟨o,ho,hle,-⟩
      obtain rfl := Option.some.inj ho
      exact hle
    · intro hle
      refine ⟨_,rfl,hle,Or.inl ⟨rfl,?_⟩⟩
      dsimp only
      rw [hinp,hnext,List.take_length]
  | nak =>
    constructor
    · rintro ⟨o,ho,hle,-⟩
      obtain rfl := Option.some.inj ho
      exact hle
    · intro hle
      refine ⟨_,rfl,hle,Or.inr (Or.inr ⟨rfl,?_⟩)⟩
      obtain ⟨bs,hbs,hflatten⟩ := proposals_blocks hsized
      exact ⟨bs,hbs,hnak.trans hflatten⟩
  | rej =>
    constructor
    · rintro ⟨o,ho,hle,-⟩
      obtain rfl := Option.some.inj ho
      exact hle
    · intro hle
      refine ⟨_,rfl,hle,Or.inr (Or.inl ⟨rfl,?_⟩)⟩
      dsimp only
      rw [hplaced.inp,hplaced.rejp,List.take_left]
      rfl

/-! ## The space for the counter-proposals -/

theorem meets_of_length {inp : List UInt8}
    (h : req.ao.negEap=true ∨ req.ao.negChap=false ∨ inp.length<1202)
    (hle : inp.length≤pppMru-4) : req.Meets inp := by
  rw [meets_iff,pppMru]
  rw [pppMru] at hle
  have hsized := @answers_sized req inp ⟨.zero,0⟩
  have hall : ((req.answers ⟨.zero,0⟩ (pieces inp)).map Prod.fst).flatten.length=inp.length := by
    rw [flatten_answers,pieces_flatten]
  by_cases hchap : req.ao.negEap=true ∨ req.ao.negChap=false
  · have hshort := length_proposals_le hsized hchap
    omega
  · obtain ⟨fives,others,hsum,hlong,hothers⟩ := length_proposals hsized
    have hlength : inp.length<1202 := (or_assoc.mpr h).resolve_left hchap
    omega

/-- A request for a protocol that nobody knows, many times, and for the own magic number. -/
def manyProtocols (k : ℕ) : List (List UInt8) :=
  List.replicate k [3,4,0,0]++[[5,6,0,0,0,0]]

theorem isBlock_manyProtocols (k : ℕ) : ∀ b∈manyProtocols k,IsBlock b := by
  intro b hb
  rcases List.mem_append.mp hb with hb | hb
  · rw [List.eq_of_mem_replicate hb]
    exact ⟨3,4,[0,0],rfl,rfl⟩
  · rw [List.mem_singleton.mp hb]
    exact ⟨5,6,[0,0,0,0],rfl,rfl⟩

theorem length_manyProtocols (k : ℕ) : (manyProtocols k).flatten.length=4*k+6 := by
  rw [manyProtocols,List.flatten_append,List.length_append,List.length_flatten,
    List.map_replicate,List.sum_replicate_nat]
  simp only [List.length_cons,List.length_nil,List.flatten_cons,List.flatten_nil,List.append_nil]
  omega

/-- A peer that has the own magic number. -/
def looped (ao : LcpOptions) : LcpRequest where
  go := { LcpOptions.zero with negMagicnumber := true }
  ao := ao
  rejectIfDisagree := false
  multilink := false
  magic := fun _ => 1

theorem length_proposals_manyProtocols {ao : LcpOptions} (heap : ao.negEap=false)
    (hchap : ao.negChap=true) (k : ℕ) (his : His) :
    (proposals ((looped ao).answers his (manyProtocols k))).length=5*k+6 := by
  induction k with
  | zero =>
    have hjudge : ((looped ao).judge his [5,6,0,0,0,0]).proposal=addCiLong ciMagicnumber true 1 := by
      simp [judge,answer,answerMagicnumber,getLongAt,getLong,looped,LcpOptions.zero,cilenLong,
        ciMru,ciAsyncmap,ciAuthtype,ciQuality,ciMagicnumber,His.propose]
    rw [manyProtocols,List.replicate_zero,List.nil_append,answers,answers,proposals,List.map_cons,
      hjudge]
    rfl
  | succ k ih =>
    have hjudge : (looped ao).judge his [3,4,0,0]=his.propose (looped ao).proposeChap := by
      simp [judge,answer,answerAuthtype,getShortAt,getShort,looped,heap,hchap,cilenShort,
        pppPap,pppChap,pppEap,ciMru,ciAsyncmap,ciAuthtype]
    have hmany : manyProtocols (k+1)=[3,4,0,0]::manyProtocols k := by
      rw [manyProtocols,List.replicate_succ]
      rfl
    rw [hmany,answers,hjudge]
    unfold proposals at ih ⊢
    rw [List.map_cons,List.flatten_cons,List.length_append,His.propose,ih]
    have hfive : (looped ao).proposeChap.length=5 := rfl
    rw [hfive]
    omega

theorem not_meets_manyProtocols {ao : LcpOptions} (heap : ao.negEap=false)
    (hchap : ao.negChap=true) : ¬(looped ao).Meets (manyProtocols 299).flatten := by
  rw [meets_iff,pieces_flatten_of_blocks (isBlock_manyProtocols 299),
    length_proposals_manyProtocols heap hchap,pppMru]
  omega

/-- Only CHAP with MD5 is allowed. -/
def chapOnly : LcpOptions := { LcpOptions.zero with negChap := true, chapMdtype := 4 }

end LcpRequest

end AndroidPlatform.PppOptions
