import AndroidPlatform.IpcpOptions
import AndroidPlatform.TypedBlocks

/-!
# Rejected options

`lcp_rejci` and `ipcp_rejci` go through the options of a request in their order and switch
off the ones that the peer has rejected. The next request is to do without them.
-/

namespace AndroidPlatform.PppOptions

open ByteCheckers TypedBlocks

/-! ## One option -/

/-- `REJCIVOID` and its siblings: an option that does not start like the one that was asked for
is left alone, and one that does must have its value. -/
def rejCi (opt : UInt8) (cilen : ℕ) (neg : Bool) (value : List UInt8 → Option (List UInt8))
    (p : List UInt8) : Option (Bool×List UInt8) :=
  if neg then
    match p with
    | citype::len::rest =>
      if cilen≤p.length ∧ len.toNat=cilen ∧ citype=opt then (value rest).map fun rest => (true,rest)
      else some (false,p)
    | _ => some (false,p)
  else some (false,p)

theorem isBlock_addCi {opt : UInt8} {cilen : ℕ} {neg : Bool} {value : List UInt8}
    (hlength : cilen=value.length+2) (hcilen : cilen<256) (h : addCi opt cilen neg value≠[]) :
    IsBlock (addCi opt cilen neg value) := by
  cases neg with
  | false => exact absurd rfl h
  | true =>
    refine ⟨opt,UInt8.ofNat cilen,value,rfl,?_⟩
    rw [UInt8.toNat_ofNat',Nat.mod_eq_of_lt hcilen,hlength]

theorem head_addCi {opt : UInt8} {cilen : ℕ} {neg : Bool} {value : List UInt8}
    (h : addCi opt cilen neg value≠[]) : (addCi opt cilen neg value).head?=some opt := by
  cases neg with
  | false => exact absurd rfl h
  | true => rfl

/-- An option of another type is left alone. -/
theorem passes_of_head {opt : UInt8} {cilen : ℕ} {neg : Bool} {b : List UInt8}
    {check : List UInt8 → Option (List UInt8)} (h : b≠[] → b.head?≠some opt) :
    Passes (rejCi opt cilen neg check) b := by
  intro hne rest
  have hhead : (b++rest).head?≠some opt := by
    rw [List.head?_append_of_ne_nil b hne]
    exact h hne
  unfold rejCi
  split
  · split
    · rename_i citype len p heq
      refine if_neg fun hand => hhead ?_
      rw [heq,hand.2.2]
      rfl
    · rfl
  · rfl

/-- So is every option when the own one is not asked for, and an option that is asked for only
without the own one. -/
theorem passes_of_not {opt opt' : UInt8} {cilen cilen' : ℕ} {neg neg' : Bool}
    {value : List UInt8} {check : List UInt8 → Option (List UInt8)} (h : neg'=true → neg=false) :
    Passes (rejCi opt cilen neg check) (addCi opt' cilen' neg' value) := by
  intro hne rest
  cases neg' with
  | false => exact absurd rfl hne
  | true =>
    rw [h rfl]
    rfl

/-- The check of a rejected option reads what was written. The flag may be set although the
option was not asked for. -/
theorem reads_rejCi {fits : List UInt8 → Prop} {opt : UInt8} {cilen : ℕ} {neg asked : Bool}
    {value : List UInt8} {check : List UInt8 → Option (List UInt8)}
    (hasked : asked=true → neg=true) (hlength : cilen=value.length+2) (hcilen : cilen<256)
    (hfits : fits (opt::UInt8.ofNat cilen::value) → Accepts check value)
    (hbad : ¬fits (opt::UInt8.ofNat cilen::value) → Refuses check) :
    Reads fits (rejCi opt cilen neg check) (addCi opt cilen asked value) := by
  have hempty : rejCi opt cilen neg check []=some (false,[]) := by
    cases neg with
    | false => rfl
    | true => rfl
  cases asked with
  | false => exact ⟨hempty,fun hne => absurd rfl hne,fun hne => absurd rfl hne⟩
  | true =>
    rw [hasked rfl] at hempty ⊢
    have hbyte : (UInt8.ofNat cilen).toNat=cilen := by
      rw [UInt8.toNat_ofNat',Nat.mod_eq_of_lt hcilen]
    have hstart : ∀ rest,rejCi opt cilen true check (addCi opt cilen true value++rest)=
        (check (value++rest)).map fun rest => (true,rest) := by
      intro rest
      have hlong : cilen≤(opt::UInt8.ofNat cilen::(value++rest)).length := by
        rw [List.length_cons,List.length_cons,List.length_append]
        omega
      rw [addCi,if_pos rfl,List.cons_append,List.cons_append,rejCi,if_pos rfl]
      exact if_pos ⟨hlong,hbyte,rfl⟩
    refine ⟨hempty,fun _ hfit rest => ?_,fun _ hunfit rest => ?_⟩
    · rw [hstart,(hfits hfit _ rest).mpr rfl]
      rfl
    · rw [hstart,hbad hunfit]
      rfl

/-- An option is not asked for when the only one of its type is not. -/
theorem not_mem_of_not_asked {requests : List (List UInt8)} {types : List UInt8} {b : List UInt8}
    {type : UInt8} {cilen : ℕ} {asked : Bool} {value : List UInt8}
    (h : HaveTypes requests types) (hne : b≠[]) (hhead : b.head?=some type)
    (hof : ofType requests types type=[addCi type cilen asked value]) (hoff : asked=false) :
    b∉requests := by
  refine h.not_mem hne hhead fun b' hb' heq => hne ?_
  rw [hof] at hb'
  rw [← heq,List.mem_singleton.mp hb',hoff]
  rfl

/-! ## The rejections of LCP -/

/-- `REJCIVOID` -/
def rejCiVoid (opt : UInt8) (neg : Bool) : List UInt8 → Option (Bool×List UInt8) :=
  rejCi opt cilenVoid neg some

/-- `REJCISHORT` -/
def rejCiShort (opt : UInt8) (neg : Bool) (val : ℤ) : List UInt8 → Option (Bool×List UInt8) :=
  rejCi opt cilenShort neg (checkShort val)

/-- `REJCICHAP` -/
def rejCiChap (opt : UInt8) (neg : Bool) (val : UInt8) : List UInt8 → Option (Bool×List UInt8) :=
  rejCi opt cilenChap neg (checkAll [checkShort pppChap,checkChar (chapDigest val)])

/-- `REJCILONG` -/
def rejCiLong (opt : UInt8) (neg : Bool) (val : UInt32) : List UInt8 → Option (Bool×List UInt8) :=
  rejCi opt cilenLong neg (checkLong val)

/-- `REJCILQR` -/
def rejCiLqr (opt : UInt8) (neg : Bool) (val : UInt32) : List UInt8 → Option (Bool×List UInt8) :=
  rejCi opt cilenLqr neg (checkAll [checkShort pppLqr,checkLong val])

/-- `REJCICBCP` -/
def rejCiCbcp (opt : UInt8) (neg : Bool) (val : UInt8) : List UInt8 → Option (Bool×List UInt8) :=
  rejCi opt cilenCbcp neg (checkChar val)

/-- `REJCIENDP` -/
def rejCiEndp (opt : UInt8) (neg : Bool) (endpoint : Epdisc) :
    List UInt8 → Option (Bool×List UInt8) :=
  rejCi opt (cilenChar+endpoint.length) neg
    (checkAll [checkChar endpoint.epdClass,checkBytes endpoint.bytes])

namespace LcpOptions

variable (go : LcpOptions)

/-- The checks of `lcp_rejci`, each with what it does to `try`. -/
def rejections : List (Reader LcpOptions) :=
  [⟨rejCiShort ciMru go.negMru go.mru,fun tried => { tried with negMru := false }⟩,
    ⟨rejCiLong ciAsyncmap go.negAsyncmap go.asyncmap,
      fun tried => { tried with negAsyncmap := false }⟩,
    ⟨rejCiShort ciAuthtype go.negEap pppEap,fun tried => { tried with negEap := false }⟩,
    ⟨rejCiChap ciAuthtype (!go.negEap && go.negChap) go.chapMdtype,
      fun tried => { tried with negChap := false, negEap := false, negUpap := false }⟩,
    ⟨rejCiShort ciAuthtype (!go.negEap && !go.negChap && go.negUpap) pppPap,
      fun tried => { tried with negUpap := false }⟩,
    ⟨rejCiLqr ciQuality go.negLqr go.lqrPeriod,fun tried => { tried with negLqr := false }⟩,
    ⟨rejCiCbcp ciCallback go.negCbcp cbcpOpt,fun tried => { tried with negCbcp := false }⟩,
    ⟨rejCiLong ciMagicnumber go.negMagicnumber go.magicnumber,
      fun tried => { tried with negMagicnumber := false }⟩,
    ⟨rejCiVoid ciPcompression go.negPcompression,
      fun tried => { tried with negPcompression := false }⟩,
    ⟨rejCiVoid ciAccompression go.negAccompression,
      fun tried => { tried with negAccompression := false }⟩,
    ⟨rejCiShort ciMrru go.negMrru go.mrru,fun tried => { tried with negMrru := false }⟩,
    ⟨rejCiVoid ciSsnhf go.negSsnhf,fun tried => { tried with negSsnhf := false }⟩,
    ⟨rejCiEndp ciEpdisc go.negEndpoint go.endpoint,
      fun tried => { tried with negEndpoint := false }⟩]

/-- `lcp_rejci`: nothing may be left, and an opened connection keeps its options. -/
def rejci (opened : Bool) (p : List UInt8) : Bool×LcpOptions :=
  match run go.rejections go p with
  | some (tried,[]) => (true,if opened then go else tried)
  | _ => (false,go)

/-- The number of a rejected option fits in sixteen bits. -/
def RejectFits (option : List UInt8) : Prop :=
  (option.head?=some ciMru → 0≤go.mru ∧ go.mru<65536) ∧
    (option.head?=some ciMrru → 0≤go.mrru ∧ go.mrru<65536)

end LcpOptions

/-- Options of other types are left alone. -/
theorem passes_of_types {bs : List (List UInt8)} {types : List UInt8} {opt : UInt8} {cilen : ℕ}
    {neg : Bool} {check : List UInt8 → Option (List UInt8)} (hnot : opt∉types)
    (htypes : HaveTypes bs types) : ∀ later∈bs,Passes (rejCi opt cilen neg check) later := by
  refine fun later hin => passes_of_head fun hne heq => ?_
  obtain ⟨type,htype,hhead⟩ := htypes.head_mem hin hne
  rw [heq] at hhead
  cases hhead
  exact hnot htype

/-- A check in front of others. -/
theorem covers_cons {α : Type*} {fits : List UInt8 → Prop} {rs : List (Reader α)}
    {bs : List (List UInt8)} {types : List UInt8} {opt : UInt8} {cilen : ℕ} {neg asked : Bool}
    {value : List UInt8} {check : List UInt8 → Option (List UInt8)} {off : α → α}
    (hreads : Reads fits (rejCi opt cilen neg check) (addCi opt cilen asked value))
    (hpasses : HaveTypes bs types → ∀ later∈bs,Passes (rejCi opt cilen neg check) later)
    (hrest : Covers fits rs bs ∧ HaveTypes bs types) :
    Covers fits (⟨rejCi opt cilen neg check,off⟩::rs) (addCi opt cilen asked value::bs) ∧
      HaveTypes (addCi opt cilen asked value::bs) (opt::types) :=
  ⟨.cons hreads (hpasses hrest.2) hrest.1,.cons head_addCi hrest.2⟩

namespace LcpOptions

variable (go : LcpOptions)

/-- The types of the options of a request. -/
def types : List UInt8 :=
  [ciMru,ciAsyncmap,ciAuthtype,ciAuthtype,ciAuthtype,ciQuality,ciCallback,ciMagicnumber,
    ciPcompression,ciAccompression,ciMrru,ciSsnhf,ciEpdisc]

theorem rejectFits_of_ne {option : List UInt8} {opt : UInt8} (hhead : option.head?=some opt)
    (hmru : opt≠ciMru) (hmrru : opt≠ciMrru) : go.RejectFits option := by
  constructor
  · intro heq
    rw [hhead,Option.some.injEq] at heq
    exact absurd heq hmru
  · intro heq
    rw [hhead,Option.some.injEq] at heq
    exact absurd heq hmrru

/-- A check of an option without a number of its own. -/
theorem reads_of_accepts {opt : UInt8} {cilen : ℕ} {neg asked : Bool} {value : List UInt8}
    {check : List UInt8 → Option (List UInt8)} (hasked : asked=true → neg=true)
    (hlength : cilen=value.length+2) (hcilen : cilen<256) (hmru : opt≠ciMru) (hmrru : opt≠ciMrru)
    (h : Accepts check value) :
    Reads go.RejectFits (rejCi opt cilen neg check) (addCi opt cilen asked value) :=
  reads_rejCi hasked hlength hcilen (fun _ => h)
    fun hbad => absurd (go.rejectFits_of_ne rfl hmru hmrru) hbad

/-- A check of a number, which is read exactly if it fits. -/
theorem reads_number {opt : UInt8} {val : ℤ} {neg asked : Bool} (hasked : asked=true → neg=true)
    (hfits : go.RejectFits (opt::UInt8.ofNat cilenShort::putShort val) ↔ 0≤val ∧ val<65536) :
    Reads go.RejectFits (rejCi opt cilenShort neg (checkShort val))
      (addCi opt cilenShort asked (putShort val)) := by
  refine reads_rejCi hasked rfl (by decide) (fun h => ?_) fun h => ?_
  · obtain ⟨hge,hlt⟩ := hfits.mp h
    exact accepts_checkShort hge hlt
  · exact refuses_checkShort fun hboth => h (hfits.mpr hboth)

/-- Each check reads what was written and leaves the later options alone. -/
theorem covers_requests :
    Covers go.RejectFits go.rejections go.requests ∧ HaveTypes go.requests types := by
  have hlast := go.endpoint.length_le
  have hle : cilenChar+go.endpoint.length<256 := by
    rw [maxEndpLen] at hlast
    rw [cilenChar]
    omega
  refine covers_cons ?_ (passes_of_types (by decide)) (covers_cons ?_ (passes_of_types (by decide))
    (covers_cons ?_ ?_ (covers_cons ?_ ?_ (covers_cons ?_ (passes_of_types (by decide))
    (covers_cons ?_ (passes_of_types (by decide)) (covers_cons ?_ (passes_of_types (by decide))
    (covers_cons ?_ (passes_of_types (by decide)) (covers_cons ?_ (passes_of_types (by decide))
    (covers_cons ?_ (passes_of_types (by decide)) (covers_cons ?_ (passes_of_types (by decide))
    (covers_cons ?_ (passes_of_types (by decide)) (covers_cons ?_ (passes_of_types (by decide))
    ⟨.nil,.nil⟩))))))))))))
  · refine go.reads_number (fun h => (Bool.and_eq_true_iff.mp h).1) ⟨fun h => h.1 rfl,fun h => ?_⟩
    exact ⟨fun _ => h,fun heq => by cases heq⟩
  · exact go.reads_of_accepts (fun h => (Bool.and_eq_true_iff.mp h).1) rfl (by decide) (by decide)
      (by decide) (accepts_checkLong _)
  · exact go.reads_of_accepts (fun h => h) rfl (by decide) (by decide) (by decide)
      (accepts_checkShort (by decide) (by decide))
  · intro htypes
    have hrest := (List.forall₂_cons.mp (List.forall₂_cons.mp htypes).2).2
    refine List.forall_mem_cons.mpr ⟨passes_of_not fun h => ?_,List.forall_mem_cons.mpr
      ⟨passes_of_not fun h => ?_,passes_of_types (by decide) hrest⟩⟩
    · simp only [Bool.and_eq_true,Bool.not_eq_true'] at h
      exact h.1
    · simp only [Bool.and_eq_true,Bool.not_eq_true'] at h
      exact h.1.1
  · exact go.reads_of_accepts (fun h => h) rfl (by decide) (by decide) (by decide)
      (accepts_pair (accepts_checkShort (by decide) (by decide)) (accepts_checkChar _))
  · intro htypes
    have hrest := (List.forall₂_cons.mp htypes).2
    refine List.forall_mem_cons.mpr ⟨passes_of_not fun h => ?_,passes_of_types (by decide) hrest⟩
    simp only [Bool.and_eq_true,Bool.not_eq_true'] at h
    rw [h.1.2,Bool.and_false]
  · exact go.reads_of_accepts (fun h => h) rfl (by decide) (by decide) (by decide)
      (accepts_checkShort (by decide) (by decide))
  · exact go.reads_of_accepts (fun h => h) rfl (by decide) (by decide) (by decide)
      (accepts_pair (accepts_checkShort (by decide) (by decide)) (accepts_checkLong _))
  · exact go.reads_of_accepts (fun h => h) rfl (by decide) (by decide) (by decide)
      (accepts_checkChar _)
  · exact go.reads_of_accepts (fun h => h) rfl (by decide) (by decide) (by decide)
      (accepts_checkLong _)
  · exact go.reads_of_accepts (fun h => h) rfl (by decide) (by decide) (by decide) accepts_some
  · exact go.reads_of_accepts (fun h => h) rfl (by decide) (by decide) (by decide) accepts_some
  · refine go.reads_number (fun h => h) ⟨fun h => h.2 rfl,fun h => ?_⟩
    exact ⟨fun heq => absurd (Option.some.inj heq) (by decide),fun _ => h⟩
  · exact go.reads_of_accepts (fun h => h) rfl (by decide) (by decide) (by decide) accepts_some
  · exact go.reads_of_accepts (fun h => h) (cilen_endpoint go.endpoint) hle (by decide) (by decide)
      (accepts_pair (accepts_checkChar _) (accepts_checkBytes _))

end LcpOptions

namespace LcpOptions

variable (go : LcpOptions)

theorem isBlock_requests : ∀ b∈go.requests,b≠[] → IsBlock b := by
  have hlast := go.endpoint.length_le
  have hle : cilenChar+go.endpoint.length<256 := by
    rw [maxEndpLen] at hlast
    rw [cilenChar]
    omega
  simp only [requests,List.forall_mem_cons]
  exact ⟨isBlock_addCi rfl (by decide),isBlock_addCi rfl (by decide),
    isBlock_addCi rfl (by decide),isBlock_addCi rfl (by decide),isBlock_addCi rfl (by decide),
    isBlock_addCi rfl (by decide),isBlock_addCi rfl (by decide),isBlock_addCi rfl (by decide),
    isBlock_addCi rfl (by decide),isBlock_addCi rfl (by decide),isBlock_addCi rfl (by decide),
    isBlock_addCi rfl (by decide),isBlock_addCi (cilen_endpoint go.endpoint) hle,
    fun b hb => absurd hb List.not_mem_nil⟩

/-- The options of a request are found again in its bytes. -/
theorem split_addci : split go.addci=go.requests.filter (·≠[]) := by
  rw [addci,← flatten_filter]
  refine split_flatten fun b hb => ?_
  obtain ⟨hin,hne⟩ := List.mem_filter.mp hb
  exact go.isBlock_requests b hin (by simpa using hne)

/-- The options after a rejection of a selection of those that were written. -/
def rejected (sel : List (List UInt8)) : LcpOptions := applied go.rejections go.requests sel go

/-- A flag that no rejection sets stays clear. -/
def Cleared (flag : LcpOptions → Bool) : Prop :=
  ∀ r∈go.rejections,∀ tried,flag tried=false → flag (r.apply tried)=false

variable {go} {sel : List (List UInt8)}

/-- A selected option has its flag cleared. -/
theorem flag_rejected {flag : LcpOptions → Bool} {r : Reader LcpOptions} {b : List UInt8}
    (hkeep : go.Cleared flag) (hin : (r,b)∈go.rejections.zip go.requests) (hsel : b∈sel)
    (hoff : ∀ tried,flag (r.apply tried)=false) : flag (go.rejected sel)=false :=
  applied_off hkeep (Or.inl ⟨r,b,hin,hsel,hoff⟩)

/-- A flag that is clear stays clear. -/
theorem flag_rejected_of_clear {flag : LcpOptions → Bool} (hkeep : go.Cleared flag)
    (hclear : flag go=false) : flag (go.rejected sel)=false := applied_off hkeep (Or.inr hclear)

/-- A rejected authentication protocol is not asked for again. -/
theorem auth_not_mem {b : List UInt8} (hne : b≠[]) (hsel : b∈sel)
    (hauth : b=addCiShort ciAuthtype go.negEap pppEap ∨
      b=addCiChap ciAuthtype (!go.negEap && go.negChap) go.chapMdtype ∨
      b=addCiShort ciAuthtype (!go.negEap && !go.negChap && go.negUpap) pppPap) :
    b∉(go.rejected sel).requests := by
  have hkeepEap : go.Cleared negEap := by simp [Cleared,rejections]
  have hkeepChap : go.Cleared negChap := by simp [Cleared,rejections]
  have hkeepUpap : go.Cleared negUpap := by simp [Cleared,rejections]
  have hof : ofType (go.rejected sel).requests types ciAuthtype=
      [addCiShort ciAuthtype (go.rejected sel).negEap pppEap,
        addCiChap ciAuthtype (!(go.rejected sel).negEap && (go.rejected sel).negChap)
          (go.rejected sel).chapMdtype,
        addCiShort ciAuthtype
          (!(go.rejected sel).negEap && !(go.rejected sel).negChap && (go.rejected sel).negUpap)
          pppPap] := rfl
  have hnone : (go.rejected sel).negEap=false → (go.rejected sel).negChap=false →
      (go.rejected sel).negUpap=false → b.head?=some ciAuthtype → b∉(go.rejected sel).requests := by
    intro heap hchap hupap hhead
    refine (covers_requests _).2.not_mem hne hhead fun b' hb' heq => hne ?_
    rw [hof,heap,hchap,hupap] at hb'
    rw [← heq]
    rcases List.mem_cons.mp hb' with rfl | hb'
    · rfl
    · rcases List.mem_cons.mp hb' with rfl | hb'
      · rfl
      · rw [List.mem_singleton.mp hb']
        rfl
  rcases hauth with rfl | rfl | rfl
  · have hhead := head_addCi hne
    have heap : (go.rejected sel).negEap=false :=
      flag_rejected hkeepEap (List.mem_of_getElem? (i := 2) rfl) hsel fun _ => rfl
    refine (covers_requests _).2.not_mem hne hhead fun b' hb' => ?_
    rw [hof,heap] at hb'
    cases hasked : go.negEap with
    | false =>
      rw [hasked] at hne
      exact absurd rfl hne
    | true =>
      rcases List.mem_cons.mp hb' with rfl | hb'
      · exact (List.cons_ne_nil _ _).symm
      · rcases List.mem_cons.mp hb' with rfl | hb'
        · cases (!false && (go.rejected sel).negChap) with
          | false => exact (List.cons_ne_nil _ _).symm
          | true =>
            intro heq
            exact absurd (List.cons.inj (List.cons.inj heq).2).1 (by decide)
        · rw [List.mem_singleton.mp hb']
          cases (!false && !(go.rejected sel).negChap && (go.rejected sel).negUpap) with
          | false => exact (List.cons_ne_nil _ _).symm
          | true => decide
  · have hhead := head_addCi hne
    have hreader : ∀ flag : LcpOptions → Bool,go.Cleared flag → (∀ tried : LcpOptions,flag { tried with
        negChap := false, negEap := false, negUpap := false }=false) →
        flag (go.rejected sel)=false := fun flag hkeep hoff =>
      flag_rejected hkeep (List.mem_of_getElem? (i := 3) rfl) hsel hoff
    exact hnone (hreader _ hkeepEap fun _ => rfl) (hreader _ hkeepChap fun _ => rfl)
      (hreader _ hkeepUpap fun _ => rfl) hhead
  · have hhead := head_addCi hne
    have hasked : (!go.negEap && !go.negChap && go.negUpap)=true := by
      by_contra hnot
      rw [Bool.not_eq_true] at hnot
      rw [hnot] at hne
      exact hne rfl
    simp only [Bool.and_eq_true,Bool.not_eq_true'] at hasked
    exact hnone (flag_rejected_of_clear hkeepEap hasked.1.1)
      (flag_rejected_of_clear hkeepChap hasked.1.2)
      (flag_rejected hkeepUpap (List.mem_of_getElem? (i := 4) rfl) hsel fun _ => rfl) hhead

/-- A rejected option is not asked for again. -/
theorem rejected_not_mem {b : List UInt8} (hin : b∈go.requests) (hne : b≠[]) (hsel : b∈sel) :
    b∉(go.rejected sel).requests := by
  have hflag : ∀ (flag : LcpOptions → Bool) (r : Reader LcpOptions),go.Cleared flag →
      (r,b)∈go.rejections.zip go.requests → (∀ tried,flag (r.apply tried)=false) →
      flag (go.rejected sel)=false := fun flag r hkeep hzip hoff =>
    flag_rejected hkeep hzip hsel hoff
  simp only [requests,List.mem_cons,List.not_mem_nil,or_false] at hin
  rcases hin with h | h | h | h | h | h | h | h | h | h | h | h | h
  · subst h
    have hoff := hflag negMru _ (by simp [Cleared,rejections]) (List.mem_of_getElem? (i := 0) rfl)
      fun _ => rfl
    refine not_mem_of_not_asked (covers_requests _).2 hne (head_addCi hne) rfl ?_
    rw [asksMru,hoff,Bool.false_and]
  · subst h
    have hoff := hflag negAsyncmap _ (by simp [Cleared,rejections])
      (List.mem_of_getElem? (i := 1) rfl) fun _ => rfl
    refine not_mem_of_not_asked (covers_requests _).2 hne (head_addCi hne) rfl ?_
    rw [asksAsyncmap,hoff,Bool.false_and]
  · exact auth_not_mem hne hsel (Or.inl h)
  · exact auth_not_mem hne hsel (Or.inr (Or.inl h))
  · exact auth_not_mem hne hsel (Or.inr (Or.inr h))
  · subst h
    exact not_mem_of_not_asked (covers_requests _).2 hne (head_addCi hne) rfl (hflag negLqr _
      (by simp [Cleared,rejections]) (List.mem_of_getElem? (i := 5) rfl) fun _ => rfl)
  · subst h
    exact not_mem_of_not_asked (covers_requests _).2 hne (head_addCi hne) rfl (hflag negCbcp _
      (by simp [Cleared,rejections]) (List.mem_of_getElem? (i := 6) rfl) fun _ => rfl)
  · subst h
    exact not_mem_of_not_asked (covers_requests _).2 hne (head_addCi hne) rfl (hflag negMagicnumber _
      (by simp [Cleared,rejections]) (List.mem_of_getElem? (i := 7) rfl) fun _ => rfl)
  · subst h
    exact not_mem_of_not_asked (covers_requests _).2 hne (head_addCi hne) rfl (hflag negPcompression _
      (by simp [Cleared,rejections]) (List.mem_of_getElem? (i := 8) rfl) fun _ => rfl)
  · subst h
    exact not_mem_of_not_asked (covers_requests _).2 hne (head_addCi hne) rfl (hflag negAccompression _
      (by simp [Cleared,rejections]) (List.mem_of_getElem? (i := 9) rfl) fun _ => rfl)
  · subst h
    exact not_mem_of_not_asked (covers_requests _).2 hne (head_addCi hne) rfl (hflag negMrru _
      (by simp [Cleared,rejections]) (List.mem_of_getElem? (i := 10) rfl) fun _ => rfl)
  · subst h
    exact not_mem_of_not_asked (covers_requests _).2 hne (head_addCi hne) rfl (hflag negSsnhf _
      (by simp [Cleared,rejections]) (List.mem_of_getElem? (i := 11) rfl) fun _ => rfl)
  · subst h
    exact not_mem_of_not_asked (covers_requests _).2 hne (head_addCi hne) rfl (hflag negEndpoint _
      (by simp [Cleared,rejections]) (List.mem_of_getElem? (i := 12) rfl) fun _ => rfl)

/-- What a rejection is for: it is accepted, and the next request has none of the rejected
options. -/
def RejectsOut (go : LcpOptions) (sel : List (List UInt8)) : Prop :=
  ∃ go',go.rejci false sel.flatten=(true,go') ∧ ∀ option∈sel,option∉split go'.addci

/-- A selection of the options that were written is rejected for good exactly if its numbers
fit. -/
theorem rejectsOut_iff (hsel : sel.Sublist (split go.addci)) :
    go.RejectsOut sel ↔ ∀ option∈sel,go.RejectFits option := by
  rw [split_addci] at hsel
  obtain ⟨hcovers,-⟩ := go.covers_requests
  constructor
  · rintro ⟨go',hrej,-⟩
    by_contra hnot
    simp only [not_forall] at hnot
    obtain ⟨option,hin,hbad⟩ := hnot
    rw [rejci,hcovers.run_of_not_fits hsel ⟨option,hin,hbad⟩ go] at hrej
    cases hrej
  · intro hfits
    refine ⟨go.rejected sel,?_,fun option hin => ?_⟩
    · rw [rejci,hcovers.run_of_fits hsel hfits go]
      rfl
    · obtain ⟨hreq,hne⟩ := List.mem_filter.mp (hsel.subset hin)
      rw [split_addci]
      exact fun hagain => rejected_not_mem hreq (by simpa using hne) hin
        (List.mem_filter.mp hagain).1

end LcpOptions

/-! ## The rejections of IPCP -/

namespace IpcpOptions

variable (go : IpcpOptions)

/-- The checks of `ipcp_rejci`, each with what it does to `try`. -/
def rejections : List (Reader IpcpOptions) :=
  [⟨rejCi ciAddrs cilenAddrs go.asksAddrs (checkAll [checkAddr go.ouraddr,checkAddr go.hisaddr]),
      fun tried => { tried with oldAddrs := false }⟩,
    ⟨rejCi ciCompresstype (vjlen go.oldVj) go.negVj go.checkVj,
      fun tried => { tried with negVj := false }⟩,
    ⟨rejCi ciAddr cilenAddr go.negAddr (checkAddr go.ouraddr),
      fun tried => { tried with negAddr := false }⟩,
    ⟨rejCi ciMsDns1 cilenAddr go.reqDns1 (checkAddr go.dnsaddr0),
      fun tried => { tried with reqDns1 := false }⟩,
    ⟨rejCi ciMsDns2 cilenAddr go.reqDns2 (checkAddr go.dnsaddr1),
      fun tried => { tried with reqDns2 := false }⟩,
    ⟨rejCi ciMsWins1 cilenAddr (decide (go.winsaddr0≠0)) (checkAddr go.winsaddr0),
      fun tried => { tried with winsaddr0 := 0 }⟩,
    ⟨rejCi ciMsWins2 cilenAddr (decide (go.winsaddr1≠0)) (checkAddr go.winsaddr1),
      fun tried => { tried with winsaddr1 := 0 }⟩]

/-- `ipcp_rejci`: nothing may be left, and an opened connection keeps its options. -/
def rejci (opened : Bool) (p : List UInt8) : Bool×IpcpOptions :=
  match run go.rejections go p with
  | some (tried,[]) => (true,if opened then go else tried)
  | _ => (false,go)

/-- The numbers of a rejected compression option fit. -/
def RejectFits (option : List UInt8) : Prop := option.head?=some ciCompresstype → go.VjNumbersFit

/-- The types of the options of a request. -/
def types : List UInt8 :=
  [ciAddrs,ciCompresstype,ciAddr,ciMsDns1,ciMsDns2,ciMsWins1,ciMsWins2]

theorem reads_of_accepts {opt : UInt8} {cilen : ℕ} {neg : Bool} {value : List UInt8}
    {check : List UInt8 → Option (List UInt8)} (hlength : cilen=value.length+2)
    (hcilen : cilen<256) (hopt : opt≠ciCompresstype) (h : Accepts check value) :
    Reads go.RejectFits (rejCi opt cilen neg check) (addCi opt cilen neg value) := by
  refine reads_rejCi (fun h => h) hlength hcilen (fun _ => h) fun hbad => absurd (fun heq => ?_) hbad
  exact absurd (Option.some.inj heq) hopt

/-- Each check reads what was written and leaves the later options alone. -/
theorem covers_requests :
    Covers go.RejectFits go.rejections go.requests ∧ HaveTypes go.requests types := by
  refine covers_cons ?_ (passes_of_types (by decide)) (covers_cons ?_ (passes_of_types (by decide))
    (covers_cons ?_ (passes_of_types (by decide)) (covers_cons ?_ (passes_of_types (by decide))
    (covers_cons ?_ (passes_of_types (by decide)) (covers_cons ?_ (passes_of_types (by decide))
    (covers_cons ?_ (passes_of_types (by decide)) ⟨.nil,.nil⟩))))))
  · exact go.reads_of_accepts rfl (by decide) (by decide)
      (accepts_pair (accepts_checkAddr _) (accepts_checkAddr _))
  · exact reads_rejCi (fun h => h) go.vjlen_eq (vjlen_lt _) (fun h => accepts_checkVj (h rfl))
      fun h => refuses_checkVj fun hfit => h fun _ => hfit
  · exact go.reads_of_accepts rfl (by decide) (by decide) (accepts_checkAddr _)
  · exact go.reads_of_accepts rfl (by decide) (by decide) (accepts_checkAddr _)
  · exact go.reads_of_accepts rfl (by decide) (by decide) (accepts_checkAddr _)
  · exact go.reads_of_accepts rfl (by decide) (by decide) (accepts_checkAddr _)
  · exact go.reads_of_accepts rfl (by decide) (by decide) (accepts_checkAddr _)

theorem isBlock_requests : ∀ b∈go.requests,b≠[] → IsBlock b := by
  simp only [requests,List.forall_mem_cons]
  exact ⟨isBlock_addCi rfl (by decide),isBlock_addCi go.vjlen_eq (vjlen_lt _),
    isBlock_addCi rfl (by decide),isBlock_addCi rfl (by decide),isBlock_addCi rfl (by decide),
    isBlock_addCi rfl (by decide),isBlock_addCi rfl (by decide),
    fun b hb => absurd hb List.not_mem_nil⟩

/-- The compression option of a request. -/
def vjRequest : List UInt8 := addCi ciCompresstype (vjlen go.oldVj) go.negVj go.vjValue

end IpcpOptions

/-- Without space for an address nothing is written any more. -/
theorem addAddresses_out {w : Writer} (h : w.len<cilenAddr) : (addAddresses w).out=w.out := by
  have hstep : ∀ opt neg val off (w' : Writer),w'.out=w.out ∧ w'.len<cilenAddr →
      (addCiAddr opt neg val off w').out=w.out ∧ (addCiAddr opt neg val off w').len<cilenAddr := by
    intro opt neg val off w' h
    unfold addCiAddr addItem
    split
    · rw [if_neg (Nat.not_le_of_lt h.2)]
      exact h
    · exact h
  exact (hstep _ _ _ _ _ (hstep _ _ _ _ _ (hstep _ _ _ _ _ (hstep _ _ _ _ _
    (hstep _ _ _ _ _ ⟨rfl,h⟩))))).1

/-- When an address is lost, the compression option is all that is written. -/
theorem out_of_lost {go : IpcpOptions} {lenp : ℕ} (hlost : go.Lost lenp) :
    (go.addci lenp).out=(go.addci lenp).go.vjRequest := by
  have hvj := addCiVj_out go lenp
  have hneg : (addCiVj (addCiAddrs ⟨go,lenp,[]⟩)).go.negAddr=true :=
    (addCiVj_same IpcpOptions.negAddr (fun _ => rfl) _).trans
      ((addCiAddrs_same IpcpOptions.negAddr (fun _ => rfl) _).trans hlost.1)
  have hsame : (go.addci lenp).go.vjRequest=
      (addCiVj (addCiAddrs ⟨go,lenp,[]⟩)).go.vjRequest :=
    addAddresses_same IpcpOptions.vjRequest (fun _ _ _ _ _ _ => rfl) _
  have hspace := (addCiVj_of_lost hlost).1
  unfold IpcpOptions.addci at hsame ⊢
  rw [hsame,addAddresses_out hspace,hvj]
  generalize (addCiVj (addCiAddrs ⟨go,lenp,[]⟩)).go=g at hneg
  change (addCi ciAddrs cilenAddrs g.asksAddrs _++(g.vjRequest++[]))=g.vjRequest
  rw [asksAddrs_of_negAddr hneg,List.append_nil]
  rfl

/-- The options that were written are some of those that are left. -/
theorem split_addci_sublist (go : IpcpOptions) (lenp : ℕ) :
    (split (go.addci lenp).out).Sublist ((go.addci lenp).go.requests.filter (·≠[])) := by
  by_cases hlost : go.Lost lenp
  · rw [out_of_lost hlost]
    by_cases hempty : (go.addci lenp).go.vjRequest=[]
    · rw [hempty,split]
      · exact List.nil_sublist _
      · exact fun _ _ _ heq => by cases heq
    · have hblock : IsBlock (go.addci lenp).go.vjRequest :=
        isBlock_addCi (go.addci lenp).go.vjlen_eq (IpcpOptions.vjlen_lt _) hempty
      have hone : split (go.addci lenp).go.vjRequest=[(go.addci lenp).go.vjRequest] := by
        have hflat := @split_flatten [(go.addci lenp).go.vjRequest]
          (fun b hb => List.mem_singleton.mp hb ▸ hblock)
        rwa [List.flatten_cons,List.flatten_nil,List.append_nil] at hflat
      rw [hone,List.singleton_sublist]
      exact List.mem_filter.mpr ⟨List.mem_cons_of_mem _ List.mem_cons_self,by simpa using hempty⟩
  · rw [addci_out hlost,← flatten_filter,split_flatten fun b hb => ?_]
    obtain ⟨hin,hne⟩ := List.mem_filter.mp hb
    exact (go.addci lenp).go.isBlock_requests b hin (by simpa using hne)

/-- What `ipcp_addci` switches off. -/
def switchOffs : List (IpcpOptions → IpcpOptions) :=
  [fun go => { go with oldAddrs := false },fun go => { go with negVj := false },
    fun go => { go with negAddr := false },fun go => { go with reqDns1 := false },
    fun go => { go with reqDns2 := false },fun go => { go with winsaddr0 := 0 },
    fun go => { go with winsaddr1 := 0 }]

/-- A flag that is clear stays clear in the options that are left. -/
theorem addci_clear {flag : IpcpOptions → Bool} {go : IpcpOptions} (lenp : ℕ)
    (hoff : ∀ off∈switchOffs,∀ go,flag go=false → flag (off go)=false) (h : flag go=false) :
    flag (go.addci lenp).go=false := by
  have hstep : ∀ opt neg cilen value off (w : Writer),off∈switchOffs → flag w.go=false →
      flag (addItem opt neg cilen value off w).go=false := by
    intro opt neg cilen value off w hin hclear
    unfold addItem
    split
    · split
      · exact hclear
      · exact hoff off hin _ hclear
    · exact hclear
  have hmem : ∀ {k : ℕ} {off : IpcpOptions → IpcpOptions},switchOffs[k]?=some off →
      off∈switchOffs := fun hk => List.mem_of_getElem? hk
  exact hstep _ _ _ _ _ _ (hmem (k := 6) rfl) (hstep _ _ _ _ _ _ (hmem (k := 5) rfl)
    (hstep _ _ _ _ _ _ (hmem (k := 4) rfl) (hstep _ _ _ _ _ _ (hmem (k := 3) rfl)
    (hstep _ _ _ _ _ _ (hmem (k := 2) rfl) (hstep _ _ _ _ _ _ (hmem (k := 1) rfl)
    (hstep _ _ _ _ _ _ (hmem (k := 0) rfl) h))))))

namespace IpcpOptions

variable {go : IpcpOptions} {sel : List (List UInt8)}

/-- The options after a rejection of a selection of those that were written. -/
def rejected (go : IpcpOptions) (sel : List (List UInt8)) : IpcpOptions :=
  applied go.rejections go.requests sel go

/-- The options that the next request is made from. -/
def next (go : IpcpOptions) (sel : List (List UInt8)) (wo ho : IpcpOptions) (lenp : ℕ) :
    IpcpOptions :=
  ((settle (go.rejected sel) wo ho).addci lenp).go

/-- A flag that neither a rejection nor the next request sets. -/
structure Cleared (go : IpcpOptions) (flag : IpcpOptions → Bool) : Prop where
  rejections : ∀ r∈go.rejections,∀ tried,flag tried=false → flag (r.apply tried)=false
  settle : ∀ go wo ho,flag go=false → flag (settle go wo ho)=false
  switchOffs : ∀ off∈switchOffs,∀ go,flag go=false → flag (off go)=false

/-- A selected option has its flag cleared, and the next request does not set it. -/
theorem flag_next {flag : IpcpOptions → Bool} {r : Reader IpcpOptions} {b : List UInt8}
    (hkeep : go.Cleared flag) (hin : (r,b)∈go.rejections.zip go.requests) (hsel : b∈sel)
    (hoff : ∀ tried,flag (r.apply tried)=false) (wo ho : IpcpOptions) (lenp : ℕ) :
    flag (go.next sel wo ho lenp)=false :=
  addci_clear lenp hkeep.switchOffs (hkeep.settle _ wo ho
    (applied_off hkeep.rejections (Or.inl ⟨r,b,hin,hsel,hoff⟩)))

/-- A rejected compression option is not asked for again in the same form. -/
theorem vj_not_mem (hne : go.vjRequest≠[]) (hsel : go.vjRequest∈sel) (wo ho : IpcpOptions)
    (lenp : ℕ) : go.vjRequest∉(go.next sel wo ho lenp).requests := by
  have hhead := head_addCi hne
  have hzip : ((⟨rejCi ciCompresstype (vjlen go.oldVj) go.negVj go.checkVj,
      fun tried => { tried with negVj := false }⟩ : Reader IpcpOptions),go.vjRequest)∈
      go.rejections.zip go.requests := List.mem_of_getElem? (i := 1) rfl
  have hneg : (go.rejected sel).negVj=false :=
    applied_off (by simp [rejections]) (Or.inl ⟨_,_,hzip,hsel,fun _ => rfl⟩)
  by_cases hold : go.oldVj=true
  · have hkept : (!(go.rejected sel).oldVj)=false :=
      @applied_off _ _ _ _ _ (fun go : IpcpOptions => !go.oldVj) (by simp [rejections])
        (Or.inr (by rw [hold]; rfl))
    have hsettled : (settle (go.rejected sel) wo ho).negVj=false := by
      rw [settle_eq]
      dsimp only
      rw [takesVj,hneg,hkept,Bool.and_false,Bool.false_and]
      rfl
    exact not_mem_of_not_asked (covers_requests _).2 hne hhead rfl
      (addci_clear lenp (by simp [switchOffs]) hsettled)
  · have hflag : ((go.next sel wo ho lenp).negVj && !(go.next sel wo ho lenp).oldVj)=false := by
      refine @addci_clear (fun go : IpcpOptions => go.negVj && !go.oldVj) _ lenp
        (by simp [switchOffs]) ?_
      rw [settle_eq]
      dsimp only
      rw [hneg,Bool.false_or]
      cases takesVj (go.rejected sel) wo ho with
      | false => rfl
      | true => rw [Bool.or_true]; rfl
    refine (covers_requests _).2.not_mem hne hhead fun b' hb' heq => ?_
    have hb' : b'=(go.next sel wo ho lenp).vjRequest := List.mem_singleton.mp hb'
    rw [hb'] at heq
    have hasked : (go.next sel wo ho lenp).negVj=true := by
      by_contra hnot
      rw [Bool.not_eq_true] at hnot
      refine hne ?_
      rw [← heq,vjRequest,hnot]
      rfl
    rw [hasked,Bool.true_and,Bool.not_eq_false'] at hflag
    have hmine : go.negVj=true := by
      by_contra hnot
      rw [Bool.not_eq_true] at hnot
      refine hne ?_
      rw [vjRequest,hnot]
      rfl
    rw [Bool.not_eq_true] at hold
    rw [vjRequest,vjRequest,hasked,hmine,hflag,hold] at heq
    exact absurd (List.cons.inj (List.cons.inj heq).2).1 (by decide)

/-- A rejected option is not asked for again. -/
theorem rejected_not_mem {b : List UInt8} (hin : b∈go.requests) (hne : b≠[]) (hsel : b∈sel)
    (wo ho : IpcpOptions) (lenp : ℕ) : b∉(go.next sel wo ho lenp).requests := by
  have hflag : ∀ (flag : IpcpOptions → Bool) (r : Reader IpcpOptions),go.Cleared flag →
      (r,b)∈go.rejections.zip go.requests → (∀ tried,flag (r.apply tried)=false) →
      flag (go.next sel wo ho lenp)=false := fun flag r hkeep hzip hoff =>
    flag_next hkeep hzip hsel hoff wo ho lenp
  simp only [requests,List.mem_cons,List.not_mem_nil,or_false] at hin
  rcases hin with h | h | h | h | h | h | h
  · subst h
    have hoff := hflag oldAddrs _ ⟨by simp [rejections],fun go wo ho h => by rw [settle_eq]; exact h,
      by simp [switchOffs]⟩ (List.mem_of_getElem? (i := 0) rfl) fun _ => rfl
    refine not_mem_of_not_asked (covers_requests _).2 hne (head_addCi hne) rfl ?_
    rw [asksAddrs,hoff,Bool.and_false]
  · subst h
    exact vj_not_mem hne hsel wo ho lenp
  · subst h
    exact not_mem_of_not_asked (covers_requests _).2 hne (head_addCi hne) rfl (hflag negAddr _
      ⟨by simp [rejections],fun go wo ho h => by
        rw [settle_eq]
        dsimp only
        rw [keepsAddr,h,Bool.false_and],by simp [switchOffs]⟩
      (List.mem_of_getElem? (i := 2) rfl) fun _ => rfl)
  · subst h
    exact not_mem_of_not_asked (covers_requests _).2 hne (head_addCi hne) rfl (hflag reqDns1 _
      ⟨by simp [rejections],fun go wo ho h => by rw [settle_eq]; exact h,by simp [switchOffs]⟩
      (List.mem_of_getElem? (i := 3) rfl) fun _ => rfl)
  · subst h
    exact not_mem_of_not_asked (covers_requests _).2 hne (head_addCi hne) rfl (hflag reqDns2 _
      ⟨by simp [rejections],fun go wo ho h => by rw [settle_eq]; exact h,by simp [switchOffs]⟩
      (List.mem_of_getElem? (i := 4) rfl) fun _ => rfl)
  · subst h
    exact not_mem_of_not_asked (covers_requests _).2 hne (head_addCi hne) rfl
      (hflag (fun go => decide (go.winsaddr0≠0)) _
      ⟨by simp [rejections],fun go wo ho h => by rw [settle_eq]; exact h,by simp [switchOffs]⟩
      (List.mem_of_getElem? (i := 5) rfl) fun _ => rfl)
  · subst h
    exact not_mem_of_not_asked (covers_requests _).2 hne (head_addCi hne) rfl
      (hflag (fun go => decide (go.winsaddr1≠0)) _
      ⟨by simp [rejections],fun go wo ho h => by rw [settle_eq]; exact h,by simp [switchOffs]⟩
      (List.mem_of_getElem? (i := 6) rfl) fun _ => rfl)

/-- What a rejection is for: it is accepted, and the next request, whatever the options of the
peer and the space are then, has none of the rejected options. -/
def RejectsOut (go : IpcpOptions) (sel : List (List UInt8)) : Prop :=
  ∃ go',go.rejci false sel.flatten=(true,go') ∧ ∀ (wo ho : IpcpOptions) (lenp : ℕ),
    ∀ option∈sel,option∉split ((settle go' wo ho).addci lenp).out

/-- A selection of the options that were written is rejected for good exactly if the numbers of
the compression option fit when it is among them. -/
theorem rejectsOut_iff {lenp : ℕ} (hsel : sel.Sublist (split (go.addci lenp).out)) :
    (go.addci lenp).go.RejectsOut sel ↔ ∀ option∈sel,(go.addci lenp).go.RejectFits option := by
  replace hsel := hsel.trans (split_addci_sublist go lenp)
  generalize (go.addci lenp).go=g at hsel
  obtain ⟨hcovers,-⟩ := g.covers_requests
  constructor
  · rintro ⟨go',hrej,-⟩
    by_contra hnot
    simp only [not_forall] at hnot
    obtain ⟨option,hin,hbad⟩ := hnot
    rw [rejci,hcovers.run_of_not_fits hsel ⟨option,hin,hbad⟩ g] at hrej
    cases hrej
  · intro hfits
    refine ⟨g.rejected sel,?_,fun wo ho lenp' option hin hagain => ?_⟩
    · rw [rejci,hcovers.run_of_fits hsel hfits g]
      rfl
    · obtain ⟨hreq,hne⟩ := List.mem_filter.mp (hsel.subset hin)
      have hwritten := (split_addci_sublist _ lenp').subset hagain
      exact rejected_not_mem hreq (by simpa using hne) hin wo ho lenp'
        (List.mem_filter.mp hwritten).1

end IpcpOptions

/-- In both protocols a selection of the options that were written is rejected, and stays out of
the next request, exactly if the numbers among them fit in the bytes that they were written
in. -/
theorem rejected_options_stay_out (lcp : LcpOptions) (ipcp : IpcpOptions) (lenp : ℕ)
    (sel : List (List UInt8)) :
    (sel≠[] → sel.Sublist (split lcp.addci) →
      (lcp.RejectsOut sel ↔ ∀ option∈sel,lcp.RejectFits option)) ∧
    (sel≠[] → sel.Sublist (split (ipcp.addci lenp).out) →
      ((ipcp.addci lenp).go.RejectsOut sel ↔
        ∀ option∈sel,(ipcp.addci lenp).go.RejectFits option)) :=
  ⟨fun _ hsel => LcpOptions.rejectsOut_iff hsel,fun _ hsel => IpcpOptions.rejectsOut_iff hsel⟩

/-- Nothing is asked for, except for an MRU of 1400. -/
def smallMru : LcpOptions := { largeMru with mru := 1400 }

/-- The compression in its new form and the old form of the addresses. -/
def compressed : IpcpOptions :=
  ⟨false,true,true,false,false,false,0x2d,15,1,0x0100007f,0x0200007f,0,0,0,0⟩

/-- An MRU of 1400 is rejected, and so is the compression option of a request with two
options. -/
theorem rejected_options_stay_out_small : smallMru.RejectsOut [[1,4,5,0x78]] ∧
    (compressed.addci 20).go.RejectsOut [[2,6,0,0x2d,15,1]] := by
  constructor
  · refine ((rejected_options_stay_out smallMru compressed 20 [[1,4,5,0x78]]).1
      (List.cons_ne_nil _ _) ?_).mpr fun option hin => ?_
    · decide +kernel
    · rw [List.mem_singleton.mp hin]
      exact ⟨fun _ => by decide,fun _ => by decide⟩
  · refine ((rejected_options_stay_out smallMru compressed 20 [[2,6,0,0x2d,15,1]]).2
      (List.cons_ne_nil _ _) ?_).mpr fun option hin => ?_
    · decide +kernel
    · exact fun _ => ⟨by decide,fun _ => by decide⟩

/-- An MRU of 70000 is written as 4464, and the rejection of exactly these bytes is refused. -/
theorem not_rejects_large_mru : [[1,4,0x11,0x70]].Sublist (split largeMru.addci) ∧
    largeMru.rejci false [1,4,0x11,0x70]=(false,largeMru) ∧
    ¬largeMru.RejectsOut [[1,4,0x11,0x70]] := by
  have hwritten : [[1,4,0x11,0x70]].Sublist (split largeMru.addci) := by decide +kernel
  have hrefused : largeMru.rejci false [1,4,0x11,0x70]=(false,largeMru) := rfl
  refine ⟨hwritten,hrefused,?_⟩
  rintro ⟨go',hrej,-⟩
  have hsame : [[1,4,0x11,0x70]].flatten=([1,4,0x11,0x70] : List UInt8) := rfl
  rw [hsame,hrefused] at hrej
  cases hrej

end AndroidPlatform.PppOptions
