import AndroidPlatform.DhcpReplyOptions
import AndroidPlatform.DhcpServer

/-!
# The times of a lease

`dhcp_reply` puts the lease time into an offer and into an acknowledgement, and for a finite
one the two times at which the client is to renew and to rebind. All of them are computed in
32 bits.
-/

namespace AndroidPlatform.DhcpLeaseTimes

open DhcpReplyOptions DhcpServer

/-! ## The replies -/

/-- `OPTION_LEASE_TIME` -/
def optionLeaseTime : UInt8 := 51

/-- `OPTION_MESSAGE_TYPE` -/
def optionMessageType : UInt8 := 53

/-- `OPTION_SERVER_IDENTIFIER` -/
def optionServerIdentifier : UInt8 := 54

/-- `OPTION_T1` -/
def optionT1 : UInt8 := 58

/-- `OPTION_T2` -/
def optionT2 : UInt8 := 59

/-- The lease time that does not end. -/
def infinite : UInt32 := 0xffffffff

/-- The lease time of the host, or that of the context. -/
def configuredTime (contextTime : UInt32) (config : Option HostConfig) : UInt32 :=
  (config.bind HostConfig.leaseTime).getD contextTime

/-- `calc_time`, for the value of the lease time option of the request. -/
def calcTime (contextTime : UInt32) (config : Option HostConfig) (opt : Option UInt32) : UInt32 :=
  let time := configuredTime contextTime config
  match opt with
  | none => time
  | some reqTime =>
    let reqTime := if reqTime<120 then 120 else reqTime
    if time=infinite ∨ reqTime≠infinite ∧ reqTime<time then reqTime else time

/-- The options of an offer up to those of the configuration. -/
def offerCalls (time serverId : UInt32) : List Call :=
  [.optionPut optionMessageType 1 2,.optionPut optionServerIdentifier 4 serverId.toNat,
    .optionPut optionLeaseTime 4 time.toNat]++
  if time≠infinite then
    [.optionPut optionT1 4 (time/2).toNat,.optionPut optionT2 4 ((time*7)/8).toNat]
  else []

theorem half_lt {fuzz : UInt16} {time : UInt32} (h : time/16 < fuzz.toUInt32) :
    (fuzz/2).toNat<fuzz.toNat := by
  have hlt : (time/16).toNat<fuzz.toUInt32.toNat := UInt32.lt_iff_toNat_lt.mp h
  rw [UInt16.toNat_toUInt32] at hlt
  have htwo : (2 : UInt16).toNat=2 := rfl
  rw [UInt16.toNat_div,htwo]
  omega

/-- The loop that makes `fuzz` no greater than a part of the time. -/
def fuzzLoop (time : UInt32) (fuzz : UInt16) : UInt16 :=
  if time/16 < fuzz.toUInt32 then fuzzLoop time (fuzz/2) else fuzz
termination_by fuzz.toNat
decreasing_by exact half_lt (by assumption)

/-- The options of an acknowledgement up to those of the configuration. -/
def ackCalls (time serverId : UInt32) (fuzz : UInt16) : List Call :=
  [.optionPut optionMessageType 1 5,.optionPut optionServerIdentifier 4 serverId.toNat,
    .optionPut optionLeaseTime 4 time.toNat]++
  if time≠infinite then
    let fuzz := (fuzzLoop time fuzz).toUInt32
    [.optionPut optionT1 4 (time/2-fuzz).toNat,.optionPut optionT2 4 ((time/8)*7-fuzz).toNat]
  else []

/-! ## What is encoded -/

/-- The number that bytes in network order stand for. -/
def decoded (bytes : List UInt8) : ℕ := bytes.foldl (fun n b => 256*n+b.toNat) 0

/-- The value of the first option of four bytes with the code. -/
def encoded (opt : UInt8) : List Call → Option ℕ
  | [] => none
  | .optionPut code 4 val::calls =>
    if code=opt then some (decoded (Mess.valBytes 4 val)) else encoded opt calls
  | _::calls => encoded opt calls

/-- The encoded times are in order, and none is greater than the lease time. -/
def TimesRight (time : UInt32) (calls : List Call) : Prop :=
  ∃ t1 t2, encoded optionT1 calls=some t1 ∧ encoded optionT2 calls=some t2 ∧ t1≤t2 ∧
    t2≤time.toNat

/-- Four bytes hold a number of 32 bits. -/
theorem decoded_valBytes {val : ℕ} (h : val<2^32) : decoded (Mess.valBytes 4 val)=val := by
  have hbytes : Mess.valBytes 4 val=
      [UInt8.ofNat (val/2^24),UInt8.ofNat (val/2^16),UInt8.ofNat (val/2^8),UInt8.ofNat (val/2^0)] :=
    rfl
  rw [hbytes]
  simp only [decoded,List.foldl,UInt8.toNat_ofNat']
  omega

theorem encoded_cons {opt code : UInt8} {len val : ℕ} {calls : List Call} (h : code≠opt) :
    encoded opt (.optionPut code len val::calls)=encoded opt calls := by
  by_cases hlen : len=4
  · subst hlen
    rw [encoded,if_neg h]
  · rw [encoded]
    intro code' val' hcall
    cases hcall
    exact hlen rfl

/-! ## The granted time -/

/-- The time that the request asks for: nothing below two minutes. -/
def askedTime (configured : UInt32) : Option UInt32 → ℕ
  | none => configured.toNat
  | some reqTime => max 120 reqTime.toNat

/-- The granted time is the shorter one of the configured time and of the asked time. -/
theorem toNat_calcTime (contextTime : UInt32) (config : Option HostConfig) (opt : Option UInt32) :
    (calcTime contextTime config opt).toNat=
      min (configuredTime contextTime config).toNat
        (askedTime (configuredTime contextTime config) opt) := by
  unfold calcTime
  cases opt with
  | none => exact (Nat.min_self _).symm
  | some reqTime =>
    generalize configuredTime contextTime config=time
    have hinf : infinite.toNat=4294967295 := rfl
    have htime : time.toNat<4294967296 := time.toNat_lt
    have hasked : (if reqTime<120 then 120 else reqTime).toNat=max 120 reqTime.toNat := by
      by_cases h : reqTime<120
      · have hlt := UInt32.lt_iff_toNat_lt.mp h
        rw [if_pos h]
        exact (Nat.max_eq_left (Nat.le_of_lt hlt)).symm
      · have hle := Nat.le_of_not_lt fun hlt => h (UInt32.lt_iff_toNat_lt.mpr hlt)
        rw [if_neg h]
        exact (Nat.max_eq_right hle).symm
    simp only [askedTime,← hasked]
    generalize (if reqTime<120 then 120 else reqTime)=asked
    have haskedlt : asked.toNat<4294967296 := asked.toNat_lt
    simp only [← UInt32.toNat_inj,UInt32.lt_iff_toNat_lt,ne_eq]
    split <;> omega

/-- The granted time is not above the configured one. -/
theorem calcTime_le (contextTime : UInt32) (config : Option HostConfig) (opt : Option UInt32) :
    calcTime contextTime config opt≤configuredTime contextTime config := by
  rw [UInt32.le_iff_toNat_le,toNat_calcTime]
  exact Nat.min_le_left _ _

/-! ## The offer -/

/-- The times of an offer are right exactly when the product for the second one is not above
32 bits. -/
theorem offer_right_iff {time : UInt32} (serverId : UInt32) (h : time≠infinite) :
    TimesRight time (offerCalls time serverId) ↔ 7*time.toNat<2^32 := by
  have htime : time.toNat<2^32 := time.toNat_lt
  have ht1 : encoded optionT1 (offerCalls time serverId)=some (time.toNat/2) := by
    rw [offerCalls,if_pos h]
    simp only [List.cons_append,List.nil_append]
    rw [encoded_cons (by decide),encoded_cons (by decide),encoded_cons (by decide),encoded,
      if_pos rfl,decoded_valBytes (UInt32.toNat_lt _),UInt32.toNat_div]
    rfl
  have ht2 : encoded optionT2 (offerCalls time serverId)=some (time.toNat*7%2^32/8) := by
    rw [offerCalls,if_pos h]
    simp only [List.cons_append,List.nil_append]
    rw [encoded_cons (by decide),encoded_cons (by decide),encoded_cons (by decide),
      encoded_cons (by decide),encoded,if_pos rfl,decoded_valBytes (UInt32.toNat_lt _),
      UInt32.toNat_div,UInt32.toNat_mul]
    rfl
  constructor
  · rintro ⟨t1,t2,h1,h2,hle,hmax⟩
    rw [ht1,Option.some.injEq] at h1
    rw [ht2,Option.some.injEq] at h2
    have hdiv := Nat.mod_add_div (time.toNat*7) (2^32)
    by_contra hlarge
    have hover : 0<time.toNat*7/2^32 := Nat.div_pos (by omega) (by decide)
    omega
  · intro hsmall
    rw [Nat.mod_eq_of_lt (by omega)] at ht2
    exact ⟨_,_,ht1,ht2,by omega,by omega⟩

/-! ## The acknowledgement -/

/-- The loop ends with a part of the time. -/
theorem fuzzLoop_le (time : UInt32) (fuzz : UInt16) :
    (fuzzLoop time fuzz).toNat≤time.toNat/16 := by
  fun_induction fuzzLoop time fuzz with
  | case1 fuzz h ih => exact ih
  | case2 fuzz h =>
    have hle : ¬(time/16).toNat<fuzz.toUInt32.toNat := fun hlt => h (UInt32.lt_iff_toNat_lt.mpr hlt)
    rw [UInt16.toNat_toUInt32,UInt32.toNat_div] at hle
    exact Nat.le_of_not_lt hle

/-- The times of an acknowledgement are right when it is for two minutes or more. -/
theorem ack_right {time : UInt32} (serverId : UInt32) (fuzz : UInt16) (hmin : 120≤time)
    (h : time≠infinite) : TimesRight time (ackCalls time serverId fuzz) := by
  have hlow : 120≤time.toNat := UInt32.le_iff_toNat_le.mp hmin
  have htime : time.toNat<2^32 := time.toNat_lt
  have hfuzz := fuzzLoop_le time fuzz
  set f := fuzzLoop time fuzz with hf
  have hhalf : (time/2).toNat=time.toNat/2 := UInt32.toNat_div _ _
  have hpart : ((time/8)*7).toNat=time.toNat/8*7 := by
    rw [UInt32.toNat_mul,UInt32.toNat_div]
    have height : (8 : UInt32).toNat=8 := rfl
    have hseven : (7 : UInt32).toNat=7 := rfl
    rw [height,hseven]
    omega
  have hfirst : (time/2-f.toUInt32).toNat=time.toNat/2-f.toNat := by
    rw [UInt32.toNat_sub_of_le _ _ (UInt32.le_iff_toNat_le.mpr (by
      rw [UInt16.toNat_toUInt32,hhalf]; omega)),UInt16.toNat_toUInt32,hhalf]
  have hsecond : ((time/8)*7-f.toUInt32).toNat=time.toNat/8*7-f.toNat := by
    rw [UInt32.toNat_sub_of_le _ _ (UInt32.le_iff_toNat_le.mpr (by
      rw [UInt16.toNat_toUInt32,hpart]; omega)),UInt16.toNat_toUInt32,hpart]
  refine ⟨time.toNat/2-f.toNat,time.toNat/8*7-f.toNat,?_,?_,by omega,by omega⟩
  · rw [ackCalls,if_pos h]
    simp only [List.cons_append,List.nil_append]
    rw [encoded_cons (by decide),encoded_cons (by decide),encoded_cons (by decide),encoded,
      if_pos rfl,decoded_valBytes (UInt32.toNat_lt _),← hf,hfirst]
  · rw [ackCalls,if_pos h]
    simp only [List.cons_append,List.nil_append]
    rw [encoded_cons (by decide),encoded_cons (by decide),encoded_cons (by decide),
      encoded_cons (by decide),encoded,if_pos rfl,decoded_valBytes (UInt32.toNat_lt _),← hf,hsecond]

/-! ## Both replies -/

/-- The configured time is two minutes or more when that of the context is and that of the
host. -/
theorem le_configuredTime {contextTime : UInt32} {config : Option HostConfig}
    (hcontext : 120≤contextTime)
    (hhost : ∀ host∈config,∀ time∈host.leaseTime,120≤time) :
    120≤configuredTime contextTime config := by
  unfold configuredTime
  cases hc : config.bind HostConfig.leaseTime with
  | none => exact hcontext
  | some time =>
    obtain ⟨host,hin,htime⟩ := Option.bind_eq_some_iff.mp hc
    exact hhost host hin time htime

/-- Both replies have right times and no more than the configured time exactly when the time
they grant does not end or seven times of it fit into 32 bits. -/
theorem times_right_iff (contextTime : UInt32) (config : Option HostConfig)
    (opt : Option UInt32) (serverId : UInt32) (fuzz : UInt16) (hcontext : 120≤contextTime)
    (hhost : ∀ host∈config,∀ time∈host.leaseTime,120≤time) :
    let time := calcTime contextTime config opt
    let configured := configuredTime contextTime config
    let granted := min configured.toNat (askedTime configured opt)
    ((time≠infinite → TimesRight time (offerCalls time serverId) ∧
        TimesRight time (ackCalls time serverId fuzz)) ∧ time≤configured) ↔
      granted=2^32-1 ∨ 7*granted<2^32 := by
  intro time configured granted
  have hgranted : time.toNat=granted := toNat_calcTime contextTime config opt
  have hconf : 120≤configured.toNat :=
    UInt32.le_iff_toNat_le.mp (le_configuredTime hcontext hhost)
  have hasked : 120≤askedTime configured opt := by
    cases opt with
    | none => exact hconf
    | some reqTime => exact Nat.le_max_left _ _
  have hlow : 120≤time :=
    UInt32.le_iff_toNat_le.mpr (hgranted ▸ Nat.le_min.mpr ⟨hconf,hasked⟩)
  have hinf : time=infinite ↔ granted=2^32-1 := by
    rw [← hgranted,← UInt32.toNat_inj]
    rfl
  rw [and_iff_left (calcTime_le contextTime config opt),← hinf,← hgranted]
  constructor
  · intro h
    by_cases ht : time=infinite
    · exact Or.inl ht
    · exact Or.inr ((offer_right_iff serverId ht).mp (h ht).1)
  · rintro h ht
    exact ⟨(offer_right_iff serverId ht).mpr (h.resolve_left ht),ack_right serverId fuzz hlow ht⟩

/-- An hour is asked of a context that grants a day. -/
theorem times_right_hour :
    (calcTime 86400 none (some 3600)≠infinite →
        TimesRight (calcTime 86400 none (some 3600)) (offerCalls (calcTime 86400 none (some 3600)) 1) ∧
        TimesRight (calcTime 86400 none (some 3600))
          (ackCalls (calcTime 86400 none (some 3600)) 1 1000)) ∧
      calcTime 86400 none (some 3600)≤configuredTime 86400 none :=
  (times_right_iff 86400 none (some 3600) 1 1000 (by decide) (by simp)).mpr (Or.inr (by decide))

/-- A finite time of the context for which an offer tells the client to rebind before it
renews. -/
theorem not_times_right : ∃ (contextTime : UInt32) (config : Option HostConfig)
    (opt : Option UInt32) (serverId : UInt32), 120≤contextTime ∧
      (∀ host∈config,∀ time∈host.leaseTime,120≤time) ∧
      calcTime contextTime config opt≠infinite ∧
      ¬TimesRight (calcTime contextTime config opt)
        (offerCalls (calcTime contextTime config opt) serverId) := by
  refine ⟨700000000,none,none,1,by decide,by simp,by decide,?_⟩
  rw [offer_right_iff 1 (by decide)]
  decide

end AndroidPlatform.DhcpLeaseTimes
