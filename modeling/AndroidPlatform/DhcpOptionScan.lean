import AndroidPlatform.DhcpPacket
import Mathlib.Data.List.Induction

/-!
# What the option scan of the DHCP client decodes

`decode_dhcp_msg` moves a pointer and a length counter side by side. Here its
result is compared with a plain grammar of the option area, and its reads with
the length it was given. The one difference to the grammar is an empty message
type option: its value is read without a look at its length, so the byte behind
it is taken for the type.
-/

namespace AndroidPlatform.DhcpOptionScan

open WireBytes DhcpMessage

/-- An option of the area, with everything from its value to the end. -/
structure ScannedOption where
  /-- The option code. -/
  tag : UInt8
  /-- The declared length. -/
  length : ℕ
  /-- The bytes from the value to the end of the area. -/
  rest : List UInt8
  deriving DecidableEq

/-- The value of an option. -/
def ScannedOption.value (o : ScannedOption) : List UInt8 := o.rest.take o.length

/-- The options of the longest well-formed part at the start of an area: pads
are skipped, and the end mark or an option that does not fit ends it. -/
def parseOptions (area : List UInt8) : List ScannedOption :=
  match area with
  | [] => []
  | tag::tail =>
    if tag=optPad then parseOptions tail
    else if tag=optEnd then []
    else
      match tail with
      | [] => []
      | len::body =>
        if body.length<len.toNat then []
        else ⟨tag,len.toNat,body⟩::parseOptions (body.drop len.toNat)
termination_by area.length
decreasing_by
  · simp only [List.length_cons]
    omega
  · simp only [List.length_cons,List.length_drop]
    omega

/-- What one option says about the record: a value shorter than its field
says nothing. -/
def applyOption (info : DhcpInfo) (o : ScannedOption) : DhcpInfo :=
  if o.tag=optSubnetMask then
    if 4≤o.value.length then {info with prefixLength := ipv4NetmaskToPrefixLength o.value}
    else info
  else if o.tag=optGateway then
    if 4≤o.value.length then {info with gateway := load32At o.value 0} else info
  else if o.tag=optDns then
    let info := if 4≤o.value.length then {info with dns1 := load32At o.value 0} else info
    if 8≤o.value.length then {info with dns2 := load32At o.value 4} else info
  else if o.tag=optLeaseTime then
    if 4≤o.value.length then {info with lease := ntohlAt o.value 0} else info
  else if o.tag=optServerId then
    if 4≤o.value.length then {info with serveraddr := load32At o.value 0} else info
  else if o.tag=optMessageType then
    if 1≤o.value.length then {info with type := byteAt o.value 0} else info
  else info

/-- The option area of the first `len` bytes of a message. -/
def optionBytes (msg : DhcpMsg) (len : ℕ) : List UInt8 :=
  (msg.bytes.take len).drop (dhcpMsgFixedSize+4)

/-- The record that the options of a message describe, from left to right,
with the address of its fixed part. -/
def describedInfo (msg : DhcpMsg) (len : ℕ) : DhcpInfo :=
  {(parseOptions (optionBytes msg len)).foldl applyOption DhcpInfo.zero with
    ipaddr := msg.yiaddr}

/-- The bytes of a read of the message that has to stay below a limit. -/
def readBytes (msg : DhcpMsg) (limit i n : ℕ) : Option (List UInt8) :=
  if i+n ≤ limit then some ((msg.bytes.drop i).take n) else none

/-- The `switch` of `decode_dhcp_msg` with every read checked. -/
def readOption (msg : DhcpMsg) (limit : ℕ) (opt : UInt8) (optlen pos : ℕ) (info : DhcpInfo) :
    Option DhcpInfo :=
  if opt=optSubnetMask then
    if 4≤optlen then
      (readBytes msg limit pos 4).map
        fun x => {info with prefixLength := ipv4NetmaskToPrefixLength x}
    else some info
  else if opt=optGateway then
    if 4≤optlen then
      (readBytes msg limit pos 4).map fun x => {info with gateway := load32At x 0}
    else some info
  else if opt=optDns then
    (if 4≤optlen then
      (readBytes msg limit pos 4).map fun x => {info with dns1 := load32At x 0}
    else some info).bind fun info =>
      if 8≤optlen then
        (readBytes msg limit (pos+4) 4).map fun x => {info with dns2 := load32At x 0}
      else some info
  else if opt=optLeaseTime then
    if 4≤optlen then
      (readBytes msg limit pos 4).map fun x => {info with lease := ntohlAt x 0}
    else some info
  else if opt=optServerId then
    if 4≤optlen then
      (readBytes msg limit pos 4).map fun x => {info with serveraddr := load32At x 0}
    else some info
  else if opt=optMessageType then
    (readBytes msg limit pos 1).map fun x => {info with type := byteAt x 0}
  else some info

/-- The loop of `decode_dhcp_msg` with every read checked, at offset `pos` of
the message with `len` bytes left. -/
def readLoop (msg : DhcpMsg) (limit pos len : ℕ) (info : DhcpInfo) : Option DhcpInfo :=
  if 2<len then
    (readBytes msg limit pos 1).bind fun opt =>
      if byteAt opt 0=optPad then readLoop msg limit (pos+1) (len-1) info
      else if byteAt opt 0=optEnd then some info
      else
        (readBytes msg limit (pos+1) 1).bind fun optlen =>
          if len-2 < (byteAt optlen 0).toNat then some info
          else
            (readOption msg limit (byteAt opt 0) (byteAt optlen 0).toNat (pos+2) info).bind
              fun info => readLoop msg limit (pos+2+(byteAt optlen 0).toNat)
                (len-2-(byteAt optlen 0).toNat) info
  else some info
termination_by len
decreasing_by all_goals omega

/-- `decode_dhcp_msg` with every read of the message checked against a limit:
no result if one of them goes to an index at or past it. -/
def decodeWithin (msg : DhcpMsg) (limit len : ℕ) : Option (ℤ×DhcpInfo) :=
  if len<dhcpMsgFixedSize+4 then some (-1,DhcpInfo.zero)
  else
    (readBytes msg limit dhcpMsgFixedSize 4).bind fun cookie =>
      if cookie≠optCookie then some (-1,DhcpInfo.zero)
      else
        (readLoop msg limit (dhcpMsgFixedSize+4) (len-(dhcpMsgFixedSize+4)) DhcpInfo.zero).bind
          fun info => (readBytes msg limit 16 4).map
            fun x => (0,{info with ipaddr := load32At x 0})

/-- A checked read below its limit. -/
theorem readBytes_eq {limit i n : ℕ} (msg : DhcpMsg) (h : i+n ≤ limit) :
    readBytes msg limit i n=some ((msg.bytes.drop i).take n) := if_pos h

/-- The `switch` reads the value of its option, and one byte for a type. -/
theorem readOption_eq {limit pos optlen : ℕ} (msg : DhcpMsg) (opt : UInt8) (info : DhcpInfo)
    (h : pos+optlen ≤ limit) (hpos : pos+1 ≤ limit) :
    readOption msg limit opt optlen pos info=
      some (decodeOption opt optlen (msg.bytes.drop pos) info) := by
  unfold readOption decodeOption
  split
  · split
    · rw [readBytes_eq msg (by omega),Option.map_some,ipv4NetmaskToPrefixLength,
        ipv4NetmaskToPrefixLength,ntohlAt_take (by decide)]
    · rfl
  split
  · split
    · rw [readBytes_eq msg (by omega),Option.map_some,load32At_take (by decide)]
    · rfl
  split
  · have hfirst : (if 4≤optlen then
        (readBytes msg limit pos 4).map fun x => {info with dns1 := load32At x 0}
        else some info)=
        some (if 4≤optlen then {info with dns1 := load32At (msg.bytes.drop pos) 0}
          else info) := by
      split
      · rw [readBytes_eq msg (by omega),Option.map_some,load32At_take (by decide)]
      · rfl
    rw [hfirst,Option.bind_some]
    dsimp only
    by_cases h8 : 8≤optlen
    · rw [if_pos h8,if_pos h8,readBytes_eq msg (by omega),Option.map_some,
        load32At_take (by decide)]
      have hload : load32At (msg.bytes.drop (pos+4)) 0=load32At (msg.bytes.drop pos) 4 := by
        simp only [load32At,byteAt_drop,Nat.add_assoc,Nat.zero_add,Nat.add_zero]
      rw [hload]
    · rw [if_neg h8,if_neg h8]
  split
  · split
    · rw [readBytes_eq msg (by omega),Option.map_some,ntohlAt_take (by decide)]
    · rfl
  split
  · split
    · rw [readBytes_eq msg (by omega),Option.map_some,load32At_take (by decide)]
    · rfl
  split
  · rw [readBytes_eq msg hpos,Option.map_some,byteAt_take (by decide)]
  · rfl

/-- The loop stays below the offset it starts at plus its counter. -/
theorem readLoop_eq {limit pos len : ℕ} (msg : DhcpMsg) (info : DhcpInfo)
    (h : pos+len ≤ limit) :
    readLoop msg limit pos len info=some (decodeLoop (msg.bytes.drop pos) len info) := by
  induction len using Nat.strong_induction_on generalizing pos info with
  | _ len ih =>
    rw [readLoop,decodeLoop]
    by_cases hlen : 2<len
    · rw [if_pos hlen,if_pos hlen,readBytes_eq msg (by omega),Option.bind_some,
        byteAt_take (by decide)]
      dsimp only
      by_cases hpad : byteAt (msg.bytes.drop pos) 0=optPad
      · rw [if_pos hpad,if_pos hpad,ih (len-1) (by omega) info (by omega),List.drop_drop]
      · rw [if_neg hpad,if_neg hpad]
        by_cases hend : byteAt (msg.bytes.drop pos) 0=optEnd
        · rw [if_pos hend,if_pos hend]
        · have hnext : byteAt ((msg.bytes.drop (pos+1)).take 1) 0=
              byteAt (msg.bytes.drop pos) 1 := by
            rw [byteAt_take (by decide),byteAt_drop,byteAt_drop,Nat.add_zero]
          rw [if_neg hend,if_neg hend,readBytes_eq msg (by omega),Option.bind_some,hnext]
          by_cases hfit : len-2 < (byteAt (msg.bytes.drop pos) 1).toNat
          · rw [if_pos hfit,if_pos hfit]
          · rw [if_neg hfit,if_neg hfit,readOption_eq msg _ _ (by omega) (by omega),
              Option.bind_some,ih _ (by omega) _ (by omega),List.drop_drop,List.drop_drop,
              Nat.add_assoc]
    · rw [if_neg hlen,if_neg hlen]

/-- No read of the decoder goes to an index at or past the length it is given. -/
theorem decodeWithin_eq (msg : DhcpMsg) (len : ℕ) :
    decodeWithin msg len len=some (decodeDhcpMsg msg len) := by
  unfold decodeWithin decodeDhcpMsg
  by_cases hshort : len<dhcpMsgFixedSize+4
  · rw [if_pos hshort,if_pos hshort]
  · rw [if_neg hshort,if_neg hshort]
    have hsize : dhcpMsgFixedSize=236 := rfl
    have hopt : msg.options=msg.bytes.drop dhcpMsgFixedSize := rfl
    rw [readBytes_eq msg (by omega),Option.bind_some,hopt]
    by_cases hcookie : (msg.bytes.drop dhcpMsgFixedSize).take 4≠optCookie
    · rw [if_pos hcookie,if_pos hcookie]
    · rw [if_neg hcookie,if_neg hcookie,readLoop_eq msg _ (by omega),Option.bind_some,
        readBytes_eq msg (by omega),Option.map_some,load32At_take (by decide),List.drop_drop]
      have hyi : load32At (msg.bytes.drop 16) 0=msg.yiaddr := by
        simp only [DhcpMsg.yiaddr,load32At,byteAt_drop]
      rw [hyi]

/-- What the loop does with an option of the grammar: one without a byte
behind its header is never reached, since the loop wants three bytes. -/
def scanOption (info : DhcpInfo) (o : ScannedOption) : DhcpInfo :=
  if o.rest=[] then info else decodeOption o.tag o.length o.rest info

/-- The `switch` sees the value of its option and one byte for a type. -/
theorem decodeOption_take {optlen m : ℕ} (opt : UInt8) (x : List UInt8) (info : DhcpInfo)
    (h : optlen ≤ m) (hm : 0 < m) :
    decodeOption opt optlen (x.take m) info=decodeOption opt optlen x info := by
  unfold decodeOption ipv4NetmaskToPrefixLength
  split
  · split
    · rw [ntohlAt_take (by omega)]
    · rfl
  split
  · split
    · rw [load32At_take (by omega)]
    · rfl
  split
  · dsimp only
    by_cases h8 : 8≤optlen
    · rw [if_pos h8,if_pos h8,load32At_take (by omega),load32At_take (by omega)]
    · rw [if_neg h8,if_neg h8]
      split
      · rw [load32At_take (by omega)]
      · rfl
  split
  · split
    · rw [ntohlAt_take (by omega)]
    · rfl
  split
  · split
    · rw [load32At_take (by omega)]
    · rfl
  split
  · rw [byteAt_take hm]
  · rfl

/-- Two bytes hold no option with a value. -/
theorem foldl_scanOption_short {area : List UInt8} (h : area.length≤2) (info : DhcpInfo) :
    (parseOptions area).foldl scanOption info=info := by
  match area with
  | [] => rw [parseOptions]; rfl
  | [a] =>
    have hnil : parseOptions ([] : List UInt8)=[] := by rw [parseOptions]
    rw [parseOptions]
    split
    · rw [hnil]; rfl
    · split <;> rfl
  | [a,b] =>
    have hnil : parseOptions ([] : List UInt8)=[] := by rw [parseOptions]
    have hone : parseOptions [b]=[] := by
      rw [parseOptions]
      split
      · exact hnil
      · split <;> rfl
    rw [parseOptions]
    split
    · rw [hone]; rfl
    · split
      · rfl
      · split
        · rfl
        · rw [List.drop_nil,hnil]
          rfl
  | a::b::c::tail =>
    simp only [List.length_cons] at h
    omega

/-- The loop is a fold over the options of the grammar. -/
theorem decodeLoop_eq_foldl {x : List UInt8} {len : ℕ} (h : len ≤ x.length) (info : DhcpInfo) :
    decodeLoop x len info=(parseOptions (x.take len)).foldl scanOption info := by
  induction len using Nat.strong_induction_on generalizing x info with
  | _ len ih =>
    by_cases hlen : 2<len
    · match x with
      | [] =>
        rw [List.length_nil] at h
        omega
      | [_] =>
        rw [List.length_singleton] at h
        omega
      | a::b::body =>
        simp only [List.length_cons] at h
        have htake : (a::b::body).take len=a::b::body.take (len-2) := by
          obtain ⟨k,rfl⟩ : ∃ k, len=k+2 := ⟨len-2,by omega⟩
          rfl
        have hbody : (body.take (len-2)).length=len-2 := by
          rw [List.length_take]
          omega
        rw [decodeLoop,if_pos hlen,htake,parseOptions]
        simp only [byteAt_cons_zero,byteAt_cons_succ]
        by_cases hpad : a=optPad
        · have htail : b::body.take (len-2)=(b::body).take (len-1) := by
            obtain ⟨k,rfl⟩ : ∃ k, len=k+2 := ⟨len-2,by omega⟩
            rfl
          rw [if_pos hpad,if_pos hpad,htail]
          exact ih (len-1) (by omega) (by rw [List.drop_one,List.tail_cons,List.length_cons]; omega)
            info
        · rw [if_neg hpad,if_neg hpad]
          by_cases hend : a=optEnd
          · rw [if_pos hend,if_pos hend]
            rfl
          · rw [if_neg hend,if_neg hend,hbody]
            by_cases hfit : len-2 < b.toNat
            · rw [if_pos hfit,if_pos hfit]
              rfl
            · rw [if_neg hfit,if_neg hfit,List.foldl_cons,List.drop_take]
              have hdrop : (a::b::body).drop (2+b.toNat)=body.drop b.toNat := by
                rw [Nat.add_comm 2]
                rfl
              have hne : body.take (len-2)≠[] := by
                intro hnil
                rw [hnil,List.length_nil] at hbody
                omega
              have hscan : scanOption info ⟨a,b.toNat,body.take (len-2)⟩=
                  decodeOption a b.toNat body info := by
                rw [scanOption,if_neg hne]
                exact decodeOption_take a body info (show b.toNat ≤ len-2 by omega) (by omega)
              rw [hscan,hdrop]
              exact ih _ (by omega) (by rw [List.length_drop]; omega) _
    · rw [decodeLoop,if_neg hlen,foldl_scanOption_short]
      rw [List.length_take]
      omega

/-- Every option of the grammar holds its whole value. -/
theorem length_le_of_mem_parseOptions {area : List UInt8} {o : ScannedOption}
    (h : o∈parseOptions area) : o.length ≤ o.rest.length := by
  fun_induction parseOptions area with
  | case1 => cases h
  | case2 tail ih => exact ih h
  | case3 tail hend => cases h
  | case4 tag hpad hend => cases h
  | case5 tag hpad hend len body hfit => cases h
  | case6 tag hpad hend len body hfit ih =>
    rcases List.mem_cons.mp h with rfl|h
    · exact Nat.le_of_not_lt hfit
    · exact ih h

/-- The loop reads a type from this option: a message type option with a byte
behind its header, whether or not that byte belongs to it. -/
def readsType (o : ScannedOption) : Bool := decide (o.tag=optMessageType ∧ o.rest≠[])

/-- The option gives a type: a message type option with a value. -/
def givesType (o : ScannedOption) : Bool := decide (o.tag=optMessageType ∧ 0 < o.length)

/-- The type after the options of an area, if those chosen give the byte at
their value: the last one decides, and without one it is zero. -/
def lastType (chosen : ScannedOption → Bool) (options : List ScannedOption) : UInt8 :=
  ((options.filter chosen).getLast?.map fun o => byteAt o.rest 0).getD 0

/-- The record with another type. -/
def withType (info : DhcpInfo) (type : UInt8) : DhcpInfo := {info with type := type}

/-- An option of the loop against the grammar: the same but for the type, which
the loop takes from a message type option of any length. -/
theorem scanOption_eq {o : ScannedOption} (h : o.length ≤ o.rest.length) (info : DhcpInfo) :
    scanOption info o=
      withType (applyOption info o)
        (if readsType o=true then byteAt o.rest 0 else info.type) := by
  have hlen : o.value.length=o.length := by
    rw [ScannedOption.value,List.length_take]
    omega
  by_cases hnil : o.rest=[]
  · have hzero : o.length=0 := by
      rw [hnil,List.length_nil] at h
      omega
    have hreads : readsType o=false := by simp [readsType,hnil]
    rw [scanOption,if_pos hnil,hreads]
    simp [applyOption,withType,hlen,hzero]
  · have hpos : 0 < o.rest.length := List.length_pos_iff.mpr hnil
    rw [scanOption,if_neg hnil]
    by_cases htype : o.tag=optMessageType
    · have hreads : readsType o=true := by simp [readsType,hnil,htype]
      rw [hreads]
      simp only [decodeOption,applyOption,htype,withType]
      simp only [optMessageType,optSubnetMask,optGateway,optDns,optLeaseTime,optServerId]
      simp only [show (53 : UInt8)≠1 by decide,show (53 : UInt8)≠3 by decide,
        show (53 : UInt8)≠6 by decide,show (53 : UInt8)≠51 by decide,
        show (53 : UInt8)≠54 by decide,if_false,if_true]
      split <;> rfl
    · have hreads : readsType o=false := by simp [readsType,htype]
      have hkeep : (applyOption info o).type=info.type := by
        unfold applyOption
        simp only [htype,if_false]
        split_ifs <;> rfl
      have hsame : withType (applyOption info o) info.type=applyOption info o := by
        rw [withType,←hkeep]
      rw [hreads]
      simp only [Bool.false_eq_true,if_false]
      rw [hsame]
      by_cases hzero : o.length=0
      · simp [decodeOption,applyOption,hlen,hzero,htype]
      · have hvalue := decodeOption_take o.tag o.rest info (le_refl o.length) (by omega)
        rw [←hvalue,decodeOption,applyOption,hlen]
        simp only [htype,if_false]
        rfl

/-- The type that the grammar gives after one more option. -/
theorem applyOption_type {o : ScannedOption} (h : o.length ≤ o.rest.length) (info : DhcpInfo) :
    (applyOption info o).type=if givesType o=true then byteAt o.rest 0 else info.type := by
  have hlen : o.value.length=o.length := by
    rw [ScannedOption.value,List.length_take]
    omega
  by_cases htype : o.tag=optMessageType
  · rw [applyOption]
    simp only [htype,hlen,givesType]
    simp only [optMessageType,optSubnetMask,optGateway,optDns,optLeaseTime,optServerId]
    by_cases hpos : 0 < o.length
    · have hbyte : byteAt o.value 0=byteAt o.rest 0 := byteAt_take hpos o.rest
      simp [hpos,hbyte,Nat.succ_le_of_lt hpos]
    · simp [show o.length=0 by omega]
  · have hgives : givesType o=false := by simp [givesType,htype]
    rw [hgives]
    unfold applyOption
    simp only [htype,if_false]
    split_ifs <;> simp_all

/-- An option changes nothing through the type of the record. -/
theorem applyOption_withType (info : DhcpInfo) (o : ScannedOption) (t t' : UInt8) :
    withType (applyOption (withType info t) o) t'=withType (applyOption info o) t' := by
  unfold applyOption
  dsimp only
  split_ifs <;> rfl

theorem lastType_append (chosen : ScannedOption → Bool) (options : List ScannedOption)
    (o : ScannedOption) :
    lastType chosen (options++[o])=
      if chosen o=true then byteAt o.rest 0 else lastType chosen options := by
  unfold lastType
  rw [List.filter_append]
  by_cases h : chosen o=true
  · simp [h]
  · simp [h]

/-- The type after all options of the grammar. -/
theorem foldl_applyOption_type {options : List ScannedOption}
    (h : ∀ o∈options, o.length ≤ o.rest.length) :
    (options.foldl applyOption DhcpInfo.zero).type=lastType givesType options := by
  induction options using List.reverseRecOn with
  | nil => rfl
  | append_singleton options o ih =>
    rw [List.foldl_append,List.foldl_cons,List.foldl_nil,lastType_append,
      applyOption_type (h o (by simp)),ih fun x hx => h x (by simp [hx])]

/-- The loop and the grammar over the same options: they agree on everything
but the type. -/
theorem foldl_scanOption {options : List ScannedOption}
    (h : ∀ o∈options, o.length ≤ o.rest.length) :
    options.foldl scanOption DhcpInfo.zero=
      withType (options.foldl applyOption DhcpInfo.zero) (lastType readsType options) := by
  induction options using List.reverseRecOn with
  | nil => rfl
  | append_singleton options o ih =>
    have hold := ih fun x hx => h x (by simp [hx])
    simp only [List.foldl_append,List.foldl_cons,List.foldl_nil]
    rw [lastType_append,scanOption_eq (h o (by simp)),hold,applyOption_withType]
    rfl

/-- What the decoder leaves in the record of a message with the cookie. -/
theorem decodeDhcpMsg_eq {msg : DhcpMsg} {len : ℕ} (hmin : dhcpMsgFixedSize+4 ≤ len)
    (hmax : len ≤ sizeofDhcpMsg) (hcookie : msg.options.take 4=optCookie) :
    decodeDhcpMsg msg len=
      (0,withType (describedInfo msg len)
        (lastType readsType (parseOptions (optionBytes msg len)))) := by
  have hlen := msg.length_eq
  have harea : (msg.options.drop 4).take (len-(dhcpMsgFixedSize+4))=optionBytes msg len := by
    rw [optionBytes,DhcpMsg.options,List.drop_drop,List.drop_take]
  have hfits : len-(dhcpMsgFixedSize+4)≤(msg.options.drop 4).length := by
    rw [DhcpMsg.options,List.drop_drop,List.length_drop]
    omega
  rw [decodeDhcpMsg,if_neg (Nat.not_lt.mpr hmin),if_neg (not_not.mpr hcookie)]
  dsimp only
  rw [decodeLoop_eq_foldl hfits,harea,
    foldl_scanOption fun o ho => length_le_of_mem_parseOptions ho]
  rfl

/-- The decoder reads only the bytes it is given, and a message with the cookie
decodes to what its options describe. -/
def DecodesOptions (msg : DhcpMsg) (len : ℕ) : Prop :=
  decodeWithin msg len len=some (decodeDhcpMsg msg len) ∧
    (msg.options.take 4=optCookie → decodeDhcpMsg msg len=(0,describedInfo msg len))

/-- If the last message type option with a byte behind its header is empty,
that byte repeats the type given so far. -/
def TypeHasValue (options : List ScannedOption) : Prop :=
  ∀ o, (options.filter readsType).getLast?=some o → o.length=0 →
    byteAt o.rest 0=lastType givesType options

/-- Of the types that the loop reads, the last one is given or harmless. -/
theorem lastType_eq_iff {options : List ScannedOption}
    (h : ∀ o∈options, o.length ≤ o.rest.length) :
    lastType readsType options=lastType givesType options ↔ TypeHasValue options := by
  induction options using List.reverseRecOn with
  | nil =>
    refine ⟨fun _ o ho => ?_,fun _ => rfl⟩
    simp at ho
  | append_singleton options o ih =>
    have hrest := h o (by simp)
    have hold := ih fun x hx => h x (by simp [hx])
    by_cases hreads : readsType o=true
    · have hlast : ((options++[o]).filter readsType).getLast?=some o := by
        simp [hreads]
      rw [lastType_append,if_pos hreads,TypeHasValue,hlast]
      constructor
      · intro he x hx _
        cases hx
        exact he
      · intro hv
        by_cases hzero : o.length=0
        · exact hv o rfl hzero
        · have hgives : givesType o=true := by
            simp only [readsType,decide_eq_true_eq] at hreads
            simp only [givesType,decide_eq_true_eq]
            exact ⟨hreads.1,by omega⟩
          rw [lastType_append,if_pos hgives]
    · have hgives : givesType o≠true := by
        intro hg
        simp only [givesType,decide_eq_true_eq] at hg
        apply hreads
        simp only [readsType,decide_eq_true_eq]
        refine ⟨hg.1,fun hnil => ?_⟩
        rw [hnil,List.length_nil] at hrest
        omega
      have hfilter : (options++[o]).filter readsType=options.filter readsType := by
        simp [hreads]
      rw [lastType_append,if_neg hreads,lastType_append,if_neg hgives,hold]
      unfold TypeHasValue
      rw [hfilter,lastType_append,if_neg hgives]

/-- The decoder meets the grammar on exactly the messages without the cookie
and those whose last type option has a value or is followed by its own type. -/
theorem decodesOptions_iff (msg : DhcpMsg) (len : ℕ) (hmin : dhcpMsgFixedSize+4 ≤ len)
    (hmax : len ≤ sizeofDhcpMsg) :
    DecodesOptions msg len ↔
      (msg.options.take 4=optCookie → TypeHasValue (parseOptions (optionBytes msg len))) := by
  have hwf : ∀ o∈parseOptions (optionBytes msg len), o.length ≤ o.rest.length :=
    fun o ho => length_le_of_mem_parseOptions ho
  have htype : (describedInfo msg len).type=
      lastType givesType (parseOptions (optionBytes msg len)) := foldl_applyOption_type hwf
  constructor
  · rintro ⟨-,hdec⟩ hcookie
    have hinfo := (decodeDhcpMsg_eq hmin hmax hcookie).symm.trans (hdec hcookie)
    rw [←lastType_eq_iff hwf,←htype]
    exact congrArg (fun r => r.2.type) hinfo
  · intro h
    refine ⟨decodeWithin_eq msg len,fun hcookie => ?_⟩
    rw [decodeDhcpMsg_eq hmin hmax hcookie,(lastType_eq_iff hwf).mpr (h hcookie),←htype]
    rfl

/-- A message that ends in these options. -/
def optionsMsg (options : List UInt8) : DhcpMsg :=
  DhcpPacket.zeroMsg.overwrite (List.replicate 236 0++optCookie++options)

/-- A type option with its value, at the very end of the message. -/
theorem decodesOptions_offer :
    dhcpMsgFixedSize+4≤243 ∧ 243 ≤ sizeofDhcpMsg ∧
      DecodesOptions (optionsMsg [optMessageType,1,dhcpOffer]) 243 := by
  refine ⟨by decide,by decide,(decodesOptions_iff _ 243 (by decide) (by decide)).mpr ?_⟩
  intro _ o ho hzero
  have harea : optionBytes (optionsMsg [optMessageType,1,dhcpOffer]) 243=
      [optMessageType,1,dhcpOffer] := by
    decide +kernel
  rw [harea] at ho
  have hparse : parseOptions [optMessageType,1,dhcpOffer]=[⟨optMessageType,1,[dhcpOffer]⟩] := by
    simp [parseOptions,optMessageType,dhcpOffer,optPad,optEnd]
  rw [hparse] at ho
  have hlast : o=⟨optMessageType,1,[dhcpOffer]⟩ := by
    simpa [readsType] using ho.symm
  rw [hlast] at hzero
  cases hzero

/-- An empty type option turns the byte behind it into the message type. -/
theorem not_forall_decodesOptions :
    ¬∀ msg len, dhcpMsgFixedSize+4 ≤ len → len ≤ sizeofDhcpMsg → DecodesOptions msg len := by
  intro h
  have hdec := (h (optionsMsg [optMessageType,0,dhcpOffer]) 243 (by decide) (by decide)).2
    (by decide +kernel)
  have hcode : (decodeDhcpMsg (optionsMsg [optMessageType,0,dhcpOffer]) 243).2.type=dhcpOffer := by
    decide +kernel
  have hgiven : (describedInfo (optionsMsg [optMessageType,0,dhcpOffer]) 243).type=0 := by
    decide +kernel
  rw [hdec] at hcode
  rw [hgiven] at hcode
  cases hcode

end AndroidPlatform.DhcpOptionScan
