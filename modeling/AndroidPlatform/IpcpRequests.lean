import AndroidPlatform.LcpRequests

/-!
# The requests of the peer for addresses

`ipcp_reqci` writes its counter-proposals over the options of the request. The options that the
reply is made of are moved to the start of the request, and the space behind the request is used
to ask for an address.
-/

namespace AndroidPlatform.PppOptions

open Bitops PppFsm TypedBlocks

/-! ## Writing -/

/-- `PUTLONG` over the bytes from `i` on. -/
def setLong (p : List UInt8) (i : ℕ) (l : UInt32) : List UInt8 :=
  p.take i++(putLong l++p.drop (i+4))

theorem setLong_append {p : List UInt8} {i : ℕ} (h : i+4≤p.length) (l : UInt32)
    (rest : List UInt8) : setLong (p++rest) i l=setLong p i l++rest := by
  rw [setLong,setLong,List.take_append_of_le_length (by omega),List.drop_append_of_le_length h,
    List.append_assoc,List.append_assoc]

theorem length_setLong {p : List UInt8} {i : ℕ} (h : i+4≤p.length) (l : UInt32) :
    (setLong p i l).length=p.length := by
  have hlong : (putLong l).length=4 := rfl
  rw [setLong,List.length_append,List.length_append,List.length_take,List.length_drop,hlong]
  omega

/-! ## One option -/

/-- `IPCP_VJ_COMP` -/
def ipcpVjComp : ℕ := 0x002d

/-- `IPCP_VJ_COMP_OLD` -/
def ipcpVjCompOld : ℕ := 0x0037

/-- `MAX_STATES` -/
def maxStates : ℤ := 16

/-- `ipcp_options`, with the flags that the own requests do not depend on. -/
structure AddressOptions extends IpcpOptions where
  /-- `req_addr` -/
  reqAddr : Bool
  /-- `accept_local` -/
  acceptLocal : Bool
  /-- `accept_remote` -/
  acceptRemote : Bool

/-- The options that `ipcp_reqci` changes. -/
structure Peers where
  /-- `wo` -/
  wo : AddressOptions
  /-- `ho` -/
  ho : IpcpOptions

/-- What becomes of one option. -/
structure IpcpAnswer where
  /-- `orc` -/
  orc : Reply
  /-- The options afterwards. -/
  peers : Peers
  /-- The bytes behind the length of the option afterwards. -/
  p : List UInt8

/-- What `ipcp_reqci` depends on besides the request and the options that it changes. -/
structure IpcpRequest where
  /-- `ao` -/
  ao : IpcpOptions
  /-- `reject_if_disagree` -/
  rejectIfDisagree : Bool
  /-- `noremoteip` -/
  noremoteip : Bool

namespace IpcpRequest

variable (req : IpcpRequest)

/-- The decision about the address of the peer. -/
def judgeAddr (wo : AddressOptions) (ciaddr1 : UInt32) : Reply :=
  if ciaddr1≠wo.hisaddr ∧ (ciaddr1=0 ∨ wo.acceptRemote=false) then .nak
  else if ciaddr1=0 ∧ wo.hisaddr=0 then .rej
  else .ack

/-- An address is written over the one that was received, if the reply is not to be a CONFREJ. -/
def propose (p : List UInt8) (i : ℕ) (addr : UInt32) : List UInt8 :=
  if req.rejectIfDisagree then p else setLong p i (ntohl addr)

/-- The bytes after the decision about the address of the peer. -/
def judged (orc : Reply) (p : List UInt8) (addr : UInt32) : List UInt8 :=
  if orc=.nak then req.propose p 0 addr else p

/-- `CI_ADDRS` -/
def answerAddrs (peers : Peers) (cilen : ℕ) (p : List UInt8) : Option IpcpAnswer :=
  if req.ao.oldAddrs=false ∨ peers.ho.negAddr=true ∨ cilen≠cilenAddrs then some ⟨.rej,peers,p⟩
  else do
    let tl ← getLongAt p
    let orc := judgeAddr peers.wo (htonl tl)
    if orc=.rej then some ⟨.rej,{ peers with wo.reqAddr := false },p⟩
    else
      let p₁ := req.judged orc p peers.wo.hisaddr
      let tl₂ ← getLongAt (p₁.drop 4)
      let ho := { peers.ho with oldAddrs := true, hisaddr := htonl tl, ouraddr := htonl tl₂ }
      if htonl tl₂=peers.wo.ouraddr then some ⟨orc,{ peers with ho := ho },p₁⟩
      else if htonl tl₂=0 ∨ peers.wo.acceptLocal=false then
        some ⟨.nak,{ peers with ho := ho },req.propose p₁ 4 peers.wo.ouraddr⟩
      else some ⟨orc,{ ho := ho, wo := { peers.wo with ouraddr := htonl tl₂ } },p₁⟩

/-- `CI_ADDR` -/
def answerAddr (peers : Peers) (cilen : ℕ) (p : List UInt8) : Option IpcpAnswer :=
  if req.ao.negAddr=false ∨ peers.ho.oldAddrs=true ∨ cilen≠cilenAddr then some ⟨.rej,peers,p⟩
  else do
    let tl ← getLongAt p
    let orc := judgeAddr peers.wo (htonl tl)
    if orc=.rej then some ⟨.rej,{ peers with wo.reqAddr := false },p⟩
    else
      let p₁ := req.judged orc p peers.wo.hisaddr
      some ⟨orc,{ peers with ho := { peers.ho with negAddr := true, hisaddr := htonl tl } },p₁⟩

/-- `CI_MS_DNS1` and its siblings: the address of a server is written in any case. -/
def answerServer (addr : UInt32) (peers : Peers) (cilen : ℕ) (p : List UInt8) :
    Option IpcpAnswer :=
  if addr=0 ∨ cilen≠cilenAddr then some ⟨.rej,peers,p⟩
  else do
    let tl ← getLongAt p
    if htonl tl≠addr then some ⟨.nak,peers,setLong p 0 (ntohl addr)⟩
    else some ⟨.ack,peers,p⟩

/-- `CI_COMPRESSTYPE` of `CILEN_VJ` bytes, behind the protocol. -/
def answerVj (peers : Peers) (cishort : ℕ) (p : List UInt8) : Option IpcpAnswer := do
  let maxslotindex ← getCharAt (p.drop 2)
  let slots := decide (req.ao.maxslotindex < maxslotindex.toNat)
  let p₁ := if slots && !req.rejectIfDisagree then p.set 2 (UInt8.ofInt req.ao.maxslotindex) else p
  let cflag ← getCharAt (p₁.drop 3)
  let flag := decide (cflag≠0 ∧ req.ao.cflag=0)
  let p₂ := if flag && !req.rejectIfDisagree then p₁.set 3 peers.wo.cflag else p₁
  some ⟨if slots || flag then .nak else .ack,
    { peers with ho := { peers.ho with negVj := true, vjProtocol := cishort,
                                       maxslotindex := maxslotindex.toNat, cflag := cflag } },p₂⟩

/-- `CI_COMPRESSTYPE` -/
def answerCompresstype (peers : Peers) (cilen : ℕ) (p : List UInt8) : Option IpcpAnswer :=
  if req.ao.negVj=false ∨ (cilen≠cilenVj ∧ cilen≠cilenCompress) then some ⟨.rej,peers,p⟩
  else do
    let cishort ← getShortAt p
    if ¬(cishort=ipcpVjComp ∨ (cishort=ipcpVjCompOld ∧ cilen=cilenCompress)) then
      some ⟨.rej,peers,p⟩
    else if cilen=cilenVj then req.answerVj peers cishort p
    else
      some ⟨.ack,{ peers with ho := { peers.ho with negVj := true, vjProtocol := cishort,
                                                    oldVj := true, maxslotindex := maxStates-1,
                                                    cflag := 1 } },p⟩

/-- The switch over the types of the options. -/
def answer (peers : Peers) (citype : UInt8) (cilen : ℕ) (p : List UInt8) : Option IpcpAnswer :=
  if citype=ciAddrs then req.answerAddrs peers cilen p
  else if citype=ciAddr then req.answerAddr peers cilen p
  else if citype=ciMsDns1 then answerServer req.ao.dnsaddr0 peers cilen p
  else if citype=ciMsDns2 then answerServer req.ao.dnsaddr1 peers cilen p
  else if citype=ciMsWins1 then answerServer req.ao.winsaddr0 peers cilen p
  else if citype=ciMsWins2 then answerServer req.ao.winsaddr1 peers cilen p
  else if citype=ciCompresstype then req.answerCompresstype peers cilen p
  else some ⟨.rej,peers,p⟩

end IpcpRequest

/-! ## The request -/

/-- Options that are all zero. -/
def IpcpOptions.zero : IpcpOptions where
  negAddr := false
  oldAddrs := false
  negVj := false
  oldVj := false
  reqDns1 := false
  reqDns2 := false
  vjProtocol := 0
  maxslotindex := 0
  cflag := 0
  ouraddr := 0
  hisaddr := 0
  dnsaddr0 := 0
  dnsaddr1 := 0
  winsaddr0 := 0
  winsaddr1 := 0

/-- The state of `ipcp_reqci`. -/
structure IpcpRequesting where
  /-- The bytes from `inp` to the end of the packet buffer. -/
  inp : List UInt8
  /-- `next` -/
  next : ℕ
  /-- `ucp` -/
  ucp : ℕ
  /-- `rc` -/
  rc : Reply
  /-- The options. -/
  peers : Peers

/-- What is returned, and what is changed. -/
structure IpcpRequested where
  /-- The code of the reply. -/
  rc : Reply
  /-- `*len` -/
  len : ℕ
  /-- The bytes from `inp` on. -/
  inp : List UInt8
  /-- The options. -/
  peers : Peers

namespace IpcpRequest

variable (req : IpcpRequest)

/-- The option at `cip` becomes part of the reply. -/
def keep (cip cilen : ℕ) (s : IpcpRequesting) : Option IpcpRequesting :=
  (if s.ucp≠cip then memcpy s.inp s.ucp (s.inp.drop cip) cilen else some s.inp).map fun inp =>
    { s with inp := inp, ucp := s.ucp+cilen }

/-- The part of `ipcp_reqci` from `endswitch` on, for the option at `cip`. -/
def conclude (cip cilen : ℕ) (orc : Reply) (s : IpcpRequesting) : Option IpcpRequesting :=
  if orc=.ack ∧ s.rc≠.ack then some s
  else
    let orc := if orc=.nak ∧ req.rejectIfDisagree=true then .rej else orc
    if orc=.nak ∧ s.rc=.rej then some s
    else
      let s := if orc=.nak ∧ s.rc=.ack then { s with rc := .nak, ucp := 0 } else s
      let s := if orc=.rej ∧ s.rc≠.rej then { s with rc := .rej, ucp := 0 } else s
      keep cip cilen s

/-- The loop of `ipcp_reqci` over the `left` bytes from `next` on. -/
def reqciLoop (left : ℕ) (s : IpcpRequesting) : Option IpcpRequesting :=
  if hleft : left=0 then some s
  else if left<2 then req.conclude s.next (left%2^16) .rej s
  else do
    let cilen ← s.inp[s.next+1]?
    if hbad : cilen.toNat<2 ∨ left<cilen.toNat then req.conclude s.next (left%2^16) .rej s
    else
      let citype ← s.inp[s.next]?
      let a ← req.answer s.peers citype cilen.toNat (s.inp.drop (s.next+2))
      let s ← req.conclude s.next cilen.toNat a.orc
        { s with inp := s.inp.take (s.next+2)++a.p, next := s.next+cilen.toNat, peers := a.peers }
      reqciLoop (left-cilen.toNat) s
termination_by left

/-- The end of `ipcp_reqci`: the address of the peer is asked for behind the reply. -/
def finish (s : IpcpRequesting) : Option IpcpRequested :=
  if s.rc≠.rej ∧ s.peers.ho.negAddr=false ∧ s.peers.ho.oldAddrs=false ∧
      s.peers.wo.reqAddr=true ∧ req.rejectIfDisagree=false ∧ req.noremoteip=false then do
    let s := if s.rc=.ack then { s with rc := .nak, ucp := 0, peers.wo.reqAddr := false } else s
    let option := addCi ciAddr cilenAddr true (putLong (ntohl s.peers.wo.hisaddr))
    let inp ← memcpy s.inp s.ucp option cilenAddr
    some ⟨s.rc,s.ucp+cilenAddr,inp,s.peers⟩
  else some ⟨s.rc,s.ucp,s.inp,s.peers⟩

/-- `ipcp_reqci`, for a request of `len` bytes. -/
def reqci (wo : AddressOptions) (inp : List UInt8) (len : ℕ) : Option IpcpRequested := do
  let s ← req.reqciLoop len ⟨inp,0,0,.ack,⟨wo,.zero⟩⟩
  req.finish s

/-- What `ipcp_reqci` is for: it stays within the packet buffer, it accepts what is left
unchanged, and it rejects options as they were received. -/
def Meets (wo : AddressOptions) (inp : List UInt8) (len : ℕ) : Prop :=
  ∃ o,req.reqci wo inp len=some o ∧ (o.rc=.ack → o.len=len ∧ o.inp=inp) ∧
    (o.rc=.rej → ∃ sel : List (List UInt8),sel.Sublist (pieces (inp.take len)) ∧
      o.inp.take o.len=sel.flatten)

end IpcpRequest

/-! ## The answer to one option -/

/-- The peer has named an address. -/
def Peers.HasAddress (peers : Peers) : Prop := peers.ho.negAddr=true ∨ peers.ho.oldAddrs=true

namespace IpcpOptions

variable (ao : IpcpOptions)

/-- There are no addresses of servers to offer. -/
def NoServers : Prop := ao.dnsaddr0=0 ∧ ao.dnsaddr1=0 ∧ ao.winsaddr0=0 ∧ ao.winsaddr1=0

/-- Some option without the address of the peer can be answered with a counter-proposal. -/
def CanOffer : Prop :=
  ¬ao.NoServers ∨ (ao.negVj=true ∧ (ao.maxslotindex<255 ∨ ao.cflag=0))

end IpcpOptions

/-- What is known of the answer to an option with the value. -/
structure IpcpAnswer.Fits (req : IpcpRequest) (peers : Peers) (value : List UInt8)
    (a : IpcpAnswer) : Prop where
  /-- The option keeps its length. -/
  length : a.p.length=value.length
  /-- Only a counter-proposal changes the option. -/
  same : a.orc≠.nak → a.p=value
  /-- Only the address of a server is changed when the reply is to be a CONFREJ. -/
  quiet : req.rejectIfDisagree=true → (req.ao.NoServers ∨ value.length<4) → a.p=value
  /-- A counter-proposal is about the address of the peer or something that is offered. -/
  nak : a.orc=.nak → a.peers.HasAddress ∨ (value.length=4 ∧ req.ao.CanOffer)
  /-- An address that was named stays. -/
  address : peers.HasAddress → a.peers.HasAddress
  /-- An address that is not asked for is not asked for later. -/
  asks : a.peers.wo.reqAddr=true → peers.wo.reqAddr=true

/-- An answer depends on the bytes of the option only, and leaves the others alone. -/
def IpcpSettles (req : IpcpRequest) (peers : Peers) (cilen : ℕ)
    (result : List UInt8 → Option IpcpAnswer) : Prop :=
  ∀ value rest,cilen=value.length+2 →
    ∃ a,result value=some a ∧ result (value++rest)=some { a with p := a.p++rest } ∧
      a.Fits req peers value

section

variable {req : IpcpRequest} {peers : Peers} {cilen : ℕ} {value : List UInt8}

/-- An option that is left alone. -/
theorem fits_same {orc : Reply} {peers' : Peers} (horc : orc≠.nak)
    (haddress : peers.HasAddress → peers'.HasAddress)
    (hasks : peers'.wo.reqAddr=true → peers.wo.reqAddr=true) :
    (IpcpAnswer.mk orc peers' value).Fits req peers value :=
  ⟨rfl,fun _ => rfl,fun _ _ => rfl,fun hnak => absurd hnak horc,haddress,hasks⟩

theorem settles_rej : IpcpSettles req peers cilen fun p => some ⟨.rej,peers,p⟩ :=
  fun value _ _ => ⟨⟨.rej,peers,value⟩,rfl,rfl,fits_same Reply.noConfusion id id⟩

theorem ipcpSettles_ite {c : Prop} [Decidable c] {f g : List UInt8 → Option IpcpAnswer}
    (hf : IpcpSettles req peers cilen f) (hg : ¬c → IpcpSettles req peers cilen g) :
    IpcpSettles req peers cilen fun p => if c then f p else g p := by
  by_cases hc : c
  · simpa only [if_pos hc] using hf
  · simpa only [if_neg hc] using hg hc

namespace IpcpRequest

theorem propose_append {i : ℕ} (h : i+4≤value.length) (addr : UInt32) (rest : List UInt8) :
    req.propose (value++rest) i addr=req.propose value i addr++rest := by
  unfold propose
  split_ifs
  · rfl
  · exact setLong_append h _ rest

theorem length_propose {i : ℕ} (h : i+4≤value.length) (addr : UInt32) :
    (req.propose value i addr).length=value.length := by
  unfold propose
  split_ifs
  · rfl
  · exact length_setLong h _

theorem propose_quiet {i : ℕ} {addr : UInt32} (h : req.rejectIfDisagree=true) :
    req.propose value i addr=value :=
  if_pos h

theorem settles_answerServer {addr : UInt32} (haddr : addr≠0 → ¬req.ao.NoServers) :
    IpcpSettles req peers cilen (answerServer addr peers cilen) := by
  unfold answerServer
  refine ipcpSettles_ite settles_rej fun hgood value rest hcilen => ?_
  obtain ⟨hne,hlong⟩ := not_or.mp hgood
  rw [not_not,cilenAddr] at hlong
  have hfour : value.length=4 := by omega
  obtain ⟨tl,hread,hreads⟩ := getLongAt_append hfour.ge rest
  have hservers := haddr hne
  rw [hread,hreads]
  dsimp only [Option.bind_eq_bind,Option.bind_some]
  by_cases hsame : htonl tl≠addr
  · rw [if_pos hsame,if_pos hsame,setLong_append (by omega)]
    refine ⟨_,rfl,rfl,length_setLong (by omega) _,fun hnak => absurd rfl hnak,?_,?_,id,id⟩
    · intro _ hquiet
      rcases hquiet with hnone | hshort
      · exact absurd hnone hservers
      · omega
    · exact fun _ => Or.inr ⟨hfour,Or.inl hservers⟩
  · rw [if_neg hsame,if_neg hsame]
    exact ⟨_,rfl,rfl,fits_same Reply.noConfusion id id⟩

theorem judged_append (orc : Reply) (h : 4≤value.length) (addr : UInt32) (rest : List UInt8) :
    req.judged orc (value++rest) addr=req.judged orc value addr++rest := by
  unfold judged
  split_ifs
  · exact propose_append h addr rest
  · rfl

theorem length_judged (orc : Reply) (h : 4≤value.length) (addr : UInt32) :
    (req.judged orc value addr).length=value.length := by
  unfold judged
  split_ifs
  · exact length_propose h addr
  · rfl

theorem judged_quiet {orc : Reply} {addr : UInt32} (h : req.rejectIfDisagree=true) :
    req.judged orc value addr=value := by
  unfold judged
  split_ifs
  · exact propose_quiet h
  · rfl

theorem judged_of_ne {orc : Reply} {addr : UInt32} (h : orc≠.nak) :
    req.judged orc value addr=value :=
  if_neg h

theorem settles_answerAddr : IpcpSettles req peers cilen (req.answerAddr peers cilen) := by
  unfold answerAddr
  refine ipcpSettles_ite settles_rej fun hgood value rest hcilen => ?_
  have hlong : cilen=cilenAddr := not_not.mp (not_or.mp (not_or.mp hgood).2).2
  rw [cilenAddr] at hlong
  have hfour : 4≤value.length := by omega
  obtain ⟨tl,hread,hreads⟩ := getLongAt_append hfour rest
  rw [hread,hreads]
  dsimp only [Option.bind_eq_bind,Option.bind_some]
  generalize judgeAddr peers.wo (htonl tl)=orc
  by_cases hrej : orc=.rej
  · rw [if_pos hrej,if_pos hrej]
    exact ⟨_,rfl,rfl,fits_same Reply.noConfusion id Bool.noConfusion⟩
  · rw [if_neg hrej,if_neg hrej]
    refine ⟨_,rfl,congrArg _ (congrArg _ (judged_append orc hfour _ rest)),?_⟩
    exact ⟨length_judged orc hfour _,judged_of_ne,fun hdisagree _ => judged_quiet hdisagree,
      fun _ => Or.inl (Or.inl rfl),fun _ => Or.inl rfl,id⟩

theorem settles_answerAddrs : IpcpSettles req peers cilen (req.answerAddrs peers cilen) := by
  unfold answerAddrs
  refine ipcpSettles_ite settles_rej fun hgood value rest hcilen => ?_
  have hlong : cilen=cilenAddrs := not_not.mp (not_or.mp (not_or.mp hgood).2).2
  rw [cilenAddrs] at hlong
  have hfour : 4≤value.length := by omega
  obtain ⟨tl,hread,hreads⟩ := getLongAt_append hfour rest
  rw [hread,hreads]
  dsimp only [Option.bind_eq_bind,Option.bind_some]
  generalize judgeAddr peers.wo (htonl tl)=orc
  by_cases hrej : orc=.rej
  · rw [if_pos hrej,if_pos hrej]
    exact ⟨_,rfl,rfl,fits_same Reply.noConfusion id Bool.noConfusion⟩
  · rw [if_neg hrej,if_neg hrej]
    have hlength : (req.judged orc value peers.wo.hisaddr).length=value.length :=
      length_judged orc hfour peers.wo.hisaddr
    have hquiet : req.rejectIfDisagree=true → req.judged orc value peers.wo.hisaddr=value :=
      judged_quiet
    have hsame : orc≠.nak → req.judged orc value peers.wo.hisaddr=value := judged_of_ne
    rw [judged_append orc hfour]
    generalize req.judged orc value peers.wo.hisaddr=p₁ at hlength hquiet hsame
    have hsecond : 4≤(p₁.drop 4).length := by
      rw [List.length_drop]
      omega
    obtain ⟨tl₂,hread₂,hreads₂⟩ := getLongAt_append hsecond rest
    rw [List.drop_append_of_le_length (by omega),hread₂,hreads₂]
    dsimp only [Option.bind_some]
    have hnamed : ∀ ho : IpcpOptions,ho.oldAddrs=true → ∀ wo,(Peers.mk wo ho).HasAddress :=
      fun _ hold _ => Or.inr hold
    by_cases hour : htonl tl₂=peers.wo.ouraddr
    · rw [if_pos hour,if_pos hour]
      exact ⟨_,rfl,rfl,hlength,hsame,fun hdisagree _ => hquiet hdisagree,
        fun _ => Or.inl (hnamed _ rfl _),fun _ => hnamed _ rfl _,id⟩
    rw [if_neg hour,if_neg hour]
    by_cases hlocal : htonl tl₂=0 ∨ peers.wo.acceptLocal=false
    · rw [if_pos hlocal,if_pos hlocal,propose_append (by omega)]
      refine ⟨_,rfl,rfl,?_,fun hnak => absurd rfl hnak,fun hdisagree _ => ?_,
        fun _ => Or.inl (hnamed _ rfl _),fun _ => hnamed _ rfl _,id⟩
      · exact (length_propose (by omega) _).trans hlength
      · exact (propose_quiet hdisagree).trans (hquiet hdisagree)
    · rw [if_neg hlocal,if_neg hlocal]
      exact ⟨_,rfl,rfl,hlength,hsame,fun hdisagree _ => hquiet hdisagree,
        fun _ => Or.inl (hnamed _ rfl _),fun _ => hnamed _ rfl _,id⟩

/-- What is answered to the number of slots and the flag. -/
theorem answerVj_eq (cishort : ℕ) (high low slot flag : UInt8) (rest : List UInt8) :
    req.answerVj peers cishort ([high,low,slot,flag]++rest)=some
      ⟨if decide (req.ao.maxslotindex < slot.toNat) || decide (flag≠0 ∧ req.ao.cflag=0) then .nak
        else .ack,
      { peers with ho := { peers.ho with negVj := true, vjProtocol := cishort,
                                         maxslotindex := slot.toNat, cflag := flag } },
      [high,low,
        if decide (req.ao.maxslotindex < slot.toNat) && !req.rejectIfDisagree then
          UInt8.ofInt req.ao.maxslotindex else slot,
        if decide (flag≠0 ∧ req.ao.cflag=0) && !req.rejectIfDisagree then peers.wo.cflag
        else flag]++rest⟩ := by
  have hslot : getCharAt (([high,low,slot,flag]++rest).drop 2)=some slot := rfl
  have hflag : ∀ slot',getCharAt (([high,low,slot',flag]++rest).drop 3)=some flag := fun _ => rfl
  have hset : ([high,low,slot,flag]++rest).set 2 (UInt8.ofInt req.ao.maxslotindex)=
      [high,low,UInt8.ofInt req.ao.maxslotindex,flag]++rest := rfl
  have hset' : ∀ slot' flag',([high,low,slot',flag]++rest).set 3 flag'=
      [high,low,slot',flag']++rest := fun _ _ => rfl
  rw [answerVj,hslot,hset]
  dsimp only [Option.bind_eq_bind,Option.bind_some]
  by_cases hslots : (decide (req.ao.maxslotindex < slot.toNat) && !req.rejectIfDisagree)=true
  · rw [if_pos hslots,if_pos hslots,hflag]
    dsimp only [Option.bind_some]
    by_cases hcflag : (decide (flag≠0 ∧ req.ao.cflag=0) && !req.rejectIfDisagree)=true
    · rw [if_pos hcflag,if_pos hcflag,hset']
    · rw [if_neg hcflag,if_neg hcflag]
  · rw [if_neg hslots,if_neg hslots,hflag]
    dsimp only [Option.bind_some]
    by_cases hcflag : (decide (flag≠0 ∧ req.ao.cflag=0) && !req.rejectIfDisagree)=true
    · rw [if_pos hcflag,if_pos hcflag,hset']
    · rw [if_neg hcflag,if_neg hcflag]

theorem settles_answerVj {cishort : ℕ} (hvj : req.ao.negVj=true) {rest : List UInt8}
    (hfour : value.length=4) :
    ∃ a,req.answerVj peers cishort value=some a ∧
      req.answerVj peers cishort (value++rest)=some { a with p := a.p++rest } ∧
        a.Fits req peers value := by
  match value with
  | [high,low,slot,flag] =>
    have hanswer := @answerVj_eq req peers cishort high low slot flag
    have hown := hanswer []
    rw [List.append_nil,List.append_nil] at hown
    refine ⟨_,hown,hanswer rest,rfl,fun horc => ?_,fun hdisagree _ => ?_,fun horc => ?_,id,id⟩
    · dsimp only at horc ⊢
      split_ifs at horc with hbad
      · exact absurd rfl horc
      · rw [Bool.or_eq_true,not_or,Bool.not_eq_true,Bool.not_eq_true] at hbad
        rw [hbad.1,hbad.2]
        rfl
    · dsimp only
      rw [hdisagree,Bool.not_true,Bool.and_false,Bool.and_false]
      rfl
    · refine Or.inr ⟨rfl,Or.inr ⟨hvj,?_⟩⟩
      dsimp only at horc
      split_ifs at horc with hbad
      rw [Bool.or_eq_true,decide_eq_true_iff,decide_eq_true_iff] at hbad
      have hslot := slot.toNat_lt
      rcases hbad with hslots | hflag
      · exact Or.inl (by omega)
      · exact Or.inr hflag.2

theorem settles_answerCompresstype :
    IpcpSettles req peers cilen (req.answerCompresstype peers cilen) := by
  unfold answerCompresstype
  refine ipcpSettles_ite settles_rej fun hgood value rest hcilen => ?_
  obtain ⟨hvj,hlong⟩ := not_or.mp hgood
  rw [Bool.not_eq_false] at hvj
  rw [cilenVj,cilenCompress] at hlong
  obtain ⟨cishort,hread,hreads⟩ := @getShortAt_append value (by omega) rest
  rw [hread,hreads]
  dsimp only [Option.bind_eq_bind,Option.bind_some]
  by_cases hprotocol : ¬(cishort=ipcpVjComp ∨ (cishort=ipcpVjCompOld ∧ cilen=cilenCompress))
  · rw [if_pos hprotocol,if_pos hprotocol]
    exact ⟨_,rfl,rfl,fits_same Reply.noConfusion id id⟩
  rw [if_neg hprotocol,if_neg hprotocol]
  by_cases hnew : cilen=cilenVj
  · rw [if_pos hnew,if_pos hnew]
    rw [cilenVj] at hnew
    exact settles_answerVj hvj (by omega)
  · rw [if_neg hnew,if_neg hnew]
    exact ⟨_,rfl,rfl,fits_same Reply.noConfusion id id⟩

/-- Every option is answered from its own bytes, in its own place. -/
theorem settles_answer (citype : UInt8) :
    IpcpSettles req peers cilen (req.answer peers citype cilen) := by
  unfold answer
  refine ipcpSettles_ite settles_answerAddrs fun _ => ?_
  refine ipcpSettles_ite settles_answerAddr fun _ => ?_
  refine ipcpSettles_ite (settles_answerServer fun hne hnone => hne hnone.1) fun _ => ?_
  refine ipcpSettles_ite (settles_answerServer fun hne hnone => hne hnone.2.1) fun _ => ?_
  refine ipcpSettles_ite (settles_answerServer fun hne hnone => hne hnone.2.2.1) fun _ => ?_
  refine ipcpSettles_ite (settles_answerServer fun hne hnone => hne hnone.2.2.2) fun _ => ?_
  exact ipcpSettles_ite settles_answerCompresstype fun _ => settles_rej

end IpcpRequest

end

/-! ## The loop -/

namespace IpcpRequest

variable {req : IpcpRequest}

/-- What is kept and what the reply is, after one more option: it is one more that is accepted,
it is left out, or it is kept in a reply that starts with it or goes on with it. -/
inductive Concluded (req : IpcpRequest) (kept piece : List UInt8) :
    Reply → Reply → List UInt8 → Reply → Prop
  | accept : Concluded req kept piece .ack .ack (kept++piece) .ack
  | skip {orc rc : Reply} (h : (orc=.ack ∧ rc≠.ack) ∨ (orc=.nak ∧ rc=.rej)) :
      Concluded req kept piece orc rc kept rc
  | propose {rc : Reply} (hagree : req.rejectIfDisagree=false) (hrc : rc≠.rej) :
      Concluded req kept piece .nak rc ((if rc=.nak then kept else [])++piece) .nak
  | reject {orc rc : Reply} (h : orc=.rej ∨ (orc=.nak ∧ req.rejectIfDisagree=true)) :
      Concluded req kept piece orc rc ((if rc=.rej then kept else [])++piece) .rej

/-- The bytes from `inp` on: what is kept, a gap, and what is not read yet. -/
structure Holds (kept gap rest : List UInt8) (s : IpcpRequesting) : Prop where
  inp : s.inp=kept++(gap++rest)
  ucp : s.ucp=kept.length

/-- What is kept before may be given up. -/
theorem Holds.restart {kept gap rest : List UInt8} {s : IpcpRequesting} (h : Holds kept gap rest s)
    (rc : Reply) : Holds [] (kept++gap) rest { s with rc := rc, ucp := 0 } := by
  refine ⟨?_,rfl⟩
  rw [List.nil_append,List.append_assoc]
  exact h.inp

theorem keep_spec {kept gap piece rest : List UInt8} {s : IpcpRequesting}
    (h : Holds kept gap (piece++rest) s) :
    ∃ s' gap',keep (kept.length+gap.length) piece.length s=some s' ∧
      Holds (kept++piece) gap' rest s' ∧
      (kept++piece).length+gap'.length=kept.length+gap.length+piece.length ∧
      s'.next=s.next ∧ s'.rc=s.rc ∧ s'.peers=s.peers := by
  obtain ⟨hinp,hucp⟩ := h
  obtain ⟨gap',hlength,hcopy⟩ := @memcpy_down_if (s.ucp≠kept.length+gap.length) _ kept piece rest
    gap fun hsame => List.length_eq_zero_iff.mp (by omega)
  rw [keep,hucp,hinp]
  rw [hucp] at hcopy
  rw [hcopy]
  refine ⟨_,gap',rfl,⟨rfl,(List.length_append ..).symm⟩,?_,rfl,rfl,rfl⟩
  rw [List.length_append]
  omega

theorem conclude_accept {cip cilen : ℕ} {s : IpcpRequesting} (h : s.rc=.ack) :
    req.conclude cip cilen .ack s=keep cip cilen s := by
  simp [conclude,h]

theorem conclude_skip {cip cilen : ℕ} {orc : Reply} {s : IpcpRequesting}
    (h : (orc=.ack ∧ s.rc≠.ack) ∨ (orc=.nak ∧ req.rejectIfDisagree=false ∧ s.rc=.rej)) :
    req.conclude cip cilen orc s=some s := by
  rcases h with ⟨rfl,hrc⟩ | ⟨rfl,hagree,hrc⟩
  · simp [conclude,hrc]
  · simp [conclude,hagree,hrc]

theorem conclude_propose {cip cilen : ℕ} {s : IpcpRequesting}
    (hagree : req.rejectIfDisagree=false) (hrc : s.rc≠.rej) :
    req.conclude cip cilen .nak s=
      keep cip cilen (if s.rc=.ack then { s with rc := .nak, ucp := 0 } else s) := by
  simp [conclude,hagree,hrc]

theorem conclude_reject {cip cilen : ℕ} {orc : Reply} {s : IpcpRequesting}
    (h : orc=.rej ∨ (orc=.nak ∧ req.rejectIfDisagree=true)) :
    req.conclude cip cilen orc s=
      keep cip cilen (if s.rc=.rej then s else { s with rc := .rej, ucp := 0 }) := by
  rcases h with rfl | ⟨rfl,hdisagree⟩
  · simp [conclude]
  · simp [conclude,hdisagree]

/-- One option is concluded. -/
theorem conclude_spec {kept gap piece rest : List UInt8} {s : IpcpRequesting} (orc : Reply)
    (h : Holds kept gap (piece++rest) s) :
    ∃ s' kept' gap',req.conclude (kept.length+gap.length) piece.length orc s=some s' ∧
      Holds kept' gap' rest s' ∧
      kept'.length+gap'.length=kept.length+gap.length+piece.length ∧
      s'.next=s.next ∧ s'.peers=s.peers ∧ req.Concluded kept piece orc s.rc kept' s'.rc := by
  have hkeep : ∀ (rc : Reply) (kept' gap' : List UInt8) (t : IpcpRequesting),
      Holds kept' gap' (piece++rest) t → kept'.length+gap'.length=kept.length+gap.length →
      t.next=s.next → t.peers=s.peers → t.rc=rc →
      req.Concluded kept piece orc s.rc (kept'++piece) rc →
      ∃ s' kept'' gap'',keep (kept.length+gap.length) piece.length t=some s' ∧
        Holds kept'' gap'' rest s' ∧
        kept''.length+gap''.length=kept.length+gap.length+piece.length ∧
        s'.next=s.next ∧ s'.peers=s.peers ∧ req.Concluded kept piece orc s.rc kept'' s'.rc := by
    intro rc kept' gap' t hholds hlength hnext hpeers hrc hconcluded
    obtain ⟨s',gap'',hkeep,hholds',hlength',hnext',hrc',hpeers'⟩ := keep_spec hholds
    rw [hlength] at hkeep hlength'
    refine ⟨s',kept'++piece,gap'',hkeep,hholds',hlength',hnext'.trans hnext,
      hpeers'.trans hpeers,?_⟩
    rw [hrc',hrc]
    exact hconcluded
  have hrestart : ([] : List UInt8).length+(kept++gap).length=kept.length+gap.length := by
    rw [List.length_nil,List.length_append,Nat.zero_add]
  by_cases hreject : orc=.rej ∨ (orc=.nak ∧ req.rejectIfDisagree=true)
  · have hconcluded : req.Concluded kept piece orc s.rc ((if s.rc=.rej then kept else [])++piece)
        .rej := .reject hreject
    rw [conclude_reject hreject]
    split_ifs at hconcluded ⊢ with hrc
    · exact hkeep .rej kept gap s h rfl rfl rfl hrc hconcluded
    · exact hkeep .rej [] (kept++gap) _ (h.restart .rej) hrestart rfl rfl rfl hconcluded
  obtain ⟨hrej,hagree⟩ := not_or.mp hreject
  by_cases hskip : (orc=.ack ∧ s.rc≠.ack) ∨ (orc=.nak ∧ s.rc=.rej)
  · rw [conclude_skip (by
      refine hskip.imp id fun hnak => ⟨hnak.1,?_,hnak.2⟩
      exact (Bool.not_eq_true _).mp fun hdisagree => hagree ⟨hnak.1,hdisagree⟩)]
    refine ⟨s,kept,gap++piece,rfl,⟨?_,h.ucp⟩,?_,rfl,rfl,.skip hskip⟩
    · rw [List.append_assoc]
      exact h.inp
    · rw [List.length_append]
      omega
  obtain ⟨hack,hnak⟩ := not_or.mp hskip
  cases orc with
  | ack =>
    have hrc : s.rc=.ack := by
      by_contra hne
      exact hack ⟨rfl,hne⟩
    have hconcluded : req.Concluded kept piece .ack .ack (kept++piece) .ack := .accept
    rw [conclude_accept hrc]
    exact hkeep .ack kept gap s h rfl rfl rfl hrc (hrc.symm ▸ hconcluded)
  | nak =>
    have hrc : s.rc≠.rej := fun heq => hnak ⟨rfl,heq⟩
    have hfalse : req.rejectIfDisagree=false :=
      (Bool.not_eq_true _).mp fun hdisagree => hagree ⟨rfl,hdisagree⟩
    have hconcluded : req.Concluded kept piece .nak s.rc ((if s.rc=.nak then kept else [])++piece)
        .nak := .propose hfalse hrc
    rw [conclude_propose hfalse hrc]
    cases hreply : s.rc with
    | ack =>
      rw [hreply] at hconcluded
      rw [if_pos rfl]
      rw [hreply] at hkeep
      exact hkeep .nak [] (kept++gap) _ (h.restart .nak) hrestart rfl rfl rfl hconcluded
    | nak =>
      rw [hreply] at hconcluded hkeep
      rw [if_neg Reply.noConfusion]
      exact hkeep .nak kept gap s h rfl rfl rfl hreply hconcluded
    | rej => exact absurd hreply hrc
  | rej => exact absurd rfl hrej


/-- One turn of the loop, for a whole option. -/
theorem reqciLoop_block {kept gap value rest tail : List UInt8} {type len : UInt8}
    {s : IpcpRequesting} (hholds : Holds kept gap (type::len::(value++rest)++tail) s)
    (hnext : s.next=kept.length+gap.length) (hlen : len.toNat=value.length+2) :
    ∃ a,req.answer s.peers type len.toNat value=some a ∧ a.Fits req s.peers value ∧
      req.reqciLoop (type::len::(value++rest)).length s=
        (req.conclude (kept.length+gap.length) (type::len::a.p).length a.orc
          ⟨kept++(gap++((type::len::a.p)++(rest++tail))),s.next+len.toNat,s.ucp,s.rc,a.peers⟩).bind
          (req.reqciLoop rest.length) := by
  obtain ⟨a,hanswer,hanswers,hfits⟩ :=
    @settles_answer req s.peers len.toNat type value (rest++tail) hlen
  refine ⟨a,hanswer,hfits,?_⟩
  have hinp : s.inp=kept++(gap++(type::len::(value++(rest++tail)))) := by
    rw [hholds.inp,List.cons_append,List.cons_append,List.append_assoc]
  have hget := getElem?_behind kept gap (type::len::(value++(rest++tail)))
  have hdrop := drop_behind kept gap (type::len::(value++(rest++tail))) 2
  have hget₀ := hget 0
  have hleft : (type::len::(value++rest)).length=rest.length+len.toNat := by
    rw [hlen,List.length_cons,List.length_cons,List.length_append]
    omega
  have htake : (kept++(gap++(type::len::(value++(rest++tail))))).take (kept.length+gap.length+2)=
      kept++(gap++[type,len]) := by
    have hsplit : kept++(gap++(type::len::(value++(rest++tail))))=
        (kept++(gap++[type,len]))++(value++(rest++tail)) := by simp
    rw [hsplit]
    exact List.take_left' (by simp [Nat.add_assoc])
  have hlength : (type::len::a.p).length=len.toNat := by
    rw [List.length_cons,List.length_cons,hfits.length,hlen]
  rw [Nat.add_zero] at hget₀
  rw [hlength,reqciLoop,dif_neg (by simp),if_neg (by simp),hnext,hinp,hget 1]
  simp only [List.getElem?_cons_succ,List.getElem?_cons_zero,Option.bind_eq_bind,
    Option.bind_some]
  rw [dif_neg (by rw [hleft]; omega),hget₀,List.getElem?_cons_zero,Option.bind_some,hdrop]
  simp only [List.drop_succ_cons,List.drop_zero]
  rw [hanswers,Option.bind_some,hleft,Nat.add_sub_cancel,htake]
  simp only [List.append_assoc,List.cons_append,List.nil_append]

/-- A bad length ends the loop. -/
theorem reqciLoop_bad {kept gap rest tail : List UInt8} {s : IpcpRequesting}
    (hholds : Holds kept gap (rest++tail) s) (hnext : s.next=kept.length+gap.length)
    (hlength : rest.length<2^16)
    (hbad : rest.length=1 ∨ ∃ type len p,rest=type::len::p ∧
      ¬(2≤len.toNat ∧ len.toNat≤p.length+2)) :
    req.reqciLoop rest.length s=req.conclude (kept.length+gap.length) rest.length .rej s := by
  rcases hbad with hone | ⟨type,len,p,rfl,hbad⟩
  · rw [reqciLoop,dif_neg (by omega),if_pos (by omega),hnext,Nat.mod_eq_of_lt hlength]
  · have hget := getElem?_behind kept gap (type::len::p++tail) 1
    rw [← hholds.inp,List.cons_append,List.cons_append,List.getElem?_cons_succ,
      List.getElem?_cons_zero] at hget
    rw [reqciLoop,dif_neg (by simp),if_neg (by simp),hnext,hget,Nat.mod_eq_of_lt hlength]
    dsimp only [Option.bind_eq_bind,Option.bind_some]
    rw [dif_pos]
    rw [List.length_cons,List.length_cons]
    omega

/-- What is kept after the options that were read. -/
structure Kept (req : IpcpRequest) (wo : AddressOptions) (read : List (List UInt8))
    (kept : List UInt8) (rc : Reply) (peers : Peers) : Prop where
  ack : rc=.ack → kept=read.flatten
  rej : rc=.rej → ∃ sel : List (List UInt8),sel.Sublist read ∧ kept=sel.flatten
  nak : rc=.nak → peers.HasAddress ∨ (req.ao.CanOffer ∧ ∃ k,kept.length=6*k)
  asks : peers.wo.reqAddr=true → wo.reqAddr=true

/-- The options of a CONFREJ are not changed. -/
def Quiet (req : IpcpRequest) (n : ℕ) : Prop :=
  req.rejectIfDisagree=true → req.ao.NoServers ∨ n<6

theorem Kept.conclude {wo : AddressOptions} {read : List (List UInt8)} {kept kept' piece piece' : List UInt8}
    {orc rc rc' : Reply} {peers peers' : Peers} (h : req.Kept wo read kept rc peers)
    (hconcluded : req.Concluded kept piece' orc rc kept' rc')
    (hsame : orc≠.nak ∨ req.rejectIfDisagree=true → piece'=piece)
    (hnak : orc=.nak → peers'.HasAddress ∨ (piece'.length=6 ∧ req.ao.CanOffer))
    (haddress : peers.HasAddress → peers'.HasAddress)
    (hasks : peers'.wo.reqAddr=true → peers.wo.reqAddr=true) :
    req.Kept wo (read++[piece]) kept' rc' peers' := by
  have hgrow : read.Sublist (read++[piece]) := List.sublist_append_left ..
  have hstill : peers'.wo.reqAddr=true → wo.reqAddr=true := fun hreq => h.asks (hasks hreq)
  cases hconcluded with
  | accept =>
    refine ⟨fun _ => ?_,Reply.noConfusion,Reply.noConfusion,hstill⟩
    rw [h.ack rfl,hsame (Or.inl Reply.noConfusion),List.flatten_append]
    simp
  | skip hskip =>
    refine ⟨fun hack => ?_,fun hrej => ?_,fun hrc => ?_,hstill⟩
    · rcases hskip with ⟨-,hne⟩ | ⟨-,hrej⟩
      · exact absurd hack hne
      · rw [hack] at hrej
        cases hrej
    · obtain ⟨sel,hsel,hkept⟩ := h.rej hrej
      exact ⟨sel,hsel.trans hgrow,hkept⟩
    · exact (h.nak hrc).imp_left haddress
  | propose hagree hrc =>
    refine ⟨Reply.noConfusion,Reply.noConfusion,fun _ => ?_,hstill⟩
    rcases hnak rfl with hnamed | ⟨hsix,hoffer⟩
    · exact Or.inl hnamed
    · split_ifs with hwas
      · rcases h.nak hwas with hnamed | ⟨-,k,hk⟩
        · exact Or.inl (haddress hnamed)
        · refine Or.inr ⟨hoffer,k+1,?_⟩
          rw [List.length_append]
          omega
      · refine Or.inr ⟨hoffer,1,?_⟩
        rw [List.nil_append]
        omega
  | reject hreject =>
    refine ⟨Reply.noConfusion,fun _ => ?_,Reply.noConfusion,hstill⟩
    have hpiece : piece'=piece := by
      refine hsame ?_
      rcases hreject with hrej | ⟨-,hdisagree⟩
      · exact Or.inl (by rw [hrej]; exact Reply.noConfusion)
      · exact Or.inr hdisagree
    rw [hpiece]
    split_ifs with hwas
    · obtain ⟨sel,hsel,hkept⟩ := h.rej hwas
      refine ⟨sel++[piece],hsel.append_right [piece],?_⟩
      rw [hkept,List.flatten_append]
      simp
    · exact ⟨[piece],List.sublist_append_right ..,by simp⟩

/-- The loop goes through the pieces of what is left. -/
theorem reqciLoop_spec {n : ℕ} {wo : AddressOptions} (hquiet : req.Quiet n) (rest : List UInt8) :
    rest.length<2^16 → rest.length≤n → ∀ (read : List (List UInt8)) (kept gap tail : List UInt8) (s : IpcpRequesting),
    Holds kept gap (rest++tail) s → s.next=kept.length+gap.length →
    req.Kept wo read kept s.rc s.peers →
    ∃ s' kept' gap',req.reqciLoop rest.length s=some s' ∧ Holds kept' gap' tail s' ∧
      kept'.length+gap'.length=kept.length+gap.length+rest.length ∧
      req.Kept wo (read++pieces rest) kept' s'.rc s'.peers := by
  have hend : ∀ (rest : List UInt8),rest.length<2^16 →
      (rest.length=1 ∨ ∃ type len p,rest=type::len::p ∧
        ¬(2≤len.toNat ∧ len.toNat≤p.length+2)) →
      ∀ (read : List (List UInt8)) (kept gap tail : List UInt8) (s : IpcpRequesting),
      Holds kept gap (rest++tail) s → s.next=kept.length+gap.length →
      req.Kept wo read kept s.rc s.peers →
      ∃ s' kept' gap',req.reqciLoop rest.length s=some s' ∧ Holds kept' gap' tail s' ∧
        kept'.length+gap'.length=kept.length+gap.length+rest.length ∧
        req.Kept wo (read++[rest]) kept' s'.rc s'.peers := by
    intro rest hlength hbad read kept gap tail s hholds hnext hkept
    obtain ⟨s',kept',gap',hconclude,hholds',hlength',-,hpeers,hconcluded⟩ :=
      @conclude_spec req _ _ _ _ _ .rej hholds
    refine ⟨s',kept',gap',?_,hholds',hlength',?_⟩
    · rw [reqciLoop_bad hholds hnext hlength hbad]
      exact hconclude
    · rw [hpeers]
      exact hkept.conclude hconcluded (fun _ => rfl) Reply.noConfusion id id
  induction rest using pieces_induction with
  | nil =>
    intro hlength hn read kept gap tail s hholds hnext hkept
    have hpieces : pieces []=[] := by rw [pieces]
    rw [hpieces,List.append_nil,reqciLoop,dif_pos List.length_nil]
    exact ⟨s,kept,gap,rfl,hholds,rfl,hkept⟩
  | short b =>
    intro hlength hn read kept gap tail s
    have hpieces : pieces [b]=[[b]] := by rw [pieces]
    rw [hpieces]
    exact hend [b] hlength (Or.inl rfl) read kept gap tail s
  | bad type len p hbad =>
    intro hlength hn read kept gap tail s
    rw [pieces_bad hbad]
    exact hend _ hlength (Or.inr ⟨type,len,p,rfl,hbad⟩) read kept gap tail s
  | block type len value rest hlen ih =>
    intro hlength hn read kept gap tail s hholds hnext hkept
    obtain ⟨a,-,hfits,hloop⟩ := @reqciLoop_block req _ _ _ _ _ _ _ _ hholds hnext hlen
    have hleft : (type::len::(value++rest)).length=value.length+2+rest.length := by
      rw [List.length_cons,List.length_cons,List.length_append]
      omega
    have hpiece : (type::len::a.p).length=value.length+2 := by
      rw [List.length_cons,List.length_cons,hfits.length]
    obtain ⟨s₁,kept₁,gap₁,hconclude,hholds₁,hlength₁,hnext₁,hpeers₁,hconcluded⟩ :=
      @conclude_spec req kept gap (type::len::a.p) (rest++tail)
        ⟨kept++(gap++((type::len::a.p)++(rest++tail))),s.next+len.toNat,s.ucp,s.rc,a.peers⟩ a.orc
        ⟨rfl,hholds.ucp⟩
    have hkept₁ : req.Kept wo (read++[type::len::value]) kept₁ s₁.rc s₁.peers := by
      rw [hpeers₁]
      refine hkept.conclude hconcluded (fun hor => ?_) (fun hnak => ?_) hfits.address hfits.asks
      · rcases hor with hne | hdisagree
        · rw [hfits.same hne]
        · rw [hfits.quiet hdisagree ((hquiet hdisagree).imp_right fun hlt => by omega)]
      · exact (hfits.nak hnak).imp_right fun hfour => ⟨by omega,hfour.2⟩
    have hnext₁' : s₁.next=kept₁.length+gap₁.length := by
      rw [hnext₁,hlength₁]
      dsimp only
      omega
    obtain ⟨s',kept',gap',hrun,hholds',hlength',hkept'⟩ := ih (by omega) (by omega) _ kept₁ gap₁
      tail s₁ hholds₁ hnext₁' hkept₁
    refine ⟨s',kept',gap',?_,hholds',by omega,?_⟩
    · rw [hloop,hconclude,Option.bind_some]
      exact hrun
    · rw [pieces_block hlen]
      simpa using hkept'

/-! ## The space for the reply -/

/-- When every request of `n` bytes at most meets what it is for: no address of a server can be
written into a CONFREJ, and the option that is put behind the reply finds room. -/
def Safe (req : IpcpRequest) (wo : AddressOptions) (n : ℕ) : Prop :=
  req.Quiet n ∧ (req.rejectIfDisagree=false →
    n<1494 ∨ wo.reqAddr=false ∨ req.noremoteip=true ∨ ¬req.ao.CanOffer)

theorem meets_of_safe {wo : AddressOptions} {n : ℕ} (hn : n≤pppMru-4) (hsafe : req.Safe wo n)
    {inp : List UInt8} {len : ℕ} (hinp : inp.length=pppMru-4) (hlen : len≤n) :
    req.Meets wo inp len := by
  rw [pppMru] at hn hinp
  have hblock : (inp.take len).length=len := by
    rw [List.length_take]
    omega
  have hholds : Holds [] [] (inp.take len++inp.drop len) ⟨inp,0,0,.ack,⟨wo,.zero⟩⟩ :=
    ⟨(List.take_append_drop len inp).symm,rfl⟩
  have hkept : req.Kept wo [] [] .ack ⟨wo,.zero⟩ :=
    ⟨fun _ => rfl,Reply.noConfusion,Reply.noConfusion,id⟩
  obtain ⟨s,kept,gap,hloop,hholds',hlength,hkept'⟩ := reqciLoop_spec hsafe.1 (inp.take len)
    (by omega) (by omega) [] [] [] (inp.drop len) _ hholds rfl hkept
  rw [hblock] at hloop hlength
  rw [List.nil_append] at hkept'
  rw [Meets,reqci,hloop]
  dsimp only [Option.bind_eq_bind,Option.bind_some]
  by_cases hask : s.rc≠.rej ∧ s.peers.ho.negAddr=false ∧ s.peers.ho.oldAddrs=false ∧
      s.peers.wo.reqAddr=true ∧ req.rejectIfDisagree=false ∧ req.noremoteip=false
  · have hroom : (if s.rc=.ack then 0 else s.ucp)+cilenAddr ≤ s.inp.length := by
      have htail : s.inp.length=1496 := by
        rw [hholds'.inp,List.length_append,List.length_append,List.length_drop]
        simp only [List.length_nil] at hlength
        omega
      rw [htail,cilenAddr]
      obtain ⟨hrej,hneg,hold,hasks,hagree,hremote⟩ := hask
      cases hrc : s.rc with
      | ack =>
        rw [if_pos rfl]
        omega
      | nak =>
        rw [if_neg Reply.noConfusion,hholds'.ucp]
        rcases hkept'.nak hrc with hnamed | ⟨hoffer,k,hk⟩
        · rw [Peers.HasAddress,hneg,hold] at hnamed
          simp at hnamed
        · rcases hsafe.2 hagree with hshort | hwants | hno | hnot
          · simp only [List.length_nil] at hlength
            omega
          · rw [hkept'.asks hasks] at hwants
            cases hwants
          · rw [hremote] at hno
            cases hno
          · exact absurd hoffer hnot
      | rej => exact absurd hrc hrej
    rw [finish,if_pos hask]
    by_cases hack : s.rc=.ack
    · rw [if_pos hack] at hroom
      simp only [hack,if_true]
      rw [memcpy,if_pos ⟨hroom,le_rfl⟩]
      exact ⟨_,rfl,Reply.noConfusion,Reply.noConfusion⟩
    · rw [if_neg hack] at hroom
      simp only [hack,if_false]
      rw [memcpy,if_pos ⟨hroom,le_rfl⟩]
      exact ⟨_,rfl,fun heq => absurd heq hack,fun heq => absurd heq hask.1⟩
  · rw [finish,if_neg hask]
    refine ⟨_,rfl,fun hack => ?_,fun hrej => ?_⟩
    · dsimp only at hack ⊢
      have hall := hkept'.ack hack
      rw [pieces_flatten] at hall
      have hgap : gap=[] := by
        refine List.length_eq_zero_iff.mp ?_
        rw [hall,hblock] at hlength
        simp only [List.length_nil] at hlength
        omega
      refine ⟨?_,?_⟩
      · rw [hholds'.ucp,hall,hblock]
      · rw [hholds'.inp,hgap,hall,List.nil_append,List.take_append_drop]
    · dsimp only at hrej ⊢
      obtain ⟨sel,hsel,hflatten⟩ := hkept'.rej hrej
      refine ⟨sel,hsel,?_⟩
      rw [hholds'.inp,hholds'.ucp,List.take_left,hflatten]

/-- The address of a server that is offered. -/
theorem exists_server {ao : IpcpOptions} (h : ¬ao.NoServers) :
    ∃ citype addr,addr≠0 ∧ ∀ req : IpcpRequest,req.ao=ao → ∀ peers cilen p,
      req.answer peers citype cilen p=answerServer addr peers cilen p := by
  by_cases hdns0 : ao.dnsaddr0=0
  · by_cases hdns1 : ao.dnsaddr1=0
    · by_cases hwins0 : ao.winsaddr0=0
      · have hwins1 : ao.winsaddr1≠0 := fun hzero => h ⟨hdns0,hdns1,hwins0,hzero⟩
        exact ⟨ciMsWins2,ao.winsaddr1,hwins1,fun req hao peers cilen p => hao ▸ rfl⟩
      · exact ⟨ciMsWins1,ao.winsaddr0,hwins0,fun req hao peers cilen p => hao ▸ rfl⟩
    · exact ⟨ciMsDns2,ao.dnsaddr1,hdns1,fun req hao peers cilen p => hao ▸ rfl⟩
  · exact ⟨ciMsDns1,ao.dnsaddr0,hdns0,fun req hao peers cilen p => hao ▸ rfl⟩

theorem htonl_zero : htonl (getLong 0 0 0 0)=0 := by decide

/-- The address 0 is replaced. -/
theorem answerServer_zero {addr : UInt32} (hne : addr≠0) (peers : Peers) :
    answerServer addr peers 6 [0,0,0,0]=some ⟨.nak,peers,putLong (ntohl addr)⟩ := by
  have hguard : ¬(addr=0 ∨ 6≠cilenAddr) := not_or.mpr ⟨hne,not_not.mpr rfl⟩
  rw [answerServer,if_neg hguard]
  dsimp only [getLongAt,Option.bind_eq_bind,Option.bind_some]
  rw [if_pos (by rw [htonl_zero]; exact hne.symm)]
  rfl

/-- The address of a server gets into a CONFREJ. -/
theorem not_meets_server (req : IpcpRequest) (wo : AddressOptions) (hreject : req.rejectIfDisagree=true)
    {citype : UInt8} {addr : UInt32} (hne : addr≠0)
    (hanswer : ∀ peers cilen p,req.answer peers citype cilen p=answerServer addr peers cilen p)
    (tail : List UInt8) : ¬req.Meets wo ([citype,6,0,0,0,0]++tail) 6 := by
  have hholds : Holds [] [] (citype::6::([0,0,0,0]++[])++tail)
      ⟨[citype,6,0,0,0,0]++tail,0,0,.ack,⟨wo,.zero⟩⟩ := ⟨rfl,rfl⟩
  obtain ⟨a,ha,-,hloop⟩ := @reqciLoop_block req _ _ _ _ _ _ 6 _ hholds rfl rfl
  rw [hanswer] at ha
  obtain rfl := Option.some.inj ((answerServer_zero hne _).symm.trans ha)
  obtain ⟨s₁,kept₁,gap₁,hconclude,hholds₁,-,-,-,hconcluded⟩ :=
    @conclude_spec req [] [] (citype::6::putLong (ntohl addr)) ([]++tail)
      ⟨[]++([]++((citype::6::putLong (ntohl addr))++([]++tail))),0+(6 : UInt8).toNat,0,.ack,
        ⟨wo,.zero⟩⟩ .nak ⟨rfl,rfl⟩
  have hresult : s₁.rc=.rej ∧ kept₁=citype::6::putLong (ntohl addr) := by
    generalize s₁.rc=rc' at hconcluded
    cases hconcluded with
    | skip h =>
      rcases h with ⟨hack,-⟩ | ⟨-,hrej⟩
      · cases hack
      · cases hrej
    | propose hagree _ =>
      rw [hreject] at hagree
      cases hagree
    | reject _ => exact ⟨rfl,rfl⟩
  rintro ⟨o,ho,-,hsel⟩
  have hdone : req.reqciLoop 0 s₁=some s₁ := by rw [reqciLoop,dif_pos rfl]
  rw [reqci,show (6 : ℕ)=(citype::6::([0,0,0,0]++[])).length from rfl,hloop] at ho
  rw [hconclude] at ho
  dsimp only [Option.bind_eq_bind,Option.bind_some,List.length_nil] at ho
  rw [hdone,Option.bind_some,finish,if_neg fun hand => hand.1 hresult.1] at ho
  obtain rfl := Option.some.inj ho
  obtain ⟨sel,hsub,hout⟩ := hsel hresult.1
  have hpieces : pieces (([citype,6,0,0,0,0]++tail).take 6)=[[citype,6,0,0,0,0]] := by
    have hall : pieces (citype::6::([0,0,0,0]++[]))=[citype,6,0,0,0,0]::pieces [] :=
      pieces_block rfl
    rw [pieces] at hall
    exact hall
  dsimp only at hout
  rw [hholds₁.inp,hholds₁.ucp,List.take_left,hresult.2] at hout
  rw [hpieces] at hsub
  rcases List.sublist_cons_iff.mp hsub with hnone | ⟨rest,rfl,hrest⟩
  · rw [List.sublist_nil.mp hnone] at hout
    cases hout
  · rw [List.sublist_nil.mp hrest] at hout
    have hbytes : [0,0,0,0]=putLong (ntohl addr) := by
      have htails := (List.cons_eq_cons.mp (List.cons_eq_cons.mp hout).2).2
      exact htails.symm
    have hzero := (getLong_eq_iff (ntohl addr) 0 0 0 0).mpr hbytes
    refine hne ?_
    rw [← htonl_ntohl addr,← hzero]
    exact htonl_zero

/-- An option that is answered with a counter-proposal, and names no address. -/
def Offered (req : IpcpRequest) (citype : UInt8) (value : List UInt8) : Prop :=
  ∀ peers,∃ p ho,req.answer peers citype 6 value=some ⟨.nak,{ peers with ho := ho },p⟩ ∧
    ho.negAddr=peers.ho.negAddr ∧ ho.oldAddrs=peers.ho.oldAddrs

theorem exists_offered (h : req.ao.CanOffer) :
    ∃ citype value,value.length=4 ∧ req.Offered citype value := by
  rcases h with hservers | ⟨hvj,hoffer⟩
  · obtain ⟨citype,addr,hne,hanswer⟩ := exists_server hservers
    refine ⟨citype,[0,0,0,0],rfl,fun peers => ⟨putLong (ntohl addr),peers.ho,?_,rfl,rfl⟩⟩
    rw [hanswer req rfl]
    exact answerServer_zero hne peers
  · refine ⟨ciCompresstype,[0x00,0x2d,0xff,0x01],rfl,fun peers => ?_⟩
    have hanswer : req.answer peers ciCompresstype 6 [0x00,0x2d,0xff,0x01]=
        req.answerVj peers ipcpVjComp ([0x00,0x2d,0xff,0x01]++[]) := by
      have hguard : ¬(req.ao.negVj=false ∨ (6≠cilenVj ∧ 6≠cilenCompress)) := by
        rw [hvj]
        decide
      change req.answerCompresstype peers 6 [0x00,0x2d,0xff,0x01]=_
      rw [answerCompresstype,if_neg hguard]
      rfl
    have hbad : (decide (req.ao.maxslotindex<(0xff : UInt8).toNat) ||
        decide ((0x01 : UInt8)≠0 ∧ req.ao.cflag=0))=true := by
      rw [Bool.or_eq_true,decide_eq_true_iff,decide_eq_true_iff]
      exact hoffer.imp id fun hflag => ⟨by decide,hflag⟩
    rw [hanswer,answerVj_eq,hbad]
    exact ⟨_,_,rfl,rfl,rfl⟩

/-- One turn of the loop for such an option. -/
theorem reqciLoop_offered {citype : UInt8} {value : List UInt8} (hvalue : value.length=4)
    (hoffered : req.Offered citype value) (hagree : req.rejectIfDisagree=false)
    {kept gap rest tail : List UInt8} {s : IpcpRequesting}
    (hholds : Holds kept gap (citype::6::(value++rest)++tail) s) (hnext : s.next=kept.length+gap.length)
    (hrc : s.rc≠.rej) :
    ∃ s₁ kept₁ gap₁,req.reqciLoop (citype::6::(value++rest)).length s=req.reqciLoop rest.length s₁ ∧
      Holds kept₁ gap₁ (rest++tail) s₁ ∧ s₁.next=kept₁.length+gap₁.length ∧
      kept₁.length+gap₁.length=kept.length+gap.length+6 ∧ s₁.rc=.nak ∧
      kept₁.length=(if s.rc=.nak then kept.length else 0)+6 ∧ s₁.peers.wo=s.peers.wo ∧
      s₁.peers.ho.negAddr=s.peers.ho.negAddr ∧ s₁.peers.ho.oldAddrs=s.peers.ho.oldAddrs := by
  have hlen : (6 : UInt8).toNat=value.length+2 := by
    rw [hvalue]
    rfl
  obtain ⟨a,ha,hfits,hloop⟩ := reqciLoop_block hholds hnext hlen
  obtain ⟨p,ho,hanswer,hneg,hold⟩ := hoffered s.peers
  obtain rfl := Option.some.inj (hanswer.symm.trans ha)
  obtain ⟨s₁,kept₁,gap₁,hconclude,hholds₁,hlength,hnext₁,hpeers,hconcluded⟩ :=
    @conclude_spec req kept gap (citype::6::p) (rest++tail)
      ⟨kept++(gap++((citype::6::p)++(rest++tail))),s.next+(6 : UInt8).toNat,s.ucp,s.rc,
        { s.peers with ho := ho }⟩ .nak ⟨rfl,hholds.ucp⟩
  have hp : (citype::6::p).length=6 := by
    rw [List.length_cons,List.length_cons,hfits.length,hvalue]
  have hresult : s₁.rc=.nak ∧ kept₁.length=(if s.rc=.nak then kept.length else 0)+6 := by
    dsimp only at hconcluded
    generalize s₁.rc=rc' at hconcluded
    cases hconcluded with
    | skip h =>
      rcases h with ⟨hack,-⟩ | ⟨-,hrej⟩
      · cases hack
      · exact absurd hrej hrc
    | propose _ _ =>
      refine ⟨rfl,?_⟩
      rw [List.length_append,hp]
      split_ifs
      · rfl
      · rfl
    | reject h =>
      rcases h with hrej | ⟨-,hdisagree⟩
      · cases hrej
      · rw [hagree] at hdisagree
        cases hdisagree
  rw [hp] at hlength
  refine ⟨s₁,kept₁,gap₁,?_,hholds₁,?_,hlength,hresult.1,hresult.2,?_,?_,?_⟩
  · rw [hloop,hconclude,Option.bind_some]
  · rw [hnext₁,hlength,← hnext]
    rfl
  · rw [hpeers]
  · rw [hpeers]
    exact hneg
  · rw [hpeers]
    exact hold

/-- Many such options. -/
theorem reqciLoop_offers {citype : UInt8} {value : List UInt8} (hvalue : value.length=4)
    (hoffered : req.Offered citype value) (hagree : req.rejectIfDisagree=false) (tail : List UInt8)
    (k : ℕ) : ∀ (kept gap : List UInt8) (s : IpcpRequesting),
    Holds kept gap ((List.replicate k (citype::6::value)).flatten++tail) s →
    s.next=kept.length+gap.length → s.rc=.nak →
    ∃ s',req.reqciLoop (List.replicate k (citype::6::value)).flatten.length s=some s' ∧
      s'.rc=.nak ∧ s'.ucp=kept.length+6*k ∧
      s'.inp.length=kept.length+gap.length+6*k+tail.length ∧ s'.peers.wo=s.peers.wo ∧
      s'.peers.ho.negAddr=s.peers.ho.negAddr ∧ s'.peers.ho.oldAddrs=s.peers.ho.oldAddrs := by
  induction k with
  | zero =>
    intro kept gap s hholds hnext hrc
    refine ⟨s,?_,hrc,hholds.ucp,?_,rfl,rfl,rfl⟩
    · rw [List.replicate_zero,List.flatten_nil,reqciLoop,dif_pos List.length_nil]
    · rw [hholds.inp,List.replicate_zero,List.flatten_nil,List.nil_append,List.length_append,
        List.length_append]
      omega
  | succ k ih =>
    intro kept gap s hholds hnext hrc
    rw [List.replicate_succ,List.flatten_cons,List.cons_append,List.cons_append] at hholds ⊢
    obtain ⟨s₁,kept₁,gap₁,hloop,hholds₁,hnext₁,hsum,hrc₁,hlength,hwo,hneg,hold⟩ :=
      reqciLoop_offered hvalue hoffered hagree hholds hnext (by rw [hrc]; exact Reply.noConfusion)
    obtain ⟨s',hrun,hrc',hucp,hinp,hwo',hneg',hold'⟩ := ih kept₁ gap₁ s₁ hholds₁ hnext₁ hrc₁
    rw [if_pos hrc] at hlength
    refine ⟨s',?_,hrc',?_,?_,hwo'.trans hwo,hneg'.trans hneg,hold'.trans hold⟩
    · rw [hloop]
      exact hrun
    · rw [hucp,hlength]
      omega
    · rw [hinp]
      omega

/-- Without an address the one of the peer is asked for behind the reply, also where the reply
fills the buffer. -/
theorem not_meets_offered {wo : AddressOptions} {citype : UInt8} {value : List UInt8}
    (hvalue : value.length=4) (hoffered : req.Offered citype value)
    (hagree : req.rejectIfDisagree=false) (hasks : wo.reqAddr=true) (hremote : req.noremoteip=false)
    (tail : List UInt8) (htail : tail.length<6) (k : ℕ) :
    ¬req.Meets wo ((List.replicate (k+1) (citype::6::value)).flatten++tail)
      (List.replicate (k+1) (citype::6::value)).flatten.length := by
  rintro ⟨o,ho,-⟩
  have hfirst : (List.replicate (k+1) (citype::6::value)).flatten=
      citype::6::(value++(List.replicate k (citype::6::value)).flatten) := rfl
  rw [hfirst] at ho
  have hholds : Holds [] []
      (citype::6::(value++(List.replicate k (citype::6::value)).flatten)++tail)
      ⟨citype::6::(value++(List.replicate k (citype::6::value)).flatten)++tail,0,0,.ack,
        ⟨wo,.zero⟩⟩ := ⟨rfl,rfl⟩
  obtain ⟨s₁,kept₁,gap₁,hloop,hholds₁,hnext₁,hsum,hrc₁,hlength,hwo,hneg,hold⟩ :=
    reqciLoop_offered hvalue hoffered hagree hholds rfl Reply.noConfusion
  obtain ⟨s,hrun,hrc,hucp,hinp,hwo',hneg',hold'⟩ :=
    reqciLoop_offers hvalue hoffered hagree tail k kept₁ gap₁ s₁ hholds₁ hnext₁ hrc₁
  rw [reqci,hloop,hrun] at ho
  dsimp only [Option.bind_eq_bind,Option.bind_some] at ho
  rw [if_neg Reply.noConfusion] at hlength
  rw [List.length_nil] at hsum
  have hask : s.rc≠.rej ∧ s.peers.ho.negAddr=false ∧ s.peers.ho.oldAddrs=false ∧
      s.peers.wo.reqAddr=true ∧ req.rejectIfDisagree=false ∧ req.noremoteip=false := by
    refine ⟨by rw [hrc]; exact Reply.noConfusion,hneg'.trans hneg,hold'.trans hold,?_,hagree,
      hremote⟩
    rw [hwo',hwo]
    exact hasks
  have hroom : ¬(s.ucp+cilenAddr ≤ s.inp.length ∧
      cilenAddr≤(addCi ciAddr cilenAddr true (putLong (ntohl s.peers.wo.hisaddr))).length) := by
    intro hand
    have hle := hand.1
    rw [hucp,hinp,cilenAddr] at hle
    omega
  rw [finish,if_pos hask] at ho
  simp only [hrc,reduceCtorEq,if_false] at ho
  rw [memcpy,if_neg hroom] at ho
  cases ho

/-- The address of a name server is offered. -/
def offersDns (reject : Bool) : IpcpRequest :=
  ⟨{ IpcpOptions.zero with dnsaddr0 := 0x01020304 },reject,false⟩

/-- The address of the peer is asked for. -/
def wantsAddress : AddressOptions := { IpcpOptions.zero with reqAddr := true, acceptLocal := false, acceptRemote := false }

end IpcpRequest

end AndroidPlatform.PppOptions
