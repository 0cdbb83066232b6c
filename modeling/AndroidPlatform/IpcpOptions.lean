import AndroidPlatform.LcpOptions

/-!
# The options of IPCP

The options that `ipcp.c` asks for. `ipcp_addci` has a limited space and switches
off what does not fit, and `ipcp_ackci` works on the options that are left.
-/

namespace AndroidPlatform.PppOptions

open ByteCheckers

/-- `ntohl` on a little-endian machine: the bytes in memory, in network order. -/
def ntohl (l : UInt32) : UInt32 :=
  getLong (UInt8.ofNat l.toNat) (UInt8.ofNat (l.toNat/2^8)) (UInt8.ofNat (l.toNat/2^16))
    (UInt8.ofNat (l.toNat/2^24))

/-- `htonl`, which reverses the bytes as well. -/
def htonl (l : UInt32) : UInt32 := ntohl l

/-- The check of an address. -/
def checkAddr (val : UInt32) : List UInt8 → Option (List UInt8)
  | a::b::c::d::p => if val≠htonl (getLong a b c d) then none else some p
  | _ => none

/-- The check of `GETCHAR` against an `int`. -/
def checkInt (val : ℤ) : List UInt8 → Option (List UInt8)
  | c::p => if (c.toNat : ℤ)≠val then none else some p
  | [] => none

theorem ntohl_getLong (a b c d : UInt8) : ntohl (getLong a b c d)=getLong d c b a := by
  have hbytes := (getLong_eq_iff (getLong a b c d) a b c d).mp rfl
  simp only [putLong,List.cons_eq_cons,and_true] at hbytes
  obtain ⟨ha,hb,hc,hd⟩ := hbytes
  rw [ntohl,← ha,← hb,← hc,← hd]

theorem htonl_ntohl (l : UInt32) : htonl (ntohl l)=l := by
  exact (ntohl_getLong _ _ _ _).trans ((getLong_eq_iff l _ _ _ _).mpr rfl)

theorem accepts_checkAddr (val : UInt32) : Accepts (checkAddr val) (putLong (ntohl val)) := by
  refine accepts_of_iff (fun p hp => ?_) (fun q rest hq => ?_)
  · rcases p with _ | ⟨_,_ | ⟨_,_ | ⟨_,_ | ⟨_,p⟩⟩⟩⟩
    · rfl
    · rfl
    · rfl
    · rfl
    · simp only [putLong,List.length_cons,List.length_nil] at hp
      omega
  · obtain ⟨a,b,c,d,rfl⟩ := List.length_eq_four.mp hq
    have hiff : val=htonl (getLong a b c d) ↔ [a,b,c,d]=putLong (ntohl val) := by
      rw [← getLong_eq_iff]
      constructor
      · intro hval
        rw [hval]
        exact (htonl_ntohl _).symm
      · intro hval
        rw [hval,htonl_ntohl]
    rw [List.cons_append,List.cons_append,List.cons_append,List.cons_append,List.nil_append,
      checkAddr]
    simp only [← hiff,ite_not]

theorem accepts_checkInt {val : ℤ} (hge : 0≤val) (hlt : val<256) :
    Accepts (checkInt val) [UInt8.ofInt val] := by
  refine accepts_of_iff (fun p hp => ?_) (fun q rest hq => ?_)
  · match p with
    | [] => rfl
    | _::p =>
      simp only [List.length_cons,List.length_nil] at hp
      omega
  · obtain ⟨c,rfl⟩ := List.length_eq_one_iff.mp hq
    have hiff : (c.toNat : ℤ)=val ↔ [c]=[UInt8.ofInt val] := by
      have hc := c.toNat_lt
      simp only [List.cons_eq_cons,and_true,← UInt8.toNat_inj,UInt8.ofInt,UInt8.toNat_ofNat']
      omega
    rw [List.cons_append,List.nil_append,checkInt]
    simp only [← hiff,ite_not]

theorem refuses_checkInt {val : ℤ} (h : ¬(0≤val ∧ val<256)) : Refuses (checkInt val) := by
  intro p
  match p with
  | [] => rfl
  | c::p =>
    have hc := c.toNat_lt
    rw [checkInt,if_pos]
    omega

/-! ## The options -/

/-- `ipcp_options`, as far as requests depend on it. -/
structure IpcpOptions where
  /-- `neg_addr` -/
  negAddr : Bool
  /-- `old_addrs` -/
  oldAddrs : Bool
  /-- `neg_vj` -/
  negVj : Bool
  /-- `old_vj` -/
  oldVj : Bool
  /-- `req_dns1` -/
  reqDns1 : Bool
  /-- `req_dns2` -/
  reqDns2 : Bool
  /-- `vj_protocol` -/
  vjProtocol : ℤ
  /-- `maxslotindex` -/
  maxslotindex : ℤ
  /-- `cflag`, which is written as a byte. -/
  cflag : UInt8
  /-- `ouraddr` -/
  ouraddr : UInt32
  /-- `hisaddr` -/
  hisaddr : UInt32
  /-- `dnsaddr[0]` -/
  dnsaddr0 : UInt32
  /-- `dnsaddr[1]` -/
  dnsaddr1 : UInt32
  /-- `winsaddr[0]` -/
  winsaddr0 : UInt32
  /-- `winsaddr[1]` -/
  winsaddr1 : UInt32

/-- `CILEN_COMPRESS` -/
def cilenCompress : ℕ := 4

/-- `CILEN_VJ` -/
def cilenVj : ℕ := 6

/-- `CILEN_ADDR` -/
def cilenAddr : ℕ := 6

/-- `CILEN_ADDRS` -/
def cilenAddrs : ℕ := 10

/-- `CI_ADDRS` -/
def ciAddrs : UInt8 := 1

/-- `CI_COMPRESSTYPE` -/
def ciCompresstype : UInt8 := 2

/-- `CI_ADDR` -/
def ciAddr : UInt8 := 3

/-- `CI_MS_DNS1` -/
def ciMsDns1 : UInt8 := 129

/-- `CI_MS_WINS1` -/
def ciMsWins1 : UInt8 := 130

/-- `CI_MS_DNS2` -/
def ciMsDns2 : UInt8 := 131

/-- `CI_MS_WINS2` -/
def ciMsWins2 : UInt8 := 132

/-- `vjlen` -/
def vjlen (old : Bool) : ℕ := if old then cilenCompress else cilenVj

namespace IpcpOptions

variable (go : IpcpOptions)

/-- Both addresses are asked for in the old form. -/
def asksAddrs : Bool := !go.negAddr && go.oldAddrs

/-- What `ipcp_cilen` changes: the old form of the addresses if the peer uses it, and
the old form of the compression if the peer wants it. -/
def settle (go wo ho : IpcpOptions) : IpcpOptions :=
  let go' := if go.negAddr && go.oldAddrs && !ho.negAddr && ho.oldAddrs
    then { go with negAddr := false } else go
  if wo.negVj && !go'.negVj && !go'.oldVj && (ho.negVj && ho.oldVj)
    then { go' with negVj := true, oldVj := true, vjProtocol := ho.vjProtocol } else go'

/-- The sum of `ipcp_cilen`. -/
def cilen : ℕ :=
  lenCi cilenAddrs go.asksAddrs+
  lenCi (vjlen go.oldVj) go.negVj+
  lenCi cilenAddr go.negAddr+
  lenCi cilenAddr go.reqDns1+
  lenCi cilenAddr go.reqDns2+
  lenCi cilenAddr (decide (go.winsaddr0≠0))+
  lenCi cilenAddr (decide (go.winsaddr1≠0))

/-- The value of the compression option. -/
def vjValue : List UInt8 :=
  if go.oldVj then putShort go.vjProtocol
  else putShort go.vjProtocol++([UInt8.ofInt go.maxslotindex]++[go.cflag])

/-- The check of the value of the compression option. -/
def checkVj : List UInt8 → Option (List UInt8) :=
  if go.oldVj then checkShort go.vjProtocol
  else checkAll [checkShort go.vjProtocol,
    checkAll [checkInt go.maxslotindex,checkChar go.cflag]]

/-- The checks of `ipcp_ackci`, one after the other. -/
def checks : List (List UInt8 → Option (List UInt8)) :=
  [ackCi ciAddrs cilenAddrs go.asksAddrs (checkAll [checkAddr go.ouraddr,checkAddr go.hisaddr]),
    ackCi ciCompresstype (vjlen go.oldVj) go.negVj go.checkVj,
    ackCi ciAddr cilenAddr go.negAddr (checkAddr go.ouraddr),
    ackCi ciMsDns1 cilenAddr go.reqDns1 (checkAddr go.dnsaddr0),
    ackCi ciMsDns2 cilenAddr go.reqDns2 (checkAddr go.dnsaddr1),
    ackCi ciMsWins1 cilenAddr (decide (go.winsaddr0≠0)) (checkAddr go.winsaddr0),
    ackCi ciMsWins2 cilenAddr (decide (go.winsaddr1≠0)) (checkAddr go.winsaddr1)]

/-- `ipcp_ackci`: nothing may be left. -/
def ackci (p : List UInt8) : Bool := decide (checkAll go.checks p=some [])

end IpcpOptions

/-- The state of `ipcp_addci`: the options, the space that is left, and the bytes
written so far. -/
structure Writer where
  /-- `go` -/
  go : IpcpOptions
  /-- `len` -/
  len : ℕ
  /-- The bytes before `ucp`. -/
  out : List UInt8

/-- `ADDCIADDRS` and its siblings: an option that does not fit is switched off. -/
def addItem (opt : UInt8) (neg : IpcpOptions → Bool) (cilen : IpcpOptions → ℕ)
    (value : IpcpOptions → List UInt8) (off : IpcpOptions → IpcpOptions) (w : Writer) : Writer :=
  if neg w.go then
    if cilen w.go≤w.len then
      { w with len := w.len-cilen w.go, out := w.out++addCi opt (cilen w.go) true (value w.go) }
    else { w with go := off w.go }
  else w

/-- `ADDCIADDRS` -/
def addCiAddrs : Writer → Writer :=
  addItem ciAddrs IpcpOptions.asksAddrs (fun _ => cilenAddrs)
    (fun go => putLong (ntohl go.ouraddr)++putLong (ntohl go.hisaddr))
    (fun go => { go with oldAddrs := false })

/-- `ADDCIVJ` -/
def addCiVj : Writer → Writer :=
  addItem ciCompresstype IpcpOptions.negVj (fun go => vjlen go.oldVj) IpcpOptions.vjValue
    (fun go => { go with negVj := false })

/-- `ADDCIADDR` and `ADDCIDNS` -/
def addCiAddr (opt : UInt8) (neg : IpcpOptions → Bool) (val : IpcpOptions → UInt32)
    (off : IpcpOptions → IpcpOptions) : Writer → Writer :=
  addItem opt neg (fun _ => cilenAddr) (fun go => putLong (ntohl (val go))) off

/-- `ADDCIWINS`: the address itself tells whether it is asked for. -/
def addCiWins (opt : UInt8) (addr : IpcpOptions → UInt32) (off : IpcpOptions → IpcpOptions) :
    Writer → Writer :=
  addCiAddr opt (fun go => decide (addr go≠0)) addr off

/-- The options after the compression in `ipcp_addci`. -/
def addAddresses (w : Writer) : Writer :=
  let w := addCiAddr ciAddr IpcpOptions.negAddr IpcpOptions.ouraddr
    (fun go => { go with negAddr := false }) w
  let w := addCiAddr ciMsDns1 IpcpOptions.reqDns1 IpcpOptions.dnsaddr0
    (fun go => { go with reqDns1 := false }) w
  let w := addCiAddr ciMsDns2 IpcpOptions.reqDns2 IpcpOptions.dnsaddr1
    (fun go => { go with reqDns2 := false }) w
  let w := addCiWins ciMsWins1 IpcpOptions.winsaddr0 (fun go => { go with winsaddr0 := 0 }) w
  addCiWins ciMsWins2 IpcpOptions.winsaddr1 (fun go => { go with winsaddr1 := 0 }) w

/-- `ipcp_addci` with space for `lenp` bytes. -/
def IpcpOptions.addci (go : IpcpOptions) (lenp : ℕ) : Writer :=
  addAddresses (addCiVj (addCiAddrs ⟨go,lenp,[]⟩))

namespace IpcpOptions

variable (go wo ho : IpcpOptions)

/-- The numbers of the compression option fit if they are written. -/
def VjFits : Prop :=
  go.negVj=true → (0≤go.vjProtocol ∧ go.vjProtocol<65536) ∧
    (go.oldVj=false → 0≤go.maxslotindex ∧ go.maxslotindex<256)

/-- The bytes of the options that are left. -/
def requests : List (List UInt8) :=
  [addCi ciAddrs cilenAddrs go.asksAddrs
      (putLong (ntohl go.ouraddr)++putLong (ntohl go.hisaddr)),
    addCi ciCompresstype (vjlen go.oldVj) go.negVj go.vjValue,
    addCi ciAddr cilenAddr go.negAddr (putLong (ntohl go.ouraddr)),
    addCi ciMsDns1 cilenAddr go.reqDns1 (putLong (ntohl go.dnsaddr0)),
    addCi ciMsDns2 cilenAddr go.reqDns2 (putLong (ntohl go.dnsaddr1)),
    addCi ciMsWins1 cilenAddr (decide (go.winsaddr0≠0)) (putLong (ntohl go.winsaddr0)),
    addCi ciMsWins2 cilenAddr (decide (go.winsaddr1≠0)) (putLong (ntohl go.winsaddr1))]

theorem vjlen_eq : vjlen go.oldVj=go.vjValue.length+2 := by
  unfold vjlen vjValue
  split_ifs
  · rfl
  · rfl

theorem vjlen_lt (old : Bool) : vjlen old<256 := by
  unfold vjlen
  split_ifs
  · decide
  · decide

/-- The numbers of the compression option fit. -/
def VjNumbersFit : Prop :=
  (0≤go.vjProtocol ∧ go.vjProtocol<65536) ∧
    (go.oldVj=false → 0≤go.maxslotindex ∧ go.maxslotindex<256)

theorem accepts_checkVj {go : IpcpOptions} (h : go.VjNumbersFit) :
    Accepts go.checkVj go.vjValue := by
  obtain ⟨hprotocol,hslot⟩ := h
  unfold checkVj vjValue
  split_ifs with hold
  · exact accepts_checkShort hprotocol.1 hprotocol.2
  · obtain ⟨hge,hlt⟩ := hslot (Bool.not_eq_true _ ▸ hold)
    exact accepts_pair (accepts_checkShort hprotocol.1 hprotocol.2)
      (accepts_pair (accepts_checkInt hge hlt) (accepts_checkChar _))

theorem refuses_checkVj {go : IpcpOptions} (h : ¬go.VjNumbersFit) : Refuses go.checkVj := by
  unfold checkVj
  rcases not_and_or.mp h with hprotocol | hslot
  · split_ifs
    · exact refuses_checkShort hprotocol
    · exact refuses_checkAll List.mem_cons_self (refuses_checkShort hprotocol)
  · obtain ⟨hold,hslot⟩ := Classical.not_imp.mp hslot
    rw [hold,if_neg Bool.false_ne_true]
    have hpair : Refuses (checkAll [checkInt go.maxslotindex,checkChar go.cflag]) :=
      refuses_checkAll List.mem_cons_self (refuses_checkInt hslot)
    exact refuses_checkAll (List.mem_cons_of_mem _ List.mem_cons_self) hpair

theorem accepts_checks (h : go.VjFits) : Accepts (checkAll go.checks) go.requests.flatten := by
  have haddr : ∀ opt neg val, Accepts (ackCi opt cilenAddr neg (checkAddr val))
      (addCi opt cilenAddr neg (putLong (ntohl val))) :=
    fun _ _ _ => accepts_ackCi rfl (by decide) (fun _ => accepts_checkAddr _)
  refine accepts_checkAll (.cons ?_ (.cons ?_ (.cons ?_ (.cons ?_ (.cons ?_ (.cons ?_ (.cons ?_
    .nil)))))))
  · exact accepts_ackCi rfl (by decide)
      (fun _ => accepts_pair (accepts_checkAddr _) (accepts_checkAddr _))
  · exact accepts_ackCi go.vjlen_eq (vjlen_lt _) fun hneg => accepts_checkVj (h hneg)
  · exact haddr _ _ _
  · exact haddr _ _ _
  · exact haddr _ _ _
  · exact haddr _ _ _
  · exact haddr _ _ _

theorem refuses_checks (h : ¬go.VjFits) : Refuses (checkAll go.checks) := by
  obtain ⟨hneg,hbad⟩ := Classical.not_imp.mp h
  have hmem : ackCi ciCompresstype (vjlen go.oldVj) go.negVj go.checkVj∈go.checks := by
    rw [checks]
    exact List.mem_cons_of_mem _ List.mem_cons_self
  refine refuses_checkAll hmem ?_
  rw [hneg]
  exact refuses_ackCi (refuses_checkVj hbad)

end IpcpOptions

/-! ## What is written -/

/-- The bytes of the first options that are left. -/
def IpcpOptions.written (go : IpcpOptions) (k : ℕ) : List UInt8 := (go.requests.take k).flatten

theorem written_succ {go : IpcpOptions} {k : ℕ} {block : List UInt8}
    (h : go.requests[k]?=some block) : go.written (k+1)=go.written k++block := by
  rw [IpcpOptions.written,List.take_add_one,h,List.flatten_append]
  exact congrArg _ (List.append_nil block)

/-- The bytes written so far are those of the options that are left, as long as
switching off the next option does not bring back an earlier one. -/
theorem addItem_out {opt : UInt8} {neg : IpcpOptions → Bool} {cilen : IpcpOptions → ℕ}
    {value : IpcpOptions → List UInt8} {off : IpcpOptions → IpcpOptions} {w : Writer} {k : ℕ}
    (hout : w.out=w.go.written k)
    (hnext : ∀ go : IpcpOptions, go.requests[k]?=
      some (addCi opt (cilen go) (neg go) (value go)))
    (hkeep : neg w.go=true → w.len<cilen w.go → (off w.go).written k=w.go.written k)
    (hoff : ∀ go, neg (off go)=false) :
    (addItem opt neg cilen value off w).out=
      (addItem opt neg cilen value off w).go.written (k+1) := by
  rw [written_succ (hnext _)]
  unfold addItem
  split_ifs with hneg hfits
  · rw [hout,hneg]
  · rw [hoff,hout,hkeep hneg (Nat.lt_of_not_le hfits)]
    exact (List.append_nil _).symm
  · rw [Bool.not_eq_true] at hneg
    rw [hneg,hout]
    exact (List.append_nil _).symm

/-- Space and bytes. -/
theorem addItem_length {opt : UInt8} {neg : IpcpOptions → Bool} {cilen : IpcpOptions → ℕ}
    {value : IpcpOptions → List UInt8} {off : IpcpOptions → IpcpOptions} {w : Writer}
    (hlength : ∀ go, cilen go=(value go).length+2) :
    (addItem opt neg cilen value off w).out.length+(addItem opt neg cilen value off w).len=
      w.out.length+w.len := by
  unfold addItem
  split_ifs with hneg hfits
  · rw [List.length_append,length_addCi (hlength w.go),lenCi,if_pos rfl]
    dsimp only
    omega
  · rfl
  · rfl

/-- Nothing that was written is changed. -/
theorem addItem_isPrefix (opt : UInt8) (neg : IpcpOptions → Bool) (cilen : IpcpOptions → ℕ)
    (value : IpcpOptions → List UInt8) (off : IpcpOptions → IpcpOptions) (w : Writer) :
    w.out <+: (addItem opt neg cilen value off w).out := by
  unfold addItem
  split_ifs
  · exact ⟨_,rfl⟩
  · exact ⟨[],List.append_nil _⟩
  · exact ⟨[],List.append_nil _⟩

/-- A part of the options that switching off does not touch. -/
theorem addItem_same {α : Type*} (part : IpcpOptions → α) {opt : UInt8}
    {neg : IpcpOptions → Bool} {cilen : IpcpOptions → ℕ} {value : IpcpOptions → List UInt8}
    {off : IpcpOptions → IpcpOptions} (hoff : ∀ go, part (off go)=part go) (w : Writer) :
    part (addItem opt neg cilen value off w).go=part w.go := by
  unfold addItem
  split_ifs
  · rfl
  · exact hoff w.go
  · rfl


/-- An option takes its length of the space at most. -/
theorem addItem_len (opt : UInt8) (neg : IpcpOptions → Bool) (cilen : IpcpOptions → ℕ)
    (value : IpcpOptions → List UInt8) (off : IpcpOptions → IpcpOptions) (w : Writer) :
    w.len≤(addItem opt neg cilen value off w).len+lenCi (cilen w.go) (neg w.go) := by
  unfold addItem
  split_ifs with hneg hfits
  · rw [hneg,lenCi,if_pos rfl]
    dsimp only
    omega
  · exact Nat.le_add_right _ _
  · exact Nat.le_add_right _ _

/-- An option that is not asked for is passed over. -/
theorem addItem_of_not {opt : UInt8} {neg : IpcpOptions → Bool} {cilen : IpcpOptions → ℕ}
    {value : IpcpOptions → List UInt8} {off : IpcpOptions → IpcpOptions} {w : Writer}
    (h : neg w.go=false) : addItem opt neg cilen value off w=w := by
  unfold addItem
  rw [h,if_neg Bool.false_ne_true]

theorem asksAddrs_of_negAddr {go : IpcpOptions} (h : go.negAddr=true) : go.asksAddrs=false := by
  rw [IpcpOptions.asksAddrs,h]
  rfl

/-- Without the new form of the address nothing is left of the old one. -/
theorem addCiAddrs_of_negAddr {w : Writer} (h : w.go.negAddr=true) : addCiAddrs w=w :=
  addItem_of_not (asksAddrs_of_negAddr h)

/-- The space in which the address does not fit although both forms are set. -/
def IpcpOptions.Lost (go : IpcpOptions) (lenp : ℕ) : Prop :=
  go.negAddr=true ∧ go.oldAddrs=true ∧ lenp<cilenAddr+lenCi (vjlen go.oldVj) go.negVj

theorem addCiAddrs_same {α : Type*} (part : IpcpOptions → α)
    (hoff : ∀ go, part { go with oldAddrs := false }=part go) (w : Writer) :
    part (addCiAddrs w).go=part w.go := addItem_same part hoff w

theorem addCiVj_same {α : Type*} (part : IpcpOptions → α)
    (hoff : ∀ go, part { go with negVj := false }=part go) (w : Writer) :
    part (addCiVj w).go=part w.go := addItem_same part hoff w

/-- If both forms of the address are set, the new one finds its space or is lost. -/
theorem len_addCiVj {go : IpcpOptions} {lenp : ℕ} (hlost : ¬go.Lost lenp)
    (hnew : go.negAddr=true) (hold : go.oldAddrs=true) :
    cilenAddr≤(addCiVj (addCiAddrs ⟨go,lenp,[]⟩)).len := by
  have hlen : lenp≤(addCiVj ⟨go,lenp,[]⟩).len+lenCi (vjlen go.oldVj) go.negVj :=
    addItem_len _ _ _ _ _ ⟨go,lenp,[]⟩
  have hspace : ¬lenp<cilenAddr+lenCi (vjlen go.oldVj) go.negVj :=
    fun hlt => hlost ⟨hnew,hold,hlt⟩
  rw [addCiAddrs_of_negAddr hnew]
  omega

/-- What is written up to the compression. -/
theorem addCiVj_out (go : IpcpOptions) (lenp : ℕ) :
    (addCiVj (addCiAddrs ⟨go,lenp,[]⟩)).out=(addCiVj (addCiAddrs ⟨go,lenp,[]⟩)).go.written 2 := by
  have haddrs : (addCiAddrs ⟨go,lenp,[]⟩).out=(addCiAddrs ⟨go,lenp,[]⟩).go.written 1 :=
    @addItem_out _ _ _ _ _ ⟨go,lenp,[]⟩ 0 rfl (fun _ => rfl) (fun _ _ => rfl)
      (fun _ => Bool.and_false _)
  exact addItem_out haddrs (fun _ => rfl) (fun _ _ => rfl) (fun _ => rfl)

/-- What is written are the options that are left, unless an address is lost. -/
theorem addci_out {go : IpcpOptions} {lenp : ℕ} (hlost : ¬go.Lost lenp) :
    (go.addci lenp).out=(go.addci lenp).go.requests.flatten := by
  have hvj := addCiVj_out go lenp
  have hnegAddr : (addCiVj (addCiAddrs ⟨go,lenp,[]⟩)).go.negAddr=go.negAddr :=
    (addCiVj_same IpcpOptions.negAddr (fun _ => rfl) _).trans
      (addCiAddrs_same IpcpOptions.negAddr (fun _ => rfl) _)
  have holdAddrs : go.negAddr=true →
      (addCiVj (addCiAddrs ⟨go,lenp,[]⟩)).go.oldAddrs=go.oldAddrs := by
    intro hnew
    rw [addCiAddrs_of_negAddr hnew]
    exact addCiVj_same IpcpOptions.oldAddrs (fun _ => rfl) _
  have hkeep : (addCiVj (addCiAddrs ⟨go,lenp,[]⟩)).go.negAddr=true →
      (addCiVj (addCiAddrs ⟨go,lenp,[]⟩)).len<cilenAddr →
      ({ (addCiVj (addCiAddrs ⟨go,lenp,[]⟩)).go with negAddr := false } : IpcpOptions).written 2=
        (addCiVj (addCiAddrs ⟨go,lenp,[]⟩)).go.written 2 := by
    intro hnew hshort
    have hnew' := hnegAddr.symm.trans hnew
    have hold : (addCiVj (addCiAddrs ⟨go,lenp,[]⟩)).go.oldAddrs=false := by
      rw [holdAddrs hnew',← Bool.not_eq_true]
      intro hold
      have hspace := len_addCiVj hlost hnew' hold
      omega
    simp only [IpcpOptions.written,IpcpOptions.requests,IpcpOptions.asksAddrs,hold,Bool.and_false]
    rfl
  unfold IpcpOptions.addci
  generalize addCiVj (addCiAddrs ⟨go,lenp,[]⟩)=w at hvj hkeep
  have h3 := @addItem_out ciAddr IpcpOptions.negAddr (fun _ => cilenAddr)
    (fun go => putLong (ntohl go.ouraddr)) (fun go => { go with negAddr := false }) w 2 hvj
    (fun _ => rfl) hkeep (fun _ => rfl)
  have h4 := @addItem_out ciMsDns1 IpcpOptions.reqDns1 (fun _ => cilenAddr)
    (fun go => putLong (ntohl go.dnsaddr0)) (fun go => { go with reqDns1 := false }) _ 3 h3
    (fun _ => rfl) (fun _ _ => rfl) (fun _ => rfl)
  have h5 := @addItem_out ciMsDns2 IpcpOptions.reqDns2 (fun _ => cilenAddr)
    (fun go => putLong (ntohl go.dnsaddr1)) (fun go => { go with reqDns2 := false }) _ 4 h4
    (fun _ => rfl) (fun _ _ => rfl) (fun _ => rfl)
  have h6 := @addItem_out ciMsWins1 (fun go => decide (go.winsaddr0≠0)) (fun _ => cilenAddr)
    (fun go => putLong (ntohl go.winsaddr0)) (fun go => { go with winsaddr0 := 0 }) _ 5 h5
    (fun _ => rfl) (fun _ _ => rfl) (fun _ => rfl)
  exact @addItem_out ciMsWins2 (fun go => decide (go.winsaddr1≠0)) (fun _ => cilenAddr)
    (fun go => putLong (ntohl go.winsaddr1)) (fun go => { go with winsaddr1 := 0 }) _ 6 h6
    (fun _ => rfl) (fun _ _ => rfl) (fun _ => rfl)


/-- As many bytes are written as space is used. -/
theorem addci_length (go : IpcpOptions) (lenp : ℕ) :
    (go.addci lenp).out.length+(go.addci lenp).len=lenp := by
  have haddr : ∀ opt neg val off w, (addCiAddr opt neg val off w).out.length+
      (addCiAddr opt neg val off w).len=w.out.length+w.len :=
    fun _ _ _ _ _ => addItem_length (fun _ => rfl)
  have hwins : ∀ opt addr off w, (addCiWins opt addr off w).out.length+
      (addCiWins opt addr off w).len=w.out.length+w.len := fun _ _ _ _ => haddr _ _ _ _ _
  have haddrs : (addCiAddrs ⟨go,lenp,[]⟩).out.length+(addCiAddrs ⟨go,lenp,[]⟩).len=0+lenp :=
    addItem_length (fun _ => rfl)
  have hvj : ∀ w, (addCiVj w).out.length+(addCiVj w).len=w.out.length+w.len :=
    fun _ => addItem_length IpcpOptions.vjlen_eq
  rw [IpcpOptions.addci,addAddresses,hwins,hwins,haddr,haddr,haddr,hvj,haddrs,Nat.zero_add]

/-- What the addresses do not switch off. -/
theorem addAddresses_same {α : Type*} (part : IpcpOptions → α)
    (hoff : ∀ (go : IpcpOptions) (negAddr reqDns1 reqDns2 : Bool) (winsaddr0 winsaddr1 : UInt32),
      part { go with
        negAddr := negAddr
        reqDns1 := reqDns1
        reqDns2 := reqDns2
        winsaddr0 := winsaddr0
        winsaddr1 := winsaddr1 }=part go) (w : Writer) :
    part (addAddresses w).go=part w.go := by
  unfold addAddresses
  refine (addItem_same part (fun go => ?_) _).trans ((addItem_same part (fun go => ?_) _).trans
    ((addItem_same part (fun go => ?_) _).trans ((addItem_same part (fun go => ?_) _).trans
      (addItem_same part (fun go => ?_) _))))
  · exact hoff go go.negAddr go.reqDns1 go.reqDns2 go.winsaddr0 0
  · exact hoff go go.negAddr go.reqDns1 go.reqDns2 0 go.winsaddr1
  · exact hoff go go.negAddr go.reqDns1 false go.winsaddr0 go.winsaddr1
  · exact hoff go go.negAddr false go.reqDns2 go.winsaddr0 go.winsaddr1
  · exact hoff go false go.reqDns1 go.reqDns2 go.winsaddr0 go.winsaddr1

theorem addAddresses_isPrefix (w : Writer) : w.out <+: (addAddresses w).out := by
  unfold addAddresses
  refine List.IsPrefix.trans ?_ (addItem_isPrefix _ _ _ _ _ _)
  refine List.IsPrefix.trans ?_ (addItem_isPrefix _ _ _ _ _ _)
  refine List.IsPrefix.trans ?_ (addItem_isPrefix _ _ _ _ _ _)
  exact (addItem_isPrefix _ _ _ _ _ _).trans (addItem_isPrefix _ _ _ _ _ _)

/-- The space that the old form of the addresses takes. -/
def IpcpOptions.addrsLen (go : IpcpOptions) (lenp : ℕ) : ℕ :=
  if go.asksAddrs=true ∧ cilenAddrs≤lenp then cilenAddrs else 0

theorem len_addCiAddrs (go : IpcpOptions) (lenp : ℕ) :
    (addCiAddrs ⟨go,lenp,[]⟩).len=lenp-go.addrsLen lenp := by
  unfold addCiAddrs addItem IpcpOptions.addrsLen
  dsimp only
  by_cases hasks : go.asksAddrs=true
  · rw [if_pos hasks]
    by_cases hfits : cilenAddrs≤lenp
    · rw [if_pos hfits,if_pos ⟨hasks,hfits⟩]
    · rw [if_neg hfits,if_neg (fun h => hfits h.2)]
      rfl
  · rw [if_neg hasks,if_neg (fun h => hasks h.1)]
    rfl

theorem negVj_addCiVj (w : Writer) :
    (addCiVj w).go.negVj=(w.go.negVj && decide (vjlen w.go.oldVj≤w.len)) := by
  unfold addCiVj addItem
  dsimp only
  split_ifs with hasks hfits
  · rw [hasks,decide_eq_true hfits]
    rfl
  · rw [decide_eq_false hfits,Bool.and_false]
  · rw [Bool.not_eq_true] at hasks
    rw [hasks,Bool.false_and]

/-- The compression is left if it fits. -/
theorem negVj_addci (go : IpcpOptions) (lenp : ℕ) : (go.addci lenp).go.negVj=
    (go.negVj && decide (vjlen go.oldVj≤lenp-go.addrsLen lenp)) := by
  have hneg : (addCiAddrs ⟨go,lenp,[]⟩).go.negVj=go.negVj :=
    addCiAddrs_same IpcpOptions.negVj (fun _ => rfl) _
  have hold : (addCiAddrs ⟨go,lenp,[]⟩).go.oldVj=go.oldVj :=
    addCiAddrs_same IpcpOptions.oldVj (fun _ => rfl) _
  refine (addAddresses_same IpcpOptions.negVj (fun _ _ _ _ _ _ => rfl) _).trans ?_
  rw [negVj_addCiVj,hneg,hold,len_addCiAddrs]

/-- The other fields of the compression stay. -/
theorem vj_addci {α : Type*} (part : IpcpOptions → α)
    (haddrs : ∀ go, part { go with oldAddrs := false }=part go)
    (hvj : ∀ go, part { go with negVj := false }=part go)
    (hoff : ∀ (go : IpcpOptions) (negAddr reqDns1 reqDns2 : Bool) (winsaddr0 winsaddr1 : UInt32),
      part { go with
        negAddr := negAddr
        reqDns1 := reqDns1
        reqDns2 := reqDns2
        winsaddr0 := winsaddr0
        winsaddr1 := winsaddr1 }=part go) (go : IpcpOptions) (lenp : ℕ) :
    part (go.addci lenp).go=part go :=
  (addAddresses_same part hoff _).trans
    ((addCiVj_same part hvj _).trans (addCiAddrs_same part haddrs _))

/-- What a successful check of an option that is asked for has read. -/
theorem exists_of_ackCi {opt : UInt8} {cilen : ℕ} {check : List UInt8 → Option (List UInt8)}
    {p rest : List UInt8} (h : ackCi opt cilen true check p=some rest) :
    cilen≤p.length ∧ p.head?=some opt := by
  unfold ackCi at h
  rw [if_pos rfl] at h
  split_ifs at h with hshort
  refine ⟨Nat.le_of_not_lt hshort,?_⟩
  split at h
  · split_ifs at h with hbad
    rw [List.head?_cons,not_not.mp (not_or.mp hbad).2]
  · cases h

/-- The address is switched off if it does not fit. -/
theorem negAddr_addAddresses {w : Writer} (h : w.len<cilenAddr) :
    (addAddresses w).go.negAddr=false := by
  have hoff : (addCiAddr ciAddr IpcpOptions.negAddr IpcpOptions.ouraddr
      (fun go => { go with negAddr := false }) w).go.negAddr=false := by
    unfold addCiAddr addItem
    split_ifs with hneg hfits
    · exact absurd hfits (Nat.not_le_of_lt h)
    · rfl
    · rwa [Bool.not_eq_true] at hneg
  unfold addAddresses
  refine (addItem_same IpcpOptions.negAddr (fun go => ?_) _).trans
    ((addItem_same IpcpOptions.negAddr (fun go => ?_) _).trans
      ((addItem_same IpcpOptions.negAddr (fun go => ?_) _).trans
        ((addItem_same IpcpOptions.negAddr (fun go => ?_) _).trans hoff)))
  · rfl
  · rfl
  · rfl
  · rfl

/-- What is known of the writer after the compression when the address is lost: it
has not started, or it has started with the compression. -/
theorem addCiVj_of_lost {go : IpcpOptions} {lenp : ℕ} (hlost : go.Lost lenp) :
    (addCiVj (addCiAddrs ⟨go,lenp,[]⟩)).len<cilenAddr ∧
      (lenp<cilenAddr ∨
        (addCiVj (addCiAddrs ⟨go,lenp,[]⟩)).out.head?=some ciCompresstype) := by
  obtain ⟨hnew,-,hspace⟩ := hlost
  rw [addCiAddrs_of_negAddr hnew]
  have hle : vjlen go.oldVj≤cilenAddr := by
    unfold vjlen
    split_ifs
    · decide
    · decide
  unfold addCiVj addItem
  dsimp only
  rw [lenCi] at hspace
  split_ifs at hspace ⊢ with hasks hfits
  · refine ⟨?_,Or.inr rfl⟩
    dsimp only
    omega
  · have hshort : lenp<cilenAddr := by omega
    exact ⟨hshort,Or.inl hshort⟩
  · exact ⟨hspace,Or.inl hspace⟩

/-- A lost address leaves the old form in the check. -/
theorem asksAddrs_of_lost {go : IpcpOptions} {lenp : ℕ} (hlost : go.Lost lenp) :
    (go.addci lenp).go.asksAddrs=true := by
  have hnegAddr : (go.addci lenp).go.negAddr=false :=
    negAddr_addAddresses (addCiVj_of_lost hlost).1
  have holdAddrs : (go.addci lenp).go.oldAddrs=true := by
    refine (addAddresses_same IpcpOptions.oldAddrs (fun _ _ _ _ _ _ => rfl) _).trans ?_
    rw [addCiAddrs_of_negAddr hlost.1]
    exact (addCiVj_same IpcpOptions.oldAddrs (fun _ => rfl) _).trans hlost.2.1
  rw [IpcpOptions.asksAddrs,hnegAddr,holdAddrs]
  rfl

/-- What is written then does not start with the old form. -/
theorem ackci_of_lost {go : IpcpOptions} {lenp : ℕ} (hlost : go.Lost lenp) :
    (go.addci lenp).go.ackci (go.addci lenp).out=false := by
  rw [IpcpOptions.ackci,decide_eq_false_iff_not]
  intro hack
  rw [IpcpOptions.checks,checkAll,asksAddrs_of_lost hlost] at hack
  obtain ⟨rest,hfirst,-⟩ := Option.bind_eq_some_iff.mp hack
  obtain ⟨hlength,hhead⟩ := exists_of_ackCi hfirst
  rcases (addCiVj_of_lost hlost).2 with hshort | hvj
  · have htotal := addci_length go lenp
    rw [cilenAddrs] at hlength
    rw [cilenAddr] at hshort
    omega
  · obtain ⟨more,hmore⟩ := addAddresses_isPrefix (addCiVj (addCiAddrs ⟨go,lenp,[]⟩))
    have hsame : (go.addci lenp).out.head?=some ciCompresstype := by
      rw [IpcpOptions.addci,← hmore,List.head?_append,hvj]
      rfl
    rw [hsame] at hhead
    cases hhead

/-! ## Agreement -/

namespace IpcpOptions

variable (go wo ho : IpcpOptions)

/-- What the three functions are for: exactly the bytes that `ipcp_addci` reports as
written, in the space that it was given, are accepted. -/
def Agrees (lenp : ℕ) : Prop :=
  ((settle go wo ho).addci lenp).out.length=lenp-((settle go wo ho).addci lenp).len ∧
    ∀ p, ((settle go wo ho).addci lenp).go.ackci p=true ↔ p=((settle go wo ho).addci lenp).out

/-- The new form of the address is asked for. -/
def keepsAddr : Bool := go.negAddr && !(go.oldAddrs && !ho.negAddr && ho.oldAddrs)

/-- The compression of the peer is taken over. -/
def takesVj : Bool := wo.negVj && !go.negVj && !go.oldVj && (ho.negVj && ho.oldVj)

/-- The space of the compression option. -/
def vjSpace : ℕ := vjlen (go.oldVj || takesVj go wo ho)

/-- Both forms of the address are set and there is no space for the new one. -/
def LosesAddr (lenp : ℕ) : Prop :=
  keepsAddr go ho=true ∧ go.oldAddrs=true ∧
    lenp<cilenAddr+(if (go.negVj || takesVj go wo ho)=true then vjSpace go wo ho else 0)

/-- The compression is asked for and there is space for it. -/
def SendsVj (lenp : ℕ) : Prop :=
  (go.negVj || takesVj go wo ho)=true ∧ vjSpace go wo ho≤
    lenp-(if (keepsAddr go ho=false ∧ go.oldAddrs=true) ∧ cilenAddrs≤lenp then cilenAddrs else 0)

/-- The numbers that are sent fit in their bytes. -/
def Fits (lenp : ℕ) : Prop :=
  SendsVj go wo ho lenp →
    (if takesVj go wo ho then 0≤ho.vjProtocol ∧ ho.vjProtocol<65536
      else 0≤go.vjProtocol ∧ go.vjProtocol<65536) ∧
    ((go.oldVj || takesVj go wo ho)=false → 0≤go.maxslotindex ∧ go.maxslotindex<256)

theorem keepsAddr_eq : keepsAddr go ho=
    if (go.negAddr && go.oldAddrs && !ho.negAddr && ho.oldAddrs)=true then false
    else go.negAddr := by
  unfold keepsAddr
  cases go.negAddr <;> cases go.oldAddrs <;> cases ho.negAddr <;> cases ho.oldAddrs <;> rfl

/-- What `ipcp_cilen` leaves, in terms of what it finds. -/
theorem settle_eq : settle go wo ho=
    { go with
      negAddr := keepsAddr go ho
      negVj := go.negVj || takesVj go wo ho
      oldVj := go.oldVj || takesVj go wo ho
      vjProtocol := if takesVj go wo ho then ho.vjProtocol else go.vjProtocol } := by
  rw [keepsAddr_eq]
  unfold settle
  have htakes : ∀ negAddr, (wo.negVj && !({ go with negAddr := negAddr } : IpcpOptions).negVj &&
      !({ go with negAddr := negAddr } : IpcpOptions).oldVj && (ho.negVj && ho.oldVj))=
      takesVj go wo ho := fun _ => rfl
  by_cases haddr : (go.negAddr && go.oldAddrs && !ho.negAddr && ho.oldAddrs)=true
  · simp only [if_pos haddr]
    rw [htakes false]
    cases takesVj go wo ho with
    | false => simp only [Bool.or_false,Bool.false_eq_true,if_false]
    | true => simp only [Bool.or_true,if_true]
  · simp only [if_neg haddr]
    rw [htakes go.negAddr]
    cases takesVj go wo ho with
    | false => simp only [Bool.or_false,Bool.false_eq_true,if_false]
    | true => simp only [Bool.or_true,if_true]

theorem lost_settle (lenp : ℕ) : (settle go wo ho).Lost lenp ↔ LosesAddr go wo ho lenp := by
  rw [settle_eq]
  exact Iff.rfl

/-- The numbers of the compression option that is left fit. -/
theorem vjFits_addci (lenp : ℕ) :
    ((settle go wo ho).addci lenp).go.VjFits ↔ Fits go wo ho lenp := by
  have hsends : ((settle go wo ho).addci lenp).go.negVj=true ↔ SendsVj go wo ho lenp := by
    rw [negVj_addci,Bool.and_eq_true,decide_eq_true_iff,settle_eq]
    unfold addrsLen asksAddrs SendsVj
    simp only [Bool.and_eq_true,Bool.not_eq_true',vjSpace]
  unfold VjFits Fits
  rw [hsends,vj_addci vjProtocol (fun _ => rfl) (fun _ => rfl) (fun _ _ _ _ _ _ => rfl),
    vj_addci oldVj (fun _ => rfl) (fun _ => rfl) (fun _ _ _ _ _ _ => rfl),
    vj_addci maxslotindex (fun _ => rfl) (fun _ => rfl) (fun _ _ _ _ _ _ => rfl),settle_eq]
  dsimp only
  split_ifs with htakes
  · exact Iff.rfl
  · exact Iff.rfl

/-- `ipcp_ackci` accepts what `ipcp_addci` has written exactly if no address is lost and
the numbers fit. -/
theorem agrees_iff (lenp : ℕ) :
    Agrees go wo ho lenp ↔ ¬LosesAddr go wo ho lenp ∧ Fits go wo ho lenp := by
  rw [← lost_settle,← vjFits_addci]
  unfold Agrees
  generalize settle go wo ho=g
  constructor
  · rintro ⟨-,hagrees⟩
    have hown : (g.addci lenp).go.ackci (g.addci lenp).out=true := (hagrees _).mpr rfl
    constructor
    · intro hlost
      rw [ackci_of_lost hlost] at hown
      cases hown
    · by_contra hfits
      rw [ackci,decide_eq_true_iff,refuses_checks _ hfits] at hown
      cases hown
  · rintro ⟨hlost,hfits⟩
    have hlength := addci_length g lenp
    refine ⟨by omega,fun p => ?_⟩
    rw [ackci,decide_eq_true_iff,addci_out hlost]
    exact (accepts_checks _ hfits).eq_nil_iff p

end IpcpOptions

/-- In LCP the encoder and the checker agree exactly if the MRU and the MRRU that are
asked for fit in sixteen bits. In IPCP they agree exactly if the numbers of the
compression option fit when it is sent, and the address option finds its space
when both of its forms are set. -/
theorem agrees_iff_fits (lcp : LcpOptions) (go wo ho : IpcpOptions) (lenp : ℕ) :
    (lcp.Agrees ↔ lcp.Fits) ∧
    (IpcpOptions.Agrees go wo ho lenp ↔
      ¬IpcpOptions.LosesAddr go wo ho lenp ∧ IpcpOptions.Fits go wo ho lenp) :=
  ⟨LcpOptions.agrees_iff lcp,IpcpOptions.agrees_iff go wo ho lenp⟩

/-- Nothing is asked for, except for an MRU of 70000. -/
def largeMru : LcpOptions :=
  ⟨true,false,false,false,false,false,false,false,false,false,false,false,false,70000,0,0,0,0,0,
    ⟨0,⟨List.replicate 20 0,rfl⟩,0,Nat.zero_le _⟩⟩

/-- Both forms of the address are set. -/
def bothForms : IpcpOptions := ⟨true,true,false,false,false,false,0,0,0,0x0100007f,0,0,0,0,0⟩

/-- An MRU of 70000 is written as 4464 and its acknowledgement is refused; an address
that does not fit is dropped, and then the old form of the addresses is expected. -/
theorem not_agrees_large_lost : largeMru.addci=[1,4,0x11,0x70] ∧
    largeMru.ackci largeMru.addci=false ∧ ¬largeMru.Agrees ∧
    (bothForms.addci 5).out=[] ∧ (bothForms.addci 5).go.ackci []=false ∧
    ¬IpcpOptions.Agrees bothForms bothForms ⟨true,false,false,false,false,false,0,0,0,0,0,0,0,0,0⟩
      5 := by
  refine ⟨by decide,by decide,fun hagrees => ?_,by decide,by decide,fun hagrees => ?_⟩
  · have hfits := largeMru.agrees_iff.mp hagrees
    exact absurd (hfits.1 rfl).2 (by decide)
  · refine ((IpcpOptions.agrees_iff _ _ _ _).mp hagrees).1 ?_
    exact ⟨by decide,by decide,by decide⟩

end AndroidPlatform.PppOptions
