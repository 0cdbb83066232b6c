import AndroidPlatform.DhcpReplyDecoding
import Mathlib.Algebra.BigOperators.Group.List.Basic
import Mathlib.Algebra.Group.Nat.Defs
import Mathlib.Algebra.GroupWithZero.Nat

/-!
# The length of a reply

`dhcp_reply` takes the size that the client allows from the request, keeps the relay agent
information at the end of the packet, puts the options in front of it and finishes the
packet. The steps in between are arbitrary; only their effect on the packet matters here.
-/

namespace AndroidPlatform.DhcpReplyLength

open TaggedFields DhcpReplyOptions

/-! ## The reply -/

/-- `OPTION_MESSAGE_TYPE` -/
def optionMessageType : UInt8 := 53

/-- `OPTION_MAXMESSAGE` -/
def optionMaxmessage : UInt8 := 57

/-- `DHCP_PACKET_MAX` -/
def dhcpPacketMax : ℕ := 16384

/-- The size of `struct dhcp_packet`. -/
def packetSize : ℕ := 548

/-- The end of the 64 bytes for options of a BOOTP reply. -/
def vendEnd : ℕ := 300

/-- `DHCP_COOKIE` stands in front of the options. -/
def hasCookie (m : Mess) : Bool :=
  m.byte 236=99 && m.byte 237=130 && m.byte 238=83 && m.byte 239=99

/-- The size that the client allows, without the headers. The subtraction is unsigned. -/
def maxMessageSize (maxMessage : UInt16) : ℕ :=
  let size := (maxMessage.toUInt64-28).toNat
  if size>dhcpPacketMax then dhcpPacketMax
  else if size<packetSize then packetSize else size

/-- The value of the maximum message size option, at `opt`. -/
def maxMessageAt (m : Mess) (opt : ℕ) : UInt16 :=
  (m.byte (opt+2)).toUInt16<<<8 ||| (m.byte (opt+3)).toUInt16

/-- The maximum message size option of a request of `sz` bytes. -/
def maxMessage (request : Mess) (sz : ℕ) : Option UInt16 :=
  (request.optionFind sz optionMaxmessage 2).map (maxMessageAt request)

/-- `expand_buf`: nothing when there is no memory. -/
def expandBuf (m : Mess) (size : ℕ) (allocated : Bool) : Option Mess :=
  if size ≤ m.size then some m
  else if allocated then some { m with size := size } else none

/-- The packet before it is cleared, with `end`, `agent_id` and `real_end`. -/
structure Prepared where
  mess : Mess
  limit : ℕ
  agentId : Option ℕ
  realEnd : ℕ

/-- The packet becomes as large as the client allows. -/
def resize (request : Mess) (sz : ℕ) (allocated : Bool) : Mess×ℕ :=
  match maxMessage request sz with
  | none => (request,packetSize)
  | some value =>
    match expandBuf request (maxMessageSize value) allocated with
    | none => (request,packetSize)
    | some mess => (mess,maxMessageSize value)

/-- The agent id, at `opt`, is copied to the end of the packet when the request leaves
space there. -/
def keepAgent (mess : Mess) (sz realEnd opt : ℕ) : Prepared :=
  let total := (mess.byte (opt+1)).toNat+2
  match mess.optionFind sz optionEnd 0 with
  | none => ⟨mess,realEnd,none,realEnd⟩
  | some lastOpt =>
    if lastOpt<realEnd-total then
      ⟨{ mess with byte := fun i =>
          if realEnd-total ≤ i ∧ i<realEnd then mess.byte (opt+(i-(realEnd-total)))
          else mess.byte i },realEnd-total,some (realEnd-total),realEnd⟩
    else ⟨mess,realEnd,none,realEnd⟩

/-- The ends of the packet when the request has a message type. -/
def prepareMessage (request : Mess) (sz : ℕ) (allocated : Bool) : Prepared :=
  let resized := resize request sz allocated
  match resized.1.optionFind sz optionAgentId 1 with
  | none => ⟨resized.1,resized.2,none,resized.2⟩
  | some opt => keepAgent resized.1 sz resized.2 opt

/-- The part of `dhcp_reply` that finds the ends of the packet. A request without a message
type, or of type zero, is a BOOTP request. -/
def prepare (request : Mess) (sz : ℕ) (allocated : Bool) : Prepared :=
  match request.optionFind sz optionMessageType 1 with
  | none => ⟨request,vendEnd,none,packetSize⟩
  | some opt =>
    if request.byte (opt+2)=0 then { prepareMessage request sz allocated with limit := vendEnd }
    else prepareMessage request sz allocated

/-- What is done to the packet between clearing and finishing it. -/
inductive Step where
  /-- `free_space` is called for the data, and they are written. -/
  | option (opt : UInt8) (data : List UInt8)
  /-- `strncpy` of a name into a spare field. -/
  | setName (spare : Spare) (name : List UInt8)
  /-- The first byte of a spare field is set. -/
  | setHead (spare : Spare) (v : UInt8)
  /-- `do_options` keeps space for the overload option. -/
  | keepRoom

/-- A step, with the end up to which options may go. -/
def Step.perform (m : Mess) (room : ℕ) : Step → Option (Mess×ℕ)
  | .option opt data => (m.putOption room opt data.length data).map fun m => (m,room)
  | .setName spare name => some (m.setName spare name,room)
  | .setHead spare v => some (m.store spare.start v,room)
  | .keepRoom => some (m,m.optionsEnd room)

/-- A sequence of steps. -/
def build : Mess → ℕ → List Step → Option (Mess×ℕ)
  | m,room,[] => some (m,room)
  | m,room,step::steps => (step.perform m room).bind fun (m,room) => build m room steps

/-- The cleared packet that the steps start from. -/
def Prepared.cleared (p : Prepared) : Mess := clearPacket p.mess.size p.mess.byte p.limit

/-- The reply to a request of `sz` bytes: the finished packet and its length. A request with a
message type but no cookie has no reply. -/
def reply (request : Mess) (sz : ℕ) (allocated : Bool) (steps : List Step) (broadcast : Bool) :
    Option (Mess×ℕ) :=
  let prepared := prepare request sz allocated
  if (request.optionFind sz optionMessageType 1).isSome ∧ hasCookie request=false then none
  else (build prepared.cleared prepared.limit steps).bind fun (m,_) =>
    m.dhcpPacketSize prepared.agentId prepared.realEnd broadcast

/-! ## Steps that keep the options in order -/

/-- When an option does not fit and the overload option is created for it, its three bytes
end before the limit. -/
def OverloadFits (limit room : ℕ) (m : Mess) (len : ℕ) : Prop :=
  ∀ p,m.skipOpts optionsAt=some p → p+len+3≥room → m.findOverload=some none →
    m.byte Spare.file.start=0 ∨ m.byte Spare.sname.start=0 → p+3<limit

/-- The condition on a step: an option has a code and a length that the walks over the
options read back, and the overload option fits if it is created. -/
def Step.Safe (limit room : ℕ) (m : Mess) : Step → Prop
  | .option opt data => opt≠0 ∧ (opt=optionOverload → data≠[]) ∧ data.length≤255 ∧
    OverloadFits limit room m data.length
  | _ => True

/-- All steps are safe when they are made. -/
def SafeAll (limit : ℕ) : Mess → ℕ → List Step → Prop
  | _,_,[] => True
  | m,room,step::steps => step.Safe limit room m ∧
    ∀ m' room',step.perform m room=some (m',room') → SafeAll limit m' room' steps

/-- The options in front of the limit: well formed fields, and an overload option among them
has a value. -/
structure Options (limit : ℕ) (m : Mess) (fields : List Field) (p : ℕ) : Prop where
  size : limit ≤ m.size
  area : Area m.byte optionsAt fields p limit
  overload : ∀ f∈fields,f.tag=optionOverload → f.data≠[]

theorem size_copy (m : Mess) (p : ℕ) (data : List UInt8) : (m.copy p data).size=m.size := by
  induction data generalizing m p with
  | nil => rfl
  | cons v data ih => exact ih (m.store p v) (p+1)

theorem size_writeOption {m : Mess} {p : ℕ} {opt : UInt8} {data : List UInt8} :
    (m.writeOption p opt data).size=m.size := size_copy _ _ _

namespace Options

variable {limit room : ℕ} {m m' : Mess} {fields : List Field} {p o len : ℕ} {spare : Spare}

theorem skipOpts (h : Options limit m fields p) : m.skipOpts optionsAt=some p :=
  Mess.skipOpts_laid h.area.laid (h.area.zeros p le_rfl h.area.lt)
    (Nat.lt_of_lt_of_le h.area.lt h.size)

theorem findOverload (h : Options limit m fields p) : m.findOverload=
    some ((fields.find? fun f => f.tag=optionOverload).map Field.start) :=
  Mess.findOverloadFrom_laid h.area.laid (h.area.zeros p le_rfl h.area.lt)
    (Nat.lt_of_lt_of_le h.area.lt h.size)

/-- Only the bytes from the options up to the limit matter. -/
theorem congr (h : Options limit m fields p) (hsize : m'.size=m.size)
    (hsame : ∀ i,optionsAt ≤ i → m'.byte i=m.byte i) : Options limit m' fields p :=
  ⟨hsize ▸ h.size,h.area.congr (fun i hi _ => hsame i hi),h.overload⟩

/-- An option is added behind the others. -/
theorem add {opt : UInt8} {data : List UInt8} (h : Options limit m fields p) (hopt : opt≠0)
    (hover : opt=optionOverload → data≠[]) (hlen : data.length≤255)
    (hroom : p+data.length+2 < limit) :
    Options limit (m.writeOption p opt data) (fields++[⟨p,opt,data⟩]) (p+2+data.length) := by
  refine ⟨?_,?_,fun f hf htag => ?_⟩
  · rw [size_writeOption]
    exact h.size
  · refine h.area.add rfl hopt (writeOption_held hlen) ?_
      (fun i _ _ hi => writeOption_of_outside hi)
    change p+2+data.length < limit
    omega
  · rcases List.mem_append.mp hf with hf | hf
    · exact h.overload f hf htag
    · rw [List.mem_singleton.mp hf] at htag ⊢
      exact hover htag

/-- The value of an overload option changes. -/
theorem setValue (h : Options limit m fields p) {f : Field} (hf : f∈fields)
    (htag : f.tag=optionOverload) (v : UInt8) :
    ∃ fields',Options limit (m.store (f.start+2) v) fields' p ∧
      ∃ g∈fields',g.tag=optionOverload ∧ g.start=f.start := by
  obtain ⟨before,after,rfl⟩ := List.append_of_mem hf
  obtain ⟨old,rest,hdata⟩ := List.exists_cons_of_ne_nil (h.overload f hf htag)
  obtain ⟨mid,hbefore,hstart,htag0,hheld,hafter⟩ := laid_append.mp h.area.laid
  have hstop : f.stop=f.start+2+f.data.length := rfl
  have hlength : f.data.length=rest.length+1 := by rw [hdata]; rfl
  have hle := hafter.le
  have hlt := h.area.lt
  have hsame : ∀ i,i≠f.start+2 → (m.store (f.start+2) v).byte i=m.byte i :=
    fun i hi => Mess.store_of_ne hi
  have hstopped : (⟨f.start,f.tag,v::rest⟩ : Field).stop=f.stop := by
    rw [Field.stop,Field.stop,hdata]
    rfl
  refine ⟨before++⟨f.start,f.tag,v::rest⟩::after,⟨h.size,⟨laid_append.mpr ⟨mid,?_,hstart,htag0,
    Field.heldBy_mk ?_ ?_ (fun i hi => ?_),?_⟩,hlt,fun i hi hi' => ?_⟩,fun g hg hgtag => ?_⟩,
    _,List.mem_append_right _ List.mem_cons_self,htag,rfl⟩
  · exact hbefore.congr (fun i _ hi => hsame i (by omega))
  · rw [hsame f.start (by omega)]
    exact hheld.tag
  · rw [hsame (f.start+1) (by omega),hheld.length,hdata]
    rfl
  · cases i with
    | zero => exact congrArg some Mess.store_self.symm
    | succ i =>
      have hi' : i+1<f.data.length := by rw [hdata]; exact hi
      have hold := hheld.data (i+1) hi'
      rw [hdata,List.getElem?_cons_succ] at hold
      rw [hsame _ (by omega),List.getElem?_cons_succ]
      exact hold
  · rw [hstopped]
    exact hafter.congr (fun i hi _ => hsame i (by omega))
  · rw [hsame i (by omega)]
    exact h.area.zeros i hi hi'
  · rcases List.mem_append.mp hg with hg | hg
    · exact h.overload g (List.mem_append_left _ hg) hgtag
    · rcases List.mem_cons.mp hg with rfl | hg
      · exact List.cons_ne_nil _ _
      · exact h.overload g (List.mem_append_right _ (List.mem_cons_of_mem _ hg)) hgtag

/-- The overload option is created. -/
theorem create (h : Options limit m fields p) (hroom : p+3<limit) :
    Options limit ((m.store p optionOverload).store (p+1) 1)
      (fields++[⟨p,optionOverload,[0]⟩]) (p+3) := by
  have hsame : ∀ i,i < p ∨ p+2 ≤ i →
      ((m.store p optionOverload).store (p+1) 1).byte i=m.byte i := by
    intro i hi
    rw [Mess.store_of_ne (by omega),Mess.store_of_ne (by omega)]
  refine ⟨h.size,h.area.add rfl (show optionOverload≠0 by decide)
    (Field.heldBy_mk ?_ ?_ (fun i hi => ?_)) hroom (fun i _ _ hi => ?_),fun f hf htag => ?_⟩
  · rw [Mess.store_of_ne (by omega),Mess.store_self]
  · rw [Mess.store_self]
    rfl
  · obtain rfl : i=0 := Nat.lt_one_iff.mp hi
    rw [hsame _ (Or.inr (by omega)),h.area.zeros _ (by omega) (by omega)]
    rfl
  · refine hsame i (hi.imp_right (fun hi => ?_))
    exact Nat.le_of_succ_le hi
  · rcases List.mem_append.mp hf with hf | hf
    · exact h.overload f hf htag
    · rw [List.mem_singleton.mp hf]
      exact List.cons_ne_nil _ _

/-- Looking for space in a spare field changes no more than the value of the overload
option. -/
theorem spillInto (h : Options limit m fields p) {f : Field} (hf : f∈fields)
    (htag : f.tag=optionOverload) {q : Option ℕ}
    (hspill : m.spillInto f.start len spare=some (m',q)) :
    ∃ fields',Options limit m' fields' p ∧
      (∃ g∈fields',g.tag=optionOverload ∧ g.start=f.start) ∧ ∀ a,q=some a → a+len+3<236 := by
  have hset : ∃ fields',Options limit
      (if m.byte spare.start=0 then m.store (f.start+2) (m.byte (f.start+2) ||| spare.bit) else m)
      fields' p ∧ ∃ g∈fields',g.tag=optionOverload ∧ g.start=f.start := by
    by_cases hzero : m.byte spare.start=0
    · rw [if_pos hzero]
      exact h.setValue hf htag _
    · rw [if_neg hzero]
      exact ⟨fields,h,f,hf,htag,rfl⟩
  have hlimit : spare.start+128≤236 := by
    cases spare with
    | file => decide
    | sname => decide
  rw [Mess.spillInto] at hspill
  generalize (if m.byte spare.start=0 then
    m.store (f.start+2) (m.byte (f.start+2) ||| spare.bit) else m)=m1 at hset hspill
  obtain ⟨fields',hoptions,hkept⟩ := hset
  by_cases hbit : m1.byte (f.start+2) &&& spare.bit≠0
  · rw [if_pos hbit] at hspill
    obtain ⟨a,-,heq⟩ := Option.map_eq_some_iff.mp hspill
    obtain ⟨rfl,rfl⟩ := Prod.mk.inj heq
    refine ⟨fields',hoptions,hkept,fun b hb => ?_⟩
    split at hb
    · cases hb
    · cases hb
      omega
  · rw [if_neg hbit] at hspill
    obtain ⟨rfl,rfl⟩ := Prod.mk.inj (Option.some.inj hspill)
    exact ⟨fields',hoptions,hkept,fun a ha => by cases ha⟩

/-- Looking for space in both spare fields keeps the options in order. -/
theorem spill (h : Options limit m fields p) (hfits : OverloadFits limit room m len)
    (hroom : p+len+3≥room) {q : Option ℕ} (hspill : m.spill p len=some (m',q)) :
    ∃ fields' p',Options limit m' fields' p' ∧ ∀ a,q=some a → a+len+3<236 := by
  have hmade : ∃ m1 fields1 p1,Options limit m1 fields1 p1 ∧ ∃ found : Option ℕ,
      (found=none ∧ m'=m1 ∧ q=none ∨ ∃ f∈fields1,f.tag=optionOverload ∧ found=some f.start ∧
        ∃ next : Mess×Option ℕ → Option (Mess×Option ℕ),
          (∀ m a,next (m,some a)=some (m,some a)) ∧
          (∀ m : Mess,next (m,none)=m.spillInto f.start len .sname) ∧
          (m1.spillInto f.start len .file).bind next=some (m',q)) := by
    rw [Mess.spill,h.findOverload,Option.bind_some] at hspill
    cases hfind : fields.find? (fun f => f.tag=optionOverload) with
    | some f =>
      rw [hfind] at hspill
      have hfound := List.find?_some hfind
      have htag : f.tag=optionOverload := of_decide_eq_true hfound
      rw [Option.map_some,if_neg (fun hand => absurd hand.1 (Option.some_ne_none _))] at hspill
      refine ⟨m,fields,p,h,some f.start,Or.inr ⟨f,List.mem_of_find?_eq_some hfind,htag,rfl,
        _,fun _ _ => ?_,fun _ => ?_,hspill⟩⟩
      all_goals rfl
    | none =>
      rw [hfind] at hspill
      by_cases hfree : m.byte Spare.file.start=0 ∨ m.byte Spare.sname.start=0
      · have hover : m.findOverload=some none := by
          rw [h.findOverload,hfind]
          rfl
        have hlt := hfits p h.skipOpts hroom hover hfree
        rw [if_pos ⟨rfl,hfree⟩] at hspill
        refine ⟨_,_,_,h.create hlt,some p,Or.inr ⟨_,List.mem_append_right _ List.mem_cons_self,
          rfl,rfl,_,fun _ _ => ?_,fun _ => ?_,hspill⟩⟩
        all_goals rfl
      · rw [if_neg (fun hand => hfree hand.2)] at hspill
        obtain ⟨rfl,rfl⟩ := Prod.mk.inj (Option.some.inj hspill)
        exact ⟨_,fields,p,h,none,Or.inl ⟨rfl,rfl,rfl⟩⟩
  obtain ⟨m1,fields1,p1,h1,found,⟨-,rfl,rfl⟩ | ⟨f,hf,htag,-,next,hfound,hnext,hspare⟩⟩ := hmade
  · exact ⟨fields1,p1,h1,fun a ha => by cases ha⟩
  · obtain ⟨⟨m2,inFile⟩,hfile,hspare⟩ := Option.bind_eq_some_iff.mp hspare
    obtain ⟨fields2,h2,⟨g,hg,hgtag,hgstart⟩,hin⟩ := h1.spillInto hf htag hfile
    cases inFile with
    | some a =>
      rw [hfound] at hspare
      obtain ⟨rfl,rfl⟩ := Prod.mk.inj (Option.some.inj hspare)
      exact ⟨fields2,p1,h2,hin⟩
    | none =>
      rw [hnext,← hgstart] at hspare
      obtain ⟨fields3,h3,-,hin3⟩ := h2.spillInto hg hgtag hspare
      exact ⟨fields3,p1,h3,hin3⟩

/-- Bytes that are written in front of the options do not matter. -/
theorem writeOption {opt : UInt8} {data : List UInt8} {a : ℕ} (h : Options limit m fields p)
    (ha : a+data.length+3<236) : Options limit (m.writeOption a opt data) fields p := by
  have h240 : optionsAt=240 := rfl
  exact h.congr size_writeOption (fun i hi => writeOption_of_outside (Or.inr (by omega)))

/-- Putting an option keeps the options in order. -/
theorem putOption {opt : UInt8} {data : List UInt8} (h : Options limit m fields p)
    (hroom : room≤limit) (hsafe : (Step.option opt data).Safe limit room m)
    (hput : m.putOption room opt data.length data=some m') :
    ∃ fields' p',Options limit m' fields' p' := by
  obtain ⟨hopt,hover,hlen,hfits⟩ := hsafe
  rw [Mess.putOption,Mess.freeSpace,h.skipOpts,Option.bind_some] at hput
  by_cases hfull : p+data.length+3≥room
  · rw [if_pos hfull] at hput
    obtain ⟨space,hspace,hput⟩ := Option.map_eq_some_iff.mp hput
    obtain ⟨⟨m1,q⟩,hspill,hspace⟩ := Option.map_eq_some_iff.mp hspace
    obtain ⟨fields',p',h1,hin⟩ := h.spill hfits hfull hspill
    cases q with
    | none =>
      obtain rfl := hspace
      obtain rfl := hput
      exact ⟨fields',p',h1⟩
    | some a =>
      obtain rfl := hspace
      obtain rfl := hput
      exact ⟨fields',p',(h1.writeOption (hin a rfl)).congr rfl (fun _ _ => rfl)⟩
  · rw [if_neg hfull] at hput
    obtain rfl := Option.some.inj hput
    exact ⟨_,_,(h.add hopt hover hlen (by omega)).congr rfl (fun _ _ => rfl)⟩

end Options

/-! ## Runs -/

section

variable {limit room : ℕ} {m m' : Mess} {room' : ℕ}

/-- One safe step keeps the options in order. -/
theorem Step.perform_options {step : Step} (h : ∃ fields p,Options limit m fields p)
    (hroom : room≤limit) (hsafe : step.Safe limit room m)
    (hstep : step.perform m room=some (m',room')) :
    (∃ fields p,Options limit m' fields p) ∧ room'≤limit := by
  obtain ⟨fields,p,h⟩ := h
  have h240 : optionsAt=240 := rfl
  cases step with
  | option opt data =>
    obtain ⟨m1,hput,heq⟩ := Option.map_eq_some_iff.mp hstep
    obtain ⟨rfl,rfl⟩ := Prod.mk.inj heq
    exact ⟨h.putOption hroom hsafe hput,hroom⟩
  | setName spare name =>
    obtain ⟨rfl,rfl⟩ := Prod.mk.inj (Option.some.inj hstep)
    have hlimit := spare.limit_le
    exact ⟨⟨fields,p,h.congr rfl (fun i hi => setName_of_ne (by omega))⟩,hroom⟩
  | setHead spare v =>
    obtain ⟨rfl,rfl⟩ := Prod.mk.inj (Option.some.inj hstep)
    have hlimit := spare.limit_le
    have hlt := spare.start_lt
    exact ⟨⟨fields,p,h.congr rfl (fun i hi => Mess.store_of_ne (by omega))⟩,hroom⟩
  | keepRoom =>
    obtain ⟨rfl,rfl⟩ := Prod.mk.inj (Option.some.inj hstep)
    refine ⟨⟨fields,p,h⟩,?_⟩
    rw [Mess.optionsEnd]
    split
    · omega
    · exact hroom

/-- A run of safe steps keeps the options in order. -/
theorem build_options {steps : List Step} (h : ∃ fields p,Options limit m fields p)
    (hroom : room≤limit) (hsafe : SafeAll limit m room steps)
    (hbuild : build m room steps=some (m',room')) : ∃ fields p,Options limit m' fields p := by
  induction steps generalizing m room with
  | nil =>
    obtain ⟨rfl,rfl⟩ := Prod.mk.inj (Option.some.inj hbuild)
    exact h
  | cons step steps ih =>
    obtain ⟨⟨m1,room1⟩,hstep,hbuild⟩ := Option.bind_eq_some_iff.mp hbuild
    obtain ⟨h1,hroom1⟩ := step.perform_options h hroom hsafe.1 hstep
    exact ih h1 hroom1 (hsafe.2 m1 room1 hstep) hbuild

end

/-! ## The ends of the packet -/

/-- The options have space up to the limit, and the agent id stands behind it. -/
structure Prepared.Right (p : Prepared) : Prop where
  limit_le : p.limit≤p.realEnd
  agent : ∀ agentId,p.agentId=some agentId → p.limit≤agentId
  options : optionsAt<p.limit
  size : p.realEnd≤p.mess.size

/-- The size is between that of the packet and the greatest one. -/
theorem packetSize_le_maxMessageSize (maxMessage : UInt16) :
    packetSize ≤ maxMessageSize maxMessage ∧ maxMessageSize maxMessage≤dhcpPacketMax := by
  have hsizes : packetSize≤dhcpPacketMax := by decide
  unfold maxMessageSize
  dsimp only
  split
  · exact ⟨hsizes,le_rfl⟩
  · split
    · exact ⟨le_rfl,hsizes⟩
    · constructor
      · omega
      · omega

theorem toNat_sub_headers (maxMessage : UInt16) : (maxMessage.toUInt64-28).toNat=
    if 28 ≤ maxMessage.toNat then maxMessage.toNat-28 else 2^64-28+maxMessage.toNat := by
  have hlt : maxMessage.toNat<2^16 := maxMessage.toNat_lt
  have hwide : maxMessage.toUInt64.toNat=maxMessage.toNat := UInt16.toNat_toUInt64 _
  have h28 : (28 : UInt64).toNat=28 := rfl
  rw [UInt64.toNat_sub,hwide,h28]
  split
  · omega
  · omega

/-- The size from a value that covers the headers. -/
theorem maxMessageSize_le {maxMessage : UInt16} (h : 28 ≤ maxMessage) :
    maxMessageSize maxMessage ≤ max packetSize (maxMessage.toNat-28) := by
  have hle : 28 ≤ maxMessage.toNat := UInt16.le_iff_toNat_le.mp h
  unfold maxMessageSize
  rw [toNat_sub_headers,if_pos hle]
  dsimp only
  split
  · omega
  · split
    · omega
    · omega

/-- A value that does not cover the headers gives the greatest size. -/
theorem maxMessageSize_of_lt {maxMessage : UInt16} (h : ¬28 ≤ maxMessage) :
    maxMessageSize maxMessage=dhcpPacketMax := by
  have hlt : ¬28 ≤ maxMessage.toNat := fun hle => h (UInt16.le_iff_toNat_le.mpr hle)
  have hmax : dhcpPacketMax=16384 := rfl
  unfold maxMessageSize
  rw [toNat_sub_headers,if_neg hlt]
  dsimp only
  rw [if_pos (by omega)]

/-- The resized packet holds what it is said to hold, and the size is that of the packet
structure or the one that the client allows. -/
theorem resize_spec {request : Mess} {sz : ℕ} {allocated : Bool} (hsize : packetSize≤request.size) :
    (resize request sz allocated).2≤(resize request sz allocated).1.size ∧
      ((resize request sz allocated).2=packetSize ∨ ∃ value,maxMessage request sz=some value ∧
        (resize request sz allocated).2=maxMessageSize value) := by
  unfold resize
  cases hvalue : maxMessage request sz with
  | none => exact ⟨hsize,Or.inl rfl⟩
  | some value =>
    dsimp only
    cases hbuf : expandBuf request (maxMessageSize value) allocated with
    | none => exact ⟨hsize,Or.inl rfl⟩
    | some mess =>
      refine ⟨?_,Or.inr ⟨value,rfl,rfl⟩⟩
      unfold expandBuf at hbuf
      split at hbuf
      · rename_i hle
        cases hbuf
        exact hle
      · split at hbuf
        · cases hbuf
          exact le_rfl
        · cases hbuf

/-- The limit is that of the agent id, or that of the packet. -/
theorem prepareMessage_spec {request : Mess} {sz : ℕ} {allocated : Bool}
    (hsize : packetSize≤request.size) :
    (prepareMessage request sz allocated).Right ∧
      (prepareMessage request sz allocated).realEnd=(resize request sz allocated).2 := by
  obtain ⟨hbuf,hreal⟩ := @resize_spec request sz allocated hsize
  have h548 : packetSize=548 := rfl
  have h240 : optionsAt=240 := rfl
  have hlow : packetSize≤(resize request sz allocated).2 := by
    rcases hreal with heq | ⟨value,-,heq⟩
    · exact heq.ge
    · rw [heq]
      exact (packetSize_le_maxMessageSize value).1
  unfold prepareMessage
  dsimp only
  generalize resize request sz allocated=resized at hbuf hlow
  have hwhole : Prepared.Right ⟨resized.1,resized.2,none,resized.2⟩ :=
    ⟨le_rfl,fun _ h => absurd h.symm (Option.some_ne_none _),show 240<resized.2 by omega,hbuf⟩
  cases resized.1.optionFind sz optionAgentId 1 with
  | none => exact ⟨hwhole,rfl⟩
  | some opt =>
    have hlen := (resized.1.byte (opt+1)).toNat_lt
    dsimp only
    unfold keepAgent
    dsimp only
    split
    · exact ⟨hwhole,rfl⟩
    · split
      · refine ⟨⟨Nat.sub_le _ _,fun a ha => ?_,?_,hbuf⟩,rfl⟩
        · exact (Option.some.inj ha).le
        · dsimp only
          omega
      · exact ⟨hwhole,rfl⟩

/-- The end is that of the packet structure, or the one that the client allows. -/
theorem prepare_spec {request : Mess} {sz : ℕ} {allocated : Bool}
    (hsize : packetSize≤request.size)
    (hagent : ∀ agentId,(prepare request sz allocated).agentId=some agentId →
      (prepare request sz allocated).limit≤agentId) :
    (prepare request sz allocated).Right ∧
      ((prepare request sz allocated).realEnd=packetSize ∨
        ∃ value,maxMessage request sz=some value ∧
          (prepare request sz allocated).realEnd=maxMessageSize value) := by
  have h548 : packetSize=548 := rfl
  have h300 : vendEnd=300 := rfl
  have h240 : optionsAt=240 := rfl
  obtain ⟨hright,hreal⟩ := @prepareMessage_spec request sz allocated hsize
  have hvalue := (@resize_spec request sz allocated hsize).2
  rw [← hreal] at hvalue
  have hlow : packetSize≤(prepareMessage request sz allocated).realEnd := by
    rcases hvalue with heq | ⟨value,-,heq⟩
    · exact heq.ge
    · rw [heq]
      exact (packetSize_le_maxMessageSize value).1
  unfold prepare at hagent ⊢
  cases hfind : request.optionFind sz optionMessageType 1 with
  | none =>
    refine ⟨⟨?_,fun _ h => absurd h.symm (Option.some_ne_none _),?_,hsize⟩,Or.inl rfl⟩
    · change vendEnd≤packetSize
      omega
    · change optionsAt<vendEnd
      omega
  | some opt =>
    rw [hfind] at hagent
    dsimp only at hagent ⊢
    split at hagent
    · rename_i hzero
      rw [if_pos hzero]
      refine ⟨⟨?_,hagent,?_,hright.size⟩,hvalue⟩
      · change vendEnd≤(prepareMessage request sz allocated).realEnd
        omega
      · change optionsAt<vendEnd
        omega
    · rename_i hzero
      rw [if_neg hzero]
      exact ⟨hright,hvalue⟩

/-- The cleared packet has no options. -/
theorem Prepared.Right.cleared {p : Prepared} (h : p.Right) :
    Options p.limit p.cleared [] optionsAt := by
  refine ⟨h.limit_le.trans h.size,⟨rfl,h.options,fun i hi hlt => ?_⟩,
    fun f hf => absurd hf List.not_mem_nil⟩
  exact if_pos (Or.inr (Or.inl ⟨hi,hlt⟩))

/-! ## The length -/

/-- The end option is the last byte of the finished packet, unless the packet is filled up. -/
theorem length_endOptions {m fin : Mess} {p n : ℕ} {broadcast : Bool}
    (h : m.endOptions p broadcast=some (fin,n)) : n=max (p+1) minPacketsz := by
  obtain ⟨overload,-,h⟩ := Option.bind_eq_some_iff.mp h
  obtain ⟨m1,-,h⟩ := Option.bind_eq_some_iff.mp h
  obtain ⟨m2,-,h⟩ := Option.map_eq_some_iff.mp h
  exact (Prod.mk.inj h).2.symm

/-- A reply that is built in safe steps ends in front of the end of the packet. -/
theorem length_reply_le {request : Mess} {sz : ℕ} {allocated broadcast : Bool}
    {steps : List Step} {fin : Mess} {n : ℕ} (hright : (prepare request sz allocated).Right)
    (hsafe : SafeAll (prepare request sz allocated).limit (prepare request sz allocated).cleared
      (prepare request sz allocated).limit steps)
    (hreply : reply request sz allocated steps broadcast=some (fin,n)) :
    n ≤ max (prepare request sz allocated).realEnd minPacketsz := by
  unfold reply at hreply
  dsimp only at hreply
  generalize prepare request sz allocated=prepared at hsafe hright hreply
  split at hreply
  · cases hreply
  obtain ⟨⟨m,room⟩,hbuild,hsized⟩ := Option.bind_eq_some_iff.mp hreply
  obtain ⟨fields,p,h⟩ := build_options ⟨_,_,hright.cleared⟩ le_rfl hsafe hbuild
  have hlt := h.area.lt
  have hle := hright.limit_le
  dsimp only at hsized
  rw [Mess.dhcpPacketSize,h.skipOpts,Option.bind_some] at hsized
  have hn := length_endOptions hsized
  cases hagent : prepared.agentId with
  | none =>
    rw [hagent] at hn
    change n=max (p+1) minPacketsz at hn
    omega
  | some agentId =>
    have hbehind := hright.agent agentId hagent
    rw [hagent] at hn
    change n=max (p+(prepared.realEnd-agentId)+1) minPacketsz at hn
    omega

/-! ## Packets that are filled -/

section

variable {limit room : ℕ} {m : Mess} {fields : List Field} {p : ℕ}

theorem build_append (m : Mess) (room : ℕ) (first second : List Step) :
    build m room (first++second)=
      (build m room first).bind fun (m,room) => build m room second := by
  induction first generalizing m room with
  | nil => rfl
  | cons step first ih =>
    rw [List.cons_append,build,build,Option.bind_assoc]
    exact congrArg _ (funext (fun state => ih state.1 state.2))

theorem safeAll_append {first second : List Step} (hfirst : SafeAll limit m room first)
    (hsecond : ∀ m' room',build m room first=some (m',room') → SafeAll limit m' room' second) :
    SafeAll limit m room (first++second) := by
  induction first generalizing m room with
  | nil => exact hsecond m room rfl
  | cons step first ih =>
    refine ⟨hfirst.1,fun m1 room1 hstep => ih (hfirst.2 m1 room1 hstep) fun m' room' hbuild => ?_⟩
    refine hsecond m' room' ?_
    rw [build,hstep]
    exact hbuild

/-- The bytes that options take. -/
def taken (options : List (UInt8×List UInt8)) : ℕ :=
  (options.map fun option => option.2.length+2).sum

/-- Options that fit are put one behind the other, and nothing unsafe happens. -/
theorem Options.fill {options : List (UInt8×List UInt8)} (h : Options limit m fields p)
    (htags : ∀ f∈fields,f.tag≠optionOverload) (hroom : room≤limit)
    (hcodes : ∀ option∈options,option.1≠0 ∧ option.1≠optionOverload ∧ option.2.length≤255)
    (hfits : p+taken options+1<room) :
    SafeAll limit m room (options.map fun option => .option option.1 option.2) ∧
    ∃ m' fields',build m room (options.map fun option => .option option.1 option.2)=
        some (m',room) ∧ Options limit m' fields' (p+taken options) ∧
      ∀ f∈fields',f.tag≠optionOverload := by
  induction options generalizing m fields p with
  | nil => exact ⟨trivial,m,fields,rfl,h,htags⟩
  | cons option options ih =>
    obtain ⟨opt,data⟩ := option
    obtain ⟨hzero,hover,hlen⟩ := hcodes _ List.mem_cons_self
    change data.length≤255 at hlen
    have htaken : taken ((opt,data)::options)=data.length+2+taken options := by
      rw [taken,List.map_cons,List.sum_cons,taken]
    rw [htaken] at hfits ⊢
    have hput : m.putOption room opt data.length data=
        some ((m.writeOption p opt data).note ⟨p+2-2,opt,data⟩) := by
      rw [Mess.putOption,Mess.freeSpace,h.skipOpts,Option.bind_some,if_neg (by omega)]
      rfl
    have hadd : Options limit ((m.writeOption p opt data).note ⟨p+2-2,opt,data⟩)
        (fields++[⟨p,opt,data⟩]) (p+2+data.length) :=
      (h.add hzero (fun heq => absurd heq hover) hlen (by omega)).congr rfl (fun _ _ => rfl)
    obtain ⟨hsafe,m',fields',hbuild,hoptions,htags'⟩ := ih hadd (fun f hf => by
      rcases List.mem_append.mp hf with hf | hf
      · exact htags f hf
      · rw [List.mem_singleton.mp hf]
        exact hover) (fun option hin => hcodes option (List.mem_cons_of_mem _ hin)) (by omega)
    have hperform : (Step.option opt data).perform m room=
        some ((m.writeOption p opt data).note ⟨p+2-2,opt,data⟩,room) := by
      rw [Step.perform,hput]
      rfl
    refine ⟨⟨⟨hzero,fun heq => absurd heq hover,hlen,fun q hq hfull => ?_⟩,fun m1 room1 hstep => ?_⟩,
      m',fields',?_,?_,htags'⟩
    · rw [h.skipOpts] at hq
      cases hq
      omega
    · rw [hperform] at hstep
      cases hstep
      exact hsafe
    · rw [List.map_cons,build,hperform]
      exact hbuild
    · rw [show p+(data.length+2+taken options)=p+2+data.length+taken options by omega]
      exact hoptions

/-- A packet without an overload option and without an agent id is finished behind its
options. -/
theorem Options.finish (h : Options limit m fields p) (htags : ∀ f∈fields,f.tag≠optionOverload)
    (realEnd : ℕ) : ∃ fin,m.dhcpPacketSize none realEnd false=some (fin,max (p+1) minPacketsz) := by
  have hnone : m.findOverload=some none := by
    rw [h.findOverload,List.find?_eq_none.mpr (fun f hf htag => htags f hf (of_decide_eq_true htag))]
    rfl
  rw [Mess.dhcpPacketSize,h.skipOpts,Option.bind_some]
  change ∃ fin,m.endOptions p false=_
  have hspare : ∀ (m : Mess) (k : Spare),m.endSpare 0 k=some m := by
    intro m k
    cases k with
    | file => rfl
    | sname => rfl
  rw [Mess.endOptions,hnone,Option.bind_some]
  simp only [Mess.overloadFlags,hspare]
  exact ⟨_,rfl⟩

end

/-! ## The size that the client allows -/

/-- A request of a type, with a maximum message size of two bytes. -/
def sizedRequest (messType high low : UInt8) : Mess where
  size := dhcpPacketMax
  byte i :=
    ([99,130,83,99,53,1,messType,57,2,high,low,255] : List UInt8).getD (i-236) 0
  log := []

/-- The options of that request. -/
def sizedFields (messType high low : UInt8) : List Field :=
  [⟨240,53,[messType]⟩,⟨243,57,[high,low]⟩]

theorem laid_sizedRequest (messType high low : UInt8) :
    Laid (sizedRequest messType high low).byte optionsAt (sizedFields messType high low) 247 := by
  refine ⟨rfl,show (53 : UInt8)≠0 by decide,Field.heldBy_mk rfl rfl (fun i hi => ?_),rfl,
    show (57 : UInt8)≠0 by decide,Field.heldBy_mk rfl rfl (fun i hi => ?_),rfl⟩
  · obtain rfl : i=0 := Nat.lt_one_iff.mp hi
    rfl
  · change i<2 at hi
    obtain rfl | rfl : i=0 ∨ i=1 := by omega
    · rfl
    · rfl

theorem optionFind1_sizedRequest (messType high low opt : UInt8) (minsize : ℕ)
    (hopt : opt≠optionEnd) :
    (sizedRequest messType high low).optionFind1 optionsAt 300 opt minsize=
      ((sizedFields messType high low).find? fun f => f.tag=opt ∧ f.data.length≥minsize).map
        Field.start := by
  refine Mess.optionFind1_laid (laid_sizedRequest messType high low) rfl (by decide)
    (fun f hf => ?_) hopt
  rcases List.mem_cons.mp hf with rfl | hf
  · exact show (53 : UInt8)≠optionEnd by decide
  · rw [List.mem_singleton.mp hf]
    exact show (57 : UInt8)≠optionEnd by decide

theorem maxMessage_sizedRequest (messType : UInt8) {value : UInt16} (h : ¬28≤value) :
    maxMessage (sizedRequest messType 0 value.toUInt8) 300=some value := by
  have hlt : value.toNat<28 :=
    Nat.lt_of_not_le fun hle => h (UInt16.le_iff_toNat_le.mpr hle)
  have hfind : (sizedRequest messType 0 value.toUInt8).optionFind 300 optionMaxmessage 2=
      some 243 := by
    rw [Mess.optionFind,optionFind1_sizedRequest _ _ _ _ _ (by decide)]
    rfl
  have hat : maxMessageAt (sizedRequest messType 0 value.toUInt8) 243=
      (0 : UInt8).toUInt16<<<8 ||| value.toUInt8.toUInt16 := rfl
  have hzero : (0 : UInt8).toUInt16<<<8=0 := by decide
  rw [maxMessage,hfind,Option.map_some,hat,hzero,UInt16.zero_or]
  refine congrArg some (UInt16.toNat_inj.mp ?_)
  rw [UInt8.toNat_toUInt16,UInt16.toNat_toUInt8]
  omega

theorem messageType_sizedRequest (messType high low : UInt8) :
    (sizedRequest messType high low).optionFind 300 optionMessageType 1=some 240 := by
  rw [Mess.optionFind,optionFind1_sizedRequest _ _ _ _ _ (by decide)]
  rfl

/-- A value that does not cover the headers gives the greatest packet. -/
theorem prepare_sizedRequest {messType : UInt8} (htype : messType≠0) {value : UInt16}
    (h : ¬28≤value) : prepare (sizedRequest messType 0 value.toUInt8) 300 true=
      ⟨sizedRequest messType 0 value.toUInt8,dhcpPacketMax,none,dhcpPacketMax⟩ := by
  have hresize : resize (sizedRequest messType 0 value.toUInt8) 300 true=
      (sizedRequest messType 0 value.toUInt8,dhcpPacketMax) := by
    rw [resize,maxMessage_sizedRequest messType h]
    dsimp only
    rw [maxMessageSize_of_lt h]
    rfl
  have hagent : (sizedRequest messType 0 value.toUInt8).optionFind 300 optionAgentId 1=none := by
    rw [Mess.optionFind,optionFind1_sizedRequest _ _ _ _ _ (by decide),
      optionFind1_sizedRequest _ _ _ _ _ (by decide)]
    rfl
  have hbyte : (sizedRequest messType 0 value.toUInt8).byte (240+2)=messType := rfl
  rw [prepare,messageType_sizedRequest]
  dsimp only
  rw [hbyte,if_neg htype,prepareMessage,hresize]
  dsimp only
  rw [hagent]

/-- The message type and the server identifier of an acknowledgement. -/
def headOptions : List (UInt8×List UInt8) := [(53,[5]),(54,[10,0,0,1])]

/-- Three configured strings. -/
def configuredOptions : List (UInt8×List UInt8) :=
  [(224,List.replicate 200 97),(225,List.replicate 200 98),(226,List.replicate 200 99)]

/-- The steps that put them. -/
def informSteps : List Step :=
  headOptions.map (fun option => .option option.1 option.2)++.keepRoom::
    configuredOptions.map fun option => .option option.1 option.2

/-- For a value that does not cover the headers a reply with these options is longer than the
packet structure. -/
theorem reply_sizedRequest {value : UInt16} (h : ¬28≤value) :
    SafeAll (prepare (sizedRequest 8 0 value.toUInt8) 300 true).limit
      (prepare (sizedRequest 8 0 value.toUInt8) 300 true).cleared
      (prepare (sizedRequest 8 0 value.toUInt8) 300 true).limit informSteps ∧
    ∃ fin,reply (sizedRequest 8 0 value.toUInt8) 300 true informSteps false=some (fin,856) := by
  have hprepare := prepare_sizedRequest (show (8 : UInt8)≠0 by decide) h
  have hright := (@prepare_spec (sizedRequest 8 0 value.toUInt8) 300 true
    (show packetSize≤dhcpPacketMax by decide)
    (fun agentId hagent => by rw [hprepare] at hagent; cases hagent)).1
  have hcookie : hasCookie (sizedRequest 8 0 value.toUInt8)=true := rfl
  unfold reply
  dsimp only
  rw [hcookie,if_neg (fun hand => Bool.noConfusion hand.2)]
  rw [hprepare] at hright ⊢
  have hhead : taken headOptions=9 := by decide
  have hconfigured : taken configuredOptions=606 := by decide +kernel
  have hmax : dhcpPacketMax=16384 := rfl
  have h240 : optionsAt=240 := rfl
  obtain ⟨hsafe,m,fields,hbuild,hoptions,htags⟩ := @Options.fill _ dhcpPacketMax _ _ _ headOptions
    hright.cleared (fun f hf => absurd hf List.not_mem_nil) le_rfl (by decide)
    (by rw [hhead]; omega)
  have hroom : dhcpPacketMax-3 ≤ m.optionsEnd dhcpPacketMax ∧
      m.optionsEnd dhcpPacketMax≤dhcpPacketMax := by
    rw [Mess.optionsEnd]
    split
    · omega
    · omega
  obtain ⟨hsafe2,m2,fields2,hbuild2,hoptions2,htags2⟩ := hoptions.fill htags hroom.2
    (show ∀ option∈configuredOptions,_ by decide +kernel)
    (by rw [hhead,hconfigured]; omega)
  constructor
  · refine safeAll_append hsafe fun m' room' hbuild' => ?_
    rw [hbuild] at hbuild'
    cases hbuild'
    refine ⟨trivial,fun m1 room1 hstep => ?_⟩
    cases hstep
    exact hsafe2
  · obtain ⟨fin,hfin⟩ := hoptions2.finish htags2 dhcpPacketMax
    refine ⟨fin,?_⟩
    have hsteps : build (Prepared.cleared
        ⟨sizedRequest 8 0 value.toUInt8,dhcpPacketMax,none,dhcpPacketMax⟩) dhcpPacketMax
        informSteps=some (m2,m.optionsEnd dhcpPacketMax) := by
      rw [informSteps,build_append,hbuild]
      exact hbuild2
    rw [hsteps]
    change m2.dhcpPacketSize none dhcpPacketMax false=_
    rw [hfin,hhead,hconfigured]
    rfl

/-- The replies that are built in safe steps, with the agent id behind the limit, keep to the
size that the client allows, or to that of the packet structure, exactly when the value covers
the headers. -/
theorem length_reply_le_iff (value : UInt16) :
    (∀ (request : Mess) (sz : ℕ) (allocated broadcast : Bool) (steps : List Step) (fin : Mess)
        (n : ℕ),packetSize≤request.size → maxMessage request sz=some value →
      (∀ agentId,(prepare request sz allocated).agentId=some agentId →
        (prepare request sz allocated).limit≤agentId) →
      SafeAll (prepare request sz allocated).limit (prepare request sz allocated).cleared
        (prepare request sz allocated).limit steps →
      reply request sz allocated steps broadcast=some (fin,n) →
        (n : ℤ) ≤ max (packetSize : ℤ) ((value.toNat : ℤ)-28) ∧ n≤dhcpPacketMax) ↔
      28≤value := by
  have h548 : packetSize=548 := rfl
  have h300 : minPacketsz=300 := rfl
  constructor
  · intro hall
    by_contra hlt
    obtain ⟨hsafe,fin,hreply⟩ := reply_sizedRequest hlt
    have hle := (hall _ _ _ _ _ _ _ (show packetSize≤dhcpPacketMax by decide)
      (maxMessage_sizedRequest 8 hlt) (fun agentId hagent => by
        rw [prepare_sizedRequest (by decide) hlt] at hagent
        cases hagent) hsafe hreply).1
    have hvalue : ¬28≤value.toNat := fun hle => hlt (UInt16.le_iff_toNat_le.mpr hle)
    omega
  · intro h request sz allocated broadcast steps fin n hsize hvalue hagent hsafe hreply
    obtain ⟨hright,hend⟩ := prepare_spec hsize hagent
    have hle := length_reply_le hright hsafe hreply
    have hmax := packetSize_le_maxMessageSize value
    have hallowed := maxMessageSize_le h
    rcases hend with heq | ⟨value',hvalue',heq⟩
    · omega
    · rw [hvalue] at hvalue'
      cases hvalue'
      omega

/-- A request that allows no bytes at all is answered with 856 bytes. -/
theorem not_length_reply_le : packetSize≤(sizedRequest 8 0 0).size ∧
    maxMessage (sizedRequest 8 0 0) 300=some 0 ∧ ∃ fin n,
      reply (sizedRequest 8 0 0) 300 true informSteps false=some (fin,n) ∧
      ¬((n : ℤ) ≤ max (packetSize : ℤ) (((0 : UInt16).toNat : ℤ)-28) ∧ n≤dhcpPacketMax) := by
  have hzero : ¬(28 : UInt16)≤0 := by decide
  have hbyte : (0 : UInt16).toUInt8=0 := by decide
  obtain ⟨-,fin,hreply⟩ := reply_sizedRequest hzero
  have hvalue := maxMessage_sizedRequest 8 hzero
  rw [hbyte] at hreply hvalue
  refine ⟨show packetSize≤dhcpPacketMax by decide,hvalue,fin,856,hreply,?_⟩
  decide

end AndroidPlatform.DhcpReplyLength
