import AndroidPlatform.TaggedFields
import Mathlib.Algebra.Group.Nat.Defs
import Mathlib.Logic.Function.Basic

/-!
# The options of a DHCP reply

The routines of `rfc2131.c` that put options into a reply, finish it and find options
in a packet. Addresses are offsets from the start of the packet. A history records
the writes and the options that found space. A walk that leaves the buffer has no
result.
-/

namespace AndroidPlatform.DhcpReplyOptions

open TaggedFields

/-- `OPTION_OVERLOAD`. -/
def optionOverload : UInt8 := 52

/-- `OPTION_AGENT_ID`. -/
def optionAgentId : UInt8 := 82

/-- `OPTION_END`. -/
def optionEnd : UInt8 := 255

/-- `MIN_PACKETSZ`. -/
def minPacketsz : ℕ := 300

/-- The address of `options`, behind the magic cookie. -/
def optionsAt : ℕ := 240

/-- The fields `file` and `sname`, which carry options when they are not used. -/
inductive Spare where
  | file
  | sname
deriving DecidableEq

/-- The address of a spare field. -/
def Spare.start : Spare → ℕ
  | .file => 108
  | .sname => 44

/-- The first address behind a spare field. -/
def Spare.limit : Spare → ℕ
  | .file => 236
  | .sname => 108

/-- The bit of a spare field in the value of the overload option. -/
def Spare.bit : Spare → UInt8
  | .file => 1
  | .sname => 2

/-- What happens to a packet. -/
inductive Event where
  | wrote (p : ℕ)
  | placed (f : Field)
deriving DecidableEq

/-- A packet in its buffer of `size` bytes. The history has the newest event first. -/
structure Mess where
  size : ℕ
  byte : ℕ → UInt8
  log : List Event

namespace Mess

/-- A byte is written. -/
def store (m : Mess) (p : ℕ) (v : UInt8) : Mess :=
  { m with byte := Function.update m.byte p v, log := .wrote p::m.log }

/-- Bytes are written one behind the other. -/
def copy (m : Mess) (p : ℕ) : List UInt8 → Mess
  | [] => m
  | v::data => (m.store p v).copy (p+1) data

/-- An option has been put. -/
def note (m : Mess) (f : Field) : Mess := { m with log := .placed f::m.log }

/-! ## Walking over options -/

/-- `dhcp_skip_opts`. -/
def skipOpts (m : Mess) (start : ℕ) : Option ℕ :=
  if start < m.size then
    if m.byte start=0 then some start else m.skipOpts (start+(m.byte (start+1)).toNat+2)
  else none
termination_by m.size-start

/-- The loop of `find_overload`. -/
def findOverloadFrom (m : Mess) (p : ℕ) : Option (Option ℕ) :=
  if p < m.size then
    if m.byte p=0 then some none
    else if m.byte p=optionOverload then some (some p)
    else m.findOverloadFrom (p+(m.byte (p+1)).toNat+2)
  else none
termination_by m.size-p

/-- `find_overload`. -/
def findOverload (m : Mess) : Option (Option ℕ) := m.findOverloadFrom optionsAt

/-- `option_find1`. -/
def optionFind1 (m : Mess) (p limit : ℕ) (opt : UInt8) (minsize : ℕ) : Option ℕ :=
  if p>limit then none
  else if m.byte p=optionEnd then if opt=optionEnd then some p else none
  else if m.byte p=0 then m.optionFind1 (p+1) limit opt minsize
  else if p+2>limit then none
  else if p+(2+(m.byte (p+1)).toNat)>limit then none
  else if m.byte p=opt ∧ (m.byte (p+1)).toNat≥minsize then some p
  else m.optionFind1 (p+(m.byte (p+1)).toNat+2) limit opt minsize
termination_by limit+1-p

/-- `option_find`. -/
def optionFind (m : Mess) (size : ℕ) (opt : UInt8) (minsize : ℕ) : Option ℕ :=
  match m.optionFind1 optionsAt size opt minsize with
  | some p => some p
  | none =>
    match m.optionFind1 optionsAt size optionOverload 1 with
    | none => none
    | some overload =>
      match (if m.byte (overload+2) &&& 1≠0 then
          m.optionFind1 Spare.file.start (Spare.file.start+128) opt minsize else none) with
      | some p => some p
      | none =>
        if m.byte (overload+2) &&& 2≠0 then
          m.optionFind1 Spare.sname.start (Spare.sname.start+64) opt minsize
        else none

/-! ## Placing options -/

/-- The part of `free_space` that looks for space in a spare field. The size of `file`
is used for both of them. -/
def spillInto (m : Mess) (overload len : ℕ) (spare : Spare) : Option (Mess×Option ℕ) :=
  let m := if m.byte spare.start=0 then
      m.store (overload+2) (m.byte (overload+2) ||| spare.bit) else m
  if m.byte (overload+2) &&& spare.bit≠0 then
    (m.skipOpts spare.start).map fun p =>
      (m,if p+len+3≥spare.start+128 then none else some p)
  else some (m,none)

/-- The part of `free_space` that uses `file` and `sname`, `p` being the end of the
options. -/
def spill (m : Mess) (p len : ℕ) : Option (Mess×Option ℕ) :=
  m.findOverload.bind fun found =>
    let made : Mess×Option ℕ :=
      if found=none ∧ (m.byte Spare.file.start=0 ∨ m.byte Spare.sname.start=0) then
        ((m.store p optionOverload).store (p+1) 1,some p)
      else (m,found)
    match made with
    | (m,none) => some (m,none)
    | (m,some overload) =>
      (m.spillInto overload len .file).bind fun inFile =>
        match inFile with
        | (m,some p) => some (m,some p)
        | (m,none) => m.spillInto overload len .sname

/-- `free_space`. The result is the address for the data. -/
def freeSpace (m : Mess) (limit : ℕ) (opt : UInt8) (len : ℕ) : Option (Mess×Option ℕ) :=
  (m.skipOpts optionsAt).bind fun p =>
    (if p+len+3≥limit then m.spill p len else some (m,some p)).map fun space =>
      match space with
      | (m,none) => (m,none)
      | (m,some p) => ((m.store p opt).store (p+1) (UInt8.ofNat len),some (p+2))

/-- An option of length `len` is put, its data being written where `free_space` says. -/
def putOption (m : Mess) (limit : ℕ) (opt : UInt8) (len : ℕ) (data : List UInt8) :
    Option Mess :=
  (m.freeSpace limit opt len).map fun space =>
    match space with
    | (m,none) => m
    | (m,some p) => (m.copy p data).note ⟨p-2,opt,data⟩

/-- The bytes that `option_put` writes. -/
def valBytes (len val : ℕ) : List UInt8 :=
  (List.range len).map fun i => UInt8.ofNat (val/2^(8*(len-(i+1))))

/-- `option_put`. -/
def optionPut (m : Mess) (limit : ℕ) (opt : UInt8) (len val : ℕ) : Option Mess :=
  m.putOption limit opt len (valBytes len val)

end Mess

/-- A string with the terminator that is sent with it, unless there is no space for it in
an option. -/
def terminated (string : List UInt8) (nullTerm : Bool) : List UInt8 :=
  if nullTerm=true ∧ string.length≠255 then string++[0] else string

/-- `option_put_string`. -/
def Mess.optionPutString (m : Mess) (limit : ℕ) (opt : UInt8) (string : List UInt8)
    (nullTerm : Bool) : Option Mess :=
  m.putOption limit opt (terminated string nullTerm).length (terminated string nullTerm)

/-! ## Encapsulated options -/

/-- `DHOPT_STRING`. -/
def dhoptString : ℕ := 2

/-- `struct dhcp_opt`: the code, the flags and the value, of `len` bytes. -/
structure DhcpOpt where
  opt : UInt8
  flags : ℕ
  val : List UInt8

/-- The data that `do_opt` writes without a context. -/
def DhcpOpt.doOpt (opt : DhcpOpt) (nullTerm : Bool) : List UInt8 :=
  terminated opt.val (nullTerm && decide (opt.flags &&& dhoptString≠0))

/-- An encapsulated option. -/
def DhcpOpt.bytes (opt : DhcpOpt) (nullTerm : Bool) : List UInt8 :=
  opt.opt::UInt8.ofNat (opt.doOpt nullTerm).length::opt.doOpt nullTerm

/-- The options with a flag, one behind the other. -/
def encapBytes (opts : List DhcpOpt) (flag : ℕ) (nullTerm : Bool) : List UInt8 :=
  (opts.filter fun opt => opt.flags &&& flag≠0).flatMap fun opt => opt.bytes nullTerm

/-- The loop of `do_encap_opts`. The options from `start` to the current one are `chunk`;
what is left after the loop is returned. -/
def Mess.encapLoop (limit : ℕ) (encap : UInt8) (flag : ℕ) (nullTerm : Bool) :
    Mess → List DhcpOpt → ℕ → List DhcpOpt → Option (Mess×List DhcpOpt×ℕ)
  | m,chunk,encLen,[] => some (m,chunk,encLen)
  | m,chunk,encLen,opt::rest =>
    if opt.flags &&& flag≠0 then
      let new := (opt.doOpt nullTerm).length+2
      if encLen+new≤255 then
        encapLoop limit encap flag nullTerm m (chunk++[opt]) (encLen+new) rest
      else
        (m.putOption limit encap encLen (encapBytes chunk flag nullTerm)).bind fun m =>
          encapLoop limit encap flag nullTerm m [opt] new rest
    else encapLoop limit encap flag nullTerm m (chunk++[opt]) encLen rest

/-- `do_encap_opts`. -/
def Mess.doEncapOpts (m : Mess) (limit : ℕ) (opts : List DhcpOpt) (encap : UInt8) (flag : ℕ)
    (nullTerm : Bool) : Option Mess :=
  (Mess.encapLoop limit encap flag nullTerm m [] 0 opts).bind fun (m,chunk,encLen) =>
    if encLen≠0 then
      m.putOption limit encap (encLen+1) (encapBytes chunk flag nullTerm++[optionEnd])
    else some m

/-! ## The reply -/

/-- `clear_packet`. The history starts here. -/
def clearPacket (size : ℕ) (byte : ℕ → UInt8) (limit : ℕ) : Mess where
  size := size
  byte i :=
    if 44 ≤ i ∧ i < 236 ∨ optionsAt ≤ i ∧ i < limit ∨ 20 ≤ i ∧ i < 24 then 0 else byte i
  log := []

/-- `strncpy` of a name into a spare field, whose last byte is left alone. -/
def Mess.setName (m : Mess) (spare : Spare) (name : List UInt8) : Mess :=
  { m with byte := fun i =>
      if spare.start ≤ i ∧ i < spare.limit-1 then name.getD (i-spare.start) 0 else m.byte i }

/-- The end that `do_options` uses: three bytes are kept for the overload option when
`file` or `sname` is free. -/
def Mess.optionsEnd (m : Mess) (limit : ℕ) : ℕ :=
  if m.byte Spare.file.start=0 ∨ m.byte Spare.sname.start=0 then limit-3 else limit

/-- The calls that put options. -/
inductive Call where
  | optionPut (opt : UInt8) (len val : ℕ)
  | optionPutString (opt : UInt8) (string : List UInt8) (nullTerm : Bool)
  | doEncapOpts (opts : List DhcpOpt) (encap : UInt8) (flag : ℕ) (nullTerm : Bool)

/-- A call is made. -/
def Mess.perform (m : Mess) (limit : ℕ) : Call → Option Mess
  | .optionPut opt len val => m.optionPut limit opt len val
  | .optionPutString opt string nullTerm => m.optionPutString limit opt string nullTerm
  | .doEncapOpts opts encap flag nullTerm => m.doEncapOpts limit opts encap flag nullTerm

/-- A sequence of calls. -/
def Mess.run (limit : ℕ) : Mess → List Call → Option Mess
  | m,[] => some m
  | m,call::calls => (m.perform limit call).bind fun m => Mess.run limit m calls

/-- The agent id that was kept behind the options is moved to their end, `p`. -/
def Mess.moveAgent (m : Mess) (p agentId realEnd : ℕ) : Mess :=
  { m with byte := fun i =>
      if p ≤ i ∧ i < p+(realEnd-agentId) then m.byte (agentId+(i-p))
      else if p+(realEnd-agentId) ≤ i ∧ i < realEnd then 0 else m.byte i }

/-- The options in a spare field are ended. -/
def Mess.endSpare (m : Mess) (flags : UInt8) (spare : Spare) : Option Mess :=
  if flags &&& spare.bit≠0 then (m.skipOpts spare.start).map fun p => m.store p optionEnd
  else some m

/-- The packet with the agent id behind the options that end at `p`, if there is one, and
the new end of the options. -/
def Mess.withAgent (m : Mess) (p : ℕ) (agentId : Option ℕ) (realEnd : ℕ) : Mess×ℕ :=
  match agentId with
  | none => (m,p)
  | some agentId => (m.moveAgent p agentId realEnd,p+(realEnd-agentId))

/-- The value of the overload option, or no bits if there is none. -/
def Mess.overloadFlags (m : Mess) : Option ℕ → UInt8
  | none => 0
  | some overload => m.byte (overload+2)

/-- The part of `dhcp_packet_size` that ends the options, which end at `p`. -/
def Mess.endOptions (m : Mess) (p : ℕ) (broadcast : Bool) : Option (Mess×ℕ) :=
  m.findOverload.bind fun overload =>
    let flags := m.overloadFlags overload
    (m.endSpare flags .file).bind fun m =>
      (m.endSpare flags .sname).map fun m =>
        let m := m.store p optionEnd
        (if broadcast then m.store 10 (m.byte 10 ||| 0x80) else m,max (p+1) minPacketsz)

/-- `dhcp_packet_size`. Whether the broadcast flag is forced is an argument. -/
def Mess.dhcpPacketSize (m : Mess) (agentId : Option ℕ) (realEnd : ℕ) (broadcast : Bool) :
    Option (Mess×ℕ) :=
  (m.skipOpts optionsAt).bind fun p =>
    (m.withAgent p agentId realEnd).1.endOptions (m.withAgent p agentId realEnd).2 broadcast

end AndroidPlatform.DhcpReplyOptions
