import AndroidPlatform.CInteger
import AndroidPlatform.DhcpLeases
import AndroidPlatform.TextScanning

/-!
# The lease file of the DHCP server

`lease_update_file` writes a line for each lease, and `lease_init` reads the lines
back when the server starts. The hexadecimal numbers are parsed in place: the bytes
are stored in the buffer whose text is still being read. `w` is the number of bits
of a `long`.
-/

namespace AndroidPlatform.LeaseFile

open TextScanning DhcpLeases

/-! ## Names -/

/-- The loop of `check_name`. -/
def checkNameLoop (dotgap : ℕ) (nowhite : Bool) : List UInt8 → Bool
  | [] => nowhite
  | c::name =>
    if c=46 then checkNameLoop 0 nowhite name
    else if 63<dotgap+1 then false
    else if c<32 ∨ c=127 then false
    else if 128≤c then false
    else checkNameLoop (dotgap+1) (nowhite || decide (c≠32)) name

/-- What `check_name` leaves of the name: a dot at its end is cut off. -/
def trimName (name : List UInt8) : List UInt8 :=
  if name.getLast?=some 46 then name.dropLast else name

/-- `check_name` -/
def checkName (name : List UInt8) : Bool :=
  if name=[] ∨ 1025<name.length then false
  else if name=[46] then false
  else checkNameLoop 0 false (trimName name)

/-- The characters of a host name. -/
def isHostChar (c : UInt8) : Bool :=
  decide (65≤c ∧ c≤90 ∨ 97≤c ∧ c≤122 ∨ 48≤c ∧ c≤57 ∨ c=45 ∨ c=95)

/-- The loop of `legal_hostname`, which ends at the first dot. -/
def legalLoop : List UInt8 → Bool
  | [] => true
  | c::name => if isHostChar c then legalLoop name else decide (c=46)

/-- `legal_hostname` -/
def legalHostname (name : List UInt8) : Bool := checkName name && legalLoop (trimName name)

/-! ## Addresses -/

/-- The four bytes of an address. -/
def addrBytes (addr : UInt32) : List ℕ :=
  [addr.toNat/2^24,addr.toNat/2^16%2^8,addr.toNat/2^8%2^8,addr.toNat%2^8]

/-- `inet_ntoa` -/
def inetNtoa (addr : UInt32) : List UInt8 := [46].intercalate ((addrBytes addr).map (numeral 10 1))

/-- A part of an address in text: hexadecimal after `0x`, octal after `0`, else decimal. -/
def inetPart (text : List UInt8) : Option ℕ :=
  let read := fun base (digits : List UInt8) =>
    if digits=[] ∨ (readDigits base 0 digits).2≠[] then none
    else some (readDigits base 0 digits).1
  match text with
  | 48::120::digits => read 16 digits
  | 48::88::digits => read 16 digits
  | 48::c::digits => read 8 (c::digits)
  | digits => read 10 digits

/-- `inet_addr`: the last part takes the bytes that the others leave. -/
def inetAddr (text : List UInt8) : UInt32 :=
  match (text.splitOn 46).mapM inetPart with
  | some [a,b,c,d] =>
    if a<2^8 ∧ b<2^8 ∧ c<2^8 ∧ d<2^8 then UInt32.ofNat (2^24*a+2^16*b+2^8*c+d) else 0xffffffff
  | some [a,b,c] =>
    if a<2^8 ∧ b<2^8 ∧ c<2^16 then UInt32.ofNat (2^24*a+2^16*b+c) else 0xffffffff
  | some [a,b] => if a<2^8 ∧ b<2^24 then UInt32.ofNat (2^24*a+b) else 0xffffffff
  | some [a] => if a<2^32 then UInt32.ofNat a else 0xffffffff
  | _ => 0xffffffff

/-! ## Writing -/

/-- Bytes in hexadecimal with colons between them. -/
def hexBytes (bytes : List UInt8) : List UInt8 :=
  [58].intercalate (bytes.map fun b => numeral 16 2 b.toNat)

/-- The hardware address of a lease; the type is left out for Ethernet. -/
def hwField (hwaddr : List UInt8) (hwType : ℤ) : List UInt8 :=
  (if hwType≠1 ∨ hwaddr.length=0 then numeral 16 2 (hwType%2^32).toNat++[45] else [])++
    hexBytes hwaddr

/-- The line of a lease in `lease_update_file`. -/
def leaseLine (w : ℕ) (lease : Lease) : List UInt8 :=
  numeral 10 1 (lease.expires%2^w).toNat++[32]++
    hwField (lease.hwaddr.getD []) lease.hwType++[32]++inetNtoa lease.addr++[32]++
    lease.hostname.getD [42]++[32]++
    (if lease.clid≠[] then hexBytes lease.clid else [42])++[10]

/-- The file that `lease_update_file` writes. -/
def leaseUpdateFile (w : ℕ) (db : Db) : List UInt8 := (db.leases.map (leaseLine w)).flatten

/-! ## Reading -/

/-- What ends a chunk of `parse_hex`. -/
def endsChunk (c : UInt8) : Bool := decide (c=0 ∨ c=58 ∨ c=45)

/-- Where the chunk from a position ends. -/
def chunkEnd (buffer : List UInt8) (start : ℕ) : ℕ :=
  start+((buffer.drop start).takeWhile fun c => !endsChunk c).length

/-- The variables of `parse_hex`. -/
structure Hex where
  /-- `in` and `out`, the same buffer. -/
  buffer : List UInt8
  /-- `i` -/
  count : ℕ
  /-- Whether `mac_type` is still set. -/
  wantsType : Bool
  /-- `*mac_type` -/
  macType : ℤ
  /-- `mask` -/
  mask : ℕ

/-- One chunk of `parse_hex`, from `start` to `stop`. -/
def parseChunk (w : ℕ) (h : Hex) (start stop : ℕ) : Hex :=
  let chunk := (h.buffer.drop start).take (stop-start)
  if stop=start then h
  else if h.buffer.getD stop 0=45 ∧ h.count=0 ∧ h.wantsType=true then
    { h with
      buffer := h.buffer.set stop 0
      wantsType := false
      macType := CInteger.toInt (strtolHex w chunk) }
  else if chunk=[42] then
    { h with buffer := h.buffer.set stop 0, mask := 2*h.mask+1, count := h.count+1 }
  else
    { h with
      buffer := (h.buffer.set stop 0).set h.count (UInt8.ofInt (strtolHex w chunk))
      mask := 2*h.mask
      count := h.count+1 }

theorem length_parseChunk (w : ℕ) (h : Hex) (start stop : ℕ) :
    (parseChunk w h start stop).buffer.length=h.buffer.length := by
  unfold parseChunk
  dsimp only
  split_ifs
  · rfl
  · exact List.length_set
  · exact List.length_set
  · exact List.length_set.trans List.length_set

/-- A position with another character than 0 lies in the buffer. -/
theorem lt_length_of_getD {buffer : List UInt8} {i : ℕ} (h : buffer.getD i 0≠0) :
    i<buffer.length := by
  by_contra hge
  exact h (List.getD_eq_default _ _ (Nat.le_of_not_lt hge))

/-- The loop of `parse_hex` from a position. At the end of the string `maxlen` becomes
`i`, so the chunk that ends there is the last one. -/
def parseHexLoop (w maxlen : ℕ) (h : Hex) (start : ℕ) : Hex :=
  if h.count < maxlen then
    if h.buffer.getD (chunkEnd h.buffer start) 0=0 then
      parseChunk w h start (chunkEnd h.buffer start)
    else
      parseHexLoop w maxlen (parseChunk w h start (chunkEnd h.buffer start))
        (chunkEnd h.buffer start+1)
  else h
termination_by h.buffer.length-start
decreasing_by
  rename_i hstop
  have hlt := lt_length_of_getD hstop
  have hge : start≤chunkEnd h.buffer start := Nat.le_add_right _ _
  rw [length_parseChunk]
  omega

/-- `parse_hex` with a limit on the bytes. -/
def parseHex (w maxlen : ℕ) (text : List UInt8) (wantsType : Bool) : Hex :=
  parseHexLoop w maxlen ⟨text++[0],0,wantsType,0,0⟩ 0

/-- The fields of a line. -/
structure Line where
  /-- `ei` -/
  expires : ℕ
  /-- The hardware address. -/
  hw : List UInt8
  /-- The address. -/
  addr : List UInt8
  /-- The name. -/
  name : List UInt8
  /-- The client identifier. -/
  clid : List UInt8

/-- The `fscanf` of `lease_init`: the fields and what is left of the text. -/
def scanLine (w : ℕ) (text : List UInt8) : Option (Line×List UInt8) := do
  let (expires,text) ← scanUnsigned w text
  let (hw,text) ← scanWord 255 text
  let (addr,text) ← scanWord 16 text
  let (name,text) ← scanWord 255 text
  let (clid,text) ← scanWord 764 text
  some (⟨expires,hw,addr,name,clid⟩,text)

/-- A value of type `time_t`. -/
def toTime (w : ℕ) (n : ℕ) : ℤ := (BitVec.ofInt w n).toInt

/-- What `lease_init` does with a line; none if there are too many leases. -/
def readLease (w : ℕ) (options : Options) (db : Db) (line : Line) : Option Db :=
  let hw := parseHex w 16 line.hw true
  let hwType := if hw.macType=0 ∧ hw.count≠0 then 1 else hw.macType
  let clid := if line.clid=[42] then ⟨line.clid,0,false,0,0⟩ else parseHex w 255 line.clid false
  (db.allocate (inetAddr line.addr)).map fun new =>
    let new := new.update db.nextIdent fun lease =>
      { lease with expires := toTime w line.expires }.setHwaddr (hw.buffer.take hw.count)
        (clid.buffer.take clid.count) hwType
    if line.name=[42] then new else new.setHostname options db.nextIdent (some line.name) false

theorem length_scanLine {w : ℕ} {text rest : List UInt8} {line : Line}
    (h : scanLine w text=some (line,rest)) : rest.length<text.length := by
  simp only [scanLine,Option.bind_eq_bind,Option.bind_eq_some_iff,Prod.exists,Option.some.injEq,
    Prod.mk.injEq] at h
  obtain ⟨_,t1,h1,_,t2,h2,_,t3,h3,_,t4,h4,_,t5,h5,-,rfl⟩ := h
  have l1 := length_scanUnsigned h1
  have l2 := length_scanWord h2
  have l3 := length_scanWord h3
  have l4 := length_scanWord h4
  have l5 := length_scanWord h5
  omega

/-- The loop of `lease_init`. -/
def leaseInitLoop (w : ℕ) (options : Options) (db : Db) (text : List UInt8) : Option Db :=
  match h : scanLine w text with
  | none => some db
  | some (line,rest) =>
    (readLease w options db line).bind fun db => leaseInitLoop w options db rest
termination_by text.length
decreasing_by exact length_scanLine h

/-- `lease_init` -/
def leaseInit (w : ℕ) (options : Options) (text : List UInt8) (now : ℤ) : Option Db :=
  (leaseInitLoop w options (Db.empty options) text).map fun db => db.prune none now


/-! ## Addresses are read back -/

theorem numeral_head {n : ℕ} (hn : n≠0) : ∀ c∈(numeral 10 1 n).head?, c≠48 := by
  intro c hc
  have hdigits : numeralDigits 10 1 n=(Nat.digits 10 n).reverse := by
    have hlength : 0<(Nat.digits 10 n).length :=
      List.length_pos_iff.mpr (Nat.digits_ne_nil_iff_ne_zero.mpr hn)
    rw [numeralDigits,List.leftpad,List.length_reverse,Nat.sub_eq_zero_of_le hlength]
    rfl
  rw [numeral,hdigits,List.head?_map,List.head?_reverse] at hc
  obtain ⟨d,hd,rfl⟩ := Option.mem_map.mp hc
  have hne : d≠0 := by
    have hlast := Nat.getLast_digit_ne_zero 10 hn
    rw [List.getLast?_eq_some_getLast (Nat.digits_ne_nil_iff_ne_zero.mpr hn),
      Option.mem_some_iff] at hd
    rwa [← hd]
  have hlt : d<10 :=
    Nat.digits_lt_base (by decide) (List.mem_of_mem_getLast? hd)
  have hchars : ∀ d<10, d≠0 → digitChar d≠48 := by decide
  exact hchars d hlt hne

theorem inetPart_numeral (n : ℕ) : inetPart (numeral 10 1 n)=some n := by
  have hread : readDigits 10 0 (numeral 10 1 n)=(n,[]) := by
    have happend := @readDigits_numeral 10 (by decide) (by decide) 1 n []
      (fun c hc => by cases hc)
    rwa [List.append_nil] at happend
  have hne : numeral 10 1 n≠[] := numeral_ne_nil Nat.zero_lt_one n
  by_cases hn : n=0
  · rw [hn]
    decide
  · have hhead := numeral_head hn
    unfold inetPart
    dsimp only
    split
    · rename_i heq
      exact absurd rfl (hhead 48 (by rw [heq]; rfl))
    · rename_i heq
      exact absurd rfl (hhead 48 (by rw [heq]; rfl))
    · rename_i heq
      exact absurd rfl (hhead 48 (by rw [heq]; rfl))
    · rw [hread,if_neg (not_or.mpr ⟨hne,not_not.mpr rfl⟩)]

theorem mapM_inetPart (parts : List ℕ) :
    (parts.map (numeral 10 1)).mapM inetPart=some parts := by
  induction parts with
  | nil => rfl
  | cons n parts ih =>
    rw [List.map_cons,List.mapM_cons,inetPart_numeral,ih]
    rfl

/-- The parts of what `inet_ntoa` has written. -/
theorem splitOn_inetNtoa (addr : UInt32) :
    (inetNtoa addr).splitOn 46=(addrBytes addr).map (numeral 10 1) := by
  have hdots : ∀ l∈(addrBytes addr).map (numeral 10 1), (46 : UInt8)∉l := by
    intro l hl hdot
    obtain ⟨n,-,rfl⟩ := List.mem_map.mp hl
    obtain ⟨d,hd,heq⟩ := exists_of_mem_numeral (by decide) hdot
    exact (digitChar_spec d (by omega)).2.2.2.2.2.2.2.2 heq.symm
  rw [inetNtoa,List.splitOn_intercalate 46 hdots (List.cons_ne_nil _ _)]

/-- `inet_addr` reads what `inet_ntoa` has written. -/
theorem inetAddr_inetNtoa (addr : UInt32) : inetAddr (inetNtoa addr)=addr := by
  have haddr := addr.toNat_lt
  unfold inetAddr
  rw [splitOn_inetNtoa,mapM_inetPart]
  unfold addrBytes
  dsimp only
  rw [if_pos (by omega),← UInt32.toNat_inj,UInt32.toNat_ofNat']
  omega


/-! ## Hexadecimal numbers are read back -/

/-- The chunk at a position. -/
theorem chunkEnd_eq {buffer chunk rest : List UInt8} {start : ℕ} {c : UInt8}
    (hdrop : buffer.drop start=chunk++c::rest) (hchunk : ∀ c∈chunk, endsChunk c=false)
    (hc : endsChunk c=true) : chunkEnd buffer start=start+chunk.length := by
  unfold chunkEnd
  rw [hdrop,List.takeWhile_append_of_pos (fun c hmem => by rw [hchunk c hmem]; rfl),
    List.takeWhile_cons_of_neg (by rw [hc]; exact Bool.false_ne_true),List.append_nil]

theorem getD_of_drop {buffer chunk rest : List UInt8} {start : ℕ} {c : UInt8}
    (hdrop : buffer.drop start=chunk++c::rest) : buffer.getD (start+chunk.length) 0=c := by
  rw [List.getD_eq_getElem?_getD,← List.getElem?_drop,hdrop,List.getElem?_append_right le_rfl,
    Nat.sub_self]
  rfl

theorem drop_of_drop {buffer chunk rest : List UInt8} {start : ℕ} {c : UInt8}
    (hdrop : buffer.drop start=chunk++c::rest) : buffer.drop (start+chunk.length+1)=rest := by
  rw [Nat.add_assoc,← List.drop_drop,hdrop,List.append_cons,
    List.drop_left' (by rw [List.length_append]; rfl)]

theorem take_of_drop {buffer chunk rest : List UInt8} {start : ℕ}
    (hdrop : buffer.drop start=chunk++rest) :
    (buffer.drop start).take (start+chunk.length-start)=chunk := by
  rw [Nat.add_sub_cancel_left,hdrop,List.take_left]

/-- A number is not the end of a chunk. -/
theorem endsChunk_numeral {width n : ℕ} : ∀ c∈numeral 16 width n, endsChunk c=false := by
  intro c hc
  obtain ⟨d,hd,rfl⟩ := exists_of_mem_numeral (by decide) hc
  obtain ⟨-,hminus,-,-,-,hcolon,hzero,-⟩ := digitChar_spec d hd
  rw [endsChunk,decide_eq_false_iff_not]
  exact not_or.mpr ⟨hzero,not_or.mpr ⟨hcolon,hminus⟩⟩

/-- What a chunk with a byte does. -/
theorem parseChunk_byte {w start : ℕ} (hw : 9≤w) {h : Hex} {b c : UInt8} {rest : List UInt8}
    (hdrop : h.buffer.drop start=numeral 16 2 b.toNat++c::rest) (hc : c≠45) :
    parseChunk w h start (start+(numeral 16 2 b.toNat).length)=
      { h with
        buffer := (h.buffer.set (start+(numeral 16 2 b.toNat).length) 0).set h.count b
        mask := 2*h.mask
        count := h.count+1 } := by
  have hb := b.toNat_lt
  have hlength : 0<(numeral 16 2 b.toNat).length :=
    List.length_pos_iff.mpr (numeral_ne_nil Nat.zero_lt_two _)
  have hsmall : b.toNat<2^(w-1) := lt_of_lt_of_le hb (Nat.pow_le_pow_right (by decide) (by omega))
  have hstar : numeral 16 2 b.toNat≠[42] := by
    intro hstar
    have hmem : (42 : UInt8)∈numeral 16 2 b.toNat := by
      rw [hstar]
      exact List.mem_cons_self
    obtain ⟨d,hd,heq⟩ := exists_of_mem_numeral (by decide) hmem
    obtain ⟨-,-,-,-,-,-,-,hne,-⟩ := digitChar_spec d hd
    exact hne heq.symm
  have hvalue : UInt8.ofInt (strtolHex w (numeral 16 2 b.toNat))=b := by
    rw [strtolHex_numeral hsmall Nat.zero_lt_two,← UInt8.toNat_inj,UInt8.ofInt,
      UInt8.toNat_ofNat']
    omega
  unfold parseChunk
  dsimp only
  rw [take_of_drop hdrop,getD_of_drop hdrop,if_neg (by omega),if_neg (fun hand => hc hand.1),
    if_neg hstar,hvalue]

/-- The byte is stored before the text that is still to be read. -/
theorem set_set_spec {buffer : List UInt8} {count stop : ℕ} (hcount : count < stop)
    (hstop : stop<buffer.length) (b : UInt8) :
    ((buffer.set stop 0).set count b).drop (stop+1)=buffer.drop (stop+1) ∧
      ((buffer.set stop 0).set count b).take (count+1)=buffer.take count++[b] := by
  constructor
  · rw [List.drop_set_of_lt (by omega),List.drop_set_of_lt (by omega)]
  · have hlt : count<((buffer.set stop 0).set count b).length := by
      rw [List.length_set,List.length_set]
      omega
    rw [List.take_succ_eq_append_getElem hlt,List.take_set_of_le le_rfl,
      List.take_set_of_le (by omega),List.getElem_set_self]

/-- Bytes in hexadecimal are read back, each stored over text that has been read. -/
theorem parseHexLoop_hexBytes {w maxlen : ℕ} (hw : 9≤w) {bytes : List UInt8} (hne : bytes≠[])
    {h : Hex} {start : ℕ} (hdrop : h.buffer.drop start=hexBytes bytes++[0])
    (hcount : h.count ≤ start) (hmax : h.count+bytes.length ≤ maxlen) :
    (parseHexLoop w maxlen h start).count=h.count+bytes.length ∧
      (parseHexLoop w maxlen h start).buffer.take (h.count+bytes.length)=
        h.buffer.take h.count++bytes ∧
      (parseHexLoop w maxlen h start).macType=h.macType := by
  have hpos : ∀ b : UInt8, 0<(numeral 16 2 b.toNat).length :=
    fun b => List.length_pos_iff.mpr (numeral_ne_nil Nat.zero_lt_two _)
  induction bytes generalizing h start with
  | nil => exact absurd rfl hne
  | cons b bytes ih =>
    rw [List.length_cons] at hmax
    cases bytes with
    | nil =>
      have hbytes : hexBytes [b]=numeral 16 2 b.toNat := List.intercalate_singleton
      rw [hbytes] at hdrop
      have hstop := chunkEnd_eq hdrop endsChunk_numeral (by decide)
      have hzero := getD_of_drop hdrop
      have hlt : start+(numeral 16 2 b.toNat).length<h.buffer.length := by
        have hlength := congrArg List.length hdrop
        rw [List.length_drop,List.length_append,List.length_singleton] at hlength
        omega
      rw [parseHexLoop,if_pos (by omega),hstop,if_pos hzero,
        parseChunk_byte hw hdrop (by decide)]
      have hcount' : h.count < start+(numeral 16 2 b.toNat).length := by
        have hb := hpos b
        omega
      exact ⟨rfl,(set_set_spec hcount' hlt b).2,rfl⟩
    | cons b' bytes =>
      have hbytes : hexBytes (b::b'::bytes)++[0]=
          numeral 16 2 b.toNat++58::(hexBytes (b'::bytes)++[0]) := by
        rw [hexBytes,List.map_cons,List.map_cons,List.intercalate_cons_cons]
        simp only [hexBytes,List.map_cons,List.append_assoc,List.cons_append,List.nil_append]
      rw [hbytes] at hdrop
      have hstop := chunkEnd_eq hdrop endsChunk_numeral (by decide)
      have hcolon := getD_of_drop hdrop
      have hlt : start+(numeral 16 2 b.toNat).length<h.buffer.length := by
        have hlength := congrArg List.length hdrop
        rw [List.length_drop,List.length_append,List.length_cons] at hlength
        omega
      have hcount' : h.count < start+(numeral 16 2 b.toNat).length := by
        have hb := hpos b
        omega
      obtain ⟨hrest,htake⟩ := set_set_spec hcount' hlt b
      rw [parseHexLoop,if_pos (by omega),hstop,if_neg (by rw [hcolon]; decide),
        parseChunk_byte hw hdrop (by decide)]
      have hmax' : h.count+1+(b'::bytes).length ≤ maxlen := by omega
      obtain ⟨hcount'',hbuffer,htype⟩ := @ih (List.cons_ne_nil _ _)
        { h with
          buffer := (h.buffer.set (start+(numeral 16 2 b.toNat).length) 0).set h.count b
          mask := 2*h.mask
          count := h.count+1 } _ (hrest.trans (drop_of_drop hdrop)) (Nat.succ_le_succ
            hcount'.le) hmax'
      have hsum : h.count+(b::b'::bytes).length=h.count+1+(b'::bytes).length := by
        rw [List.length_cons,List.length_cons]
        omega
      refine ⟨hcount''.trans hsum.symm,?_,htype⟩
      rw [hsum,hbuffer,htake,List.append_assoc]
      rfl


theorem parseHexLoop_end {w maxlen : ℕ} {h : Hex} {start : ℕ} (hdrop : h.buffer.drop start=[0]) :
    parseHexLoop w maxlen h start=h := by
  have hstop : chunkEnd h.buffer start=start :=
    @chunkEnd_eq h.buffer [] [] start 0 hdrop (fun c hc => absurd hc List.not_mem_nil) (by decide)
  have hzero : h.buffer.getD start 0=0 := @getD_of_drop h.buffer [] [] start 0 hdrop
  rw [parseHexLoop,hstop,if_pos hzero]
  split_ifs
  · rw [parseChunk,if_pos rfl]
  · rfl

/-- A client identifier is read back. -/
theorem parseHex_hexBytes {w maxlen : ℕ} (hw : 9≤w) {bytes : List UInt8} (hne : bytes≠[])
    (hmax : bytes.length ≤ maxlen) (wantsType : Bool) :
    (parseHex w maxlen (hexBytes bytes) wantsType).count=bytes.length ∧
      (parseHex w maxlen (hexBytes bytes) wantsType).buffer.take bytes.length=bytes ∧
      (parseHex w maxlen (hexBytes bytes) wantsType).macType=0 := by
  have hloop := @parseHexLoop_hexBytes w maxlen hw bytes hne
    ⟨hexBytes bytes++[0],0,wantsType,0,0⟩ 0 rfl (Nat.le_refl 0) (by rwa [Nat.zero_add])
  rw [Nat.zero_add,List.take_zero,List.nil_append] at hloop
  exact hloop

/-- The type before a hardware address. -/
theorem parseHex_type {w : ℕ} (hw : 32≤w) {n : ℕ} (hn : n<2^31) (rest : List UInt8) :
    ∃ h : Hex, parseHex w 16 (numeral 16 2 n++[45]++rest) true=
        parseHexLoop w 16 h ((numeral 16 2 n).length+1) ∧
      h.buffer.drop ((numeral 16 2 n).length+1)=rest++[0] ∧ h.count=0 ∧ h.macType=n := by
  have hdrop : (numeral 16 2 n++[45]++rest++[0]).drop 0=numeral 16 2 n++45::(rest++[0]) := by
    simp only [List.drop_zero,List.append_assoc,List.cons_append,List.nil_append]
  have hstop := chunkEnd_eq hdrop endsChunk_numeral (by decide)
  have hminus := getD_of_drop hdrop
  have hchunk := take_of_drop hdrop
  have hrest := drop_of_drop hdrop
  rw [Nat.zero_add] at hstop hminus hchunk hrest
  have hlength : (numeral 16 2 n).length≠0 := by
    have hpos := List.length_pos_iff.mpr (@numeral_ne_nil 16 2 Nat.zero_lt_two n)
    omega
  have hsmall : n<2^(w-1) := lt_of_lt_of_le hn (Nat.pow_le_pow_right (by decide) (by omega))
  refine ⟨parseChunk w ⟨numeral 16 2 n++[45]++rest++[0],0,true,0,0⟩ 0 (numeral 16 2 n).length,
    ?_,?_,?_,?_⟩
  · rw [parseHex,parseHexLoop,if_pos (Nat.succ_pos 15)]
    dsimp only
    rw [hstop,hminus,if_neg (by decide)]
  all_goals
    unfold parseChunk
    dsimp only
    rw [hchunk,hminus,if_neg hlength,if_pos ⟨rfl,rfl,rfl⟩]
  · dsimp only
    rw [List.drop_set_of_lt (Nat.lt_succ_self _)]
    exact hrest
  · dsimp only
    rw [strtolHex_numeral hsmall Nat.zero_lt_two,CInteger.toInt_of_lt hn]

/-- A hardware address and its type are read back. -/
theorem parseHex_hwField {w : ℕ} (hw : 32≤w) {hwaddr : List UInt8} {hwType : ℤ}
    (hlength : hwaddr.length≤16) (hge : 0≤hwType) (hlt : hwType<2^31)
    (hne : hwaddr≠[] → hwType≠0) :
    (parseHex w 16 (hwField hwaddr hwType) true).count=hwaddr.length ∧
      (parseHex w 16 (hwField hwaddr hwType) true).buffer.take hwaddr.length=hwaddr ∧
      (if (parseHex w 16 (hwField hwaddr hwType) true).macType=0 ∧
          (parseHex w 16 (hwField hwaddr hwType) true).count≠0 then 1
        else (parseHex w 16 (hwField hwaddr hwType) true).macType)=hwType := by
  have h9 : 9≤w := by omega
  by_cases hshown : hwType≠1 ∨ hwaddr.length=0
  · obtain ⟨n,rfl⟩ := Int.eq_ofNat_of_zero_le hge
    have hn : n<2^31 := by omega
    have htype : ((n : ℤ)%2^32).toNat=n := by omega
    obtain ⟨h,heq,hdrop,hcount,hmac⟩ := parseHex_type hw hn (hexBytes hwaddr)
    rw [hwField,if_pos hshown,htype,heq]
    by_cases hnil : hwaddr=[]
    · rw [hnil] at hdrop
      rw [parseHexLoop_end hdrop,hcount,hmac,hnil]
      refine ⟨rfl,rfl,if_neg (fun hand => hand.2 rfl)⟩
    · obtain ⟨hcount',hbuffer,hmac'⟩ := @parseHexLoop_hexBytes w 16 h9 hwaddr hnil h _ hdrop
        (by omega) (by omega)
      rw [hcount,Nat.zero_add] at hcount' hbuffer
      rw [hcount',hbuffer,hmac',hmac]
      refine ⟨rfl,rfl,if_neg (fun hand => hne hnil hand.1)⟩
  · obtain ⟨hether,hpos⟩ := not_or.mp hshown
    rw [not_not] at hether
    have hnil : hwaddr≠[] := fun hnil => hpos (by rw [hnil]; rfl)
    obtain ⟨hcount,hbuffer,hmac⟩ := parseHex_hexBytes h9 hnil hlength true
    rw [hwField,if_neg hshown,List.nil_append,hcount,hmac,hether]
    exact ⟨rfl,hbuffer,if_pos ⟨rfl,hpos⟩⟩


/-! ## The words of a line -/

/-- A word of a line: it is not empty and has no blanks. -/
def IsWord (word : List UInt8) : Prop := word≠[] ∧ ∀ c∈word, isSpace c=false

theorem isSpace_numeral {base width n : ℕ} (hlow : 1<base) (hbase : base≤16) :
    ∀ c∈numeral base width n, isSpace c=false := by
  intro c hc
  obtain ⟨d,hd,rfl⟩ := exists_of_mem_numeral hlow hc
  exact (digitChar_spec d (by omega)).1

theorem mem_intercalate {c s : UInt8} {words : List (List UInt8)}
    (h : c∈[s].intercalate words) : c=s ∨ ∃ word∈words, c∈word := by
  induction words with
  | nil => exact absurd h List.not_mem_nil
  | cons word words ih =>
    cases words with
    | nil =>
      rw [List.intercalate_singleton] at h
      exact Or.inr ⟨word,List.mem_cons_self,h⟩
    | cons word' words =>
      rw [List.intercalate_cons_cons,List.mem_append,List.mem_append,List.mem_singleton] at h
      rcases h with (h | h) | h
      · exact Or.inr ⟨word,List.mem_cons_self,h⟩
      · exact Or.inl h
      · refine (ih h).imp_right (fun ⟨w,hw,hc⟩ => ?_)
        exact ⟨w,List.mem_cons_of_mem _ hw,hc⟩

theorem isSpace_intercalate {s : UInt8} (hs : isSpace s=false) {words : List (List UInt8)}
    (hwords : ∀ word∈words, ∀ c∈word, isSpace c=false) :
    ∀ c∈[s].intercalate words, isSpace c=false := by
  intro c hc
  rcases mem_intercalate hc with rfl | ⟨word,hword,hc⟩
  · exact hs
  · exact hwords word hword c hc

theorem length_numeral_le {base width n k : ℕ} (hbase : 1<base) (hn : n<base^k)
    (hwidth : width≤k) : (numeral base width n).length≤k := by
  rw [numeral,List.length_map,numeralDigits,List.length_leftpad,List.length_reverse]
  exact max_le hwidth ((Nat.digits_length_le_iff hbase n).mpr hn)

theorem length_intercalate_le {c : UInt8} {words : List (List UInt8)} {k : ℕ}
    (hwords : ∀ word∈words, word.length≤k) :
    ([c].intercalate words).length≤words.length*(k+1)-1 := by
  induction words with
  | nil => exact Nat.zero_le _
  | cons word words ih =>
    have hword := hwords word List.mem_cons_self
    cases words with
    | nil =>
      rw [List.intercalate_singleton,List.length_singleton]
      omega
    | cons word' words =>
      have hrest := ih (fun w hw => hwords w (List.mem_cons_of_mem _ hw))
      have hpos : 0<(word'::words).length*(k+1) := Nat.mul_pos (Nat.succ_pos _) (Nat.succ_pos _)
      have hmul : (word::word'::words).length*(k+1)=(word'::words).length*(k+1)+(k+1) :=
        Nat.succ_mul _ _
      rw [List.intercalate_cons_cons,List.length_append,List.length_append,
        List.length_singleton,hmul]
      omega

theorem isWord_hexBytes {bytes : List UInt8} (hne : bytes≠[]) : IsWord (hexBytes bytes) := by
  refine ⟨?_,isSpace_intercalate (by decide) (fun word hword => ?_)⟩
  · cases bytes with
    | nil => exact absurd rfl hne
    | cons b bytes =>
      intro hnil
      have hb : numeral 16 2 b.toNat≠[] := numeral_ne_nil Nat.zero_lt_two _
      cases bytes with
      | nil => exact hb ((List.intercalate_singleton).symm.trans hnil)
      | cons b' bytes =>
        rw [hexBytes,List.map_cons,List.map_cons,List.intercalate_cons_cons] at hnil
        exact hb (List.append_eq_nil_iff.mp (List.append_eq_nil_iff.mp hnil).1).1
  · obtain ⟨b,-,rfl⟩ := List.mem_map.mp hword
    exact isSpace_numeral (by decide) le_rfl

theorem length_hexBytes_le (bytes : List UInt8) : (hexBytes bytes).length≤bytes.length*3-1 := by
  have hwords : ∀ word∈bytes.map (fun b => numeral 16 2 b.toNat), word.length≤2 := by
    intro word hword
    obtain ⟨b,-,rfl⟩ := List.mem_map.mp hword
    exact length_numeral_le (by decide) b.toNat_lt le_rfl
  have hle := @length_intercalate_le 58 _ _ hwords
  rwa [List.length_map] at hle

theorem isWord_hwField {hwaddr : List UInt8} (hwType : ℤ) : IsWord (hwField hwaddr hwType) := by
  have hhex : ∀ c∈hexBytes hwaddr, isSpace c=false := by
    by_cases hnil : hwaddr=[]
    · rw [hnil]
      exact fun c hc => absurd hc List.not_mem_nil
    · exact (isWord_hexBytes hnil).2
  unfold hwField
  split_ifs with hshown
  · refine ⟨fun hnil => ?_,fun c hc => ?_⟩
    · have hpair := (List.append_eq_nil_iff.mp hnil).1
      exact List.cons_ne_nil _ _ (List.append_eq_nil_iff.mp hpair).2
    · rcases List.mem_append.mp hc with hc | hc
      · rcases List.mem_append.mp hc with hc | hc
        · exact isSpace_numeral (by decide) le_rfl c hc
        · rw [List.mem_singleton.mp hc]
          rfl
      · exact hhex c hc
  · rw [List.nil_append]
    refine isWord_hexBytes (fun hnil => hshown (Or.inr ?_))
    rw [hnil]
    rfl

theorem length_hwField_le {hwaddr : List UInt8} (hlength : hwaddr.length≤16) (hwType : ℤ) :
    (hwField hwaddr hwType).length≤255 := by
  have hhex := length_hexBytes_le hwaddr
  have htype : (numeral 16 2 (hwType%2^32).toNat).length≤8 :=
    length_numeral_le (by decide) (by omega) (by decide)
  unfold hwField
  split_ifs
  · rw [List.length_append,List.length_append,List.length_singleton]
    omega
  · rw [List.nil_append]
    omega

theorem isWord_inetNtoa (addr : UInt32) : IsWord (inetNtoa addr) := by
  refine ⟨fun hnil => ?_,isSpace_intercalate (by decide) (fun word hword => ?_)⟩
  · rw [inetNtoa,addrBytes,List.map_cons,List.map_cons,List.intercalate_cons_cons] at hnil
    exact numeral_ne_nil Nat.zero_lt_one _
      (List.append_eq_nil_iff.mp (List.append_eq_nil_iff.mp hnil).1).1
  · obtain ⟨n,-,rfl⟩ := List.mem_map.mp hword
    exact isSpace_numeral (by decide) (by decide)

theorem length_inetNtoa_le (addr : UInt32) : (inetNtoa addr).length≤16 := by
  have haddr := addr.toNat_lt
  have hwords : ∀ word∈(addrBytes addr).map (numeral 10 1), word.length≤3 := by
    intro word hword
    obtain ⟨n,hn,rfl⟩ := List.mem_map.mp hword
    have hlt : n<10^3 := by
      simp only [addrBytes,List.mem_cons,List.not_mem_nil,or_false] at hn
      omega
    exact length_numeral_le (by decide) hlt (by decide)
  have hle := @length_intercalate_le 46 _ _ hwords
  rw [List.length_map] at hle
  exact hle.trans (show 4*(3+1)-1≤16 by decide)


/-! ## Names of one label -/

theorem trimName_of_not_mem {name : List UInt8} (hdot : (46 : UInt8)∉name) : trimName name=name := by
  refine if_neg (fun hlast => hdot ?_)
  exact List.mem_of_getLast? hlast

theorem length_le_of_checkNameLoop {name : List UInt8} (hdot : (46 : UInt8)∉name) {dotgap : ℕ}
    {nowhite : Bool} (hgap : dotgap≤63) (h : checkNameLoop dotgap nowhite name=true) :
    dotgap+name.length≤63 := by
  induction name generalizing dotgap nowhite with
  | nil => exact hgap
  | cons c name ih =>
    have hc : c≠46 := fun hc => hdot (hc ▸ List.mem_cons_self)
    have hrest : (46 : UInt8)∉name := fun hmem => hdot (List.mem_cons_of_mem _ hmem)
    rw [checkNameLoop,if_neg hc] at h
    split_ifs at h with hlong
    have hle := ih hrest (by omega) h
    rw [List.length_cons]
    omega

theorem isHostChar_of_legalLoop {name : List UInt8} (hdot : (46 : UInt8)∉name)
    (h : legalLoop name=true) : ∀ c∈name, isHostChar c=true := by
  induction name with
  | nil => exact fun c hc => absurd hc List.not_mem_nil
  | cons c name ih =>
    have hc : c≠46 := fun hc => hdot (hc ▸ List.mem_cons_self)
    have hrest : (46 : UInt8)∉name := fun hmem => hdot (List.mem_cons_of_mem _ hmem)
    rw [legalLoop,decide_eq_false hc] at h
    split_ifs at h with hhost
    intro d hd
    rcases List.mem_cons.mp hd with rfl | hd
    · exact hhost
    · exact ih hrest h d hd

theorem isSpace_of_isHostChar {c : UInt8} (h : isHostChar c=true) : isSpace c=false ∧ c≠42 := by
  have hge : 45≤c.toNat := by
    simp only [isHostChar,decide_eq_true_iff,UInt8.le_iff_toNat_le] at h
    rcases h with h | h | h | rfl | rfl
    · exact (show 45≤65 by decide).trans h.1
    · exact (show 45≤97 by decide).trans h.1
    · exact (show 45≤48 by decide).trans h.1
    · decide
    · decide
  refine ⟨?_,fun heq => ?_⟩
  · simp only [isSpace,decide_eq_false_iff_not,UInt8.le_iff_toNat_le]
    rintro (rfl | ⟨-,hle⟩)
    · exact absurd hge (by decide)
    · exact absurd (hge.trans hle) (by decide)
  · rw [heq] at hge
    exact absurd hge (by decide)

/-- A legal name of one label is a word of the file. -/
theorem isWord_of_legalHostname {name : List UInt8} (h : legalHostname name=true)
    (hdot : (46 : UInt8)∉name) : IsWord name ∧ name.length≤63 ∧ name≠[42] := by
  rw [legalHostname,Bool.and_eq_true,trimName_of_not_mem hdot] at h
  obtain ⟨hcheck,hlegal⟩ := h
  have hhost := isHostChar_of_legalLoop hdot hlegal
  unfold checkName at hcheck
  split_ifs at hcheck with hempty
  rw [trimName_of_not_mem hdot] at hcheck
  have hlength := length_le_of_checkNameLoop hdot (Nat.zero_le 63) hcheck
  rw [Nat.zero_add] at hlength
  refine ⟨⟨fun hnil => hempty (Or.inl hnil),
    fun c hc => (isSpace_of_isHostChar (hhost c hc)).1⟩,hlength,fun hstar => ?_⟩
  have hmem : (42 : UInt8)∈name := by
    rw [hstar]
    exact List.mem_cons_self
  exact (isSpace_of_isHostChar (hhost 42 hmem)).2 rfl

/-! ## Lines and leases are read back -/

/-- What the file keeps of a lease. -/
structure Stored where
  /-- `addr` -/
  addr : UInt32
  /-- `expires` -/
  expires : ℤ
  /-- `hwaddr` and `hwaddr_len` -/
  hwaddr : Option (List UInt8)
  /-- `hwaddr_type` -/
  hwType : ℤ
  /-- `hostname` -/
  hostname : Option (List UInt8)
  /-- `clid` and `clid_len` -/
  clid : List UInt8

/-- What the file keeps of a lease. -/
def stored (lease : Lease) : Stored :=
  ⟨lease.addr,lease.expires,lease.hwaddr,lease.hwType,lease.hostname,lease.clid⟩

/-- A lease as the server makes it: its times are of type `time_t`, its hardware address
has sixteen bytes at most and a type if it is not empty, its name is a legal label and
its client identifier fits in an option. -/
structure Writable (w : ℕ) (lease : Lease) : Prop where
  /-- The time is in the range of its type. -/
  expires : -2^(w-1)≤lease.expires ∧ lease.expires<2^(w-1)
  /-- The hardware address. -/
  hwaddr : ∃ hwaddr, lease.hwaddr=some hwaddr ∧ hwaddr.length≤16 ∧
    (hwaddr≠[] → lease.hwType≠0)
  /-- The hardware type. -/
  hwType : 0≤lease.hwType ∧ lease.hwType<2^31
  /-- The name. -/
  hostname : ∀ name, lease.hostname=some name →
    legalHostname name=true ∧ (46 : UInt8)∉name
  /-- The client identifier. -/
  clid : lease.clid.length≤255

/-- The fields of a lease in the file. -/
def lineOf (w : ℕ) (lease : Lease) : Line :=
  ⟨(lease.expires%2^w).toNat,hwField (lease.hwaddr.getD []) lease.hwType,inetNtoa lease.addr,
    lease.hostname.getD [42],if lease.clid≠[] then hexBytes lease.clid else [42]⟩

theorem scanLine_leaseLine {w : ℕ} {lease : Lease} (hlease : Writable w lease)
    {gap : List UInt8} (hgap : ∀ c∈gap, isSpace c=true) (rest : List UInt8) :
    scanLine w (gap++(leaseLine w lease++rest))=some (lineOf w lease,10::rest) := by
  obtain ⟨hwaddr,hhw,hhwLength,-⟩ := hlease.hwaddr
  have hblank : ∀ c∈[(32 : UInt8)], isSpace c=true :=
    List.forall_mem_singleton.mpr (by decide)
  have hnumber : (lease.expires%2^w).toNat<2^w := by
    have hpos : (0 : ℤ)<2^w := by positivity
    have hlt := Int.emod_lt_of_pos lease.expires hpos
    have hge := Int.emod_nonneg lease.expires hpos.ne'
    zify
    rw [Int.toNat_of_nonneg hge]
    exact hlt
  have hname : IsWord (lease.hostname.getD [42]) ∧ (lease.hostname.getD [42]).length≤255 := by
    cases hname : lease.hostname with
    | none =>
      exact ⟨⟨List.cons_ne_nil _ _,List.forall_mem_singleton.mpr (by decide)⟩,by decide⟩
    | some name =>
      obtain ⟨hlegal,hdot⟩ := hlease.hostname name hname
      obtain ⟨hword,hlength,-⟩ := isWord_of_legalHostname hlegal hdot
      exact ⟨hword,hlength.trans (by decide)⟩
  have hclid : IsWord (if lease.clid≠[] then hexBytes lease.clid else [42]) ∧
      (if lease.clid≠[] then hexBytes lease.clid else [42]).length≤764 := by
    have hmax := hlease.clid
    split_ifs with hne
    · have hlength := length_hexBytes_le lease.clid
      exact ⟨isWord_hexBytes hne,by omega⟩
    · exact ⟨⟨List.cons_ne_nil _ _,List.forall_mem_singleton.mpr (by decide)⟩,by decide⟩
  have hspace : ∀ text : List UInt8, ∀ c∈((32 : UInt8)::text).head?, isSpace c=true := by
    intro text c hc
    rw [List.head?_cons,Option.mem_some_iff] at hc
    rw [← hc]
    rfl
  have hnewline : ∀ c∈((10 : UInt8)::rest).head?, isSpace c=true := by
    intro c hc
    rw [List.head?_cons,Option.mem_some_iff] at hc
    rw [← hc]
    rfl
  have hhwWord := @isWord_hwField hwaddr lease.hwType
  have haddrWord := isWord_inetNtoa lease.addr
  have hhwLength' := length_hwField_le hhwLength lease.hwType
  unfold scanLine leaseLine lineOf
  rw [hhw,Option.getD_some]
  generalize (if lease.clid≠[] then hexBytes lease.clid else [42])=clid at hclid ⊢
  generalize lease.hostname.getD [42]=name at hname ⊢
  have h1 := scanUnsigned_numeral hnumber hgap
    (hspace (hwField hwaddr lease.hwType++32::(inetNtoa lease.addr++32::(name++32::(clid++10::rest)))))
  have h2 := scanWord_append hblank hhwWord.1 hhwWord.2 hhwLength'
    (hspace (inetNtoa lease.addr++32::(name++32::(clid++10::rest))))
  have h3 := scanWord_append hblank haddrWord.1 haddrWord.2 (length_inetNtoa_le lease.addr)
    (hspace (name++32::(clid++10::rest)))
  have h4 := scanWord_append hblank hname.1.1 hname.1.2 hname.2 (hspace (clid++10::rest))
  have h5 := scanWord_append hblank hclid.1.1 hclid.1.2 hclid.2 hnewline
  simp only [List.append_assoc,List.cons_append,List.nil_append] at h1 h2 h3 h4 h5 ⊢
  simp only [Option.bind_eq_bind,h1,h2,h3,h4,h5,Option.bind_some]


theorem toTime_emod {w : ℕ} (hw : 0<w) {n : ℤ} (hge : -2^(w-1)≤n) (hlt : n<2^(w-1)) :
    toTime w (n%2^w).toNat=n := by
  have hpow : (2 : ℤ)^w=2*2^(w-1) := by
    rw [← pow_succ',Nat.sub_add_cancel hw]
  have hpos : (0 : ℤ)<2^(w-1) := by positivity
  have hnonneg : 0≤n%2^w := Int.emod_nonneg n (by omega)
  have hcast : ((2^w : ℕ) : ℤ)=2*2^(w-1) := by
    rw [Nat.cast_pow,Nat.cast_ofNat,hpow]
  rw [toTime,BitVec.toInt_ofInt,Int.toNat_of_nonneg hnonneg]
  have hemod : n%2^w=n%((2^w : ℕ) : ℤ) := by rw [hcast,hpow]
  rw [hemod,Int.emod_bmod]
  refine Int.bmod_eq_of_le ?_ ?_
  · rw [hcast]
    omega
  · rw [hcast]
    omega

/-- A change of the newest lease leaves the others alone. -/
theorem update_newest {leases : List Lease} {new : Lease} {left next : ℕ}
    (hident : ∀ l∈leases, l.ident≠new.ident) (change : Lease → Lease) :
    Db.update ⟨new::leases,left,next⟩ new.ident change=⟨change new::leases,left,next⟩ := by
  have hmap : leases.map (fun lease => if lease.ident=new.ident then change lease else lease)=
      leases := by
    conv_rhs => rw [← List.map_id leases]
    refine List.map_congr_left (fun l hl => ?_)
    rw [if_neg (hident l hl)]
    rfl
  unfold Db.update
  rw [List.map_cons,hmap,if_pos rfl]

/-- The newest lease gets a name that no other lease holds. -/
theorem setHostname_newest {options : Options} {leases : List Lease} {new : Lease}
    {left next : ℕ} {name : List UInt8} (hident : ∀ l∈leases, l.ident≠new.ident)
    (hhostname : new.hostname=none) (hfqdn : new.fqdn=none)
    (hnames : ∀ l∈leases,
      Db.holdsName options name (Db.newFqdn options new.addr name) l=false) (auth : Bool) :
    Db.setHostname ⟨new::leases,left,next⟩ options new.ident (some name) auth=
      ⟨{ new with
          hostname := some name
          fqdn := Db.newFqdn options new.addr name
          authName := auth }::leases,left,next⟩ := by
  have hself : Db.holdsName options name (Db.newFqdn options new.addr name) new=false := by
    unfold Db.holdsName
    rw [hhostname,hfqdn]
    split_ifs
    · cases Db.newFqdn options new.addr name with
      | none => rfl
      | some _ => rfl
    · rfl
  have hnone : (new::leases).find?
      (Db.holdsName options name (Db.newFqdn options new.addr name))=none := by
    rw [List.find?_eq_none]
    intro l hl
    rcases List.mem_cons.mp hl with rfl | hl
    · rw [hself]
      exact Bool.false_ne_true
    · rw [hnames l hl]
      exact Bool.false_ne_true
  have hfind : (new::leases).find? (fun lease => decide (lease.ident=new.ident))=some new :=
    List.find?_cons_of_pos (decide_eq_true rfl)
  unfold Db.setHostname
  dsimp only
  rw [hfind]
  dsimp only
  rw [hhostname]
  dsimp only
  unfold Db.setName
  dsimp only
  rw [hnone]
  dsimp only
  unfold Db.giveName
  rw [update_newest hident]

/-- A line is turned into the lease it was written for. -/
theorem readLease_lineOf {w : ℕ} (hw : 32≤w) {lease : Lease} (hlease : Writable w lease)
    {options : Options} {db : Db} (hleft : db.leasesLeft≠0)
    (hident : ∀ l∈db.leases, l.ident<db.nextIdent)
    (hnames : ∀ name, lease.hostname=some name → ∀ l∈db.leases,
      Db.holdsName options name (Db.newFqdn options lease.addr name) l=false) :
    ∃ new, readLease w options db (lineOf w lease)=
        some ⟨new::db.leases,db.leasesLeft-1,db.nextIdent+1⟩ ∧
      stored new=stored lease ∧ new.ident=db.nextIdent ∧
      new.fqdn=lease.hostname.bind (Db.newFqdn options lease.addr) := by
  obtain ⟨hwaddr,hhw,hhwLength,hhwType⟩ := hlease.hwaddr
  obtain ⟨hcount,hbuffer,htype⟩ :=
    parseHex_hwField hw hhwLength hlease.hwType.1 hlease.hwType.2 hhwType
  have hold : ∀ l∈db.leases, l.ident≠db.nextIdent := fun l hl => (hident l hl).ne
  have hclid : (if (lineOf w lease).clid=[42] then (⟨(lineOf w lease).clid,0,false,0,0⟩ : Hex)
      else parseHex w 255 (lineOf w lease).clid false).buffer.take
        (if (lineOf w lease).clid=[42] then (⟨(lineOf w lease).clid,0,false,0,0⟩ : Hex)
          else parseHex w 255 (lineOf w lease).clid false).count=lease.clid := by
    unfold lineOf
    dsimp only
    by_cases hnil : lease.clid=[]
    · rw [if_neg (not_not.mpr hnil),if_pos rfl,hnil]
      rfl
    · have hstar : hexBytes lease.clid≠[42] := by
        intro hstar
        have hmem : (42 : UInt8)∈hexBytes lease.clid := by
          rw [hstar]
          exact List.mem_cons_self
        rcases mem_intercalate hmem with heq | ⟨word,hword,hmem⟩
        · exact absurd heq (by decide)
        · obtain ⟨b,-,rfl⟩ := List.mem_map.mp hword
          obtain ⟨d,hd,heq⟩ := exists_of_mem_numeral (by decide) hmem
          obtain ⟨-,-,-,-,-,-,-,hne,-⟩ := digitChar_spec d hd
          exact hne heq.symm
      obtain ⟨hclidCount,hclidBuffer,-⟩ :=
        parseHex_hexBytes (show 9≤w by omega) hnil hlease.clid false
      rw [if_pos hnil,if_neg hstar,hclidCount,hclidBuffer]
  have htime := toTime_emod (by omega) hlease.expires.1 hlease.expires.2
  unfold readLease
  dsimp only
  rw [hclid]
  unfold lineOf
  dsimp only
  rw [hhw,Option.getD_some,hcount,hbuffer,← hcount,htype,inetAddr_inetNtoa,Db.allocate,
    if_neg hleft,Option.map_some,htime]
  have hupdate : Db.update ⟨db.newLease lease.addr::db.leases,db.leasesLeft-1,db.nextIdent+1⟩
      db.nextIdent (fun l =>
        { l with expires := lease.expires }.setHwaddr hwaddr lease.clid lease.hwType)=
      ⟨{ db.newLease lease.addr with expires := lease.expires }.setHwaddr hwaddr lease.clid
        lease.hwType::db.leases,db.leasesLeft-1,db.nextIdent+1⟩ := update_newest hold _
  have hsame : (if lease.clid=[] then [] else lease.clid)=lease.clid := by
    split_ifs with hnil
    · exact hnil.symm
    · rfl
  rw [hupdate]
  cases hname : lease.hostname with
  | none =>
    rw [Option.getD_none,if_pos rfl]
    refine ⟨_,rfl,?_,rfl,rfl⟩
    unfold stored Lease.setHwaddr Db.newLease
    dsimp only
    rw [hsame,hname,hhw]
  | some name =>
    obtain ⟨hlegal,hdot⟩ := hlease.hostname name hname
    obtain ⟨-,-,hstar⟩ := isWord_of_legalHostname hlegal hdot
    rw [Option.getD_some,if_neg hstar]
    have hset := @setHostname_newest options db.leases
      ({ db.newLease lease.addr with expires := lease.expires }.setHwaddr hwaddr lease.clid
        lease.hwType) (db.leasesLeft-1) (db.nextIdent+1) name hold rfl rfl (hnames name hname)
      false
    refine ⟨_,congrArg some hset,?_,rfl,rfl⟩
    unfold stored Lease.setHwaddr Db.newLease
    dsimp only
    rw [hsame,hname,hhw]


/-! ## The file is read back -/

theorem toLower_eq_dot {c : UInt8} (h : toLower c=46) : c=46 := by
  unfold toLower at h
  split_ifs at h with hupper
  · have hvalue := congrArg UInt8.toNat h
    rw [UInt8.toNat_add,UInt8.le_iff_toNat_le,UInt8.le_iff_toNat_le] at *
    have h65 : (65 : UInt8).toNat=65 := rfl
    have h90 : (90 : UInt8).toNat=90 := rfl
    have h32 : (32 : UInt8).toNat=32 := rfl
    have h46 : (46 : UInt8).toNat=46 := rfl
    omega
  · exact h

/-- Names of one label that differ do so with their domains, too. -/
theorem hostnameIsequal_of_label {a b s t : List UInt8} (ha : (46 : UInt8)∉a)
    (hb : (46 : UInt8)∉b) (h : hostnameIsequal a b=false) :
    hostnameIsequal (a++46::s) (b++46::t)=false := by
  have hlower : ∀ c : List UInt8, (46 : UInt8)∉c → (46 : UInt8)∉c.map toLower := by
    intro c hc hmem
    obtain ⟨d,hd,heq⟩ := List.mem_map.mp hmem
    exact hc (toLower_eq_dot heq ▸ hd)
  unfold hostnameIsequal at h ⊢
  rw [decide_eq_false_iff_not] at h ⊢
  intro heq
  rw [List.map_append,List.map_append,List.map_cons,List.map_cons] at heq
  have hlabel : ∀ c t : List UInt8, (46 : UInt8)∉c →
      (c++46::t).takeWhile (fun d => decide (d≠46))=c := by
    intro c t hc
    have hnot : ∀ d∈c, decide (d≠46)=true := by
      intro d hd
      rw [decide_eq_true_iff]
      exact fun heq => hc (heq ▸ hd)
    rw [List.takeWhile_append_of_pos hnot,List.takeWhile_cons_of_neg (by decide),
      List.append_nil]
  have htake := congrArg (List.takeWhile (fun d => decide (d≠46))) heq
  rw [show toLower 46=46 from rfl,hlabel _ _ (hlower a ha),hlabel _ _ (hlower b hb)] at htake
  exact h htake

/-- A name is not held by a lease with another name. -/
theorem holdsName_of_label {options : Options} {name : List UInt8} {l : Lease} {addr : UInt32}
    (hdot : (46 : UInt8)∉name)
    (hother : ∀ n, l.hostname=some n → hostnameIsequal n name=false ∧ (46 : UInt8)∉n)
    (hfqdn : l.fqdn=l.hostname.bind (Db.newFqdn options l.addr)) :
    Db.holdsName options name (Db.newFqdn options addr name) l=false := by
  unfold Db.holdsName
  rw [hfqdn]
  cases hname : l.hostname with
  | none =>
    dsimp only [Option.bind_none]
    split_ifs
    · cases Db.newFqdn options addr name with
      | none => rfl
      | some _ => rfl
    · rfl
  | some n =>
    obtain ⟨hne,hn⟩ := hother n hname
    rw [Option.bind_some]
    split_ifs
    · unfold Db.newFqdn
      cases options.getDomain addr with
      | none => rfl
      | some s =>
        cases options.getDomain l.addr with
        | none => rfl
        | some t => exact hostnameIsequal_of_label hn hdot hne
    · exact hne

/-- The hostnames of two leases differ. -/
def NamesDiffer (a b : Lease) : Prop :=
  ∀ n m, a.hostname=some n → b.hostname=some m → hostnameIsequal n m=false

theorem leaseInitLoop_of_none {w : ℕ} {options : Options} {db : Db} {text : List UInt8}
    (h : scanLine w text=none) : leaseInitLoop w options db text=some db := by
  rw [leaseInitLoop]
  split
  · rfl
  · rename_i hsome
    rw [h] at hsome
    cases hsome

theorem leaseInitLoop_of_some {w : ℕ} {options : Options} {db : Db} {text rest : List UInt8}
    {line : Line} (h : scanLine w text=some (line,rest)) :
    leaseInitLoop w options db text=
      (readLease w options db line).bind fun db => leaseInitLoop w options db rest := by
  rw [leaseInitLoop]
  split
  · rename_i hnone
    rw [h] at hnone
    cases hnone
  · rename_i hsome
    rw [h,Option.some.injEq,Prod.mk.injEq] at hsome
    rw [hsome.1,hsome.2]

/-- Nothing is read from blanks. -/
theorem scanLine_gap {w : ℕ} {gap : List UInt8} (hgap : ∀ c∈gap, isSpace c=true) :
    scanLine w gap=none := by
  have hdrop : gap.dropWhile isSpace=[] := by
    have happend := @dropWhile_gap gap [] hgap (fun c hc => by cases hc)
    rwa [List.append_nil] at happend
  have hnumber : scanUnsigned w gap=none := by
    unfold scanUnsigned
    rw [hdrop]
    rfl
  unfold scanLine
  rw [hnumber]
  rfl

/-- The lines of a file are turned into leases one after the other. -/
theorem leaseInitLoop_lines {w : ℕ} (hw : 32≤w) {options : Options} {leases : List Lease}
    {db : Db} {gap : List UInt8} (hgap : ∀ c∈gap, isSpace c=true)
    (hleases : ∀ lease∈leases, Writable w lease) (hleft : leases.length≤db.leasesLeft)
    (hident : ∀ l∈db.leases, l.ident<db.nextIdent) (hnames : leases.Pairwise NamesDiffer)
    (hdb : ∀ l∈db.leases, (∀ lease∈leases, NamesDiffer l lease) ∧
      (∀ n, l.hostname=some n → (46 : UInt8)∉n) ∧
      l.fqdn=l.hostname.bind (Db.newFqdn options l.addr)) :
    ∃ db', leaseInitLoop w options db (gap++(leases.map (leaseLine w)).flatten)=some db' ∧
      db'.leases.map stored=(leases.map stored).reverse++db.leases.map stored := by
  induction leases generalizing db gap with
  | nil =>
    refine ⟨db,?_,rfl⟩
    rw [List.map_nil,List.flatten_nil,List.append_nil]
    exact leaseInitLoop_of_none (scanLine_gap hgap)
  | cons lease leases ih =>
    have hlease := hleases lease List.mem_cons_self
    rw [List.length_cons] at hleft
    obtain ⟨hdiffer,hnames⟩ := List.pairwise_cons.mp hnames
    have hfree : ∀ name, lease.hostname=some name → ∀ l∈db.leases,
        Db.holdsName options name (Db.newFqdn options lease.addr name) l=false := by
      intro name hname l hl
      obtain ⟨hother,hlabel,hfqdn⟩ := hdb l hl
      refine holdsName_of_label (hlease.hostname name hname).2 (fun n hn => ?_) hfqdn
      exact ⟨hother lease List.mem_cons_self n name hn hname,hlabel n hn⟩
    obtain ⟨new,hread,hstored,hnew,hfqdn⟩ :=
      readLease_lineOf hw hlease (show db.leasesLeft≠0 by omega) hident hfree
    have hhostname : new.hostname=lease.hostname := congrArg Stored.hostname hstored
    have haddr : new.addr=lease.addr := congrArg Stored.addr hstored
    have hscan := scanLine_leaseLine hlease hgap (leases.map (leaseLine w)).flatten
    obtain ⟨db',hloop,hresult⟩ := @ih
      ⟨new::db.leases,db.leasesLeft-1,db.nextIdent+1⟩ [10]
      (List.forall_mem_singleton.mpr (by decide))
      (fun l hl => hleases l (List.mem_cons_of_mem _ hl)) (show _≤db.leasesLeft-1 by omega)
      (by
        intro l hl
        rcases List.mem_cons.mp hl with rfl | hl
        · exact hnew ▸ Nat.lt_succ_self _
        · exact (hident l hl).trans (Nat.lt_succ_self _))
      hnames
      (by
        intro l hl
        rcases List.mem_cons.mp hl with rfl | hl
        · refine ⟨fun other hmem n m hn hm => ?_,fun n hn => ?_,?_⟩
          · exact hdiffer other hmem n m (hhostname.symm.trans hn) hm
          · exact (hlease.hostname n (hhostname.symm.trans hn)).2
          · rw [hfqdn,hhostname,haddr]
        · obtain ⟨hother,hrest⟩ := hdb l hl
          exact ⟨fun other hmem => hother other (List.mem_cons_of_mem _ hmem),hrest⟩)
    refine ⟨db',?_,?_⟩
    · rw [List.map_cons,List.flatten_cons,leaseInitLoop_of_some hscan,hread,Option.bind_some]
      exact hloop
    · rw [hresult,List.map_cons,List.map_cons,List.reverse_cons,List.append_assoc,hstored]
      rfl

/-- The leases come back from the file in the opposite order. -/
def ReadsBack (w : ℕ) (options : Options) (db : Db) (now : ℤ) : Prop :=
  ∃ db', leaseInit w options (leaseUpdateFile w db) now=some db' ∧
    db'.leases.map stored=(db.leases.map stored).reverse

/-- A server without domains. -/
def plainOptions : Options := ⟨150,false,fun _ => none⟩

/-- A lease without an end for an address, with a name. -/
def namedLease (name : List UInt8) : Lease :=
  ⟨0,0xc0a80002,0,some [],1,[],some name,none,false,0⟩

end AndroidPlatform.LeaseFile
