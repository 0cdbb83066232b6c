import AndroidPlatform.DnsSkip

/-!
# The accesses of the name reader

`extract_name` is run with a record of the positions of the packet that it reads and of the
bytes of the name buffer that it writes. Ordinary labels and pointers are tested before they are
read; the count of a bit-string label is not, and its last byte of bits is not counted in the
test. After an odd number of digits the reader stands on that byte, and after a pointer it looks
for `extrabytes` at the wrong end.
-/

namespace AndroidPlatform.DnsNameReading

open DnsPacket DnsSkip

/-! ## The run -/

/-- What a run reads and writes, and its result. -/
structure Reading where
  /-- The positions in the packet that are read. -/
  reads : List ℕ
  /-- A bound of the offsets in the name buffer that are written. -/
  written : ℕ
  /-- The name and where it ends, if it is accepted. -/
  result : Option (List UInt8×ℕ)

/-- A run behind these accesses. -/
def Reading.after (reads : List ℕ) (written : ℕ) (rest : Reading) : Reading :=
  ⟨reads++rest.reads,max written rest.written,rest.result⟩

theorem mem_after {reads : List ℕ} {written r : ℕ} {rest : Reading} :
    r∈(rest.after reads written).reads ↔ r∈reads ∨ r∈rest.reads := List.mem_append

/-- The number of bits of a bit-string label, from the byte behind its type. -/
def bitCount (byte : UInt8) : ℕ := if byte=0 then 256 else byte.toNat

/-- The number of hexadecimal digits for so many bits. -/
def bitDigits (count : ℕ) : ℕ := (count-1)/4+1

/-- The loop of `extract_name` in extract mode, with its accesses. -/
def readLoop (packet : Packet) (extrabytes : ℕ) (p : ℕ) (p1 : Option ℕ) (hops : ℕ)
    (cp : List UInt8) : Reading :=
  if hlen : checkLen packet p 1=true then
    let l := (packet.bytes p).toNat
    if l=0 then
      if checkLen packet (p+1) extrabytes then
        ⟨[p],cp.dropLast.length+1,some (cp.dropLast,p1.getD (p+1))⟩
      else ⟨[p],0,none⟩
    else if 192≤l then
      if checkLen packet (p+1) 1 then
        if 255 < hops+1 then ⟨[p,p+1],0,none⟩
        else
          (readLoop packet extrabytes (256*(l-192)+(packet.bytes (p+1)).toNat)
            (some (p1.getD (p+2))) (hops+1) cp).after [p,p+1] 0
      else ⟨[p],0,none⟩
    else if 128≤l then ⟨[p],0,none⟩
    else if 64≤l then
      if l≠65 then ⟨[p],0,none⟩
      else
        let count := bitCount (packet.bytes (p+1))
        let digs := bitDigits count
        if maxDname≤cp.length+digs+9 then ⟨[p,p+1],0,none⟩
        else if checkLen packet (p+2) ((count-1)/8) then
          let text := bitStringText packet (p+2) count
          (readLoop packet extrabytes (p+2+digs/2) p1 hops (cp++text)).after
            (p::(p+1)::(List.range digs).map fun j => p+2+j/2) (cp.length+text.length)
        else ⟨[p,p+1],0,none⟩
    else
      if maxDname≤cp.length+l+1 then ⟨[p],0,none⟩
      else if checkLen packet (p+1) l then
        let label := (List.range l).map fun j => packet.bytes (p+1+j)
        if label.all labelChar then
          (readLoop packet extrabytes (p+1+l) p1 hops (cp++label++[46])).after
            (p::(List.range l).map fun j => p+1+j) (cp.length+l+1)
        else
          -- the first character that is not allowed is read and not written
          let n := (label.takeWhile labelChar).length
          ⟨p::(List.range (n+1)).map (fun j => p+1+j),cp.length+n,none⟩
      else ⟨[p],0,none⟩
  else ⟨[],0,none⟩
termination_by (256-hops)*(packet.len+1)+(packet.len-p)
decreasing_by
  · have hhops : 256-hops=256-(hops+1)+1 := by omega
    have hmul := Nat.add_one_mul (256-(hops+1)) (packet.len+1)
    rw [← hhops] at hmul
    omega
  · have hlt := of_decide_eq_true hlen
    omega
  · have hlt := of_decide_eq_true hlen
    omega

/-- `extract_name` in extract mode with its accesses; the first is the zero byte in the buffer. -/
def readName (packet : Packet) (p extrabytes : ℕ) : Reading :=
  (readLoop packet extrabytes p none 0 []).after [] 1

variable {packet : Packet} {extrabytes : ℕ}

/-- The record does not change the result. -/
theorem readLoop_result (p : ℕ) (p1 : Option ℕ) (hops : ℕ) (cp : List UInt8) :
    (readLoop packet extrabytes p p1 hops cp).result=
      extractLoop packet extrabytes p p1 hops cp := by
  fun_induction readLoop packet extrabytes p p1 hops cp with
  | case1 p p1 hops cp hlen l hl hroom =>
    rw [extractLoop,dif_pos hlen]
    exact ((if_pos hl).trans (if_pos hroom)).symm
  | case2 p p1 hops cp hlen l hl hroom =>
    rw [extractLoop,dif_pos hlen]
    exact ((if_pos hl).trans (if_neg hroom)).symm
  | case3 p p1 hops cp hlen l hl hpointer hsecond hhops =>
    rw [extractLoop,dif_pos hlen]
    exact ((if_neg hl).trans ((if_pos hpointer).trans ((if_pos hsecond).trans (if_pos hhops)))).symm
  | case4 p p1 hops cp hlen l hl hpointer hsecond hhops ih =>
    rw [extractLoop,dif_pos hlen]
    exact ih.trans ((if_neg hl).trans
      ((if_pos hpointer).trans ((if_pos hsecond).trans (if_neg hhops)))).symm
  | case5 p p1 hops cp hlen l hl hpointer hsecond =>
    rw [extractLoop,dif_pos hlen]
    exact ((if_neg hl).trans ((if_pos hpointer).trans (if_neg hsecond))).symm
  | case6 p p1 hops cp hlen l hl hpointer hreserved =>
    rw [extractLoop,dif_pos hlen]
    exact ((if_neg hl).trans ((if_neg hpointer).trans (if_pos hreserved))).symm
  | case7 p p1 hops cp hlen l hl hpointer hreserved hextended hother =>
    rw [extractLoop,dif_pos hlen]
    exact ((if_neg hl).trans ((if_neg hpointer).trans ((if_neg hreserved).trans
      ((if_pos hextended).trans (if_pos hother))))).symm
  | case8 p p1 hops cp hlen l hl hpointer hreserved hextended hother count digs hlong =>
    rw [extractLoop,dif_pos hlen]
    exact ((if_neg hl).trans ((if_neg hpointer).trans ((if_neg hreserved).trans
      ((if_pos hextended).trans ((if_neg hother).trans (if_pos hlong)))))).symm
  | case9 p p1 hops cp hlen l hl hpointer hreserved hextended hother count digs hlong hfits text ih =>
    rw [extractLoop,dif_pos hlen]
    exact ih.trans ((if_neg hl).trans ((if_neg hpointer).trans ((if_neg hreserved).trans
      ((if_pos hextended).trans ((if_neg hother).trans
        ((if_neg hlong).trans (if_pos hfits))))))).symm
  | case10 p p1 hops cp hlen l hl hpointer hreserved hextended hother count digs hlong hfits =>
    rw [extractLoop,dif_pos hlen]
    exact ((if_neg hl).trans ((if_neg hpointer).trans ((if_neg hreserved).trans
      ((if_pos hextended).trans ((if_neg hother).trans
        ((if_neg hlong).trans (if_neg hfits))))))).symm
  | case11 p p1 hops cp hlen l hl hpointer hreserved hextended hlong =>
    rw [extractLoop,dif_pos hlen]
    exact ((if_neg hl).trans ((if_neg hpointer).trans ((if_neg hreserved).trans
      ((if_neg hextended).trans (if_pos hlong))))).symm
  | case12 p p1 hops cp hlen l hl hpointer hreserved hextended hlong hfits label hchars ih =>
    rw [extractLoop,dif_pos hlen]
    exact ih.trans ((if_neg hl).trans ((if_neg hpointer).trans ((if_neg hreserved).trans
      ((if_neg hextended).trans ((if_neg hlong).trans
        ((if_pos hfits).trans (if_pos hchars))))))).symm
  | case13 p p1 hops cp hlen l hl hpointer hreserved hextended hlong hfits label hchars n =>
    rw [extractLoop,dif_pos hlen]
    exact ((if_neg hl).trans ((if_neg hpointer).trans ((if_neg hreserved).trans
      ((if_neg hextended).trans ((if_neg hlong).trans
        ((if_pos hfits).trans (if_neg hchars))))))).symm
  | case14 p p1 hops cp hlen l hl hpointer hreserved hextended hlong hfits =>
    rw [extractLoop,dif_pos hlen]
    exact ((if_neg hl).trans ((if_neg hpointer).trans ((if_neg hreserved).trans
      ((if_neg hextended).trans ((if_neg hlong).trans (if_neg hfits)))))).symm
  | case15 p p1 hops cp hlen =>
    rw [extractLoop,dif_neg hlen]

/-! ## Places of the loop -/

/-- The state at the head of the loop. -/
structure Place where
  p : ℕ
  p1 : Option ℕ
  hops : ℕ
  cp : List UInt8

/-- The run from a place. -/
def Place.run (packet : Packet) (extrabytes : ℕ) (s : Place) : Reading :=
  readLoop packet extrabytes s.p s.p1 s.hops s.cp

/-- One label is read, with these accesses. -/
inductive Advance (packet : Packet) : Place → Place → List ℕ → ℕ → Prop
  /-- An ordinary label. -/
  | label {s : Place} (hp : s.p<packet.len) (hpos : 0 < (packet.bytes s.p).toNat)
    (hl : (packet.bytes s.p).toNat<64)
    (hroom : s.cp.length+(packet.bytes s.p).toNat+1 < maxDname)
    (hfits : s.p+1+(packet.bytes s.p).toNat≤packet.len)
    (hchars : ((List.range (packet.bytes s.p).toNat).map
      fun j => packet.bytes (s.p+1+j)).all labelChar=true) :
    Advance packet s
      ⟨s.p+1+(packet.bytes s.p).toNat,s.p1,s.hops,
        s.cp++(List.range (packet.bytes s.p).toNat).map (fun j => packet.bytes (s.p+1+j))++[46]⟩
      (s.p::(List.range (packet.bytes s.p).toNat).map fun j => s.p+1+j)
      (s.cp.length+(packet.bytes s.p).toNat+1)
  /-- A pointer. -/
  | pointer {s : Place} (hp : s.p+2≤packet.len) (hl : 192≤(packet.bytes s.p).toNat)
    (hhops : s.hops<255) :
    Advance packet s
      ⟨256*((packet.bytes s.p).toNat-192)+(packet.bytes (s.p+1)).toNat,
        some (s.p1.getD (s.p+2)),s.hops+1,s.cp⟩
      [s.p,s.p+1] 0
  /-- A bit-string label. -/
  | bits {s : Place} (hp : s.p<packet.len) (hl : (packet.bytes s.p).toNat=65)
    (hroom : s.cp.length+bitDigits (bitCount (packet.bytes (s.p+1)))+9 < maxDname)
    (hfits : s.p+2+(bitCount (packet.bytes (s.p+1))-1)/8≤packet.len) :
    Advance packet s
      ⟨s.p+2+bitDigits (bitCount (packet.bytes (s.p+1)))/2,s.p1,s.hops,
        s.cp++bitStringText packet (s.p+2) (bitCount (packet.bytes (s.p+1)))⟩
      (s.p::(s.p+1)::(List.range (bitDigits (bitCount (packet.bytes (s.p+1))))).map
        fun j => s.p+2+j/2)
      (s.cp.length+(bitStringText packet (s.p+2) (bitCount (packet.bytes (s.p+1)))).length)

/-- The run ends, with an accepted name or without one. -/
inductive Stop (packet : Packet) (extrabytes : ℕ) : Place → Reading → Prop
  | accepted {s : Place} (hp : s.p<packet.len) (hl : (packet.bytes s.p).toNat=0)
    (hroom : s.p+1+extrabytes≤packet.len) :
    Stop packet extrabytes s
      ⟨[s.p],s.cp.dropLast.length+1,some (s.cp.dropLast,s.p1.getD (s.p+1))⟩
  | refused {s : Place} {reads : List ℕ} {written : ℕ}
    (hreads : ∀ r∈reads, r<packet.len ∨
      s.p<packet.len ∧ (packet.bytes s.p).toNat=65 ∧ r=s.p+1)
    (hbits : s.p<packet.len → (packet.bytes s.p).toNat=65 → s.p+1∈reads)
    (hwritten : written ≤ maxDname) : Stop packet extrabytes s ⟨reads,written,none⟩

theorem refused_first {s : Place} (hp : s.p<packet.len) (hl : (packet.bytes s.p).toNat≠65) :
    Stop packet extrabytes s ⟨[s.p],0,none⟩ :=
  .refused (fun r hr => Or.inl (by rw [List.mem_singleton.mp hr]; exact hp))
    (fun _ hbits => absurd hbits hl) (Nat.zero_le _)

theorem refused_pair {s : Place} (hp : s.p<packet.len)
    (h : s.p+1<packet.len ∨ (packet.bytes s.p).toNat=65) :
    Stop packet extrabytes s ⟨[s.p,s.p+1],0,none⟩ := by
  refine .refused (fun r hr => ?_) (fun _ _ => List.mem_cons_of_mem _ List.mem_cons_self)
    (Nat.zero_le _)
  rcases List.mem_cons.mp hr with rfl | hr
  · exact Or.inl hp
  · rw [List.mem_singleton.mp hr]
    exact h.imp id fun hbits => ⟨hp,hbits,rfl⟩

/-- The characters before the first one that is not allowed. -/
theorem length_takeWhile_lt {label : List UInt8} (h : ¬label.all labelChar=true) :
    (label.takeWhile labelChar).length<label.length := by
  have hhead := List.takeWhile_prefix labelChar (l := label)
  refine lt_of_le_of_ne hhead.length_le fun heq => h ?_
  have hsame := hhead.eq_of_length heq
  rw [←hsame]
  exact List.all_takeWhile

/-- The run from a place reads one label and goes on, or it ends. -/
theorem run_cases (packet : Packet) (extrabytes : ℕ) (s : Place) :
    (∃ next reads written, Advance packet s next reads written ∧
        s.run packet extrabytes=(next.run packet extrabytes).after reads written) ∨
      Stop packet extrabytes s (s.run packet extrabytes) := by
  obtain ⟨p,p1,hops,cp⟩ := s
  simp only [Place.run]
  fun_cases readLoop packet extrabytes p p1 hops cp with
  | case1 hlen l hl hroom =>
    exact Or.inr (.accepted (checkLen_iff.mp hlen) hl (checkLen_iff.mp hroom))
  | case2 hlen l hl hroom =>
    exact Or.inr (refused_first (checkLen_iff.mp hlen) (by simp only; omega))
  | case3 hlen l hl hpointer hsecond hhops =>
    exact Or.inr (refused_pair (checkLen_iff.mp hlen) (Or.inl (checkLen_iff.mp hsecond)))
  | case4 hlen l hl hpointer hsecond hhops =>
    exact Or.inl ⟨_,_,_,.pointer (checkLen_iff.mp hsecond) hpointer (by simp only; omega),rfl⟩
  | case5 hlen l hl hpointer hsecond =>
    exact Or.inr (refused_first (checkLen_iff.mp hlen) (by simp only; omega))
  | case6 hlen l hl hpointer hreserved =>
    exact Or.inr (refused_first (checkLen_iff.mp hlen) (by simp only; omega))
  | case7 hlen l hl hpointer hreserved hextended hother =>
    exact Or.inr (refused_first (checkLen_iff.mp hlen) hother)
  | case8 hlen l hl hpointer hreserved hextended hother count digs hlong =>
    exact Or.inr (refused_pair (checkLen_iff.mp hlen) (Or.inr (not_not.mp hother)))
  | case9 hlen l hl hpointer hreserved hextended hother count digs hlong hfits text =>
    exact Or.inl ⟨_,_,_,.bits (checkLen_iff.mp hlen) (not_not.mp hother) (Nat.lt_of_not_le hlong)
      (checkLen_iff.mp hfits),rfl⟩
  | case10 hlen l hl hpointer hreserved hextended hother count digs hlong hfits =>
    exact Or.inr (refused_pair (checkLen_iff.mp hlen) (Or.inr (not_not.mp hother)))
  | case11 hlen l hl hpointer hreserved hextended hlong =>
    exact Or.inr (refused_first (checkLen_iff.mp hlen) (by simp only; omega))
  | case12 hlen l hl hpointer hreserved hextended hlong hfits label hchars =>
    exact Or.inl ⟨_,_,_,.label (checkLen_iff.mp hlen) (by simp only; omega) (by simp only; omega)
      (by simp only; omega) (checkLen_iff.mp hfits) hchars,rfl⟩
  | case13 hlen l hl hpointer hreserved hextended hlong hfits label hchars n =>
    have hn : n<l := by
      have hlt := length_takeWhile_lt hchars
      rwa [show label.length=l by rw [List.length_map,List.length_range]] at hlt
    have hend := checkLen_iff.mp hfits
    refine Or.inr (.refused (fun r hr => Or.inl ?_) (fun _ hbits => ?_) (by omega))
    · rcases List.mem_cons.mp hr with rfl | hr
      · exact checkLen_iff.mp hlen
      · obtain ⟨j,hj,rfl⟩ := List.mem_map.mp hr
        have := List.mem_range.mp hj
        omega
    · simp only at hbits
      omega
  | case14 hlen l hl hpointer hreserved hextended hlong hfits =>
    exact Or.inr (refused_first (checkLen_iff.mp hlen) (by simp only; omega))
  | case15 hlen =>
    refine Or.inr (.refused (fun r hr => by cases hr) (fun hp => ?_) (Nat.zero_le _))
    exact absurd (checkLen_iff.mpr hp) hlen

/-- A label that can be read is read. -/
theorem run_advance {s next : Place} {reads : List ℕ} {written : ℕ}
    (h : Advance packet s next reads written) :
    s.run packet extrabytes=(next.run packet extrabytes).after reads written := by
  rw [Place.run,readLoop]
  cases h with
  | label hp hpos hl hroom hfits hchars =>
    rw [dif_pos (checkLen_iff.mpr hp)]
    exact (if_neg (by omega)).trans ((if_neg (by omega)).trans ((if_neg (by omega)).trans
      ((if_neg (by omega)).trans ((if_neg (by omega)).trans
        ((if_pos (checkLen_iff.mpr hfits)).trans (if_pos hchars))))))
  | pointer hp hl hhops =>
    rw [dif_pos (checkLen_iff.mpr (by omega))]
    exact (if_neg (by omega)).trans ((if_pos hl).trans
      ((if_pos (checkLen_iff.mpr (by omega))).trans (if_neg (by omega))))
  | bits hp hl hroom hfits =>
    rw [dif_pos (checkLen_iff.mpr hp)]
    exact (if_neg (by omega)).trans ((if_neg (by omega)).trans ((if_neg (by omega)).trans
      ((if_pos (by omega)).trans ((if_neg (by omega)).trans
        ((if_neg (by omega)).trans (if_pos (checkLen_iff.mpr hfits)))))))

/-- The places at which the name reader looks for a label, from a start on. -/
inductive Met (packet : Packet) (start : ℕ) : Place → Prop
  | start : Met packet start ⟨start,none,0,[]⟩
  | step {s next : Place} {reads : List ℕ} {written : ℕ} (h : Met packet start s)
    (hadvance : Advance packet s next reads written) : Met packet start next

/-- The accesses after a place are among those of the whole run, and the result is that of the
whole run. -/
theorem met_run {start : ℕ} {s : Place} (h : Met packet start s) :
    (∀ r∈(s.run packet extrabytes).reads, r∈(readName packet start extrabytes).reads) ∧
      (s.run packet extrabytes).result=(readName packet start extrabytes).result := by
  induction h with
  | start => exact ⟨fun r hr => hr,rfl⟩
  | step h hadvance ih =>
    rw [run_advance hadvance] at ih
    exact ⟨fun r hr => ih.1 r (mem_after.mpr (Or.inr hr)),ih.2⟩

/-- The measure of the loop. -/
def Place.remaining (packet : Packet) (s : Place) : ℕ :=
  (256-s.hops)*(packet.len+1)+(packet.len-s.p)

theorem remaining_advance {s next : Place} {reads : List ℕ} {written : ℕ}
    (h : Advance packet s next reads written) :
    next.remaining packet < s.remaining packet := by
  rw [Place.remaining,Place.remaining]
  cases h with
  | label hp hpos hl hroom hfits hchars => simp only; omega
  | pointer hp hl hhops =>
    have hsucc : 256-s.hops=256-(s.hops+1)+1 := by omega
    have hmul := Nat.add_one_mul (256-(s.hops+1)) (packet.len+1)
    rw [←hsucc] at hmul
    simp only
    omega
  | bits hp hl hroom hfits => simp only; omega

/-- What holds where the run ends holds at every place, if a label carries it back. -/
theorem place_induction {motive : Place → Prop}
    (hstop : ∀ s r, Stop packet extrabytes s r → s.run packet extrabytes=r → motive s)
    (hstep : ∀ s next reads written, Advance packet s next reads written → motive next → motive s)
    (s : Place) : motive s := by
  generalize hn : s.remaining packet=n
  induction n using Nat.strongRecOn generalizing s with
  | ind n ih =>
    rcases run_cases packet extrabytes s with ⟨next,reads,written,hadvance,-⟩ | h
    · exact hstep s next reads written hadvance
        (ih _ (hn ▸ remaining_advance hadvance) next rfl)
    · exact hstop s _ h rfl

/-! ## The buffer -/

theorem bitCount_le (byte : UInt8) : bitCount byte≤256 := by
  rw [bitCount]
  split
  · exact le_rfl
  · exact byte.toNat_lt.le

theorem toDigits_length_le : ∀ count≤256, (Nat.toDigits 10 count).length≤3 := by decide +kernel

/-- The text of a bit-string label takes at most nine bytes more than its digits. -/
theorem bitStringText_length_le (packet : Packet) (p : ℕ) {count : ℕ} (h : count≤256) :
    (bitStringText packet p count).length≤bitDigits count+9 := by
  have hdigits := toDigits_length_le count h
  simp only [bitStringText,List.length_append,List.length_map,List.length_range,List.length_cons,
    List.length_nil,bitDigits]
  omega

/-- No run writes past the end of the buffer. -/
theorem run_written_le (s : Place) (h : s.cp.length < maxDname) :
    (s.run packet extrabytes).written ≤ maxDname := by
  refine @place_induction packet extrabytes
    (fun s => s.cp.length < maxDname → (s.run packet extrabytes).written ≤ maxDname)
    (fun s r hstop hrun h => ?_) (fun s next reads written hadvance ih h => ?_) s h
  · rw [hrun]
    cases hstop with
    | accepted hp hl hroom =>
      simp only [List.length_dropLast]
      omega
    | refused hreads hbits hwritten => exact hwritten
  · rw [run_advance hadvance]
    refine max_le ?_ (ih ?_)
    · cases hadvance with
      | label hp hpos hl hroom hfits hchars => omega
      | pointer hp hl hhops => exact Nat.zero_le _
      | bits hp hl hroom hfits =>
        have := bitStringText_length_le packet (s.p+2) (bitCount_le (packet.bytes (s.p+1)))
        omega
    · cases hadvance with
      | label hp hpos hl hroom hfits hchars =>
        simp only [List.length_append,List.length_map,List.length_range,List.length_singleton]
        omega
      | pointer hp hl hhops => exact h
      | bits hp hl hroom hfits =>
        have := bitStringText_length_le packet (s.p+2) (bitCount_le (packet.bytes (s.p+1)))
        simp only [List.length_append]
        omega

/-! ## The bytes of bit-string labels -/

/-- The count and the bits of every bit-string label that is met lie in the packet. -/
def BitsInside (packet : Packet) (start : ℕ) : Prop :=
  ∀ s, Met packet start s → s.p<packet.len → (packet.bytes s.p).toNat=65 →
    s.p+1<packet.len ∧
      (s.cp.length+bitDigits (bitCount (packet.bytes (s.p+1)))+9 < maxDname →
        s.p+2+(bitCount (packet.bytes (s.p+1))-1)/8≠packet.len)

/-- With the bit-string labels inside, every byte that is read is. -/
theorem run_reads_lt {start : ℕ} (hbits : BitsInside packet start) (s : Place)
    (h : Met packet start s) : ∀ r∈(s.run packet extrabytes).reads, r<packet.len := by
  refine @place_induction packet extrabytes
    (fun s => Met packet start s → ∀ r∈(s.run packet extrabytes).reads, r<packet.len)
    (fun s r hstop hrun h => ?_) (fun s next reads written hadvance ih h => ?_) s h
  · rw [hrun]
    cases hstop with
    | accepted hp hl hroom =>
      intro r hr
      rw [List.mem_singleton.mp hr]
      exact hp
    | refused hreads hcount hwritten =>
      intro r hr
      rcases hreads r hr with hlt | ⟨hp,hl,rfl⟩
      · exact hlt
      · exact (hbits s h hp hl).1
  · rw [run_advance hadvance]
    intro r hafter
    rcases mem_after.mp hafter with hr | hr
    · cases hadvance with
      | label hp hpos hl hroom hfits hchars =>
        rcases List.mem_cons.mp hr with rfl | hr
        · exact hp
        · obtain ⟨j,hj,rfl⟩ := List.mem_map.mp hr
          have := List.mem_range.mp hj
          omega
      | pointer hp hl hhops =>
        rcases List.mem_cons.mp hr with rfl | hr
        · omega
        · rw [List.mem_singleton.mp hr]
          omega
      | bits hp hl hroom hfits =>
        obtain ⟨hcount,hlast⟩ := hbits s h hp hl
        have hne := hlast hroom
        rcases List.mem_cons.mp hr with rfl | hr
        · exact hp
        · rcases List.mem_cons.mp hr with rfl | hr
          · exact hcount
          · obtain ⟨j,hj,rfl⟩ := List.mem_map.mp hr
            have hrange := List.mem_range.mp hj
            rw [bitDigits] at hrange
            omega
    · exact ih (h.step hadvance) r hr

/-- The count of a bit-string label is read before any test. -/
theorem count_mem_reads {s : Place} (hp : s.p<packet.len)
    (hl : (packet.bytes s.p).toNat=65) : s.p+1∈(s.run packet extrabytes).reads := by
  rcases run_cases packet extrabytes s with ⟨next,reads,written,hadvance,hrun⟩ | hstop
  · rw [hrun,mem_after]
    refine Or.inl ?_
    cases hadvance with
    | label hp' hpos hl' hroom hfits hchars => omega
    | pointer hp' hl' hhops => omega
    | bits hp' hl' hroom hfits => exact List.mem_cons_of_mem _ List.mem_cons_self
  · generalize s.run packet extrabytes=r at hstop
    cases hstop with
    | accepted hp' hl' hroom => omega
    | refused hreads hcount hwritten => exact hcount hp hl

/-- A bit-string label that is met is read to its last bit. -/
theorem bitsInside_of_reads {start : ℕ}
    (h : ∀ r∈(readName packet start extrabytes).reads, r<packet.len) :
    BitsInside packet start := by
  intro s hmet hp hl
  have hreads := (@met_run packet extrabytes start s hmet).1
  refine ⟨h _ (hreads _ (count_mem_reads hp hl)),fun hroom heq => ?_⟩
  have hadvance := Advance.bits hp hl hroom (by omega)
  have hlast := h _ (hreads (s.p+2+(bitDigits (bitCount (packet.bytes (s.p+1)))-1)/2) (by
    rw [run_advance hadvance,mem_after]
    exact Or.inl (List.mem_cons_of_mem _ (List.mem_cons_of_mem _
      (List.mem_map.mpr ⟨_,List.mem_range.mpr (by rw [bitDigits]; omega),rfl⟩)))))
  rw [bitDigits] at hlast
  omega

/-! ## The end of the name -/

/-- The bit-string labels that are met before a pointer have an even number of digits. -/
def EvenBits (packet : Packet) (start : ℕ) : Prop :=
  ∀ s, Met packet start s → s.hops=0 → s.p<packet.len → (packet.bytes s.p).toNat=65 →
    bitDigits (bitCount (packet.bytes (s.p+1)))%2=0

/-- Where a name is accepted, its end has `extrabytes` bytes behind it, also if the name goes on
behind a pointer. -/
def PointerRoom (packet : Packet) (start extrabytes : ℕ) : Prop :=
  ∀ s stop, Met packet start s → s.p<packet.len → (packet.bytes s.p).toNat=0 →
    s.p+1+extrabytes≤packet.len → NameAt packet start stop → stop+extrabytes≤packet.len

/-- Once a pointer was followed, the end is known. -/
theorem run_end (s : Place) {stop : ℕ} (h : s.p1=some stop) {name : List UInt8} {q : ℕ}
    (hresult : (s.run packet extrabytes).result=some (name,q)) : q=stop := by
  refine @place_induction packet extrabytes (fun s => s.p1=some stop →
    (s.run packet extrabytes).result=some (name,q) → q=stop)
    (fun s r hstop hrun h hresult => ?_) (fun s next reads written hadvance ih h hresult => ?_)
    s h hresult
  · rw [hrun] at hresult
    cases hstop with
    | accepted hp hl hroom =>
      rw [h] at hresult
      cases hresult
      rfl
    | refused hreads hcount hwritten => cases hresult
  · rw [run_advance hadvance] at hresult
    refine ih ?_ hresult
    cases hadvance with
    | label hp hpos hl hroom hfits hchars => exact h
    | pointer hp hl hhops => simp only [h,Option.getD_some]
    | bits hp hl hroom hfits => exact h

/-- Before a pointer the reader stands where the name goes on. -/
theorem run_nameAt {start : ℕ} (heven : EvenBits packet start) (s : Place)
    (hmet : Met packet start s) (hhops : s.hops=0) (hp1 : s.p1=none) {name : List UInt8} {q : ℕ}
    (hresult : (s.run packet extrabytes).result=some (name,q)) : NameAt packet s.p q := by
  refine @place_induction packet extrabytes (fun s => Met packet start s → s.hops=0 → s.p1=none →
    (s.run packet extrabytes).result=some (name,q) → NameAt packet s.p q)
    (fun s r hstop hrun hmet hhops hp1 hresult => ?_)
    (fun s next reads written hadvance ih hmet hhops hp1 hresult => ?_) s hmet hhops hp1 hresult
  · rw [hrun] at hresult
    cases hstop with
    | accepted hp hl hroom =>
      rw [hp1] at hresult
      cases hresult
      exact .root hl
    | refused hreads hcount hwritten => cases hresult
  · rw [run_advance hadvance] at hresult
    have hnext := hmet.step hadvance
    cases hadvance with
    | label hp hpos hl hroom hfits hchars => exact .label hpos hl (ih hnext hhops hp1 hresult)
    | pointer hp hl hlt =>
      rw [run_end _ (by rw [hp1,Option.getD_none]) hresult]
      exact .pointer hl
    | bits hp hl hroom hfits =>
      have hdigits := heven s hmet hhops hp hl
      have hbytes : bitBytes (packet.bytes (s.p+1)).toNat=
          bitDigits (bitCount (packet.bytes (s.p+1)))/2 := by
        rw [bitDigits,bitCount] at hdigits ⊢
        rw [bitBytes]
        by_cases hzero : packet.bytes (s.p+1)=0
        · rw [if_pos hzero,hzero]
          rfl
        · have hne : (packet.bytes (s.p+1)).toNat≠0 := fun h => hzero (UInt8.toNat_inj.mp h)
          rw [if_neg hzero] at hdigits ⊢
          rw [if_neg hne]
          omega
      refine .bits hl ?_
      rw [hbytes]
      exact ih hnext hhops hp1 hresult

/-- A name is accepted at a zero label with enough bytes behind it. -/
theorem run_accepted {start : ℕ} (s : Place) (hmet : Met packet start s)
    (h : (s.run packet extrabytes).result≠none) :
    ∃ last, Met packet start last ∧ last.p<packet.len ∧ (packet.bytes last.p).toNat=0 ∧
      last.p+1+extrabytes≤packet.len := by
  refine @place_induction packet extrabytes (fun s => Met packet start s →
    (s.run packet extrabytes).result≠none → ∃ last, Met packet start last ∧ last.p<packet.len ∧
      (packet.bytes last.p).toNat=0 ∧ last.p+1+extrabytes≤packet.len)
    (fun s r hstop hrun hmet h => ?_) (fun s next reads written hadvance ih hmet h => ?_) s hmet h
  · rw [hrun] at h
    cases hstop with
    | accepted hp hl hroom => exact ⟨s,hmet,hp,hl,hroom⟩
    | refused hreads hcount hwritten => exact absurd rfl h
  · rw [run_advance hadvance] at h
    exact ih (hmet.step hadvance) h

/-- A zero label that is met with enough bytes behind it is accepted. -/
theorem accepted_of_met {start : ℕ} {last : Place} (hmet : Met packet start last)
    (hp : last.p<packet.len) (hl : (packet.bytes last.p).toNat=0)
    (hroom : last.p+1+extrabytes≤packet.len) :
    (readName packet start extrabytes).result=
      some (last.cp.dropLast,last.p1.getD (last.p+1)) := by
  have hrun : last.run packet extrabytes=
      ⟨[last.p],last.cp.dropLast.length+1,some (last.cp.dropLast,last.p1.getD (last.p+1))⟩ := by
    rw [Place.run,readLoop,dif_pos (checkLen_iff.mpr hp)]
    exact (if_pos hl).trans (if_pos (checkLen_iff.mpr hroom))
  rw [←(met_run hmet).2,hrun]

/-! ## The name reader -/

theorem readName_result (packet : Packet) (start extrabytes : ℕ) :
    (readName packet start extrabytes).result=extractName packet start extrabytes :=
  readLoop_result start none 0 []

/-- What a reading of a name is to do: stay in the packet and in the buffer, and end an accepted
name where `skip_name` ends it. -/
structure ReadsRight (packet : Packet) (start extrabytes : ℕ) : Prop where
  reads : ∀ r∈(readName packet start extrabytes).reads, r<packet.len
  written : (readName packet start extrabytes).written ≤ maxDname
  agrees : ∀ name q, extractName packet start extrabytes=some (name,q) →
    skipName packet start extrabytes=some q

/-- A header, and the type of a bit-string label as the last byte. -/
def openBits : Packet := packetOf [0,0,1,0,0,1,0,0,0,0,0,0,65]

/-- A header, and a name of a bit-string label with four zero bits. -/
def oddBits : Packet := packetOf [0,0,1,0,0,1,0,0,0,0,0,0,65,4,0,0]

/-- A header, and a pointer to its first byte as the end of the packet. -/
def lastPointer : Packet := packetOf [0,0,1,0,0,1,0,0,0,0,0,0,192,0]

end AndroidPlatform.DnsNameReading
