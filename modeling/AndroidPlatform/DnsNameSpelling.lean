import AndroidPlatform.DnsNameReading

/-!
# Names as lists of labels

Without bit-string labels a name in a packet is the list of its ordinary labels, found behind at
most 255 pointers. Extract mode accepts it if every character is printable ASCII other than a
dot and the text fits into the buffer, and the text is that of the labels with dots between them.
-/

namespace AndroidPlatform.DnsNameSpelling

open DnsPacket DnsSkip DnsNameReading

/-- The bytes of a label. -/
def labelAt (packet : Packet) (p l : ℕ) : List UInt8 := (List.range l).map fun j => packet.bytes (p+j)

/-- The name at a position, after a number of pointers: its labels, and the end of its zero
label. -/
inductive Spelled (packet : Packet) : ℕ → ℕ → List (List UInt8) → ℕ → Prop
  | root {p hops : ℕ} (hp : p<packet.len) (hl : (packet.bytes p).toNat=0) :
    Spelled packet p hops [] (p+1)
  | label {p hops stop : ℕ} {labels : List (List UInt8)} (hpos : 0 < (packet.bytes p).toNat)
    (hl : (packet.bytes p).toNat<64) (hfits : p+1+(packet.bytes p).toNat≤packet.len)
    (rest : Spelled packet (p+1+(packet.bytes p).toNat) hops labels stop) :
    Spelled packet p hops (labelAt packet (p+1) (packet.bytes p).toNat::labels) stop
  | pointer {p hops stop : ℕ} {labels : List (List UInt8)} (hp : p+2≤packet.len)
    (hl : 192≤(packet.bytes p).toNat) (hhops : hops<255)
    (rest : Spelled packet (256*((packet.bytes p).toNat-192)+(packet.bytes (p+1)).toNat)
      (hops+1) labels stop) : Spelled packet p hops labels stop

/-- The labels with a dot behind each of them. -/
def dotted (labels : List (List UInt8)) : List UInt8 := labels.flatMap fun label => label++[46]

/-- The labels with dots between them. -/
def spelling (labels : List (List UInt8)) : List UInt8 := (dotted labels).dropLast

/-- The characters of all labels are allowed. -/
def AllowedChars (labels : List (List UInt8)) : Prop := ∀ label∈labels, label.all labelChar=true

variable {packet : Packet} {extrabytes p hops stop : ℕ} {labels : List (List UInt8)}

theorem length_labelAt (packet : Packet) (p l : ℕ) : (labelAt packet p l).length=l := by
  rw [labelAt,List.length_map,List.length_range]

theorem dotted_cons (label : List UInt8) (labels : List (List UInt8)) :
    dotted (label::labels)=label++46::dotted labels := by
  rw [dotted,List.flatMap_cons,List.append_assoc]
  rfl

theorem length_dotted_cons (label : List UInt8) (labels : List (List UInt8)) :
    (dotted (label::labels)).length=label.length+1+(dotted labels).length := by
  rw [dotted_cons,List.length_append,List.length_cons]
  omega

theorem dotted_eq (h : labels≠[]) : dotted labels=spelling labels++[46] := by
  rcases List.eq_nil_or_concat labels with hnil | ⟨before,last,rfl⟩
  · exact absurd hnil h
  · rw [spelling,dotted,List.concat_eq_append,List.flatMap_append,List.flatMap_singleton,
      ←List.append_assoc,List.dropLast_concat]

/-- A name has one spelling. -/
theorem Spelled.unique {labels' : List (List UInt8)} {stop' : ℕ}
    (h : Spelled packet p hops labels stop) (h' : Spelled packet p hops labels' stop') :
    labels=labels' ∧ stop=stop' := by
  induction h generalizing labels' stop' with
  | root hp hl =>
    cases h' with
    | root hp' hl' => exact ⟨rfl,rfl⟩
    | label hpos' hl' hfits' rest' => omega
    | pointer hp' hl' hhops' rest' => omega
  | label hpos hl hfits rest ih =>
    cases h' with
    | root hp' hl' => omega
    | label hpos' hl' hfits' rest' =>
      obtain ⟨rfl,rfl⟩ := ih rest'
      exact ⟨rfl,rfl⟩
    | pointer hp' hl' hhops' rest' => omega
  | pointer hp hl hhops rest ih =>
    cases h' with
    | root hp' hl' => omega
    | label hpos' hl' hfits' rest' => omega
    | pointer hp' hl' hhops' rest' => exact ih rest'

/-! ## Extract mode -/

/-- The name reader meets no bit-string label. -/
def NoBits (packet : Packet) (start : ℕ) : Prop :=
  ∀ s, Met packet start s → s.p<packet.len → (packet.bytes s.p).toNat≠65

theorem noBits_of_bytes (h : ∀ i<packet.len, (packet.bytes i).toNat≠65) (start : ℕ) :
    NoBits packet start := fun s _ hp => h s.p hp

/-- A name with allowed characters that fits into the buffer is read. -/
theorem run_spelled (h : Spelled packet p hops labels stop) (hroom : stop+extrabytes≤packet.len)
    (hchars : AllowedChars labels) (p1 : Option ℕ) {cp : List UInt8}
    (hlen : cp.length+(dotted labels).length < maxDname) :
    ∃ q, ((⟨p,p1,hops,cp⟩ : Place).run packet extrabytes).result=
      some ((cp++dotted labels).dropLast,q) := by
  induction h generalizing p1 cp with
  | @root p hops hp hl =>
    rw [Place.run,readLoop,dif_pos (checkLen_iff.mpr hp)]
    refine ⟨p1.getD (p+1),?_⟩
    rw [dotted,List.flatMap_nil,List.append_nil]
    exact congrArg Reading.result ((if_pos hl).trans (if_pos (checkLen_iff.mpr hroom)))
  | @label p hops stop labels hpos hl hfits rest ih =>
    rw [length_dotted_cons,length_labelAt] at hlen
    have hadvance := @Advance.label packet ⟨p,p1,hops,cp⟩ (by simp only; omega) hpos hl
      (by simp only; omega) hfits (hchars _ List.mem_cons_self)
    rw [run_advance hadvance]
    obtain ⟨q,hresult⟩ := @ih hroom (fun label hlabel => hchars label (List.mem_cons_of_mem _ hlabel))
      p1 (cp++labelAt packet (p+1) (packet.bytes p).toNat++[46]) (by
        rw [List.length_append,List.length_append,length_labelAt,List.length_singleton]
        omega)
    refine ⟨q,hresult.trans ?_⟩
    rw [dotted_cons]
    simp only [List.append_assoc,List.singleton_append]
  | @pointer p hops stop labels hp hl hhops rest ih =>
    have hadvance := @Advance.pointer packet ⟨p,p1,hops,cp⟩ hp hl hhops
    rw [run_advance hadvance]
    exact ih hroom hchars _ hlen

/-- What is read is a name with allowed characters that fits into the buffer. -/
theorem spelled_of_run {start : ℕ} (hbits : NoBits packet start) (s : Place)
    (hmet : Met packet start s) (hcp : s.cp.length < maxDname) {text : List UInt8} {q : ℕ}
    (hresult : (s.run packet extrabytes).result=some (text,q)) :
    ∃ labels stop, Spelled packet s.p s.hops labels stop ∧ stop+extrabytes≤packet.len ∧
      AllowedChars labels ∧ s.cp.length+(dotted labels).length < maxDname ∧
      text=(s.cp++dotted labels).dropLast := by
  refine @place_induction packet extrabytes (fun s => Met packet start s →
    s.cp.length < maxDname → (s.run packet extrabytes).result=some (text,q) →
      ∃ labels stop, Spelled packet s.p s.hops labels stop ∧ stop+extrabytes≤packet.len ∧
        AllowedChars labels ∧ s.cp.length+(dotted labels).length < maxDname ∧
        text=(s.cp++dotted labels).dropLast)
    (fun s r hstop hrun hmet hcp hresult => ?_)
    (fun s next reads written hadvance ih hmet hcp hresult => ?_) s hmet hcp hresult
  · rw [hrun] at hresult
    cases hstop with
    | accepted hp hl hroom =>
      cases hresult
      exact ⟨[],_,.root hp hl,hroom,nofun,hcp,by rw [dotted,List.flatMap_nil,List.append_nil]⟩
    | refused hreads hcount hwritten => cases hresult
  · rw [run_advance hadvance] at hresult
    have hnext := hmet.step hadvance
    cases hadvance with
    | label hp hpos hl hroom hfits hchars =>
      obtain ⟨labels,stop,hspelled,hstop,hallowed,hlen,htext⟩ := ih hnext (by
        simp only [List.length_append,List.length_map,List.length_range,List.length_singleton]
        omega) hresult
      refine ⟨_,stop,.label hpos hl hfits hspelled,hstop,?_,?_,?_⟩
      · intro label hlabel
        rcases List.mem_cons.mp hlabel with rfl | hlabel
        · exact hchars
        · exact hallowed label hlabel
      · rw [length_dotted_cons,length_labelAt]
        simp only [List.length_append,List.length_map,List.length_range,List.length_singleton]
          at hlen
        omega
      · rw [htext,dotted_cons,labelAt]
        simp only [List.append_assoc,List.singleton_append]
    | pointer hp hl hhops =>
      obtain ⟨labels,stop,hspelled,hstop,hallowed,hlen,htext⟩ := ih hnext hcp hresult
      exact ⟨labels,stop,.pointer hp hl hhops hspelled,hstop,hallowed,hlen,htext⟩
    | bits hp hl hroom hfits => exact absurd hl (hbits s hmet hp)

/-- Extract mode accepts the names with allowed characters that fit into the buffer. -/
theorem extractName_iff (hbits : NoBits packet p) {text : List UInt8} :
    (∃ q, extractName packet p extrabytes=some (text,q)) ↔
      ∃ labels stop, Spelled packet p 0 labels stop ∧ stop+extrabytes≤packet.len ∧
        AllowedChars labels ∧ (dotted labels).length < maxDname ∧ text=spelling labels := by
  constructor
  · rintro ⟨q,h⟩
    rw [←readName_result] at h
    obtain ⟨labels,stop,hspelled,hroom,hallowed,hlen,htext⟩ :=
      spelled_of_run hbits ⟨p,none,0,[]⟩ .start (show 0 < maxDname by decide) h
    rw [List.length_nil,Nat.zero_add] at hlen
    exact ⟨labels,stop,hspelled,hroom,hallowed,hlen,htext⟩
  · rintro ⟨labels,stop,hspelled,hroom,hallowed,hlen,rfl⟩
    have hlen' : ([] : List UInt8).length+(dotted labels).length < maxDname := by
      rw [List.length_nil,Nat.zero_add]
      exact hlen
    obtain ⟨q,hresult⟩ := run_spelled hspelled hroom hallowed none hlen'
    exact ⟨q,(readName_result packet p extrabytes) ▸ hresult⟩

end AndroidPlatform.DnsNameSpelling
