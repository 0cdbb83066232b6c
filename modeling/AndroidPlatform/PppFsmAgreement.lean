import AndroidPlatform.PppFsm
import AndroidPlatform.TransitionSystem
import Mathlib.Order.Lattice
import Mathlib.Order.MinMax
import Mathlib.Algebra.Order.Ring.Int

/-!
# Agreement, timers and layers of the PPP automaton

A monitor reads the history: which request was sent last and what came back for
it, which request of the peer was received last and how it was answered, and
whether the layer is up. In every run from `fsm_init` the state of the automaton
tells what the monitor has seen, and how many timers are pending.
-/

namespace AndroidPlatform.PppFsm

/-! ## The monitor -/

/-- What a history amounts to. -/
structure Seen where
  /-- The id of the last CONFREQ sent. -/
  request : Option UInt8
  /-- A CONFACK with that id has been accepted since. -/
  acked : Bool
  /-- A CONFNAK or CONFREJ has been acted on since. -/
  nakked : Bool
  /-- The id of the last CONFREQ received. -/
  peerRequest : Option UInt8
  /-- It has been answered with a CONFACK. -/
  answered : Bool
  /-- Whether the layer is up; none if `up` and `down` have not alternated. -/
  layer : Option Bool

/-- The monitor reads one entry. -/
def Seen.read (s : Seen) : Entry → Seen
  | .sent code id _ =>
    if code=confReq then { s with request := some id, acked := false, nakked := false }
    else if code=confAck ∧ s.peerRequest=some id then { s with answered := true }
    else s
  | .received code id =>
    if code=confReq then { s with peerRequest := some id, answered := false } else s
  | .acked id => { s with acked := s.acked || s.request==some id }
  | .nakked _ _ => { s with nakked := true }
  | .up => { s with layer := if s.layer=some false then some true else none }
  | .down => { s with layer := if s.layer=some true then some false else none }
  | _ => s

section

variable (s : Seen)

theorem Seen.read_sent (code id : UInt8) (data : List UInt8) :
    s.read (.sent code id data)=
      if code=confReq then { s with request := some id, acked := false, nakked := false }
      else if code=confAck ∧ s.peerRequest=some id then { s with answered := true }
      else s := rfl

theorem Seen.read_received (code id : UInt8) :
    s.read (.received code id)=
      if code=confReq then { s with peerRequest := some id, answered := false } else s := rfl

theorem Seen.read_acked (id : UInt8) :
    s.read (.acked id)={ s with acked := s.acked || s.request==some id } := rfl

theorem Seen.read_nakked (code id : UInt8) :
    s.read (.nakked code id)={ s with nakked := true } := rfl

theorem Seen.read_up :
    s.read .up={ s with layer := if s.layer=some false then some true else none } := rfl

theorem Seen.read_down :
    s.read .down={ s with layer := if s.layer=some true then some false else none } := rfl

end

/-- What has been seen in a history, the newest entry first. -/
def seen : List Entry → Seen
  | [] => ⟨none,false,false,none,false,some false⟩
  | entry::log => (seen log).read entry

/-- The request that was sent last, as a part of the history. -/
theorem exists_of_request {log : List Entry} {id : UInt8} (hrequest : (seen log).request=some id)
    (hnakked : (seen log).nakked=false) :
    ∃ recent data older, log=recent++.sent confReq id data::older ∧
      (∀ id' data', .sent confReq id' data'∉recent) ∧ (∀ code id', .nakked code id'∉recent) ∧
      ((seen log).acked=true → .acked id∈recent) := by
  induction log with
  | nil => cases hrequest
  | cons entry log ih =>
    have hkeep : (seen (entry::log)).request=(seen log).request →
        (seen (entry::log)).nakked=(seen log).nakked →
        ((seen (entry::log)).acked=true → (seen log).acked=true ∨ entry=.acked id) →
        (∀ id' data', entry≠.sent confReq id' data') → (∀ code id', entry≠.nakked code id') →
        ∃ recent data older, entry::log=recent++.sent confReq id data::older ∧
          (∀ id' data', .sent confReq id' data'∉recent) ∧ (∀ code id', .nakked code id'∉recent) ∧
          ((seen (entry::log)).acked=true → .acked id∈recent) := by
      intro hreq hnak hack hnotReq hnotNak
      rw [hreq] at hrequest
      rw [hnak] at hnakked
      obtain ⟨recent,data,older,rfl,hnoReq,hnoNak,hin⟩ := ih hrequest hnakked
      refine ⟨entry::recent,data,older,rfl,fun id' data' hmem => ?_,fun code id' hmem => ?_,
        fun h => ?_⟩
      · rcases List.mem_cons.mp hmem with heq | hmem
        · exact hnotReq id' data' heq.symm
        · exact hnoReq id' data' hmem
      · rcases List.mem_cons.mp hmem with heq | hmem
        · exact hnotNak code id' heq.symm
        · exact hnoNak code id' hmem
      · rcases hack h with hold | heq
        · exact List.mem_cons_of_mem entry (hin hold)
        · exact List.mem_cons.mpr (Or.inl heq.symm)
    cases entry with
    | sent code id' data =>
      by_cases hcode : code=confReq
      · rw [seen,Seen.read_sent,if_pos hcode] at hrequest
        obtain rfl : id'=id := Option.some.inj hrequest
        refine ⟨[],data,log,by rw [hcode]; rfl,fun _ _ => List.not_mem_nil,
          fun _ _ => List.not_mem_nil,fun h => ?_⟩
        rw [seen,Seen.read_sent,if_pos hcode] at h
        cases h
      · have hread : (seen (.sent code id' data::log)).request=(seen log).request ∧
            (seen (.sent code id' data::log)).nakked=(seen log).nakked ∧
            (seen (.sent code id' data::log)).acked=(seen log).acked := by
          rw [seen,Seen.read_sent,if_neg hcode]
          split_ifs
          · exact ⟨rfl,rfl,rfl⟩
          · exact ⟨rfl,rfl,rfl⟩
        refine hkeep hread.1 hread.2.1 (fun h => Or.inl (hread.2.2.symm.trans h)) ?_ ?_
        · intro id'' data' heq
          cases heq
          exact hcode rfl
        · exact fun _ _ heq => by cases heq
    | received code id' =>
      have hread : (seen (.received code id'::log)).request=(seen log).request ∧
          (seen (.received code id'::log)).nakked=(seen log).nakked ∧
          (seen (.received code id'::log)).acked=(seen log).acked := by
        rw [seen,Seen.read_received]
        split_ifs
        · exact ⟨rfl,rfl,rfl⟩
        · exact ⟨rfl,rfl,rfl⟩
      exact hkeep hread.1 hread.2.1 (fun h => Or.inl (hread.2.2.symm.trans h))
        (fun _ _ heq => by cases heq) (fun _ _ heq => by cases heq)
    | acked id' =>
      refine hkeep rfl rfl (fun h => ?_) (fun _ _ heq => by cases heq)
        (fun _ _ heq => by cases heq)
      rw [seen,Seen.read_acked,Bool.or_eq_true,beq_iff_eq] at h
      refine h.imp_right (fun hsame => ?_)
      rw [show (seen log).request=some id from hrequest] at hsame
      rw [Option.some.inj hsame]
    | nakked code id' =>
      rw [seen,Seen.read_nakked] at hnakked
      cases hnakked
    | _ => exact hkeep rfl rfl Or.inl (fun _ _ heq => by cases heq) (fun _ _ heq => by cases heq)

/-- The request that was received last, as a part of the history. -/
theorem exists_of_peerRequest {log : List Entry} {id : UInt8}
    (hpeer : (seen log).peerRequest=some id) :
    ∃ recent older, log=recent++.received confReq id::older ∧
      (∀ id', .received confReq id'∉recent) ∧
      ((seen log).answered=true → ∃ data, .sent confAck id data∈recent) := by
  induction log with
  | nil => cases hpeer
  | cons entry log ih =>
    have hkeep : (seen (entry::log)).peerRequest=(seen log).peerRequest →
        ((seen (entry::log)).answered=true →
          (seen log).answered=true ∨ ∃ data, entry=.sent confAck id data) →
        (∀ id', entry≠.received confReq id') →
        ∃ recent older, entry::log=recent++.received confReq id::older ∧
          (∀ id', .received confReq id'∉recent) ∧
          ((seen (entry::log)).answered=true → ∃ data, .sent confAck id data∈recent) := by
      intro hreq hanswer hnot
      rw [hreq] at hpeer
      obtain ⟨recent,older,rfl,hnone,hin⟩ := ih hpeer
      refine ⟨entry::recent,older,rfl,fun id' hmem => ?_,fun h => ?_⟩
      · rcases List.mem_cons.mp hmem with heq | hmem
        · exact hnot id' heq.symm
        · exact hnone id' hmem
      · rcases hanswer h with hold | ⟨data,heq⟩
        · obtain ⟨data,hmem⟩ := hin hold
          exact ⟨data,List.mem_cons_of_mem entry hmem⟩
        · exact ⟨data,List.mem_cons.mpr (Or.inl heq.symm)⟩
    cases entry with
    | sent code id' data =>
      have hread : (seen (.sent code id' data::log)).peerRequest=(seen log).peerRequest := by
        rw [seen,Seen.read_sent]
        split_ifs <;> rfl
      refine hkeep hread (fun h => ?_) (fun _ heq => by cases heq)
      rw [hread] at hpeer
      rw [seen,Seen.read_sent] at h
      split_ifs at h with hreq hack
      · exact Or.inl h
      · refine Or.inr ⟨data,?_⟩
        have hid := hack.2.symm.trans hpeer
        rw [hack.1,Option.some.inj hid]
      · exact Or.inl h
    | received code id' =>
      by_cases hcode : code=confReq
      · rw [seen,Seen.read_received,if_pos hcode] at hpeer
        obtain rfl : id'=id := Option.some.inj hpeer
        refine ⟨[],log,by rw [hcode]; rfl,fun _ => List.not_mem_nil,fun h => ?_⟩
        rw [seen,Seen.read_received,if_pos hcode] at h
        cases h
      · have hread : seen (.received code id'::log)=seen log := by
          rw [seen,Seen.read_received,if_neg hcode]
        refine hkeep (by rw [hread]) (fun h => Or.inl (by rwa [hread] at h)) ?_
        intro id'' heq
        cases heq
        exact hcode rfl
    | _ => exact hkeep rfl Or.inl (fun _ heq => by cases heq)

/-- Only a request that was received can have been answered. -/
theorem peerRequest_of_answered {log : List Entry} (h : (seen log).answered=true) :
    ∃ id, (seen log).peerRequest=some id := by
  induction log with
  | nil => cases h
  | cons entry log ih =>
    cases entry with
    | sent code id data =>
      rw [seen,Seen.read_sent] at h ⊢
      split_ifs at h ⊢ with hreq hack
      · exact ih h
      · exact ⟨id,hack.2⟩
      · exact ih h
    | received code id =>
      rw [seen,Seen.read_received] at h ⊢
      split_ifs at h ⊢
      exact ih h
    | _ => exact ih h

/-- The calls of `up` (true) and `down` in a history, the newest first. -/
def layerCalls : List Entry → List Bool
  | [] => []
  | .up::log => true::layerCalls log
  | .down::log => false::layerCalls log
  | _::log => layerCalls log

/-- The calls alternate, the first one is `up`, and the last one tells whether the
layer is up. -/
theorem layerCalls_alternate {log : List Entry} {up : Bool} (h : (seen log).layer=some up) :
    (layerCalls log).IsChain (· ≠ ·) ∧ (layerCalls log).getLast?≠some false ∧
      ((layerCalls log).head?=some true ↔ up=true) := by
  induction log generalizing up with
  | nil =>
    cases h
    exact ⟨List.IsChain.nil,Option.some_ne_none false ∘ Eq.symm,
      iff_of_false (Option.some_ne_none true ∘ Eq.symm) Bool.false_ne_true⟩
  | cons entry log ih =>
    cases entry with
    | up =>
      rw [seen,Seen.read_up] at h
      split_ifs at h with hdown
      obtain ⟨hchain,hlast,hhead⟩ := ih hdown
      rw [← Option.some.inj h,layerCalls]
      cases hcalls : layerCalls log with
      | nil =>
        refine ⟨List.IsChain.singleton true,?_,iff_of_true rfl rfl⟩
        exact fun hf => Bool.false_ne_true (Option.some.inj hf).symm
      | cons call calls =>
        rw [hcalls] at hchain hlast hhead
        have hcall : call=false := by
          rw [← Bool.not_eq_true]
          exact fun hup => Bool.false_ne_true (hhead.mp (by rw [hup]; rfl))
        refine ⟨List.isChain_cons_cons.mpr ⟨?_,hchain⟩,?_,iff_of_true rfl rfl⟩
        · rw [hcall]
          exact Bool.false_ne_true.symm
        · rw [List.getLast?_cons_cons]
          exact hlast
    | down =>
      rw [seen,Seen.read_down] at h
      split_ifs at h with hup
      obtain ⟨hchain,hlast,hhead⟩ := ih hup
      rw [← Option.some.inj h,layerCalls]
      cases hcalls : layerCalls log with
      | nil =>
        rw [hcalls] at hhead
        cases hhead.mpr rfl
      | cons call calls =>
        rw [hcalls] at hchain hlast hhead
        have hcall : call=true := Option.some.inj (hhead.mpr rfl)
        refine ⟨List.isChain_cons_cons.mpr ⟨?_,hchain⟩,?_,iff_of_false ?_ Bool.false_ne_true⟩
        · rw [hcall]
          exact Bool.false_ne_true
        · rw [List.getLast?_cons_cons]
          exact hlast
        · exact fun hf => Bool.false_ne_true (Option.some.inj hf)
    | sent code id data =>
      have hread : (seen (.sent code id data::log)).layer=(seen log).layer := by
        rw [seen,Seen.read_sent]
        split_ifs <;> rfl
      rw [hread] at h
      exact ih h
    | received code id =>
      have hread : (seen (.received code id::log)).layer=(seen log).layer := by
        rw [seen,Seen.read_received]
        split_ifs <;> rfl
      rw [hread] at h
      exact ih h
    | _ => exact ih h

/-! ## The invariant -/

/-- The states in which a timer is pending. -/
def State.timed : State → Bool
  | .closing | .stopping | .reqSent | .ackRcvd | .ackSent => true
  | _ => false

/-- The states in which a request is out or has been answered. -/
def State.negotiated : State → Bool
  | .reqSent | .ackRcvd | .ackSent | .opened => true
  | _ => false

/-- How often a packet is sent again at most. -/
def Fsm.limit (f : Fsm) : ℤ := max 0 (max f.maxconfreqtransmits f.maxtermtransmits)

/-- What the state tells. -/
structure Inv (f : Fsm) : Prop where
  /-- One timer is pending in the timed states and none in the others. -/
  timer : f.pending=if f.state.timed then 1 else 0
  /-- The layer is up in the opened state. -/
  layer : (seen f.log).layer=some (decide (f.state=.opened))
  /-- The last request has the id `reqid`. -/
  request : f.state.negotiated=true → (seen f.log).request=some f.reqid
  /-- No refusal has been acted on while no answer has been seen. -/
  unseen : f.state.negotiated=true → f.seenAck=false → (seen f.log).nakked=false
  /-- The last request has been acknowledged. -/
  acked : f.state=.ackRcvd ∨ f.state=.opened →
    f.seenAck=true ∧ (seen f.log).acked=true ∧ (seen f.log).nakked=false
  /-- The last request of the peer has been acknowledged. -/
  answered : f.state=.ackSent ∨ f.state=.opened → (seen f.log).answered=true
  /-- Packets are not sent again more often than the limit. -/
  transmits : f.state.timed=true → f.retransmits≤f.limit

namespace Inv

variable {f : Fsm} {r : Results}

/-- A state without a timer and without a request. -/
theorem of_idle (htimed : f.state.timed=false) (hnegotiated : f.state.negotiated=false)
    (hpending : f.pending=0) (hlayer : (seen f.log).layer=some false) : Inv f := by
  have hopened : f.state≠.opened := fun heq => by
    rw [heq] at hnegotiated
    cases hnegotiated
  refine ⟨?_,?_,fun h => ?_,fun h => ?_,fun h => ?_,fun h => ?_,fun h => ?_⟩
  · rw [htimed,hpending]
    rfl
  · rw [hlayer,decide_eq_false hopened]
  · rw [hnegotiated] at h
    cases h
  · rw [hnegotiated] at h
    cases h
  · rcases h with h | h
    · rw [h] at htimed
      cases htimed
    · exact absurd h hopened
  · rcases h with h | h
    · rw [h] at htimed
      cases htimed
    · exact absurd h hopened
  · rw [htimed] at h
    cases h

/-- A state in which the layer is being terminated. -/
theorem of_ending (hstate : f.state=.closing ∨ f.state=.stopping) (hpending : f.pending=1)
    (hlayer : (seen f.log).layer=some false) (htransmits : f.retransmits≤f.limit) : Inv f := by
  have hother : f.state.timed=true ∧ f.state.negotiated=false ∧ f.state≠.opened ∧
      f.state≠.ackRcvd ∧ f.state≠.ackSent := by
    rcases hstate with h | h
    · rw [h]
      exact ⟨rfl,rfl,by decide,by decide,by decide⟩
    · rw [h]
      exact ⟨rfl,rfl,by decide,by decide,by decide⟩
  obtain ⟨htimed,hnegotiated,hopened,hackRcvd,hackSent⟩ := hother
  refine ⟨?_,?_,fun h => ?_,fun h => ?_,fun h => ?_,fun h => ?_,fun _ => htransmits⟩
  · rw [htimed,hpending]
    rfl
  · rw [hlayer,decide_eq_false hopened]
  · rw [hnegotiated] at h
    cases h
  · rw [hnegotiated] at h
    cases h
  · exact absurd h (not_or.mpr ⟨hackRcvd,hopened⟩)
  · exact absurd h (not_or.mpr ⟨hackSent,hopened⟩)

/-- A request has been sent that is not answered yet. -/
theorem of_requested (hstate : f.state=.reqSent ∨ f.state=.ackSent ∧ (seen f.log).answered=true)
    (hpending : f.pending=1) (hlayer : (seen f.log).layer=some false)
    (hrequest : (seen f.log).request=some f.reqid)
    (hnakked : f.seenAck=false → (seen f.log).nakked=false)
    (htransmits : f.retransmits≤f.limit) : Inv f := by
  have hother : f.state.timed=true ∧ f.state≠.opened ∧ f.state≠.ackRcvd := by
    rcases hstate with h | ⟨h,-⟩
    · rw [h]
      exact ⟨rfl,by decide,by decide⟩
    · rw [h]
      exact ⟨rfl,by decide,by decide⟩
  obtain ⟨htimed,hopened,hackRcvd⟩ := hother
  refine ⟨?_,?_,fun _ => hrequest,fun _ => hnakked,fun h => ?_,fun h => ?_,fun _ => htransmits⟩
  · rw [htimed,hpending]
    rfl
  · rw [hlayer,decide_eq_false hopened]
  · exact absurd h (not_or.mpr ⟨hackRcvd,hopened⟩)
  · rcases hstate with hs | hs
    · rcases h with h | h
      · rw [hs] at h
        cases h
      · exact absurd h hopened
    · exact hs.2

/-- In a timed state one timer is pending and the layer is down. -/
theorem pending_of_timed (h : Inv f) (hs : f.state.timed=true) :
    f.pending=1 ∧ (seen f.log).layer=some false := by
  have hopened : f.state≠.opened := fun heq => by
    rw [heq] at hs
    cases hs
  have htimer := h.timer
  have hlayer := h.layer
  rw [hs,if_pos rfl] at htimer
  rw [decide_eq_false hopened] at hlayer
  exact ⟨htimer,hlayer⟩

/-- In the other states no timer is pending. -/
theorem pending_of_untimed (h : Inv f) (hs : f.state.timed=false) : f.pending=0 := by
  have htimer := h.timer
  rw [hs] at htimer
  exact htimer

theorem layer_of_ne (h : Inv f) (hs : f.state≠.opened) : (seen f.log).layer=some false := by
  have hlayer := h.layer
  rwa [decide_eq_false hs] at hlayer

theorem layer_of_opened (h : Inv f) (hs : f.state=.opened) : (seen f.log).layer=some true := by
  have hlayer := h.layer
  rwa [decide_eq_true hs] at hlayer

end Inv

/-! ## Sending a request -/

theorem resetNegotiation_spec (f : Fsm) : ∃ log nakloops rnakloops,
    f.resetNegotiation={ f with log := log, nakloops := nakloops, rnakloops := rnakloops } ∧
      seen log=seen f.log := by
  unfold Fsm.resetNegotiation
  split_ifs
  · exact ⟨f.log,f.nakloops,f.rnakloops,rfl,rfl⟩
  · exact ⟨.resetci::f.log,0,0,rfl,rfl⟩

/-- What `fsm_sconfreq` does to the state. -/
theorem sconfreq_spec (f : Fsm) (r : Results) (retransmit : Bool) :
    (f.sconfreq r retransmit).state=f.state ∧ (f.sconfreq r retransmit).pending=f.pending+1 ∧
      (f.sconfreq r retransmit).seenAck=false ∧ (f.sconfreq r retransmit).limit=f.limit ∧
      (f.sconfreq r retransmit).retransmits=
        (if retransmit then f.retransmits else f.maxconfreqtransmits)-1 ∧
      seen (f.sconfreq r retransmit).log=
        { seen f.log with
          request := some (f.sconfreq r retransmit).reqid, acked := false, nakked := false } := by
  obtain ⟨log,nakloops,rnakloops,hreset,hseen⟩ := resetNegotiation_spec f
  cases retransmit with
  | true =>
    refine ⟨?_,?_,rfl,?_,?_,?_⟩
    · rw [Fsm.sconfreq,hreset]; rfl
    · rw [Fsm.sconfreq,hreset]; rfl
    · rw [Fsm.sconfreq,hreset]; rfl
    · rw [Fsm.sconfreq,hreset]; rfl
    · rw [Fsm.sconfreq,hreset,← hseen]; rfl
  | false =>
    refine ⟨?_,?_,rfl,?_,?_,?_⟩
    · rw [Fsm.sconfreq,hreset]; rfl
    · rw [Fsm.sconfreq,hreset]; rfl
    · rw [Fsm.sconfreq,hreset]; rfl
    · rw [Fsm.sconfreq,hreset]; rfl
    · rw [Fsm.sconfreq,hreset,← hseen]; rfl

namespace Inv

variable {f : Fsm} {r : Results}

theorem maxconf_le_limit (f : Fsm) : f.maxconfreqtransmits≤f.limit :=
  (le_max_left _ _).trans (le_max_right _ _)

theorem maxterm_le_limit (f : Fsm) : f.maxtermtransmits≤f.limit :=
  (le_max_right _ _).trans (le_max_right _ _)

/-- A new request is sent when no timer is pending and the layer is down. -/
theorem sconfreq (r : Results) (hpending : f.pending=0) (hlayer : (seen f.log).layer=some false)
    {s : State} (hs : s=.reqSent ∨ s=.ackSent ∧ (seen f.log).answered=true) :
    Inv ((f.sconfreq r false).setState s) := by
  obtain ⟨-,hpend,hunseen,hlimit,htransmits,hseen⟩ := sconfreq_spec f r false
  refine of_requested ?_ ?_ ?_ ?_ (fun _ => ?_) ?_
  · refine hs.imp_right (fun h => ⟨h.1,?_⟩)
    change (seen (f.sconfreq r false).log).answered=true
    rw [hseen]
    exact h.2
  · change (f.sconfreq r false).pending=1
    rw [hpend,hpending]
  · change (seen (f.sconfreq r false).log).layer=some false
    rw [hseen]
    exact hlayer
  · change (seen (f.sconfreq r false).log).request=some (f.sconfreq r false).reqid
    rw [hseen]
  · change (seen (f.sconfreq r false).log).nakked=false
    rw [hseen]
  · change (f.sconfreq r false).retransmits≤(f.sconfreq r false).limit
    rw [htransmits,hlimit,if_neg Bool.false_ne_true]
    have hle := maxconf_le_limit f
    omega

end Inv

/-! ## The events -/

namespace Inv

variable {f : Fsm}

theorem lowerup (h : Inv f) (r : Results) : Inv (f.lowerup r) := by
  unfold Fsm.lowerup
  cases hs : f.state with
  | initial =>
    exact of_idle rfl rfl (h.pending_of_untimed (by rw [hs]; rfl))
      (h.layer_of_ne (by rw [hs]; decide))
  | starting =>
    have hpending := h.pending_of_untimed (by rw [hs]; rfl)
    have hlayer := h.layer_of_ne (by rw [hs]; decide)
    dsimp only
    split_ifs
    · exact of_idle rfl rfl hpending hlayer
    · exact sconfreq r hpending hlayer (Or.inl rfl)
  | _ => exact h

theorem lowerdown (h : Inv f) : Inv f.lowerdown := by
  unfold Fsm.lowerdown
  have hstop : f.state.timed=true → ∀ s : State, s.timed=false → s.negotiated=false →
      Inv (f.setState s).stopTimer := by
    intro htimed s hs hs'
    obtain ⟨hpending,hlayer⟩ := h.pending_of_timed htimed
    refine of_idle hs hs' ?_ hlayer
    change f.pending-1=0
    rw [hpending]
  cases hs : f.state with
  | closed =>
    exact of_idle rfl rfl (h.pending_of_untimed (by rw [hs]; rfl))
      (h.layer_of_ne (by rw [hs]; decide))
  | stopped =>
    exact of_idle rfl rfl (h.pending_of_untimed (by rw [hs]; rfl))
      (h.layer_of_ne (by rw [hs]; decide))
  | closing => exact hstop (by rw [hs]; rfl) _ rfl rfl
  | stopping => exact hstop (by rw [hs]; rfl) _ rfl rfl
  | reqSent => exact hstop (by rw [hs]; rfl) _ rfl rfl
  | ackRcvd => exact hstop (by rw [hs]; rfl) _ rfl rfl
  | ackSent => exact hstop (by rw [hs]; rfl) _ rfl rfl
  | opened =>
    refine of_idle rfl rfl (h.pending_of_untimed (by rw [hs]; rfl)) ?_
    change (if (seen f.log).layer=some true then some false else none)=some false
    rw [h.layer_of_opened hs,if_pos rfl]
  | _ => exact h

theorem restart (h : Inv f) (r : Results) : Inv (f.restart r) := by
  unfold Fsm.restart
  split_ifs
  · exact h.lowerdown.lowerup r
  · exact h

theorem fsmOpen (h : Inv f) (r : Results) : Inv (f.fsmOpen r) := by
  unfold Fsm.fsmOpen
  cases hs : f.state with
  | initial =>
    exact of_idle rfl rfl (h.pending_of_untimed (by rw [hs]; rfl))
      (h.layer_of_ne (by rw [hs]; decide))
  | closed =>
    have hpending := h.pending_of_untimed (by rw [hs]; rfl)
    have hlayer := h.layer_of_ne (by rw [hs]; decide)
    dsimp only
    split_ifs
    · exact of_idle rfl rfl hpending hlayer
    · exact sconfreq r hpending hlayer (Or.inl rfl)
  | closing =>
    obtain ⟨hpending,hlayer⟩ := h.pending_of_timed (by rw [hs]; rfl)
    have hstopping : Inv (f.setState .stopping) :=
      of_ending (Or.inr rfl) hpending hlayer (h.transmits (by rw [hs]; rfl))
    exact hstopping.restart r
  | stopped => exact h.restart r
  | opened => exact h.restart r
  | _ => exact h

/-- Leaving a layer for its termination. -/
theorem leaveLayer (h : Inv f) (hs : f.state.negotiated=true) :
    f.leaveLayer.pending=0 ∧ (seen f.leaveLayer.log).layer=some false := by
  unfold Fsm.leaveLayer
  split_ifs with hopened
  · refine ⟨h.pending_of_untimed (by rw [hopened]; rfl),?_⟩
    change (if (seen f.log).layer=some true then some false else none)=some false
    rw [h.layer_of_opened hopened,if_pos rfl]
  · have htimed : f.state.timed=true := by
      cases hstate : f.state with
      | opened => exact absurd hstate hopened
      | reqSent => rfl
      | ackRcvd => rfl
      | ackSent => rfl
      | _ =>
        rw [hstate] at hs
        cases hs
    obtain ⟨hpending,hlayer⟩ := h.pending_of_timed htimed
    refine ⟨?_,hlayer⟩
    change f.pending-1=0
    rw [hpending]

theorem terminateLayer (h : Inv f) (hs : f.state.negotiated=true) (r : Results) {s : State}
    (hnext : s=.closing ∨ s=.stopping) : Inv (f.terminateLayer r s) := by
  obtain ⟨hpending,hlayer⟩ := h.leaveLayer hs
  have hmax : f.leaveLayer.limit=f.limit := by
    unfold Fsm.leaveLayer
    split_ifs <;> rfl
  unfold Fsm.terminateLayer
  dsimp only
  split_ifs
  · exact of_idle rfl rfl hpending hlayer
  · exact of_idle rfl rfl hpending hlayer
  · refine of_ending hnext ?_ hlayer ?_
    · change f.leaveLayer.pending+1=1
      rw [hpending]
    · change f.maxtermtransmits-1≤f.leaveLayer.limit
      rw [hmax]
      have hle := maxterm_le_limit f
      omega

theorem close (h : Inv f) (r : Results) (reason : Option (List UInt8)) :
    Inv (f.close r reason) := by
  have hreason : Inv { f with termReason := reason.getD [] } :=
    ⟨h.timer,h.layer,h.request,h.unseen,h.acked,h.answered,h.transmits⟩
  unfold Fsm.close
  generalize { f with termReason := reason.getD [] }=g at hreason
  dsimp only
  cases hs : g.state with
  | starting =>
    exact of_idle rfl rfl (hreason.pending_of_untimed (by rw [hs]; rfl))
      (hreason.layer_of_ne (by rw [hs]; decide))
  | stopped =>
    exact of_idle rfl rfl (hreason.pending_of_untimed (by rw [hs]; rfl))
      (hreason.layer_of_ne (by rw [hs]; decide))
  | stopping =>
    obtain ⟨hpending,hlayer⟩ := hreason.pending_of_timed (by rw [hs]; rfl)
    exact of_ending (Or.inl rfl) hpending hlayer (hreason.transmits (by rw [hs]; rfl))
  | reqSent => exact hreason.terminateLayer (by rw [hs]; rfl) r (Or.inl rfl)
  | ackRcvd => exact hreason.terminateLayer (by rw [hs]; rfl) r (Or.inl rfl)
  | ackSent => exact hreason.terminateLayer (by rw [hs]; rfl) r (Or.inl rfl)
  | opened => exact hreason.terminateLayer (by rw [hs]; rfl) r (Or.inl rfl)
  | _ => exact hreason

end Inv

/-- What the expiry of a timer does: it gives up when the transmissions are used
up, and else the last packet is sent again. -/
theorem expire_spec {f : Fsm} (htimed : f.state.timed=true) (r : Results) :
    (f.retransmits≤0 ∧ ∃ s : State, s.timed=false ∧ s.negotiated=false ∧
      (f.expire r=f.stopTimer.setState s ∨ f.expire r=(f.stopTimer.setState s).note .finished)) ∨
    (0<f.retransmits ∧ (f.state=.closing ∨ f.state=.stopping) ∧ f.expire r=
      { (f.stopTimer.sendTermReq r).startTimer with retransmits := f.retransmits-1 }) ∨
    (0<f.retransmits ∧ ∃ s : State, (s=.reqSent ∨ s=.ackSent ∧ f.state=.ackSent) ∧
      f.expire r=((f.stopTimer.note .retransmit).sconfreq r true).setState s) := by
  have hstate : ((f.stopTimer.note .retransmit).sconfreq r true).state=f.state :=
    (sconfreq_spec (f.stopTimer.note .retransmit) r true).1
  have hsame : ∀ s, f.state=s → (f.stopTimer.note .retransmit).sconfreq r true=
      ((f.stopTimer.note .retransmit).sconfreq r true).setState s := by
    intro s hs
    rw [← hs,← hstate]
    rfl
  have hstopped : (if f.optPassive=true then f.stopTimer.setState .stopped
      else (f.stopTimer.setState .stopped).note .finished)=f.stopTimer.setState .stopped ∨
      (if f.optPassive=true then f.stopTimer.setState .stopped
      else (f.stopTimer.setState .stopped).note .finished)=
        (f.stopTimer.setState .stopped).note .finished := by
    split_ifs
    · exact Or.inl rfl
    · exact Or.inr rfl
  rw [Fsm.expire,Fsm.timeout,show f.stopTimer.state=f.state from rfl,
    show f.stopTimer.retransmits=f.retransmits from rfl,
    show f.stopTimer.optPassive=f.optPassive from rfl]
  cases hs : f.state with
  | closing =>
    dsimp only
    by_cases hnone : f.retransmits≤0
    · rw [if_pos hnone]
      exact Or.inl ⟨hnone,.closed,rfl,rfl,Or.inr rfl⟩
    · rw [if_neg hnone]
      exact Or.inr (Or.inl ⟨not_le.mp hnone,Or.inl rfl,rfl⟩)
  | stopping =>
    dsimp only
    by_cases hnone : f.retransmits≤0
    · rw [if_pos hnone]
      exact Or.inl ⟨hnone,.stopped,rfl,rfl,Or.inr rfl⟩
    · rw [if_neg hnone]
      exact Or.inr (Or.inl ⟨not_le.mp hnone,Or.inr rfl,rfl⟩)
  | reqSent =>
    dsimp only
    by_cases hnone : f.retransmits≤0
    · rw [if_pos hnone]
      exact Or.inl ⟨hnone,.stopped,rfl,rfl,hstopped⟩
    · rw [if_neg hnone,if_neg (by rw [hstate,hs]; decide)]
      exact Or.inr (Or.inr ⟨not_le.mp hnone,.reqSent,Or.inl rfl,hsame _ hs⟩)
  | ackRcvd =>
    dsimp only
    by_cases hnone : f.retransmits≤0
    · rw [if_pos hnone]
      exact Or.inl ⟨hnone,.stopped,rfl,rfl,hstopped⟩
    · rw [if_neg hnone,if_pos (by rw [hstate,hs])]
      exact Or.inr (Or.inr ⟨not_le.mp hnone,.reqSent,Or.inl rfl,rfl⟩)
  | ackSent =>
    dsimp only
    by_cases hnone : f.retransmits≤0
    · rw [if_pos hnone]
      exact Or.inl ⟨hnone,.stopped,rfl,rfl,hstopped⟩
    · rw [if_neg hnone,if_neg (by rw [hstate,hs]; decide)]
      exact Or.inr (Or.inr ⟨not_le.mp hnone,.ackSent,Or.inr ⟨rfl,rfl⟩,hsame _ hs⟩)
  | _ =>
    rw [hs] at htimed
    cases htimed

namespace Inv

variable {f : Fsm}

theorem timed_of_pending (h : Inv f) (hpending : f.pending≠0) : f.state.timed=true := by
  by_contra hnot
  rw [Bool.not_eq_true] at hnot
  exact hpending (h.pending_of_untimed hnot)

/-- The expiry of the pending timer. -/
theorem expire (h : Inv f) (r : Results) (hpending : f.pending≠0) : Inv (f.expire r) := by
  have htimed := h.timed_of_pending hpending
  obtain ⟨hpend,hlayer⟩ := h.pending_of_timed htimed
  have htransmits := h.transmits htimed
  have hzero : f.stopTimer.pending=0 := by
    change f.pending-1=0
    rw [hpend]
  obtain ⟨-,s,hs,hs',heq⟩ | ⟨hpos,hs,heq⟩ | ⟨hpos,s,hs,heq⟩ := expire_spec htimed r
  · rcases heq with heq | heq
    · rw [heq]
      exact of_idle hs hs' hzero hlayer
    · rw [heq]
      exact of_idle hs hs' hzero hlayer
  · rw [heq]
    refine of_ending hs ?_ hlayer ?_
    · change f.stopTimer.pending+1=1
      rw [hzero]
    · change f.retransmits-1≤f.limit
      omega
  · rw [heq]
    obtain ⟨-,hpend',hunseen,hlimit,hretransmits,hseen⟩ :=
      sconfreq_spec (f.stopTimer.note .retransmit) r true
    refine of_requested ?_ ?_ ?_ ?_ (fun _ => ?_) ?_
    · refine hs.imp_right (fun hs => ⟨hs.1,?_⟩)
      change (seen ((f.stopTimer.note .retransmit).sconfreq r true).log).answered=true
      rw [hseen]
      exact h.answered (Or.inl hs.2)
    · change ((f.stopTimer.note .retransmit).sconfreq r true).pending=1
      rw [hpend']
      exact congrArg (·+1) hzero
    · change (seen ((f.stopTimer.note .retransmit).sconfreq r true).log).layer=some false
      rw [hseen]
      exact hlayer
    · change (seen ((f.stopTimer.note .retransmit).sconfreq r true).log).request=
        some ((f.stopTimer.note .retransmit).sconfreq r true).reqid
      rw [hseen]
    · change (seen ((f.stopTimer.note .retransmit).sconfreq r true).log).nakked=false
      rw [hseen]
    · change ((f.stopTimer.note .retransmit).sconfreq r true).retransmits≤
        ((f.stopTimer.note .retransmit).sconfreq r true).limit
      rw [hretransmits,hlimit,if_pos rfl]
      change f.retransmits-1≤f.limit
      omega

end Inv


/-! ## The packets of the peer -/

/-- What a reply does to the history. -/
theorem seen_reply {log : List Entry} {id : UInt8} (hpeer : (seen log).peerRequest=some id)
    (reply : Reply) (data : List UInt8) : seen (.sent reply.code id data::log)=
      { seen log with answered := (seen log).answered || decide (reply=.ack) } := by
  rw [seen,Seen.read_sent]
  cases reply with
  | ack =>
    rw [if_neg (by decide),if_pos ⟨rfl,hpeer⟩,decide_eq_true rfl,Bool.or_true]
  | nak =>
    rw [if_neg (by decide),if_neg (fun h => absurd h.1 (by decide)),decide_eq_false (by decide),
      Bool.or_false]
  | rej =>
    rw [if_neg (by decide),if_neg (fun h => absurd h.1 (by decide)),decide_eq_false (by decide),
      Bool.or_false]

namespace Inv

variable {f : Fsm}

/-- The last request has been acknowledged by the peer, and the one of the peer by
this side or not at all. -/
theorem of_acked (hstate : f.state=.ackRcvd) (hpending : f.pending=1)
    (hlayer : (seen f.log).layer=some false) (hrequest : (seen f.log).request=some f.reqid)
    (hacked : f.seenAck=true ∧ (seen f.log).acked=true ∧ (seen f.log).nakked=false)
    (htransmits : f.retransmits≤f.limit) : Inv f := by
  refine ⟨?_,?_,fun _ => hrequest,fun _ _ => hacked.2.2,fun _ => hacked,fun h => ?_,
    fun _ => htransmits⟩
  · rw [hstate,hpending]
    rfl
  · rw [hstate,hlayer]
    rfl
  · rw [hstate] at h
    rcases h with h | h
    · cases h
    · cases h

/-- Both requests have been acknowledged. -/
theorem of_opened (hstate : f.state=.opened) (hpending : f.pending=0)
    (hlayer : (seen f.log).layer=some true) (hrequest : (seen f.log).request=some f.reqid)
    (hacked : f.seenAck=true ∧ (seen f.log).acked=true ∧ (seen f.log).nakked=false)
    (hanswered : (seen f.log).answered=true) : Inv f := by
  refine ⟨?_,?_,fun _ => hrequest,fun _ _ => hacked.2.2,fun _ => hacked,fun _ => hanswered,
    fun h => ?_⟩
  · rw [hstate,hpending]
    rfl
  · rw [hstate,hlayer]
    rfl
  · rw [hstate] at h
    cases h

/-- A request of the peer is answered while one of this side is out. -/
theorem answer {id : UInt8} (hpending : f.pending=1) (hlayer : (seen f.log).layer=some false)
    (hrequest : (seen f.log).request=some f.reqid)
    (hunseen : f.seenAck=false → (seen f.log).nakked=false)
    (hacked : f.state=.ackRcvd →
      f.seenAck=true ∧ (seen f.log).acked=true ∧ (seen f.log).nakked=false)
    (hpeer : (seen f.log).peerRequest=some id) (htransmits : f.retransmits≤f.limit)
    (r : Results) (reply : Reply) (data : List UInt8) :
    Inv ((f.sdata r reply.code id data).afterAnswer reply) := by
  have hseen : seen (f.sdata r reply.code id data).log=
      { seen f.log with answered := (seen f.log).answered || decide (reply=.ack) } :=
    seen_reply hpeer reply (data.take (r.peerMru-headerLen))
  unfold Fsm.afterAnswer
  change Inv (if reply=.ack then _ else _)
  by_cases hreply : reply=.ack
  · rw [if_pos hreply]
    by_cases hs : f.state=.ackRcvd
    · rw [if_pos (show (f.sdata r reply.code id data).state=.ackRcvd from hs)]
      refine of_opened rfl ?_ ?_ ?_ ?_ ?_
      · change f.pending-1=0
        rw [hpending]
      · change (if (seen (f.sdata r reply.code id data).log).layer=some false
          then some true else none)=some true
        rw [hseen,if_pos hlayer]
      · change (seen (f.sdata r reply.code id data).log).request=some f.reqid
        rw [hseen]
        exact hrequest
      · change f.seenAck=true ∧ (seen (f.sdata r reply.code id data).log).acked=true ∧
          (seen (f.sdata r reply.code id data).log).nakked=false
        rw [hseen]
        exact hacked hs
      · change (seen (f.sdata r reply.code id data).log).answered=true
        rw [hseen,decide_eq_true hreply,Bool.or_true]
    · rw [if_neg (show (f.sdata r reply.code id data).state≠.ackRcvd from hs)]
      refine of_requested (Or.inr ⟨rfl,?_⟩) hpending ?_ ?_ ?_ htransmits
      · change (seen (f.sdata r reply.code id data).log).answered=true
        rw [hseen,decide_eq_true hreply,Bool.or_true]
      · change (seen (f.sdata r reply.code id data).log).layer=some false
        rw [hseen]
        exact hlayer
      · change (seen (f.sdata r reply.code id data).log).request=some f.reqid
        rw [hseen]
        exact hrequest
      · change f.seenAck=false → (seen (f.sdata r reply.code id data).log).nakked=false
        rw [hseen]
        exact hunseen
  · rw [if_neg hreply]
    by_cases hs : f.state=.ackRcvd
    · rw [if_pos (show (f.sdata r reply.code id data).state=.ackRcvd from hs)]
      refine of_acked hs hpending ?_ ?_ ?_ htransmits
      · change (seen (f.sdata r reply.code id data).log).layer=some false
        rw [hseen]
        exact hlayer
      · change (seen (f.sdata r reply.code id data).log).request=some f.reqid
        rw [hseen]
        exact hrequest
      · change f.seenAck=true ∧ (seen (f.sdata r reply.code id data).log).acked=true ∧
          (seen (f.sdata r reply.code id data).log).nakked=false
        rw [hseen]
        exact hacked hs
    · rw [if_neg (show (f.sdata r reply.code id data).state≠.ackRcvd from hs)]
      refine of_requested (Or.inl rfl) hpending ?_ ?_ ?_ htransmits
      · change (seen (f.sdata r reply.code id data).log).layer=some false
        rw [hseen]
        exact hlayer
      · change (seen (f.sdata r reply.code id data).log).request=some f.reqid
        rw [hseen]
        exact hrequest
      · change f.seenAck=false → (seen (f.sdata r reply.code id data).log).nakked=false
        rw [hseen]
        exact hunseen

/-- A request of the peer that starts a new negotiation. -/
theorem answer_reopened {id : UInt8} (hpending : f.pending=0)
    (hlayer : (seen f.log).layer=some false) (hpeer : (seen f.log).peerRequest=some id)
    (r : Results) (reply : Reply) (data : List UInt8) :
    Inv ((((f.sconfreq r false).setState .reqSent).sdata r reply.code id data).afterAnswer
      reply) := by
  have hreq : Inv ((f.sconfreq r false).setState .reqSent) :=
    sconfreq r hpending hlayer (Or.inl rfl)
  obtain ⟨hpending',hlayer'⟩ := hreq.pending_of_timed rfl
  refine answer hpending' hlayer' (hreq.request rfl) (hreq.unseen rfl)
    (fun h => ?_) ?_ (hreq.transmits rfl) r reply data
  · cases h
  · obtain ⟨-,-,-,-,-,hseen⟩ := sconfreq_spec f r false
    change (seen (f.sconfreq r false).log).peerRequest=some id
    rw [hseen]
    exact hpeer

theorem rconfreq (h : Inv f) (hinitial : f.state≠.initial) (hstarting : f.state≠.starting)
    (r : Results) (id : UInt8) (data : List UInt8) :
    Inv ((f.note (.received confReq id)).rconfreq r id data) := by
  have hanswer : f.state.timed=true → f.state.negotiated=true → ∀ answer : Reply×List UInt8,
      Inv (((f.note (.received confReq id)).sdata r answer.1.code id answer.2).afterAnswer
        answer.1) := by
    intro htimed hneg reply
    obtain ⟨hpending,hlayer⟩ := h.pending_of_timed htimed
    exact @answer (f.note (.received confReq id)) id hpending hlayer (h.request hneg)
      (h.unseen hneg) (fun hs => h.acked (Or.inl hs)) rfl (h.transmits htimed) r reply.1 reply.2
  rw [Fsm.rconfreq,Fsm.reopenForRequest,show (f.note (.received confReq id)).state=f.state from rfl]
  cases hs : f.state with
  | initial => exact absurd hs hinitial
  | starting => exact absurd hs hstarting
  | closed =>
    refine of_idle ?_ ?_ (h.pending_of_untimed (by rw [hs]; rfl))
      (h.layer_of_ne (by rw [hs]; decide))
    · change f.state.timed=false
      rw [hs]
      rfl
    · change f.state.negotiated=false
      rw [hs]
      rfl
  | stopped =>
    exact @answer_reopened (f.note (.received confReq id)) id
      (h.pending_of_untimed (by rw [hs]; rfl)) (h.layer_of_ne (by rw [hs]; decide)) rfl r _ _
  | closing =>
    obtain ⟨hpending,hlayer⟩ := h.pending_of_timed (by rw [hs]; rfl)
    exact of_ending (Or.inl hs) hpending hlayer (h.transmits (by rw [hs]; rfl))
  | stopping =>
    obtain ⟨hpending,hlayer⟩ := h.pending_of_timed (by rw [hs]; rfl)
    exact of_ending (Or.inr hs) hpending hlayer (h.transmits (by rw [hs]; rfl))
  | reqSent => exact hanswer (by rw [hs]; rfl) (by rw [hs]; rfl) _
  | ackRcvd => exact hanswer (by rw [hs]; rfl) (by rw [hs]; rfl) _
  | ackSent => exact hanswer (by rw [hs]; rfl) (by rw [hs]; rfl) _
  | opened =>
    have hdown : (seen ((f.note (.received confReq id)).note .down).log).layer=some false := by
      change (if (seen f.log).layer=some true then some false else none)=some false
      rw [h.layer_of_opened hs,if_pos rfl]
    exact @answer_reopened ((f.note (.received confReq id)).note .down) id
      (h.pending_of_untimed (by rw [hs]; rfl)) hdown rfl r _ _

end Inv


/-- `fsm_sconfreq` leaves the state alone. -/
theorem sconfreq_eq_setState {f : Fsm} (r : Results) {s : State} (hs : f.state=s) :
    f.stopTimer.sconfreq r false=(f.stopTimer.sconfreq r false).setState s := by
  have hstate : (f.stopTimer.sconfreq r false).state=s :=
    (sconfreq_spec f.stopTimer r false).1.trans hs
  rw [← hstate]
  rfl

namespace Inv

variable {f : Fsm}

/-- What the invariant depends on. -/
theorem of_frame (h : Inv f) {g : Fsm} (hstate : g.state=f.state) (hpending : g.pending=f.pending)
    (hretransmits : g.retransmits=f.retransmits) (hlimit : g.limit=f.limit)
    (hlayer : (seen g.log).layer=(seen f.log).layer)
    (hnegotiated : f.state.negotiated=true →
      g.reqid=f.reqid ∧ g.seenAck=f.seenAck ∧ seen g.log=seen f.log) : Inv g := by
  have hackRcvd : g.state=.ackRcvd ∨ g.state=.opened → f.state.negotiated=true := by
    rw [hstate]
    rintro (hs | hs)
    · rw [hs]
      rfl
    · rw [hs]
      rfl
  have hackSent : g.state=.ackSent ∨ g.state=.opened → f.state.negotiated=true := by
    rw [hstate]
    rintro (hs | hs)
    · rw [hs]
      rfl
    · rw [hs]
      rfl
  refine ⟨?_,?_,fun hs => ?_,fun hs => ?_,fun hs => ?_,fun hs => ?_,fun hs => ?_⟩
  · rw [hpending,hstate]
    exact h.timer
  · rw [hlayer,hstate]
    exact h.layer
  · rw [hstate] at hs
    obtain ⟨hreqid,-,hseen⟩ := hnegotiated hs
    rw [hreqid,hseen]
    exact h.request hs
  · rw [hstate] at hs
    obtain ⟨-,hseenAck,hseen⟩ := hnegotiated hs
    rw [hseenAck,hseen]
    exact h.unseen hs
  · obtain ⟨-,hseenAck,hseen⟩ := hnegotiated (hackRcvd hs)
    rw [hstate] at hs
    rw [hseenAck,hseen]
    exact h.acked hs
  · obtain ⟨-,-,hseen⟩ := hnegotiated (hackSent hs)
    rw [hstate] at hs
    rw [hseen]
    exact h.answered hs
  · rw [hstate] at hs
    rw [hretransmits,hlimit]
    exact h.transmits hs

/-- The other packets of this side do not matter. -/
theorem sdata (h : Inv f) (r : Results) {code : UInt8} (hreq : code≠confReq)
    (hack : code≠confAck) (id : UInt8) (data : List UInt8) : Inv (f.sdata r code id data) := by
  have hseen : seen (f.sdata r code id data).log=seen f.log := by
    change (seen f.log).read (.sent code id (data.take (r.peerMru-headerLen)))=seen f.log
    rw [Seen.read_sent,if_neg hreq,if_neg (fun hand => hack hand.1)]
  exact h.of_frame rfl rfl rfl rfl (by rw [hseen]) (fun _ => ⟨rfl,rfl,hseen⟩)

/-- The other packets of the peer do not matter before they are acted on. -/
theorem received (h : Inv f) {code : UInt8} (hreq : code≠confReq) (id : UInt8) :
    Inv (f.note (.received code id)) := by
  have hseen : seen (f.note (.received code id)).log=seen f.log := by
    change (seen f.log).read (.received code id)=seen f.log
    rw [Seen.read_received,if_neg hreq]
  exact h.of_frame rfl rfl rfl rfl (by rw [hseen]) (fun _ => ⟨rfl,rfl,hseen⟩)

/-- A timed state is left for an idle one. -/
theorem stopTimer (h : Inv f) (htimed : f.state.timed=true) {s : State} (hs : s.timed=false)
    (hs' : s.negotiated=false) : Inv (f.stopTimer.setState s) := by
  obtain ⟨hpending,hlayer⟩ := h.pending_of_timed htimed
  refine of_idle hs hs' ?_ hlayer
  change f.pending-1=0
  rw [hpending]

/-- The end of a layer is told. -/
theorem finished (h : Inv f) : Inv (f.note .finished) :=
  h.of_frame rfl rfl rfl rfl rfl (fun _ => ⟨rfl,rfl,rfl⟩)

/-- An opened layer goes down and a new request is sent. -/
theorem renegotiate (h : Inv f) (hs : f.state=.opened) (r : Results) :
    Inv (((f.note .down).sconfreq r false).setState .reqSent) := by
  have hdown : (seen (f.note .down).log).layer=some false := by
    change (if (seen f.log).layer=some true then some false else none)=some false
    rw [h.layer_of_opened hs,if_pos rfl]
  have hpending : (f.note .down).pending=0 := h.pending_of_untimed (by rw [hs]; rfl)
  exact sconfreq r hpending hdown (Or.inl rfl)

/-- A new request is sent in place of the one that is out. -/
theorem requestAgain (h : Inv f) (htimed : f.state.timed=true) (r : Results) {s : State}
    (hs : s=.reqSent ∨ s=.ackSent ∧ (seen f.log).answered=true) :
    Inv ((f.stopTimer.sconfreq r false).setState s) := by
  obtain ⟨hpending,hlayer⟩ := h.pending_of_timed htimed
  have hzero : f.stopTimer.pending=0 := by
    change f.pending-1=0
    rw [hpending]
  exact sconfreq r hzero hlayer hs

/-- An answer of the peer is forgotten. -/
theorem forget (h : Inv f) (htimed : f.state.timed=true) (hneg : f.state.negotiated=true) :
    Inv (f.setState .reqSent) := by
  obtain ⟨hpending,hlayer⟩ := h.pending_of_timed htimed
  exact of_requested (Or.inl rfl) hpending hlayer (h.request hneg) (h.unseen hneg)
    (h.transmits htimed)

theorem rconfack (h : Inv f) (r : Results) (id : UInt8) (data : List UInt8) :
    Inv (f.rconfack r id data) := by
  unfold Fsm.rconfack
  by_cases hignored : id≠f.reqid ∨ f.seenAck=true
  · rw [if_pos hignored]
    exact h
  rw [if_neg hignored]
  obtain ⟨hid,hunseen⟩ := not_or.mp hignored
  rw [not_not] at hid
  rw [Bool.not_eq_true] at hunseen
  by_cases haccepted : (if f.callbacks.ackci=true then r.ackci else data.isEmpty)=true
  swap
  · rw [if_neg haccepted]
    exact h
  rw [if_pos haccepted]
  have hidle : f.state.negotiated=false →
      Inv { f.note (.acked id) with seenAck := true, rnakloops := 0 } := by
    intro hneg
    refine h.of_frame rfl rfl rfl rfl rfl (fun h => ?_)
    rw [hneg] at h
    cases h
  have hacked : f.state.negotiated=true →
      (seen (f.note (.acked id)).log).acked=true ∧
        (seen (f.note (.acked id)).log).nakked=false := by
    intro hneg
    refine ⟨?_,h.unseen hneg hunseen⟩
    change ((seen f.log).acked || (seen f.log).request==some id)=true
    rw [h.request hneg,hid,beq_self_eq_true,Bool.or_true]
  have hunacked : f.state≠.ackRcvd ∧ f.state≠.opened := by
    rw [← not_or]
    intro hs
    rw [(h.acked hs).1] at hunseen
    cases hunseen
  rw [Fsm.afterAck,show ({ f.note (.acked id) with seenAck := true, rnakloops := 0 } : Fsm).state=
    f.state from rfl]
  cases hs : f.state with
  | closed =>
    exact (hidle (by rw [hs]; rfl)).sdata r (by decide) (by decide) id []
  | stopped =>
    exact (hidle (by rw [hs]; rfl)).sdata r (by decide) (by decide) id []
  | reqSent =>
    obtain ⟨hpending,hlayer⟩ := h.pending_of_timed (by rw [hs]; rfl)
    exact of_acked rfl hpending hlayer (h.request (by rw [hs]; rfl))
      ⟨rfl,hacked (by rw [hs]; rfl)⟩ (maxconf_le_limit f)
  | ackRcvd => exact absurd hs hunacked.1
  | ackSent =>
    obtain ⟨hpending,hlayer⟩ := h.pending_of_timed (by rw [hs]; rfl)
    refine of_opened rfl ?_ ?_ (h.request (by rw [hs]; rfl)) ⟨rfl,hacked (by rw [hs]; rfl)⟩
      (h.answered (Or.inl hs))
    · change f.pending-1=0
      rw [hpending]
    · change (if (seen f.log).layer=some false then some true else none)=some true
      rw [if_pos hlayer]
  | opened => exact absurd hs hunacked.2
  | _ => exact hidle (by rw [hs]; rfl)

theorem rconfnakrej (h : Inv f) (r : Results) (code id : UInt8) :
    Inv (f.rconfnakrej r code id) := by
  unfold Fsm.rconfnakrej
  by_cases hignored : id≠f.reqid ∨ f.seenAck=true
  · rw [if_pos hignored]
    exact h
  rw [if_neg hignored]
  obtain ⟨-,hunseen⟩ := not_or.mp hignored
  have hcount : Inv (f.countNak code) := h.of_frame rfl rfl rfl rfl rfl (fun _ => ⟨rfl,rfl,rfl⟩)
  have hstate : (f.countNak code).state=f.state := rfl
  have hunacked : f.state≠.ackRcvd ∧ f.state≠.opened := by
    rw [← not_or]
    exact fun hs => hunseen (h.acked hs).1
  generalize f.countNak code=g at hcount hstate
  dsimp only
  by_cases hbad : g.judgeNakRej r code=0
  · rw [if_pos hbad]
    exact hcount
  rw [if_neg hbad]
  rw [← hstate] at hunacked
  have hnakked : Inv { g.note (.nakked code id) with seenAck := true } := by
    refine ⟨hcount.timer,hcount.layer,hcount.request,fun _ hseen => ?_,fun hs => ?_,
      hcount.answered,hcount.transmits⟩
    · cases hseen
    · exact absurd hs (not_or.mpr hunacked)
  have hs' : ({ g.note (.nakked code id) with seenAck := true } : Fsm).state=g.state := rfl
  have hanswered : g.state=.ackSent →
      (seen ({ g.note (.nakked code id) with seenAck := true } : Fsm).log).answered=true :=
    fun hs => hcount.answered (Or.inl hs)
  generalize ({ g.note (.nakked code id) with seenAck := true } : Fsm)=g' at hnakked hs' hanswered
  rw [Fsm.afterNakRej]
  cases hs : g'.state with
  | closed => exact hnakked.sdata r (by decide) (by decide) id []
  | stopped => exact hnakked.sdata r (by decide) (by decide) id []
  | reqSent =>
    dsimp only
    split_ifs
    · exact hnakked.stopTimer (by rw [hs]; rfl) rfl rfl
    · rw [sconfreq_eq_setState r hs]
      exact hnakked.requestAgain (by rw [hs]; rfl) r (Or.inl rfl)
  | ackRcvd => exact absurd (hs'.symm.trans hs) hunacked.1
  | ackSent =>
    dsimp only
    split_ifs
    · exact hnakked.stopTimer (by rw [hs]; rfl) rfl rfl
    · rw [sconfreq_eq_setState r hs]
      exact hnakked.requestAgain (by rw [hs]; rfl) r
        (Or.inr ⟨rfl,hanswered (hs'.symm.trans hs)⟩)
  | opened => exact absurd (hs'.symm.trans hs) hunacked.2
  | _ => exact hnakked

theorem rtermreq (h : Inv f) (r : Results) (id : UInt8) : Inv (f.rtermreq r id) := by
  have hafter : Inv f.afterTermReq := by
    unfold Fsm.afterTermReq
    cases hs : f.state with
    | ackRcvd => exact h.forget (by rw [hs]; rfl) (by rw [hs]; rfl)
    | ackSent => exact h.forget (by rw [hs]; rfl) (by rw [hs]; rfl)
    | opened =>
      refine of_ending (Or.inr rfl) ?_ ?_ (le_max_left 0 _)
      · change f.pending+1=1
        rw [h.pending_of_untimed (by rw [hs]; rfl)]
      · change (if (seen f.log).layer=some true then some false else none)=some false
        rw [h.layer_of_opened hs,if_pos rfl]
    | _ => exact h
  exact hafter.sdata r (by decide) (by decide) id []

theorem rtermack (h : Inv f) (r : Results) : Inv (f.rtermack r) := by
  unfold Fsm.rtermack
  cases hs : f.state with
  | closing => exact (h.stopTimer (by rw [hs]; rfl) rfl rfl).finished
  | stopping => exact (h.stopTimer (by rw [hs]; rfl) rfl rfl).finished
  | ackRcvd => exact h.forget (by rw [hs]; rfl) (by rw [hs]; rfl)
  | opened => exact h.renegotiate hs r
  | _ => exact h

theorem rcoderej (h : Inv f) (data : List UInt8) : Inv (f.rcoderej data) := by
  unfold Fsm.rcoderej
  split_ifs with hshort hs
  · exact h
  · exact h.forget (by rw [hs]; rfl) (by rw [hs]; rfl)
  · exact h

theorem protreject (h : Inv f) (r : Results) : Inv (f.protreject r) := by
  unfold Fsm.protreject
  have hidle : f.state.timed=false → f.state≠.opened → ∀ s : State, s.timed=false →
      s.negotiated=false → Inv ((f.setState s).note .finished) := by
    intro huntimed hne s hs hs'
    exact of_idle hs hs' (h.pending_of_untimed huntimed) (h.layer_of_ne hne)
  cases hs : f.state with
  | closing => exact (h.stopTimer (by rw [hs]; rfl) rfl rfl).finished
  | closed => exact hidle (by rw [hs]; rfl) (by rw [hs]; decide) _ rfl rfl
  | stopping => exact (h.stopTimer (by rw [hs]; rfl) rfl rfl).finished
  | reqSent => exact (h.stopTimer (by rw [hs]; rfl) rfl rfl).finished
  | ackRcvd => exact (h.stopTimer (by rw [hs]; rfl) rfl rfl).finished
  | ackSent => exact (h.stopTimer (by rw [hs]; rfl) rfl rfl).finished
  | stopped => exact hidle (by rw [hs]; rfl) (by rw [hs]; decide) _ rfl rfl
  | opened => exact h.terminateLayer (by rw [hs]; rfl) r (Or.inr rfl)
  | _ => exact h

theorem rextcode (h : Inv f) (r : Results) (packet : List UInt8) : Inv (f.rextcode r packet) := by
  unfold Fsm.rextcode
  split_ifs
  · exact h
  · have hid : Inv { f with id := f.id+1 } :=
      h.of_frame rfl rfl rfl rfl rfl (fun _ => ⟨rfl,rfl,rfl⟩)
    exact hid.sdata r (by decide) (by decide) (f.id+1) packet

theorem input (h : Inv f) (r : Results) (packet : List UInt8) : Inv (f.input r packet) := by
  unfold Fsm.input
  split
  · rename_i code id high low rest
    dsimp only
    split_ifs with hlen hlistens
    · exact h
    · exact h
    · obtain ⟨hinitial,hstarting⟩ := not_or.mp hlistens
      unfold Fsm.dispatch
      by_cases hreq : code=confReq
      · rw [if_pos hreq,hreq]
        exact h.rconfreq hinitial hstarting r id _
      · have hreceived : Inv (f.note (.received code id)) := h.received hreq id
        rw [if_neg hreq]
        split_ifs
        · exact hreceived.rconfack r id _
        · exact hreceived.rconfnakrej r code id
        · exact hreceived.rtermreq r id
        · exact hreceived.rtermack r
        · exact hreceived.rcoderej _
        · exact hreceived.rextcode r _
  · exact h

/-- Every event keeps the invariant. -/
theorem step (h : Inv f) {event : Event×Results} {f' : Fsm} (hstep : step f event=some f') :
    Inv f' := by
  obtain ⟨event,r⟩ := event
  unfold PppFsm.step at hstep
  cases event with
  | lowerup => exact Option.some.inj hstep ▸ h.lowerup r
  | lowerdown => exact Option.some.inj hstep ▸ h.lowerdown
  | openLayer => exact Option.some.inj hstep ▸ h.fsmOpen r
  | close reason => exact Option.some.inj hstep ▸ h.close r reason
  | expire =>
    dsimp only at hstep
    split_ifs at hstep with hnone
    exact Option.some.inj hstep ▸ h.expire r hnone
  | input packet => exact Option.some.inj hstep ▸ h.input r packet
  | protreject => exact Option.some.inj hstep ▸ h.protreject r
  | setFlags passive restart silent =>
    rw [← Option.some.inj hstep]
    exact h.of_frame rfl rfl rfl rfl rfl (fun _ => ⟨rfl,rfl,rfl⟩)

theorem init (callbacks : Callbacks) (maxconfreqtransmits maxtermtransmits : ℤ) :
    Inv (Fsm.init callbacks maxconfreqtransmits maxtermtransmits) :=
  of_idle rfl rfl rfl rfl

end Inv


/-! ## Runs -/

/-- A run of the automaton. -/
def run (f : Fsm) (events : List (Event×Results)) : Option Fsm :=
  TransitionSystem.runActions step (fun _ _ => true) f events

theorem Inv.run {f f' : Fsm} (h : Inv f) {events : List (Event×Results)}
    (hrun : PppFsm.run f events=some f') : Inv f' := by
  have hreachable := TransitionSystem.reachable_of_runActions TransitionSystem.Reachable.start hrun
  exact hreachable.invariant h (fun _ _ _ _ hinv _ hstep => hinv.step hstep)

/-- An opened layer ignores what answers an old request. -/
theorem input_of_opened {f : Fsm} (hseen : f.seenAck=true) (r : Results) {code : UInt8}
    (hcode : code=confAck ∨ code=confNak ∨ code=confRej) (id : UInt8) (rest : List UInt8) :
    f.input r (code::id::rest)=f ∨ f.input r (code::id::rest)=f.note (.received code id) := by
  have hack : ∀ data, (f.note (.received code id)).rconfack r id data=
      f.note (.received code id) := fun data => if_pos (Or.inr hseen)
  have hnak : (f.note (.received code id)).rconfnakrej r code id=
      f.note (.received code id) := if_pos (Or.inr hseen)
  have hdispatch : ∀ data packet, (f.note (.received code id)).dispatch r code id data packet=
      f.note (.received code id) := by
    intro data packet
    unfold Fsm.dispatch
    rcases hcode with hcode | hcode | hcode
    · rw [if_neg (by rw [hcode]; decide),if_pos hcode]
      exact hack data
    · rw [if_neg (by rw [hcode]; decide),if_neg (by rw [hcode]; decide),if_pos (Or.inl hcode)]
      exact hnak
    · rw [if_neg (by rw [hcode]; decide),if_neg (by rw [hcode]; decide),if_pos (Or.inr hcode)]
      exact hnak
  unfold Fsm.input
  split
  · rename_i code' id' high low rest' heq
    obtain ⟨rfl,rfl,-⟩ := List.cons_eq_cons.mp heq |>.imp_right List.cons_eq_cons.mp
    dsimp only
    split_ifs
    · exact Or.inl rfl
    · exact Or.inl rfl
    · exact Or.inr (hdispatch _ _)
  · exact Or.inl rfl

/-- In every run from `fsm_init` an opened layer rests on an agreement. Since the
last CONFREQ was sent, the peer's CONFACK for it was accepted and no CONFNAK or
CONFREJ was acted on; the last CONFREQ of the peer was answered with a CONFACK; and
no further CONFACK, CONFNAK or CONFREJ changes the automaton. -/
theorem agreement_of_opened {callbacks : Callbacks} {maxconfreqtransmits maxtermtransmits : ℤ}
    {events : List (Event×Results)} {f : Fsm}
    (hrun : run (Fsm.init callbacks maxconfreqtransmits maxtermtransmits) events=some f)
    (hs : f.state=.opened) :
    (∃ recent data older, f.log=recent++.sent confReq f.reqid data::older ∧
      (∀ id data', .sent confReq id data'∉recent) ∧ .acked f.reqid∈recent ∧
      ∀ code id, .nakked code id∉recent) ∧
    (∃ recent id older, f.log=recent++.received confReq id::older ∧
      (∀ id', .received confReq id'∉recent) ∧ ∃ data, .sent confAck id data∈recent) ∧
    f.seenAck=true ∧
    ∀ r code id rest, code=confAck ∨ code=confNak ∨ code=confRej →
      f.input r (code::id::rest)=f ∨ f.input r (code::id::rest)=f.note (.received code id) := by
  have hinv : Inv f := (Inv.init callbacks maxconfreqtransmits maxtermtransmits).run hrun
  obtain ⟨hseenAck,hacked,hnakked⟩ := hinv.acked (Or.inr hs)
  have hanswered := hinv.answered (Or.inr hs)
  have hrequest := hinv.request (by rw [hs]; rfl)
  refine ⟨?_,?_,hseenAck,fun r code id rest hcode => input_of_opened hseenAck r hcode id rest⟩
  · obtain ⟨recent,data,older,hlog,hnone,hnoNak,hin⟩ := exists_of_request hrequest hnakked
    exact ⟨recent,data,older,hlog,hnone,hin hacked,hnoNak⟩
  · obtain ⟨id,hpeer⟩ := peerRequest_of_answered hanswered
    obtain ⟨recent,older,hlog,hnone,hin⟩ := exists_of_peerRequest hpeer
    exact ⟨recent,id,older,hlog,hnone,hin hanswered⟩

/-- No callback with a result is set. -/
def noCallbacks : Callbacks := ⟨false,false,false,false,false,false⟩

/-- The results of callbacks that are not set. -/
def noResults : Results := ⟨1500,[],false,0,0,(.ack,[]),false⟩

/-- The layer is opened, the request with id 1 is acknowledged, and the request of
the peer with id 7 comes. -/
def openingEvents : List (Event×Results) :=
  [(.openLayer,noResults),(.lowerup,noResults),(.input [2,1,0,4],noResults),
    (.input [1,7,0,4],noResults)]

theorem exists_run_opened : ∃ f, run (Fsm.init noCallbacks 10 2) openingEvents=some f ∧
    f.state=.opened :=
  ⟨_,rfl,rfl⟩

theorem agreement_of_opened_opening : ∃ f, run (Fsm.init noCallbacks 10 2) openingEvents=some f ∧
    f.state=.opened ∧ f.seenAck=true := by
  obtain ⟨f,hrun,hs⟩ := exists_run_opened
  exact ⟨f,hrun,hs,(agreement_of_opened hrun hs).2.2.1⟩

/-! ## Expiries -/

/-- An expiry ends the timers or uses up a transmission. -/
theorem expire_cases {f : Fsm} (h : Inv f) (hpending : f.pending≠0) (r : Results) :
    (f.expire r).pending=0 ∨ 0<f.retransmits ∧ (f.expire r).retransmits=f.retransmits-1 := by
  have htimed := h.timed_of_pending hpending
  obtain ⟨hpend,-⟩ := h.pending_of_timed htimed
  obtain ⟨-,s,-,-,heq⟩ | ⟨hpos,-,heq⟩ | ⟨hpos,s,-,heq⟩ := expire_spec htimed r
  · refine Or.inl ?_
    have hzero : f.pending-1=0 := by rw [hpend]
    rcases heq with heq | heq
    · rw [heq]
      exact hzero
    · rw [heq]
      exact hzero
  · rw [heq]
    exact Or.inr ⟨hpos,rfl⟩
  · refine Or.inr ⟨hpos,?_⟩
    obtain ⟨-,-,-,-,hretransmits,-⟩ := sconfreq_spec (f.stopTimer.note .retransmit) r true
    rw [heq]
    exact hretransmits

/-- Expiries alone end the timers before the transmissions are used up twice. -/
theorem exists_expiries {n : ℕ} {f : Fsm} (h : Inv f) (htransmits : f.pending≠0 → f.retransmits≤n)
    {results : List Results} (hlength : results.length=n+1) :
    ∃ k ≤ n+1, ∃ g, run f ((results.take k).map fun r => (Event.expire,r))=some g ∧
      g.pending=0 := by
  induction n generalizing f results with
  | zero =>
    by_cases hpending : f.pending=0
    · exact ⟨0,Nat.zero_le _,f,rfl,hpending⟩
    · obtain ⟨r,rfl⟩ := List.length_eq_one_iff.mp hlength
      refine ⟨1,le_rfl,f.expire r,?_,?_⟩
      · change (step f (.expire,r)).bind _=_
        rw [show step f (.expire,r)=some (f.expire r) from if_neg hpending]
        rfl
      · refine (expire_cases h hpending r).resolve_right (fun hpos => ?_)
        have hle := htransmits hpending
        have hlt := hpos.1
        rw [Nat.cast_zero] at hle
        omega
  | succ n ih =>
    by_cases hpending : f.pending=0
    · exact ⟨0,Nat.zero_le _,f,rfl,hpending⟩
    · obtain ⟨r,rest,rfl⟩ := List.exists_cons_of_length_eq_add_one hlength
      have hstep : step f (.expire,r)=some (f.expire r) := if_neg hpending
      have hrest : (f.expire r).pending≠0 → (f.expire r).retransmits≤n := by
        intro hpend
        have hpos := (expire_cases h hpending r).resolve_left hpend
        have hle := htransmits hpending
        rw [Nat.cast_succ] at hle
        omega
      rw [List.length_cons,Nat.add_right_cancel_iff] at hlength
      obtain ⟨k,hk,g,hrun,hzero⟩ := ih (h.step hstep) hrest hlength
      refine ⟨k+1,Nat.succ_le_succ hk,g,?_,hzero⟩
      change (step f (.expire,r)).bind _=_
      rw [hstep]
      exact hrun

/-- In every run from `fsm_init` one `fsm_timeout` is pending in the states that wait
for the peer and none in the others; `up` and `down` are called in turn, `up` first
and last exactly if the layer is opened; and from any state expiries alone, whatever
the callbacks return, lead to a state without a pending timer. -/
theorem timers_and_layers {callbacks : Callbacks} {maxconfreqtransmits maxtermtransmits : ℤ}
    {events : List (Event×Results)} {f : Fsm}
    (hrun : run (Fsm.init callbacks maxconfreqtransmits maxtermtransmits) events=some f) :
    (f.pending=if f.state=.closing ∨ f.state=.stopping ∨ f.state=.reqSent ∨ f.state=.ackRcvd ∨
      f.state=.ackSent then 1 else 0) ∧
    (layerCalls f.log).IsChain (· ≠ ·) ∧ (layerCalls f.log).getLast?≠some false ∧
    ((layerCalls f.log).head?=some true ↔ f.state=.opened) ∧
    ∀ results : List Results,
      results.length=(max f.maxconfreqtransmits f.maxtermtransmits).toNat+1 →
      ∃ k ≤ (max f.maxconfreqtransmits f.maxtermtransmits).toNat+1, ∃ g,
        run f ((results.take k).map fun r => (Event.expire,r))=some g ∧ g.pending=0 := by
  have hinv : Inv f := (Inv.init callbacks maxconfreqtransmits maxtermtransmits).run hrun
  obtain ⟨hchain,hfirst,hlast⟩ := layerCalls_alternate hinv.layer
  refine ⟨?_,hchain,hfirst,?_,fun results hlength => ?_⟩
  · rw [hinv.timer]
    cases f.state with
    | _ => rfl
  · rw [hlast]
    exact decide_eq_true_iff
  · refine exists_expiries hinv (fun hpending => ?_) hlength
    have hle := hinv.transmits (hinv.timed_of_pending hpending)
    unfold Fsm.limit at hle
    rw [max_comm,← Int.toNat_eq_max] at hle
    exact hle

theorem timers_and_layers_opening : ∃ f, run (Fsm.init noCallbacks 10 2) openingEvents=some f ∧
    f.pending=0 ∧ layerCalls f.log=[true] := by
  obtain ⟨f,hrun,hs⟩ := exists_run_opened
  have htimer := (timers_and_layers hrun).1
  rw [hs,if_neg (by decide)] at htimer
  refine ⟨f,hrun,htimer,?_⟩
  cases hrun
  rfl

end AndroidPlatform.PppFsm
