import AndroidPlatform.DhcpReplyEncoding

/-!
# The first option of each code is found in the finished reply

The history of a sequence of calls agrees with the contents of the areas. When the
packet is finished, looking for a code gives the option that was put first, if no
option was put into an area that is searched before the one where an option of the
same code stood already.
-/

namespace AndroidPlatform.DhcpReplyOptions

open TaggedFields

/-! ## The history -/

/-- The option that an event is about. -/
def Event.field : Event → Option Field
  | .wrote _ => none
  | .placed f => some f

/-- The options that were placed, the oldest first. -/
def placed (log : List Event) : List Field := log.reverse.filterMap Event.field

/-- A write does not touch an option that was placed before. -/
def Event.Apart : Event → Event → Prop
  | .wrote p,.placed f => p < f.start ∨ f.stop≤p
  | _,_ => True

/-- Two options of the same code, the older one first: the areas are used in the order
in which they are searched. -/
def InOrder (f g : Field) : Prop :=
  f.tag=g.tag → (optionsAt≤g.start → optionsAt≤f.start) ∧
    (Spare.file.start≤g.start → Spare.file.start≤f.start)

theorem placed_append (first second : List Event) :
    placed (first++second)=placed second++placed first := by
  rw [placed,List.reverse_append,List.filterMap_append]
  rfl

theorem placed_cons (f : Field) (log : List Event) :
    placed (.placed f::log)=placed log++[f] := placed_append [.placed f] log

theorem mem_placed {log : List Event} {f : Field} : f∈placed log ↔ .placed f∈log := by
  rw [placed,List.mem_filterMap]
  constructor
  · rintro ⟨event,hevent,hfield⟩
    cases event with
    | wrote p => cases hfield
    | placed g =>
      obtain rfl := Option.some.inj hfield
      exact List.mem_reverse.mp hevent
  · intro h
    exact ⟨.placed f,List.mem_reverse.mpr h,rfl⟩

/-- Writes alone place no option. -/
theorem Writes.placed_eq {limit : ℕ} {c : Contents} {m m' : Mess} (h : Writes limit c m m') :
    placed m'.log=placed m.log := by
  obtain ⟨-,-,news,hlog,hnews⟩ := h
  have hnone : placed news=[] := by
    refine List.eq_nil_iff_forall_not_mem.mpr (fun f hf => ?_)
    obtain ⟨p,heq,-⟩ := hnews _ (mem_placed.mp hf)
    cases heq
  rw [hlog,placed_append,hnone,List.append_nil]

theorem filter_snoc_of_pos {p : Field → Prop} [DecidablePred p] {fields : List Field} {f : Field}
    (h : p f) : (fields++[f]).filter (fun g => p g)=fields.filter (fun g => p g)++[f] := by
  rw [List.filter_append,List.filter_singleton,decide_eq_true h]
  rfl

theorem filter_snoc_of_neg {p : Field → Prop} [DecidablePred p] {fields : List Field} {f : Field}
    (h : ¬p f) : (fields++[f]).filter (fun g => p g)=fields.filter (fun g => p g) := by
  rw [List.filter_append,List.filter_singleton,decide_eq_false h]
  exact List.append_nil _

/-- The history agrees with the contents of the areas. -/
structure Record (limit : ℕ) (c : Contents) (log : List Event) : Prop where
  main : (placed log).filter (fun f => optionsAt≤f.start)=c.before++c.after
  spare : ∀ k : Spare,
    (placed log).filter (fun f => k.start≤f.start ∧ f.start < k.limit)=c.fields k
  inside : ∀ p, .wrote p∈log → Inside limit p
  apart : log.Pairwise Event.Apart
  order : (placed log).Pairwise InOrder
  has : ∀ f∈placed log, c.Has f

namespace Record

variable {limit : ℕ} {c c' : Contents} {m m' : Mess} {free : Spare → Bool} {room : ℕ}

theorem writes (h : Record limit c m.log) (hw : Writes limit c m m') :
    Record limit c m'.log := by
  have hplaced := hw.placed_eq
  obtain ⟨-,-,news,hlog,hnews⟩ := hw
  refine ⟨by rw [hplaced]; exact h.main,by rw [hplaced]; exact h.spare,fun p hp => ?_,?_,
    by rw [hplaced]; exact h.order,by rw [hplaced]; exact h.has⟩
  · rw [hlog] at hp
    rcases List.mem_append.mp hp with hp | hp
    · obtain ⟨q,heq,hin,-⟩ := hnews _ hp
      cases heq
      exact hin
    · exact h.inside p hp
  · rw [hlog]
    refine List.pairwise_append.mpr ⟨?_,h.apart,fun event hevent older holder => ?_⟩
    · refine List.pairwise_of_forall_mem_list (fun event hevent older holder => ?_)
      obtain ⟨p,rfl,-⟩ := hnews event hevent
      obtain ⟨q,rfl,-⟩ := hnews older holder
      trivial
    · obtain ⟨p,rfl,-,hclear⟩ := hnews event hevent
      cases older with
      | wrote q => trivial
      | placed f => exact hclear f (h.has f (mem_placed.mpr holder))

theorem same (h : Record limit c m.log) (hsame : c.Same c') : Record limit c' m.log := by
  refine ⟨?_,?_,h.inside,h.apart,h.order,fun f hf => (hsame.has f).mpr (h.has f hf)⟩
  · rw [hsame.before,hsame.after]
    exact h.main
  · rw [hsame.fields]
    exact h.spare

/-- A field is added. It stands where its area ends. -/
theorem added {f : Field} (h : Record limit c m.log) (hadds : Adds free room c f c')
    (hmain : optionsAt≤c.mainEnd)
    (hspare : ∀ k, c.target free f.data.length=some k → k.start≤c.stop k ∧ c.stop k < k.limit)
    (horder : ∀ g∈placed m.log, InOrder g f) : Record limit c' (m.note f).log := by
  have hapart : (m.note f).log.Pairwise Event.Apart :=
    List.pairwise_cons.mpr ⟨fun older _ => by trivial,h.apart⟩
  have horder' : (placed (m.note f).log).Pairwise InOrder := by
    rw [show (m.note f).log=.placed f::m.log from rfl,placed_cons]
    refine List.pairwise_append.mpr ⟨h.order,List.pairwise_singleton _ _,fun g hg f' hf' => ?_⟩
    rw [List.mem_singleton.mp hf']
    exact horder g hg
  have hinside : ∀ p, .wrote p∈(m.note f).log → Inside limit p := by
    intro p hp
    rcases List.mem_cons.mp hp with heq | hp
    · cases heq
    · exact h.inside p hp
  have hlog : placed (m.note f).log=placed m.log++[f] := placed_cons f m.log
  have h240 : optionsAt=240 := rfl
  cases hadds with
  | main hroom hstart hlist hfields =>
    refine ⟨?_,fun k => ?_,hinside,hapart,horder',fun g hg => ?_⟩
    · rw [hlog,filter_snoc_of_pos (by omega),h.main,hlist]
    · have hlimit := k.limit_le
      rw [hlog,filter_snoc_of_neg (by omega),h.spare,hfields]
    · have hmem : ∀ g, g∈c'.before++c'.after → c'.Has g := by
        intro g hg
        rcases List.mem_append.mp hg with hg | hg
        · exact Or.inl hg
        · exact Or.inr (Or.inl hg)
      rw [hlog] at hg
      rcases List.mem_append.mp hg with hg | hg
      · rcases h.has g hg with hg | hg | ⟨k,hg⟩
        · exact hmem g (by rw [hlist]; exact List.mem_append_left _ (List.mem_append_left _ hg))
        · exact hmem g (by rw [hlist]; exact List.mem_append_left _ (List.mem_append_right _ hg))
        · exact Or.inr (Or.inr ⟨k,by rw [hfields]; exact hg⟩)
      · exact hmem g (by rw [hlist]; exact List.mem_append_right _ hg)
  | @spare k hroom htarget hstart hbefore hafter hfields =>
    obtain ⟨hle,hlt⟩ := hspare k htarget
    have hlimit := k.limit_le
    refine ⟨?_,fun k' => ?_,hinside,hapart,horder',fun g hg => ?_⟩
    · rw [hlog,filter_snoc_of_neg (by omega),h.main,hbefore,hafter]
    · rw [hlog,hfields]
      by_cases hk : k'=k
      · subst hk
        rw [filter_snoc_of_pos ⟨by omega,by omega⟩,h.spare,Function.update_self]
      · rw [filter_snoc_of_neg (fun hin => hk (Spare.eq_of_start hin ⟨by omega,by omega⟩)),
          h.spare,Function.update_of_ne hk]
    · have hmem : ∀ k' g, g∈c.fields k' → c'.Has g := by
        intro k' g hg
        refine Or.inr (Or.inr ⟨k',?_⟩)
        rw [hfields]
        by_cases hk : k'=k
        · subst hk
          rw [Function.update_self]
          exact List.mem_append_left _ hg
        · rw [Function.update_of_ne hk]
          exact hg
      rw [hlog] at hg
      rcases List.mem_append.mp hg with hg | hg
      · rcases h.has g hg with hg | hg | ⟨k',hg⟩
        · exact Or.inl (by rw [hbefore]; exact hg)
        · exact Or.inr (Or.inl (by rw [hafter]; exact hg))
        · exact hmem k' g hg
      · refine Or.inr (Or.inr ⟨k,?_⟩)
        rw [hfields,Function.update_self]
        exact List.mem_append_right _ hg

end Record

/-! ## Sequences of calls -/

/-- What `free_space` is asked for, and the data that are written then. -/
structure Request where
  opt : UInt8
  len : ℕ
  data : List UInt8

/-- The requests that `do_encap_opts` makes. -/
def encapRequests (encap : UInt8) (flag : ℕ) (nullTerm : Bool) :
    List DhcpOpt → ℕ → List DhcpOpt → List Request
  | chunk,encLen,[] =>
    if encLen≠0 then [⟨encap,encLen+1,encapBytes chunk flag nullTerm++[optionEnd]⟩] else []
  | chunk,encLen,opt::rest =>
    if opt.flags &&& flag≠0 then
      let new := (opt.doOpt nullTerm).length+2
      if encLen+new≤255 then
        encapRequests encap flag nullTerm (chunk++[opt]) (encLen+new) rest
      else
        ⟨encap,encLen,encapBytes chunk flag nullTerm⟩::
          encapRequests encap flag nullTerm [opt] new rest
    else encapRequests encap flag nullTerm (chunk++[opt]) encLen rest

/-- The requests of a call. -/
def Call.requests : Call → List Request
  | .optionPut opt len val => [⟨opt,len,Mess.valBytes len val⟩]
  | .optionPutString opt string nullTerm =>
    [⟨opt,(terminated string nullTerm).length,terminated string nullTerm⟩]
  | .doEncapOpts opts encap flag nullTerm => encapRequests encap flag nullTerm [] 0 opts

/-- The code of the option that a call puts. -/
def Call.code : Call → UInt8
  | .optionPut opt _ _ => opt
  | .optionPutString opt _ _ => opt
  | .doEncapOpts _ encap _ _ => encap

/-- The options of a list of requests are put. -/
def Mess.putAll (room : ℕ) : Mess → List Request → Option Mess
  | m,[] => some m
  | m,r::requests =>
    (m.putOption room r.opt r.len r.data).bind fun m => Mess.putAll room m requests

theorem putAll_append (room : ℕ) (m : Mess) (first second : List Request) :
    Mess.putAll room m (first++second)=
      (Mess.putAll room m first).bind fun m => Mess.putAll room m second := by
  induction first generalizing m with
  | nil => rfl
  | cons r first ih =>
    rw [List.cons_append,Mess.putAll,Mess.putAll,Option.bind_assoc]
    exact congrArg _ (funext (fun m => ih m))

theorem putAll_singleton (room : ℕ) (m : Mess) (opt : UInt8) (len : ℕ) (data : List UInt8) :
    Mess.putAll room m [⟨opt,len,data⟩]=m.putOption room opt len data := by
  rw [Mess.putAll]
  cases m.putOption room opt len data with
  | none => rfl
  | some m => rfl

theorem encapLoop_eq (room : ℕ) (encap : UInt8) (flag : ℕ) (nullTerm : Bool) (m : Mess)
    (chunk : List DhcpOpt) (encLen : ℕ) (rest : List DhcpOpt) :
    ((Mess.encapLoop room encap flag nullTerm m chunk encLen rest).bind fun (m,chunk,encLen) =>
      if encLen≠0 then
        m.putOption room encap (encLen+1) (encapBytes chunk flag nullTerm++[optionEnd])
      else some m)=
    Mess.putAll room m (encapRequests encap flag nullTerm chunk encLen rest) := by
  induction rest generalizing m chunk encLen with
  | nil =>
    rw [Mess.encapLoop,Option.bind_some,encapRequests]
    by_cases hlen : encLen≠0
    · simp only [if_pos hlen]
      exact (putAll_singleton room m _ _ _).symm
    · simp only [if_neg hlen]
      rfl
  | cons opt rest ih =>
    rw [Mess.encapLoop,encapRequests]
    by_cases hflag : opt.flags &&& flag≠0
    · simp only [if_pos hflag]
      by_cases hfit : encLen+((opt.doOpt nullTerm).length+2)≤255
      · simp only [if_pos hfit]
        exact ih m (chunk++[opt]) _
      · simp only [if_neg hfit]
        rw [Option.bind_assoc,Mess.putAll]
        exact congrArg _ (funext (fun m => ih m [opt] _))
    · simp only [if_neg hflag]
      exact ih m (chunk++[opt]) encLen

/-- A call puts the options that it requests. -/
theorem perform_eq (m : Mess) (room : ℕ) (call : Call) :
    m.perform room call=Mess.putAll room m call.requests := by
  cases call with
  | optionPut opt len val => exact (putAll_singleton room m _ _ _).symm
  | optionPutString opt string nullTerm => exact (putAll_singleton room m _ _ _).symm
  | doEncapOpts opts encap flag nullTerm => exact encapLoop_eq room encap flag nullTerm m [] 0 opts

theorem run_eq (m : Mess) (room : ℕ) (calls : List Call) :
    Mess.run room m calls=Mess.putAll room m (calls.flatMap Call.requests) := by
  induction calls generalizing m with
  | nil => rfl
  | cons call calls ih =>
    rw [List.flatMap_cons,putAll_append,Mess.run,perform_eq]
    exact congrArg _ (funext (fun m => ih m))

theorem length_encapBytes_snoc (chunk : List DhcpOpt) (opt : DhcpOpt) (flag : ℕ)
    (nullTerm : Bool) : (encapBytes (chunk++[opt]) flag nullTerm).length=
      (encapBytes chunk flag nullTerm).length+
        if opt.flags &&& flag≠0 then (opt.doOpt nullTerm).length+2 else 0 := by
  rw [encapBytes,encapBytes,List.filter_append,List.flatMap_append,List.length_append,
    List.filter_singleton]
  by_cases hflag : opt.flags &&& flag≠0
  · rw [if_pos hflag,decide_eq_true hflag,cond_true,List.flatMap_singleton]
    rfl
  · rw [if_neg hflag,decide_eq_false hflag]
    rfl

/-- The length that is requested is the length of the data. -/
theorem of_mem_encapRequests {encap : UInt8} {flag : ℕ} {nullTerm : Bool} {chunk : List DhcpOpt}
    {encLen : ℕ} {rest : List DhcpOpt} (hlen : encLen=(encapBytes chunk flag nullTerm).length)
    {r : Request} (hr : r∈encapRequests encap flag nullTerm chunk encLen rest) :
    r.opt=encap ∧ r.len=r.data.length := by
  induction rest generalizing chunk encLen with
  | nil =>
    rw [encapRequests] at hr
    by_cases hzero : encLen≠0
    · rw [if_pos hzero] at hr
      obtain rfl := List.mem_singleton.mp hr
      refine ⟨rfl,?_⟩
      change encLen+1=(encapBytes chunk flag nullTerm++[optionEnd]).length
      rw [List.length_append,hlen]
      rfl
    · rw [if_neg hzero] at hr
      exact absurd hr List.not_mem_nil
  | cons opt rest ih =>
    rw [encapRequests] at hr
    have hsnoc := length_encapBytes_snoc chunk opt flag nullTerm
    have hone := length_encapBytes_snoc [] opt flag nullTerm
    by_cases hflag : opt.flags &&& flag≠0
    · rw [if_pos hflag] at hsnoc hone
      simp only [if_pos hflag] at hr
      by_cases hfit : encLen+((opt.doOpt nullTerm).length+2)≤255
      · simp only [if_pos hfit] at hr
        exact ih (by rw [hsnoc,hlen]) hr
      · simp only [if_neg hfit] at hr
        rcases List.mem_cons.mp hr with rfl | hr
        · exact ⟨rfl,hlen⟩
        · refine ih ?_ hr
          rw [List.nil_append] at hone
          rw [hone]
          exact (Nat.zero_add _).symm
    · rw [if_neg hflag] at hsnoc
      simp only [if_neg hflag] at hr
      exact ih (by rw [hsnoc,hlen]; rfl) hr

theorem Call.of_mem_requests {call : Call} {r : Request} (hr : r∈call.requests) :
    r.opt=call.code ∧ r.len=r.data.length := by
  cases call with
  | optionPut opt len val =>
    obtain rfl := List.mem_singleton.mp hr
    refine ⟨rfl,?_⟩
    change len=(Mess.valBytes len val).length
    rw [Mess.valBytes,List.length_map,List.length_range]
  | optionPutString opt string nullTerm =>
    obtain rfl := List.mem_singleton.mp hr
    exact ⟨rfl,rfl⟩
  | doEncapOpts opts encap flag nullTerm => exact of_mem_encapRequests rfl hr

/-! ## When options fit -/

/-- The options from `start` end early enough for an option of length `len`. -/
def Mess.HasRoom (m : Mess) (start limit len : ℕ) : Prop :=
  ∃ p, m.skipOpts start=some p ∧ p+len+3 < limit

/-- A spare field is free, or it holds options already. -/
def Mess.Usable (m : Mess) (k : Spare) : Prop :=
  m.byte k.start=0 ∨ ∃ o, m.findOverload=some (some o) ∧ m.byte (o+2) &&& k.bit≠0

/-- The condition under which an option is put well: its length fits in a byte; if it is
put into `sname`, it ends there; and no option of the same code stands in an area that
is searched after one with room for it. -/
structure Mess.Fits (m : Mess) (room : ℕ) (r : Request) : Prop where
  len : r.len≤255
  sname : ¬m.HasRoom optionsAt room r.len →
    ¬(m.Usable .file ∧ m.HasRoom Spare.file.start Spare.file.limit r.len) → m.Usable .sname →
    ∀ p, m.skipOpts Spare.sname.start=some p → p+r.len+3 < Spare.sname.start+128 →
      p+r.len+3≤Spare.sname.limit
  order : ∀ f, .placed f∈m.log → f.tag=r.opt →
    (m.HasRoom optionsAt room r.len → optionsAt≤f.start) ∧
    (m.Usable .file → m.HasRoom Spare.file.start Spare.file.limit r.len →
      Spare.file.start≤f.start)

/-- All requests of a list fit when they are made. -/
def Mess.FitsAll (room : ℕ) : Mess → List Request → Prop
  | _,[] => True
  | m,r::requests => m.Fits room r ∧
    ∀ m', m.putOption room r.opt r.len r.data=some m' → Mess.FitsAll room m' requests

namespace Layout

variable {limit : ℕ} {free : Spare → Bool} {m : Mess} {c : Contents} {ovl : Option (ℕ×UInt8)}
  {room len : ℕ} {k : Spare}

theorem hasRoom_main (h : Layout limit free m c ovl) :
    m.HasRoom optionsAt room len ↔ c.mainEnd+len+3 < room := by
  refine ⟨fun ⟨p,hskip,hlt⟩ => ?_,fun hlt => ⟨c.mainEnd,h.skipOpts_main,hlt⟩⟩
  rw [h.skipOpts_main] at hskip
  rw [Option.some.inj hskip]
  exact hlt

theorem usable_iff (h : Layout limit free m c ovl) : m.Usable k ↔ free k=true := by
  constructor
  · rintro (hzero | ⟨o,hfind,hbit⟩)
    · exact ((h.head_eq_zero k).mp hzero).1
    · rw [h.findOverload_eq] at hfind
      cases ovl with
      | none => cases hfind
      | some ovl =>
        obtain rfl : ovl.1=o := Option.some.inj (Option.some.inj hfind)
        rw [h.overload.1] at hbit
        exact (h.flags _ _ rfl k).1 hbit
  · intro hfree
    by_cases hnil : c.fields k=[]
    · exact Or.inl ((h.head_eq_zero k).mpr ⟨hfree,hnil⟩)
    · cases ovl with
      | none => exact absurd ((h.unused rfl).2 k) hnil
      | some ovl =>
        refine Or.inr ⟨ovl.1,h.findOverload_eq,?_⟩
        rw [h.overload.1]
        exact (h.flags _ _ rfl k).2 hnil

/-- `file` has room exactly if it is the spare field that is chosen. -/
theorem room_file (h : Layout limit free m c ovl) :
    m.Usable .file ∧ m.HasRoom Spare.file.start Spare.file.limit len ↔
      (c.room free len .file).isSome=true := by
  rw [h.usable_iff]
  constructor
  · rintro ⟨hfree,p,hskip,hlt⟩
    rw [h.skipOpts_spare hfree] at hskip
    obtain rfl := Option.some.inj hskip
    rw [Contents.room,if_pos ⟨hfree,hlt⟩]
    rfl
  · intro hroom
    obtain ⟨hfree,hlt⟩ := Contents.room_of_isSome hroom
    exact ⟨hfree,_,h.skipOpts_spare hfree,hlt⟩

theorem stop_le (h : Layout limit free m c ovl) {r : Request} (hfits : m.Fits room r)
    (hroom : ¬c.mainEnd+r.len+3 < room) (htarget : c.target free r.len=some k) :
    c.stop k+r.len+3≤k.limit := by
  obtain ⟨hsome,hfile⟩ := Contents.room_of_target htarget
  obtain ⟨hfree,hlt⟩ := Contents.room_of_isSome hsome
  cases k with
  | file => exact hlt.le
  | sname =>
    refine hfits.sname (fun hmain => hroom (h.hasRoom_main.mp hmain)) (fun hboth => ?_)
      (h.usable_iff.mpr hfree) _ (h.skipOpts_spare hfree) hlt
    rw [h.room_file,hfile rfl] at hboth
    cases hboth

end Layout

/-- The packet is laid out well, and the history agrees with it. -/
def Proper (limit room : ℕ) (free : Spare → Bool) (m : Mess) : Prop :=
  ∃ c ovl, Layout limit free m c ovl ∧ c.Low ovl room ∧ Record limit c m.log

/-- One request keeps the packet proper. -/
theorem Proper.putOption {limit room : ℕ} {free : Spare → Bool} {m : Mess} {r : Request}
    (h : Proper limit room free m) (hle : room≤limit)
    (hkeep : (∃ k, free k=true) → room+3≤limit) (hopt : ProperCode r.opt)
    (hlen : r.len=r.data.length) (hfits : m.Fits room r) :
    ∃ m', m.putOption room r.opt r.len r.data=some m' ∧ Proper limit room free m' ∧
      m'.size=m.size ∧ ∀ i, limit ≤ i → m'.byte i=m.byte i := by
  obtain ⟨c,ovl,hlayout,hlow,hrecord⟩ := h
  have hbig : ∀ i, limit ≤ i → ¬Inside limit i := by
    intro i hi hin
    have hat := hlayout.optionsAt_le
    have hlt := hlayout.main.lt
    have h240 : optionsAt=240 := rfl
    rcases hin with hin | ⟨k,-,hin⟩
    · omega
    · have hk := k.limit_le
      omega
  rw [hlen]
  have hstop : ¬c.mainEnd+r.data.length+3 < room → ∀ k, c.target free r.data.length=some k →
      c.stop k+r.data.length+3≤k.limit := by
    intro hroom k htarget
    rw [← hlen] at hroom htarget ⊢
    exact hlayout.stop_le hfits hroom htarget
  obtain ⟨m',c',ovl',hput,hlayout',hlow',hputs⟩ :=
    hlayout.putOption_spec hlow hle hkeep hopt (by rw [← hlen]; exact hfits.len) hstop
  refine ⟨m',hput,⟨c',ovl',hlayout',hlow',?_⟩,?_,?_⟩
  · cases hputs with
    | lost hwrites hsame => exact (hrecord.writes hwrites).same hsame
    | @added m1 _ p hwrites hadds =>
      have hrecord1 := hrecord.writes hwrites
      have hplaced := hwrites.placed_eq
      refine hrecord1.added hadds hlayout.optionsAt_le (fun k htarget => ?_) (fun g hg htag => ?_)
      · obtain ⟨hfree,-⟩ := Contents.room_of_isSome (Contents.room_of_target htarget).1
        exact ⟨(hlayout.spare k hfree).laid.le,(hlayout.spare k hfree).lt⟩
      · rw [hplaced] at hg
        obtain ⟨hmain,hfile⟩ := hfits.order g (mem_placed.mp hg) htag
        have h240 : optionsAt=240 := rfl
        have h108 : Spare.file.start=108 := rfl
        cases hadds with
        | main hroom hstart hlist hfields =>
          have hg := hmain (hlayout.hasRoom_main.mpr (by rw [hlen]; exact hroom))
          exact ⟨fun _ => hg,fun _ => by omega⟩
        | @spare k hroom htarget hstart hbefore hafter hfields =>
          obtain ⟨hsome,-⟩ := Contents.room_of_target htarget
          obtain ⟨hfree,-⟩ := Contents.room_of_isSome hsome
          have hlt := (hlayout.spare k hfree).lt
          have hk := k.limit_le
          change p=c.stop k at hstart
          refine ⟨fun hge => ?_,fun hge => ?_⟩
          · change optionsAt≤p at hge
            omega
          · change Spare.file.start≤p at hge
            cases k with
            | file =>
              rw [← hlen] at hsome
              obtain ⟨husable,hroom⟩ := hlayout.room_file.mpr hsome
              exact hfile husable hroom
            | sname =>
              have h108' : Spare.sname.limit=108 := rfl
              omega
  · cases hputs with
    | lost hwrites hsame => exact hwrites.size
    | added hwrites hadds => exact hwrites.size
  · intro i hi
    cases hputs with
    | lost hwrites hsame => exact hwrites.frame i (hbig i hi)
    | added hwrites hadds => exact hwrites.frame i (hbig i hi)

/-- A whole sequence of requests keeps the packet proper. -/
theorem Proper.putAll {limit room : ℕ} {free : Spare → Bool} {m : Mess} {requests : List Request}
    (h : Proper limit room free m) (hle : room≤limit)
    (hkeep : (∃ k, free k=true) → room+3≤limit)
    (hproper : ∀ r∈requests, ProperCode r.opt ∧ r.len=r.data.length)
    (hfits : Mess.FitsAll room m requests) :
    ∃ m', Mess.putAll room m requests=some m' ∧ Proper limit room free m' ∧
      m'.size=m.size ∧ ∀ i, limit ≤ i → m'.byte i=m.byte i := by
  induction requests generalizing m with
  | nil => exact ⟨m,rfl,h,rfl,fun _ _ => rfl⟩
  | cons r requests ih =>
    obtain ⟨hcode,hlen⟩ := hproper r List.mem_cons_self
    obtain ⟨m1,hput,hproper1,hsize1,hframe1⟩ := h.putOption hle hkeep hcode hlen hfits.1
    obtain ⟨m',hall,hproper',hsize',hframe'⟩ := ih hproper1
      (fun r hr => hproper r (List.mem_cons_of_mem _ hr)) (hfits.2 m1 hput)
    refine ⟨m',?_,hproper',hsize'.trans hsize1,
      fun i hi => (hframe' i hi).trans (hframe1 i hi)⟩
    rw [Mess.putAll,hput,Option.bind_some]
    exact hall

/-! ## The start -/

/-- A reply whose packet has been cleared up to `limit`. A name that is not empty is
written into its spare field. -/
def startReply (size : ℕ) (byte : ℕ → UInt8) (limit : ℕ) (name : Spare → List UInt8) : Mess :=
  ((clearPacket size byte limit).setName .sname (name .sname)).setName .file (name .file)

theorem setName_of_ne {m : Mess} {k : Spare} {name : List UInt8} {i : ℕ}
    (h : ¬(k.start ≤ i ∧ i < k.limit-1)) : (m.setName k name).byte i=m.byte i := if_neg h

theorem setName_inside {m : Mess} {k : Spare} {name : List UInt8} {i : ℕ}
    (h : k.start ≤ i ∧ i < k.limit-1) : (m.setName k name).byte i=name.getD (i-k.start) 0 := if_pos h

/-- The bytes of the spare fields. -/
theorem startReply_spare {size : ℕ} {byte : ℕ → UInt8} {limit : ℕ} {name : Spare → List UInt8}
    (k : Spare) {i : ℕ} (hi : k.start ≤ i ∧ i < k.limit) :
    (startReply size byte limit name).byte i=
      if i < k.limit-1 then (name k).getD (i-k.start) 0 else 0 := by
  have hclear : (clearPacket size byte limit).byte i=0 := by
    refine if_pos (Or.inl ?_)
    cases k with
    | file =>
      have h108 : Spare.file.start=108 := rfl
      exact ⟨by omega,hi.2⟩
    | sname =>
      have h108 : Spare.sname.limit=108 := rfl
      exact ⟨hi.1,by omega⟩
  cases k with
  | file =>
    by_cases hlt : i < Spare.file.limit-1
    · rw [startReply,setName_inside ⟨hi.1,hlt⟩,if_pos hlt]
    · have h108 : Spare.sname.limit=108 := rfl
      have h108' : Spare.file.start=108 := rfl
      rw [startReply,setName_of_ne (fun h => hlt h.2),setName_of_ne (by omega),if_neg hlt,hclear]
  | sname =>
    have h108 : Spare.sname.limit=108 := rfl
    have h108' : Spare.file.start=108 := rfl
    rw [startReply,setName_of_ne (by omega)]
    by_cases hlt : i < Spare.sname.limit-1
    · rw [setName_inside ⟨hi.1,hlt⟩,if_pos hlt]
    · rw [setName_of_ne (fun h => hlt h.2),if_neg hlt,hclear]

theorem startReply_of_ge {size : ℕ} {byte : ℕ → UInt8} {limit : ℕ} {name : Spare → List UInt8}
    {i : ℕ} (hi : optionsAt ≤ i) : (startReply size byte limit name).byte i=
      if i < limit then 0 else byte i := by
  have h240 : optionsAt=240 := rfl
  have hfile : Spare.file.limit=236 := rfl
  have hsname : Spare.sname.limit=108 := rfl
  rw [startReply,setName_of_ne (by omega),setName_of_ne (by omega),clearPacket]
  by_cases hlt : i < limit
  · rw [if_pos hlt]
    exact if_pos (Or.inr (Or.inl ⟨hi,hlt⟩))
  · rw [if_neg hlt]
    exact if_neg (by omega)

/-- The start of a sequence of calls is proper. -/
theorem proper_startReply {size : ℕ} {byte : ℕ → UInt8} {limit : ℕ} {name : Spare → List UInt8}
    (hlimit : optionsAt+4≤limit) (hsize : limit ≤ size) (hname : ∀ k, 0∉name k) :
    Proper limit ((startReply size byte limit name).optionsEnd limit)
      (fun k => (name k).isEmpty) (startReply size byte limit name) ∧
    (startReply size byte limit name).optionsEnd limit≤limit ∧
    ((∃ k, (name k).isEmpty=true) →
      (startReply size byte limit name).optionsEnd limit+3≤limit) := by
  have hhead : ∀ k : Spare, (startReply size byte limit name).byte k.start=(name k).getD 0 0 := by
    intro k
    rw [startReply_spare k ⟨le_rfl,k.start_lt⟩,Nat.sub_self]
    cases k with
    | file => rfl
    | sname => rfl
  have hzero : ∀ k, (startReply size byte limit name).byte k.start=0 ↔ (name k).isEmpty=true := by
    intro k
    rw [hhead k]
    cases hk : name k with
    | nil => exact ⟨fun _ => rfl,fun _ => rfl⟩
    | cons v rest =>
      refine ⟨fun h => ?_,fun h => by cases h⟩
      change v=0 at h
      refine absurd ?_ (hname k)
      rw [hk,h]
      exact List.mem_cons_self
  have hend : limit-3≤(startReply size byte limit name).optionsEnd limit ∧
      (startReply size byte limit name).optionsEnd limit≤limit := by
    rw [Mess.optionsEnd]
    split_ifs
    · exact ⟨le_rfl,Nat.sub_le _ _⟩
    · exact ⟨Nat.sub_le _ _,le_rfl⟩
  refine ⟨⟨⟨[],[],optionsAt,fun _ => [],Spare.start⟩,none,⟨hsize,
    ⟨rfl,show optionsAt < limit by omega,?_⟩,?_,?_,fun _ => ⟨rfl,fun _ => rfl⟩,
    fun o flags heq => absurd heq.symm (Option.some_ne_none _),?_⟩,fun _ => ?_,?_⟩,hend.2,?_⟩
  · intro i hi hlt
    rw [startReply_of_ge hi,if_pos hlt]
  · intro k hfree
    refine ⟨rfl,k.start_lt,fun i hi hlt => ?_⟩
    rw [startReply_spare k ⟨hi,hlt⟩,List.isEmpty_iff.mp hfree]
    split_ifs
    · rfl
    · rfl
  · intro k hfree
    refine ⟨fun heq => ?_,rfl⟩
    rw [hzero k,hfree] at heq
    cases heq
  · rintro f (hf | hf | ⟨k,hf⟩)
    · exact absurd hf List.not_mem_nil
    · exact absurd hf List.not_mem_nil
    · exact absurd hf List.not_mem_nil
  · change optionsAt < _
    omega
  · exact ⟨rfl,fun _ => rfl,fun p hp => absurd hp List.not_mem_nil,List.Pairwise.nil,
      List.Pairwise.nil,fun f hf => absurd hf List.not_mem_nil⟩
  · rintro ⟨k,hk⟩
    have hfree : (startReply size byte limit name).byte Spare.file.start=0 ∨
        (startReply size byte limit name).byte Spare.sname.start=0 := by
      cases k with
      | file => exact Or.inl ((hzero .file).mpr hk)
      | sname => exact Or.inr ((hzero .sname).mpr hk)
    rw [Mess.optionsEnd,if_pos hfree]
    omega

/-! ## The finished packet -/

/-- The packet is finished: an end option stands behind the options, and behind those in
the spare fields whose bit is set. -/
structure Finished (m : Mess) (c : Contents) (ovl : Option (ℕ×UInt8)) (tail : List Field)
    (stop : ℕ) : Prop where
  main : Laid m.byte optionsAt (c.main ovl++tail) stop
  mainEnd : m.byte stop=optionEnd
  spare : ∀ o flags, ovl=some (o,flags) → ∀ k : Spare, flags &&& k.bit≠0 →
    Laid m.byte k.start (c.fields k) (c.stop k) ∧ m.byte (c.stop k)=optionEnd

/-- The end of the buffer space, with the agent id that was kept there. -/
def realEnd (limit : ℕ) : Option (List UInt8) → ℕ
  | none => limit
  | some data => limit+2+data.length

namespace Layout

variable {limit : ℕ} {free : Spare → Bool} {m : Mess} {c : Contents} {ovl : Option (ℕ×UInt8)}

/-- The agent id becomes the last of the options. -/
theorem withAgent (h : Layout limit free m c ovl) {agent : Option (List UInt8)}
    (hagent : ∀ data, agent=some data → (⟨limit,optionAgentId,data⟩ : Field).HeldBy m.byte ∧
      realEnd limit agent ≤ m.size) :
    ∃ m1 p1 tail,
      m.withAgent c.mainEnd (agent.map fun _ => limit) (realEnd limit agent)=(m1,p1) ∧
      Laid m1.byte optionsAt (c.main ovl++tail) p1 ∧ m1.byte p1=0 ∧ p1 < m1.size ∧
      (∀ i < optionsAt, m1.byte i=m.byte i) ∧ ∀ f∈tail, f.tag=optionAgentId ∧ agent≠none := by
  have hat := h.optionsAt_le
  have hlt := h.main.lt
  cases agent with
  | none =>
    refine ⟨m,c.mainEnd,[],rfl,?_,h.main.zeros _ le_rfl hlt,h.mainEnd_lt,fun _ _ => rfl,
      fun f hf => absurd hf List.not_mem_nil⟩
    rw [List.append_nil]
    exact h.main.laid
  | some data =>
    obtain ⟨hheld,hsize⟩ := hagent data rfl
    have hreal : realEnd limit (some data)=limit+2+data.length := rfl
    have hcopy : ∀ i < 2+data.length,
        (m.moveAgent c.mainEnd limit (realEnd limit (some data))).byte (c.mainEnd+i)=
          m.byte (limit+i) := by
      intro i hi
      have hback : c.mainEnd+i-c.mainEnd=i := by omega
      change (if c.mainEnd≤c.mainEnd+i ∧ _ then _ else _)=_
      rw [if_pos ⟨by omega,by omega⟩,hback]
    have hbefore : ∀ i < c.mainEnd,
        (m.moveAgent c.mainEnd limit (realEnd limit (some data))).byte i=m.byte i := by
      intro i hi
      change (if _ then _ else if _ then _ else _)=_
      rw [if_neg (by omega),if_neg (by omega)]
    refine ⟨m.moveAgent c.mainEnd limit (realEnd limit (some data)),c.mainEnd+2+data.length,
      [⟨c.mainEnd,optionAgentId,data⟩],Prod.ext rfl ?_,laid_append.mpr ⟨c.mainEnd,?_,rfl,
      show optionAgentId≠0 by decide,Field.heldBy_mk ?_ ?_ (fun i hi => ?_),rfl⟩,?_,?_,
      fun i hi => hbefore i (by omega),fun f hf => ?_⟩
    · change c.mainEnd+(limit+2+data.length-limit)=c.mainEnd+2+data.length
      omega
    · exact h.main.laid.congr (fun i _ hi => hbefore i hi)
    · exact (hcopy 0 (by omega)).trans hheld.tag
    · rw [hcopy 1 (by omega)]
      exact hheld.length
    · have hbyte := hcopy (2+i) (by omega)
      rw [← Nat.add_assoc,← Nat.add_assoc] at hbyte
      rw [hbyte]
      exact hheld.data i hi
    · change (if _ then _ else if _ then _ else _)=_
      rw [if_neg (by omega),if_pos ⟨by omega,by omega⟩]
    · change c.mainEnd+2+data.length < m.size
      omega
    · rw [List.mem_singleton.mp hf]
      exact ⟨rfl,Option.some_ne_none _⟩

end Layout

/-- The end option is written behind the options of a spare field if its bit is set. -/
theorem endSpare_spec {m : Mess} {flags : UInt8} {k : Spare} {fields : List Field} {stop : ℕ}
    (h : flags &&& k.bit≠0 → Area m.byte k.start fields stop k.limit) (hsize : k.limit ≤ m.size) :
    ∃ m', m.endSpare flags k=some m' ∧ m'.size=m.size ∧
      (∀ i, (flags &&& k.bit≠0 → i≠stop) → m'.byte i=m.byte i) ∧
      (flags &&& k.bit≠0 → m'.byte stop=optionEnd) := by
  rw [Mess.endSpare]
  by_cases hbit : flags &&& k.bit≠0
  · have harea := h hbit
    have hlt := harea.lt
    rw [if_pos hbit,Mess.skipOpts_laid harea.laid (harea.zeros _ le_rfl hlt) (by omega)]
    exact ⟨_,rfl,rfl,fun i hi => Mess.store_of_ne (hi hbit),fun _ => Mess.store_self⟩
  · rw [if_neg hbit]
    exact ⟨m,rfl,rfl,fun _ _ => rfl,fun h => absurd h hbit⟩

/-- The value of the overload option, which is zero if there is none. -/
def overFlags : Option (ℕ×UInt8) → UInt8
  | none => 0
  | some ovl => ovl.2

/-- The broadcast flag lies before the areas. -/
theorem broadcast_byte (m : Mess) (broadcast : Bool) {i : ℕ} (hi : i≠10) :
    (if broadcast then m.store 10 (m.byte 10 ||| 0x80) else m).byte i=m.byte i := by
  cases broadcast with
  | false => rfl
  | true => exact Mess.store_of_ne hi

/-- The overload option is still found behind the agent id. -/
theorem Layout.overload_of_laid {limit : ℕ} {free : Spare → Bool} {m m1 : Mess} {c : Contents}
    {ovl : Option (ℕ×UInt8)} {tail : List Field} {p : ℕ} (h : Layout limit free m c ovl)
    (hlaid : Laid m1.byte optionsAt (c.main ovl++tail) p) (hzero : m1.byte p=0)
    (hsize : p < m1.size) (htail : ∀ f∈tail, f.tag=optionAgentId) :
    m1.findOverload=some (ovl.map Prod.fst) ∧
    m1.overloadFlags (ovl.map Prod.fst)=overFlags ovl := by
  have hnone : tail.find? (fun f => f.tag=optionOverload)=none := by
    refine List.find?_eq_none.mpr (fun f hf heq => ?_)
    have htag := of_decide_eq_true heq
    rw [htail f hf] at htag
    exact absurd htag (by decide)
  constructor
  · rw [Mess.findOverload,Mess.findOverloadFrom_laid hlaid hzero hsize,List.find?_append,hnone,
      Option.or_none,h.find_overload,Option.map_map]
    rfl
  · cases ovl with
    | none => rfl
    | some ovl =>
      have hmem : (⟨ovl.1,optionOverload,[ovl.2]⟩ : Field)∈c.main (some ovl)++tail :=
        List.mem_append_left _ (List.mem_append_right _ List.mem_cons_self)
      exact (Option.some.inj ((hlaid.held hmem).data 0 Nat.one_pos)).symm

/-- The options of a packet are ended. -/
theorem Layout.endOptions_spec {limit : ℕ} {free : Spare → Bool} {m m1 : Mess} {c : Contents}
    {ovl : Option (ℕ×UInt8)} {tail : List Field} {p : ℕ} (h : Layout limit free m c ovl)
    (hlaid : Laid m1.byte optionsAt (c.main ovl++tail) p) (hzero : m1.byte p=0)
    (hsize : p < m1.size) (hlow : ∀ i < optionsAt, m1.byte i=m.byte i)
    (htail : ∀ f∈tail, f.tag=optionAgentId) (broadcast : Bool) :
    ∃ fin n, m1.endOptions p broadcast=some (fin,n) ∧ Finished fin c ovl tail p ∧ p≤n := by
  have hstart := hlaid.le
  have h240 : optionsAt=240 := rfl
  have h236 : Spare.file.limit=236 := rfl
  have h108 : Spare.sname.limit=108 := rfl
  have h108' : Spare.file.start=108 := rfl
  obtain ⟨hfind,hflags⟩ := h.overload_of_laid hlaid hzero hsize htail
  have harea : ∀ k, overFlags ovl &&& k.bit≠0 →
      Area m1.byte k.start (c.fields k) (c.stop k) k.limit := by
    intro k hbit
    have hk := k.limit_le
    have hfree : free k=true := by
      cases ovl with
      | none => exact absurd UInt8.zero_and hbit
      | some ovl => exact (h.flags _ _ rfl k).1 hbit
    exact (h.spare k hfree).congr (fun i _ hi => hlow i (by omega))
  obtain ⟨m2,hfile,hsize2,hsame2,hend2⟩ := endSpare_spec (harea .file) (by omega)
  have harea2 : overFlags ovl &&& Spare.sname.bit≠0 →
      Area m2.byte Spare.sname.start (c.fields .sname) (c.stop .sname) Spare.sname.limit := by
    intro hbit
    refine (harea .sname hbit).congr (fun i _ hi => hsame2 i (fun hbit' heq => ?_))
    have hle := (harea .file hbit').laid.le
    omega
  obtain ⟨m3,hsname,-,hsame3,hend3⟩ := endSpare_spec harea2 (by omega)
  have hbelow : ∀ k, overFlags ovl &&& k.bit≠0 → c.stop k < 236 := by
    intro k hbit
    have hlt := (harea k hbit).lt
    have hk := k.limit_le
    omega
  have hsame : ∀ i, i≠p → (∀ k, overFlags ovl &&& k.bit≠0 → i≠c.stop k) →
      (m3.store p optionEnd).byte i=m1.byte i := by
    intro i hmain hspare
    rw [Mess.store_of_ne hmain,hsame3 i (hspare .sname),hsame2 i (hspare .file)]
  rw [Mess.endOptions,hfind,Option.bind_some]
  simp only [hflags]
  rw [hfile,Option.bind_some,hsname,Option.map_some]
  refine ⟨_,_,rfl,⟨?_,?_,?_⟩,Nat.le_trans (Nat.le_succ p) (Nat.le_max_left _ _)⟩
  · refine hlaid.congr (fun i hi hlt => ?_)
    rw [broadcast_byte _ _ (by omega)]
    refine hsame i (by omega) (fun k hbit => ?_)
    have hk := hbelow k hbit
    omega
  · rw [broadcast_byte _ _ (by omega),Mess.store_self]
  · intro o flags hover k hbit
    have hbit' : overFlags ovl &&& k.bit≠0 := by
      rw [hover]
      exact hbit
    have hk := harea k hbit'
    have hle := hk.laid.le
    have hstop := hbelow k hbit'
    have h44 : 44≤k.start := by
      cases k with
      | file => decide
      | sname => decide
    constructor
    · refine hk.laid.congr (fun i hi hlt => ?_)
      rw [broadcast_byte _ _ (by omega)]
      refine hsame i (by omega) (fun k' hbit' heq => ?_)
      have hle' := (harea k' hbit').laid.le
      have hlt' := (harea k' hbit').lt
      have hlimit := hk.lt
      obtain rfl := Spare.eq_of_start ⟨hi,by omega⟩ ⟨heq ▸ hle',heq ▸ hlt'⟩
      omega
    · rw [broadcast_byte _ _ (by omega),Mess.store_of_ne (by omega)]
      cases k with
      | file =>
        have hne : overFlags ovl &&& Spare.sname.bit≠0 → c.stop .file≠c.stop .sname := by
          intro hbit3
          have hlt3 := (harea .sname hbit3).lt
          omega
        rw [hsame3 _ hne,hend2 hbit']
      | sname => exact hend3 hbit'

theorem Layout.dhcpPacketSize_spec {limit : ℕ} {free : Spare → Bool} {m : Mess} {c : Contents}
    {ovl : Option (ℕ×UInt8)} (h : Layout limit free m c ovl) {agent : Option (List UInt8)}
    (hagent : ∀ data, agent=some data → (⟨limit,optionAgentId,data⟩ : Field).HeldBy m.byte ∧
      realEnd limit agent ≤ m.size) (broadcast : Bool) :
    ∃ fin n tail stop,
      m.dhcpPacketSize (agent.map fun _ => limit) (realEnd limit agent) broadcast=some (fin,n) ∧
      Finished fin c ovl tail stop ∧ stop≤n ∧ ∀ f∈tail, f.tag=optionAgentId ∧ agent≠none := by
  obtain ⟨m1,p1,tail,hmoved,hlaid,hzero,hlt,hlow,htail⟩ := h.withAgent hagent
  obtain ⟨fin,n,hfin,hfinished,hle⟩ :=
    h.endOptions_spec hlaid hzero hlt hlow (fun f hf => (htail f hf).1) broadcast
  refine ⟨fin,n,tail,p1,?_,hfinished,hle,htail⟩
  rw [Mess.dhcpPacketSize,h.skipOpts_main,Option.bind_some,hmoved]
  exact hfin

/-! ## Finding options again -/

/-- An option of a code that found space first. -/
def FirstPlaced (log : List Event) (f : Field) : Prop :=
  ∃ later earlier, log=later++.placed f::earlier ∧ ∀ g, .placed g∈earlier → g.tag≠f.tag

/-- Looking for the code of an option gives this option. -/
def Decodes (fin : Mess) (size : ℕ) (f : Field) : Prop :=
  f.HeldBy fin.byte ∧ ∀ minsize ≤ f.data.length, fin.optionFind size f.tag minsize=some f.start

section

variable {p : Field → Prop} [DecidablePred p] {f : Field} {older newer : List Field} {minsize : ℕ}

theorem find_first (holder : ∀ g∈older, g.tag≠f.tag) (hf : p f)
    (hmin : minsize≤f.data.length) :
    ((older++f::newer).filter (fun g => p g)).find?
      (fun g => g.tag=f.tag ∧ g.data.length≥minsize)=some f := by
  rw [List.filter_append,List.find?_append]
  have hnone : (older.filter (fun g => p g)).find?
      (fun g => g.tag=f.tag ∧ g.data.length≥minsize)=none := by
    refine List.find?_eq_none.mpr (fun g hg hfound => ?_)
    exact holder g (List.mem_of_mem_filter hg) (of_decide_eq_true hfound).1
  rw [hnone,Option.none_or,List.filter_cons,if_pos (decide_eq_true hf),List.find?_cons,
    decide_eq_true ⟨rfl,hmin⟩]

theorem find_none {fields : List Field} (h : ∀ g∈fields, g.tag=f.tag → ¬p g) :
    (fields.filter (fun g => p g)).find? (fun g => g.tag=f.tag ∧ g.data.length≥minsize)=none := by
  refine List.find?_eq_none.mpr (fun g hg hfound => ?_)
  obtain ⟨hmem,hp⟩ := List.mem_filter.mp hg
  exact h g hmem (of_decide_eq_true hfound).1 (of_decide_eq_true hp)

end

/-- What is looked for among the options, if it is not the overload option. -/
theorem Layout.find_main {limit : ℕ} {free : Spare → Bool} {m : Mess} {c : Contents}
    {ovl : Option (ℕ×UInt8)} (h : Layout limit free m c ovl) {opt : UInt8} {minsize : ℕ}
    (hopt : opt≠optionOverload) (tail : List Field) :
    (c.main ovl++tail).find? (fun g => g.tag=opt ∧ g.data.length≥minsize)=
      ((c.before++c.after).find? (fun g => g.tag=opt ∧ g.data.length≥minsize)).or
        (tail.find? (fun g => g.tag=opt ∧ g.data.length≥minsize)) := by
  rw [List.find?_append]
  cases ovl with
  | none => rw [Contents.main,(h.unused rfl).1,List.append_nil]
  | some ovl =>
    rw [Contents.main,List.find?_append,List.find?_append,List.find?_cons,
      decide_eq_false (fun hand => hopt hand.1.symm)]

/-- The option that was placed first is the first one of its code in the order in which
the areas are searched. -/
theorem FirstPlaced.split {log : List Event} {f : Field} (h : FirstPlaced log f)
    (horder : (placed log).Pairwise InOrder) :
    ∃ older newer, placed log=older++f::newer ∧ (∀ g∈older, g.tag≠f.tag) ∧
      ∀ g∈placed log, g.tag=f.tag → (optionsAt≤g.start → optionsAt≤f.start) ∧
        (Spare.file.start≤g.start → Spare.file.start≤f.start) := by
  obtain ⟨later,earlier,hlog,hearlier⟩ := h
  have hplaced : placed log=placed earlier++f::placed later := by
    rw [hlog,placed_append,placed_cons,List.append_assoc]
    rfl
  have holder : ∀ g∈placed earlier, g.tag≠f.tag := fun g hg => hearlier g (mem_placed.mp hg)
  refine ⟨placed earlier,placed later,hplaced,holder,fun g hg htag => ?_⟩
  rw [hplaced] at hg horder
  rcases List.mem_append.mp hg with hg | hg
  · exact absurd htag (holder g hg)
  · rcases List.mem_cons.mp hg with rfl | hg
    · exact ⟨id,id⟩
    · exact (List.pairwise_cons.mp (List.pairwise_append.mp horder).2.1).1 g hg htag.symm

namespace Mess

variable {m : Mess} {size minsize o p : ℕ} {opt : UInt8}

theorem optionFind_main (h : m.optionFind1 optionsAt size opt minsize=some p) :
    m.optionFind size opt minsize=some p := by
  rw [optionFind,h]

theorem optionFind_spare (h : m.optionFind1 optionsAt size opt minsize=none)
    (hover : m.optionFind1 optionsAt size optionOverload 1=some o) :
    m.optionFind size opt minsize=
      ((if m.byte (o+2) &&& Spare.file.bit≠0 then
          m.optionFind1 Spare.file.start Spare.file.limit opt minsize else none).or
        (if m.byte (o+2) &&& Spare.sname.bit≠0 then
          m.optionFind1 Spare.sname.start Spare.sname.limit opt minsize else none)) := by
  have hfile : Spare.file.bit=1 ∧ Spare.file.limit=Spare.file.start+128 := ⟨rfl,rfl⟩
  rw [optionFind,h,hover,hfile.1,hfile.2]
  dsimp only
  cases (if m.byte (o+2) &&& 1≠0 then
    m.optionFind1 Spare.file.start (Spare.file.start+128) opt minsize else none) with
  | none => exact Option.none_or.symm
  | some p => exact Option.some_or.symm

end Mess

namespace Finished

variable {limit : ℕ} {free : Spare → Bool} {m fin : Mess} {c : Contents}
  {ovl : Option (ℕ×UInt8)} {tail : List Field} {stop n minsize : ℕ} {opt : UInt8}

theorem tag_ne (h : Layout limit free m c ovl) (htail : ∀ g∈tail, g.tag=optionAgentId) :
    ∀ g∈c.main ovl++tail, g.tag≠optionEnd := by
  intro g hg
  rcases List.mem_append.mp hg with hg | hg
  · cases ovl with
    | none => exact (h.tags g (Or.inl hg)).1
    | some ovl =>
      rcases List.mem_append.mp hg with hg | hg
      · exact (h.tags g (Or.inl hg)).1
      · rcases List.mem_cons.mp hg with rfl | hg
        · exact show optionOverload≠optionEnd by decide
        · exact (h.tags g (Or.inr (Or.inl hg))).1
  · rw [htail g hg]
    decide

theorem find_main (hfin : Finished fin c ovl tail stop) (h : Layout limit free m c ovl)
    (hrecord : Record limit c m.log) (hle : stop≤n) (htail : ∀ g∈tail, g.tag=optionAgentId)
    (hopt : opt≠optionEnd ∧ opt≠optionOverload) : fin.optionFind1 optionsAt n opt minsize=
      ((((placed m.log).filter (fun g => optionsAt≤g.start)).find?
          (fun g => g.tag=opt ∧ g.data.length≥minsize)).or
        (tail.find? (fun g => g.tag=opt ∧ g.data.length≥minsize))).map Field.start := by
  rw [Mess.optionFind1_laid hfin.main hfin.mainEnd hle (tag_ne h htail) hopt.1,h.find_main hopt.2,
    hrecord.main]

/-- The overload option is found in the finished packet. -/
theorem find_overload {o : ℕ} {flags : UInt8} (hfin : Finished fin c (some (o,flags)) tail stop)
    (h : Layout limit free m c (some (o,flags))) (hle : stop≤n)
    (htail : ∀ g∈tail, g.tag=optionAgentId) :
    fin.optionFind1 optionsAt n optionOverload 1=some o ∧ fin.byte (o+2)=flags := by
  have hnone : c.before.find? (fun g => g.tag=optionOverload ∧ g.data.length≥1)=none := by
    refine List.find?_eq_none.mpr (fun g hg hfound => ?_)
    exact (h.tags g (Or.inl hg)).2 (of_decide_eq_true hfound).1
  have hmem : (⟨o,optionOverload,[flags]⟩ : Field)∈c.main (some (o,flags))++tail :=
    List.mem_append_left _ (List.mem_append_right _ List.mem_cons_self)
  constructor
  · rw [Mess.optionFind1_laid hfin.main hfin.mainEnd hle (tag_ne h htail) (by decide),
      Contents.main,List.append_assoc,List.find?_append,hnone,Option.none_or,List.cons_append,
      List.find?_cons,decide_eq_true ⟨rfl,le_rfl⟩]
    rfl
  · exact (Option.some.inj ((hfin.main.held hmem).data 0 Nat.one_pos)).symm

theorem find_spare {o : ℕ} {flags : UInt8} (hfin : Finished fin c (some (o,flags)) tail stop)
    (h : Layout limit free m c (some (o,flags))) (hrecord : Record limit c m.log)
    (hopt : opt≠optionEnd) {k : Spare} (hbit : flags &&& k.bit≠0) :
    fin.optionFind1 k.start k.limit opt minsize=
      (((placed m.log).filter (fun g => k.start≤g.start ∧ g.start < k.limit)).find?
        (fun g => g.tag=opt ∧ g.data.length≥minsize)).map Field.start := by
  obtain ⟨hlaid,hend⟩ := hfin.spare _ _ rfl k hbit
  have hlt := (h.spare k ((h.flags _ _ rfl k).1 hbit)).lt
  rw [Mess.optionFind1_laid hlaid hend hlt.le
    (fun g hg => (h.tags g (Or.inr (Or.inr ⟨k,hg⟩))).1) hopt,hrecord.spare]

/-- The first option of each code is found in the finished packet. -/
theorem decodes {f : Field} (hfin : Finished fin c ovl tail stop)
    (h : Layout limit free m c ovl) (hrecord : Record limit c m.log) (hle : stop≤n)
    (htail : ∀ g∈tail, g.tag=optionAgentId)
    (hagent : tail≠[] → f.tag=optionAgentId → optionsAt≤f.start)
    (hfirst : FirstPlaced m.log f) : Decodes fin n f := by
  obtain ⟨older,newer,hplaced,holder,horder⟩ := hfirst.split hrecord.order
  have hf : f∈placed m.log := by
    rw [hplaced]
    exact List.mem_append_right _ List.mem_cons_self
  have hhas := hrecord.has f hf
  have hopt := h.tags f hhas
  by_cases hstart : optionsAt≤f.start
  · have hmem : f∈c.main ovl++tail := by
      refine List.mem_append_left _ (h.mem_main ?_)
      rw [← List.mem_append,← hrecord.main]
      exact List.mem_filter.mpr ⟨hf,decide_eq_true hstart⟩
    refine ⟨hfin.main.held hmem,fun minsize hmin => Mess.optionFind_main ?_⟩
    rw [hfin.find_main h hrecord hle htail hopt,hplaced,find_first holder hstart hmin]
    rfl
  · have hnone : ∀ minsize, fin.optionFind1 optionsAt n f.tag minsize=none := by
      intro minsize
      have htailNone : tail.find? (fun g => g.tag=f.tag ∧ g.data.length≥minsize)=none := by
        refine List.find?_eq_none.mpr (fun g hg hfound => hstart ?_)
        exact hagent (List.ne_nil_of_mem hg) ((of_decide_eq_true hfound).1.symm.trans (htail g hg))
      rw [hfin.find_main h hrecord hle htail hopt,htailNone,
        find_none (fun g hg heq hge => hstart ((horder g hg heq).1 hge))]
      rfl
    rcases h.place hhas with hplace | ⟨k,hfree,hmem,hge,hstop⟩
    · exact absurd hplace.1 hstart
    have hfstop : f.stop=f.start+2+f.data.length := rfl
    have hlt : f.start < k.limit := by
      have hend := (h.spare k hfree).lt
      omega
    cases ovl with
    | none =>
      rw [(h.unused rfl).2 k] at hmem
      exact absurd hmem List.not_mem_nil
    | some ovl =>
      have hbit : ovl.2 &&& k.bit≠0 := (h.flags _ _ rfl k).2 (List.ne_nil_of_mem hmem)
      obtain ⟨hover,hflags⟩ := hfin.find_overload h hle htail
      refine ⟨(hfin.spare _ _ rfl k hbit).1.held hmem,fun minsize hmin => ?_⟩
      have hfound : fin.optionFind1 k.start k.limit f.tag minsize=some f.start := by
        rw [hfin.find_spare h hrecord hopt.1 hbit,hplaced,find_first holder ⟨hge,hlt⟩ hmin]
        rfl
      rw [Mess.optionFind_spare (hnone minsize) hover,hflags]
      cases k with
      | file => rw [if_pos hbit,hfound,Option.some_or]
      | sname =>
        have hfile : (if ovl.2 &&& Spare.file.bit≠0 then
            fin.optionFind1 Spare.file.start Spare.file.limit f.tag minsize else none)=none := by
          by_cases hbit' : ovl.2 &&& Spare.file.bit≠0
          · have hlater : ∀ g∈placed m.log, g.tag=f.tag →
                ¬(Spare.file.start≤g.start ∧ g.start < Spare.file.limit) :=
              fun g hg heq hin => absurd ((horder g hg heq).2 hin.1) (Nat.not_le.mpr hlt)
            rw [if_pos hbit',hfin.find_spare h hrecord hopt.1 hbit',find_none hlater]
            rfl
          · exact if_neg hbit'
        rw [hfile,if_pos hbit,hfound,Option.none_or]

end Finished

/-- The writes of the calls stay inside the areas, and none of them touches an option that
was placed before. -/
def SafeLog (limit : ℕ) (log : List Event) : Prop :=
  (∀ p, .wrote p∈log → Inside limit p) ∧ log.Pairwise Event.Apart

/-- A reply in a packet of the usual size, without names. -/
def clearedReply : Mess := startReply 548 (fun _ => 0) 548 (fun _ => [])

/-- Three strings, the last of which goes into `sname` and beyond. -/
def spillingCalls : List Call :=
  [.optionPutString 60 (List.replicate 255 97) false,
    .optionPutString 12 (List.replicate 60 98) false,
    .optionPutString 15 (List.replicate 80 99) false]

/-- The option that the last string overwrites in `file`. -/
def spilledField : Field := ⟨108,12,List.replicate 60 98⟩

end AndroidPlatform.DhcpReplyOptions
