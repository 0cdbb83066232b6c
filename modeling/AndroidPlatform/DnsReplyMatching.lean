import AndroidPlatform.DnsForward

/-!
# Which replies reach which clients

The records of the forwarding table that are in use keep what the query they
were created for had: its client, its id and the checksum of its question
section. A reply is relayed to the client of a record with its id and with
its checksum, except that a reply with no readable question fits every
record with its id.
-/

namespace AndroidPlatform.DnsForward

open DnsPacket

namespace Daemon

/-! ## What the operations do to the records in use -/

/-- A record that is in the table and in use. -/
def Live (d : Daemon) (f : ℕ) : Prop := f<d.frecCount ∧ (d.frec f).sentto.isSome=true

/-- Two states of a record that belong to the same query. -/
structure SameQuery (r r' : Frec) : Prop where
  /-- The client is kept. -/
  client : r.client=r'.client
  /-- Its id is kept. -/
  origId : r.origId=r'.origId
  /-- The id upstream is kept. -/
  newId : r.newId=r'.newId
  /-- The checksum is kept. -/
  crc : r.crc=r'.crc

theorem SameQuery.refl (r : Frec) : SameQuery r r := ⟨rfl,rfl,rfl,rfl⟩

theorem SameQuery.trans {r r' r'' : Frec} (h : SameQuery r r') (h' : SameQuery r' r'') :
    SameQuery r r'' :=
  ⟨h.client.trans h'.client,h.origId.trans h'.origId,h.newId.trans h'.newId,h.crc.trans h'.crc⟩

/-- Every record in use afterwards, except perhaps `f`, was in use for the same
query before; `f` belongs to the same query as before. -/
def LiveFrom (f : Option ℕ) (d d' : Daemon) : Prop :=
  ∀ g, d'.Live g → g<d.frecCount ∧ SameQuery (d'.frec g) (d.frec g) ∧
    ((d.frec g).sentto.isSome=true ∨ f=some g)

theorem LiveFrom.refl (f : Option ℕ) (d : Daemon) : LiveFrom f d d :=
  fun _ h => ⟨h.1,.refl _,Or.inl h.2⟩

/-- Nothing comes into use before a step that may take `f` into use. -/
theorem LiveFrom.trans {f : Option ℕ} {d d' d'' : Daemon} (h : LiveFrom none d d')
    (h' : LiveFrom none d' d'') : LiveFrom f d d'' := by
  intro g hg
  obtain ⟨hlt,hsame,hlive⟩ := h' g hg
  have hmid := hlive.resolve_right (fun hf => by cases hf)
  obtain ⟨hlt',hsame',hlive'⟩ := h g ⟨hlt,hmid⟩
  exact ⟨hlt',hsame.trans hsame',Or.inl (hlive'.resolve_right (fun hf => by cases hf))⟩

theorem setFrec_frec_self (d : Daemon) (f : ℕ) (r : Frec) : (d.setFrec f r).frec f=r := by
  simp only [setFrec,Function.update_self]

theorem setFrec_frec_of_ne {f g : ℕ} (h : g≠f) (d : Daemon) (r : Frec) :
    (d.setFrec f r).frec g=d.frec g := by
  simp only [setFrec,Function.update_of_ne h]

/-- A change of a record that keeps its query and does not take it into use. -/
theorem setFrec_liveFrom {d : Daemon} {f : ℕ} {r : Frec} (hsame : SameQuery r (d.frec f))
    (hlive : r.sentto.isSome=true → (d.frec f).sentto.isSome=true) (e : Option ℕ) :
    LiveFrom e d (d.setFrec f r) := by
  intro g hg
  obtain ⟨hlt,hsome⟩ := hg
  by_cases hgf : g=f
  · rw [hgf,setFrec_frec_self] at hsome
    rw [hgf,setFrec_frec_self]
    exact ⟨hgf ▸ hlt,hsame,Or.inl (hlive hsome)⟩
  · rw [setFrec_frec_of_ne hgf] at hsome
    rw [setFrec_frec_of_ne hgf]
    exact ⟨hlt,.refl _,Or.inl hsome⟩

theorem releaseRfd_frec (d : Daemon) (rfd : Option ℕ) : (d.releaseRfd rfd).frec=d.frec := by
  cases rfd with
  | none => rfl
  | some i => rfl

theorem releaseRfd_frecCount (d : Daemon) (rfd : Option ℕ) :
    (d.releaseRfd rfd).frecCount=d.frecCount := by
  cases rfd with
  | none => rfl
  | some i => rfl

theorem freeFrec_frecCount (d : Daemon) (f : ℕ) : (d.freeFrec f).frecCount=d.frecCount :=
  (releaseRfd_frecCount _ _).trans (releaseRfd_frecCount _ _)

theorem freeFrec_frec_self (d : Daemon) (f : ℕ) :
    (d.freeFrec f).frec f={ d.frec f with rfd4 := none, rfd6 := none, sentto := none } :=
  setFrec_frec_self _ f _

theorem freeFrec_frec_of_ne {f g : ℕ} (h : g≠f) (d : Daemon) :
    (d.freeFrec f).frec g=d.frec g := by
  rw [freeFrec,setFrec_frec_of_ne h,releaseRfd_frec,releaseRfd_frec]

theorem freeFrec_liveFrom (d : Daemon) (f : ℕ) (e : Option ℕ) : LiveFrom e d (d.freeFrec f) := by
  intro g hg
  obtain ⟨hlt,hsome⟩ := hg
  rw [freeFrec_frecCount] at hlt
  by_cases hgf : g=f
  · rw [hgf,freeFrec_frec_self] at hsome
    cases hsome
  · rw [freeFrec_frec_of_ne hgf] at hsome
    rw [freeFrec_frec_of_ne hgf]
    exact ⟨hlt,.refl _,Or.inl hsome⟩

theorem takeFrec_liveFrom (d : Daemon) (f : ℕ) (now : ℤ) : LiveFrom none d (d.takeFrec f now) := by
  unfold takeFrec
  refine setFrec_liveFrom ?_ ?_ none
  · exact ⟨rfl,rfl,rfl,rfl⟩
  · exact fun h => h

/-! ## A record for a new query -/

theorem older_lt {d : Daemon} {f : ℕ} {oldest : Option ℕ} (hf : f<d.frecCount)
    (holdest : ∀ g, oldest=some g → g<d.frecCount) : d.older f oldest<d.frecCount := by
  cases oldest with
  | none => exact hf
  | some o =>
    rw [older]
    split_ifs
    · exact hf
    · exact holdest o rfl

theorem scanFrecs_spec {now : ℤ} {fs : List ℕ} {d d' : Daemon}
    {target target' oldest oldest' : Option ℕ}
    (h : scanFrecs now fs d target oldest=(d',target',oldest'))
    (hfs : ∀ f∈fs, f<d.frecCount) (holdest : ∀ f, oldest=some f → f<d.frecCount)
    (htarget : ∀ f, target=some f → f<d.frecCount ∧ (d.frec f).sentto=none) :
    LiveFrom none d d' ∧ d'.frecCount=d.frecCount ∧
      (∀ f, oldest'=some f → f<d.frecCount) ∧
      ∀ f, target'=some f → f<d.frecCount ∧ (d'.frec f).sentto=none := by
  induction fs generalizing d target oldest with
  | nil =>
    cases h
    exact ⟨.refl none d',rfl,holdest,htarget⟩
  | cons f rest ih =>
    have hf := hfs f List.mem_cons_self
    have hrest := fun g hg => hfs g (List.mem_cons_of_mem f hg)
    have holder := older_lt hf holdest
    rw [scanFrecs] at h
    split_ifs at h with hfree hold
    · exact ih h hrest holdest (fun g hg => by cases hg; exact ⟨hf,hfree⟩)
    · have hcount := freeFrec_frecCount d f
      have hnone : (d.freeFrec f).frec f={ d.frec f with rfd4 := none, rfd6 := none, sentto := none } :=
        freeFrec_frec_self d f
      obtain ⟨hlive,hcount',ho,ht⟩ := ih h (by rwa [hcount])
        (fun g hg => by cases hg; rwa [hcount])
        (fun g hg => by cases hg; rw [hcount,hnone]; exact ⟨hf,rfl⟩)
      rw [hcount] at hcount' ho ht
      exact ⟨(freeFrec_liveFrom d f none).trans hlive,hcount',ho,ht⟩
    · exact ih h hrest (fun g hg => by cases hg; exact holder) htarget

theorem allocateFrec_spec {d d' : Daemon} {now : ℤ} {malloc : Bool} {f : ℕ}
    (h : d.allocateFrec now malloc=some (d',f)) :
    LiveFrom none d d' ∧ f<d'.frecCount ∧ (d'.frec f).sentto=none := by
  unfold allocateFrec at h
  split_ifs at h
  cases h
  refine ⟨?_,Nat.lt_succ_self _,?_⟩
  · intro g hg
    obtain ⟨hlt,hsome⟩ := hg
    dsimp only at hlt hsome
    by_cases hgf : g=d.frecCount
    · rw [hgf,Function.update_self] at hsome
      cases hsome
    · rw [Function.update_of_ne hgf] at hsome
      dsimp only
      rw [Function.update_of_ne hgf]
      exact ⟨by omega,.refl _,Or.inl hsome⟩
  · dsimp only
    rw [Function.update_self]

/-- A record from `get_new_frec` is free, and nothing comes into use. -/
theorem getNewFrec_spec {d d' : Daemon} {now : ℤ} {malloc : Bool} {f : ℕ}
    (h : d.getNewFrec now malloc=some (d',f)) :
    LiveFrom none d d' ∧ f<d'.frecCount ∧ (d'.frec f).sentto=none := by
  unfold getNewFrec at h
  cases hscan : scanFrecs now d.frecList d none none with
  | mk d1 rest =>
    obtain ⟨target,oldest⟩ := rest
    have hlist : ∀ g∈d.frecList, g<d.frecCount := by
      intro g hg
      exact List.mem_range.mp (List.mem_reverse.mp hg)
    obtain ⟨hlive,hcount,hold,hfree⟩ := scanFrecs_spec hscan hlist (fun g hg => by cases hg)
      (fun g hg => by cases hg)
    simp only [hscan] at h
    cases target with
    | some t =>
      cases h
      obtain ⟨hlt,hnone⟩ := hfree f rfl
      refine ⟨hlive.trans (takeFrec_liveFrom d1 f now),by rwa [← hcount] at hlt,?_⟩
      rw [takeFrec,setFrec_frec_self]
      exact hnone
    | none =>
      cases oldest with
      | none =>
        dsimp only at h
        split_ifs at h
        obtain ⟨halloc,hlt,hnone⟩ := allocateFrec_spec h
        exact ⟨hlive.trans halloc,hlt,hnone⟩
      | some o =>
        dsimp only at h
        split_ifs at h
        · obtain ⟨halloc,hlt,hnone⟩ := allocateFrec_spec h
          exact ⟨hlive.trans halloc,hlt,hnone⟩
        · cases h
          refine ⟨hlive.trans ((freeFrec_liveFrom d1 f none).trans (takeFrec_liveFrom _ f now)),?_,?_⟩
          · have hlt := hold f rfl
            rw [← hcount,← freeFrec_frecCount d1 f] at hlt
            exact hlt
          · rw [takeFrec,setFrec_frec_self,freeFrec_frec_self]
        · obtain ⟨halloc,hlt,hnone⟩ := allocateFrec_spec h
          exact ⟨hlive.trans halloc,hlt,hnone⟩

theorem getId_spec {d d' : Daemon} {force : Bool} {forceId newId : ℕ} {crc : BitVec 32}
    {rand16 : List ℕ} (h : d.getId force forceId crc rand16=some (d',newId)) :
    LiveFrom none d d' ∧ d'.frecCount=d.frecCount := by
  unfold getId at h
  split_ifs at h
  · split at h
    · cases h
      exact ⟨freeFrec_liveFrom d _ none,freeFrec_frecCount d _⟩
    · cases h
      exact ⟨.refl none d,rfl⟩
  · obtain ⟨id,-,heq⟩ := Option.map_eq_some_iff.mp h
    cases heq
    exact ⟨.refl none d,rfl⟩

/-! ## Sending -/

/-- All records belong to the queries they belonged to, and only `f` may have
come into use. -/
structure Sends (f : ℕ) (d d' : Daemon) : Prop where
  /-- The table has the same records. -/
  count : d'.frecCount=d.frecCount
  /-- They belong to the same queries. -/
  same : ∀ g, SameQuery (d'.frec g) (d.frec g)
  /-- The other ones are in use as before. -/
  others : ∀ g, g≠f → (d'.frec g).sentto=(d.frec g).sentto

theorem Sends.refl (f : ℕ) (d : Daemon) : Sends f d d := ⟨rfl,fun _ => .refl _,fun _ _ => rfl⟩

theorem Sends.trans {f : ℕ} {d d' d'' : Daemon} (h : Sends f d d') (h' : Sends f d' d'') :
    Sends f d d'' :=
  ⟨h'.count.trans h.count,fun g => (h'.same g).trans (h.same g),
    fun g hg => (h'.others g hg).trans (h.others g hg)⟩

theorem Sends.setFrec {d : Daemon} {f : ℕ} {r : Frec} (hsame : SameQuery r (d.frec f)) :
    Sends f d (d.setFrec f r) := by
  refine ⟨rfl,fun g => ?_,fun g hg => ?_⟩
  · by_cases hgf : g=f
    · rw [hgf,setFrec_frec_self]
      exact hsame
    · rw [setFrec_frec_of_ne hgf]
      exact .refl _
  · rw [setFrec_frec_of_ne hg]

theorem Sends.of_frec {f : ℕ} {d d' : Daemon} (hcount : d'.frecCount=d.frecCount)
    (hfrec : d'.frec=d.frec) : Sends f d d' := by
  refine ⟨hcount,fun g => ?_,fun g _ => ?_⟩
  · rw [hfrec]
    exact .refl _
  · rw [hfrec]

theorem Sends.liveFrom {f : ℕ} {d d' : Daemon} (h : Sends f d d') : LiveFrom (some f) d d' := by
  intro g hg
  obtain ⟨hlt,hsome⟩ := hg
  refine ⟨h.count ▸ hlt,h.same g,?_⟩
  by_cases hgf : g=f
  · exact Or.inr (congrArg some hgf.symm)
  · rw [h.others g hgf] at hsome
    exact Or.inl hsome

theorem allocateRfd_frec {d d' : Daemon} {family : Family} {sock : Option ℕ} {i : ℕ}
    (h : d.allocateRfd family sock=some (d',i)) : d'.frec=d.frec ∧ d'.frecCount=d.frecCount := by
  unfold allocateRfd at h
  split at h
  · cases h
    exact ⟨rfl,rfl⟩
  · obtain ⟨j,-,heq⟩ := Option.map_eq_some_iff.mp h
    cases heq
    exact ⟨rfl,rfl⟩

/-- A record that gets a random socket. -/
theorem allocateRfd_sends {d d' : Daemon} {f : ℕ} {family : Family} {sock : Option ℕ}
    (rfd : ℕ → Frec → Frec) (hrfd : ∀ i r, SameQuery (rfd i r) r)
    (h : (d.allocateRfd family sock).map (fun r => r.1.setFrec f (rfd r.2 (r.1.frec f)))=some d') :
    Sends f d d' := by
  obtain ⟨⟨d1,i⟩,halloc,heq⟩ := Option.map_eq_some_iff.mp h
  cases heq
  obtain ⟨hfrec,hcount⟩ := allocateRfd_frec halloc
  exact (Sends.of_frec hcount hfrec).trans (Sends.setFrec (hrfd i _))

theorem openSocket_sends {d d' : Daemon} {f : ℕ} {server : Server} {sock : Option ℕ}
    (h : d.openSocket f server sock=some d') : Sends f d d' := by
  unfold openSocket at h
  split at h
  · cases h
    exact .refl f d
  · split at h
    · split at h
      · cases h
        exact .refl f d
      · exact allocateRfd_sends (fun i r => { r with rfd6 := some i })
          (fun _ _ => ⟨rfl,rfl,rfl,rfl⟩) h
    · split at h
      · cases h
        exact .refl f d
      · exact allocateRfd_sends (fun i r => { r with rfd4 := some i })
          (fun _ _ => ⟨rfl,rfl,rfl,rfl⟩) h

theorem markSent_sends (d : Daemon) (f start : ℕ) : Sends f d (d.markSent f start) := by
  unfold markSent
  refine Sends.setFrec ?_
  exact ⟨rfl,rfl,rfl,rfl⟩

theorem countSent_sends (d : Daemon) (f : ℕ) : Sends f d (d.countSent f) := by
  unfold countSent
  refine Sends.setFrec ?_
  exact ⟨rfl,rfl,rfl,rfl⟩

theorem sendLoop_sends (io : Outcomes) (type : ℕ) (domain : List UInt8) (f fuel start : ℕ)
    (d : Daemon) (sent : List ℕ) : Sends f d (sendLoop io type domain f fuel start d sent).1 := by
  induction fuel generalizing start d sent with
  | zero => exact .refl f d
  | succ fuel ih =>
    rw [sendLoop]
    cases d.servers[start]? with
    | none => exact .refl f d
    | some server =>
      dsimp only
      by_cases hsuits : suits type domain server=true
      · rw [if_pos hsuits]
        cases hsocket : d.openSocket f server (io.randomSock start) with
        | none => exact .refl f d
        | some d1 =>
          have hopen := openSocket_sends hsocket
          have hmark := hopen.trans (markSent_sends d1 f start)
          dsimp only
          by_cases hsend : io.sendto start=true
          · rw [if_pos hsend]
            by_cases hall : (d1.frec f).forwardall=0
            · rw [if_pos hall]
              exact hmark
            · rw [if_neg hall]
              exact (hmark.trans (countSent_sends _ f)).trans (ih _ _ _)
          · rw [if_neg hsend]
            exact hopen.trans (ih _ _ _)
      · rw [if_neg hsuits]
        exact ih _ _ _

theorem send_liveFrom (d : Daemon) (io : Outcomes) (type : ℕ) (domain : List UInt8) (f start : ℕ) :
    LiveFrom (some f) d (d.send io type domain f start).1 := by
  have hloop := sendLoop_sends io type domain f d.servers.length start d []
  unfold send
  dsimp only
  split_ifs
  · intro g hg
    obtain ⟨hlt,hsame,hlive⟩ := freeFrec_liveFrom _ f none g hg
    obtain ⟨hlt',hsame',hlive'⟩ :=
      hloop.liveFrom g ⟨hlt,hlive.resolve_right (fun hf => by cases hf)⟩
    exact ⟨hlt',hsame.trans hsame',hlive'⟩
  · exact hloop.liveFrom

theorem markAll_sends (d : Daemon) (f : ℕ) : Sends f d (d.markAll f) := by
  unfold markAll
  refine Sends.setFrec ?_
  exact ⟨rfl,rfl,rfl,rfl⟩

theorem tryAll_sends (d : Daemon) (f : ℕ) : Sends f d (d.tryAll f) := by
  unfold tryAll
  split_ifs
  · exact .refl f d
  · exact (markAll_sends d f).trans (.of_frec rfl rfl)

/-- Sending a query again takes no record into use. -/
theorem resendQuery_liveFrom {d : Daemon} {f : ℕ} (hf : d.Live f) (io : Outcomes) :
    LiveFrom none d (d.resendQuery io f).daemon := by
  unfold resendQuery
  split
  · exact .refl none d
  · split
    · exact .refl none d
    · rename_i server _
      intro g hg
      have hall := tryAll_sends d f
      obtain ⟨hlt,hsame,hlive⟩ := send_liveFrom _ io server.type server.domain f _ g hg
      refine ⟨hall.count ▸ hlt,hsame.trans (hall.same g),Or.inl ?_⟩
      by_cases hgf : g=f
      · rw [hgf]
        exact hf.2
      · rw [← hall.others g hgf]
        exact hlive.resolve_right (fun heq => hgf (Option.some.inj heq).symm)

theorem chooseStart_sends (d : Daemon) (type f : ℕ) (now : ℤ) :
    Sends f d (d.chooseStart type f now).1 := by
  have hall : Sends f d (d.startAll f now) := (markAll_sends d f).trans (.of_frec rfl rfl)
  unfold chooseStart
  by_cases hfirst : type≠0 ∨ d.order=true
  · rw [if_pos hfirst]
    exact .refl f d
  · rw [if_neg hfirst]
    cases d.lastServer with
    | none => exact hall
    | some server =>
      dsimp only
      split_ifs
      · exact hall
      · exact .of_frec rfl rfl

/-- After a new query every record in use was in use before, or is the one that
was filled with the query. -/
theorem newQuery_spec {d : Daemon} {io : Outcomes} {client : Client} {packet : Packet} {now : ℤ}
    {r : Forwarded} (h : d.newQuery io client packet now=some r) :
    ∀ g, r.daemon.Live g → (r.created≠some g → d.Live g ∧ SameQuery (r.daemon.frec g) (d.frec g)) ∧
      (r.created=some g → (r.daemon.frec g).client=client ∧ (r.daemon.frec g).origId=packet.id ∧
        (r.daemon.frec g).crc=questionsCrc packet) := by
  intro g hg
  unfold newQuery at h
  split_ifs at h
  · cases h
    exact ⟨fun _ => ⟨hg,.refl _⟩,fun hf => by cases hf⟩
  · cases hnew : d.getNewFrec now io.malloc with
    | none =>
      rw [hnew] at h
      cases h
      exact ⟨fun _ => ⟨hg,.refl _⟩,fun hf => by cases hf⟩
    | some result =>
      obtain ⟨d1,f⟩ := result
      simp only [hnew] at h
      obtain ⟨⟨d2,newId⟩,hid,heq⟩ := Option.map_eq_some_iff.mp h
      obtain ⟨hlive1,hlt1,hfree⟩ := getNewFrec_spec hnew
      obtain ⟨hlive2,hcount2⟩ := getId_spec hid
      cases heq
      have hstart := chooseStart_sends (d2.fillFrec f client packet newId) io.search.2.1 f now
      obtain ⟨hlt,hsame,hlive⟩ := send_liveFrom _ io io.search.2.1 io.search.2.2 f _ g hg
      have hsame' := hsame.trans (hstart.same g)
      rw [hstart.count] at hlt
      refine ⟨fun hne => ?_,fun heq => ?_⟩
      · have hgf : g≠f := fun heq => hne (congrArg some heq.symm)
        have hfill : (d2.fillFrec f client packet newId).frec g=d2.frec g :=
          setFrec_frec_of_ne hgf d2 _
        have hsome := hlive.resolve_right hne
        rw [hstart.others g hgf,hfill] at hsome
        obtain ⟨hlt',hbefore,hused⟩ := hlive1.trans (f := none) hlive2 g ⟨hlt,hsome⟩
        rw [hfill] at hsame'
        exact ⟨⟨hlt',hused.resolve_right (fun hf => by cases hf)⟩,hsame'.trans hbefore⟩
      · obtain rfl : f=g := Option.some.inj heq
        have hfill : (d2.fillFrec f client packet newId).frec f=_ := setFrec_frec_self d2 f _
        rw [hfill] at hsame'
        exact ⟨hsame'.client,hsame'.origId,hsame'.crc⟩

/-! ## Replies -/

theorem lookupFrec_some {d : Daemon} {id f : ℕ} {crc : BitVec 32}
    (h : d.lookupFrec id crc=some f) :
    d.Live f ∧ (d.frec f).newId=id ∧ ((d.frec f).crc=crc ∨ crc=noQuestion) := by
  have hmem := List.mem_of_find?_eq_some h
  have hprop := List.find?_some h
  simp only [Bool.and_eq_true,Bool.or_eq_true,beq_iff_eq] at hprop
  exact ⟨⟨List.mem_range.mp (List.mem_reverse.mp hmem),hprop.1.1⟩,hprop.1.2,hprop.2⟩

theorem lookupFrecBySender_live {d : Daemon} {id f : ℕ} {addr : SockAddr} {crc : BitVec 32}
    (h : d.lookupFrecBySender id addr crc=some f) : d.Live f := by
  have hmem := List.mem_of_find?_eq_some h
  have hprop := List.find?_some h
  simp only [Bool.and_eq_true] at hprop
  exact ⟨List.mem_range.mp (List.mem_reverse.mp hmem),hprop.1.1.1⟩

theorem noteServer_frec (d : Daemon) (f : ℕ) (addr : SockAddr) (packet : Packet) :
    (d.noteServer f addr packet).frec=d.frec ∧
      (d.noteServer f addr packet).frecCount=d.frecCount := by
  unfold noteServer
  cases (d.frec f).sentto with
  | none => exact ⟨rfl,rfl⟩
  | some sentto =>
    dsimp only
    split_ifs <;> exact ⟨rfl,rfl⟩

theorem countReply_spec (d : Daemon) (f : ℕ) :
    LiveFrom none d (d.countReply f) ∧ SameQuery ((d.countReply f).frec f) (d.frec f) := by
  unfold countReply
  split_ifs
  · exact ⟨.refl none d,.refl _⟩
  · constructor
    · refine setFrec_liveFrom ?_ ?_ none
      · exact ⟨rfl,rfl,rfl,rfl⟩
      · exact fun h => h
    · rw [setFrec_frec_self]
      exact ⟨rfl,rfl,rfl,rfl⟩

theorem relayReply_spec (d : Daemon) (f : ℕ) (packet : Packet) (out : ReplyOutcomes) :
    LiveFrom none d (d.relayReply f packet out).1 ∧
      ∀ relay, (d.relayReply f packet out).2=some relay →
        relay.client=(d.frec f).client ∧
          ∃ p, relay.packet=answerPacket p (d.frec f).origId := by
  obtain ⟨hlive,hsame⟩ := countReply_spec d f
  unfold relayReply
  dsimp only
  split_ifs
  · refine ⟨hlive.trans (freeFrec_liveFrom _ f none),fun relay hrelay => ?_⟩
    obtain ⟨p,-,rfl⟩ := Option.map_eq_some_iff.mp hrelay
    exact ⟨hsame.client,p,by rw [hsame.origId]⟩
  · exact ⟨hlive,fun relay hrelay => by cases hrelay⟩

/-- A reply takes no record into use, and it is relayed only to the client of a
record in use that it fits. -/
theorem replyQuery_spec (d : Daemon) (addr : SockAddr) (packet : Packet) (out : ReplyOutcomes) :
    LiveFrom none d (d.replyQuery addr packet out).1 ∧
      ∀ relay, (d.replyQuery addr packet out).2=some relay →
        ∃ f, d.Live f ∧ (d.frec f).newId=packet.id ∧
          ((d.frec f).crc=questionsCrc packet ∨ questionsCrc packet=noQuestion) ∧
          relay.client=(d.frec f).client ∧
          ∃ p, relay.packet=answerPacket p (d.frec f).origId := by
  unfold replyQuery
  split_ifs
  · cases hlookup : d.lookupFrec packet.id (questionsCrc packet) with
    | none => exact ⟨.refl none d,fun relay hrelay => by cases hrelay⟩
    | some f =>
      obtain ⟨hlive,hid,hcrc⟩ := lookupFrec_some hlookup
      dsimp only
      split_ifs
      · exact ⟨resendQuery_liveFrom hlive out.io,fun relay hrelay => by cases hrelay⟩
      · obtain ⟨hfrec,hcount⟩ := noteServer_frec d f addr packet
        obtain ⟨hafter,hrelay⟩ := relayReply_spec (d.noteServer f addr packet) f packet out
        have hnote : LiveFrom none d (d.noteServer f addr packet) := by
          intro g hg
          rw [Live,hfrec,hcount] at hg
          rw [hfrec]
          exact ⟨hg.1,.refl _,Or.inl hg.2⟩
        refine ⟨hnote.trans hafter,fun relay h => ⟨f,hlive,hid,hcrc,?_⟩⟩
        rw [← hfrec]
        exact hrelay relay h
  · exact ⟨.refl none d,fun relay hrelay => by cases hrelay⟩

end Daemon

/-! ## Whole runs -/

/-- What happens to the forwarder. -/
inductive Event where
  /-- A client's query, new or sent again, is forwarded. -/
  | query (client : Client) (packet : Packet) (now : ℤ) (io : Outcomes)
  /-- A packet arrives from an address. -/
  | reply (addr : SockAddr) (packet : Packet) (out : Daemon.ReplyOutcomes)

/-- The packet of an event. -/
def Event.packet : Event → Packet
  | .query _ packet _ _ => packet
  | .reply _ packet _ => packet

/-- The daemon, with the query that each record was last filled for. -/
structure System where
  /-- The daemon. -/
  daemon : Daemon
  /-- The client and the packet of the query that a record was created for. -/
  origin : ℕ → Client×Packet

/-- One event, and the packet that is relayed to a client. -/
def step (s : System) : Event → Option (System×Option Daemon.Relay)
  | .query client packet now io =>
    (s.daemon.forwardQuery io client packet now).map fun r =>
      (⟨r.daemon,fun f => if r.created=some f then (client,packet) else s.origin f⟩,none)
  | .reply addr packet out =>
    some (⟨(s.daemon.replyQuery addr packet out).1,s.origin⟩,
      (s.daemon.replyQuery addr packet out).2)

/-- The events of a run, one after the other. -/
def run (s : System) : List Event → Option System
  | [] => some s
  | e::rest => (step s e).bind fun r => run r.1 rest

/-- The records in use have the client, the id and the checksum of the query
they were created for, which is one of the events. -/
def Traced (events : List Event) (s : System) : Prop :=
  ∀ f, s.daemon.Live f → (s.daemon.frec f).client=(s.origin f).1 ∧
    (s.daemon.frec f).origId=(s.origin f).2.id ∧
    (s.daemon.frec f).crc=questionsCrc (s.origin f).2 ∧
    ∃ now io, .query (s.origin f).1 (s.origin f).2 now io∈events

theorem Traced.of_liveFrom {events : List Event} {s : System} {d : Daemon} (h : Traced events s)
    (hlive : Daemon.LiveFrom none s.daemon d) : Traced events ⟨d,s.origin⟩ := by
  intro f hf
  obtain ⟨hlt,hsame,hused⟩ := hlive f hf
  obtain ⟨hclient,hid,hcrc,hevent⟩ := h f ⟨hlt,hused.resolve_right (fun hf => by cases hf)⟩
  exact ⟨hsame.client.trans hclient,hsame.origId.trans hid,hsame.crc.trans hcrc,hevent⟩

theorem Traced.mono {events events' : List Event} {s : System} (h : Traced events s)
    (hsub : ∀ e∈events, e∈events') : Traced events' s := by
  intro f hf
  obtain ⟨hclient,hid,hcrc,now,io,hmem⟩ := h f hf
  exact ⟨hclient,hid,hcrc,now,io,hsub _ hmem⟩

/-- One event keeps the records traced. -/
theorem step_traced {events : List Event} {s s' : System} {e : Event}
    {relay : Option Daemon.Relay} (h : Traced events s) (hstep : step s e=some (s',relay)) :
    Traced (events++[e]) s' := by
  have hmono : Traced (events++[e]) s := h.mono (fun x hx => List.mem_append_left _ hx)
  cases e with
  | reply addr packet out =>
    cases hstep
    exact hmono.of_liveFrom (Daemon.replyQuery_spec s.daemon addr packet out).1
  | query client packet now io =>
    obtain ⟨r,hr,heq⟩ := Option.map_eq_some_iff.mp hstep
    cases heq
    unfold Daemon.forwardQuery at hr
    split_ifs at hr
    · cases hr
      exact hmono
    · cases hlookup : s.daemon.lookupFrecBySender packet.id client.source
          (questionsCrc packet) with
      | some f =>
        rw [hlookup] at hr
        cases hr
        have hlive := Daemon.resendQuery_liveFrom (Daemon.lookupFrecBySender_live hlookup) io
        have hcreated : (s.daemon.resendQuery io f).created=none := by
          unfold Daemon.resendQuery
          split
          · rfl
          · split <;> rfl
        rw [hcreated]
        exact hmono.of_liveFrom hlive
      | none =>
        rw [hlookup] at hr
        intro g hg
        obtain ⟨hold,hnew⟩ := Daemon.newQuery_spec hr g hg
        dsimp only at hg ⊢
        by_cases hcreated : r.created=some g
        · obtain ⟨hclient,hid,hcrc⟩ := hnew hcreated
          rw [if_pos hcreated]
          exact ⟨hclient,hid,hcrc,now,io,List.mem_append_right _ (List.mem_singleton_self _)⟩
        · obtain ⟨hlive,hsame⟩ := hold hcreated
          obtain ⟨hclient,hid,hcrc,hevent⟩ := hmono g hlive
          rw [if_neg hcreated]
          exact ⟨hsame.client.trans hclient,hsame.origId.trans hid,hsame.crc.trans hcrc,hevent⟩

/-- A run keeps the records traced. -/
theorem run_traced {before events : List Event} {s s' : System} (h : Traced before s)
    (hrun : run s events=some s') : Traced (before++events) s' := by
  induction events generalizing before s with
  | nil =>
    cases hrun
    rwa [List.append_nil]
  | cons e rest ih =>
    obtain ⟨⟨s1,relay⟩,hstep,hrest⟩ := Option.bind_eq_some_iff.mp hrun
    have hnext := ih (step_traced h hstep) hrest
    rwa [List.append_assoc] at hnext

/-- The checksum tells the well-formed question sections of these packets apart. -/
def CrcSeparates (packets : List Packet) : Prop :=
  ∀ a∈packets, ∀ b∈packets, ∀ qs qs', questions a=some qs → questions b=some qs' →
    questionsCrc a=questionsCrc b → qs=qs'

theorem short_lt (packet : Packet) (i : ℕ) : packet.short i<65536 := by
  have hhigh := (packet.bytes i).toNat_lt
  have hlow := (packet.bytes (i+1)).toNat_lt
  unfold Packet.short
  omega

theorem answerPacket_id {id : ℕ} (hid : id<65536) (packet : Packet) :
    (Daemon.answerPacket packet id).id=id := by
  have hhigh : (UInt8.ofNat (id/256)).toNat=id/256 := by
    rw [UInt8.toNat_ofNat']
    omega
  have hlow : (UInt8.ofNat id).toNat=id%256 := UInt8.toNat_ofNat'
  simp only [Packet.id,Packet.short,Daemon.answerPacket,if_pos,Nat.zero_add,Nat.one_ne_zero,
    if_false,hhigh,hlow]
  omega

/-- The packet that the last of some events relays. -/
def relayed (s : System) (events : List Event) (last : Event) : Option Daemon.Relay :=
  (run s events).bind fun t => (step t last).bind fun r => r.2

theorem exists_of_relayed {s : System} {events : List Event} {last : Event}
    (h : (relayed s events last).isSome=true) :
    ∃ t s' relay, run s events=some t ∧ step t last=some (s',some relay) := by
  obtain ⟨relay,hrelay⟩ := Option.isSome_iff_exists.mp h
  obtain ⟨t,ht,hlast⟩ := Option.bind_eq_some_iff.mp hrelay
  obtain ⟨⟨s',relay'⟩,hs',heq⟩ := Option.bind_eq_some_iff.mp hlast
  cases heq
  exact ⟨t,s',relay,ht,hs'⟩

/-- A packet with these bytes. -/
def packetOf (bytes : List UInt8) : Packet := ⟨fun i => bytes.getD i 0,bytes.length⟩

/-- A client. -/
def laptop : Client := ⟨4,⟨.inet,[192,168,1,5],40000⟩,[192,168,1,1],2⟩

/-- A forwarder with one server and an empty table. -/
def idle : System where
  daemon :=
    { servers := [⟨⟨.inet,[8,8,8,8],53⟩,some 3,[],0,false,false⟩]
      order := false
      allServers := false
      ftabsize := 150
      lastServer := none
      forwardcount := 0
      forwardtime := 0
      frec := fun _ => ⟨laptop,none,none,none,0,0,0,0#32,0⟩
      frecCount := 0
      randomsocks := fun _ => ⟨0,0,.inet,false⟩
      finger := 0 }
  origin _ := (laptop,packetOf [])

/-- The query for the address of `a`, with id `0x1234`. -/
def queryPacket : Packet := packetOf [0x12,0x34,1,0,0,1,0,0,0,0,0,0,1,97,0,0,1,0,1]

/-- The reply to it, which writes the name in upper case. -/
def replyPacket : Packet := packetOf [0,7,0x81,0x80,0,1,0,0,0,0,0,0,1,65,0,0,1,0,1]

/-- A reply with the same id and without questions. -/
def barePacket : Packet := packetOf [0,7,0x81,0x80,0,0,0,0,0,0,0,0]

/-- The outcomes of forwarding the query: the first random id is 7. -/
def queryOutcomes : Outcomes := ⟨(false,0,[]),false,[7],true,fun _ => none,fun _ => true⟩

/-- The query of the client. -/
def queryEvent : Event := .query laptop queryPacket 100 queryOutcomes

/-- A packet from the server, relayed as it is. -/
def replyEvent (packet : Packet) : Event :=
  .reply ⟨.inet,[8,8,8,8],53⟩ packet ⟨queryOutcomes,false,true,some packet⟩

theorem questions_queryPacket : questions queryPacket=some [⟨[97],[0,1,0,1]⟩] := by
  decide +kernel

/-- Two packets whose question sections agree or have different checksums. -/
theorem crcSeparates_pair {a b : Packet}
    (h : ∀ qs qs', questions a=some qs → questions b=some qs' →
      questionsCrc a=questionsCrc b → qs=qs') : CrcSeparates [a,b] := by
  intro x hx y hy qs qs' hqs hqs' heq
  rcases List.mem_pair.mp hx with rfl | rfl
  · rcases List.mem_pair.mp hy with rfl | rfl
    · exact Option.some.inj (hqs.symm.trans hqs')
    · exact h qs qs' hqs hqs' heq
  · rcases List.mem_pair.mp hy with rfl | rfl
    · exact (h qs' qs hqs' hqs heq.symm).symm
    · exact Option.some.inj (hqs.symm.trans hqs')

end AndroidPlatform.DnsForward
