import AndroidPlatform.DnsReplyMatching
import AndroidPlatform.TransitionSystem
import Mathlib.Algebra.BigOperators.Group.Finset.Basic

/-!
# The forwarding table and its sockets

Records of the forwarding table are told apart by their ids and checksums, and
they share random sockets by counting references. Every way out of the functions
that fill, recycle and free records gives back the sockets that were taken. The
records in use have different pairs of id and checksum as long as no signed
query without a readable question takes over an id: the search for the record
to free then finds the first record with that id, whatever its checksum.
-/

namespace AndroidPlatform.DnsForward

open DnsPacket

namespace Daemon

/-! ## The other calls -/

/-- `get_new_frec` with a place for the waiting time: the daemon, the record
that would be used, and the time to wait. -/
def getNewFrecWait (d : Daemon) (now : ℤ) (malloc : Bool) : Daemon×Option ℕ×ℤ :=
  match scanFrecs now d.frecList d none none with
  | (d',some target,_) => (d'.takeFrec target now,some target,0)
  | (d',none,oldest) =>
    if (oldest.any fun o => timeout≤now-(d'.frec o).time)=true then
      if (oldest.any fun o => now-(d'.frec o).time<2*timeout)=true ∧ d.frecCount≤d.ftabsize then
        match d'.allocateFrec now malloc with
        | some (d'',f) => (d'',some f,0)
        | none => (d',oldest,0)
      else (d',oldest,0)
    else if d.ftabsize<d.frecCount then
      (d',none,match oldest with
        | some o => (d'.frec o).time+timeout-now
        | none => 0)
    else
      match d'.allocateFrec now malloc with
      | some (d'',f) => (d'',some f,0)
      | none => (d',none,1)

/-- The loop of `server_gone`. -/
def freeSent (server : ℕ) (fs : List ℕ) (d : Daemon) : Daemon :=
  fs.foldl (fun d f => if (d.frec f).sentto=some server then d.freeFrec f else d) d

/-- `server_gone` -/
def serverGone (d : Daemon) (server : ℕ) : Daemon :=
  let d' := freeSent server d.frecList d
  if d'.lastServer=some server then { d' with lastServer := none } else d'

/-! ## Counting references -/

/-- How many fields of a record point to a socket. -/
def uses (r : Frec) (i : ℕ) : ℕ :=
  (if r.rfd4=some i then 1 else 0)+(if r.rfd6=some i then 1 else 0)

/-- How many fields of the records point to a socket. -/
def references (d : Daemon) (i : ℕ) : ℕ := ∑ f∈Finset.range d.frecCount, uses (d.frec f) i

/-- The reference counts are these, and the sockets with references are open. -/
structure Serves (d : Daemon) (n : ℕ → ℕ) : Prop where
  refcount : ∀ i<randomSocks, (d.randomsocks i).refcount=n i
  isOpen : ∀ i<randomSocks, ((d.randomsocks i).isOpen=true ↔ (d.randomsocks i).refcount≠0)

theorem Serves.congr {d : Daemon} {n m : ℕ → ℕ} (h : Serves d n) (heq : ∀ i, n i=m i) :
    Serves d m :=
  ⟨fun i hi => (h.refcount i hi).trans (heq i),h.isOpen⟩

theorem Serves.of_randomsocks {d d' : Daemon} {n : ℕ → ℕ} (h : Serves d n)
    (heq : d'.randomsocks=d.randomsocks) : Serves d' n := by
  refine ⟨?_,?_⟩
  · rw [heq]
    exact h.refcount
  · rw [heq]
    exact h.isOpen

/-- Giving back a reference. -/
theorem Serves.release {d : Daemon} {n : ℕ → ℕ} {rfd : Option ℕ}
    (h : Serves d fun i => n i+if rfd=some i then 1 else 0) : Serves (d.releaseRfd rfd) n := by
  cases rfd with
  | none => exact h.congr (fun i => by rw [if_neg (fun hf => by cases hf),Nat.add_zero])
  | some j =>
    refine ⟨fun i hi => ?_,fun i hi => ?_⟩
    · have hcount := h.refcount i hi
      by_cases hij : i=j
      · dsimp only [releaseRfd] at hcount ⊢
        rw [hij,if_pos rfl] at hcount
        rw [hij,Function.update_self]
        dsimp only
        omega
      · dsimp only [releaseRfd] at hcount ⊢
        rw [if_neg (fun heq => hij (Option.some.inj heq).symm),Nat.add_zero] at hcount
        rw [Function.update_of_ne hij]
        exact hcount
    · have hopen := h.isOpen i hi
      have hcount := h.refcount i hi
      by_cases hij : i=j
      · dsimp only [releaseRfd] at hcount ⊢
        rw [hij,if_pos rfl] at hcount
        rw [hij] at hopen
        rw [hij,Function.update_self]
        dsimp only
        have hwas : (d.randomsocks j).isOpen=true := by
          rw [hopen]
          omega
        rw [hwas,Bool.true_and,decide_eq_true_iff]
      · dsimp only [releaseRfd]
        rw [Function.update_of_ne hij]
        exact hopen

/-- Taking a reference. -/
theorem Serves.allocate {d d' : Daemon} {n : ℕ → ℕ} {family : Family} {sock : Option ℕ} {j : ℕ}
    (h : Serves d n) (halloc : d.allocateRfd family sock=some (d',j)) :
    j<randomSocks ∧ Serves d' fun i => n i+if some j=some i then 1 else 0 := by
  have hupdate : ∀ r : RandFd, r.refcount=(d.randomsocks j).refcount+1 → r.isOpen=true →
      d'.randomsocks=Function.update d.randomsocks j r →
      Serves d' fun i => n i+if some j=some i then 1 else 0 := by
    intro r hcount hopen heq
    refine ⟨fun i hi => ?_,fun i hi => ?_⟩
    · rw [heq]
      by_cases hij : i=j
      · rw [hij] at hi
        rw [hij,Function.update_self,if_pos rfl,hcount,h.refcount j hi]
      · rw [Function.update_of_ne hij,if_neg (fun hf => hij (Option.some.inj hf).symm),Nat.add_zero]
        exact h.refcount i hi
    · rw [heq]
      by_cases hij : i=j
      · rw [hij,Function.update_self,hcount]
        exact iff_of_true hopen (Nat.succ_ne_zero _)
      · rw [Function.update_of_ne hij]
        exact h.isOpen i hi
  unfold allocateRfd at halloc
  split at halloc
  · next _ _ i fd hfind =>
    cases halloc
    have hmem := List.mem_range.mp (List.mem_of_find?_eq_some hfind)
    have hzero := List.find?_some hfind
    rw [beq_iff_eq] at hzero
    exact ⟨hmem,hupdate ⟨fd,1,family,true⟩ (by rw [hzero]) rfl rfl⟩
  · obtain ⟨i,hfind,heq⟩ := Option.map_eq_some_iff.mp halloc
    cases heq
    have hlt : j<randomSocks := by
      obtain ⟨k,-,hk⟩ := List.mem_map.mp (List.mem_of_find?_eq_some hfind)
      rw [← hk]
      exact Nat.mod_lt _ (by decide)
    have hprop := List.find?_some hfind
    simp only [Bool.and_eq_true,decide_eq_true_iff] at hprop
    refine ⟨hlt,hupdate _ rfl ?_ rfl⟩
    exact (h.isOpen j hlt).mpr hprop.1.1

/-- The fields that point to a socket, apart from those of one record. -/
def otherReferences (d : Daemon) (f i : ℕ) : ℕ :=
  ∑ g∈(Finset.range d.frecCount).erase f, uses (d.frec g) i

theorem references_eq {d : Daemon} {f : ℕ} (hf : f<d.frecCount) (i : ℕ) :
    d.references i=d.otherReferences f i+uses (d.frec f) i :=
  (Finset.sum_erase_add _ _ (Finset.mem_range.mpr hf)).symm

theorem otherReferences_congr {d d' : Daemon} {f : ℕ} (hcount : d'.frecCount=d.frecCount)
    (hfrec : ∀ g, g≠f → d'.frec g=d.frec g) (i : ℕ) :
    d'.otherReferences f i=d.otherReferences f i := by
  rw [otherReferences,otherReferences,hcount]
  refine Finset.sum_congr rfl (fun g hg => ?_)
  rw [hfrec g (Finset.ne_of_mem_erase hg)]

/-! ## The sockets of the records -/

/-- The table with its sockets: the counts are right, records point to sockets
that exist, and records that are not in use hold none, apart from the one that
a query is being put into. -/
structure Table (d : Daemon) (pending : Option ℕ) : Prop where
  serves : Serves d d.references
  bound : ∀ f<d.frecCount, ∀ i, (d.frec f).rfd4=some i ∨ (d.frec f).rfd6=some i → i<randomSocks
  free : ∀ f<d.frecCount, pending≠some f → (d.frec f).sentto=none →
    (d.frec f).rfd4=none ∧ (d.frec f).rfd6=none

variable {d d' : Daemon} {pending : Option ℕ} {f : ℕ}

/-- A change of a record that keeps its sockets. -/
theorem Table.setFrec (h : Table d pending) {r : Frec} (hrfd4 : r.rfd4=(d.frec f).rfd4)
    (hrfd6 : r.rfd6=(d.frec f).rfd6)
    (hsent : r.sentto=none → (d.frec f).sentto=none ∨ pending=some f) :
    Table (d.setFrec f r) pending := by
  have hrefs : ∀ i, d.references i=(d.setFrec f r).references i := by
    intro i
    refine Finset.sum_congr rfl (fun g _ => ?_)
    by_cases hgf : g=f
    · rw [hgf,setFrec_frec_self,uses,uses,hrfd4,hrfd6]
    · rw [setFrec_frec_of_ne hgf]
  refine ⟨(h.serves.congr hrefs).of_randomsocks rfl,fun g hg i => ?_,fun g hg hne hnone => ?_⟩
  · by_cases hgf : g=f
    · rw [hgf,setFrec_frec_self,hrfd4,hrfd6]
      exact h.bound f (hgf ▸ hg) i
    · rw [setFrec_frec_of_ne hgf]
      exact h.bound g hg i
  · by_cases hgf : g=f
    · rw [hgf,setFrec_frec_self] at hnone
      rw [hgf] at hne hg
      rw [hgf,setFrec_frec_self,hrfd4,hrfd6]
      exact h.free f hg hne ((hsent hnone).resolve_right hne)
    · rw [setFrec_frec_of_ne hgf] at hnone ⊢
      exact h.free g hg hne hnone

/-- A change outside of the records and sockets. -/
theorem Table.of_eq (h : Table d pending) (hfrec : d'.frec=d.frec)
    (hcount : d'.frecCount=d.frecCount) (hsocks : d'.randomsocks=d.randomsocks) :
    Table d' pending := by
  refine ⟨(h.serves.congr (fun i => ?_)).of_randomsocks hsocks,?_,?_⟩
  · rw [references,references,hfrec,hcount]
  · rw [hfrec,hcount]
    exact h.bound
  · rw [hfrec,hcount]
    exact h.free

theorem Table.weaken (h : Table d none) (pending : Option ℕ) : Table d pending :=
  ⟨h.serves,h.bound,fun g hg _ => h.free g hg (fun hf => by cases hf)⟩

/-- A record that is in use needs no exception. -/
theorem Table.settle (h : Table d (some f)) (hsent : (d.frec f).sentto.isSome=true) :
    Table d none := by
  refine ⟨h.serves,h.bound,fun g hg _ hnone => h.free g hg (fun heq => ?_) hnone⟩
  rw [← Option.some.inj heq] at hnone
  rw [hnone] at hsent
  cases hsent

/-- `free_frec` gives back the sockets of a record. -/
theorem Table.freeFrec (h : Table d pending) (hf : f<d.frecCount)
    (hpending : pending=none ∨ pending=some f) : Table (d.freeFrec f) none := by
  have hother : ∀ i, (d.freeFrec f).references i=d.otherReferences f i := by
    intro i
    have hlt : f<(d.freeFrec f).frecCount := by
      rw [freeFrec_frecCount]
      exact hf
    rw [references_eq hlt,freeFrec_frec_self,otherReferences_congr (freeFrec_frecCount d f)
      (fun g hg => freeFrec_frec_of_ne hg d)]
    rfl
  have hsplit : Serves d fun i => (d.otherReferences f i+
      if (d.frec f).rfd6=some i then 1 else 0)+if (d.frec f).rfd4=some i then 1 else 0 := by
    refine h.serves.congr (fun i => ?_)
    rw [references_eq hf,uses]
    omega
  refine ⟨(hsplit.release.release.congr (fun i => (hother i).symm)).of_randomsocks rfl,
    fun g hg i => ?_,fun g hg _ hnone => ?_⟩
  · rw [freeFrec_frecCount] at hg
    by_cases hgf : g=f
    · rw [hgf,freeFrec_frec_self]
      exact fun hf => hf.elim (fun hf => by cases hf) (fun hf => by cases hf)
    · rw [freeFrec_frec_of_ne hgf]
      exact h.bound g hg i
  · rw [freeFrec_frecCount] at hg
    by_cases hgf : g=f
    · rw [hgf,freeFrec_frec_self]
      exact ⟨rfl,rfl⟩
    · rw [freeFrec_frec_of_ne hgf] at hnone ⊢
      refine h.free g hg (fun heq => ?_) hnone
      rcases hpending with hp | hp
      · rw [hp] at heq
        cases heq
      · rw [hp] at heq
        exact hgf (Option.some.inj heq).symm

/-! ## Sending -/

/-- A record takes a random socket. -/
theorem Table.takeSocket {d1 : Daemon} {family : Family} {sock : Option ℕ} {j : ℕ} {r : Frec}
    (h : Table d (some f)) (hf : f<d.frecCount) (halloc : d.allocateRfd family sock=some (d1,j))
    (huses : ∀ i, uses r i=uses (d.frec f) i+if some j=some i then 1 else 0)
    (hbound : ∀ i, r.rfd4=some i ∨ r.rfd6=some i →
      i=j ∨ (d.frec f).rfd4=some i ∨ (d.frec f).rfd6=some i) :
    Table (d1.setFrec f r) (some f) := by
  obtain ⟨hfrec,hcount⟩ := allocateRfd_frec halloc
  obtain ⟨hj,hserves⟩ := h.serves.allocate halloc
  have hf1 : f<(d1.setFrec f r).frecCount := by
    rw [← hcount] at hf
    exact hf
  have hother : ∀ i, (d1.setFrec f r).otherReferences f i=d.otherReferences f i :=
    otherReferences_congr hcount (fun g hg => by rw [setFrec_frec_of_ne hg,hfrec])
  refine ⟨(hserves.congr (fun i => ?_)).of_randomsocks rfl,fun g hg i hi => ?_,
    fun g hg hne hnone => ?_⟩
  · rw [references_eq hf1,references_eq hf,setFrec_frec_self,huses,hother]
    omega
  · by_cases hgf : g=f
    · rw [hgf,setFrec_frec_self] at hi
      rcases hbound i hi with rfl | hi
      · exact hj
      · exact h.bound f hf i hi
    · rw [setFrec_frec_of_ne hgf,hfrec] at hi
      exact h.bound g (hcount ▸ hg) i hi
  · have hgf : g≠f := fun heq => hne (congrArg some heq.symm)
    rw [setFrec_frec_of_ne hgf,hfrec] at hnone ⊢
    exact h.free g (hcount ▸ hg) hne hnone

/-- The state of the table while a query is sent from a record. -/
structure Sending (d : Daemon) (f : ℕ) (sent : List ℕ) : Prop where
  table : Table d (some f)
  lt : f<d.frecCount
  marked : sent≠[] → (d.frec f).sentto.isSome=true

theorem Sending.openSocket {sent : List ℕ} (h : Sending d f sent) {server : Server}
    {sock : Option ℕ} (hopen : d.openSocket f server sock=some d') : Sending d' f sent := by
  have htake : ∀ {family : Family} {r : ℕ → Frec → Frec},
      (∀ j, (r j (d.frec f)).sentto=(d.frec f).sentto) →
      (∀ j i, uses (r j (d.frec f)) i=uses (d.frec f) i+if some j=some i then 1 else 0) →
      (∀ j i, (r j (d.frec f)).rfd4=some i ∨ (r j (d.frec f)).rfd6=some i →
        i=j ∨ (d.frec f).rfd4=some i ∨ (d.frec f).rfd6=some i) →
      (d.allocateRfd family sock).map (fun p => p.1.setFrec f (r p.2 (p.1.frec f)))=some d' →
      Sending d' f sent := by
    intro family r hsent huses hbound hmap
    obtain ⟨p,halloc,rfl⟩ := Option.map_eq_some_iff.mp hmap
    obtain ⟨hfrec,hcount⟩ := allocateRfd_frec halloc
    rw [hfrec]
    refine ⟨h.table.takeSocket h.lt halloc (huses p.2) (hbound p.2),?_,fun hne => ?_⟩
    · exact hcount.symm ▸ h.lt
    · rw [setFrec_frec_self,hsent]
      exact h.marked hne
  unfold Daemon.openSocket at hopen
  cases hsfd : server.sfd with
  | some fd =>
    rw [hsfd] at hopen
    cases hopen
    exact h
  | none =>
    rw [hsfd] at hopen
    cases hfamily : server.addr.family with
    | inet6 =>
      rw [hfamily] at hopen
      cases hrfd : (d.frec f).rfd6 with
      | some i =>
        rw [hrfd] at hopen
        cases hopen
        exact h
      | none =>
        rw [hrfd] at hopen
        refine htake (r := fun j r => { r with rfd6 := some j }) (fun _ => rfl) (fun j i => ?_)
          (fun j i hi => ?_) hopen
        · rw [uses,uses,hrfd]
          simp only [reduceCtorEq,if_false,Nat.add_zero]
        · rcases hi with hi | hi
          · exact Or.inr (Or.inl hi)
          · exact Or.inl (Option.some.inj hi).symm
    | inet =>
      rw [hfamily] at hopen
      cases hrfd : (d.frec f).rfd4 with
      | some i =>
        rw [hrfd] at hopen
        cases hopen
        exact h
      | none =>
        rw [hrfd] at hopen
        refine htake (r := fun j r => { r with rfd4 := some j }) (fun _ => rfl) (fun j i => ?_)
          (fun j i hi => ?_) hopen
        · rw [uses,uses,hrfd]
          simp only [reduceCtorEq,if_false,Nat.zero_add]
          exact Nat.add_comm _ _
        · rcases hi with hi | hi
          · exact Or.inl (Option.some.inj hi).symm
          · exact Or.inr (Or.inr hi)

theorem Sending.markSent {sent : List ℕ} (h : Sending d f sent) (start : ℕ) :
    Sending (d.markSent f start) f (sent++[start]) := by
  unfold Daemon.markSent
  refine ⟨h.table.setFrec rfl rfl (fun hnone => by cases hnone),h.lt,fun _ => ?_⟩
  rw [setFrec_frec_self]
  rfl

theorem Sending.countSent {sent : List ℕ} (h : Sending d f sent) :
    Sending (d.countSent f) f sent := by
  unfold Daemon.countSent
  refine ⟨h.table.setFrec rfl rfl (fun hnone => Or.inl hnone),h.lt,fun hne => ?_⟩
  rw [setFrec_frec_self]
  exact h.marked hne

theorem Sending.sendLoop {sent : List ℕ} (h : Sending d f sent) (io : Outcomes) (type : ℕ)
    (domain : List UInt8) (fuel start : ℕ) :
    Sending (sendLoop io type domain f fuel start d sent).1 f
      (sendLoop io type domain f fuel start d sent).2 := by
  induction fuel generalizing start d sent with
  | zero => exact h
  | succ fuel ih =>
    rw [Daemon.sendLoop]
    cases d.servers[start]? with
    | none => exact h
    | some server =>
      dsimp only
      by_cases hsuits : suits type domain server=true
      · rw [if_pos hsuits]
        cases hsocket : d.openSocket f server (io.randomSock start) with
        | none => exact h
        | some d1 =>
          have hopen := h.openSocket hsocket
          dsimp only
          by_cases hsend : io.sendto start=true
          · rw [if_pos hsend]
            by_cases hall : (d1.frec f).forwardall=0
            · rw [if_pos hall]
              exact hopen.markSent start
            · rw [if_neg hall]
              exact ih (hopen.markSent start).countSent _
          · rw [if_neg hsend]
            exact ih hopen _
      · rw [if_neg hsuits]
        exact ih h _

/-- After sending, the record is in use or gives back its sockets. -/
theorem Table.send (h : Table d (some f)) (hf : f<d.frecCount) (io : Outcomes) (type : ℕ)
    (domain : List UInt8) (start : ℕ) : Table (d.send io type domain f start).1 none := by
  have hstart : Sending d f [] := ⟨h,hf,fun hne => absurd rfl hne⟩
  have hloop := hstart.sendLoop io type domain d.servers.length start
  unfold Daemon.send
  dsimp only
  split_ifs with hnone
  · exact hloop.table.freeFrec hloop.lt (Or.inr rfl)
  · exact hloop.table.settle (hloop.marked hnone)

/-! ## Taking a record -/

theorem mem_frecList {g : ℕ} : g∈d.frecList ↔ g<d.frecCount := by
  rw [frecList,List.mem_reverse,List.mem_range]

theorem Table.takeFrec (h : Table d pending) (f : ℕ) (now : ℤ) :
    Table (d.takeFrec f now) pending := by
  unfold Daemon.takeFrec
  exact h.setFrec rfl rfl (fun hnone => Or.inl hnone)

theorem Table.scanFrecs (h : Table d none) (now : ℤ) {fs : List ℕ}
    (hfs : ∀ g∈fs, g<d.frecCount) (target oldest : Option ℕ) :
    Table (scanFrecs now fs d target oldest).1 none := by
  induction fs generalizing d target oldest with
  | nil => exact h
  | cons g rest ih =>
    have hrest := fun k hk => hfs k (List.mem_cons_of_mem g hk)
    rw [Daemon.scanFrecs]
    split_ifs
    · exact ih h hrest _ _
    · refine ih (h.freeFrec (hfs g List.mem_cons_self) (Or.inl rfl)) (fun k hk => ?_) _ _
      rw [freeFrec_frecCount]
      exact hrest k hk
    · exact ih h hrest _ _

theorem Table.allocateFrec {now : ℤ} {malloc : Bool} (h : Table d none)
    (halloc : d.allocateFrec now malloc=some (d',f)) : Table d' none := by
  unfold Daemon.allocateFrec at halloc
  split_ifs at halloc
  cases halloc
  have hold : ∀ g<d.frecCount, ∀ r, Function.update d.frec d.frecCount r g=d.frec g :=
    fun g hg r => Function.update_of_ne (ne_of_lt hg) r d.frec
  refine ⟨(h.serves.congr (fun i => ?_)).of_randomsocks rfl,fun g hg i => ?_,fun g hg hne => ?_⟩
  · rw [references,references]
    dsimp only
    rw [Finset.sum_range_succ,Function.update_self]
    refine (Finset.sum_congr rfl (fun g hg => ?_)).trans (Nat.add_zero _).symm
    rw [hold g (Finset.mem_range.mp hg)]
  · dsimp only
    by_cases hgf : g=d.frecCount
    · rw [hgf,Function.update_self]
      exact fun hf => hf.elim (fun hf => by cases hf) (fun hf => by cases hf)
    · rw [Function.update_of_ne hgf]
      exact h.bound g (by dsimp only at hg; omega) i
  · dsimp only
    by_cases hgf : g=d.frecCount
    · rw [hgf,Function.update_self]
      exact fun _ => ⟨rfl,rfl⟩
    · rw [Function.update_of_ne hgf]
      exact h.free g (by dsimp only at hg; omega) hne

theorem Table.getNewFrec {now : ℤ} {malloc : Bool} (h : Table d none)
    (hnew : d.getNewFrec now malloc=some (d',f)) : Table d' none := by
  have hscan := h.scanFrecs now (fun g hg => mem_frecList.mp hg) none none
  unfold Daemon.getNewFrec at hnew
  cases hresult : Daemon.scanFrecs now d.frecList d none none with
  | mk d1 rest =>
    obtain ⟨target,oldest⟩ := rest
    obtain ⟨-,hcount,hold,-⟩ := scanFrecs_spec hresult (fun g hg => mem_frecList.mp hg)
      (fun g hg => by cases hg) (fun g hg => by cases hg)
    rw [hresult] at hscan
    simp only [hresult] at hnew
    cases target with
    | some t =>
      cases hnew
      exact hscan.takeFrec f now
    | none =>
      cases oldest with
      | none =>
        dsimp only at hnew
        split_ifs at hnew
        exact hscan.allocateFrec hnew
      | some o =>
        dsimp only at hnew
        split_ifs at hnew
        · exact hscan.allocateFrec hnew
        · cases hnew
          have hlt : f<d1.frecCount := by
            rw [hcount]
            exact hold f rfl
          exact (hscan.freeFrec hlt (Or.inl rfl)).takeFrec f now
        · exact hscan.allocateFrec hnew

theorem Table.getNewFrecWait (h : Table d none) (now : ℤ) (malloc : Bool) :
    Table (d.getNewFrecWait now malloc).1 none := by
  have hscan := h.scanFrecs now (fun g hg => mem_frecList.mp hg) none none
  unfold Daemon.getNewFrecWait
  cases hresult : Daemon.scanFrecs now d.frecList d none none with
  | mk d1 rest =>
    obtain ⟨target,oldest⟩ := rest
    rw [hresult] at hscan
    cases target with
    | some t => exact hscan.takeFrec t now
    | none =>
      dsimp only
      cases halloc : d1.allocateFrec now malloc with
      | none => split_ifs <;> exact hscan
      | some r =>
        obtain ⟨d2,f⟩ := r
        have hnew := hscan.allocateFrec halloc
        split_ifs
        · exact hnew
        · exact hscan
        · exact hscan
        · exact hnew

theorem Table.getId {force : Bool} {forceId newId : ℕ} {crc : BitVec 32} {rand16 : List ℕ}
    (h : Table d none) (hid : d.getId force forceId crc rand16=some (d',newId)) :
    Table d' none := by
  unfold Daemon.getId at hid
  split_ifs at hid
  · cases hlookup : d.lookupFrec forceId crc with
    | none =>
      rw [hlookup] at hid
      cases hid
      exact h
    | some g =>
      rw [hlookup] at hid
      cases hid
      exact h.freeFrec (lookupFrec_some hlookup).1.1 (Or.inl rfl)
  · obtain ⟨id,-,heq⟩ := Option.map_eq_some_iff.mp hid
    cases heq
    exact h

/-! ## The calls -/

theorem Table.markAll (h : Table d pending) (f : ℕ) : Table (d.markAll f) pending := by
  unfold Daemon.markAll
  exact h.setFrec rfl rfl (fun hnone => Or.inl hnone)

theorem Table.chooseStart (h : Table d pending) (type f : ℕ) (now : ℤ) :
    Table (d.chooseStart type f now).1 pending := by
  have hall : Table (d.startAll f now) pending := (h.markAll f).of_eq rfl rfl rfl
  unfold Daemon.chooseStart
  by_cases hfirst : type≠0 ∨ d.order=true
  · rw [if_pos hfirst]
    exact h
  · rw [if_neg hfirst]
    cases d.lastServer with
    | none => exact hall
    | some server =>
      dsimp only
      split_ifs
      · exact hall
      · exact h.of_eq rfl rfl rfl

theorem Table.resendQuery (h : Table d none) (hf : f<d.frecCount) (io : Outcomes) :
    Table (d.resendQuery io f).daemon none := by
  have hall : Table (d.tryAll f) none ∧ f<(d.tryAll f).frecCount := by
    unfold Daemon.tryAll
    split_ifs
    · exact ⟨h,hf⟩
    · exact ⟨(h.markAll f).of_eq rfl rfl rfl,hf⟩
  unfold Daemon.resendQuery
  cases (d.frec f).sentto with
  | none => exact h
  | some sentto =>
    dsimp only
    cases d.servers[sentto]? with
    | none => exact h
    | some server => exact (hall.1.weaken (some f)).send hall.2 io _ _ _

theorem Table.newQuery {io : Outcomes} {client : Client} {packet : Packet} {now : ℤ}
    {r : Forwarded} (h : Table d none) (hnew : d.newQuery io client packet now=some r) :
    Table r.daemon none := by
  unfold Daemon.newQuery at hnew
  split_ifs at hnew
  · cases hnew
    exact h
  · cases hfrec : d.getNewFrec now io.malloc with
    | none =>
      rw [hfrec] at hnew
      cases hnew
      exact h
    | some result =>
      obtain ⟨d1,f⟩ := result
      simp only [hfrec] at hnew
      obtain ⟨⟨d2,newId⟩,hid,heq⟩ := Option.map_eq_some_iff.mp hnew
      obtain ⟨-,hlt1,-⟩ := getNewFrec_spec hfrec
      obtain ⟨-,hcount2⟩ := getId_spec hid
      cases heq
      have htable := (h.getNewFrec hfrec).getId hid
      have hfill : Table (d2.fillFrec f client packet newId) none := by
        unfold Daemon.fillFrec
        exact htable.setFrec rfl rfl (fun hnone => Or.inl hnone)
      have hstart := hfill.chooseStart io.search.2.1 f now
      refine (hstart.weaken (some f)).send ?_ io _ _ _
      rw [(chooseStart_sends _ _ f now).count]
      exact hcount2.symm ▸ hlt1

theorem Table.forwardQuery {io : Outcomes} {client : Client} {packet : Packet} {now : ℤ}
    {r : Forwarded} (h : Table d none) (hquery : d.forwardQuery io client packet now=some r) :
    Table r.daemon none := by
  unfold Daemon.forwardQuery at hquery
  split_ifs at hquery
  · cases hquery
    exact h
  · cases hlookup : d.lookupFrecBySender packet.id client.source (questionsCrc packet) with
    | some f =>
      rw [hlookup] at hquery
      cases hquery
      exact h.resendQuery (lookupFrecBySender_live hlookup).1 io
    | none =>
      rw [hlookup] at hquery
      exact h.newQuery hquery

theorem Table.replyQuery (h : Table d none) (addr : SockAddr) (packet : Packet)
    (out : ReplyOutcomes) : Table (d.replyQuery addr packet out).1 none := by
  unfold Daemon.replyQuery
  split_ifs
  · cases hlookup : d.lookupFrec packet.id (questionsCrc packet) with
    | none => exact h
    | some f =>
      have hf := (lookupFrec_some hlookup).1.1
      dsimp only
      split_ifs
      · exact h.resendQuery hf out.io
      · have hnote : Table (d.noteServer f addr packet) none := by
          unfold noteServer
          cases (d.frec f).sentto with
          | none => exact h
          | some sentto =>
            dsimp only
            split_ifs <;> exact h.of_eq rfl rfl rfl
        have hlt : f<(d.noteServer f addr packet).frecCount := by
          rw [(noteServer_frec d f addr packet).2]
          exact hf
        have hcount : Table ((d.noteServer f addr packet).countReply f) none ∧
            f<((d.noteServer f addr packet).countReply f).frecCount := by
          unfold countReply
          split_ifs
          · exact ⟨hnote,hlt⟩
          · exact ⟨hnote.setFrec rfl rfl (fun hnone => Or.inl hnone),hlt⟩
        unfold relayReply
        dsimp only
        split_ifs
        · exact hcount.1.freeFrec hcount.2 (Or.inl rfl)
        · exact hcount.1
  · exact h

theorem Table.freeSent (server : ℕ) (fs : List ℕ) (h : Table d none)
    (hfs : ∀ g∈fs, g<d.frecCount) : Table (freeSent server fs d) none := by
  induction fs generalizing d with
  | nil => exact h
  | cons g rest ih =>
    have hrest := fun k hk => hfs k (List.mem_cons_of_mem g hk)
    rw [Daemon.freeSent,List.foldl_cons]
    split_ifs
    · refine ih (h.freeFrec (hfs g List.mem_cons_self) (Or.inl rfl)) (fun k hk => ?_)
      rw [freeFrec_frecCount]
      exact hrest k hk
    · exact ih h hrest

theorem Table.serverGone (h : Table d none) (server : ℕ) : Table (d.serverGone server) none := by
  have hfreed := h.freeSent server d.frecList (fun g hg => mem_frecList.mp hg)
  unfold Daemon.serverGone
  dsimp only
  split_ifs
  · exact hfreed.of_eq rfl rfl rfl
  · exact hfreed

/-! ## Ids and checksums -/

/-- Records in use with the same id and checksum are the same. -/
def Distinct (d : Daemon) : Prop :=
  ∀ f g, d.Live f → d.Live g → (d.frec f).newId=(d.frec g).newId →
    (d.frec f).crc=(d.frec g).crc → f=g

theorem Distinct.of_liveFrom (h : Distinct d) (hlive : LiveFrom none d d') : Distinct d' := by
  intro f g hf hg hid hcrc
  obtain ⟨hlt,hsame,hused⟩ := hlive f hf
  obtain ⟨hlt',hsame',hused'⟩ := hlive g hg
  rw [hsame.newId,hsame'.newId] at hid
  rw [hsame.crc,hsame'.crc] at hcrc
  exact h f g ⟨hlt,hused.resolve_right (fun hf => by cases hf)⟩
    ⟨hlt',hused'.resolve_right (fun hf => by cases hf)⟩ hid hcrc

/-- `lookup_frec` finds the newest record that fits. -/
theorem le_of_lookupFrec {id : ℕ} {crc : BitVec 32} (h : d.lookupFrec id crc=some f) {g : ℕ}
    (hg : d.Live g) (hid : (d.frec g).newId=id)
    (hcrc : (d.frec g).crc=crc ∨ crc=noQuestion) : g≤f := by
  obtain ⟨-,before,behind,hlist,hnone⟩ := List.find?_eq_some_iff_append.mp h
  have hmem : g∈d.frecList := mem_frecList.mpr hg.1
  have hsorted : (before++f::behind).Pairwise fun a b => b≤a := by
    rw [← hlist,frecList,List.pairwise_reverse]
    exact List.pairwise_le_range
  rw [hlist,List.mem_append,List.mem_cons] at hmem
  rcases hmem with hmem | rfl | hmem
  · have hfits : ((d.frec g).sentto.isSome && (d.frec g).newId==id &&
        ((d.frec g).crc==crc || crc==noQuestion))=true := by
      simp only [Bool.and_eq_true,Bool.or_eq_true,beq_iff_eq]
      exact ⟨⟨hg.2,hid⟩,hcrc⟩
    have hnot := hnone g hmem
    rw [hfits] at hnot
    cases hnot
  · exact le_refl g
  · exact (List.pairwise_cons.mp (List.pairwise_append.mp hsorted).2.1).1 g hmem

theorem not_live_of_lookupFrec {id : ℕ} {crc : BitVec 32} (h : d.lookupFrec id crc=none) {g : ℕ}
    (hg : d.Live g) (hid : (d.frec g).newId=id) : (d.frec g).crc≠crc := by
  intro hcrc
  have hnone := List.find?_eq_none.mp h g (mem_frecList.mpr hg.1)
  simp only [Bool.and_eq_true,Bool.or_eq_true,beq_iff_eq] at hnone
  exact hnone ⟨⟨hg.2,hid⟩,Or.inl hcrc⟩

/-- No record in use with an id and without a question is older than another
record in use with that id. -/
def NewestWithoutQuestion (d : Daemon) (id : ℕ) : Prop :=
  ∀ f g, d.Live f → d.Live g → (d.frec f).newId=id → (d.frec g).newId=id →
    (d.frec f).crc=noQuestion → g≤f

theorem NewestWithoutQuestion.of_liveFrom {id : ℕ} (h : NewestWithoutQuestion d id)
    (hlive : LiveFrom none d d') : NewestWithoutQuestion d' id := by
  intro f g hf hg hid hid' hcrc
  obtain ⟨hlt,hsame,hused⟩ := hlive f hf
  obtain ⟨hlt',hsame',hused'⟩ := hlive g hg
  rw [hsame.newId] at hid
  rw [hsame'.newId] at hid'
  rw [hsame.crc] at hcrc
  exact h f g ⟨hlt,hused.resolve_right (fun hf => by cases hf)⟩
    ⟨hlt',hused'.resolve_right (fun hf => by cases hf)⟩ hid hid' hcrc

/-- The id from `get_id` makes a new pair with the checksum. -/
theorem Distinct.getId {force : Bool} {forceId newId : ℕ} {crc : BitVec 32} {rand16 : List ℕ}
    (h : Distinct d) (hid : d.getId force forceId crc rand16=some (d',newId))
    (hnewest : force=true → crc=noQuestion → NewestWithoutQuestion d forceId) {g : ℕ}
    (hg : d'.Live g) (hsame : (d'.frec g).newId=newId) : (d'.frec g).crc≠crc := by
  unfold Daemon.getId at hid
  split_ifs at hid with hforce
  · cases hlookup : d.lookupFrec forceId crc with
    | none =>
      rw [hlookup] at hid
      cases hid
      exact not_live_of_lookupFrec hlookup hg hsame
    | some f =>
      rw [hlookup] at hid
      cases hid
      intro hcrc
      have hgf : g≠f := by
        rintro rfl
        have hsent := hg.2
        rw [freeFrec_frec_self] at hsent
        cases hsent
      rw [freeFrec_frec_of_ne hgf] at hsame hcrc
      have hlive : d.Live g := by
        refine ⟨?_,?_⟩
        · have hlt := hg.1
          rwa [freeFrec_frecCount] at hlt
        · have hsent := hg.2
          rwa [freeFrec_frec_of_ne hgf] at hsent
      obtain ⟨hf,hfid,hfcrc⟩ := lookupFrec_some hlookup
      by_cases hread : crc=noQuestion
      · have hle := le_of_lookupFrec hlookup hlive hsame (Or.inr hread)
        have hge := hnewest hforce hread g f hlive hf hsame hfid (hcrc.trans hread)
        exact hgf (le_antisymm hle hge)
      · exact hgf (h g f hlive hf (hsame.trans hfid.symm)
          (hcrc.trans (hfcrc.resolve_right hread).symm))
  · obtain ⟨id,hfind,heq⟩ := Option.map_eq_some_iff.mp hid
    cases heq
    have hnone := List.find?_some hfind
    rw [Option.isNone_iff_eq_none] at hnone
    exact not_live_of_lookupFrec hnone hg hsame

/-- One record is filled with a new pair. -/
theorem Distinct.fill {newId : ℕ} {crc : BitVec 32} (h : Distinct d)
    (hpair : ∀ g, d.Live g → (d.frec g).newId=newId → (d.frec g).crc≠crc)
    (hlive : ∀ g, d'.Live g → (g=f ∧ (d'.frec g).newId=newId ∧ (d'.frec g).crc=crc) ∨
      (d.Live g ∧ SameQuery (d'.frec g) (d.frec g))) : Distinct d' := by
  intro g k hg hk hid hcrc
  rcases hlive g hg with ⟨rfl,hgid,hgcrc⟩ | ⟨hgold,hgsame⟩
  · rcases hlive k hk with ⟨rfl,-,-⟩ | ⟨hkold,hksame⟩
    · rfl
    · rw [hgid,hksame.newId] at hid
      rw [hgcrc,hksame.crc] at hcrc
      exact absurd hcrc.symm (hpair k hkold hid.symm)
  · rcases hlive k hk with ⟨rfl,hkid,hkcrc⟩ | ⟨hkold,hksame⟩
    · rw [hkid,hgsame.newId] at hid
      rw [hkcrc,hgsame.crc] at hcrc
      exact absurd hcrc (hpair g hgold hid)
    · rw [hgsame.newId,hksame.newId] at hid
      rw [hgsame.crc,hksame.crc] at hcrc
      exact h g k hgold hkold hid hcrc

theorem Distinct.newQuery {io : Outcomes} {client : Client} {packet : Packet} {now : ℤ}
    {r : Forwarded} (h : Distinct d) (hnew : d.newQuery io client packet now=some r)
    (hnewest : io.isSign=true → questionsCrc packet=noQuestion →
      NewestWithoutQuestion d packet.id) : Distinct r.daemon := by
  unfold Daemon.newQuery at hnew
  split_ifs at hnew
  · cases hnew
    exact h
  · cases hfrec : d.getNewFrec now io.malloc with
    | none =>
      rw [hfrec] at hnew
      cases hnew
      exact h
    | some result =>
      obtain ⟨d1,f⟩ := result
      simp only [hfrec] at hnew
      obtain ⟨⟨d2,newId⟩,hid,heq⟩ := Option.map_eq_some_iff.mp hnew
      obtain ⟨hlive1,-,-⟩ := getNewFrec_spec hfrec
      obtain ⟨hlive2,-⟩ := getId_spec hid
      cases heq
      have hdistinct1 := h.of_liveFrom hlive1
      have hdistinct2 := hdistinct1.of_liveFrom hlive2
      have hpair : ∀ g, d2.Live g → (d2.frec g).newId=newId →
          (d2.frec g).crc≠questionsCrc packet := fun g hg hsame =>
        hdistinct1.getId hid (fun hforce hcrc => (hnewest hforce hcrc).of_liveFrom hlive1) hg hsame
      have hstart := chooseStart_sends (d2.fillFrec f client packet newId) io.search.2.1 f now
      have hlive := send_liveFrom
        ((d2.fillFrec f client packet newId).chooseStart io.search.2.1 f now).1 io io.search.2.1
        io.search.2.2 f ((d2.fillFrec f client packet newId).chooseStart io.search.2.1 f now).2
      refine hdistinct2.fill (f := f) hpair (fun g hg => ?_)
      obtain ⟨hlt,hsame,hused⟩ := hlive g hg
      have hsame' := hsame.trans (hstart.same g)
      rw [hstart.count] at hlt
      by_cases hgf : g=f
      · have hself : (d2.fillFrec f client packet newId).frec f=_ := setFrec_frec_self d2 f _
        rw [hgf,hself] at hsame'
        rw [hgf]
        exact Or.inl ⟨rfl,hsame'.newId,hsame'.crc⟩
      · have hother : (d2.fillFrec f client packet newId).frec g=d2.frec g :=
          setFrec_frec_of_ne hgf d2 _
        have hsome := hused.resolve_right (fun heq => hgf (Option.some.inj heq).symm)
        rw [hstart.others g hgf,hother] at hsome
        rw [hother] at hsame'
        exact Or.inr ⟨⟨hlt,hsome⟩,hsame'⟩

theorem getNewFrecWait_liveFrom (d : Daemon) (now : ℤ) (malloc : Bool) :
    LiveFrom none d (d.getNewFrecWait now malloc).1 := by
  unfold getNewFrecWait
  cases hresult : Daemon.scanFrecs now d.frecList d none none with
  | mk d1 rest =>
    obtain ⟨target,oldest⟩ := rest
    obtain ⟨hlive,-,-,-⟩ := scanFrecs_spec hresult (fun g hg => mem_frecList.mp hg)
      (fun g hg => by cases hg) (fun g hg => by cases hg)
    cases target with
    | some t => exact hlive.trans (takeFrec_liveFrom d1 t now)
    | none =>
      dsimp only
      cases halloc : d1.allocateFrec now malloc with
      | none => split_ifs <;> exact hlive
      | some r =>
        obtain ⟨d2,f⟩ := r
        have hnew : LiveFrom none d d2 := hlive.trans (allocateFrec_spec halloc).1
        split_ifs
        · exact hnew
        · exact hlive
        · exact hlive
        · exact hnew

theorem freeSent_liveFrom (server : ℕ) (fs : List ℕ) (d : Daemon) :
    LiveFrom none d (freeSent server fs d) := by
  induction fs generalizing d with
  | nil => exact .refl none d
  | cons g rest ih =>
    rw [freeSent,List.foldl_cons]
    split_ifs
    · exact (freeFrec_liveFrom d g none).trans (ih _)
    · exact ih d

theorem serverGone_liveFrom (d : Daemon) (server : ℕ) : LiveFrom none d (d.serverGone server) := by
  have hfreed := freeSent_liveFrom server d.frecList d
  unfold serverGone
  dsimp only
  split_ifs
  · exact hfreed
  · exact hfreed

/-! ## Runs -/

/-- The calls that change the table. -/
inductive TableCall where
  | query (client : Client) (packet : Packet) (now : ℤ) (io : Outcomes)
  | reply (addr : SockAddr) (packet : Packet) (out : ReplyOutcomes)
  | gone (server : ℕ)
  | newFrec (now : ℤ) (malloc : Bool)
  | newFrecWait (now : ℤ) (malloc : Bool)

/-- The table after a call. -/
def perform (d : Daemon) : TableCall → Option Daemon
  | .query client packet now io => (d.forwardQuery io client packet now).map Forwarded.daemon
  | .reply addr packet out => some (d.replyQuery addr packet out).1
  | .gone server => some (d.serverGone server)
  | .newFrec now malloc =>
    match d.getNewFrec now malloc with
    | some (d',_) => some d'
    | none => some d
  | .newFrecWait now malloc => some (d.getNewFrecWait now malloc).1

/-- A query that gets a record of its own is not a signed one without a readable
question whose id an older record without a question has beside a newer record. -/
def Unambiguous (d : Daemon) : TableCall → Prop
  | .query client packet _ io =>
    d.lookupFrecBySender packet.id client.source (questionsCrc packet)=none → io.isSign=true →
      questionsCrc packet=noQuestion → NewestWithoutQuestion d packet.id
  | _ => True

theorem Table.perform {call : TableCall} (h : Table d none)
    (hcall : d.perform call=some d') : Table d' none := by
  cases call with
  | query client packet now io =>
    obtain ⟨r,hr,rfl⟩ := Option.map_eq_some_iff.mp hcall
    exact h.forwardQuery hr
  | reply addr packet out =>
    cases hcall
    exact h.replyQuery addr packet out
  | gone server =>
    cases hcall
    exact h.serverGone server
  | newFrec now malloc =>
    rw [Daemon.perform] at hcall
    cases hnew : d.getNewFrec now malloc with
    | none =>
      rw [hnew] at hcall
      cases hcall
      exact h
    | some r =>
      obtain ⟨d1,f⟩ := r
      rw [hnew] at hcall
      cases hcall
      exact h.getNewFrec hnew
  | newFrecWait now malloc =>
    cases hcall
    exact h.getNewFrecWait now malloc

theorem Distinct.perform {call : TableCall} (h : Distinct d) (hclear : d.Unambiguous call)
    (hcall : d.perform call=some d') : Distinct d' := by
  cases call with
  | query client packet now io =>
    obtain ⟨r,hr,rfl⟩ := Option.map_eq_some_iff.mp hcall
    unfold forwardQuery at hr
    split_ifs at hr
    · cases hr
      exact h
    · cases hlookup : d.lookupFrecBySender packet.id client.source (questionsCrc packet) with
      | some f =>
        rw [hlookup] at hr
        cases hr
        exact h.of_liveFrom (resendQuery_liveFrom (lookupFrecBySender_live hlookup) io)
      | none =>
        rw [hlookup] at hr
        exact h.newQuery hr (hclear hlookup)
  | reply addr packet out =>
    cases hcall
    exact h.of_liveFrom (replyQuery_spec d addr packet out).1
  | gone server =>
    cases hcall
    exact h.of_liveFrom (serverGone_liveFrom d server)
  | newFrec now malloc =>
    rw [Daemon.perform] at hcall
    cases hnew : d.getNewFrec now malloc with
    | none =>
      rw [hnew] at hcall
      cases hcall
      exact h
    | some r =>
      obtain ⟨d1,f⟩ := r
      rw [hnew] at hcall
      cases hcall
      exact h.of_liveFrom (getNewFrec_spec hnew).1
  | newFrecWait now malloc =>
    cases hcall
    exact h.of_liveFrom (getNewFrecWait_liveFrom d now malloc)

/-- A table without records and with closed sockets. -/
structure Empty (d : Daemon) : Prop where
  records : d.frecCount=0
  sockets : ∀ i<randomSocks, (d.randomsocks i).refcount=0 ∧ (d.randomsocks i).isOpen=false

theorem Empty.table (h : Empty d) : Table d none := by
  have hnone : ∀ g, ¬g<d.frecCount := by
    rw [h.records]
    exact Nat.not_lt_zero
  refine ⟨⟨fun i hi => ?_,fun i hi => ?_⟩,fun g hg => absurd hg (hnone g),
    fun g hg => absurd hg (hnone g)⟩
  · rw [(h.sockets i hi).1,references,h.records,Finset.sum_range_zero]
  · rw [(h.sockets i hi).1,(h.sockets i hi).2]
    exact iff_of_false Bool.false_ne_true (fun hne => hne rfl)

/-- A forwarder with one server, whose queries go out from random sockets. -/
def lone : Daemon :=
  { idle.daemon with servers := [⟨⟨.inet,[8,8,8,8],53⟩,none,[],0,false,false⟩] }

theorem lone_empty : Empty lone := ⟨rfl,fun _ _ => ⟨rfl,rfl⟩⟩

/-- Another client. -/
def phone : Client := ⟨4,⟨.inet,[192,168,1,6],40001⟩,[192,168,1,1],2⟩

/-- A third client. -/
def tablet : Client := ⟨4,⟨.inet,[192,168,1,7],40002⟩,[192,168,1,1],2⟩

/-- A query is forwarded from a new random socket, with 7 as the first random id. -/
def openOutcomes : Outcomes := ⟨(false,0,[]),false,[7],true,fun _ => some 9,fun _ => true⟩

/-- A query is forwarded that is signed. -/
def signedOutcomes : Outcomes := { openOutcomes with isSign := true }

/-- A signed query for the address of `a`, with id 5. -/
def signedQuery : Packet :=
  packetOf [0,5,1,0,0,1,0,0,0,0,0,1,1,97,0,0,1,0,1,0,0,250,0,255,0,0,0,0,0,0]

/-- A signed query without a question, with id 5. -/
def signedBare : Packet := packetOf [0,5,1,0,0,0,0,0,0,0,0,1,0,0,250,0,255,0,0,0,0,0,0]

end Daemon

end AndroidPlatform.DnsForward
