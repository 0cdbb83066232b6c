import AndroidPlatform.DhcpServer
import Mathlib.Data.List.Nodup

/-!
# The lease database is consistent

Every packet leaves leases with addresses of their own, as many as are counted,
and with names of their own unless names are told apart by their domains. A
name of which a lease is sure is not taken from it by one that is not.
-/

namespace AndroidPlatform.DhcpLeaseInvariant

open DhcpLeases DhcpServer

/-- Both leases have the same name, up to case. -/
def SameName (a b : Lease) : Prop :=
  ∃ n m, a.hostname=some n ∧ b.hostname=some m ∧ hostnameIsequal n m=true

/-- What holds of the leases between two packets. -/
structure Consistent (options : Options) (db : Db) : Prop where
  /-- Leases are structures of their own. -/
  idents : (db.leases.map Lease.ident).Nodup
  /-- New structures are not in use. -/
  fresh : ∀ lease∈db.leases, lease.ident<db.nextIdent
  /-- No two leases have the same address. -/
  addrs : (db.leases.map Lease.addr).Nodup
  /-- `leases_left` counts the others. -/
  left : db.leasesLeft+db.leases.length=options.dhcpMax
  /-- No two leases have the same name. -/
  names : options.dhcpFqdn=false → ∀ a∈db.leases, ∀ b∈db.leases, a.ident≠b.ident →
    ¬SameName a b

section Operations

variable {options : Options} {db : Db}

theorem hostnameIsequal_iff {a b : List UInt8} :
    hostnameIsequal a b=true ↔ a.map toLower=b.map toLower := by
  simp [hostnameIsequal]

theorem SameName.symm {a b : Lease} (h : SameName a b) : SameName b a := by
  obtain ⟨n,m,hn,hm,heq⟩ := h
  refine ⟨m,n,hm,hn,?_⟩
  rw [hostnameIsequal_iff] at heq ⊢
  exact heq.symm

/-- Leases of the same structure are the same. -/
theorem Consistent.eq_of_ident (hc : Consistent options db) {a b : Lease} (ha : a∈db.leases)
    (hb : b∈db.leases) (h : a.ident=b.ident) : a=b := List.inj_on_of_nodup_map hc.idents ha hb h

theorem consistent_empty (options : Options) : Consistent options (Db.empty options) :=
  ⟨List.nodup_nil,(fun _ h => by cases h),List.nodup_nil,rfl,(fun _ _ h => by cases h)⟩

theorem Consistent.prune (hc : Consistent options db) (target : Option ℕ) (now : ℤ) :
    Consistent options (db.prune target now) := by
  have hsub : (db.prune target now).leases.Sublist db.leases := List.filter_sublist
  refine ⟨(hsub.map Lease.ident).nodup hc.idents,fun lease h => hc.fresh lease (hsub.mem h),
    (hsub.map Lease.addr).nodup hc.addrs,?_,fun h a ha b hb =>
      hc.names h a (hsub.mem ha) b (hsub.mem hb)⟩
  have hcount := @List.length_eq_countP_add_countP _ (Db.prunes target now) db.leases
  have hleft := hc.left
  simp only [Db.prune,List.countP_eq_length_filter] at hcount ⊢
  simp at hcount
  omega

/-- A new lease at an address that no lease has. -/
theorem Consistent.allocate (hc : Consistent options db) {addr : UInt32} {after : Db}
    (hfree : db.findByAddr addr=none) (h : db.allocate addr=some after) :
    Consistent options after := by
  unfold Db.allocate at h
  split at h
  · cases h
  · rename_i hleft
    cases h
    have hcount := hc.left
    refine ⟨?_,fun lease hl => ?_,?_,?_,fun hf => ?_⟩
    · rw [List.map_cons,List.nodup_cons]
      refine ⟨fun hmem => ?_,hc.idents⟩
      obtain ⟨lease,hl,heq⟩ := List.mem_map.mp hmem
      have hlt := hc.fresh lease hl
      rw [heq] at hlt
      exact absurd hlt (Nat.lt_irrefl _)
    · rcases List.mem_cons.mp hl with rfl|hl
      · exact Nat.lt_succ_self _
      · exact Nat.lt_succ_of_lt (hc.fresh lease hl)
    · rw [List.map_cons,List.nodup_cons]
      refine ⟨fun hmem => ?_,hc.addrs⟩
      obtain ⟨lease,hl,heq⟩ := List.mem_map.mp hmem
      have hno := List.find?_eq_none.mp hfree lease hl
      exact hno (decide_eq_true heq)
    · rw [List.length_cons]
      dsimp only
      omega
    · intro a ha b hb hne hsame
      obtain ⟨n,m,hn,hm,heq⟩ := hsame
      rcases List.mem_cons.mp ha with rfl|ha
      · cases hn
      rcases List.mem_cons.mp hb with rfl|hb
      · cases hm
      exact hc.names hf a ha b hb hne ⟨n,m,hn,hm,heq⟩

/-- A change of one lease that keeps its place and its address. -/
theorem Consistent.change (hc : Consistent options db) (ident : ℕ) {change : Lease → Lease}
    (hident : ∀ lease, (change lease).ident=lease.ident)
    (haddr : ∀ lease, (change lease).addr=lease.addr)
    (hnames : options.dhcpFqdn=false → ∀ a∈(db.update ident change).leases,
      ∀ b∈(db.update ident change).leases, a.ident≠b.ident → ¬SameName a b) :
    Consistent options (db.update ident change) := by
  have hmap : ∀ {β : Type} (f : Lease → β), (∀ lease, f (change lease)=f lease) →
      (db.update ident change).leases.map f=db.leases.map f := by
    intro β f hf
    rw [Db.update,List.map_map]
    apply List.map_congr_left
    intro lease _
    simp only [Function.comp_apply]
    split
    · exact hf lease
    · rfl
  refine ⟨?_,fun lease hl => ?_,?_,?_,hnames⟩
  · rw [hmap Lease.ident hident]
    exact hc.idents
  · obtain ⟨old,hold,rfl⟩ := List.mem_map.mp hl
    have hlt := hc.fresh old hold
    split
    · rw [hident]
      exact hlt
    · exact hlt
  · rw [hmap Lease.addr haddr]
    exact hc.addrs
  · rw [Db.update,List.length_map]
    exact hc.left

/-- A lease after a change, with the lease before it. -/
theorem exists_of_mem_update {ident : ℕ} {change : Lease → Lease} {lease : Lease}
    (hl : lease∈(db.update ident change).leases) :
    ∃ old∈db.leases, (old.ident=ident ∧ lease=change old) ∨ (old.ident≠ident ∧ lease=old) := by
  obtain ⟨old,hold,rfl⟩ := List.mem_map.mp hl
  refine ⟨old,hold,?_⟩
  by_cases h : old.ident=ident
  · exact Or.inl ⟨h,if_pos h⟩
  · exact Or.inr ⟨h,if_neg h⟩

/-- Where names are not changed, or only taken away, they stay apart. -/
theorem names_update (hc : Consistent options db) {ident : ℕ} {change : Lease → Lease}
    (hident : ∀ lease, (change lease).ident=lease.ident)
    (hname : ∀ lease, (change lease).hostname=lease.hostname ∨ (change lease).hostname=none)
    (hf : options.dhcpFqdn=false) : ∀ a∈(db.update ident change).leases,
      ∀ b∈(db.update ident change).leases, a.ident≠b.ident → ¬SameName a b := by
  have hback : ∀ lease∈(db.update ident change).leases, ∃ old∈db.leases,
      lease.ident=old.ident ∧ ∀ n, lease.hostname=some n → old.hostname=some n := by
    intro lease hl
    obtain ⟨old,hold,⟨-,rfl⟩|⟨-,rfl⟩⟩ := exists_of_mem_update hl
    · refine ⟨old,hold,hident old,fun n hn => ?_⟩
      rcases hname old with h|h
      · rw [←h]
        exact hn
      · rw [h] at hn
        cases hn
    · exact ⟨lease,hold,rfl,fun n hn => hn⟩
  intro a ha b hb hne hsame
  obtain ⟨a',ha',hia,hna⟩ := hback a ha
  obtain ⟨b',hb',hib,hnb⟩ := hback b hb
  obtain ⟨n,m,hn,hm,heq⟩ := hsame
  exact hc.names hf a' ha' b' hb' (by rw [←hia,←hib]; exact hne) ⟨n,m,hna n hn,hnb m hm,heq⟩

/-- A change that keeps names or takes one away. -/
theorem Consistent.update (hc : Consistent options db) (ident : ℕ) {change : Lease → Lease}
    (hident : ∀ lease, (change lease).ident=lease.ident)
    (haddr : ∀ lease, (change lease).addr=lease.addr)
    (hname : ∀ lease, (change lease).hostname=lease.hostname ∨ (change lease).hostname=none) :
    Consistent options (db.update ident change) :=
  hc.change ident hident haddr (names_update hc hident hname)

/-- A lease gets a name that no other has. -/
theorem Consistent.giveName (hc : Consistent options db) (ident : ℕ) {name : List UInt8}
    (fqdn : Option (List UInt8)) (auth : Bool)
    (hfree : options.dhcpFqdn=false → ∀ other∈db.leases, other.ident≠ident →
      ∀ n, other.hostname=some n → hostnameIsequal n name=false) :
    Consistent options (db.giveName ident (some name) fqdn auth) := by
  refine hc.change ident (fun _ => rfl) (fun _ => rfl) fun hf a ha b hb hne hsame => ?_
  have hother : ∀ {x y : Lease}, SameName x y → x.hostname=some name → y∈db.leases →
      y.ident≠ident → False := by
    intro x y hxy hx hy hyi
    obtain ⟨n,m,hn,hm,heq⟩ := hxy
    rw [hx] at hn
    cases hn
    have hno := hfree hf y hy hyi m hm
    rw [hostnameIsequal_iff] at heq
    rw [Bool.eq_false_iff,Ne,hostnameIsequal_iff] at hno
    exact hno heq.symm
  obtain ⟨a',ha',⟨hia,rfl⟩|⟨hia,rfl⟩⟩ := exists_of_mem_update ha
  · obtain ⟨b',hb',⟨hib,rfl⟩|⟨hib,rfl⟩⟩ := exists_of_mem_update hb
    · exact hne (hia.trans hib.symm)
    · exact hother hsame rfl hb' hib
  · obtain ⟨b',hb',⟨hib,rfl⟩|⟨hib,rfl⟩⟩ := exists_of_mem_update hb
    · exact hother hsame.symm rfl ha' hia
    · exact hc.names hf a ha' b hb' hne hsame

/-- `lease_set_hostname` for a name keeps names apart. -/
theorem Consistent.setName (hc : Consistent options db) (lease : Lease) (name : List UInt8)
    (auth : Bool) : Consistent options (db.setName options lease name auth) := by
  unfold Db.setName
  dsimp only
  cases hfind : db.leases.find? (Db.holdsName options name
      (Db.newFqdn options lease.addr name)) with
  | none =>
    dsimp only
    refine hc.giveName lease.ident _ auth fun hf other hother _ n hn => ?_
    have hno := List.find?_eq_none.mp hfind other hother
    simpa [Db.holdsName,hf,hn] using hno
  | some holder =>
    dsimp only
    split
    · exact hc
    have hholder : holder∈db.leases := List.mem_of_find?_eq_some hfind
    have hholds := List.find?_some hfind
    have hkill : Consistent options (db.update holder.ident Lease.killName) :=
      hc.update holder.ident (fun _ => rfl) (fun _ => rfl) fun _ => Or.inr rfl
    refine hkill.giveName lease.ident _ auth fun hf other hother _ n hn => ?_
    obtain ⟨old,hold,⟨-,rfl⟩|⟨hi,rfl⟩⟩ := exists_of_mem_update hother
    · cases hn
    · cases hh : holder.hostname with
      | none => simp [Db.holdsName,hf,hh] at hholds
      | some m =>
        have hm : hostnameIsequal m name=true := by
          simpa [Db.holdsName,hf,hh] using hholds
        have hapart := hc.names hf other hold holder hholder hi
        rw [Bool.eq_false_iff]
        intro heq
        refine hapart ⟨n,m,hn,hh,?_⟩
        rw [hostnameIsequal_iff] at heq hm ⊢
        exact heq.trans hm.symm

/-- `lease_set_hostname` -/
theorem Consistent.setHostname (hc : Consistent options db) (ident : ℕ)
    (name : Option (List UInt8)) (auth : Bool) :
    Consistent options (db.setHostname options ident name auth) := by
  unfold Db.setHostname
  split
  · exact hc
  · rename_i lease hfind
    split
    · split
      · exact hc.update ident (fun _ => rfl) (fun _ => rfl) fun _ => Or.inl rfl
      · exact hc.setName lease _ auth
    · exact hc.setName lease _ auth
    · exact hc
    · exact hc.update ident (fun _ => rfl) (fun _ => rfl) fun _ => Or.inr rfl

/-- A change of one lease leaves the others where they are. -/
theorem mem_update_of_ne {ident : ℕ} {change : Lease → Lease} {other : Lease}
    (hother : other∈db.leases) (hne : other.ident≠ident) :
    other∈(db.update ident change).leases := by
  refine List.mem_map.mpr ⟨other,hother,?_⟩
  rw [if_neg hne]

/-- A lease that is sure of its name keeps it when another one sets a name of
which it is not sure, and the other one does not get it. -/
def KeepsSureNames (options : Options) (db : Db) : Prop :=
  ∀ ident name, ∀ other∈db.leases, other.ident≠ident → other.authName=true →
    other∈(db.setHostname options ident (some name) false).leases ∧
      (options.dhcpFqdn=false → ∀ lease∈(db.setHostname options ident (some name) false).leases,
        lease.ident≠other.ident → ¬SameName lease other)

theorem Consistent.mem_setName (hc : Consistent options db) (lease : Lease) (name : List UInt8)
    {other : Lease} (hother : other∈db.leases) (hne : other.ident≠lease.ident)
    (hauth : other.authName=true) : other∈(db.setName options lease name false).leases := by
  unfold Db.setName
  dsimp only
  split
  · rename_i holder hfind
    split
    · exact hother
    · rename_i hunsure
      have hholder : other.ident≠holder.ident := by
        intro hi
        have hsame := hc.eq_of_ident hother (List.mem_of_find?_eq_some hfind) hi
        rw [←hsame,hauth] at hunsure
        exact hunsure rfl
      exact mem_update_of_ne (mem_update_of_ne hother hholder) hne
  · exact mem_update_of_ne hother hne

theorem Consistent.keepsSureNames (hc : Consistent options db) : KeepsSureNames options db := by
  intro ident name other hother hne hauth
  have hmem : other∈(db.setHostname options ident (some name) false).leases := by
    unfold Db.setHostname
    split
    · exact hother
    · rename_i lease hfind
      have hlease : lease.ident=ident := by simpa using List.find?_some hfind
      have hne' : other.ident≠lease.ident := hlease ▸ hne
      split
      · split
        · exact mem_update_of_ne hother hne
        · rename_i heq _
          cases heq
          exact hc.mem_setName lease _ hother hne' hauth
      · exact hc.mem_setName lease _ hother hne' hauth
      · exact hother
      · exact mem_update_of_ne hother hne
  refine ⟨hmem,fun hf lease hl hli => ?_⟩
  exact (hc.setHostname ident (some name) false).names hf lease hl other hmem hli

end Operations

/-! ## Packets -/

section Packets

variable {options : Options} {server : Server} {db : Db} {m : Request}

theorem Consistent.fillLease (hc : Consistent options db) (ident : ℕ) (chaddr clid : List UInt8)
    (htype : ℤ) (hostname : Option (List UInt8)) (auth : Bool) (time : UInt32) (now : ℤ) :
    Consistent options
      (fillLease options db ident chaddr clid htype hostname auth time now) := by
  unfold DhcpServer.fillLease
  have hhw : Consistent options (db.update ident fun lease => lease.setHwaddr chaddr clid htype) :=
    hc.update ident (fun _ => rfl) (fun _ => rfl) fun _ => Or.inl rfl
  cases hostname with
  | none => exact hhw.update ident (fun _ => rfl) (fun _ => rfl) fun _ => Or.inl rfl
  | some name =>
    exact (hhw.setHostname ident (some name) auth).update ident (fun _ => rfl) (fun _ => rfl)
      fun _ => Or.inl rfl

theorem Consistent.bootpLease (hc : Consistent options db) {lease : Option Lease} {yiaddr : UInt32}
    (hfree : lease=none → db.findByAddr yiaddr=none) (nailed : Bool) :
    Consistent options (bootpLease options db m lease yiaddr nailed).1 := by
  unfold DhcpServer.bootpLease
  split
  · exact hc
  split
  · exact hc
  cases lease with
  | some lease => exact hc.fillLease _ _ _ _ _ _ _ _
  | none =>
    cases halloc : db.allocate yiaddr with
    | none => exact hc
    | some after => exact (hc.allocate (hfree rfl) halloc).fillLease _ _ _ _ _ _ _ _

theorem Consistent.bootpReply (hc : Consistent options db) :
    Consistent options (bootpReply options server db m).1 := by
  unfold DhcpServer.bootpReply
  split
  · exact hc
  split
  · exact hc
  split
  · split
    · split
      · exact hc
      · exact hc.bootpLease (fun h => by cases h) true
    · rename_i hfree
      exact hc.bootpLease (fun _ => hfree) true
  · split
    · split
      · exact hc.bootpLease (fun h => by cases h) false
      · dsimp only
        split
        · exact hc.prune _ _
        · rename_i hfree
          exact (hc.prune _ _).bootpLease (fun _ => (addressAllocate_safe hfree).2.1) false
    · split
      · exact hc
      · rename_i hfree
        exact hc.bootpLease (fun _ => (addressAllocate_safe hfree).2.1) false

theorem Consistent.ackLease (hc : Consistent options db) {clid : List UInt8} {lease : Option Lease}
    {yiaddr : UInt32} (hfree : lease=none → db.findByAddr yiaddr=none) :
    Consistent options (ackLease options server db m clid lease yiaddr).1 := by
  have hoverride : ∀ {db : Db} {ident : ℕ}, Consistent options db → Consistent options
      (if m.override≠0 then db.update ident fun lease => {lease with override := m.override}
      else db) := by
    intro db ident hdb
    split
    · exact hdb.update ident (fun _ => rfl) (fun _ => rfl) fun _ => Or.inl rfl
    · exact hdb
  unfold DhcpServer.ackLease
  cases lease with
  | some lease => exact hoverride (hc.fillLease _ _ _ _ _ _ _ _)
  | none =>
    cases halloc : db.allocate yiaddr with
    | none => exact hc
    | some after =>
      exact hoverride ((hc.allocate (hfree rfl) halloc).fillLease _ _ _ _ _ _ _ _)

theorem Consistent.requestChecks (hc : Consistent options db) {clid emac : List UInt8}
    {contexts : List Context} {lease : Option Lease} {selecting : Bool} {yiaddr : UInt32} :
    Consistent options
      (requestChecks options server db m clid contexts lease selecting yiaddr emac).1 := by
  unfold DhcpServer.requestChecks
  split
  · exact hc
  split
  · exact hc
  split
  · exact hc
  split
  · exact hc
  split
  · split
    · split
      · exact hc
      · exact hc.ackLease fun h => by cases h
    · exact hc
  · rename_i hno
    split
    · exact hc
    · refine hc.ackLease fun hnone => ?_
      cases hfind : db.findByAddr yiaddr with
      | none => rfl
      | some ltmp => exact absurd hfind (hno ltmp hnone)

theorem Consistent.settle (hc : Consistent options db) (y : UInt32) :
    Consistent options (settle db m y).1 := by
  unfold DhcpServer.settle
  split
  · split
    · exact hc.prune _ _
    · exact hc
  · exact hc

theorem Consistent.requestReply (hc : Consistent options db) :
    Consistent options (requestReply options server db m).1 := by
  unfold DhcpServer.requestReply
  split
  · exact hc
  dsimp only
  split
  · split
    · split
      · split
        · exact hc
        · exact (hc.settle _).requestChecks
      · split
        · split
          · exact hc
          · exact hc.settle _
        · exact (hc.settle _).requestChecks
    · split
      · exact hc
      split
      · exact hc.settle _
      · exact (hc.settle _).requestChecks
  · split
    · exact hc
    · exact hc.requestChecks

theorem Consistent.dhcpReply (hc : Consistent options db) :
    Consistent options (dhcpReply options server db m).1 := by
  unfold DhcpServer.dhcpReply
  split
  · exact hc
  split
  · exact hc.bootpReply
  split
  · exact hc
  split
  · unfold declineReply
    split
    · split
      · exact hc
      split
      · split
        · exact hc.prune _ _
        · exact hc
      · exact hc
    · exact hc
  split
  · unfold releaseReply
    split
    · split
      · exact hc
      split
      · split
        · exact hc.prune _ _
        · exact hc
      · exact hc
    · exact hc
  split
  · unfold discoverReply
    split
    · exact hc
    split
    · exact hc
    split
    · exact hc
    · exact hc
  split
  · exact hc.requestReply
  split
  · unfold informReply
    split
    · exact hc
    split
    · dsimp only
      split
      · exact hc.update _ (fun _ => rfl) (fun _ => rfl) fun _ => Or.inl rfl
      · exact hc
    · exact hc
  · exact hc

end Packets

/-- The leases after any packets. -/
theorem Consistent.run {options : Options} {db : Db} (hc : Consistent options db)
    (packets : List (Server×Request)) : Consistent options (run options db packets) := by
  induction packets generalizing db with
  | nil => exact hc
  | cons packet packets ih =>
    obtain ⟨server,m⟩ := packet
    exact ih (hc.prune none m.now).dhcpReply

end AndroidPlatform.DhcpLeaseInvariant
