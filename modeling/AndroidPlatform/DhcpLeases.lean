import Mathlib.Data.List.Basic
import Mathlib.Data.Int.Notation
import Mathlib.Data.Nat.Notation

/-!
# The leases of the DHCP server

The lease database of `lease.c`: the active leases in their order, and how many
more there may be. Addresses are in host order, names and identifiers are lists of
bytes, and allocations of memory succeed. The lists of old leases and the marks for
scripts and the name server are left out.
-/

namespace AndroidPlatform.DhcpLeases

/-- `struct dhcp_lease` -/
structure Lease where
  /-- Which structure in memory it is. -/
  ident : ℕ
  /-- `addr` -/
  addr : UInt32
  /-- `expires`; 0 if the lease does not end. -/
  expires : ℤ
  /-- `hwaddr` and `hwaddr_len`; none before they are set. -/
  hwaddr : Option (List UInt8)
  /-- `hwaddr_type` -/
  hwType : ℤ
  /-- `clid` and `clid_len`; empty if there is none. -/
  clid : List UInt8
  /-- `hostname` -/
  hostname : Option (List UInt8)
  /-- `fqdn` -/
  fqdn : Option (List UInt8)
  /-- `auth_name` -/
  authName : Bool
  /-- `override` -/
  override : UInt32
  deriving DecidableEq

/-- The options that the leases depend on. -/
structure Options where
  /-- `dhcp_max` -/
  dhcpMax : ℕ
  /-- `OPT_DHCP_FQDN` -/
  dhcpFqdn : Bool
  /-- `get_domain` -/
  getDomain : UInt32 → Option (List UInt8)

/-- The lease database. -/
structure Db where
  /-- `leases` -/
  leases : List Lease
  /-- `leases_left` -/
  leasesLeft : ℕ
  /-- The next structure in memory. -/
  nextIdent : ℕ

/-- A letter in lower case. -/
def toLower (c : UInt8) : UInt8 := if 65≤c ∧ c≤90 then c+32 else c

/-- `hostname_isequal` -/
def hostnameIsequal (a b : List UInt8) : Bool := decide (a.map toLower=b.map toLower)

namespace Lease

variable (lease : Lease)

/-- Whether `lease_prune` takes the lease for expired. -/
def expired (now : ℤ) : Bool := decide (lease.expires≠0 ∧ lease.expires<now)

/-- `kill_name` -/
def killName : Lease := { lease with hostname := none, fqdn := none }

/-- `lease_set_hwaddr` -/
def setHwaddr (hwaddr clid : List UInt8) (hwType : ℤ) : Lease :=
  { lease with
    hwaddr := some hwaddr
    hwType := hwType
    clid := if clid=[] then lease.clid else clid }

/-- `lease_set_expires` -/
def setExpires (len : UInt32) (now : ℤ) : Lease :=
  { lease with expires := if len=0xffffffff then 0 else now+len.toNat }

end Lease

namespace Db

variable (db : Db) (options : Options)

/-- A database without leases. -/
def empty : Db := ⟨[],options.dhcpMax,0⟩

/-- Change one lease. -/
def update (ident : ℕ) (change : Lease → Lease) : Db :=
  { db with leases := db.leases.map fun lease =>
      if lease.ident=ident then change lease else lease }

/-- Whether `lease_prune` removes a lease. -/
def prunes (target : Option ℕ) (now : ℤ) (lease : Lease) : Bool :=
  lease.expired now || decide (some lease.ident=target)

/-- `lease_prune` -/
def prune (target : Option ℕ) (now : ℤ) : Db :=
  { db with
    leases := db.leases.filter fun lease => !prunes target now lease
    leasesLeft := db.leasesLeft+(db.leases.filter (prunes target now)).length }

/-- `lease_find_by_client` -/
def findByClient (hwaddr : List UInt8) (hwType : ℤ) (clid : List UInt8) : Option Lease :=
  let byClid := if clid=[] then none else db.leases.find? fun lease => decide (lease.clid=clid)
  byClid.or (db.leases.find? fun lease =>
    decide ((lease.clid=[] ∨ clid=[]) ∧ hwaddr≠[] ∧ lease.hwaddr=some hwaddr ∧
      lease.hwType=hwType))

/-- `lease_find_by_addr` -/
def findByAddr (addr : UInt32) : Option Lease :=
  db.leases.find? fun lease => decide (lease.addr=addr)

/-- The lease that `lease_allocate` makes. -/
def newLease (addr : UInt32) : Lease :=
  ⟨db.nextIdent,addr,1,none,0,[],none,none,false,0⟩

/-- `lease_allocate` -/
def allocate (addr : UInt32) : Option Db :=
  if db.leasesLeft=0 then none
  else some ⟨db.newLease addr::db.leases,db.leasesLeft-1,db.nextIdent+1⟩

/-- The name with its domain. -/
def newFqdn (addr : UInt32) (name : List UInt8) : Option (List UInt8) :=
  (options.getDomain addr).map fun suffix => name++46::suffix

/-- Whether a lease holds a name in the sense of the loop of `lease_set_hostname`. -/
def holdsName (name : List UInt8) (fqdn : Option (List UInt8)) (lease : Lease) : Bool :=
  if options.dhcpFqdn then
    match fqdn,lease.fqdn with
    | some new,some old => hostnameIsequal old new
    | _,_ => false
  else
    match lease.hostname with
    | some old => hostnameIsequal old name
    | none => false

/-- The end of `lease_set_hostname`: the lease gets the name. -/
def giveName (ident : ℕ) (name fqdn : Option (List UInt8)) (auth : Bool) : Db :=
  db.update ident fun lease => { lease with hostname := name, fqdn := fqdn, authName := auth }

/-- `lease_set_hostname` for a name: it is taken away from the lease that holds it,
unless that one is sure of it and this one is not. -/
def setName (lease : Lease) (name : List UInt8) (auth : Bool) : Db :=
  let fqdn := newFqdn options lease.addr name
  match db.leases.find? (holdsName options name fqdn) with
  | some holder =>
    if holder.authName && !auth then db
    else (db.update holder.ident Lease.killName).giveName lease.ident (some name) fqdn auth
  | none => db.giveName lease.ident (some name) fqdn auth

/-- `lease_set_hostname` -/
def setHostname (ident : ℕ) (name : Option (List UInt8)) (auth : Bool) : Db :=
  match db.leases.find? (fun lease => decide (lease.ident=ident)) with
  | none => db
  | some lease =>
    match lease.hostname,name with
    | some old,some new =>
      if hostnameIsequal old new then
        db.update ident fun lease => { lease with authName := auth }
      else db.setName options lease new auth
    | none,some new => db.setName options lease new auth
    | none,none => db
    | some _,none => db.giveName ident none none auth

end Db

end AndroidPlatform.DhcpLeases
