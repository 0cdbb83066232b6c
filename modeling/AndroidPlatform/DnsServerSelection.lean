import AndroidPlatform.DnsCache
import AndroidPlatform.DnsForward
import Mathlib.Data.Set.Finite.Lemmas
import Mathlib.Data.Set.Finite.List

/-!
# Choosing the server for a query

`search_servers` runs over the list of servers once. An entry for a domain
applies to the names that end in the domain, an entry for names without dots
to these when no domain has matched. What an entry decides is a literal
answer, that the name does not exist, or nothing when it names a server to
ask.

The choice is meant to depend on the longest domain only. The last part says
for which sets of entries it does.
-/

namespace AndroidPlatform.DnsServerSelection

open DnsPacket DnsForward
open DnsCache (Flags fIpv4 fIpv6 fBigname fHosts fDhcp has hostnameIsequal)

/-- `F_NXDOMAIN` -/
def fNxdomain : Flags := 4096#16

/-- `F_NOERR` -/
def fNoerr : Flags := 32768#16

/-- `SERV_FOR_NODOTS` -/
def servForNodots : ℕ := 32

/-- The character `.` -/
def dot : UInt8 := 46

/-- What `check_for_local_domain` looks at. -/
structure LocalNames where
  /-- The flags of the address record that the cache has for a name. -/
  cached : List UInt8 → Option Flags
  /-- `daemon->mxnames` -/
  mxnames : List (List UInt8)
  /-- `daemon->txt` -/
  txt : List (List UInt8)
  /-- `daemon->int_names` -/
  intNames : List (List UInt8)
  /-- `daemon->ptr` -/
  ptr : List (List UInt8)

/-- `check_for_local_domain` -/
def checkForLocalDomain (names : LocalNames) (name : List UInt8) : Bool :=
  (match names.cached name with
    | some flags => has flags (fHosts ||| fDhcp)
    | none => false) ||
  names.mxnames.any (hostnameIsequal name) || names.txt.any (hostnameIsequal name) ||
  names.intNames.any (hostnameIsequal name) || names.ptr.any (hostnameIsequal name)

/-- What `search_servers` reads besides the servers. -/
structure Settings where
  /-- `OPT_NODOTS_LOCAL` -/
  nodotsLocal : Bool
  /-- What is known about local names. -/
  names : LocalNames

/-- What the loop of `search_servers` accumulates. -/
structure Search where
  /-- `flags` -/
  flags : Flags
  /-- `*addrpp` -/
  addr : Option (List UInt8)
  /-- `*type` -/
  type : ℕ
  /-- `*domain` -/
  domain : Option (List UInt8)
  /-- `matchlen` -/
  matchlen : ℕ

/-- What the search starts with, with the `type` and the `domain` of its callers. -/
def start : Search := ⟨0#16,none,0,none,0⟩

/-- `sflag` -/
def sflag (serv : Server) : Flags :=
  match serv.addr.family with
  | .inet => fIpv4
  | .inet6 => fIpv6

/-- What an entry that applies does to `flags` and `*addrpp`. -/
def update (qtype : Flags) (serv : Server) (s : Search) : Search :=
  if serv.noAddr then { s with flags := fNxdomain }
  else if serv.literalAddress then
    if has (sflag serv) qtype then { s with flags := sflag serv, addr := some serv.addr.addr }
    else if s.flags=0#16 ∨ has s.flags fNxdomain then { s with flags := fNoerr }
    else s
  else s

/-- Whether the name has no dots and is not empty. -/
def plainName (qdomain : List UInt8) : Bool := !qdomain.contains dot && !qdomain.isEmpty

/-- Whether the name ends in the domain of an entry, at the start of a label. -/
def endsIn (qdomain domain : List UInt8) : Bool :=
  decide (domain.length≤qdomain.length) &&
  hostnameIsequal (qdomain.drop (qdomain.length-domain.length)) domain &&
  (domain.length==0 || qdomain.length==domain.length || domain.head?==some dot ||
    qdomain[qdomain.length-domain.length-1]?==some dot)

/-- One turn of the loop of `search_servers`. -/
def visit (qtype : Flags) (qdomain : List UInt8) (s : Search) (serv : Server) : Search :=
  if serv.type &&& servForNodots≠0 ∧ s.type≠servHasDomain ∧ plainName qdomain then
    update qtype serv { s with type := servForNodots }
  else if serv.type &&& servHasDomain≠0 then
    if endsIn qdomain serv.domain ∧ s.matchlen ≤ serv.domain.length then
      update qtype serv
        { s with type := servHasDomain, domain := some serv.domain, matchlen := serv.domain.length }
    else s
  else s

/-- What `search_servers` does with `flags` after the loop. -/
def settle (settings : Settings) (qtype : Flags) (qdomain : List UInt8) (flags : Flags) : Flags :=
  let flags := if flags=0#16 ∧ !has qtype fBigname ∧ settings.nodotsLocal ∧ plainName qdomain then
    fNxdomain else flags
  if flags=fNxdomain ∧ checkForLocalDomain settings.names qdomain then fNoerr else flags

/-- `search_servers` -/
def searchServers (settings : Settings) (servers : List Server) (qtype : Flags)
    (qdomain : List UInt8) : Search :=
  let s := servers.foldl (visit qtype qdomain) start
  { s with flags := settle settings qtype qdomain s.flags }

/-- The entries that the options and the D-Bus interface make: for every name,
for a domain, or for names without dots. -/
def Registered (serv : Server) : Prop :=
  serv.type=0 ∨ serv.type=servHasDomain ∨ serv.type=servForNodots ∧ serv.domain=[]

/-- No two entries are for the same domain, nor two for names without dots. -/
def Distinct (servers : List Server) : Prop :=
  servers.Pairwise fun a b => a.type=b.type → a.type≠0 → a.domain≠b.domain

/-- The name ends in the domain, which starts where a label starts, or with a dot. -/
def AtBoundary (qdomain domain : List UInt8) : Prop :=
  ∃ front back, qdomain=front++back ∧ back.map toLower=domain.map toLower ∧
    (domain=[] ∨ front=[] ∨ domain.head?=some dot ∨ front.getLast?=some dot)

/-- The entry is for a domain that the name is in. -/
def Matches (qdomain : List UInt8) (serv : Server) : Prop :=
  serv.type=servHasDomain ∧ AtBoundary qdomain serv.domain

/-- The entry is for names without dots and the name has none. -/
def ForPlain (qdomain : List UInt8) (serv : Server) : Prop :=
  serv.type=servForNodots ∧ plainName qdomain

/-- The entry says something about the name. -/
def Applies (qdomain : List UInt8) (serv : Server) : Prop :=
  Matches qdomain serv ∨ ForPlain qdomain serv

/-- An entry for the longest of the domains that the name is in. -/
def Longest (servers : List Server) (qdomain : List UInt8) (serv : Server) : Prop :=
  serv∈servers ∧ Matches qdomain serv ∧
    ∀ other∈servers, Matches qdomain other → other.domain.length ≤ serv.domain.length

/-- The entry that decides: one for the longest domain, without one that for
names without dots, or none. -/
inductive Chosen (servers : List Server) (qdomain : List UInt8) : Option Server → Prop
  | domain {serv} : Longest servers qdomain serv → Chosen servers qdomain (some serv)
  | nodots {serv} : (∀ other∈servers, ¬Matches qdomain other) → serv∈servers →
      ForPlain qdomain serv → Chosen servers qdomain (some serv)
  | nothing : (∀ other∈servers, ¬Applies qdomain other) → Chosen servers qdomain none

/-- What an entry says on its own. -/
def own (qtype : Flags) (serv : Server) : Flags :=
  if serv.noAddr then fNxdomain
  else if serv.literalAddress then if has (sflag serv) qtype then sflag serv else fNoerr
  else 0#16

/-- The flags, the type and the domain of the entry that decides. -/
def answerOf (settings : Settings) (qtype : Flags) (qdomain : List UInt8) :
    Option Server → Flags×ℕ×Option (List UInt8)
  | none => (settle settings qtype qdomain 0#16,0,none)
  | some serv => (settle settings qtype qdomain (own qtype serv),serv.type,
      if serv.type=servHasDomain then some serv.domain else none)

/-- The flags, the type and the domain that a search ends with. -/
def Search.result (s : Search) : Flags×ℕ×Option (List UInt8) := (s.flags,s.type,s.domain)

/-- Every order of the servers gives the flags, the type and the domain of the
entry that decides. -/
def SelectsLongest (settings : Settings) (servers : List Server) (qtype : Flags)
    (qdomain : List UInt8) : Prop :=
  ∃ chosen, Chosen servers qdomain chosen ∧ ∀ order : List Server, order.Perm servers →
    (searchServers settings order qtype qdomain).result=answerOf settings qtype qdomain chosen

theorem endsIn_iff {qdomain domain : List UInt8} :
    endsIn qdomain domain=true ↔ AtBoundary qdomain domain := by
  have hlen : ∀ {back : List UInt8}, back.map toLower=domain.map toLower →
      back.length=domain.length := fun h => by simpa using congrArg List.length h
  simp only [endsIn,hostnameIsequal,Bool.and_eq_true,Bool.or_eq_true,decide_eq_true_eq,
    beq_iff_eq,AtBoundary]
  constructor
  · rintro ⟨⟨hle,heq⟩,hb⟩
    refine ⟨qdomain.take (qdomain.length-domain.length),
      qdomain.drop (qdomain.length-domain.length),(List.take_append_drop _ _).symm,heq,?_⟩
    rcases hb with ((hb|hb)|hb)|hb
    · exact .inl (List.length_eq_zero_iff.mp hb)
    · exact .inr (.inl (by rw [hb,Nat.sub_self,List.take_zero]))
    · exact .inr (.inr (.inl hb))
    · by_cases hz : qdomain.length-domain.length=0
      · exact .inr (.inl (by rw [hz,List.take_zero]))
      · refine .inr (.inr (.inr ?_))
        rw [List.getLast?_eq_getElem?,List.length_take,List.getElem?_take,
          Nat.min_eq_left (Nat.sub_le _ _),if_pos (by omega),hb]
  · rintro ⟨front,back,rfl,heq,hb⟩
    have hback := hlen heq
    have hsub : (front++back).length-domain.length=front.length := by
      rw [List.length_append,hback]; omega
    rw [hsub,List.drop_left]
    refine ⟨⟨by rw [List.length_append]; omega,heq⟩,?_⟩
    rcases hb with hb|hb|hb|hb
    · exact .inl (.inl (.inl (by rw [hb,List.length_nil])))
    · exact .inl (.inl (.inr (by rw [hb,List.nil_append,hback])))
    · exact .inl (.inr hb)
    · refine .inr ?_
      rw [List.getLast?_eq_getElem?] at hb
      have hlt := (List.getElem?_eq_some_iff.mp hb).1
      rw [List.getElem?_append_left hlt,hb]

theorem sflag_cases (serv : Server) : sflag serv=fIpv4 ∨ sflag serv=fIpv6 := by
  unfold sflag
  cases serv.addr.family with
  | inet => exact .inl rfl
  | inet6 => exact .inr rfl

@[simp] theorem update_type (qtype : Flags) (serv : Server) (s : Search) :
    (update qtype serv s).type=s.type := by
  unfold update
  split_ifs <;> rfl

@[simp] theorem update_domain (qtype : Flags) (serv : Server) (s : Search) :
    (update qtype serv s).domain=s.domain := by
  unfold update
  split_ifs <;> rfl

@[simp] theorem update_matchlen (qtype : Flags) (serv : Server) (s : Search) :
    (update qtype serv s).matchlen=s.matchlen := by
  unfold update
  split_ifs <;> rfl

/-- Nothing was said before: an entry says what it says on its own. -/
theorem update_flags_of_zero {qtype : Flags} {serv : Server} {s : Search} (h : s.flags=0#16) :
    (update qtype serv s).flags=own qtype serv := by
  unfold update own
  split_ifs with h1 h2 h3 h4
  · rfl
  · rfl
  · rfl
  · exact absurd (.inl h) h4
  · exact h

/-- An entry says what it says on its own, or leaves what was said before. -/
theorem update_flags (qtype : Flags) (serv : Server) (s : Search) :
    (update qtype serv s).flags=own qtype serv ∨ (update qtype serv s).flags=s.flags := by
  unfold update own
  split_ifs
  · exact .inl rfl
  · exact .inl rfl
  · exact .inl rfl
  · exact .inr rfl
  · exact .inr rfl

theorem visit_of_matches {qtype : Flags} {qdomain : List UInt8} {s : Search} {serv : Server}
    (h : Matches qdomain serv) (hlen : s.matchlen ≤ serv.domain.length) :
    visit qtype qdomain s serv=update qtype serv { s with
      type := servHasDomain, domain := some serv.domain, matchlen := serv.domain.length } := by
  rw [visit,if_neg,if_pos,if_pos ⟨endsIn_iff.mpr h.2,hlen⟩]
  · rw [h.1]; decide
  · rw [h.1]; exact fun hn => absurd hn.1 (by decide)

/-- A shorter match is ignored. -/
theorem visit_of_shorter {qtype : Flags} {qdomain : List UInt8} {s : Search} {serv : Server}
    (h : Matches qdomain serv) (hlen : serv.domain.length < s.matchlen) :
    visit qtype qdomain s serv=s := by
  rw [visit,if_neg,if_pos,if_neg (fun hn => absurd hn.2 (Nat.not_le.mpr hlen))]
  · rw [h.1]; decide
  · rw [h.1]; exact fun hn => absurd hn.1 (by decide)

theorem visit_of_forPlain {qtype : Flags} {qdomain : List UInt8} {s : Search} {serv : Server}
    (h : ForPlain qdomain serv) (htype : s.type≠servHasDomain) :
    visit qtype qdomain s serv=update qtype serv { s with type := servForNodots } := by
  rw [visit,if_pos ⟨by rw [h.1]; decide,htype,h.2⟩]

/-- Once a domain has matched, an entry for names without dots is ignored. -/
theorem visit_of_forPlain_late {qtype : Flags} {qdomain : List UInt8} {s : Search} {serv : Server}
    (h : ForPlain qdomain serv) (htype : s.type=servHasDomain) :
    visit qtype qdomain s serv=s := by
  rw [visit,if_neg (fun hn => hn.2.1 htype),if_neg]
  rw [h.1]; exact fun hn => hn (by decide)

theorem visit_of_not_applies {qtype : Flags} {qdomain : List UInt8} {s : Search} {serv : Server}
    (hreg : Registered serv) (h : ¬Applies qdomain serv) : visit qtype qdomain s serv=s := by
  rcases hreg with ht | ht | ⟨ht,-⟩
  · rw [visit,if_neg (by rw [ht]; exact fun hn => hn.1 (by decide)),
      if_neg (by rw [ht]; exact fun hn => hn (by decide))]
  · rw [visit,if_neg (by rw [ht]; exact fun hn => hn.1 (by decide)),
      if_pos (by rw [ht]; decide),
      if_neg (fun hn => h (.inl ⟨ht,endsIn_iff.mp hn.1⟩))]
  · rw [visit,if_neg (fun hn => h (.inr ⟨ht,hn.2.2⟩)),
      if_neg (by rw [ht]; exact fun hn => hn (by decide))]

/-- The servers before a server that decides leave what one of them says, or nothing. -/
theorem foldl_flags {qtype : Flags} {qdomain : List UInt8} :
    ∀ {servers : List Server} (s : Search), (∀ serv∈servers, Registered serv) →
      (servers.foldl (visit qtype qdomain) s).flags=s.flags ∨
      ∃ serv∈servers, Applies qdomain serv ∧
        (servers.foldl (visit qtype qdomain) s).flags=own qtype serv := by
  intro servers
  induction servers with
  | nil => exact fun s _ => .inl rfl
  | cons serv rest ih =>
    intro s hreg
    have hvisit : (visit qtype qdomain s serv).flags=s.flags ∨
        Applies qdomain serv ∧ (visit qtype qdomain s serv).flags=own qtype serv := by
      by_cases ha : Applies qdomain serv
      · rcases ha with hm | hp
        · by_cases hlen : s.matchlen ≤ serv.domain.length
          · rw [visit_of_matches hm hlen]
            exact (update_flags _ _ _).symm.imp id fun h => ⟨.inl hm,h⟩
          · rw [visit_of_shorter hm (Nat.lt_of_not_le hlen)]
            exact .inl rfl
        · by_cases ht : s.type=servHasDomain
          · rw [visit_of_forPlain_late hp ht]
            exact .inl rfl
          · rw [visit_of_forPlain hp ht]
            exact (update_flags _ _ _).symm.imp id fun h => ⟨.inr hp,h⟩
      · rw [visit_of_not_applies (hreg serv List.mem_cons_self) ha]
        exact .inl rfl
    rcases ih (visit qtype qdomain s serv) (fun t ht => hreg t (List.mem_cons_of_mem _ ht)) with
      h | ⟨t,ht,ha,h⟩
    · rcases hvisit with hv | ⟨ha,hv⟩
      · exact .inl (h.trans hv)
      · exact .inr ⟨serv,List.mem_cons_self,ha,h.trans hv⟩
    · exact .inr ⟨t,List.mem_cons_of_mem _ ht,ha,h⟩

theorem foldl_matchlen {qtype : Flags} {qdomain : List UInt8} {n : ℕ} :
    ∀ {servers : List Server} (s : Search), (∀ serv∈servers, Registered serv) → s.matchlen≤n →
      (∀ serv∈servers, Matches qdomain serv → serv.domain.length≤n) →
      (servers.foldl (visit qtype qdomain) s).matchlen≤n := by
  intro servers
  induction servers with
  | nil => exact fun s _ h _ => h
  | cons serv rest ih =>
    intro s hreg hs hn
    refine ih _ (fun t ht => hreg t (List.mem_cons_of_mem _ ht)) ?_
      (fun t ht => hn t (List.mem_cons_of_mem _ ht))
    by_cases ha : Applies qdomain serv
    · rcases ha with hm | hp
      · by_cases hlen : s.matchlen ≤ serv.domain.length
        · rw [visit_of_matches hm hlen,update_matchlen]
          exact hn serv List.mem_cons_self hm
        · rw [visit_of_shorter hm (Nat.lt_of_not_le hlen)]
          exact hs
      · by_cases ht : s.type=servHasDomain
        · rw [visit_of_forPlain_late hp ht]
          exact hs
        · rw [visit_of_forPlain hp ht,update_matchlen]
          exact hs
    · rw [visit_of_not_applies (hreg serv List.mem_cons_self) ha]
      exact hs

theorem foldl_of_ignored {qtype : Flags} {qdomain : List UInt8} {s : Search} :
    ∀ {servers : List Server}, (∀ serv∈servers, visit qtype qdomain s serv=s) →
      servers.foldl (visit qtype qdomain) s=s := by
  intro servers
  induction servers with
  | nil => exact fun _ => rfl
  | cons serv rest ih =>
    intro h
    rw [List.foldl_cons,h serv List.mem_cons_self]
    exact ih fun t ht => h t (List.mem_cons_of_mem _ ht)

/-- After the longest domain, nothing changes the search. -/
theorem foldl_of_shorter {qtype : Flags} {qdomain : List UInt8} {s : Search}
    {servers : List Server} (htype : s.type=servHasDomain) (hreg : ∀ serv∈servers, Registered serv)
    (hlt : ∀ serv∈servers, Matches qdomain serv → serv.domain.length < s.matchlen) :
    servers.foldl (visit qtype qdomain) s=s := by
  refine foldl_of_ignored fun serv hserv => ?_
  by_cases ha : Applies qdomain serv
  · rcases ha with hm | hp
    · exact visit_of_shorter hm (hlt serv hserv hm)
    · exact visit_of_forPlain_late hp htype
  · exact visit_of_not_applies (hreg serv hserv) ha

/-- What the search has when the last entry for the longest domain was visited. -/
def decided (qtype : Flags) (serv : Server) (s : Search) : Search :=
  update qtype serv { s with
    type := servHasDomain, domain := some serv.domain, matchlen := serv.domain.length }

/-- The search ends where the last entry for the longest domain leaves it. -/
theorem foldl_of_longest {qtype : Flags} {qdomain : List UInt8} {front back : List Server}
    {serv : Server} (hreg : ∀ t∈front++serv :: back, Registered t)
    (hlong : Longest (front++serv :: back) qdomain serv)
    (hback : ∀ t∈back, Matches qdomain t → t.domain.length < serv.domain.length) :
    (front++serv :: back).foldl (visit qtype qdomain) start=
      decided qtype serv (front.foldl (visit qtype qdomain) start) := by
  have hlen : (front.foldl (visit qtype qdomain) start).matchlen ≤ serv.domain.length :=
    foldl_matchlen start (fun t ht => hreg t (List.mem_append_left _ ht)) (Nat.zero_le _)
      fun t ht hm => hlong.2.2 t (List.mem_append_left _ ht) hm
  rw [List.foldl_append,List.foldl_cons,visit_of_matches hlong.2.1 hlen]
  refine foldl_of_shorter (update_type _ _ _) (fun t ht => hreg t
    (List.mem_append_right _ (List.mem_cons_of_mem _ ht))) fun t ht hm => ?_
  rw [update_matchlen]
  exact hback t ht hm

/-- The entry gives an address of the kind that is asked for. -/
def LiteralFor (qtype : Flags) (serv : Server) : Prop :=
  serv.noAddr=false ∧ serv.literalAddress=true ∧ has (sflag serv) qtype=true

/-- The entry names a server to ask. -/
def Asks (serv : Server) : Prop := serv.noAddr=false ∧ serv.literalAddress=false

/-- `OPT_NODOTS_LOCAL` answers for the name when no entry does. -/
def KeptLocal (settings : Settings) (qtype : Flags) (qdomain : List UInt8) : Prop :=
  has qtype fBigname=false ∧ settings.nodotsLocal=true ∧ plainName qdomain=true

/-- What the entry for the longest domain says covers what another entry that
applies says: it says that there is no address, it gives the address, it gives
another kind of address and the other entry does not give the one asked for, or
it names a server and the other entry does so too or says what an unqualified
name is answered with anyway. -/
def Covers (settings : Settings) (qtype : Flags) (qdomain : List UInt8) (serv other : Server) :
    Prop :=
  serv.noAddr=true ∨ LiteralFor qtype serv ∨
  serv.literalAddress=true ∧ ¬LiteralFor qtype other ∨
  serv.literalAddress=false ∧ (Asks other ∨ KeptLocal settings qtype qdomain ∧
    (other.noAddr=true ∨
      checkForLocalDomain settings.names qdomain=true ∧ ¬LiteralFor qtype other))

/-- The longest domain is listed in one spelling, and the entry for it covers
the others that apply. -/
def OrderProof (settings : Settings) (servers : List Server) (qtype : Flags)
    (qdomain : List UInt8) : Prop :=
  ∀ serv, Longest servers qdomain serv → ∀ other∈servers, other≠serv → Applies qdomain other →
    ¬Longest servers qdomain other ∧ Covers settings qtype qdomain serv other

theorem settle_noerr (settings : Settings) (qtype : Flags) (qdomain : List UInt8) :
    settle settings qtype qdomain fNoerr=fNoerr := by
  simp [settle,fNoerr,fNxdomain]

theorem settle_nxdomain (settings : Settings) (qtype : Flags) (qdomain : List UInt8) :
    settle settings qtype qdomain fNxdomain=
      if checkForLocalDomain settings.names qdomain then fNoerr else fNxdomain := by
  simp [settle,fNxdomain]

theorem settle_zero (settings : Settings) (qtype : Flags) (qdomain : List UInt8)
    [Decidable (KeptLocal settings qtype qdomain)] :
    settle settings qtype qdomain 0#16=
      if KeptLocal settings qtype qdomain then settle settings qtype qdomain fNxdomain
      else 0#16 := by
  have hkept : KeptLocal settings qtype qdomain ↔ (0#16 : Flags)=0#16 ∧
      (!has qtype fBigname)=true ∧ settings.nodotsLocal=true ∧ plainName qdomain=true := by
    rw [Bool.not_eq_true']
    exact ⟨fun h => ⟨rfl,h⟩,fun h => h.2⟩
  by_cases h : KeptLocal settings qtype qdomain
  · rw [if_pos h,settle_nxdomain,settle,if_pos (hkept.mp h)]
    simp only [true_and]
  · rw [if_neg h,settle,if_neg (mt hkept.mpr h)]
    exact if_neg fun hn => absurd hn.1 (by decide)

theorem settle_sflag (settings : Settings) (qtype : Flags) (qdomain : List UInt8)
    (serv : Server) : settle settings qtype qdomain (sflag serv)=sflag serv := by
  rcases sflag_cases serv with h | h <;> rw [h] <;> simp [settle,fIpv4,fIpv6,fNxdomain]

theorem settle_nxdomain_cases (settings : Settings) (qtype : Flags) (qdomain : List UInt8) :
    settle settings qtype qdomain fNxdomain=fNoerr ∨
    settle settings qtype qdomain fNxdomain=fNxdomain := by
  rw [settle_nxdomain]
  split_ifs
  · exact .inl rfl
  · exact .inr rfl

theorem sflag_ne (serv : Server) :
    sflag serv≠fNoerr ∧ sflag serv≠fNxdomain ∧ sflag serv≠0#16 ∧
      has (sflag serv) fNxdomain=false := by
  rcases sflag_cases serv with h | h <;> rw [h] <;> decide

theorem own_of_noAddr {qtype : Flags} {serv : Server} (h : serv.noAddr=true) :
    own qtype serv=fNxdomain := by
  rw [own,if_pos h]

theorem own_of_literalFor {qtype : Flags} {serv : Server} (h : LiteralFor qtype serv) :
    own qtype serv=sflag serv := by
  rw [own,if_neg (by rw [h.1]; decide),if_pos h.2.1,if_pos h.2.2]

theorem own_of_asks {qtype : Flags} {serv : Server} (h : Asks serv) : own qtype serv=0#16 := by
  rw [own,if_neg (by rw [h.1]; decide),if_neg (by rw [h.2]; decide)]

/-- An entry that gives another kind of address than the one asked for. -/
theorem own_of_other {qtype : Flags} {serv : Server} (h1 : serv.noAddr=false)
    (h2 : serv.literalAddress=true) (h3 : has (sflag serv) qtype=false) :
    own qtype serv=fNoerr := by
  rw [own,if_neg (by rw [h1]; decide),if_pos h2,if_neg (by rw [h3]; decide)]

/-- The four kinds of entries. -/
theorem kind_cases (qtype : Flags) (serv : Server) :
    serv.noAddr=true ∨ LiteralFor qtype serv ∨
    (serv.noAddr=false ∧ serv.literalAddress=true ∧ has (sflag serv) qtype=false) ∨
    Asks serv := by
  cases h1 : serv.noAddr with
  | true => exact .inl rfl
  | false =>
    cases h2 : serv.literalAddress with
    | false => exact .inr (.inr (.inr ⟨h1,h2⟩))
    | true =>
      cases h3 : has (sflag serv) qtype with
      | true => exact .inr (.inl ⟨h1,h2,h3⟩)
      | false => exact .inr (.inr (.inl ⟨rfl,rfl,rfl⟩))

theorem decided_flags_of_asks {qtype : Flags} {serv : Server} (h : Asks serv) (s : Search) :
    (decided qtype serv s).flags=s.flags := by
  rw [decided,update,if_neg (by rw [h.1]; decide),if_neg (by rw [h.2]; decide)]

theorem decided_flags_of_other {qtype : Flags} {serv : Server} (h1 : serv.noAddr=false)
    (h2 : serv.literalAddress=true) (h3 : has (sflag serv) qtype=false) (s : Search) :
    (decided qtype serv s).flags=
      if s.flags=0#16 ∨ has s.flags fNxdomain=true then fNoerr else s.flags := by
  rw [decided,update,if_neg (by rw [h1]; decide),if_pos h2,if_neg (by rw [h3]; decide)]
  split_ifs <;> rfl

/-- Whether an entry that says nothing about addresses, or gives the address
asked for, has been visited before makes no difference. -/
theorem decided_flags_of_sure {qtype : Flags} {serv : Server}
    (h : serv.noAddr=true ∨ LiteralFor qtype serv) (s : Search) :
    (decided qtype serv s).flags=own qtype serv := by
  rcases h with h | h
  · rw [own_of_noAddr h,decided,update,if_pos h]
  · rw [own_of_literalFor h,decided,update,if_neg (by rw [h.1]; decide),if_pos h.2.1,if_pos h.2.2]

/-- After another entry, the entry for the longest domain ends with what it
says on its own if and only if it covers the other. -/
theorem settle_decided_iff {settings : Settings} {qtype : Flags} {qdomain : List UInt8}
    {serv other : Server} {s : Search} (hs : s.flags=own qtype other) :
    settle settings qtype qdomain (decided qtype serv s).flags=
      settle settings qtype qdomain (own qtype serv) ↔
      Covers settings qtype qdomain serv other := by
  rcases kind_cases qtype serv with h | h | ⟨h1,h2,h3⟩ | h
  · rw [decided_flags_of_sure (.inl h)]
    exact iff_of_true rfl (.inl h)
  · rw [decided_flags_of_sure (.inr h)]
    exact iff_of_true rfl (.inr (.inl h))
  · have hcov : Covers settings qtype qdomain serv other ↔ ¬LiteralFor qtype other := by
      rw [Covers,LiteralFor,h1,h2,h3]
      simp
    rw [hcov,decided_flags_of_other h1 h2 h3,own_of_other h1 h2 h3,settle_noerr,hs]
    rcases kind_cases qtype other with ho | ho | ⟨o1,o2,o3⟩ | ho
    · rw [own_of_noAddr ho,if_pos (.inr (by decide)),settle_noerr]
      exact iff_of_true rfl fun hn => absurd (ho.symm.trans hn.1) (by decide)
    · obtain ⟨hne,-,hz,hnx⟩ := sflag_ne other
      rw [own_of_literalFor ho,if_neg (by rw [hnx]; exact fun hn => hn.elim hz (by decide)),
        settle_sflag]
      exact iff_of_false hne (not_not_intro ho)
    · rw [own_of_other o1 o2 o3,if_neg (by decide),settle_noerr]
      exact iff_of_true rfl fun hn => absurd (o3.symm.trans hn.2.2) (by decide)
    · rw [own_of_asks ho,if_pos (.inl rfl),settle_noerr]
      exact iff_of_true rfl fun hn => absurd (ho.2.symm.trans hn.2.1) (by decide)
  · have hcov : Covers settings qtype qdomain serv other ↔ Asks other ∨
        KeptLocal settings qtype qdomain ∧ (other.noAddr=true ∨
          checkForLocalDomain settings.names qdomain=true ∧ ¬LiteralFor qtype other) := by
      rw [Covers,LiteralFor,h.1,h.2]
      simp
    classical
    rw [hcov,decided_flags_of_asks h,own_of_asks h,settle_zero,hs]
    rcases kind_cases qtype other with ho | ho | ⟨o1,o2,o3⟩ | ho
    · have hasks : ¬Asks other := fun hn => absurd (ho.symm.trans hn.1) (by decide)
      rw [own_of_noAddr ho]
      by_cases hk : KeptLocal settings qtype qdomain
      · rw [if_pos hk]
        exact iff_of_true rfl (.inr ⟨hk,.inl ho⟩)
      · rw [if_neg hk]
        refine iff_of_false (fun hn => ?_) (fun hn => hn.elim hasks fun hn => hk hn.1)
        rcases settle_nxdomain_cases settings qtype qdomain with hc | hc <;> rw [hc] at hn <;>
          exact absurd hn (by decide)
    · obtain ⟨hne,hne',hz,-⟩ := sflag_ne other
      have hasks : ¬Asks other := fun hn => absurd (ho.2.1.symm.trans hn.2) (by decide)
      rw [own_of_literalFor ho,settle_sflag]
      refine iff_of_false (fun hn => ?_) (fun hn => hn.elim hasks fun hn =>
        hn.2.elim (fun hn => absurd (hn.symm.trans ho.1) (by decide)) fun hn => hn.2 ho)
      split_ifs at hn
      · rcases settle_nxdomain_cases settings qtype qdomain with hc | hc <;> rw [hc] at hn
        · exact hne hn
        · exact hne' hn
      · exact hz hn
    · have hasks : ¬Asks other := fun hn => absurd (o2.symm.trans hn.2) (by decide)
      have hlit : ¬LiteralFor qtype other := fun hn => absurd (o3.symm.trans hn.2.2) (by decide)
      rw [own_of_other o1 o2 o3,settle_noerr]
      by_cases hk : KeptLocal settings qtype qdomain
      · rw [if_pos hk,settle_nxdomain]
        by_cases hl : checkForLocalDomain settings.names qdomain=true
        · rw [if_pos hl]
          exact iff_of_true rfl (.inr ⟨hk,.inr ⟨hl,hlit⟩⟩)
        · rw [if_neg hl]
          exact iff_of_false (by decide) fun hn => hn.elim hasks fun hn =>
            hn.2.elim (fun hn => absurd (hn.symm.trans o1) (by decide)) fun hn => hl hn.1
      · rw [if_neg hk]
        exact iff_of_false (by decide) fun hn => hn.elim hasks fun hn => hk hn.1
    · rw [own_of_asks ho,settle_zero]
      exact iff_of_true rfl (.inl ho)

theorem exists_longest {servers : List Server} {qdomain : List UInt8}
    (h : ∃ serv∈servers, Matches qdomain serv) : ∃ serv, Longest servers qdomain serv := by
  obtain ⟨serv,hserv,hm⟩ := h
  have hfin : Set.Finite { t | t∈servers ∧ Matches qdomain t } :=
    (List.finite_toSet servers).subset fun t ht => ht.1
  obtain ⟨t,ht,hmax⟩ := Set.exists_max_image _ (fun t : Server => t.domain.length) hfin
    ⟨serv,hserv,hm⟩
  exact ⟨t,ht.1,ht.2,fun other ho hmo => hmax other ⟨ho,hmo⟩⟩

theorem exists_chosen (servers : List Server) (qdomain : List UInt8) :
    ∃ chosen, Chosen servers qdomain chosen := by
  by_cases hm : ∃ serv∈servers, Matches qdomain serv
  · obtain ⟨serv,h⟩ := exists_longest hm
    exact ⟨_,.domain h⟩
  · have hno : ∀ other∈servers, ¬Matches qdomain other := fun other ho hmo => hm ⟨other,ho,hmo⟩
    by_cases hp : ∃ serv∈servers, ForPlain qdomain serv
    · obtain ⟨serv,hserv,h⟩ := hp
      exact ⟨_,.nodots hno hserv h⟩
    · exact ⟨_,.nothing fun other ho ha => ha.elim (hno other ho) fun h => hp ⟨other,ho,h⟩⟩

/-- An entry stands once in the list: an entry of the same type elsewhere in it
is for another domain. -/
theorem domain_ne_of_distinct {front back : List Server} {serv t : Server}
    (hd : Distinct (front++serv :: back)) (ht : t∈front++back) (htype : t.type=serv.type)
    (hne : t.type≠0) : t.domain≠serv.domain := by
  rw [Distinct,List.pairwise_append,List.pairwise_cons] at hd
  rcases List.mem_append.mp ht with h | h
  · exact hd.2.2 t h serv List.mem_cons_self htype hne
  · exact (hd.2.1.1 t h htype.symm (htype ▸ hne)).symm

theorem Distinct.domain_ne {servers : List Server} (hd : Distinct servers) {a b : Server}
    (ha : a∈servers) (hb : b∈servers) (hne : a≠b) :
    a.type=b.type → a.type≠0 → a.domain≠b.domain := by
  have hsymm : Std.Symm fun a b : Server => a.type=b.type → a.type≠0 → a.domain≠b.domain :=
    ⟨fun x y h hxy hz => (h hxy.symm (hxy ▸ hz)).symm⟩
  exact List.Pairwise.forall hd ha hb hne

theorem Distinct.perm {servers order : List Server} (hd : Distinct servers)
    (hperm : order.Perm servers) : Distinct order :=
  List.Pairwise.perm hd hperm.symm fun h ht hne => (h ht.symm (ht ▸ hne)).symm

theorem Longest.perm {servers order : List Server} {qdomain : List UInt8} {serv : Server}
    (h : Longest servers qdomain serv) (hperm : order.Perm servers) :
    Longest order qdomain serv :=
  ⟨hperm.mem_iff.mpr h.1,h.2.1,fun t ht hm => h.2.2 t (hperm.mem_iff.mp ht) hm⟩

/-- Of two matches of the greatest length neither is shorter. -/
theorem Longest.of_length {servers : List Server} {qdomain : List UInt8} {serv t : Server}
    (h : Longest servers qdomain serv) (ht : t∈servers) (hm : Matches qdomain t)
    (hlen : ¬t.domain.length < serv.domain.length) : Longest servers qdomain t :=
  ⟨ht,hm,fun other ho hmo => (h.2.2 other ho hmo).trans (Nat.le_of_not_lt hlen)⟩

theorem decided_result {settings : Settings} {qtype : Flags} {qdomain : List UInt8}
    {serv : Server} {s : Search} (htype : serv.type=servHasDomain)
    (h : settle settings qtype qdomain (decided qtype serv s).flags=
      settle settings qtype qdomain (own qtype serv)) :
    Search.result { decided qtype serv s with
      flags := settle settings qtype qdomain (decided qtype serv s).flags }=
      answerOf settings qtype qdomain (some serv) := by
  rw [Search.result,answerOf,h,htype,if_pos rfl,decided,update_type,update_domain]

/-- Every order gives what the entry for the longest domain says if that entry
covers the others and the longest domain is listed in one spelling. -/
theorem searchServers_of_longest {settings : Settings} {servers order : List Server}
    {qtype : Flags} {qdomain : List UInt8} {serv : Server}
    (hreg : ∀ t∈servers, Registered t) (hd : Distinct servers)
    (hlong : Longest servers qdomain serv) (hp : OrderProof settings servers qtype qdomain)
    (hperm : order.Perm servers) :
    (searchServers settings order qtype qdomain).result=
      answerOf settings qtype qdomain (some serv) := by
  have hlong' := hlong.perm hperm
  have hd' := hd.perm hperm
  obtain ⟨front,back,rfl⟩ := List.append_of_mem hlong'.1
  have hother : ∀ t∈front++back, Applies qdomain t →
      ¬Longest servers qdomain t ∧ Covers settings qtype qdomain serv t := by
    intro t ht ha
    have hmem : t∈servers := by
      refine hperm.mem_iff.mp ?_
      rcases List.mem_append.mp ht with h | h
      · exact List.mem_append_left _ h
      · exact List.mem_append_right _ (List.mem_cons_of_mem _ h)
    refine hp serv hlong t hmem (fun heq => ?_) ha
    refine domain_ne_of_distinct hd' ht (congrArg Server.type heq) ?_ (congrArg Server.domain heq)
    rw [heq,hlong.2.1.1]
    decide
  have hfold := @foldl_of_longest qtype _ _ _ _ (fun t ht => hreg t (hperm.mem_iff.mp ht)) hlong'
    fun t ht hm => by
      by_contra hlen
      refine (hother t (List.mem_append_right _ ht) (.inl hm)).1 (hlong.of_length ?_ hm hlen)
      exact hperm.mem_iff.mp (List.mem_append_right _ (List.mem_cons_of_mem _ ht))
  rw [searchServers,hfold]
  refine decided_result hlong.2.1.1 ?_
  rcases @foldl_flags qtype qdomain front start
    (fun t ht => hreg t (hperm.mem_iff.mp (List.mem_append_left _ ht))) with h | ⟨t,ht,ha,h⟩
  · rw [decided,update_flags_of_zero (by exact h)]
  · exact (settle_decided_iff h).mpr (hother t (List.mem_append_left _ ht) ha).2

/-- Without a matching domain the entry for names without dots decides. -/
theorem searchServers_of_forPlain {settings : Settings} {servers order : List Server}
    {qtype : Flags} {qdomain : List UInt8} {serv : Server}
    (hreg : ∀ t∈servers, Registered t) (hd : Distinct servers)
    (hno : ∀ t∈servers, ¬Matches qdomain t) (hserv : serv∈servers) (hp : ForPlain qdomain serv)
    (hperm : order.Perm servers) :
    (searchServers settings order qtype qdomain).result=
      answerOf settings qtype qdomain (some serv) := by
  have hd' := hd.perm hperm
  have hmem := hperm.mem_iff.mpr hserv
  obtain ⟨front,back,rfl⟩ := List.append_of_mem hmem
  have hnodots : ∀ t∈servers, t.type=servForNodots → t.domain=[] := by
    intro t ht htype
    rcases hreg t ht with h | h | h
    · rw [h] at htype; exact absurd htype (by decide)
    · rw [h] at htype; exact absurd htype (by decide)
    · exact h.2
  have hignored : ∀ t∈front++back, ∀ s, visit qtype qdomain s t=s := by
    intro t ht s
    have ht' : t∈servers := by
      refine hperm.mem_iff.mp ?_
      rcases List.mem_append.mp ht with h | h
      · exact List.mem_append_left _ h
      · exact List.mem_append_right _ (List.mem_cons_of_mem _ h)
    refine visit_of_not_applies (hreg t ht') fun ha => ?_
    rcases ha with hm | hpt
    · exact hno t ht' hm
    · refine domain_ne_of_distinct hd' ht (hpt.1.trans hp.1.symm) (by rw [hpt.1]; decide) ?_
      rw [hnodots t ht' hpt.1,hnodots serv hserv hp.1]
  have hne : (servForNodots : ℕ)≠servHasDomain := by decide
  rw [searchServers,List.foldl_append,
    foldl_of_ignored fun t ht => hignored t (List.mem_append_left _ ht) _,List.foldl_cons,
    visit_of_forPlain hp (by decide),
    foldl_of_ignored fun t ht => hignored t (List.mem_append_right _ ht) _,
    Search.result,answerOf,update_type,update_domain,hp.1,if_neg hne,update_flags_of_zero rfl]
  rfl

theorem searchServers_of_not_applies {settings : Settings} {servers order : List Server}
    {qtype : Flags} {qdomain : List UInt8} (hreg : ∀ t∈servers, Registered t)
    (hno : ∀ t∈servers, ¬Applies qdomain t) (hperm : order.Perm servers) :
    (searchServers settings order qtype qdomain).result=answerOf settings qtype qdomain none := by
  rw [searchServers,foldl_of_ignored fun t ht => visit_of_not_applies
    (hreg t (hperm.mem_iff.mp ht)) (hno t (hperm.mem_iff.mp ht))]
  rfl

/-- The last entry for the longest domain gives the domain. -/
theorem domain_of_longest {settings : Settings} {servers : List Server} {qtype : Flags}
    {qdomain : List UInt8} {serv : Server} (hreg : ∀ t∈servers, Registered t)
    (hlong : Longest servers qdomain serv) :
    ∃ order : List Server, order.Perm servers ∧
      (searchServers settings order qtype qdomain).domain=some serv.domain := by
  obtain ⟨front,back,rfl⟩ := List.append_of_mem hlong.1
  have hperm : (front++back++[serv]).Perm (front++serv :: back) := by
    rw [List.append_assoc]
    exact List.Perm.append_left _ (List.perm_append_singleton _ _)
  refine ⟨_,hperm,?_⟩
  rw [searchServers,@foldl_of_longest qtype qdomain (front++back) [] serv
    (fun t ht => hreg t (hperm.mem_iff.mp ht)) (hlong.perm hperm) (fun t ht => by simp at ht)]
  exact update_domain _ _ _

/-- The choice of a server depends on the longest domain only, and not on the
order of the entries, if and only if the longest domain is listed in one spelling
and the entry for it covers the others that apply. -/
theorem selectsLongest_iff (settings : Settings) (servers : List Server) (qtype : Flags)
    (qdomain : List UInt8) (hreg : ∀ t∈servers, Registered t) (hd : Distinct servers) :
    SelectsLongest settings servers qtype qdomain ↔
      OrderProof settings servers qtype qdomain := by
  constructor
  · rintro ⟨chosen,hchosen,hall⟩ serv hlong other hother hne ha
    have hdomain : ∀ t, Longest servers qdomain t → ∃ c, chosen=some c ∧ c.domain=t.domain := by
      intro t ht
      obtain ⟨order,hperm,hres⟩ := @domain_of_longest settings servers qtype qdomain t hreg ht
      have hans := congrArg (fun r => r.2.2) (hall order hperm)
      simp only [Search.result,hres] at hans
      cases hchosen with
      | nothing hno => cases hans
      | @domain c hc =>
        rw [answerOf,if_pos hc.2.1.1] at hans
        exact ⟨c,rfl,(Option.some.inj hans).symm⟩
      | @nodots c hno _ hp => exact absurd ht.2.1 (hno t ht.1)
    have hunique : ∀ t, Longest servers qdomain t → t=serv := by
      intro t ht
      obtain ⟨c,hc,h1⟩ := hdomain serv hlong
      obtain ⟨c',hc',h2⟩ := hdomain t ht
      rw [Option.some.inj (hc.symm.trans hc')] at h1
      by_contra hts
      exact hd.domain_ne ht.1 hlong.1 hts (ht.2.1.1.trans hlong.2.1.1.symm)
        (by rw [ht.2.1.1]; decide) (h2.symm.trans h1)
    refine ⟨fun h => hne (hunique other h),?_⟩
    obtain ⟨front,back,hsplit⟩ := List.append_of_mem hlong.1
    have hrest : other∈front++back := by
      rw [hsplit] at hother
      rcases List.mem_append.mp hother with h | h
      · exact List.mem_append_left _ h
      · exact List.mem_append_right _ ((List.mem_cons.mp h).resolve_left hne)
    obtain ⟨front',back',hsplit'⟩ := List.append_of_mem hrest
    have hperm : ([other]++serv :: (front'++back')).Perm servers := by
      rw [hsplit]
      refine .trans (.swap _ _ _) (.trans (.cons _ ?_) List.perm_middle.symm)
      rw [hsplit']
      exact List.perm_middle.symm
    have hlong' := hlong.perm hperm
    have hfold := @foldl_of_longest qtype qdomain [other] (front'++back') serv
      (fun t ht => hreg t (hperm.mem_iff.mp ht)) hlong' fun t ht hm => by
        by_contra hlen
        have hmem := hperm.mem_iff.mp (List.mem_append_right _ (List.mem_cons_of_mem _ ht))
        have heq := hunique t (hlong.of_length hmem hm hlen)
        refine domain_ne_of_distinct (hd.perm hperm) (List.mem_append_right _ ht)
          (congrArg Server.type heq) ?_ (congrArg Server.domain heq)
        rw [heq,hlong.2.1.1]
        decide
    have hfirst : ([other].foldl (visit qtype qdomain) start).flags=own qtype other := by
      rw [List.foldl_cons,List.foldl_nil]
      rcases ha with hm | hp
      · rw [visit_of_matches hm (Nat.zero_le _),update_flags_of_zero rfl]
      · rw [visit_of_forPlain hp (by decide),update_flags_of_zero rfl]
    have hans := congrArg Prod.fst (hall _ hperm)
    rw [searchServers,hfold] at hans
    obtain ⟨c,hc,-⟩ := hdomain serv hlong
    have hlc : Longest servers qdomain c := by
      cases hchosen with
      | nothing hno => cases hc
      | domain h => cases hc; exact h
      | nodots hno _ hp => exact absurd hlong.2.1 (hno serv hlong.1)
    rw [hc,hunique c hlc] at hans
    exact (settle_decided_iff hfirst).mp hans
  · intro hp
    obtain ⟨chosen,hchosen⟩ := exists_chosen servers qdomain
    refine ⟨chosen,hchosen,fun order hperm => ?_⟩
    cases hchosen with
    | domain h => exact searchServers_of_longest hreg hd h hp hperm
    | nodots hno hserv h => exact searchServers_of_forPlain hreg hd hno hserv h hperm
    | nothing hno => exact searchServers_of_not_applies hreg hno hperm

/-- Settings without local names. -/
def bare : Settings := ⟨false,⟨fun _ => none,[],[],[],[]⟩⟩

/-- `--address=/#/1.2.3.4`: a literal address for every name. -/
def anyAddress : Server := ⟨⟨.inet,[1,2,3,4],53⟩,none,[],servHasDomain,true,false⟩

/-- `--server=/foo.com/9.9.9.9`: a server for the names in `foo.com`. -/
def fooServer : Server :=
  ⟨⟨.inet,[9,9,9,9],53⟩,none,[102,111,111,46,99,111,109],servHasDomain,false,false⟩

/-- `a.foo.com` -/
def fooName : List UInt8 := [97,46,102,111,111,46,99,111,109]

theorem fooServer_registered : ∀ serv∈[anyAddress,fooServer], Registered serv := by
  intro serv hserv
  rcases List.mem_cons.mp hserv with rfl | h
  · exact .inr (.inl rfl)
  · rw [List.mem_singleton.mp h]
    exact .inr (.inl rfl)

theorem fooServer_distinct : Distinct [anyAddress,fooServer] := by
  rw [Distinct,List.pairwise_pair]
  intro _ _
  decide

/-- The server for `foo.com` does not take back the address for every name when
that is listed first. -/
theorem fooServer_not_selectsLongest :
    ¬∀ (settings : Settings) (servers : List Server) (qtype : Flags) (qdomain : List UInt8),
      (∀ serv∈servers, Registered serv) → Distinct servers →
        SelectsLongest settings servers qtype qdomain := by
  intro h
  obtain ⟨chosen,-,hall⟩ := h bare [anyAddress,fooServer] fIpv4 fooName fooServer_registered
    fooServer_distinct
  have hfirst := hall [anyAddress,fooServer] (List.Perm.refl _)
  have hlast := hall [fooServer,anyAddress] (List.Perm.swap _ _ _)
  exact absurd (congrArg Prod.fst (hfirst.trans hlast.symm)) (by decide)

theorem fooServer_selectsLongest_iff :
    SelectsLongest bare [anyAddress,fooServer] fIpv4 fooName ↔
      OrderProof bare [anyAddress,fooServer] fIpv4 fooName :=
  selectsLongest_iff bare [anyAddress,fooServer] fIpv4 fooName fooServer_registered
    fooServer_distinct

end AndroidPlatform.DnsServerSelection
