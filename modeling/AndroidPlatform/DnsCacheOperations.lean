import AndroidPlatform.DnsCacheInvariant

/-!
# The functions of the DNS cache keep its structure

Each loop goes along a hash chain while it takes records out of it. What has
been passed and what is still to come are two parts of the chain; the place that
the loop writes to is the last record of the first part, and the record it looks
at is the first of the second. No loop runs out of its chain, so every function
returns.
-/

namespace AndroidPlatform.DnsCache

open CInteger DnsPacket LinkedLists Cache

namespace Inv

variable {cfg : Config} {c : Cache} {shape : Shape} {b x : ℕ} {done rest : List ℕ}

/-- One record further along a bucket. -/
theorem split_next (hb : shape.bucket b=done++x::rest) : shape.bucket b=(done++[x])++rest := by
  rw [hb,List.append_assoc]
  rfl

/-- The pointer behind a record on the way along a bucket. -/
theorem next_eq (h : Inv cfg c shape) (hb : shape.bucket b=done++x::rest) :
    c.hash.next x=rest.head? := by
  have hread := h.hash.read_eq (split_next hb)
  rwa [List.getLast?_concat] at hread

theorem lt_of_bucket (h : Inv cfg c shape) (hb : shape.bucket b=done++x::rest) :
    x<cfg.cachesize :=
  h.lt_of_lru (h.lru_of_bucket (mem_bucket hb))

/-- The loop of `cache_scan_free` for a name. -/
theorem scanForward (name : NameRef) (now : ℤ) (flags : Flags) (h : Inv cfg c shape)
    (hb : shape.bucket b=done++rest) {fuel : ℕ} (hfuel : rest.length≤fuel) :
    ∃ r shape', Cache.scanForward cfg name now flags b fuel done.getLast? rest.head? c=some r ∧
      Inv cfg r.1 shape' := by
  induction rest generalizing c shape done fuel with
  | nil => exact ⟨(c,true),shape,by rw [List.head?_nil,Cache.scanForward],h⟩
  | cons x rest ih =>
    cases fuel with
    | zero => cases hfuel
    | succ fuel =>
      have hfuel' : rest.length≤fuel := Nat.le_of_succ_le_succ hfuel
      have hdrop := h.dropFree hb
      have hdropped := ih hdrop (Function.update_self b _ _) hfuel'
      have hkept := ih h (split_next hb) hfuel'
      rw [List.getLast?_concat] at hkept
      rw [List.head?_cons,Cache.scanForward,h.dropCrec_eq (h.lt_of_bucket hb)]
      dsimp only
      rw [dropFree_next,h.next_eq hb]
      by_cases hold : (c.isExpired now x || c.isOutdated x)=true
      · rw [if_pos hold]
        exact hdropped
      · rw [if_neg hold]
        by_cases hsame : c.replacedBy name flags x=true
        · rw [if_pos hsame,h.isLocal_eq (h.lt_of_bucket hb),if_neg Bool.false_ne_true]
          exact hdropped
        · rw [if_neg hsame]
          exact hkept

/-- The loop of `cache_scan_free` for an address. -/
theorem scanReverse (addr : List UInt8) (now : ℤ) (flags : Flags) (h : Inv cfg c shape)
    (hb : shape.bucket b=done++rest) {fuel : ℕ} (hfuel : rest.length≤fuel) :
    ∃ c' shape', Cache.scanReverse cfg addr now flags b fuel done.getLast? rest.head? c=some c' ∧
      Inv cfg c' shape' := by
  induction rest generalizing c shape done fuel with
  | nil => exact ⟨c,shape,by rw [List.head?_nil,Cache.scanReverse],h⟩
  | cons x rest ih =>
    cases fuel with
    | zero => cases hfuel
    | succ fuel =>
      have hfuel' : rest.length≤fuel := Nat.le_of_succ_le_succ hfuel
      have hdrop := h.dropFree hb
      have hdropped := ih hdrop (Function.update_self b _ _) hfuel'
      have hkept := ih h (split_next hb) hfuel'
      rw [List.getLast?_concat] at hkept
      rw [List.head?_cons,Cache.scanReverse,h.dropCrec_eq (h.lt_of_bucket hb)]
      dsimp only
      rw [dropFree_next,h.next_eq hb]
      split_ifs
      · exact hdropped
      · exact hdropped
      · exact hkept
      · exact ⟨c,shape,rfl,h⟩

/-- A loop over the buckets whose body keeps the structure. -/
theorem overBuckets {body : ℕ → Cache → Option Cache}
    (hbody : ∀ b c shape, Inv cfg c shape → ∃ c' shape', body b c=some c' ∧ Inv cfg c' shape')
    (buckets : List ℕ) (h : Inv cfg c shape) :
    ∃ c' shape', Cache.overBuckets body buckets c=some c' ∧ Inv cfg c' shape' := by
  induction buckets generalizing c shape with
  | nil => exact ⟨c,shape,rfl,h⟩
  | cons b buckets ih =>
    obtain ⟨c',shape',hc',h'⟩ := hbody b c shape h
    rw [Cache.overBuckets,hc',Option.bind_some]
    exact ih h'

/-- The start of a walk along a bucket. -/
theorem read_none (h : Inv cfg c shape) (b : ℕ) : c.hash.read b none=(shape.bucket b).head? := by
  have hread := h.hash.read_eq (List.nil_append (shape.bucket b)).symm
  exact hread

/-- `cache_scan_free` -/
theorem cacheScanFree (h : Inv cfg c shape) (name : Option NameRef) (addr : List UInt8) (now : ℤ)
    (flags : Flags) (hname : has flags fForward=true → name.isSome=true) :
    ∃ r shape', c.cacheScanFree cfg name addr now flags=some r ∧ Inv cfg r.1 shape' := by
  rw [Cache.cacheScanFree]
  split_ifs with hforward
  · obtain ⟨name,rfl⟩ := Option.isSome_iff_exists.mp (hname hforward)
    rw [Option.bind_some]
    dsimp only
    rw [h.read_none]
    exact h.scanForward name now flags (List.nil_append _).symm (h.length_bucket _)
  · have hbody : ∀ b c shape, Inv cfg c shape → ∃ c' shape',
        Cache.scanReverse cfg addr now flags b cfg.cachesize none (c.hash.read b none) c=some c' ∧
          Inv cfg c' shape' := by
      intro b c shape h
      rw [h.read_none]
      exact h.scanReverse addr now flags (List.nil_append _).symm (h.length_bucket b)
    obtain ⟨c',shape',hc',h'⟩ := h.overBuckets hbody (List.range cfg.hashSize)
    exact ⟨(c',true),shape',by rw [hc',Option.map_some],h'⟩

/-- The search for a free record looks at most three times. -/
theorem findFree (now : ℤ) (h : Inv cfg c shape) {freedAll freeAvail : Bool} {fuel : ℕ}
    (hfuel : 3≤fuel+freedAll.toNat+freeAvail.toNat) :
    ∃ r shape', Cache.findFree cfg now fuel freedAll freeAvail c=some r ∧ Inv cfg r.1 shape' ∧
      ∀ x∈r.2, x∈shape'.lru ∧ r.1.inUse x=false := by
  induction fuel generalizing c shape freedAll freeAvail with
  | zero =>
    have hle := Bool.toNat_le freedAll
    have hle' := Bool.toNat_le freeAvail
    omega
  | succ fuel ih =>
    rw [Cache.findFree]
    cases htail : c.links.tail with
    | none => exact ⟨(c,none),shape,rfl,h,fun x hx => by cases hx⟩
    | some x =>
      dsimp only
      split_ifs with hused havail hall
      · exact ⟨(c,none),shape,rfl,h,fun x hx => by cases hx⟩
      · obtain ⟨r,shape',hr,h'⟩ := h.cacheScanFree (some (c.nameRef x)) (c.addr x) now
          (c.flags x) (fun _ => rfl)
        rw [hr,Option.bind_some]
        refine ih h' ?_
        rw [Bool.not_eq_true] at havail
        rw [hall,havail,Bool.toNat_true,Bool.toNat_false] at hfuel
        rw [Bool.toNat_true]
        omega
      · obtain ⟨r,shape',hr,h'⟩ := h.cacheScanFree none [] now 0#16 (fun hnot => by cases hnot)
        rw [hr,Option.bind_some]
        refine ih h' ?_
        rw [Bool.not_eq_true] at havail hall
        rw [hall,havail,Bool.toNat_false] at hfuel
        rw [Bool.toNat_true,Bool.toNat_false]
        omega
      · refine ⟨(c,some x),shape,rfl,h,fun y hy => ?_⟩
        cases hy
        rw [h.lists.list.tail_eq] at htail
        rw [Bool.not_eq_true] at hused
        exact ⟨List.mem_of_getLast? htail,hused⟩

/-- A flag that the structure does not depend on. -/
theorem setError (h : Inv cfg c shape) (error : Bool) :
    Inv cfg { c with insertError := error } shape :=
  h.rearrange (fun _ => ⟨rfl,rfl,rfl,rfl,rfl⟩) h.lists (List.Perm.refl _) rfl h.hash
    (fun _ => List.Perm.refl _) h.reverse (h.bigNames.of_flags rfl rfl rfl (fun _ hy => hy))

variable {new : NewRecord}

theorem insertAt (h : Inv cfg c shape) (hsound : new.Sound) (malloc : Bool) (hx : x∈shape.lru)
    (hfree : c.inUse x=false) : ∃ shape', Inv cfg (c.insertAt new malloc x).1 shape' := by
  rw [Cache.insertAt]
  split_ifs with hlong
  · cases htake : c.takeBigName malloc with
    | none => exact ⟨shape,h.setError true⟩
    | some r =>
      obtain ⟨c',buffer⟩ := r
      obtain ⟨h',hunowned,hflags⟩ := h.takeBigName htake
      have hfree' : c'.inUse x=false := by
        rw [inUse,hflags]
        exact hfree
      refine ⟨_,h'.fillCrec hsound hx hfree' (some buffer) (fun n hn => ?_)⟩
      cases hn
      exact hunowned
  · exact ⟨_,h.fillCrec hsound hx hfree none (fun n hn => by cases hn)⟩

/-- `cache_insert` -/
theorem cacheInsert (h : Inv cfg c shape) (hsound : new.Sound) (malloc : Bool) :
    ∃ r shape', c.cacheInsert cfg new malloc=some r ∧ Inv cfg r.1 shape' := by
  rw [Cache.cacheInsert]
  split_ifs with herror
  · exact ⟨(c,none),shape,rfl,h⟩
  · have hname : has new.kept fForward=true → (new.name.map NameRef.text).isSome=true := by
      intro hforward
      rw [Option.isSome_map]
      refine hsound.named ?_
      by_contra hnot
      rw [Bool.not_eq_true] at hnot
      rw [NewRecord.kept,has_and_eq_false hnot] at hforward
      cases hforward
    obtain ⟨r,shape',hr,hscan⟩ := h.cacheScanFree (new.name.map .text) (new.addr.getD []) new.now
      new.kept hname
    rw [hr,Option.bind_some]
    split_ifs
    · obtain ⟨f,found,hf,hfind,hfree⟩ :=
        hscan.findFree new.now (by omega : 3≤3+(has new.flags fReverse).toNat+false.toNat)
      rw [hf,Option.map_some]
      obtain ⟨c',record⟩ := f
      cases record with
      | none => exact ⟨_,found,rfl,hfind.setError true⟩
      | some x =>
        obtain ⟨hx,hunused⟩ := hfree x rfl
        obtain ⟨filled,hfilled⟩ := hfind.insertAt hsound malloc hx hunused
        exact ⟨_,filled,rfl,hfilled⟩
    · exact ⟨_,shape',rfl,hscan.setError true⟩

/-- `cache_start_insert` -/
theorem freeNew (h : Inv cfg c shape) {fuel : ℕ} (hfuel : shape.new.length≤fuel) :
    ∃ c' shape', Cache.freeNew cfg fuel c=some c' ∧ Inv cfg c' shape' := by
  induction hnew : shape.new generalizing c shape fuel with
  | nil =>
    have hhead := h.lists.chain.head_eq
    rw [hnew,List.head?_nil] at hhead
    refine ⟨{ c with insertError := false },shape,?_,h.setError false⟩
    rw [Cache.freeNew]
    exact hhead
  | cons x new ih =>
    have hhead := h.lists.chain.head_eq
    rw [hnew,List.head?_cons] at hhead
    rw [hnew] at hfuel
    cases fuel with
    | zero => cases hfuel
    | succ fuel =>
      rw [Cache.freeNew.eq_def]
      dsimp only
      rw [hhead]
      exact ih (h.freeHead hnew) (Nat.le_of_succ_le_succ hfuel) rfl

/-- `cache_end_insert` -/
theorem hashNew (h : Inv cfg c shape) {fuel : ℕ} (hfuel : shape.new.length≤fuel) :
    ∃ c' shape', Cache.hashNew cfg fuel c=some c' ∧ Inv cfg c' shape' := by
  induction hnew : shape.new generalizing c shape fuel with
  | nil =>
    have hhead := h.lists.chain.head_eq
    rw [hnew,List.head?_nil] at hhead
    refine ⟨c,shape,?_,h⟩
    rw [Cache.hashNew]
    exact hhead
  | cons x new ih =>
    have hhead := h.lists.chain.head_eq
    rw [hnew,List.head?_cons] at hhead
    rw [hnew] at hfuel
    cases fuel with
    | zero => cases hfuel
    | succ fuel =>
      rw [Cache.hashNew.eq_def]
      dsimp only
      rw [hhead]
      dsimp only
      split_ifs
      · exact ih (h.freeHead hnew) (Nat.le_of_succ_le_succ hfuel) rfl
      · obtain ⟨bucket,h'⟩ := h.hashHead hnew
        exact ih h' (Nat.le_of_succ_le_succ hfuel) rfl

/-- The new chain is not longer than the cache. -/
theorem length_new (h : Inv cfg c shape) : shape.new.length≤cfg.cachesize := by
  have hlength := h.records.length_eq
  rw [List.length_append,List.length_range] at hlength
  omega

theorem cacheStartInsert (h : Inv cfg c shape) :
    ∃ c' shape', c.cacheStartInsert cfg=some c' ∧ Inv cfg c' shape' := h.freeNew h.length_new

theorem cacheEndInsert (h : Inv cfg c shape) :
    ∃ c' shape', c.cacheEndInsert cfg=some c' ∧ Inv cfg c' shape' := by
  rw [Cache.cacheEndInsert]
  split_ifs
  · exact ⟨c,shape,rfl,h⟩
  · exact h.hashNew h.length_new

/-- The store of the caller that links a CNAME record. -/
theorem linkCname (h : Inv cfg c shape) (cpp newc : ℕ) : Inv cfg (c.linkCname cpp newc) shape :=
  ⟨⟨h.lists,h.records,h.hash,h.hashed,h.reverse⟩,h.bigNames.of_flags rfl rfl rfl (fun _ hy => hy),
    h.pending,h.plain⟩

/-! ## Looking up an address -/

theorem touch_eq (h : Inv cfg c shape) (hx : x<cfg.cachesize) (chain : Answers) :
    c.touch chain x=((c.cacheUnlink x).cacheLink x,chain) := by
  rw [touch,if_neg (by rw [h.isLocal_eq hx]; exact Bool.false_ne_true)]

theorem walkAddr (addr : List UInt8) (now : ℤ) (prot : Flags) (h : Inv cfg c shape)
    (hb : shape.bucket b=done++rest) {fuel : ℕ} (hfuel : rest.length≤fuel) (chain : Answers) :
    ∃ c' shape', Cache.walkAddr cfg addr now prot b fuel done.getLast? rest.head? (c,chain)=
      some (c',chain) ∧ Inv cfg c' shape' := by
  induction rest generalizing c shape done fuel with
  | nil => exact ⟨c,shape,by rw [List.head?_nil,Cache.walkAddr],h⟩
  | cons x rest ih =>
    cases fuel with
    | zero => cases hfuel
    | succ fuel =>
      have hfuel' : rest.length≤fuel := Nat.le_of_succ_le_succ hfuel
      have hdropped := ih (h.dropFree hb) (Function.update_self b _ _) hfuel'
      have hkept := ih h (split_next hb) hfuel'
      have hfront := h.toFront (h.lru_of_bucket (mem_bucket hb))
      have htouched := ih hfront (split_next hb) hfuel'
      rw [List.getLast?_concat] at hkept htouched
      have hx := h.lt_of_bucket hb
      rw [List.head?_cons,Cache.walkAddr,h.dropCrec_eq hx,h.touch_eq hx]
      dsimp only
      rw [dropFree_next,hfront.next_eq hb,h.next_eq hb]
      split_ifs
      · exact hdropped
      · exact htouched
      · exact hkept
      · exact ⟨c,shape,rfl,h⟩

theorem walkAddrs (addr : List UInt8) (now : ℤ) (prot : Flags) (buckets : List ℕ)
    (h : Inv cfg c shape) (chain : Answers) :
    ∃ c' shape', Cache.walkAddrs cfg addr now prot buckets (c,chain)=some (c',chain) ∧
      Inv cfg c' shape' := by
  induction buckets generalizing c shape with
  | nil => exact ⟨c,shape,rfl,h⟩
  | cons b buckets ih =>
    obtain ⟨c',shape',hc',h'⟩ := h.walkAddr addr now prot (List.nil_append _).symm
      (h.length_bucket b) chain
    rw [← h.read_none,List.getLast?_nil] at hc'
    rw [Cache.walkAddrs]
    dsimp only
    rw [hc',Option.bind_some]
    exact ih h'

/-- `cache_find_by_addr` -/
theorem findFirstAddr (h : Inv cfg c shape) (addr : List UInt8) (now : ℤ) (prot : Flags) :
    ∃ r shape', c.findFirstAddr cfg addr now prot=some r ∧ Inv cfg r.1 shape' := by
  obtain ⟨c',shape',hc',h'⟩ :=
    h.walkAddrs addr now prot (List.range cfg.hashSize) ⟨none,none⟩
  rw [Cache.findFirstAddr,hc',Option.map_some]
  exact ⟨_,shape',rfl,h'⟩

/-! ## The start -/

/-- The loop of `cache_init` puts the records on the list. -/
theorem initCrecs_spec {lru : List ℕ} (n x : ℕ) (hlists : c.links.Splits none lru [])
    (hlru : lru.Perm (List.range x)) (hflags : ∀ y<x, c.flags y=0#16) :
    ∃ lru', (initCrecs n x c).links.Splits none lru' [] ∧ lru'.Perm (List.range (x+n)) ∧
      (∀ y<x+n, (initCrecs n x c).flags y=0#16) ∧ (initCrecs n x c).newChain=c.newChain ∧
      (initCrecs n x c).bigFree=c.bigFree := by
  induction n generalizing c lru x with
  | zero => exact ⟨lru,hlists,hlru,hflags,rfl,rfl⟩
  | succ n ih =>
    have hx : x∉lru := fun hmem => by
      have hlt := List.mem_range.mp (hlru.mem_iff.mp hmem)
      omega
    have hperm : (x::lru).Perm (List.range (x+1)) := by
      rw [List.range_succ]
      exact (hlru.cons x).trans (List.perm_append_singleton x _).symm
    rw [initCrecs,show x+(n+1)=x+1+n by omega]
    refine ih (x+1) ?_ hperm (fun y hy => ?_)
    · exact hlists.pushFront hx List.not_mem_nil
    · by_cases hyx : y=x
      · rw [hyx]
        exact Function.update_self x _ _
      · refine (Function.update_of_ne hyx _ _).trans (hflags y ?_)
        omega

/-- The cache has its structure at the start, whatever the memory held. -/
theorem cacheInit (c : Cache) : ∃ shape, Inv cfg (c.cacheInit cfg) shape := by
  have hstart : (Doubly.mk c.links.next c.links.prev none none).Splits none [] [] :=
    ⟨⟨rfl,rfl,List.nodup_nil⟩,rfl,List.nodup_nil⟩
  obtain ⟨lru,hlists,hlru,hflags,hnew,hfree⟩ := initCrecs_spec cfg.cachesize 0
    (c := { c with
      links := { c.links with head := none, tail := none }
      newChain := none
      uid := 0
      insertError := false
      bigFree := []
      bigNamesLeft := cfg.cachesize/10
      bigCount := 0 }) hstart (List.Perm.refl _) (fun y hy => absurd hy (Nat.not_lt_zero y))
  rw [Nat.zero_add] at hlru hflags
  have hunused : ∀ y∈lru, (c.cacheInit cfg).flags y=0#16 := fun y hy =>
    hflags y (List.mem_range.mp (hlru.mem_iff.mp hy))
  have hnobig : ∀ y<cfg.cachesize, ¬has ((c.cacheInit cfg).flags y) fBigname=true := by
    intro y hy
    rw [show (c.cacheInit cfg).flags y=0#16 from hflags y hy]
    exact Bool.false_ne_true
  refine ⟨⟨lru,[],fun _ => []⟩,⟨⟨?_,?_,?_,fun b y => ?_,fun b => List.Pairwise.nil⟩,?_,?_,?_⟩⟩
  · rw [show (c.cacheInit cfg).newChain=none from hnew]
    exact hlists
  · rw [List.append_nil]
    exact hlru
  · exact ⟨fun b => rfl,fun b => List.nodup_nil,fun b b' y hy => absurd hy List.not_mem_nil⟩
  · refine iff_of_false List.not_mem_nil (fun hin => ?_)
    have hused := hin.2.1
    rw [inUse,hunused y hin.1] at hused
    cases hused
  · refine ⟨fun y hy hb => absurd hb (hnobig y hy),fun y hy hb => absurd hb (hnobig y hy),
      fun y hy z hz hb => absurd hb (hnobig y hy),?_,?_⟩
    · rw [show (c.cacheInit cfg).bigFree=[] from hfree]
      exact fun n hn => absurd hn List.not_mem_nil
    · rw [show (c.cacheInit cfg).bigFree=[] from hfree]
      exact List.nodup_nil
  · exact fun y hy => absurd hy List.not_mem_nil
  · intro y hy
    rw [show (c.cacheInit cfg).flags y=0#16 from hflags y hy]
    rfl

end Inv

end AndroidPlatform.DnsCache
