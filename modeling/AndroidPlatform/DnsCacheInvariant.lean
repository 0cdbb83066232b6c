import AndroidPlatform.DnsCache
import Mathlib.Data.List.Perm.Subperm
import Mathlib.Data.List.Range

/-!
# The structure of the DNS cache

Every record is on one of the list of recent use and the chain of new records,
and it is in the hash chain of its own name exactly if it is on the list and in
use. Each function of `cache.c` is shown to keep this, first for the few moves
that they are made of: a record is freed, taken for an insertion, hashed, or
moved within its lists.
-/

namespace AndroidPlatform.DnsCache

open CInteger DnsPacket LinkedLists

/-! ## Flags -/

theorem has_eq_false {flags mask : Flags} : has flags mask=false ↔ flags &&& mask=0#16 := by
  rw [has,bne_eq_false_iff_eq]

theorem has_or (flags a b : Flags) : has flags (a ||| b)=(has flags a || has flags b) := by
  rw [Bool.eq_iff_iff,← not_iff_not,Bool.not_eq_true,Bool.not_eq_true,Bool.or_eq_false_iff,
    has_eq_false,has_eq_false,has_eq_false,BitVec.and_or_distrib_left]
  constructor
  · intro h
    have hzero := BitVec.or_eq_zero_iff.mp h
    exact hzero
  · rintro ⟨ha,hb⟩
    rw [ha,hb]
    rfl

/-- Clearing flags sets none. -/
theorem has_and_eq_false {flags mask : Flags} (h : has flags mask=false) (kept : Flags) :
    has (flags &&& kept) mask=false := by
  rw [has_eq_false] at h ⊢
  rw [BitVec.and_assoc,BitVec.and_comm kept,← BitVec.and_assoc,h,BitVec.zero_and]

/-- Flags that are cleared are not set. -/
theorem has_cleared (flags : Flags) {kept mask : Flags} (h : kept &&& mask=0#16) :
    has (flags &&& kept) mask=false := by
  rw [has_eq_false,BitVec.and_assoc,h,BitVec.and_zero]

/-- The marks of a record that does not come from an upstream server. -/
def fLocal : Flags := fHosts ||| fDhcp ||| fConfig

namespace Cache

variable {cfg : Config} {c c' c'' : Cache} {x y : ℕ}

/-- A record that is being used. -/
def inUse (c : Cache) (x : ℕ) : Bool := has (c.flags x) (fForward ||| fReverse)

/-- What a record says is the same in two caches. -/
structure Keeps (c c' : Cache) (x : ℕ) : Prop where
  flags : c'.flags x=c.flags x
  ttd : c'.ttd x=c.ttd x
  cname : c'.cname x=c.cname x
  recordUid : c'.recordUid x=c.recordUid x
  name : c'.cacheGetName x=c.cacheGetName x

theorem Keeps.refl (c : Cache) (x : ℕ) : Keeps c c x := ⟨rfl,rfl,rfl,rfl,rfl⟩

theorem Keeps.trans (h : Keeps c c' x) (h' : Keeps c' c'' x) : Keeps c c'' x :=
  ⟨h'.flags.trans h.flags,h'.ttd.trans h.ttd,h'.cname.trans h.cname,
    h'.recordUid.trans h.recordUid,h'.name.trans h.name⟩

theorem Keeps.inUse (h : Keeps c c' x) : c'.inUse x=c.inUse x := by
  rw [Cache.inUse,h.flags]
  rfl

theorem Keeps.isExpired (h : Keeps c c' x) (now : ℤ) : c'.isExpired now x=c.isExpired now x := by
  rw [Cache.isExpired,h.flags,h.ttd]
  rfl

theorem Keeps.answers (h : Keeps c c' x) (name : List UInt8) (prot : Flags) :
    c'.answers name prot x=c.answers name prot x := by
  rw [Cache.answers,h.flags,h.name]
  rfl

theorem cacheGetName_eq (hflags : c'.flags x=c.flags x)
    (hbig : has (c.flags x) fBigname=true → c'.bigNames (c'.bname x)=c.bigNames (c.bname x))
    (hsmall : has (c.flags x) fBigname=false → c'.sname x=c.sname x)
    (hnamep : c'.namep x=c.namep x) : c'.cacheGetName x=c.cacheGetName x := by
  rw [cacheGetName,cacheGetName,hflags,hnamep]
  cases hx : has (c.flags x) fBigname with
  | true => exact hbig hx
  | false =>
    rw [hsmall hx]
    rfl

/-- Reverse records come first. -/
def ReverseFirst (c : Cache) (l : List ℕ) : Prop :=
  l.Pairwise fun y x => has (c.flags x) fReverse=true → has (c.flags y) fReverse=true

theorem ReverseFirst.congr {l : List ℕ} (h : c.ReverseFirst l)
    (hflags : ∀ y∈l, c'.flags y=c.flags y) : c'.ReverseFirst l := by
  refine List.Pairwise.imp_of_mem (fun hy hz hrev => ?_) h
  rw [hflags _ hy,hflags _ hz]
  exact hrev

/-- Reverse records still come first if one is moved in front of one of its kind. -/
theorem ReverseFirst.move {l m r : List ℕ} (h : c.ReverseFirst ((l++y::m)++x::r))
    (hrev : has (c.flags x) fReverse=has (c.flags y) fReverse) :
    c.ReverseFirst ((l++x::y::m)++r) := by
  simp only [ReverseFirst,List.pairwise_append,List.pairwise_cons,List.mem_append,
    List.mem_cons] at h ⊢
  obtain ⟨⟨hl,⟨hym,hm⟩,hlm⟩,⟨hxr,hr⟩,hall⟩ := h
  refine ⟨⟨hl,⟨?_,hym,hm⟩,?_⟩,hr,?_⟩
  · intro z hz
    rw [hrev]
    rcases hz with rfl | hz
    · exact id
    · exact hym z hz
  · rintro z hz w (rfl | hw)
    · exact hall z (Or.inl hz) w (Or.inl rfl)
    · exact hlm z hz w hw
  · rintro z (hz | rfl | hz) w hw
    · exact hall z (Or.inl hz) w (Or.inr hw)
    · exact hxr w hw
    · exact hall z (Or.inr hz) w (Or.inr hw)

/-- A reverse record may be put in front, any other where no reverse record follows. -/
theorem ReverseFirst.insert {l r : List ℕ} (h : c.ReverseFirst (l++r))
    (hreverse : has (c.flags x) fReverse=true → l=[])
    (hforward : has (c.flags x) fReverse=false → ∀ y∈r, has (c.flags y) fReverse=false) :
    c.ReverseFirst (l++x::r) := by
  obtain ⟨hl,hr,hlr⟩ := List.pairwise_append.mp h
  cases hx : has (c.flags x) fReverse with
  | true =>
    rw [hreverse hx]
    exact List.pairwise_cons.mpr ⟨fun y _ _ => hx,hr⟩
  | false =>
    refine List.pairwise_append.mpr ⟨hl,List.pairwise_cons.mpr ⟨fun y hy hrev => ?_,hr⟩,?_⟩
    · rw [hforward hx y hy] at hrev
      cases hrev
    · intro y hy z hz hrev
      rcases List.mem_cons.mp hz with rfl | hz
      · rw [hx] at hrev
        cases hrev
      · exact hlr y hy z hz hrev

/-- The buffers for big names: a record in use has its own, and no free buffer is in use. -/
structure BigNames (cfg : Config) (c : Cache) : Prop where
  owned : ∀ x<cfg.cachesize, has (c.flags x) fBigname=true → c.bname x<c.bigCount
  unfree : ∀ x<cfg.cachesize, has (c.flags x) fBigname=true → c.bname x∉c.bigFree
  distinct : ∀ x<cfg.cachesize, ∀ y<cfg.cachesize, has (c.flags x) fBigname=true →
    has (c.flags y) fBigname=true → c.bname x=c.bname y → x=y
  free : ∀ n∈c.bigFree, n<c.bigCount
  nodup : c.bigFree.Nodup

/-! ## Freeing a record -/

theorem releaseName_links : (c.releaseName cfg x).links=c.links := by
  rw [releaseName]
  split_ifs <;> rfl

theorem releaseName_newChain : (c.releaseName cfg x).newChain=c.newChain := by
  rw [releaseName]
  split_ifs <;> rfl

theorem releaseName_hash : (c.releaseName cfg x).hash=c.hash := by
  rw [releaseName]
  split_ifs <;> rfl

/-- The record has no big name afterwards, and no new flags. -/
theorem releaseName_flags :
    has ((c.releaseName cfg x).flags x) fBigname=false ∧
      ∀ mask, has (c.flags x) mask=false → has ((c.releaseName cfg x).flags x) mask=false := by
  rw [releaseName]
  split_ifs with hbig
  · dsimp only
    rw [Function.update_self]
    exact ⟨has_cleared _ (by decide),fun mask h => has_and_eq_false h _⟩
  · exact ⟨by rwa [Bool.not_eq_true] at hbig,fun mask h => h⟩

/-- Another record keeps what it says. -/
theorem releaseName_keeps (hy : y≠x)
    (hbig : has (c.flags x) fBigname=true → has (c.flags y) fBigname=true → c.bname y≠c.bname x) :
    Keeps c (c.releaseName cfg x) y := by
  rw [releaseName]
  split_ifs with hx
  · refine ⟨Function.update_of_ne hy _ _,rfl,rfl,rfl,?_⟩
    refine cacheGetName_eq (Function.update_of_ne hy _ _) (fun hy' => ?_) (fun _ => rfl) rfl
    exact Function.update_of_ne (hbig hx hy') _ _
  · exact Keeps.refl c y

theorem BigNames.releaseName (h : BigNames cfg c) (hx : x<cfg.cachesize) :
    BigNames cfg (c.releaseName cfg x) := by
  rw [Cache.releaseName]
  split_ifs with hbig
  · have hcleared : has (c.flags x &&& ~~~fBigname) fBigname=false := has_cleared _ (by decide)
    have hother : ∀ y, has (Function.update c.flags x (c.flags x &&& ~~~fBigname) y) fBigname=true →
        y≠x ∧ has (c.flags y) fBigname=true := by
      intro y hy
      by_cases hyx : y=x
      · rw [hyx,Function.update_self,hcleared] at hy
        cases hy
      · rw [Function.update_of_ne hyx] at hy
        exact ⟨hyx,hy⟩
    refine ⟨fun y hy hb => h.owned y hy (hother y hb).2,fun y hy hb hmem => ?_,
      fun y hy z hz hb hb' => h.distinct y hy z hz (hother y hb).2 (hother z hb').2,?_,?_⟩
    · rcases List.mem_cons.mp hmem with heq | hmem
      · exact (hother y hb).1 (h.distinct y hy x hx (hother y hb).2 hbig heq)
      · exact h.unfree y hy (hother y hb).2 hmem
    · intro n hn
      rcases List.mem_cons.mp hn with rfl | hn
      · exact h.owned x hx hbig
      · exact h.free n hn
    · exact List.nodup_cons.mpr ⟨h.unfree x hx hbig,h.nodup⟩
  · exact h

/-- Clearing flags keeps the buffers of the records. -/
theorem BigNames.of_flags (h : BigNames cfg c) (hbname : c'.bname=c.bname)
    (hfree : c'.bigFree=c.bigFree) (hcount : c'.bigCount=c.bigCount)
    (hflags : ∀ y, has (c'.flags y) fBigname=true → has (c.flags y) fBigname=true) :
    BigNames cfg c' := by
  refine ⟨?_,?_,?_,?_,?_⟩
  · rw [hbname,hcount]
    exact fun y hy hb => h.owned y hy (hflags y hb)
  · rw [hbname,hfree]
    exact fun y hy hb => h.unfree y hy (hflags y hb)
  · rw [hbname]
    exact fun y hy z hz hb hb' => h.distinct y hy z hz (hflags y hb) (hflags z hb')
  · rw [hfree,hcount]
    exact h.free
  · rw [hfree]
    exact h.nodup

theorem cacheFree_links : (c.cacheFree cfg x).links=c.links.pushBack x := releaseName_links

theorem cacheFree_newChain : (c.cacheFree cfg x).newChain=c.newChain := releaseName_newChain

theorem cacheFree_hash : (c.cacheFree cfg x).hash=c.hash := releaseName_hash

/-- The flags that `cache_free` has cleared before it looks for a big name. -/
theorem has_of_has_cleared {mask : Flags}
    (h : has (Function.update c.flags x (c.flags x &&& ~~~fForward &&& ~~~fReverse) y) mask=true) :
    has (c.flags y) mask=true := by
  by_cases hyx : y=x
  · rw [hyx,Function.update_self] at h
    rw [hyx]
    by_contra hnot
    rw [Bool.not_eq_true] at hnot
    rw [has_and_eq_false (has_and_eq_false hnot _) _] at h
    cases h
  · rwa [Function.update_of_ne hyx] at h

theorem cacheFree_keeps (hy : y≠x)
    (hbig : has (c.flags x) fBigname=true → has (c.flags y) fBigname=true → c.bname y≠c.bname x) :
    Keeps c (c.cacheFree cfg x) y := by
  refine Keeps.trans ?_ (releaseName_keeps hy ?_)
  · refine ⟨Function.update_of_ne hy _ _,rfl,rfl,Function.update_of_ne hy _ _,?_⟩
    exact cacheGetName_eq (Function.update_of_ne hy _ _) (fun _ => rfl) (fun _ => rfl) rfl
  · exact fun hx hy => hbig (has_of_has_cleared hx) (has_of_has_cleared hy)

theorem BigNames.cacheFree (h : BigNames cfg c) (hx : x<cfg.cachesize) :
    BigNames cfg (c.cacheFree cfg x) :=
  BigNames.releaseName (h.of_flags rfl rfl rfl (fun _ hy => has_of_has_cleared hy)) hx

/-- A freed record is not in use. -/
theorem cacheFree_inUse : (c.cacheFree cfg x).inUse x=false := by
  refine releaseName_flags.2 _ ?_
  dsimp only
  rw [Function.update_self,BitVec.and_assoc]
  exact has_cleared _ (by decide)

/-- Freeing sets no flag. -/
theorem cacheFree_flags {mask : Flags} (h : has (c.flags x) mask=false) :
    has ((c.cacheFree cfg x).flags x) mask=false := by
  refine releaseName_flags.2 _ ?_
  dsimp only
  rw [Function.update_self]
  exact has_and_eq_false (has_and_eq_false h _) _

end Cache

/-! ## The invariant -/

/-- Where the records are. -/
structure Shape where
  /-- The list of recent use. -/
  lru : List ℕ
  /-- The records that are being inserted. -/
  new : List ℕ
  /-- The hash chains. -/
  bucket : ℕ → List ℕ

/-- The lists of a cache, and which records are in the hash chains. -/
structure Structured (cfg : Config) (c : Cache) (shape : Shape) : Prop where
  /-- The list of recent use, in both directions, and the chain of new records. -/
  lists : c.links.Splits c.newChain shape.lru shape.new
  /-- Each record is on one of them, once. -/
  records : (shape.lru++shape.new).Perm (List.range cfg.cachesize)
  /-- The hash chains. -/
  hash : c.hash.Holds shape.bucket
  /-- The records in use on the list of recent use are in the chains of their names. -/
  hashed : ∀ b x, x∈shape.bucket b ↔
    x∈shape.lru ∧ c.inUse x=true ∧ cfg.hashBucket (c.cacheGetName x)=b
  /-- Reverse records come first. -/
  reverse : ∀ b, c.ReverseFirst (shape.bucket b)

/-- The invariant of the cache. -/
structure Inv (cfg : Config) (c : Cache) (shape : Shape) : Prop
    extends Structured cfg c shape where
  /-- The buffers for big names. -/
  bigNames : c.BigNames cfg
  /-- New records are in use. -/
  pending : ∀ x∈shape.new, c.inUse x=true
  /-- No record comes from the hosts file or the DHCP server. -/
  plain : ∀ x<cfg.cachesize, has (c.flags x) fLocal=false

namespace Inv

open Cache

variable {cfg : Config} {c c' : Cache} {shape shape' : Shape} {b x y : ℕ}

theorem lt_of_mem (h : Inv cfg c shape) (hx : x∈shape.lru++shape.new) : x<cfg.cachesize :=
  List.mem_range.mp (h.records.mem_iff.mp hx)

theorem lt_of_lru (h : Inv cfg c shape) (hx : x∈shape.lru) : x<cfg.cachesize :=
  h.lt_of_mem (List.mem_append_left _ hx)

theorem lru_of_bucket (h : Inv cfg c shape) (hx : x∈shape.bucket b) : x∈shape.lru :=
  ((h.hashed b x).mp hx).1

theorem notMem_bucket (h : Inv cfg c shape) (hx : x∉shape.lru) : x∉shape.bucket b := fun hb =>
  hx (h.lru_of_bucket hb)

/-- A hash chain is not longer than the cache. -/
theorem length_bucket (h : Inv cfg c shape) (b : ℕ) : (shape.bucket b).length≤cfg.cachesize := by
  have hsub : (shape.bucket b).Subperm (List.range cfg.cachesize) :=
    (h.hash.nodup b).subperm (fun x hx => List.mem_range.mpr (h.lt_of_lru (h.lru_of_bucket hx)))
  have hle := hsub.length_le
  rwa [List.length_range] at hle

/-- Two records with big names have different buffers. -/
theorem bname_ne (h : Inv cfg c shape) (hx : x<cfg.cachesize) (hy : y<cfg.cachesize) (hne : y≠x) :
    has (c.flags x) fBigname=true → has (c.flags y) fBigname=true → c.bname y≠c.bname x :=
  fun hbx hby heq => hne (h.bigNames.distinct y hy x hx hby hbx heq)

/-- A step that changes one record at most: what has to be said about the others
is that they keep their fields and their places. -/
theorem change (h : Inv cfg c shape) (x : ℕ)
    (hlists : c'.links.Splits c'.newChain shape'.lru shape'.new)
    (hperm : (shape'.lru++shape'.new).Perm (shape.lru++shape.new))
    (hhash : c'.hash.Holds shape'.bucket)
    (hkeeps : ∀ y<cfg.cachesize, y≠x → Keeps c c' y)
    (hlru : ∀ y, y≠x → (y∈shape'.lru ↔ y∈shape.lru))
    (hbucket : ∀ b y, y≠x → (y∈shape'.bucket b ↔ y∈shape.bucket b))
    (hx : ∀ b, x∈shape'.bucket b ↔
      x∈shape'.lru ∧ c'.inUse x=true ∧ cfg.hashBucket (c'.cacheGetName x)=b)
    (hreverse : ∀ b, c'.ReverseFirst (shape'.bucket b))
    (hbig : c'.BigNames cfg) (hnew : x∈shape'.new → c'.inUse x=true)
    (hplain : has (c'.flags x) fLocal=false) : Inv cfg c' shape' := by
  refine ⟨⟨hlists,hperm.trans h.records,hhash,fun b y => ?_,hreverse⟩,hbig,fun y hy => ?_,
    fun y hy => ?_⟩
  · by_cases hyx : y=x
    · rw [hyx]
      exact hx b
    · rw [hbucket b y hyx,hlru y hyx,h.hashed b y]
      refine and_congr_right (fun hmem => ?_)
      have hkeep := hkeeps y (h.lt_of_lru hmem) hyx
      rw [hkeep.inUse,hkeep.name]
  · by_cases hyx : y=x
    · rw [hyx] at hy ⊢
      exact hnew hy
    · have hmem := hperm.mem_iff.mp (List.mem_append_right _ hy)
      have hold : y∈shape.new := by
        rcases List.mem_append.mp hmem with hl | hm
        · exact absurd ((hlru y hyx).mpr hl) (hlists.notMem_list hy)
        · exact hm
      rw [(hkeeps y (h.lt_of_mem hmem) hyx).inUse]
      exact h.pending y hold
  · by_cases hyx : y=x
    · rw [hyx]
      exact hplain
    · rw [(hkeeps y hy hyx).flags]
      exact h.plain y hy

/-! ## The moves -/

theorem perm_erase_append {l m : List ℕ} (hx : x∈l) : (l.erase x++[x]++m).Perm (l++m) := by
  refine List.Perm.append_right m ?_
  exact (List.perm_append_singleton x _).trans (List.perm_cons_erase hx).symm

theorem mem_erase_append {l : List ℕ} (hyx : y≠x) : y∈l.erase x++[x] ↔ y∈l := by
  rw [List.mem_append,List.mem_singleton,List.mem_erase_of_ne hyx]
  exact or_iff_left hyx

variable {before behind : List ℕ}

theorem mem_bucket (hb : shape.bucket b=before++x::behind) : x∈shape.bucket b := by
  rw [hb]
  exact List.mem_append_right _ List.mem_cons_self

/-- Leaving a record out of its bucket concerns no other. -/
theorem mem_bucket_remove (hb : shape.bucket b=before++x::behind) (b' : ℕ) (hyx : y≠x) :
    y∈Function.update shape.bucket b (before++behind) b' ↔ y∈shape.bucket b' := by
  by_cases hbb : b'=b
  · rw [hbb,Function.update_self,hb,List.mem_append,List.mem_append,List.mem_cons]
    rw [or_iff_right hyx]
  · rw [Function.update_of_ne hbb]

/-- The record itself is in no bucket then. -/
theorem notMem_bucket_remove (h : Inv cfg c shape) (hb : shape.bucket b=before++x::behind)
    (b' : ℕ) : x∉Function.update shape.bucket b (before++behind) b' := by
  have hxb := mem_bucket hb
  by_cases hbb : b'=b
  · have hnodup := h.hash.nodup b
    rw [hb,List.nodup_middle,List.nodup_cons] at hnodup
    rw [hbb,Function.update_self]
    exact hnodup.1
  · rw [Function.update_of_ne hbb]
    exact fun hx => hbb (h.hash.disjoint b' b x hx hxb)

theorem dropFree_keeps (h : Inv cfg c shape) (place : Option ℕ) (hx : x<cfg.cachesize)
    (hy : y<cfg.cachesize) (hyx : y≠x) : Keeps c (c.dropFree cfg b place x) y := by
  rw [Cache.dropFree]
  refine Keeps.trans ?_ (cacheFree_keeps hyx ?_)
  · exact ⟨rfl,rfl,rfl,rfl,rfl⟩
  · exact h.bname_ne hx hy hyx

/-- The pointer behind a freed record is still there for the walk to go on. -/
theorem dropFree_next (place : Option ℕ) :
    (c.dropFree cfg b place x).hash.next x=c.hash.next x := by
  rw [Cache.dropFree,cacheFree_hash]
  change turn c.hash.next place (c.hash.next x) x=c.hash.next x
  by_cases hplace : place=some x
  · rw [hplace,turn_self]
  · exact turn_of_ne hplace

/-- Freeing a record on the way along a bucket. -/
theorem dropFree (h : Inv cfg c shape) (hb : shape.bucket b=before++x::behind) :
    Inv cfg (c.dropFree cfg b before.getLast? x)
      { shape with
        lru := shape.lru.erase x++[x]
        bucket := Function.update shape.bucket b (before++behind) } := by
  have hxb := mem_bucket hb
  have hxl := h.lru_of_bucket hxb
  have hx := h.lt_of_lru hxl
  have hkeeps : ∀ y<cfg.cachesize, y≠x → Keeps c (c.dropFree cfg b before.getLast? x) y :=
    fun y hy hyx => h.dropFree_keeps _ hx hy hyx
  have hxm : x∉shape.new := fun hm => h.lists.notMem_list hm hxl
  refine h.change x ?_ (perm_erase_append hxl) ?_ hkeeps (fun y hyx => mem_erase_append hyx)
    (fun b' y hyx => mem_bucket_remove hb b' hyx) (fun b' => ?_) (fun b' => ?_) ?_
    (fun hm => absurd hm hxm) ?_
  · rw [Cache.dropFree,cacheFree_links,cacheFree_newChain]
    exact (h.lists.unlink hxl).pushBack h.lists.notMem_erase hxm
  · rw [Cache.dropFree,cacheFree_hash]
    exact h.hash.remove hb
  · refine iff_of_false (h.notMem_bucket_remove hb b') (fun hin => ?_)
    have hnot := hin.2.1
    rw [Cache.dropFree,cacheFree_inUse] at hnot
    cases hnot
  · have hflags : ∀ y∈Function.update shape.bucket b (before++behind) b',
        (c.dropFree cfg b before.getLast? x).flags y=c.flags y := by
      intro y hy
      have hyx : y≠x := fun heq => h.notMem_bucket_remove hb b' (heq ▸ hy)
      have hold := (mem_bucket_remove hb b' hyx).mp hy
      exact (hkeeps y (h.lt_of_lru (h.lru_of_bucket hold)) hyx).flags
    have hsub : (Function.update shape.bucket b (before++behind) b').Sublist
        (shape.bucket b') := by
      by_cases hbb : b'=b
      · rw [hbb,Function.update_self,hb]
        exact List.Sublist.append_left (List.sublist_cons_self x behind) before
      · rw [Function.update_of_ne hbb]
    exact ReverseFirst.congr (List.Pairwise.sublist hsub (h.reverse b')) hflags
  · exact BigNames.cacheFree (h.bigNames.of_flags rfl rfl rfl (fun _ hy => hy)) hx
  · exact cacheFree_flags (h.plain x hx)

/-- No record is local, so that dropping a record frees it. -/
theorem isLocal_eq (h : Inv cfg c shape) (hx : x<cfg.cachesize) : c.isLocal x=false := by
  have hplain := h.plain x hx
  rw [fLocal,has_or,Bool.or_eq_false_iff] at hplain
  exact hplain.1

theorem dropCrec_eq (h : Inv cfg c shape) (hx : x<cfg.cachesize) (place : Option ℕ) :
    c.dropCrec cfg b place x=c.dropFree cfg b place x := by
  rw [dropCrec,if_neg (by rw [h.isLocal_eq hx]; exact Bool.false_ne_true)]

/-- Giving up the first record of the new chain. -/
theorem freeHead (h : Inv cfg c shape) {new : List ℕ} (hnew : shape.new=x::new) :
    Inv cfg { c.cacheFree cfg x with newChain := c.links.next x }
      { shape with lru := shape.lru++[x], new := new } := by
  have hlists := h.lists
  rw [hnew] at hlists
  obtain ⟨hxl,hxm⟩ := hlists.notMem_of_cons
  have hx : x<cfg.cachesize := by
    refine h.lt_of_mem (List.mem_append_right _ ?_)
    rw [hnew]
    exact List.mem_cons_self
  have hmem : ∀ y, y≠x → (y∈shape.lru++[x] ↔ y∈shape.lru) := by
    intro y hyx
    rw [List.mem_append,List.mem_singleton]
    exact or_iff_left hyx
  have hkeeps : ∀ y<cfg.cachesize, y≠x →
      Keeps c { c.cacheFree cfg x with newChain := c.links.next x } y := fun y hy hyx =>
    (cacheFree_keeps hyx (h.bname_ne hx hy hyx)).trans ⟨rfl,rfl,rfl,rfl,rfl⟩
  refine h.change x ?_ ?_ ?_ hkeeps hmem (fun _ _ _ => Iff.rfl) (fun b => ?_) (fun b => ?_) ?_
    (fun hm => absurd hm hxm) ?_
  · rw [cacheFree_links]
    exact hlists.tail.pushBack hxl hxm
  · rw [hnew,List.append_assoc]
    rfl
  · rw [cacheFree_hash]
    exact h.hash
  · refine iff_of_false (h.notMem_bucket hxl) (fun hin => ?_)
    have hnot := hin.2.1
    change (c.cacheFree cfg x).inUse x=true at hnot
    rw [cacheFree_inUse] at hnot
    cases hnot
  · refine (h.reverse b).congr (fun y hy => ?_)
    have hyl := h.lru_of_bucket hy
    exact (hkeeps y (h.lt_of_lru hyl) (fun heq => hxl (heq ▸ hyl))).flags
  · exact (h.bigNames.cacheFree hx).of_flags rfl rfl rfl (fun _ hy => hy)
  · exact cacheFree_flags (h.plain x hx)

/-- What may change without a record changing: the lists keep their members,
and reverse records still come first. -/
theorem rearrange (h : Inv cfg c shape) (hkeeps : ∀ y, Keeps c c' y)
    (hlists : c'.links.Splits c'.newChain shape'.lru shape'.new)
    (hlru : shape'.lru.Perm shape.lru) (hnew : shape'.new=shape.new)
    (hhash : c'.hash.Holds shape'.bucket)
    (hbucket : ∀ b, (shape'.bucket b).Perm (shape.bucket b))
    (hreverse : ∀ b, c.ReverseFirst (shape'.bucket b)) (hbig : c'.BigNames cfg) :
    Inv cfg c' shape' := by
  refine ⟨⟨hlists,?_,hhash,fun b y => ?_,fun b => ?_⟩,hbig,fun y hy => ?_,fun y hy => ?_⟩
  · rw [hnew]
    exact (hlru.append_right _).trans h.records
  · rw [(hbucket b).mem_iff,hlru.mem_iff,h.hashed b y,(hkeeps y).inUse,(hkeeps y).name]
  · exact (hreverse b).congr (fun y _ => (hkeeps y).flags)
  · rw [(hkeeps y).inUse]
    exact h.pending y (hnew ▸ hy)
  · rw [(hkeeps y).flags]
    exact h.plain y hy

/-- Moving a record to the front of the list of recent use. -/
theorem toFront (h : Inv cfg c shape) (hx : x∈shape.lru) :
    Inv cfg ((c.cacheUnlink x).cacheLink x) { shape with lru := x::shape.lru.erase x } := by
  have hxm : x∉shape.new := fun hm => h.lists.notMem_list hm hx
  refine h.rearrange (fun y => ⟨rfl,rfl,rfl,rfl,rfl⟩) ?_ (List.perm_cons_erase hx).symm rfl h.hash
    (fun b => List.Perm.refl _) h.reverse (h.bigNames.of_flags rfl rfl rfl (fun _ hy => hy))
  exact (h.lists.unlink hx).pushFront h.lists.notMem_erase hxm

/-- Moving a record forward in its bucket, in front of a record with the same
flag for reverse records. -/
theorem moveCrec (h : Inv cfg c shape) {z : ℕ} {between : List ℕ}
    (hb : shape.bucket b=(before++z::between)++x::behind)
    (hrev : has (c.flags x) fReverse=has (c.flags z) fReverse) :
    Inv cfg (c.moveCrec b (before++z::between).getLast? before.getLast? x)
      { shape with
        bucket := Function.update shape.bucket b ((before++x::z::between)++behind) } := by
  have hremoved := h.hash.remove hb
  have hperm : ((before++x::z::between)++behind).Perm ((before++z::between)++x::behind) := by
    rw [List.append_assoc,List.append_assoc]
    refine List.Perm.append_left before ?_
    exact (@List.perm_middle _ x (z::between) behind).symm
  have hordered := h.reverse b
  rw [hb] at hordered
  refine h.rearrange (fun y => ⟨rfl,rfl,rfl,rfl,rfl⟩) h.lists (List.Perm.refl _) rfl ?_
    (fun b' => ?_) (fun b' => ?_) (h.bigNames.of_flags rfl rfl rfl (fun _ hy => hy))
  · have hsplit : Function.update shape.bucket b ((before++z::between)++behind) b=
        before++(z::between++behind) := by
      rw [Function.update_self,List.append_assoc]
    have hinsert := hremoved.insert hsplit (fun b' => h.notMem_bucket_remove hb b')
    rw [Function.update_idem] at hinsert
    have hlist : before++x::z::between++behind=before++x::(z::between++behind) := by
      rw [List.append_assoc]
      rfl
    dsimp only
    rw [hlist]
    exact hinsert
  · by_cases hbb : b'=b
    · dsimp only
      rw [hbb,Function.update_self,hb]
      exact hperm
    · dsimp only
      rw [Function.update_of_ne hbb]
  · by_cases hbb : b'=b
    · dsimp only
      rw [hbb,Function.update_self]
      exact hordered.move hrev
    · dsimp only
      rw [Function.update_of_ne hbb]
      exact h.reverse b'

/-! ## Hashing a record -/

theorem skipWhile_eq (h : Inv cfg c shape) (p : ℕ → Bool) {rest : List ℕ} (done : List ℕ)
    (hb : shape.bucket b=done++rest) {fuel : ℕ} (hfuel : rest.length≤fuel) :
    c.skipWhile p b fuel done.getLast?=(done++rest.takeWhile p).getLast? := by
  induction rest generalizing done fuel with
  | nil =>
    rw [List.takeWhile_nil,List.append_nil]
    cases fuel with
    | zero => rfl
    | succ fuel => rw [skipWhile,h.hash.read_eq hb,List.head?_nil]
  | cons y rest ih =>
    cases fuel with
    | zero => cases hfuel
    | succ fuel =>
      rw [skipWhile,h.hash.read_eq hb,List.head?_cons,List.takeWhile_cons]
      dsimp only
      cases hp : p y with
      | true =>
        have hlast : some y=(done++[y]).getLast? := List.getLast?_concat.symm
        rw [if_pos rfl,if_pos rfl,hlast,ih (done++[y]) (by rw [hb,List.append_assoc]; rfl)
          (Nat.le_of_succ_le_succ hfuel),List.append_assoc]
        rfl
      | false =>
        rw [if_neg Bool.false_ne_true,if_neg Bool.false_ne_true,List.append_nil]

/-- Behind the leading reverse records no record is reverse. -/
theorem not_reverse_of_mem_dropWhile {l : List ℕ} (h : c.ReverseFirst l)
    (hy : y∈l.dropWhile fun y => has (c.flags y) fReverse) : has (c.flags y) fReverse=false := by
  induction l with
  | nil => cases hy
  | cons z l ih =>
    obtain ⟨hz,hl⟩ := List.pairwise_cons.mp h
    rw [List.dropWhile_cons] at hy
    split_ifs at hy with hrev
    · exact ih hl hy
    · rw [Bool.not_eq_true] at hrev
      rcases List.mem_cons.mp hy with rfl | hy
      · exact hrev
      · by_contra hnot
        rw [Bool.not_eq_false] at hnot
        rw [hz y hy hnot] at hrev
        cases hrev

/-- Where `cache_hash` puts a record. -/
theorem hashPlace_spec (h : Inv cfg c shape) (b x : ℕ) :
    ∃ before behind, shape.bucket b=before++behind ∧ c.hashPlace cfg b x=before.getLast? ∧
      (has (c.flags x) fReverse=true → before=[]) ∧
      (has (c.flags x) fReverse=false → ∀ y∈behind, has (c.flags y) fReverse=false) := by
  cases hrev : has (c.flags x) fReverse with
  | true =>
    refine ⟨[],shape.bucket b,rfl,?_,fun _ => rfl,fun hnot => by cases hnot⟩
    rw [hashPlace,hrev]
    rfl
  | false =>
    let first := (shape.bucket b).takeWhile fun y => has (c.flags y) fReverse
    let rest := (shape.bucket b).dropWhile fun y => has (c.flags y) fReverse
    have hsplit : shape.bucket b=first++rest := List.takeWhile_append_dropWhile.symm
    have hlength := h.length_bucket b
    have hplain : ∀ y∈rest, has (c.flags y) fReverse=false := fun y hy =>
      not_reverse_of_mem_dropWhile (h.reverse b) hy
    have hfirst : c.skipWhile (fun y => has (c.flags y) fReverse) b cfg.cachesize none=
        first.getLast? := h.skipWhile_eq _ [] rfl hlength
    rw [hashPlace,hrev,if_neg Bool.false_ne_true]
    dsimp only
    rw [hfirst]
    split_ifs with himmortal
    · have hrest : rest.length≤cfg.cachesize := by
        rw [hsplit,List.length_append] at hlength
        omega
      refine ⟨first++rest.takeWhile fun y => !has (c.flags y) fImmortal,
        rest.dropWhile fun y => !has (c.flags y) fImmortal,?_,
        h.skipWhile_eq _ first hsplit hrest,fun hnot => (by cases hnot),fun _ y hy => ?_⟩
      · rw [List.append_assoc,List.takeWhile_append_dropWhile]
        exact hsplit
      · exact hplain y ((List.dropWhile_sublist _).subset hy)
    · exact ⟨first,rest,hsplit,rfl,fun hnot => (by cases hnot),fun _ => hplain⟩

/-- Hashing the first record of the new chain and putting it on the list. -/
theorem hashHead (h : Inv cfg c shape) {new : List ℕ} (hnew : shape.new=x::new) :
    ∃ bucket, Inv cfg { (c.cacheHash cfg x).cacheLink x with newChain := c.links.next x }
      { lru := x::shape.lru, new := new, bucket := bucket } := by
  obtain ⟨before,behind,hsplit,hplace,hreverse,hforward⟩ :=
    h.hashPlace_spec (cfg.hashBucket (c.cacheGetName x)) x
  have hlists := h.lists
  rw [hnew] at hlists
  obtain ⟨hxl,hxm⟩ := hlists.notMem_of_cons
  have hxnew : x∈shape.new := by
    rw [hnew]
    exact List.mem_cons_self
  have hx := h.lt_of_mem (List.mem_append_right _ hxnew)
  have hmem : ∀ b y, y≠x → (y∈Function.update shape.bucket
      (cfg.hashBucket (c.cacheGetName x)) (before++x::behind) b ↔ y∈shape.bucket b) := by
    intro b y hyx
    by_cases hb : b=cfg.hashBucket (c.cacheGetName x)
    · rw [hb,Function.update_self,hsplit,List.mem_append,List.mem_append,List.mem_cons,
        or_iff_right hyx]
    · rw [Function.update_of_ne hb]
  refine ⟨Function.update shape.bucket (cfg.hashBucket (c.cacheGetName x)) (before++x::behind),?_⟩
  refine h.change x (hlists.tail.pushFront hxl hxm) ?_ ?_ (fun y _ _ => ⟨rfl,rfl,rfl,rfl,rfl⟩)
    (fun y hyx => ?_) hmem (fun b => ?_) (fun b => ?_)
    (h.bigNames.of_flags rfl rfl rfl (fun _ hy => hy)) (fun hm => absurd hm hxm) (h.plain x hx)
  · rw [hnew]
    exact List.perm_middle.symm
  · have hinsert := h.hash.insert hsplit (fun b => h.notMem_bucket hxl)
    rw [← hplace] at hinsert
    exact hinsert
  · rw [List.mem_cons,or_iff_right hyx]
  · by_cases hb : b=cfg.hashBucket (c.cacheGetName x)
    · dsimp only
      rw [hb,Function.update_self]
      exact iff_of_true (List.mem_append_right _ List.mem_cons_self)
        ⟨List.mem_cons_self,h.pending x hxnew,rfl⟩
    · dsimp only
      rw [Function.update_of_ne hb]
      exact iff_of_false (h.notMem_bucket hxl) (fun hin => hb hin.2.2.symm)
  · by_cases hb : b=cfg.hashBucket (c.cacheGetName x)
    · dsimp only
      rw [hb,Function.update_self]
      have hordered := h.reverse (cfg.hashBucket (c.cacheGetName x))
      rw [hsplit] at hordered
      exact hordered.insert hreverse hforward
    · dsimp only
      rw [Function.update_of_ne hb]
      exact h.reverse b

/-! ## Filling a record -/

end Inv

/-- What the callers of `cache_insert` keep to: the record is a forward or a
reverse one, it does not come from the hosts file or the DHCP server, a forward
record has a name, a CNAME record has no address and a reverse record has one. -/
structure Cache.NewRecord.Sound (new : Cache.NewRecord) : Prop where
  used : has new.flags (fForward ||| fReverse)=true
  plain : has new.flags (fHosts ||| fDhcp ||| fBigname)=false
  named : has new.flags fForward=true → new.name.isSome=true
  cname : has new.flags fCname=true → new.addr=none
  addressed : has new.flags fReverse=true → new.addr.isSome=true

namespace Inv

open Cache

variable {cfg : Config} {c c' : Cache} {shape shape' : Shape} {b x y : ℕ} {new : NewRecord}

/-- The flags that a new record gets. -/
def newFlags (new : NewRecord) (big : Bool) : Flags :=
  if big then new.kept ||| fBigname else new.kept

theorem has_or_right (flags kept mask : Flags) :
    has (flags ||| kept) mask=(has flags mask || has kept mask) := by
  rw [Bool.eq_iff_iff,← not_iff_not,Bool.not_eq_true,Bool.not_eq_true,Bool.or_eq_false_iff,
    has_eq_false,has_eq_false,has_eq_false,BitVec.and_comm,BitVec.and_or_distrib_left,
    BitVec.and_comm mask,BitVec.and_comm mask]
  exact BitVec.or_eq_zero_iff

/-- The flags of a new record say that it is in use, that it is not local, and
whether its name is big. -/
theorem newFlags_spec (hsound : new.Sound) (big : Bool) :
    has (newFlags new big) (fForward ||| fReverse)=true ∧ has (newFlags new big) fLocal=false ∧
      has (newFlags new big) fBigname=big := by
  have hkept : has new.kept (fForward ||| fReverse)=true := by
    have hused := hsound.used
    rw [has,bne_iff_ne] at hused ⊢
    rw [NewRecord.kept,BitVec.and_assoc]
    exact hused
  have hplain := hsound.plain
  rw [has_or,Bool.or_eq_false_iff] at hplain
  have hlocal : has new.kept fLocal=false := by
    rw [fLocal,has_or,Bool.or_eq_false_iff]
    exact ⟨has_and_eq_false hplain.1 _,has_cleared _ (by decide)⟩
  have hbig : has new.kept fBigname=false := has_and_eq_false hplain.2 _
  cases big with
  | false => exact ⟨hkept,hlocal,hbig⟩
  | true =>
    refine ⟨?_,?_,?_⟩
    · rw [newFlags,if_pos rfl,has_or_right,hkept]
      rfl
    · rw [newFlags,if_pos rfl,has_or_right,hlocal]
      rfl
    · rw [newFlags,if_pos rfl,has_or_right,hbig]
      rfl

/-- A buffer that no record and no free list has. -/
structure Unowned (cfg : Config) (c : Cache) (buffer : ℕ) : Prop where
  allocated : buffer<c.bigCount
  unfree : buffer∉c.bigFree
  unused : ∀ y<cfg.cachesize, has (c.flags y) fBigname=true → c.bname y≠buffer

theorem fillCrec_keeps (bigName : Option ℕ) (hbig : ∀ n∈bigName, Unowned cfg c n)
    (hy : y<cfg.cachesize) (hyx : y≠x) :
    Keeps c ((c.cacheUnlink x).fillCrec new x bigName) y := by
  refine ⟨Function.update_of_ne hyx _ _,Function.update_of_ne hyx _ _,?_,rfl,?_⟩
  · dsimp only [Cache.fillCrec]
    cases new.addr with
    | some addr => rfl
    | none => exact Function.update_of_ne hyx _ _
  · cases bigName with
    | none =>
      exact cacheGetName_eq (Function.update_of_ne hyx _ _) (fun _ => rfl)
        (fun _ => Function.update_of_ne hyx _ _) rfl
    | some buffer =>
      refine cacheGetName_eq (Function.update_of_ne hyx _ _) (fun hbig' => ?_) (fun _ => rfl) rfl
      have hne := (hbig buffer rfl).unused y hy hbig'
      dsimp only [Cache.fillCrec]
      rw [Function.update_of_ne hyx]
      exact Function.update_of_ne hne _ _

theorem fillCrec_bigNames (h : Inv cfg c shape) (hsound : new.Sound) (bigName : Option ℕ)
    (hbig : ∀ n∈bigName, Unowned cfg c n) :
    ((c.cacheUnlink x).fillCrec new x bigName).BigNames cfg := by
  have hflags := (newFlags_spec hsound bigName.isSome).2.2
  cases bigName with
  | none =>
    refine h.bigNames.of_flags rfl rfl rfl (fun y hy => ?_)
    by_cases hyx : y=x
    · rw [hyx] at hy
      dsimp only [Cache.fillCrec] at hy
      rw [Function.update_self] at hy
      exact absurd (hflags.symm.trans hy) Bool.false_ne_true
    · dsimp only [Cache.fillCrec] at hy
      rwa [Function.update_of_ne hyx] at hy
  | some buffer =>
    have hunowned := hbig buffer rfl
    have hother : ∀ y, y≠x → has (((c.cacheUnlink x).fillCrec new x (some buffer)).flags y)
        fBigname=true → has (c.flags y) fBigname=true := by
      intro y hyx hy
      dsimp only [Cache.fillCrec] at hy
      rwa [Function.update_of_ne hyx] at hy
    refine ⟨fun y hy hb => ?_,fun y hy hb => ?_,fun y hy z hz hb hb' heq => ?_,h.bigNames.free,
      h.bigNames.nodup⟩
    · by_cases hyx : y=x
      · dsimp only [Cache.fillCrec]
        rw [hyx,Function.update_self]
        exact hunowned.allocated
      · dsimp only [Cache.fillCrec]
        rw [Function.update_of_ne hyx]
        exact h.bigNames.owned y hy (hother y hyx hb)
    · by_cases hyx : y=x
      · dsimp only [Cache.fillCrec]
        rw [hyx,Function.update_self]
        exact hunowned.unfree
      · dsimp only [Cache.fillCrec]
        rw [Function.update_of_ne hyx]
        exact h.bigNames.unfree y hy (hother y hyx hb)
    · dsimp only [Cache.fillCrec] at heq
      by_cases hyx : y=x
      · by_cases hzx : z=x
        · rw [hyx,hzx]
        · rw [hyx,Function.update_self,Function.update_of_ne hzx] at heq
          exact absurd heq.symm (hunowned.unused z hz (hother z hzx hb'))
      · by_cases hzx : z=x
        · rw [hzx,Function.update_self,Function.update_of_ne hyx] at heq
          exact absurd heq (hunowned.unused y hy (hother y hyx hb))
        · rw [Function.update_of_ne hyx,Function.update_of_ne hzx] at heq
          exact h.bigNames.distinct y hy z hz (hother y hyx hb) (hother z hzx hb') heq

/-- Filling a free record and putting it on the new chain. -/
theorem fillCrec (h : Inv cfg c shape) (hsound : new.Sound) (hx : x∈shape.lru)
    (hfree : c.inUse x=false) (bigName : Option ℕ) (hbig : ∀ n∈bigName, Unowned cfg c n) :
    Inv cfg ((c.cacheUnlink x).fillCrec new x bigName)
      { shape with lru := shape.lru.erase x, new := x::shape.new } := by
  have hxm : x∉shape.new := fun hm => h.lists.notMem_list hm hx
  have hxb : ∀ b, x∉shape.bucket b := by
    intro b hxb
    rw [((h.hashed b x).mp hxb).2.1] at hfree
    cases hfree
  have hflags : ((c.cacheUnlink x).fillCrec new x bigName).flags x=newFlags new bigName.isSome :=
    Function.update_self x _ _
  obtain ⟨hused,hlocal,-⟩ := newFlags_spec hsound bigName.isSome
  refine h.change x ((h.lists.unlink hx).cons h.lists.notMem_erase hxm) ?_ h.hash
    (fun y hy hyx => fillCrec_keeps bigName hbig hy hyx)
    (fun y hyx => List.mem_erase_of_ne hyx) (fun b y _ => Iff.rfl) (fun b => ?_) (fun b => ?_)
    (h.fillCrec_bigNames hsound bigName hbig) (fun _ => ?_) ?_
  · refine List.perm_middle.trans ?_
    exact (List.perm_cons_erase hx).symm.append_right shape.new
  · exact iff_of_false (hxb b) (fun hin => h.lists.notMem_erase hin.1)
  · refine (h.reverse b).congr (fun y hy => Function.update_of_ne (fun heq => ?_) _ _)
    exact hxb b (heq ▸ hy)
  · rw [inUse,hflags]
    exact hused
  · rw [hflags]
    exact hlocal

/-- The buffer that is taken for a big name has no owner. -/
theorem takeBigName (h : Inv cfg c shape) {malloc : Bool} {buffer : ℕ}
    (htake : c.takeBigName malloc=some (c',buffer)) :
    Inv cfg c' shape ∧ Unowned cfg c' buffer ∧ c'.flags=c.flags := by
  rw [Cache.takeBigName] at htake
  cases hfree : c.bigFree with
  | cons n rest =>
    rw [hfree,Option.some.injEq,Prod.mk.injEq] at htake
    obtain ⟨rfl,rfl⟩ := htake
    have hnodup := h.bigNames.nodup
    rw [hfree,List.nodup_cons] at hnodup
    have hmem : ∀ m∈rest, m∈c.bigFree := by
      intro m hm
      rw [hfree]
      exact List.mem_cons_of_mem n hm
    have hn : n∈c.bigFree := by
      rw [hfree]
      exact List.mem_cons_self
    have hbig : BigNames cfg { c with bigFree := rest } :=
      ⟨h.bigNames.owned,fun y hy hb hm => h.bigNames.unfree y hy hb (hmem _ hm),
        h.bigNames.distinct,fun m hm => h.bigNames.free m (hmem m hm),hnodup.2⟩
    refine ⟨h.rearrange (fun y => ⟨rfl,rfl,rfl,rfl,rfl⟩) h.lists (List.Perm.refl _) rfl h.hash
      (fun b => List.Perm.refl _) h.reverse hbig,?_,rfl⟩
    exact ⟨h.bigNames.free n hn,hnodup.1,
      fun y hy hb heq => h.bigNames.unfree y hy hb (heq ▸ hn)⟩
  | nil =>
    rw [hfree] at htake
    dsimp only at htake
    split_ifs at htake
    rw [Option.some.injEq,Prod.mk.injEq] at htake
    obtain ⟨rfl,rfl⟩ := htake
    have hbig : BigNames cfg
        { c with
          bigFree := []
          bigNamesLeft := c.bigNamesLeft-1
          bigCount := c.bigCount+1 } :=
      ⟨fun y hy hb => Nat.lt_succ_of_lt (h.bigNames.owned y hy hb),
        fun _ _ _ => List.not_mem_nil,h.bigNames.distinct,
        fun m hm => absurd hm List.not_mem_nil,List.nodup_nil⟩
    refine ⟨h.rearrange (fun y => ⟨rfl,rfl,rfl,rfl,rfl⟩) h.lists (List.Perm.refl _) rfl h.hash
      (fun b => List.Perm.refl _) h.reverse hbig,?_,rfl⟩
    exact ⟨Nat.lt_succ_self _,List.not_mem_nil,fun y hy hb => (h.bigNames.owned y hy hb).ne⟩

end Inv

end AndroidPlatform.DnsCache
