import AndroidPlatform.DnsCacheOperations
import AndroidPlatform.TransitionSystem

/-!
# Looking up a name in the DNS cache

`cache_find_by_name` frees the expired and outdated records that it meets on its
way along the bucket of the name, and moves the records that it finds to the
front of the list of recent use, from where it returns them. A CNAME record is
outdated as soon as its target is freed, so what is outdated changes while the
walk is under way: the answers are the right ones unless the walk frees the
target of a CNAME record after it has taken that record as an answer.
-/

namespace AndroidPlatform.DnsCache

open CInteger DnsPacket LinkedLists Cache

/-! ## What a walk takes out -/

/-- The records of a chain that a walk along it takes out: those that are
expired or outdated, and CNAME records behind a target that is taken out. -/
inductive Dropped (c : Cache) (now : ℤ) (l : List ℕ) : ℕ → Prop
  | own {x : ℕ} : x∈l → (c.isExpired now x || c.isOutdated x)=true → Dropped c now l x
  | target {before behind : List ℕ} {x t : ℕ} : l=before++x::behind →
      has (c.flags x) fCname=true → (c.cname x).1=some t → t∈before → Dropped c now l t →
      Dropped c now l x

/-- No answer is a CNAME record in front of a target that the walk takes out. -/
def Cache.Settled (c : Cache) (name : List UInt8) (now : ℤ) (prot : Flags) (l : List ℕ) : Prop :=
  ∀ before x behind t, l=before++x::behind → c.answers name prot x=true →
    c.isExpired now x=false → c.isOutdated x=false → has (c.flags x) fCname=true →
    (c.cname x).1=some t → t∈behind → ¬Dropped c now l t

/-- A record that answers a query and is neither expired nor outdated. -/
def Cache.live (c : Cache) (name : List UInt8) (now : ℤ) (prot : Flags) (x : ℕ) : Bool :=
  c.answers name prot x && !c.isExpired now x && !c.isOutdated x

namespace Cache

variable {cfg : Config} {c c' : Cache} {x y b : ℕ}

theorem isOutdated_eq_false : c.isOutdated x=false ↔
    (has (c.flags x) fCname=true → ∃ t, (c.cname x).1=some t ∧ (c.cname x).2=c.recordUid t) := by
  rw [isOutdated]
  cases has (c.flags x) fCname with
  | false => exact iff_of_true rfl (fun hnot => by cases hnot)
  | true =>
    cases (c.cname x).1 with
    | none =>
      refine iff_of_false (fun hnot => by cases hnot) (fun hex => ?_)
      obtain ⟨t,ht,-⟩ := hex rfl
      cases ht
    | some t =>
      rw [Bool.true_and,bne_eq_false_iff_eq]
      constructor
      · exact fun heq _ => ⟨t,rfl,heq⟩
      · intro hex
        obtain ⟨t',ht',heq⟩ := hex rfl
        rw [Option.some.inj ht']
        exact heq

theorem dropFree_recordUid (place : Option ℕ) (hyx : y≠x) :
    (c.dropFree cfg b place x).recordUid y=c.recordUid y := by
  rw [Cache.dropFree,cacheFree,releaseName]
  split_ifs
  · exact Function.update_of_ne hyx _ _
  · exact Function.update_of_ne hyx _ _

/-- Names that are equal up to case are in the same bucket. -/
theorem hashBucket_eq {a n : List UInt8} (h : hostnameIsequal a n=true) :
    cfg.hashBucket a=cfg.hashBucket n := by
  rw [hostnameIsequal,beq_iff_eq] at h
  rw [Config.hashBucket,Config.hashBucket,hashVal,hashVal,h]

theorem hashBucket_of_answers {name : List UInt8} {prot : Flags}
    (h : c.answers name prot x=true) : cfg.hashBucket (c.cacheGetName x)=cfg.hashBucket name := by
  rw [answers,Bool.and_eq_true] at h
  exact hashBucket_eq h.2

theorem inUse_of_answers {name : List UInt8} {prot : Flags} (h : c.answers name prot x=true) :
    c.inUse x=true := by
  rw [answers,Bool.and_eq_true,Bool.and_eq_true] at h
  rw [inUse,has_or,h.1.1,Bool.true_or]

end Cache

/-! ## The walk -/

/-- The walk along the bucket `l` of a cache: `visited` is what it has passed,
`gone` what it has taken out, `done` and `rest` are what is in the bucket before
and behind its place, and `acc` are the answers at the front of the list. -/
structure Walk (cfg : Config) (start : Cache) (name : List UInt8) (now : ℤ) (prot : Flags)
    (l : List ℕ) (b : ℕ) (c : Cache) (shape : Shape)
    (visited gone done rest acc : List ℕ) : Prop where
  inv : Inv cfg c shape
  bucket : shape.bucket b=done++rest
  walked : l=visited++rest
  seen : ∀ y, y∈visited ↔ y∈done ∨ y∈gone
  dropped : ∀ y∈gone, Dropped start now l y
  apart : ∀ y∈done, y∉gone
  keeps : ∀ y<cfg.cachesize, y∉gone → Keeps start c y
  uids : ∀ y, y∉gone → c.recordUid y=start.recordUid y
  front : ∃ others, shape.lru=acc++others
  found : ∀ y∈acc, y∈done ∧ start.answers name prot y=true ∧ start.isExpired now y=false
  fresh : start.Settled name now prot l → ∀ y∈acc, c.isOutdated y=false
  complete : ∀ y∈done, start.answers name prot y=true → y∈acc

namespace Walk

variable {cfg : Config} {start c : Cache} {name : List UInt8} {now : ℤ} {prot : Flags}
  {l : List ℕ} {b x : ℕ} {shape : Shape} {visited gone done rest acc : List ℕ}

/-- The record that is next has not been seen. -/
theorem notMem (w : Walk cfg start name now prot l b c shape visited gone done (x::rest) acc)
    (hl : l.Nodup) : x∉done ∧ x∉gone ∧ x∉acc := by
  have hnot : x∉visited := by
    rw [w.walked,List.nodup_append] at hl
    exact fun hx => hl.2.2 x hx x List.mem_cons_self rfl
  rw [w.seen,not_or] at hnot
  exact ⟨hnot.1,hnot.2,fun hx => hnot.1 (w.found x hx).1⟩

theorem mem_of_front (w : Walk cfg start name now prot l b c shape visited gone done rest acc)
    {y : ℕ} (hy : y∈done) : y<cfg.cachesize := by
  refine w.inv.lt_of_lru (w.inv.lru_of_bucket (b := b) ?_)
  rw [w.bucket]
  exact List.mem_append_left _ hy

/-- A record that the walk finds expired or outdated is one that it takes out. -/
theorem dropped_of_old
    (w : Walk cfg start name now prot l b c shape visited gone done (x::rest) acc)
    (hl : l.Nodup) (hold : (c.isExpired now x || c.isOutdated x)=true) :
    Dropped start now l x := by
  have hxl : x∈l := by
    rw [w.walked]
    exact List.mem_append_right _ List.mem_cons_self
  have hkeep := w.keeps x (w.inv.lt_of_bucket w.bucket) (w.notMem hl).2.1
  by_cases hown : (start.isExpired now x || start.isOutdated x)=true
  · exact Dropped.own hxl hown
  · rw [Bool.not_eq_true,Bool.or_eq_false_iff] at hown
    rw [hkeep.isExpired,hown.1,Bool.false_or] at hold
    have hcname : has (start.flags x) fCname=true := by
      rw [isOutdated,Bool.and_eq_true,hkeep.flags] at hold
      exact hold.1
    obtain ⟨t,ht,huid⟩ := isOutdated_eq_false.mp hown.2 hcname
    have hgone : t∈gone := by
      by_contra hnot
      have hkept : c.isOutdated x=false := by
        rw [isOutdated_eq_false,hkeep.cname]
        exact fun _ => ⟨t,ht,by rw [w.uids t hnot]; exact huid⟩
      rw [hkept] at hold
      cases hold
    exact Dropped.target w.walked hcname ht ((w.seen t).mpr (Or.inr hgone)) (w.dropped t hgone)

/-- An answer does not become outdated by what the walk takes out. -/
theorem not_outdated_of_drop
    (w : Walk cfg start name now prot l b c shape visited gone done (x::rest) acc)
    (hl : l.Nodup) (hsettled : start.Settled name now prot l)
    (hold : (c.isExpired now x || c.isOutdated x)=true) {y : ℕ} (hy : y∈acc) (place : Option ℕ) :
    (c.dropFree cfg b place x).isOutdated y=false := by
  obtain ⟨hdone,hanswers,hexpired⟩ := w.found y hy
  have hupdated := w.fresh hsettled y hy
  have hyx : y≠x := fun heq => (w.notMem hl).1 (heq ▸ hdone)
  have hlt := w.mem_of_front hdone
  have hkeep := w.keeps y hlt (w.apart y hdone)
  have hdrop := w.inv.dropFree_keeps (b := b) place (w.inv.lt_of_bucket w.bucket) hlt hyx
  rw [isOutdated_eq_false] at hupdated ⊢
  rw [hdrop.flags,hdrop.cname]
  intro hcname
  obtain ⟨t,ht,huid⟩ := hupdated hcname
  refine ⟨t,ht,?_⟩
  by_cases htx : t=x
  · exfalso
    rw [htx] at ht huid
    have hvisited := (w.seen y).mpr (Or.inl hdone)
    obtain ⟨v,v',hv⟩ := List.append_of_mem hvisited
    have hsplit : l=v++y::(v'++x::rest) := by
      rw [w.walked,hv,List.append_assoc]
      rfl
    rw [hkeep.flags] at hcname
    rw [hkeep.cname] at ht huid
    rw [w.uids x (w.notMem hl).2.1] at huid
    have hnew : start.isOutdated y=false := isOutdated_eq_false.mpr (fun _ => ⟨x,ht,huid⟩)
    exact hsettled v y (v'++x::rest) x hsplit hanswers hexpired hnew hcname ht
      (List.mem_append_right _ List.mem_cons_self) (w.dropped_of_old hl hold)
  · rw [dropFree_recordUid place htx]
    exact huid

/-- The walk takes a record out. -/
theorem drop (w : Walk cfg start name now prot l b c shape visited gone done (x::rest) acc)
    (hl : l.Nodup) (hold : (c.isExpired now x || c.isOutdated x)=true) :
    Walk cfg start name now prot l b (c.dropFree cfg b done.getLast? x)
      { shape with
        lru := shape.lru.erase x++[x]
        bucket := Function.update shape.bucket b (done++rest) }
      (visited++[x]) (x::gone) done rest acc := by
  obtain ⟨hdone,hgone,hacc⟩ := w.notMem hl
  have hx := w.inv.lt_of_bucket w.bucket
  refine ⟨w.inv.dropFree w.bucket,Function.update_self b _ _,?_,fun y => ?_,fun y hy => ?_,
    fun y hy => ?_,fun y hy hnot => ?_,fun y hnot => ?_,?_,w.found,fun hsettled y hy => ?_,
    w.complete⟩
  · rw [w.walked,List.append_assoc]
    rfl
  · rw [List.mem_append,List.mem_singleton,w.seen,List.mem_cons]
    tauto
  · rcases List.mem_cons.mp hy with rfl | hy
    · exact w.dropped_of_old hl hold
    · exact w.dropped y hy
  · rw [List.mem_cons,not_or]
    exact ⟨fun heq => hdone (heq ▸ hy),w.apart y hy⟩
  · rw [List.mem_cons,not_or] at hnot
    exact (w.keeps y hy hnot.2).trans (w.inv.dropFree_keeps _ hx hy hnot.1)
  · rw [List.mem_cons,not_or] at hnot
    rw [dropFree_recordUid _ hnot.1]
    exact w.uids y hnot.2
  · obtain ⟨others,hothers⟩ := w.front
    refine ⟨others.erase x++[x],?_⟩
    dsimp only
    rw [hothers,List.erase_append_right _ hacc,List.append_assoc]
  · exact w.not_outdated_of_drop hl hsettled hold hy _

/-- The walk leaves a record that is no answer. -/
theorem pass (w : Walk cfg start name now prot l b c shape visited gone done (x::rest) acc)
    (hl : l.Nodup) (hno : c.answers name prot x=false) :
    Walk cfg start name now prot l b c shape (visited++[x]) gone (done++[x]) rest acc := by
  have hgone := (w.notMem hl).2.1
  have hkeep := w.keeps x (w.inv.lt_of_bucket w.bucket) hgone
  rw [hkeep.answers] at hno
  refine ⟨w.inv,Inv.split_next w.bucket,?_,fun y => ?_,w.dropped,fun y hy => ?_,w.keeps,w.uids,
    w.front,fun y hy => ?_,w.fresh,fun y hy hanswers => ?_⟩
  · rw [w.walked,List.append_assoc]
    rfl
  · rw [List.mem_append,List.mem_append,w.seen]
    tauto
  · rcases List.mem_append.mp hy with hy | hy
    · exact w.apart y hy
    · rw [List.mem_singleton.mp hy]
      exact hgone
  · obtain ⟨hin,hrest⟩ := w.found y hy
    exact ⟨List.mem_append_left _ hin,hrest⟩
  · rcases List.mem_append.mp hy with hy | hy
    · exact w.complete y hy hanswers
    · rw [List.mem_singleton.mp hy,hno] at hanswers
      cases hanswers

/-- The walk takes a record as an answer, and may have moved it in the bucket. -/
theorem accept (w : Walk cfg start name now prot l b c shape visited gone done (x::rest) acc)
    (hl : l.Nodup) (hyes : c.answers name prot x=true)
    (hnew : (c.isExpired now x || c.isOutdated x)=false) {c' : Cache} {bucket : ℕ → List ℕ}
    {done' : List ℕ} (hinv : Inv cfg c' { shape with lru := x::shape.lru.erase x, bucket := bucket })
    (hkeeps : ∀ y, Keeps c c' y) (hbucket : bucket b=done'++rest)
    (hdone' : ∀ y, y∈done' ↔ y∈done ∨ y=x) :
    Walk cfg start name now prot l b c'
      { shape with lru := x::shape.lru.erase x, bucket := bucket }
      (visited++[x]) gone done' rest (x::acc) := by
  obtain ⟨hdone,hgone,hacc⟩ := w.notMem hl
  have hkeep := w.keeps x (w.inv.lt_of_bucket w.bucket) hgone
  have houtdated : ∀ y, c'.isOutdated y=c.isOutdated y := by
    intro y
    rw [isOutdated,isOutdated,(hkeeps y).flags,(hkeeps y).cname]
    cases (c.cname y).1 with
    | none => rfl
    | some t =>
      dsimp only
      rw [(hkeeps t).recordUid]
  rw [Bool.or_eq_false_iff,hkeep.isExpired] at hnew
  rw [hkeep.answers] at hyes
  refine ⟨hinv,hbucket,?_,fun y => ?_,w.dropped,fun y hy => ?_,fun y hy hnot => ?_,fun y hnot => ?_,
    ?_,fun y hy => ?_,fun hsettled y hy => ?_,fun y hy hanswers => ?_⟩
  · rw [w.walked,List.append_assoc]
    rfl
  · rw [List.mem_append,List.mem_singleton,w.seen,hdone']
    tauto
  · rcases (hdone' y).mp hy with hy | rfl
    · exact w.apart y hy
    · exact hgone
  · exact (w.keeps y hy hnot).trans (hkeeps y)
  · rw [(hkeeps y).recordUid]
    exact w.uids y hnot
  · obtain ⟨others,hothers⟩ := w.front
    refine ⟨others.erase x,?_⟩
    dsimp only
    rw [hothers,List.erase_append_right _ hacc]
    rfl
  · rw [hdone']
    rcases List.mem_cons.mp hy with rfl | hy
    · exact ⟨Or.inr rfl,hyes,hnew.1⟩
    · obtain ⟨hin,hrest⟩ := w.found y hy
      exact ⟨Or.inl hin,hrest⟩
  · rw [houtdated]
    rcases List.mem_cons.mp hy with rfl | hy
    · exact hnew.2
    · exact w.fresh hsettled y hy
  · rcases (hdone' y).mp hy with hy | rfl
    · exact List.mem_cons_of_mem x (w.complete y hy hanswers)
    · exact List.mem_cons_self

/-- The place where answers are gathered: in front of a record with the flags
that they have to share. -/
def Gathers (c : Cache) (done : List ℕ) : Option (Option ℕ×Flags) → Prop
  | none => True
  | some (place,kind) => ∃ before z between, done=before++z::between ∧ place=before.getLast? ∧
      c.flags z &&& (fReverse ||| fImmortal)=kind

/-- The flags of answers that are gathered say whether they are reverse records. -/
theorem has_reverse_of_kind {f g : Flags}
    (h : f &&& (fReverse ||| fImmortal)=g &&& (fReverse ||| fImmortal)) :
    has f fReverse=has g fReverse := by
  have hmask : fReverse=(fReverse ||| fImmortal) &&& fReverse := by decide
  rw [has,has,hmask,← BitVec.and_assoc,← BitVec.and_assoc,h]

/-- The walk of `cache_find_by_name` to the end of the bucket. -/
theorem walkName (w : Walk cfg start name now prot l b c shape visited gone done rest acc)
    (hl : l.Nodup) {fuel : ℕ} (hfuel : rest.length≤fuel) (chain : Answers)
    {insert : Option (Option ℕ×Flags)} (hinsert : Gathers c done insert) :
    ∃ c' shape' visited' gone' done' acc',
      Cache.walkName cfg name now prot b fuel done.getLast? rest.head? insert (c,chain)=
        some (c',chain) ∧
      Walk cfg start name now prot l b c' shape' visited' gone' done' [] acc' := by
  induction rest generalizing c shape visited gone done acc fuel insert with
  | nil => exact ⟨c,shape,visited,gone,done,acc,by rw [List.head?_nil,Cache.walkName],w⟩
  | cons x rest ih =>
    cases fuel with
    | zero => cases hfuel
    | succ fuel =>
      have hfuel' : rest.length≤fuel := Nat.le_of_succ_le_succ hfuel
      have hx := w.inv.lt_of_bucket w.bucket
      have hdone := (w.notMem hl).1
      have hkeepGathers : ∀ {c' : Cache} {more : List ℕ}, (∀ y∈done, c'.flags y=c.flags y) →
          Gathers c' (done++more) insert := by
        intro c' more hflags
        cases insert with
        | none => trivial
        | some ins =>
          obtain ⟨before,z,between,hsplit,hplace,hkind⟩ := hinsert
          refine ⟨before,z,between++more,by rw [hsplit,List.append_assoc]; rfl,hplace,?_⟩
          rw [hflags z (by rw [hsplit]; exact List.mem_append_right _ List.mem_cons_self)]
          exact hkind
      rw [List.head?_cons,Cache.walkName,w.inv.dropCrec_eq hx,w.inv.touch_eq hx,
        w.inv.next_eq w.bucket]
      dsimp only
      by_cases hold : (c.isExpired now x || c.isOutdated x)=true
      · rw [if_pos hold]
        refine ih (w.drop hl hold) hfuel' ?_
        rw [← List.append_nil done]
        refine hkeepGathers (fun y hy => ?_)
        rw [List.append_nil]
        exact (w.inv.dropFree_keeps _ hx (w.mem_of_front hy) (fun heq => hdone (heq ▸ hy))).flags
      · rw [if_neg hold]
        rw [Bool.not_eq_true] at hold
        by_cases hyes : c.answers name prot x=true
        · rw [if_pos hyes]
          have hfront := w.inv.toFront (w.inv.lru_of_bucket (Inv.mem_bucket w.bucket))
          have hplain : ∀ y, Keeps c ((c.cacheUnlink x).cacheLink x) y :=
            fun y => ⟨rfl,rfl,rfl,rfl,rfl⟩
          have hstay := w.accept hl hyes hold hfront hplain (Inv.split_next w.bucket)
            (fun y => by rw [List.mem_append,List.mem_singleton])
          cases insert with
          | none =>
            have hgathers : Gathers ((c.cacheUnlink x).cacheLink x) (done++[x])
                (some (done.getLast?,c.flags x &&& (fReverse ||| fImmortal))) :=
              ⟨done,x,[],rfl,rfl,rfl⟩
            have hrest := ih hstay hfuel' hgathers
            rw [List.getLast?_concat] at hrest
            exact hrest
          | some ins =>
            obtain ⟨place,kind⟩ := ins
            dsimp only
            by_cases hkind : c.flags x &&& (fReverse ||| fImmortal)=kind
            · rw [if_pos hkind]
              obtain ⟨before,z,between,hsplit,hplace,hz⟩ := hinsert
              have hbucket := w.bucket
              rw [hsplit] at hbucket
              have hrev : has (c.flags x) fReverse=has (c.flags z) fReverse :=
                has_reverse_of_kind (hkind.trans hz.symm)
              have hmoved := hfront.moveCrec hbucket hrev
              rw [← hplace,← hsplit] at hmoved
              have hlast : done.getLast?=(before++x::z::between).getLast? := by
                rw [hsplit,List.getLast?_append_of_ne_nil _ (List.cons_ne_nil _ _),
                  List.getLast?_append_of_ne_nil _ (List.cons_ne_nil _ _),List.getLast?_cons_cons]
              rw [hlast] at hmoved ⊢
              refine ih (w.accept hl hyes hold hmoved (fun y => ⟨rfl,rfl,rfl,rfl,rfl⟩)
                (Function.update_self b _ _) (fun y => ?_)) hfuel' ?_
              · rw [hsplit,List.mem_append,List.mem_append,List.mem_cons]
                tauto
              · refine ⟨before++[x],z,between,by rw [List.append_assoc]; rfl,?_,hz.trans ?_⟩
                · rw [List.getLast?_concat]
                · rfl
            · rw [if_neg hkind]
              have hrest := ih hstay hfuel' (hkeepGathers (fun y _ => rfl))
              rw [List.getLast?_concat] at hrest
              exact hrest
        · rw [if_neg hyes]
          rw [Bool.not_eq_true] at hyes
          have hrest := ih (w.pass hl hyes) hfuel' (hkeepGathers (fun y _ => rfl))
          rw [List.getLast?_concat] at hrest
          exact hrest

end Walk

/-! ## Lookups -/

namespace Inv

variable {cfg : Config} {c : Cache} {shape : Shape} {name : List UInt8} {prot : Flags}

/-- Following the list of recent use from a pointer gives the answers up to the
first record that is none. -/
theorem answersFrom_eq (name : List UInt8) (prot : Flags) {l : List ℕ} {p : Option ℕ} (hchain : Chain c.links.next p l none)
    {fuel : ℕ} (hfuel : l.length≤fuel) :
    c.answersFrom name prot fuel (p.filter (c.answers name prot))=
      l.takeWhile (c.answers name prot) := by
  induction l generalizing p fuel with
  | nil =>
    rw [show p=none from hchain,Option.filter_none,List.takeWhile_nil]
    cases fuel <;> rfl
  | cons x l ih =>
    cases fuel with
    | zero => cases hfuel
    | succ fuel =>
      rw [hchain.1,List.takeWhile_cons]
      cases hx : c.answers name prot x with
      | true =>
        rw [Option.filter_some,hx,if_pos rfl,if_pos rfl,answersFrom,findNext,
          ih hchain.2 (Nat.le_of_succ_le_succ hfuel)]
      | false =>
        rw [Option.filter_some,hx,if_neg Bool.false_ne_true,if_neg Bool.false_ne_true]
        rfl

/-- The start of the walk. -/
theorem walk_start (h : Inv cfg c shape) (name : List UInt8) (now : ℤ) (prot : Flags) (b : ℕ) :
    Walk cfg c name now prot (shape.bucket b) b c shape [] [] [] (shape.bucket b) [] where
  inv := h
  bucket := rfl
  walked := rfl
  seen := fun _ => ⟨Or.inl,fun hy => hy.elim id id⟩
  dropped := fun _ hy => absurd hy List.not_mem_nil
  apart := fun _ hy => absurd hy List.not_mem_nil
  keeps := fun y _ _ => Keeps.refl c y
  uids := fun _ _ => rfl
  front := ⟨shape.lru,rfl⟩
  found := fun _ hy => absurd hy List.not_mem_nil
  fresh := fun _ _ hy => absurd hy List.not_mem_nil
  complete := fun _ hy => absurd hy List.not_mem_nil

/-- A record on the list of recent use that answers is in the bucket of the name. -/
theorem mem_bucket_of_answers (h : Inv cfg c shape) {y : ℕ} (hy : y∈shape.lru)
    (hanswers : c.answers name prot y=true) : y∈shape.bucket (cfg.hashBucket name) :=
  (h.hashed _ y).mpr ⟨hy,inUse_of_answers hanswers,hashBucket_of_answers hanswers⟩

end Inv

namespace Walk

variable {cfg : Config} {start c : Cache} {name : List UInt8} {now : ℤ} {prot : Flags}
  {l : List ℕ} {shape : Shape} {visited gone done acc : List ℕ}

/-- At the end of the walk the answers are what the list of recent use starts with. -/
theorem takeWhile_eq
    (w : Walk cfg start name now prot l (cfg.hashBucket name) c shape visited gone done [] acc) :
    shape.lru.takeWhile (c.answers name prot)=acc := by
  have hkeep : ∀ y∈done, Keeps start c y := fun y hy =>
    w.keeps y (w.mem_of_front hy) (w.apart y hy)
  have hacc : ∀ y∈acc, c.answers name prot y=true := by
    intro y hy
    obtain ⟨hin,hanswers,-⟩ := w.found y hy
    rw [(hkeep y hin).answers]
    exact hanswers
  obtain ⟨others,hothers⟩ := w.front
  have hnone : ∀ y∈others, c.answers name prot y=false := by
    intro y hy
    by_contra hnot
    rw [Bool.not_eq_false] at hnot
    have hlru : y∈shape.lru := by
      rw [hothers]
      exact List.mem_append_right _ hy
    have hin := w.inv.mem_bucket_of_answers hlru hnot
    rw [w.bucket,List.append_nil] at hin
    rw [(hkeep y hin).answers] at hnot
    have hnodup := w.inv.lists.list.nodup
    rw [hothers,List.nodup_append] at hnodup
    exact hnodup.2.2 y (w.complete y hin hnot) y hy rfl
  rw [hothers,List.takeWhile_append_of_pos hacc]
  cases others with
  | nil => rw [List.takeWhile_nil,List.append_nil]
  | cons y others =>
    rw [List.takeWhile_cons,hnone y List.mem_cons_self,if_neg Bool.false_ne_true,List.append_nil]

/-- The answers are the records that are live after the walk. -/
theorem mem_acc
    (w : Walk cfg start name now prot l (cfg.hashBucket name) c shape visited gone done [] acc)
    (hsettled : start.Settled name now prot l) (x : ℕ) :
    x∈acc ↔ x∈shape.lru ∧ c.live name now prot x=true := by
  have hkeep : ∀ y∈done, Keeps start c y := fun y hy =>
    w.keeps y (w.mem_of_front hy) (w.apart y hy)
  constructor
  · intro hx
    obtain ⟨hin,hanswers,hexpired⟩ := w.found x hx
    obtain ⟨others,hothers⟩ := w.front
    refine ⟨?_,?_⟩
    · rw [hothers]
      exact List.mem_append_left _ hx
    · rw [Cache.live,(hkeep x hin).answers,(hkeep x hin).isExpired,hanswers,hexpired,
        w.fresh hsettled x hx]
      rfl
  · rintro ⟨hlru,hlive⟩
    rw [Cache.live,Bool.and_eq_true,Bool.and_eq_true] at hlive
    have hin := w.inv.mem_bucket_of_answers hlru hlive.1.1
    rw [w.bucket,List.append_nil] at hin
    have hanswers := hlive.1.1
    rw [(hkeep x hin).answers] at hanswers
    exact w.complete x hin hanswers

end Walk

/-- `cache_find_by_name` returns the records that are live after the call, each
once, and drops no answer but those that a walk takes out. -/
theorem Inv.findAll {cfg : Config} {c : Cache} {shape : Shape} (h : Inv cfg c shape)
    (name : List UInt8) (now : ℤ) (prot : Flags) :
    ∃ c' ans shape', c.findAll cfg name now prot=some (c',ans) ∧ Inv cfg c' shape' ∧
      ans.Nodup ∧
      (c.Settled name now prot (shape.bucket (cfg.hashBucket name)) →
        ∀ x, x∈ans ↔ x∈shape'.lru ∧ c'.live name now prot x=true) ∧
      ∀ x∈shape.bucket (cfg.hashBucket name), c.answers name prot x=true →
        ¬Dropped c now (shape.bucket (cfg.hashBucket name)) x → x∈ans := by
  obtain ⟨c',shape',visited,gone,done,acc,hrun,w⟩ :=
    (h.walk_start name now prot (cfg.hashBucket name)).walkName (h.hash.nodup _)
      (h.length_bucket _) ⟨none,none⟩ (show Walk.Gathers c [] none from trivial)
  rw [List.getLast?_nil,← h.read_none] at hrun
  have hlength : shape'.lru.length≤cfg.cachesize+1 := by
    have hlength := w.inv.records.length_eq
    rw [List.length_append,List.length_range] at hlength
    omega
  have hans := Inv.answersFrom_eq name prot w.inv.lists.list.forward hlength
  rw [w.takeWhile_eq] at hans
  have hnodup : acc.Nodup := by
    obtain ⟨others,hothers⟩ := w.front
    have hnodup := w.inv.lists.list.nodup
    rw [hothers] at hnodup
    exact (List.nodup_append.mp hnodup).1
  refine ⟨c',acc,shape',?_,w.inv,hnodup,w.mem_acc,fun x hx hanswers hnot => ?_⟩
  · rw [Cache.findAll,findFirst]
    dsimp only
    rw [hrun,Option.map_some,Option.map_some,← hans]
    rfl
  · have hvisited : x∈visited := by
      rw [w.walked,List.append_nil] at hx
      exact hx
    rcases (w.seen x).mp hvisited with hdone | hgone
    · exact w.complete x hdone hanswers
    · exact absurd (w.dropped x hgone) hnot

/-! ## Runs -/

/-- The calls of the cache, with the store of the caller that links a CNAME record. -/
inductive Call where
  | startInsert
  | insert (new : NewRecord) (malloc : Bool)
  | linkCname (cpp newc : ℕ)
  | endInsert
  | findByName (name : List UInt8) (now : ℤ) (prot : Flags)
  | findByAddr (addr : List UInt8) (now : ℤ) (prot : Flags)

/-- The cache after a call; none if the call does not return. -/
def Cache.perform (cfg : Config) (c : Cache) : Call → Option Cache
  | .startInsert => c.cacheStartInsert cfg
  | .insert new malloc => (c.cacheInsert cfg new malloc).map Prod.fst
  | .linkCname cpp newc => some (c.linkCname cpp newc)
  | .endInsert => c.cacheEndInsert cfg
  | .findByName name now prot => (c.findAll cfg name now prot).map Prod.fst
  | .findByAddr addr now prot => (c.findFirstAddr cfg addr now prot).map Prod.fst

instance (new : NewRecord) : Decidable new.Sound :=
  decidable_of_iff (has new.flags (fForward ||| fReverse)=true ∧
      has new.flags (fHosts ||| fDhcp ||| fBigname)=false ∧
      (has new.flags fForward=true → new.name.isSome=true) ∧
      (has new.flags fCname=true → new.addr=none) ∧
      (has new.flags fReverse=true → new.addr.isSome=true))
    ⟨fun h => ⟨h.1,h.2.1,h.2.2.1,h.2.2.2.1,h.2.2.2.2⟩,
      fun h => ⟨h.used,h.plain,h.named,h.cname,h.addressed⟩⟩

/-- What callers keep to: sound insertions, and only CNAME records are linked. -/
def Cache.allowed (c : Cache) : Call → Bool
  | .insert new _ => decide new.Sound
  | .linkCname cpp _ => has (c.flags cpp) fCname
  | _ => true

/-- The caches that calls lead to from `cache_init`, on memory with any content. -/
def Cache.Reached (cfg : Config) (memory : Cache) : Cache → Prop :=
  TransitionSystem.Reachable (perform cfg) (fun c call => c.allowed call=true)
    (memory.cacheInit cfg)

theorem Inv.perform {cfg : Config} {c : Cache} {shape : Shape} (h : Inv cfg c shape) (call : Call)
    (hallowed : c.allowed call=true) :
    ∃ c' shape', c.perform cfg call=some c' ∧ Inv cfg c' shape' := by
  cases call with
  | startInsert => exact h.cacheStartInsert
  | insert new malloc =>
    obtain ⟨r,shape',hr,h'⟩ := h.cacheInsert (of_decide_eq_true hallowed) malloc
    exact ⟨r.1,shape',by rw [Cache.perform,hr,Option.map_some],h'⟩
  | linkCname cpp newc => exact ⟨_,shape,rfl,h.linkCname cpp newc⟩
  | endInsert => exact h.cacheEndInsert
  | findByName name now prot =>
    obtain ⟨c',ans,shape',hr,h',-⟩ := h.findAll name now prot
    exact ⟨c',shape',by rw [Cache.perform,hr,Option.map_some],h'⟩
  | findByAddr addr now prot =>
    obtain ⟨r,shape',hr,h'⟩ := h.findFirstAddr addr now prot
    exact ⟨r.1,shape',by rw [Cache.perform,hr,Option.map_some],h'⟩

theorem Cache.Reached.inv {cfg : Config} {memory c : Cache} (h : Reached cfg memory c) :
    ∃ shape, Inv cfg c shape := by
  refine @TransitionSystem.Reachable.invariant _ _ _ _ _ (fun c => ∃ shape, Inv cfg c shape)
    ?_ ?_ _ h
  · exact Inv.cacheInit memory
  · intro s t call _ hs hallowed hnext
    obtain ⟨shape,hinv⟩ := hs
    obtain ⟨c',shape',hc',h'⟩ := hinv.perform call hallowed
    rw [hc',Option.some.injEq] at hnext
    exact ⟨shape',hnext ▸ h'⟩

/-- In every run from `cache_init` each record is on one of the two lists, the
hash chains hold the records in use under their names with reverse records
first, and every call returns. A lookup returns exactly the live records, each
once, if no answer is a CNAME record in front of a target that the lookup frees;
and it never leaves out an answer that it does not free. -/
theorem structured_of_reached {cfg : Config} {memory c : Cache} (h : Reached cfg memory c) :
    ∃ shape, Structured cfg c shape ∧
      (∀ call, c.allowed call=true → (c.perform cfg call).isSome=true) ∧
      ∀ name now prot, ∃ c' ans shape', c.findAll cfg name now prot=some (c',ans) ∧
        Structured cfg c' shape' ∧ ans.Nodup ∧
        (c.Settled name now prot (shape.bucket (cfg.hashBucket name)) →
          ∀ x, x∈ans ↔ x∈shape'.lru ∧ c'.live name now prot x=true) ∧
        ∀ x∈shape.bucket (cfg.hashBucket name), c.answers name prot x=true →
          ¬Dropped c now (shape.bucket (cfg.hashBucket name)) x → x∈ans := by
  obtain ⟨shape,hinv⟩ := h.inv
  refine ⟨shape,hinv.toStructured,fun call hallowed => ?_,fun name now prot => ?_⟩
  · obtain ⟨c',shape',hc',-⟩ := hinv.perform call hallowed
    rw [hc',Option.isSome_some]
  · obtain ⟨c',ans,shape',hr,h',hrest⟩ := hinv.findAll name now prot
    exact ⟨c',ans,shape',hr,h'.toStructured,hrest⟩

/-- A cache of four records. The hash function mixes in the first entries of
`typestr`: the types, and the addresses of the strings from 65536 on. -/
def smallConfig : Config where
  cachesize := 4
  mixTab := fun i =>
    ([1,0,0,0,0,0,1,0,2,0,0,0,2,0,1,0,5,0,0,0,5,0,1,0,6,0,0,0,11,0,1,0,10,0,0,0,15,0,1,0,
      11,0,0,0,20,0,1,0,12,0,0,0,24,0,1,0,13,0,0,0,28,0,1,0] : List UInt8).getD i 0
  garble := fun _ text => text

/-- Memory of zeros. -/
def blankMemory : Cache where
  links := ⟨fun _ => none,fun _ => none,none,none⟩
  newChain := none
  hash := ⟨fun _ => none,fun _ => none⟩
  ttd := fun _ => 0
  recordUid := fun _ => 0
  addr := fun _ => []
  cname := fun _ => (none,0)
  flags := fun _ => 0#16
  sname := fun _ => []
  bname := fun _ => 0
  namep := fun _ => []
  uid := 0
  insertError := false
  bigFree := []
  bigNamesLeft := 0
  bigNames := fun _ => []
  bigCount := 0

/-- A reply is cached: `c` is another name for `e`, which has an address that
lives for five seconds only. The names are in the same bucket. -/
def cacheAlias : List Call :=
  [.startInsert,
    .insert ⟨some [99],none,0,100,fCname ||| fForward⟩ true,
    .insert ⟨some [101],some [10,0,0,1],0,5,fForward ||| fIpv4⟩ true,
    .linkCname 0 1,
    .endInsert]

/-- The cache after that. -/
def aliasCache : Option Cache :=
  TransitionSystem.runActions (perform smallConfig) allowed (blankMemory.cacheInit smallConfig)
    cacheAlias

/-- While the address lives, the CNAME record is the answer for its name. -/
theorem structured_of_reached_alias : ∃ c c' ans, Reached smallConfig blankMemory c ∧
    c.findAll smallConfig [99] 1 (fCname ||| fIpv4)=some (c',ans) ∧
    ans=[0] ∧ c'.live [99] 1 (fCname ||| fIpv4) 0=true := by
  have hall : aliasCache.map (fun c =>
      (c.hash.table (smallConfig.hashBucket [99]),c.hash.next 0,c.hash.next 1,
        c.isExpired 1 1 || c.isOutdated 1,has (c.flags 1) fCname))=
      some (some 0,some 1,none,false,false) := by decide +kernel
  have hans : (aliasCache.bind fun c =>
      (c.findAll smallConfig [99] 1 (fCname ||| fIpv4)).map Prod.snd)=some [0] := by
    decide +kernel
  cases hc : aliasCache with
  | none =>
    rw [hc] at hall
    cases hall
  | some c =>
    rw [hc,Option.map_some,Option.some.injEq] at hall
    rw [hc,Option.bind_some] at hans
    simp only [Prod.mk.injEq] at hall
    obtain ⟨htable,hnext,hlast,hold,hcname⟩ := hall
    have hreached : Reached smallConfig blankMemory c :=
      TransitionSystem.reachable_of_runActions .start hc
    obtain ⟨shape,hs,-,hfind⟩ := structured_of_reached hreached
    have hbucket : shape.bucket (smallConfig.hashBucket [99])=[0,1] := by
      refine (hs.hash.chain _).unique ?_
      rw [htable]
      exact ⟨rfl,hnext,hlast⟩
    have hnot : ¬Dropped c 1 [0,1] 1 := by
      intro hdropped
      cases hdropped with
      | own _ hown =>
        rw [hold] at hown
        cases hown
      | target _ hflag =>
        rw [hcname] at hflag
        cases hflag
    have hsettled : c.Settled [99] 1 (fCname ||| fIpv4) [0,1] := by
      intro before x behind t hl _ _ _ _ _ ht
      have hmem : t∈[0,1] := by
        rw [hl]
        exact List.mem_append_right _ (List.mem_cons_of_mem x ht)
      have hnodup : (before++x::behind).Nodup := by
        rw [← hl]
        decide
      have ht0 : t≠0 := by
        rintro rfl
        cases before with
        | nil =>
          have hx := (List.cons.inj hl).1
          rw [List.nil_append,← hx,List.nodup_cons] at hnodup
          exact hnodup.1 ht
        | cons y before =>
          have hy := (List.cons.inj hl).1
          rw [← hy,List.cons_append,List.nodup_cons] at hnodup
          exact hnodup.1 (List.mem_append_right _ (List.mem_cons_of_mem x ht))
      have ht1 : t=1 := by
        rcases List.mem_cons.mp hmem with h0 | h1
        · exact absurd h0 ht0
        · exact List.mem_singleton.mp h1
      rw [ht1]
      exact hnot
    obtain ⟨c',ans,shape',hrun,-,-,hexact,-⟩ := hfind [99] 1 (fCname ||| fIpv4)
    rw [hbucket] at hexact
    rw [hrun,Option.map_some,Option.some.injEq] at hans
    have hans' : ans=[0] := hans
    refine ⟨c,c',ans,hreached,hrun,hans',?_⟩
    have hmem : 0∈ans := by
      rw [hans']
      exact List.mem_singleton_self 0
    exact ((hexact hsettled 0).mp hmem).2

/-- A lookup of `c` after the address has expired frees the address record, and
still returns the CNAME record that points to it. -/
theorem exists_reached_outdated_answer : ¬∀ cfg memory c, Reached cfg memory c →
    ∀ name now prot, ∃ c' ans shape', c.findAll cfg name now prot=some (c',ans) ∧
      Structured cfg c' shape' ∧ ans.Nodup ∧
      ∀ x, x∈ans ↔ x∈shape'.lru ∧ c'.live name now prot x=true := by
  intro hclaim
  have hans : (aliasCache.bind fun c =>
      (c.findAll smallConfig [99] 10 (fCname ||| fIpv4)).map fun r =>
        (r.2,r.1.live [99] 10 (fCname ||| fIpv4) 0))=some ([0],false) := by
    decide +kernel
  cases hc : aliasCache with
  | none =>
    rw [hc] at hans
    cases hans
  | some c =>
    have hreached : Reached smallConfig blankMemory c :=
      TransitionSystem.reachable_of_runActions .start hc
    obtain ⟨c',ans,shape',hrun,-,-,hexact⟩ :=
      hclaim smallConfig blankMemory c hreached [99] 10 (fCname ||| fIpv4)
    rw [hc,Option.bind_some,hrun,Option.map_some,Option.some.injEq,Prod.mk.injEq] at hans
    obtain ⟨hans',hlive⟩ := hans
    have hmem : 0∈ans := by
      rw [show ans=[0] from hans']
      exact List.mem_singleton_self 0
    have hlive' := ((hexact 0).mp hmem).2
    rw [show c'.live [99] 10 (fCname ||| fIpv4) 0=false from hlive] at hlive'
    cases hlive'

end AndroidPlatform.DnsCache
