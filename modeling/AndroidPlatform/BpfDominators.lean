import AndroidPlatform.BpfLevels
import Mathlib.Data.List.Nodup

/-!
# Dominators of blocks and edges

`find_dom` and `find_edom` of `optimize.c` compute for every block the blocks,
and for every edge the edges, that the filter has come through when it gets
there. The sets are kept as bits of 32-bit words, by the numbers that
`opt_init` gives to blocks and edges. Both functions go through the levels
once, from the root down, and intersect the set of a block or an edge into
the sets of its successors in place.
-/

namespace AndroidPlatform.BpfDominators

open BpfProgram BpfLevels MarkedTraversal UnavoidableNodes

/-- `uset`, a set of small numbers as an array of `bpf_u_int32`. -/
abbrev Uset (words : ℕ) := Vector (BitVec 32) words

variable {words : ℕ}

/-- The word with the bit of a number, `1 << (a % BITS_PER_WORD)`. -/
def bitOf (a : ℕ) : BitVec 32 := 1#32<<<(a%32)

/-- `SET_MEMBER` -/
def setMember (p : Uset words) (a : ℕ) : Bool :=
  match p[a/32]? with
  | some w => w &&& bitOf a != 0#32
  | none => false

/-- `SET_INSERT` -/
def setInsert (p : Uset words) (a : ℕ) : Uset words :=
  p.setIfInBounds (a/32) ((p[a/32]?).getD 0#32 ||| bitOf a)

/-- `SET_INTERSECT`, the words that are assigned. -/
def setIntersect (a b : Uset words) : Uset words := Vector.zipWith (fun x y => x &&& y) a b

/-- The set whose words are all `~0`. -/
def setAll (words : ℕ) : Uset words := Vector.replicate words (BitVec.allOnes 32)

/-- The set whose words are all zero. -/
def setNone (words : ℕ) : Uset words := Vector.replicate words 0#32

theorem getLsbD_bitOf (a i : ℕ) : (bitOf a).getLsbD i=decide (i=a%32) := by
  have hlt : a%32<32 := Nat.mod_lt a (by decide)
  rw [bitOf,BitVec.getLsbD_shiftLeft,BitVec.getLsbD_one]
  by_cases hi : i=a%32
  · simp [hi,hlt]
  · by_cases hlow : i<a%32
    · simp [hlow,hi]
    · have hpos : i-a%32≠0 := by omega
      simp [hpos,hi]

theorem and_bitOf_ne_zero (w : BitVec 32) (a : ℕ) :
    (w &&& bitOf a != 0#32)=w.getLsbD (a%32) := by
  by_cases hw : w.getLsbD (a%32)=true
  · rw [hw,bne_iff_ne]
    intro hzero
    have hget : (w &&& bitOf a).getLsbD (a%32)=true := by
      rw [BitVec.getLsbD_and,hw,getLsbD_bitOf,decide_eq_true rfl]
      rfl
    rw [hzero,BitVec.getLsbD_zero] at hget
    cases hget
  · rw [Bool.not_eq_true] at hw
    rw [hw,bne_eq_false_iff_eq]
    refine BitVec.eq_of_getLsbD_eq fun i _ => ?_
    rw [BitVec.getLsbD_and,getLsbD_bitOf,BitVec.getLsbD_zero]
    by_cases hi : i=a%32
    · rw [hi,hw]
      rfl
    · simp [hi]

theorem setMember_eq (p : Uset words) (a : ℕ) :
    setMember p a=((p[a/32]?).getD 0#32).getLsbD (a%32) := by
  rw [setMember]
  cases p[a/32]? with
  | none => rw [Option.getD_none,BitVec.getLsbD_zero]
  | some w => exact and_bitOf_ne_zero w a

theorem setMember_setInsert (p : Uset words) {a : ℕ} (ha : a/32<words) (k : ℕ) :
    setMember (setInsert p a) k=true ↔ setMember p k=true ∨ a=k := by
  rw [setMember_eq,setMember_eq,setInsert,Vector.getElem?_setIfInBounds]
  by_cases hword : a/32=k/32
  · rw [if_pos hword,if_pos ha,Option.getD_some,BitVec.getLsbD_or,getLsbD_bitOf,hword,Bool.or_eq_true,
      decide_eq_true_iff]
    refine or_congr_right ⟨fun hmod => ?_,fun h => by rw [h]⟩
    have hk := Nat.div_add_mod k 32
    have ha := Nat.div_add_mod a 32
    omega
  · rw [if_neg hword]
    refine ⟨.inl,fun h => h.resolve_right fun heq => hword (by rw [heq])⟩

theorem setMember_setIntersect (p q : Uset words) (k : ℕ) :
    setMember (setIntersect p q) k=true ↔ setMember p k=true ∧ setMember q k=true := by
  rw [setMember_eq,setMember_eq,setMember_eq,setIntersect,Vector.getElem?_zipWith]
  by_cases hk : k/32<words
  · simp [hk]
  · simp [hk]

theorem setMember_setAll (k : ℕ) : setMember (setAll words) k=true ↔ k/32<words := by
  rw [setMember_eq,setAll,Vector.getElem?_replicate]
  have hlt : k%32<32 := Nat.mod_lt k (by decide)
  by_cases hk : k/32<words
  · rw [if_pos hk,Option.getD_some,BitVec.getLsbD_allOnes]
    simp [hk,hlt]
  · simp [hk]

theorem setMember_setNone (k : ℕ) : setMember (setNone words) k=false := by
  rw [setMember_eq,setNone,Vector.getElem?_replicate]
  by_cases hk : k/32<words
  · simp [hk]
  · simp [hk]

/-- No set has a member behind its last word. -/
theorem setMember_behind (p : Uset words) {k : ℕ} (hk : words≤k/32) : setMember p k=false := by
  have hnone : p[k/32]?=none := by simp [hk]
  rw [setMember_eq,hnone,Option.getD_none,BitVec.getLsbD_zero]

/-- The blocks that were numbered, each at the place of its number. -/
structure Numbering (g : BlockGraph) where
  /-- `blocks` -/
  blocks : List ℕ
  /-- No block has two numbers. -/
  nodup : blocks.Nodup
  /-- Every block that the root leads to has a number. -/
  reached : ∀ p, g.Reached p → p∈blocks

namespace Numbering

variable {g : BlockGraph} (num : Numbering g)

/-- The field `id` of a block. -/
def id (p : ℕ) : ℕ := num.blocks.idxOf p

/-- `nodewords` -/
def nodewords : ℕ := num.blocks.length/32+1

/-- `n_edges` -/
def nEdges : ℕ := 2*num.blocks.length

/-- `edgewords` -/
def edgewords : ℕ := num.nEdges/32+1

theorem id_lt {p : ℕ} (hp : g.Reached p) : num.id p<num.blocks.length :=
  List.idxOf_lt_length_of_mem (num.reached p hp)

theorem id_injective {p q : ℕ} (hp : g.Reached p) (h : num.id p=num.id q) : p=q :=
  (List.idxOf_inj (num.reached p hp)).mp h

end Numbering

/-- `number_blks_r`; the blocks that have a number are those that are marked. -/
def numberBlksR (g : BlockGraph) (p : Option ℕ) (blocks : List ℕ) : List ℕ :=
  match p with
  | none => blocks
  | some p =>
    if p∈blocks then blocks
    else numberBlksR g (g.block p).jf (numberBlksR g (g.block p).jt (blocks++[p]))
termination_by g.height p
decreasing_by
  · exact g.height_jt p
  · exact g.height_jf p

theorem numberBlksR_spec (g : BlockGraph) (p : Option ℕ) (blocks : List ℕ) (hb : blocks.Nodup) :
    Visits g.succ p.toList blocks.toFinset (numberBlksR g p blocks).toFinset ∧
      (numberBlksR g p blocks).Nodup := by
  induction p,blocks using numberBlksR.induct g with
  | case1 blocks =>
    rw [numberBlksR]
    exact ⟨Visits.of_marked fun x hx => absurd hx List.not_mem_nil,hb⟩
  | case2 blocks p hp =>
    rw [numberBlksR,if_pos hp]
    refine ⟨Visits.of_marked fun x hx => ?_,hb⟩
    rw [List.mem_singleton.mp hx]
    exact List.mem_toFinset.mpr hp
  | case3 blocks p hp ihjt ihjf =>
    have hnew : (blocks++[p]).Nodup := by
      rw [List.nodup_append]
      refine ⟨hb,List.nodup_singleton p,fun x hx y hy hxy => hp ?_⟩
      rw [←List.mem_singleton.mp hy,←hxy]
      exact hx
    obtain ⟨hjt,hnodup⟩ := ihjt hnew
    obtain ⟨hjf,hnodup'⟩ := ihjf hnodup
    rw [numberBlksR,if_neg hp]
    have hmark : (blocks++[p]).toFinset=insert p blocks.toFinset := by
      ext x
      rw [List.mem_toFinset,List.mem_append,List.mem_singleton,Finset.mem_insert,
        List.mem_toFinset,or_comm]
    have hvisits := hjt.append hjf
    rw [hmark] at hvisits
    refine ⟨hvisits.enter fun x => ?_,hnodup'⟩
    rw [BlockGraph.succ,List.mem_append,List.mem_append,or_comm]

/-- The numbering of `opt_init`. -/
def numberBlks (g : BlockGraph) : Numbering g where
  blocks := numberBlksR g (some g.root) []
  nodup := (numberBlksR_spec g (some g.root) [] List.nodup_nil).2
  reached := by
    have hv := (numberBlksR_spec g (some g.root) [] List.nodup_nil).1
    intro p hp
    refine List.mem_toFinset.mp ?_
    induction hp with
    | refl => exact hv.start_mem g.root (List.mem_singleton_self g.root)
    | tail _ hy ih => exact hv.closed_of_empty _ ih _ hy

/-- The words of a set are assigned the intersection with another one. -/
def intersectInto {α : Type*} [DecidableEq α] (sets : α → Uset words) (x y : α) :
    α → Uset words :=
  Function.update sets y (setIntersect (sets y) (sets x))

/-- The body of the loop of `find_dom`. -/
def findDomBlock (g : FlowGraph) (num : Numbering g.toBlockGraph)
    (dom : ℕ → Uset num.nodewords) (b : ℕ) : ℕ → Uset num.nodewords :=
  let dom' := Function.update dom b (setInsert (dom b) (num.id b))
  match (g.block b).jt,(g.block b).jf with
  | some t,some f => intersectInto (intersectInto dom' b t) b f
  | _,_ => dom'

/-- `find_dom`, on the levels that `find_levels` has found: the fields `dom`. -/
def findDom (g : FlowGraph) (num : Numbering g.toBlockGraph) (level : ℕ → ℕ) :
    ℕ → Uset num.nodewords :=
  (levelOrder g level).foldl (findDomBlock g num)
    (Function.update (fun _ => setAll num.nodewords) g.root (setNone num.nodewords))

/-- `struct edge`: the edge out of `pred` when its branch is taken, `et`, or
when it is not, `ef`. Blocks without successors have both edges too. -/
structure Edge where
  /-- The block the edge leaves. -/
  pred : ℕ
  /-- It is the edge `et`. -/
  taken : Bool
  deriving DecidableEq

/-- The field `succ` of an edge. -/
def Edge.succ (g : FlowGraph) (e : Edge) : Option ℕ :=
  if e.taken then (g.block e.pred).jt else (g.block e.pred).jf

/-- The field `id` of an edge. -/
def Edge.id {g : BlockGraph} (num : Numbering g) (e : Edge) : ℕ :=
  if e.taken then num.id e.pred else num.blocks.length+num.id e.pred

/-- The edges out of the block an edge leads to. -/
def edgeSucc (g : FlowGraph) (e : Edge) : List Edge :=
  match e.succ g with
  | some c => [⟨c,true⟩,⟨c,false⟩]
  | none => []

/-- `propedom` -/
def propedom (g : FlowGraph) (num : Numbering g.toBlockGraph)
    (edom : Edge → Uset num.edgewords) (ep : Edge) : Edge → Uset num.edgewords :=
  let edom' := Function.update edom ep (setInsert (edom ep) (ep.id num))
  match ep.succ g with
  | some c => intersectInto (intersectInto edom' ep ⟨c,true⟩) ep ⟨c,false⟩
  | none => edom'

/-- The body of the loop of `find_edom`. -/
def findEdomBlock (g : FlowGraph) (num : Numbering g.toBlockGraph)
    (edom : Edge → Uset num.edgewords) (b : ℕ) : Edge → Uset num.edgewords :=
  propedom g num (propedom g num edom ⟨b,true⟩) ⟨b,false⟩

/-- `find_edom`: the fields `edom`. -/
def findEdom (g : FlowGraph) (num : Numbering g.toBlockGraph) (level : ℕ → ℕ) :
    Edge → Uset num.edgewords :=
  (levelOrder g level).foldl (findEdomBlock g num)
    (Function.update (Function.update (fun _ => setAll num.edgewords) ⟨g.root,true⟩
      (setNone num.edgewords)) ⟨g.root,false⟩ (setNone num.edgewords))

section Sweep

variable {α : Type*} [DecidableEq α] {succ list : α → List α} {source : α → Prop} {number : α → ℕ}

/-- The step that both functions take: insert the number of a node into its
set, and intersect the set into the sets of the successors. -/
def visitSets (list : α → List α) (number : α → ℕ) (sets : α → Uset words) (x : α) :
    α → Uset words :=
  (list x).foldl (fun sets y => intersectInto sets x y)
    (Function.update sets x (setInsert (sets x) (number x)))

/-- The nodes whose sets hold a number. -/
def Holding (sets : α → Uset words) (k : ℕ) (x : α) : Prop := setMember (sets x) k=true

theorem holding_intersectInto (sets : α → Uset words) (x y : α) (k : ℕ) :
    Holding (intersectInto sets x y) k=handOn x (Holding sets k) y := by
  funext z
  refine propext ?_
  by_cases hz : z=y
  · subst hz
    simp only [Holding,intersectInto,handOn,Function.update_self]
    exact setMember_setIntersect _ _ k
  · simp only [Holding,intersectInto,handOn,Function.update_of_ne hz]

theorem holding_foldl_intersectInto (sets : α → Uset words) (x : α) (l : List α) (k : ℕ) :
    Holding (l.foldl (fun sets y => intersectInto sets x y) sets) k=
      l.foldl (handOn x) (Holding sets k) := by
  induction l generalizing sets with
  | nil => rfl
  | cons y l ih => rw [List.foldl_cons,ih,holding_intersectInto,List.foldl_cons]

/-- The step changes the nodes that hold a number as a visit does. -/
theorem holding_visitSets (hl : ∀ x y, y∈list x ↔ y∈succ x) {x : α} (hx : x∉succ x)
    (hid : number x/32<words) (sets : α → Uset words) (k : ℕ) :
    Holding (visitSets list number sets x) k=
      visit succ (fun z => number z=k) (Holding sets k) x := by
  have hinsert : Holding (Function.update sets x (setInsert (sets x) (number x))) k=
      Function.update (Holding sets k) x (Holding sets k x ∨ number x=k) := by
    funext z
    refine propext ?_
    by_cases hz : z=x
    · subst hz
      simp only [Holding,Function.update_self]
      exact setMember_setInsert _ hid k
    · simp only [Holding,Function.update_of_ne hz]
  rw [visitSets,holding_foldl_intersectInto,hinsert]
  exact @foldl_handOn_eq_visit α succ (fun z => number z=k) _ x (list x) (hl x) hx (Holding sets k)

theorem holding_foldl_visitSets (hl : ∀ x y, y∈list x ↔ y∈succ x) (order : List α)
    (hx : ∀ x∈order, x∉succ x ∧ number x/32<words) (sets : α → Uset words) (k : ℕ) :
    Holding (order.foldl (visitSets list number) sets) k=
      sweep succ (fun z => number z=k) (Holding sets k) order := by
  induction order generalizing sets with
  | nil => rfl
  | cons x order ih =>
    obtain ⟨hself,hid⟩ := hx x List.mem_cons_self
    rw [List.foldl_cons,ih (fun y hy => hx y (List.mem_cons_of_mem x hy)),
      holding_visitSets hl hself hid,sweep,sweep,List.foldl_cons]

/-- **The sets of a sweep.** One pass of the step over the nodes in a
topological order leaves in the set of each the nodes on all paths to it. -/
theorem setMember_visitSets_iff {order : List α} (htop : Topological succ order)
    (hl : ∀ x y, y∈list x ↔ y∈succ x) (hsource : ∀ x, source x → x∈order)
    (hclosed : ∀ x y, x∈order → y∈succ x → y∈order)
    (hpath : ∀ x∈order, ∃ path, Path succ source path x)
    (hid : ∀ x∈order, number x/32<words)
    (hinj : ∀ x∈order, ∀ y∈order, number x=number y → x=y) {sets : α → Uset words}
    (hnone : ∀ x, source x → sets x=setNone words)
    (hall : ∀ x, ¬source x → sets x=setAll words) {x : α} (hx : x∈order) (i : ℕ) :
    setMember (order.foldl (visitSets list number) sets x) i=true ↔
      ∃ a, number a=i ∧ ∀ path, Path succ source path x → a∈path := by
  have hwithin : ∀ {path y}, Path succ source path y → y∈order ∧ ∀ z∈path, z∈order :=
    fun h => h.mem_of_closed hsource hclosed
  have hcommon : Unavoidable succ source (fun z => number z=i) x ↔
      ∃ a, number a=i ∧ ∀ path, Path succ source path x → a∈path := by
    constructor
    · intro h
      obtain ⟨path,hp⟩ := hpath x hx
      obtain ⟨a,ha,hai⟩ := h path hp
      refine ⟨a,hai,fun path' hp' => ?_⟩
      obtain ⟨a',ha',hai'⟩ := h path' hp'
      rw [hinj a ((hwithin hp).2 a ha) a' ((hwithin hp').2 a' ha') (hai.trans hai'.symm)]
      exact ha'
    · rintro ⟨a,hai,h⟩ path hp
      exact ⟨a,h path hp,hai⟩
  rw [←hcommon]
  by_cases hi : i/32<words
  · have hrun : Holding (order.foldl (visitSets list number) sets) i=
        sweep succ (fun z => number z=i) (Holding sets i) order :=
      holding_foldl_visitSets hl order (fun y hy => ⟨htop.irrefl y hy,hid y hy⟩) sets i
    have hstart : ∀ y, Holding sets i y ↔ ¬source y := by
      intro y
      by_cases hs : source y
      · rw [Holding,hnone y hs,setMember_setNone]
        exact ⟨fun h => absurd h Bool.false_ne_true,fun h => absurd hs h⟩
      · rw [Holding,hall y hs,setMember_setAll]
        exact ⟨fun _ => hs,fun _ => hi⟩
    have hsweep : sweep succ (fun z => number z=i) (Holding sets i) order x ↔
        Unavoidable succ source (fun z => number z=i) x :=
      sweep_iff htop (fun p hp path hpath => absurd (hwithin hpath).1 hp) hstart hx
    rw [←hrun] at hsweep
    exact hsweep
  · rw [setMember_behind _ (by omega)]
    refine ⟨fun h => absurd h Bool.false_ne_true,fun h => ?_⟩
    obtain ⟨path,hp⟩ := hpath x hx
    obtain ⟨a,ha,hai⟩ := h path hp
    have hlt := hid a ((hwithin hp).2 a ha)
    rw [hai] at hlt
    exact absurd hlt hi

end Sweep

variable {g : FlowGraph}

/-- The successors of a block in the order of `find_dom`. -/
def blockSucc (g : FlowGraph) (b : ℕ) : List ℕ := (g.block b).jt.toList++(g.block b).jf.toList

theorem findDomBlock_eq (num : Numbering g.toBlockGraph) (dom : ℕ → Uset num.nodewords) (b : ℕ) :
    findDomBlock g num dom b=visitSets (blockSucc g) num.id dom b := by
  rw [findDomBlock,visitSets,blockSucc]
  cases ht : (g.block b).jt with
  | none =>
    rw [(g.both b).mp ht]
    rfl
  | some t =>
    cases hf : (g.block b).jf with
    | none =>
      rw [(g.both b).mpr hf] at ht
      cases ht
    | some f => rfl

theorem propedom_eq (num : Numbering g.toBlockGraph) (edom : Edge → Uset num.edgewords)
    (e : Edge) : propedom g num edom e=visitSets (edgeSucc g) (Edge.id num) edom e := by
  rw [propedom,visitSets,edgeSucc]
  cases e.succ g with
  | none => rfl
  | some c => rfl

theorem mem_blockSucc (b c : ℕ) : c∈blockSucc g b ↔ c∈g.succ b := by
  rw [blockSucc,BlockGraph.succ,List.mem_append,List.mem_append,or_comm]

/-- An edge leads to the edges out of a successor of its block. -/
theorem mem_edgeSucc (e e' : Edge) : e'∈edgeSucc g e ↔ e.succ g=some e'.pred := by
  rw [edgeSucc]
  cases e.succ g with
  | none => simp
  | some c =>
    obtain ⟨p,taken⟩ := e'
    cases taken <;> simp [eq_comm]

theorem mem_succ_iff (p c : ℕ) : c∈g.succ p ↔ ∃ taken, Edge.succ g ⟨p,taken⟩=some c := by
  rw [BlockGraph.succ,List.mem_append,Option.mem_toList,Option.mem_toList]
  constructor
  · rintro (h | h)
    · exact ⟨false,h⟩
    · exact ⟨true,h⟩
  · rintro ⟨taken,h⟩
    cases taken with
    | false => exact .inl h
    | true => exact .inr h

/-- A block that the root leads to has a path. -/
theorem exists_path {b : ℕ} (hb : g.Reached b) :
    ∃ path, Path g.succ (fun p => p=g.root) path b := by
  induction hb with
  | refl => exact ⟨[g.root],.source g.root rfl⟩
  | tail _ hy ih =>
    obtain ⟨path,hpath⟩ := ih
    exact ⟨_,.snoc path _ _ hpath hy⟩

/-- An edge of a block that the root leads to has a path. -/
theorem exists_edgePath {b : ℕ} (hb : g.Reached b) (taken : Bool) :
    ∃ path, Path (edgeSucc g) (fun e => e.pred=g.root) path ⟨b,taken⟩ := by
  induction hb generalizing taken with
  | refl => exact ⟨_,.source _ rfl⟩
  | @tail p c _ hc ih =>
    obtain ⟨side,hside⟩ := (mem_succ_iff p c).mp hc
    obtain ⟨path,hpath⟩ := ih side
    exact ⟨_,.snoc path _ _ hpath ((mem_edgeSucc _ _).mpr hside)⟩

/-- The order in which `find_edom` goes through the edges. -/
def edgeOrder (g : FlowGraph) (level : ℕ → ℕ) : List Edge :=
  (levelOrder g level).flatMap fun b => [⟨b,true⟩,⟨b,false⟩]

theorem mem_edgeOrder (level : ℕ → ℕ) (e : Edge) : e∈edgeOrder g level ↔ g.Reached e.pred := by
  rw [edgeOrder,List.mem_flatMap,←mem_levelOrder g level]
  obtain ⟨p,taken⟩ := e
  constructor
  · rintro ⟨b,hb,he⟩
    have hp : p=b := by
      cases taken <;> simpa using he
    rw [hp]
    exact hb
  · intro hp
    refine ⟨p,hp,?_⟩
    cases taken <;> simp

/-- **The order of the edges.** An edge comes after all edges into its block. -/
theorem topological_edgeOrder (g : FlowGraph) (level : ℕ → ℕ) :
    Topological (edgeSucc g) (edgeOrder g level) := by
  have htop := topological_levelOrder g level
  have hsucc : ∀ e e', e'∈edgeSucc g e → e'.pred∈g.succ e.pred := by
    intro e e' h
    exact (mem_succ_iff _ _).mpr ⟨e.taken,(mem_edgeSucc e e').mp h⟩
  have hirrefl : ∀ b∈levelOrder g level, ∀ x y : Bool, (⟨b,x⟩ : Edge)∉edgeSucc g ⟨b,y⟩ :=
    fun b hb x y h => htop.irrefl b hb (hsucc _ _ h)
  refine ⟨?_,?_,?_⟩
  · rw [edgeOrder,List.nodup_flatMap]
    refine ⟨fun b _ => by simp,htop.nodup.imp fun {b c} hbc => ?_⟩
    intro e hb hc
    have hpb : e.pred=b := by
      rcases List.mem_pair.mp hb with rfl | rfl <;> rfl
    have hpc : e.pred=c := by
      rcases List.mem_pair.mp hc with rfl | rfl <;> rfl
    exact hbc (hpb.symm.trans hpc)
  · intro e he
    exact hirrefl e.pred ((mem_levelOrder g level _).mpr ((mem_edgeOrder level e).mp he)) _ _
  · rw [edgeOrder,List.pairwise_flatMap]
    constructor
    · intro b hb
      rw [List.pairwise_pair]
      exact hirrefl b hb true false
    · refine htop.forward.imp fun {b c} hbc e he e' he' h => hbc ?_
      have hpb : e.pred=b := by
        rcases List.mem_pair.mp he with rfl | rfl <;> rfl
      have hpc : e'.pred=c := by
        rcases List.mem_pair.mp he' with rfl | rfl <;> rfl
      rw [←hpb,←hpc]
      exact hsucc _ _ h

/-- Two edges of numbered blocks have different numbers. -/
theorem edgeId_injective (num : Numbering g.toBlockGraph) {e e' : Edge} (he : g.Reached e.pred)
    (he' : g.Reached e'.pred) (h : e.id num=e'.id num) : e=e' := by
  have hlt := num.id_lt he
  have hlt' := num.id_lt he'
  obtain ⟨p,taken⟩ := e
  obtain ⟨p',taken'⟩ := e'
  cases taken <;> cases taken' <;> simp only [Edge.id,if_true,Bool.false_eq_true,if_false] at h
  · have hp : p=p' := num.id_injective he (Nat.add_left_cancel h)
    rw [hp]
  · exact absurd h (by dsimp only at hlt'; omega)
  · exact absurd h (by dsimp only at hlt; omega)
  · have hp : p=p' := num.id_injective he h
    rw [hp]

/-- **The sets `dom`.** After `find_levels` and `find_dom` the set of a block
that the root leads to holds the numbers of the blocks on all paths to it. -/
theorem setMember_findDom_iff (num : Numbering g.toBlockGraph) (level : ℕ → ℕ) {b : ℕ}
    (hb : g.Reached b) (i : ℕ) : setMember (findDom g num level b) i=true ↔
      ∃ a, num.id a=i ∧ ∀ path, Path g.succ (fun p => p=g.root) path b → a∈path := by
  have hstep : findDomBlock g num=visitSets (blockSucc g) num.id :=
    funext fun dom => funext fun b => findDomBlock_eq num dom b
  rw [findDom,hstep]
  refine setMember_visitSets_iff (topological_levelOrder g level) mem_blockSucc ?_ ?_ ?_ ?_ ?_
    ?_ ?_ ((mem_levelOrder g level b).mpr hb) i
  · rintro x rfl
    exact (mem_levelOrder g level _).mpr Relation.ReflTransGen.refl
  · intro x y hx hy
    rw [mem_levelOrder] at hx ⊢
    exact hx.tail hy
  · exact fun x hx => exists_path ((mem_levelOrder g level x).mp hx)
  · intro x hx
    have hlt := num.id_lt ((mem_levelOrder g level x).mp hx)
    rw [Numbering.nodewords]
    omega
  · exact fun x hx y _ h => num.id_injective ((mem_levelOrder g level x).mp hx) h
  · rintro x rfl
    exact Function.update_self _ _ _
  · exact fun x hx => Function.update_of_ne hx _ _

/-- **The sets `edom`.** After `find_levels` and `find_edom` the set of an edge
that the root leads to holds the numbers of the edges on all paths through it. -/
theorem setMember_findEdom_iff (num : Numbering g.toBlockGraph) (level : ℕ → ℕ) {e : Edge}
    (he : g.Reached e.pred) (i : ℕ) : setMember (findEdom g num level e) i=true ↔
      ∃ a : Edge, a.id num=i ∧
        ∀ path, Path (edgeSucc g) (fun e => e.pred=g.root) path e → a∈path := by
  have hstep : findEdomBlock g num=fun edom b =>
      [(⟨b,true⟩ : Edge),⟨b,false⟩].foldl (visitSets (edgeSucc g) (Edge.id num)) edom := by
    funext edom b
    rw [findEdomBlock,propedom_eq,propedom_eq]
    rfl
  rw [findEdom,hstep,←List.foldl_flatMap]
  refine setMember_visitSets_iff (topological_edgeOrder g level) (fun _ _ => Iff.rfl) ?_ ?_ ?_ ?_ ?_
    ?_ ?_ ((mem_edgeOrder level e).mpr he) i
  · intro x hx
    rw [mem_edgeOrder,hx]
    exact Relation.ReflTransGen.refl
  · intro x y hx hy
    rw [mem_edgeOrder] at hx ⊢
    exact hx.tail ((mem_succ_iff _ _).mpr ⟨x.taken,(mem_edgeSucc x y).mp hy⟩)
  · intro x hx
    exact exists_edgePath ((mem_edgeOrder level x).mp hx) x.taken
  · intro x hx
    have hlt := num.id_lt ((mem_edgeOrder level x).mp hx)
    have hid : x.id num<num.nEdges := by
      rw [Edge.id,Numbering.nEdges]
      split
      · omega
      · omega
    rw [Numbering.edgewords]
    omega
  · exact fun x hx y hy h =>
      edgeId_injective num ((mem_edgeOrder level x).mp hx) ((mem_edgeOrder level y).mp hy) h
  · intro x hx
    obtain ⟨p,taken⟩ := x
    dsimp only at hx
    subst hx
    cases taken with
    | false => exact Function.update_self _ _ _
    | true =>
      rw [Function.update_of_ne (by simp)]
      exact Function.update_self _ _ _
  · intro x hx
    rw [Function.update_of_ne (fun h => hx (by rw [h])),
      Function.update_of_ne (fun h => hx (by rw [h]))]

/-- **Dominators.** For every acyclic block graph the pass over the levels
leaves in the sets of blocks and edges that the root leads to exactly the
numbers of the blocks, and of the edges, that no path from the root avoids. -/
theorem findDom_findEdom_iff (g : FlowGraph) (num : Numbering g.toBlockGraph) (level : ℕ → ℕ) :
    (∀ b, g.Reached b → ∀ i, setMember (findDom g num level b) i=true ↔
      ∃ a, num.id a=i ∧ ∀ path, Path g.succ (fun p => p=g.root) path b → a∈path) ∧
    ∀ e : Edge, g.Reached e.pred → ∀ i, setMember (findEdom g num level e) i=true ↔
      ∃ a : Edge, a.id num=i ∧
        ∀ path, Path (edgeSucc g) (fun e => e.pred=g.root) path e → a∈path :=
  ⟨fun _ hb i => setMember_findDom_iff num level hb i,
    fun _ he i => setMember_findEdom_iff num level he i⟩

/-- A block that branches to two blocks, and one that returns. -/
def branchTo (jt jf : Option ℕ) : Block := ⟨[],⟨if jt.isSome then 21 else 6,none,none,0⟩,jt,jf,0,0⟩

/-- Where the blocks of the diamond branch to when the branch is taken. -/
def diamondJt : ℕ → Option ℕ
  | 0 => some 1
  | 1 => some 3
  | 2 => some 4
  | _ => none

/-- Where they branch to when it is not taken. -/
def diamondJf : ℕ → Option ℕ
  | 0 => some 2
  | 1 => some 4
  | 2 => some 3
  | _ => none

/-- Block 0 branches to blocks 1 and 2, and both branch to the blocks 3 and 4. -/
def diamond : FlowGraph where
  block := fun p => branchTo (diamondJt p) (diamondJf p)
  root := 0
  rank := fun p => 4-p
  rank_jt := by
    rintro (_ | _ | _ | p) c h <;> cases h <;> decide
  rank_jf := by
    rintro (_ | _ | _ | p) c h <;> cases h <;> decide
  both := by
    rintro (_ | _ | _ | p) <;> simp [branchTo,diamondJt,diamondJf]

/-- Both functions are right about block 3 of the diamond and the edge `et` out of it. -/
theorem findDom_findEdom_diamond :
    (∀ i, setMember (findDom diamond (numberBlks diamond.toBlockGraph) (fun _ => 0) 3) i=true ↔
      ∃ a, (numberBlks diamond.toBlockGraph).id a=i ∧
        ∀ path, Path diamond.succ (fun p => p=diamond.root) path 3 → a∈path) ∧
    ∀ i, setMember (findEdom diamond (numberBlks diamond.toBlockGraph) (fun _ => 0) ⟨3,true⟩) i=true ↔
      ∃ a : Edge, a.id (numberBlks diamond.toBlockGraph)=i ∧
        ∀ path, Path (edgeSucc diamond) (fun e => e.pred=diamond.root) path ⟨3,true⟩ → a∈path := by
  have hreached : diamond.Reached 3 := by
    refine Relation.ReflTransGen.tail (Relation.ReflTransGen.single (b:=1) ?_) ?_
    · show 1∈[2,1]
      decide
    · show 3∈[4,3]
      decide
  have h := findDom_findEdom_iff diamond (numberBlks diamond.toBlockGraph) fun _ => 0
  exact ⟨h.1 3 hreached,h.2 ⟨3,true⟩ hreached⟩

end AndroidPlatform.BpfDominators
