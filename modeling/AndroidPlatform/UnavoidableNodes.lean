import Mathlib.Logic.Function.Basic
import Mathlib.Data.List.Basic

/-!
# What every path to a node meets

A graph is searched for the nodes that a path from some source cannot avoid
on its way to a node. One sweep over the nodes is enough when every node
comes after its predecessors: a node that is visited has met the property
itself or has kept it from all its predecessors, and hands what it has on to
its successors by conjunction. The property of a node is arbitrary; for the
property of being one particular node the result says which nodes dominate.
-/

namespace AndroidPlatform.UnavoidableNodes

variable {α : Type*} (succ : α → List α) (source : α → Prop) (hit : α → Prop)

/-- A path from a source to a node. -/
inductive Path : List α → α → Prop where
  /-- A source is a path by itself. -/
  | source (x : α) : source x → Path [x] x
  /-- A path goes on to a successor of its last node. -/
  | snoc (path : List α) (x y : α) : Path path x → y∈succ x → Path (path++[y]) y

/-- Every path to a node meets the property. -/
def Unavoidable (x : α) : Prop := ∀ path, Path succ source path x → ∃ y∈path, hit y

variable {succ source hit}

/-- A path to a node meets the property at the node or before it. -/
theorem unavoidable_iff (x : α) : Unavoidable succ source hit x ↔
    hit x ∨ ¬source x ∧ ∀ p, x∈succ p → Unavoidable succ source hit p := by
  constructor
  · intro h
    by_cases hx : hit x
    · exact .inl hx
    · refine .inr ⟨?_,?_⟩
      · intro hs
        obtain ⟨y,hy,hit⟩ := h [x] (.source x hs)
        rw [List.mem_singleton.mp hy] at hit
        exact hx hit
      · intro p hp path hpath
        obtain ⟨y,hy,hit⟩ := h (path++[x]) (.snoc path p x hpath hp)
        rcases List.mem_append.mp hy with hy | hy
        · exact ⟨y,hy,hit⟩
        · rw [List.mem_singleton.mp hy] at hit
          exact absurd hit hx
  · intro h path hpath
    cases hpath with
    | source x hs =>
      rcases h with h | h
      · exact ⟨x,List.mem_singleton_self x,h⟩
      · exact absurd hs h.1
    | snoc path p x hpath hp =>
      rcases h with h | h
      · exact ⟨x,List.mem_append_right path (List.mem_singleton_self x),h⟩
      · obtain ⟨y,hy,hit⟩ := h.2 p hp path hpath
        exact ⟨y,List.mem_append_left [x] hy,hit⟩

/-- A path stays within every set that holds the sources and their successors. -/
theorem Path.mem_of_closed {C : α → Prop} (hsource : ∀ x, source x → C x)
    (hsucc : ∀ x y, C x → y∈succ x → C y) {path : List α} {x : α}
    (h : Path succ source path x) : C x ∧ ∀ y∈path, C y := by
  induction h with
  | source x hs =>
    refine ⟨hsource x hs,fun y hy => ?_⟩
    rw [List.mem_singleton.mp hy]
    exact hsource x hs
  | snoc path x y _ hy ih =>
    refine ⟨hsucc x y ih.1 hy,fun z hz => ?_⟩
    rcases List.mem_append.mp hz with hz | hz
    · exact ih.2 z hz
    · rw [List.mem_singleton.mp hz]
      exact hsucc x y ih.1 hy

variable [DecidableEq α] (succ) (hit)

/-- Hand what a node has on to one successor. -/
def handOn (x : α) (S : α → Prop) (y : α) : α → Prop := Function.update S y (S y ∧ S x)

/-- Visit a node: it meets its own property, then hands on what it has. -/
def visit (S : α → Prop) (x : α) : α → Prop :=
  (succ x).foldl (handOn x) (Function.update S x (S x ∨ hit x))

/-- Visit the nodes one after the other. -/
def sweep (S : α → Prop) (order : List α) : α → Prop := order.foldl (visit succ hit) S

variable {succ hit}

theorem foldl_handOn (x : α) (l : List α) (S : α → Prop) (hx : x∉l) (y : α) :
    l.foldl (handOn x) S y ↔ S y ∧ (y∈l → S x) := by
  induction l generalizing S with
  | nil => simp
  | cons z l ih =>
    have hxz : x≠z := fun h => hx (h ▸ List.mem_cons_self)
    rw [List.foldl_cons,ih (handOn x S z) (fun h => hx (List.mem_cons_of_mem z h))]
    have hself : handOn x S z x=S x := Function.update_of_ne hxz _ _
    rw [hself]
    by_cases hy : y=z
    · subst hy
      have hown : handOn x S y y=(S y ∧ S x) := Function.update_self _ _ _
      rw [hown]
      simp only [List.mem_cons,true_or,forall_const]
      exact ⟨fun h => h.1,fun h => ⟨h,fun _ => h.2⟩⟩
    · have hother : handOn x S z y=S y := Function.update_of_ne hy _ _
      rw [hother]
      simp only [List.mem_cons,hy,false_or]

/-- What one visit does to every node. -/
theorem visit_iff {x : α} (hx : x∉succ x) (S : α → Prop) (y : α) :
    visit succ hit S x y ↔
      if y=x then S x ∨ hit x else S y ∧ (y∈succ x → S x ∨ hit x) := by
  have hself : Function.update S x (S x ∨ hit x) x=(S x ∨ hit x) := Function.update_self _ _ _
  rw [visit,foldl_handOn x (succ x) _ hx,hself]
  by_cases hy : y=x
  · subst hy
    rw [if_pos rfl,hself]
    exact ⟨fun h => h.1,fun h => ⟨h,fun hmem => absurd hmem hx⟩⟩
  · have hother : Function.update S x (S x ∨ hit x) y=S y := Function.update_of_ne hy _ _
    rw [if_neg hy,hother]

/-- An order in which no node leads back to itself or to an earlier one. -/
structure Topological (succ : α → List α) (order : List α) : Prop where
  /-- No node occurs twice. -/
  nodup : order.Nodup
  /-- A node is no successor of itself. -/
  irrefl : ∀ x∈order, x∉succ x
  /-- A node is no successor of a later one. -/
  forward : order.Pairwise fun x y => x∉succ y

/-- What the nodes have when some of them have been visited: a visited node
knows its answer, the others what their visited predecessors say. -/
structure Swept (succ : α → List α) (source hit : α → Prop) (done : List α)
    (S : α → Prop) : Prop where
  /-- A visited node knows what every path to it meets. -/
  visited : ∀ x∈done, S x ↔ Unavoidable succ source hit x
  /-- Another node knows what the paths over visited predecessors meet. -/
  waiting : ∀ x, x∉done →
    (S x ↔ ¬source x ∧ ∀ p∈done, x∈succ p → Unavoidable succ source hit p)

/-- One visit: the predecessors of the node have all been visited. -/
theorem Swept.visit {done : List α} {S : α → Prop} (h : Swept succ source hit done S) {x : α}
    (hnew : x∉done) (hself : x∉succ x) (hback : ∀ y∈done, y∉succ x)
    (hpred : ∀ p, x∈succ p → p∈done ∨ Unavoidable succ source hit p) :
    Swept succ source hit (done++[x]) (visit succ hit S x) := by
  have hx : S x ∨ hit x ↔ Unavoidable succ source hit x := by
    rw [h.waiting x hnew,unavoidable_iff x,or_comm]
    refine or_congr_right (and_congr_right fun _ => ⟨fun hall p hp => ?_,fun hall p _ => hall p⟩)
    rcases hpred p hp with hd | hu
    · exact hall p hd hp
    · exact hu
  constructor
  · intro y hy
    rw [visit_iff hself]
    by_cases hyx : y=x
    · rw [if_pos hyx,hx,hyx]
    · rw [if_neg hyx]
      have hd : y∈done := by
        rcases List.mem_append.mp hy with hy | hy
        · exact hy
        · exact absurd (List.mem_singleton.mp hy) hyx
      rw [h.visited y hd]
      exact ⟨fun hu => hu.1,fun hu => ⟨hu,fun hmem => absurd hmem (hback y hd)⟩⟩
  · intro y hy
    have hyx : y≠x := fun he => hy (List.mem_append_right done (List.mem_singleton.mpr he))
    have hyd : y∉done := fun hd => hy (List.mem_append_left [x] hd)
    rw [visit_iff hself,if_neg hyx,h.waiting y hyd,hx]
    constructor
    · rintro ⟨⟨hs,hall⟩,hlast⟩
      refine ⟨hs,fun p hp hmem => ?_⟩
      rcases List.mem_append.mp hp with hp | hp
      · exact hall p hp hmem
      · rw [List.mem_singleton.mp hp] at hmem ⊢
        exact hlast hmem
    · rintro ⟨hs,hall⟩
      refine ⟨⟨hs,fun p hp => hall p (List.mem_append_left [x] hp)⟩,?_⟩
      exact hall x (List.mem_append_right done (List.mem_singleton_self x))

/-- **Sweep.** Visiting the nodes that the sources lead to in a topological
order tells for each of them what every path to it meets. -/
theorem sweep_iff {order : List α} (htop : Topological succ order)
    (hpred : ∀ p, p∉order → Unavoidable succ source hit p) {S : α → Prop}
    (hstart : ∀ x, S x ↔ ¬source x) {x : α} (hx : x∈order) :
    sweep succ hit S order x ↔ Unavoidable succ source hit x := by
  have hrun : ∀ (todo done : List α) (S : α → Prop), order=done++todo →
      Swept succ source hit done S → Swept succ source hit order (sweep succ hit S todo) := by
    intro todo
    induction todo with
    | nil =>
      intro done S horder h
      rw [horder,List.append_nil]
      exact h
    | cons x todo ih =>
      intro done S horder h
      have hmem : x∈order := horder ▸ List.mem_append_right done List.mem_cons_self
      have hnodup : (done++x::todo).Nodup := horder ▸ htop.nodup
      have hforward := horder ▸ htop.forward
      rw [List.nodup_append] at hnodup
      rw [List.pairwise_append] at hforward
      refine ih (done++[x]) _ (by rw [horder,List.append_assoc,List.singleton_append]) ?_
      refine h.visit (fun hd => hnodup.2.2 x hd x List.mem_cons_self rfl) (htop.irrefl x hmem)
        (fun y hy => hforward.2.2 y hy x List.mem_cons_self) ?_
      intro p hp
      by_cases hpo : p∈order
      · rw [horder] at hpo
        rcases List.mem_append.mp hpo with hd | hd
        · exact .inl hd
        · rcases List.mem_cons.mp hd with rfl | hd
          · exact absurd hp (htop.irrefl p hmem)
          · exact absurd hp ((List.pairwise_cons.mp hforward.2.1).1 p hd)
      · exact .inr (hpred p hpo)
  have hinit : Swept succ source hit [] S := by
    refine ⟨fun x hx => absurd hx List.not_mem_nil,fun x _ => ?_⟩
    rw [hstart x]
    exact ⟨fun h => ⟨h,fun p hp => absurd hp List.not_mem_nil⟩,fun h => h.1⟩
  exact (hrun order [] S (List.nil_append order).symm hinit).visited x hx

/-- The order in which a node hands on to its successors makes no difference. -/
theorem foldl_handOn_eq_visit {x : α} {l : List α} (hl : ∀ y, y∈l ↔ y∈succ x) (hx : x∉succ x)
    (S : α → Prop) :
    l.foldl (handOn x) (Function.update S x (S x ∨ hit x))=visit succ hit S x := by
  funext y
  refine propext ?_
  rw [visit,foldl_handOn x l _ (fun h => hx ((hl x).mp h)),foldl_handOn x (succ x) _ hx,hl y]

end AndroidPlatform.UnavoidableNodes
