import Mathlib.Data.List.Basic
import Mathlib.Data.Nat.Notation

/-!
# Red-black trees with parent pointers

A node that is reached through parent pointers is a subtree together with the
path from it to the root. Linking, erasing and the two rebalancing loops work
on such positions. Where the pointer code would follow a null pointer there is
no result. The results are that the sequence of the values changes only by the
linked or erased value, and that no null pointer is followed in a red-black
tree and the tree stays one.
-/

namespace AndroidPlatform.RbTree

/-- The colour of a node. -/
inductive Color where
  | red
  | black
  deriving DecidableEq

/-- A tree of nodes that carry values. -/
inductive Tree (α : Type*) where
  | nil
  | node (color : Color) (left : Tree α) (value : α) (right : Tree α)

/-- Which child of its parent a node is. -/
inductive Side where
  | left
  | right
  deriving DecidableEq

/-- The parent of a position: its own data and the other child. -/
structure Frame (α : Type*) where
  /-- On which side of the parent the position is. -/
  side : Side
  /-- The colour of the parent. -/
  color : Color
  /-- The value of the parent. -/
  value : α
  /-- The other child of the parent. -/
  sibling : Tree α

variable {α : Type*}

namespace Tree

/-- Red nodes; a missing node counts as black. -/
def isRed : Tree α → Bool
  | nil => false
  | node .red _ _ _ => true
  | node .black _ _ _ => false

/-- `set_black`, where there is a node. -/
def setBlack : Tree α → Tree α
  | nil => nil
  | node _ l x r => node .black l x r

/-- The values from left to right. -/
def inorder : Tree α → List α
  | nil => []
  | node _ l x r => l.inorder++x::r.inorder

@[simp] theorem inorder_setBlack (t : Tree α) : t.setBlack.inorder=t.inorder := by
  cases t <;> rfl

@[simp] theorem isRed_setBlack (t : Tree α) : t.setBlack.isRed=false := by
  cases t <;> rfl

/-- The node with these children, the first of them on the given side. -/
def join (side : Side) (color : Color) (x : α) (t other : Tree α) : Tree α :=
  match side with
  | .left => node color t x other
  | .right => node color other x t

end Tree

open Tree

/-- The parent with a subtree at the position. -/
def Frame.attach (f : Frame α) (t : Tree α) : Tree α := join f.side f.color f.value t f.sibling

/-- The whole tree with a subtree at the position. -/
def plug (t : Tree α) : List (Frame α) → Tree α
  | [] => t
  | f::path => plug (f.attach t) path

/-- The values left of the position. -/
def before : List (Frame α) → List α
  | [] => []
  | f::path =>
    match f.side with
    | .left => before path
    | .right => before path++f.sibling.inorder++[f.value]

/-- The values right of the position. -/
def after : List (Frame α) → List α
  | [] => []
  | f::path =>
    match f.side with
    | .left => f.value::f.sibling.inorder++after path
    | .right => after path

theorem inorder_plug (t : Tree α) (path : List (Frame α)) :
    (plug t path).inorder=before path++t.inorder++after path := by
  induction path generalizing t with
  | nil => simp only [plug,before,after,List.nil_append,List.append_nil]
  | cons f path ih =>
    obtain ⟨side,color,x,sibling⟩ := f
    rw [plug,ih]
    cases side with
    | left => simp [Frame.attach,join,inorder,before,after]
    | right => simp [Frame.attach,join,inorder,before,after]

theorem plug_append (t : Tree α) (path rest : List (Frame α)) :
    plug t (path++rest)=plug (plug t path) rest := by
  induction path generalizing t with
  | nil => rfl
  | cons f path ih => exact ih _

/-! ## Insertion -/

/-- The two rotations that end the insertion: at the parent if the node is an
inner child, and at the grandparent. The missing case is a node that is no
child of its parent. -/
def rotateInserted (t : Tree α) (parent grandparent : Frame α) : Option (Tree α) :=
  if parent.side=grandparent.side then
    some (join grandparent.side .black parent.value t
      (join grandparent.side .red grandparent.value parent.sibling grandparent.sibling))
  else
    match t with
    | nil => none
    | node _ l x r =>
      match grandparent.side with
      | .left =>
        some (node .black (node .red parent.sibling parent.value l) x
          (node .red r grandparent.value grandparent.sibling))
      | .right =>
        some (node .black (node .red grandparent.sibling grandparent.value l) x
          (node .red r parent.value parent.sibling))

/-- `rb_insert_color` at a red node. -/
def insertColor : Tree α → List (Frame α) → Option (Tree α)
  | t,[] => some t.setBlack
  | t,[parent] => if parent.color=.red then none else some (parent.attach t).setBlack
  | t,parent::grandparent::path =>
    if parent.color=.red then
      if grandparent.sibling.isRed=true then
        insertColor (join grandparent.side .red grandparent.value
          (join parent.side .black parent.value t parent.sibling)
          grandparent.sibling.setBlack) path
      else (rotateInserted t parent grandparent).map fun t => (plug t path).setBlack
    else some (plug t (parent::grandparent::path)).setBlack

/-- `rb_link_node` of a new value, followed by `rb_insert_color`. -/
def link (x : α) (path : List (Frame α)) : Option (Tree α) := insertColor (node .red nil x nil) path

theorem inorder_rotateInserted {t t' : Tree α} {parent grandparent : Frame α}
    (h : rotateInserted t parent grandparent=some t') :
    t'.inorder=(grandparent.attach (parent.attach t)).inorder := by
  obtain ⟨pside,pcolor,px,psibling⟩ := parent
  obtain ⟨gside,gcolor,gx,gsibling⟩ := grandparent
  unfold rotateInserted at h
  split at h
  · next hside =>
    dsimp only at hside h
    subst hside
    cases h
    cases pside <;> simp [Frame.attach,join,inorder]
  · next hside =>
    dsimp only at hside h
    split at h
    · cases h
    · split at h
      · cases h
        cases pside with
        | left => exact absurd rfl hside
        | right => simp [Frame.attach,join,inorder]
      · cases h
        cases pside with
        | left => simp [Frame.attach,join,inorder]
        | right => exact absurd rfl hside

theorem inorder_insertColor {t t' : Tree α} {path : List (Frame α)}
    (h : insertColor t path=some t') : t'.inorder=before path++t.inorder++after path := by
  rw [←inorder_plug]
  induction t, path using insertColor.induct with
  | case1 t =>
    cases h
    rw [inorder_setBlack,plug]
  | case2 t parent hred =>
    rw [insertColor,if_pos hred] at h
    cases h
  | case3 t parent hred =>
    rw [insertColor,if_neg hred] at h
    cases h
    rw [inorder_setBlack,plug,plug]
  | case4 t parent grandparent path hred huncle ih =>
    rw [insertColor,if_pos hred,if_pos huncle] at h
    rw [ih h,inorder_plug,inorder_plug]
    obtain ⟨pside,pcolor,px,psibling⟩ := parent
    obtain ⟨gside,gcolor,gx,gsibling⟩ := grandparent
    cases pside <;> cases gside <;> simp [join,inorder,before,after]
  | case5 t parent grandparent path hred huncle =>
    rw [insertColor,if_pos hred,if_neg huncle] at h
    obtain ⟨u,hu,rfl⟩ := Option.map_eq_some_iff.mp h
    rw [inorder_setBlack,inorder_plug,inorder_rotateInserted hu,←inorder_plug]
    rfl
  | case6 t parent grandparent path hred =>
    rw [insertColor,if_neg hred] at h
    cases h
    rw [inorder_setBlack]

/-! ## Erasure -/

/-- What the second half of a round of `rb_erase_color` leads to. -/
inductive Mended (α : Type*) where
  /-- The loop goes on at the parent. -/
  | up (t : Tree α)
  /-- The loop ends with the parent's subtree rebuilt. -/
  | done (t : Tree α)

/-- The subtree of a mended parent. -/
def Mended.tree : Mended α → Tree α
  | .up t => t
  | .done t => t

/-- The second half of a round of `rb_erase_color`, with `other` the black
sibling of the position. -/
def mend (parent : Frame α) (t : Tree α) : Option (Mended α) :=
  match parent.sibling with
  | nil => none
  | node _ l x r =>
    match parent.side with
    | .left =>
      if l.isRed=false ∧ r.isRed=false then
        some (.up (node parent.color t parent.value (node .red l x r)))
      else if r.isRed=false then
        match l with
        | nil => none
        | node _ ll y lr =>
          some (.done (node parent.color (node .black t parent.value ll) y (node .black lr x r)))
      else some (.done (node parent.color (node .black t parent.value l) x r.setBlack))
    | .right =>
      if l.isRed=false ∧ r.isRed=false then
        some (.up (node parent.color (node .red l x r) parent.value t))
      else if l.isRed=false then
        match r with
        | nil => none
        | node _ rl y rr =>
          some (.done (node parent.color (node .black l x rl) y (node .black rr parent.value t)))
      else some (.done (node parent.color l.setBlack x (node .black r parent.value t)))

/-- The rotation of a red sibling above the parent: the parent's new frame and
that of the sibling over it. -/
def rotateRed (parent : Frame α) (l : Tree α) (x : α) (r : Tree α) : Frame α×Frame α :=
  match parent.side with
  | .left => (⟨.left,.red,parent.value,l⟩,⟨.left,.black,x,r⟩)
  | .right => (⟨.right,.red,parent.value,r⟩,⟨.right,.black,x,l⟩)

/-- `rb_erase_color` at a position that is one black node short. Below a red
sibling the parent turns red, so that the loop ends after that round. -/
def eraseColor : Tree α → List (Frame α) → Option (Tree α)
  | t,[] => some t.setBlack
  | t,parent::path =>
    if t.isRed=true then some (plug t.setBlack (parent::path))
    else
      match parent.sibling with
      | nil => none
      | node .red l x r =>
        match mend (rotateRed parent l x r).1 t with
        | none => none
        | some (.up u) => some (plug u.setBlack ((rotateRed parent l x r).2::path))
        | some (.done u) => some (plug u ((rotateRed parent l x r).2::path)).setBlack
      | node .black _ _ _ =>
        match mend parent t with
        | none => none
        | some (.up u) => eraseColor u path
        | some (.done u) => some (plug u path).setBlack

/-- The leftmost node below a node: its colour, value and right child, and the
path to it. -/
def leftmost (color : Color) (l : Tree α) (x : α) (r : Tree α) (path : List (Frame α)) :
    Color×α×Tree α×List (Frame α) :=
  match l with
  | nil => (color,x,r,path)
  | node c ll y lr => leftmost c ll y lr (⟨.left,color,x,r⟩::path)

/-- The end of `rb_erase`: a node of this colour is gone, and its only child
stands at its position. -/
def finishErase (color : Color) (child : Tree α) (path : List (Frame α)) : Option (Tree α) :=
  if color=.black then eraseColor child path else some (plug child path)

/-- `rb_erase` of the node at a position. With two children the next node takes
its place and its colour. -/
def eraseAt : Tree α → List (Frame α) → Option (Tree α)
  | nil,_ => none
  | node c nil _ r,path => finishErase c r path
  | node c (node lc ll lx lr) _ nil,path => finishErase c (node lc ll lx lr) path
  | node c (node lc ll lx lr) _ (node rc rl rx rr),path =>
    match leftmost rc rl rx rr [] with
    | (color,y,child,inner) =>
      finishErase color child (inner++⟨.right,c,y,node lc ll lx lr⟩::path)

theorem inorder_mend {parent : Frame α} {t : Tree α} {m : Mended α}
    (h : mend parent t=some m) : m.tree.inorder=(parent.attach t).inorder := by
  obtain ⟨side,color,x,sibling⟩ := parent
  unfold mend at h
  split at h
  · cases h
  · next heq =>
    dsimp only at heq h
    subst heq
    split at h
    · split_ifs at h
      · cases h
        simp [Mended.tree,Frame.attach,join,inorder]
      · split at h
        · cases h
        · cases h
          simp [Mended.tree,Frame.attach,join,inorder]
      · cases h
        simp [Mended.tree,Frame.attach,join,inorder]
    · split_ifs at h
      · cases h
        simp [Mended.tree,Frame.attach,join,inorder]
      · split at h
        · cases h
        · cases h
          simp [Mended.tree,Frame.attach,join,inorder]
      · cases h
        simp [Mended.tree,Frame.attach,join,inorder]

theorem inorder_rotateRed (parent : Frame α) (t l : Tree α) (x : α) (r : Tree α)
    (h : parent.sibling=node .red l x r) :
    ((rotateRed parent l x r).2.attach ((rotateRed parent l x r).1.attach t)).inorder=
      (parent.attach t).inorder := by
  obtain ⟨side,color,px,sibling⟩ := parent
  dsimp only at h
  subst h
  cases side <;> simp [rotateRed,Frame.attach,join,inorder]

theorem inorder_plug_congr {t u : Tree α} (h : t.inorder=u.inorder) (path : List (Frame α)) :
    (plug t path).inorder=(plug u path).inorder := by
  rw [inorder_plug,inorder_plug,h]

theorem inorder_eraseColor {t t' : Tree α} {path : List (Frame α)}
    (h : eraseColor t path=some t') : t'.inorder=before path++t.inorder++after path := by
  rw [←inorder_plug]
  induction path generalizing t with
  | nil =>
    rw [eraseColor] at h
    cases h
    rw [inorder_setBlack,plug]
  | cons parent path ih =>
    rw [eraseColor] at h
    split at h
    · cases h
      exact inorder_plug_congr (inorder_setBlack t) _
    · split at h
      · cases h
      · next l x r hsib =>
        have hrot := inorder_rotateRed parent t l x r hsib
        split at h
        · cases h
        · next u hu =>
          cases h
          rw [plug,plug]
          refine inorder_plug_congr ?_ path
          have hm := inorder_mend hu
          rw [←hrot]
          exact inorder_plug_congr ((inorder_setBlack u).trans hm) [_]
        · next u hu =>
          cases h
          rw [inorder_setBlack,plug,plug]
          refine inorder_plug_congr ?_ path
          have hm := inorder_mend hu
          rw [←hrot]
          exact inorder_plug_congr hm [_]
      · split at h
        · cases h
        · next u hu =>
          rw [ih h,plug]
          exact inorder_plug_congr (inorder_mend hu) path
        · next u hu =>
          cases h
          rw [inorder_setBlack,plug]
          exact inorder_plug_congr (inorder_mend hu) path

theorem plug_leftmost (color : Color) (l : Tree α) (x : α) (r : Tree α) (path : List (Frame α)) :
    plug (node (leftmost color l x r path).1 nil (leftmost color l x r path).2.1
      (leftmost color l x r path).2.2.1) (leftmost color l x r path).2.2.2=
      plug (node color l x r) path := by
  induction l generalizing color x r path with
  | nil => rfl
  | node c ll y lr ih _ => exact ih c y lr _

theorem before_leftmost (color : Color) (l : Tree α) (x : α) (r : Tree α)
    (path : List (Frame α)) :
    before (leftmost color l x r path).2.2.2=before path := by
  induction l generalizing color x r path with
  | nil => rfl
  | node c ll y lr ih _ => exact ih c y lr _

theorem inorder_finishErase {color : Color} {child t' : Tree α} {path : List (Frame α)}
    (h : finishErase color child path=some t') :
    t'.inorder=before path++child.inorder++after path := by
  unfold finishErase at h
  split at h
  · exact inorder_eraseColor h
  · cases h
    exact inorder_plug child path

theorem before_append (path rest : List (Frame α)) :
    before (path++rest)=before rest++before path := by
  induction path with
  | nil => simp only [List.nil_append,before,List.append_nil]
  | cons f path ih =>
    obtain ⟨side,color,x,sibling⟩ := f
    cases side <;> simp [before,ih]

theorem after_append (path rest : List (Frame α)) :
    after (path++rest)=after path++after rest := by
  induction path with
  | nil => rfl
  | cons f path ih =>
    obtain ⟨side,color,x,sibling⟩ := f
    cases side <;> simp [after,ih]

theorem inorder_eraseAt {c : Color} {l r t' : Tree α} {x : α} {path : List (Frame α)}
    (h : eraseAt (node c l x r) path=some t') :
    t'.inorder=before path++(l.inorder++r.inorder)++after path := by
  cases l with
  | nil =>
    rw [eraseAt] at h
    exact inorder_finishErase h
  | node lc ll lx lr =>
    cases r with
    | nil =>
      rw [eraseAt] at h
      rw [inorder_finishErase h,inorder,List.append_nil]
    | node rc rl rx rr =>
      rw [eraseAt] at h
      have hplug := plug_leftmost rc rl rx rr []
      have hbefore := before_leftmost rc rl rx rr []
      revert h hplug hbefore
      generalize leftmost rc rl rx rr []=found
      obtain ⟨color,y,child,inner⟩ := found
      intro h hplug hbefore
      have hin : (node rc rl rx rr).inorder=y::child.inorder++after inner := by
        have hcong := congrArg inorder hplug
        rw [inorder_plug] at hcong
        dsimp only at hcong hbefore
        rw [hbefore,before] at hcong
        simpa [inorder,plug] using hcong.symm
      dsimp only at hbefore
      rw [inorder_finishErase h,before_append,after_append,hbefore,hin]
      simp [before,after]

/-! ## Positions -/

/-- The path of a search from a node down: the comparison tells on which side
of a value to go on, and the search stops at an equal value or at a missing
node. -/
def descend (compare : α → Ordering) : Tree α → List (Frame α) → Tree α×List (Frame α)
  | nil,path => (nil,path)
  | node c l x r,path =>
    match compare x with
    | .lt => descend compare l (⟨.left,c,x,r⟩::path)
    | .gt => descend compare r (⟨.right,c,x,l⟩::path)
    | .eq => (node c l x r,path)

/-- The last node that was visited on a path. -/
def parent : List (Frame α) → Option α
  | [] => none
  | f::_ => some f.value

/-- `rb_first` below a node. -/
def first : Tree α → Option α
  | nil => none
  | node _ nil x _ => some x
  | node _ (node c l y r) _ _ => first (node c l y r)

/-- `rb_last` below a node. -/
def last : Tree α → Option α
  | nil => none
  | node _ _ x nil => some x
  | node _ _ _ (node c l y r) => last (node c l y r)

/-- The first parent above a position that has it on this side. -/
def climb (side : Side) : List (Frame α) → Option α
  | [] => none
  | f::path => if f.side=side then some f.value else climb side path

/-- `rb_next` of a position. -/
def nextAt : Tree α → List (Frame α) → Option α
  | node _ _ _ (node c l y r),_ => first (node c l y r)
  | _,path => climb .left path

/-- `rb_prev` of a position. -/
def prevAt : Tree α → List (Frame α) → Option α
  | node _ (node c l y r) _ _,_ => last (node c l y r)
  | _,path => climb .right path

theorem first_eq (t : Tree α) : first t=t.inorder.head? := by
  induction t using first.induct with
  | case1 => rfl
  | case2 => rfl
  | case3 _ c l y r _ _ ih =>
    rw [first,ih]
    simp [inorder]

theorem last_eq (t : Tree α) : last t=t.inorder.getLast? := by
  induction t using last.induct with
  | case1 => rfl
  | case2 => simp [last,inorder]
  | case3 _ _ _ c l y r ih =>
    rw [last,ih]
    simp [inorder,List.getLast?_append,List.getLast?_cons]

theorem climb_left_eq (path : List (Frame α)) : climb .left path=(after path).head? := by
  induction path with
  | nil => rfl
  | cons f path ih =>
    obtain ⟨side,color,x,sibling⟩ := f
    cases side with
    | left => rfl
    | right => exact ih

theorem climb_right_eq (path : List (Frame α)) : climb .right path=(before path).getLast? := by
  induction path with
  | nil => rfl
  | cons f path ih =>
    obtain ⟨side,color,x,sibling⟩ := f
    cases side with
    | left => exact ih
    | right => simp [climb,before]

theorem nextAt_eq (c : Color) (l : Tree α) (x : α) (r : Tree α) (path : List (Frame α)) :
    nextAt (node c l x r) path=(r.inorder++after path).head? := by
  cases r with
  | nil => exact climb_left_eq path
  | node rc rl rx rr =>
    rw [nextAt,first_eq]
    simp [inorder]

theorem prevAt_eq (c : Color) (l : Tree α) (x : α) (r : Tree α) (path : List (Frame α)) :
    prevAt (node c l x r) path=(before path++l.inorder).getLast? := by
  cases l with
  | nil =>
    rw [prevAt,climb_right_eq,inorder,List.append_nil]
    intro _ _ _ _ _ _ _ h
    cases h
  | node lc ll lx lr =>
    rw [prevAt,last_eq]
    simp [inorder,List.getLast?_append,List.getLast?_cons]

theorem plug_descend (compare : α → Ordering) (t : Tree α) (path : List (Frame α)) :
    plug (descend compare t path).1 (descend compare t path).2=plug t path := by
  induction t generalizing path with
  | nil => rfl
  | node c l x r ihl ihr =>
    rw [descend]
    split
    · exact ihl _
    · exact ihr _
    · rfl

theorem descend_found {compare : α → Ordering} {t : Tree α} {path path' : List (Frame α)}
    {c : Color} {l : Tree α} {x : α} {r : Tree α}
    (h : descend compare t path=(node c l x r,path')) : compare x=.eq := by
  induction t generalizing path with
  | nil =>
    rw [descend] at h
    cases h
  | node c' l' x' r' ihl ihr =>
    rw [descend] at h
    split at h
    · exact ihl h
    · exact ihr h
    · next heq =>
      cases h
      exact heq

/-- A comparison that agrees with an order of the values. -/
structure Monotone (compare : α → Ordering) (values : List α) : Prop where
  /-- Everything left of a smaller value is smaller. -/
  left : ∀ l x r, values=l++x::r → compare x=.gt → ∀ y∈l, compare y=.gt
  /-- Everything right of a greater value is greater. -/
  right : ∀ l x r, values=l++x::r → compare x=.lt → ∀ y∈r, compare y=.lt

/-- A search that misses stands between the smaller and the greater values. -/
theorem descend_missed {compare : α → Ordering} {t : Tree α} {path path' : List (Frame α)}
    (hmono : Monotone compare (plug t path).inorder)
    (hbefore : ∀ y∈before path, compare y=.gt) (hafter : ∀ y∈after path, compare y=.lt)
    (h : descend compare t path=(nil,path')) :
    (∀ y∈before path', compare y=.gt) ∧ ∀ y∈after path', compare y=.lt := by
  induction t generalizing path with
  | nil =>
    rw [descend] at h
    cases h
    exact ⟨hbefore,hafter⟩
  | node c l x r ihl ihr =>
    have hin : (plug (node c l x r) path).inorder=
        (before path++l.inorder)++x::(r.inorder++after path) := by
      rw [inorder_plug]
      simp [inorder]
    rw [descend] at h
    split at h
    · next hlt =>
      refine @ihl (⟨.left,c,x,r⟩::path) hmono hbefore ?_ h
      intro y hy
      change y∈x::(r.inorder++after path) at hy
      rcases List.mem_cons.mp hy with rfl|hy
      · exact hlt
      · exact hmono.right _ x _ hin hlt y hy
    · next hgt =>
      refine @ihr (⟨.right,c,x,l⟩::path) hmono ?_ hafter h
      intro y hy
      change y∈before path++l.inorder++[x] at hy
      rcases List.mem_append.mp hy with hy|hy
      · exact hmono.left _ x _ hin hgt y hy
      · rw [List.mem_singleton.mp hy]
        exact hgt
    · cases h

theorem descend_mem {compare : α → Ordering} {t : Tree α} {path path' : List (Frame α)}
    {c : Color} {l : Tree α} {x : α} {r : Tree α}
    (h : descend compare t path=(node c l x r,path')) : x∈t.inorder := by
  induction t generalizing path with
  | nil =>
    rw [descend] at h
    cases h
  | node c' l' x' r' ihl ihr =>
    rw [descend] at h
    split at h
    · exact List.mem_append_left _ (ihl h)
    · exact List.mem_append_right _ (List.mem_cons_of_mem _ (ihr h))
    · cases h
      exact List.mem_append_right _ List.mem_cons_self

/-- The values from the last visited node on: those right of the place of the
search, or one more. -/
theorem parent_split (path : List (Frame α)) :
    ∃ l r, before path++after path=l++r ∧ parent path=r.head? ∧
      (l=before path ∧ r=after path ∨ ∃ x, before path=l++[x] ∧ r=x::after path) := by
  cases path with
  | nil => exact ⟨[],[],rfl,rfl,Or.inl ⟨rfl,rfl⟩⟩
  | cons f path =>
    obtain ⟨side,color,x,sibling⟩ := f
    cases side with
    | left => exact ⟨_,_,rfl,rfl,Or.inl ⟨rfl,rfl⟩⟩
    | right =>
      refine ⟨before path++sibling.inorder,x::after path,?_,rfl,Or.inr ⟨x,rfl,rfl⟩⟩
      simp [before,after]

section Values

variable [DecidableEq α]

/-- The position of a node that is given by its value. -/
def focus (p : α) : Tree α → List (Frame α) → Option (Tree α×List (Frame α))
  | nil,_ => none
  | node c l x r,path =>
    if x=p then some (node c l x r,path)
    else (focus p l (⟨.left,c,x,r⟩::path)).or (focus p r (⟨.right,c,x,l⟩::path))

/-- `rb_erase` of a node that is given by its value. -/
def erase (p : α) (t : Tree α) : Option (Tree α) :=
  (focus p t []).bind fun position => eraseAt position.1 position.2

/-- `rb_next` of a node that is given by its value. -/
def next (p : α) (t : Tree α) : Option α :=
  (focus p t []).bind fun position => nextAt position.1 position.2

/-- `rb_prev` of a node that is given by its value. -/
def prev (p : α) (t : Tree α) : Option α :=
  (focus p t []).bind fun position => prevAt position.1 position.2

theorem focus_sound {p : α} {t u : Tree α} {path path' : List (Frame α)}
    (h : focus p t path=some (u,path')) :
    (∃ c l r, u=node c l p r) ∧ plug u path'=plug t path := by
  induction t generalizing path with
  | nil => cases h
  | node c l x r ihl ihr =>
    rw [focus] at h
    split at h
    · next heq =>
      cases h
      exact ⟨⟨c,l,r,by rw [heq]⟩,rfl⟩
    · rcases Option.or_eq_some_iff.mp h with h|h
      · exact ihl h
      · exact ihr h.2

theorem focus_complete {p : α} {t : Tree α} (path : List (Frame α)) (hp : p∈t.inorder) :
    ∃ u path', focus p t path=some (u,path') := by
  induction t generalizing path with
  | nil => cases hp
  | node c l x r ihl ihr =>
    rw [focus]
    split
    · exact ⟨_,_,rfl⟩
    · next hne =>
      rcases List.mem_append.mp hp with hp|hp
      · obtain ⟨u,path',hu⟩ := ihl (⟨.left,c,x,r⟩::path) hp
        exact ⟨u,path',by rw [hu]; rfl⟩
      · rcases List.mem_cons.mp hp with hp|hp
        · exact absurd hp.symm hne
        · obtain ⟨u,path',hu⟩ := ihr (⟨.right,c,x,l⟩::path) hp
          cases hl : focus p l (⟨.left,c,x,r⟩::path) with
          | none => exact ⟨u,path',by rw [hu]; rfl⟩
          | some v => exact ⟨v.1,v.2,rfl⟩

/-- A value that occurs once is found where it occurs. -/
theorem focus_split {p : α} {t : Tree α} {l r : List α} (hin : t.inorder=l++p::r)
    (hnodup : t.inorder.Nodup) :
    ∃ c tl tr path, focus p t []=some (node c tl p tr,path) ∧
      plug (node c tl p tr) path=t ∧ l=before path++tl.inorder ∧ r=tr.inorder++after path := by
  have hmem : p∈t.inorder := by
    rw [hin]
    exact List.mem_append_right _ List.mem_cons_self
  obtain ⟨u,path,hfocus⟩ := focus_complete [] hmem
  obtain ⟨⟨c,tl,tr,rfl⟩,hplug⟩ := focus_sound hfocus
  have hin' : t.inorder=(before path++tl.inorder)++p::(tr.inorder++after path) := by
    rw [←show plug (node c tl p tr) path=t from hplug,inorder_plug]
    simp [inorder]
  have hapart := hnodup
  rw [hin,List.nodup_append] at hapart
  have hpl : p∉l := fun hp => hapart.2.2 p hp p List.mem_cons_self rfl
  have hpr : p∉r := (List.nodup_cons.mp hapart.2.1).1
  have hsplit : l=before path++tl.inorder ∧ r=tr.inorder++after path := by
    obtain ⟨hl,-,hr⟩ := (List.append_cons_inj_of_notMem hpl hpr).mp (hin.symm.trans hin')
    exact ⟨hl,hr⟩
  exact ⟨c,tl,tr,path,hfocus,hplug,hsplit.1,hsplit.2⟩

theorem next_eq {p : α} {t : Tree α} {l r : List α} (hin : t.inorder=l++p::r)
    (hnodup : t.inorder.Nodup) : next p t=r.head? := by
  obtain ⟨c,tl,tr,path,hfocus,-,-,hr⟩ := focus_split hin hnodup
  rw [next,hfocus,Option.bind_some,nextAt_eq,hr]

theorem prev_eq {p : α} {t : Tree α} {l r : List α} (hin : t.inorder=l++p::r)
    (hnodup : t.inorder.Nodup) : prev p t=l.getLast? := by
  obtain ⟨c,tl,tr,path,hfocus,-,hl,-⟩ := focus_split hin hnodup
  rw [prev,hfocus,Option.bind_some,prevAt_eq,hl]

end Values

/-! ## Balance -/

/-- No red node has a red child, and every way down meets this many black
nodes. -/
inductive Balanced : Tree α → ℕ → Prop
  | nil : Balanced nil 0
  | red {l r : Tree α} {x : α} {n : ℕ} : Balanced l n → Balanced r n → l.isRed=false →
      r.isRed=false → Balanced (node .red l x r) n
  | black {l r : Tree α} {x : α} {n : ℕ} : Balanced l n → Balanced r n →
      Balanced (node .black l x r) (n+1)

/-- A red-black tree: balanced, with a black root. -/
def IsRb (t : Tree α) : Prop := (∃ n, Balanced t n) ∧ t.isRed=false

/-- The parent is red. -/
def headRed : List (Frame α) → Bool
  | [] => false
  | f::_ => decide (f.color=.red)

/-- A path that a balanced subtree of this height completes. -/
def Fits : List (Frame α) → ℕ → Prop
  | [],_ => True
  | f::path,n =>
    Balanced f.sibling n ∧
      match f.color with
      | .red => f.sibling.isRed=false ∧ path≠[] ∧ headRed path=false ∧ Fits path n
      | .black => Fits path (n+1)

theorem Balanced.setBlack_of_red {t : Tree α} {n : ℕ} (h : Balanced t n) (hred : t.isRed=true) :
    Balanced t.setBlack (n+1) := by
  cases h with
  | nil => cases hred
  | red hl hr _ _ => exact .black hl hr
  | black _ _ => cases hred

theorem Balanced.setBlack_of_black {t : Tree α} {n : ℕ} (h : Balanced t n)
    (hblack : t.isRed=false) : Balanced t.setBlack n := by
  cases h with
  | nil => exact .nil
  | red _ _ _ _ => cases hblack
  | black hl hr => exact .black hl hr

theorem Balanced.isRb_setBlack {t : Tree α} {n : ℕ} (h : Balanced t n) : IsRb t.setBlack := by
  refine ⟨?_,isRed_setBlack t⟩
  cases hred : t.isRed with
  | false => exact ⟨n,h.setBlack_of_black hred⟩
  | true => exact ⟨n+1,h.setBlack_of_red hred⟩

theorem Balanced.join_red {t u : Tree α} {x : α} {n : ℕ} (side : Side) (ht : Balanced t n)
    (hu : Balanced u n) (htr : t.isRed=false) (hur : u.isRed=false) :
    Balanced (join side .red x t u) n := by
  cases side with
  | left => exact .red ht hu htr hur
  | right => exact .red hu ht hur htr

theorem Balanced.join_black {t u : Tree α} {x : α} {n : ℕ} (side : Side) (ht : Balanced t n)
    (hu : Balanced u n) : Balanced (join side .black x t u) (n+1) := by
  cases side with
  | left => exact .black ht hu
  | right => exact .black hu ht

@[simp] theorem isRed_join_red (side : Side) (x : α) (t u : Tree α) :
    (join side .red x t u).isRed=true := by
  cases side <;> rfl

@[simp] theorem isRed_join_black (side : Side) (x : α) (t u : Tree α) :
    (join side .black x t u).isRed=false := by
  cases side <;> rfl

theorem Balanced.plug {t : Tree α} {n : ℕ} {path : List (Frame α)} (ht : Balanced t n)
    (hp : Fits path n) (hred : headRed path=true → t.isRed=false) :
    ∃ m, Balanced (plug t path) m := by
  induction path generalizing t n with
  | nil => exact ⟨n,ht⟩
  | cons f path ih =>
    obtain ⟨side,color,x,sibling⟩ := f
    cases color with
    | red =>
      obtain ⟨hs,hsr,-,hhead,hfit⟩ := hp
      exact ih (ht.join_red side hs (hred rfl) hsr) hfit fun h => by rw [hhead] at h; cases h
    | black =>
      obtain ⟨hs,hfit⟩ := hp
      exact ih (ht.join_black side hs) hfit fun _ => isRed_join_black side x t sibling

/-- The root of a path that fits is black. -/
theorem isRed_plug {t : Tree α} {n : ℕ} {path : List (Frame α)} (hp : Fits path n)
    (hne : path≠[]) : (plug t path).isRed=false := by
  induction path generalizing t n with
  | nil => exact absurd rfl hne
  | cons f path ih =>
    obtain ⟨side,color,x,sibling⟩ := f
    cases color with
    | red =>
      obtain ⟨-,-,hne',-,hfit⟩ := hp
      exact ih hfit hne'
    | black =>
      cases path with
      | nil => exact isRed_join_black side x t sibling
      | cons g path => exact ih hp.2 (List.cons_ne_nil g path)

/-- The positions of a red-black tree. -/
theorem IsRb.position {t : Tree α} {path : List (Frame α)} (h : IsRb (plug t path)) :
    ∃ n, Balanced t n ∧ Fits path n ∧ (headRed path=true → t.isRed=false) := by
  induction path generalizing t with
  | nil =>
    obtain ⟨⟨n,hn⟩,-⟩ := h
    exact ⟨n,hn,trivial,nofun⟩
  | cons f path ih =>
    obtain ⟨side,color,x,sibling⟩ := f
    obtain ⟨n,hb,hfit,hhead⟩ := @ih (Frame.attach ⟨side,color,x,sibling⟩ t) h
    have hparts : ∃ m, Balanced t m ∧ Balanced sibling m ∧
        ((color=.red ∧ n=m ∧ t.isRed=false ∧ sibling.isRed=false) ∨
          (color=.black ∧ n=m+1)) := by
      cases side with
      | left =>
        cases hb with
        | red hl hr hlr hrr => exact ⟨n,hl,hr,Or.inl ⟨rfl,rfl,hlr,hrr⟩⟩
        | black hl hr => exact ⟨_,hl,hr,Or.inr ⟨rfl,rfl⟩⟩
      | right =>
        cases hb with
        | red hl hr hlr hrr => exact ⟨n,hr,hl,Or.inl ⟨rfl,rfl,hrr,hlr⟩⟩
        | black hl hr => exact ⟨_,hr,hl,Or.inr ⟨rfl,rfl⟩⟩
    obtain ⟨m,ht,hs,hcolor⟩ := hparts
    refine ⟨m,ht,?_⟩
    rcases hcolor with ⟨rfl,rfl,htr,hsr⟩|⟨rfl,rfl⟩
    · have hheadRed : headRed path=false := by
        cases hred : headRed path with
        | false => rfl
        | true =>
          have hblack := hhead hred
          rw [Frame.attach,isRed_join_red] at hblack
          cases hblack
      have hne : path≠[] := by
        intro hnil
        subst hnil
        have hroot := h.2
        rw [RbTree.plug,RbTree.plug,Frame.attach,isRed_join_red] at hroot
        cases hroot
      exact ⟨⟨hs,hsr,hne,hheadRed,hfit⟩,fun _ => htr⟩
    · exact ⟨⟨hs,hfit⟩,nofun⟩

theorem rotateInserted_balanced {t : Tree α} {n : ℕ} {parent grandparent : Frame α}
    (ht : Balanced t n) (htr : t.isRed=true) (hp : Balanced parent.sibling n)
    (hpr : parent.sibling.isRed=false) (hg : Balanced grandparent.sibling n)
    (hgr : grandparent.sibling.isRed=false) :
    ∃ u, rotateInserted t parent grandparent=some u ∧ Balanced u (n+1) ∧ u.isRed=false := by
  unfold rotateInserted
  split
  · exact ⟨_,rfl,ht.join_black _ (hp.join_red _ hg hpr hgr),isRed_join_black _ _ _ _⟩
  · cases ht with
    | nil => cases htr
    | black _ _ => cases htr
    | red hl hr hlr hrr =>
      dsimp only
      split
      · exact ⟨_,rfl,.black (.red hp hl hpr hlr) (.red hr hg hrr hgr),rfl⟩
      · exact ⟨_,rfl,.black (.red hg hl hgr hlr) (.red hr hp hrr hpr),rfl⟩

/-- `rb_insert_color` ends with a red-black tree. -/
theorem insertColor_isRb {t : Tree α} {n : ℕ} {path : List (Frame α)} (ht : Balanced t n)
    (htr : t.isRed=true) (hp : Fits path n) : ∃ t', insertColor t path=some t' ∧ IsRb t' := by
  induction t, path using insertColor.induct generalizing n with
  | case1 t => exact ⟨_,rfl,ht.isRb_setBlack⟩
  | case2 t parent hred =>
    obtain ⟨-,hrest⟩ := hp
    rw [hred] at hrest
    exact absurd rfl hrest.2.1
  | case3 t parent hred =>
    rw [insertColor,if_neg hred]
    obtain ⟨m,hm⟩ := ht.plug hp fun h => absurd (of_decide_eq_true h) hred
    exact ⟨_,rfl,hm.isRb_setBlack⟩
  | case4 t parent grandparent path hred huncle ih =>
    rw [insertColor,if_pos hred,if_pos huncle]
    obtain ⟨hps,hrest⟩ := hp
    rw [hred] at hrest
    obtain ⟨hpsr,-,hhead,hgs,hgrest⟩ := hrest
    have hgcolor : grandparent.color=.black := by
      cases hc : grandparent.color with
      | red => rw [headRed,hc] at hhead; cases hhead
      | black => rfl
    rw [hgcolor] at hgrest
    refine ih ?_ (isRed_join_red _ _ _ _) hgrest
    exact (ht.join_black _ hps).join_red _ (hgs.setBlack_of_red huncle) (isRed_join_black _ _ _ _)
      (isRed_setBlack _)
  | case5 t parent grandparent path hred huncle =>
    rw [insertColor,if_pos hred,if_neg huncle]
    obtain ⟨hps,hrest⟩ := hp
    rw [hred] at hrest
    obtain ⟨hpsr,-,hhead,hgs,hgrest⟩ := hrest
    have hgcolor : grandparent.color=.black := by
      cases hc : grandparent.color with
      | red => rw [headRed,hc] at hhead; cases hhead
      | black => rfl
    rw [hgcolor] at hgrest
    obtain ⟨u,hu,hub,hur⟩ :=
      rotateInserted_balanced ht htr hps hpsr hgs (Bool.eq_false_iff.mpr huncle)
    obtain ⟨m,hm⟩ := hub.plug hgrest fun _ => hur
    rw [hu]
    exact ⟨_,rfl,hm.isRb_setBlack⟩
  | case6 t parent grandparent path hred =>
    rw [insertColor,if_neg hred]
    obtain ⟨m,hm⟩ := ht.plug hp fun h => absurd (of_decide_eq_true h) hred
    exact ⟨_,rfl,hm.isRb_setBlack⟩

/-- Linking a new value at an empty position of a red-black tree. -/
theorem IsRb.link {path : List (Frame α)} (h : IsRb (RbTree.plug nil path)) (x : α) :
    ∃ t, link x path=some t ∧ IsRb t ∧ t.inorder=before path++x::after path := by
  obtain ⟨n,hn,hfit,-⟩ := h.position
  cases hn
  obtain ⟨t,ht,hrb⟩ :=
    @insertColor_isRb α (node .red nil x nil) 0 path (.red .nil .nil rfl rfl) rfl hfit
  refine ⟨t,ht,hrb,?_⟩
  rw [inorder_insertColor ht]
  simp [inorder]

/-- What a mended parent means for the rest of the path: the loop goes on with
a position that is again one black node short, or the tree is balanced. -/
def MendedFits (path : List (Frame α)) (n : ℕ) (red : Bool) : Mended α → Prop
  | .up u => u.isRed=red ∧ (red=true → Balanced u.setBlack n ∧ Fits path n) ∧
      (red=false → Balanced u n ∧ Fits path (n+1))
  | .done u => ∃ m, Balanced (plug u path) m

/-- A node in the colour of the parent, at the parent's place. -/
theorem plug_parentColor {parent : Frame α} {path : List (Frame α)} {n : ℕ} {l r : Tree α} {x : α}
    (hp : Fits (parent::path) (n+1)) (hl : Balanced l (n+1)) (hr : Balanced r (n+1))
    (hlr : l.isRed=false) (hrr : r.isRed=false) :
    ∃ m, Balanced (plug (node parent.color l x r) path) m := by
  obtain ⟨-,hrest⟩ := hp
  cases hc : parent.color with
  | red =>
    rw [hc] at hrest
    obtain ⟨-,-,hhead,hfit⟩ := hrest
    exact Balanced.plug (.red hl hr hlr hrr) hfit fun h => by rw [hhead] at h; cases h
  | black =>
    rw [hc] at hrest
    exact Balanced.plug (.black hl hr) hrest fun _ => rfl

/-- The round that recolours the sibling. -/
theorem mendedFits_up {parent : Frame α} {path : List (Frame α)} {n : ℕ} {l r : Tree α} {x : α}
    (hp : Fits (parent::path) (n+1)) (hl : Balanced l n) (hr : Balanced r n) :
    MendedFits path (n+1) (decide (parent.color=.red)) (.up (node parent.color l x r)) := by
  obtain ⟨-,hrest⟩ := hp
  cases hc : parent.color with
  | red =>
    rw [hc] at hrest
    exact ⟨rfl,fun _ => ⟨.black hl hr,hrest.2.2.2⟩,nofun⟩
  | black =>
    rw [hc] at hrest
    exact ⟨rfl,nofun,fun _ => ⟨.black hl hr,hrest⟩⟩

theorem mend_fits {parent : Frame α} {path : List (Frame α)} {t : Tree α} {n : ℕ}
    (ht : Balanced t n) (hp : Fits (parent::path) (n+1)) (hsib : parent.sibling.isRed=false) :
    ∃ m, mend parent t=some m ∧
      MendedFits path (n+1) (decide (parent.color=.red)) m := by
  have hs := hp.1
  unfold mend
  cases hsibling : parent.sibling with
  | nil =>
    rw [hsibling] at hs
    cases hs
  | node c l x r =>
    rw [hsibling] at hs hsib
    cases hs with
    | red _ _ _ _ => cases hsib
    | black hl hr =>
      dsimp only
      cases parent.side with
      | left =>
        dsimp only
        by_cases hboth : l.isRed=false ∧ r.isRed=false
        · rw [if_pos hboth]
          exact ⟨_,rfl,mendedFits_up hp ht (.red hl hr hboth.1 hboth.2)⟩
        · rw [if_neg hboth]
          by_cases hrr : r.isRed=false
          · rw [if_pos hrr]
            cases hl with
            | nil => exact absurd ⟨rfl,hrr⟩ hboth
            | black _ _ => exact absurd ⟨rfl,hrr⟩ hboth
            | red hll hlr _ _ =>
              exact ⟨_,rfl,plug_parentColor hp (.black ht hll) (.black hlr hr) rfl rfl⟩
          · rw [if_neg hrr]
            have hred : r.isRed=true := by simpa using hrr
            exact ⟨_,rfl,plug_parentColor hp (.black ht hl) (hr.setBlack_of_red hred) rfl
              (isRed_setBlack r)⟩
      | right =>
        dsimp only
        by_cases hboth : l.isRed=false ∧ r.isRed=false
        · rw [if_pos hboth]
          exact ⟨_,rfl,mendedFits_up hp (.red hl hr hboth.1 hboth.2) ht⟩
        · rw [if_neg hboth]
          by_cases hlr : l.isRed=false
          · rw [if_pos hlr]
            cases hr with
            | nil => exact absurd ⟨hlr,rfl⟩ hboth
            | black _ _ => exact absurd ⟨hlr,rfl⟩ hboth
            | red hrl hrr _ _ =>
              exact ⟨_,rfl,plug_parentColor hp (.black hl hrl) (.black hrr ht) rfl rfl⟩
          · rw [if_neg hlr]
            have hred : l.isRed=true := by simpa using hlr
            exact ⟨_,rfl,plug_parentColor hp (hl.setBlack_of_red hred) (.black hr ht)
              (isRed_setBlack l) rfl⟩

/-- A red sibling, and so a black parent: the rotated path fits as before. -/
theorem fits_rotateRed {parent : Frame α} {path : List (Frame α)} {n : ℕ} {l r : Tree α} {x : α}
    (hp : Fits (parent::path) n) (hsib : parent.sibling=node .red l x r) :
    Fits ((rotateRed parent l x r).1::(rotateRed parent l x r).2::path) n ∧
      (rotateRed parent l x r).1.sibling.isRed=false ∧
      (rotateRed parent l x r).1.color=.red := by
  obtain ⟨hs,hrest⟩ := hp
  rw [hsib] at hs hrest
  cases hs with
  | red hl hr hlr hrr =>
    cases hc : parent.color with
    | red =>
      rw [hc] at hrest
      cases hrest.1
    | black =>
      rw [hc] at hrest
      unfold rotateRed
      cases parent.side with
      | left => exact ⟨⟨hl,hlr,List.cons_ne_nil _ _,rfl,hr,hrest⟩,hlr,rfl⟩
      | right => exact ⟨⟨hr,hrr,List.cons_ne_nil _ _,rfl,hl,hrest⟩,hrr,rfl⟩

/-- `rb_erase_color` ends with a red-black tree. -/
theorem eraseColor_isRb {t : Tree α} {n : ℕ} {path : List (Frame α)}
    (hred : t.isRed=true → Balanced t.setBlack (n+1)) (hblack : t.isRed=false → Balanced t n)
    (hp : Fits path (n+1)) : ∃ t', eraseColor t path=some t' ∧ IsRb t' := by
  induction path generalizing t n with
  | nil =>
    refine ⟨t.setBlack,rfl,?_⟩
    cases hc : t.isRed with
    | true => exact ⟨⟨_,hred hc⟩,isRed_setBlack t⟩
    | false => exact (hblack hc).isRb_setBlack
  | cons parent path ih =>
    rw [eraseColor]
    by_cases hc : t.isRed=true
    · rw [if_pos hc]
      exact ⟨_,rfl,(hred hc).plug hp fun _ => isRed_setBlack t,
        isRed_plug hp (List.cons_ne_nil _ _)⟩
    · rw [if_neg hc]
      have ht := hblack (Bool.eq_false_iff.mpr hc)
      cases hsib : parent.sibling with
      | nil =>
        have hs := hp.1
        rw [hsib] at hs
        cases hs
      | node c l x r =>
        cases c with
        | red =>
          obtain ⟨hfit,hnear,hcolor⟩ := fits_rotateRed hp hsib
          obtain ⟨m,hm,hmend⟩ := mend_fits ht hfit hnear
          dsimp only
          rw [hm]
          cases m with
          | up u =>
            rw [MendedFits,hcolor] at hmend
            obtain ⟨-,hup,-⟩ := hmend
            obtain ⟨hu,hrest⟩ := hup rfl
            exact ⟨_,rfl,hu.plug hrest fun _ => isRed_setBlack u,
              isRed_plug hrest (List.cons_ne_nil _ _)⟩
          | done u =>
            obtain ⟨k,hk⟩ := hmend
            exact ⟨_,rfl,hk.isRb_setBlack⟩
        | black =>
          obtain ⟨m,hm,hmend⟩ := mend_fits ht hp (by rw [hsib]; rfl)
          dsimp only
          rw [hm]
          cases m with
          | up u =>
            obtain ⟨hu,hredu,hblacku⟩ := hmend
            cases hcolor : decide (parent.color=.red) with
            | true =>
              rw [hcolor] at hu
              obtain ⟨hset,hrest⟩ := hredu hcolor
              exact ih (fun _ => hset) (fun hf => by rw [hu] at hf; cases hf) hrest
            | false =>
              rw [hcolor] at hu
              obtain ⟨hub,hrest⟩ := hblacku hcolor
              exact ih (fun hf => by rw [hu] at hf; cases hf) (fun _ => hub) hrest
          | done u =>
            obtain ⟨k,hk⟩ := hmend
            exact ⟨_,rfl,hk.isRb_setBlack⟩

/-- Values play no role for the balance of a path. -/
theorem fits_value {side : Side} {c : Color} {x y : α} {sibling : Tree α}
    {inner path : List (Frame α)} {n : ℕ}
    (h : Fits (inner++⟨side,c,x,sibling⟩::path) n) :
    Fits (inner++⟨side,c,y,sibling⟩::path) n := by
  induction inner generalizing n with
  | nil => exact h
  | cons f inner ih =>
    obtain ⟨hs,hrest⟩ := h
    refine ⟨hs,?_⟩
    cases hc : f.color with
    | red =>
      rw [hc] at hrest
      obtain ⟨hsr,-,hhead,hfit⟩ := hrest
      refine ⟨hsr,by simp,?_,ih hfit⟩
      cases inner with
      | nil => exact hhead
      | cons g inner => exact hhead
    | black =>
      rw [hc] at hrest
      exact ih hrest

theorem finishErase_isRb {color : Color} {l child : Tree α} {x : α} {path : List (Frame α)}
    {n : ℕ} (hb : Balanced (node color nil x child) n ∨ Balanced (node color child x l) n)
    (hp : Fits path n) (hne : color=.red → path≠[]) :
    ∃ t, finishErase color child path=some t ∧ IsRb t := by
  rw [finishErase]
  cases color with
  | red =>
    rw [if_neg (by decide)]
    have hchild : Balanced child n ∧ child.isRed=false := by
      rcases hb with hb|hb
      · cases hb with
        | red _ hr _ hrr => exact ⟨hr,hrr⟩
      · cases hb with
        | red hl _ hlr _ => exact ⟨hl,hlr⟩
    exact ⟨_,rfl,hchild.1.plug hp fun _ => hchild.2,isRed_plug hp (hne rfl)⟩
  | black =>
    rw [if_pos rfl]
    have hchild : ∃ m, n=m+1 ∧ Balanced child m := by
      rcases hb with hb|hb
      · cases hb with
        | black _ hr => exact ⟨_,rfl,hr⟩
      · cases hb with
        | black hl _ => exact ⟨_,rfl,hl⟩
    obtain ⟨m,rfl,hm⟩ := hchild
    exact eraseColor_isRb (fun hred => hm.setBlack_of_red hred) (fun _ => hm) hp

theorem IsRb.eraseAt {c : Color} {l r : Tree α} {x : α} {path : List (Frame α)}
    (h : IsRb (RbTree.plug (node c l x r) path)) :
    ∃ t, eraseAt (node c l x r) path=some t ∧ IsRb t := by
  obtain ⟨n,hn,hfit,hhead⟩ := h.position
  have hne : c=.red → path≠[] := by
    intro hc hnil
    subst hc hnil
    cases h.2
  cases l with
  | nil => exact finishErase_isRb (l := nil) (Or.inl hn) hfit hne
  | node lc ll lx lr =>
    cases r with
    | nil => exact finishErase_isRb (Or.inr hn) hfit hne
    | node rc rl rx rr =>
      rw [RbTree.eraseAt]
      have hplug := plug_leftmost rc rl rx rr []
      revert hplug
      generalize leftmost rc rl rx rr []=found
      obtain ⟨color,y,child,inner⟩ := found
      intro hplug
      dsimp only at hplug ⊢
      have hwhole : RbTree.plug (node color nil y child)
          (inner++⟨.right,c,x,node lc ll lx lr⟩::path)=
          RbTree.plug (node c (node lc ll lx lr) x (node rc rl rx rr)) path := by
        rw [plug_append,hplug]
        rfl
      rw [←hwhole] at h
      obtain ⟨m,hm,hfit',-⟩ := h.position
      exact finishErase_isRb (l := nil) (Or.inl hm) (fits_value hfit') fun _ => by simp

/-- Erasing a value that occurs once in a red-black tree. -/
theorem IsRb.erase [DecidableEq α] {t : Tree α} (h : IsRb t) {p : α} {l r : List α}
    (hin : t.inorder=l++p::r) (hnodup : t.inorder.Nodup) :
    ∃ t', erase p t=some t' ∧ IsRb t' ∧ t'.inorder=l++r := by
  obtain ⟨c,tl,tr,path,hfocus,hplug,hl,hr⟩ := focus_split hin hnodup
  rw [←hplug] at h
  obtain ⟨t',ht',hrb⟩ := h.eraseAt
  refine ⟨t',by rw [RbTree.erase,hfocus]; exact ht',hrb,?_⟩
  rw [inorder_eraseAt ht',hl,hr]
  simp

end AndroidPlatform.RbTree
