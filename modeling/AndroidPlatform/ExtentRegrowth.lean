import AndroidPlatform.ExtentTree

/-!
# A tree in which a node was split

Half of the entries of a node are in a new block, and the parent has an index entry for it.
The level of that entry has one entry more, and no other level has changed. When the root
was split, there is a new level above all others.
-/

namespace AndroidPlatform.ExtentRegrowth

open ExtentHandle ExtentTree SortedTable FloorSearch

variable {fs fs' : Filsys} {root root' : ExtentNode} {depth m : ℕ}

/-- The nodes of the tree are distinct blocks, and all of them are in use. -/
structure Stored (fs : Filsys) (depth : ℕ) (root : ExtentNode) : Prop where
  nodup : ∀ {k}, k<depth → ((levelSlots fs.disk root k).map Slot.eiLeaf).Nodup
  disjoint : ∀ {j k a b}, j<k → k<depth → a∈levelSlots fs.disk root j →
    b∈levelSlots fs.disk root k → a.eiLeaf≠b.eiLeaf
  inUse : ∀ {k a}, k<depth → a∈levelSlots fs.disk root k → a.eiLeaf∈fs.blockMap

/-! ## Nodes by their keys -/

/-- A node whose entries stand in a level. -/
def NodeAt (disk : ℕ → ExtentNode) (root : ExtentNode) : ℕ → ExtentNode → Prop
  | 0,node => node=root
  | k+1,node => ∃ slot∈levelSlots disk root k, node=disk slot.eiLeaf

/-- There is one node with a key at its place. -/
theorem NodeAt.unique (hshape : Shaped fs depth root) {k : ℕ} (hk : k≤depth)
    {node other : ExtentNode} (hnode : NodeAt fs.disk root k node)
    (hother : NodeAt fs.disk root k other) {a b : Slot} (ha : a∈live node) (hb : b∈live other)
    (hkey : a.lblk=b.lblk) : node=other := by
  cases k with
  | zero => rw [hnode,hother]
  | succ k =>
    obtain ⟨slot,hslot,rfl⟩ := hnode
    obtain ⟨slot',hslot',rfl⟩ := hother
    rw [group_unique (hshape.sortedBy hk) hslot hslot' ha hb hkey]

theorem levelSlots_succ_congr {k : ℕ} {disk disk' : ℕ → ExtentNode}
    (h : levelSlots disk' root' k=levelSlots disk root k)
    (hnode : ∀ slot∈levelSlots disk root k, disk' slot.eiLeaf=disk slot.eiLeaf) :
    levelSlots disk' root' (k+1)=levelSlots disk root (k+1) := by
  rw [levelSlots,levelSlots,h]
  exact List.flatMap_congr fun slot hslot => by rw [hnode slot hslot]

/-- In a list without repeated blocks the other entries have other blocks. -/
theorem eiLeaf_ne {before after : List Slot} {slot other : Slot}
    (h : ((before++slot::after).map Slot.eiLeaf).Nodup) (hother : other∈before++after) :
    other.eiLeaf≠slot.eiLeaf := by
  rw [List.map_append,List.map_cons] at h
  have hperm := List.perm_middle.nodup_iff.mp h
  rw [List.nodup_cons,←List.map_append] at hperm
  intro heq
  exact hperm.1 (heq ▸ List.mem_map_of_mem hother)

/-! ## A node below the root -/

/-- The parent of the node that was split, in the root or in the block of an index entry of
the level above. -/
def ParentAt (fs fs' : Filsys) (root root' parent parent' : ExtentNode) : ℕ → Option ℕ → Prop
  | 0,blk => blk=none ∧ parent=root ∧ parent'=root'
  | k+1,blk => root'=root ∧ ∃ slot∈levelSlots fs.disk root k,
      blk=some slot.eiLeaf ∧ parent=fs.disk slot.eiLeaf ∧ parent'=fs'.disk slot.eiLeaf

/-- The parent has two index entries where it had one. -/
structure ParentGrown (parent parent' : ExtentNode) (before after : List Slot)
    (slot slot' link : Slot) : Prop where
  live : live parent=before++slot::after
  live' : ExtentTree.live parent'=before++slot'::link::after
  verify : ∀ {size}, extentHeaderVerify parent size=true → extentHeaderVerify parent' size=true
  depth : parent'.ehDepth=parent.ehDepth

/-- The node of `slot` was split, and the parent has `slot'` in its place and `link` for the
new node. -/
structure SplitBelow (fs fs' : Filsys) (root root' : ExtentNode) (depth m : ℕ)
    (before after : List Slot) (slot slot' link : Slot) : Prop where
  m_lt : m<depth
  lblk : slot'.lblk=slot.lblk
  eiLeaf : slot'.eiLeaf=slot.eiLeaf
  fresh : link.eiLeaf∉fs.blockMap
  halves : live (fs'.disk slot.eiLeaf)++live (fs'.disk link.eiLeaf)=live (fs.disk slot.eiLeaf)
  left : NodeOk fs.geometry.blocksize (depth-1-m) (fs'.disk slot.eiLeaf)
  right : NodeOk fs.geometry.blocksize (depth-1-m) (fs'.disk link.eiLeaf)
  rightKey : ((fs'.disk link.eiLeaf).slot 0).lblk=link.lblk
  parent : ∃ parent parent' blk, ParentAt fs fs' root root' parent parent' m blk ∧
    ParentGrown parent parent' before after slot slot' link ∧
    ∀ b, b≠link.eiLeaf → b≠slot.eiLeaf → blk≠some b → fs'.disk b=fs.disk b
  geometry : fs'.geometry=fs.geometry
  blockMap : fs'.blockMap=link.eiLeaf::fs.blockMap

/-- The first entry of a node with these entries. -/
theorem slot_zero {node : ExtentNode} {first : Slot} {rest : List Slot}
    (h : live node=first::rest) : 0 < node.ehEntries.toNat ∧ node.slot 0=first := by
  have hlen := length_live node
  rw [h,List.length_cons] at hlen
  have hpos : 0 < node.ehEntries.toNat := by omega
  have hhead := head?_live hpos
  rw [h,List.head?_cons,Option.some.injEq] at hhead
  exact ⟨hpos,hhead.symm⟩

/-- The parent has entries, and its first key is the old one. -/
theorem ParentGrown.first {parent parent' : ExtentNode} {before after : List Slot}
    {slot slot' link : Slot} (h : ParentGrown parent parent' before after slot slot' link)
    (hlblk : slot'.lblk=slot.lblk) :
    0 < parent'.ehEntries.toNat ∧ (parent'.slot 0).lblk=(parent.slot 0).lblk := by
  have hlive := h.live
  have hlive' := h.live'
  cases before with
  | nil =>
    obtain ⟨-,hfirst⟩ := slot_zero hlive
    obtain ⟨hpos,hfirst'⟩ := slot_zero hlive'
    exact ⟨hpos,by rw [hfirst,hfirst',hlblk]⟩
  | cons first rest =>
    obtain ⟨-,hfirst⟩ := slot_zero hlive
    obtain ⟨hpos,hfirst'⟩ := slot_zero hlive'
    exact ⟨hpos,by rw [hfirst,hfirst']⟩

namespace SplitBelow

variable {before after : List Slot} {slot slot' link : Slot}

/-- Where the entry stands in its level. -/
theorem mem (h : SplitBelow fs fs' root root' depth m before after slot slot' link) :
    slot∈levelSlots fs.disk root m := by
  obtain ⟨parent,parent',blk,hparent,hgrown,-⟩ := h.parent
  have hmem : slot∈live parent := by
    rw [hgrown.live]
    exact List.mem_append_right _ List.mem_cons_self
  cases m with
  | zero =>
    obtain ⟨-,rfl,-⟩ := hparent
    exact hmem
  | succ k =>
    obtain ⟨-,other,hother,-,rfl,-⟩ := hparent
    exact List.mem_flatMap.mpr ⟨other,hother,hmem⟩

/-- The nodes at other places have not changed. -/
theorem disk_eq (h : SplitBelow fs fs' root root' depth m before after slot slot' link)
    (hstored : Stored fs depth root) {k : ℕ} {other : Slot} (hk : k<depth)
    (hother : other∈levelSlots fs.disk root k) (hne : k≠m) (hne' : k+1≠m) :
    fs'.disk other.eiLeaf=fs.disk other.eiLeaf := by
  have hmem := h.mem
  obtain ⟨parent,parent',blk,hparent,-,hframe⟩ := h.parent
  have hlink : other.eiLeaf≠link.eiLeaf := by
    intro heq
    exact h.fresh (heq ▸ hstored.inUse hk hother)
  have hslot : other.eiLeaf≠slot.eiLeaf := by
    rcases Nat.lt_or_gt_of_ne hne with hlt | hgt
    · exact hstored.disjoint hlt h.m_lt hother hmem
    · exact (hstored.disjoint hgt hk hmem hother).symm
  refine hframe _ hlink hslot ?_
  cases m with
  | zero =>
    rw [hparent.1]
    exact nofun
  | succ j =>
    obtain ⟨-,grand,hgrand,rfl,-⟩ := hparent
    have hj : j<depth := by have := h.m_lt; omega
    rw [ne_eq,Option.some.injEq]
    rcases Nat.lt_or_gt_of_ne (show k≠j by omega) with hlt | hgt
    · exact (hstored.disjoint hlt hj hother hgrand).symm
    · exact hstored.disjoint hgt hk hgrand hother

/-- The levels above that of the entry have not changed. -/
theorem levelSlots_below (h : SplitBelow fs fs' root root' depth m before after slot slot' link)
    (hstored : Stored fs depth root) {k : ℕ} (hk : k < m) :
    levelSlots fs'.disk root' k=levelSlots fs.disk root k := by
  have hm := h.m_lt
  induction k with
  | zero =>
    obtain ⟨parent,parent',blk,hparent,-⟩ := h.parent
    cases m with
    | zero => omega
    | succ j => rw [levelSlots,levelSlots,hparent.1]
  | succ k ih =>
    exact levelSlots_succ_congr (ih (by omega)) fun other hother =>
      h.disk_eq hstored (by omega) hother (by omega) (by omega)

/-- The level of the entry has the new entry after it. -/
theorem levelSlots_at (h : SplitBelow fs fs' root root' depth m before after slot slot' link)
    (hstored : Stored fs depth root) :
    ∃ left right, levelSlots fs.disk root m=left++slot::right ∧
      levelSlots fs'.disk root' m=left++slot'::link::right := by
  have hm := h.m_lt
  obtain ⟨parent,parent',blk,hparent,hgrown,hframe⟩ := h.parent
  have hlive := hgrown.live
  have hlive' := hgrown.live'
  cases m with
  | zero =>
    obtain ⟨-,rfl,rfl⟩ := hparent
    exact ⟨before,after,hlive,hlive'⟩
  | succ k =>
    have hbelow := h.levelSlots_below hstored (Nat.lt_succ_self k)
    obtain ⟨-,grand,hgrand,rfl,rfl,rfl⟩ := hparent
    obtain ⟨pre,post,hsplit⟩ := List.append_of_mem hgrand
    have hother : ∀ other∈pre++post, fs'.disk other.eiLeaf=fs.disk other.eiLeaf := by
      intro other hother
      have hmem : other∈levelSlots fs.disk root k := by
        rw [hsplit]
        rcases List.mem_append.mp hother with hpre | hpost
        · exact List.mem_append_left _ hpre
        · exact List.mem_append_right _ (List.mem_cons_of_mem _ hpost)
      have hnodup := hstored.nodup (show k<depth by omega)
      rw [hsplit] at hnodup
      have hne := eiLeaf_ne hnodup hother
      refine hframe _ ?_ (hstored.disjoint (Nat.lt_succ_self k) hm hmem h.mem) ?_
      · intro heq
        exact h.fresh (heq ▸ hstored.inUse (by omega) hmem)
      · rw [ne_eq,Option.some.injEq]
        exact hne.symm
    have hgroup : ∀ {slots : List Slot}, (∀ other∈slots, other∈pre++post) →
        slots.flatMap (fun other => live (fs'.disk other.eiLeaf))=
          slots.flatMap fun other => live (fs.disk other.eiLeaf) :=
      fun hslots => List.flatMap_congr fun other hmem => by rw [hother other (hslots other hmem)]
    refine ⟨pre.flatMap (fun other => live (fs.disk other.eiLeaf))++before,
      after++post.flatMap fun other => live (fs.disk other.eiLeaf),?_,?_⟩
    · rw [levelSlots,hsplit,List.flatMap_append,List.flatMap_cons,hlive]
      simp
    · rw [levelSlots,hbelow,hsplit,List.flatMap_append,List.flatMap_cons,hlive',
        hgroup fun other hmem => List.mem_append_left _ hmem,
        hgroup fun other hmem => List.mem_append_right _ hmem]
      simp

/-- The nodes of the other entries of the level have not changed. -/
theorem disk_eq_at (h : SplitBelow fs fs' root root' depth m before after slot slot' link)
    (hstored : Stored fs depth root) {left right : List Slot}
    (hlevel : levelSlots fs.disk root m=left++slot::right) {other : Slot}
    (hother : other∈left++right) : fs'.disk other.eiLeaf=fs.disk other.eiLeaf := by
  have hm := h.m_lt
  have hmem : other∈levelSlots fs.disk root m := by
    rw [hlevel]
    rcases List.mem_append.mp hother with hleft | hright
    · exact List.mem_append_left _ hleft
    · exact List.mem_append_right _ (List.mem_cons_of_mem _ hright)
  have hnodup := hstored.nodup hm
  rw [hlevel] at hnodup
  obtain ⟨parent,parent',blk,hparent,-,hframe⟩ := h.parent
  refine hframe _ ?_ (eiLeaf_ne hnodup hother) ?_
  · intro heq
    exact h.fresh (heq ▸ hstored.inUse hm hmem)
  · cases m with
    | zero =>
      rw [hparent.1]
      exact nofun
    | succ k =>
      obtain ⟨-,grand,hgrand,rfl,-⟩ := hparent
      rw [ne_eq,Option.some.injEq]
      exact hstored.disjoint (Nat.lt_succ_self k) hm hgrand hmem

/-- The levels below that of the entry have not changed. -/
theorem levelSlots_above (h : SplitBelow fs fs' root root' depth m before after slot slot' link)
    (hstored : Stored fs depth root) {k : ℕ} (hm : m<k) (hk : k≤depth) :
    levelSlots fs'.disk root' k=levelSlots fs.disk root k := by
  induction k with
  | zero => omega
  | succ k ih =>
    by_cases heq : m=k
    · rw [←heq]
      obtain ⟨left,right,hlevel,hlevel'⟩ := h.levelSlots_at hstored
      have hgroup : ∀ {slots : List Slot}, (∀ other∈slots, other∈left++right) →
          slots.flatMap (fun other => live (fs'.disk other.eiLeaf))=
            slots.flatMap fun other => live (fs.disk other.eiLeaf) :=
        fun hslots => List.flatMap_congr fun other hmem => by
          rw [h.disk_eq_at hstored hlevel (hslots other hmem)]
      rw [levelSlots,levelSlots,hlevel,hlevel',List.flatMap_append,List.flatMap_append,
        List.flatMap_cons,List.flatMap_cons,List.flatMap_cons,h.eiLeaf,
        hgroup fun other hmem => List.mem_append_left _ hmem,
        hgroup fun other hmem => List.mem_append_right _ hmem,←List.append_assoc (live _) (live _),
        h.halves]
    · exact levelSlots_succ_congr (ih (by omega) (by omega)) fun other hother =>
        h.disk_eq hstored (by omega) hother (by omega) (by omega)

/-- The node of an index entry of the level above that of the split one. -/
theorem child_parent (h : SplitBelow fs fs' root root' depth m before after slot slot' link)
    (hshape : Shaped fs depth root) (hstored : Stored fs depth root) {k : ℕ} (hk : k+1=m)
    {other : Slot} (hother : other∈levelSlots fs.disk root k) :
    NodeOk fs.geometry.blocksize (depth-1-k) (fs'.disk other.eiLeaf) ∧
      ((fs'.disk other.eiLeaf).slot 0).lblk=other.lblk := by
  have hm := h.m_lt
  have hlt : k<depth := by omega
  obtain ⟨hnode,hkey⟩ := hshape.child hlt hother
  have hmem := h.mem
  obtain ⟨parent,parent',blk,hparent,hgrown,hframe⟩ := h.parent
  obtain ⟨hpos,hfirst⟩ := hgrown.first h.lblk
  cases hk
  obtain ⟨-,grand,hgrand,rfl,rfl,rfl⟩ := hparent
  by_cases heq : other.eiLeaf=grand.eiLeaf
  · rw [heq] at hnode hkey ⊢
    exact ⟨⟨hgrown.verify hnode.verify,by rw [hgrown.depth]; exact hnode.depth,hpos⟩,
      hfirst.trans hkey⟩
  · have hsame : fs'.disk other.eiLeaf=fs.disk other.eiLeaf := by
      refine hframe _ ?_ (hstored.disjoint (Nat.lt_succ_self k) hm hother hmem) ?_
      · intro hlink
        exact h.fresh (hlink ▸ hstored.inUse hlt hother)
      · rw [ne_eq,Option.some.injEq]
        exact fun hblk => heq hblk.symm
    rw [hsame]
    exact ⟨hnode,hkey⟩

/-- The first key of the node that was split is the old one. -/
theorem leftKey (h : SplitBelow fs fs' root root' depth m before after slot slot' link)
    (hshape : Shaped fs depth root) : ((fs'.disk slot.eiLeaf).slot 0).lblk=slot.lblk := by
  obtain ⟨-,hkey⟩ := hshape.child h.m_lt h.mem
  have hhalves := h.halves
  have hhead := head?_live h.left.nonempty
  obtain ⟨rest,hrest⟩ := List.head?_eq_some_iff.mp hhead
  rw [hrest] at hhalves
  rw [←hkey,(slot_zero hhalves.symm).2]

/-- The tree after the split. -/
theorem shaped (h : SplitBelow fs fs' root root' depth m before after slot slot' link)
    (hshape : Shaped fs depth root) (hstored : Stored fs depth root) :
    Shaped fs' depth root' := by
  have hm := h.m_lt
  have hdeep := h.levelSlots_above hstored hm le_rfl
  obtain ⟨left,right,hlevel,hlevel'⟩ := h.levelSlots_at hstored
  refine ⟨?_,fun hdepth => ?_,?_,by rw [hdeep]; exact hshape.sorted,by
    rw [hdeep]; exact hshape.len_pos⟩
  · obtain ⟨parent,parent',blk,hparent,hgrown,-⟩ := h.parent
    cases m with
    | zero =>
      obtain ⟨-,rfl,rfl⟩ := hparent
      exact hgrown.verify hshape.root_verify
    | succ k =>
      rw [hparent.1]
      exact hshape.root_verify
  · obtain ⟨parent,parent',blk,hparent,hgrown,-⟩ := h.parent
    cases m with
    | zero =>
      obtain ⟨-,rfl,rfl⟩ := hparent
      exact (hgrown.first h.lblk).1
    | succ k =>
      rw [hparent.1]
      exact hshape.root_nonempty hdepth
  · intro k other hk hother
    rw [h.geometry]
    rcases Nat.lt_trichotomy k m with hlt | heq | hgt
    · rw [h.levelSlots_below hstored hlt] at hother
      by_cases hnext : k+1=m
      · exact h.child_parent hshape hstored hnext hother
      · rw [h.disk_eq hstored hk hother (by omega) hnext]
        exact hshape.child hk hother
    · rw [heq] at hk hother ⊢
      have hold : ∀ other∈left++right,
          NodeOk fs.geometry.blocksize (depth-1-m) (fs'.disk other.eiLeaf) ∧
            ((fs'.disk other.eiLeaf).slot 0).lblk=other.lblk := by
        intro other hmem
        rw [h.disk_eq_at hstored hlevel hmem]
        refine hshape.child hk ?_
        rw [hlevel]
        rcases List.mem_append.mp hmem with hleft | hright
        · exact List.mem_append_left _ hleft
        · exact List.mem_append_right _ (List.mem_cons_of_mem _ hright)
      rw [hlevel'] at hother
      rcases List.mem_append.mp hother with hleft | hother
      · exact hold other (List.mem_append_left _ hleft)
      · rcases List.mem_cons.mp hother with rfl | hother
        · rw [h.eiLeaf,h.lblk]
          exact ⟨h.left,h.leftKey hshape⟩
        · rcases List.mem_cons.mp hother with rfl | hright
          · exact ⟨h.right,h.rightKey⟩
          · exact hold other (List.mem_append_right _ hright)
    · rw [h.levelSlots_above hstored hgt hk.le] at hother
      rw [h.disk_eq hstored hk hother (by omega) (by omega)]
      exact hshape.child hk hother

/-- The blocks of a level after the split are those before, and that of the new node. -/
theorem eiLeaf_mem (h : SplitBelow fs fs' root root' depth m before after slot slot' link)
    (hstored : Stored fs depth root) {k : ℕ} (hk : k<depth) {other : Slot}
    (hother : other∈levelSlots fs'.disk root' k) :
    k=m ∧ other.eiLeaf=link.eiLeaf ∨
      ∃ old∈levelSlots fs.disk root k, old.eiLeaf=other.eiLeaf := by
  rcases Nat.lt_trichotomy k m with hlt | heq | hgt
  · rw [h.levelSlots_below hstored hlt] at hother
    exact Or.inr ⟨other,hother,rfl⟩
  · obtain ⟨left,right,hlevel,hlevel'⟩ := h.levelSlots_at hstored
    rw [heq,hlevel'] at hother
    rw [heq,hlevel]
    rcases List.mem_append.mp hother with hleft | hother
    · exact Or.inr ⟨other,List.mem_append_left _ hleft,rfl⟩
    · rcases List.mem_cons.mp hother with rfl | hother
      · exact Or.inr ⟨slot,List.mem_append_right _ List.mem_cons_self,h.eiLeaf.symm⟩
      · rcases List.mem_cons.mp hother with rfl | hright
        · exact Or.inl ⟨rfl,rfl⟩
        · exact Or.inr ⟨other,List.mem_append_right _ (List.mem_cons_of_mem _ hright),rfl⟩
  · rw [h.levelSlots_above hstored hgt hk.le] at hother
    exact Or.inr ⟨other,hother,rfl⟩

theorem stored (h : SplitBelow fs fs' root root' depth m before after slot slot' link)
    (hstored : Stored fs depth root) : Stored fs' depth root' := by
  have hfresh : ∀ {k other}, k<depth → other∈levelSlots fs.disk root k →
      other.eiLeaf≠link.eiLeaf := by
    intro k other hk hother heq
    exact h.fresh (heq ▸ hstored.inUse hk hother)
  refine ⟨?_,?_,?_⟩
  · intro k hk
    rcases Nat.lt_trichotomy k m with hlt | heq | hgt
    · rw [h.levelSlots_below hstored hlt]
      exact hstored.nodup hk
    · obtain ⟨left,right,hlevel,hlevel'⟩ := h.levelSlots_at hstored
      have hnodup := hstored.nodup hk
      have hlink : ∀ other∈left++slot::right, other.eiLeaf≠link.eiLeaf := by
        intro other hother
        rw [←hlevel,←heq] at hother
        exact hfresh hk hother
      rw [heq,hlevel] at hnodup
      rw [heq,hlevel']
      have hperm : (left++slot'::link::right).Perm (link::(left++slot'::right)) := by
        rw [show left++slot'::link::right=(left++[slot'])++link::right by simp,
          show left++slot'::right=(left++[slot'])++right by simp]
        exact List.perm_middle
      rw [(hperm.map Slot.eiLeaf).nodup_iff,List.map_cons,List.nodup_cons]
      rw [List.map_append,List.map_cons] at hnodup ⊢
      rw [h.eiLeaf]
      refine ⟨fun hmem => ?_,hnodup⟩
      rw [←List.map_cons (f := Slot.eiLeaf),←List.map_append] at hmem
      obtain ⟨other,hother,heq⟩ := List.mem_map.mp hmem
      exact hlink other hother heq
    · rw [h.levelSlots_above hstored hgt hk.le]
      exact hstored.nodup hk
  · intro j k a b hjk hk ha hb
    rcases h.eiLeaf_mem hstored (hjk.trans hk) ha with ⟨hj,hlink⟩ | ⟨a',ha',heqa⟩
    · rcases h.eiLeaf_mem hstored hk hb with ⟨hkm,-⟩ | ⟨b',hb',heqb⟩
      · omega
      · rw [hlink,←heqb]
        exact (hfresh hk hb').symm
    · rcases h.eiLeaf_mem hstored hk hb with ⟨-,hlink⟩ | ⟨b',hb',heqb⟩
      · rw [hlink,←heqa]
        exact hfresh (hjk.trans hk) ha'
      · rw [←heqa,←heqb]
        exact hstored.disjoint hjk hk ha' hb'
  · intro k a hk ha
    rw [h.blockMap]
    rcases h.eiLeaf_mem hstored hk ha with ⟨-,hlink⟩ | ⟨a',ha',heq⟩
    · rw [hlink]
      exact List.mem_cons_self
    · rw [←heq]
      exact List.mem_cons_of_mem _ (hstored.inUse hk ha')

end SplitBelow

/-! ## The root -/

/-- The entries of the root are in a new node, and the root has one entry for it. -/
structure SplitRoot (fs fs' : Filsys) (root root' : ExtentNode) (depth : ℕ) (link : Slot) :
    Prop where
  live : live root'=[link]
  verify : extentHeaderVerify root' 60=true
  fresh : link.eiLeaf∉fs.blockMap
  entries : ExtentTree.live (fs'.disk link.eiLeaf)=ExtentTree.live root
  node : NodeOk fs.geometry.blocksize depth (fs'.disk link.eiLeaf)
  key : ((fs'.disk link.eiLeaf).slot 0).lblk=link.lblk
  frame : ∀ b, b≠link.eiLeaf → fs'.disk b=fs.disk b
  geometry : fs'.geometry=fs.geometry
  blockMap : fs'.blockMap=link.eiLeaf::fs.blockMap

namespace SplitRoot

variable {link : Slot}

theorem disk_eq (h : SplitRoot fs fs' root root' depth link) (hstored : Stored fs depth root)
    {k : ℕ} (hk : k<depth) {slot : Slot} (hslot : slot∈levelSlots fs.disk root k) :
    fs'.disk slot.eiLeaf=fs.disk slot.eiLeaf :=
  h.frame _ fun heq => h.fresh (heq ▸ hstored.inUse hk hslot)

theorem levelSlots_zero (h : SplitRoot fs fs' root root' depth link) :
    levelSlots fs'.disk root' 0=[link] := h.live

/-- Every level has moved down by one. -/
theorem levelSlots_succ (h : SplitRoot fs fs' root root' depth link)
    (hstored : Stored fs depth root) {k : ℕ} (hk : k≤depth) :
    levelSlots fs'.disk root' (k+1)=levelSlots fs.disk root k := by
  induction k with
  | zero =>
    rw [Nat.zero_add]
    change (levelSlots fs'.disk root' 0).flatMap _=ExtentTree.live root
    rw [h.levelSlots_zero,List.flatMap_singleton,h.entries]
  | succ k ih =>
    rw [levelSlots,ih (by omega),levelSlots]
    exact List.flatMap_congr fun slot hslot => by rw [h.disk_eq hstored (by omega) hslot]

theorem shaped (h : SplitRoot fs fs' root root' depth link) (hshape : Shaped fs depth root)
    (hstored : Stored fs depth root) : Shaped fs' (depth+1) root' := by
  have hdeep := h.levelSlots_succ hstored le_rfl
  refine ⟨h.verify,fun _ => (slot_zero h.live).1,?_,by rw [hdeep]; exact hshape.sorted,by
    rw [hdeep]; exact hshape.len_pos⟩
  intro k slot hk hslot
  rw [h.geometry]
  cases k with
  | zero =>
    rw [h.levelSlots_zero,List.mem_singleton] at hslot
    rw [hslot]
    exact ⟨h.node,h.key⟩
  | succ k =>
    rw [h.levelSlots_succ hstored (by omega)] at hslot
    rw [h.disk_eq hstored (by omega) hslot,show depth+1-1-(k+1)=depth-1-k by omega]
    exact hshape.child (by omega) hslot

theorem stored (h : SplitRoot fs fs' root root' depth link) (hstored : Stored fs depth root) :
    Stored fs' (depth+1) root' := by
  refine ⟨?_,?_,?_⟩
  · intro k hk
    cases k with
    | zero =>
      rw [h.levelSlots_zero]
      exact List.pairwise_singleton _ _
    | succ k =>
      rw [h.levelSlots_succ hstored (by omega)]
      exact hstored.nodup (by omega)
  · intro j k a b hjk hk ha hb
    cases k with
    | zero => omega
    | succ k =>
      rw [h.levelSlots_succ hstored (by omega)] at hb
      cases j with
      | zero =>
        rw [h.levelSlots_zero,List.mem_singleton] at ha
        rw [ha]
        exact fun heq => h.fresh (heq ▸ hstored.inUse (by omega) hb)
      | succ j =>
        rw [h.levelSlots_succ hstored (by omega)] at ha
        exact hstored.disjoint (by omega) (by omega) ha hb
  · intro k a hk ha
    rw [h.blockMap]
    cases k with
    | zero =>
      rw [h.levelSlots_zero,List.mem_singleton] at ha
      rw [ha]
      exact List.mem_cons_self
    | succ k =>
      rw [h.levelSlots_succ hstored (by omega)] at ha
      exact List.mem_cons_of_mem _ (hstored.inUse (by omega) ha)

end SplitRoot

end AndroidPlatform.ExtentRegrowth
