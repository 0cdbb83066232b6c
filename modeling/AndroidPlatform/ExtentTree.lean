import AndroidPlatform.ExtentHandle
import AndroidPlatform.FloorSearch

/-!
# Well-formed extent trees

The slots of a tree are listed level by level: those of the root, and those of the children
of a level from left to right. The slots of the deepest level are the extents in logical
order. A handle stands on an entry if the cached nodes are those of a path through the tree
and if the counts of every level belong to its slot.
-/

namespace AndroidPlatform.ExtentTree

open ExtentHandle SortedTable FloorSearch

/-! ## Levels -/

/-- The entries of a node. -/
def live (node : ExtentNode) : List Slot := (List.range node.ehEntries.toNat).map node.slot

/-- The entries of all nodes of a level. -/
def levelSlots (disk : ℕ → ExtentNode) (root : ExtentNode) : ℕ → List Slot
  | 0 => live root
  | k+1 => (levelSlots disk root k).flatMap fun slot => live (disk slot.eiLeaf)

/-- A node that is not the root, at its height above the leaves. -/
structure NodeOk (blocksize height : ℕ) (node : ExtentNode) : Prop where
  verify : extentHeaderVerify node blocksize=true
  depth : node.ehDepth.toNat=height
  nonempty : 0 < node.ehEntries.toNat

/-- The nodes of a tree but for the depth in the root. Every node has a valid header, only a
root without children may be empty, the key of an index entry is the first logical block of its
child, and the extents are sorted, do not overlap and have at least one block. -/
structure Shaped (fs : Filsys) (depth : ℕ) (root : ExtentNode) : Prop where
  root_verify : extentHeaderVerify root 60=true
  root_nonempty : 0 < depth → 0 < root.ehEntries.toNat
  child : ∀ {k slot}, k<depth → slot∈levelSlots fs.disk root k →
    NodeOk fs.geometry.blocksize (depth-1-k) (fs.disk slot.eiLeaf) ∧
      ((fs.disk slot.eiLeaf).slot 0).lblk=slot.lblk
  sorted : (levelSlots fs.disk root depth).Pairwise fun a b => a.lblk+a.len≤b.lblk
  len_pos : ∀ slot∈levelSlots fs.disk root depth, 0 < slot.len

/-- A well-formed tree: the root has its depth. -/
structure WellFormed (fs : Filsys) (depth : ℕ) (root : ExtentNode) : Prop
    extends Shaped fs depth root where
  root_depth : root.ehDepth.toNat=depth

theorem length_live (node : ExtentNode) : (live node).length=node.ehEntries.toNat := by
  rw [live,List.length_map,List.length_range]

theorem mem_live {node : ExtentNode} {i : ℕ} (hi : i<node.ehEntries.toNat) :
    node.slot i∈live node := List.mem_map_of_mem (List.mem_range.mpr hi)

/-- The first entry of a node that is not empty. -/
theorem head?_live {node : ExtentNode} (h : 0 < node.ehEntries.toNat) :
    (live node).head?=some (node.slot 0) := by
  rw [live]
  cases hn : node.ehEntries.toNat with
  | zero => omega
  | succ n => rw [List.range_succ_eq_map]; rfl

/-- The keys of a level are among those of the next level. -/
theorem Shaped.keys_sublist {fs : Filsys} {depth : ℕ} {root : ExtentNode}
    (h : Shaped fs depth root) {k : ℕ} (hk : k<depth) :
    ((levelSlots fs.disk root k).map Slot.lblk).Sublist
      ((levelSlots fs.disk root (k+1)).map Slot.lblk) := by
  have hall : ∀ slots : List Slot, (∀ slot∈slots, slot∈levelSlots fs.disk root k) →
      (slots.map Slot.lblk).Sublist
        ((slots.flatMap fun slot => live (fs.disk slot.eiLeaf)).map Slot.lblk) := by
    intro slots hmem
    induction slots with
    | nil => exact List.Sublist.refl _
    | cons slot rest ih =>
      have ⟨hnode,hkey⟩ := h.child hk (hmem slot List.mem_cons_self)
      have hhead := head?_live hnode.nonempty
      obtain ⟨tail,htail⟩ := List.head?_eq_some_iff.mp hhead
      rw [List.flatMap_cons,List.map_append,htail,List.map_cons,List.map_cons,hkey,List.cons_append]
      refine List.Sublist.cons₂ _ ?_
      exact (ih fun other hother => hmem other (List.mem_cons_of_mem _ hother)).trans
        (List.sublist_append_right _ _)
  exact hall _ fun slot hslot => hslot

/-- The keys of every level ascend. -/
theorem Shaped.sortedBy {fs : Filsys} {depth : ℕ} {root : ExtentNode}
    (h : Shaped fs depth root) {k : ℕ} (hk : k≤depth) :
    SortedBy Slot.lblk (levelSlots fs.disk root k) := by
  have hpairwise : ∀ n, n≤depth →
      ((levelSlots fs.disk root (depth-n)).map Slot.lblk).Pairwise (·<·) := by
    intro n hn
    induction n with
    | zero =>
      rw [List.pairwise_map,Nat.sub_zero]
      refine h.sorted.imp_of_mem ?_
      intro a b ha _ hab
      have := h.len_pos a ha
      omega
    | succ n ih =>
      have hsub := h.keys_sublist (show depth-(n+1)<depth by omega)
      rw [show depth-(n+1)+1=depth-n by omega] at hsub
      exact (ih (by omega)).sublist hsub
  have := hpairwise (depth-k) (by omega)
  rw [show depth-(depth-k)=k by omega,List.pairwise_map] at this
  exact this

/-- The entries of a node stand together in their level. -/
theorem live_sublist {disk : ℕ → ExtentNode} {root : ExtentNode} {k : ℕ} {slot : Slot}
    (h : slot∈levelSlots disk root k) :
    (live (disk slot.eiLeaf)).Sublist (levelSlots disk root (k+1)) := by
  obtain ⟨before,after,hsplit⟩ := List.append_of_mem h
  rw [levelSlots,hsplit,List.flatMap_append,List.flatMap_cons]
  exact (List.sublist_append_left _ _).trans (List.sublist_append_right _ _)

/-- The slots of a node by their indices. -/
theorem live_pairwise {node : ExtentNode} {r : Slot → Slot → Prop} (h : (live node).Pairwise r)
    {i j : ℕ} (hij : i<j) (hj : j<node.ehEntries.toNat) : r (node.slot i) (node.slot j) := by
  rw [live,List.pairwise_map,List.pairwise_iff_getElem] at h
  have := h i j (by rw [List.length_range]; omega) (by rw [List.length_range]; omega) hij
  rwa [List.getElem_range,List.getElem_range] at this

/-! ## Positions of a handle -/

/-- The counts of a path that stands at entry `i`. -/
structure Tracks (path : ExtentPath) (i : ℕ) : Prop where
  curr : path.curr=some i
  lt : i<path.entries
  entries : path.entries=path.buf.ehEntries.toNat
  maxEntries : path.maxEntries=path.buf.ehMax.toNat
  left : path.left+1+i=path.entries

/-- The handle stands on an entry at its level. -/
structure OnEntry (handle : Handle) : Prop where
  level_le : handle.level≤handle.maxDepth
  tracks : ∀ {k}, k≤handle.level → ∃ i, Tracks (handle.path k) i
  child : ∀ {k}, k<handle.level →
    (handle.path (k+1)).buf=handle.fs.disk (handle.slotAt k).eiLeaf

/-- The handle is open on its root, at any position. -/
structure Opened (handle : Handle) : Prop where
  entries : (handle.path 0).entries=(handle.path 0).buf.ehEntries.toNat
  maxEntries : (handle.path 0).maxEntries=(handle.path 0).buf.ehMax.toNat

/-- The nodes of the tree of the handle. -/
abbrev ShapedTree (handle : Handle) : Prop := Shaped handle.fs handle.maxDepth (handle.path 0).buf

/-- The tree of the handle is well formed. -/
abbrev WellFormedTree (handle : Handle) : Prop :=
  WellFormed handle.fs handle.maxDepth (handle.path 0).buf

/-- The slots of a level of the tree of the handle. -/
abbrev slotsOf (handle : Handle) (k : ℕ) : List Slot :=
  levelSlots handle.fs.disk (handle.path 0).buf k

end AndroidPlatform.ExtentTree
