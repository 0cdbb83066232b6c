import Mathlib.Data.List.Nodup
import Mathlib.Data.List.Basic

/-!
# Translation by a table with a pass-through default

A switch over distinct labels that returns its argument when no label matches
is a lookup in the list of its rows. With distinct results the rows can be read
backwards, and the two translations undo each other except at the labels that
are no results.
-/

namespace AndroidPlatform.TranslationTable

variable {α : Type*}

/-- The same rows, read from the result to the label. -/
def backward (table : List (α×α)) : List (α×α) := table.map Prod.swap

theorem backward_labels (table : List (α×α)) :
    (backward table).map Prod.fst=table.map Prod.snd := by
  rw [backward,List.map_map]
  rfl

variable [DecidableEq α] {table : List (α×α)} {a b v : α}

/-- The result of the first row with this label, or the argument. -/
def translate (table : List (α×α)) (x : α) : α :=
  match table.find? fun row => row.1=x with
  | some row => row.2
  | none => x

theorem translate_of_mem (hnodup : (table.map Prod.fst).Nodup) (h : (a,b)∈table) :
    translate table a=b := by
  have hsome : (table.find? fun row => row.1=a).isSome := by
    rw [List.find?_isSome]
    exact ⟨(a,b),h,by simp⟩
  obtain ⟨row,hrow⟩ := Option.isSome_iff_exists.mp hsome
  have hmem := List.mem_of_find?_eq_some hrow
  have hlabel := List.find?_some hrow
  have heq : row=(a,b) :=
    List.inj_on_of_nodup_map hnodup hmem h (by simpa using hlabel)
  rw [translate,hrow,heq]

theorem translate_of_not_mem (h : a∉table.map Prod.fst) : translate table a=a := by
  have hnone : (table.find? fun row => row.1=a)=none := by
    rw [List.find?_eq_none]
    intro row hrow hlabel
    exact h (List.mem_map.mpr ⟨row,hrow,by simpa using hlabel⟩)
  rw [translate,hnone]

/-- A value survives the way there and back if it is a result, or no label. -/
theorem translate_backward_iff (hlabels : (table.map Prod.fst).Nodup)
    (hresults : (table.map Prod.snd).Nodup) :
    translate table (translate (backward table) v)=v ↔
      v∈table.map Prod.snd ∨ v∉table.map Prod.fst := by
  by_cases hv : v∈table.map Prod.snd
  · obtain ⟨row,hrow,hsnd⟩ := List.mem_map.mp hv
    have hback : translate (backward table) v=row.1 := by
      refine translate_of_mem ?_ ?_
      · rw [backward_labels]
        exact hresults
      · exact List.mem_map.mpr ⟨row,hrow,by rw [←hsnd]; rfl⟩
    have hforth : translate table row.1=v := by
      refine translate_of_mem hlabels ?_
      rw [←hsnd]
      exact hrow
    rw [hback,hforth]
    exact ⟨fun _ => Or.inl hv,fun _ => rfl⟩
  · have hback : translate (backward table) v=v := by
      refine translate_of_not_mem ?_
      rw [backward_labels]
      exact hv
    rw [hback]
    constructor
    · intro hfix
      refine Or.inr fun hlabel => hv ?_
      obtain ⟨row,hrow,hfst⟩ := List.mem_map.mp hlabel
      have hrow' : translate table v=row.2 := by
        refine translate_of_mem hlabels ?_
        rw [←hfst]
        exact hrow
      exact List.mem_map.mpr ⟨row,hrow,hrow'.symm.trans hfix⟩
    · intro h
      exact translate_of_not_mem (h.resolve_left hv)

end AndroidPlatform.TranslationTable
