/-
# The index keeps its two maps in line

SPEC_FULL, section 9: trees and definitions are keyed by ids.

The index holds the scopes of files, and beside them a map from keys to definitions that is filled and
cleared with them. `DefinitionIndex.WellFormed` says that the second map is the first one read by keys: a
key leads to a definition exactly if the scope of its file has that definition, inner ones included.
Building the definitions of a file, dropping a file and giving a file to a project keep this, as long as
no two definitions of a file have one key.
-/

import Mathlib.Data.List.Nodup
import NedWorkspace.Definition.Index
import NedWorkspace.Proofs.Map.Laws

namespace NedWorkspace

/-- The definitions of a scope have keys of their file, no two of them the same. -/
structure FileScope.Keyed (file : FileId) (scope : FileScope) : Prop where
  file : ∀ d ∈ scope.allTypes, d.key.file = file
  nodup : (scope.allTypes.map fun d => d.key).Nodup

namespace DefinitionIndex

/-- A key leads to a definition exactly if it is one of the file that the key names. -/
structure WellFormed (index : DefinitionIndex) : Prop where
  keyed : ∀ {file scope}, index.file? file = some scope → scope.Keyed file
  types : ∀ {key d}, index.get? key = some d ↔
    ∃ scope, index.file? key.file = some scope ∧ d ∈ scope.allTypes ∧ d.key = key

/-- An index without files is well formed. -/
theorem wellFormed_empty : ({} : DefinitionIndex).WellFormed where
  keyed h := nomatch h
  types := ⟨nofun, nofun⟩

variable (index : DefinitionIndex) (file id : FileId)

/-- Dropping a file that the index does not have changes nothing. -/
theorem removeFile_of_none {index : DefinitionIndex} {file : FileId} (h : index.file? file = none) :
    index.removeFile file = index := by
  rw [removeFile, h]

/-- The scopes after a file was dropped. -/
theorem file?_removeFile : (index.removeFile file).file? id =
    if id = file then none else index.file? id := by
  cases h : index.file? file with
  | some scope =>
    rw [removeFile, h]
    exact OrderedMap.get?_erase ..
  | none =>
    rw [removeFile_of_none h]
    split
    · rename_i hid
      exact hid ▸ h
    · rfl

/-- The scopes after the definitions of a file were built. -/
theorem file?_setFile (tree : Tree) (project : Option String) :
    (index.setFile file tree project).file? id =
      if id = file then some (FileScope.ofTree file index.nextEdition tree project)
      else index.file? id := by
  refine (OrderedMap.get?_insert ..).trans ?_
  split
  · rfl
  · rename_i hid
    exact (index.file?_removeFile file id).trans (if_neg hid)

/-- The scopes after a file was given to a project. -/
theorem file?_setProject (project : Option String) :
    (index.setProject file project).file? id =
      if id = file then (index.file? file).map fun scope => { scope with project }
      else index.file? id := by
  unfold setProject
  cases h : index.file? file with
  | some scope => exact OrderedMap.get?_insert ..
  | none =>
    by_cases hid : id = file
    · rw [if_pos hid, hid, h]
      rfl
    · rw [if_neg hid]

/-- Giving a file to a project leaves the definitions. -/
theorem get?_setProject (project : Option String) (key : TypeKey) :
    (index.setProject file project).get? key = index.get? key := by
  unfold setProject
  cases index.file? file with
  | some scope => rfl
  | none => rfl

variable {index file}

/-- Keys of the file that is dropped lead nowhere, the others where they did. -/
theorem WellFormed.get?_removeFile (h : index.WellFormed) (key : TypeKey) :
    (index.removeFile file).get? key = if key.file = file then none else index.get? key := by
  cases hfile : index.file? file with
  | some scope =>
    rw [removeFile, hfile]
    exact OrderedMap.get?_filter_key ..
  | none =>
    rw [removeFile_of_none hfile]
    split
    · rename_i hkey
      refine Option.eq_none_iff_forall_ne_some.mpr fun d hd => ?_
      obtain ⟨scope, hscope, _⟩ := h.types.mp hd
      exact nomatch (hkey ▸ hfile).symm.trans hscope
    · rfl

/-- **Dropping a file drops its definitions.** -/
theorem WellFormed.removeFile (h : index.WellFormed) (file : FileId) :
    (index.removeFile file).WellFormed where
  keyed {id scope} hscope := by
    rw [file?_removeFile] at hscope
    split at hscope
    · exact nomatch hscope
    · exact h.keyed hscope
  types {key d} := by
    rw [h.get?_removeFile, file?_removeFile]
    split
    · exact ⟨nofun, nofun⟩
    · exact h.types

/-- What a key leads to after definitions were entered is one of those or was there. -/
theorem mem_of_get?_enter {ds : List Definition} {types : OrderedMap TypeKey Definition}
    {key : TypeKey} {d : Definition} (h : (enter types ds).get? key = some d) :
    d ∈ ds ∨ types.get? key = some d := by
  induction ds generalizing types with
  | nil => exact .inr h
  | cons e es ih =>
    rcases ih (show (enter (types.insert e.key e) es).get? key = some d from h) with hmem | hget
    · exact .inl (List.mem_cons_of_mem e hmem)
    · rw [OrderedMap.get?_insert] at hget
      split at hget
      · exact .inl (Option.some.inj hget ▸ List.mem_cons_self)
      · exact .inr hget

/-- Where keys lead after definitions with different keys were entered. -/
theorem get?_enter {ds : List Definition} (hnodup : (ds.map fun d => d.key).Nodup)
    (types : OrderedMap TypeKey Definition) {key : TypeKey} {d : Definition} :
    (enter types ds).get? key = some d ↔
      d ∈ ds ∧ d.key = key ∨ types.get? key = some d ∧ ∀ e ∈ ds, e.key ≠ key := by
  induction ds generalizing types with
  | nil => simp [enter]
  | cons e es ih =>
    rw [List.map_cons, List.nodup_cons] at hnodup
    have hstep : enter types (e :: es) = enter (types.insert e.key e) es := rfl
    rw [hstep, ih hnodup.2, OrderedMap.get?_insert]
    have hfresh : key = e.key → ∀ x ∈ es, x.key ≠ key := fun hkey x hx hxkey =>
      hnodup.1 (List.mem_map.mpr ⟨x, hx, hxkey.trans hkey⟩)
    simp only [List.mem_cons, forall_eq_or_imp]
    by_cases hkey : key = e.key
    · have hother : ¬(d ∈ es ∧ d.key = key) := fun h => hfresh hkey d h.1 h.2
      rw [if_pos hkey, Option.some.injEq]
      constructor
      · rintro (h | ⟨rfl, -⟩)
        · exact absurd h hother
        · exact .inl ⟨.inl rfl, hkey.symm⟩
      · rintro (⟨rfl | hd, hd'⟩ | ⟨-, hne, -⟩)
        · exact .inr ⟨rfl, hfresh hkey⟩
        · exact absurd ⟨hd, hd'⟩ hother
        · exact absurd hkey.symm hne
    · rw [if_neg hkey]
      constructor
      · rintro (⟨hd, hd'⟩ | ⟨h, hes⟩)
        · exact .inl ⟨.inr hd, hd'⟩
        · exact .inr ⟨h, Ne.symm hkey, hes⟩
      · rintro (⟨rfl | hd, hd'⟩ | ⟨h, -, hes⟩)
        · exact absurd hd'.symm hkey
        · exact .inl ⟨hd, hd'⟩
        · exact .inr ⟨h, hes⟩

/-- **Building the definitions of a file puts them in place of those it had.** -/
theorem WellFormed.setFile (h : index.WellFormed) {tree : Tree} {project : Option String}
    (hkeyed : (FileScope.ofTree file index.nextEdition tree project).Keyed file) :
    (index.setFile file tree project).WellFormed where
  keyed {id scope} hscope := by
    rw [file?_setFile] at hscope
    split at hscope
    · rename_i hid
      obtain rfl := Option.some.inj hscope
      exact hid ▸ hkeyed
    · exact h.keyed hscope
  types {key d} := by
    rw [file?_setFile]
    refine (get?_enter hkeyed.nodup _).trans ?_
    rw [show (index.removeFile file).types.get? key = _ from h.get?_removeFile key]
    split
    · -- A key of the file leads to what was built.
      rename_i hkey
      simp only [reduceCtorEq, false_and, or_false, Option.some.injEq, exists_eq_left']
    · rename_i hkey
      have hother : ∀ e ∈ (FileScope.ofTree file index.nextEdition tree project).allTypes,
          e.key ≠ key := fun e he heq => hkey (heq ▸ hkeyed.file e he)
      rw [← h.types]
      constructor
      · rintro (⟨hd, hd'⟩ | ⟨hget, -⟩)
        · exact absurd hd' (hother d hd)
        · exact hget
      · exact fun hget => .inr ⟨hget, hother⟩

/-- Giving a file to a project keeps the two maps in line. -/
theorem WellFormed.setProject (h : index.WellFormed) (file : FileId) (project : Option String) :
    (index.setProject file project).WellFormed where
  keyed {id scope} hscope := by
    rw [file?_setProject] at hscope
    split at hscope
    · rename_i hid
      obtain ⟨scope, hold, rfl⟩ := Option.map_eq_some_iff.mp hscope
      exact hid ▸ ⟨(h.keyed hold).file, (h.keyed hold).nodup⟩
    · exact h.keyed hscope
  types {key d} := by
    rw [get?_setProject, file?_setProject, h.types]
    split
    · rename_i hkey
      rw [hkey]
      constructor
      · rintro ⟨scope, hscope, hd⟩
        exact ⟨{ scope with project }, by rw [hscope]; rfl, hd⟩
      · rintro ⟨scope, hscope, hd⟩
        obtain ⟨scope, hold, rfl⟩ := Option.map_eq_some_iff.mp hscope
        exact ⟨scope, hold, hd⟩
    · rfl

/-- A definition that a key leads to is one of all definitions. -/
theorem WellFormed.mem_allTypes (h : index.WellFormed) {key : TypeKey} {d : Definition}
    (hget : index.get? key = some d) : d ∈ index.allTypes := by
  obtain ⟨scope, hscope, hd, _⟩ := h.types.mp hget
  exact List.mem_flatMap.mpr ⟨scope, List.mem_map.mpr ⟨_, OrderedMap.mem_of_get? hscope, rfl⟩, hd⟩

/-- What a key leads to can be searched for among the definitions of its file. -/
theorem WellFormed.get?_eq_find? (h : index.WellFormed) {key : TypeKey} {scope : FileScope}
    (hscope : index.file? key.file = some scope) :
    index.get? key = scope.allTypes.find? fun d => decide (d.key = key) := by
  cases hfind : scope.allTypes.find? fun d => decide (d.key = key) with
  | some d =>
    exact h.types.mpr ⟨scope, hscope, List.mem_of_find?_eq_some hfind,
      by simpa using List.find?_some hfind⟩
  | none =>
    refine Option.eq_none_iff_forall_ne_some.mpr fun d hd => ?_
    obtain ⟨other, hother, hmem, hkey⟩ := h.types.mp hd
    obtain rfl := Option.some.inj (hscope.symm.trans hother)
    exact absurd hkey (by simpa using List.find?_eq_none.mp hfind d hmem)

/-- A definition of a scope is found by its key. -/
theorem WellFormed.get?_of_mem (h : index.WellFormed) {id : FileId} {scope : FileScope}
    (hscope : index.file? id = some scope) {d : Definition} (hd : d ∈ scope.allTypes) :
    index.get? d.key = some d :=
  h.types.mpr ⟨scope, ((h.keyed hscope).file d hd).symm ▸ hscope, hd, rfl⟩

end DefinitionIndex

end NedWorkspace
