/-
# Forgetting members

SPEC_FULL, section 4.4: inherited attributes are marked stale recursively.

Members are forgotten by walking through the definitions of all files, and through the types inside each.
The walk reaches every definition that the index lists, and no other (`Memory.get?_forgetMembers`). After
lookups were forgotten too, a memory holds nothing that bears on the index (`Memory.Cold`).
-/

import NedWorkspace.Proofs.Map.Laws
import NedWorkspace.Resolve.Members

namespace NedWorkspace
namespace Memory

/-- No lookup is remembered, and no definition of the index has members. Members of definitions that
went may still be there; the definitions built since have other editions. -/
structure Cold (index : DefinitionIndex) (memory : Memory) : Prop where
  lookups : memory.lookups.entries = {}
  members : ∀ d ∈ index.allTypes, memory.members.get? d.id = none

/-- An empty memory is cold. -/
theorem cold_empty (index : DefinitionIndex) (misses : Nat) :
    Cold index { lookups := { misses } } :=
  ⟨rfl, fun _ _ => rfl⟩

mutual

/-- A definition and all types below it lose their members, no others do. -/
theorem get?_forgetBelow (memory : Memory) (d : Definition) (id : DefinitionId) :
    (memory.forgetBelow d).members.get? id =
      if id ∈ (d :: d.allInner).map Definition.id then none else memory.members.get? id := by
  obtain ⟨own, inner⟩ := d
  rw [forgetBelow, get?_forgetEach, OrderedMap.get?_erase, List.map_cons, Definition.allInner]
  by_cases hinner : id ∈ (Definition.withInner inner).map Definition.id
  · rw [if_pos hinner, if_pos (List.mem_cons_of_mem _ hinner)]
  · rw [if_neg hinner]
    by_cases hown : id = Definition.id ⟨own, inner⟩
    · rw [if_pos (show id = ⟨own.key, own.edition⟩ from hown), if_pos (hown ▸ List.mem_cons_self)]
    · rw [if_neg (show ¬id = ⟨own.key, own.edition⟩ from hown),
        if_neg (List.not_mem_cons_of_ne_of_not_mem hown hinner)]

/-- The definitions of a list and all types below them lose their members, no others do. -/
theorem get?_forgetEach (memory : Memory) (ds : List Definition) (id : DefinitionId) :
    (memory.forgetEach ds).members.get? id =
      if id ∈ (Definition.withInner ds).map Definition.id then none else memory.members.get? id := by
  match ds with
  | [] =>
    rw [forgetEach]
    rfl
  | d :: ds =>
    rw [forgetEach, get?_forgetEach, get?_forgetBelow, Definition.withInner, ← List.cons_append,
      List.map_append]
    simp only [List.mem_append]
    by_cases hbelow : id ∈ (d :: d.allInner).map Definition.id
    · rw [if_pos hbelow, if_pos (Or.inl hbelow), ite_self]
    · by_cases hrest : id ∈ (Definition.withInner ds).map Definition.id
      · rw [if_pos hrest, if_pos (Or.inr hrest)]
      · rw [if_neg hrest, if_neg hbelow, if_neg (not_or.mpr ⟨hbelow, hrest⟩)]

end

mutual

/-- Forgetting members keeps the lookups. -/
theorem lookups_forgetBelow (memory : Memory) (d : Definition) :
    (memory.forgetBelow d).lookups = memory.lookups := by
  obtain ⟨own, inner⟩ := d
  rw [forgetBelow, lookups_forgetEach]

/-- To forget members leaves what was looked up. -/
theorem lookups_forgetEach (memory : Memory) (ds : List Definition) :
    (memory.forgetEach ds).lookups = memory.lookups := by
  match ds with
  | [] => rw [forgetEach]
  | d :: ds => rw [forgetEach, lookups_forgetEach, lookups_forgetBelow]

end

/-- **The walk over an index reaches every definition that it lists, and no other.** -/
theorem get?_forgetMembers (memory : Memory) (index : DefinitionIndex) (id : DefinitionId) :
    (memory.forgetMembers index).members.get? id =
      if id ∈ index.allTypes.map Definition.id then none else memory.members.get? id := by
  unfold forgetMembers DefinitionIndex.allTypes
  induction index.files.values generalizing memory with
  | nil => rfl
  | cons scope scopes ih =>
    rw [List.foldl_cons, ih, get?_forgetEach, List.flatMap_cons, List.map_append, FileScope.allTypes]
    simp only [List.mem_append]
    split
    · rename_i hrest
      rw [if_pos (Or.inr hrest)]
    · rename_i hrest
      simp only [or_iff_left hrest]

theorem lookups_forgetMembers (memory : Memory) (index : DefinitionIndex) :
    (memory.forgetMembers index).lookups = memory.lookups := by
  unfold forgetMembers
  induction index.files.values generalizing memory with
  | nil => rfl
  | cons scope scopes ih => rw [List.foldl_cons, ih, lookups_forgetEach]

/-- **Nothing that bears on an index is left when lookups and members were forgotten.** -/
theorem cold_forgetMembers (memory : Memory) (index : DefinitionIndex)
    (h : memory.lookups.entries = {}) : (memory.forgetMembers index).Cold index := by
  refine ⟨(congrArg LookupCache.entries (lookups_forgetMembers memory index)).trans h,
    fun d hd => ?_⟩
  rw [get?_forgetMembers, if_pos (List.mem_map_of_mem hd)]

end Memory
end NedWorkspace
