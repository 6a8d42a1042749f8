/-
# Definitions that share a name

SPEC_FULL, section 4.6: duplicates.

Of the definitions that share a qualified name each is held against another: the first against the second,
all others against the first (`Check.Rival`). There is one diagnostic for each of them that is not built
in, and no other (`Check.mem_duplicatesOf`).
-/

import NedWorkspace.Check.File

namespace NedWorkspace

namespace Check

variable {x other : Definition} {defs : List Definition}

/-- Against which of several definitions one of them is held. -/
inductive Rival : List Definition → Definition → Definition → Prop
  | head {x other : Definition} {more : List Definition} : Rival (x :: other :: more) x other
  | tail {x other : Definition} {rest : List Definition} (hx : x ∈ rest) :
      Rival (other :: rest) x other

namespace Rival

/-- Rivals are both among the definitions. -/
theorem mem (h : Rival defs x other) : x ∈ defs ∧ other ∈ defs := by
  cases h with
  | head => exact ⟨List.mem_cons_self, List.mem_cons_of_mem x List.mem_cons_self⟩
  | tail hx => exact ⟨List.mem_cons_of_mem other hx, List.mem_cons_self⟩

/-- Each of several definitions is held against one. -/
theorem exists_of_mem (hlength : 2 ≤ defs.length) (hx : x ∈ defs) : ∃ other, Rival defs x other := by
  match defs, hlength with
  | first :: second :: more, _ =>
    rcases List.mem_cons.mp hx with rfl | hx
    · exact ⟨second, .head⟩
    · exact ⟨first, .tail hx⟩

end Rival

/-- What is wrong with a definition that is held against another of its name. -/
def conflict (pathOf : FileId → String) (qname : String) (x other : Definition) : Problem :=
  if other.isBuiltin then .builtinRedefined x.kind qname
  else .alreadyDefined x.kind qname (pathOf other.file)

/-- **There is one diagnostic for each definition that is not built in,** about what it is held
against. -/
theorem mem_duplicatesOf {pathOf : FileId → String} {qname : String} {d : Diagnostic} :
    d ∈ duplicatesOf pathOf qname defs ↔ ∃ x other, Rival defs x other ∧ x.isBuiltin = false ∧
      d = (conflict pathOf qname x other).diagnostic x.file (some x.key.node) := by
  have hagainst : ∀ x other : Definition, d ∈ (if x.isBuiltin then []
      else if other.isBuiltin then
        [(Problem.builtinRedefined x.kind qname).diagnostic x.file (some x.key.node)]
      else
        [(Problem.alreadyDefined x.kind qname (pathOf other.file)).diagnostic x.file
          (some x.key.node)]) ↔ x.isBuiltin = false ∧
            d = (conflict pathOf qname x other).diagnostic x.file (some x.key.node) := by
    intro x other
    unfold conflict
    cases x.isBuiltin with
    | true => simp
    | false => cases other.isBuiltin <;> simp
  constructor
  · intro h
    match defs with
    | [] | [_] => exact absurd h List.not_mem_nil
    | first :: second :: more =>
      rcases List.mem_append.mp h with h | h
      · exact ⟨first, second, .head, (hagainst first second).mp h⟩
      · obtain ⟨x, hx, h⟩ := List.mem_flatMap.mp h
        exact ⟨x, first, .tail hx, (hagainst x first).mp h⟩
  · rintro ⟨x, other, hrival, h⟩
    cases hrival with
    | head => exact List.mem_append_left _ ((hagainst x other).mpr h)
    | @tail _ _ rest hx =>
      match rest, hx with
      | second :: more, hx =>
        exact List.mem_append_right _ (List.mem_flatMap.mpr ⟨x, hx, (hagainst x other).mpr h⟩)

end Check

end NedWorkspace
