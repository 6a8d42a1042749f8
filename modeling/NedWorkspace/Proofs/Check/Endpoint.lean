/-
# Ends of connections at submodules

SPEC_FULL, section 4.6: connections.

The submodule that a connection names may be declared anywhere along the chain of the module, and then its
type is looked up where the connection stands, not where the submodule does (`Check.endpoint_yields`).
-/

import NedWorkspace.Proofs.Check.Yields

namespace NedWorkspace
namespace Check

variable {m : Model} {d t : Definition} {name : String} {s : Submodule}

/-- What is found at an end of a connection that names a submodule, with the type of the submodule as it is
denoted in a context. -/
def submoduleEnd (m : Model) (context : LookupContext) (name : String) (s : Submodule) (node : NodeId)
    (r : GateRef) (role : Role) : List Finding :=
  submoduleIndex node name s r.moduleIndexed ++
    match m.denoted s.type.name context with
    | none => []
    | some type =>
      match (Members.gatesOf (m.lineage type).1).find? (·.decl.name == r.base) with
      | some g => gateUse node role r g.decl
      | none => finding node (.noGateOfSubmodule name r.base)

/-- The first submodule of a name along a chain. -/
theorem submoduleAlong_append {front rest : List Definition}
    (hfront : ∀ e ∈ front, e.submodule? name = none) (hs : t.submodule? name = some s) :
    submoduleAlong (front ++ t :: rest) name = some s := by
  have hnone : front.findSome? (fun e : Definition => e.submodule? name) = none :=
    List.findSome?_eq_none_iff.mpr hfront
  rw [submoduleAlong, List.findSome?_append, hnone, Option.none_or, List.findSome?_cons, hs]

/-- **The type of a submodule is looked up where the connection stands.** -/
theorem endpoint_yields (hm : m.Identified) {x : Members} {r : GateRef} (hr : r.module = some name)
    (hs : submoduleAlong x.chain name = some s) (node : NodeId) (role : Role) :
    Query.Yields m (· = submoduleEnd m d.context name s node r role) (endpoint m d x node r role) := by
  unfold endpoint
  rw [hr]
  dsimp only
  rw [hs]
  refine .bind (Query.Yields.lookup s.type.name d.context) fun type htype => ?_
  rw [submoduleEnd, ← htype]
  cases type with
  | none => exact .pure (List.append_nil _).symm
  | some type =>
    refine .bind (Query.Yields.members hm (Model.holds_of_denoted htype.symm)) fun y hy => ?_
    obtain ⟨interfaces, rfl, _⟩ := hy
    dsimp only [Members.gate?, Model.membersAlong]
    cases (Members.gatesOf (m.lineage type).1).find? (·.decl.name == r.base) with
    | none => exact .pure rfl
    | some g => exact .pure rfl

end Check
end NedWorkspace
