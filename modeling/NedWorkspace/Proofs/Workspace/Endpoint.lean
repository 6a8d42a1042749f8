/-
# Connections to inherited submodules

SPEC_FULL, section 4.6: connections.

A module that inherits a submodule is told the same about a connection to it as the module that declares it,
as long as the name of the submodule's type denotes the same for both (`State.endpoint_inherited`). It need
not: the name is looked up where the connection stands, so a type of that name in the package of the heir
takes the place of the one that the submodule has (`Transplant.endpoint_elsewhere`).
-/

import NedWorkspace.Proofs.Check.Endpoint
import NedWorkspace.Proofs.Workspace.Inherited

namespace NedWorkspace

/-- **Inherited submodules are checked against their type** unless its name denotes something else for the
heir. In every reachable state a key and an edition stand for one definition. In such a model, from
memories that are right (`Model.gathered_remembered`), let the connections of `d` be checked against its
members, and let an end name a submodule that is declared first by the type `t` on the chain of `d`. If the
name of the submodule's type denotes the same in `d` as it does in `t`, the findings are those that the
members of that type give, whichever module `d` is; and the memory stays right. -/
theorem State.endpoint_inherited (m : Model) (d t : Definition) (front rest : List Definition)
    (name : String) (s : Submodule) (before memory : Memory) :
    (∀ st : State, st.Reachable → st.current.Identified) ∧
    (m.Identified → m.Holds d → m.Gathered before → m.Gathered memory →
      (m.members d before).1.chain = front ++ t :: rest → (∀ e ∈ front, e.submodule? name = none) →
      t.submodule? name = some s →
      m.denoted s.type.name d.context = m.denoted s.type.name t.context →
      ∀ (node : NodeId) (r : GateRef) (role : Check.Role), r.module = some name →
        let found := Check.endpoint m d (m.members d before).1 node r role memory
        found.1 = Check.submoduleEnd m t.context name s node r role ∧ m.Gathered found.2) := by
  refine ⟨fun st hst => ?_, ?_⟩
  · have hkeyed : st.current.Keyed := hst.kept.keyed
    exact fun _ _ hx hy hid => hkeyed.identified hx hy hid
  intro hm hd hbefore hmemory hchain hfront hs hsame node r role hr
  have halong : Check.submoduleAlong (m.members d before).1.chain name = some s := by
    rw [hchain, Check.submoduleAlong_append hfront hs]
  obtain ⟨hgathered, hfound⟩ := Check.endpoint_yields hm hr halong node role memory hmemory
  refine ⟨hfound.trans ?_, hgathered⟩
  rw [Check.submoduleEnd, hsame, ← Check.submoduleEnd]

/-! ### A type of the same name in the package of the heir -/

namespace Transplant

/-- A type of a file in a package. -/
def type (file : ℕ) (package : String) (t : TypeDecl) : Definition :=
  .build (.source file) 0 package t

/-- The type of the submodule, with two gates. -/
def part : Definition := type 1 "lib"
  { node := 2, kind := .simpleModule, name := "Part",
    gates := [⟨3, "in", some .input, false, none, [], {}⟩,
      ⟨4, "out", some .output, false, none, [], {}⟩] }

/-- A submodule of that type. -/
def submodule : Submodule := ⟨6, "s", none, ⟨7, "Part", {}⟩, none, [], [], [], {}⟩

/-- The module that declares the submodule. -/
def base : Definition := type 1 "lib"
  { node := 5, kind := .compoundModule, name := "Base",
    submodules := [submodule] }

/-- A module that extends it in the same package. -/
def sibling : Definition := type 1 "lib"
  { node := 8, kind := .compoundModule, name := "Sibling", bases := [⟨9, "Base", {}⟩] }

/-- A module that extends it in another package. -/
def heir : Definition := type 0 "p"
  { node := 3, kind := .compoundModule, name := "D", bases := [⟨4, "Base", {}⟩] }

/-- A type without gates in that package. -/
def bare : Definition := type 2 "p" { node := 2, kind := .simpleModule, name := "Part" }

def files : List (FileId × FileScope) :=
  [(.source 0, ⟨"p", [⟨"lib.Base"⟩], some "p", [heir]⟩),
    (.source 1, ⟨"lib", [], some "p", [part, base, sibling]⟩), (.source 2, ⟨"p", [], some "p", [bare]⟩)]

/-- A gate of the inherited submodule. -/
def gate (name : String) : GateRef := ⟨some "s", false, name, .absent⟩

/-- The model tells its definitions apart. -/
theorem identified : (Model.ofScopes files).Identified :=
  Model.Keyed.identified (Model.keyed_ofScopes (by decide))

/-- Nothing is wrong with the gates of the type that the submodule has. -/
theorem submoduleEnd_base (node : NodeId) :
    Check.submoduleEnd (Model.ofScopes files) base.context "s" submodule node (gate "out") .source = [] ∧
      Check.submoduleEnd (Model.ofScopes files) base.context "s" submodule node (gate "in") .destination =
        [] :=
  ⟨by cbv, by cbv⟩

/-- The sibling extends the base type. -/
theorem chain_sibling : ((Model.ofScopes files).members sibling {}).1.chain = [sibling, base] := by
  cbv

/-- The sibling may connect the gates. -/
theorem endpoint_inherited_sibling :
    let m := Model.ofScopes files
    m.Identified ∧ m.Holds sibling ∧ m.Gathered {} ∧
      (m.members sibling {}).1.chain = [sibling, base] ∧ base.submodule? "s" = some submodule ∧
      m.denoted submodule.type.name sibling.context = m.denoted submodule.type.name base.context ∧
      (Check.endpoint m sibling (m.members sibling {}).1 10 (gate "out") .source {}).1 = [] ∧
      (Check.endpoint m sibling (m.members sibling {}).1 10 (gate "in") .destination {}).1 = [] := by
  intro m
  have hgathered : m.Gathered {} := (Model.forgotten_empty _).gathered
  have hholds : m.Holds sibling :=
    .inl (.inl ⟨.source 1, _, rfl, Definition.mem_withInner_self (by simp)⟩)
  have hsame : m.denoted submodule.type.name sibling.context =
      m.denoted submodule.type.name base.context := rfl
  have hends := (State.endpoint_inherited m sibling base [sibling] [] "s" submodule {} {}).2 identified
    hholds hgathered hgathered chain_sibling (by decide) rfl hsame 10
  obtain ⟨hout, hin⟩ := submoduleEnd_base 10
  exact ⟨identified, hholds, hgathered, chain_sibling, rfl, hsame,
    (hends (gate "out") .source rfl).1.trans hout, (hends (gate "in") .destination rfl).1.trans hin⟩

/-- The heir extends the base type. -/
theorem chain_heir : ((Model.ofScopes files).members heir {}).1.chain = [heir, base] := by
  cbv

/-- From where the heir stands, the name of the submodule's type is that of another type. -/
theorem denoted_heir : (Model.ofScopes files).denoted submodule.type.name heir.context = some bare :=
  rfl

/-- Where the heir stands, the type of the submodule has no gates. -/
theorem submoduleEnd_heir (node : NodeId) :
    (Check.submoduleEnd (Model.ofScopes files) heir.context "s" submodule node (gate "out") .source).map
        Finding.problem = [.noGateOfSubmodule "s" "out"] ∧
      (Check.submoduleEnd (Model.ofScopes files) heir.context "s" submodule node (gate "in")
        .destination).map Finding.problem = [.noGateOfSubmodule "s" "in"] := by
  unfold Check.submoduleEnd
  rw [denoted_heir]
  exact ⟨by cbv, by cbv⟩

/-- **The heir in another package may not:** a type without gates is taken for the type of the
submodule. -/
theorem endpoint_elsewhere :
    let m := Model.ofScopes files
    m.Identified ∧ m.Holds heir ∧ m.Gathered {} ∧ (m.members heir {}).1.chain = [heir, base] ∧
      heir.submodule? "s" = none ∧ base.submodule? "s" = some submodule ∧
      Check.submoduleEnd m base.context "s" submodule 5 (gate "out") .source = [] ∧
      Check.submoduleEnd m base.context "s" submodule 5 (gate "in") .destination = [] ∧
      (Check.endpoint m heir (m.members heir {}).1 5 (gate "out") .source {}).1.map Finding.problem =
        [.noGateOfSubmodule "s" "out"] ∧
      (Check.endpoint m heir (m.members heir {}).1 5 (gate "in") .destination {}).1.map Finding.problem =
        [.noGateOfSubmodule "s" "in"] := by
  intro m
  have hholds : m.Holds heir :=
    .inl (.inl ⟨.source 0, _, rfl, Definition.mem_withInner_self (by simp)⟩)
  have hgathered : m.Gathered {} := (Model.forgotten_empty _).gathered
  obtain ⟨hout, hin⟩ := submoduleEnd_base 5
  obtain ⟨hout', hin'⟩ := submoduleEnd_heir 5
  have halong : Check.submoduleAlong (m.members heir {}).1.chain "s" = some submodule := by
    rw [chain_heir]
    rfl
  have hends (name : String) (role : Check.Role) :=
    (Check.endpoint_yields (d := heir) (r := gate name) identified rfl halong 5 role {} hgathered).2
  exact ⟨identified, hholds, hgathered, chain_heir, rfl, rfl, hout, hin,
    (congrArg (List.map Finding.problem) (hends "out" .source)).trans hout',
    (congrArg (List.map Finding.problem) (hends "in" .destination)).trans hin'⟩

end Transplant

end NedWorkspace
