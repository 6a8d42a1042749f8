/-
# What types are told of their interfaces

SPEC_FULL, section 4.6: interface non-conformance.

Checking a file tells its types what they lack of their interfaces (`State.missing_told`). The interfaces of
a type are looked up by name where the names stand, but they are kept as qualified names, which are looked
up again in the table of the project. An interface in a compound module whose name two files declare is not
found there, and nothing is told of it (`Blurred.missing_untold`).
-/

import NedWorkspace.Proofs.Check.Conformance
import NedWorkspace.Proofs.Workspace.Inherited

namespace NedWorkspace

open Relation

/-- The canonical types of a reachable state are definitions of the index. -/
theorem State.Kept.backed {st : State} (hkept : st.Kept) : st.current.Backed := by
  intro project table htable d hd
  obtain rfl := hkept.table_eq htable
  have hcomponent := ProjectTable.mem_definitions_ofList.mp hd
  exact defines_of_mem_typesSeenBy (ProjectTable.eq_qname_of_component? hcomponent).2

/-- **What types are told to lack.** In every reachable state a key stands for one definition and the tables
hold definitions of the index. In such a model let a file be checked, from a memory that is right
(`Model.gathered_remembered`); then the memory stays right. Take a type of the file that is no interface, on
whose chain is no circle and from which no circle of likeness is reached. It is told of each parameter and
each gate that it lacks of an interface that it has to conform to, if the qualified name of the interface
leads to it in the project of the type; it does if the interface is canonical there. And whatever is told to
be missing is told a type that is no interface, on whose chain is no circle; it lacks that parameter or gate
of an interface. It has to conform to the interface if no circle of likeness is reached from the type, its
`like` names denote interfaces, and the qualified names of all that these extend lead to them. -/
theorem State.missing_told (m : Model) (file : FileId) (tree : Tree) (expected : Option String)
    (memory : Memory) :
    (∀ st : State, st.Reachable → st.current.Keyed ∧ st.current.Backed) ∧
    (m.Keyed → m.Backed → m.Gathered memory →
      let checked := Check.file m file tree expected memory
      let types := Check.order (m.index.fileTypes file)
      let members := fun d => (m.members d memory).1
      m.Gathered checked.2 ∧
      (∀ d ∈ types, d.kind.isInterface = false → (members d).cycle = false → m.Grounded d →
        ∀ i, m.Requires d i → m.Finds d i → ∀ p, (members d).Lacks (members i) i.qname p →
          (p.diagnostic file (some d.key.node)).locate tree ∈ checked.1) ∧
      (∀ d i project table, m.projectFor? d.context = some project → m.table? project = some table →
        table.component? i.qname = some i → m.Finds d i) ∧
      ∀ x ∈ checked.1, x.code = "E0005" → ∃ d ∈ types, d.kind.isInterface = false ∧
        (members d).cycle = false ∧ ∃ i name p, i.kind.isInterface = true ∧
          (members d).Lacks (members i) name p ∧ x = (p.diagnostic file (some d.key.node)).locate tree ∧
            (m.Grounded d → m.Straight d → m.Requires d i ∧ name = i.qname)) := by
  refine ⟨fun st hst => ?_, ?_⟩
  · exact ⟨hst.kept.keyed, hst.kept.backed⟩
  intro hm hbacked hmemory checked types members
  have hright : ∀ {d}, m.Holds d → m.Right d (members d) := fun hd =>
    (Model.members_right hm.identified hd hmemory).2
  have hheld : ∀ d ∈ types, m.Holds d := fun _ hd => .inl (Check.defines_of_mem_order hd)
  obtain ⟨hgathered, hall, hfound⟩ :=
    Check.fileFindings_yields hm.identified hbacked file tree expected memory hmemory
  refine ⟨hgathered, fun d hd hkind hcycle hgrounded i hrequires hfinds p hlacks => ?_,
    fun _ _ _ _ => Model.finds_of_component?, fun x hx hcode => ?_⟩
  · obtain ⟨own, hown, htold⟩ := hall d hd
    have hi : m.Right i (members i) := hright (Model.holds_of_requires hrequires)
    have hsame := (hright (hheld d hd)).declared_eq hown
    have hcycle' : own.cycle = false := ((hright (hheld d hd)).cycle_eq hown) ▸ hcycle
    have hmisses := Check.misses_of_requires hm (hheld d hd) hown hkind hcycle' hgrounded hrequires hfinds hi
      (hlacks.congr hsame ⟨rfl, rfl⟩)
    exact List.mem_map_of_mem (htold _ hlacks.isMissing hmisses)
  · obtain ⟨f, hf, rfl⟩ := List.mem_map.mp hx
    have hmissing : f.problem.isMissing = true := by
      rw [Diagnostic.code_locate] at hcode
      exact Problem.code_eq_iff.mp hcode
    obtain ⟨d, hd, own, hown, hmisses⟩ := hfound f hf hmissing
    obtain ⟨hnode, i, name, required, hi, hikind, hrequired, hlacks, hrequires⟩ :=
      Check.requires_of_misses hm hbacked (hheld d hd) hown hmisses
    have hsame := hown.declared_eq (hright (hheld d hd))
    refine ⟨d, hd, hmisses.kind, (hown.cycle_eq (hright (hheld d hd))) ▸ hmisses.cycle, i, name, f.problem,
      hikind, hlacks.congr hsame (hrequired.declared_eq (hright hi)), ?_, hrequires⟩
    rw [hnode]

/-! ### An interface in a compound module that is declared twice -/

namespace Blurred

/-- A type inside the compound module. -/
def inner (t : TypeDecl) : Definition :=
  .buildAt (.source 0) 0 "" ⟨.source 0, 1⟩ (some ⟨.source 0, 1⟩) (Name.below "M" t.name) t

def ifaceDecl : TypeDecl :=
  { node := 2, kind := .moduleInterface, name := "I", params := [⟨3, "p", some .int, false, none, [], {}⟩] }

def implDecl : TypeDecl :=
  { node := 4, kind := .simpleModule, name := "S", interfaces := [⟨5, "I", {}⟩] }

/-- An interface with a parameter. -/
def iface : Definition := inner ifaceDecl

/-- A type that is like it, without the parameter. -/
def impl : Definition := inner implDecl

/-- The compound module with both. -/
def outer : Definition :=
  .build (.source 0) 0 "" { node := 1, kind := .compoundModule, name := "M", types := [ifaceDecl, implDecl] }

/-- A compound module of the same name in another file. -/
def other : Definition :=
  .build (.source 1) 0 "" { node := 1, kind := .compoundModule, name := "M" }

/-- A project with the file of the compound module and other files. -/
def model (more : List (FileId × FileScope)) : Model :=
  .ofScopes ((.source 0, ⟨"", [], some "p", [outer]⟩) :: more)

/-- The file of the other compound module. -/
def rival : FileId × FileScope := (.source 1, ⟨"", [], some "p", [other]⟩)

/-- What the type lacks. -/
def missing : Problem := .missingParam "p" "M.I"

theorem keyed_alone : (model []).Keyed := Model.keyed_ofScopes (by decide)

theorem keyed_rival : (model [rival]).Keyed := Model.keyed_ofScopes (by decide)

theorem lineage_impl (m : Model) : m.lineage impl = ([impl], false) :=
  m.lineage_of_baseNames_eq_nil rfl

variable {more : List (FileId × FileScope)}

/-- The types of the file, in the order they are checked in. -/
theorem order_eq (more : List (FileId × FileScope)) :
    Check.order ((model more).index.fileTypes (.source 0)) = [outer, iface, impl] := rfl

theorem holds {d : Definition} (h : d ∈ [outer, iface, impl]) : (model more).Holds d :=
  .inl (Check.defines_of_mem_order (order_eq more ▸ h))

/-- The project has no other file, or that of the other compound module. -/
inductive Tried : List (FileId × FileScope) → Prop
  | alone : Tried []
  | rival : Tried [rival]

/-- The implementation leans on its interface, and on nothing else. -/
theorem leans_impl (hmore : Tried more) {j : Definition} : (model more).Leans impl j ↔ j = iface := by
  have hdenoted : (model more).denoted "I" impl.context = some iface := by
    cases hmore with
    | alone => rfl
    | rival => rfl
  constructor
  · rintro ⟨t, ht, name, hname, hj⟩
    obtain rfl := List.mem_singleton.mp (lineage_impl (model more) ▸ ht)
    obtain rfl := List.mem_singleton.mp hname
    exact Option.some.inj (hj.symm.trans hdenoted)
  · rintro rfl
    exact ⟨impl, by simp [lineage_impl], "I", List.mem_singleton_self _, hdenoted⟩

/-- The implementation is required to have what the interface declares. -/
theorem requires (hmore : Tried more) : (model more).Requires impl iface :=
  ⟨rfl, iface, (leans_impl hmore).mpr rfl, rfl, .refl⟩

/-- Of the types of the file only one leans on another. -/
theorem leans_iff (hmore : Tried more) {d j : Definition} (hd : d ∈ [outer, iface, impl]) :
    (model more).Leans d j ↔ d = impl ∧ j = iface := by
  refine ⟨fun hj => ?_, fun ⟨himpl, hj⟩ => himpl ▸ (leans_impl hmore).mpr hj⟩
  simp only [List.mem_cons, List.not_mem_nil, or_false] at hd
  rcases hd with rfl | rfl | rfl
  · exact absurd hj (Model.not_leans rfl rfl j)
  · exact absurd hj (Model.not_leans rfl rfl j)
  · exact ⟨rfl, (leans_impl hmore).mp hj⟩

/-- No type of the file extends anything. -/
theorem grounded (hmore : Tried more) (hm : (model more).Keyed) {d : Definition} (hd : d ∈ [outer, iface, impl]) :
    (model more).Grounded d := by
  refine Model.grounded_of_leans hm (holds hd) fun i hi j => ?_
  obtain ⟨_, rfl⟩ := (leans_iff hmore hd).mp hi
  exact Model.not_leans rfl rfl j

/-- The implementation is in no cycle. -/
theorem cycle_eq_false {own : Members} (hown : (model more).Right impl own) : own.cycle = false := by
  obtain ⟨_, rfl, _⟩ := hown
  exact congrArg Prod.snd (lineage_impl _)

/-- The implementation lacks the parameter of the interface. -/
theorem lacks {own required : Members} (hown : (model more).Right impl own)
    (hrequired : (model more).Right iface required) : own.Lacks required iface.qname missing := by
  obtain ⟨_, rfl, _⟩ := hown
  obtain ⟨_, rfl, _⟩ := hrequired
  refine .param (p := ⟨⟨3, "p", some .int, false, none, [], {}⟩, "M.I"⟩) ?_ ?_
  · rw [Model.lineage_of_baseNames_eq_nil _ rfl]
    exact List.mem_singleton_self _
  · rw [lineage_impl]
    rfl

/-- In the project without the other file the name of the interface leads to it. -/
theorem finds_alone : (model []).Finds impl iface := by
  intro project hproject
  obtain rfl : "p" = project := Option.some.inj hproject
  rfl

theorem straight_alone {d : Definition} (hd : d ∈ [outer, iface, impl]) : (model []).Straight d := by
  intro j hj
  obtain ⟨rfl, rfl⟩ := (leans_iff .alone hd).mp hj
  refine ⟨rfl, fun e he => ?_⟩
  rcases ReflTransGen.cases_head he with rfl | ⟨_, ⟨name, hname, _⟩, _⟩
  · exact finds_alone
  · exact absurd hname List.not_mem_nil

theorem backed_alone : (model []).Backed := Model.backed_ofScopes (by decide)

theorem backed_rival : (model [rival]).Backed := Model.backed_ofScopes (by decide)

/-- Without the other file the type is told what it lacks, and whoever is told so has to conform. -/
theorem missing_told_alone :
    let m := model []
    let checked := Check.file m (.source 0) {} none {}
    let told := (missing.diagnostic (.source 0) (some impl.key.node)).locate {}
    m.Keyed ∧ m.Backed ∧ m.Gathered {} ∧ (m.members impl {}).1.cycle = false ∧ m.Grounded impl ∧
      m.Requires impl iface ∧ m.Finds impl iface ∧ told ∈ checked.1 ∧ told.code = "E0005" ∧
      ∀ x ∈ checked.1, x.code = "E0005" → ∃ d i p, m.Requires d i ∧
        (m.members d {}).1.Lacks (m.members i {}).1 i.qname p ∧
          x = (p.diagnostic (.source 0) (some d.key.node)).locate {} := by
  intro m checked told
  have hgathered : m.Gathered {} := (Model.forgotten_empty _).gathered
  obtain ⟨_, htold, _, hsound⟩ :=
    (State.missing_told m (.source 0) {} none {}).2 keyed_alone backed_alone hgathered
  have himpl : impl ∈ [outer, iface, impl] := by simp
  have hright : ∀ d ∈ [outer, iface, impl], m.Right d (m.members d {}).1 := fun d hd =>
    (Model.members_right keyed_alone.identified (holds hd) hgathered).2
  have hlacks := lacks (hright impl himpl) (hright iface (by simp))
  have hcycle := cycle_eq_false (hright impl himpl)
  have hmem : told ∈ checked.1 := htold impl himpl rfl hcycle (grounded .alone keyed_alone himpl) iface
    (requires .alone) finds_alone missing hlacks
  refine ⟨keyed_alone, backed_alone, hgathered, hcycle, grounded .alone keyed_alone himpl, requires .alone,
    finds_alone, hmem, rfl, fun x hx hcode => ?_⟩
  obtain ⟨d, hd, _, _, i, name, p, _, hdlacks, hx, hrequires⟩ := hsound x hx hcode
  obtain ⟨hrequired, rfl⟩ := hrequires (grounded .alone keyed_alone hd) (straight_alone hd)
  exact ⟨d, i, p, hrequired, hdlacks, hx⟩

/-- **With the other file nothing is told.** -/
theorem missing_untold :
    let m := model [rival]
    m.Keyed ∧ m.Backed ∧ m.Gathered {} ∧ impl ∈ Check.order (m.index.fileTypes (.source 0)) ∧
      impl.kind.isInterface = false ∧ (m.members impl {}).1.cycle = false ∧ m.Grounded impl ∧
      m.Requires impl iface ∧
      (m.members impl {}).1.Lacks (m.members iface {}).1 iface.qname missing ∧
      ∀ tree, (Check.file m (.source 0) tree none {}).1 = [] := by
  intro m
  have hgathered : m.Gathered {} := (Model.forgotten_empty _).gathered
  have himpl : impl ∈ [outer, iface, impl] := by simp
  have hright : ∀ d ∈ [outer, iface, impl], m.Right d (m.members d {}).1 := fun d hd =>
    (Model.members_right keyed_rival.identified (holds hd) hgathered).2
  have hlacks := lacks (hright impl himpl) (hright iface (by simp))
  have hcycle := cycle_eq_false (hright impl himpl)
  exact ⟨keyed_rival, backed_rival, hgathered, himpl, rfl, hcycle, grounded .rival keyed_rival himpl,
    requires .rival, hlacks, fun tree => by cbv⟩

end Blurred

end NedWorkspace
