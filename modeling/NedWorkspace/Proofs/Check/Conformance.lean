/-
# What interfaces require

SPEC_FULL, section 4.6: interface non-conformance.

A type that is no interface is told what it lacks of its interfaces. The interfaces of a type are
definitions that `like` names lead to, but what is kept of them is their qualified names, and these are
looked up again. `Check.conformance_yields` says what is told of the names; it is what the type owes to its
interfaces where each name leads back to its definition (`Model.Finds`).

The results are `Check.misses_of_requires`, that nothing is left out then, and `Check.requires_of_misses`,
that nothing is made up.
-/

import NedWorkspace.Proofs.Check.Yields
import NedWorkspace.Proofs.Resolve.TopDown

namespace NedWorkspace

open Relation

/-- A parameter or a gate of other members that is missing, as a problem. -/
inductive Members.Lacks (own required : Members) (interface : String) : Problem → Prop
  | param {p : InheritedParam} (hmem : p ∈ required.params) (hnone : own.param? p.decl.name = none) :
    Lacks own required interface (.missingParam p.decl.name interface)
  | gate {g : InheritedGate} (hmem : g ∈ required.gates) (hnone : own.gate? g.decl.name = none) :
    Lacks own required interface (.missingGate g.decl.name interface)

namespace Members.Lacks

variable {own own' required required' : Members} {interface : String} {p : Problem}

/-- A finding about what a type lacks is one that the claim of conformance sorts out. -/
theorem isMissing (h : own.Lacks required interface p) : p.isMissing = true := by
  cases h <;> rfl

/-- Interfaces of members do not matter. -/
theorem congr (h : own.Lacks required interface p)
    (hown : own.params = own'.params ∧ own.gates = own'.gates)
    (hrequired : required.params = required'.params ∧ required.gates = required'.gates) :
    own'.Lacks required' interface p := by
  cases h with
  | param hmem hnone =>
    refine .param (hrequired.1 ▸ hmem) ?_
    rwa [Members.param?, ← hown.1]
  | gate hmem hnone =>
    refine .gate (hrequired.2 ▸ hmem) ?_
    rwa [Members.gate?, ← hown.2]

end Members.Lacks

namespace Model

variable {m : Model} {d i : Definition}

/-- A `like` name of a type on the chain denotes the interface or one that extends it, maybe through
others. -/
def Requires (m : Model) (d i : Definition) : Prop :=
  i.kind.isInterface = true ∧ ∃ j, m.Leans d j ∧ j.kind.isInterface = true ∧ ReflTransGen m.Extends j i

/-- An interface that is required of a type is itself one of the model. -/
theorem holds_of_requires (h : m.Requires d i) : m.Holds i := by
  obtain ⟨_, _, hleans, _, hextends⟩ := h
  exact holds_of_reached (holds_of_leans hleans) hextends

/-- The qualified name of the second type leads to it in the project of the first. -/
def Finds (m : Model) (d i : Definition) : Prop :=
  ∀ project, m.projectFor? d.context = some project → m.innerOrToplevel? i.qname project = some i

/-- The `like` names along the chain denote interfaces, and the qualified names of these and of what they
extend lead to them. -/
def Straight (m : Model) (d : Definition) : Prop :=
  ∀ j, m.Leans d j → j.kind.isInterface = true ∧ ∀ e, ReflTransGen m.Extends j e → m.Finds d e

/-- Canonical types of the project are found. -/
theorem finds_of_component? {project : String} {table : ProjectTable}
    (hproject : m.projectFor? d.context = some project) (htable : m.table? project = some table)
    (hi : table.component? i.qname = some i) : m.Finds d i := by
  intro project' hproject'
  obtain rfl := Option.some.inj (hproject.symm.trans hproject')
  rw [innerOrToplevel?, htable, Option.bind_some, hi]

/-- What is declared does not depend on how it was gathered. -/
theorem Right.declared_eq {x y : Members} (hx : m.Right d x) (hy : m.Right d y) :
    x.params = y.params ∧ x.gates = y.gates := by
  obtain ⟨_, rfl, _⟩ := hx
  obtain ⟨_, rfl, _⟩ := hy
  exact ⟨rfl, rfl⟩

/-- Right answers agree on the base type that a chain of inheritance comes back to. -/
theorem Right.cycle_eq {x y : Members} (hx : m.Right d x) (hy : m.Right d y) : x.cycle = y.cycle := by
  obtain ⟨_, rfl, _⟩ := hx
  obtain ⟨_, rfl, _⟩ := hy
  rfl

/-- A type that leans on another belongs to a project. -/
theorem exists_projectFor_of_leans (hd : m.Holds d) (hkind : d.kind.isInterface = false)
    (h : m.Leans d i) : ∃ project, m.projectFor? d.context = some project := by
  have hdenoted : ∀ {name e}, m.denoted name d.context = some e →
      ∃ project, m.projectFor? d.context = some project := fun he =>
    (Option.bind_eq_some_iff.mp he).imp fun _ => And.left
  obtain ⟨t, ht, name, _, hi⟩ := h
  rcases ReflTransGen.cases_head ((lineage_single hd hkind).reached ht) with rfl | ⟨b, ⟨_, _, hb⟩, _⟩
  · exact hdenoted hi
  · exact hdenoted hb

end Model

namespace Check

open Query

variable {m : Model} {d : Definition} {own : Members}

/-- The finding says that the type lacks what the interface with a name requires. -/
def Owes (m : Model) (d : Definition) (own : Members) (name : String) (x : Finding) : Prop :=
  ∃ project i required, m.projectFor? d.context = some project ∧
    m.innerOrToplevel? name project = some i ∧ i.kind.isInterface = true ∧ m.Right i required ∧
      x.node = some d.key.node ∧ own.Lacks required name x.problem

theorem mem_finding {n : NodeId} {p : Problem} {x : Finding} :
    x ∈ finding n p ↔ x.node = some n ∧ x.problem = p := by
  obtain ⟨node, problem⟩ := x
  simp [finding]

theorem not_mem_findingIf {condition : Bool} {n : NodeId} {p : Problem} {x : Finding}
    (hp : p.isMissing = false) (hx : x.problem.isMissing = true) : x ∉ findingIf condition n p := by
  unfold findingIf
  split
  · intro hmem
    rw [(mem_finding.mp hmem).2, hp] at hx
    exact absurd hx Bool.false_ne_true
  · exact List.not_mem_nil

/-- What is missing of what is required. -/
theorem mem_required_iff {n : NodeId} {required : Members} {name : String} {x : Finding}
    (hx : x.problem.isMissing = true) :
    x ∈ required.params.flatMap (requiredParam n own name) ++
        required.gates.flatMap (requiredGate n own name) ↔
      x.node = some n ∧ own.Lacks required name x.problem := by
  have hparam : ∀ p, x ∈ requiredParam n own name p ↔ own.param? p.decl.name = none ∧
      x.node = some n ∧ x.problem = .missingParam p.decl.name name := by
    intro p
    unfold requiredParam
    cases hown : own.param? p.decl.name with
    | none => simp [mem_finding]
    | some q => simp [not_mem_findingIf (p := .paramTypeDiffers p.decl.name name) rfl hx]
  have hgate : ∀ g, x ∈ requiredGate n own name g ↔ own.gate? g.decl.name = none ∧
      x.node = some n ∧ x.problem = .missingGate g.decl.name name := by
    intro g
    unfold requiredGate
    cases hown : own.gate? g.decl.name with
    | none => simp [mem_finding]
    | some q => simp [not_mem_findingIf (p := .gateDiffers g.decl.name name) rfl hx]
  simp only [List.mem_append, List.mem_flatMap, hparam, hgate]
  constructor
  · rintro (⟨p, hp, hnone, hn, hproblem⟩ | ⟨g, hg, hnone, hn, hproblem⟩)
    · rw [hproblem]
      exact ⟨hn, .param hp hnone⟩
    · rw [hproblem]
      exact ⟨hn, .gate hg hnone⟩
  · rintro ⟨hn, hlacks⟩
    generalize x.problem = problem at hlacks
    cases hlacks with
    | @param p hp hnone => exact .inl ⟨p, hp, hnone, hn, rfl⟩
    | @gate g hg hnone => exact .inr ⟨g, hg, hnone, hn, rfl⟩

/-- What is told against one interface named after `like` is what the type owes because of it. -/
theorem conformsTo_yields (own : Members) (hm : m.Identified) (hbacked : m.Backed) {project : String}
    (hproject : m.projectFor? d.context = some project) (name : String) :
    Yields m (fun part => ∀ x : Finding, x.problem.isMissing = true → (x ∈ part ↔ Owes m d own name x))
      (conformsTo m project d own name) := by
  unfold conformsTo
  cases hfound : (m.innerOrToplevel? name project).filter (·.kind.isInterface) with
  | none =>
    refine .pure fun x _ => ⟨fun hx => absurd hx List.not_mem_nil, ?_⟩
    rintro ⟨project', i, _, hproject', hi, hkind, _⟩
    obtain rfl := Option.some.inj (hproject.symm.trans hproject')
    rw [hi, Option.filter_some, if_pos hkind] at hfound
    exact absurd hfound (by simp)
  | some i =>
    obtain ⟨hi, hkind⟩ := Option.filter_eq_some_iff.mp hfound
    have hheld := hbacked.holds_of_innerOrToplevel? hi
    refine .bind (Yields.members hm hheld) fun required hrequired => .pure fun x hx => ?_
    rw [mem_required_iff hx]
    constructor
    · rintro ⟨hn, hlacks⟩
      exact ⟨project, i, required, hproject, hi, hkind, hrequired, hn, hlacks⟩
    · rintro ⟨project', i', required', hproject', hi', _, hrequired', hn, hlacks⟩
      obtain rfl := Option.some.inj (hproject.symm.trans hproject')
      obtain rfl := Option.some.inj (hi.symm.trans hi')
      exact ⟨hn, hlacks.congr ⟨rfl, rfl⟩ (hrequired'.declared_eq hrequired)⟩

/-- **What is told missing is missing of what the names of interfaces lead to.** -/
theorem conformance_yields (hm : m.Identified) (hbacked : m.Backed) :
    Yields m (fun found => ∀ x : Finding, x.problem.isMissing = true →
      (x ∈ found ↔ d.kind.isInterface = false ∧ ∃ name ∈ own.interfaces, Owes m d own name x))
      (conformance m d own) := by
  unfold conformance
  cases hkind : d.kind.isInterface with
  | true => exact .pure fun x _ => by simp
  | false =>
    rw [if_neg Bool.false_ne_true]
    cases hproject : m.projectFor? d.context with
    | none =>
      refine .pure fun x _ => ⟨fun hx => absurd hx List.not_mem_nil, ?_⟩
      rintro ⟨_, _, _, project, _, _, hproject', _⟩
      exact absurd (hproject.symm.trans hproject') (by simp)
    | some project =>
      have hconforms := gives_collect fun name (_ : name ∈ own.interfaces) =>
        conformsTo_yields own hm hbacked hproject name
      refine hconforms.imp fun found ⟨hall, hfound⟩ x hx => ⟨fun hmem => ?_, ?_⟩
      · obtain ⟨name, hname, part, hpart, hmem⟩ := hfound x hmem
        exact ⟨rfl, name, hname, (hpart x hx).mp hmem⟩
      · rintro ⟨_, name, hname, howes⟩
        obtain ⟨part, hpart, hsubset⟩ := hall name hname
        exact hsubset ((hpart x hx).mpr howes)

/-- The finding tells a type that it lacks what an interface requires that is kept for it. -/
structure Misses (m : Model) (d : Definition) (own : Members) (x : Finding) : Prop where
  kind : d.kind.isInterface = false
  cycle : own.cycle = false
  owes : ∃ name ∈ own.interfaces, Owes m d own name x

/-- For a type of its own, what is told of members that are missing is what `Misses` says. -/
theorem ownType_yields (hm : m.Identified) (hbacked : m.Backed) (hd : m.Holds d) :
    Yields m (fun found => ∃ own, m.Right d own ∧
      ∀ x : Finding, x.problem.isMissing = true → (x ∈ found ↔ Misses m d own x)) (ownType m d) := by
  have hsplits := ownType_splits (m.steady hm hbacked) (Yields.members hm hd)
    (P := fun here => ∃ own, m.Right d own ∧
      ∀ x : Finding, x.problem.isMissing = true → (x ∈ here ↔ Misses m d own x)) ?_ ?_
  · refine hsplits.imp fun found hfound => ?_
    obtain ⟨front, here, rest, rfl, hfront, ⟨own, hown, hhere⟩, hrest⟩ := hfound
    refine ⟨own, hown, fun x hx => ?_⟩
    -- Nothing else says that something is missing, so the comparison decides.
    have hnot : ∀ {part}, About Problem.Plain d.decl.ids part → x ∉ part := fun habout hmem =>
      absurd (hx.symm.trans (habout x hmem).problem.isMissing) (by simp)
    rw [List.mem_append, List.mem_append, or_iff_left (hnot hrest), or_iff_right (hnot hfront), hhere x hx]
  · intro all hall hcycle
    refine ⟨all, hall, fun x hx => ⟨fun hmem => ?_, fun h => ?_⟩⟩
    · rw [(mem_finding.mp hmem).2] at hx
      exact absurd hx Bool.false_ne_true
    · exact absurd (hcycle.symm.trans h.cycle) (by simp)
  · intro all hall hcycle
    refine (conformance_yields hm hbacked).imp fun here hhere => ⟨all, hall, fun x hx => ?_⟩
    rw [hhere x hx]
    exact ⟨fun ⟨hkind, howes⟩ => ⟨hkind, hcycle, howes⟩, fun h => ⟨h.kind, h.owes⟩⟩

/-- The types of a file, in the order they are checked in, are definitions of the model. -/
theorem defines_of_mem_order {file : FileId} (h : d ∈ order (m.index.fileTypes file)) : m.Defines d := by
  unfold DefinitionIndex.fileTypes at h
  split at h
  · rename_i scope hscope
    exact .inl ⟨file, scope, hscope, h⟩
  · exact absurd h List.not_mem_nil

/-- **What is told missing in a file is what its types miss.** -/
theorem fileFindings_yields (hm : m.Identified) (hbacked : m.Backed) (file : FileId) (tree : Tree)
    (expected : Option String) :
    Yields m (fun found =>
      (∀ d ∈ order (m.index.fileTypes file), ∃ own, m.Right d own ∧
        ∀ x : Finding, x.problem.isMissing = true → Misses m d own x → x ∈ found) ∧
      ∀ x ∈ found, x.problem.isMissing = true →
        ∃ d ∈ order (m.index.fileTypes file), ∃ own, m.Right d own ∧ Misses m d own x)
      (fileFindings m file tree expected) := by
  have htypes := gives_collect fun d (hd : d ∈ order (m.index.fileTypes file)) =>
    ownType_yields hm hbacked (.inl (defines_of_mem_order hd))
  refine .bind htypes fun types ⟨hall, htypes⟩ => .pure ⟨fun d hd => ?_, fun x hmem hx => ?_⟩
  · obtain ⟨part, ⟨own, hown, hpart⟩, hsubset⟩ := hall d hd
    exact ⟨own, hown, fun x hx h => List.mem_append_right _ (hsubset ((hpart x hx).mpr h))⟩
  · rcases List.mem_append.mp hmem with hmem | hmem
    · exact absurd (hx.symm.trans (about_package tree expected x hmem).problem.isMissing) (by simp)
    · obtain ⟨d, hd, part, ⟨own, hown, hpart⟩, hmem⟩ := htypes x hmem
      exact ⟨d, hd, own, hown, (hpart x hx).mp hmem⟩

/-! ### What a type owes to its interfaces -/

variable {i : Definition} {required : Members}

/-- **Nothing is left out** where the qualified name of the interface leads to it. -/
theorem misses_of_requires (hm : m.Keyed) (hd : m.Holds d) (hown : m.Right d own)
    (hkind : d.kind.isInterface = false) (hcycle : own.cycle = false) (hgrounded : m.Grounded d)
    (hrequires : m.Requires d i) (hfinds : m.Finds d i) (hrequired : m.Right i required) {p : Problem}
    (hlacks : own.Lacks required i.qname p) : Misses m d own ⟨some d.key.node, p⟩ := by
  obtain ⟨hi, j, hleans, hj, hextends⟩ := hrequires
  obtain ⟨project, hproject⟩ := Model.exists_projectFor_of_leans hd hkind hleans
  have hheld : m.Holds j := Model.holds_of_leans hleans
  have hmem : i ∈ (m.lineage j).1 :=
    ((Model.lineage_branching hheld hj).mem_iff hm hheld i).mpr hextends
  have hname : i.qname ∈ own.interfaces :=
    (((hown.inherits hd).interfaces hgrounded).2 i.qname).mpr ⟨i, .inr ⟨j, hleans, hmem⟩, rfl⟩
  exact ⟨hkind, hcycle, i.qname, hname, project, i, required, hproject, hfinds project hproject, hi,
    hrequired, rfl, hlacks⟩

/-- **Nothing is made up** where all names of interfaces lead to them. -/
theorem requires_of_misses (hm : m.Keyed) (hbacked : m.Backed) (hd : m.Holds d) (hown : m.Right d own)
    {x : Finding} (h : Misses m d own x) : x.node = some d.key.node ∧ ∃ i name required,
      m.Holds i ∧ i.kind.isInterface = true ∧ m.Right i required ∧ own.Lacks required name x.problem ∧
        (m.Grounded d → m.Straight d → m.Requires d i ∧ name = i.qname) := by
  obtain ⟨name, hname, project, i, required, hproject, hi, hikind, hrequired, hn, hlacks⟩ := h.owes
  refine ⟨hn, i, name, required, hbacked.holds_of_innerOrToplevel? hi, hikind, hrequired, hlacks,
    fun hgrounded hstraight => ?_⟩
  obtain ⟨e, himplements, rfl⟩ := (((hown.inherits hd).interfaces hgrounded).2 name).mp hname
  obtain ⟨hkind, _⟩ | ⟨j, hleans, hmem⟩ := himplements
  · exact absurd (h.kind.symm.trans hkind) Bool.false_ne_true
  · obtain ⟨hj, hfinds⟩ := hstraight j hleans
    have hheld : m.Holds j := Model.holds_of_leans hleans
    have hextends := ((Model.lineage_branching hheld hj).mem_iff hm hheld e).mp hmem
    -- The name was kept for `e`, and what it leads to is `e` again.
    obtain rfl := Option.some.inj (hi.symm.trans (hfinds e hextends project hproject))
    exact ⟨⟨hikind, j, hleans, hj, hextends⟩, rfl⟩

end Check
end NedWorkspace
