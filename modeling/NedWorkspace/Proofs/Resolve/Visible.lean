/-
# The names that can be used are the names that denote a type

SPEC_FULL, section 4.3: `lookup` and `get_visible_type_names`.

A name is looked up step by step: inner types, imports that name it, the package, imports with stars.
The list of usable names is made in one go from all canonical types. Both come to the same because the
qualified name of a top-level type tells its package and its simple name.

* `Model.named_of_resolveSimple`: what a simple name denotes bears that name.
* `Model.isSome_resolveSimple`: a simple name denotes a type if there is an inner type of that name, or a
  canonical type of that name in the package or covered by an import.

The main result is `Model.mem_visibleNames_iff_lookup`.
-/

import Mathlib
import NedWorkspace.Proofs.Definition.Build
import NedWorkspace.Proofs.Definition.Registration
import NedWorkspace.Proofs.Resolve.Memory

namespace NedWorkspace

/-- A table of types that each go by their package and a simple name. -/
def ProjectTable.Named (t : ProjectTable) : Prop :=
  ∃ defs, t = .ofList defs ∧ ∀ d ∈ defs, d.Named

namespace ProjectTable.Named

variable {t : ProjectTable} {d : Definition} {qname : String}

/-- A definition of a table is the component of its name. -/
theorem mem_definitions (h : t.Named) : d ∈ t.definitions ↔ t.component? d.qname = some d := by
  obtain ⟨defs, rfl, _⟩ := h
  exact mem_definitions_ofList

/-- The component of a name is a definition that has it. -/
theorem of_component? (h : t.Named) (hd : t.component? qname = some d) :
    d ∈ t.definitions ∧ d.qname = qname := by
  obtain ⟨defs, rfl, _⟩ := h
  exact mem_definitions_of_component? hd

theorem named (h : t.Named) (hd : d ∈ t.definitions) : d.Named := by
  obtain ⟨defs, rfl, hnamed⟩ := h
  exact hnamed d (eq_qname_of_component? (mem_definitions_ofList.mp hd)).2

/-- The index of simple names lists the definitions that have one, in order. -/
theorem withSimpleName (h : t.Named) (name : String) :
    t.withSimpleName name = (t.definitions.filter (·.name == name)).map (·.qname) := by
  obtain ⟨defs, rfl, _⟩ := h
  exact withSimpleName_ofList defs name

end ProjectTable.Named

/-- The table of a project: the built-in types are registered before types of files that were read. -/
def ProjectTable.Seeded (t : ProjectTable) : Prop :=
  ∃ defs, t = .ofList (DefinitionIndex.seeded.builtins ++ defs) ∧ ∀ d ∈ defs, d.Read

/-- The built-in types are those of a text. -/
theorem DefinitionIndex.read_of_mem_builtins {d : Definition}
    (h : d ∈ DefinitionIndex.seeded.builtins) : d.Read := by
  obtain ⟨t, ht, rfl⟩ := List.mem_map.mp h
  exact .intro .builtin 0 Builtin.text rfl ht

theorem ProjectTable.Seeded.named {t : ProjectTable} (h : t.Seeded) : t.Named := by
  obtain ⟨defs, rfl, hread⟩ := h
  refine ⟨_, rfl, fun d hd => ?_⟩
  rcases List.mem_append.mp hd with hd | hd
  · exact (DefinitionIndex.read_of_mem_builtins hd).named
  · exact (hread d hd).named

/-- A type can be used by its simple name in a file. -/
def FileScope.Admits (s : FileScope) (d : Definition) : Prop :=
  d.package = s.package ∨ ∃ i ∈ s.imports, i.covers d.qname = true

/-- An import without stars covers the one name that it spells. -/
theorem ImportSpec.covers_of_not_isWildcard {i : ImportSpec} (h : i.isWildcard = false)
    (qname : String) : i.covers qname = true ↔ i.text = qname := by
  simp [covers, coversBy, search?, h]

namespace Model

variable {m : Model} {t : ProjectTable} {imports : List ImportSpec} {name : String} {d : Definition}

/-! ### Imports that name a type -/

/-- What an import by name brings is a definition with the simple name asked for. -/
theorem of_importedByName? (ht : t.Named) (hname : Name.isQualified name = false)
    (h : importedByName? t imports name = some d) :
    d ∈ t.definitions ∧ d.name = name ∧ ∃ i ∈ imports, i.covers d.qname = true := by
  obtain ⟨i, hi, hfound⟩ := List.exists_of_findSome?_eq_some h
  split at hfound
  · rename_i hnames
    obtain ⟨hmem, hqname⟩ := ht.of_component? hfound
    have hnamed := ht.named hmem
    have htext : i.text = Name.qualify d.package d.name := hqname.symm.trans hnamed.qname
    obtain ⟨hplain, hdname⟩ := (ImportSpec.names_qualify hnamed.simple hname htext).mp hnames
    exact ⟨hmem, hdname.symm, i, hi, (ImportSpec.covers_of_not_isWildcard hplain _).mpr hqname.symm⟩
  · exact absurd hfound (by simp)

/-- Whatever an import by name covers is brought by it or by one before it. -/
theorem isSome_importedByName? (ht : t.Named) (hname : Name.isQualified name = false)
    (hd : d ∈ t.definitions) (hdname : d.name = name) {i : ImportSpec} (hi : i ∈ imports)
    (hplain : i.isWildcard = false) (hcovers : i.covers d.qname = true) :
    (importedByName? t imports name).isSome = true := by
  have hnamed := ht.named hd
  have htext := (ImportSpec.covers_of_not_isWildcard hplain _).mp hcovers
  have hnames : i.names name = true :=
    (ImportSpec.names_qualify hnamed.simple hname (htext.trans hnamed.qname)).mpr
      ⟨hplain, hdname.symm⟩
  rw [importedByName?, List.isSome_findSome?, List.any_eq_true]
  refine ⟨i, hi, ?_⟩
  rw [if_pos hnames, htext, ht.mem_definitions.mp hd]
  rfl

/-! ### The package -/

/-- The type that a package has under a simple name. -/
theorem component?_qualify (ht : t.Named) (hname : Name.isQualified name = false)
    {package : String} : t.component? (Name.qualify package name) = some d ↔
      d ∈ t.definitions ∧ d.package = package ∧ d.name = name := by
  constructor
  · intro h
    obtain ⟨hmem, hqname⟩ := ht.of_component? h
    have hnamed := ht.named hmem
    exact ⟨hmem, Name.qualify_inj hnamed.simple hname (hnamed.qname.symm.trans hqname)⟩
  · rintro ⟨hmem, rfl, rfl⟩
    rw [← (ht.named hmem).qname]
    exact ht.mem_definitions.mp hmem

/-! ### Imports with stars -/

/-- What an import with stars brings is a definition with the simple name asked for. -/
theorem of_importedByPattern? (ht : t.Named) (h : importedByPattern? t imports name = some d) :
    d ∈ t.definitions ∧ d.name = name ∧ ∃ i ∈ imports, i.covers d.qname = true := by
  obtain ⟨qname, hfound, hcomponent⟩ := Option.bind_eq_some_iff.mp h
  obtain ⟨i, hi, hfind⟩ := List.exists_of_findSome?_eq_some hfound
  rw [ht.withSimpleName] at hfind
  obtain ⟨e, he, rfl⟩ := List.mem_map.mp (List.mem_of_find?_eq_some hfind)
  obtain ⟨hmem, hename⟩ := List.mem_filter.mp he
  rw [ht.mem_definitions.mp hmem] at hcomponent
  obtain rfl := Option.some.inj hcomponent
  exact ⟨hmem, eq_of_beq hename, i, (List.mem_filter.mp hi).1, List.find?_some hfind⟩

/-- Whatever an import with stars covers is brought by it or by one before it. -/
theorem isSome_importedByPattern? (ht : t.Named) (hd : d ∈ t.definitions) (hdname : d.name = name)
    {i : ImportSpec} (hi : i ∈ imports) (hstar : i.isWildcard = true)
    (hcovers : i.covers d.qname = true) : (importedByPattern? t imports name).isSome = true := by
  have hqname : d.qname ∈ t.withSimpleName name := by
    rw [ht.withSimpleName]
    exact List.mem_map_of_mem (List.mem_filter.mpr ⟨hd, beq_iff_eq.mpr hdname⟩)
  have hfound : ((imports.filter ImportSpec.isWildcard).findSome? fun i =>
      (t.withSimpleName name).find? i.covers).isSome = true := by
    rw [List.isSome_findSome?, List.any_eq_true]
    refine ⟨i, List.mem_filter.mpr ⟨hi, hstar⟩, ?_⟩
    rw [List.find?_isSome]
    exact ⟨d.qname, hqname, hcovers⟩
  obtain ⟨qname, hqname'⟩ := Option.isSome_iff_exists.mp hfound
  obtain ⟨j, _, hfind⟩ := List.exists_of_findSome?_eq_some hqname'
  rw [ht.withSimpleName] at hfind
  obtain ⟨e, he, rfl⟩ := List.mem_map.mp (List.mem_of_find?_eq_some hfind)
  rw [importedByPattern?, hqname', Option.bind_some,
    ht.mem_definitions.mp (List.mem_filter.mp he).1]
  rfl

/-! ### Simple names -/

/-- The first type of a file is the one around a context that is the type itself. -/
theorem compoundAround?_of_types (hm : m.index.WellFormed) {scope : FileScope} {c : Definition}
    {cs : List Definition} (hscope : m.index.file? c.key.file = some scope) (htypes : scope.types = c :: cs)
    (htop : c.toplevel = c.key) (hcompound : c.kind.isCompound = true) :
    m.compoundAround? (.type c.key) = some c := by
  have hget : m.index.get? c.key = some c :=
    hm.get?_of_mem hscope (Definition.mem_withInner_self (htypes ▸ List.mem_cons_self))
  rw [compoundAround?, hget, Option.bind_some, htop, hget, Option.filter_some, if_pos hcompound]

variable {scope : FileScope} {context : LookupContext}

/-- **What a simple name denotes bears that name:** it is an inner type of the compound module around,
or a canonical type that can be used by its simple name. -/
theorem named_of_resolveSimple (ht : t.Named) (hname : Name.isQualified name = false)
    (h : m.resolveSimple t scope context name = some d) :
    d.name = name ∧ ((∃ c, m.compoundAround? context = some c ∧ d ∈ c.inner) ∨
      d ∈ t.definitions ∧ scope.Admits d) := by
  simp only [resolveSimple, Option.or_eq_some_iff, Option.or_eq_none_iff] at h
  rcases h with ((hinner | ⟨_, himport⟩) | ⟨_, hpackage⟩) | ⟨_, hpattern⟩
  · obtain ⟨c, hc, hfind⟩ := Option.bind_eq_some_iff.mp hinner
    have hdname : d.name = name := by simpa using List.find?_some hfind
    exact ⟨hdname, .inl ⟨c, hc, List.mem_of_find?_eq_some hfind⟩⟩
  · obtain ⟨hmem, hdname, hcovers⟩ := of_importedByName? ht hname himport
    exact ⟨hdname, .inr ⟨hmem, .inr hcovers⟩⟩
  · obtain ⟨hmem, hpackage, hdname⟩ := (component?_qualify ht hname).mp hpackage
    exact ⟨hdname, .inr ⟨hmem, .inl hpackage⟩⟩
  · obtain ⟨hmem, hdname, hcovers⟩ := of_importedByPattern? ht hpattern
    exact ⟨hdname, .inr ⟨hmem, .inr hcovers⟩⟩

/-- **When a simple name denotes a type.** -/
theorem isSome_resolveSimple (ht : t.Named) (hname : Name.isQualified name = false) :
    (m.resolveSimple t scope context name).isSome = true ↔
      (∃ c, m.compoundAround? context = some c ∧ ∃ i ∈ c.inner, i.name = name) ∨
        ∃ d ∈ t.definitions, d.name = name ∧ scope.Admits d := by
  constructor
  · intro h
    obtain ⟨d, hd⟩ := Option.isSome_iff_exists.mp h
    obtain ⟨hdname, ⟨c, hc, hmem⟩ | ⟨hmem, hadmits⟩⟩ := named_of_resolveSimple ht hname hd
    · exact .inl ⟨c, hc, d, hmem, hdname⟩
    · exact .inr ⟨d, hmem, hdname, hadmits⟩
  · intro h
    simp only [resolveSimple, Option.isSome_or, Bool.or_eq_true]
    rcases h with ⟨c, hc, i, hi, hiname⟩ | ⟨d, hd, hdname, hpackage | ⟨i, hi, hcovers⟩⟩
    · refine .inl (.inl (.inl ?_))
      rw [hc, Option.bind_some, Definition.inner?, List.find?_isSome]
      exact ⟨i, hi, beq_iff_eq.mpr hiname⟩
    · refine .inl (.inr ?_)
      rw [(component?_qualify ht hname).mpr ⟨hd, hpackage, hdname⟩]
      rfl
    · cases hstar : i.isWildcard with
      | true => exact .inr (isSome_importedByPattern? ht hd hdname hi hstar hcovers)
      | false =>
        exact .inl (.inl (.inr (isSome_importedByName? ht hname hd hdname hi hstar hcovers)))

/-! ### The list of names -/

/-- The types that can be used are listed by their simple names. -/
theorem mem_visibleNames (hproject : (m.projectFor? context).bind m.table? = some t)
    (hscope : m.index.file? context.fileId = some scope) :
    name ∈ m.visibleNames context (fun _ => true) ↔
      (∃ c, m.compoundAround? context = some c ∧ ∃ i ∈ c.inner, i.name = name) ∨
        ∃ d ∈ t.definitions, d.name = name ∧ scope.Admits d := by
  unfold visibleNames
  rw [hproject, hscope]
  simp only [mem_sortedSet, List.map_append, List.mem_append, Bool.and_true]
  rw [or_comm]
  refine or_congr ?_ ?_
  · cases m.compoundAround? context with
    | none => simp
    | some c => simp
  · simp only [List.mem_map, List.mem_filter, Bool.or_eq_true, beq_iff_eq, List.any_eq_true,
      FileScope.Admits]
    constructor
    · rintro ⟨d, ⟨hd, hadmits⟩, rfl⟩
      exact ⟨d, hd, rfl, hadmits⟩
    · rintro ⟨d, hd, rfl, hadmits⟩
      exact ⟨d, ⟨hd, hadmits⟩, rfl⟩

/-- **The usable names are those that denote a type.** Take any definitions of files and any tables that
are made of the built-in types and of types of files that were read, however these are spread over
projects and packages. A name without points is listed for a context just when looking it up there finds a
type, from any memory without stale answers. In a file of no project, or of one without a table, both
sides are false. -/
theorem mem_visibleNames_iff_lookup {m : Model} (htables : ∀ e ∈ m.tables.entries, e.2.Seeded)
    {memory : Memory} (hmemory : memory.Coherent m) (context : LookupContext) {name : String}
    (hname : Name.isQualified name = false) :
    name ∈ m.visibleNames context (fun _ => true) ↔
      (m.lookup name context memory).1.isSome = true := by
  rw [hmemory.lookup, denoted]
  cases hproject : m.projectFor? context with
  | none => simp [visibleNames, hproject]
  | some project =>
    rw [Option.bind_some, resolve]
    cases htable : m.table? project with
    | none => simp [visibleNames, hproject, htable]
    | some t =>
      cases hscope : m.index.file? context.fileId with
      | none => simp [visibleNames, hproject, hscope]
      | some scope =>
        have ht : t.Named := (htables (project, t) (OrderedMap.mem_of_get? htable)).named
        have hbound : (m.projectFor? context).bind m.table? = some t := by rw [hproject]; exact htable
        simp only [hname, Bool.false_eq_true, if_false]
        rw [mem_visibleNames hbound hscope, isSome_resolveSimple ht hname]

/-- A compound module with a type inside it. -/
def nestedText : String := "module M\x7btypes:simple T;\x7d"

/-- A text with an inner type, as it is read. -/
theorem exists_nested : ∃ c cs i,
    (FileScope.ofTree (.source 0) 1 (Parse.ofText nestedText).tree (some "p")).types = c :: cs ∧
      c.key = ⟨.source 0, 1⟩ ∧ c.toplevel = c.key ∧ c.kind.isCompound = true ∧ i ∈ c.inner ∧
        i.name = "T" := by
  set scope := FileScope.ofTree (.source 0) 1 (Parse.ofText nestedText).tree (some "p") with hscope
  have hfirst : scope.types.head?.any (fun c => decide (c.key = ⟨.source 0, 1⟩) &&
      (decide (c.toplevel = c.key) && (c.kind.isCompound && c.inner.any (·.name == "T")))) = true := by
    rw [hscope]
    cbv
  cases htypes : scope.types with
  | nil => exact absurd (htypes ▸ hfirst) (by simp)
  | cons c cs =>
    rw [htypes] at hfirst
    simp only [List.head?_cons, Option.any_some, Bool.and_eq_true, decide_eq_true_eq,
      List.any_eq_true, beq_iff_eq] at hfirst
    obtain ⟨hkey, htop, hcompound, i, hi, hname⟩ := hfirst
    exact ⟨c, cs, i, rfl, hkey, htop, hcompound, hi, hname⟩

/-- Inside a compound module its inner type can be used. -/
theorem mem_visibleNames_iff_lookup_inner :
    ∃ m : Model, (∀ e ∈ m.tables.entries, e.2.Seeded) ∧ Memory.Coherent m {} ∧
      Name.isQualified "T" = false ∧
      (m.lookup "T" (.type ⟨.source 0, 1⟩) {}).1.isSome = true := by
  let tree := (Parse.ofText nestedText).tree
  let index := DefinitionIndex.seeded.setFile (.source 0) tree (some "p")
  let scope := FileScope.ofTree (.source 0) 1 tree (some "p")
  let t : ProjectTable := .ofList (DefinitionIndex.seeded.builtins ++ scope.types)
  let m : Model := ⟨index, ⟨[("p", t)]⟩⟩
  have htables : ∀ e ∈ m.tables.entries, e.2.Seeded := by
    intro e he
    obtain rfl := List.mem_singleton.mp he
    refine ⟨_, rfl, fun d hd => ?_⟩
    obtain ⟨t, ht, rfl⟩ := List.mem_map.mp hd
    exact .intro _ _ nestedText rfl ht
  have hmemory : Memory.Coherent m {} := fun _ he => absurd he List.not_mem_nil
  obtain ⟨c, cs, i, htypes, hkey, htop, hcompound, hi, hname⟩ := exists_nested
  have haround : m.compoundAround? (.type ⟨.source 0, 1⟩) = some c :=
    hkey ▸ compoundAround?_of_types (DefinitionIndex.wellFormed_seeded.build (Tree.numbered_ofText _).1)
      (hkey ▸ rfl) htypes htop hcompound
  have hvisible : "T" ∈ m.visibleNames (.type ⟨.source 0, 1⟩) fun _ => true :=
    (mem_visibleNames (t := t) rfl rfl).mpr (.inl ⟨c, haround, i, hi, hname⟩)
  exact ⟨m, htables, hmemory, by decide,
    (mem_visibleNames_iff_lookup htables hmemory _ (by decide)).mp hvisible⟩

end Model
end NedWorkspace
