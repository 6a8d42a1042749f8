/-
# What a project sees

SPEC_FULL, section 4.2: transitively referenced projects.

A project sees the types of its own files and of the files of all projects to which references lead from
it. Its table lists these types and the built-in ones: for whatever files the tables are computed, and so
in every reachable state for the loaded files without mistakes. A file has one owner and a type is that of
one file, so the types of a file are listed exactly if its owner is seen
(`Registry.visible_iff_reached`).
-/

import NedWorkspace.Proofs.Project.References
import NedWorkspace.Proofs.Workspace.Duplicates

namespace NedWorkspace

open Relation

/-- A table tells of a type, as the only one of its name or as one of several. -/
def ProjectTable.Lists (t : ProjectTable) (d : Definition) : Prop :=
  d ∈ t.definitions ∨ ∃ e ∈ t.duplicates.entries, d ∈ e.2

namespace Registry

/-- Every project has a table, made of what the project sees. -/
theorem table?_rehash (r : Registry) (index : DefinitionIndex) (files : List (FileId × String))
    (name : String) : (r.rehash index files).table? name =
      (r.project? name).map fun _ => .ofList (r.contributions index files name) := by
  unfold rehash table? project? OrderedMap.get?
  rw [List.find?_map, Option.map_map, Option.map_map]
  change Option.map _ (r.projects.entries.find? fun e => decide (e.1 = name)) = _
  refine Option.map_congr fun e he => ?_
  have hname : e.1 = name := by simpa using List.find?_some he
  rw [← hname]
  rfl

/-- What counts for a project is built in or is in a file of a project that it sees. -/
theorem mem_contributions {r : Registry} {index : DefinitionIndex} {files : List (FileId × String)}
    {project : String} {d : Definition} : d ∈ r.contributions index files project ↔
      d ∈ index.builtins ∨ ∃ file ∈ files, r.sees project file.2 = true ∧ d ∈ index.fileTypes file.1 := by
  simp only [contributions, List.mem_append, List.mem_flatMap, List.mem_filter, and_assoc]

/-- The table of a project lists the built-in types and those of the files whose owner it sees. -/
theorem exists_table?_rehash {r : Registry} {project : String} {p : Project}
    (hp : r.project? project = some p) (index : DefinitionIndex) (files : List (FileId × String)) :
    ∃ t, (r.rehash index files).table? project = some t ∧ ∀ d, t.Lists d ↔
      d ∈ index.builtins ∨ ∃ file ∈ files, r.sees project file.2 = true ∧ d ∈ index.fileTypes file.1 := by
  refine ⟨.ofList (r.contributions index files project), ?_, fun d => ?_⟩
  · rw [table?_rehash, hp]
    rfl
  · rw [← mem_contributions]
    exact ProjectTable.mem_ofList_iff

/-- A configured project is registered, with the projects to which references lead from it. -/
theorem exists_project?_ofConfigs {configs : List ProjectConfig} {project : String}
    (hmem : project ∈ configs.map ProjectConfig.name) :
    ∃ p, (ofConfigs configs).project? project = some p ∧
      p.referenced = Project.reachable configs project := by
  have hreferenced := project?_ofConfigs configs project
  rw [if_pos hmem] at hreferenced
  exact Option.map_eq_some_iff.mp hreferenced

end Registry

namespace State

variable {st : State}

/-- **The types of a file without mistakes are among those that a project sees exactly if the project
sees the owner of the file.** -/
theorem Reachable.mem_typesSeenBy_iff (h : st.Reachable) {f : SourceFile} (hf : f ∈ st.store.all)
    (hbroken : f.broken = false) {d : Definition} (hd : d ∈ st.index.fileTypes f.id) {project : String} :
    d ∈ st.typesSeenBy project ↔
      ∃ owner, st.registry.owner? f.path = some owner ∧ st.registry.sees project owner = true := by
  have hkeys := h.kept.keys_fileTypes h.indexed
  have hfile := (hkeys f.id).2 d hd
  have hseen : d ∈ st.typesSeenBy project ↔ f ∈ st.filesSeenBy project := by
    constructor
    · intro hmem
      rcases List.mem_append.mp hmem with hbuiltin | hread
      · have hnone := (hkeys .builtin).2 d hbuiltin
        rw [hfile] at hnone
        exact FileId.noConfusion hnone
      · -- The file of a type is the only one with its number.
        obtain ⟨g, hg, hdg⟩ := List.mem_flatMap.mp hread
        have hid : f.id = g.id := hfile.symm.trans ((hkeys g.id).2 d hdg)
        exact h.kept.store.eq_of_id hf (List.mem_filter.mp hg).1 hid ▸ hg
    · exact fun hmem => List.mem_append_right _ (List.mem_flatMap.mpr ⟨f, hmem, hd⟩)
  rw [hseen, filesSeenBy, List.mem_filter, and_iff_right hf, hbroken, Bool.not_false, Bool.true_and,
    Option.any_eq_true]

/-- The table of a project lists a type of a file without mistakes exactly if the project sees the owner
of the file. -/
theorem Reachable.exists_table?_rehash (h : st.Reachable) {project : String} {p : Project}
    (hp : st.registry.project? project = some p) :
    ∃ t, st.rehash.registry.table? project = some t ∧
      ∀ f ∈ st.store.all, f.broken = false → ∀ d ∈ st.index.fileTypes f.id, t.Lists d ↔
        ∃ owner, st.registry.owner? f.path = some owner ∧ st.registry.sees project owner = true := by
  obtain ⟨t, ht, -⟩ := Registry.exists_table?_rehash hp st.index st.participants
  have htable : st.rehash.registry.table? project = some t := (h.table?_rehash project).trans ht
  exact ⟨t, htable, fun f hf hbroken d hd =>
    (h.mem_table_iff htable).trans (h.mem_typesSeenBy_iff hf hbroken hd)⟩

end State

/-! ### Visibility -/

namespace Registry

open Project

/-- **Visibility is reachability.** For every list of configurations, whatever their references and
names, each project lists exactly the other configured projects to which references lead from it, each
once. Seeing is reflexive and transitive. Whatever files the tables are computed for, that of a project
lists the built-in types and those of the files whose owner the project sees, and no other; and in every
reachable state with these projects the types of a file without mistakes are listed in the table of a
project exactly if the project sees the owner of the file. -/
theorem visible_iff_reached (configs : List ProjectConfig) :
    let names := configs.map ProjectConfig.name
    let r := ofConfigs configs
    (∀ project ∈ names, ∃ p, r.project? project = some p ∧ p.referenced.Nodup ∧
      ∀ other, other ∈ p.referenced ↔
        other ∈ names ∧ other ≠ project ∧ TransGen (Refers configs) project other) ∧
    (∀ a, r.sees a a = true) ∧
    (∀ a b c, r.sees a b = true → r.sees b c = true → r.sees a c = true) ∧
    (∀ (index : DefinitionIndex) (files : List (FileId × String)), ∀ project ∈ names,
      ∃ t, (r.rehash index files).table? project = some t ∧ ∀ d, t.Lists d ↔
        d ∈ index.builtins ∨
          ∃ file ∈ files, r.sees project file.2 = true ∧ d ∈ index.fileTypes file.1) ∧
    ∀ st : State, st.Reachable → st.registry.projects = r.projects → ∀ project ∈ names,
      ∃ t, st.rehash.registry.table? project = some t ∧
        ∀ f ∈ st.store.all, f.broken = false → ∀ d ∈ st.index.fileTypes f.id,
          t.Lists d ↔ ∃ owner, r.owner? f.path = some owner ∧ r.sees project owner = true := by
  intro names r
  refine ⟨?referenced, ?refl, ?trans, ?tables, ?states⟩
  case referenced =>
    intro project hmem
    obtain ⟨p, hp, hreferenced⟩ := exists_project?_ofConfigs hmem
    refine ⟨p, hp, hreferenced ▸ nodup_reachable configs project, fun other => ?_⟩
    rw [hreferenced, mem_reachable_iff]
    exact ⟨fun h => ⟨configured_of_transGen h.2, h⟩, And.right⟩
  case refl => exact fun a => (sees_iff rfl).mpr .refl
  case trans =>
    intro a b c hab hbc
    rw [sees_iff rfl] at hab hbc ⊢
    exact hab.trans hbc
  case tables =>
    intro index files project hmem
    obtain ⟨p, hp, -⟩ := exists_project?_ofConfigs hmem
    exact exists_table?_rehash hp index files
  case states =>
    intro st hst hprojects project hmem
    obtain ⟨p, hp, -⟩ := exists_project?_ofConfigs hmem
    have hp' : st.registry.project? project = some p := by rwa [project?, hprojects]
    simp only [← owner?_congr hprojects, ← sees_congr hprojects]
    exact hst.exists_table?_rehash hp'

/-- Two projects refer to each other, and to themselves or to none as well. The one lists a type of the
other. -/
theorem visible_in_circle : ∃ (st : State) (t : ProjectTable) (d : Definition), st.Reachable ∧
    st.registry.projects = (ofConfigs [⟨"p", ⟨"/p"⟩, [⟨""⟩], ["q", "none", "q"]⟩,
      ⟨"q", ⟨"/q"⟩, [⟨""⟩], ["q", "p"]⟩]).projects ∧
    st.rehash.registry.table? "q" = some t ∧ d ∈ st.index.fileTypes (.source 0) ∧ t.Lists d := by
  let configs : List ProjectConfig :=
    [⟨"p", ⟨"/p"⟩, [⟨""⟩], ["q", "none", "q"]⟩, ⟨"q", ⟨"/q"⟩, [⟨""⟩], ["q", "p"]⟩]
  let text := State.twiceText
  let st := ((({} : State).reconfigure configs).loadNew ⟨"/p/a.ned"⟩ text (Parse.ofText text)).2
  have hst : st.Reachable := .tail (.single (.configured {} _)) (.loaded rfl text)
  have hprojects : st.registry.projects = (ofConfigs configs).projects := rfl
  obtain ⟨f, hall, hid, hpath, htext⟩ : ∃ f, st.store.all = [f] ∧ f.id = .source 0 ∧
      f.path = ⟨"/p/a.ned"⟩ ∧ f.text = text := ⟨_, rfl, rfl, rfl, rfl⟩
  have hf : f ∈ st.store.all := hall ▸ List.mem_cons_self
  have hbroken : f.broken = false := by
    have hok : (Parse.ofText text).ok = true := by cbv
    rw [(hst.kept.files f hf).broken, htext, hok]
    rfl
  have howner : (ofConfigs configs).owner? f.path = some "p" := by
    rw [hpath]
    decide +kernel
  have hsees : (ofConfigs configs).sees "q" "p" = true :=
    (sees_iff rfl).mpr (.single ⟨by decide, by decide⟩)
  obtain ⟨d, hd⟩ : ∃ d, d ∈ st.index.fileTypes (.source 0) := by
    obtain ⟨x, y, htypes, -⟩ := State.types_twice (.source 0) 1
    have hfile : st.index.fileTypes (.source 0) = [x, y] := by
      refine (State.fileTypes_loadNew ..).trans ?_
      rw [← hpath]
      exact howner ▸ htypes
    exact ⟨x, hfile ▸ List.mem_cons_self⟩
  obtain ⟨-, -, -, -, hstates⟩ := visible_iff_reached configs
  obtain ⟨t, ht, hlists⟩ := hstates st hst hprojects "q" (by decide)
  exact ⟨st, t, d, hst, hprojects, ht, hd, (hlists f hf hbroken d (hid ▸ hd)).mpr ⟨"p", howner, hsees⟩⟩

end Registry

end NedWorkspace
