/-
# Tables depend on the files alone

SPEC_FULL, section 8: tables equal the pure function of the files and the projects.

The tables of a workspace are brought up to date from what earlier operations left: which files are
loaded, which definitions are built, and whether anything that counts has changed since the tables were
last computed. `State.tableViews` is what the tables say, apart from the numbers of files and nodes and
from spans. The main result, `World.tables_of_files`, is that this is what the tables of a new workspace
say that loads the same texts.
-/

import NedWorkspace.Proofs.Workspace.Fresh

namespace NedWorkspace

open State

/-- What a table tells of a definition, apart from numbers and spans. -/
structure TableEntry where
  /-- The path of the file that declares the type; none for a built-in one. -/
  path : Option Path
  qname : String
  package : String
  kind : TypeKind
  /-- What is written in the declaration. -/
  decl : TypeDecl

/-- What a table tells, apart from numbers and spans. -/
structure TableView where
  /-- The canonical definitions by qualified name, in order. -/
  components : List (String × TableEntry)
  /-- The definitions of ambiguous names, in order. -/
  duplicates : List (String × List TableEntry)
  reserved : List String
  /-- The canonical qualified names by simple name. -/
  named : String → List String

namespace State

/-- The path of a loaded file. -/
def pathOf? (st : State) (file : FileId) : Option Path :=
  (st.store.get? file).map SourceFile.path

/-- What a table of a state tells of a definition. -/
def tableEntry (st : State) (d : Definition) : TableEntry :=
  { path := st.pathOf? d.file, qname := d.qname, package := d.package, kind := d.kind
    decl := Stamped.restamp .bare d.decl }

/-- What a table of a state tells. -/
def tableView (st : State) (t : ProjectTable) : TableView :=
  { components := t.components.entries.map fun e => (e.1, st.tableEntry e.2)
    duplicates := t.duplicates.entries.map fun e => (e.1, e.2.map st.tableEntry)
    reserved := t.reserved
    named := t.withSimpleName }

/-- What the tables of all projects tell. -/
def tableViews (st : State) : List (String × TableView) :=
  st.registry.tables.entries.map fun e => (e.1, st.tableView e.2)

namespace SameFiles

variable {st fr : State} (h : st.SameFiles fr)
include h

/-- Corresponding files have the same path. -/
theorem pathOf?_eq {a a' : FileId} {t u : Tree} (hp : PairedFile st fr a a' t u) :
    st.pathOf? a = fr.pathOf? a' := by
  cases hp with
  | builtin =>
    have hnone : ∀ {s : State}, s.store.WellFormed → s.pathOf? .builtin = none := by
      intro s hs
      have hget : s.store.get? .builtin = none :=
        Option.eq_none_iff_forall_ne_some.mpr fun f hf => nomatch (hs.held hf).1
      rw [pathOf?, hget]
      rfl
    rw [hnone h.kept.store, hnone h.kept'.store]
  | @source f g hf hg hpath htext hbroken =>
    rw [pathOf?, pathOf?, h.kept.store.get?_of_mem hf, h.kept'.store.get?_of_mem hg]
    exact congrArg some hpath

/-- What a table shows of a type is the same on both sides. -/
theorem tableEntry_eq {d e : Definition} {m m' : Model}
    (hde : Paired (st.Corresponds fr) m m' d e) : st.tableEntry d = fr.tableEntry e := by
  obtain ⟨_, _, hp, _⟩ := hde.matched.key
  unfold State.tableEntry
  rw [hde.matched.qname, hde.matched.package, hde.matched.kind, hde.matched.decl.bare,
    show st.pathOf? d.file = fr.pathOf? e.file from h.pathOf?_eq hp]

/-- What is shown of tables that match is the same on both sides. -/
theorem tableView_eq {t u : ProjectTable} {m m' : Model}
    (htu : t.Matches (Paired (st.Corresponds fr) m m') u) : st.tableView t = fr.tableView u := by
  have hcomponents : (t.components.entries.map fun e => (e.1, st.tableEntry e.2)) =
      u.components.entries.map fun e => (e.1, fr.tableEntry e.2) :=
    forall₂_map_eq htu.components fun e e' hee => Prod.ext hee.1 (h.tableEntry_eq hee.2)
  have hduplicates : (t.duplicates.entries.map fun e => (e.1, e.2.map st.tableEntry)) =
      u.duplicates.entries.map fun e => (e.1, e.2.map fr.tableEntry) :=
    forall₂_map_eq htu.duplicates fun e e' hee =>
      Prod.ext hee.1 (forall₂_map_eq hee.2 fun _ _ hde => h.tableEntry_eq hde)
  unfold State.tableView
  rw [hcomponents, hduplicates, htu.reserved, funext htu.withSimpleName]

/-- States with the same files have tables that say the same, once they are up to date. -/
theorem tableViews_rehash (hst : st.Coherent) (hfr : fr.Coherent) :
    st.rehash.tableViews = fr.rehash.tableViews := by
  have htables : ∀ {s : State}, s.Coherent → s.rehash.tableViews =
      s.current.tables.entries.map fun e => (e.1, s.tableView e.2) := by
    intro s hs
    have hmodel := congrArg (fun m : Model => m.tables) hs.model_rehash
    have hview : s.rehash.tableView = s.tableView := by
      unfold State.tableView State.tableEntry pathOf?
      rw [store_rehash]
    rw [State.tableViews, hview]
    exact congrArg (fun tables : OrderedMap String ProjectTable =>
      tables.entries.map fun e => (e.1, s.tableView e.2)) hmodel
  rw [htables hst, htables hfr]
  exact forall₂_map_eq h.tables fun e e' hee => Prod.ext hee.1 (h.tableView_eq hee.2)

end SameFiles

end State

/-- **The tables of a session are those of a new workspace with the same files.** Take any session: any
disk, any source of projects, any commands, of listeners too, cut short or not. Its state is configured
by some list of projects. Whatever list gives these projects, in whatever order a new workspace with
that list loads the texts that are loaded now, each once, its tables say what those of the session say
once they are up to date: the same projects, canonical definitions, ambiguous names, reserved names and
simple names, all in the same order. -/
theorem World.tables_of_files {storage : Storage} {provider : Provider} {w : World}
    (hstart : World.start storage provider = .ok w) (commands : List Command) :
    let st := (w.after commands).state
    (∃ configs, st.registry.projects = (Registry.ofConfigs configs).projects) ∧
    ∀ (configs : List ProjectConfig) (disk : Disk) (loaded : List (Path × String)),
      st.registry.projects = (Registry.ofConfigs configs).projects →
      loaded.Perm st.store.texts.entries → (∀ e ∈ loaded, disk.read e.1 = .ok e.2) →
      let fr := State.fresh configs disk (loaded.map Prod.fst)
      fr.store.texts = st.store.texts ∧ fr.registry.projects = st.registry.projects ∧
        st.rehash.tableViews = fr.rehash.tableViews := by
  intro st
  have hst : st.Reachable := World.reachable_after hstart commands
  refine ⟨hst.kept.configured, fun configs disk loaded hconfigs hloaded hdisk => ?_⟩
  have hsame := hst.kept.sameFiles_fresh hconfigs hloaded hdisk
  refine ⟨congrArg SortedMap.mk hsame.files.symm, hsame.projects.symm, ?_⟩
  exact hsame.tableViews_rehash hst.coherent (reachable_fresh ..).coherent

/-- A session in which the only file is broken, checked, and repaired with another type in it. -/
theorem World.tables_of_files_repaired :
    ∃ w configs, World.start (.map (SortedMap.insert {} ⟨"/p/a.ned"⟩ "simple A {}"))
        (.fixed [⟨"p", ⟨"/p"⟩, [⟨""⟩], []⟩]) = .ok w ∧
      let st := (w.after [.request (.load ⟨"/p/a.ned"⟩), .request (.setText ⟨"/p/a.ned"⟩ "simple A"),
        .request .validate, .request (.setText ⟨"/p/a.ned"⟩ "simple B {}")]).state
      st.registry.projects = (Registry.ofConfigs configs).projects ∧
        st.rehash.tableViews = (State.fresh configs st.store.texts.disk
          (st.store.texts.entries.map Prod.fst)).rehash.tableViews := by
  obtain ⟨w, hstart⟩ : ∃ w, World.start (.map (SortedMap.insert {} ⟨"/p/a.ned"⟩ "simple A {}"))
      (.fixed [⟨"p", ⟨"/p"⟩, [⟨""⟩], []⟩]) = .ok w := ⟨_, rfl⟩
  obtain ⟨⟨configs, hconfigs⟩, hviews⟩ := World.tables_of_files hstart
    [.request (.load ⟨"/p/a.ned"⟩), .request (.setText ⟨"/p/a.ned"⟩ "simple A"),
      .request .validate, .request (.setText ⟨"/p/a.ned"⟩ "simple B {}")]
  have hascending := (World.reachable_after hstart [.request (.load ⟨"/p/a.ned"⟩),
    .request (.setText ⟨"/p/a.ned"⟩ "simple A"), .request .validate,
    .request (.setText ⟨"/p/a.ned"⟩ "simple B {}")]).kept.store.ascending_texts
  refine ⟨w, configs, hstart, hconfigs, ?_⟩
  exact (hviews configs _ _ hconfigs (.refl _) fun e he => FileMap.disk_read_of_mem hascending he).2.2

end NedWorkspace
