/-
# Only source folders contribute types

SPEC_FULL, section 4.2: files under no source folder are discarded.

A file is loaded by being opened in an editor, by a change of the disk, together with all missing files,
or by a request to load it. All of these but the last look whether the path is that of a NED file first,
and a change of the projects forgets the files that are none any more. So as long as only NED files are
asked for, all loaded files are NED files (`State.Sourced`), and every type in the table of a project is
built-in or declared in one of them (`State.types_of_sources`).

A request to load a file does not look at the path, and which project owns a file depends on the root of
the project alone. So the types of any file below the root of a project get into its table, if that file is
asked for (`State.type_outside_sources`).
-/

import NedWorkspace.Proofs.Workspace.Duplicates
import NedWorkspace.Proofs.Workspace.Resync
import NedWorkspace.Proofs.Workspace.Unsaved

namespace NedWorkspace

open State Engine

namespace State

/-- All loaded files are NED files, as the projects are now. -/
structure Sourced (st : State) : Prop where
  store : st.store.WellFormed
  ned : ∀ path, (st.store.at? path).isSome = true → st.registry.isNedFile path = true

theorem sourced_init : Sourced {} :=
  ⟨SourceStore.wellFormed_empty, fun _ h => absurd h Bool.false_ne_true⟩

variable {s : Surroundings} {st st' : State} {path : Path}

namespace Sourced

/-- Files are sources as long as neither they nor the projects change. -/
theorem congr (h : st.Sourced) (hstore : st'.store = st.store)
    (hprojects : st'.registry.projects = st.registry.projects) : st'.Sourced := by
  refine ⟨hstore ▸ h.store, fun path hloaded => ?_⟩
  rw [hstore] at hloaded
  rw [Registry.isNedFile_congr hprojects]
  exact h.ned path hloaded

/-- What touches neither files nor projects may be done. -/
theorem still (h : st.Sourced) {α : Type} {x : Plain α} (hx : Plain.Still x) (s : Surroundings) :
    (x s st).2.Sourced :=
  h.congr (hx s st).1 (hx s st).2

theorem rehash (h : st.Sourced) : st.rehash.Sourced :=
  h.congr (store_rehash st) (registry_rehash st)

theorem emit (h : st.Sourced) (e : Event) : (st.emit e).Sourced :=
  h.congr rfl rfl

/-- Each loaded file is the one at its path, in any spelling. -/
theorem ned_of_mem (h : st.Sourced) {f : SourceFile} (hf : f ∈ st.store.all) :
    st.registry.isNedFile f.path = true :=
  h.ned f.path (by rw [h.store.at?_of_mem hf Std.ReflOrd.compare_self]; rfl)

/-- The number of editors of a file changes. -/
theorem edited (h : st.Sourced) {f : SourceFile} (hat : st.store.at? path = some f) (editors : Nat) :
    Sourced { st with store := st.store.update { f with editors } } := by
  refine ⟨h.store.update hat rfl rfl, fun q hloaded => h.ned q ?_⟩
  rw [h.store.at?_update (g := { f with editors }) hat rfl rfl] at hloaded
  split at hloaded
  · rename_i hq
    rw [← st.store.at?_congr hq, hat]
    rfl
  · exact hloaded

theorem addEditor (h : st.Sourced) (path : Path) : (Engine.addEditor st path).Sourced := by
  unfold Engine.addEditor
  cases hat : st.store.at? path with
  | none => exact h
  | some f => exact h.edited hat _

/-- A NED file is given a text. -/
theorem applyParse (h : st.Sourced) (hned : st.registry.isNedFile path = true) (text : String)
    (parse : Parse) : (st.applyParse path text parse).2.Sourced := by
  have hstore := store_applyParse st path text parse
  refine ⟨hstore ▸ h.store.give path text parse, fun q hloaded => ?_⟩
  rw [hstore, h.store.at?_give] at hloaded
  rw [registry_applyParse]
  split at hloaded
  · rename_i hq
    rw [← Registry.isNedFile_of_compare _ hq]
    exact hned
  · exact h.ned q hloaded

/-- Where files go, the others are still sources. -/
theorem forget (h : st.Sourced) (path : Path) : (st.forget path).2.Sourced := by
  have hstore := store_forget h.store path
  refine ⟨hstore ▸ h.store.remove path, fun q hloaded => ?_⟩
  rw [hstore, h.store.at?_remove] at hloaded
  rw [st.registry_forget path]
  split at hloaded
  · exact absurd hloaded (by simp)
  · exact h.ned q hloaded

/-- After a change of the projects only NED files are left, whatever was loaded before. -/
theorem reconfigure (hst : st.store.WellFormed) (configs : List ProjectConfig) :
    (st.reconfigure configs).Sourced := by
  refine ⟨wellFormed_reconfigure hst configs, fun q hloaded => ?_⟩
  rw [at?_reconfigure hst] at hloaded
  rw [registry_reconfigure]
  split at hloaded
  · assumption
  · exact absurd hloaded (by simp)

/-! ### Operations -/

/-- A source that is read is a source. -/
theorem loadFromDisk (h : st.Sourced) (hned : st.registry.isNedFile path = true) (s : Surroundings) :
    ((Engine.loadFromDisk path : Plain (Except WorkspaceError FileId)) s st).2.Sourced := by
  cases hobstacle : st.loadObstacle? s.disk path with
  | some e =>
    rw [loadFromDisk_refused hobstacle]
    exact h
  | none =>
    obtain ⟨hidle, text, htext⟩ := loadObstacle?_eq_none_iff.mp hobstacle
    rw [loadFromDisk_eq hidle htext]
    exact h.applyParse hned text _

/-- An editor comes to sources only. -/
theorem connect (h : st.Sourced) (path : Path) (s : Surroundings) :
    ((Engine.connect path : Plain (Except WorkspaceError FileId)) s st).2.Sourced := by
  cases hat : st.store.at? path with
  | some f =>
    rw [connect_loaded hat]
    exact h.edited hat _
  | none =>
    rw [connect_unloaded hat]
    split
    · rename_i hned
      cases s.disk.textOf path with
      | error e => exact h
      | ok text => exact ((h.applyParse hned text (Parse.ofText text)).addEditor path).rehash
    · exact h

/-- What is read again was a source before. -/
theorem disconnect (h : st.Sourced) (path : Path) (s : Surroundings) :
    ((Engine.disconnect path : Plain (Except WorkspaceError Unit)) s st).2.Sourced := by
  cases hopen : st.hasEditor path with
  | false =>
    rw [Engine.disconnect, Plain.bind_apply, dropEditor_refused hopen]
    exact h
  | true =>
    obtain ⟨f, hat, hpositive⟩ := (Option.any_eq_true ..).mp hopen
    have hpositive : 0 < f.editors := of_decide_eq_true hpositive
    rcases Nat.lt_or_ge 1 f.editors with hshared | hfew
    · rw [disconnect_shared hat hshared]
      exact h.edited hat _
    · -- The file is loaded, so it is a NED file when it is loaded from the disk again.
      have hleft := h.edited hat 0
      have hned := h.ned path (by rw [hat]; rfl)
      rw [disconnect_sole hat (by omega)]
      dsimp only
      split
      · have hloaded := hleft.loadFromDisk hned s
        split
        · rename_i heq
          rw [heq] at hloaded
          exact hloaded.rehash
        · rename_i heq
          rw [heq] at hloaded
          exact hloaded.rehash
        · rename_i heq
          rw [heq] at hloaded
          exact hloaded
      · exact hleft

/-- A text is set for a file that was a source before. -/
theorem setText (h : st.Sourced) (path : Path) (text : String) (s : Surroundings) :
    ((Engine.setText path text : Plain (Except WorkspaceError FileId)) s st).2.Sourced := by
  rw [Engine.setText, Plain.locked_apply]
  cases hat : st.store.at? path with
  | none => exact h
  | some f => exact (h.applyParse (h.ned path (by rw [hat]; rfl)) text (Parse.ofText text)).rehash

/-- A file that is loaded on request is a source if its path is one. -/
theorem load (h : st.Sourced) (hned : st.registry.isNedFile path = true) (s : Surroundings) :
    ((Engine.load path : Plain (Except WorkspaceError FileId)) s st).2.Sourced := by
  have hloaded := h.loadFromDisk hned s
  rw [Engine.load, Plain.bind_apply]
  cases ((Engine.loadFromDisk path : Plain (Except WorkspaceError FileId)) s st).1 with
  | error e => exact hloaded
  | ok id => exact hloaded.rehash

/-- Files that were read are loaded if they are NED files. -/
theorem loadEach (h : st.Sourced) {paths : List Path}
    (hned : ∀ p ∈ paths, st.registry.isNedFile p = true) (d : Disk) (s : Surroundings) :
    ((Engine.loadEach (paths.map fun p => (p, d.textOf p)) :
      Plain (Nat × List WorkspaceError)) s st).2.Sourced := by
  induction paths generalizing st with
  | nil => exact h
  | cons p paths ih =>
    have hrest := fun q hq => hned q (List.mem_cons_of_mem p hq)
    rw [List.map_cons]
    cases d.textOf p with
    | error e => exact ih h hrest
    | ok text =>
      have hsilent : ((loadSilently p text : Plain Bool) s st).2.Sourced ∧
          ((loadSilently p text : Plain Bool) s st).2.registry = st.registry := by
        have happlied := h.applyParse (hned p List.mem_cons_self) text (Parse.ofText text)
        have hregistry := st.registry_applyParse p text (Parse.ofText text)
        generalize hr : st.applyParse p text (Parse.ofText text) = r at happlied hregistry
        rw [loadSilently, Plain.locked_apply, hr]
        cases st.store.at? p with
        | some f => exact ⟨h, rfl⟩
        | none => exact ⟨happlied.congr rfl rfl, hregistry⟩
      exact ih hsilent.1 fun q hq => hsilent.2 ▸ hrest q hq

/-- What is missing is looked for among sources. -/
theorem loadMissing (h : st.Sourced) (s : Surroundings) :
    ((Engine.loadMissing : Plain (Except WorkspaceError Nat)) s st).2.Sourced := by
  rw [loadMissing_apply]
  dsimp only
  split
  · exact h
  · have hned : ∀ p ∈ st.unloaded s.disk, st.registry.isNedFile p = true := fun p hp =>
      (Bool.and_eq_true_iff.mp (List.mem_filter.mp hp).2).2
    exact (h.loadEach hned s.disk s).rehash.emit _

/-- Changes of the disk are followed for sources only. -/
theorem applyChange (h : st.Sourced) (c : DiskChange) (s : Surroundings) :
    ((Engine.applyChange c : Plain (List WorkspaceError)) s st).2.Sourced := by
  have hread : ∀ path, c = .added path ∨ c = .changed path →
      ((Engine.applyChange c : Plain (List WorkspaceError)) s st).2.Sourced := by
    intro path hc
    rw [applyChange_read s st hc]
    split
    · rename_i hwanted
      cases s.disk.textOf path with
      | error e => exact h
      | ok text => exact h.applyParse (Bool.and_eq_true_iff.mp hwanted).1 text _
    · exact h
  cases c with
  | added path => exact hread path (.inl rfl)
  | changed path => exact hread path (.inr rfl)
  | removed path => exact h.forget path
  | projects => exact h

/-- Changes of the disk leave only sources, one after the other. -/
theorem applyEach (h : st.Sourced) (cs : List DiskChange) (s : Surroundings) :
    ((Engine.applyEach cs : Plain (List WorkspaceError)) s st).2.Sourced := by
  induction cs generalizing st with
  | nil => exact h
  | cons c cs ih => exact ih (h.applyChange c s)

theorem requestProjects (h : st.Sourced) (s : Surroundings) :
    ((Engine.reconfigure : Plain (Except WorkspaceError Unit)) s st).2.Sourced := by
  rw [reconfigure_apply]
  cases s.provider.projects s.disk with
  | error e => exact h
  | ok configs => exact .reconfigure h.store configs

/-- New projects drop what is no source any more. -/
theorem reconfigureAndLoad (h : st.Sourced) (s : Surroundings) :
    ((Engine.reconfigureAndLoad : Plain (List WorkspaceError)) s st).2.Sourced := by
  rw [reconfigureAndLoad_apply]
  cases s.provider.projects s.disk with
  | error e => exact h
  | ok configs =>
    dsimp only
    exact (Sourced.reconfigure h.store configs).loadMissing s

/-- A batch of changes leaves only sources. -/
theorem applyChanges (h : st.Sourced) (changes : List DiskChange) (s : Surroundings) :
    ((Engine.applyChanges changes : Plain (Except WorkspaceError Unit)) s st).2.Sourced := by
  by_cases hne : changes = []
  · subst hne
    exact h
  · have hread := (h.emit .began).applyEach changes s
    rw [applyChanges_eq hne]
    dsimp only
    split
    · exact (hread.reconfigureAndLoad s).rehash.emit _
    · exact hread.rehash.emit _

/-- **A request that loads no other than NED files leaves no other loaded.** -/
theorem carryOut (h : st.Sourced) {r : Request}
    (hr : ∀ path, r = .load path → st.registry.isNedFile path = true) (s : Surroundings) :
    ((Engine.carryOut r : Plain Answer) s st).2.Sourced := by
  have hdone : ∀ {β : Type} {x : Plain β} {g : β → Answer}, (x s st).2.Sourced →
      ((do return g (← x) : Plain Answer) s st).2.Sourced := fun hx => hx
  cases r with
  | connect path => exact hdone (h.connect path s)
  | disconnect path => exact hdone (h.disconnect path s)
  | setText path text => exact hdone (h.setText path text s)
  | load path => exact hdone (h.load (hr path rfl) s)
  | forget path => exact hdone (h.forget path)
  | loadMissing => exact hdone (h.loadMissing s)
  | applyChanges changes => exact hdone (h.applyChanges changes s)
  | reconfigure => exact hdone (h.requestProjects s)
  | _ => exact h.still (.carryOut rfl) s

end Sourced

/-! ### Runs -/

/-- Of the requests that are carried out one after another, those to load a file name NED files, as the
projects are when their turn comes. -/
def LoadsSources : State → List (Surroundings × Request) → Prop
  | _, [] => True
  | st, (s, r) :: log => (∀ path, r = .load path → st.registry.isNedFile path = true) ∧
      LoadsSources ((Engine.carryOut r : Plain Answer) s st).2 log

/-- **As long as only NED files are asked for, only NED files are loaded.** -/
theorem Sourced.after (h : st.Sourced) {log : List (Surroundings × Request)}
    (hlog : st.LoadsSources log) : (st.after log).Sourced := by
  induction log generalizing st with
  | nil => exact h
  | cons e log ih => exact ih (h.carryOut hlog.1 e.1) hlog.2

/-- **Only source folders contribute types.** Take any requests, one after another, each in any
surroundings, so the disk may change in between as well as the list of projects. Let those that ask for a
file to be loaded name NED files, as the projects are when their turn comes. Then every type in the table
of any project, as questions find it, is built-in or declared in a loaded file that is a NED file as the
projects are now, be it the only type of its name or one of several. -/
theorem types_of_sources {log : List (Surroundings × Request)} (hlog : LoadsSources {} log) :
    let st := (({} : State).after log).rehash
    ∀ project table, st.registry.table? project = some table → ∀ d : Definition,
      (d ∈ table.definitions ∨ ∃ e ∈ table.duplicates.entries, d ∈ e.2) → d.isBuiltin = false →
        ∃ f ∈ st.store.all, d.file = f.id ∧ st.registry.isNedFile f.path = true := by
  intro st project table htable d hd hread
  have hreachable : (({} : State).after log).Reachable := Reachable.after .refl log
  have hsourced : st.Sourced := (sourced_init.after hlog).rehash
  have hseen := (hreachable.mem_table_iff htable).mp hd
  rcases hreachable.kept.file_of_mem_typesSeenBy hreachable.indexed hseen with hbuiltin | ⟨f, hf, hfile⟩
  · exact absurd (hbuiltin.symm.trans hread) (by decide)
  · have hloaded : f ∈ st.store.all := by
      rw [show st.store = _ from store_rehash _]
      exact (List.mem_filter.mp hf).1
    exact ⟨f, hloaded, hfile, hsourced.ned_of_mem hloaded⟩

/-! ### A workspace with one file -/

/-- A text with one type in it. -/
def soleText : String := "simple Sole;"

/-- A project with one source folder. -/
def soleConfigs : List ProjectConfig := [⟨"p", ⟨"/p"⟩, [⟨"src"⟩], []⟩]

/-- A disk with one file, which is loaded. -/
def soleLog (path : Path) : List (Surroundings × Request) :=
  let s : Surroundings := ⟨FileMap.disk (SortedMap.insert {} path soleText), .fixed soleConfigs⟩
  [(s, .reconfigure), (s, .load path)]

/-- The state when the file has just been loaded. -/
def soleState (path : Path) : State :=
  ((({} : State).reconfigure soleConfigs).loadNew path soleText (Parse.ofText soleText)).2

section Sole

variable (path : Path)

/-- The state with the one file is a reachable one. -/
theorem reachable_soleState : (soleState path).Reachable :=
  .tail (.single (.configured {} soleConfigs)) (.loaded rfl soleText)

/-- The log leads to the state with the one file. -/
theorem rehash_after_soleLog : (({} : State).after (soleLog path)).rehash = (soleState path).rehash := by
  have hget : (SortedMap.insert {} path soleText : FileMap).get? path = some soleText :=
    (SortedMap.get?_insert ..).trans (if_pos Std.ReflOrd.compare_self)
  have hread : (FileMap.disk (SortedMap.insert {} path soleText)).read path = .ok soleText := by
    dsimp only [FileMap.disk]
    rw [hget]
  have hat : (({} : State).reconfigure soleConfigs).store.at? path = none := rfl
  have hloaded : ({} : State).after (soleLog path) = (soleState path).rehash := load_eq hat hread
  rw [hloaded]
  exact if_neg (by rw [Steps.dirty_rehash]; exact Bool.false_ne_true)

/-- The one file is stored under its path with its text. -/
theorem all_soleState : ∃ f, (soleState path).store.all = [f] ∧ f.id = .source 0 ∧ f.path = path ∧
    f.text = soleText :=
  ⟨_, rfl, rfl, rfl, rfl⟩

/-- The type of the file, which a project owns. -/
theorem types_sole : ∃ d, (FileScope.ofTree (.source 0) 1 (Parse.ofText soleText).tree (some "p")).types =
    [d] ∧ d.qname = "Sole" := by
  have hnames : (FileScope.ofTree (.source 0) 1 (Parse.ofText soleText).tree (some "p")).types.map
      (fun d => d.qname) = ["Sole"] := by cbv
  obtain ⟨d, hd⟩ := List.length_eq_one_iff.mp (by simpa using congrArg List.length hnames)
  rw [hd] at hnames
  exact ⟨d, hd, by simpa using hnames⟩

/-- The project has the type if the file lies below its root. -/
theorem exists_type_sole (howner : (Registry.ofConfigs soleConfigs).owner? path = some "p") :
    ∃ table d, (soleState path).rehash.registry.table? "p" = some table ∧ d.qname = "Sole" ∧
      (d ∈ table.definitions ∨ ∃ e ∈ table.duplicates.entries, d ∈ e.2) ∧ d.isBuiltin = false := by
  have hreachable := reachable_soleState path
  obtain ⟨table, htable⟩ : ∃ table, (soleState path).rehash.registry.table? "p" = some table := by
    rw [hreachable.table?_rehash]
    exact ⟨_, rfl⟩
  obtain ⟨d, htypes, hname⟩ := types_sole
  have hok : (Parse.ofText soleText).ok = true := by cbv
  have hseen : [d].Sublist ((soleState path).typesSeenBy "p") :=
    htypes ▸ sublist_typesSeenBy_loadNew (({} : State).reconfigure soleConfigs) hok howner
      (Registry.sees_self _ "p")
  have hfile : d.file = .source 0 :=
    FileScope.file_of_mem (Definition.mem_withInner_self (htypes ▸ List.mem_cons_self))
  exact ⟨table, d, htable, hname, (hreachable.mem_table_iff htable).mpr
    (hseen.subset List.mem_cons_self), Definition.isBuiltin_of_file hfile⟩

end Sole

/-- A file in the source folder of a project is loaded, and the project has its type. -/
theorem types_of_sources_sole :
    let path : Path := ⟨"/p/src/Sole.ned"⟩
    let st := (({} : State).after (soleLog path)).rehash
    ∃ (table : ProjectTable) (d : Definition), st.registry.table? "p" = some table ∧ d.qname = "Sole" ∧
      ∃ f ∈ st.store.all, d.file = f.id ∧ st.registry.isNedFile f.path = true := by
  intro path st
  have hlog : LoadsSources {} (soleLog path) := by
    refine ⟨nofun, fun q hq => ?_, trivial⟩
    cases hq
    decide +kernel
  have hst : st = (soleState path).rehash := rehash_after_soleLog path
  obtain ⟨table, d, htable, hname, hd, hread⟩ := exists_type_sole path (by decide +kernel)
  have hlisted : st.registry.table? "p" = some table := by rw [hst]; exact htable
  exact ⟨table, d, hlisted, hname, types_of_sources hlog "p" table hlisted d hd hread⟩

/-- A file below the root of a project, but in no source folder, is loaded on request, and the project has
its type. -/
theorem type_outside_sources :
    let path : Path := ⟨"/p/docs/Sole.ned"⟩
    let st := (({} : State).after (soleLog path)).rehash
    ∃ (table : ProjectTable) (d : Definition), st.registry.table? "p" = some table ∧ d.qname = "Sole" ∧
      (d ∈ table.definitions ∨ ∃ e ∈ table.duplicates.entries, d ∈ e.2) ∧ d.isBuiltin = false ∧
      ¬ ∃ f ∈ st.store.all, d.file = f.id ∧ st.registry.isNedFile f.path = true := by
  intro path st
  have hst : st = (soleState path).rehash := rehash_after_soleLog path
  obtain ⟨table, d, htable, hname, hd, hread⟩ := exists_type_sole path (by decide +kernel)
  obtain ⟨f, hall, _, hpath, _⟩ := all_soleState path
  rw [hst]
  refine ⟨table, d, htable, hname, hd, hread, ?_⟩
  rintro ⟨g, hg, _, hned⟩
  rw [store_rehash, hall, List.mem_singleton] at hg
  rw [hg, hpath, Registry.isNedFile_congr (registry_rehash _)] at hned
  exact absurd hned (by decide +kernel)

end State

end NedWorkspace
