/-
# The state of a workspace

SPEC_FULL, section 2 (the components), section 4.2 (`rehash`) and section 4.4 (`invalidate`,
`rehash_if_needed`).

The loaded files, what was derived from them, and the events that listeners have not been told yet.
Whatever changes the types that there are marks the derived data as stale: the serial number of the
change goes up and all remembered answers are dropped. The tables are computed anew when they are next
needed, so that many changes in a row cost one computation.

| a text is applied to | effect |
| --- | --- |
| no loaded file | the file is loaded |
| a file, and has mistakes | the file becomes broken and keeps its tree |
| a file, and has none | the new tree is merged into the old one |
-/

import NedWorkspace.Check.File
import NedWorkspace.Check.Store
import NedWorkspace.Project.Registry
import NedWorkspace.Resolve.Members
import NedWorkspace.Syntax.Merge
import NedWorkspace.Workspace.Event
import NedWorkspace.Workspace.Store

namespace NedWorkspace

/-- The state of a workspace. -/
structure State where
  store : SourceStore := {}
  index : DefinitionIndex := .seeded
  registry : Registry := {}
  memory : Memory := {}
  /-- The serial number of the last change. -/
  changeSerial : Nat := 1
  /-- Whether the tables are out of date. -/
  dirty : Bool := true
  /-- How often the tables were computed. -/
  rehashCount : Nat := 0
  diagnostics : DiagnosticStore := {}
  /-- The events to be delivered, the oldest first. -/
  events : List Event := []

namespace State

/-- Queues an event. -/
def emit (st : State) (e : Event) : State :=
  { st with events := st.events ++ [e] }

/-- Queues an event if there is reason to. -/
def emitIf (st : State) (reason : Bool) (e : Event) : State :=
  if reason then st.emit e else st

/-- Marks all derived data as stale. -/
def invalidate (st : State) : State :=
  { st with changeSerial := st.changeSerial + 1, dirty := true,
            memory := { st.memory with lookups := st.memory.lookups.clear }.forgetMembers st.index }

/-- The files that take part in the tables, each with its owner, in the order of their paths. -/
def participants (st : State) : List (FileId × String) :=
  (st.store.all.filter fun f => !f.broken).filterMap fun f =>
    (st.index.projectOf? f.id).map fun project => (f.id, project)

/-- Computes the tables if they are out of date. -/
def rehash (st : State) : State :=
  if st.dirty then
    { st with registry := st.registry.rehash st.index st.participants, dirty := false,
              rehashCount := st.rehashCount + 1 }
  else st

/-- The definitions and tables as they stand. -/
def model (st : State) : Model :=
  ⟨st.index, st.registry.tables⟩

/-- Asks a question of the definitions and tables as they stand. -/
def ask {α : Type} (st : State) (q : Model → Query α) : α × State :=
  let r := (q st.model).run st.memory
  (r.1, { st with memory := r.2 })

/-- Builds the definitions of a file. -/
def indexFile (st : State) (file : SourceFile) : State :=
  { st with index := st.index.setFile file.id file.tree (st.registry.owner? file.path) }

/-- Lets the diagnostics of a file follow the nodes of its tree. -/
def remap (st : State) (file : SourceFile) : State :=
  let r := st.diagnostics.remap file.id file.tree
  { st with diagnostics := r.2 }.emitIf r.1 (.diagnosticsChanged file.id)

/-- Loads a file. -/
def loadNew (st : State) (path : Path) (text : String) (parse : Parse) : FileId × State :=
  let (file, store) := st.store.add path text parse
  (file.id, ({ st with store }.indexFile file).invalidate.emit (.fileLoaded file.id)
    |>.emit (.modelChanged (some file.id)))

/-- Gives a loaded file a text with mistakes. -/
def applyBroken (st : State) (file : SourceFile) (text : String) (errors : List SyntaxError) : State :=
  let st := { st with store := st.store.update { file with text, errors, broken := true } }
  if file.broken then st else st.invalidate.emit (.modelChanged (some file.id))

/-- Gives a loaded file a text without mistakes. -/
def applyClean (st : State) (file : SourceFile) (text : String) (tree : Tree) : State :=
  let merged := file.tree.merge tree
  let now := { file with text, errors := [], broken := false, tree := merged.tree }
  let st := { st with store := st.store.update now }
  if merged.changed then
    (((st.emit .began).indexFile now).invalidate.emit (.treeMerged file.id)).remap now
      |>.emit (.modelChanged (some file.id)) |>.emit .ended
  else
    let st := st.remap now
    if file.broken then st.invalidate.emit (.modelChanged (some file.id)) else st

/-- Makes a text, already read, the contents of a path. -/
def applyParse (st : State) (path : Path) (text : String) (parse : Parse) : FileId × State :=
  match st.store.at? path with
  | none => st.loadNew path text parse
  | some file =>
    (file.id,
      if parse.ok then st.applyClean file text parse.tree
      else st.applyBroken file text parse.errors)

/-- Forgets the file at a path and all that was derived from it; says whether there was one. -/
def forget (st : State) (path : Path) : Bool × State :=
  match st.store.at? path with
  | none => (false, st)
  | some file =>
    (true,
      { st with store := st.store.remove path, index := st.index.removeFile file.id,
                diagnostics := (st.diagnostics.remove file.id).2 }.invalidate.emit
        (.fileRemoved file.path))

/-- Forgets the files at several paths. -/
def forgetEach (st : State) (paths : List Path) : State :=
  paths.foldl (fun st p => (st.forget p).2) st

/-- Gives every loaded file to the project whose root contains it. -/
def assignOwners (st : State) : State :=
  { st with index := st.store.all.foldl (fun index f =>
      index.setProject f.id (st.registry.owner? f.path)) st.index }

/-- Makes a configuration the current one and forgets the files that no source folder contains. -/
def reconfigure (st : State) (configs : List ProjectConfig) : State :=
  let st := { st with registry := .ofConfigs configs }.assignOwners
  let stray := st.store.paths.filter fun p => !st.registry.isNedFile p
  ((st.emit .began).forgetEach stray).emit .ended |>.invalidate |>.emit (.modelChanged none)

/-- How messages name a file. -/
def label (st : State) : FileId → String
  | .builtin => "[builtin-declarations]"
  | .source n =>
    match st.store.get? (.source n) with
    | some f => f.path.text
    | none => "file#" ++ toString n

/-- A folder and the folders that contain it, from the inside out. -/
def ancestors (folder : Path) : List Path :=
  let components := folder.components
  folder :: ((List.range components.length).reverse.filterMap fun n =>
    if n = 0 ∧ components.head? = some .root then none
    else some (Path.ofComponents (components.take n)))

/-- The property of the file `package.ned` in a folder, or in the nearest folder above it that has the
property, up to the source folder. -/
def folderProperty? (st : State) (folder : Path) (name : String) : Option Property :=
  (st.registry.folderFor? (folder.join ⟨packageFileName⟩)).bind fun source =>
    ((ancestors folder).takeWhile (·.startsWith source)).findSome? fun dir =>
      (st.store.at? (dir.join ⟨packageFileName⟩)).bind fun f => f.tree.property? name

/-- The property of the file at a path, or else of its folder. -/
def property? (st : State) (path : Path) (name : String) : Option Property :=
  ((st.store.at? path).bind fun f => f.tree.property? name).or
    (path.parent?.bind fun folder => st.folderProperty? folder name)

/-- The package that the file at a path should declare. -/
def expectedPackage? (st : State) (path : Path) : Option String :=
  st.registry.expectedPackage? path st.store.packageAt?

/-- Diagnostics, but only the first of those that agree in file, node and message. -/
def distinct (ds : List Diagnostic) : List Diagnostic :=
  ds.foldl (fun found d =>
    if found.any fun e => e.file = d.file ∧ e.node = d.node ∧ e.message = d.message then found
    else found ++ [d]) []

/-- The diagnostics of ambiguous names in all projects; what several projects see is told once. -/
def duplicates (st : State) : List Diagnostic :=
  distinct (st.registry.names.flatMap fun project =>
    match st.registry.table? project with
    | some table => Check.duplicates table st.label
    | none => [])

/-- The files to be checked, in the order of their paths, and the diagnostics of ambiguous names.
Diagnostics of files that are no longer loaded are dropped. -/
def planValidation (st : State) : (List FileId × List Diagnostic) × State :=
  let st := st.rehash
  let gone := st.diagnostics.files.filter fun f => (st.store.get? f).isNone
  let diagnostics := gone.foldl (fun ds f => (ds.remove f).2) st.diagnostics
  ((st.store.all.map SourceFile.id, st.duplicates), { st with diagnostics })

/-- Checks one file and publishes its diagnostics, after those given. Broken files and files without
an owner are not checked. -/
def publish (st : State) (id : FileId) (found : List Diagnostic) : State :=
  let st := st.rehash
  match st.store.get? id with
  | none => st
  | some file =>
    let (checked, st) :=
      if file.broken || (st.index.projectOf? id).isNone then (([] : List Diagnostic), st)
      else st.ask fun m => Check.file m id file.tree (st.expectedPackage? file.path)
    let all := (found ++ checked).map (Diagnostic.locate file.tree)
    let r := st.diagnostics.replace id all
    { st with diagnostics := r.2 }.emitIf r.1 (.diagnosticsChanged id)

end State

end NedWorkspace
