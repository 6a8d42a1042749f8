/-
# Operations on a workspace

SPEC_FULL, sections 4.1, 4.2, 4.6 and 4.7: `connect`, `disconnect`, `set_text`, `read_file`, `forget`,
`rebuild_projects_table`, `read_missing_files`, `validate_all_files`.

An operation works on the state in sections. After each section the events that are queued are
delivered, so listeners are told of changes between the sections of one operation, and may start
operations of their own there. What that means is left to the monad that the operations run in:

* `Engine.locked` is a section,
* `Engine.closing` is a section that is run on every way out of an operation.

In `Plain` nobody listens and the events stay in the queue, so an operation is a function on states.

A loaded file may have editors. While it has one, its text comes from the editors alone, and the disk
counts again when the last one leaves.
-/

import NedWorkspace.Workspace.Disk
import NedWorkspace.Workspace.State

namespace NedWorkspace

/-- What operations on a workspace run in. -/
class Engine (m : Type → Type) extends Monad m where
  /-- The disk as it is now. -/
  disk : m Disk
  /-- Where the list of projects comes from now. -/
  provider : m Provider
  /-- A section: works on the state, then lets the queued events be delivered. -/
  locked {α : Type} : (State → α × State) → m α
  /-- Runs an operation and, however it ends, a last section. -/
  closing {α : Type} : (State → State) → m α → m α

namespace Engine

variable {m : Type → Type} [Engine m]

/-- A section that only looks. -/
def view {α : Type} (f : State → α) : m α :=
  locked fun st => (f st, st)

/-- A section that only changes the state. -/
def change (f : State → State) : m Unit :=
  locked fun st => ((), f st)

/-- A question of up-to-date tables. -/
def ask {α : Type} (q : Model → Query α) : m α :=
  locked fun st => st.rehash.ask q

/-- Something read off the state with up-to-date tables. -/
def viewFresh {α : Type} (f : State → α) : m α :=
  locked fun st => let st := st.rehash; (f st, st)

/-- An operation between the events `began` and `ended`. -/
def bracketed {α : Type} (operation : m α) : m α := do
  change (·.emit .began)
  closing (·.emit .ended) operation

/-- Computes the tables if they are out of date. -/
def rehash : m Unit :=
  change State.rehash

/-- Whether the file at a path has an editor. -/
def hasEditor (path : Path) : m Bool :=
  view fun st => (st.store.at? path).any fun f => decide (0 < f.editors)

/-- Adds an editor to the file at a path. -/
def addEditor (st : State) (path : Path) : State :=
  match st.store.at? path with
  | some f => { st with store := st.store.update { f with editors := f.editors + 1 } }
  | none => st

/-- Opens the file at a path in an editor; a file that is not loaded yet is loaded from the disk. -/
def connect (path : Path) : m (Except WorkspaceError FileId) := do
  let known ← locked fun st => ((st.store.at? path).map SourceFile.id, addEditor st path)
  match known with
  | some id => return .ok id
  | none =>
    if ← view (·.registry.isNedFile path) then
      match (← disk).textOf path with
      | .error e => return .error e
      | .ok text =>
        let parse := Parse.ofText text
        let id ← locked fun st =>
          let r := match st.store.at? path with
            | some f => (f.id, st)
            | none => st.applyParse path text parse
          (r.1, (addEditor r.2 path).rehash)
        return .ok id
    else
      return .error (.notNedFile path)

/-- Makes a text that was read from the disk the contents of a path, unless an editor has the file. -/
def storeLoaded (path : Path) (text : String) : m (Except WorkspaceError FileId) :=
  locked fun st =>
    if (st.store.at? path).any fun f => decide (0 < f.editors) then
      (.error (.editorConnected path), st)
    else
      let r := st.applyParse path text (Parse.ofText text)
      (.ok r.1, r.2)

/-- Loads the file at a path from the disk, or loads it anew; the tables are left alone. -/
def loadFromDisk (path : Path) : m (Except WorkspaceError FileId) := do
  if ← hasEditor path then return .error (.editorConnected path)
  else
    match (← disk).textOf path with
    | .error e => return .error e
    | .ok text => storeLoaded path text

/-- Takes an editor from the file at a path; says whether it was the last. -/
def dropEditor (path : Path) : m (Except WorkspaceError Bool) :=
  locked fun st =>
    match (st.store.at? path).filter fun f => decide (0 < f.editors) with
    | some f =>
      (.ok (f.editors = 1),
        { st with store := st.store.update { f with editors := f.editors - 1 } })
    | none => (.error (.notConnected path), st)

/-- Closes the file at a path in an editor. With the last editor its unsaved text goes, if the disk
still has the file. -/
def disconnect (path : Path) : m (Except WorkspaceError Unit) := do
  match ← dropEditor path with
  | .error e => return .error e
  | .ok last =>
    if last ∧ (← disk).exists? path then
      match ← loadFromDisk path with
      | .error (.editorConnected _) | .ok _ =>
        rehash
        return .ok ()
      | .error e => return .error e
    else
      return .ok ()

/-- Replaces the text of a loaded file. -/
def setText (path : Path) (text : String) : m (Except WorkspaceError FileId) :=
  locked fun st =>
    match st.store.at? path with
    | none => (.error (.notLoaded path), st)
    | some _ =>
      let r := st.applyParse path text (Parse.ofText text)
      (.ok r.1, r.2.rehash)

/-- Loads the file at a path from the disk. -/
def load (path : Path) : m (Except WorkspaceError FileId) := do
  match ← loadFromDisk path with
  | .error e => return .error e
  | .ok id =>
    rehash
    return .ok id

/-- Forgets the file at a path; says whether it was loaded. -/
def forget (path : Path) : m Bool :=
  locked (·.forget path)

/-- Asks for the list of projects anew. -/
def reconfigure : m (Except WorkspaceError Unit) := do
  match (← provider).projects (← disk) with
  | .error e => return .error e
  | .ok configs =>
    change (·.reconfigure configs)
    return .ok ()

/-- Checks the given files one by one. -/
def publishEach (duplicates : List Diagnostic) : List FileId → m Unit
  | [] => return ()
  | id :: ids => do
    change fun st => st.publish id (duplicates.filter fun d => decide (d.file = id))
    publishEach duplicates ids

/-- Checks all loaded files and publishes what is found. -/
def validate : m Unit :=
  bracketed do
    let plan ← locked State.planValidation
    publishEach plan.2 plan.1

end Engine

/-- The disk and the source of projects that an operation meets. -/
structure Surroundings where
  disk : Disk
  provider : Provider

/-- Operations that nobody listens to. -/
abbrev Plain := ReaderT Surroundings (StateM State)

instance : Engine Plain where
  disk := fun s => pure s.disk
  provider := fun s => pure s.provider
  locked f := fun _ st => f st
  closing last operation := fun s st =>
    let r := operation s st
    (r.1, last r.2)

end NedWorkspace
