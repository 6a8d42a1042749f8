/-
# Keeping step with the disk

SPEC_FULL, section 4.7: WorkspaceSync.

`loadMissing` loads every file of a source folder that is not loaded yet, as one change.
`applyChanges` takes over a batch of changes that were made on the disk. What fails in a batch does not
stop it; the failures are told together at the end.
-/

import NedWorkspace.Workspace.Engine

namespace NedWorkspace

/-- A change on the disk. -/
inductive DiskChange where
  | added (path : Path)
  | changed (path : Path)
  | removed (path : Path)
  /-- The projects or their descriptions changed. -/
  | projects

namespace DiskChange

/-- Whether the change has to do with which projects and source folders there are. -/
def touchesProjects : DiskChange → Bool
  | added p | changed p | removed p => p.fileName? == some nedfoldersName
  | projects => true

end DiskChange

namespace Engine

variable {m : Type → Type} [Engine m]

/-- The files below folders, in the order of their paths, each once, and the folders that could not be
listed. -/
def collectFiles (d : Disk) (folders : List Path) : List Path × List WorkspaceError :=
  let answers := folders.map d.filesBelow
  (sortedSet (answers.flatMap fun a => (a.toOption.getD [])),
    answers.filterMap fun a => match a with
      | .error e => some e
      | .ok _ => none)

/-- Loads a file that is not loaded, without telling anybody. -/
def loadSilently (path : Path) (text : String) : m Bool :=
  locked fun st =>
    match st.store.at? path with
    | some _ => (false, st)
    | none => (true, { (st.applyParse path text (Parse.ofText text)).2 with events := st.events })

/-- Loads files that were read; counts them and lists those that could not be read. -/
def loadEach : List (Path × Except WorkspaceError String) → m (Nat × List WorkspaceError)
  | [] => return (0, [])
  | (_, .error e) :: more => do
    let r ← loadEach more
    return (r.1, e :: r.2)
  | (path, .ok text) :: more => do
    let loaded ← loadSilently path text
    let r ← loadEach more
    return (if loaded then r.1 + 1 else r.1, r.2)

/-- A number, if nothing failed. -/
def countUnlessFailed (n : Nat) (errors : List WorkspaceError) : Except WorkspaceError Nat :=
  match WorkspaceError.ofList errors with
  | .ok _ => .ok n
  | .error e => .error e

/-- Loads all files of source folders that are not loaded yet; tells how many. -/
def loadMissing : m (Except WorkspaceError Nat) := do
  let folders ← view fun st => st.registry.projects.values.flatMap Project.folders
  let (candidates, unlisted) := collectFiles (← disk) folders
  let missing ← view fun st => candidates.filter fun p =>
    (st.store.at? p).isNone && st.registry.isNedFile p
  if missing.isEmpty then return countUnlessFailed 0 unlisted
  else
    let d ← disk
    let read := missing.map fun p => (p, d.textOf p)
    closing (·.emit (.modelChanged none)) do
      let r ← loadEach read
      rehash
      return countUnlessFailed r.1 (unlisted ++ r.2)

/-- Takes over one change; gives the failure if there is one. -/
def applyChange (c : DiskChange) : m (List WorkspaceError) := do
  match c with
  | .added path | .changed path =>
    if ← view (·.registry.isNedFile path) then
      if ← hasEditor path then return []
      else
        match ← loadFromDisk path with
        | .ok _ | .error (.editorConnected _) => return []
        | .error e => return [e]
    else return []
  | .removed path =>
    let _ ← forget path
    return []
  | .projects => return []

/-- Takes over changes one after another. -/
def applyEach : List DiskChange → m (List WorkspaceError)
  | [] => return []
  | c :: cs => do
    let here ← applyChange c
    let more ← applyEach cs
    return here ++ more

/-- Asks for the projects anew and loads what their source folders hold. -/
def reconfigureAndLoad : m (List WorkspaceError) := do
  match ← reconfigure with
  | .error e => return [e]
  | .ok _ =>
    match ← loadMissing with
    | .error e => return [e]
    | .ok _ => return []

/-- Takes over a batch of changes. -/
def applyChanges (changes : List DiskChange) : m (Except WorkspaceError Unit) := do
  if changes.isEmpty then return .ok ()
  else
    let errors ← bracketed do
      let unread ← applyEach changes
      let unconfigured ←
        if changes.any DiskChange.touchesProjects then reconfigureAndLoad else pure []
      rehash
      return unread ++ unconfigured
    return WorkspaceError.ofList errors

end Engine

end NedWorkspace
