/-
# Disks

SPEC_FULL, section 4.2 (ProjectConfigProvider) and section 4.7 (files below source folders).

To a workspace a disk is three questions: is there a file at a path, what is its text, and which files
lie below a folder. A disk may answer them in any way at all; in particular a file that exists may be
unreadable. Two disks are built here, one that is a plain map from paths to texts (`FileMap`) and one
with real folders (`FolderTree`), and `Disk.failing` makes some paths of a disk unreadable.

A `Provider` tells which projects there are, perhaps by asking the disk.
-/

import NedWorkspace.Map.Sorted
import NedWorkspace.Path
import NedWorkspace.Project.Folders
import NedWorkspace.Workspace.Error

namespace NedWorkspace

/-- What can be asked of a disk. A failure is told in words. -/
structure Disk where
  exists? : Path → Bool
  read : Path → Except String String
  /-- All files below a folder. -/
  list : Path → Except String (List Path)

namespace Disk

/-- The text of a file. -/
def textOf (d : Disk) (path : Path) : Except WorkspaceError String :=
  match d.read path with
  | .ok text => .ok text
  | .error cause => .error (.unreadable path cause)

/-- The files below a folder. -/
def filesBelow (d : Disk) (folder : Path) : Except WorkspaceError (List Path) :=
  match d.list folder with
  | .ok files => .ok files
  | .error cause => .error (.unreadable folder cause)

/-- The words for a path that may not be read. -/
def denied (path : Path) : String :=
  "permission denied: " ++ path.text

/-- A disk on which the given files cannot be read and the given folders cannot be listed. -/
def failing (d : Disk) (unreadable unlistable : List Path) : Disk :=
  { d with
    read := fun p => if unreadable.any p.same then .error (denied p) else d.read p
    list := fun p => if unlistable.any p.same then .error (denied p) else d.list p }

end Disk

/-- A disk without folders: texts by path. -/
abbrev FileMap := SortedMap Path String

namespace FileMap

/-- A map as a disk. The files below a folder are those whose path goes on from the folder's. -/
def disk (files : FileMap) : Disk where
  exists? p := files.contains p
  read p :=
    match files.get? p with
    | some text => .ok text
    | none => .error ("no such file: " ++ p.text)
  list folder := .ok (files.keys.filter (·.startsWith folder))

end FileMap

/-- A folder with all folders and files below it, each named by the names that lead to it. -/
structure FolderTree where
  folders : List (List String) := [[]]
  files : List (List String × String) := []

namespace FolderTree

/-- The words for a path that leads nowhere. -/
def missing : String := "No such file or directory (os error 2)"

/-- The words for a path that goes on below a file. -/
def notAFolder : String := "Not a directory (os error 20)"

/-- The words for a folder that is read like a file. -/
def isAFolder : String := "Is a directory (os error 21)"

/-- Whether the names lead to a folder. -/
def isFolder (t : FolderTree) (names : List String) : Bool :=
  t.folders.contains names

/-- The text of the file that the names lead to. -/
def textAt? (t : FolderTree) (names : List String) : Option String :=
  (t.files.find? (·.1 == names)).map Prod.snd

/-- Follows the components of a path from a folder; all but the last must lead to folders. -/
def walk (t : FolderTree) (folder : List String) : List Path.Component → Except String (List String)
  | [] => .ok folder
  | c :: cs =>
    if t.isFolder folder then
      match c with
      | .root => .error missing
      | .here => t.walk folder cs
      | .up => if folder.isEmpty then .error missing else t.walk folder.dropLast cs
      | .name n => t.walk (folder ++ [n]) cs
    else if (t.textAt? folder).isSome then .error notAFolder
    else .error missing

/-- The names that a path leads to, whether something is there or not. -/
def locate (t : FolderTree) (p : Path) : Except String (List String) :=
  if p.text.isEmpty then .error missing else t.walk [] p.components

/-- Whether the path is written with a slash at its end, as only folders may be. -/
def asksFolder (p : Path) : Bool :=
  p.text.toList.getLast? == some '/'

/-- The text of a file. -/
def read (t : FolderTree) (p : Path) : Except String String :=
  match t.locate p with
  | .error e => .error e
  | .ok names =>
    if t.isFolder names then .error isAFolder
    else
      match t.textAt? names with
      | some text => if asksFolder p then .error notAFolder else .ok text
      | none => .error missing

/-- Follows the components of a path from a folder and adds the folders that are missing; a file must
not stand in the way. -/
def descend (t : FolderTree) (folder : List String) : List Path.Component → Option (List String) × FolderTree
  | [] => (some folder, t)
  | .root :: _ => (none, t)
  | .here :: cs => t.descend folder cs
  | .up :: cs => if folder.isEmpty then (none, t) else t.descend folder.dropLast cs
  | .name n :: cs =>
    let names := folder ++ [n]
    if t.isFolder names then t.descend names cs
    else if (t.textAt? names).isSome then (none, t)
    else ({ t with folders := t.folders ++ [names] }).descend names cs

/-- Writes a file, after adding the folders that it needs, and says whether that could be done. -/
def write (t : FolderTree) (p : Path) (text : String) : Bool × FolderTree :=
  match t.descend [] p.components.dropLast with
  | (none, t) => (false, t)
  | (some folder, t) =>
    match p.fileName? with
    | none => (false, t)
    | some n =>
      let names := folder ++ [n]
      if t.isFolder names || asksFolder p then (false, t)
      else (true, { t with files := t.files.filter (·.1 != names) ++ [(names, text)] })

/-- Removes a file; nothing if there is none. -/
def remove (t : FolderTree) (p : Path) : Option FolderTree :=
  match t.locate p with
  | .error _ => none
  | .ok names =>
    if (t.textAt? names).isSome && !asksFolder p then
      some { t with files := t.files.filter (·.1 != names) }
    else none

/-- The names below a folder that lead to files, in the order of the names. -/
def namesBelow (t : FolderTree) (folder : List String) : List (List String) :=
  let below := t.files.filterMap fun f =>
    if folder.isPrefixOf f.1 then some (f.1.drop folder.length) else none
  (sortedSet (below.map fun ns => Path.ofComponents (ns.map .name))).map fun p =>
    p.components.map Path.Component.text

/-- The files below a folder, each written as the folder and the names below it. -/
def list (t : FolderTree) (p : Path) : List Path :=
  match t.locate p with
  | .error _ => []
  | .ok names =>
    if t.isFolder names then
      (t.namesBelow names).map fun ns => ns.foldl (fun q n => q.join ⟨n⟩) p
    else []

/-- A tree as a disk. -/
def disk (t : FolderTree) : Disk where
  exists? p :=
    match t.locate p with
    | .ok names => (t.textAt? names).isSome && !asksFolder p
    | .error _ => false
  read p := t.read p
  list p := .ok (t.list p)

end FolderTree

/-- Where the list of projects comes from. -/
inductive Provider where
  /-- The list itself. -/
  | fixed (projects : List ProjectConfig)
  /-- The list, but with the source folders that each project's `.nedfolders` names; a project whose
  file cannot be read or is wrong is left out. -/
  | nedfolders (projects : List ProjectConfig)
  /-- No list, for the reason given. -/
  | failing (cause : String)

namespace Provider

/-- The source folders that a project's `.nedfolders` names; the root if there is no such file. -/
def foldersOnDisk? (d : Disk) (root : Path) : Option (List Path) :=
  let path := root.join ⟨nedfoldersName⟩
  if d.exists? path then
    match d.read path with
    | .ok text => (Folders.ofText text).toOption
    | .error _ => none
  else some [⟨""⟩]

/-- The projects that there are now. -/
def projects (p : Provider) (d : Disk) : Except WorkspaceError (List ProjectConfig) :=
  match p with
  | fixed configs => .ok configs
  | nedfolders configs => .ok (configs.filterMap fun c =>
      (foldersOnDisk? d c.root).map fun folders => { c with sourceFolders := folders })
  | failing cause => .error (.badConfiguration cause)

end Provider

end NedWorkspace
