/-
# Loaded files

SPEC_FULL, section 4.1: SourceStore.

The files of a workspace by path. A file gets a number when it is loaded, and no number is given
twice, so that a number never stands for another file than it did. A path leads to an id, and the id
to the file: two maps, which every change has to keep in line.
-/

import NedWorkspace.Definition.Basic
import NedWorkspace.Map.Ordered
import NedWorkspace.Map.Sorted
import NedWorkspace.Path
import NedWorkspace.Syntax.Declaration

namespace NedWorkspace

/-- A loaded file. -/
structure SourceFile where
  number : Nat
  path : Path
  text : String
  /-- The tree of the last text without mistakes, or of the first text. -/
  tree : Tree
  /-- The mistakes in the text. -/
  errors : List SyntaxError
  /-- Whether the text has mistakes; then the file takes no part in the tables. -/
  broken : Bool
  /-- The number of editors that have the file open. -/
  editors : Nat := 0

namespace SourceFile

/-- The file as the rest of the workspace names it. -/
def id (f : SourceFile) : FileId :=
  .source f.number

end SourceFile

/-- The loaded files, by path and by id. -/
structure SourceStore where
  /-- The id of the file at a path, in the order of the paths. -/
  ids : SortedMap Path FileId := {}
  /-- The file with an id. -/
  files : OrderedMap FileId SourceFile := {}
  /-- The number of the next file. -/
  nextNumber : Nat := 0

namespace SourceStore

/-- The id of the file at a path. -/
def idAt? (s : SourceStore) (path : Path) : Option FileId :=
  s.ids.get? path

/-- The file with the given id. -/
def get? (s : SourceStore) (id : FileId) : Option SourceFile :=
  s.files.get? id

/-- The file at a path. -/
def at? (s : SourceStore) (path : Path) : Option SourceFile :=
  (s.idAt? path).bind s.get?

/-- Adds a file under a new number. -/
def add (s : SourceStore) (path : Path) (text : String) (parse : Parse) : SourceFile × SourceStore :=
  let file : SourceFile :=
    { number := s.nextNumber, path, text, tree := parse.tree, errors := parse.errors,
      broken := !parse.ok }
  (file, { ids := s.ids.insert path file.id, files := s.files.insert file.id file,
           nextNumber := s.nextNumber + 1 })

/-- Replaces what is known of a loaded file. -/
def update (s : SourceStore) (file : SourceFile) : SourceStore :=
  if s.files.contains file.id then { s with files := s.files.insert file.id file } else s

/-- Drops the file at a path, from both maps. -/
def remove (s : SourceStore) (path : Path) : SourceStore :=
  match s.idAt? path with
  | none => s
  | some id => { s with ids := s.ids.erase path, files := s.files.erase id }

/-- All files in the order of their paths. -/
def all (s : SourceStore) : List SourceFile :=
  s.ids.values.filterMap s.get?

/-- The paths of all files in order. -/
def paths (s : SourceStore) : List Path :=
  s.ids.keys

/-- The number of files. -/
def size (s : SourceStore) : Nat :=
  s.files.size

/-- The package that the file at a path declares. -/
def packageAt? (s : SourceStore) (path : Path) : Option String :=
  (s.at? path).bind fun f => f.tree.packageName?

end SourceStore

end NedWorkspace
