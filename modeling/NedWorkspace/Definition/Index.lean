/-
# The index of definitions

SPEC_FULL, section 3 (TypeDefinition) and section 9 (`FileId`, `NodeId`, `TypeKey`).

What name resolution knows of each loaded file: its package, its imports, the project that owns it
and its definitions. The built-in declarations are a file that belongs to no project. Definitions are
also found by their keys, in a map of its own that every change of a file has to keep in line.
-/

import NedWorkspace.Definition.Basic
import NedWorkspace.Definition.Builtin
import NedWorkspace.Import
import NedWorkspace.Map.Ordered

namespace NedWorkspace

/-- What name resolution knows of one file. -/
structure FileScope where
  package : String
  imports : List ImportSpec
  project : Option String
  /-- The top-level definitions in the order of their declarations. -/
  types : List Definition

namespace FileScope

/-- The scope of a tree. -/
def ofTree (file : FileId) (edition : Nat) (tree : Tree) (project : Option String) : FileScope :=
  let package := tree.packageName?.getD ""
  { package
    imports := tree.imports.map fun i => ⟨i.spec⟩
    project
    types := tree.types.map (Definition.build file edition package) }

/-- All definitions of a file, inner ones included. -/
def allTypes (s : FileScope) : List Definition :=
  Definition.withInner s.types

end FileScope

/-- The scopes of all files, and their definitions by key. Each scope is built with an edition of its
own. -/
structure DefinitionIndex where
  files : OrderedMap FileId FileScope := {}
  /-- The top-level and inner definitions by their keys. -/
  types : OrderedMap TypeKey Definition := {}
  nextEdition : Nat := 0

namespace DefinitionIndex

/-- The scope of a file. -/
def file? (index : DefinitionIndex) (file : FileId) : Option FileScope :=
  index.files.get? file

/-- Drops a file and the definitions whose keys are of that file. -/
def removeFile (index : DefinitionIndex) (file : FileId) : DefinitionIndex :=
  match index.file? file with
  | none => index
  | some _ =>
    { index with files := index.files.erase file
                 types := index.types.filter fun key _ => decide (key.file ≠ file) }

/-- Enters definitions under their keys. -/
def enter (types : OrderedMap TypeKey Definition) (ds : List Definition) :
    OrderedMap TypeKey Definition :=
  ds.foldl (fun types d => types.insert d.key d) types

/-- Builds the definitions of a file, in place of those it had. -/
def setFile (index : DefinitionIndex) (file : FileId) (tree : Tree) (project : Option String) :
    DefinitionIndex :=
  let scope := FileScope.ofTree file index.nextEdition tree project
  let index := index.removeFile file
  { files := index.files.insert file scope
    types := enter index.types scope.allTypes
    nextEdition := index.nextEdition + 1 }

/-- Gives a file to a project, or to none. -/
def setProject (index : DefinitionIndex) (file : FileId) (project : Option String) :
    DefinitionIndex :=
  match index.file? file with
  | some scope => { index with files := index.files.insert file { scope with project } }
  | none => index

/-- An index of the built-in declarations alone. -/
def seeded : DefinitionIndex :=
  ({} : DefinitionIndex).setFile .builtin Builtin.tree none

/-- The project that owns a file. -/
def projectOf? (index : DefinitionIndex) (file : FileId) : Option String :=
  (index.file? file).bind FileScope.project

/-- The definition with the given key. -/
def get? (index : DefinitionIndex) (key : TypeKey) : Option Definition :=
  index.types.get? key

/-- The top-level definitions of a file. -/
def fileTypes (index : DefinitionIndex) (file : FileId) : List Definition :=
  match index.file? file with
  | some s => s.types
  | none => []

/-- The built-in definitions. -/
def builtins (index : DefinitionIndex) : List Definition :=
  index.fileTypes .builtin

/-- All definitions of all files. -/
def allTypes (index : DefinitionIndex) : List Definition :=
  index.files.values.flatMap FileScope.allTypes

end DefinitionIndex

end NedWorkspace
