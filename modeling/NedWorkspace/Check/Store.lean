/-
# Published diagnostics

SPEC_FULL, section 4.6 (diagnostics are published per file) and section 4.1 (they are remapped).

The diagnostics of each file, in the order of the files. A file without diagnostics has no entry.
Every operation says whether the diagnostics of its file changed.
-/

import NedWorkspace.Check.Diagnostic
import NedWorkspace.Map.Sorted

namespace NedWorkspace

/-- The published diagnostics. -/
structure DiagnosticStore where
  byFile : SortedMap FileId (List Diagnostic) := {}

namespace DiagnosticStore

/-- The diagnostics of a file. -/
def get (s : DiagnosticStore) (file : FileId) : List Diagnostic :=
  (s.byFile.get? file).getD []

/-- Replaces the diagnostics of a file. -/
def replace (s : DiagnosticStore) (file : FileId) (diagnostics : List Diagnostic) :
    Bool × DiagnosticStore :=
  if diagnostics.isEmpty then (s.byFile.contains file, ⟨s.byFile.erase file⟩)
  else
    let changed := match s.byFile.get? file with
      | some before => decide (before ≠ diagnostics)
      | none => true
    (changed, ⟨s.byFile.insert file diagnostics⟩)

/-- Removes the diagnostics of a file. -/
def remove (s : DiagnosticStore) (file : FileId) : Bool × DiagnosticStore :=
  (s.byFile.contains file, ⟨s.byFile.erase file⟩)

/-- Removes the diagnostics of all files. -/
def clear (_ : DiagnosticStore) : DiagnosticStore :=
  {}

/-- Whether a diagnostic survives in a tree: it is about no node, or its node is there. -/
def survives (tree : Tree) (d : Diagnostic) : Bool :=
  match d.node with
  | some node => (tree.spanOf? node).isSome
  | none => true

/-- Lets the diagnostics of a file follow their nodes to a merged tree. -/
def remap (s : DiagnosticStore) (file : FileId) (tree : Tree) : Bool × DiagnosticStore :=
  match s.byFile.get? file with
  | none => (false, s)
  | some before =>
    let after := (before.filter (survives tree)).map (Diagnostic.locate tree)
    (decide (after ≠ before),
      ⟨if after.isEmpty then s.byFile.erase file else s.byFile.insert file after⟩)

/-- The files with diagnostics. -/
def files (s : DiagnosticStore) : List FileId :=
  s.byFile.keys

/-- All diagnostics, by file. -/
def all (s : DiagnosticStore) : List Diagnostic :=
  s.byFile.values.flatten

/-- The number of errors. -/
def errorCount (s : DiagnosticStore) : Nat :=
  (s.all.filter Diagnostic.isError).length

end DiagnosticStore

end NedWorkspace
