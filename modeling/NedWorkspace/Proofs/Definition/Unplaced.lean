/-
# Definitions up to spans

A text that is moved about, with nothing else changed, moves the spans in its tree and leaves the numbers.
The definitions of the file are not built anew then. They are those of the tree as it was, and so those
of the tree as it is but for the spans in their declarations (`FileScope.unplaced_congr`).
-/

import NedWorkspace.Proofs.Definition.Build

namespace NedWorkspace

mutual

/-- The definition without the spans in its declaration. -/
def Definition.unplaced : Definition → Definition
  | ⟨own, inner⟩ => ⟨{ own with decl := own.decl.restamp .unplaced }, Definition.unplacedEach inner⟩

/-- Definitions without the spans in their declarations. -/
def Definition.unplacedEach : List Definition → List Definition
  | [] => []
  | d :: ds => d.unplaced :: Definition.unplacedEach ds

end

/-- The scope without the spans in the declarations. -/
def FileScope.unplaced (s : FileScope) : FileScope :=
  { s with types := s.types.map Definition.unplaced }

namespace Definition

variable (file : FileId) (edition : Nat) (package : String) (top : TypeKey)

mutual

/-- Spans play no part when a definition is built. -/
theorem unplaced_buildAt (enclosing : Option TypeKey) (qname : String) (x : TypeDecl) :
    (buildAt file edition package top enclosing qname x).unplaced =
      buildAt file edition package top enclosing qname (x.restamp .unplaced) := by
  match x with
  | ⟨own, types⟩ =>
    have hinner := unplacedEach_buildEach ⟨file, own.node⟩ qname [] types
    rw [TypeDecl.restamp, buildAt, buildAt, Definition.unplaced, hinner, TypeDecl.restamp]
    rfl

/-- Which inner types count is read off their names. -/
theorem unplacedEach_buildEach (enclosing : TypeKey) (outer : String) (taken : List String)
    (ts : List TypeDecl) :
    unplacedEach (buildEach file edition package top enclosing outer taken ts) =
      buildEach file edition package top enclosing outer taken (TypeDecl.restampEach .unplaced ts) := by
  match ts with
  | [] => rw [buildEach, unplacedEach, TypeDecl.restampEach, buildEach]
  | t :: ts =>
    have hname : (t.restamp .unplaced).name = t.name := t.name_restamp .unplaced
    rw [TypeDecl.restampEach, buildEach, buildEach, hname]
    split
    · exact unplacedEach_buildEach enclosing outer taken ts
    · rw [unplacedEach, unplaced_buildAt, unplacedEach_buildEach]

end

end Definition

namespace FileScope

/-- The scope of a tree without spans. -/
theorem unplaced_ofTree (file : FileId) (edition : Nat) (tree : Tree) (project : Option String) :
    (ofTree file edition tree project).unplaced = ofTree file edition tree.unplaced project := by
  have hpackage : tree.unplaced.packageName? = tree.packageName? := tree.packageName?_restamp .unplaced
  have himports : tree.unplaced.imports.map (fun i => (⟨i.spec⟩ : ImportSpec)) =
      tree.imports.map fun i => ⟨i.spec⟩ := List.map_map
  have hbuild (t : TypeDecl) : Definition.unplaced
      (Definition.build file edition (tree.packageName?.getD "") t) =
        Definition.build file edition (tree.packageName?.getD "") (t.restamp .unplaced) := by
    rw [Definition.build, Definition.unplaced_buildAt]
    obtain ⟨own, types⟩ := t
    rw [TypeDecl.restamp]
    rfl
  have htypes : tree.types.map (Definition.unplaced ∘ Definition.build file edition
      (tree.packageName?.getD "")) =
        tree.unplaced.types.map (Definition.build file edition (tree.packageName?.getD "")) := by
    change _ = (tree.types.map (TypeDecl.restamp .unplaced)).map _
    rw [List.map_map]
    exact List.map_congr_left fun t _ => hbuild t
  rw [ofTree, ofTree, hpackage, himports, FileScope.unplaced, List.map_map, htypes]

/-- **Trees that differ in spans alone have the same definitions but for spans.** -/
theorem unplaced_congr (file : FileId) (edition : Nat) {tree tree' : Tree} (project : Option String)
    (h : tree.unplaced = tree'.unplaced) :
    (ofTree file edition tree project).unplaced = (ofTree file edition tree' project).unplaced := by
  rw [unplaced_ofTree, unplaced_ofTree, h]

end FileScope

end NedWorkspace
