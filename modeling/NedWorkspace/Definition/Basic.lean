/-
# Type definitions

SPEC_FULL, section 3: TypeDefinition.

A definition is a type declaration seen from outside its file: it has a qualified name, a key that
tells it apart from all others, and its place among the types that enclose it. Of inner types with
one name the first counts.

The definitions of a file are built anew whenever its tree changes. The `edition` tells the builds
apart: two definitions with one key and different editions may differ.
-/

import NedWorkspace.Name
import NedWorkspace.Syntax.Tree

namespace NedWorkspace

/-- A file: one that was loaded, or the pseudo-file of the built-in declarations. -/
inductive FileId where
  | source (index : Nat)
  | builtin
deriving DecidableEq, Repr

namespace FileId

/-- Whether this is the pseudo-file of the built-in declarations. -/
def isBuiltin : FileId → Bool
  | builtin => true
  | source _ => false

/-- Loaded files come in the order of their numbers, the built-in declarations after all of them. -/
instance : Ord FileId where
  compare
    | source a, source b => compare a b
    | source _, builtin => .lt
    | builtin, source _ => .gt
    | builtin, builtin => .eq

end FileId

/-- A definition is told apart by its file and the node of its declaration. -/
structure TypeKey where
  file : FileId
  node : NodeId
deriving DecidableEq, Repr

/-- Where a name is looked up: among the imports and the package of a file, or inside a type. -/
inductive LookupContext where
  | file (file : FileId)
  | type (key : TypeKey)
deriving DecidableEq, Repr

namespace LookupContext

/-- The file whose imports and package count. -/
def fileId : LookupContext → FileId
  | .file f => f
  | .type k => k.file

end LookupContext

/-- A definition without its inner types. -/
structure DefinitionDetails where
  key : TypeKey
  edition : Nat
  qname : String
  package : String
  decl : TypeDecl
  enclosing : Option TypeKey
  toplevel : TypeKey

/-- A type definition. No two of its inner types have one name. -/
structure Definition extends DefinitionDetails where
  inner : List Definition := []

namespace Definition

/-- The simple name. -/
def name (d : Definition) : String :=
  d.decl.name

/-- What the type is. -/
def kind (d : Definition) : TypeKind :=
  d.decl.kind

/-- The file that declares the type. -/
def file (d : Definition) : FileId :=
  d.key.file

/-- Whether the type is one of the built-in ones. -/
def isBuiltin (d : Definition) : Bool :=
  d.key.file.isBuiltin

/-- Whether the type lies in no other. -/
def isToplevel (d : Definition) : Bool :=
  d.enclosing.isNone

/-- Names inside the type are looked up here. -/
def context (d : Definition) : LookupContext :=
  .type d.key

/-- The names after `extends`. -/
def baseNames (d : Definition) : List String :=
  d.decl.bases.map TypeRef.name

/-- The names after `like`. -/
def likeNames (d : Definition) : List String :=
  d.decl.interfaces.map TypeRef.name

/-- The first submodule with the given name. -/
def submodule? (d : Definition) (name : String) : Option Submodule :=
  d.decl.submodules.find? (·.name == name)

/-- The inner type with the given name. -/
def inner? (d : Definition) (name : String) : Option Definition :=
  d.inner.find? (·.name == name)

/-- The type reached by going down through inner types. -/
def descend : Definition → List String → Option Definition
  | d, [] => some d
  | d, s :: ss => (d.inner? s).bind fun i => i.descend ss

/-- The inner type at a dotted path. -/
def innerAt? (d : Definition) (path : String) : Option Definition :=
  d.descend (Name.segments path)

end Definition

mutual

/-- The definition of a declaration with a given qualified name. -/
def Definition.buildAt (file : FileId) (edition : Nat) (package : String) (toplevel : TypeKey)
    (enclosing : Option TypeKey) (qname : String) : TypeDecl → Definition
  | ⟨own, types⟩ =>
    let key := ⟨file, own.node⟩
    ⟨{ key, edition, qname, package, decl := ⟨own, types⟩, enclosing, toplevel },
      Definition.buildEach file edition package toplevel key qname [] types⟩

/-- The definitions of inner declarations, those whose name is `taken` left out. -/
def Definition.buildEach (file : FileId) (edition : Nat) (package : String) (toplevel : TypeKey)
    (enclosing : TypeKey) (outer : String) (taken : List String) : List TypeDecl → List Definition
  | [] => []
  | t :: ts =>
    if taken.contains t.name then
      Definition.buildEach file edition package toplevel enclosing outer taken ts
    else
      Definition.buildAt file edition package toplevel (some enclosing) (Name.below outer t.name) t ::
        Definition.buildEach file edition package toplevel enclosing outer (t.name :: taken) ts

end

/-- The definition of a top-level declaration. -/
def Definition.build (file : FileId) (edition : Nat) (package : String) (t : TypeDecl) :
    Definition :=
  Definition.buildAt file edition package ⟨file, t.node⟩ none (Name.qualify package t.name) t

mutual

/-- All types below a definition, each before those inside it. -/
def Definition.allInner : Definition → List Definition
  | ⟨_, inner⟩ => Definition.withInner inner

/-- Definitions, each followed by all types below it. -/
def Definition.withInner : List Definition → List Definition
  | [] => []
  | d :: ds => d :: (d.allInner ++ Definition.withInner ds)

end

end NedWorkspace
