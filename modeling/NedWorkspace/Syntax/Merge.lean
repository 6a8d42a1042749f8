/-
# Merging a new tree into an old one

SPEC_FULL, section 4.1: the structural diff of `set_text`.

When a file is read anew, every node of the new tree that corresponds to a node of the old tree takes
over its number. Nodes correspond within the lists of corresponding parents, by a key:

| category | key |
| --- | --- |
| import, type reference | the text |
| property | name and index |
| parameter, gate, submodule, type | the name |
| connection | both ends and the arrow |
| channel | the name of its type, and whether it is a `like` |

The new node takes the first old one with its key that no earlier new node took. A node without a
partner gets a fresh number, at or above the old tree's `nextNode`, so that a number is never used for
two nodes. A merge also says whether the trees differ in anything but numbers and spans.
-/

import NedWorkspace.Syntax.Tree

namespace NedWorkspace

/-- A computation that gives out node numbers. -/
abbrev NodeSupply := StateM NodeId

namespace NodeSupply

/-- The next number that is free. -/
def fresh : NodeSupply NodeId := fun next => (next, next + 1)

/-- One computation for each element, in order. -/
def each {α : Type} (f : α → NodeSupply α) : List α → NodeSupply (List α)
  | [] => pure []
  | a :: as => do
    let b ← f a
    let bs ← each f as
    return b :: bs

end NodeSupply

/-- A category of nodes that can take over the numbers of others. -/
class Mergeable (α : Type) where
  /-- What corresponding nodes agree in. -/
  Key : Type
  decEqKey : DecidableEq Key
  key : α → Key
  /-- Gives the node and all below it fresh numbers. -/
  renumber : α → NodeSupply α
  /-- Gives the second node the numbers of the first, which has the same key, and says whether they
  differ. -/
  adopt : α → α → NodeSupply (α × Bool)

namespace Mergeable

variable {α : Type} [Mergeable α]

instance : DecidableEq (Key α) := decEqKey

/-- The first candidate with the given property, and the others. -/
def pick {β : Type} (p : β → Bool) : List β → Option (β × List β)
  | [] => none
  | b :: bs =>
    if p b then some (b, bs)
    else (pick p bs).map fun r => (r.1, b :: r.2)

/-- Merges new nodes, the first of which stands at place `i`, with the old ones that are still free;
these come with their places. -/
def mergeFrom (i : Nat) (free : List (α × Nat)) : List α → NodeSupply (List α × Bool)
  | [] => pure ([], false)
  | new :: news =>
    match pick (fun old => decide (key old.1 = key new)) free with
    | some (old, others) => do
      let r ← adopt old.1 new
      let more ← mergeFrom (i + 1) others news
      return (r.1 :: more.1, old.2 != i || r.2 || more.2)
    | none => do
      let r ← renumber new
      let more ← mergeFrom (i + 1) free news
      return (r :: more.1, true)

/-- Merges a list of nodes with an old one. -/
def mergeList (olds news : List α) : NodeSupply (List α × Bool) := do
  let r ← mergeFrom 0 olds.zipIdx news
  return (r.1, olds.length != news.length || r.2)

/-- Merges a node with the old one in the same place. -/
def mergeOne (old new : α) : NodeSupply (α × Bool) :=
  if key old = key new then adopt old new
  else do
    let r ← renumber new
    return (r, true)

/-- Merges a node that may be missing. -/
def mergeOption : Option α → Option α → NodeSupply (Option α × Bool)
  | none, none => pure (none, false)
  | some _, none => pure (none, true)
  | none, some new => do
    let r ← renumber new
    return (some r, true)
  | some old, some new => do
    let r ← mergeOne old new
    return (some r.1, r.2)

end Mergeable

open Mergeable NodeSupply

instance : Mergeable ImportDecl where
  Key := String
  decEqKey := inferInstance
  key i := i.spec
  renumber i := do return { i with node := ← fresh }
  adopt old new := pure ({ new with node := old.node }, false)

instance : Mergeable TypeRef where
  Key := String
  decEqKey := inferInstance
  key r := r.name
  renumber r := do return { r with node := ← fresh }
  adopt old new := pure ({ new with node := old.node }, false)

instance : Mergeable Property where
  Key := String × Option String
  decEqKey := inferInstance
  key p := (p.name, p.index)
  renumber p := do return { p with node := ← fresh }
  adopt old new := pure ({ new with node := old.node }, decide (new.entries ≠ old.entries))

instance : Mergeable Param where
  Key := String
  decEqKey := inferInstance
  key p := p.name
  renumber p := do
    let node ← fresh
    return { p with node, properties := ← each renumber p.properties }
  adopt old new := do
    let properties ← mergeList old.properties new.properties
    return ({ new with node := old.node, properties := properties.1 },
      properties.2 || decide (new.type ≠ old.type) || new.volatile != old.volatile
        || decide (new.value ≠ old.value))

instance : Mergeable Gate where
  Key := String
  decEqKey := inferInstance
  key g := g.name
  renumber g := do
    let node ← fresh
    return { g with node, properties := ← each renumber g.properties }
  adopt old new := do
    let properties ← mergeList old.properties new.properties
    return ({ new with node := old.node, properties := properties.1 },
      properties.2 || decide (new.direction ≠ old.direction) || new.isVector != old.isVector
        || decide (new.size ≠ old.size))

instance : Mergeable Submodule where
  Key := String
  decEqKey := inferInstance
  key s := s.name
  renumber s := do
    let node ← fresh
    let type ← renumber s.type
    let params ← each renumber s.params
    let gates ← each renumber s.gates
    let properties ← each renumber s.properties
    return { s with node, type, params, gates, properties }
  adopt old new := do
    let type ← mergeOne old.type new.type
    let params ← mergeList old.params new.params
    let gates ← mergeList old.gates new.gates
    let properties ← mergeList old.properties new.properties
    return ({ new with node := old.node, type := type.1, params := params.1, gates := gates.1,
                       properties := properties.1 },
      decide (new.vectorSize ≠ old.vectorSize) || decide (new.like ≠ old.like)
        || type.2 || params.2 || gates.2 || properties.2)

instance : Mergeable ChannelSpec where
  Key := Option String × Bool
  decEqKey := inferInstance
  key c := (c.type.map TypeRef.name, c.like.isSome)
  renumber c := do
    let node ← fresh
    match c.type with
    | some r => return { c with node, type := some (← renumber r) }
    | none => return { c with node }
  adopt old new := do
    let type ← mergeOption old.type new.type
    return ({ new with node := old.node, type := type.1 },
      type.2 || decide (new.like ≠ old.like))

instance : Mergeable Connection where
  Key := GateRef × Arrow × GateRef
  decEqKey := inferInstance
  key c := (c.src, c.arrow, c.dest)
  renumber c := do
    let node ← fresh
    match c.channel with
    | some channel => return { c with node, channel := some (← renumber channel) }
    | none => return { c with node }
  adopt old new := do
    let channel ← mergeOption old.channel new.channel
    return ({ new with node := old.node, channel := channel.1 }, channel.2)

namespace TypeDetails

/-- Fresh numbers for the declaration itself, its references, parameters and gates. -/
def renumberBefore (t : TypeDetails) : NodeSupply TypeDetails := do
  let node ← fresh
  let bases ← each renumber t.bases
  let interfaces ← each renumber t.interfaces
  let params ← each renumber t.params
  let gates ← each renumber t.gates
  return { t with node, bases, interfaces, params, gates }

/-- Fresh numbers for what is numbered after the inner types. -/
def renumberAfter (t : TypeDetails) : NodeSupply TypeDetails := do
  let submodules ← each renumber t.submodules
  let connections ← each renumber t.connections
  let properties ← each renumber t.properties
  return { t with submodules, connections, properties }

/-- Merges the declaration itself, its references, parameters and gates. -/
def adoptBefore (old new : TypeDetails) : NodeSupply (TypeDetails × Bool) := do
  let bases ← mergeList old.bases new.bases
  let interfaces ← mergeList old.interfaces new.interfaces
  let params ← mergeList old.params new.params
  let gates ← mergeList old.gates new.gates
  return ({ new with node := old.node, bases := bases.1, interfaces := interfaces.1,
                     params := params.1, gates := gates.1 },
    decide (new.kind ≠ old.kind) || new.allowUnconnected != old.allowUnconnected
      || bases.2 || interfaces.2 || params.2 || gates.2)

/-- Merges what is merged after the inner types. -/
def adoptAfter (old new : TypeDetails) : NodeSupply (TypeDetails × Bool) := do
  let submodules ← mergeList old.submodules new.submodules
  let connections ← mergeList old.connections new.connections
  let properties ← mergeList old.properties new.properties
  return ({ new with submodules := submodules.1, connections := connections.1,
                     properties := properties.1 },
    submodules.2 || connections.2 || properties.2)

end TypeDetails

mutual

/-- Fresh numbers for a type declaration and all below it. -/
def TypeDecl.renumber : TypeDecl → NodeSupply TypeDecl
  | ⟨own, types⟩ => do
    let own ← own.renumberBefore
    let types ← TypeDecl.renumberEach types
    let own ← own.renumberAfter
    return ⟨own, types⟩

/-- Fresh numbers for several type declarations. -/
def TypeDecl.renumberEach : List TypeDecl → NodeSupply (List TypeDecl)
  | [] => pure []
  | t :: ts => do
    let t ← t.renumber
    let ts ← TypeDecl.renumberEach ts
    return t :: ts

end

mutual

/-- Gives the second declaration the numbers of the first. -/
def TypeDecl.adopt (old : TypeDecl) : TypeDecl → NodeSupply (TypeDecl × Bool)
  | ⟨own, types⟩ => do
    let before ← TypeDetails.adoptBefore old.toTypeDetails own
    let inner ← TypeDecl.adoptFrom 0 old.types.zipIdx types
    let after ← TypeDetails.adoptAfter old.toTypeDetails before.1
    return (⟨after.1, inner.1⟩,
      before.2 || old.types.length != types.length || inner.2 || after.2)

/-- Merges declarations, the first of which stands at place `i`, with the old ones still free. -/
def TypeDecl.adoptFrom (i : Nat) (free : List (TypeDecl × Nat)) :
    List TypeDecl → NodeSupply (List TypeDecl × Bool)
  | [] => pure ([], false)
  | new :: news =>
    match pick (fun old => decide (old.1.name = new.name)) free with
    | some (old, others) => do
      let r ← TypeDecl.adopt old.1 new
      let more ← TypeDecl.adoptFrom (i + 1) others news
      return (r.1 :: more.1, old.2 != i || r.2 || more.2)
    | none => do
      let r ← TypeDecl.renumber new
      let more ← TypeDecl.adoptFrom (i + 1) free news
      return (r :: more.1, true)

end

instance : Mergeable TypeDecl where
  Key := String
  decEqKey := inferInstance
  key t := t.name
  renumber := TypeDecl.renumber
  adopt := TypeDecl.adopt

/-- Inner types are renumbered like any other list. -/
theorem TypeDecl.renumberEach_eq (ts : List TypeDecl) :
    TypeDecl.renumberEach ts = each renumber ts := by
  induction ts with
  | nil => simp [TypeDecl.renumberEach, each]
  | cons t ts ih => simp only [TypeDecl.renumberEach, each, ih]

/-- Inner types are merged like any other list. -/
theorem TypeDecl.adoptFrom_eq (i : Nat) (free : List (TypeDecl × Nat)) (news : List TypeDecl) :
    TypeDecl.adoptFrom i free news = mergeFrom i free news := by
  induction news generalizing i free with
  | nil => simp [TypeDecl.adoptFrom, mergeFrom]
  | cons new news ih =>
    have hkey : (fun old : TypeDecl × Nat => decide (old.1.name = new.name)) =
        fun old => decide (key old.1 = key new) := rfl
    simp only [TypeDecl.adoptFrom, mergeFrom, ih, hkey]
    cases pick (fun old => decide (key old.1 = key new)) free <;> rfl

/-- A merged tree, and whether it differs from the old one in more than numbers and spans. -/
structure Merge where
  tree : Tree
  changed : Bool

/-- The package declaration keeps its number whatever its name. -/
def PackageDecl.merge : Option PackageDecl → Option PackageDecl →
    NodeSupply (Option PackageDecl × Bool)
  | none, none => pure (none, false)
  | some _, none => pure (none, true)
  | none, some new => do
    return (some { new with node := ← fresh }, true)
  | some old, some new => pure (some { new with node := old.node }, old.name != new.name)

/-- Merges the lists of two trees, with the numbers from `old.nextNode` on free. -/
def Tree.adopt (old new : Tree) : NodeSupply (Tree × Bool) := do
  let package ← PackageDecl.merge old.package new.package
  let imports ← mergeList old.imports new.imports
  let properties ← mergeList old.properties new.properties
  let types ← mergeList old.types new.types
  return ({ new with package := package.1, imports := imports.1, properties := properties.1,
                     types := types.1 },
    package.2 || imports.2 || properties.2 || types.2)

/-- Merges a new tree into an old one. -/
def Tree.merge (old new : Tree) : Merge :=
  let r := (Tree.adopt old new).run (max old.nextNode 1)
  ⟨{ r.1.1 with nextNode := r.2 }, r.1.2⟩

/-- Whether two trees agree in all but numbers and spans. -/
def Tree.sameStructure (a b : Tree) : Bool :=
  !(a.merge b).changed

end NedWorkspace
