/-
# Syntax trees

SPEC_FULL, section 1 (the declaration subset) and section 4.1 (`element_at`).

A file is a package declaration, imports, properties and type declarations. Every node has a number
that no other node of the file has, and the span that it was read from. References to types are kept
as names, expressions as text.

* `TypeDecl` is what a declaration says itself (`TypeDetails`) together with its inner types.
* `Tree.nodes` lists all nodes, a node before what lies inside it; `Tree.spanOf?` and
  `Tree.elementAt?` search that list.
-/

import NedWorkspace.Text.Position

namespace NedWorkspace

/-- The number of a node in the tree of its file. -/
abbrev NodeId := Nat

/-- `package inet.base;` -/
structure PackageDecl where
  node : NodeId
  name : String
  span : Span
deriving DecidableEq, Repr

/-- `import inet.base.*;` -/
structure ImportDecl where
  node : NodeId
  spec : String
  span : Span
deriving DecidableEq, Repr

namespace ImportDecl

/-- Whether the specification has a star anywhere. -/
def isWildcard (i : ImportDecl) : Bool :=
  i.spec.toList.contains '*'

end ImportDecl

/-- `key=v1,v2` inside a property; the default key is empty. -/
structure PropertyEntry where
  key : String
  values : List String
deriving DecidableEq, Repr

/-- A property such as `@unit(s)` or `@statistic[delay](record=mean,max)`. -/
structure Property where
  node : NodeId
  name : String
  index : Option String
  entries : List PropertyEntry
  span : Span
deriving DecidableEq, Repr

namespace Property

/-- The values of the first entry with the given key. -/
def values (p : Property) (key : String) : List String :=
  match p.entries.find? (·.key == key) with
  | some e => e.values
  | none => []

/-- The first value of the default key. -/
def simpleValue? (p : Property) : Option String :=
  (p.values "").head?

/-- The first property with the given name and no index. -/
def find? (properties : List Property) (name : String) : Option Property :=
  properties.find? fun p => p.name == name && p.index.isNone

end Property

/-- What a type declaration declares. -/
inductive TypeKind where
  | simpleModule
  | compoundModule
  | network
  | channel
  | moduleInterface
  | channelInterface
deriving DecidableEq, Repr

namespace TypeKind

/-- The kind in words, as messages have it. -/
def words : TypeKind → String
  | simpleModule => "simple module"
  | compoundModule => "compound module"
  | network => "network"
  | channel => "channel"
  | moduleInterface => "module interface"
  | channelInterface => "channel interface"

/-- Module and channel interfaces. -/
def isInterface : TypeKind → Bool
  | moduleInterface | channelInterface => true
  | _ => false

/-- The kinds that can be a submodule. -/
def isModule : TypeKind → Bool
  | simpleModule | compoundModule | network => true
  | _ => false

/-- Channels and channel interfaces. -/
def isChannelFamily : TypeKind → Bool
  | channel | channelInterface => true
  | _ => false

/-- The kinds that may have inner types. -/
def isCompound : TypeKind → Bool
  | compoundModule | network => true
  | _ => false

end TypeKind

/-- A type named in the text. -/
structure TypeRef where
  node : NodeId
  name : String
  span : Span
deriving DecidableEq, Repr

/-- The types of parameters. -/
inductive ParamType where
  | bool
  | int
  | double
  | string
  | xml
  | object
deriving DecidableEq, Repr

/-- A parameter declaration or, without a type, an assignment to a parameter declared elsewhere. -/
structure Param where
  node : NodeId
  name : String
  type : Option ParamType
  volatile : Bool
  value : Option String
  properties : List Property
  span : Span
deriving DecidableEq, Repr

/-- The way a gate faces. -/
inductive GateDirection where
  | input
  | output
  | inout
deriving DecidableEq, Repr

namespace GateDirection

/-- The direction as it is written. -/
def word : GateDirection → String
  | input => "input"
  | output => "output"
  | inout => "inout"

end GateDirection

/-- A gate declaration or, without a direction, the size of a gate vector declared elsewhere. -/
structure Gate where
  node : NodeId
  name : String
  direction : Option GateDirection
  isVector : Bool
  size : Option String
  properties : List Property
  span : Span
deriving DecidableEq, Repr

/-- A submodule. For `<expr> like IFace` the type is the interface and `like` the expression. -/
structure Submodule where
  node : NodeId
  name : String
  vectorSize : Option String
  type : TypeRef
  like : Option String
  params : List Param
  gates : List Gate
  properties : List Property
  span : Span
deriving DecidableEq, Repr

/-- What follows the name of a gate in a connection: nothing, an index in brackets, or `++`. -/
inductive GateIndex where
  | absent
  | bracketed
  | next
deriving DecidableEq, Repr

namespace GateIndex

/-- Whether one element of a gate vector is meant. -/
def isIndexed : GateIndex → Bool
  | absent => false
  | _ => true

end GateIndex

/-- One end of a connection: a gate of a submodule, or of the module itself. -/
structure GateRef where
  module : Option String
  moduleIndexed : Bool
  gate : String
  index : GateIndex
deriving DecidableEq, Repr

namespace GateRef

/-- A gate name cut into its base and the half that a suffix `$i` or `$o` names. -/
def splitHalf (gate : String) : String × Option GateDirection :=
  match gate.toList.reverse with
  | h :: '$' :: base =>
    if h == 'i' then (String.ofList base.reverse, some .input)
    else if h == 'o' then (String.ofList base.reverse, some .output)
    else (gate, none)
  | _ => (gate, none)

/-- The name of the gate without the suffix that names a half. -/
def base (r : GateRef) : String :=
  (splitHalf r.gate).1

/-- The half of an inout gate that the suffix names. -/
def half (r : GateRef) : Option GateDirection :=
  (splitHalf r.gate).2

end GateRef

/-- Whether a connection goes one way or both. The one-way ones run from `src` to `dest`. -/
inductive Arrow where
  | unidirectional
  | bidirectional
deriving DecidableEq, Repr

/-- The channel of a connection; it has no type when it is written as a bare body. -/
structure ChannelSpec where
  node : NodeId
  type : Option TypeRef
  like : Option String
  span : Span
deriving DecidableEq, Repr

/-- A connection between two gates. -/
structure Connection where
  node : NodeId
  src : GateRef
  dest : GateRef
  arrow : Arrow
  channel : Option ChannelSpec
  span : Span
deriving DecidableEq, Repr

/-- All that a type declaration says, its inner types apart. -/
structure TypeDetails where
  node : NodeId
  kind : TypeKind
  name : String
  bases : List TypeRef := []
  interfaces : List TypeRef := []
  params : List Param := []
  gates : List Gate := []
  submodules : List Submodule := []
  connections : List Connection := []
  allowUnconnected : Bool := false
  properties : List Property := []
  span : Span := {}
deriving DecidableEq, Repr

/-- A type declaration with its inner types. -/
structure TypeDecl extends TypeDetails where
  types : List TypeDecl := []

namespace TypeDecl

/-- The property of the type with the given name. -/
def property? (t : TypeDecl) (name : String) : Option Property :=
  Property.find? t.properties name

end TypeDecl

/-- The tree of a file. No node has a number at or above `nextNode`. -/
structure Tree where
  package : Option PackageDecl := none
  imports : List ImportDecl := []
  properties : List Property := []
  types : List TypeDecl := []
  nextNode : Nat := 0

/-- A node with its span. -/
structure NodeSpan where
  node : NodeId
  span : Span
deriving DecidableEq, Repr

namespace Property

/-- The one node of a property. -/
def nodeSpan (p : Property) : NodeSpan :=
  ⟨p.node, p.span⟩

end Property

namespace TypeRef

/-- The one node of a reference. -/
def nodeSpan (r : TypeRef) : NodeSpan :=
  ⟨r.node, r.span⟩

end TypeRef

namespace Param

/-- The nodes of a parameter. -/
def nodes (p : Param) : List NodeSpan :=
  ⟨p.node, p.span⟩ :: p.properties.map Property.nodeSpan

end Param

namespace Gate

/-- The nodes of a gate. -/
def nodes (g : Gate) : List NodeSpan :=
  ⟨g.node, g.span⟩ :: g.properties.map Property.nodeSpan

end Gate

namespace Submodule

/-- The nodes of a submodule. -/
def nodes (s : Submodule) : List NodeSpan :=
  ⟨s.node, s.span⟩ :: s.type.nodeSpan ::
    (s.properties.map Property.nodeSpan ++ s.params.flatMap Param.nodes
      ++ s.gates.flatMap Gate.nodes)

end Submodule

namespace ChannelSpec

/-- The nodes of a channel. -/
def nodes (c : ChannelSpec) : List NodeSpan :=
  ⟨c.node, c.span⟩ :: c.type.toList.map TypeRef.nodeSpan

end ChannelSpec

namespace Connection

/-- The nodes of a connection. -/
def nodes (c : Connection) : List NodeSpan :=
  ⟨c.node, c.span⟩ :: c.channel.toList.flatMap ChannelSpec.nodes

end Connection

namespace TypeDetails

/-- The nodes of a declaration that come before those of its inner types. -/
def nodesBefore (t : TypeDetails) : List NodeSpan :=
  ⟨t.node, t.span⟩ ::
    (t.bases.map TypeRef.nodeSpan ++ t.interfaces.map TypeRef.nodeSpan
      ++ t.properties.map Property.nodeSpan ++ t.params.flatMap Param.nodes
      ++ t.gates.flatMap Gate.nodes)

/-- The nodes of a declaration that come after those of its inner types. -/
def nodesAfter (t : TypeDetails) : List NodeSpan :=
  t.submodules.flatMap Submodule.nodes ++ t.connections.flatMap Connection.nodes

end TypeDetails

mutual

/-- The nodes of a type declaration, each before what lies inside it. -/
def TypeDecl.nodes : TypeDecl → List NodeSpan
  | ⟨own, types⟩ => own.nodesBefore ++ TypeDecl.nodesOfList types ++ own.nodesAfter

/-- The nodes of several type declarations. -/
def TypeDecl.nodesOfList : List TypeDecl → List NodeSpan
  | [] => []
  | t :: ts => t.nodes ++ TypeDecl.nodesOfList ts

end

namespace Tree

/-- All nodes of a tree, each before what lies inside it. -/
def nodes (t : Tree) : List NodeSpan :=
  t.package.toList.map (fun p => ⟨p.node, p.span⟩)
    ++ t.imports.map (fun i => ⟨i.node, i.span⟩)
    ++ t.properties.map Property.nodeSpan
    ++ TypeDecl.nodesOfList t.types

/-- The span of the node with the given number. -/
def spanOf? (t : Tree) (node : NodeId) : Option Span :=
  (t.nodes.find? (·.node == node)).map NodeSpan.span

/-- The innermost node at a position: a node stands before what lies inside it, so the last one that
contains the position. -/
def elementAt? (t : Tree) (p : Position) : Option NodeId :=
  (t.nodes.reverse.find? (·.span.contains p)).map NodeSpan.node

/-- The name of the package, if one is declared. -/
def packageName? (t : Tree) : Option String :=
  t.package.map PackageDecl.name

/-- The property of the file with the given name. -/
def property? (t : Tree) (name : String) : Option Property :=
  Property.find? t.properties name

end Tree

end NedWorkspace
