/-
# Checking a file

SPEC_FULL, section 4.6: the consistency checks of the Validator, with their texts.

One file is checked against the current tables:

* the package fits the folder,
* every type named exists and has the right kind,
* no chain of supertypes runs in a circle,
* a type has the parameters and gates of the interfaces it implements,
* members are declared once, and what is assigned or sized exists,
* submodules and connections use parameters and gates that exist, in the right direction.

Findings come in the order of the declarations; an inner type is checked after the type around it.
-/

import NedWorkspace.Check.Diagnostic
import NedWorkspace.Resolve.Members

namespace NedWorkspace

/-- A problem and the node that has it. -/
structure Finding where
  node : Option NodeId
  problem : Problem

namespace Check

/-- All findings of a question asked of each element, in order. -/
def collect {α β : Type} (f : α → Query (List β)) : List α → Query (List β)
  | [] => pure []
  | a :: as => do
    let here ← f a
    let more ← collect f as
    return here ++ more

/-- One finding about a node. -/
def finding (node : NodeId) (problem : Problem) : List Finding :=
  [⟨some node, problem⟩]

/-- The finding, if the condition holds. -/
def findingIf (condition : Bool) (node : NodeId) (problem : Problem) : List Finding :=
  if condition then finding node problem else []

/-- The declared package is the expected one, if one is expected. -/
def package (tree : Tree) (expected : Option String) : List Finding :=
  let declared := tree.packageName?.getD ""
  match expected with
  | none => []
  | some expected =>
    if declared = expected then []
    else [⟨tree.package.map PackageDecl.node, .packageMismatch declared expected⟩]

/-- The findings about the type that a reference denotes, or that there is none. -/
def reference (m : Model) (d : Definition) (r : TypeRef) (f : Definition → List Finding) :
    Query (List Finding) := do
  match ← m.lookup r.name d.context with
  | some t => return f t
  | none => return finding r.node (.noSuchType r.name)

/-- Whether a type of the first kind may extend one of the second. -/
def mayExtend : TypeKind → TypeKind → Bool
  | .simpleModule, base => base = .simpleModule
  | .compoundModule, base => base.isModule
  | .network, base => base.isModule
  | kind, base => base = kind

/-- Only interfaces extend several types, and a type extends its like. -/
def bases (m : Model) (d : Definition) : Query (List Finding) := do
  let several := match d.decl.bases with
    | _ :: second :: _ =>
      findingIf (!d.kind.isInterface) second.node (.severalBases d.name)
    | _ => []
  let wrong ← collect (fun r => reference m d r fun base =>
    findingIf (!mayExtend d.kind base.kind) r.node
      (.wrongBase d.kind d.name base.kind base.qname)) d.decl.bases
  return several ++ wrong

/-- The kind of interface that a type of the given kind can be like. -/
def interfaceKind (kind : TypeKind) : TypeKind :=
  if kind.isChannelFamily then .channelInterface else .moduleInterface

/-- Interfaces are like nothing, other types only like interfaces of their family. -/
def interfaces (m : Model) (d : Definition) : Query (List Finding) :=
  match d.kind.isInterface, d.decl.interfaces with
  | true, first :: _ => return finding first.node .interfaceLike
  | _, refs => collect (fun r => reference m d r fun interface =>
      findingIf (decide (interface.kind ≠ interfaceKind d.kind)) r.node
        (.notAnInterface interface.qname (interfaceKind d.kind))) refs

/-- A required parameter is there and has the required type. -/
def requiredParam (node : NodeId) (own : Members) (interface : String) (p : InheritedParam) :
    List Finding :=
  match own.param? p.decl.name with
  | none => finding node (.missingParam p.decl.name interface)
  | some q =>
    findingIf (decide (q.decl.type ≠ p.decl.type)) node (.paramTypeDiffers p.decl.name interface)

/-- A required gate is there and looks as required. -/
def requiredGate (node : NodeId) (own : Members) (interface : String) (g : InheritedGate) :
    List Finding :=
  match own.gate? g.decl.name with
  | none => finding node (.missingGate g.decl.name interface)
  | some h =>
    findingIf (decide (h.decl.direction ≠ g.decl.direction) || h.decl.isVector != g.decl.isVector)
      node (.gateDiffers g.decl.name interface)

/-- A type has all that one interface requires, if the name is an interface's. -/
def conformsTo (m : Model) (project : String) (d : Definition) (own : Members)
    (interface : String) : Query (List Finding) :=
  match (m.innerOrToplevel? interface project).filter (·.kind.isInterface) with
  | none => return []
  | some i => do
    let required ← m.members i
    return required.params.flatMap (requiredParam d.key.node own interface)
      ++ required.gates.flatMap (requiredGate d.key.node own interface)

/-- A type that is no interface has all that its interfaces require. -/
def conformance (m : Model) (d : Definition) (own : Members) : Query (List Finding) :=
  if d.kind.isInterface then return []
  else
    match m.projectFor? d.context with
    | none => return []
    | some project => collect (conformsTo m project d own) own.interfaces

/-- Parameters are declared once along the chain, and only known ones are assigned. `seen` are the
names declared before. -/
def params (qname : String) (all : Members) (seen : List String) : List Param → List Finding
  | [] => []
  | p :: ps =>
    if p.type.isSome then
      let here :=
        if seen.contains p.name then finding p.node (.paramRepeated p.name)
        else
          match all.param? p.name with
          | some q =>
            findingIf (q.declaredIn != qname) p.node (.paramInherited p.name q.declaredIn)
          | none => []
      here ++ params qname all (p.name :: seen) ps
    else
      findingIf (all.param? p.name).isNone p.node (.noSuchParam p.name)
        ++ params qname all seen ps

/-- Gates are declared once along the chain, and only known vectors are sized. -/
def gates (qname : String) (all : Members) (seen : List String) : List Gate → List Finding
  | [] => []
  | g :: gs =>
    if g.direction.isSome then
      let here :=
        if seen.contains g.name then finding g.node (.gateRepeated g.name)
        else
          match all.gate? g.name with
          | some h => findingIf (h.declaredIn != qname) g.node (.gateInherited g.name h.declaredIn)
          | none => []
      here ++ gates qname all (g.name :: seen) gs
    else
      let here := match all.gate? g.name with
        | none => finding g.node (.noSuchGate g.name)
        | some h => findingIf (!h.decl.isVector) g.node (.notVectorGate g.name)
      here ++ gates qname all seen gs

/-- Findings for the nodes whose name an earlier one has. -/
def repeated (problem : String → Problem) (seen : List String) :
    List (String × NodeId) → List Finding
  | [] => []
  | (name, node) :: more =>
    findingIf (seen.contains name) node (problem name) ++ repeated problem (name :: seen) more

/-- The members that a declaration has itself. -/
def ownMembers (d : Definition) (all : Members) : List Finding :=
  params d.qname all [] d.decl.params ++ gates d.qname all [] d.decl.gates
    ++ repeated .submoduleRepeated [] (d.decl.submodules.map fun s => (s.name, s.node))
    ++ repeated .typeRepeated [] (d.decl.types.map fun t => (t.name, t.node))

/-- A parameter in a submodule is an assignment to one that the type has. -/
def submoduleParam (type : Definition) (all : Members) (p : Param) : List Finding :=
  if p.type.isSome then finding p.node (.paramInSubmodule p.name)
  else findingIf (all.param? p.name).isNone p.node (.noParamOfType type.qname p.name)

/-- A gate in a submodule gives the size of a vector that the type has. -/
def submoduleGate (type : Definition) (all : Members) (g : Gate) : List Finding :=
  match all.gate? g.name with
  | none => finding g.node (.noGateOfType type.qname g.name)
  | some h => findingIf (!h.decl.isVector) g.node (.notVectorGateOfType type.qname g.name)

/-- The type of a submodule has the right kind and the members that the submodule uses. -/
def submodule (m : Model) (d : Definition) (s : Submodule) : Query (List Finding) := do
  match ← m.lookup s.type.name d.context with
  | none => return finding s.type.node (.noSuchType s.type.name)
  | some type =>
    if s.like.isSome ∧ type.kind ≠ .moduleInterface then
      return finding s.type.node (.notModuleInterface type.qname)
    else if s.like.isNone ∧ ¬ type.kind.isModule then
      return finding s.type.node (.notModule type.qname)
    else
      let all ← m.members type
      return s.params.flatMap (submoduleParam type all) ++ s.gates.flatMap (submoduleGate type all)

/-- What an end of a connection does. -/
inductive Role where
  | source
  | destination
  | both
deriving DecidableEq, Repr

/-- The direction that a gate must have at an end of a connection. Gates of the module itself are seen
from the inside. -/
def requiredDirection (role : Role) (ofModule : Bool) : GateDirection :=
  match role, ofModule with
  | .both, _ => .inout
  | .source, false => .output
  | .destination, true => .output
  | .source, true => .input
  | .destination, false => .input

/-- A gate faces the way that its end of the connection requires. -/
def facing (node : NodeId) (gate : String) (effective required : GateDirection) : List Finding :=
  if effective = required then []
  else if required = .inout then finding node (.notInout gate)
  else if effective = .inout then finding node (.isInout gate)
  else finding node (.wrongDirection gate effective)

/-- A gate that was found is used as it was declared. -/
def gateUse (node : NodeId) (role : Role) (r : GateRef) (g : Gate) : List Finding :=
  match g.direction with
  | none => []
  | some declared =>
    if r.half.isSome ∧ declared ≠ .inout then finding node (.noHalves r.base)
    else
      facing node r.base (r.half.getD declared) (requiredDirection role r.module.isNone)
        ++ findingIf (g.isVector && !r.index.isIndexed) node (.gateNeedsIndex r.base)
        ++ findingIf (!g.isVector && r.index.isIndexed) node (.gateNotVector r.base)

/-- The first submodule with the given name along a chain. -/
def submoduleAlong (chain : List Definition) (name : String) : Option Submodule :=
  chain.findSome? (·.submodule? name)

/-- A submodule is given an index exactly if it is a vector. -/
def submoduleIndex (node : NodeId) (name : String) (s : Submodule) (indexed : Bool) :
    List Finding :=
  findingIf (s.vectorSize.isSome && !indexed) node (.submoduleNeedsIndex name)
    ++ findingIf (s.vectorSize.isNone && indexed) node (.submoduleNotVector name)

/-- One end of a connection. -/
def endpoint (m : Model) (d : Definition) (all : Members) (node : NodeId) (r : GateRef)
    (role : Role) : Query (List Finding) :=
  match r.module with
  | none =>
    match all.gate? r.base with
    | some g => return gateUse node role r g.decl
    | none => return finding node (.noGateOfModule r.base)
  | some name =>
    match submoduleAlong all.chain name with
    | none => return finding node (.noSubmodule name)
    | some s => do
      let index := submoduleIndex node name s r.moduleIndexed
      match ← m.lookup s.type.name d.context with
      | none => return index
      | some type =>
        let members ← m.members type
        match members.gate? r.base with
        | some g => return index ++ gateUse node role r g.decl
        | none => return index ++ finding node (.noGateOfSubmodule name r.base)

/-- The channel of a connection has the right kind. -/
def channel (m : Model) (d : Definition) (c : ChannelSpec) : Query (List Finding) :=
  match c.type with
  | none => return []
  | some r => reference m d r fun type =>
      if c.like.isSome then
        findingIf (decide (type.kind ≠ .channelInterface)) r.node (.notChannelInterface type.qname)
      else findingIf (decide (type.kind ≠ .channel)) r.node (.notChannel type.qname)

/-- Both ends of a connection and its channel. -/
def connection (m : Model) (d : Definition) (all : Members) (c : Connection) :
    Query (List Finding) := do
  let (srcRole, destRole) : Role × Role := match c.arrow with
    | .unidirectional => (.source, .destination)
    | .bidirectional => (.both, .both)
  let src ← endpoint m d all c.node c.src srcRole
  let dest ← endpoint m d all c.node c.dest destRole
  let link ← match c.channel with
    | some spec => channel m d spec
    | none => pure []
  return src ++ dest ++ link

/-- One type, its inner types apart. -/
def ownType (m : Model) (d : Definition) : Query (List Finding) := do
  let bases ← bases m d
  let interfaces ← interfaces m d
  let all ← m.members d
  let inheritance ←
    if all.cycle then pure (finding d.key.node (.inheritanceCycle d.qname))
    else conformance m d all
  let submodules ← if d.kind.isCompound then collect (submodule m d) d.decl.submodules else pure []
  let connections ←
    if d.kind.isCompound then collect (connection m d all) d.decl.connections else pure []
  return bases ++ interfaces ++ inheritance ++ ownMembers d all ++ submodules ++ connections

/-- The types in the order in which they are checked. -/
def order (types : List Definition) : List Definition :=
  Definition.withInner types

/-- All findings about a file. -/
def fileFindings (m : Model) (file : FileId) (tree : Tree) (expected : Option String) :
    Query (List Finding) := do
  let types ← collect (ownType m) (order (m.index.fileTypes file))
  return package tree expected ++ types

/-- The diagnostics of a file; `expected` is the package that its place implies, if any. -/
def file (m : Model) (file : FileId) (tree : Tree) (expected : Option String) :
    Query (List Diagnostic) := do
  let findings ← fileFindings m file tree expected
  return findings.map fun f => (f.problem.diagnostic file f.node).locate tree

/-- The diagnostics of the definitions that share a qualified name. Each
is held against the first, the first against the second. -/
def duplicatesOf (pathOf : FileId → String) (qname : String) (defs : List Definition) :
    List Diagnostic :=
  match defs with
  | first :: second :: more =>
    let against (d other : Definition) : List Diagnostic :=
      if d.isBuiltin then []
      else if other.isBuiltin then
        [(Problem.builtinRedefined d.kind qname).diagnostic d.file (some d.key.node)]
      else
        [(Problem.alreadyDefined d.kind qname (pathOf other.file)).diagnostic d.file
          (some d.key.node)]
    against first second ++ (second :: more).flatMap (against · first)
  | _ => []

/-- The diagnostics of all ambiguous names of a table. -/
def duplicates (table : ProjectTable) (pathOf : FileId → String) : List Diagnostic :=
  table.duplicates.entries.flatMap fun e => duplicatesOf pathOf e.1 e.2

end Check

end NedWorkspace
