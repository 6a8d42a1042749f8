/-
# Diagnostics

SPEC_FULL, section 3 (Diagnostic) and section 4.1 (remapped diagnostics).

A `Problem` is the cause of a diagnostic; its kind, code, severity and wording are functions of it.
A `Diagnostic` is a problem put into words and attached to a file and, in most cases, to a node, so
that it can follow the node when the file is read anew.
-/

import NedWorkspace.Definition.Basic
import NedWorkspace.Syntax.Parser

namespace NedWorkspace

/-- How serious a diagnostic is. -/
inductive Severity where
  | info
  | warning
  | error
deriving DecidableEq, Repr

/-- What a diagnostic is about. -/
inductive DiagnosticKind where
  | syntaxError
  | duplicateDefinition
  | unresolvedReference
  | consistency
deriving DecidableEq, Repr

/-- A message about a file. -/
structure Diagnostic where
  kind : DiagnosticKind
  severity : Severity
  code : String
  message : String
  file : FileId
  /-- The node meant; none if the whole file is. -/
  node : Option NodeId
  span : Span := {}
deriving DecidableEq, Repr

namespace Diagnostic

/-- Whether the diagnostic is an error. -/
def isError (d : Diagnostic) : Bool :=
  d.severity = .error

/-- The diagnostic with the span that its node has in a tree, if the node is there. -/
def locate (tree : Tree) (d : Diagnostic) : Diagnostic :=
  match d.node.bind tree.spanOf? with
  | some span => { d with span }
  | none => d

section Locate

variable (tree : Tree) (d : Diagnostic)

/-- Nothing changes but the span. -/
theorem locate_eq : d.locate tree = { d with span := (d.locate tree).span } := by
  unfold locate
  split <;> rfl

@[simp] theorem code_locate : (d.locate tree).code = d.code := by
  rw [locate_eq]

@[simp] theorem file_locate : (d.locate tree).file = d.file := by
  rw [locate_eq]

@[simp] theorem node_locate : (d.locate tree).node = d.node := by
  rw [locate_eq]

variable {tree d}

/-- A diagnostic without a node has no place that could change. -/
theorem locate_of_none (h : d.node = none) : d.locate tree = d := by
  rw [locate, h, Option.bind_none]

/-- A node that is in the tree gives its span. -/
theorem locate_of_some {n : NodeId} {span : Span} (h : d.node = some n) (hspan : tree.spanOf? n = some span) :
    d.locate tree = { d with span } := by
  rw [locate, h, Option.bind_some, hspan]

end Locate

end Diagnostic

/-- What can be wrong with a file. -/
inductive Problem where
  | builtinRedefined (kind : TypeKind) (qname : String)
  | alreadyDefined (kind : TypeKind) (qname path : String)
  | noSuchType (name : String)
  | packageMismatch (declared expected : String)
  | severalBases (name : String)
  | wrongBase (kind : TypeKind) (name : String) (baseKind : TypeKind) (base : String)
  | interfaceLike
  | notAnInterface (qname : String) (expected : TypeKind)
  | inheritanceCycle (qname : String)
  | missingParam (name interface : String)
  | paramTypeDiffers (name interface : String)
  | missingGate (name interface : String)
  | gateDiffers (name interface : String)
  | paramRepeated (name : String)
  | paramInherited (name owner : String)
  | noSuchParam (name : String)
  | gateRepeated (name : String)
  | gateInherited (name owner : String)
  | noSuchGate (name : String)
  | notVectorGate (name : String)
  | submoduleRepeated (name : String)
  | typeRepeated (name : String)
  | notModuleInterface (qname : String)
  | notModule (qname : String)
  | paramInSubmodule (name : String)
  | noParamOfType (qname name : String)
  | noGateOfType (qname name : String)
  | notVectorGateOfType (qname name : String)
  | noSubmodule (name : String)
  | submoduleNeedsIndex (name : String)
  | submoduleNotVector (name : String)
  | noGateOfSubmodule (submodule gate : String)
  | noGateOfModule (gate : String)
  | noHalves (gate : String)
  | notInout (gate : String)
  | isInout (gate : String)
  | wrongDirection (gate : String) (direction : GateDirection)
  | gateNeedsIndex (gate : String)
  | gateNotVector (gate : String)
  | notChannelInterface (qname : String)
  | notChannel (qname : String)
deriving DecidableEq, Repr

namespace Problem

/-- The text between single quotes. -/
def quoted (text : String) : String :=
  "'" ++ text ++ "'"

/-- What a problem is about. -/
def kind : Problem → DiagnosticKind
  | builtinRedefined .. | alreadyDefined .. => .duplicateDefinition
  | noSuchType .. => .unresolvedReference
  | _ => .consistency

/-- Only a package that does not fit its folder is less than an error. -/
def severity : Problem → Severity
  | packageMismatch .. => .warning
  | _ => .error

/-- The code of a problem. -/
def code : Problem → String
  | noSuchType .. => "E0001"
  | notAnInterface .. | paramTypeDiffers .. | gateDiffers .. | notModuleInterface .. | notModule ..
  | notChannelInterface .. | notChannel .. => "E0003"
  | builtinRedefined .. | alreadyDefined .. => "E0004"
  | missingParam .. | missingGate .. => "E0005"
  | severalBases .. | wrongBase .. | interfaceLike => "E0006"
  | inheritanceCycle .. => "E0007"
  | paramRepeated .. | paramInherited .. | gateRepeated .. | gateInherited .. | submoduleRepeated ..
  | typeRepeated .. | paramInSubmodule .. => "E0009"
  | noSuchParam .. | noSuchGate .. | notVectorGate .. | noParamOfType .. | noGateOfType ..
  | notVectorGateOfType .. => "E0015"
  | noSubmodule .. | submoduleNeedsIndex .. | submoduleNotVector .. | noGateOfSubmodule ..
  | noGateOfModule .. | noHalves .. | notInout .. | isInout .. | wrongDirection ..
  | gateNeedsIndex .. | gateNotVector .. => "E0016"
  | packageMismatch .. => "W0004"

/-- A problem in words. -/
def message : Problem → String
  | builtinRedefined kind qname =>
    kind.words ++ " " ++ quoted qname ++ " is a built-in type and cannot be redefined"
  | alreadyDefined kind qname path =>
    kind.words ++ " " ++ quoted qname ++ " already defined in " ++ path
  | noSuchType name => "no such type: " ++ quoted name
  | packageMismatch declared expected =>
    "declared package " ++ quoted declared ++ " does not match expected package " ++ quoted expected
  | severalBases name => quoted name ++ ": only interfaces may extend more than one type"
  | wrongBase kind name baseKind base =>
    kind.words ++ " " ++ quoted name ++ " cannot extend " ++ baseKind.words ++ " " ++ quoted base
  | interfaceLike => "interfaces cannot use 'like', use 'extends' instead"
  | notAnInterface qname expected => quoted qname ++ " is not a " ++ expected.words
  | inheritanceCycle qname => "cycle in the inheritance chain of " ++ quoted qname
  | missingParam name interface =>
    "missing parameter " ++ quoted name ++ " required by interface " ++ quoted interface
  | paramTypeDiffers name interface =>
    "type of parameter " ++ quoted name ++ " differs from interface " ++ quoted interface
  | missingGate name interface =>
    "missing gate " ++ quoted name ++ " required by interface " ++ quoted interface
  | gateDiffers name interface =>
    "gate " ++ quoted name ++ " differs from interface " ++ quoted interface
  | paramRepeated name => "parameter " ++ quoted name ++ " already declared"
  | paramInherited name owner =>
    "parameter " ++ quoted name ++ " already declared in " ++ quoted owner
  | noSuchParam name => "no such parameter: " ++ quoted name
  | gateRepeated name => "gate " ++ quoted name ++ " already declared"
  | gateInherited name owner => "gate " ++ quoted name ++ " already declared in " ++ quoted owner
  | noSuchGate name => "no such gate: " ++ quoted name
  | notVectorGate name => "gate " ++ quoted name ++ " is not a vector gate"
  | submoduleRepeated name => "submodule " ++ quoted name ++ " already defined"
  | typeRepeated name => "type " ++ quoted name ++ " already defined"
  | notModuleInterface qname => quoted qname ++ " is not a module interface"
  | notModule qname => quoted qname ++ " is not a module type"
  | paramInSubmodule name => "parameter " ++ quoted name ++ " cannot be declared in a submodule"
  | noParamOfType qname name => "type " ++ quoted qname ++ " has no parameter " ++ quoted name
  | noGateOfType qname name => "type " ++ quoted qname ++ " has no gate " ++ quoted name
  | notVectorGateOfType qname name =>
    "gate " ++ quoted name ++ " of " ++ quoted qname ++ " is not a vector gate"
  | noSubmodule name => "no submodule named " ++ quoted name
  | submoduleNeedsIndex name =>
    "submodule " ++ quoted name ++ " is a vector, an index is required"
  | submoduleNotVector name => "submodule " ++ quoted name ++ " is not a vector"
  | noGateOfSubmodule submodule gate =>
    "submodule " ++ quoted submodule ++ " has no gate named " ++ quoted gate
  | noGateOfModule gate => "compound module has no gate named " ++ quoted gate
  | noHalves gate => "gate " ++ quoted gate ++ " is not an inout gate, it has no halves"
  | notInout gate => "gate " ++ quoted gate ++ " is not an inout gate, use '-->' or '<--'"
  | isInout gate => "gate " ++ quoted gate ++ " is an inout gate, use '<-->' or a gate half"
  | wrongDirection gate direction => "gate " ++ quoted gate ++ " is an " ++ direction.word ++ " gate"
  | gateNeedsIndex gate =>
    "gate " ++ quoted gate ++ " is a vector gate, an index or '++' is required"
  | gateNotVector gate => "gate " ++ quoted gate ++ " is not a vector gate"
  | notChannelInterface qname => quoted qname ++ " is not a channel interface"
  | notChannel qname => quoted qname ++ " is not a channel type"

/-- A problem with a node of a file. -/
def diagnostic (p : Problem) (file : FileId) (node : Option NodeId) : Diagnostic :=
  { kind := p.kind, severity := p.severity, code := p.code, message := p.message, file, node }

end Problem

namespace Diagnostic

/-- A mistake found when reading a file. -/
def ofSyntaxError (file : FileId) (e : SyntaxError) : Diagnostic :=
  { kind := .syntaxError, severity := .error, code := "E0000", message := e.message, file,
    node := none, span := e.span }

end Diagnostic

end NedWorkspace
