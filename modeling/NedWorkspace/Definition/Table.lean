/-
# The symbol table of a project

SPEC_FULL, section 3 (ProjectContext) and section 4.2 (`rehash`).

A qualified name is either canonical, when one definition has it, or ambiguous, when several have it.
The first definition of a name is canonical; a second one makes the name ambiguous for good, and later
ones join the two. Names of inner types are reserved but neither.

An index finds the canonical names by their simple name. It is kept up to date by every registration:
a name that becomes ambiguous leaves it.
-/

import NedWorkspace.Definition.Basic
import NedWorkspace.Map.Ordered

namespace NedWorkspace

/-- Qualified names by simple name. -/
structure NameIndex where
  /-- The names of each simple name, none of the lists empty. -/
  lists : OrderedMap String (List String) := {}

namespace NameIndex

/-- The qualified names with the given simple name, in the order in which they were put in. -/
def named (i : NameIndex) (name : String) : List String :=
  (i.lists.get? name).getD []

/-- Puts the name of a definition at the end of its list. -/
def add (i : NameIndex) (d : Definition) : NameIndex :=
  ⟨i.lists.insert d.name (i.named d.name ++ [d.qname])⟩

/-- Takes the name of a definition out; a list that gets empty goes with it. -/
def remove (i : NameIndex) (d : Definition) : NameIndex :=
  match i.lists.get? d.name with
  | none => i
  | some names =>
    match names.filter (· != d.qname) with
    | [] => ⟨i.lists.erase d.name⟩
    | rest => ⟨i.lists.insert d.name rest⟩

end NameIndex

/-- The names of a project. -/
structure ProjectTable where
  /-- The canonical definitions by qualified name, in the order of registration. -/
  components : OrderedMap String Definition := {}
  /-- The definitions of ambiguous names, by the time at which the name became ambiguous. -/
  duplicates : OrderedMap String (List Definition) := {}
  /-- All qualified names, inner types included. -/
  reserved : List String := []
  /-- The canonical names. -/
  bySimpleName : NameIndex := {}

namespace ProjectTable

/-- Names with some more, each once. -/
def addNames (names more : List String) : List String :=
  more.foldl (fun all n => if all.contains n then all else all ++ [n]) names

/-- Registers a top-level definition. -/
def register (t : ProjectTable) (d : Definition) : ProjectTable :=
  let t := { t with reserved := addNames t.reserved (d.qname :: d.allInner.map fun i : Definition => i.qname) }
  match t.duplicates.get? d.qname with
  | some others => { t with duplicates := t.duplicates.insert d.qname (others ++ [d]) }
  | none =>
    match t.components.get? d.qname with
    | some first =>
      { t with components := t.components.erase d.qname
               duplicates := t.duplicates.insert d.qname [first, d]
               bySimpleName := t.bySimpleName.remove first }
    | none =>
      { t with components := t.components.insert d.qname d
               bySimpleName := t.bySimpleName.add d }

/-- The table of definitions registered in order. -/
def ofList (defs : List Definition) : ProjectTable :=
  defs.foldl register {}

/-- The canonical definition of a qualified name. -/
def component? (t : ProjectTable) (qname : String) : Option Definition :=
  t.components.get? qname

/-- The canonical definitions in the order of registration. -/
def definitions (t : ProjectTable) : List Definition :=
  t.components.values

/-- Whether a name is taken by a definition or an inner type. -/
def isReserved (t : ProjectTable) (qname : String) : Bool :=
  t.reserved.contains qname

/-- The canonical qualified names with the given simple name, in the order of registration. -/
def withSimpleName (t : ProjectTable) (name : String) : List String :=
  t.bySimpleName.named name

/-- The canonical qualified names of the types whose kind satisfies `p`. -/
def qnamesOfKind (t : ProjectTable) (p : TypeKind → Bool) : List String :=
  (t.definitions.filter fun d => p d.kind).map (·.qname)

end ProjectTable

end NedWorkspace
