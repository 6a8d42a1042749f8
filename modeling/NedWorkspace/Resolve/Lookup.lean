/-
# Which type a name denotes

SPEC_FULL, section 4.3, TypeResolver: `lookup`, `get_visible_type_names`.

A qualified name denotes an inner type of the compound module around it, or else a canonical type.
A simple name denotes the first of these that exists:

1. an inner type of the top-level compound module around it,
2. a type that an import names,
3. a type of the same package,
4. a type that a wildcard import covers, imports in order.

`resolve` is the rule itself. `lookupIn` remembers answers, also negative ones, by project, context
and name, and counts how often it had to apply the rule.
-/

import NedWorkspace.Definition.Index
import NedWorkspace.Definition.Table
import NedWorkspace.Map.Sorted

namespace NedWorkspace

/-- The definitions of all files and the symbol tables of all projects. -/
structure Model where
  index : DefinitionIndex
  tables : OrderedMap String ProjectTable

namespace Model

/-- The symbol table of a project. -/
def table? (m : Model) (project : String) : Option ProjectTable :=
  m.tables.get? project

/-- The project whose table counts in a context. -/
def projectFor? (m : Model) (context : LookupContext) : Option String :=
  m.index.projectOf? context.fileId

/-- The top-level compound module around a context. -/
def compoundAround? (m : Model) : LookupContext → Option Definition
  | .file _ => none
  | .type key =>
    ((m.index.get? key).bind fun d => m.index.get? d.toplevel).filter fun t => t.kind.isCompound

/-- The compound modules whose inner types a qualified name may denote: the type of the context, then
the top-level one around it. -/
def compoundsFor (m : Model) : LookupContext → List Definition
  | .file _ => []
  | .type key =>
    ((m.index.get? key).filter fun d => d.kind.isCompound).toList
      ++ (m.compoundAround? (.type key)).toList

/-- The type that a qualified name denotes inside a compound module. -/
def innerByQName? (outer : Definition) (name : String) : Option Definition :=
  (Name.relativeTo? outer.qname name).bind outer.innerAt?

/-- The type that a qualified name denotes. -/
def resolveQualified (m : Model) (table : ProjectTable) (context : LookupContext) (name : String) :
    Option Definition :=
  ((m.compoundsFor context).findSome? fun d => innerByQName? d name).or (table.component? name)

/-- The type that a simple name denotes by an import that names it. -/
def importedByName? (table : ProjectTable) (imports : List ImportSpec) (name : String) :
    Option Definition :=
  imports.findSome? fun i => if i.names name then table.component? i.text else none

/-- The type that a simple name denotes by a wildcard import. -/
def importedByPattern? (table : ProjectTable) (imports : List ImportSpec) (name : String) :
    Option Definition :=
  ((imports.filter ImportSpec.isWildcard).findSome? fun i =>
    (table.withSimpleName name).find? i.covers).bind table.component?

/-- The type that a simple name denotes. -/
def resolveSimple (m : Model) (table : ProjectTable) (scope : FileScope) (context : LookupContext)
    (name : String) : Option Definition :=
  ((m.compoundAround? context).bind fun c => c.inner? name)
    |>.or (importedByName? table scope.imports name)
    |>.or (table.component? (Name.qualify scope.package name))
    |>.or (importedByPattern? table scope.imports name)

/-- The type that a name denotes in a context, by the table of a project. -/
def resolve (m : Model) (name : String) (context : LookupContext) (project : String) :
    Option Definition :=
  match m.table? project, m.index.file? context.fileId with
  | some table, some scope =>
    if Name.isQualified name then m.resolveQualified table context name
    else m.resolveSimple table scope context name
  | _, _ => none

/-- A canonical type by qualified name, or an inner type of the one with the longest name that the
given one goes on from. -/
def innerOrToplevel? (m : Model) (qname : String) (project : String) : Option Definition :=
  (m.table? project).bind fun table =>
    match table.component? qname with
    | some d => some d
    | none =>
      let segments := Name.segments qname
      let cuts := (List.range (segments.length - 1)).reverse.map (· + 1)
      (cuts.findSome? fun n =>
        (table.component? (Name.join (segments.take n))).map fun d =>
          d.descend (segments.drop n)).join

/-- The simple names that can be used in a context for a type that satisfies `p`, sorted. -/
def visibleNames (m : Model) (context : LookupContext) (p : Definition → Bool) : List String :=
  match (m.projectFor? context).bind m.table?, m.index.file? context.fileId with
  | some table, some scope =>
    let canonical := table.definitions.filter fun d =>
      (d.package == scope.package || scope.imports.any fun i => i.covers d.qname) && p d
    let inner := match m.compoundAround? context with
      | some c => c.inner.filter p
      | none => []
    sortedSet ((canonical ++ inner).map Definition.name)
  | _, _ => []

end Model

/-- Remembered answers of name resolution. -/
structure LookupCache where
  entries : OrderedMap (String × LookupContext × String) (Option Definition) := {}
  /-- How many questions were not answered from memory. -/
  misses : Nat := 0

namespace LookupCache

/-- Forgets all answers; the count goes on. -/
def clear (c : LookupCache) : LookupCache :=
  { c with entries := {} }

/-- Answers from memory, or by the rule, which is then remembered. -/
def lookupIn (c : LookupCache) (m : Model) (name : String) (context : LookupContext)
    (project : String) : Option Definition × LookupCache :=
  match c.entries.get? (project, context, name) with
  | some answer => (answer, c)
  | none =>
    let answer := m.resolve name context project
    (answer, { entries := c.entries.insert (project, context, name) answer, misses := c.misses + 1 })

end LookupCache

end NedWorkspace
