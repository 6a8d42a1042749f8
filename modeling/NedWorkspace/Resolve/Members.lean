/-
# Inherited members

SPEC_FULL, section 3 (InheritedMembers) and section 4.3 (`lookup_conforming_type`,
`get_types_implementing`).

The members of a type are gathered along its chain: the type itself, then the types it extends. A
type that is no interface goes on with the first type it extends; an interface goes on with all of
them. Going from the far end of the chain to the type itself, the first declaration of a name counts;
a size given later for a gate vector replaces its size.

A type implements the interfaces that the types of its chain are `like`, with all that those extend;
an interface also counts the types of its own chain.

Members are remembered by definition. A type whose members are being gathered counts, when it is met
again, as a chain of its own that runs in a circle; that answer is not remembered. Both kinds of
circle are found by keeping the keys that have not been met yet, so the search ends when none is left.
-/

import NedWorkspace.Resolve.Lookup

namespace NedWorkspace

/-- A parameter, with the qualified name of the type that declares it. -/
structure InheritedParam where
  decl : Param
  declaredIn : String

/-- A gate, with the qualified name of the type that declares it. -/
structure InheritedGate where
  decl : Gate
  declaredIn : String

/-- The members of a type, gathered along its chain. -/
structure Members where
  /-- The type itself, then the types it extends, nearest first. -/
  chain : List Definition
  /-- Qualified names of the implemented interfaces, each once. -/
  interfaces : List String := []
  params : List InheritedParam := []
  gates : List InheritedGate := []
  /-- The chain leads back to a type on it. -/
  cycle : Bool := false

namespace Members

/-- The parameter with the given name. -/
def param? (m : Members) (name : String) : Option InheritedParam :=
  m.params.find? (·.decl.name == name)

/-- The gate with the given name. -/
def gate? (m : Members) (name : String) : Option InheritedGate :=
  m.gates.find? (·.decl.name == name)

/-- Whether the interface with the given qualified name is implemented. -/
def implements (m : Members) (interface : String) : Bool :=
  m.interfaces.contains interface

/-- The chain without the type itself. -/
def supertypes (m : Members) : List Definition :=
  m.chain.drop 1

/-- The members of a type that is met while they are being gathered. -/
def reentered (d : Definition) : Members :=
  { chain := [d], cycle := true }

/-- Adds a declared parameter unless its name is taken; assignments declare nothing. -/
def addParam (owner : String) (params : List InheritedParam) (p : Param) : List InheritedParam :=
  if p.type.isSome && !params.any (·.decl.name == p.name) then params ++ [⟨p, owner⟩] else params

/-- Sets the size of the gate with the given name. -/
def setGateSize (name : String) (size : Option String) (g : InheritedGate) : InheritedGate :=
  if g.decl.name = name ∧ size.isSome then { g with decl := { g.decl with size } } else g

/-- Adds a declared gate unless its name is taken; a gate without direction gives a size. -/
def addGate (owner : String) (gates : List InheritedGate) (g : Gate) : List InheritedGate :=
  match g.direction with
  | some _ => if gates.any (·.decl.name == g.name) then gates else gates ++ [⟨g, owner⟩]
  | none => gates.map (setGateSize g.name g.size)

/-- The parameters declared along a chain. -/
def paramsOf (chain : List Definition) : List InheritedParam :=
  chain.reverse.foldl (fun params d => d.decl.params.foldl (addParam d.qname) params) []

/-- The gates declared along a chain. -/
def gatesOf (chain : List Definition) : List InheritedGate :=
  chain.reverse.foldl (fun gates d => d.decl.gates.foldl (addGate d.qname) gates) []

end Members

/-- A definition as it was built at one time. -/
structure DefinitionId where
  key : TypeKey
  edition : Nat
deriving DecidableEq, Repr

/-- The definition's key and edition. -/
def Definition.id (d : Definition) : DefinitionId :=
  ⟨d.key, d.edition⟩

/-- What resolution remembers: answers to lookups and gathered members. -/
structure Memory where
  lookups : LookupCache := {}
  members : OrderedMap DefinitionId Members := {}

namespace Memory

mutual

/-- Forgets the members of a definition and of all types below it. -/
def forgetBelow (memory : Memory) : Definition → Memory
  | ⟨own, inner⟩ =>
    forgetEach { memory with members := memory.members.erase ⟨own.key, own.edition⟩ } inner

/-- Forgets the members of definitions and of all types below them. -/
def forgetEach (memory : Memory) : List Definition → Memory
  | [] => memory
  | d :: ds => forgetEach (memory.forgetBelow d) ds

end

/-- Forgets the members of all definitions of an index, file by file. -/
def forgetMembers (memory : Memory) (index : DefinitionIndex) : Memory :=
  index.files.values.foldl (fun memory scope => memory.forgetEach scope.types) memory

end Memory

/-- A question to a model, asked with a memory of earlier answers. -/
abbrev Query := StateM Memory

namespace Model

/-- Keys other than the given one. -/
def without (keys : List TypeKey) (key : TypeKey) : List TypeKey :=
  keys.filter fun k => decide (k ≠ key)

/-- One key less is left, so the search over base types ends. -/
theorem length_without_lt {keys : List TypeKey} {key : TypeKey} (h : key ∈ keys) :
    (without keys key).length < keys.length := by
  refine Nat.lt_of_le_of_ne (List.length_filter_le _ _) fun heq => ?_
  have hall := List.length_filter_eq_length_iff.1 heq key h
  simp at hall

/-- The type that a name denotes in a context, by the table of a project. -/
def lookupIn (m : Model) (name : String) (context : LookupContext) (project : String) :
    Query (Option Definition) := fun memory =>
  let r := memory.lookups.lookupIn m name context project
  (r.1, { memory with lookups := r.2 })

/-- The type that a name denotes in a context, by the table of the project that owns it. -/
def lookup (m : Model) (name : String) (context : LookupContext) : Query (Option Definition) :=
  match m.projectFor? context with
  | some project => m.lookupIn name context project
  | none => pure none

/-- The type that comes after `extends` first. -/
def firstBase (m : Model) (d : Definition) : Query (Option Definition) :=
  match d.baseNames with
  | name :: _ => m.lookup name d.context
  | [] => pure none

/-- The keys of all definitions that a lookup can answer. -/
def knownKeys (m : Model) (memory : Memory) : List TypeKey :=
  let remembered := memory.lookups.entries.values.flatMap Option.toList
  let canonical := m.tables.values.flatMap ProjectTable.definitions
  (m.index.allTypes ++ Definition.withInner m.index.types.values ++ canonical ++ remembered).map
    fun d : Definition => d.key

/-- What follows `current` on a chain of first bases, among keys not met yet, and whether it stopped
at a key met before. -/
def singleChain (m : Model) (unmet : List TypeKey) (current : Definition) :
    Query (List Definition × Bool) := do
  match ← m.firstBase current with
  | none => return ([], false)
  | some base =>
    if _h : base.key ∈ unmet then
      let more ← singleChain m (without unmet base.key) base
      return (base :: more.1, more.2)
    else
      return ([], true)
termination_by unmet.length
decreasing_by exact length_without_lt _h

/-- The chain of an interface, all of whose bases count. `names` are the bases of `current` that are
still to be looked up, `pending` the types found whose bases are, the last one found first. The flag
says whether the search came back to `self`. -/
def branchingChain (m : Model) (self : TypeKey) (unmet : List TypeKey) (pending : List Definition)
    (current : Definition) (names : List String) (chain : List Definition) (cycle : Bool) :
    Query (List Definition × Bool) :=
  match names with
  | [] =>
    match pending with
    | [] => return (chain, cycle)
    | p :: ps => branchingChain m self unmet ps p p.baseNames chain cycle
  | name :: names => do
    match ← m.lookup name current.context with
    | none => branchingChain m self unmet pending current names chain cycle
    | some base =>
      let cycle := cycle || base.key = self
      if _h : base.key ∈ unmet then
        branchingChain m self (without unmet base.key) (base :: pending) current names
          (chain ++ [base]) cycle
      else
        branchingChain m self unmet pending current names chain cycle
termination_by (unmet.length + pending.length, names.length)
decreasing_by
  · exact Prod.Lex.left _ _ (by simp)
  · exact Prod.Lex.right _ (by simp)
  · have hlt := length_without_lt _h
    rcases Nat.lt_or_eq_of_le (show (without unmet base.key).length + (pending.length + 1)
        ≤ unmet.length + pending.length by omega) with hsum | hsum
    · exact Prod.Lex.left _ _ hsum
    · simp only [List.length_cons, hsum]
      exact Prod.Lex.right _ (Nat.lt_succ_self _)
  · exact Prod.Lex.right _ (by simp)

/-- The chain of a type, and whether it runs in a circle. -/
def chainOf (m : Model) (known : List TypeKey) (d : Definition) :
    Query (List Definition × Bool) := do
  let unmet := without known d.key
  if d.kind.isInterface then
    branchingChain m d.key unmet [] d d.baseNames [d] false
  else
    let r ← singleChain m unmet d
    return (d :: r.1, r.2)

mutual

/-- The members of a type, when those of all types whose keys are not `idle` are being gathered. -/
def membersAmong (m : Model) (known idle : List TypeKey) (d : Definition) : Query Members := do
  match (← get).members.get? d.id with
  | some members => return members
  | none =>
    if _h : d.key ∈ idle then
      let (chain, cycle) ← m.chainOf known d
      let own := if d.kind.isInterface then
        ProjectTable.addNames [] ((chain.drop 1).map fun s => s.qname) else []
      let likes := chain.flatMap fun t => t.likeNames.map fun name => (t, name)
      let interfaces ← implementedBy m known (without idle d.key) likes own
      let members : Members :=
        { chain, interfaces, params := Members.paramsOf chain, gates := Members.gatesOf chain, cycle }
      modify fun memory => { memory with members := memory.members.insert d.id members }
      return members
    else
      return Members.reentered d
termination_by (idle.length, 0)
decreasing_by exact Prod.Lex.left _ _ (length_without_lt _h)

/-- Interfaces found so far with those that `like` names stand for, in order. -/
def implementedBy (m : Model) (known idle : List TypeKey) (likes : List (Definition × String))
    (found : List String) : Query (List String) :=
  match likes with
  | [] => pure found
  | (t, name) :: likes => do
    match ← m.lookup name t.context with
    | none => implementedBy m known idle likes found
    | some interface =>
      let members ← membersAmong m known idle interface
      implementedBy m known idle likes
        (ProjectTable.addNames found (members.chain.map fun s => s.qname))
termination_by (idle.length, likes.length)
decreasing_by all_goals exact Prod.Lex.right _ (by simp)

end

/-- The members of a type. -/
def members (m : Model) (d : Definition) : Query Members := do
  let known := d.key :: m.knownKeys (← get)
  membersAmong m known known d

/-- The only one of the given types that implements an interface, besides one found already. -/
def onlyImplementing (m : Model) (interface : String) :
    List Definition → Option Definition → Query (Option Definition)
  | [], found => pure found
  | d :: ds, found => do
    if (← m.members d).implements interface then
      if found.isSome then pure none else onlyImplementing m interface ds (some d)
    else onlyImplementing m interface ds found

/-- The one canonical type with the given name that implements an interface; a qualified name is
taken at its word. -/
def conforming (m : Model) (name interface project : String) : Query (Option Definition) :=
  match m.table? project with
  | none => pure none
  | some table =>
    if Name.isQualified name then pure (table.component? name)
    else
      m.onlyImplementing interface ((table.withSimpleName name).filterMap table.component?) none

/-- The canonical types that implement an interface, interfaces that extend it included. -/
def implementing (m : Model) (interface project : String) : Query (List Definition) :=
  match m.table? project with
  | none => pure []
  | some table => table.definitions.filterM fun d => do
      return (← m.members d).implements interface

end Model

end NedWorkspace
