/-
# Requests

SPEC_FULL, section 6: the external interface.

All that can be asked of a workspace, and the answers. A request is carried out in any monad that
operations run in. Questions about types are answered by up-to-date tables.
-/

import NedWorkspace.Workspace.Sync

namespace NedWorkspace

/-- A place where a name is looked up, as it is named from outside. -/
inductive Place where
  /-- The scope of the file with the given id. -/
  | file (id : FileId)
  /-- Inside the type that has the qualified name in a project. -/
  | type (qname project : String)
  /-- The scope of the file at a path. -/
  | path (path : Path)
  /-- Nowhere at all. -/
  | nowhere

/-- The canonical names of a project by kind, each list sorted. -/
structure NamesByKind where
  modules : List String
  networks : List String
  channels : List String
  moduleInterfaces : List String
  channelInterfaces : List String

/-- What a request can lack. -/
inductive Lack where
  /-- A known thing to do. -/
  | command
  | context
  | type
  | listener
deriving DecidableEq, Repr

/-- The answer to a request. -/
inductive Answer where
  | nothing
  | flag (value : Bool)
  | number (value : Nat)
  | text (value : String)
  | names (value : List String)
  | file (value : FileId)
  | path (value : Path)
  | paths (value : List Path)
  | editors (count : Nat)
  | tree (value : Tree)
  | property (value : Property)
  | project (value : Project)
  | definition (value : Definition)
  | definitions (value : List Definition)
  | description (value : Definition)
  | duplicates (value : List (String × List Definition))
  | namesByKind (value : NamesByKind)
  | members (value : Members)
  | diagnostics (value : List Diagnostic)
  | failed (error : WorkspaceError)
  | lacking (lack : Lack)
  | several (answers : List Answer)

namespace Answer

/-- The answer in the option, or nothing. -/
def ofOption {α : Type} (make : α → Answer) : Option α → Answer
  | some a => make a
  | none => nothing

/-- The answer of an operation that can fail. -/
def ofExcept {α : Type} (make : α → Answer) : Except WorkspaceError α → Answer
  | .ok a => make a
  | .error e => failed e

end Answer

/-- What can be asked of a workspace. -/
inductive Request where
  | connect (path : Path)
  | disconnect (path : Path)
  | setText (path : Path) (text : String)
  | load (path : Path)
  | forget (path : Path)
  | loadMissing
  | applyChanges (changes : List DiskChange)
  | reconfigure
  | invalidate
  | rehash
  | validate
  /-- Makes listeners hear what they have not been told yet. -/
  | wake
  /-- Stops what runs by itself; nothing does. -/
  | dispose
  | editors (path : Path)
  | fileId (path : Path)
  | filePath (file : FileId)
  | tree (path : Path)
  | text (path : Path)
  | broken (path : Path)
  | elementAt (path : Path) (position : Position)
  | property (path : Path) (name : String)
  | folderProperty (folder : Path) (name : String)
  | simpleProperty (path : Path) (name : String)
  | files
  | projectFiles (project : String)
  | projects
  | project (name : String)
  | owner (path : Path)
  | isNedFile (path : Path)
  | folderFor (path : Path)
  | folders (project : String)
  | expectedPackage (path : Path)
  | types (project : String)
  | allTypes
  | allTypeNames
  | typeNames (project : String)
  | reservedQNames (project : String)
  | reservedNames (project package : String)
  | duplicates (project : String)
  | namesByKind (project : String)
  | type (qname project : String)
  | innerOrToplevel (qname project : String)
  | describe (qname project : String)
  | lookup (name : String) (place : Place)
  | visible (place : Place) (kinds : TypeKind → Bool)
  | conforming (name interface project : String)
  | implementing (interface project : String)
  | firstBase (qname project : String)
  | members (qname project : String)
  | diagnostics (path : Path)
  | allDiagnostics
  | syntaxDiagnostics (path : Path)
  | summary

namespace Engine

variable {m : Type → Type} [Engine m]

/-- Something read off the up-to-date table of a project, or `absent` if there is no such project. -/
def viewTable {α : Type} (project : String) (absent : α) (f : ProjectTable → α) : m α :=
  viewFresh fun st =>
    match st.registry.table? project with
    | some table => f table
    | none => absent

/-- Something read off the file at a path. -/
def viewFile {α : Type} (path : Path) (f : SourceFile → α) : m (Option α) :=
  view fun st => (st.store.at? path).map f

/-- The type with the given qualified name, inner types included. -/
def typeNamed (qname project : String) : m (Option Definition) :=
  viewFresh fun st => st.model.innerOrToplevel? qname project

/-- The context that a place stands for. -/
def contextOf : Place → m (Option LookupContext)
  | .file id => return some (.file id)
  | .type qname project => do return (← typeNamed qname project).map Definition.context
  | .path path => viewFile path fun f => .file f.id
  | .nowhere => return none

/-- The top-level types of all loaded files, in the order of their paths. -/
def allTypes : m (List Definition) :=
  view fun st => st.store.all.flatMap fun f => st.index.fileTypes f.id

/-- The canonical names of a project by kind. -/
def namesByKind (project : String) : m NamesByKind :=
  viewTable project ⟨[], [], [], [], []⟩ fun t =>
    let of (p : TypeKind → Bool) : List String := sortedSet (t.qnamesOfKind p)
    { modules := of fun k => k = .simpleModule || k = .compoundModule
      networks := of fun k => k = .network
      channels := of fun k => k = .channel
      moduleInterfaces := of fun k => k = .moduleInterface
      channelInterfaces := of fun k => k = .channelInterface }

/-- A workspace in one line. -/
def summary (st : State) : String :=
  "NedResources \x7b files: " ++ toString st.store.size ++ ", projects: "
    ++ toString st.registry.projects.size ++ " \x7d"

/-- A question about a type by name. -/
def onType (qname project : String) (f : Definition → m Answer) : m Answer := do
  match ← typeNamed qname project with
  | some d => f d
  | none => return .lacking .type

/-- A question about a place. -/
def inPlace (place : Place) (f : LookupContext → m Answer) : m Answer := do
  match ← contextOf place with
  | some context => f context
  | none => return .lacking .context

/-- Carries out a request. -/
def carryOut : Request → m Answer
  | .connect path => return .ofExcept .file (← connect path)
  | .disconnect path => return .ofExcept (fun _ => .nothing) (← disconnect path)
  | .setText path text => return .ofExcept .file (← setText path text)
  | .load path => return .ofExcept .file (← load path)
  | .forget path => return .flag (← forget path)
  | .loadMissing => return .ofExcept .number (← loadMissing)
  | .applyChanges changes => return .ofExcept (fun _ => .nothing) (← applyChanges changes)
  | .reconfigure => return .ofExcept (fun _ => .nothing) (← reconfigure)
  | .invalidate => do
    change State.invalidate
    return .nothing
  | .rehash => do
    rehash
    return .nothing
  | .validate => do
    validate
    return .nothing
  | .wake => do
    change id
    return .nothing
  | .dispose => return .nothing
  | .editors path => return .editors ((← viewFile path SourceFile.editors).getD 0)
  | .fileId path => return .ofOption .file (← viewFile path SourceFile.id)
  | .filePath file => return .ofOption .path (← view fun st => (st.store.get? file).map (·.path))
  | .tree path => return .ofOption .tree (← viewFile path SourceFile.tree)
  | .text path => return .ofOption .text (← viewFile path SourceFile.text)
  | .broken path => return .flag ((← viewFile path SourceFile.broken).getD false)
  | .elementAt path position =>
    return .ofOption .number ((← viewFile path fun f => f.tree.elementAt? position).join)
  | .property path name => return .ofOption .property (← view (·.property? path name))
  | .folderProperty folder name =>
    return .ofOption .property (← view (·.folderProperty? folder name))
  | .simpleProperty path name =>
    return .ofOption .text ((← view (·.property? path name)).bind Property.simpleValue?)
  | .files => return .paths (← view (·.store.paths))
  | .projectFiles project =>
    return .paths (← view fun st =>
      (st.store.all.filter fun f => st.index.projectOf? f.id == some project).map (·.path))
  | .projects => return .names (← view (·.registry.names))
  | .project name => return .ofOption .project (← view (·.registry.project? name))
  | .owner path => return .ofOption .text (← view (·.registry.owner? path))
  | .isNedFile path => return .flag (← view (·.registry.isNedFile path))
  | .folderFor path => return .ofOption .path (← view (·.registry.folderFor? path))
  | .folders project => return .paths (← view (·.registry.foldersOf project))
  | .expectedPackage path => return .ofOption .text (← view (·.expectedPackage? path))
  | .types project => return .definitions (← viewTable project [] ProjectTable.definitions)
  | .allTypes => return .definitions (← allTypes)
  | .allTypeNames => return .names (sortedSet ((← allTypes).map fun d => d.qname))
  | .typeNames project =>
    return .names (← viewTable project [] fun t => sortedSet t.components.keys)
  | .reservedQNames project =>
    return .names (← viewTable project [] fun t => sortedSet t.reserved)
  | .reservedNames project package =>
    return .names (← viewFresh (·.registry.reservedNames project package))
  | .duplicates project => return .duplicates (← viewTable project [] (·.duplicates.entries))
  | .namesByKind project => return .namesByKind (← namesByKind project)
  | .type qname project =>
    return .ofOption .definition (← viewTable project none (·.component? qname))
  | .innerOrToplevel qname project => return .ofOption .definition (← typeNamed qname project)
  | .describe qname project => return .ofOption .description (← typeNamed qname project)
  | .lookup name place => inPlace place fun context => do
      return .ofOption .definition (← ask (·.lookup name context))
  | .visible place kinds => inPlace place fun context => do
      return .names (← viewFresh fun st => st.model.visibleNames context fun d => kinds d.kind)
  | .conforming name interface project =>
    return .ofOption .definition (← ask (·.conforming name interface project))
  | .implementing interface project =>
    return .definitions (← ask (·.implementing interface project))
  | .firstBase qname project => onType qname project fun d => do
      return .ofOption .definition (← ask (·.firstBase d))
  | .members qname project => onType qname project fun d => do
      return .members (← ask (·.members d))
  | .diagnostics path =>
    return .diagnostics (← view fun st =>
      match st.store.at? path with
      | some f => st.diagnostics.get f.id
      | none => [])
  | .allDiagnostics => return .diagnostics (← view (·.diagnostics.all))
  | .syntaxDiagnostics path =>
    return .diagnostics ((← viewFile path fun f =>
      f.errors.map (Diagnostic.ofSyntaxError f.id)).getD [])
  | .summary => return .text (← view summary)

end Engine

end NedWorkspace
