/-
# The projects of a workspace

SPEC_FULL, section 4.2, ProjectRegistry: `is_ned_file`, `source_folder_for`, `expected_package_for`,
`files`.

The registry knows the configured projects and, derived from them, their source folders as seen from
outside and the projects that each can see. Where several roots or source folders contain a path, the
innermost counts, and the last of those that are equally deep.

`rehash` computes the symbol tables of all projects from scratch: the built-in types, then the types of
all files whose owner the project sees, in the order of the files.
-/

import NedWorkspace.Definition.Index
import NedWorkspace.Definition.Table
import NedWorkspace.Map.Sorted
import NedWorkspace.Project.Folders

namespace NedWorkspace

/-- The file that declares the package of its folder. -/
def packageFileName : String := "package.ned"

/-- A project with what follows from its configuration. -/
structure Project where
  config : ProjectConfig
  folders : List Path
  /-- All projects that it refers to, directly or through others, itself excluded. -/
  referenced : List String

namespace Project

/-- The references of the first project with the given name. -/
def referencesOf (configs : List ProjectConfig) (name : String) : List String :=
  match configs.find? (·.name == name) with
  | some c => c.references
  | none => []

/-- Names other than the given one. -/
def others (names : List String) (name : String) : List String :=
  names.filter fun n => decide (n ≠ name)

/-- One name less is left, so the search over references ends. -/
theorem length_others_lt {names : List String} {name : String} (h : name ∈ names) :
    (others names name).length < names.length := by
  refine Nat.lt_of_le_of_ne (List.length_filter_le _ _) fun heq => ?_
  have hall := List.length_filter_eq_length_iff.1 heq name h
  simp at hall

/-- The names reached so far, and those reached from them. `unmet` are the names not reached yet,
`pending` the names whose references are still to be followed, the last one reached first, and
`references` those of the name at hand. -/
def reach (configs : List ProjectConfig) (unmet pending references reached : List String) :
    List String :=
  match references with
  | [] =>
    match pending with
    | [] => reached
    | p :: ps => reach configs unmet ps (referencesOf configs p) reached
  | r :: rs =>
    if _h : r ∈ unmet then reach configs (others unmet r) (r :: pending) rs (reached ++ [r])
    else reach configs unmet pending rs reached
termination_by (unmet.length + pending.length, references.length)
decreasing_by
  · exact Prod.Lex.left _ _ (by simp)
  · have hlt := length_others_lt _h
    rcases Nat.lt_or_eq_of_le (show (others unmet r).length + (pending.length + 1)
        ≤ unmet.length + pending.length by omega) with hsum | hsum
    · exact Prod.Lex.left _ _ hsum
    · simp only [List.length_cons, hsum]
      exact Prod.Lex.right _ (Nat.lt_succ_self _)
  · exact Prod.Lex.right _ (by simp)

/-- The configured projects that can be reached from a name by references, the name itself left out,
in the order in which they are found. -/
def reachable (configs : List ProjectConfig) (name : String) : List String :=
  reach configs (others (configs.map ProjectConfig.name) name) [] (referencesOf configs name) []

/-- A project among all configured ones. -/
def ofConfig (configs : List ProjectConfig) (config : ProjectConfig) : Project :=
  { config, folders := config.absoluteFolders, referenced := reachable configs config.name }

end Project

/-- The last of the elements whose measure no other exceeds. -/
def lastMax {α : Type} (measure : α → Nat) : List α → Option α
  | [] => none
  | a :: as =>
    match lastMax measure as with
    | some b => if measure a ≤ measure b then some b else some a
    | none => some a

/-- The configured projects and their symbol tables. -/
structure Registry where
  projects : OrderedMap String Project := {}
  tables : OrderedMap String ProjectTable := {}

namespace Registry

/-- The registry of a configuration, without tables. Of several projects with one name the last counts,
in the place of the first. -/
def ofConfigs (configs : List ProjectConfig) : Registry :=
  { projects := configs.foldl (fun m c => m.insert c.name (.ofConfig configs c)) {} }

/-- A project by name. -/
def project? (r : Registry) (name : String) : Option Project :=
  r.projects.get? name

/-- The names of the projects. -/
def names (r : Registry) : List String :=
  r.projects.keys

/-- The symbol table of a project. -/
def table? (r : Registry) (name : String) : Option ProjectTable :=
  r.tables.get? name

/-- The project whose root contains a path. -/
def owner? (r : Registry) (path : Path) : Option String :=
  (lastMax (fun p : Project => p.config.root.depth)
    (r.projects.values.filter fun p => path.startsWith p.config.root)).map (·.config.name)

/-- The source folders of a project. -/
def foldersOf (r : Registry) (name : String) : List Path :=
  match r.project? name with
  | some p => p.folders
  | none => []

/-- The source folder that contains a file at a path. -/
def folderFor? (r : Registry) (path : Path) : Option Path :=
  match (r.owner? path).bind r.project?, path.parent? with
  | some project, some parent => lastMax Path.depth (project.folders.filter parent.startsWith)
  | _, _ => none

/-- Whether a path has the extension `ned`, in any case, and lies in a source folder. -/
def isNedFile (r : Registry) (path : Path) : Bool :=
  (path.extension?.any fun e => e.toList.map Char.toLower == ['n', 'e', 'd'])
    && (r.folderFor? path).isSome

/-- Whether the types of the files of `owner` can be seen in a project. -/
def sees (r : Registry) (project owner : String) : Bool :=
  project == owner || (r.project? project).any fun p => p.referenced.contains owner

/-- Two parts of a package name with a point between them, unless one is empty. -/
def joinPackage (front back : String) : String :=
  if front.isEmpty then back else if back.isEmpty then front else Name.below front back

/-- The package that a file should declare: that of the file `package.ned` in its source folder, then
the folders from there to the file. Nothing is expected outside source folders, nor of that file
itself. `packageAt` tells the package that a file declares. -/
def expectedPackage? (r : Registry) (path : Path) (packageAt : Path → Option String) :
    Option String :=
  match r.folderFor? path, path.parent? with
  | some folder, some parent =>
    if parent.same folder ∧ path.fileName? = some packageFileName then none
    else
      (parent.componentsBelow? folder).map fun below =>
        joinPackage ((packageAt (folder.join ⟨packageFileName⟩)).getD "")
          (Name.join (below.map Path.Component.text))
  | _, _ => none

/-- The names that are taken in a package of a project, relative to the package, sorted. -/
def reservedNames (r : Registry) (project package : String) : List String :=
  match r.table? project with
  | none => []
  | some t =>
    sortedSet (if package.isEmpty then t.reserved else t.reserved.filterMap (Name.relativeTo? package))

/-- The definitions that a project's table is made of: the built-in ones, then those of the files that
the project sees, in order. -/
def contributions (r : Registry) (index : DefinitionIndex) (files : List (FileId × String))
    (project : String) : List Definition :=
  index.builtins
    ++ (files.filter fun f => r.sees project f.2).flatMap fun f => index.fileTypes f.1

/-- Computes all tables from the files that take part, each with its owner. -/
def rehash (r : Registry) (index : DefinitionIndex) (files : List (FileId × String)) : Registry :=
  { r with tables :=
      ⟨r.projects.entries.map fun e => (e.1, .ofList (r.contributions index files e.1))⟩ }

end Registry

end NedWorkspace
