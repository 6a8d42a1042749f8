/-!
# Paths

A path is a text, and what it means is its list of components: the root, `.` at the beginning, `..`,
and names. Repeated and trailing slashes and any other `.` mean nothing. Paths are compared by their
components, the root before `.` before `..` before names, and names by their characters; so two texts
can be one path.

A path is printed as the text that it was made from.
-/

namespace NedWorkspace

/-- A path as it is written. -/
structure Path where
  text : String
deriving Repr, Inhabited

namespace Path

/-- A step of a path. -/
inductive Component where
  | root
  | here
  | up
  | name (name : String)
deriving DecidableEq, Repr

namespace Component

/-- The root comes first, then `.`, then `..`, then names in the order of their characters. -/
instance : Ord Component where
  compare
    | root, root => .eq
    | root, _ => .lt
    | here, root => .gt
    | here, here => .eq
    | here, _ => .lt
    | up, name _ => .lt
    | up, up => .eq
    | up, _ => .gt
    | name a, name b => compare a b
    | name _, _ => .gt

/-- A component as it is written. -/
def text : Component → String
  | root => "/"
  | here => "."
  | up => ".."
  | name n => n

/-- Whether the component is a name. -/
def isName : Component → Bool
  | name _ => true
  | _ => false

end Component

/-- Characters cut at each slash. -/
def pieces : List Char → List (List Char)
  | [] => [[]]
  | c :: cs =>
    match pieces cs with
    | [] => [[c]]
    | p :: ps => if c = '/' then [] :: p :: ps else (c :: p) :: ps

/-- The component that a piece stands for, if it means anything. -/
def ofPiece? (piece : List Char) : Option Component :=
  if piece = [] ∨ piece = ['.'] then none
  else if piece = ['.', '.'] then some .up
  else some (.name (String.ofList piece))

/-- The components of the characters of a path. -/
def componentsOf (cs : List Char) : List Component :=
  let all := pieces cs
  let front : List Component :=
    match cs, all with
    | c :: _, first :: _ => if c = '/' then [.root] else if first = ['.'] then [.here] else []
    | _, _ => []
  front ++ all.filterMap ofPiece?

/-- The components of a path. -/
def components (p : Path) : List Component :=
  componentsOf p.text.toList

/-- The order of lists of components: component by component, a shorter list before a longer one. -/
def compareComponents : List Component → List Component → Ordering
  | [], [] => .eq
  | [], _ :: _ => .lt
  | _ :: _, [] => .gt
  | a :: as, b :: bs => (compare a b).then (compareComponents as bs)

instance : Ord Path where
  compare p q := compareComponents p.components q.components

/-- Whether two texts are one path. -/
def same (p q : Path) : Bool :=
  p.components == q.components

/-- Whether a path lies at or below another. -/
def startsWith (p base : Path) : Bool :=
  base.components.isPrefixOf p.components

/-- The number of components. -/
def depth (p : Path) : Nat :=
  p.components.length

/-- Whether the path begins at the root. -/
def isAbsolute (p : Path) : Bool :=
  p.text.toList.head? == some '/'

/-- The path of something below a path; an absolute path stands for itself. -/
def join (base p : Path) : Path :=
  if p.isAbsolute then p
  else
    let bare := base.text.isEmpty || base.text.toList.getLast? == some '/'
    ⟨base.text ++ (if bare then "" else "/") ++ p.text⟩

/-- Components written with slashes between them. -/
def ofComponents : List Component → Path
  | [] => ⟨""⟩
  | c :: cs => cs.foldl (fun p d => p.join ⟨d.text⟩) ⟨c.text⟩

/-- The path without its last component; the root and the empty path have none. -/
def parent? (p : Path) : Option Path :=
  match p.components.reverse with
  | [] => none
  | .root :: _ => none
  | _ :: more => some (ofComponents more.reverse)

/-- The last component, if it is a name. -/
def fileName? (p : Path) : Option String :=
  match p.components.getLast? with
  | some (.name n) => some n
  | _ => none

/-- The part of a name after its last point, unless the name begins with that point. -/
def extensionOf? (name : String) : Option String :=
  let after := name.toList.reverse.takeWhile (· != '.')
  match name.toList.reverse.drop after.length with
  | _ :: _ :: _ => some (String.ofList after.reverse)
  | _ => none

/-- The extension of the last component. -/
def extension? (p : Path) : Option String :=
  p.fileName?.bind extensionOf?

/-- The components of a path below another, if it lies there. -/
def componentsBelow? (p base : Path) : Option (List Component) :=
  if p.startsWith base then some (p.components.drop base.depth) else none

end Path

end NedWorkspace
