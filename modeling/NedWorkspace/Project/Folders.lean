/-
# The source folders of a project

SPEC_FULL, section 4.2: configuration source, `.nedfolders`.

A project is a root folder, the source folders below it and the projects that it refers to. A file
`.nedfolders` lists the source folders, one on each line, relative to the root. What follows `#` is a
comment, `.` is the root itself, and a list without a folder means the root. Every folder must lie
below the root; the first line that does not say so is an error.
-/

import NedWorkspace.Path
import NedWorkspace.Text.Blank

namespace NedWorkspace

/-- The name of the file that lists the source folders. -/
def nedfoldersName : String := ".nedfolders"

/-- What is known of a project from outside. -/
structure ProjectConfig where
  name : String
  root : Path
  /-- Source folders relative to the root; the empty path is the root. -/
  sourceFolders : List Path
  /-- The projects referred to directly. -/
  references : List String

namespace ProjectConfig

/-- A source folder as a path from where the root is seen. -/
def absoluteFolder (root folder : Path) : Path :=
  if folder.text.isEmpty then root else root.join folder

/-- The source folders as paths from where the root is seen, in order. -/
def absoluteFolders (c : ProjectConfig) : List Path :=
  c.sourceFolders.map (absoluteFolder c.root)

end ProjectConfig

namespace Folders

/-- A line of the list that names no folder inside the project. -/
structure BadLine where
  number : Nat
  text : String
deriving DecidableEq, Repr

namespace BadLine

/-- The error in words. -/
def message (b : BadLine) : String :=
  nedfoldersName ++ ":" ++ toString b.number ++ ": '" ++ b.text
    ++ "' is not a folder inside the project"

end BadLine

/-- Characters cut at each line feed. -/
def lineChars : List Char → List (List Char)
  | [] => [[]]
  | c :: cs =>
    match lineChars cs with
    | [] => [[c]]
    | l :: ls => if c = '\n' then [] :: l :: ls else (c :: l) :: ls

/-- What a line says, without its comment and the blanks around it. -/
def content (line : List Char) : List Char :=
  Text.trimChars (line.takeWhile (· != '#'))

/-- The folder that a line names. -/
def folderOf (content : List Char) : Path :=
  if content = ['.'] then ⟨""⟩
  else ⟨String.ofList (content.reverse.dropWhile (· == '/')).reverse⟩

/-- Whether a folder lies below where it is seen from: it neither begins at the root nor goes up. -/
def isBelow (folder : Path) : Bool :=
  folder.components.all fun c => c != .root && c != .up

/-- The folders of numbered lines, after those found so far. -/
def ofLines (found : List Path) : List (List Char × Nat) → Except BadLine (List Path)
  | [] => .ok found
  | (line, n) :: more =>
    let line := content line
    if line.isEmpty then ofLines found more
    else
      let folder := folderOf line
      if isBelow folder then
        ofLines (if found.any (·.same folder) then found else found ++ [folder]) more
      else .error ⟨n, String.ofList line⟩

/-- The source folders that a text lists. -/
def ofText (text : String) : Except BadLine (List Path) :=
  match ofLines [] ((lineChars text.toList).zipIdx 1) with
  | .ok [] => .ok [⟨""⟩]
  | r => r

end Folders

end NedWorkspace
