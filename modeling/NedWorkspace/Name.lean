/-
# Qualified names

A qualified name is a text whose points separate segments: `inet.base.Queue`. The package `""` is the
default package, whose types go by their simple names.
-/

namespace NedWorkspace
namespace Name

/-- The characters cut at each point; there is always at least one segment. -/
def segmentChars : List Char → List (List Char)
  | [] => [[]]
  | c :: cs =>
    match segmentChars cs with
    | [] => [[c]]
    | s :: ss => if c = '.' then [] :: s :: ss else (c :: s) :: ss

/-- The segments of a name. -/
def segments (name : String) : List String :=
  (segmentChars name.toList).map String.ofList

/-- Segments with points between them. -/
def join : List String → String
  | [] => ""
  | s :: ss => ss.foldl (fun text t => text ++ "." ++ t) s

/-- Whether the name has more than one segment. -/
def isQualified (name : String) : Bool :=
  name.toList.contains '.'

/-- A name in a package. -/
def qualify (package name : String) : String :=
  if package = "" then name else package ++ "." ++ name

/-- The name of something inside a type. -/
def below (outer name : String) : String :=
  outer ++ "." ++ name

/-- The text without `front` at its beginning, if it begins so. -/
def dropFront? : List Char → List Char → Option (List Char)
  | [], text => some text
  | c :: front, d :: text => if c = d then dropFront? front text else none
  | _ :: _, [] => none

/-- What follows `outer` and a point in a name, if the name begins so. -/
def relativeTo? (outer name : String) : Option String :=
  (dropFront? (outer.toList ++ ['.']) name.toList).map String.ofList

end Name
end NedWorkspace
