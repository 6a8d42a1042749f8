/-
# Import specifications

SPEC_FULL, section 1 (`import a.*;`, `import a.**;`) and section 4.3 (wildcard imports).

`import a.b.C;` names one type. A specification with stars stands for all qualified names of its shape: `*`
for any run of characters without a point, `**` for any run without a line feed. Stars are read in pairs from
the left. Such a specification is turned into a regular expression (`ImportSpec.expression`), which a library
compiles and searches names for.
-/

import NedWorkspace.Pattern

namespace NedWorkspace

open Pattern

/-- What an import names. -/
structure ImportSpec where
  text : String
deriving DecidableEq, Repr

namespace ImportSpec

/-- Whether the specification has a star anywhere. -/
def isWildcard (i : ImportSpec) : Bool :=
  i.text.toList.contains '*'

/-- Whether an import without stars names the simple name `name`. -/
def names (i : ImportSpec) (name : String) : Bool :=
  !i.isWildcard
    && (i.text == name || ('.' :: name.toList).isSuffixOf i.text.toList)

/-- The part of an expression that some characters of a specification stand for. -/
def expressionOfChars (escape : String → String) : List Char → String
  | [] => ""
  | c :: cs =>
    if c = '*' then
      match cs with
      | d :: ds =>
        if d = '*' then ".*" ++ expressionOfChars escape ds
        else "[^.]*" ++ expressionOfChars escape (d :: ds)
      | [] => "[^.]*"
    else escape (String.singleton c) ++ expressionOfChars escape cs

/-- The regular expression of a specification with stars. -/
def expression (escape : String → String) (i : ImportSpec) : String :=
  "^" ++ expressionOfChars escape i.text.toList ++ "$"

/-- The search for names that a specification with stars is compiled into, if the library accepts its
expression. -/
def search? (lib : Library) (i : ImportSpec) : Option (String → Bool) :=
  if i.isWildcard then lib.compile (i.expression lib.escape) else none

/-- Whether an import covers a qualified name, by a library for its expression. -/
def coversBy (lib : Library) (i : ImportSpec) (qname : String) : Bool :=
  match i.search? lib with
  | some search => search qname
  | none => i.text == qname

/-- Whether an import covers a qualified name. -/
def covers (i : ImportSpec) (qname : String) : Bool :=
  i.coversBy .small qname

end ImportSpec

end NedWorkspace
