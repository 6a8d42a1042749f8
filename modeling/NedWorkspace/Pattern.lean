/-
# Regular expressions

Wildcard imports are turned into regular expressions, and a library is asked to compile them. `Library` is
what such a library offers: to write a text as an expression for itself, and to compile an expression into a
search, or to refuse it.

`Library.small` is a library for the expressions that imports need: anchors, single characters, `.`, classes
with one character left out, and stars behind these. It reads an expression into pieces (`read?`) and fills
one row of a table for each piece, from the last piece to the first; an entry of a row says whether the
pieces from there on are found at one suffix of the text (`rows`).
-/

namespace NedWorkspace

namespace Pattern

/-- An expression for one character. -/
inductive Atom where
  /-- Any character but a line feed. -/
  | any
  | literal (c : Char)
  /-- Any character but this one. -/
  | except (c : Char)
deriving DecidableEq, Repr

/-- Whether an expression for one character stands for a character. -/
def Atom.takes : Atom → Char → Bool
  | any, d => d != '\n'
  | literal c, d => d == c
  | except c, d => d != c

/-- A piece of an expression. -/
inductive Piece where
  /-- The beginning of the text. -/
  | start
  /-- The end of the text. -/
  | stop
  | one (a : Atom)
  /-- Any number of characters. -/
  | many (a : Atom)
deriving DecidableEq, Repr

/-- What a library for regular expressions offers. -/
structure Library where
  /-- The expression for a text. -/
  escape : String → String
  /-- Whether an expression is found in a text, if it is one. -/
  compile : String → Option (String → Bool)

/-! ### Reading an expression -/

/-- Whether a character has a meaning of its own in expressions. -/
def isMeta (c : Char) : Bool :=
  "\\.+*?()|[]\x7b\x7d^$#&-~".toList.contains c

/-- The expression for a character. -/
def escapeChar (c : Char) : List Char :=
  if isMeta c then ['\\', c] else [c]

/-- Whether a character stands for itself when it is left out of a class. -/
def isPlainInClass (c : Char) : Bool :=
  c == '.' || !isMeta c

/-- A piece of an expression, or the star behind one. -/
inductive Symbol where
  | piece (p : Piece)
  | star
deriving DecidableEq, Repr

/-- The symbols of an expression. -/
def symbols? : List Char → Option (List Symbol)
  | [] => some []
  | '\\' :: c :: cs => if isMeta c then (symbols? cs).map (.piece (.one (.literal c)) :: ·) else none
  | '[' :: '^' :: c :: ']' :: cs =>
    if isPlainInClass c then (symbols? cs).map (.piece (.one (.except c)) :: ·) else none
  | c :: cs =>
    if c = '^' then (symbols? cs).map (.piece .start :: ·)
    else if c = '$' then (symbols? cs).map (.piece .stop :: ·)
    else if c = '.' then (symbols? cs).map (.piece (.one .any) :: ·)
    else if c = '*' then (symbols? cs).map (.star :: ·)
    else if isMeta c then none
    else (symbols? cs).map (.piece (.one (.literal c)) :: ·)

/-- The pieces of an expression. A star belongs to the character before it. -/
def pieces? : List Symbol → Option (List Piece)
  | [] => some []
  | .piece (.one a) :: .star :: more => (pieces? more).map (.many a :: ·)
  | .piece p :: more => (pieces? more).map (p :: ·)
  | .star :: _ => none

/-- Reads an expression. -/
def read? (expression : String) : Option (List Piece) :=
  (symbols? expression.toList).bind pieces?

/-! ### Finding it -/

/-- Row of the beginning: only at the whole text. -/
def startRow : List Bool → List Bool
  | [] => []
  | b :: later => b :: later.map fun _ => false

/-- Row of the end: only at the empty suffix. -/
def stopRow : List Bool → List Bool
  | [] => []
  | [b] => [b]
  | _ :: later => false :: stopRow later

/-- Row of one character: it is found where the later pieces are found behind it. -/
def oneRow (takes : Char → Bool) : List Char → List Bool → List Bool
  | d :: ds, _ :: later => (takes d && later.headD false) :: oneRow takes ds later
  | _, _ => [false]

/-- Row of any number of characters: none, or one more. -/
def manyRow (takes : Char → Bool) : List Char → List Bool → List Bool
  | d :: ds, b :: later =>
    let row := manyRow takes ds later
    (b || takes d && row.headD false) :: row
  | _, later => later

/-- Whether pieces are found at each suffix of a text, from the whole text to the empty one. -/
def rows : List Piece → List Char → List Bool
  | [], text => text.map (fun _ => true) ++ [true]
  | .start :: ps, text => startRow (rows ps text)
  | .stop :: ps, text => stopRow (rows ps text)
  | .one a :: ps, text => oneRow a.takes text (rows ps text)
  | .many a :: ps, text => manyRow a.takes text (rows ps text)

/-- A library that knows as much as imports need. -/
def Library.small : Library where
  escape text := String.ofList (text.toList.flatMap escapeChar)
  compile expression := (read? expression).map fun ps text => (rows ps text.toList).any id

end Pattern

end NedWorkspace
