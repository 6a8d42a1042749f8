/-
# From text to tokens

SPEC_FULL, section 10: lexing.

A lexer is generated from a list of patterns: at each place of a text it takes the longest fit, and of
patterns that fit equally far one for a fixed spelling, so that a reserved word wins over an identifier. Where
no pattern fits, a single character is an error; an opening quote without its closing partner takes with it
the longest following run of complete string items. What is generated is a `Scanner`.

* `Scan.best` is a scanner that does just this.
* `Scan.first` is the one that texts are read with. It differs from `best` right before a dollar sign: a
  reserved word there is an identifier, as if the half of a gate had begun.
* `Scan.lexemes` cuts a text into lexemes and loses nothing (`Scan.flatMap_lexemes`).
* `tokenizeBy` gives each lexeme its place and drops blanks and comments.
-/

import NedWorkspace.Text.Position
import NedWorkspace.Token.Basic

namespace NedWorkspace
namespace Scan

/-- A pattern says how many leading characters it covers, if it fits at all. -/
abbrev Pattern := List Char → Option Nat

/-- A fixed spelling. -/
def exactly (word : List Char) : Pattern := fun cs =>
  if word.isPrefixOf cs then some word.length else none

/-- One or more characters of a class. -/
def run (p : Char → Bool) : Pattern := fun cs =>
  match (cs.takeWhile p).length with
  | 0 => none
  | n + 1 => some (n + 1)

/-- The blanks that separate tokens: space, tab, carriage return, line feed and form feed. -/
def isSeparator (c : Char) : Bool :=
  c == ' ' || c == '\t' || c == '\r' || c == '\n' || c == '\x0c'

/-- Two slashes and the rest of the line. -/
def comment : Pattern := fun cs =>
  if ['/', '/'].isPrefixOf cs then some (cs.takeWhile (· != '\n')).length else none

/-- The characters that may begin an identifier. -/
def isNameStart (c : Char) : Bool :=
  c.isAlpha || c == '_'

/-- The characters that may go on with an identifier. -/
def isNamePart (c : Char) : Bool :=
  c.isAlphanum || c == '_'

/-- The length of a gate-half suffix `$i` or `$o`, or 0. -/
def halfSuffix : List Char → Nat
  | '$' :: c :: _ => if c == 'i' || c == 'o' then 2 else 0
  | _ => 0

/-- A name, with a gate-half suffix if there is one. -/
def ident : Pattern
  | [] => none
  | c :: cs =>
    if isNameStart c then
      let n := (cs.takeWhile isNamePart).length
      some (1 + n + halfSuffix (cs.drop n))
    else none

/-- The length of an exponent such as `e-3`, or 0. -/
def exponent : List Char → Nat
  | [] => 0
  | e :: cs =>
    if e == 'e' || e == 'E' then
      let sign := match cs with
        | s :: _ => if s == '+' || s == '-' then 1 else 0
        | [] => 0
      match ((cs.drop sign).takeWhile Char.isDigit).length with
      | 0 => 0
      | n + 1 => 1 + sign + (n + 1)
    else 0

/-- Digits, a point and more digits, and perhaps an exponent; the digits before the point may be
missing. -/
def real : Pattern := fun cs =>
  let whole := (cs.takeWhile Char.isDigit).length
  match cs.drop whole with
  | [] => none
  | point :: tail =>
    let fraction := (tail.takeWhile Char.isDigit).length
    if point == '.' && fraction != 0 then
      some (whole + 1 + fraction + exponent (tail.drop fraction))
    else none

/-- The length of the longest run of complete string items: a character other than a quote or a
backslash, or a backslash with any character but a line feed. -/
def items : List Char → Nat
  | [] => 0
  | c :: cs =>
    if c == '"' then 0
    else if c == '\\' then
      match cs with
      | [] => 0
      | d :: ds => if d == '\n' then 0 else 2 + items ds
    else 1 + items cs

/-- A string literal with both quotes. -/
def quoted : Pattern
  | [] => none
  | c :: cs =>
    if c == '"' && (cs.drop (items cs)).head? == some '"' then some (items cs + 2) else none

/-- All patterns, in order of precedence. -/
def patterns : List (Kind × Pattern) :=
  [(.blank, run isSeparator), (.comment, comment)]
    ++ Keyword.all.map (fun k => (.keyword k, exactly k.spelling.toList))
    ++ [(.ident, ident), (.integer, run Char.isDigit), (.real, real), (.string, quoted)]
    ++ Mark.all.map (fun m => (.mark m, exactly m.spelling.toList))

/-- The longest fit of a list of patterns; the first of equals. -/
def longest (cs : List Char) : List (Kind × Pattern) → Option (Kind × Nat)
  | [] => none
  | (kind, pattern) :: more =>
    match pattern cs, longest cs more with
    | none, best => best
    | some n, none => some (kind, n)
    | some n, some (other, m) => if m ≤ n then some (kind, n) else some (other, m)

/-- What is generated from the patterns: for a text `c :: cs` it gives the class and the length of the lexeme
at the beginning. -/
abbrev Scanner := Char → List Char → Kind × Nat

/-- The longest fit, or an error. -/
def best : Scanner := fun c cs =>
  match longest (c :: cs) patterns with
  | some found => found
  | none => (.error, if c == '"' then 1 + items cs else 1)

/-- The longest fit or an error, but for a reserved word right before a dollar sign: there the scanner goes on
to the half of a gate, whether it is complete or not, and has an identifier. -/
def first : Scanner := fun c cs =>
  match best c cs with
  | (.keyword k, n) =>
    if (cs.drop (n - 1)).head? = some '$' then (.ident, n) else (.keyword k, n)
  | found => found

/-- A piece of text with its class. -/
structure Lexeme where
  kind : Kind
  chars : List Char
deriving DecidableEq, Repr

/-- A text as lexemes. -/
def lexemes (scan : Scanner) : List Char → List Lexeme
  | [] => []
  | c :: cs =>
    let found := scan c cs
    ⟨found.1, c :: cs.take (found.2 - 1)⟩ :: lexemes scan (cs.drop (found.2 - 1))
termination_by cs => cs.length
decreasing_by simp only [List.length_drop, List.length_cons]; omega

/-- **Nothing is lost:** the lexemes put together are the text. -/
theorem flatMap_lexemes (scan : Scanner) (cs : List Char) :
    (lexemes scan cs).flatMap Lexeme.chars = cs := by
  fun_induction lexemes scan cs with
  | case1 => rfl
  | case2 c cs found ih => simp [ih]

/-- Lexemes with their places: `offset` is where the first begins, `lead` the blanks and comments
passed since the last token. -/
def place (offset : Nat) (lead : List Char) : List Lexeme → List Token
  | [] => []
  | lexeme :: more =>
    let stop := offset + Text.byteLength lexeme.chars
    if lexeme.kind.isTrivia then place stop (lead ++ lexeme.chars) more
    else
      { kind := lexeme.kind, text := String.ofList lexeme.chars, start := offset, stop,
        lead := String.ofList lead } :: place stop [] more

end Scan

/-- The tokens that a scanner makes of a text. -/
def tokenizeBy (scan : Scan.Scanner) (text : String) : List Token :=
  Scan.place 0 [] (Scan.lexemes scan text.toList)

/-- The tokens of a text. -/
def tokenize (text : String) : List Token :=
  tokenizeBy Scan.first text

end NedWorkspace
