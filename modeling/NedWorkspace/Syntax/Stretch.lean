/-
# Stretches of tokens

SPEC_FULL, section 1: expressions are opaque token runs, property values are source slices.

Expressions are not interpreted and mistakes are stepped over, so much of reading consists of taking
a stretch of tokens whole. How far a stretch goes is a count on the token list:

| stretch | ends |
| --- | --- |
| statement | after the first `;` outside brackets, or before a closing brace |
| group | after the bracket that closes the first one |
| expression | before a given kind outside brackets, or before an unopened closing bracket |
| name | after the last `.` and identifier that go on with it |
| debris | before the next token that can begin a declaration |
-/

import NedWorkspace.Syntax.Parser
import NedWorkspace.Text.Blank

namespace NedWorkspace

namespace Token

/-- The text that a run of tokens was read from. -/
def sourceText : List Token → String
  | [] => ""
  | t :: ts => ts.foldl (fun text u => text ++ u.lead ++ u.text) t.text

end Token

namespace Stretch

/-- The number of open brackets after a token; a closing one too many counts for nothing. -/
def depthAfter (depth : Nat) (k : Kind) : Nat :=
  if k.isOpening then depth + 1 else if k.isClosing then depth - 1 else depth

/-- The length of a statement with `depth` brackets open. -/
def statement : Nat → List Token → Nat
  | _, [] => 0
  | depth, t :: ts =>
    if depth = 0 ∧ t.kind = .mark .semicolon then 1
    else if depth = 0 ∧ t.kind = .mark .rbrace then 0
    else 1 + statement (depthAfter depth t.kind) ts

/-- The length of a group with `depth` brackets open already. -/
def group : Nat → List Token → Nat
  | _, [] => 0
  | depth, t :: ts =>
    let d := depthAfter depth t.kind
    if d = 0 then 1 else 1 + group d ts

/-- Whether a group with `depth` brackets open already is closed. -/
def groupCloses : Nat → List Token → Bool
  | _, [] => false
  | depth, t :: ts =>
    let d := depthAfter depth t.kind
    d = 0 || groupCloses d ts

/-- The length of an expression that ends before a kind in `stops`. -/
def expression (stops : List Kind) : Nat → List Token → Nat
  | _, [] => 0
  | depth, t :: ts =>
    if depth = 0 ∧ (t.kind ∈ stops ∨ t.kind.isClosing) then 0
    else 1 + expression stops (depthAfter depth t.kind) ts

/-- The length of `.` and identifier pairs. -/
def nameTail : List Token → Nat
  | d :: i :: ts => if d.kind = .mark .dot ∧ i.kind = .ident then 2 + nameTail ts else 0
  | _ => 0

/-- The length of a qualified name that begins with the first token. -/
def name : List Token → Nat
  | [] => 0
  | _ :: ts => 1 + nameTail ts

/-- The parts of an import specification. -/
def isImportPart : Kind → Bool
  | .ident | .mark .dot | .mark .star | .mark .starStar => true
  | _ => false

/-- The length of an import specification. -/
def importSpec (ts : List Token) : Nat :=
  (ts.takeWhile fun t => isImportPart t.kind).length

/-- The kinds at which reading a file starts anew. -/
def isFresh (k : Kind) : Bool :=
  k.isTypeWord || k == .keyword .package || k == .keyword .importWord || k == .mark .atSign

/-- The length of debris with `depth` brackets open; brackets are stepped over whole. -/
def debris : Nat → List Token → Nat
  | _, [] => 0
  | depth, t :: ts =>
    if depth = 0 ∧ isFresh t.kind then 0
    else 1 + debris (depthAfter depth t.kind) ts

/-- The number of brackets left open at the end of debris. -/
def debrisDepth : Nat → List Token → Nat
  | depth, [] => depth
  | depth, t :: ts =>
    if depth = 0 ∧ isFresh t.kind then 0
    else debrisDepth (depthAfter depth t.kind) ts

end Stretch

namespace Parser

/-- Steps over the rest of a statement. -/
def skipStatement : Parser Unit := do
  let _ ← takeCounted (Stretch.statement 0)

/-- The error for brackets that are still open at the end of the file. -/
def complainUnbalanced : Parser Unit :=
  complain "unbalanced brackets at end of file"

/-- Steps over a bracketed group. -/
def skipGroup : Parser Unit := do
  let closes ← look fun s => Stretch.groupCloses 0 s.rest
  let _ ← takeCounted (Stretch.group 0)
  if closes then pure () else complainUnbalanced

/-- Steps over debris at the top level, the next token first, whatever it is. -/
def skipDebris : Parser Unit := do
  skipOne
  let depth ← look fun s => Stretch.debrisDepth 0 s.rest
  let _ ← takeCounted (Stretch.debris 0)
  if depth = 0 then pure () else complainUnbalanced

/-- The text of an expression, without blanks around it, if there is one. -/
def expression (stops : List Kind) : Parser (Option String) := do
  match ← takeCounted (Stretch.expression stops 0) with
  | [] => return none
  | t :: ts => return some (Text.trim (Token.sourceText (t :: ts)))

/-- Identifiers joined by points, as written. -/
def qualifiedName (what : String) : Parser (Option String) := do
  if ← at? .ident then
    let tokens ← takeCounted Stretch.name
    return some (Text.trim (Token.sourceText tokens))
  else
    complainExpected what
    return none

/-- A reference to a type. -/
def typeRef (what : String) : Parser (Option TypeRef) := do
  let start ← Parser.start
  let node ← newNode
  match ← qualifiedName what with
  | some name => return some { node, name, span := ← spanFrom start }
  | none => return none

/-- References to types with commas between them. -/
def typeRefs : Parser (List TypeRef) :=
  sepBy (.mark .comma) (typeRef "type name")

end Parser

end NedWorkspace
