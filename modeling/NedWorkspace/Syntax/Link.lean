/-
# Connections

SPEC_FULL, section 1: `connections`, with its arrows, channels and loops.

```text
Item       = 'for' Header '{' Item* '}' | Connection
Connection = GateRef Arrow (ChannelSpec Arrow)? GateRef ('if' Expr)? (';' | ',')
ChannelSpec = (Ident ':')? ('<' Expr? '>' 'like')? QualifiedName? ('{' ... '}')?
GateRef    = Ident Index? ('.' Ident (Index | '++')?)? | Ident '++'
```

Whether a channel stands between two arrows is decided by looking ahead for the second arrow.
Connections inside `for` loops are listed as if they stood outside.
-/

import NedWorkspace.Syntax.Stretch
import NedWorkspace.Syntax.Member

namespace NedWorkspace

namespace Stretch

/-- The kinds that end a connection. -/
def endsConnection : Kind → Bool
  | .mark .semicolon | .mark .comma | .keyword .ifWord | .mark .rbrace => true
  | _ => false

/-- Whether an arrow comes, outside brackets, before the connection ends. -/
def arrowAhead : Nat → List Token → Bool
  | _, [] => false
  | depth, t :: ts =>
    if depth = 0 ∧ t.kind.isArrow then true
    else if depth = 0 ∧ endsConnection t.kind then false
    else arrowAhead (depthAfter depth t.kind) ts

end Stretch

namespace Parser

/-- An index in brackets, `++` or nothing. -/
def gateIndex : Parser GateIndex := do
  if ← at? (.mark .lbracket) then
    skipGroup
    return .bracketed
  else if ← eat (.mark .plusPlus) then
    return .next
  else
    return .absent

/-- One end of a connection. -/
def gateRef : Parser (Option GateRef) := do
  match ← expectIdent "gate or submodule name" with
  | none => return none
  | some first =>
    let indexed ← at? (.mark .lbracket)
    if indexed then skipGroup
    if ← eat (.mark .dot) then
      match ← expectIdent "gate name" with
      | none => return none
      | some gate =>
        return some { module := some first, moduleIndexed := indexed, gate, index := ← gateIndex }
    else
      let index ← if indexed then pure .bracketed else gateIndex
      return some { module := none, moduleIndexed := false, gate := first, index }

/-- One of the three arrows. -/
def arrow : Parser (Option Kind) := do
  match ← kind? with
  | some k =>
    if k.isArrow then
      skipOne
      return some k
    else
      complainExpected "'-->', '<--' or '<-->'"
      return none
  | none =>
    complainExpected "'-->', '<--' or '<-->'"
    return none

/-- A name and a colon, as before the type of a channel. -/
def isLabelled (s : Cursor) : Bool :=
  s.kind? == some .ident && s.secondKind? == some (.mark .colon)

/-- The channel between the two arrows of a connection. -/
def channelSpec : Parser ChannelSpec := do
  let start ← Parser.start
  let node ← newNode
  if ← look isLabelled then
    skipOne
    skipOne
  let like ← do
    if ← eat (.mark .lt) then some <$> likeExpression else pure none
  let type ← do
    if ← at? .ident then typeRef "channel type" else pure none
  if ← at? (.mark .lbrace) then skipGroup
  if type.isNone ∧ like.isSome then complainExpected "channel interface name"
  return { node, type, like, span := ← spanFrom start }

/-- The channel and the second arrow, if an arrow is still to come; nothing if that arrow is missing
after all. -/
def channelBetween : Parser (Option (Option ChannelSpec)) := do
  if ← look (fun s => Stretch.arrowAhead 0 s.rest) then
    let channel ← channelSpec
    match ← arrow with
    | some _ => return some (some channel)
    | none => return none
  else
    return some none

/-- The condition of a connection and the mark that ends it. -/
def connectionEnd : Parser Unit := do
  if ← eat (.keyword .ifWord) then
    let _ ← expression [.mark .semicolon, .mark .comma]
  if ← eat (.mark .comma) then
    return ()
  else
    let _ ← expect (.mark .semicolon) "';'"

/-- Steps over the statement and gives nothing. -/
def giveUp {α : Type} : Parser (Option α) := do
  skipStatement
  return none

/-- The connection that an arrow makes of the ends on its left and on its right. -/
def orient (node : NodeId) (left : GateRef) (k : Kind) (right : GateRef)
    (channel : Option ChannelSpec) (span : Span) : Connection :=
  if k = .mark .leftArrow then
    { node, src := right, dest := left, arrow := .unidirectional, channel, span }
  else if k = .mark .biArrow then
    { node, src := left, dest := right, arrow := .bidirectional, channel, span }
  else
    { node, src := left, dest := right, arrow := .unidirectional, channel, span }

/-- A connection. -/
def connection : Parser (Option Connection) := do
  let start ← Parser.start
  let node ← newNode
  match ← gateRef with
  | none => giveUp
  | some left =>
    match ← arrow with
    | none => giveUp
    | some k =>
      match ← channelBetween with
      | none => return none
      | some channel =>
        match ← gateRef with
        | none => giveUp
        | some right =>
          connectionEnd
          return some (orient node left k right channel (← spanFrom start))

/-- One item of a connections section other than a loop. -/
def plainLink : Parser (List Connection) := do
  match ← kind? with
  | some (.mark .atSign) =>
    strayProperty
    return []
  | some .ident => return (← connection).toList
  | _ =>
    complainExpected "connection"
    skipStatement
    return []

/-- The beginning of a loop, up to its opening brace. -/
def loopHead : Parser Unit := do
  skipOne
  let _ ← expression [.mark .lbrace, .mark .semicolon]

/-- The end of a loop. -/
def loopEnd : Parser Unit := do
  let _ ← expect (.mark .rbrace) "'\x7d'"
  let _ ← eat (.mark .semicolon)

/-- The missing opening brace of a loop. -/
def loopUnopened : Parser Unit := do
  complainExpected "'\x7b'"
  skipStatement

mutual

/-- One item of a connections section, from a cursor. -/
def linkFrom (s : Cursor) : List Connection × Cursor :=
  if s.kind? = some (.keyword .forWord) then
    let t := (loopHead.run s).2
    if t.kind? = some (.mark .lbrace) then
      let r := linksFrom t.next
      (r.1, (loopEnd.run r.2).2)
    else ([], (loopUnopened.run t).2)
  else plainLink.run s
termination_by (s.rest.length, 0)
decreasing_by
  rename_i h
  exact Prod.Lex.left _ _ (Nat.lt_of_lt_of_le
    (Cursor.length_next_lt (Cursor.rest_ne_nil_of_kind? h)) (loopHead.reaches s).length_le)

/-- The items inside a loop, up to its closing brace. Every item takes a token. -/
def linksFrom (s : Cursor) : List Connection × Cursor :=
  if s.kind? = none ∨ s.kind? = some (.mark .rbrace) then ([], s)
  else
    let r := linkFrom s
    if r.2.rest.length < s.rest.length then
      let more := linksFrom r.2
      (r.1 ++ more.1, more.2)
    else r
termination_by (s.rest.length, 1)

end

mutual

/-- A connection or a loop only moves on, so what it calls ends. -/
theorem reaches_linkFrom (s : Cursor) : s.Reaches (linkFrom s).2 := by
  rw [linkFrom]
  split
  · dsimp only
    split
    · exact (loopHead.reaches s).trans ((Cursor.reaches_next _).trans
        ((reaches_linksFrom _).trans (loopEnd.reaches _)))
    · exact (loopHead.reaches s).trans (loopUnopened.reaches _)
  · exact plainLink.reaches s
termination_by (s.rest.length, 0)
decreasing_by
  rename_i h
  exact Prod.Lex.left _ _ (Nat.lt_of_lt_of_le
    (Cursor.length_next_lt (Cursor.rest_ne_nil_of_kind? h)) (loopHead.reaches s).length_le)

/-- Connections only move on. -/
theorem reaches_linksFrom (s : Cursor) : s.Reaches (linksFrom s).2 := by
  rw [linksFrom]
  split
  · exact .refl s
  · dsimp only
    split
    · exact (reaches_linkFrom s).trans (reaches_linksFrom _)
    · exact reaches_linkFrom s
termination_by (s.rest.length, 1)

end

/-- One item of a connections section. -/
def link : Parser (List Connection) :=
  ⟨linkFrom, reaches_linkFrom⟩

end Parser

end NedWorkspace
