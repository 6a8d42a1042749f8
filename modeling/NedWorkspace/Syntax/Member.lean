/-
# Properties, parameters, gates and submodules

SPEC_FULL, section 1: properties, `parameters`, `gates` and `submodules`.

```text
Property  = '@' Name ('[' Index ']')? ('(' Entry (';' Entry)* ')')?
Entry     = (Name '=')? Value (',' Value)*
Param     = 'volatile'? Type? Ident Property* ('=' Expr)? Property* ';'
Gate      = Direction? Ident ('[' Expr? ']')? Property* ';'
Submodule = Ident ('[' Expr ']')? ':' ('<' Expr? '>' 'like')? QualifiedName ('if' Expr)?
            (Body | ';')
```

A member that cannot be read is stepped over up to the end of its statement.
-/

import NedWorkspace.Syntax.Stretch

namespace NedWorkspace

/-- The sections of a body. -/
inductive BodySection where
  | parameters
  | gates
  | types
  | submodules
  | connections
deriving DecidableEq, Repr

namespace BodySection

/-- The section that a kind of token opens. -/
def ofKind? : Kind → Option BodySection
  | .keyword .parameters => some .parameters
  | .keyword .gates => some .gates
  | .keyword .types => some .types
  | .keyword .submodules => some .submodules
  | .keyword .connections => some .connections
  | _ => none

end BodySection

namespace Parser

/-- Identifiers and keywords both serve as names of properties and of their keys. -/
def isWord (text : String) : Bool :=
  match text.toList with
  | c :: _ => c.isAlpha || c == '_'
  | [] => false

/-- The text without one quote at each end, if it has both. -/
def unquote (text : String) : String :=
  match text.toList with
  | first :: more =>
    match more.reverse with
    | last :: inner =>
      if first == '"' && last == '"' then String.ofList inner.reverse else text
    | [] => text
  | [] => text

/-- The kinds that end an expression in square brackets. -/
def indexStops : List Kind :=
  [.mark .rbracket, .mark .semicolon]

/-- An expression in square brackets, the opening one taken already. -/
def bracketed : Parser (Option String) := do
  let text ← expression indexStops
  let _ ← expect (.mark .rbracket) "']'"
  return text

/-- Steps over a property without reading it. -/
def skipProperty : Parser Unit := do
  skipOne
  skipOne
  if ← at? (.mark .lbracket) then skipGroup
  if ← at? (.mark .lparen) then skipGroup

/-- The next token's text, if it is a word that a sign of equality follows. -/
def keyAhead (s : Cursor) : Option String :=
  match s.rest with
  | t :: u :: _ => if u.kind = .mark .eq ∧ isWord t.text then some t.text else none
  | _ => none

/-- One value of a property; a missing one is empty. -/
def propertyValue : Parser (Option String) := do
  let text ← expression [.mark .comma, .mark .semicolon]
  return some ((text.map unquote).getD "")

/-- One entry of a property, unless the list of entries ends here. -/
def propertyEntry : Parser (Option PropertyEntry) := do
  match ← kind? with
  | none => return none
  | some (.mark .rparen) => return none
  | some _ =>
    let key ← do
      match ← look keyAhead with
      | some key =>
        skipOne
        skipOne
        pure key
      | none => pure ""
    let values ← sepBy (.mark .comma) propertyValue
    return some { key, values }

/-- A property, from its `@` on. -/
def property : Parser (Option Property) := do
  let start ← Parser.start
  skipOne
  let node ← newNode
  match ← look (fun s => (s.rest.head?.map Token.text).filter isWord) with
  | none =>
    complainExpected "property name"
    return none
  | some name =>
    skipOne
    let index ← do
      if ← eat (.mark .lbracket) then bracketed else pure none
    let entries ← do
      if ← eat (.mark .lparen) then
        let entries ← sepBy (.mark .semicolon) propertyEntry
        let _ ← expect (.mark .rparen) "')'"
        pure entries
      else pure []
    return some { node, name, index, entries, span := ← spanFrom start }

/-- Properties one after another. -/
def properties : Parser (List Property) :=
  manyWhile (· == .mark .atSign) property

/-- The parameter type that a kind of token names. -/
def paramType? : Kind → Option ParamType
  | .keyword .bool => some .bool
  | .keyword .int => some .int
  | .keyword .double => some .double
  | .keyword .string => some .string
  | .keyword .xml => some .xml
  | .keyword .object => some .object
  | _ => none

/-- A name followed by what can follow the name of a parameter. -/
def isPlainAssignment (s : Cursor) : Bool :=
  s.kind? == some .ident &&
    (s.secondKind? == some (.mark .eq) || s.secondKind? == some (.mark .semicolon)
      || s.secondKind? == some (.mark .atSign))

/-- A name or star that begins an assignment by pattern, such as `**.delay = 1s`. -/
def isPatternStart : Kind → Bool
  | .ident | .mark .star | .mark .starStar => true
  | _ => false

/-- The value after the sign of equality. -/
def paramValue : Parser (Option String) := do
  if ← eat (.mark .eq) then
    let value ← expression [.mark .semicolon, .mark .atSign]
    if value.isNone then complainExpected "parameter value"
    return value
  else
    return none

/-- The rest of a parameter, from its name on. -/
def paramFromName (start : Nat) (volatile : Bool) (type : Option ParamType) :
    Parser (Option Param) := do
  let node ← newNode
  match ← expectIdent "parameter name" with
  | none =>
    skipStatement
    return none
  | some name =>
    let before ← properties
    let value ← paramValue
    let after ← properties
    let _ ← expect (.mark .semicolon) "';'"
    return some { node, name, type, volatile, value, properties := before ++ after,
                  span := ← spanFrom start }

/-- A parameter. An assignment by pattern names no member and is stepped over. -/
def param : Parser (Option Param) := do
  let start ← Parser.start
  let volatile ← eat (.keyword .volatile)
  let next ← kind?
  match next.bind paramType? with
  | some type =>
    skipOne
    paramFromName start volatile (some type)
  | none =>
    if volatile || (← look isPlainAssignment) then
      paramFromName start volatile none
    else
      if ¬ next.any isPatternStart then complainExpected "parameter"
      skipStatement
      return none

/-- The direction that a kind of token names. -/
def direction? : Kind → Option GateDirection
  | .keyword .input => some .input
  | .keyword .output => some .output
  | .keyword .inout => some .inout
  | _ => none

/-- Steps over a property that has no place in its section, and its semicolon. -/
def strayProperty : Parser Unit := do
  skipProperty
  let _ ← eat (.mark .semicolon)

/-- A gate. -/
def gate : Parser (Option Gate) := do
  if ← at? (.mark .atSign) then
    strayProperty
    return none
  else
    let start ← Parser.start
    let direction := (← kind?).bind direction?
    if direction.isSome then skipOne
    let node ← newNode
    match ← expectIdent "gate name" with
    | none =>
      skipStatement
      return none
    | some name =>
      let isVector ← eat (.mark .lbracket)
      let size ← if isVector then bracketed else pure none
      let properties ← properties
      let _ ← expect (.mark .semicolon) "';'"
      return some { node, name, direction, isVector, size, properties, span := ← spanFrom start }

/-- A property that stands as a statement of its own. -/
def propertyStatement : Parser (Option Property) := do
  let property ← property
  let _ ← eat (.mark .semicolon)
  return property

/-- The rest of a section header after the keyword: whether it allows unconnected gates. -/
def sectionHeader (opened : BodySection) : Parser Bool := do
  let allow ← if opened = .connections then eat (.keyword .allowUnconnected) else pure false
  let _ ← expect (.mark .colon) "':'"
  return allow

/-- The `<expr> like` before the name of an interface, the opening bracket taken already. -/
def likeExpression : Parser String := do
  let text ← expression [.mark .gt, .mark .semicolon]
  let _ ← expect (.mark .gt) "'>'"
  let _ ← expect (.keyword .like) "'like'"
  return text.getD ""

/-- One member of a submodule body. -/
def submoduleMember (sec : BodySection) (sub : Submodule) : Parser Submodule := do
  match sec with
  | .gates => return { sub with gates := sub.gates ++ (← gate).toList }
  | .parameters =>
    if ← at? (.mark .atSign) then
      return { sub with properties := sub.properties ++ (← propertyStatement).toList }
    else
      return { sub with params := sub.params ++ (← param).toList }
  | _ =>
    skipStatement
    return sub

/-- A section header inside a submodule body. -/
def submoduleSection (opened : BodySection) : Parser Unit := do
  skipOne
  let _ ← sectionHeader opened
  if opened ≠ .parameters ∧ opened ≠ .gates then
    complain "only 'parameters:' and 'gates:' are allowed in a submodule body"

/-- `submoduleBody` from a cursor. -/
def submoduleBodyFrom (sec : BodySection) (sub : Submodule) (s : Cursor) : Submodule × Cursor :=
  match _h : s.rest with
  | [] => (sub, s)
  | t :: _ =>
    if t.kind = .mark .rbrace then (sub, s)
    else
      match BodySection.ofKind? t.kind with
      | some opened => submoduleBodyFrom opened sub ((submoduleSection opened).run s).2
      | none =>
        let r := (submoduleMember sec sub).run s
        if r.2.rest.length < s.rest.length then submoduleBodyFrom sec r.1 r.2
        else submoduleBodyFrom sec r.1 ((passOver "a member").run r.2).2
termination_by s.rest.length
decreasing_by
  all_goals have hne : s.rest ≠ [] := by simp [_h]
  · exact length_run_skipOne_bind_lt _ hne
  · assumption
  · exact length_run_passOver_lt _ hne ((submoduleMember sec sub).reaches s)

/-- The body of a submodule only moves on. -/
theorem reaches_submoduleBodyFrom (sec : BodySection) (sub : Submodule) (s : Cursor) :
    s.Reaches (submoduleBodyFrom sec sub s).2 := by
  fun_induction submoduleBodyFrom sec sub s with
  | case1 => exact .refl _
  | case2 => exact .refl _
  | case3 sec sub s t _ _ _ opened _ ih => exact ((submoduleSection opened).reaches s).trans ih
  | case4 sec sub s t _ _ _ _ r _ ih => exact ((submoduleMember sec sub).reaches s).trans ih
  | case5 sec sub s t _ _ _ _ r _ ih =>
    exact ((submoduleMember sec sub).reaches s).trans (((passOver _).reaches r.2).trans ih)

/-- The members of a submodule body, up to its closing brace. -/
def submoduleBody (sub : Submodule) : Parser Submodule :=
  ⟨submoduleBodyFrom .parameters sub, reaches_submoduleBodyFrom .parameters sub⟩

/-- The rest of a submodule after the colon. -/
def submoduleFromType (start : Nat) (node : NodeId) (name : String) (vectorSize : Option String) :
    Parser (Option Submodule) := do
  let like ← do
    if ← eat (.mark .lt) then some <$> likeExpression else pure none
  match ← typeRef "submodule type" with
  | none =>
    skipStatement
    return none
  | some type =>
    if ← eat (.keyword .ifWord) then
      let _ ← expression [.mark .lbrace, .mark .semicolon]
    let sub : Submodule :=
      { node, name, vectorSize, type, like, params := [], gates := [], properties := [], span := {} }
    let sub ← do
      if ← eat (.mark .lbrace) then
        let sub ← submoduleBody sub
        let _ ← expect (.mark .rbrace) "'\x7d'"
        let _ ← eat (.mark .semicolon)
        pure sub
      else
        let _ ← expect (.mark .semicolon) "';'"
        pure sub
    return some { sub with span := ← spanFrom start }

/-- A submodule. -/
def submodule : Parser (Option Submodule) := do
  if ← at? (.mark .atSign) then
    strayProperty
    return none
  else
    let start ← Parser.start
    let node ← newNode
    match ← expectIdent "submodule name" with
    | none =>
      skipStatement
      return none
    | some name =>
      let vectorSize ← do
        if ← eat (.mark .lbracket) then
          let size ← bracketed
          pure (some (size.getD ""))
        else pure none
      if ← expect (.mark .colon) "':'" then
        submoduleFromType start node name vectorSize
      else
        skipStatement
        return none

end Parser

end NedWorkspace
