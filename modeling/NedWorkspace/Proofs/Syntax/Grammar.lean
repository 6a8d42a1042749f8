/-
# The concrete syntax

SPEC_FULL, section 1: the declaration subset.

Which runs of tokens write a piece of syntax, as relations, one for each rule of the grammar:

```text
File        = (Package | Import | Property ';'? | TypeDecl)*
TypeDecl    = Kind Ident ('extends' Refs)? ('like' Refs)? Property* ('{' Body '}' ';'? | ';')
Property    = '@' Name ('[' Index ']')? ('(' Entry (';' Entry)* ')')?
Entry       = (Name '=')? Value (',' Value)*
Param       = 'volatile'? Type? Ident Property* ('=' Expr)? Property* ';'
Gate        = Direction? Ident ('[' Expr? ']')? Property* ';'
Submodule   = Ident ('[' Expr ']')? ':' ('<' Expr? '>' 'like')? QualifiedName ('if' Expr)?
              ('{' Body '}' ';'? | ';')
Link        = 'for' Header '{' Link* '}' ';'? | Connection
Connection  = GateRef Arrow (ChannelSpec Arrow)? GateRef ('if' Expr)? (';' | ',')
ChannelSpec = (Ident ':')? ('<' Expr? '>' 'like')? QualifiedName? ('{' ... '}')?
GateRef     = Ident Index? | Ident '++' | Ident Index? '.' Ident (Index | '++')?
```

A piece of syntax has numbers and spans for its nodes, and the relations leave them open. Expressions,
qualified names and import specifications are kept as the text of their tokens, blanks between them
included (`SliceWritten`), and how far an expression goes is said by the kinds that end it (`ExprWritten`). Since
reading decides what comes next by the next token, an expression must have none of these kinds outside
brackets.

`Tree.Written` is the relation for files.
-/

import NedWorkspace.Proofs.Syntax.Bracket
import NedWorkspace.Proofs.Token.Spell
import NedWorkspace.Syntax.Declaration

namespace NedWorkspace

open Stretch

/-- Which runs of tokens write which pieces of syntax. -/
abbrev Rule (α : Type) := α → List Token → Prop

namespace Rule

variable {α : Type}

/-- A piece, or nothing. -/
inductive Perhaps (W : Rule α) : Rule (Option α)
  | none : Perhaps W none []
  | some {a : α} {ts : List Token} (piece : W a ts) : Perhaps W (some a) ts

/-- A list, or nothing if it is empty. -/
inductive Clause (W : Rule (List α)) : Rule (List α)
  | none : Clause W [] []
  | some {as : List α} {ts : List Token} (pieces : W as ts) : Clause W as ts

/-- Pieces one after another. -/
inductive Many (W : Rule α) : Rule (List α)
  | nil : Many W [] []
  | cons {a : α} {as : List α} {ts us : List Token} (first : W a ts) (rest : Many W as us) :
      Many W (a :: as) (ts ++ us)

/-- One piece or several, with a separator between them. -/
inductive SepBy (sep : Kind) (W : Rule α) : Rule (List α)
  | last {a : α} {ts : List Token} (piece : W a ts) : SepBy sep W [a] ts
  | more {a : α} {as : List α} {ts us : List Token} {t : Token} (first : W a ts)
      (mark : t.kind = sep) (rest : SepBy sep W as us) : SepBy sep W (a :: as) (ts ++ t :: us)

/-- A piece behind a token. -/
inductive After (k : Kind) (W : Rule α) : Rule α
  | mk {t : Token} {a : α} {ts : List Token} (mark : t.kind = k) (piece : W a ts) :
      After k W a (t :: ts)

/-- A piece between two tokens. -/
inductive Between (k l : Kind) (W : Rule α) : Rule α
  | mk {t u : Token} {a : α} {ts : List Token} (opening : t.kind = k) (piece : W a ts)
      (closing : u.kind = l) : Between k l W a (t :: (ts ++ [u]))

/-- A word that may be left out. -/
inductive Flag (k : Kind) : Rule Bool
  | no : Flag k false []
  | yes {t : Token} (word : t.kind = k) : Flag k true [t]

/-- One of several words, or none. -/
inductive Choice (f : Kind → Option α) : Rule (Option α)
  | none : Choice f none []
  | some {t : Token} {a : α} (word : f t.kind = some a) : Choice f (some a) [t]

end Rule

open Rule

/-! ### Texts that are kept -/

/-- A text kept as it is written. -/
structure SliceWritten (text : String) (ts : List Token) : Prop where
  ne_nil : ts ≠ []
  sound : ∀ t ∈ ts, t.isSound = true
  text_eq : text = Token.sourceText ts

/-- An expression: brackets are paired, and none of the kinds that end it stands outside them. -/
structure ExprWritten (stops : List Kind) (text : String) (ts : List Token) : Prop
    extends SliceWritten text ts where
  paired : Paired stops ts

/-- Identifiers with points between them. -/
inductive IsName : List Token → Prop
  | single {t : Token} (ident : t.kind = .ident) : IsName [t]
  | more {t d : Token} {ts : List Token} (ident : t.kind = .ident) (dot : d.kind = .mark .dot)
      (rest : IsName ts) : IsName (t :: d :: ts)

structure NameWritten (text : String) (ts : List Token) : Prop extends SliceWritten text ts where
  name : IsName ts

def TypeRef.Written : Rule TypeRef := fun r => NameWritten r.name

/-- A group in brackets, the contents of which are not kept. -/
inductive GroupWritten (k : Kind) : List Token → Prop
  | mk {o c : Token} {inner : List Token} (opening : o.kind = k) (shape : k.closer? = some c.kind)
      (inside : Paired [] inner) : GroupWritten k (o :: (inner ++ [c]))

/-! ### Properties -/

/-- A property value: a string literal stands for what is between its quotes, any other expression for
itself. An expression that begins and ends with string literals is not among them. -/
inductive ValueWritten : Rule String
  | literal {t : Token} {text : String} (kind : t.kind = .string) (sound : t.isSound = true)
      (quoted : t.text.toList = '"' :: (text.toList ++ ['"'])) : ValueWritten text [t]
  | expression {text : String} {ts : List Token}
      (value : ExprWritten [.mark .comma, .mark .semicolon] text ts)
      (edges : ∀ t ∈ ts.head?, ∀ u ∈ ts.getLast?, t.kind = .string → u.kind ≠ .string) :
      ValueWritten text ts

/-- An identifier or a reserved word: either serves as the name of a property and as a key. -/
structure IsWord (t : Token) : Prop where
  sound : t.isSound = true
  word : Parser.isWord t.text = true

/-- A name and a sign of equality. -/
def BeginsWithKey (ts : List Token) : Prop :=
  ∃ (t u : Token) (us : List Token), ts = t :: u :: us ∧ Parser.isWord t.text = true ∧
    u.kind = .mark .eq

inductive PropertyEntry.Written : Rule PropertyEntry
  | keyed {t u : Token} {ts : List Token} {values : List String}
      (word : IsWord t) (sign : u.kind = .mark .eq)
      (written : SepBy (.mark .comma) ValueWritten values ts) :
      PropertyEntry.Written ⟨t.text, values⟩ (t :: u :: ts)
  | plain {ts : List Token} {values : List String}
      (written : SepBy (.mark .comma) ValueWritten values ts) (keyless : ¬ BeginsWithKey ts) :
      PropertyEntry.Written ⟨"", values⟩ ts

inductive Property.Written : Rule Property
  | mk {p : Property} {tAt tName : Token} {tIndex tEntries : List Token}
      (atSign : tAt.kind = .mark .atSign) (word : IsWord tName)
      (name : tName.text = p.name)
      (index : Perhaps (Between (.mark .lbracket) (.mark .rbracket) (ExprWritten Parser.indexStops))
        p.index tIndex)
      (entries : Clause (Between (.mark .lparen) (.mark .rparen)
        (SepBy (.mark .semicolon) PropertyEntry.Written)) p.entries tEntries) :
      Property.Written p (tAt :: tName :: (tIndex ++ tEntries))

/-! ### Parameters and gates -/

inductive Param.Written : Rule Param
  | mk {p : Param} {tVolatile tType tBefore tValue tAfter : List Token} {tName tEnd : Token}
      {first second : List Property}
      (volatile : Flag (.keyword .volatile) p.volatile tVolatile)
      (type : Choice Parser.paramType? p.type tType)
      (ident : tName.kind = .ident) (name : tName.text = p.name)
      (before : Many Property.Written first tBefore)
      (value : Perhaps (After (.mark .eq) (ExprWritten [.mark .semicolon, .mark .atSign])) p.value tValue)
      (after : Many Property.Written second tAfter) (properties : p.properties = first ++ second)
      (ends : tEnd.kind = .mark .semicolon) :
      Param.Written p (tVolatile ++ (tType ++ tName :: (tBefore ++ (tValue ++ (tAfter ++ [tEnd])))))

/-- The brackets of a gate vector: whether there are any, and the size in them. -/
inductive VectorWritten : Bool → Option String → List Token → Prop
  | scalar : VectorWritten false none []
  | vector {size : Option String} {ts : List Token}
      (written : Between (.mark .lbracket) (.mark .rbracket) (Perhaps (ExprWritten Parser.indexStops))
        size ts) : VectorWritten true size ts

inductive Gate.Written : Rule Gate
  | mk {g : Gate} {tDirection tVector tProperties : List Token} {tName tEnd : Token}
      (direction : Choice Parser.direction? g.direction tDirection)
      (ident : tName.kind = .ident) (name : tName.text = g.name)
      (vector : VectorWritten g.isVector g.size tVector)
      (properties : Many Property.Written g.properties tProperties)
      (ends : tEnd.kind = .mark .semicolon) :
      Gate.Written g (tDirection ++ tName :: (tVector ++ (tProperties ++ [tEnd])))

/-! ### Submodules -/

/-- `<expr> like`, the expression empty if it is missing. -/
inductive LikeWritten (stops : List Kind) : Rule String
  | mk {l r w : Token} {text : String} {ts : List Token} (opening : l.kind = .mark .lt)
      (expr : text = "" ∧ ts = [] ∨ ExprWritten stops text ts) (closing : r.kind = .mark .gt)
      (like : w.kind = .keyword .like) : LikeWritten stops text (l :: (ts ++ [r, w]))

/-- A property that stands as a statement of its own. -/
inductive PropertyStatement : Rule Property
  | mk {p : Property} {ts tEnd : List Token} {ended : Bool} (property : p.Written ts)
      (ends : Flag (.mark .semicolon) ended tEnd) : PropertyStatement p (ts ++ tEnd)

/-- A section header; only that of the connections may say that gates can be left unconnected. -/
inductive HeaderWritten : BodySection → Bool → List Token → Prop
  | mk {sec : BodySection} {allow : Bool} {tWord tColon : Token} {tAllow : List Token}
      (word : BodySection.ofKind? tWord.kind = some sec)
      (allowed : Flag (.keyword .allowUnconnected) allow tAllow)
      (only : allow = true → sec = .connections) (colon : tColon.kind = .mark .colon) :
      HeaderWritten sec allow (tWord :: (tAllow ++ [tColon]))

/-- What the body of a submodule says. -/
structure SubmoduleContent where
  params : List Param := []
  gates : List Gate := []
  properties : List Property := []

/-- The body of a submodule, from a place in a section on. -/
inductive SubmoduleContent.Written : BodySection → SubmoduleContent → List Token → Prop
  | nil {sec : BodySection} : Written sec {} []
  | header {sec opened : BodySection} {c : SubmoduleContent} {ts us : List Token}
      (header : HeaderWritten opened false ts) (allowed : opened = .parameters ∨ opened = .gates)
      (rest : Written opened c us) : Written sec c (ts ++ us)
  | param {c : SubmoduleContent} {p : Param} {ts us : List Token} (param : p.Written ts)
      (rest : Written .parameters c us) :
      Written .parameters { c with params := p :: c.params } (ts ++ us)
  | property {c : SubmoduleContent} {p : Property} {ts us : List Token}
      (property : PropertyStatement p ts) (rest : Written .parameters c us) :
      Written .parameters { c with properties := p :: c.properties } (ts ++ us)
  | gate {c : SubmoduleContent} {g : Gate} {ts us : List Token} (gate : g.Written ts)
      (rest : Written .gates c us) : Written .gates { c with gates := g :: c.gates } (ts ++ us)

/-- A body in braces, and perhaps a semicolon behind it; or a semicolon alone, where the body is
empty. -/
inductive BodyWritten {α : Type} (empty : α) (W : Rule α) : Rule α
  | absent {t : Token} (ends : t.kind = .mark .semicolon) : BodyWritten empty W empty [t]
  | given {a : α} {o c : Token} {ts tEnd : List Token} {ended : Bool}
      (opening : o.kind = .mark .lbrace) (body : W a ts) (closing : c.kind = .mark .rbrace)
      (ends : Flag (.mark .semicolon) ended tEnd) : BodyWritten empty W a (o :: (ts ++ c :: tEnd))

inductive Submodule.Written : Rule Submodule
  | mk {s : Submodule} {tName tColon : Token} {tSize tLike tType tCondition tBody : List Token}
      {given : Option String} {content : SubmoduleContent}
      (ident : tName.kind = .ident) (name : tName.text = s.name)
      (size : Perhaps (Between (.mark .lbracket) (.mark .rbracket) (ExprWritten Parser.indexStops))
        s.vectorSize tSize)
      (colon : tColon.kind = .mark .colon)
      (like : Perhaps (LikeWritten [.mark .gt, .mark .semicolon]) s.like tLike)
      (type : s.type.Written tType)
      (condition : Perhaps (After (.keyword .ifWord) (ExprWritten [.mark .lbrace, .mark .semicolon])) given
        tCondition)
      (body : BodyWritten {} (SubmoduleContent.Written .parameters) content tBody)
      (holds : (⟨s.params, s.gates, s.properties⟩ : SubmoduleContent) = content) :
      Submodule.Written s
        (tName :: (tSize ++ tColon :: (tLike ++ (tType ++ (tCondition ++ tBody)))))

/-! ### Connections -/

inductive IndexWritten : GateIndex → List Token → Prop
  | absent : IndexWritten .absent []
  | bracketed {ts : List Token} (group : GroupWritten (.mark .lbracket) ts) : IndexWritten .bracketed ts
  | next {t : Token} (mark : t.kind = .mark .plusPlus) : IndexWritten .next [t]

/-- One end of a connection: a gate of the module itself, or of a submodule. -/
inductive GateRef.Written : Rule GateRef
  | own {tGate : Token} {index : GateIndex} {tIndex : List Token} (ident : tGate.kind = .ident)
      (gateIndex : IndexWritten index tIndex) :
      GateRef.Written ⟨none, false, tGate.text, index⟩ (tGate :: tIndex)
  | inner {tModule tDot tGate : Token} {indexed : Bool} {index : GateIndex}
      {tGroup tIndex : List Token} (module : tModule.kind = .ident)
      (group : indexed = false ∧ tGroup = [] ∨ indexed = true ∧ GroupWritten (.mark .lbracket) tGroup)
      (dot : tDot.kind = .mark .dot) (ident : tGate.kind = .ident)
      (gateIndex : IndexWritten index tIndex) :
      GateRef.Written ⟨some tModule.text, indexed, tGate.text, index⟩
        (tModule :: (tGroup ++ tDot :: tGate :: tIndex))

/-- The kinds that end the expression of a channel: those of any such expression, and those that end a
connection. -/
def channelStops : List Kind :=
  [.mark .gt, .mark .semicolon, .mark .comma, .keyword .ifWord]

inductive ChannelSpec.Written : Rule ChannelSpec
  | mk {c : ChannelSpec} {tLabel tLike tType tBody : List Token}
      (label : tLabel = [] ∨
        ∃ t u : Token, t.kind = .ident ∧ u.kind = .mark .colon ∧ tLabel = [t, u])
      (like : Perhaps (LikeWritten channelStops) c.like tLike)
      (type : Perhaps TypeRef.Written c.type tType)
      (body : tBody = [] ∨ GroupWritten (.mark .lbrace) tBody)
      (interface : c.like.isSome = true → c.type.isSome = true) :
      ChannelSpec.Written c (tLabel ++ (tLike ++ (tType ++ tBody)))

/-- A channel and the arrow behind it. -/
inductive ChannelBetween : Rule ChannelSpec
  | mk {c : ChannelSpec} {ts : List Token} {tArrow : Token} (channel : c.Written ts)
      (arrow : tArrow.kind.isArrow = true) : ChannelBetween c (ts ++ [tArrow])

/-- The ends of a connection, source first, by the arrow between them. -/
def Connection.oriented (k : Kind) (left right : GateRef) : GateRef × GateRef × Arrow :=
  if k = .mark .leftArrow then (right, left, .unidirectional)
  else if k = .mark .biArrow then (left, right, .bidirectional)
  else (left, right, .unidirectional)

inductive Connection.Written : Rule Connection
  | mk {c : Connection} {left right : GateRef} {tLeft tChannel tRight tCondition : List Token}
      {tArrow tEnd : Token} {given : Option String}
      (leftEnd : left.Written tLeft) (arrow : tArrow.kind.isArrow = true)
      (channel : Perhaps ChannelBetween c.channel tChannel) (rightEnd : right.Written tRight)
      (condition : Perhaps (After (.keyword .ifWord) (ExprWritten [.mark .semicolon, .mark .comma])) given
        tCondition)
      (ends : tEnd.kind = .mark .semicolon ∨ tEnd.kind = .mark .comma)
      (joins : (c.src, c.dest, c.arrow) = Connection.oriented tArrow.kind left right) :
      Connection.Written c
        (tLeft ++ tArrow :: (tChannel ++ (tRight ++ (tCondition ++ [tEnd]))))

mutual

/-- A connection or a loop over connections, which counts as its connections. -/
inductive LinkWritten : List Connection → List Token → Prop
  | connection {c : Connection} {ts : List Token} (written : c.Written ts) : LinkWritten [c] ts
  | loop {tFor o c : Token} {cs : List Connection} {header : String} {tHeader ts tEnd : List Token}
      {ended : Bool} (word : tFor.kind = .keyword .forWord)
      (head : ExprWritten [.mark .lbrace, .mark .semicolon] header tHeader)
      (opening : o.kind = .mark .lbrace) (links : LinksWritten cs ts)
      (closing : c.kind = .mark .rbrace) (ends : Flag (.mark .semicolon) ended tEnd) :
      LinkWritten cs (tFor :: (tHeader ++ o :: (ts ++ c :: tEnd)))

inductive LinksWritten : List Connection → List Token → Prop
  | nil : LinksWritten [] []
  | cons {cs ds : List Connection} {ts us : List Token} (first : LinkWritten cs ts)
      (rest : LinksWritten ds us) : LinksWritten (cs ++ ds) (ts ++ us)

end

/-! ### Declarations and files -/

/-- What the body of a type says. -/
structure TypeContent where
  params : List Param := []
  gates : List Gate := []
  types : List TypeDecl := []
  submodules : List Submodule := []
  connections : List Connection := []
  allowUnconnected : Bool := false
  properties : List Property := []

/-- What a declaration says, its head apart. -/
def TypeDecl.content (t : TypeDecl) : TypeContent :=
  ⟨t.params, t.gates, t.types, t.submodules, t.connections, t.allowUnconnected, t.properties⟩

mutual

/-- A type declaration. Its properties are those before the body and those in it. -/
inductive TypeDecl.Written : TypeDecl → List Token → Prop
  | mk {t : TypeDecl} {tWord tName : Token} {tBases tInterfaces tProperties tBody : List Token}
      {first : List Property} {c : TypeContent}
      (word : tWord.kind.isTypeWord = true) (kind : Parser.typeKind tWord.kind = t.kind)
      (ident : tName.kind = .ident) (name : tName.text = t.name)
      (bases : Clause (After (.keyword .extendsWord) (SepBy (.mark .comma) TypeRef.Written)) t.bases
        tBases)
      (interfaces : Clause (After (.keyword .like) (SepBy (.mark .comma) TypeRef.Written))
        t.interfaces tInterfaces)
      (properties : Many Property.Written first tProperties) (body : TypeBody c tBody)
      (holds : t.content = { c with properties := first ++ c.properties }) :
      TypeDecl.Written t (tWord :: tName :: (tBases ++ (tInterfaces ++ (tProperties ++ tBody))))

/-- The body of a type, as `BodyWritten` has it. -/
inductive TypeBody : TypeContent → List Token → Prop
  | absent {t : Token} (ends : t.kind = .mark .semicolon) : TypeBody {} [t]
  | given {content : TypeContent} {o c : Token} {ts tEnd : List Token} {ended : Bool}
      (opening : o.kind = .mark .lbrace) (body : TypeContent.Written .parameters content ts)
      (closing : c.kind = .mark .rbrace) (ends : Flag (.mark .semicolon) ended tEnd) :
      TypeBody content (o :: (ts ++ c :: tEnd))

/-- The body of a type, from a place in a section on. -/
inductive TypeContent.Written : BodySection → TypeContent → List Token → Prop
  | nil {sec : BodySection} : TypeContent.Written sec {} []
  | header {sec opened : BodySection} {allow : Bool} {c : TypeContent} {ts us : List Token}
      (header : HeaderWritten opened allow ts) (rest : TypeContent.Written opened c us) :
      TypeContent.Written sec { c with allowUnconnected := allow || c.allowUnconnected } (ts ++ us)
  | param {c : TypeContent} {p : Param} {ts us : List Token} (param : p.Written ts)
      (rest : TypeContent.Written .parameters c us) :
      TypeContent.Written .parameters { c with params := p :: c.params } (ts ++ us)
  | property {sec : BodySection} {c : TypeContent} {p : Property} {ts us : List Token}
      (place : sec = .parameters ∨ sec = .types) (property : PropertyStatement p ts)
      (rest : TypeContent.Written sec c us) :
      TypeContent.Written sec { c with properties := p :: c.properties } (ts ++ us)
  | gate {c : TypeContent} {g : Gate} {ts us : List Token} (gate : g.Written ts)
      (rest : TypeContent.Written .gates c us) :
      TypeContent.Written .gates { c with gates := g :: c.gates } (ts ++ us)
  | type {c : TypeContent} {t : TypeDecl} {ts us : List Token} (type : TypeDecl.Written t ts)
      (rest : TypeContent.Written .types c us) :
      TypeContent.Written .types { c with types := t :: c.types } (ts ++ us)
  | submodule {c : TypeContent} {s : Submodule} {ts us : List Token} (submodule : s.Written ts)
      (rest : TypeContent.Written .submodules c us) :
      TypeContent.Written .submodules { c with submodules := s :: c.submodules } (ts ++ us)
  | link {c : TypeContent} {cs : List Connection} {ts us : List Token} (link : LinkWritten cs ts)
      (rest : TypeContent.Written .connections c us) :
      TypeContent.Written .connections { c with connections := cs ++ c.connections } (ts ++ us)

end

/-- Identifiers, points and stars. -/
structure ImportWritten (text : String) (ts : List Token) : Prop extends SliceWritten text ts where
  parts : ∀ t ∈ ts, isImportPart t.kind = true

/-- A word, a text that is kept, and a semicolon. -/
inductive StatementWritten (k : Kind) (W : Rule String) : Rule String
  | mk {tWord tEnd : Token} {text : String} {ts : List Token} (word : tWord.kind = k)
      (kept : W text ts) (ends : tEnd.kind = .mark .semicolon) :
      StatementWritten k W text (tWord :: (ts ++ [tEnd]))

/-- A file: its package at most once, and all else in any order. -/
inductive Tree.Written : Rule Tree
  | nil {n : Nat} : Tree.Written { nextNode := n } []
  | package {t : Tree} {p : PackageDecl} {ts us : List Token}
      (package : StatementWritten (.keyword .package) NameWritten p.name ts) (once : t.package = none)
      (rest : Tree.Written t us) : Tree.Written { t with package := some p } (ts ++ us)
  | importDecl {t : Tree} {i : ImportDecl} {ts us : List Token}
      (spec : StatementWritten (.keyword .importWord) ImportWritten i.spec ts) (rest : Tree.Written t us) :
      Tree.Written { t with imports := i :: t.imports } (ts ++ us)
  | property {t : Tree} {p : Property} {ts us : List Token} (property : PropertyStatement p ts)
      (rest : Tree.Written t us) :
      Tree.Written { t with properties := p :: t.properties } (ts ++ us)
  | type {t : Tree} {d : TypeDecl} {ts us : List Token} (type : d.Written ts)
      (rest : Tree.Written t us) : Tree.Written { t with types := d :: t.types } (ts ++ us)

end NedWorkspace
