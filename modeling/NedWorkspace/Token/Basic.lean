/-
# Tokens of the NED language

SPEC_FULL, section 1: the parser's scope; section 10: lexing.

| class | examples |
| --- | --- |
| keyword | `simple`, `moduleinterface`, `allowunconnected` |
| identifier | `Queue`, `_x1`, and gate halves such as `g$i` |
| literal | `12`, `1.5e-3`, `"text"` |
| mark | `-->`, `++`, `;` |
| error | whatever starts none of the above |

A token also keeps the blanks and comments that stand right before it, so that the text of a run of
tokens can be put together again from the tokens alone.
-/

namespace NedWorkspace

/-- The reserved words. -/
inductive Keyword where
  | package | importWord | property
  | simple | module | network | channel | moduleInterface | channelInterface
  | extendsWord | like
  | parameters | gates | types | submodules | connections | allowUnconnected
  | input | output | inout
  | volatile | bool | int | double | string | xml | object
  | forWord | ifWord
deriving DecidableEq, Repr

namespace Keyword

/-- All reserved words. -/
def all : List Keyword :=
  [package, importWord, property, simple, module, network, channel, moduleInterface,
   channelInterface, extendsWord, like, parameters, gates, types, submodules, connections,
   allowUnconnected, input, output, inout, volatile, bool, int, double, string, xml, object,
   forWord, ifWord]

/-- How a reserved word is written. -/
def spelling : Keyword → String
  | package => "package"
  | importWord => "import"
  | property => "property"
  | simple => "simple"
  | module => "module"
  | network => "network"
  | channel => "channel"
  | moduleInterface => "moduleinterface"
  | channelInterface => "channelinterface"
  | extendsWord => "extends"
  | like => "like"
  | parameters => "parameters"
  | gates => "gates"
  | types => "types"
  | submodules => "submodules"
  | connections => "connections"
  | allowUnconnected => "allowunconnected"
  | input => "input"
  | output => "output"
  | inout => "inout"
  | volatile => "volatile"
  | bool => "bool"
  | int => "int"
  | double => "double"
  | string => "string"
  | xml => "xml"
  | object => "object"
  | forWord => "for"
  | ifWord => "if"

/-- All keywords are listed. -/
theorem mem_all (k : Keyword) : k ∈ all := by
  cases k <;> decide

end Keyword

/-- The punctuation marks. -/
inductive Mark where
  | rightArrow | leftArrow | biArrow
  | plusPlus | starStar | dotDot | eqEq | bangEq | ltEq | gtEq | ampAmp | pipePipe | hashHash
  | shl | shr
  | lbrace | rbrace | lbracket | rbracket | lparen | rparen
  | semicolon | colon | dot | comma | eq | lt | gt | atSign | hash | star | plus | minus | slash
  | percent | caret | amp | pipe | tilde | question | bang | dollar
deriving DecidableEq, Repr

namespace Mark

/-- All punctuation marks. -/
def all : List Mark :=
  [rightArrow, leftArrow, biArrow, plusPlus, starStar, dotDot, eqEq, bangEq, ltEq, gtEq, ampAmp,
   pipePipe, hashHash, shl, shr, lbrace, rbrace, lbracket, rbracket, lparen, rparen, semicolon,
   colon, dot, comma, eq, lt, gt, atSign, hash, star, plus, minus, slash, percent, caret, amp, pipe,
   tilde, question, bang, dollar]

/-- How a mark is written. -/
def spelling : Mark → String
  | rightArrow => "-->"
  | leftArrow => "<--"
  | biArrow => "<-->"
  | plusPlus => "++"
  | starStar => "**"
  | dotDot => ".."
  | eqEq => "=="
  | bangEq => "!="
  | ltEq => "<="
  | gtEq => ">="
  | ampAmp => "&&"
  | pipePipe => "||"
  | hashHash => "##"
  | shl => "<<"
  | shr => ">>"
  | lbrace => "\x7b"
  | rbrace => "\x7d"
  | lbracket => "["
  | rbracket => "]"
  | lparen => "("
  | rparen => ")"
  | semicolon => ";"
  | colon => ":"
  | dot => "."
  | comma => ","
  | eq => "="
  | lt => "<"
  | gt => ">"
  | atSign => "@"
  | hash => "#"
  | star => "*"
  | plus => "+"
  | minus => "-"
  | slash => "/"
  | percent => "%"
  | caret => "^"
  | amp => "&"
  | pipe => "|"
  | tilde => "~"
  | question => "?"
  | bang => "!"
  | dollar => "$"

theorem mem_all (m : Mark) : m ∈ all := by
  cases m <;> decide

end Mark

/-- The classes of lexemes. Blanks and comments are lexemes but not tokens. -/
inductive Kind where
  | blank
  | comment
  | keyword (word : Keyword)
  | ident
  | integer
  | real
  | string
  | mark (mark : Mark)
  | error
deriving DecidableEq, Repr

namespace Kind

/-- Blanks and comments separate tokens and are none. -/
def isTrivia : Kind → Bool
  | blank | comment => true
  | _ => false

/-- The three connection arrows. -/
def isArrow : Kind → Bool
  | mark .rightArrow | mark .leftArrow | mark .biArrow => true
  | _ => false

/-- The words that begin a type declaration. -/
def isTypeWord : Kind → Bool
  | keyword .simple | keyword .module | keyword .network | keyword .channel
  | keyword .moduleInterface | keyword .channelInterface => true
  | _ => false

/-- An opening bracket of any shape. -/
def isOpening : Kind → Bool
  | mark .lparen | mark .lbracket | mark .lbrace => true
  | _ => false

/-- A closing bracket of any shape. -/
def isClosing : Kind → Bool
  | mark .rparen | mark .rbracket | mark .rbrace => true
  | _ => false

end Kind

/-- A token with the offsets of its two ends and the blanks and comments before it. -/
structure Token where
  kind : Kind
  text : String
  start : Nat
  stop : Nat
  lead : String := ""
deriving DecidableEq, Repr

end NedWorkspace
