/-
# Reading tokens

A `Cursor` is a place in a token sequence together with what reading has produced so far besides its
result: node numbers given out and errors noted. A `Parser` is a step from one cursor to a later one:
it never gives tokens back, never takes back a node number and never forgets an error, and its type
says so (`Cursor.Reaches`). Loops over parsers can therefore count the tokens that are left.

* `Parser.sepBy` reads items with a separator between them.
* `Parser.manyWhile` reads items as long as the next token allows one.
-/

import NedWorkspace.Syntax.Tree
import NedWorkspace.Token.Basic

namespace NedWorkspace

/-- A mistake in the text, with its place in bytes and as a span. -/
structure SyntaxError where
  message : String
  start : Nat
  stop : Nat
  span : Span
deriving DecidableEq, Repr

namespace SyntaxError

/-- The error on one line, with line and column counted from one. -/
def render (e : SyntaxError) : String :=
  toString (e.span.start.line + 1) ++ ":" ++ toString (e.span.start.column + 1) ++ ": " ++ e.message

end SyntaxError

/-- What a cursor knows of the text besides its tokens: its length in bytes and its lines. -/
structure TextFrame where
  size : Nat
  lines : LineIndex

/-- A place in a token sequence. -/
structure Cursor where
  frame : TextFrame
  /-- The tokens not taken yet. -/
  rest : List Token
  /-- Where the last token taken ends. -/
  lastStop : Nat := 0
  /-- The number of the next node. -/
  nextNode : Nat := 1
  /-- The errors so far, the first one first. -/
  errors : List SyntaxError := []

namespace Cursor

/-- A later cursor of the same text. -/
structure Reaches (s t : Cursor) : Prop where
  frame : t.frame = s.frame
  rest : t.rest <:+ s.rest
  nextNode : s.nextNode ≤ t.nextNode
  errors : s.errors <+: t.errors

namespace Reaches

theorem refl (s : Cursor) : s.Reaches s :=
  ⟨rfl, List.suffix_refl _, Nat.le_refl _, List.prefix_refl _⟩

theorem trans {s t u : Cursor} (h : s.Reaches t) (k : t.Reaches u) : s.Reaches u :=
  ⟨k.frame.trans h.frame, k.rest.trans h.rest, Nat.le_trans h.nextNode k.nextNode,
    h.errors.trans k.errors⟩

/-- A cursor that goes on has no more tokens ahead. -/
theorem length_le {s t : Cursor} (h : s.Reaches t) : t.rest.length ≤ s.rest.length :=
  h.rest.length_le

end Reaches

/-- The kind of the next token. -/
def kind? (s : Cursor) : Option Kind :=
  s.rest.head?.map Token.kind

/-- The kind of the token after the next. -/
def secondKind? (s : Cursor) : Option Kind :=
  s.rest[1]?.map Token.kind

/-- Where the next token begins, or the end of the text. -/
def start (s : Cursor) : Nat :=
  match s.rest with
  | [] => s.frame.size
  | t :: _ => t.start

/-- The cursor after the next token, if there is one. -/
def next (s : Cursor) : Cursor :=
  match s.rest with
  | [] => s
  | t :: ts => { s with rest := ts, lastStop := t.stop }

/-- The cursor after the next `n` tokens, or as many as there are. -/
def skip (s : Cursor) : Nat → Cursor
  | 0 => s
  | n + 1 => s.next.skip n

/-- The cursor with one error more, placed at the next token or at the end of the text. -/
def complain (s : Cursor) (message : String) : Cursor :=
  let range := match s.rest with
    | [] => (s.frame.size, s.frame.size)
    | t :: _ => (t.start, t.stop)
  { s with errors := s.errors ++
      [⟨message, range.1, range.2, s.frame.lines.span range.1 range.2⟩] }

/-- The error for a missing piece names what stands there instead. -/
def complainExpected (s : Cursor) (what : String) : Cursor :=
  let found := match s.rest with
    | [] => "end of file"
    | t :: _ => "'" ++ t.text ++ "'"
  s.complain ("expected " ++ what ++ ", found " ++ found)

/-- The span from an offset to the end of the last token, or an empty one if no token was taken. -/
def spanFrom (s : Cursor) (start : Nat) : Span :=
  s.frame.lines.span start (max s.lastStop start)

theorem reaches_next (s : Cursor) : s.Reaches s.next := by
  unfold next
  split
  · exact .refl s
  · rename_i t ts h
    exact ⟨rfl, h ▸ List.suffix_cons t ts, Nat.le_refl _, List.prefix_refl _⟩

/-- To skip tokens is to go on. -/
theorem reaches_skip (s : Cursor) (n : Nat) : s.Reaches (s.skip n) := by
  induction n generalizing s with
  | zero => exact .refl s
  | succ n ih => exact s.reaches_next.trans (ih s.next)

theorem reaches_complain (s : Cursor) (message : String) : s.Reaches (s.complain message) :=
  ⟨rfl, List.suffix_refl _, Nat.le_refl _, List.prefix_append _ _⟩

theorem reaches_complainExpected (s : Cursor) (what : String) :
    s.Reaches (s.complainExpected what) :=
  reaches_complain _ _

/-- A cursor that sees a kind is not at the end. -/
theorem rest_ne_nil_of_kind? {s : Cursor} {k : Kind} (h : s.kind? = some k) : s.rest ≠ [] := by
  intro hnil
  simp [kind?, hnil] at h

/-- Taking a token leaves one token fewer. -/
theorem length_next_lt {s : Cursor} (h : s.rest ≠ []) : s.next.rest.length < s.rest.length := by
  unfold next
  split
  · contradiction
  · rename_i h; simp [h]

end Cursor

/-- A step from a cursor to a later one, with a result. -/
structure Parser (α : Type) where
  run : Cursor → α × Cursor
  reaches : ∀ s : Cursor, s.Reaches (run s).2

namespace Parser

variable {α β : Type}

instance : Monad Parser where
  pure a := ⟨fun s => (a, s), fun s => .refl s⟩
  bind p f := ⟨fun s => (f (p.run s).1).run (p.run s).2,
    fun s => (p.reaches s).trans ((f (p.run s).1).reaches _)⟩

@[simp] theorem run_pure (a : α) (s : Cursor) : (pure a : Parser α).run s = (a, s) := rfl

@[simp] theorem run_bind (p : Parser α) (f : α → Parser β) (s : Cursor) :
    (p >>= f).run s = (f (p.run s).1).run (p.run s).2 := rfl

/-- Something read off the cursor. -/
def look (f : Cursor → α) : Parser α :=
  ⟨fun s => (f s, s), fun s => .refl s⟩

/-- The kind of the next token. -/
def kind? : Parser (Option Kind) :=
  look Cursor.kind?

/-- Whether the next token has the given kind. -/
def at? (k : Kind) : Parser Bool :=
  look fun s => s.kind? == some k

/-- Where the next token begins. -/
def start : Parser Nat :=
  look Cursor.start

/-- The span from an offset to here. -/
def spanFrom (start : Nat) : Parser Span :=
  look (·.spanFrom start)

/-- Takes the next token, if there is one. -/
def skipOne : Parser Unit :=
  ⟨fun s => ((), s.next), Cursor.reaches_next⟩

/-- A parser that takes a token first leaves fewer tokens. -/
theorem length_run_skipOne_bind_lt (f : Unit → Parser α) {s : Cursor} (h : s.rest ≠ []) :
    ((skipOne >>= f).run s).2.rest.length < s.rest.length :=
  Nat.lt_of_le_of_lt ((f ()).reaches s.next).length_le (Cursor.length_next_lt h)

/-- Takes as many tokens as `count` says of those that are left, and returns them. -/
def takeCounted (count : List Token → Nat) : Parser (List Token) :=
  ⟨fun s => (s.rest.take (count s.rest), s.skip (count s.rest)),
    fun s => s.reaches_skip (count s.rest)⟩

/-- Takes the next token if it has the given kind, and says whether it did. -/
def eat (k : Kind) : Parser Bool := do
  if ← at? k then
    skipOne
    return true
  else
    return false

/-- A fresh node number. -/
def newNode : Parser NodeId :=
  ⟨fun s => (s.nextNode, { s with nextNode := s.nextNode + 1 }),
    fun _ => ⟨rfl, List.suffix_refl _, Nat.le_succ _, List.prefix_refl _⟩⟩

/-- Notes an error at the next token. -/
def complain (message : String) : Parser Unit :=
  ⟨fun s => ((), s.complain message), fun s => s.reaches_complain message⟩

/-- Notes that something is missing at the next token. -/
def complainExpected (what : String) : Parser Unit :=
  ⟨fun s => ((), s.complainExpected what), fun s => s.reaches_complainExpected what⟩

/-- Takes a token of the given kind or notes that it is missing. -/
def expect (k : Kind) (what : String) : Parser Bool := do
  if ← eat k then
    return true
  else
    complainExpected what
    return false

/-- Takes an identifier and returns its text, or notes that it is missing. -/
def expectIdent (what : String) : Parser (Option String) := do
  match ← look (fun s => s.rest.head?) with
  | some t =>
    if t.kind = .ident then
      skipOne
      return some t.text
    else
      complainExpected what
      return none
  | none =>
    complainExpected what
    return none

/-- Notes that something is missing and goes on behind the next token. -/
def passOver (what : String) : Parser Unit := do
  complainExpected what
  skipOne

/-- Passing over a token, after reading that may have taken some, leaves fewer tokens. -/
theorem length_run_passOver_lt (what : String) {s t : Cursor} (hs : s.rest ≠ [])
    (h : s.Reaches t) : ((passOver what).run t).2.rest.length < s.rest.length := by
  have hrun : ((passOver what).run t).2 = (t.complainExpected what).next := rfl
  rw [hrun]
  by_cases ht : t.rest = []
  · have : (t.complainExpected what).rest = [] := ht
    simp only [Cursor.next, this, List.length_nil]
    exact List.length_pos_iff.2 hs
  · exact Nat.lt_of_lt_of_le
      (Cursor.length_next_lt (s := t.complainExpected what) ht) h.length_le

/-- `sepBy` from a cursor. -/
def sepByFrom (sep : Kind) (item : Parser (Option α)) (s : Cursor) : List α × Cursor :=
  let r := item.run s
  match r.1 with
  | none => ([], r.2)
  | some a =>
    if r.2.kind? = some sep then
      let more := sepByFrom sep item r.2.next
      (a :: more.1, more.2)
    else ([a], r.2)
termination_by s.rest.length
decreasing_by
  rename_i h
  exact Nat.lt_of_lt_of_le (Cursor.length_next_lt (Cursor.rest_ne_nil_of_kind? h))
    (item.reaches s).length_le

/-- A list only moves on. -/
theorem reaches_sepByFrom (sep : Kind) (item : Parser (Option α)) (s : Cursor) :
    s.Reaches (sepByFrom sep item s).2 := by
  fun_induction sepByFrom sep item s with
  | case1 s r _ => exact item.reaches s
  | case2 s r a _ _ more ih => exact (item.reaches s).trans (r.2.reaches_next.trans ih)
  | case3 s r a _ _ => exact item.reaches s

/-- Items one after another, as long as `item` gives one and `sep` follows it. -/
def sepBy (sep : Kind) (item : Parser (Option α)) : Parser (List α) :=
  ⟨sepByFrom sep item, reaches_sepByFrom sep item⟩

/-- `manyWhile` from a cursor. -/
def manyWhileFrom (p : Kind → Bool) (item : Parser (Option α)) (s : Cursor) : List α × Cursor :=
  if s.kind?.any p then
    let r := item.run s
    if r.2.rest.length < s.rest.length then
      let more := manyWhileFrom p item r.2
      (r.1.toList ++ more.1, more.2)
    else (r.1.toList, r.2)
  else ([], s)
termination_by s.rest.length

/-- A repetition only moves on. -/
theorem reaches_manyWhileFrom (p : Kind → Bool) (item : Parser (Option α)) (s : Cursor) :
    s.Reaches (manyWhileFrom p item s).2 := by
  fun_induction manyWhileFrom p item s with
  | case1 s h r hlt more ih => exact (item.reaches s).trans ih
  | case2 s h r hlt => exact item.reaches s
  | case3 s h => exact .refl s

/-- Items as long as the kind of the next token satisfies `p`; an `item` that takes no token is the
last. -/
def manyWhile (p : Kind → Bool) (item : Parser (Option α)) : Parser (List α) :=
  ⟨manyWhileFrom p item, reaches_manyWhileFrom p item⟩

end Parser

end NedWorkspace
