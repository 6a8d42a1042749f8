/-!
# Places in a text

An offset counts the bytes of the UTF-8 form of a text. A position is a line and a column, both
from zero, the column again in bytes. A `LineIndex` remembers where the lines of one text begin
and turns offsets into positions; an offset past the end lies on the last line.

* `Span.contains` is closed at both ends.
* `LineIndex.position` counts the line breaks at or before an offset.
-/

namespace NedWorkspace

/-- A line and a column, both from zero; columns count bytes. -/
structure Position where
  line : Nat := 0
  column : Nat := 0
deriving DecidableEq, Repr, Inhabited

/-- A stretch of text from one position to another. -/
structure Span where
  start : Position := {}
  stop : Position := {}
deriving DecidableEq, Repr, Inhabited

namespace Span

/-- Whether a position lies in the span, both ends included. -/
def contains (s : Span) (p : Position) : Bool :=
  decide (s.start.line ≤ p.line) && decide (p.line ≤ s.stop.line)
    && (p.line != s.start.line || decide (s.start.column ≤ p.column))
    && (p.line != s.stop.line || decide (p.column ≤ s.stop.column))

end Span

namespace Text

/-- The number of bytes that characters take in UTF-8. -/
def byteLength : List Char → Nat
  | [] => 0
  | c :: cs => c.utf8Size + byteLength cs

/-- Lengths add up. -/
theorem byteLength_append (a b : List Char) :
    byteLength (a ++ b) = byteLength a + byteLength b := by
  induction a with
  | nil => simp [byteLength]
  | cons c cs ih => simp [byteLength, ih, Nat.add_assoc]

end Text

/-- The offsets at which the lines of a text begin, the first line's 0 left out, ascending. Texts are taken to
be shorter than 2^32 bytes: then the offset behind a line feed, which is kept in 32 bits, does not wrap, and
offsets are plain numbers. -/
structure LineIndex where
  breaks : List Nat
deriving DecidableEq, Repr, Inhabited

namespace LineIndex

/-- The offsets just after each line feed, for characters that begin at `offset`. -/
def breaksFrom (offset : Nat) : List Char → List Nat
  | [] => []
  | c :: cs =>
    let next := offset + c.utf8Size
    if c = '\n' then next :: breaksFrom next cs else breaksFrom next cs

/-- The line index of a text. -/
def ofText (text : String) : LineIndex :=
  ⟨breaksFrom 0 text.toList⟩

/-- One line more than there are line feeds. -/
def lineCount (index : LineIndex) : Nat :=
  index.breaks.length + 1

/-- The line of an offset is the number of breaks at or before it; the column counts from the last
of them. -/
def position (index : LineIndex) (offset : Nat) : Position :=
  let before := index.breaks.takeWhile (· ≤ offset)
  ⟨before.length, offset - before.getLastD 0⟩

/-- The span between two offsets. -/
def span (index : LineIndex) (start stop : Nat) : Span :=
  ⟨index.position start, index.position stop⟩

end LineIndex

end NedWorkspace
