/-
# The order of positions

SPEC_FULL, section 4.1: 0-based positions.

Positions are ordered by line and then by column, and a span contains what lies between its ends
(`Span.contains_iff`). Going on in a text goes on in this order (`LineIndex.position_lt`): the line of an
offset counts the breaks up to it, and on one line the column grows with the offset. So positions may stand
for offsets, also in spans (`LineIndex.contains_span_iff`). Every offset is on a line that begins somewhere,
and not behind it (`LineIndex.exists_lineStart`).
-/

import Mathlib.Data.List.TakeWhile
import Mathlib.Logic.Function.Defs
import NedWorkspace.Text.Position

namespace NedWorkspace

namespace Position

/-- Earlier lines come first, and on one line smaller columns. -/
instance : LE Position where
  le p q := p.line < q.line ∨ p.line = q.line ∧ p.column ≤ q.column

instance : LT Position where
  lt p q := p.line < q.line ∨ p.line = q.line ∧ p.column < q.column

/-- A position is before another by its line, or by its column in the same line. -/
theorem le_iff {p q : Position} : p ≤ q ↔ p.line < q.line ∨ p.line = q.line ∧ p.column ≤ q.column :=
  Iff.rfl

/-- A position is strictly before another by its line, or by its column in the same line. -/
theorem lt_iff {p q : Position} : p < q ↔ p.line < q.line ∨ p.line = q.line ∧ p.column < q.column :=
  Iff.rfl

theorem le_refl (p : Position) : p ≤ p :=
  .inr ⟨rfl, Nat.le_refl _⟩

theorem le_trans {p q r : Position} (hpq : p ≤ q) (hqr : q ≤ r) : p ≤ r := by
  rw [le_iff] at *
  omega

theorem le_of_lt {p q : Position} (h : p < q) : p ≤ q := by
  rw [le_iff]
  rw [lt_iff] at h
  omega

theorem not_le {p q : Position} : ¬p ≤ q ↔ q < p := by
  rw [le_iff, lt_iff]
  omega

end Position

namespace Span

variable {s t u : Span} {p : Position}

/-- A span contains the positions between its ends, both included. -/
theorem contains_iff : s.contains p = true ↔ s.start ≤ p ∧ p ≤ s.stop := by
  unfold contains
  simp only [Bool.and_eq_true, Bool.or_eq_true, decide_eq_true_eq, bne_iff_ne, Position.le_iff]
  omega

/-- One span lies within another. -/
structure Within (s t : Span) : Prop where
  start : t.start ≤ s.start
  stop : s.stop ≤ t.stop

/-- What a span contains is contained in a span around it. -/
theorem Within.contains (h : s.Within t) (hp : s.contains p = true) : t.contains p = true := by
  rw [contains_iff] at *
  exact ⟨Position.le_trans h.start hp.1, Position.le_trans hp.2 h.stop⟩

end Span

namespace LineIndex

/-- Fewer of the first elements are below a smaller bound. -/
theorem prefix_takeWhile_le {a b : Nat} (h : a ≤ b) (ns : List Nat) :
    ns.takeWhile (· ≤ a) <+: ns.takeWhile (· ≤ b) := by
  induction ns with
  | nil => exact List.prefix_refl _
  | cons n ns ih =>
    by_cases ha : n ≤ a
    · have hb : n ≤ b := Nat.le_trans ha h
      simpa [List.takeWhile_cons, ha, hb] using ih
    · simp [List.takeWhile_cons, ha]

variable (lines : LineIndex)

/-- Where the line of an offset begins. -/
def lineStart (offset : Nat) : Nat :=
  (lines.breaks.takeWhile (· ≤ offset)).getLastD 0

/-- A line begins before every offset in it. -/
theorem lineStart_le (offset : Nat) : lines.lineStart offset ≤ offset := by
  rcases List.mem_cons.mp (List.getLastD_mem_cons (l := lines.breaks.takeWhile (· ≤ offset)) (a := 0)) with
    hzero | hbreak
  · rw [lineStart, hzero]
    exact Nat.zero_le _
  · have hle := List.mem_takeWhile_imp hbreak
    exact of_decide_eq_true hle

/-- A column counts from the beginning of its line. -/
theorem lineStart_add_column (offset : Nat) :
    lines.lineStart offset + (lines.position offset).column = offset :=
  Nat.add_sub_cancel' (lines.lineStart_le offset)

/-- The line number of an offset is the place of its beginning among those of all lines. -/
theorem getElem?_lineStart (offset : Nat) :
    (0 :: lines.breaks)[(lines.position offset).line]? = some (lines.lineStart offset) := by
  obtain ⟨after, hafter⟩ := List.takeWhile_prefix (fun b => decide (b ≤ offset)) (l := lines.breaks)
  unfold position lineStart
  generalize lines.breaks.takeWhile (fun b => decide (b ≤ offset)) = before at hafter
  have hlast : (0 :: before).getLast? = some (before.getLastD 0) := by
    rw [List.getLast?_cons, List.getLastD_eq_getLast?]
  rw [← hafter, ← List.cons_append, List.getElem?_append_left (by simp), ← hlast,
    List.getLast?_eq_getElem?, List.length_cons, Nat.add_sub_cancel]

/-- **The line of an offset begins somewhere,** and not behind the offset. -/
theorem exists_lineStart (offset : Nat) :
    ∃ start, (0 :: lines.breaks)[(lines.position offset).line]? = some start ∧ start ≤ offset :=
  ⟨_, lines.getElem?_lineStart offset, lines.lineStart_le offset⟩

/-- **A later offset has a later position.** -/
theorem position_lt {a b : Nat} (h : a < b) : lines.position a < lines.position b := by
  have hbefore := prefix_takeWhile_le (Nat.le_of_lt h) lines.breaks
  rcases Nat.lt_or_eq_of_le hbefore.length_le with hlt | heq
  · exact .inl hlt
  · have hsame : lines.lineStart a = lines.lineStart b :=
      congrArg (List.getLastD · 0) (hbefore.eq_of_length heq)
    have ha := lines.lineStart_add_column a
    have hb := lines.lineStart_add_column b
    refine .inr ⟨heq, ?_⟩
    omega

/-- Positions are in the order of their offsets. -/
theorem position_mono {a b : Nat} (h : a ≤ b) : lines.position a ≤ lines.position b := by
  rcases Nat.lt_or_eq_of_le h with hlt | rfl
  · exact Position.le_of_lt (lines.position_lt hlt)
  · exact Position.le_refl _

theorem position_le_position {a b : Nat} : lines.position a ≤ lines.position b ↔ a ≤ b :=
  ⟨fun h => Nat.le_of_not_lt fun hlt => Position.not_le.mpr (lines.position_lt hlt) h, lines.position_mono⟩

/-- Positions are in the strict order of their offsets. -/
theorem position_lt_position {a b : Nat} : lines.position a < lines.position b ↔ a < b := by
  rw [← Position.not_le, position_le_position, Nat.not_le]

/-- Different offsets have different positions. -/
theorem position_injective : Function.Injective lines.position := by
  intro a b hab
  have hle : lines.position a ≤ lines.position b := hab ▸ Position.le_refl _
  have hge : lines.position b ≤ lines.position a := hab ▸ Position.le_refl _
  exact Nat.le_antisymm (lines.position_le_position.mp hle) (lines.position_le_position.mp hge)

/-- A span between two offsets contains the positions of the offsets between them and no others. -/
theorem contains_span_iff {a b offset : Nat} :
    (lines.span a b).contains (lines.position offset) = true ↔ a ≤ offset ∧ offset ≤ b := by
  rw [Span.contains_iff]
  exact and_congr lines.position_le_position lines.position_le_position

/-- A span inside of another in bytes is inside of it in lines and columns. -/
theorem span_within {a b c d : Nat} (hstart : a ≤ b) (hstop : c ≤ d) :
    (lines.span b c).Within (lines.span a d) :=
  ⟨lines.position_mono hstart, lines.position_mono hstop⟩

end LineIndex

end NedWorkspace
