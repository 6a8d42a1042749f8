/-
# Slices of a text

Offsets in a text count bytes, and not every offset is the end of a character. A slice goes from one offset
to another, and there is none if one of them is outside the text or inside a character (`Text.slice?`). Where
a text is put together from characters there is one (`Text.slice?_of_append`).
-/

import Mathlib.Data.String.Basic
import NedWorkspace.Text.Position

namespace NedWorkspace

namespace Text

/-- The part of a text between two offsets in bytes, unless one of them is outside the text or inside a
character, or the second is before the first. -/
def slice? (text : String) (start stop : Nat) : Option String :=
  if start ≤ stop ∧ String.Pos.Raw.isValid text ⟨start⟩ = true ∧ String.Pos.Raw.isValid text ⟨stop⟩ = true then
    some (String.Pos.Raw.extract text ⟨start⟩ ⟨stop⟩)
  else none

theorem byteLength_eq_utf8Len (cs : List Char) : byteLength cs = String.utf8Len cs := by
  induction cs with
  | nil => rfl
  | cons c cs ih => rw [byteLength, ih, String.utf8Len_cons, Nat.add_comm]

/-- The length in bytes is that of the encoding. -/
theorem byteLength_toList (text : String) : byteLength text.toList = text.utf8ByteSize := by
  rw [byteLength_eq_utf8Len, String.utf8Len_toList]

/-- The end of the first part of a text is a good offset. -/
theorem isValid_byteLength {text : String} {before after : List Char} (h : text.toList = before ++ after) :
    String.Pos.Raw.isValid text ⟨byteLength before⟩ = true := by
  rw [String.Pos.Raw.isValid_eq_true_iff, String.Pos.Raw.isValid_iff_exists_append]
  refine ⟨String.ofList before, String.ofList after, ?_, ?_⟩
  · rw [← String.ofList_append, ← h, String.ofList_toList]
  · rw [← String.toList_ofList (l := before), byteLength_toList, String.toList_ofList]
    rfl

/-- A text between two others is the slice between its offsets. -/
theorem slice?_of_append {text : String} {before word after : List Char}
    (h : text.toList = before ++ (word ++ after)) :
    slice? text (byteLength before) (byteLength (before ++ word)) = some (String.ofList word) := by
  have hstart := isValid_byteLength h
  have hsplit : text.toList = (before ++ word) ++ after := by rw [h, List.append_assoc]
  have hstop := isValid_byteLength hsplit
  have hle : byteLength before ≤ byteLength (before ++ word) := by
    rw [byteLength_append]
    exact Nat.le_add_right _ _
  have hextract := String.extract_of_valid before word after
  rw [List.append_assoc, ← h, String.ofList_toList] at hextract
  rw [slice?, if_pos ⟨hle, hstart, hstop⟩, byteLength_append, byteLength_eq_utf8Len, byteLength_eq_utf8Len,
    hextract]

end Text

end NedWorkspace
