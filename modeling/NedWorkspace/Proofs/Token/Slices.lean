/-
# Tokens as slices of their text

From the beginning of a token to the end of the same or a later one there is a slice of the text, and it is
the text of the tokens in between with all that stands between them (`tokenize_slice`).

A token that is no error has no blank at either end, and a quote there only if it is a string, which has
one at both (`edged_of_mem`, `exists_quoted`).
-/

import NedWorkspace.Proofs.Text.Slice
import NedWorkspace.Proofs.Token.Longest

namespace NedWorkspace

open scoped Computability

namespace Scan

variable {offset : Nat} {cs word rest : List Char} {before after ts : List Token} {t : Token}

namespace Tiles

/-- The tokens behind others are those of the rest of the text. -/
theorem append (h : Tiles offset cs (before ++ after)) :
    ∃ rest, cs = before.flatMap Token.chars ++ rest ∧
      Tiles (offset + Text.byteLength (before.flatMap Token.chars)) rest after := by
  induction before generalizing offset cs with
  | nil => exact ⟨cs, rfl, h⟩
  | cons t before ih =>
    cases h with
    | @cons _ gap word rest _ _ hlead htext _ _ _ hstart hstop hrest =>
      obtain ⟨behind, rfl, hbehind⟩ := ih hrest
      refine ⟨behind, ?_, ?_⟩
      · rw [List.flatMap_cons, Token.chars, hlead, htext, List.append_assoc, List.append_assoc]
      · rw [List.flatMap_cons, Token.chars, hlead, htext, Text.byteLength_append, Text.byteLength_append,
          ← Nat.add_assoc, ← Nat.add_assoc, ← hstart, ← hstop]
        exact hbehind

/-- Where the first token begins. -/
theorem start_eq (h : Tiles offset cs (t :: ts)) : t.start = offset + Text.byteLength t.lead.toList := by
  cases h with
  | cons hlead _ _ _ _ hstart _ _ => rw [hlead, hstart]

/-- Where a token ends. -/
theorem stop_eq (h : Tiles offset cs (before ++ t :: after)) :
    t.stop = offset + Text.byteLength ((before ++ [t]).flatMap Token.chars) := by
  obtain ⟨rest, -, hrest⟩ := h.append
  cases hrest with
  | cons hlead htext _ _ _ hstart hstop _ =>
    rw [hstop, hstart, List.flatMap_append, List.flatMap_singleton, Token.chars, hlead, htext,
      Text.byteLength_append, Text.byteLength_append]
    omega

end Tiles

/-! ### The ends of a token -/

/-- A word of a class has no blank at either end, and no quote unless it is a string. -/
theorem endOf_words {kind : Kind} (h : word ∈ words kind) (htrivia : kind.isTrivia = false) :
    ∀ d, word.head? = some d ∨ word.getLast? = some d → EndOf kind d := by
  cases word with
  | nil => exact absurd h nil_not_mem_words
  | cons c cs =>
    obtain ⟨n, hfit, hle⟩ := (finds_patternOf kind (c :: cs)).complete _ h List.prefix_rfl
    have hn : n = (c :: cs).length :=
      Nat.le_antisymm ((finds_patternOf kind (c :: cs)).sound n hfit).1 hle
    exact endOf_fit (hfit.trans (congrArg some hn)) htrivia

/-- A string has a quote at both ends, and these are two. -/
theorem exists_quoted (h : word ∈ words .string) : ∃ inner, word = '"' :: (inner ++ ['"']) := by
  obtain ⟨c, v, hc, hv, rfl⟩ := mem_one_mul.mp h
  obtain ⟨inner, -, w, ⟨d, hd, rfl⟩, rfl⟩ := Language.mem_mul.mp hv
  exact ⟨inner, by rw [beq_iff_eq.mp hc, beq_iff_eq.mp hd]⟩

/-- What is read as a lexeme of a class, other than an error, is a word of the class. -/
theorem Reads.mem_words {kind : Kind} (h : Reads kind word rest) (herror : kind ≠ .error) :
    word ∈ words kind := by
  cases h with
  | lexeme hword => exact hword
  | stray => exact absurd rfl herror
  | unclosed => exact absurd rfl herror

end Scan

variable {text : String} {t u : Token}

/-- What a token of a text reads, unless it is an error. -/
theorem mem_words_of_mem (h : t ∈ tokenize text) (herror : t.kind ≠ .error) :
    t.text.toList ∈ Scan.words t.kind := by
  obtain ⟨_, _, -, -, -, hreads⟩ := (tiles_tokenize text).exists_place h
  exact hreads.mem_words herror

/-- Blanks and comments are no tokens. -/
theorem not_isTrivia_of_mem (h : t ∈ tokenize text) : t.kind.isTrivia = false := by
  have htiles := tiles_tokenize text
  obtain ⟨before, after, hsplit⟩ := List.append_of_mem h
  rw [hsplit] at htiles
  obtain ⟨rest, -, htiles⟩ := htiles.append
  cases htiles with
  | cons _ _ _ hkind _ _ _ _ => exact Bool.eq_false_iff.mpr (mt Scan.isTrivia_iff.mp hkind)

/-- No token is empty. -/
theorem ne_nil_of_mem (h : t ∈ tokenize text) : t.text.toList ≠ [] := by
  obtain ⟨_, _, -, -, -, hreads⟩ := (tiles_tokenize text).exists_place h
  exact hreads.ne_nil

theorem edged_of_mem (h : t ∈ tokenize text) (herror : t.kind ≠ .error) : t.Edged :=
  ⟨ne_nil_of_mem h, Scan.endOf_words (mem_words_of_mem h herror) (not_isTrivia_of_mem h)⟩

/-- **From the beginning of a token to the end of a later one there is a slice of the text,** and it is the
text of these tokens and of those between them. -/
theorem tokenize_slice {before ts after : List Token} (h : tokenize text = before ++ (ts ++ after))
    (ht : ts.head? = some t) (hu : ts.getLast? = some u) :
    Text.slice? text t.start u.stop = some (Token.sourceText ts) := by
  have htiles := tiles_tokenize text
  rw [h] at htiles
  obtain ⟨rest, htext, hrest⟩ := htiles.append
  obtain ⟨behind, rfl, -⟩ := hrest.append
  obtain ⟨more, rfl⟩ := List.head?_eq_some_iff.mp ht
  have hstart : t.start = Text.byteLength (before.flatMap Token.chars ++ t.lead.toList) := by
    rw [List.cons_append] at hrest
    rw [hrest.start_eq, Text.byteLength_append, Nat.zero_add]
  have hchars : (t :: more).flatMap Token.chars = t.lead.toList ++ (Token.sourceText (t :: more)).toList := by
    rw [Token.toList_sourceText, List.flatMap_cons, Token.chars, List.append_assoc]
  have hstop : u.stop = Text.byteLength (before.flatMap Token.chars ++ t.lead.toList ++
      (Token.sourceText (t :: more)).toList) := by
    obtain ⟨inner, hinner⟩ := List.getLast?_eq_some_iff.mp hu
    rw [hinner, List.append_assoc, List.singleton_append, ← List.append_assoc] at htiles
    rw [htiles.stop_eq, List.append_assoc before, ← hinner, List.flatMap_append, hchars, Nat.zero_add,
      List.append_assoc]
  have hsplit : text.toList = (before.flatMap Token.chars ++ t.lead.toList) ++
      ((Token.sourceText (t :: more)).toList ++ behind) := by
    rw [htext, hchars]
    simp only [List.append_assoc]
  rw [hstart, hstop, Text.slice?_of_append hsplit, String.ofList_toList]

end NedWorkspace
