/-
# Blanks and comments

Two texts whose tokens agree in kind and text are laid out differently at most. They have the same
mistakes, and their trees have the same shape and the same names. What a tree keeps as "opaque source
slices" (SPEC_FULL, section 1, parser scope) are the texts of the same runs of tokens in both
(`SameWords`), with the blanks and comments that each text has between them. There, and only there, layout
shows: where it agrees inside of all such runs (`Stretch.Inner`), the trees have the same structure, and a
merge of the one into the other reports no change (`Parse.layout_echo`). Where it does not, a merge takes
the layout for a change (`Parse.layout_shows_inside`).
-/

import Mathlib
import NedWorkspace.Proofs.Syntax.Abreast.File
import NedWorkspace.Proofs.Token.Longest

namespace NedWorkspace

open Stretch

open scoped Computability

variable {a b : String}

/-- **Texts that are kept of the same run of tokens** in two texts, as they stand there or both without
quotes. What is between the tokens of a run are the blanks and comments of each text. -/
inductive SameWords (a b : String) : String → String → Prop
  | kept {i n : Nat} (h : Kept (tokenize a) i n) :
      SameWords a b (Token.keptText (tokenize a) i n) (Token.keptText (tokenize b) i n)
  | unquoted {i n : Nat} (h : Kept (tokenize a) i n) :
      SameWords a b (Parser.unquote (Token.keptText (tokenize a) i n))
        (Parser.unquote (Token.keptText (tokenize b) i n))

/-- Kept texts of the same run are made of the same words, and what stands between these in either is blanks
and comments. -/
theorem SameWords.exists_runs (hwords : (tokenize a).map Token.word = (tokenize b).map Token.word)
    {x y : String} (h : SameWords a b x y) : ∃ ts us : List Token, ts.map Token.word = us.map Token.word ∧
      (∀ t ∈ ts ++ us, t.lead.toList ∈ (Scan.words .blank + Scan.words .comment)∗) ∧
      (x = Text.trim (Token.sourceText ts) ∧ y = Text.trim (Token.sourceText us) ∨
        x = Parser.unquote (Text.trim (Token.sourceText ts)) ∧
          y = Parser.unquote (Text.trim (Token.sourceText us))) := by
  have hleads : ∀ text i n, ∀ t ∈ ((tokenize text).drop i).take n,
      t.lead.toList ∈ (Scan.words .blank + Scan.words .comment)∗ := fun text i n t ht => by
    obtain ⟨_, -, -, hleads⟩ := (tiles_tokenize text).exists_trail
    exact hleads t (List.mem_of_mem_drop (List.mem_of_mem_take ht))
  have hruns : ∀ i n, (((tokenize a).drop i).take n).map Token.word =
      (((tokenize b).drop i).take n).map Token.word := fun i n => by
    simp only [List.map_take, List.map_drop, hwords]
  have hboth : ∀ i n, ∀ t ∈ ((tokenize a).drop i).take n ++ ((tokenize b).drop i).take n,
      t.lead.toList ∈ (Scan.words .blank + Scan.words .comment)∗ := fun i n t ht =>
    (List.mem_append.mp ht).elim (hleads a i n t) (hleads b i n t)
  cases h with
  | @kept i n _ => exact ⟨_, _, hruns i n, hboth i n, .inl ⟨rfl, rfl⟩⟩
  | @unquoted i n _ => exact ⟨_, _, hruns i n, hboth i n, .inr ⟨rfl, rfl⟩⟩

/-- Runs of tokens have the same words if they do one by one. -/
theorem Token.forall₂_word {ts us : List Token} :
    List.Forall₂ (fun t u : Token => t.word = u.word) ts us ↔
      ts.map Token.word = us.map Token.word := by
  rw [← List.forall₂_eq_eq_eq, List.forall₂_map_left_iff, List.forall₂_map_right_iff]

/-- Texts that are laid out differently correspond from the same token on. -/
def Likeness.relaid (hwords : (tokenize a).map Token.word = (tokenize b).map Token.word)
    {T : String → String → Prop} (hT : ∀ x y, SameWords a b x y → T x y) : Likeness where
  ahead ts us := ∃ k, ts = (tokenize a).drop k ∧ us = (tokenize b).drop k
  slice := T
  words := by
    rintro _ _ ⟨k, rfl, rfl⟩
    exact List.forall₂_drop k (Token.forall₂_word.mpr hwords)
  marks := by
    rintro _ _ ⟨k, rfl, rfl⟩
    exact Token.marksNoWords_of_tokenize fun t ht => List.mem_of_mem_drop ht
  tail := by
    rintro _ _ ⟨k, rfl, rfl⟩
    exact ⟨k + 1, List.tail_drop, List.tail_drop⟩
  empty := hT _ _ (.kept (.zero _ 0))
  kept := by
    rintro _ _ i n ⟨k, rfl, rfl⟩ h
    have hkept := hT _ _ (.kept h.of_drop)
    rwa [Token.keptText, Token.keptText, ← List.drop_drop, ← List.drop_drop] at hkept
  unquoted := by
    rintro _ _ i n ⟨k, rfl, rfl⟩ h
    have hkept := hT _ _ (.unquoted h.of_drop)
    rwa [Token.keptText, Token.keptText, ← List.drop_drop, ← List.drop_drop] at hkept

namespace Parse

/-- Texts with the same words are read alike, and what is kept corresponds. -/
theorem echo_of_words (hwords : (tokenize a).map Token.word = (tokenize b).map Token.word)
    {T : String → String → Prop} (hT : ∀ x y, SameWords a b x y → T x y) :
    (ofText a).tree.Echo T (ofText b).tree ∧
      (ofText a).errors.map SyntaxError.message = (ofText b).errors.map SyntaxError.message := by
  obtain ⟨htree, hcursor⟩ := Parser.fileFrom_abreast (L := .relaid hwords hT) [] {} (Cursor.ofText a) {}
    (Cursor.ofText b) ⟨.none, .nil, .nil, .nil⟩ ⟨⟨0, rfl, rfl⟩, rfl⟩
  exact ⟨{ htree with }, hcursor.messages⟩

/-- Runs with the same blanks and comments inside have the same text. -/
theorem keptText_eq (hwords : (tokenize a).map Token.word = (tokenize b).map Token.word)
    (hinner : ∀ i, Inner (tokenize a) i →
      (tokenize a)[i]?.map Token.lead = (tokenize b)[i]?.map Token.lead) {k n : Nat}
    (h : Kept (tokenize a) k n) :
    Token.keptText (tokenize a) k n = Token.keptText (tokenize b) k n := by
  refine congrArg Text.trim (Token.sourceText_congr ?_ ?_)
  · simp only [List.map_take, List.map_drop, hwords]
  · refine List.ext_getElem? fun j => ?_
    simp only [List.getElem?_map, List.getElem?_tail, List.getElem?_take, List.getElem?_drop]
    split
    · exact hinner _ (h.inner (by omega) (by omega))
    · rfl

/-- **Layout shows only inside what is kept as text.** Texts with the same words have the same mistakes,
and trees that agree in all but what is kept as text. There each has its own text of the same run of tokens:
the same words, and blanks and comments between them. If the blanks and comments inside of such runs agree,
whatever the layout is elsewhere, the trees have the same structure, and a merge of the one into the other
reports no change. -/
theorem layout_echo (h : (tokenize a).map Token.word = (tokenize b).map Token.word) :
    (ofText a).errors.map SyntaxError.message = (ofText b).errors.map SyntaxError.message ∧
    (ofText a).tree.Echo (SameWords a b) (ofText b).tree ∧
    (∀ x y, SameWords a b x y → ∃ ts us : List Token, ts.map Token.word = us.map Token.word ∧
      (∀ t ∈ ts ++ us, t.lead.toList ∈ (Scan.words .blank + Scan.words .comment)∗) ∧
      (x = Text.trim (Token.sourceText ts) ∧ y = Text.trim (Token.sourceText us) ∨
        x = Parser.unquote (Text.trim (Token.sourceText ts)) ∧
          y = Parser.unquote (Text.trim (Token.sourceText us)))) ∧
    ((∀ i, Inner (tokenize a) i → (tokenize a)[i]?.map Token.lead = (tokenize b)[i]?.map Token.lead) →
      (ofText a).tree.sameStructure (ofText b).tree = true ∧
      ((ofText a).tree.merge (ofText b).tree).changed = false) := by
  obtain ⟨htree, hmessages⟩ := echo_of_words h fun _ _ hsame => hsame
  refine ⟨hmessages, htree, fun _ _ => SameWords.exists_runs h, fun hinner => ?_⟩
  have hsame : ∀ x y, SameWords a b x y → x = y := by
    rintro _ _ (hkept | hkept)
    · exact keptText_eq h hinner hkept
    · exact congrArg Parser.unquote (keptText_eq h hinner hkept)
  have hbare := Tree.echo_eq.mp (echo_of_words h hsame).1
  exact ⟨(Tree.sameStructure_iff _ _).mpr hbare, (Tree.merge_exact _ _).2.1.mpr hbare⟩

/-- A name is missing at the end in either layout. Outside of the expression and of the name of the base the
layouts have nothing in common, and that is no difference between the trees. -/
theorem layout_echo_broken :
    let a := "simple A extends p.B; @x(1 + 2); module M \x7b \x7d simple"
    let b := "simple A\nextends  p.B;@x( 1 + 2 ) ;\nmodule M\x7b\x7d simple // no name"
    (ofText a).tree.types.map (·.name) = ["A", "M"] ∧
      (ofText a).errors.map SyntaxError.message = (ofText b).errors.map SyntaxError.message ∧
      (ofText a).tree.sameStructure (ofText b).tree = true ∧
      ((ofText a).tree.merge (ofText b).tree).changed = false := by
  intro a b
  have ha : tokenize a =
      [⟨.keyword .simple, "simple", 0, 6, ""⟩, ⟨.ident, "A", 7, 8, " "⟩,
        ⟨.keyword .extendsWord, "extends", 9, 16, " "⟩, ⟨.ident, "p", 17, 18, " "⟩,
        ⟨.mark .dot, ".", 18, 19, ""⟩, ⟨.ident, "B", 19, 20, ""⟩, ⟨.mark .semicolon, ";", 20, 21, ""⟩,
        ⟨.mark .atSign, "@", 22, 23, " "⟩, ⟨.ident, "x", 23, 24, ""⟩, ⟨.mark .lparen, "(", 24, 25, ""⟩,
        ⟨.integer, "1", 25, 26, ""⟩, ⟨.mark .plus, "+", 27, 28, " "⟩, ⟨.integer, "2", 29, 30, " "⟩,
        ⟨.mark .rparen, ")", 30, 31, ""⟩, ⟨.mark .semicolon, ";", 31, 32, ""⟩,
        ⟨.keyword .module, "module", 33, 39, " "⟩, ⟨.ident, "M", 40, 41, " "⟩,
        ⟨.mark .lbrace, "\x7b", 42, 43, " "⟩, ⟨.mark .rbrace, "\x7d", 44, 45, " "⟩,
        ⟨.keyword .simple, "simple", 46, 52, " "⟩] := by decide +kernel
  have hb : tokenize b =
      [⟨.keyword .simple, "simple", 0, 6, ""⟩, ⟨.ident, "A", 7, 8, " "⟩,
        ⟨.keyword .extendsWord, "extends", 9, 16, "\n"⟩, ⟨.ident, "p", 18, 19, "  "⟩,
        ⟨.mark .dot, ".", 19, 20, ""⟩, ⟨.ident, "B", 20, 21, ""⟩, ⟨.mark .semicolon, ";", 21, 22, ""⟩,
        ⟨.mark .atSign, "@", 22, 23, ""⟩, ⟨.ident, "x", 23, 24, ""⟩, ⟨.mark .lparen, "(", 24, 25, ""⟩,
        ⟨.integer, "1", 26, 27, " "⟩, ⟨.mark .plus, "+", 28, 29, " "⟩, ⟨.integer, "2", 30, 31, " "⟩,
        ⟨.mark .rparen, ")", 32, 33, " "⟩, ⟨.mark .semicolon, ";", 34, 35, " "⟩,
        ⟨.keyword .module, "module", 36, 42, "\n"⟩, ⟨.ident, "M", 43, 44, " "⟩,
        ⟨.mark .lbrace, "\x7b", 44, 45, ""⟩, ⟨.mark .rbrace, "\x7d", 45, 46, ""⟩,
        ⟨.keyword .simple, "simple", 47, 53, " "⟩] := by decide +kernel
  have hnames : (ofText a).tree.types.map (·.name) = ["A", "M"] := by
    unfold a
    cbv
  have hwords : (tokenize a).map Token.word = (tokenize b).map Token.word := by
    rw [ha, hb]
    rfl
  clear_value a b
  obtain ⟨hmessages, -, -, hsame⟩ := layout_echo hwords
  refine ⟨hnames, hmessages, hsame fun i => ?_⟩
  rw [ha, hb]
  by_cases hi : i < 20
  · revert i
    decide +kernel
  · exact fun _ => by rw [List.getElem?_eq_none (Nat.not_lt.mp hi), List.getElem?_eq_none (Nat.not_lt.mp hi)]

/-- **Layout inside an expression counts as a change,** though no word of the text is another. -/
theorem layout_shows_inside :
    let a := "@a(1 + 2);"
    let b := "@a(1+2);"
    (tokenize a).map Token.word = (tokenize b).map Token.word ∧
      (ofText a).tree.sameStructure (ofText b).tree = false ∧
      ((ofText a).tree.merge (ofText b).tree).changed = true := by
  have hwords : (tokenize "@a(1 + 2);").map Token.word = (tokenize "@a(1+2);").map Token.word := by
    decide +kernel
  have hchanged : ((ofText "@a(1 + 2);").tree.merge (ofText "@a(1+2);").tree).changed = true := by
    cbv
  have hdiffer : (ofText "@a(1 + 2);").tree.sameStructure (ofText "@a(1+2);").tree = false := by
    rw [Tree.sameStructure, hchanged, Bool.not_true]
  exact ⟨hwords, hdiffer, hchanged⟩

end Parse

end NedWorkspace
