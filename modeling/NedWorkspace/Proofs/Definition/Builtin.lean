/-
# The package of the built-in types

The text of the built-in declarations begins with its package, and the first package declaration of a file
counts (`Parser.fileFrom_package`). So the built-in types are those of package `ned`
(`DefinitionIndex.package_of_mem_builtins`), whatever else the text declares.
-/

import NedWorkspace.Proofs.Definition.Build
import NedWorkspace.Proofs.Syntax.Accept.File

namespace NedWorkspace

open Rule Echoing

namespace Parser

/-- A package that was read stays. -/
theorem fileItem_package (k : Kind) {tree : Tree} {p : PackageDecl} (h : tree.package = some p)
    (s : Cursor) : ((fileItem k tree).run s).1.package = some p := by
  unfold fileItem
  split
  · rw [h]
    exact h
  · split
    · exact h
    · split
      · exact h
      · split
        · exact h
        · split
          · exact h
          · exact h

/-- Once a package is declared, the rest of the text does not change it. -/
theorem fileFrom_package {tree : Tree} {p : PackageDecl} (s : Cursor) (h : tree.package = some p) :
    (fileFrom tree s).1.package = some p := by
  fun_induction fileFrom tree s with
  | case1 => exact h
  | case2 tree s token _ _ r _ ih => exact ih (fileItem_package token.kind h s)
  | case3 tree s token _ _ r _ => exact fileItem_package token.kind h s

end Parser

/-- **The package that a text begins with is its package.** -/
theorem Parse.packageName?_ofText {text name : String} {ts us : List Token}
    (h : StatementWritten (.keyword .package) NameWritten name ts) (htext : tokenize text = ts ++ us) :
    (ofText text).tree.packageName? = some name := by
  have hempty : Tree.Echo Eq {} {} := ⟨.none, .nil, .nil, .nil⟩
  obtain ⟨hechoed, _⟩ := Parser.fileItem_takes_package (p := ⟨0, name, {}⟩) h hempty rfl us
    (Cursor.ofText text) htext
  obtain ⟨p, hp, hname⟩ := exists_of_option_rel hechoed.package
  obtain ⟨word, more, rfl, hword⟩ := h.exists_cons
  have hpackage : (Parser.fileFrom {} (Cursor.ofText text)).1.package = some p := by
    rw [Parser.fileFrom_cons htext, hword]
    dsimp only
    split
    · exact Parser.fileFrom_package _ hp
    · exact hp
  change (Parser.fileFrom {} (Cursor.ofText text)).1.package.map PackageDecl.name = some name
  rw [hpackage]
  exact congrArg some hname

/-- The lexeme at the beginning of a text. -/
theorem Scan.lexemes_of_first {c : Char} {cs : List Char} {k : Kind} {n : ℕ}
    (h : first c cs = (k, n + 1)) :
    lexemes first (c :: cs) = ⟨k, c :: cs.take n⟩ :: lexemes first (cs.drop n) := by
  rw [lexemes, h]
  rfl

namespace Builtin

/-- The tokens of the package declaration. -/
def packageTokens : List Token :=
  [⟨.keyword .package, "package", 1, 8, "\n"⟩, ⟨.ident, "ned", 9, 12, " "⟩,
    ⟨.mark .semicolon, ";", 12, 13, ""⟩]

set_option maxRecDepth 20000 in
/-- How the built-in text begins. -/
theorem exists_text_eq : ∃ cs, text = String.ofList ('\n' :: 'p' :: 'a' :: 'c' :: 'k' :: 'a' :: 'g' ::
    'e' :: ' ' :: 'n' :: 'e' :: 'd' :: ';' :: cs) :=
  ⟨_, rfl⟩

/-- The tokens that the built-in text begins with declare its package. -/
theorem exists_tokenize_eq : ∃ us, tokenize text = packageTokens ++ us := by
  obtain ⟨cs, htext⟩ := exists_text_eq
  have hlexemes : Scan.lexemes Scan.first ('\n' :: 'p' :: 'a' :: 'c' :: 'k' :: 'a' :: 'g' :: 'e' :: ' ' :: 'n' ::
      'e' :: 'd' :: ';' :: cs) = ⟨.blank, ['\n']⟩ :: ⟨.keyword .package, "package".toList⟩ ::
        ⟨.blank, [' ']⟩ :: ⟨.ident, "ned".toList⟩ :: ⟨.mark .semicolon, [';']⟩ :: Scan.lexemes Scan.first cs := by
    refine (Scan.lexemes_of_first (k := .blank) (n := 0) rfl).trans (congrArg _ ?_)
    refine (Scan.lexemes_of_first (k := .keyword .package) (n := 6) rfl).trans (congrArg _ ?_)
    refine (Scan.lexemes_of_first (k := .blank) (n := 0) rfl).trans (congrArg _ ?_)
    refine (Scan.lexemes_of_first (k := .ident) (n := 2) rfl).trans (congrArg _ ?_)
    exact Scan.lexemes_of_first (k := .mark .semicolon) (n := 0) rfl
  rw [tokenize, tokenizeBy, htext, String.toList_ofList, hlexemes]
  exact ⟨Scan.place 13 [] (Scan.lexemes Scan.first cs), rfl⟩

/-- The built-in declarations are in package `ned`. -/
theorem packageName?_tree : tree.packageName? = some "ned" := by
  obtain ⟨us, htext⟩ := exists_tokenize_eq
  have hname : NameWritten "ned" [⟨.ident, "ned", 9, 12, " "⟩] :=
    ⟨⟨nofun, by decide +kernel, by decide +kernel⟩, .single rfl⟩
  have hwritten : StatementWritten (.keyword .package) NameWritten "ned"
      (⟨.keyword .package, "package", 1, 8, "\n"⟩ ::
        ([⟨.ident, "ned", 9, 12, " "⟩] ++ [⟨.mark .semicolon, ";", 12, 13, ""⟩])) :=
    .mk rfl hname rfl
  exact Parse.packageName?_ofText hwritten htext

end Builtin

/-- All built-in types belong to the built-in package. -/
theorem DefinitionIndex.package_of_mem_builtins {d : Definition}
    (h : d ∈ DefinitionIndex.seeded.builtins) : d.package = "ned" := by
  obtain ⟨t, _, rfl⟩ := List.mem_map.mp h
  rw [Definition.build, Definition.package_buildAt, Builtin.packageName?_tree]
  rfl

end NedWorkspace
