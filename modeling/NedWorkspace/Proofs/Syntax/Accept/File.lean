/-
# Files that are written are read

SPEC_FULL, section 1: the declaration subset.

A text that is spelled from the tokens of a tree, with blanks between them, is read without a mistake
and gives that tree back, numbers and spans apart: `Parse.written_back`. Every tree that `Tree.Written`
knows is such a tree, in every order of its sections and declarations.

The one gap in the concrete syntax is a property value that begins and ends with string literals: it
loses its outer quotes (`Parse.outer_quotes_lost`).
-/

import NedWorkspace.Proofs.Syntax.Accept.Declaration
import NedWorkspace.Proofs.Syntax.Behind

namespace NedWorkspace

open Rule Stretch Echoing

theorem StatementWritten.exists_cons {k : Kind} {W : Rule String} {text : String} {ts : List Token}
    (h : StatementWritten k W text ts) : ∃ t more, ts = t :: more ∧ t.kind = k := by
  obtain ⟨word, _, _⟩ := h
  exact ⟨_, _, rfl, word⟩

namespace Tree

/-- A file never begins with what would go on with a statement. -/
theorem Written.clear {t : Tree} {ts : List Token} (h : t.Written ts) :
    Token.Clear statementBars ts := by
  cases h with
  | nil => exact fun k _ => nofun
  | package package _ _ =>
    obtain ⟨t, more, rfl, hword⟩ := package.exists_cons
    exact Token.clear_cons.mpr (hword ▸ by decide)
  | importDecl spec _ =>
    obtain ⟨t, more, rfl, hword⟩ := spec.exists_cons
    exact Token.clear_cons.mpr (hword ▸ by decide)
  | property property _ =>
    obtain ⟨t, more, rfl, hat⟩ := property.exists_cons
    exact Token.clear_cons.mpr (hat ▸ by decide)
  | type type _ =>
    obtain ⟨t, more, rfl, hword⟩ := type.exists_cons
    exact Token.clear_cons.mpr (Kind.beginsMember_of_isTypeWord hword).notBar

/-- A tree and what stands behind it. -/
def followed (base t : Tree) : Tree :=
  { base with
    package := base.package <|> t.package
    imports := base.imports ++ t.imports
    properties := base.properties ++ t.properties
    types := base.types ++ t.types }

end Tree

namespace Parser

variable {ts us : List Token}

/-- The declaration of a package is read as it is written. -/
theorem packageDecl_takes {p : PackageDecl}
    (h : StatementWritten (.keyword .package) NameWritten p.name ts) :
    Takes (ts ++ us) us (Echo Eq · (some p)) packageDecl := by
  obtain ⟨word, kept, ends⟩ := h
  simp only [List.cons_append, List.append_assoc, List.nil_append]
  exact .andThen .any fun _ => .andThen skipOne_takes fun _ => .andThen .newNode fun _ =>
    .bind_eq (qualifiedName_takes kept (by simp [ends]) _) (.andThen (expect_takes ends _) fun _ =>
      .andThen .any fun _ => .pure (.some rfl))

/-- An import is read as it is written. -/
theorem importDecl_takes {i : ImportDecl}
    (h : StatementWritten (.keyword .importWord) ImportWritten i.spec ts) :
    Takes (ts ++ us) us (Echo Eq · (some i)) importDecl := by
  obtain @⟨tWord, tEnd, text, ts, word, kept, ends⟩ := h
  have hcount : Stretch.importSpec (ts ++ tEnd :: us) = ts.length := by
    rw [Stretch.importSpec, List.takeWhile_append_of_pos kept.parts, List.takeWhile_cons,
      if_neg (by simp [ends, isImportPart]), List.append_nil]
  simp only [List.cons_append, List.append_assoc, List.nil_append]
  refine .andThen .any fun _ => .andThen skipOne_takes fun _ => .andThen .newNode fun _ =>
    .bind_eq (takeCounted_takes hcount) ?_
  cases ts with
  | nil => exact absurd rfl kept.ne_nil
  | cons t ts =>
    refine .andThen (expect_takes ends _) fun _ => .andThen .any fun _ => .pure (.some ?_)
    change Text.trim _ = _
    rw [kept.text_eq, Token.trim_sourceText kept.sound]

/-! ### Items -/

/-- The items of a file behind those that were read. -/
def fileAt (tree : Tree) : Parser Tree :=
  ⟨fileFrom tree, reaches_fileFrom tree⟩

theorem fileAt_nil (tree : Tree) : Takes [] [] (· = tree) (fileAt tree) := by
  intro s hs
  change (fileFrom tree s).1 = tree ∧ (fileFrom tree s).2.rest = [] ∧
    (fileFrom tree s).2.errors = s.errors
  rw [fileFrom, hs]
  exact ⟨rfl, hs, rfl⟩

/-- An item is read, and then the rest of the file. -/
theorem fileAt_item {t : Token} {more final : List Token} {tree : Tree} {Q R : Tree → Prop}
    (hitem : Takes (t :: more) us Q (fileItem t.kind tree)) (hlt : us.length < (t :: more).length)
    (hrest : ∀ tree', Q tree' → Takes us final R (fileAt tree')) :
    Takes (t :: more) final R (fileAt tree) := by
  intro s hs
  obtain ⟨hfound, hafter, herrors⟩ := hitem s hs
  obtain ⟨hresult, hfinal, herrors'⟩ := hrest _ hfound _ hafter
  have hrun : (fileAt tree).run s =
      (fileAt ((fileItem t.kind tree).run s).1).run ((fileItem t.kind tree).run s).2 := by
    change fileFrom tree s = _
    rw [fileFrom_cons hs]
    exact if_pos (by rw [hafter, hs]; exact hlt)
  rw [hrun]
  exact ⟨hresult, hfinal, herrors'.trans herrors⟩

/-- An item is read, and then what stands behind it. -/
theorem fileAt_takes_item {w : Token} {more final : List Token} {tree base base' t t' : Tree}
    (hitem : Takes (w :: more ++ us) us (Tree.Echo Eq · base') (fileItem w.kind tree))
    (hext : base'.followed t = base.followed t')
    (hrest : ∀ found : Tree, found.Echo Eq base' →
      Takes us final (Tree.Echo Eq · (base'.followed t)) (fileAt found)) :
    Takes (w :: more ++ us) final (Tree.Echo Eq · (base.followed t')) (fileAt tree) :=
  hext ▸ fileAt_item hitem (Token.length_lt_cons_append ..) hrest

section Items

variable {tree base : Tree}

/-- The first declaration of a package is that of the file. -/
theorem fileItem_takes_package {p : PackageDecl}
    (h : StatementWritten (.keyword .package) NameWritten p.name ts) (htree : tree.Echo Eq base)
    (hnone : base.package = none) (us : List Token) :
    Takes (ts ++ us) us (Tree.Echo Eq · { base with package := some p })
      (fileItem (.keyword .package) tree) := by
  have hread : Takes (ts ++ us) us (Echo Eq · (some p)) packageDecl := packageDecl_takes h
  have hechoed := htree.package
  rw [hnone] at hechoed
  refine .bind hread fun found hfound => ?_
  rw [eq_none_of_option_rel hechoed]
  exact .pure { htree with package := hfound }

/-- An import is added to the file. -/
theorem fileItem_takes_import {i : ImportDecl}
    (h : StatementWritten (.keyword .importWord) ImportWritten i.spec ts) (htree : tree.Echo Eq base)
    (us : List Token) : Takes (ts ++ us) us (Tree.Echo Eq · { base with imports := base.imports ++ [i] })
      (fileItem (.keyword .importWord) tree) := by
  refine .bind (importDecl_takes h) fun found hfound => .pure ?_
  exact { htree with imports := List.rel_append htree.imports (option_rel_toList hfound) }

/-- A property statement is added to the file. -/
theorem fileItem_takes_property {p : Property} (h : PropertyStatement p ts) (htree : tree.Echo Eq base)
    (hus : Token.Clear statementBars us) :
    Takes (ts ++ us) us (Tree.Echo Eq · { base with properties := base.properties ++ [p] })
      (fileItem (.mark .atSign) tree) := by
  refine .bind (propertyStatement_takes h hus) fun found hfound => .pure ?_
  exact { htree with properties := List.rel_append htree.properties (option_rel_toList hfound) }

/-- A type is added to the file. -/
theorem fileItem_takes_type {d : TypeDecl} (h : d.Written ts) (htree : tree.Echo Eq base)
    (hus : Token.next? us ≠ some (.mark .semicolon)) {k : Kind} (hword : k.isTypeWord = true) :
    Takes (ts ++ us) us (Tree.Echo Eq · { base with types := base.types ++ [d] }) (fileItem k tree) := by
  rw [fileItem_typeWord hword]
  refine .bind (typeDecl_takes h hus) fun found hfound => .pure ?_
  exact { htree with types := List.rel_append htree.types (option_rel_toList hfound) }

end Items

/-- The items are read one after another; each goes behind what was read before it. -/
theorem fileAt_takes {t : Tree} (h : t.Written ts) (tree base : Tree) (htree : tree.Echo Eq base)
    (hpackage : base.package = none ∨ t.package = none) :
    Takes ts [] (Tree.Echo Eq · (base.followed t)) (fileAt tree) := by
  induction h generalizing tree base with
  | nil =>
    refine (fileAt_nil tree).imp fun found hfound => ?_
    rw [hfound]
    exact ⟨by simpa [Tree.followed] using htree.package, by simpa [Tree.followed] using htree.imports,
      by simpa [Tree.followed] using htree.properties, by simpa [Tree.followed] using htree.types⟩
  | @package t p ts us package once _ ih =>
    have hnone : base.package = none := hpackage.resolve_right nofun
    have hitem := fileItem_takes_package package htree hnone us
    obtain ⟨w, more, rfl, hword⟩ := package.exists_cons
    rw [← hword] at hitem
    exact fileAt_takes_item hitem (by simp [Tree.followed, once, hnone])
      fun found hfound => ih _ _ hfound (.inr once)
  | @importDecl t i ts us spec _ ih =>
    have hitem := fileItem_takes_import spec htree us
    obtain ⟨w, more, rfl, hword⟩ := spec.exists_cons
    rw [← hword] at hitem
    exact fileAt_takes_item hitem (by simp [Tree.followed])
      fun found hfound => ih _ _ hfound hpackage
  | @property t p ts us property rest ih =>
    have hitem := fileItem_takes_property property htree rest.clear
    obtain ⟨w, more, rfl, hat⟩ := property.exists_cons
    rw [← hat] at hitem
    exact fileAt_takes_item hitem (by simp [Tree.followed])
      fun found hfound => ih _ _ hfound hpackage
  | @type t d ts us type rest ih =>
    have hitem {k : Kind} := fileItem_takes_type (k := k) type htree
      (rest.clear.ne (by simp [statementBars]))
    obtain ⟨w, more, rfl, hword⟩ := type.exists_cons
    exact fileAt_takes_item (hitem hword) (by simp [Tree.followed])
      fun found hfound => ih _ _ hfound hpackage

end Parser

namespace Parse

/-- **A tree that is written is read back.** Spelled from its tokens with blanks between them, a tree is
read without a mistake, and what is read differs from it in node numbers and spans alone. -/
theorem written_back {t : Tree} {ts : List Token} (h : t.Written ts) (hspaced : Token.Spaced ts) :
    (ofText (Token.spell ts)).ok = true ∧ (ofText (Token.spell ts)).tree.bare = t.bare := by
  let s : Cursor := { Cursor.ofText (Token.spell ts) with rest := ts }
  obtain ⟨htree, -, herrors⟩ := Parser.fileAt_takes h {} {} ⟨.none, .nil, .nil, .nil⟩ (.inl rfl) s rfl
  obtain ⟨hmoved, hcursor⟩ := Parser.fileFrom_abreast (L := .moved) [] {}
    (Cursor.ofText (Token.spell ts)) {} s ⟨.none, .nil, .nil, .nil⟩
    ⟨⟨tokenize_spell hspaced, Token.marksNoWords_of_tokenize fun _ ht => ht⟩, rfl⟩
  constructor
  · have hmessages : (ofText (Token.spell ts)).errors.map SyntaxError.message = [] := by
      have hnone : (Parser.fileFrom {} s).2.errors = [] := herrors
      exact hcursor.messages.trans (by rw [hnone]; rfl)
    rw [ok, List.isEmpty_iff]
    exact List.map_eq_nil_iff.mp hmessages
  · have hbare : (Parser.fileFrom {} (Cursor.ofText (Token.spell ts))).1.bare =
        (Tree.followed {} t).bare :=
      (Tree.echo_eq.mp hmoved).trans (Tree.echo_eq.mp htree)
    exact hbare

/-- A package and a module with a gate, written in tokens. -/
theorem written_back_gate :
    let p := ofText "package p.q ; simple A \x7b gates : input g ; \x7d"
    p.ok = true ∧ p.tree.bare =
      { package := some ⟨0, "p.q", {}⟩
        types := [{ node := 0, kind := .simpleModule, name := "A",
                    gates := [⟨0, "g", some .input, false, none, [], {}⟩] }] } := by
  let blank : String := " "
  let gate : Gate := ⟨0, "g", some .input, false, none, [], {}⟩
  let type : TypeDecl := { node := 0, kind := .simpleModule, name := "A", gates := [gate] }
  have hpackage : StatementWritten (.keyword .package) NameWritten "p.q"
      (⟨.keyword .package, "package", 0, 0, ""⟩ ::
        ([⟨.ident, "p", 0, 0, blank⟩, ⟨.mark .dot, ".", 0, 0, ""⟩, ⟨.ident, "q", 0, 0, ""⟩] ++
          [⟨.mark .semicolon, ";", 0, 0, blank⟩])) :=
    .mk rfl ⟨⟨nofun, by decide +kernel, by decide +kernel⟩, .more rfl rfl (.single rfl)⟩ rfl
  have hgate : gate.Written
      ([⟨.keyword .input, "input", 0, 0, blank⟩] ++ ⟨.ident, "g", 0, 0, blank⟩ ::
        ([] ++ ([] ++ [⟨.mark .semicolon, ";", 0, 0, blank⟩]))) :=
    .mk (.some rfl) rfl rfl .scalar .nil rfl
  have hheader : HeaderWritten .gates false
      (⟨.keyword .gates, "gates", 0, 0, blank⟩ :: ([] ++ [⟨.mark .colon, ":", 0, 0, blank⟩])) :=
    .mk rfl .no nofun rfl
  have hbody : TypeBody { gates := [gate] }
      (⟨.mark .lbrace, "\x7b", 0, 0, blank⟩ :: ((_ ++ (_ ++ [])) ++ ⟨.mark .rbrace, "\x7d", 0, 0, blank⟩ :: [])) :=
    .given rfl (.header hheader (.gate hgate .nil)) rfl .no
  have htype : type.Written (⟨.keyword .simple, "simple", 0, 0, blank⟩ ::
      ⟨.ident, "A", 0, 0, blank⟩ :: ([] ++ ([] ++ ([] ++ _)))) :=
    .mk rfl rfl rfl rfl .none .none .nil hbody rfl
  obtain ⟨ts, htree, hspaced, hspell⟩ : ∃ ts : List Token,
      Tree.Written { package := some ⟨0, "p.q", {}⟩, types := [type] } ts ∧ Token.Spaced ts ∧
        Token.spell ts = "package p.q ; simple A \x7b gates : input g ; \x7d" :=
    ⟨_, .package hpackage rfl (.type htype .nil),
      ⟨by decide +kernel, by decide +kernel, by decide +kernel⟩, by decide +kernel⟩
  have hback := written_back htree hspaced
  rw [hspell] at hback
  exact hback

/-- **A value between two string literals loses its outer quotes,** though it is no literal: it is kept
as if it were one. -/
theorem outer_quotes_lost :
    let p := ofText "@p(\"a\" + \"b\");"
    p.ok = true ∧ p.tree.properties.map Property.entries = [[⟨"", ["a\" + \"b"]⟩]] := by
  cbv

end Parse

end NedWorkspace
