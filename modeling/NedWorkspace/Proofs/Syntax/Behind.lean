/-
# What stands behind a body with mistakes

SPEC_FULL, section 1: the parser is error-recovering.

A declaration whose body has paired brackets ends at its closing brace, so the text behind it is read as
if it stood alone: `Parse.behind_body` says this of the two texts, the first of them a declaration with
anything at all between its braces. Node numbers and spans apart, the second gives the same tree, and
the same errors follow those of the first.

The one way across the brace is an `@` right before it in a section that has no properties
(`Parse.behind_body_hidden`).
-/

import Mathlib
import NedWorkspace.Proofs.Syntax.Abreast.File
import NedWorkspace.Proofs.Syntax.Contained.Declaration
import NedWorkspace.Proofs.Syntax.TypeNames
import NedWorkspace.Proofs.Token.Boundary

namespace NedWorkspace

/-- A run of tokens has the same text at another place. -/
theorem Token.sourceText_moved {ts us : List Token} (h : List.Forall₂ Token.Moved ts us) :
    Token.sourceText ts = Token.sourceText us := by
  cases h with
  | nil => rfl
  | @cons t u ts us htu h =>
    rw [sourceText, sourceText, htu.text]
    generalize u.text = text
    induction h generalizing text with
    | nil => rfl
    | cons hvw _ ih =>
      rw [List.foldl_cons, List.foldl_cons, hvw.lead, hvw.text]
      exact ih _

/-- Runs of tokens that stand at another place have the same text. -/
theorem Token.keptText_moved {ts us : List Token} (h : List.Forall₂ Token.Moved ts us) (i n : Nat) :
    Token.keptText ts i n = Token.keptText us i n :=
  congrArg Text.trim (Token.sourceText_moved (List.forall₂_take n (List.forall₂_drop i h)))

/-- The correspondence of a text with itself at another place. -/
def Likeness.moved : Likeness where
  ahead ts us := List.Forall₂ Token.Moved ts us ∧ Token.MarksNoWords ts
  slice := Eq
  words h := h.1.imp fun _ _ hmoved => Prod.ext hmoved.kind hmoved.text
  marks h := h.2
  tail h := ⟨by simpa only [List.drop_one] using List.forall₂_drop 1 h.1,
    fun t ht => h.2 t (List.mem_of_mem_tail ht)⟩
  empty := rfl
  kept h _ := Token.keptText_moved h.1 _ _
  unquoted h _ := congrArg Parser.unquote (Token.keptText_moved h.1 _ _)

/-- The tree with one type declaration more, before all others. -/
def Tree.preceded (d : TypeDecl) (t : Tree) : Tree :=
  { t with types := d :: t.types }

namespace Parser

open Stretch

/-! ### Declarations that were read before -/

/-- An item of a file is read in the same way behind another type. -/
theorem fileItem_preceded (k : Kind) (d : TypeDecl) (tree : Tree) (s : Cursor) :
    (fileItem k (tree.preceded d)).run s =
      (((fileItem k tree).run s).1.preceded d, ((fileItem k tree).run s).2) := by
  unfold fileItem
  split
  · cases hpackage : tree.package with
    | none => simp [Tree.preceded, hpackage]
    | some package => simp [Tree.preceded, hpackage]
  · split
    · rfl
    · split
      · rfl
      · split
        · rfl
        · split <;> rfl

/-- What was read before does not matter to what is read next. -/
theorem fileFrom_preceded (d : TypeDecl) (tree : Tree) (s : Cursor) :
    fileFrom (tree.preceded d) s = ((fileFrom tree s).1.preceded d, (fileFrom tree s).2) := by
  fun_induction fileFrom tree s with
  | case1 tree s hs =>
    rw [fileFrom]
    simp only [hs]
  | case2 tree s token tokens hs r hlt ih =>
    rw [fileFrom_cons hs, fileItem_preceded]
    simp only
    rw [if_pos hlt]
    exact ih
  | case3 tree s token tokens hs r hlt =>
    rw [fileFrom_cons hs, fileItem_preceded]
    simp only
    rw [if_neg hlt]

/-- A word that declares a type adds the type to the file. -/
theorem fileItem_typeWord {k : Kind} (hk : k.isTypeWord = true) (tree : Tree) :
    fileItem k tree = do return { tree with types := tree.types ++ (← typeDecl).toList } := by
  unfold Kind.isTypeWord at hk
  split at hk
  all_goals first
    | rfl
    | exact absurd hk Bool.false_ne_true

/-- A file that begins with a declaration is that declaration before what is read behind it. -/
theorem fileFrom_typeWord {s u : Cursor} {t : Token} {ts : List Token} {d : TypeDecl}
    (hs : s.rest = t :: ts) (hword : t.kind.isTypeWord = true) (hdecl : typeDeclFrom s = (some d, u))
    (hlt : u.rest.length < s.rest.length) :
    fileFrom {} s = ((fileFrom {} u).1.preceded d, (fileFrom {} u).2) := by
  have hitem : (fileItem t.kind {}).run s = (Tree.preceded d {}, u) := by
    rw [fileItem_typeWord hword]
    change ({ types := [] ++ (typeDeclFrom s).1.toList : Tree }, (typeDeclFrom s).2) = _
    rw [hdecl]
    rfl
  rw [fileFrom_cons hs, hitem, ← fileFrom_preceded]
  exact if_pos hlt

/-! ### A declaration with a body -/

/-- The head of a declaration that has a name and nothing more before its body. -/
theorem typeHead_bare {k n brace : Token} {ts : List Token} (hn : n.kind = .ident)
    (hbrace : brace.kind = .mark .lbrace) :
    Takes (k :: n :: brace :: ts) (brace :: ts)
      (fun head => ∃ d, head = some d ∧ d.name = n.text ∧ d.kind = typeKind k.kind) typeHead := by
  refine .bind_eq kind?_takes (.andThen skipOne_takes fun _ => .andThen .newNode fun node =>
    .bind_eq (expectIdent_takes hn _) ?_)
  refine .bind_eq (eat_takes_none (by simp [hbrace])) (.bind_eq (.pure rfl) ?_)
  refine .bind_eq (eat_takes_none (by simp [hbrace])) (.bind_eq (.pure rfl) ?_)
  exact .bind_eq (manyWhile_takes_nil (by simp [hbrace])) (.pure ⟨_, rfl, rfl, rfl⟩)

/-- The end of a body that no semicolon follows. -/
theorem bodyEnd_bare {brace : Token} {ts : List Token} (hbrace : brace.kind = .mark .rbrace)
    (hts : Token.next? ts ≠ some (.mark .semicolon)) :
    Takes (brace :: ts) ts (fun _ => True) bodyEnd :=
  .andThen (expect_takes hbrace _) fun _ => .andThen (eat_takes_none hts) fun _ => .pure trivial

/-- **A declaration ends at its closing brace,** whatever stands in its body. -/
theorem typeDeclFrom_body {s : Cursor} {k n opening : Token} {ts : List Token} {b : BodyClose}
    (hs : s.rest = k :: n :: opening :: ts) (hn : n.kind = .ident)
    (hopening : opening.kind = .mark .lbrace) (hbody : Inside b ts)
    (hbehind : Token.next? b.behind ≠ some (.mark .semicolon)) :
    ∃ d u, typeDeclFrom s = (some d, u) ∧ d.name = n.text ∧ d.kind = typeKind k.kind ∧
      u.rest = b.behind := by
  obtain ⟨⟨head, hhead, hname, hkind⟩, hrest, _⟩ := typeHead_bare hn hopening s hs
  have hnext : (typeHead.run s).2.next.rest = ts := by rw [Cursor.rest_next, hrest, List.tail_cons]
  have hends := typeBodyFrom_ends .parameters head (s := (typeHead.run s).2.next) (hnext ▸ hbody)
  have hheading := typeBodyFrom_heading .parameters head (typeHead.run s).2.next
  obtain ⟨_, hbehind, _⟩ := bodyEnd_bare b.kind hbehind _ hends
  have hbrace : (typeHead.run s).2.kind? = some (.mark .lbrace) := by
    rw [Cursor.kind?_eq_next?, hrest, Token.next?_cons, hopening]
  rw [typeDeclFrom_of_brace hhead hbrace]
  exact ⟨_, _, rfl, (congrArg (·.2.1) hheading).trans hname, (congrArg Prod.fst hheading).trans hkind,
    hbehind⟩

end Parser

open Stretch

/-- A text that is the declaration of a type with a body: the brackets in the body are paired, and the
text ends with its closing brace. -/
structure BodyText (text : String) where
  word : Token
  name : Token
  opening : Token
  body : List Token
  closing : Token
  tokens : tokenize text = word :: name :: opening :: (body ++ [closing])
  isTypeWord : word.kind.isTypeWord = true
  isIdent : name.kind = .ident
  isOpening : opening.kind = .mark .lbrace
  isClosing : closing.kind = .mark .rbrace
  atEnd : closing.stop = Text.byteLength text.toList
  paired : Paired [] body

/-- Whatever stands behind such a text, its body is inside the closing brace. -/
theorem BodyText.inside {text : String} (b : BodyText text)
    (hnames : (b.body ++ [b.closing]).IsChain fun t u =>
      t.kind = .mark .atSign → u.kind.isBrace = false) (behind : List Token) :
    Inside ⟨b.closing, behind, b.isClosing⟩ (b.body ++ b.closing :: behind) := by
  have hmem : ∀ t ∈ b.body ++ [b.closing], t ∈ tokenize text := fun t ht => by
    rw [b.tokens]
    exact List.mem_cons_of_mem _ (List.mem_cons_of_mem _ (List.mem_cons_of_mem _ ht))
  refine ⟨[], b.body, rfl, ?_, List.not_mem_nil, Token.marksNoWords_of_tokenize hmem, hnames⟩
  have hcloses := closes_append_of_paired b.paired [] []
  rwa [List.append_nil] at hcloses

/-- What begins with a declaration does so at another place, and so with no semicolon. -/
theorem Token.next?_moved_ne {ts us : List Token} (h : List.Forall₂ Token.Moved ts us)
    (hus : ∀ t ∈ us.head?, isFresh t.kind = true) : Token.next? ts ≠ some (.mark .semicolon) := by
  cases h with
  | nil => simp
  | @cons t u ts us htu _ =>
    have hfresh := hus u rfl
    rw [next?_cons, htu.kind]
    intro heq
    rw [Option.some.inj heq] at hfresh
    exact absurd hfresh (by decide)

namespace Parse

/-- **Mistakes inside a body do not reach past its closing brace.** The first text is a declaration with
anything in its body, only that no `@` stands right before a brace; the second begins with a declaration.
In the two together the declaration is followed by exactly what the second text gives alone: the same
package, imports, properties and types, up to node numbers and spans, and the same errors. -/
theorem behind_body {first second : String} (b : BodyText first)
    (hnames : (b.body ++ [b.closing]).IsChain fun t u =>
      t.kind = .mark .atSign → u.kind.isBrace = false)
    (hsecond : ∀ t ∈ (tokenize second).head?, isFresh t.kind = true) :
    ∃ d messages, d.name = b.name.text ∧ d.kind = Parser.typeKind b.word.kind ∧
      (ofText (first ++ second)).tree.bare = ((ofText second).tree.preceded d).bare ∧
      (ofText (first ++ second)).errors.map SyntaxError.message =
        messages ++ (ofText second).errors.map SyntaxError.message := by
  have hlast : (tokenize first).getLast? = some b.closing := by
    rw [b.tokens, ← List.cons_append, ← List.cons_append, ← List.cons_append, List.getLast?_concat]
  obtain ⟨tokens, hboth, hmoved⟩ := tokenize_append hlast b.isClosing b.atEnd second
  have hmarks : Token.MarksNoWords tokens := Token.marksNoWords_of_tokenize fun t ht => by
    rw [hboth]
    exact List.mem_append_right _ ht
  have hrest : (Cursor.ofText (first ++ second)).rest =
      b.word :: b.name :: b.opening :: (b.body ++ b.closing :: tokens) := by
    change tokenize (first ++ second) = _
    simp [hboth, b.tokens]
  obtain ⟨d, u, hdecl, hdname, hdkind, hu⟩ := Parser.typeDeclFrom_body hrest b.isIdent b.isOpening
    (b.inside hnames tokens) (Token.next?_moved_ne hmoved hsecond)
  have hfile := Parser.fileFrom_typeWord hrest b.isTypeWord hdecl (by rw [hu, hrest]; simp; omega)
  obtain ⟨htree, hcursor⟩ := Parser.fileFrom_abreast (L := .moved)
    (u.errors.map SyntaxError.message) {} u {} (Cursor.ofText second) ⟨.none, .nil, .nil, .nil⟩
    ⟨hu ▸ ⟨hmoved, hmarks⟩, (List.append_nil _).symm⟩
  have hboth : (ofText (first ++ second)).tree.Echo Eq ((ofText second).tree.preceded d) ∧
      (ofText (first ++ second)).errors = (Parser.fileFrom {} u).2.errors := by
    have hrun : Parser.file.run (Cursor.ofText (first ++ second)) = _ := hfile
    rw [ofText, hrun]
    exact ⟨⟨htree.package, htree.imports, htree.properties,
      .cons ((Echoing.echo_eq d d).mpr rfl) htree.types⟩, rfl⟩
  refine ⟨d, u.errors.map SyntaxError.message, hdname, hdkind, Tree.echo_eq.mp hboth.1, ?_⟩
  rw [hboth.2]
  exact hcursor.messages

/-- The mistakes in the first body are noted, and the second declaration is read. -/
theorem behind_body_broken :
    ∃ d messages, d.name = "A" ∧ d.kind = .simpleModule ∧
      (ofText ("simple A \x7b = ( ; ) \x7d" ++ " simple B;")).tree.bare =
        ((ofText " simple B;").tree.preceded d).bare ∧
      (ofText ("simple A \x7b = ( ; ) \x7d" ++ " simple B;")).errors.map SyntaxError.message =
        messages ++ (ofText " simple B;").errors.map SyntaxError.message :=
  behind_body
    { word := ⟨.keyword .simple, "simple", 0, 6, ""⟩
      name := ⟨.ident, "A", 7, 8, " "⟩
      opening := ⟨.mark .lbrace, "\x7b", 9, 10, " "⟩
      body := ⟨.mark .eq, "=", 11, 12, " "⟩ :: ⟨.mark .lparen, "(", 13, 14, " "⟩ ::
        ([⟨.mark .semicolon, ";", 15, 16, " "⟩] ++ [⟨.mark .rparen, ")", 17, 18, " "⟩])
      closing := ⟨.mark .rbrace, "\x7d", 19, 20, " "⟩
      tokens := by decide +kernel
      isTypeWord := rfl
      isIdent := rfl
      isOpening := rfl
      isClosing := rfl
      atEnd := by decide
      paired := .token rfl rfl List.not_mem_nil
        (.group rfl List.not_mem_nil (.token rfl rfl List.not_mem_nil .nil) .nil) }
    (by simp [Kind.isBrace])
    (by decide +kernel)

/-- **An `@` right before the brace hides what follows:** stepping over a property in a section that has
none takes the brace for its name. -/
theorem behind_body_hidden :
    ∃ b : BodyText "simple A \x7b gates: @ \x7d", b.name.text = "A" ∧
      (∀ t ∈ (tokenize " simple B;").head?, isFresh t.kind = true) ∧
      (ofText " simple B;").tree.types.map (·.name) = ["B"] ∧
      (ofText ("simple A \x7b gates: @ \x7d" ++ " simple B;")).tree.types.map (·.name) = ["A"] := by
  refine ⟨
    { word := ⟨.keyword .simple, "simple", 0, 6, ""⟩
      name := ⟨.ident, "A", 7, 8, " "⟩
      opening := ⟨.mark .lbrace, "\x7b", 9, 10, " "⟩
      body := [⟨.keyword .gates, "gates", 11, 16, " "⟩, ⟨.mark .colon, ":", 16, 17, ""⟩,
        ⟨.mark .atSign, "@", 18, 19, " "⟩]
      closing := ⟨.mark .rbrace, "\x7d", 20, 21, " "⟩
      tokens := by decide +kernel
      isTypeWord := rfl
      isIdent := rfl
      isOpening := rfl
      isClosing := rfl
      atEnd := by decide
      paired := .token rfl rfl List.not_mem_nil (.token rfl rfl List.not_mem_nil
        (.token rfl rfl List.not_mem_nil .nil)) }, rfl, by decide +kernel, ?_, ?_⟩
  · cbv
  · cbv

end Parse

end NedWorkspace
