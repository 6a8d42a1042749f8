/-
# Type declarations and files

SPEC_FULL, section 1: type declarations, body sections, `package` and `import`.

```text
File     = (Package | Import | Property | TypeDecl)*
Package  = 'package' QualifiedName ';'
Import   = 'import' ImportSpec ';'
TypeDecl = Kind Ident ('extends' Refs)? ('like' Refs)? Property* (Body | ';')
```

A body is a sequence of sections, and what comes before the first header counts as parameters. The
inner types of a `types` section nest to any depth. A mistake is noted and reading goes on at the
next statement or declaration, so that one mistake never hides the rest of the file.

`Parse.ofText` is total: every text has a tree.
-/

import NedWorkspace.Syntax.Link
import NedWorkspace.Syntax.Member
import NedWorkspace.Token.Scan

namespace NedWorkspace

namespace Parser

/-- The kind of type that a keyword declares. -/
def typeKind : Kind → TypeKind
  | .keyword .simple => .simpleModule
  | .keyword .module => .compoundModule
  | .keyword .network => .network
  | .keyword .channel => .channel
  | .keyword .moduleInterface => .moduleInterface
  | _ => .channelInterface

/-- The head of a type declaration, up to its body. -/
def typeHead : Parser (Option TypeDecl) := do
  let word ← kind?
  skipOne
  let node ← newNode
  match ← expectIdent "type name" with
  | none => giveUp
  | some name =>
    let bases ← do
      if ← eat (.keyword .extendsWord) then typeRefs else pure []
    let interfaces ← do
      if ← eat (.keyword .like) then typeRefs else pure []
    let properties ← properties
    return some { node, kind := typeKind (word.getD .error), name, bases, interfaces, properties }

/-- What follows the head of a declaration that has no body. -/
def bodiless : Parser Unit := do
  if ← eat (.mark .semicolon) then
    return ()
  else
    complainExpected "'\x7b' or ';'"
    skipStatement

/-- The closing brace of a body and the semicolon that may follow it. -/
def bodyEnd : Parser Unit := do
  let _ ← expect (.mark .rbrace) "'\x7d'"
  let _ ← eat (.mark .semicolon)

/-- One member of a body, other than an inner type. -/
def plainMember (sec : BodySection) (t : TypeDecl) : Parser TypeDecl := do
  match sec with
  | .parameters =>
    if ← at? (.mark .atSign) then
      return { t with properties := t.properties ++ (← propertyStatement).toList }
    else
      return { t with params := t.params ++ (← param).toList }
  | .gates => return { t with gates := t.gates ++ (← gate).toList }
  | .types =>
    if ← at? (.mark .atSign) then
      return { t with properties := t.properties ++ (← propertyStatement).toList }
    else
      complainExpected "a type declaration"
      skipStatement
      return t
  | .submodules => return { t with submodules := t.submodules ++ (← submodule).toList }
  | .connections => return { t with connections := t.connections ++ (← link) }

/-- A section header inside a body. -/
def typeSection (opened : BodySection) (t : TypeDecl) : Parser TypeDecl := do
  skipOne
  let allow ← sectionHeader opened
  return { t with allowUnconnected := t.allowUnconnected || allow }

mutual

/-- A type declaration, from a cursor at its keyword. -/
def typeDeclFrom (s : Cursor) : Option TypeDecl × Cursor :=
  let r := typeHead.run s
  match r.1 with
  | none => (none, r.2)
  | some head =>
    if r.2.kind? = some (.mark .lbrace) then
      let b := typeBodyFrom .parameters head r.2.next
      let u := (bodyEnd.run b.2).2
      (some { b.1 with span := u.spanFrom s.start }, u)
    else
      let u := (bodiless.run r.2).2
      (some { head with span := u.spanFrom s.start }, u)
termination_by (s.rest.length, 0)
decreasing_by
  rename_i h
  exact Prod.Lex.left _ _ (Nat.lt_of_lt_of_le
    (Cursor.length_next_lt (Cursor.rest_ne_nil_of_kind? h)) (typeHead.reaches s).length_le)

/-- The members of a body, up to its closing brace. A declaration takes at least its keyword. -/
def typeBodyFrom (sec : BodySection) (t : TypeDecl) (s : Cursor) : TypeDecl × Cursor :=
  match _h : s.rest with
  | [] => (t, s)
  | token :: _ =>
    if token.kind = .mark .rbrace then (t, s)
    else
      match BodySection.ofKind? token.kind with
      | some opened =>
        let r := (typeSection opened t).run s
        typeBodyFrom opened r.1 r.2
      | none =>
        if sec = .types ∧ token.kind.isTypeWord then
          let r := typeDeclFrom s
          let t := { t with types := t.types ++ r.1.toList }
          if r.2.rest.length < s.rest.length then typeBodyFrom sec t r.2 else (t, r.2)
        else
          let r := (plainMember sec t).run s
          if r.2.rest.length < s.rest.length then typeBodyFrom sec r.1 r.2
          else typeBodyFrom sec r.1 ((passOver "a member declaration").run r.2).2
termination_by (s.rest.length, 1)
decreasing_by
  all_goals have hne : s.rest ≠ [] := by simp [_h]
  · exact Prod.Lex.left _ _ (length_run_skipOne_bind_lt _ hne)
  · exact Prod.Lex.right _ (by decide)
  · exact Prod.Lex.left _ _ (by assumption)
  · exact Prod.Lex.left _ _ (by assumption)
  · exact Prod.Lex.left _ _ (length_run_passOver_lt _ hne ((plainMember sec t).reaches s))

end

mutual

/-- A declaration only moves on, so what it calls ends. -/
theorem reaches_typeDeclFrom (s : Cursor) : s.Reaches (typeDeclFrom s).2 := by
  rw [typeDeclFrom]
  dsimp only
  split
  · exact typeHead.reaches s
  · split
    · exact (typeHead.reaches s).trans ((Cursor.reaches_next _).trans
        ((reaches_typeBodyFrom _ _ _).trans (bodyEnd.reaches _)))
    · exact (typeHead.reaches s).trans (bodiless.reaches _)
termination_by (s.rest.length, 0)
decreasing_by
  rename_i h
  exact Prod.Lex.left _ _ (Nat.lt_of_lt_of_le
    (Cursor.length_next_lt (Cursor.rest_ne_nil_of_kind? h)) (typeHead.reaches s).length_le)

/-- A body only moves on. -/
theorem reaches_typeBodyFrom (sec : BodySection) (t : TypeDecl) (s : Cursor) :
    s.Reaches (typeBodyFrom sec t s).2 := by
  rw [typeBodyFrom]
  split
  · exact .refl s
  · rename_i token rest hs
    have hne : s.rest ≠ [] := by simp [hs]
    split
    · exact .refl s
    · split
      · exact ((typeSection _ t).reaches s).trans (reaches_typeBodyFrom _ _ _)
      · split
        · dsimp only
          split
          · exact (reaches_typeDeclFrom s).trans (reaches_typeBodyFrom _ _ _)
          · exact reaches_typeDeclFrom s
        · dsimp only
          split
          · exact ((plainMember sec t).reaches s).trans (reaches_typeBodyFrom _ _ _)
          · exact ((plainMember sec t).reaches s).trans
              (((passOver _).reaches _).trans (reaches_typeBodyFrom _ _ _))
termination_by (s.rest.length, 1)
decreasing_by
  · exact Prod.Lex.left _ _ (length_run_skipOne_bind_lt _ hne)
  · exact Prod.Lex.left _ _ (length_run_passOver_lt _ hne ((plainMember sec t).reaches s))
  · exact Prod.Lex.left _ _ (by assumption)
  · exact Prod.Lex.right _ Nat.zero_lt_one
  · exact Prod.Lex.right _ Nat.zero_lt_one
  · exact Prod.Lex.left _ _ (by assumption)

end

/-- A type declaration. -/
def typeDecl : Parser (Option TypeDecl) :=
  ⟨typeDeclFrom, reaches_typeDeclFrom⟩

/-- A package declaration. -/
def packageDecl : Parser (Option PackageDecl) := do
  let start ← Parser.start
  skipOne
  let node ← newNode
  match ← qualifiedName "package name" with
  | none => giveUp
  | some name =>
    let _ ← expect (.mark .semicolon) "';'"
    return some { node, name, span := ← spanFrom start }

/-- An import. -/
def importDecl : Parser (Option ImportDecl) := do
  let start ← Parser.start
  skipOne
  let node ← newNode
  match ← takeCounted Stretch.importSpec with
  | [] =>
    complainExpected "import specification"
    giveUp
  | t :: ts =>
    let _ ← expect (.mark .semicolon) "';'"
    return some { node, spec := Text.trim (Token.sourceText (t :: ts)), span := ← spanFrom start }

/-- Notes a second package declaration, just behind it. -/
def complainRepeatedPackage : Parser Unit :=
  ⟨fun s => ((), { s with errors := s.errors ++
      [⟨"duplicate package declaration", s.lastStop, s.lastStop,
        s.frame.lines.span s.lastStop s.lastStop⟩] }),
    fun _ => ⟨rfl, List.suffix_refl _, Nat.le_refl _, List.prefix_append _ _⟩⟩

/-- One item of a file, whose first token has kind `k`. -/
def fileItem (k : Kind) (tree : Tree) : Parser Tree := do
  if k = .keyword .package then
    let package ← packageDecl
    if tree.package.isSome then
      complainRepeatedPackage
      return tree
    else
      return { tree with package }
  else if k = .keyword .importWord then
    return { tree with imports := tree.imports ++ (← importDecl).toList }
  else if k = .mark .atSign then
    return { tree with properties := tree.properties ++ (← propertyStatement).toList }
  else if k = .mark .semicolon then
    skipOne
    return tree
  else if k.isTypeWord then
    return { tree with types := tree.types ++ (← typeDecl).toList }
  else
    complainExpected "a declaration"
    skipDebris
    return tree

/-- The items of a file, from a cursor. Every item takes a token. -/
def fileFrom (tree : Tree) (s : Cursor) : Tree × Cursor :=
  match s.rest with
  | [] => (tree, s)
  | token :: _ =>
    let r := (fileItem token.kind tree).run s
    if r.2.rest.length < s.rest.length then fileFrom r.1 r.2 else r
termination_by s.rest.length

/-- A file only moves on. -/
theorem reaches_fileFrom (tree : Tree) (s : Cursor) : s.Reaches (fileFrom tree s).2 := by
  fun_induction fileFrom tree s with
  | case1 => exact .refl _
  | case2 tree s token _ _ r _ ih => exact ((fileItem token.kind tree).reaches s).trans ih
  | case3 tree s token _ _ r _ => exact (fileItem token.kind tree).reaches s

/-- A whole file. -/
def file : Parser Tree :=
  ⟨fileFrom {}, reaches_fileFrom {}⟩

end Parser

namespace Cursor

/-- The cursor at the beginning of a text. -/
def ofText (text : String) : Cursor :=
  { frame := ⟨text.utf8ByteSize, LineIndex.ofText text⟩, rest := tokenize text }

end Cursor

/-- What reading a text gives: its tree and the mistakes in it. -/
structure Parse where
  tree : Tree
  errors : List SyntaxError

namespace Parse

/-- Reads a text. -/
def ofText (text : String) : Parse :=
  let r := Parser.file.run (Cursor.ofText text)
  ⟨{ r.1 with nextNode := r.2.nextNode }, r.2.errors⟩

/-- Whether the text was read without a mistake. -/
def ok (p : Parse) : Bool :=
  p.errors.isEmpty

end Parse

end NedWorkspace
