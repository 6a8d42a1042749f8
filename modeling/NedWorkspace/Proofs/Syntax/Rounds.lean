/-
# Rounds of the loops

The loops over the members of a body and over the items of a file (SPEC_FULL, section 1, parser scope) go
from token to token. Each has one equation for a round that begins with a token, so that a proof about the
loop need not open its definition.
-/

import NedWorkspace.Syntax.Declaration

namespace NedWorkspace

namespace Parser

/-- One round of reading a submodule body, when there is a token. -/
theorem submoduleBodyFrom_cons {s : Cursor} {token : Token} {tokens : List Token}
    (hs : s.rest = token :: tokens) (sec : BodySection) (sub : Submodule) :
    submoduleBodyFrom sec sub s =
      if token.kind = .mark .rbrace then (sub, s)
      else
        match BodySection.ofKind? token.kind with
        | some opened => submoduleBodyFrom opened sub ((submoduleSection opened).run s).2
        | none =>
          let r := (submoduleMember sec sub).run s
          if r.2.rest.length < s.rest.length then submoduleBodyFrom sec r.1 r.2
          else submoduleBodyFrom sec r.1 ((passOver "a member").run r.2).2 := by
  rw [submoduleBodyFrom]
  split
  · rename_i hnil
    exact absurd (hs.symm.trans hnil) (by simp)
  · rename_i token' tokens' hcons
    obtain ⟨rfl, rfl⟩ := List.cons.inj (hs.symm.trans hcons)
    rfl

/-- One round of reading a body, when there is a token. -/
theorem typeBodyFrom_cons {s : Cursor} {token : Token} {tokens : List Token}
    (hs : s.rest = token :: tokens) (sec : BodySection) (t : TypeDecl) :
    typeBodyFrom sec t s =
      if token.kind = .mark .rbrace then (t, s)
      else
        match BodySection.ofKind? token.kind with
        | some opened =>
          let r := (typeSection opened t).run s
          typeBodyFrom opened r.1 r.2
        | none =>
          if sec = .types ∧ token.kind.isTypeWord then
            let r := typeDeclFrom s
            let t := { t with types := t.types ++ r.1.toList }
            if r.2.rest.length < s.rest.length then typeBodyFrom sec t r.2 else (t, r.2)
          else
            let r := (plainMember sec t).run s
            if r.2.rest.length < s.rest.length then typeBodyFrom sec r.1 r.2
            else typeBodyFrom sec r.1 ((passOver "a member declaration").run r.2).2 := by
  rw [typeBodyFrom]
  split
  · rename_i hnil
    exact absurd (hs.symm.trans hnil) (by simp)
  · rename_i token' tokens' hcons
    obtain ⟨rfl, rfl⟩ := List.cons.inj (hs.symm.trans hcons)
    rfl

/-- A declaration with a brace behind its head has a body. -/
theorem typeDeclFrom_of_brace {s : Cursor} {head : TypeDecl} (hhead : (typeHead.run s).1 = some head)
    (hbrace : (typeHead.run s).2.kind? = some (.mark .lbrace)) :
    typeDeclFrom s =
      let b := typeBodyFrom .parameters head (typeHead.run s).2.next
      let u := (bodyEnd.run b.2).2
      (some { b.1 with span := u.spanFrom s.start }, u) := by
  rw [typeDeclFrom, hhead]
  exact if_pos hbrace

/-- A declaration without a brace behind its head has none. -/
theorem typeDeclFrom_of_no_brace {s : Cursor} {head : TypeDecl} (hhead : (typeHead.run s).1 = some head)
    (hbrace : (typeHead.run s).2.kind? ≠ some (.mark .lbrace)) :
    typeDeclFrom s =
      let u := (bodiless.run (typeHead.run s).2).2
      (some { head with span := u.spanFrom s.start }, u) := by
  rw [typeDeclFrom, hhead]
  exact if_neg hbrace

/-- A body ends with the file. -/
theorem typeBodyFrom_nil {s : Cursor} (hs : s.rest = []) (sec : BodySection) (t : TypeDecl) :
    typeBodyFrom sec t s = (t, s) := by
  rw [typeBodyFrom]
  split
  · rfl
  · rename_i hcons
    exact absurd (hs.symm.trans hcons) (by simp)

/-- One round of reading a file, when there is a token. -/
theorem fileFrom_cons {s : Cursor} {token : Token} {tokens : List Token}
    (hs : s.rest = token :: tokens) (tree : Tree) :
    fileFrom tree s =
      let r := (fileItem token.kind tree).run s
      if r.2.rest.length < s.rest.length then fileFrom r.1 r.2 else r := by
  rw [fileFrom]
  split
  · rename_i hnil
    exact absurd (hs.symm.trans hnil) (by simp)
  · rename_i token' tokens' hcons
    obtain ⟨rfl, rfl⟩ := List.cons.inj (hs.symm.trans hcons)
    rfl

end Parser

end NedWorkspace
