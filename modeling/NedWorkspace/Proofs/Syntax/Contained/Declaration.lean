/-
# The body of a declaration ends at its closing brace

The members of a body are read by steps that stay inside it, and each of them takes a token, so the body ends
(`Parser.typeBodyFrom_ends`), and a declaration with a body stays inside the body around it.
-/

import NedWorkspace.Proofs.Syntax.Contained.Link

namespace NedWorkspace

open Stretch

namespace Parser

/-- The head of a type stays inside the braces around it. -/
theorem typeHead_stays {k : Kind} (hk : k.isBrace = false) :
    StaysIf (·.kind? = some k) typeHead := by
  refine .look_bind fun word => .bind (.skipOne fun _ s t ts hs hrest _ => ?_) fun _ =>
    .bind .newNode fun node => .bind (expectIdent_stays _) fun name => ?_
  · obtain ⟨u, us, hrest', rfl⟩ := Cursor.exists_of_kind? hs.1
    rwa [(List.cons.inj (hrest.symm.trans hrest')).1]
  · cases name with
    | none => exact giveUp_stays
    | some name =>
      exact .bind (eat_stays rfl) fun _ => .ite_bind typeRefs_stays (.pure _) fun _ =>
        .bind (eat_stays rfl) fun _ => .ite_bind typeRefs_stays (.pure _) fun _ =>
        .bind properties_stays fun _ => .pure _

theorem bodiless_stays : Stays bodiless :=
  .bind (eat_stays rfl) fun _ => .ite (.pure _)
    (.bind (.complainExpected _) fun _ => skipStatement_stays)

/-- No member takes the brace that closes the body it is in. -/
theorem plainMember_stays (sec : BodySection) (t : TypeDecl) : Stays (plainMember sec t) := by
  cases sec with
  | parameters =>
    exact .at?_bind (.bind propertyStatement_stays fun _ => .pure _)
      (.bind param_stays fun _ => .pure _)
  | gates => exact .bind gate_stays fun _ => .pure _
  | types =>
    exact .at?_bind (.bind propertyStatement_stays fun _ => .pure _)
      (.bind (.complainExpected _) fun _ => .bind skipStatement_stays fun _ => .pure _)
  | submodules => exact .bind submodule_stays fun _ => .pure _
  | connections => exact .bind link_stays fun _ => .pure _

/-- The header of a section stays inside the braces around it. -/
theorem typeSection_stays {k : Kind} {opened : BodySection}
    (h : BodySection.ofKind? k = some opened) (t : TypeDecl) :
    StaysIf (·.kind? = some k) (typeSection opened t) :=
  .bind (skipOne_stays (isBrace_of_section h)) fun _ => .bind (sectionHeader_stays opened) fun _ =>
    .pure _

/-- A word that declares a type is no brace. -/
theorem isBrace_of_isTypeWord {k : Kind} (h : k.isTypeWord = true) : k.isBrace = false := by
  unfold Kind.isTypeWord at h
  split at h <;> simp_all [Kind.isBrace]

mutual

/-- An inner type stays inside the braces around it. -/
theorem typeDeclFrom_stays {b : BodyClose} {s : Cursor} {k : Kind} (hk : k.isBrace = false)
    (hs : s.kind? = some k) (h : Inside b s.rest) : Inside b (typeDeclFrom s).2.rest := by
  have hhead := typeHead_stays hk b s hs h
  rw [typeDeclFrom]
  dsimp only
  split
  · exact hhead
  · split
    · rename_i head _ hbrace
      obtain ⟨t, ts, hrest, hkind⟩ := Cursor.exists_of_kind? hbrace
      rw [hrest] at hhead
      obtain ⟨b', hinner, hbehind⟩ := hhead.inner hkind
      have hlt : (typeHead.run s).2.next.rest.length < s.rest.length :=
        Nat.lt_of_lt_of_le (Cursor.length_next_lt (Cursor.rest_ne_nil_of_kind? hbrace))
          (typeHead.reaches s).length_le
      have hbody := typeBodyFrom_ends (b := b') .parameters head (s := (typeHead.run s).2.next)
        (by rwa [Cursor.rest_next, hrest])
      exact bodyEnd_stays hbody hbehind
    · exact bodiless_stays b _ hhead
termination_by (s.rest.length, 0)
decreasing_by exact Prod.Lex.left _ _ (by assumption)

/-- **A body ends at its closing brace,** whatever stands before it. -/
theorem typeBodyFrom_ends {b : BodyClose} (sec : BodySection) (t : TypeDecl) {s : Cursor}
    (h : Inside b s.rest) : (typeBodyFrom sec t s).2.rest = b.brace :: b.behind := by
  cases hrest : s.rest with
  | nil => exact absurd hrest h.ne_nil
  | cons token tokens =>
    have hkind : s.kind? = some token.kind := by
      rw [Cursor.kind?, hrest, List.head?_cons, Option.map_some]
    rw [typeBodyFrom_cons hrest]
    split
    · rename_i hclose
      rw [hrest] at h
      obtain ⟨rfl, rfl⟩ := h.eq_of_rbrace hclose
      exact hrest
    · rename_i hclose
      split
      · rename_i opened hopened
        have hlt : ((typeSection opened t).run s).2.rest.length < s.rest.length :=
          length_run_skipOne_bind_lt _ h.ne_nil
        exact typeBodyFrom_ends opened _ (typeSection_stays hopened t b s hkind h)
      · split
        · rename_i hword
          have hlt := typeDeclFrom_moves hkind
          dsimp only
          rw [if_pos hlt]
          exact typeBodyFrom_ends sec _
            (typeDeclFrom_stays (isBrace_of_isTypeWord hword.2) hkind h)
        · have hlt := plainMember_moves hclose sec t s hkind
          dsimp only
          rw [if_pos hlt]
          exact typeBodyFrom_ends sec _ (plainMember_stays sec t b s h)
termination_by (s.rest.length, 1)
decreasing_by
  all_goals first
    | exact Prod.Lex.right _ Nat.zero_lt_one
    | exact Prod.Lex.left _ _ (by assumption)

end

end Parser

end NedWorkspace
