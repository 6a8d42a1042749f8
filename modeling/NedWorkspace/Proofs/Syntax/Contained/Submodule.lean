/-
# Bodies end, and submodules stay inside the body around them

A body is read up to its closing brace (`Parser.Ends`), and in braces inside another body it is behind its own
brace that the outer one goes on (`Parser.Ends.braced`).
-/

import NedWorkspace.Proofs.Syntax.Contained.Member
import NedWorkspace.Proofs.Syntax.Contained.Moves
import NedWorkspace.Proofs.Syntax.Rounds

namespace NedWorkspace

open Stretch

namespace Parser

variable {α β : Type}

/-- A body is read up to its closing brace. -/
def Ends (p : Parser α) : Prop :=
  ∀ (b : BodyClose) (s : Cursor), Inside b s.rest → (p.run s).2.rest = b.brace :: b.behind

/-- At the closing brace, the brace is what is taken. -/
theorem expect_rbrace {b : BodyClose} {s : Cursor} (h : s.rest = b.brace :: b.behind)
    (what : String) : ((expect (.mark .rbrace) what).run s).2.rest = b.behind := by
  have hkind : s.kind? = some (.mark .rbrace) := by
    rw [Cursor.kind?, h, List.head?_cons, Option.map_some, b.kind]
  have hrun : (expect (.mark .rbrace) what).run s = (true, s.next) := by
    simp [expect, eat, at?, look, hkind, skipOne]
  rw [hrun, Cursor.rest_next, h, List.tail_cons]

/-- A body that ends, in braces inside another body. -/
theorem Ends.braced {p : Parser β} {f : β → Bool → Parser α} (hp : Ends p) (what : String)
    (hf : ∀ a found, Stays (f a found)) : StaysIf (·.kind? = some (.mark .lbrace))
      (skipOne >>= fun _ => p >>= fun a => expect (.mark .rbrace) what >>= f a) := by
  intro b s hs h
  obtain ⟨t, ts, hrest, hkind⟩ := Cursor.exists_of_kind? hs
  rw [hrest] at h
  obtain ⟨b', hinner, hbehind⟩ := h.inner hkind
  have hbody := hp b' s.next (by rwa [Cursor.rest_next, hrest])
  refine hf _ _ b _ ?_
  change Inside b ((expect _ what).run (p.run s.next).2).2.rest
  rw [expect_rbrace hbody]
  exact hbehind

/-- No member of a submodule takes the brace that closes it. -/
theorem submoduleMember_stays (sec : BodySection) (sub : Submodule) :
    Stays (submoduleMember sec sub) := by
  have hskip : Stays (do skipStatement; return sub) := .bind skipStatement_stays fun _ => .pure _
  cases sec with
  | gates => exact .bind gate_stays fun _ => .pure _
  | parameters =>
    exact .at?_bind (.bind propertyStatement_stays fun _ => .pure _)
      (.bind param_stays fun _ => .pure _)
  | types => exact hskip
  | submodules => exact hskip
  | connections => exact hskip

/-- The word for a section is no brace. -/
theorem isBrace_of_section {k : Kind} {opened : BodySection}
    (h : BodySection.ofKind? k = some opened) : k.isBrace = false := by
  unfold BodySection.ofKind? at h
  split at h <;> simp_all [Kind.isBrace]

theorem submoduleSection_stays {k : Kind} {opened : BodySection}
    (h : BodySection.ofKind? k = some opened) :
    StaysIf (·.kind? = some k) (submoduleSection opened) :=
  .bind (skipOne_stays (isBrace_of_section h)) fun _ => .bind (sectionHeader_stays opened) fun _ =>
    .ite (.complain _) (.pure _)

/-- The body of a submodule goes on exactly to the brace that closes it. -/
theorem submoduleBodyFrom_ends (b : BodyClose) (sec : BodySection) (sub : Submodule) (s : Cursor)
    (h : Inside b s.rest) : (submoduleBodyFrom sec sub s).2.rest = b.brace :: b.behind := by
  fun_induction submoduleBodyFrom sec sub s with
  | case1 sec sub s hs => exact absurd hs h.ne_nil
  | case2 sec sub s token tokens hs hclose =>
    rw [hs] at h ⊢
    obtain ⟨rfl, rfl⟩ := h.eq_of_rbrace hclose
    rfl
  | case3 sec sub s token tokens hs hclose opened hopened ih =>
    exact ih (submoduleSection_stays hopened b s (by simp [Cursor.kind?, hs]) h)
  | case4 sec sub s token tokens hs hclose hmember r hlt ih =>
    exact ih (submoduleMember_stays sec sub b s h)
  | case5 sec sub s token tokens hs hclose hmember r hlt ih =>
    exact absurd (submoduleMember_moves hclose sec sub s (by simp [Cursor.kind?, hs])) hlt

theorem submoduleBody_ends (sub : Submodule) : Ends (submoduleBody sub) :=
  fun b s h => submoduleBodyFrom_ends b .parameters sub s h

/-- A submodule stays inside the braces around it from its type on. -/
theorem submoduleFromType_stays (start : Nat) (node : NodeId) (name : String)
    (size : Option String) : Stays (submoduleFromType start node name size) := by
  refine .bind (eat_stays rfl) fun _ => .ite_bind likeExpression_stays (.pure _) fun like =>
    .bind (typeRef_stays _) fun type => ?_
  cases type with
  | none => exact .bind skipStatement_stays fun _ => .pure _
  | some type =>
    refine .bind (eat_stays rfl) fun _ => .when_bind (expression_stays _) ?_
    have hend : ∀ sub : Submodule, Stays (do return some { sub with span := ← spanFrom start }) :=
      fun sub => .bind (.look _) fun _ => .pure _
    exact .eat_bind ((submoduleBody_ends _).braced _ fun sub _ => .bind (eat_stays rfl) fun _ => hend sub)
      (.bind (expect_stays rfl _) fun _ => hend _)

/-- A submodule stays inside the braces around it. -/
theorem submodule_stays : Stays submodule := by
  have hgiveUp : Stays (do skipStatement; return none : Parser (Option Submodule)) :=
    .bind skipStatement_stays fun _ => .pure _
  refine .at?_bind (.bind strayProperty_stays fun _ => .pure _) ?_
  refine .bind (.look _) fun start => .bind .newNode fun node =>
    .bind (expectIdent_stays _) fun name => ?_
  cases name with
  | none => exact hgiveUp
  | some name =>
    have htype : ∀ size : Option String, Stays (do
        if ← expect (.mark .colon) "':'" then submoduleFromType start node name size
        else do skipStatement; return none) := fun size =>
      .bind (expect_stays rfl _) fun _ => .ite (submoduleFromType_stays _ _ _ _) hgiveUp
    exact .bind (eat_stays rfl) fun _ =>
      .ite (.bind bracketed_stays fun _ => htype _) (htype _)

end Parser

end NedWorkspace
