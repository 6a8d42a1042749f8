/-
# Connections stay inside the body
-/

import NedWorkspace.Proofs.Syntax.Contained.Submodule

namespace NedWorkspace

open Stretch

namespace Parser

variable {α : Type}

theorem gateIndex_stays : Stays gateIndex :=
  .at?_bind (.bind (skipGroup_stays rfl) fun _ => .pure _)
    (.bind (eat_stays rfl) fun _ => .ite (.pure _) (.pure _))

/-- The name of a gate stays inside the braces around it. -/
theorem gateRef_stays : Stays gateRef := by
  refine .bind (expectIdent_stays _) fun first => ?_
  cases first with
  | none => exact .pure _
  | some first =>
    refine whenGroup_stays rfl fun indexed => .bind (eat_stays rfl) fun _ => .ite ?_
      (.ite_bind (.pure _) gateIndex_stays fun _ => .pure _)
    refine .bind (expectIdent_stays _) fun gate => ?_
    cases gate with
    | none => exact .pure _
    | some gate => exact .bind gateIndex_stays fun _ => .pure _

theorem arrow_stays : Stays arrow := by
  refine .look_bind fun kind => ?_
  cases kind with
  | none => exact (Stays.bind (.complainExpected _) fun _ => .pure _).staysIf
  | some k =>
    dsimp only
    split
    · rename_i harrow
      have hk : k.isBrace = false := by
        unfold Kind.isArrow at harrow
        split at harrow <;> simp_all [Kind.isBrace]
      exact .bind (skipOne_stays hk) fun _ => .pure _
    · exact (Stays.bind (.complainExpected _) fun _ => .pure _).staysIf

/-- The label of a channel is a name and a colon. -/
theorem label_stays {p : Parser α} (hp : Stays p) : Stays (do
    if ← look isLabelled then
      skipOne
      skipOne
    p) := by
  refine .look_bind fun labelled => ?_
  cases labelled with
  | false => exact hp.staysIf
  | true =>
    intro b s hs h
    refine hp b s.next.next ?_
    simp only [isLabelled, Bool.and_eq_true, beq_iff_eq] at hs
    obtain ⟨t, ts, hrest, hident⟩ := Cursor.exists_of_kind? hs.1
    cases ts with
    | nil => exact absurd hs.2 (by simp [Cursor.secondKind?, hrest])
    | cons u us =>
      have hcolon : u.kind = .mark .colon := by simpa [Cursor.secondKind?, hrest] using hs.2
      rw [hrest] at h
      rw [Cursor.rest_next, Cursor.rest_next, hrest]
      exact (h.tail (by rw [hident]; rfl)).tail (by rw [hcolon]; rfl)

/-- The specification of a channel stays inside the braces around it. -/
theorem channelSpec_stays : Stays channelSpec := by
  refine .bind (.look _) fun start => .bind .newNode fun node => label_stays ?_
  refine .bind (eat_stays rfl) fun _ => .ite_bind likeExpression_stays (.pure _) fun like =>
    .bind (.look _) fun _ => .ite_bind (typeRef_stays _) (.pure _) fun type =>
    whenGroup_stays rfl fun _ => ?_
  exact .when_bind (.complainExpected _) (.bind (.look _) fun _ => .pure _)

/-- What stands between arrows stays inside the braces around it. -/
theorem channelBetween_stays : Stays channelBetween := by
  refine .bind (.look _) fun _ => .ite ?_ (.pure _)
  refine .bind channelSpec_stays fun channel => .bind arrow_stays fun arrow => ?_
  cases arrow with
  | none => exact .pure _
  | some k => exact .pure _

theorem connectionEnd_stays : Stays connectionEnd :=
  .bind (eat_stays rfl) fun _ => .when_bind (expression_stays _)
    (.bind (eat_stays rfl) fun _ => .ite (.pure _) (.bind (expect_stays rfl _) fun _ => .pure _))

theorem giveUp_stays : Stays (giveUp : Parser (Option α)) :=
  .bind skipStatement_stays fun _ => .pure _

/-- A connection stays inside the braces around it. -/
theorem connection_stays : Stays connection := by
  refine .bind (.look _) fun start => .bind .newNode fun node => .bind gateRef_stays fun left => ?_
  cases left with
  | none => exact giveUp_stays
  | some left =>
    refine .bind arrow_stays fun k => ?_
    cases k with
    | none => exact giveUp_stays
    | some k =>
      refine .bind channelBetween_stays fun channel => ?_
      cases channel with
      | none => exact .pure _
      | some channel =>
        refine .bind gateRef_stays fun right => ?_
        cases right with
        | none => exact giveUp_stays
        | some right => exact .bind connectionEnd_stays fun _ => .bind (.look _) fun _ => .pure _

theorem plainLink_stays : Stays plainLink := by
  refine .look_bind fun kind => ?_
  split
  · exact .bind strayProperty_stays fun _ => .pure _
  · exact (Stays.bind connection_stays fun _ => .pure _).staysIf
  · exact (Stays.bind (.complainExpected _) fun _ =>
      .bind skipStatement_stays fun _ => .pure _).staysIf

theorem loopHead_stays : StaysIf (·.kind? = some (.keyword .forWord)) loopHead :=
  .bind (skipOne_stays rfl) fun _ => .bind (expression_stays _) fun _ => .pure _

theorem loopUnopened_stays : Stays loopUnopened :=
  .bind (.complainExpected _) fun _ => skipStatement_stays

/-- Behind the closing brace of an inner body the outer one goes on. -/
theorem bodyEnd_stays {b b' : BodyClose} {s : Cursor} (h : s.rest = b'.brace :: b'.behind)
    (hbehind : Inside b b'.behind) : Inside b (bodyEnd.run s).2.rest := by
  refine Stays.bind (eat_stays (k := .mark .semicolon) rfl) (fun _ => .pure ()) b
    ((expect (.mark .rbrace) "'\x7d'").run s).2 ?_
  rw [expect_rbrace h]
  exact hbehind

mutual

/-- A connection or a loop stays inside the braces around it. -/
theorem linkFrom_stays {b : BodyClose} {s : Cursor} (h : Inside b s.rest) :
    Inside b (linkFrom s).2.rest := by
  rw [linkFrom]
  split
  · rename_i hfor
    have hhead := loopHead_stays b s hfor h
    dsimp only
    split
    · rename_i hbrace
      obtain ⟨t, ts, hrest, hkind⟩ := Cursor.exists_of_kind? hbrace
      rw [hrest] at hhead
      obtain ⟨b', hinner, hbehind⟩ := hhead.inner hkind
      have hlt : (loopHead.run s).2.next.rest.length < s.rest.length :=
        Nat.lt_of_lt_of_le (Cursor.length_next_lt (Cursor.rest_ne_nil_of_kind? hbrace))
          (loopHead.reaches s).length_le
      have hlinks := linksFrom_ends (b := b') (s := (loopHead.run s).2.next)
        (by rwa [Cursor.rest_next, hrest])
      exact bodyEnd_stays hlinks hbehind
    · exact loopUnopened_stays b _ hhead
  · exact plainLink_stays b s h
termination_by (s.rest.length, 0)
decreasing_by exact Prod.Lex.left _ _ (by assumption)

/-- A list of connections goes on exactly to the brace that closes it. -/
theorem linksFrom_ends {b : BodyClose} {s : Cursor} (h : Inside b s.rest) :
    (linksFrom s).2.rest = b.brace :: b.behind := by
  cases hrest : s.rest with
  | nil => exact absurd hrest h.ne_nil
  | cons t ts =>
    have hkind : s.kind? = some t.kind := by rw [Cursor.kind?, hrest, List.head?_cons, Option.map_some]
    rw [linksFrom]
    split
    · rename_i hend
      have hclose : t.kind = .mark .rbrace := by
        rcases hend with hend | hend
        · exact absurd (hkind.symm.trans hend) (by simp)
        · exact Option.some.inj (hkind.symm.trans hend)
      rw [hrest] at h ⊢
      obtain ⟨rfl, rfl⟩ := h.eq_of_rbrace hclose
      rfl
    · rename_i hgo
      have hlt : (linkFrom s).2.rest.length < s.rest.length :=
        linkFrom_moves (fun hk => hgo (.inr (hk ▸ hkind))) hkind
      dsimp only
      rw [if_pos hlt]
      exact linksFrom_ends (linkFrom_stays h)
termination_by (s.rest.length, 1)
decreasing_by
  all_goals first
    | exact Prod.Lex.right _ Nat.zero_lt_one
    | exact Prod.Lex.left _ _ (by assumption)

end

theorem link_stays : Stays link :=
  fun _ _ h => linkFrom_stays h

end Parser

end NedWorkspace
