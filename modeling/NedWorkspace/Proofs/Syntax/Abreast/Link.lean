/-
# Connections abreast
-/

import NedWorkspace.Proofs.Syntax.Abreast.Member
import NedWorkspace.Syntax.Link

namespace NedWorkspace

namespace Parser

variable {α β : Type} {L : Likeness}

open Echoing

/-- The index of a gate is read abreast. -/
theorem gateIndex_abreast : Abreast L Eq gateIndex gateIndex := by
  refine .bind_eq (at?_abreast _) fun bracket => ?_
  split
  · exact .bind_eq skipGroup_abreast fun _ => .pure rfl
  · refine .bind_eq (eat_abreast _) fun next => ?_
    split
    · exact .pure rfl
    · exact .pure rfl

/-- The name of a gate, with what stands around it, is read abreast. -/
theorem gateRef_abreast : Abreast L Eq gateRef gateRef := by
  refine .bind_eq (expectIdent_abreast _) fun first => ?_
  cases first with
  | none => exact .pure rfl
  | some first =>
    refine .bind_eq (at?_abreast _) fun indexed => .when_bind skipGroup_abreast ?_
    refine .bind_eq (eat_abreast _) fun dot => ?_
    split
    · refine .bind_eq (expectIdent_abreast _) fun gate => ?_
      cases gate with
      | none => exact .pure rfl
      | some gate => exact .bind_eq gateIndex_abreast fun _ => .pure rfl
    · exact .ite_bind (.pure rfl) gateIndex_abreast fun _ _ h => .pure (by rw [h])

theorem arrow_abreast : Abreast L Eq arrow arrow := by
  refine .bind_eq kind?_abreast fun kind => ?_
  split
  · split
    · exact .bind_eq skipOne_abreast fun _ => .pure rfl
    · exact .bind_eq (complainExpected_abreast _) fun _ => .pure rfl
  · exact .bind_eq (complainExpected_abreast _) fun _ => .pure rfl

/-- The specification of a channel is read abreast. -/
theorem channelSpec_abreast : Abreast L (ChannelSpec.Echo L.slice) channelSpec channelSpec := by
  refine .start_bind fun _ _ => .newNode_bind fun _ _ =>
    .bind_eq (.look fun _ _ _ h => by simp only [isLabelled, h.kind?, h.secondKind?])
      fun labelled => ?_
  refine .when ?_ fun h => .bind_eq skipOne_abreast fun _ => .bind_eq skipOne_abreast fun _ => h
  refine .eat_ite_bind likeOption_abreast (.pure .none) fun _ like like' hlike =>
    .bind_eq (at?_abreast _) fun named =>
    .ite_bind (typeRef_abreast _) (.pure .none) fun type type' htype =>
    .bind_eq (at?_abreast _) fun brace => .when_bind skipGroup_abreast ?_
  have hmissing : (type.isNone = true ∧ like.isSome = true) ↔
      (type'.isNone = true ∧ like'.isSome = true) := by
    cases htype <;> cases hlike <;> simp
  simp only [hmissing]
  exact .when_bind (complainExpected_abreast _)
    (.spanFrom_bind fun _ _ => .pure ⟨htype, hlike⟩)

/-- What stands between two arrows is read abreast, or is missing on each side. -/
theorem channelBetween_abreast :
    Abreast L (Option.Rel (Echo L.slice)) channelBetween channelBetween := by
  refine .bind_eq (.look fun _ _ _ h => Stretch.arrowAhead_congr h.sameKinds 0) fun ahead => ?_
  split
  · refine .bind channelSpec_abreast fun _ _ h => .bind_eq arrow_abreast fun arrow => ?_
    cases arrow with
    | none => exact .pure .none
    | some k => exact .pure (.some (.some h))
  · exact .pure (.some .none)

/-- What ends a connection is passed over on each side. -/
theorem connectionEnd_abreast : Abreast L Eq connectionEnd connectionEnd := by
  refine .bind_eq (eat_abreast _) fun condition => .when_bind (expression_abreast _) ?_
  refine .bind_eq (eat_abreast _) fun comma => ?_
  split
  · exact .pure rfl
  · exact .bind_eq (expect_abreast _ _) fun _ => .pure rfl

theorem giveUp_abreast {R : α → β → Prop} :
    Abreast L (Option.Rel R) (giveUp : Parser (Option α)) (giveUp : Parser (Option β)) :=
  .bind_eq skipStatement_abreast fun _ => .pure .none

/-- The arrow turns a connection the same way on each side. -/
theorem orient_echo (m n : NodeId) (left : GateRef) (k : Kind) (right : GateRef)
    {channel channel' : Option ChannelSpec} (h : Echo L.slice channel channel') (a b : Span) :
    (orient m left k right channel a).Echo L.slice (orient n left k right channel' b) := by
  unfold orient
  split
  · exact ⟨rfl, rfl, rfl, h⟩
  · split
    · exact ⟨rfl, rfl, rfl, h⟩
    · exact ⟨rfl, rfl, rfl, h⟩

/-- Connections are read abreast. -/
theorem connection_abreast : Abreast L (Echo L.slice) connection connection := by
  refine .start_bind fun _ _ => .newNode_bind fun _ _ => .bind_eq gateRef_abreast fun left => ?_
  cases left with
  | none => exact giveUp_abreast
  | some left =>
    refine .bind_eq arrow_abreast fun k => ?_
    cases k with
    | none => exact giveUp_abreast
    | some k =>
      refine .bind channelBetween_abreast fun channel channel' hchannel => ?_
      cases hchannel with
      | none => exact .pure .none
      | some hchannel =>
        refine .bind_eq gateRef_abreast fun right => ?_
        cases right with
        | none => exact giveUp_abreast
        | some right =>
          exact .bind_eq connectionEnd_abreast fun _ => .spanFrom_bind fun _ _ =>
            .pure (.some (orient_echo _ _ left k right hchannel _ _))

theorem plainLink_abreast : Abreast L (Echo L.slice) plainLink plainLink := by
  refine .bind_eq kind?_abreast fun kind => ?_
  split
  · exact .bind_eq strayProperty_abreast fun _ => .pure .nil
  · exact .bind connection_abreast fun _ _ h => .pure (option_rel_toList h)
  · exact .bind_eq (complainExpected_abreast _) fun _ =>
      .bind_eq skipStatement_abreast fun _ => .pure .nil

theorem loopHead_abreast : Abreast L Eq loopHead loopHead :=
  .bind_eq skipOne_abreast fun _ => .bind (expression_abreast _) fun _ _ _ => .pure rfl

theorem loopEnd_abreast : Abreast L Eq loopEnd loopEnd :=
  .bind_eq (expect_abreast _ _) fun _ => .bind_eq (eat_abreast _) fun _ => .pure rfl

theorem loopUnopened_abreast : Abreast L Eq loopUnopened loopUnopened :=
  .bind_eq (complainExpected_abreast _) fun _ => skipStatement_abreast

mutual

/-- Connections and loops over them are read abreast, as many on each side. -/
theorem linkFrom_abreast {before : List String} {s t : Cursor} (h : s.Abreast L before t) :
    Echo L.slice (linkFrom s).1 (linkFrom t).1 ∧
      (linkFrom s).2.Abreast L before (linkFrom t).2 := by
  rw [linkFrom, linkFrom, ← h.kind?]
  have hhead := (loopHead_abreast before s t h).2
  split
  · dsimp only
    rw [← hhead.kind?]
    split
    · obtain ⟨hlinks, hafter⟩ := linksFrom_abreast hhead.next
      exact ⟨hlinks, (loopEnd_abreast before _ _ hafter).2⟩
    · exact ⟨.nil, (loopUnopened_abreast before _ _ hhead).2⟩
  · exact plainLink_abreast before s t h
termination_by (s.rest.length, 0)
decreasing_by
  rename_i hbrace
  exact Prod.Lex.left _ _ (Nat.lt_of_lt_of_le
    (Cursor.length_next_lt (Cursor.rest_ne_nil_of_kind? hbrace)) (loopHead.reaches s).length_le)

/-- What stands between braces is read abreast up to the closing one. -/
theorem linksFrom_abreast {before : List String} {s t : Cursor} (h : s.Abreast L before t) :
    Echo L.slice (linksFrom s).1 (linksFrom t).1 ∧
      (linksFrom s).2.Abreast L before (linksFrom t).2 := by
  rw [linksFrom, linksFrom, ← h.kind?]
  split
  · exact ⟨.nil, h⟩
  · obtain ⟨hlink, hafter⟩ := linkFrom_abreast h
    dsimp only
    rw [← h.length_eq, ← hafter.length_eq]
    split
    · obtain ⟨hmore, hend⟩ := linksFrom_abreast hafter
      exact ⟨List.rel_append hlink hmore, hend⟩
    · exact ⟨hlink, hafter⟩
termination_by (s.rest.length, 1)

end

theorem link_abreast : Abreast L (Echo L.slice) link link :=
  fun _ _ _ h => linkFrom_abreast h

end Parser

end NedWorkspace
