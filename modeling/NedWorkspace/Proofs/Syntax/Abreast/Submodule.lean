/-
# Submodules abreast
-/

import NedWorkspace.Proofs.Syntax.Abreast.Member
import NedWorkspace.Proofs.Syntax.Rounds

namespace NedWorkspace

namespace Parser

variable {L : Likeness}

open Echoing

/-- A member of a submodule adds an echo to an echo. -/
theorem submoduleMember_abreast (sec : BodySection) {sub sub' : Submodule}
    (h : sub.Echo L.slice sub') :
    Abreast L (Submodule.Echo L.slice) (submoduleMember sec sub) (submoduleMember sec sub') := by
  have hskip : Abreast L (Submodule.Echo L.slice) (do skipStatement; return sub)
      (do skipStatement; return sub') := .bind_eq skipStatement_abreast fun _ => .pure h
  cases sec with
  | gates =>
    exact .bind gate_abreast fun _ _ hgate =>
      .pure { h with gates := List.rel_append h.gates (option_rel_toList hgate) }
  | parameters =>
    refine .bind_eq (at?_abreast _) fun property => ?_
    split
    · exact .bind propertyStatement_abreast fun _ _ hproperty =>
        .pure { h with properties := List.rel_append h.properties (option_rel_toList hproperty) }
    · exact .bind param_abreast fun _ _ hparam =>
        .pure { h with params := List.rel_append h.params (option_rel_toList hparam) }
  | types => exact hskip
  | submodules => exact hskip
  | connections => exact hskip

/-- The header of a section in a submodule is read abreast. -/
theorem submoduleSection_abreast (opened : BodySection) :
    Abreast L Eq (submoduleSection opened) (submoduleSection opened) := by
  refine .bind_eq skipOne_abreast fun _ => .bind_eq (sectionHeader_abreast opened) fun _ => ?_
  split
  · exact complain_abreast _
  · exact .pure rfl

/-- Bodies of submodules are read abreast in the same section. -/
theorem submoduleBodyFrom_abreast (before : List String) (sec : BodySection) (sub : Submodule)
    (s : Cursor) : ∀ (sub' : Submodule) (t : Cursor), sub.Echo L.slice sub' →
    s.Abreast L before t →
    (submoduleBodyFrom sec sub s).1.Echo L.slice (submoduleBodyFrom sec sub' t).1 ∧
      (submoduleBodyFrom sec sub s).2.Abreast L before (submoduleBodyFrom sec sub' t).2 := by
  fun_induction submoduleBodyFrom sec sub s with
  | case1 sec sub s hs =>
    intro sub' t hsub h
    have ht : t.rest = [] := List.forall₂_nil_left_iff.mp (hs ▸ h.words)
    rw [submoduleBodyFrom]
    split
    · exact ⟨hsub, h⟩
    · simp_all
  | case2 sec sub s token tokens hs hclose =>
    intro sub' t hsub h
    obtain ⟨token', tokens', hword, _, ht⟩ := List.forall₂_cons_left_iff.mp (hs ▸ h.words)
    rw [submoduleBodyFrom_cons ht, ← Token.kind_of_word hword, if_pos hclose]
    exact ⟨hsub, h⟩
  | case3 sec sub s token tokens hs hclose opened hopened ih =>
    intro sub' t hsub h
    obtain ⟨token', tokens', hword, _, ht⟩ := List.forall₂_cons_left_iff.mp (hs ▸ h.words)
    rw [submoduleBodyFrom_cons ht, ← Token.kind_of_word hword, if_neg hclose, hopened]
    exact ih sub' _ hsub (submoduleSection_abreast opened before s t h).2
  | case4 sec sub s token tokens hs hclose hmember r hlt ih =>
    intro sub' t hsub h
    obtain ⟨token', tokens', hword, _, ht⟩ := List.forall₂_cons_left_iff.mp (hs ▸ h.words)
    obtain ⟨hresult, hafter⟩ := submoduleMember_abreast sec hsub before s t h
    rw [hafter.length_eq, h.length_eq] at hlt
    rw [submoduleBodyFrom_cons ht, ← Token.kind_of_word hword, if_neg hclose, hmember]
    simp only [if_pos hlt]
    exact ih _ _ hresult hafter
  | case5 sec sub s token tokens hs hclose hmember r hlt ih =>
    intro sub' t hsub h
    obtain ⟨token', tokens', hword, _, ht⟩ := List.forall₂_cons_left_iff.mp (hs ▸ h.words)
    obtain ⟨hresult, hafter⟩ := submoduleMember_abreast sec hsub before s t h
    rw [hafter.length_eq, h.length_eq] at hlt
    rw [submoduleBodyFrom_cons ht, ← Token.kind_of_word hword, if_neg hclose, hmember]
    simp only [if_neg hlt]
    exact ih _ _ hresult (passOver_abreast _ before _ _ hafter).2

theorem submoduleBody_abreast {sub sub' : Submodule} (h : sub.Echo L.slice sub') :
    Abreast L (Submodule.Echo L.slice) (submoduleBody sub) (submoduleBody sub') :=
  fun before s t hst => submoduleBodyFrom_abreast before .parameters sub s sub' t h hst

/-- Submodules are read abreast from their type on. -/
theorem submoduleFromType_abreast (m n : Nat) (node node' : NodeId) (name : String)
    {size size' : Option String} (hsize : Option.Rel L.slice size size') :
    Abreast L (Echo L.slice) (submoduleFromType m node name size)
      (submoduleFromType n node' name size') := by
  refine .eat_ite_bind likeOption_abreast (.pure .none) fun _ like like' hlike =>
    .bind (typeRef_abreast _) fun type type' htype => ?_
  cases htype with
  | none => exact .bind_eq skipStatement_abreast fun _ => .pure .none
  | some htype =>
    rename_i type type'
    have hsub : Submodule.Echo L.slice
        { node, name, vectorSize := size, type, like, params := [], gates := [], properties := [],
          span := {} }
        { node := node', name, vectorSize := size', type := type', like := like', params := [],
          gates := [], properties := [], span := {} } :=
      ⟨rfl, hsize, htype, hlike, .nil, .nil, .nil⟩
    refine .bind_eq (eat_abreast _) fun condition => .when_bind (expression_abreast _) ?_
    have hend : ∀ sub sub' : Submodule, sub.Echo L.slice sub' → Abreast L (Echo L.slice)
        (do return some { sub with span := ← spanFrom m })
        (do return some { sub' with span := ← spanFrom n }) := fun _ _ h =>
      .spanFrom_bind fun _ _ => .pure (.some { h with })
    refine .bind_eq (eat_abreast _) fun brace => ?_
    dsimp only
    split
    · exact .bind (submoduleBody_abreast hsub) fun _ _ h => .bind_eq (expect_abreast _ _) fun _ =>
        .bind_eq (eat_abreast _) fun _ => .bind (.pure h) hend
    · exact .bind_eq (expect_abreast _ _) fun _ => .bind (.pure hsub) hend

/-- Submodules are read abreast. -/
theorem submodule_abreast : Abreast L (Echo L.slice) submodule submodule := by
  have hgiveUp : Abreast L (Echo L.slice) (do skipStatement; return none : Parser (Option Submodule))
      (do skipStatement; return none) := .bind_eq skipStatement_abreast fun _ => .pure .none
  refine .bind_eq (at?_abreast _) fun property => ?_
  split
  · exact .bind_eq strayProperty_abreast fun _ => .pure .none
  · refine .start_bind fun m n => .newNode_bind fun node node' =>
      .bind_eq (expectIdent_abreast _) fun name => ?_
    cases name with
    | none => exact hgiveUp
    | some name =>
      have htype : ∀ size size', Option.Rel L.slice size size' → Abreast L (Echo L.slice)
          (do if ← expect (.mark .colon) "':'" then submoduleFromType m node name size
              else do skipStatement; return none)
          (do if ← expect (.mark .colon) "':'" then submoduleFromType n node' name size'
              else do skipStatement; return none) := by
        refine fun size size' hsize => .bind_eq (expect_abreast _ _) fun colon => ?_
        split
        · exact submoduleFromType_abreast _ _ _ _ name hsize
        · exact hgiveUp
      refine .eat_bind (.bind bracketed_abreast fun _ _ h => .bind (.pure (.some ?_)) htype)
        (.bind (.pure .none) htype)
      cases h with
      | none => exact L.empty
      | some h => exact h

end Parser

end NedWorkspace
