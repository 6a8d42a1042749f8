/-
# Properties, parameters and gates stay inside the body
-/

import NedWorkspace.Proofs.Syntax.Contained.Step

namespace NedWorkspace

open Stretch

namespace Parser

variable {α : Type}

theorem bracketed_stays : Stays bracketed :=
  .bind (expression_stays _) fun _ => .bind (expect_stays rfl _) fun _ => .pure _

/-- A group that may be left out. -/
theorem whenGroup_stays {k : Kind} (hk : k.isOpening = true) {f : Bool → Parser α}
    (hf : ∀ grouped, Stays (f grouped)) :
    Stays (at? k >>= fun grouped => if grouped then skipGroup >>= fun _ => f grouped else f grouped) :=
  .at?_bind ((skipGroup_stays hk).bind fun _ => hf true) (hf false)

/-- Stepping over a property takes the token behind its `@` unseen. -/
theorem skipProperty_stays : StaysIf (·.kind? = some (.mark .atSign)) skipProperty := by
  intro b s hs h
  obtain ⟨t, ts, hrest, hkind⟩ := Cursor.exists_of_kind? hs
  have hnext : s.next.rest = ts := by rw [Cursor.rest_next, hrest, List.tail_cons]
  rw [hrest] at h
  have hname : Inside b s.next.rest := hnext.symm ▸ h.tail (by rw [hkind]; rfl)
  have hgroups : Stays (do
      if ← at? (.mark .lbracket) then skipGroup
      if ← at? (.mark .lparen) then skipGroup) :=
    whenGroup_stays rfl fun _ => .at?_bind (skipGroup_stays rfl) (.pure _)
  refine hgroups b s.next.next ?_
  rw [Cursor.rest_next]
  cases ts with
  | nil => exact absurd hnext hname.ne_nil
  | cons u us =>
    rw [hnext] at hname ⊢
    exact hname.tail (h.isBrace_second hkind)

theorem propertyValue_stays : Stays propertyValue :=
  .bind (expression_stays _) fun _ => .pure _

/-- An entry of a property stays inside the braces around it. -/
theorem propertyEntry_stays : Stays propertyEntry := by
  refine .bind (.look _) fun kind => ?_
  have hvalues : ∀ key, Stays (do
      let values ← sepBy (.mark .comma) propertyValue
      return some ({ key, values } : PropertyEntry)) := fun key =>
    .bind (sepBy_stays rfl propertyValue_stays) fun _ => .pure _
  split
  · exact .pure _
  · exact .pure _
  · refine .look_bind fun key => ?_
    cases key with
    | none => exact (hvalues "").staysIf
    | some key =>
      intro b s hkey h
      obtain ⟨t, u, us, hrest, hword, heq⟩ := exists_of_keyAhead hkey
      rw [hrest] at h
      refine hvalues key b s.next.next ?_
      rw [Cursor.rest_next, Cursor.rest_next, hrest]
      exact (h.tail (h.isBrace_word hword)).tail (by rw [heq]; rfl)

/-- A property stays inside the braces around it if it begins with its sign. -/
theorem property_stays : StaysIf (·.kind? = some (.mark .atSign)) property := by
  have hentries : Stays (do
      let entries ← sepBy (.mark .semicolon) propertyEntry
      let _ ← expect (.mark .rparen) "')'"
      pure entries) :=
    .bind (sepBy_stays rfl propertyEntry_stays) fun _ => .bind (expect_stays rfl _) fun _ => .pure _
  refine .look_bind fun start => .bind (.skipOne fun _ s t ts hs hrest _ => ?_) fun _ =>
    .bind .newNode fun node => .look_bind fun name => ?_
  · obtain ⟨u, us, hrest', hkind⟩ := Cursor.exists_of_kind? hs.1
    rw [(List.cons.inj (hrest.symm.trans hrest')).1, hkind]
    rfl
  · cases name with
    | none => exact (Stays.bind (.complainExpected _) fun _ => .pure _).staysIf
    | some name =>
      refine .bind (.skipOne fun b s t ts hs hrest h => ?_) fun _ =>
        .bind (eat_stays rfl) fun _ => .ite_bind bracketed_stays (.pure _) fun _ =>
        .bind (eat_stays rfl) fun _ => .ite_bind hentries (.pure _) fun _ =>
        .bind (.look _) fun _ => .pure _
      rw [hrest, List.head?_cons, Option.map_some, Option.filter_eq_some_iff] at hs
      exact h.isBrace_word (Option.some.inj hs.1 ▸ hs.2)

theorem properties_stays : Stays properties := by
  refine manyWhileFrom_stays fun b s hs h => ?_
  obtain ⟨k, hk, hat⟩ := (Option.any_eq_true _ _).mp hs
  exact property_stays b s (hk.trans (congrArg some (eq_of_beq hat))) h

theorem propertyStatement_stays :
    StaysIf (·.kind? = some (.mark .atSign)) propertyStatement :=
  .bind property_stays fun _ => .bind (eat_stays rfl) fun _ => .pure _

theorem paramValue_stays : Stays paramValue :=
  .bind (eat_stays rfl) fun _ => .ite
    (.bind (expression_stays _) fun _ => .when_bind (.complainExpected _) (.pure _)) (.pure _)

/-- A parameter stays inside the braces around it from its name on. -/
theorem paramFromName_stays (start : Nat) (volatile : Bool) (type : Option ParamType) :
    Stays (paramFromName start volatile type) := by
  refine .bind .newNode fun _ => .bind (expectIdent_stays _) fun name => ?_
  cases name with
  | none => exact .bind skipStatement_stays fun _ => .pure _
  | some name =>
    exact .bind properties_stays fun _ => .bind paramValue_stays fun _ =>
      .bind properties_stays fun _ => .bind (expect_stays rfl _) fun _ => .bind (.look _) fun _ =>
      .pure _

/-- The word for the type of a parameter is no brace. -/
theorem isBrace_of_paramType? {k : Kind} {type : ParamType} (h : paramType? k = some type) :
    k.isBrace = false := by
  unfold paramType? at h
  split at h <;> simp_all [Kind.isBrace]

/-- The word for the direction of a gate is no brace. -/
theorem isBrace_of_direction? {k : Kind} {d : GateDirection} (h : direction? k = some d) :
    k.isBrace = false := by
  unfold direction? at h
  split at h <;> simp_all [Kind.isBrace]

/-- A parameter stays inside the braces around it. -/
theorem param_stays : Stays param := by
  refine .bind (.look _) fun _ => .bind (eat_stays rfl) fun volatile => .look_bind fun next => ?_
  split
  · rename_i type htype
    obtain ⟨k, rfl, hk⟩ := Option.bind_eq_some_iff.mp htype
    intro b s hs
    exact StaysIf.bind (skipOne_stays (isBrace_of_paramType? hk))
      (fun _ => paramFromName_stays _ _ _) b s hs
  · refine (Stays.bind (.look _) fun plain => .ite (paramFromName_stays _ _ _) ?_).staysIf
    exact .when_bind (.complainExpected _) (.bind skipStatement_stays fun _ => .pure _)

theorem strayProperty_stays : StaysIf (·.kind? = some (.mark .atSign)) strayProperty :=
  .bind skipProperty_stays fun _ => .bind (eat_stays rfl) fun _ => .pure _

/-- A gate stays inside the braces around it. -/
theorem gate_stays : Stays gate := by
  refine .at?_bind (.bind strayProperty_stays fun _ => .pure _) ?_
  refine .bind (.look _) fun start => .look_bind fun next => ?_
  refine .when_bind (fun hdirection => ?_) ?_
  · obtain ⟨d, hd⟩ := Option.isSome_iff_exists.mp hdirection
    obtain ⟨k, rfl, hk⟩ := Option.bind_eq_some_iff.mp hd
    exact skipOne_stays (isBrace_of_direction? hk)
  · refine .bind .newNode fun _ => .bind (expectIdent_stays _) fun name => ?_
    cases name with
    | none => exact .bind skipStatement_stays fun _ => .pure _
    | some name =>
      exact .bind (eat_stays rfl) fun _ => .ite_bind bracketed_stays (.pure _) fun _ =>
        .bind properties_stays fun _ => .bind (expect_stays rfl _) fun _ => .bind (.look _) fun _ =>
        .pure _

theorem sectionHeader_stays (opened : BodySection) : Stays (sectionHeader opened) :=
  .ite_bind (eat_stays rfl) (.pure _) fun _ => .bind (expect_stays rfl _) fun _ => .pure _

theorem likeExpression_stays : Stays (some <$> likeExpression) :=
  .bind (.bind (expression_stays _) fun _ => .bind (expect_stays rfl _) fun _ =>
    .bind (expect_stays rfl _) fun _ => .pure _) fun _ => .pure _

end Parser

end NedWorkspace
