/-
# Properties, parameters and gates abreast
-/

import NedWorkspace.Proofs.Syntax.Abreast.Step

namespace NedWorkspace

namespace Parser

variable {α β : Type} {L : Likeness}

open Echoing

/-! ### Expressions that are kept -/

/-- Where an expression goes on that only semicolons end, one goes on that ends before. -/
theorem held_expression {stops : List Kind} (hstops : .mark .semicolon ∈ stops) {s t : Cursor}
    (h : Cursor.Held L (Stretch.expression [.mark .semicolon] 0) s t) :
    Cursor.Held L (Stretch.expression stops 0) s t :=
  h.mono (Stretch.expression_le (by simpa using hstops) 0)

/-- Of an expression that is not a value of a property the text is kept as it is. -/
theorem bracketed_abreast : AbreastIf L (Cursor.Behind L (.mark .lbracket)) (Option.Rel L.slice)
    bracketed bracketed := by
  have hexpression := (expression_kept (L := L) indexStops).mono fun _ h => held_expression (by decide) h
  refine .bind (hexpression.mono fun _ h => h.held) fun a b h => .bind_eq (expect_abreast _ _) fun _ =>
    .pure ?_
  cases h with
  | none => exact .none
  | some h => exact .some h.1

/-! ### Properties -/

/-- A property that cannot be read is passed over on each side. -/
theorem skipProperty_abreast : Abreast L Eq skipProperty skipProperty := by
  refine .bind_eq skipOne_abreast fun _ => .bind_eq skipOne_abreast fun _ =>
    .bind_eq (at?_abreast _) fun bracket => .when_bind skipGroup_abreast ?_
  refine .bind_eq (at?_abreast _) fun paren => ?_
  split
  · exact skipGroup_abreast
  · exact .pure rfl

/-- Between the brackets of a property what lies ahead can be kept up to the closing one. -/
def Listed (L : Likeness) : Cursor → Cursor → Prop :=
  Cursor.Held L (Stretch.expression [] 0)

/-- Behind a token that is no bracket. -/
theorem Listed.next {s t : Cursor} (h : Listed L s t) {u : Token} {us : List Token}
    (hs : s.rest = u :: us) (hopening : u.kind.isOpening = false) (hclosing : u.kind.isClosing = false) :
    Listed L s.next t.next := by
  refine h.skip 1 ?_
  rw [hs, List.drop_one, List.tail_cons]
  exact Stretch.expression_cons hopening hclosing

/-- Behind a separator. -/
theorem Listed.separator {m : Mark} (hopening : Kind.isOpening (.mark m) = false)
    (hclosing : Kind.isClosing (.mark m) = false) (s t : Cursor) (h : Listed L s t)
    (hkind : s.kind? = some (.mark m)) : Listed L s.next t.next := by
  obtain ⟨u, us, hs, hu⟩ := Cursor.exists_of_kind? hkind
  exact h.next hs (hu ▸ hopening) (hu ▸ hclosing)

/-- Values are read abreast where the tokens ahead are a list of them. -/
theorem propertyValue_within :
    AbreastWithin L (Listed L) (Option.Rel L.slice) propertyValue propertyValue := by
  intro before s t h hlisted
  have hread : AbreastIf L (Cursor.Held L (Stretch.expression [.mark .comma, .mark .semicolon] 0))
      (Option.Rel L.slice) propertyValue propertyValue := by
    refine .bind (expression_kept _) fun a b h => .pure (.some ?_)
    cases h with
    | none => exact L.empty
    | some h => exact h.2
  obtain ⟨hresult, hafter⟩ := hread before s t h
    (hlisted.mono (Stretch.expression_le (List.nil_subset _) 0))
  have hskip : ∀ s : Cursor, (propertyValue.run s).2 =
      s.skip (Stretch.expression [.mark .comma, .mark .semicolon] 0 s.rest) := snd_run_expression _
  refine ⟨hresult, hafter, ?_⟩
  rw [hskip, hskip, ← Stretch.expression_congr h.sameKinds]
  exact hlisted.skip _ (Stretch.expression_split _ 0 s.rest)

/-- What is read behind a word with a sign of equality, or at once. -/
theorem keyed_within {R : α → β → Prop} {f : String → Parser α} {g : String → Parser β}
    (h : ∀ key, AbreastWithin L (Listed L) R (f key) (g key)) :
    AbreastWithin L (Listed L) R
      (look keyAhead >>= fun key? => match key? with
        | some key => skipOne >>= fun _ => skipOne >>= fun _ => f key
        | none => f "")
      (look keyAhead >>= fun key? => match key? with
        | some key => skipOne >>= fun _ => skipOne >>= fun _ => g key
        | none => g "") := by
  intro before s t hst hlisted
  rw [run_bind, run_bind]
  dsimp only [look]
  rw [← hst.keyAhead]
  cases hkey : keyAhead s with
  | none => exact h "" before s t hst hlisted
  | some key =>
    obtain ⟨u, v, us, hs, hword, hv⟩ := exists_of_keyAhead hkey
    obtain ⟨hopening, hclosing⟩ := (L.marks hst.rest).isBracket (hs ▸ List.mem_cons_self) hword
    have hnext : s.next.rest = v :: us := by rw [Cursor.rest_next, hs, List.tail_cons]
    have hbehind := (hlisted.next hs hopening hclosing).next hnext (by rw [hv]; rfl) (by rw [hv]; rfl)
    exact h key before _ _ hst.next.next hbehind

/-- Entries are read abreast where the tokens ahead are a list of values. -/
theorem propertyEntry_within : AbreastWithin L (Listed L) (Option.Rel (PropertyEntry.Echo L.slice))
    propertyEntry propertyEntry := by
  have hvalues : ∀ key, AbreastWithin L (Listed L) (Option.Rel (PropertyEntry.Echo L.slice))
      (do let values ← sepBy (.mark .comma) propertyValue
          return some ({ key, values } : PropertyEntry))
      (do let values ← sepBy (.mark .comma) propertyValue
          return some { key, values }) := fun key =>
    .bind (sepBy_within (Listed.separator rfl rfl) propertyValue_within) fun _ _ h =>
      .pure (.some ⟨rfl, h⟩)
  intro before s t hst hlisted
  rw [propertyEntry, run_bind, run_bind]
  dsimp only [kind?, look]
  rw [← hst.kind?]
  split
  · exact ⟨.none, hst, hlisted⟩
  · exact ⟨.none, hst, hlisted⟩
  · exact keyed_within hvalues before s t hst hlisted

/-- Properties are read abreast. -/
theorem property_abreast : Abreast L (Echo L.slice) property property := by
  refine .start_bind fun _ _ => .bind_eq skipOne_abreast fun _ => .newNode_bind fun _ _ =>
    .bind_eq (.look fun _ _ _ h => by rw [h.text?]) fun name => ?_
  cases name with
  | none => exact .bind_eq (complainExpected_abreast _) fun _ => .pure .none
  | some name =>
    have hentries : AbreastIf L (Cursor.Behind L (.mark .lparen)) (List.Forall₂ (PropertyEntry.Echo L.slice))
        (do let entries ← sepBy (.mark .semicolon) propertyEntry
            let _ ← expect (.mark .rparen) "')'"
            pure entries)
        (do let entries ← sepBy (.mark .semicolon) propertyEntry
            let _ ← expect (.mark .rparen) "')'"
            pure entries) :=
      .bind ((sepBy_within (Listed.separator rfl rfl) propertyEntry_within).abreastIf.mono
        fun _ h => h.held) fun _ _ h => .bind_eq (expect_abreast _ _) fun _ => .pure h
    refine .bind_eq skipOne_abreast fun _ =>
      .eat_ite_bind bracketed_abreast (.pure .none) fun _ index index' hindex =>
      .eat_ite_bind hentries (.pure .nil) fun _ entries entries' hentries => ?_
    exact .spanFrom_bind fun _ _ => .pure (.some ⟨rfl, hindex, hentries⟩)

theorem properties_abreast : Abreast L (Echo L.slice) properties properties :=
  manyWhile_abreast _ property_abreast

theorem propertyStatement_abreast :
    Abreast L (Echo L.slice) propertyStatement propertyStatement :=
  .bind property_abreast fun _ _ h => .bind_eq (eat_abreast _) fun _ => .pure h

/-! ### Parameters -/

/-- The value of a parameter is the same stretch on each side. -/
theorem paramValue_abreast : Abreast L (Option.Rel L.slice) paramValue paramValue := by
  refine .eat_bind ?_ (.pure .none)
  have hexpression := (expression_kept (L := L) [.mark .semicolon, .mark .atSign]).mono
    fun _ h => held_expression (by decide) h
  refine .bind (hexpression.mono fun _ h => h.held) fun a b h => ?_
  cases h with
  | none => exact .bind_eq (complainExpected_abreast _) fun _ => .pure .none
  | some h => exact .pure (.some h.1)

/-- Parameters are read abreast from their name on. -/
theorem paramFromName_abreast (m n : Nat) (volatile : Bool) (type : Option ParamType) :
    Abreast L (Echo L.slice) (paramFromName m volatile type) (paramFromName n volatile type) := by
  refine .newNode_bind fun _ _ => .bind_eq (expectIdent_abreast _) fun name => ?_
  cases name with
  | none => exact .bind_eq skipStatement_abreast fun _ => .pure .none
  | some name =>
    exact .bind properties_abreast fun _ _ hbefore => .bind paramValue_abreast fun _ _ hvalue =>
      .bind properties_abreast fun _ _ hafter => .bind_eq (expect_abreast _ _) fun _ =>
      .spanFrom_bind fun _ _ =>
      .pure (.some ⟨rfl, rfl, rfl, hvalue, List.rel_append hbefore hafter⟩)

theorem isPlainAssignment_abreast :
    Abreast L Eq (look isPlainAssignment) (look isPlainAssignment) :=
  .look fun _ _ _ h => by simp only [isPlainAssignment, h.kind?, h.secondKind?]

/-- Parameters are read abreast. -/
theorem param_abreast : Abreast L (Echo L.slice) param param := by
  refine .start_bind fun _ _ => .bind_eq (eat_abreast _) fun volatile =>
    .bind_eq kind?_abreast fun next => ?_
  split
  · exact .bind_eq skipOne_abreast fun _ => paramFromName_abreast _ _ _ _
  · refine .bind_eq isPlainAssignment_abreast fun plain => ?_
    split
    · exact paramFromName_abreast _ _ _ _
    · exact .when_bind (complainExpected_abreast _)
        (.bind_eq skipStatement_abreast fun _ => .pure .none)

theorem strayProperty_abreast : Abreast L Eq strayProperty strayProperty :=
  .bind_eq skipProperty_abreast fun _ => .bind_eq (eat_abreast _) fun _ => .pure rfl

/-! ### Gates -/

/-- Gates are read abreast. -/
theorem gate_abreast : Abreast L (Echo L.slice) gate gate := by
  refine .bind_eq (at?_abreast _) fun property => ?_
  split
  · exact .bind_eq strayProperty_abreast fun _ => .pure .none
  · refine .start_bind fun _ _ => .bind_eq kind?_abreast fun next =>
      .when_bind skipOne_abreast ?_
    refine .newNode_bind fun _ _ => .bind_eq (expectIdent_abreast _) fun name => ?_
    cases name with
    | none => exact .bind_eq skipStatement_abreast fun _ => .pure .none
    | some name =>
      exact .eat_ite_bind bracketed_abreast (.pure .none) fun isVector _ _ hsize =>
        .bind properties_abreast fun _ _ hproperties => .bind_eq (expect_abreast _ _) fun _ =>
        .spanFrom_bind fun _ _ => .pure (.some ⟨rfl, rfl, rfl, hsize, hproperties⟩)

theorem sectionHeader_abreast (opened : BodySection) :
    Abreast L Eq (sectionHeader opened) (sectionHeader opened) :=
  .ite_bind (eat_abreast _) (.pure rfl) fun _ _ h =>
    .bind_eq (expect_abreast _ _) fun _ => .pure h

/-- An expression in angle brackets is read abreast right behind the opening one. -/
theorem likeExpression_abreast : AbreastIf L (Cursor.Behind L (.mark .lt)) L.slice likeExpression
    likeExpression := by
  have hexpression := (expression_kept (L := L) [.mark .gt, .mark .semicolon]).mono
    fun _ h => held_expression (by decide) h
  refine .bind (hexpression.mono fun _ h => h.held) fun a b h => .bind_eq (expect_abreast _ _) fun _ =>
    .bind_eq (expect_abreast _ _) fun _ => .pure ?_
  cases h with
  | none => exact L.empty
  | some h => exact h.1

/-- The part in front of the name of an interface, which may be missing. -/
theorem likeOption_abreast : AbreastIf L (Cursor.Behind L (.mark .lt)) (Option.Rel L.slice)
    (some <$> likeExpression) (some <$> likeExpression) :=
  .bind likeExpression_abreast fun _ _ h => .pure (.some h)

end Parser

end NedWorkspace
