/-
# Declarations and files abreast
-/

import NedWorkspace.Proofs.Syntax.Abreast.Link
import NedWorkspace.Proofs.Syntax.Abreast.Submodule

namespace NedWorkspace

namespace Parser

variable {L : Likeness}

open Echoing

/-! ### Declarations -/

/-- Heads of types are read abreast. -/
theorem typeHead_abreast : Abreast L (Option.Rel (TypeDecl.Echo L.slice)) typeHead typeHead := by
  refine .bind_eq kind?_abreast fun word => .bind_eq skipOne_abreast fun _ =>
    .newNode_bind fun _ _ => .bind_eq (expectIdent_abreast _) fun name => ?_
  cases name with
  | none => exact giveUp_abreast
  | some name =>
    refine .bind_eq (eat_abreast _) fun extended =>
      .ite_bind typeRefs_abreast (.pure .nil) fun bases bases' hbases =>
      .bind_eq (eat_abreast _) fun like =>
      .ite_bind typeRefs_abreast (.pure .nil) fun interfaces interfaces' hinterfaces =>
      .bind properties_abreast fun properties properties' hproperties => .pure (.some ?_)
    exact .mk ⟨rfl, rfl, hbases, hinterfaces, .nil, .nil, .nil, .nil, rfl, hproperties⟩ .nil

theorem bodiless_abreast : Abreast L Eq bodiless bodiless := by
  refine .bind_eq (eat_abreast _) fun semicolon => ?_
  split
  · exact .pure rfl
  · exact .bind_eq (complainExpected_abreast _) fun _ => skipStatement_abreast

theorem bodyEnd_abreast : Abreast L Eq bodyEnd bodyEnd :=
  .bind_eq (expect_abreast _ _) fun _ => .bind_eq (eat_abreast _) fun _ => .pure rfl

section Member

variable {d e : TypeDecl} (h : d.Echo L.slice e)
include h

/-- A property statement in a body adds an echo to an echo. -/
theorem propertyMember_abreast : Abreast L (TypeDecl.Echo L.slice)
    (do return { d with properties := d.properties ++ (← propertyStatement).toList })
    (do return { e with properties := e.properties ++ (← propertyStatement).toList }) :=
  .bind propertyStatement_abreast fun _ _ hproperty => .pure
    (.mk { h.details with
      properties := List.rel_append h.details.properties (option_rel_toList hproperty) } h.types)

/-- A member of any section adds an echo to an echo. -/
theorem plainMember_abreast (sec : BodySection) :
    Abreast L (TypeDecl.Echo L.slice) (plainMember sec d) (plainMember sec e) := by
  cases sec with
  | parameters =>
    refine .bind_eq (at?_abreast _) fun property => ?_
    split
    · exact propertyMember_abreast h
    · exact .bind param_abreast fun _ _ hparam => .pure
        (.mk { h.details with
          params := List.rel_append h.details.params (option_rel_toList hparam) } h.types)
  | gates =>
    exact .bind gate_abreast fun _ _ hgate => .pure
      (.mk { h.details with
        gates := List.rel_append h.details.gates (option_rel_toList hgate) } h.types)
  | types =>
    refine .bind_eq (at?_abreast _) fun property => ?_
    split
    · exact propertyMember_abreast h
    · exact .bind_eq (complainExpected_abreast _) fun _ =>
        .bind_eq skipStatement_abreast fun _ => .pure h
  | submodules =>
    exact .bind submodule_abreast fun _ _ hsub => .pure
      (.mk { h.details with
        submodules := List.rel_append h.details.submodules (option_rel_toList hsub) } h.types)
  | connections =>
    exact .bind link_abreast fun _ _ hlinks => .pure
      (.mk { h.details with
        connections := List.rel_append h.details.connections hlinks } h.types)

/-- The header of a section sets the same flags. -/
theorem typeSection_abreast (opened : BodySection) :
    Abreast L (TypeDecl.Echo L.slice) (typeSection opened d) (typeSection opened e) :=
  .bind_eq skipOne_abreast fun _ => .bind_eq (sectionHeader_abreast opened) fun allow => .pure
    (.mk { h.details with
      allowUnconnected := by simp only [h.details.allowUnconnected] } h.types)

end Member

mutual

/-- Declarations of types are read abreast, along with the types inside of them. -/
theorem typeDeclFrom_abreast {before : List String} {s t : Cursor} (h : s.Abreast L before t) :
    Option.Rel (TypeDecl.Echo L.slice) (typeDeclFrom s).1 (typeDeclFrom t).1 ∧
      (typeDeclFrom s).2.Abreast L before (typeDeclFrom t).2 := by
  obtain ⟨hhead, hafter⟩ := typeHead_abreast before s t h
  rw [typeDeclFrom, typeDeclFrom]
  dsimp only
  generalize hd : (typeHead.run s).1 = d at hhead ⊢
  generalize he : (typeHead.run t).1 = e at hhead ⊢
  cases hhead with
  | none => exact ⟨.none, hafter⟩
  | some hhead =>
    dsimp only
    rw [← hafter.kind?]
    split
    · obtain ⟨hbody, hend⟩ := typeBodyFrom_abreast .parameters hhead hafter.next
      exact ⟨.some (.mk { hbody.details with } hbody.types), (bodyEnd_abreast before _ _ hend).2⟩
    · exact ⟨.some (.mk { hhead.details with } hhead.types),
        (bodiless_abreast before _ _ hafter).2⟩
termination_by (s.rest.length, 0)
decreasing_by
  rename_i hbrace
  exact Prod.Lex.left _ _ (Nat.lt_of_lt_of_le
    (Cursor.length_next_lt (Cursor.rest_ne_nil_of_kind? hbrace)) (typeHead.reaches s).length_le)

/-- Bodies are read abreast in the same section. -/
theorem typeBodyFrom_abreast (sec : BodySection) {d e : TypeDecl} {before : List String}
    {s t : Cursor} (hd : d.Echo L.slice e) (h : s.Abreast L before t) :
    (typeBodyFrom sec d s).1.Echo L.slice (typeBodyFrom sec e t).1 ∧
      (typeBodyFrom sec d s).2.Abreast L before (typeBodyFrom sec e t).2 := by
  cases hs : s.rest with
  | nil =>
    have ht : t.rest = [] := List.forall₂_nil_left_iff.mp (hs ▸ h.words)
    rw [typeBodyFrom_nil hs, typeBodyFrom_nil ht]
    exact ⟨hd, h⟩
  | cons token tokens =>
    have hne : s.rest ≠ [] := by simp [hs]
    obtain ⟨token', tokens', hword, _, ht⟩ := List.forall₂_cons_left_iff.mp (hs ▸ h.words)
    rw [typeBodyFrom_cons hs, typeBodyFrom_cons ht, ← Token.kind_of_word hword]
    split
    · exact ⟨hd, h⟩
    · split
      · rename_i opened hopened
        obtain ⟨hresult, hafter⟩ := typeSection_abreast hd opened before s t h
        have hlt : ((typeSection opened d).run s).2.rest.length < s.rest.length :=
          length_run_skipOne_bind_lt _ hne
        exact typeBodyFrom_abreast opened hresult hafter
      · split
        · obtain ⟨hdecl, hafter⟩ := typeDeclFrom_abreast h
          have hresult : TypeDecl.Echo L.slice { d with types := d.types ++ (typeDeclFrom s).1.toList }
              { e with types := e.types ++ (typeDeclFrom t).1.toList } :=
            .mk hd.details (List.rel_append hd.types (option_rel_toList hdecl))
          dsimp only
          rw [← h.length_eq, ← hafter.length_eq]
          split
          · exact typeBodyFrom_abreast sec hresult hafter
          · exact ⟨hresult, hafter⟩
        · obtain ⟨hresult, hafter⟩ := plainMember_abreast hd sec before s t h
          dsimp only
          rw [← h.length_eq, ← hafter.length_eq]
          split
          · exact typeBodyFrom_abreast sec hresult hafter
          · have hlt := length_run_passOver_lt "a member declaration" hne
              ((plainMember sec d).reaches s)
            exact typeBodyFrom_abreast sec hresult (passOver_abreast _ before _ _ hafter).2
termination_by (s.rest.length, 1)
decreasing_by
  all_goals first
    | exact Prod.Lex.right _ Nat.zero_lt_one
    | exact Prod.Lex.left _ _ (by assumption)

end

theorem typeDecl_abreast : Abreast L (Echo L.slice) typeDecl typeDecl :=
  fun _ _ _ h => typeDeclFrom_abreast h

/-! ### Files -/

/-- Declarations of packages are read abreast. -/
theorem packageDecl_abreast : Abreast L (Echo L.slice) packageDecl packageDecl := by
  refine .start_bind fun _ _ => .bind_eq skipOne_abreast fun _ => .newNode_bind fun _ _ =>
    .bind (qualifiedName_abreast _) fun name name' hname => ?_
  cases hname with
  | none => exact giveUp_abreast
  | some hname =>
    exact .bind_eq (expect_abreast _ _) fun _ => .spanFrom_bind fun _ _ => .pure (.some hname)

/-- Of an import specification all tokens are parts. -/
theorem held_importSpec {before : List String} {s t : Cursor} (h : s.Abreast L before t) :
    Cursor.Held L Stretch.importSpec s t := by
  refine ⟨_, _, 0, h.rest, rfl, rfl, .parts fun u hu => ?_⟩
  rw [List.drop_zero, Stretch.importSpec, ← List.prefix_iff_eq_take.mp (List.takeWhile_prefix _)] at hu
  exact List.mem_takeWhile_imp (p := fun t : Token => Stretch.isImportPart t.kind) hu

/-- Imports are read abreast. -/
theorem importDecl_abreast : Abreast L (Echo L.slice) importDecl importDecl := by
  refine .start_bind fun _ _ => .bind_eq skipOne_abreast fun _ => .newNode_bind fun _ _ =>
    .bind ((takeCounted_kept Stretch.importSpec_congr).abreast held_importSpec) fun ts us hrun => ?_
  match ts, us, hrun with
  | [], [], _ => exact .bind_eq (complainExpected_abreast _) fun _ => giveUp_abreast
  | t :: ts, u :: us, hrun =>
    exact .bind_eq (expect_abreast _ _) fun _ => .spanFrom_bind fun _ _ => .pure (.some hrun.2.1)

/-- A package declared again is complained of on each side. -/
theorem complainRepeatedPackage_abreast :
    Abreast L Eq complainRepeatedPackage complainRepeatedPackage := by
  refine fun before s t h => ⟨rfl, h.rest, ?_⟩
  simp only [complainRepeatedPackage, List.map_append, h.messages, List.append_assoc]
  rfl

/-- One more item of a file adds an echo to an echo. -/
theorem fileItem_abreast (k : Kind) {tree tree' : Tree} (h : tree.Echo L.slice tree') :
    Abreast L (Tree.Echo L.slice) (fileItem k tree) (fileItem k tree') := by
  unfold fileItem
  split
  · refine .bind packageDecl_abreast fun package package' hpackage => ?_
    rw [option_isSome_eq_of_rel h.package]
    split
    · exact .bind_eq complainRepeatedPackage_abreast fun _ => .pure h
    · exact .pure { h with package := hpackage }
  · split
    · exact .bind importDecl_abreast fun _ _ himport =>
        .pure { h with imports := List.rel_append h.imports (option_rel_toList himport) }
    · split
      · exact .bind propertyStatement_abreast fun _ _ hproperty =>
          .pure { h with properties := List.rel_append h.properties (option_rel_toList hproperty) }
      · split
        · exact .bind_eq skipOne_abreast fun _ => .pure h
        · split
          · exact .bind typeDecl_abreast fun _ _ hdecl =>
              .pure { h with types := List.rel_append h.types (option_rel_toList hdecl) }
          · exact .bind_eq (complainExpected_abreast _) fun _ =>
              .bind_eq skipDebris_abreast fun _ => .pure h

/-- **Texts whose tokens correspond are read alike.** The trees echo each other, and the errors noted
on the way have the same messages. -/
theorem fileFrom_abreast (before : List String) (tree : Tree) (s : Cursor) :
    ∀ (tree' : Tree) (t : Cursor), tree.Echo L.slice tree' → s.Abreast L before t →
    (fileFrom tree s).1.Echo L.slice (fileFrom tree' t).1 ∧
      (fileFrom tree s).2.Abreast L before (fileFrom tree' t).2 := by
  fun_induction fileFrom tree s with
  | case1 tree s hs =>
    intro tree' t htree h
    have ht : t.rest = [] := List.forall₂_nil_left_iff.mp (hs ▸ h.words)
    rw [fileFrom]
    simp only [ht]
    exact ⟨htree, h⟩
  | case2 tree s token tokens hs r hlt ih =>
    intro tree' t htree h
    obtain ⟨token', tokens', hword, _, ht⟩ := List.forall₂_cons_left_iff.mp (hs ▸ h.words)
    obtain ⟨hresult, hafter⟩ := fileItem_abreast token.kind htree before s t h
    rw [hafter.length_eq, h.length_eq] at hlt
    rw [fileFrom_cons ht, ← Token.kind_of_word hword]
    simp only [if_pos hlt]
    exact ih _ _ hresult hafter
  | case3 tree s token tokens hs r hlt =>
    intro tree' t htree h
    obtain ⟨token', tokens', hword, _, ht⟩ := List.forall₂_cons_left_iff.mp (hs ▸ h.words)
    obtain ⟨hresult, hafter⟩ := fileItem_abreast token.kind htree before s t h
    rw [hafter.length_eq, h.length_eq] at hlt
    rw [fileFrom_cons ht, ← Token.kind_of_word hword]
    simp only [if_neg hlt]
    exact ⟨hresult, hafter⟩

end Parser

end NedWorkspace
