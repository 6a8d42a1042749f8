/-
# Lists and maps with corresponding elements

Functions on lists whose elements correspond one by one give corresponding results, if they ask nothing
of the elements in which corresponding ones differ. The same holds of maps with the same keys in the
same order and corresponding values (`OrderedMap.Related`).
-/

import Mathlib.Data.List.Forall2
import NedWorkspace.Map.Ordered

namespace NedWorkspace

section Lists

variable {α β γ δ : Type} {R : α → β → Prop} {S : γ → δ → Prop} {as : List α} {bs : List β}

/-- What corresponds are elements of the lists. -/
theorem forall₂_mem (h : List.Forall₂ R as bs) :
    List.Forall₂ (fun a b => a ∈ as ∧ b ∈ bs ∧ R a b) as bs := by
  obtain ⟨hlength, hzip⟩ := List.forall₂_iff_zip.mp h
  refine List.forall₂_iff_zip.mpr ⟨hlength, fun {a b} hab => ?_⟩
  exact ⟨(List.of_mem_zip hab).1, (List.of_mem_zip hab).2, hzip hab⟩

/-- Correspondences of two pairs of lists, carried over along those between the pairs. -/
theorem forall₂_square {P : α → γ → Prop} {Q : β → δ → Prop} {U : α → β → Prop} {cs : List γ}
    {ds : List δ} (hR : List.Forall₂ R as bs) (hP : List.Forall₂ P as cs) (hQ : List.Forall₂ Q bs ds)
    (hS : List.Forall₂ S cs ds) (hU : ∀ a b c d, R a b → P a c → Q b d → S c d → U a b) :
    List.Forall₂ U as bs := by
  induction hR generalizing cs ds with
  | nil => exact .nil
  | cons hab _ ih =>
    cases hP with
    | cons hac hP =>
      cases hQ with
      | cons hbd hQ =>
        cases hS with
        | cons hcd hS => exact .cons (hU _ _ _ _ hab hac hbd hcd) (ih hP hQ hS)

/-- Related elements that a test does not tell apart are found at the same place. -/
theorem forall₂_find? (h : List.Forall₂ R as bs) {p : α → Bool} {q : β → Bool}
    (hpq : ∀ a b, R a b → p a = q b) : Option.Rel R (as.find? p) (bs.find? q) := by
  induction h with
  | nil => exact .none
  | @cons a b as bs hab _ ih =>
    rw [List.find?_cons, List.find?_cons, ← hpq a b hab]
    cases p a with
    | true => exact .some hab
    | false => exact ih

/-- A test that does not tell related elements apart keeps related lists related. -/
theorem forall₂_filter (h : List.Forall₂ R as bs) {p : α → Bool} {q : β → Bool}
    (hpq : ∀ a b, R a b → p a = q b) : List.Forall₂ R (as.filter p) (bs.filter q) :=
  List.rel_filter (fun a b hab => Eq.to_iff (congrArg (· = true) (hpq a b hab))) h

/-- What related elements have in common, related lists have in common. -/
theorem forall₂_map_eq (h : List.Forall₂ R as bs) {f : α → γ} {g : β → γ}
    (hfg : ∀ a b, R a b → f a = g b) : as.map f = bs.map g := by
  induction h with
  | nil => rfl
  | cons hab _ ih => rw [List.map_cons, List.map_cons, hfg _ _ hab, ih]

/-- Related elements taken to related elements. -/
theorem forall₂_map (h : List.Forall₂ R as bs) {f : α → γ} {g : β → δ}
    (hfg : ∀ a b, R a b → S (f a) (g b)) : List.Forall₂ S (as.map f) (bs.map g) := by
  induction h with
  | nil => exact .nil
  | cons hab _ ih => exact .cons (hfg _ _ hab) ih

/-- Related elements taken to related lists. -/
theorem forall₂_flatMap (h : List.Forall₂ R as bs) {f : α → List γ} {g : β → List δ}
    (hfg : ∀ a b, R a b → List.Forall₂ S (f a) (g b)) :
    List.Forall₂ S (as.flatMap f) (bs.flatMap g) := by
  induction h with
  | nil => exact .nil
  | cons hab _ ih => exact List.rel_append (hfg _ _ hab) ih

/-- The first result for related lists is related, or there is none for either. -/
theorem forall₂_findSome? (h : List.Forall₂ R as bs) {f : α → Option γ} {g : β → Option δ}
    (hfg : ∀ a b, R a b → Option.Rel S (f a) (g b)) :
    Option.Rel S (as.findSome? f) (bs.findSome? g) := by
  induction h with
  | nil => exact .none
  | @cons a b as bs hab _ ih =>
    rw [List.findSome?_cons, List.findSome?_cons]
    have hhead := hfg a b hab
    generalize f a = x at hhead ⊢
    generalize g b = y at hhead ⊢
    cases hhead with
    | some hcd => exact .some hcd
    | none => exact ih

/-- A test that does not tell related elements apart holds in both lists or in neither. -/
theorem forall₂_any (h : List.Forall₂ R as bs) {p : α → Bool} {q : β → Bool}
    (hpq : ∀ a b, R a b → p a = q b) : as.any p = bs.any q := by
  induction h with
  | nil => rfl
  | cons hab _ ih => rw [List.any_cons, List.any_cons, hpq _ _ hab, ih]

theorem eq_none_of_option_rel {a : Option α} (h : Option.Rel R a (none : Option β)) : a = none := by
  cases h
  rfl

theorem exists_of_option_rel {a : Option α} {b : β} (h : Option.Rel R a (some b)) :
    ∃ x, a = some x ∧ R x b := by
  cases h with
  | some hab => exact ⟨_, rfl, hab⟩

/-- Related answers, asked further in related ways, are related. -/
theorem option_rel_bind {a : Option α} {b : Option β} (h : Option.Rel R a b) {f : α → Option γ}
    {g : β → Option δ} (hfg : ∀ a b, R a b → Option.Rel S (f a) (g b)) :
    Option.Rel S (a.bind f) (b.bind g) := by
  cases h with
  | none => exact .none
  | some hab => exact hfg _ _ hab

theorem option_rel_map {a : Option α} {b : Option β} (h : Option.Rel R a b) {f : α → γ} {g : β → δ}
    (hfg : ∀ a b, R a b → S (f a) (g b)) : Option.Rel S (a.map f) (b.map g) := by
  cases h with
  | none => exact .none
  | some hab => exact .some (hfg _ _ hab)

theorem option_rel_filter {a : Option α} {b : Option β} (h : Option.Rel R a b) {p : α → Bool}
    {q : β → Bool} (hpq : ∀ a b, R a b → p a = q b) : Option.Rel R (a.filter p) (b.filter q) := by
  cases h with
  | none => exact .none
  | @some a b hab =>
    rw [Option.filter_some, Option.filter_some, ← hpq a b hab]
    split
    · exact .some hab
    · exact .none

/-- A first choice and what to fall back on are related if both parts are. -/
theorem option_rel_or {a c : Option α} {b d : Option β} (h : Option.Rel R a b)
    (h' : Option.Rel R c d) : Option.Rel R (a.or c) (b.or d) := by
  cases h with
  | none => exact h'
  | some hab => exact .some hab

/-- Values that may be missing and are related have the same image under what the relation keeps. -/
theorem option_map_eq_of_rel {α β : Type} {R : α → α → Prop} {f : α → β} {a b : Option α}
    (hf : ∀ {a b : α}, R a b → f a = f b) (h : Option.Rel R a b) : a.map f = b.map f := by
  cases h with
  | none => rfl
  | some hab => exact congrArg some (hf hab)

/-- Of two related answers both are there or neither is. -/
theorem option_isSome_eq_of_rel {α β : Type} {R : α → β → Prop} {a : Option α} {b : Option β}
    (h : Option.Rel R a b) : a.isSome = b.isSome := by
  cases h with
  | none => rfl
  | some _ => rfl

theorem option_rel_toList {a : Option α} {b : Option β} (h : Option.Rel R a b) :
    List.Forall₂ R a.toList b.toList := by
  cases h with
  | none => exact .nil
  | some hab => exact .cons hab .nil

end Lists

namespace OrderedMap

variable {κ α β : Type} [DecidableEq κ] {R : α → β → Prop}

/-- The same keys in the same order, with corresponding values. -/
def Related (R : α → β → Prop) (m : OrderedMap κ α) (n : OrderedMap κ β) : Prop :=
  List.Forall₂ (fun e d => e.1 = d.1 ∧ R e.2 d.2) m.entries n.entries

namespace Related

variable {m : OrderedMap κ α} {n : OrderedMap κ β}

omit [DecidableEq κ] in
theorem empty : Related R ({} : OrderedMap κ α) ({} : OrderedMap κ β) :=
  List.Forall₂.nil

/-- Maps that are related answer alike. -/
theorem get? (h : Related R m n) (k : κ) : Option.Rel R (m.get? k) (n.get? k) := by
  have hfound := forall₂_find? h (p := fun e => decide (e.1 = k)) (q := fun e => decide (e.1 = k))
    fun e d hed => by rw [hed.1]
  exact option_rel_map hfound fun _ _ hed => hed.2

/-- Related values put in under the same key leave maps related. -/
theorem insert (h : Related R m n) (k : κ) {a : α} {b : β} (hab : R a b) :
    Related R (m.insert k a) (n.insert k b) := by
  have hlist : ∀ {es : List (κ × α)} {ds : List (κ × β)},
      List.Forall₂ (fun e d => e.1 = d.1 ∧ R e.2 d.2) es ds →
      List.Forall₂ (fun e d => e.1 = d.1 ∧ R e.2 d.2) (insertEntry k a es) (insertEntry k b ds) := by
    intro es ds hes
    induction hes with
    | nil => exact .cons ⟨rfl, hab⟩ .nil
    | @cons e d es ds hed hes ih =>
      rw [insertEntry, insertEntry, ← hed.1]
      split
      · exact .cons ⟨rfl, hab⟩ hes
      · exact .cons hed ih
  exact hlist h

/-- A key dropped from both leaves maps related. -/
theorem erase (h : Related R m n) (k : κ) : Related R (m.erase k) (n.erase k) :=
  forall₂_filter h fun e d hed => by rw [hed.1]

end Related

end OrderedMap

end NedWorkspace
