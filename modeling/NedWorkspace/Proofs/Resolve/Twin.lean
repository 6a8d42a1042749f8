/-
# Models that say the same

Two models are twins when corresponding keys lead to matching scopes and their tables match. Then
names denote corresponding types (`Model.Twins.resolve`). Nothing is asked of the order in which files
were loaded, of the numbers that files and nodes got, or of the editions of definitions.
-/

import NedWorkspace.Proofs.Definition.Index
import NedWorkspace.Proofs.Definition.Twin
import NedWorkspace.Proofs.Resolve.Memory

namespace NedWorkspace

open Definition

theorem Definition.mem_withInner_self {ds : List Definition} {d : Definition} (h : d ∈ ds) :
    d ∈ withInner ds := by
  induction ds with
  | nil => exact absurd h List.not_mem_nil
  | cons c cs ih =>
    rw [withInner, List.mem_cons, List.mem_append]
    rcases List.mem_cons.mp h with rfl | h
    · exact .inl rfl
    · exact .inr (.inr (ih h))

/-- The types inside are the inner types and all that is inside of them. -/
theorem Definition.allInner_eq (d : Definition) : d.allInner = withInner d.inner := by
  obtain ⟨own, inner⟩ := d
  rw [Definition.allInner]

mutual

/-- The types inside a definition of a list are among those below the list. -/
theorem Definition.mem_withInner_of_mem (ds : List Definition) {d i : Definition}
    (hd : d ∈ withInner ds) (hi : i ∈ d.inner) : i ∈ withInner ds := by
  match ds with
  | [] => exact absurd hd List.not_mem_nil
  | c :: cs =>
    rw [withInner, List.mem_cons, List.mem_append] at hd ⊢
    rcases hd with rfl | hd | hd
    · rw [allInner_eq]
      exact .inr (.inl (mem_withInner_self hi))
    · exact .inr (.inl (Definition.mem_allInner_of_mem c hd hi))
    · exact .inr (.inr (Definition.mem_withInner_of_mem cs hd hi))
termination_by structural ds

/-- What is inside of something inside is inside. -/
theorem Definition.mem_allInner_of_mem (c : Definition) {d i : Definition}
    (hd : d ∈ c.allInner) (hi : i ∈ d.inner) : i ∈ c.allInner := by
  obtain ⟨own, inner⟩ := c
  rw [Definition.allInner] at hd ⊢
  exact Definition.mem_withInner_of_mem inner hd hi
termination_by structural c

end

/-- The definition is among those of its file. -/
def Model.Lists (m : Model) (d : Definition) : Prop :=
  ∃ s, m.index.file? d.key.file = some s ∧ d ∈ s.allTypes

theorem Model.Lists.mem_allTypes {m : Model} {d : Definition} (h : m.Lists d) :
    d ∈ m.index.allTypes := by
  obtain ⟨s, hs, hd⟩ := h
  refine List.mem_flatMap.mpr ⟨s, ?_, hd⟩
  exact List.mem_map.mpr ⟨_, OrderedMap.mem_of_get? hs, rfl⟩

/-- Matching definitions of two models. -/
structure Paired (K : TypeKey → TypeKey → Prop) (m m' : Model) (d e : Definition) : Prop where
  matched : Definition.Matches K d e
  listed : m.Lists d
  listed' : m'.Lists e

/-- Models that say the same, when it is known which keys correspond. -/
structure Model.Twins (K : TypeKey → TypeKey → Prop) (m m' : Model) : Prop where
  index : m.index.WellFormed
  index' : m'.index.WellFormed
  unique : ∀ {k k' l l' : TypeKey}, K k k' → K l l' → (k = l ↔ k' = l')
  scopes : ∀ {k k' : TypeKey}, K k k' → ∃ s s' edition edition',
    m.index.file? k.file = some s ∧ m'.index.file? k'.file = some s' ∧ s.Matches K s' ∧
    Uniform k.file edition s.types ∧ Uniform k'.file edition' s'.types
  tables : ∀ project, Option.Rel (ProjectTable.Matches (Paired K m m'))
    (m.table? project) (m'.table? project)

namespace Model.Twins

variable {K : TypeKey → TypeKey → Prop} {m m' : Model} (T : m.Twins K m') {d e : Definition}
include T

/-- Corresponding scopes list corresponding definitions. -/
theorem paired_of_scopes {k k' : TypeKey} (hk : K k k') {s s' : FileScope}
    (hs : m.index.file? k.file = some s) (hs' : m'.index.file? k'.file = some s')
    (hd : d ∈ s.allTypes) (he : e ∈ s'.allTypes) (hde : Matches K d e) : Paired K m m' d e := by
  obtain ⟨t, t', edition, edition', ht, ht', _, huniform, huniform'⟩ := T.scopes hk
  obtain rfl : t = s := Option.some.inj (ht.symm.trans hs)
  obtain rfl : t' = s' := Option.some.inj (ht'.symm.trans hs')
  exact ⟨hde, ⟨t, (huniform d hd).1 ▸ hs, hd⟩, ⟨t', (huniform' e he).1 ▸ hs', he⟩⟩

/-- All definitions of corresponding files are paired. -/
theorem paired_allTypes {k k' : TypeKey} (hk : K k k') : ∃ s s', m.index.file? k.file = some s ∧
    m'.index.file? k'.file = some s' ∧ s.Matches K s' ∧
    List.Forall₂ (Paired K m m') s.allTypes s'.allTypes := by
  obtain ⟨s, s', _, _, hs, hs', hmatch, _, _⟩ := T.scopes hk
  refine ⟨s, s', hs, hs', hmatch, (forall₂_mem hmatch.allTypes).imp ?_⟩
  rintro d e ⟨hd, he, hde⟩
  exact T.paired_of_scopes hk hs hs' hd he hde

/-- The definitions with corresponding keys correspond. -/
theorem get? {k k' : TypeKey} (hk : K k k') :
    Option.Rel (Paired K m m') (m.index.get? k) (m'.index.get? k') := by
  obtain ⟨s, s', hs, hs', _, hall⟩ := T.paired_allTypes hk
  have hfind := forall₂_find? hall (p := fun d => decide (d.key = k)) (q := fun e => decide (e.key = k'))
    fun d e hde => decide_eq_decide.mpr (T.unique hde.matched.key hk)
  rwa [T.index.get?_eq_find? hs, T.index'.get?_eq_find? hs']

theorem projectOf? {k k' : TypeKey} (hk : K k k') :
    m.index.projectOf? k.file = m'.index.projectOf? k'.file := by
  obtain ⟨s, s', _, _, hs, hs', hmatch, _, _⟩ := T.scopes hk
  unfold DefinitionIndex.projectOf?
  rw [hs, hs']
  exact hmatch.project

/-- The types inside paired definitions are paired. -/
theorem inner (h : Paired K m m' d e) : List.Forall₂ (Paired K m m') d.inner e.inner := by
  obtain ⟨hde, ⟨s, hs, hd⟩, s', hs', he⟩ := h
  refine (forall₂_mem hde.inner).imp ?_
  rintro i j ⟨hi, hj, hij⟩
  exact T.paired_of_scopes hde.key hs hs' (mem_withInner_of_mem _ hd hi)
    (mem_withInner_of_mem _ he hj) hij

theorem inner? (h : Paired K m m' d e) (name : String) :
    Option.Rel (Paired K m m') (d.inner? name) (e.inner? name) :=
  forall₂_find? (T.inner h) fun _ _ hij => by rw [hij.matched.name]

/-- A path leads to paired types on both sides, or nowhere on either. -/
theorem descend (h : Paired K m m' d e) (segments : List String) :
    Option.Rel (Paired K m m') (d.descend segments) (e.descend segments) := by
  induction segments generalizing d e with
  | nil => exact .some h
  | cons s ss ih => exact option_rel_bind (T.inner? h s) fun _ _ hij => ih hij

/-! ### What a name denotes -/

/-- A compound type around one key has its partner around the other. -/
theorem compoundAround? {k k' : TypeKey} (hk : K k k') :
    Option.Rel (Paired K m m') (m.compoundAround? (.type k)) (m'.compoundAround? (.type k')) := by
  have htop : Option.Rel (Paired K m m') ((m.index.get? k).bind fun d => m.index.get? d.toplevel)
      ((m'.index.get? k').bind fun d => m'.index.get? d.toplevel) :=
    option_rel_bind (T.get? hk) fun d e hde => T.get? hde.matched.toplevel
  exact option_rel_filter htop fun d e hde => by rw [hde.matched.kind]

/-- The compound types that a context is inside of are paired, from the inside out. -/
theorem compoundsFor {k k' : TypeKey} (hk : K k k') :
    List.Forall₂ (Paired K m m') (m.compoundsFor (.type k)) (m'.compoundsFor (.type k')) := by
  refine List.rel_append (option_rel_toList ?_) (option_rel_toList (T.compoundAround? hk))
  exact option_rel_filter (T.get? hk) fun d e hde => by rw [hde.matched.kind]

/-- A qualified name is resolved to paired types, or to none on either side. -/
theorem resolveQualified {t u : ProjectTable} (htable : t.Matches (Paired K m m') u)
    {k k' : TypeKey} (hk : K k k') (name : String) : Option.Rel (Paired K m m')
      (m.resolveQualified t (.type k) name) (m'.resolveQualified u (.type k') name) := by
  refine option_rel_or (forall₂_findSome? (T.compoundsFor hk) fun d e hde => ?_)
    (htable.component? name)
  unfold innerByQName?
  rw [hde.matched.qname]
  cases Name.relativeTo? e.qname name with
  | none => exact .none
  | some path => exact T.descend hde _

omit T in
/-- Imports by name lead to paired types. -/
theorem importedByName? {t u : ProjectTable} (htable : t.Matches (Paired K m m') u)
    (imports : List ImportSpec) (name : String) : Option.Rel (Paired K m m')
      (importedByName? t imports name) (importedByName? u imports name) := by
  refine forall₂_findSome? (R := Eq) (List.forall₂_same.mpr fun _ _ => rfl) fun i j hij => ?_
  subst hij
  split
  · exact htable.component? i.text
  · exact .none

omit T in
/-- Imports with stars lead to paired types. -/
theorem importedByPattern? {t u : ProjectTable} (htable : t.Matches (Paired K m m') u)
    (imports : List ImportSpec) (name : String) : Option.Rel (Paired K m m')
      (importedByPattern? t imports name) (importedByPattern? u imports name) := by
  unfold Model.importedByPattern?
  rw [htable.withSimpleName name]
  cases (imports.filter ImportSpec.isWildcard).findSome? fun i =>
      (u.withSimpleName name).find? i.covers with
  | none => exact .none
  | some qname => exact htable.component? qname

/-- **A name denotes corresponding types in corresponding contexts.** -/
theorem resolve {k k' : TypeKey} (hk : K k k') (name project : String) :
    Option.Rel (Paired K m m') (m.resolve name (.type k) project)
      (m'.resolve name (.type k') project) := by
  obtain ⟨s, s', _, _, hs, hs', hmatch, _, _⟩ := T.scopes hk
  have htables := T.tables project
  unfold Model.resolve
  rw [show m.index.file? (LookupContext.type k).fileId = some s from hs,
    show m'.index.file? (LookupContext.type k').fileId = some s' from hs']
  generalize m.table? project = t at htables ⊢
  generalize m'.table? project = u at htables ⊢
  cases htables with
  | none => exact .none
  | some htable =>
    dsimp only
    split
    · exact T.resolveQualified htable hk name
    · unfold Model.resolveSimple
      rw [hmatch.imports, hmatch.package]
      refine option_rel_or (option_rel_or (option_rel_or ?_ ?_) ?_) ?_
      · exact option_rel_bind (T.compoundAround? hk) fun d e hde => T.inner? hde name
      · exact importedByName? htable s'.imports name
      · exact htable.component? _
      · exact importedByPattern? htable s'.imports name

/-- A name of an inner or a top-level type leads to paired types. -/
theorem innerOrToplevel? (qname project : String) :
    Option.Rel (Paired K m m') (m.innerOrToplevel? qname project)
      (m'.innerOrToplevel? qname project) := by
  unfold Model.innerOrToplevel?
  refine option_rel_bind (T.tables project) fun t u htable => ?_
  have hexact := htable.component? qname
  generalize t.component? qname = x at hexact ⊢
  generalize u.component? qname = y at hexact ⊢
  cases hexact with
  | some hde => exact .some hde
  | none =>
    set cuts := (List.range ((Name.segments qname).length - 1)).reverse.map (· + 1)
    have hsame : List.Forall₂ Eq cuts cuts := List.forall₂_same.mpr fun _ _ => rfl
    have hcuts := forall₂_findSome? hsame (S := Option.Rel (Paired K m m'))
      (f := fun n => (t.component? (Name.join ((Name.segments qname).take n))).map fun d =>
        d.descend ((Name.segments qname).drop n))
      (g := fun n => (u.component? (Name.join ((Name.segments qname).take n))).map fun d =>
        d.descend ((Name.segments qname).drop n))
      fun i j hij => hij ▸ option_rel_map (htable.component? _) fun d e hde => T.descend hde _
    dsimp only
    generalize List.findSome? _ _ = x at hcuts ⊢
    generalize List.findSome? _ _ = y at hcuts ⊢
    cases hcuts with
    | none => exact .none
    | some hab => exact hab

end Model.Twins

end NedWorkspace
