/-
# Definitions that say the same

The definitions that two workspaces build for one text differ in the numbers of files and nodes and in
their editions, and in nothing else. Given which keys correspond, `Definition.Matches` says that two
definitions are built alike from twin declarations. Twin trees give matching definitions
(`FileScope.matches_ofTree`), and tables of matching definitions match (`ProjectTable.matches_ofList`).
-/

import NedWorkspace.Definition.Index
import NedWorkspace.Proofs.Definition.Table
import NedWorkspace.Proofs.Map.Related
import NedWorkspace.Proofs.Syntax.Twin

namespace NedWorkspace

/-- Which nodes of two files correspond, when it is known which keys do. -/
def nodesOf (K : TypeKey → TypeKey → Prop) (file file' : FileId) : NodeId → NodeId → Prop :=
  fun n n' => K ⟨file, n⟩ ⟨file', n'⟩

/-- Definitions that are built alike from twin declarations. -/
inductive Definition.Matches (K : TypeKey → TypeKey → Prop) : Definition → Definition → Prop
  | intro {d e : Definition} (key : K d.key e.key) (qname : d.qname = e.qname)
      (package : d.package = e.package)
      (decl : Twin (nodesOf K d.key.file e.key.file) d.decl e.decl)
      (toplevel : K d.toplevel e.toplevel)
      (inner : List.Forall₂ (Definition.Matches K) d.inner e.inner) : Definition.Matches K d e

namespace Definition

variable {K : TypeKey → TypeKey → Prop} {d e : Definition}

namespace Matches

theorem key (h : Matches K d e) : K d.key e.key := by
  cases h
  assumption

theorem qname (h : Matches K d e) : d.qname = e.qname := by
  cases h
  assumption

theorem package (h : Matches K d e) : d.package = e.package := by
  cases h
  assumption

/-- Definitions that match come from twin declarations. -/
theorem decl (h : Matches K d e) : Twin (nodesOf K d.key.file e.key.file) d.decl e.decl := by
  cases h
  assumption

theorem toplevel (h : Matches K d e) : K d.toplevel e.toplevel := by
  cases h
  assumption

/-- Definitions that match have inner types that match, in order. -/
theorem inner (h : Matches K d e) : List.Forall₂ (Matches K) d.inner e.inner := by
  cases h
  assumption

/-- The declarations behind definitions that match read the same. -/
theorem alike (h : Matches K d e) : d.decl.Alike (nodesOf K d.key.file e.key.file) e.decl :=
  TypeDecl.Twin.alike h.decl

theorem name (h : Matches K d e) : d.name = e.name := h.alike.name

theorem kind (h : Matches K d e) : d.kind = e.kind := h.alike.kind

theorem baseNames (h : Matches K d e) : d.baseNames = e.baseNames :=
  forall₂_map_eq h.alike.bases fun _ _ => TypeRef.Twin.name

theorem likeNames (h : Matches K d e) : d.likeNames = e.likeNames :=
  forall₂_map_eq h.alike.interfaces fun _ _ => TypeRef.Twin.name

/-- Under each name both definitions have a submodule or neither has. -/
theorem submodule? (h : Matches K d e) (name : String) :
    Option.Rel (Twin (nodesOf K d.key.file e.key.file)) (d.submodule? name) (e.submodule? name) :=
  forall₂_find? h.alike.submodules fun _ _ hst => by rw [(Submodule.Twin.alike hst).name]

end Matches

mutual

/-- Definitions that match do so at any depth. -/
theorem Matches.allInner (d e : Definition) (h : Matches K d e) :
    List.Forall₂ (Matches K) d.allInner e.allInner := by
  obtain ⟨own, inner⟩ := d
  obtain ⟨own', inner'⟩ := e
  rw [Definition.allInner, Definition.allInner]
  exact matches_withInner inner inner' h.inner
termination_by structural d

/-- Definitions with all types below them. -/
theorem matches_withInner (ds es : List Definition) (h : List.Forall₂ (Matches K) ds es) :
    List.Forall₂ (Matches K) (withInner ds) (withInner es) := by
  match ds, es, h with
  | [], [], .nil => exact .nil
  | d :: ds, e :: es, .cons hde hrest =>
    rw [withInner, withInner]
    exact .cons hde (List.rel_append (Matches.allInner d e hde) (matches_withInner ds es hrest))
termination_by structural ds

end

/-- Twin declarations give matching definitions. -/
theorem matches_buildAt {file file' : FileId} {edition edition' : Nat} {package : String}
    {top top' : TypeKey} (htop : K top top') {x y : TypeDecl} (h : Twin (nodesOf K file file') x y)
    (enclosing enclosing' : Option TypeKey) (qname : String) :
    Matches K (buildAt file edition package top enclosing qname x)
      (buildAt file' edition' package top' enclosing' qname y) := by
  induction x using TypeDecl.induct generalizing y enclosing enclosing' qname with
  | mk own types ih =>
    obtain ⟨own', types'⟩ := y
    have halike := TypeDecl.Twin.alike h
    have heach : ∀ {ts : List TypeDecl} {us : List TypeDecl} (taken : List String),
        (∀ t ∈ ts, t ∈ types) → List.Forall₂ (Twin (nodesOf K file file')) ts us →
        List.Forall₂ (Matches K)
          (buildEach file edition package top ⟨file, own.node⟩ qname taken ts)
          (buildEach file' edition' package top' ⟨file', own'.node⟩ qname taken us) := by
      intro ts us taken hts hrel
      induction hrel generalizing taken with
      | nil => exact .nil
      | @cons t u ts us htu _ ihrest =>
        have hrest := fun taken => ihrest taken fun t ht => hts t (List.mem_cons_of_mem _ ht)
        rw [buildEach, buildEach, (TypeDecl.Twin.alike htu).name]
        split
        · exact hrest taken
        · exact .cons (ih t (hts t List.mem_cons_self) htu _ _ _) (hrest _)
    rw [buildAt, buildAt]
    exact .intro halike.node rfl rfl h htop (heach [] (fun _ ht => ht) halike.types)

/-- Twin declarations build definitions that match, whichever edition they are of. -/
theorem matches_build {file file' : FileId} {edition edition' : Nat} {package : String}
    {x y : TypeDecl} (h : Twin (nodesOf K file file') x y) :
    Matches K (build file edition package x) (build file' edition' package y) := by
  have halike := TypeDecl.Twin.alike h
  unfold build
  rw [halike.name]
  exact matches_buildAt halike.node h none none _

/-- All definitions of a list and below them are of one file and one edition. -/
def Uniform (file : FileId) (edition : Nat) (ds : List Definition) : Prop :=
  ∀ d ∈ withInner ds, d.key.file = file ∧ d.edition = edition

theorem uniform_nil (file : FileId) (edition : Nat) : Uniform file edition [] :=
  fun _ hd => absurd hd List.not_mem_nil

/-- A uniform list is a definition, uniform with its inner types, before a uniform list. -/
theorem uniform_cons {file : FileId} {edition : Nat} {d : Definition} {ds : List Definition}
    (hd : Uniform file edition [d]) (hds : Uniform file edition ds) :
    Uniform file edition (d :: ds) := by
  intro i hi
  rw [withInner, List.mem_cons, List.mem_append] at hi
  have hhead : i = d ∨ i ∈ d.allInner → i ∈ withInner [d] := by
    rw [withInner, withInner, List.append_nil]
    exact List.mem_cons.mpr
  rcases hi with hi | hi | hi
  · exact hd i (hhead (.inl hi))
  · exact hd i (hhead (.inr hi))
  · exact hds i hi

/-- What is built for one file at one time is of that file and edition. -/
theorem uniform_buildAt (file : FileId) (edition : Nat) (package : String) (top : TypeKey)
    (x : TypeDecl) (enclosing : Option TypeKey) (qname : String) :
    Uniform file edition [buildAt file edition package top enclosing qname x] := by
  induction x using TypeDecl.induct generalizing enclosing qname with
  | mk own types ih =>
    have heach : ∀ (ts : List TypeDecl) (taken : List String), (∀ t ∈ ts, t ∈ types) →
        Uniform file edition
          (buildEach file edition package top ⟨file, own.node⟩ qname taken ts) := by
      intro ts
      induction ts with
      | nil =>
        intro taken _
        rw [buildEach]
        exact uniform_nil file edition
      | cons t ts ihrest =>
        intro taken hts
        have hrest := fun taken => ihrest taken fun t ht => hts t (List.mem_cons_of_mem _ ht)
        rw [buildEach]
        split
        · exact hrest taken
        · exact uniform_cons (ih t (hts t List.mem_cons_self) _ _) (hrest _)
    rw [buildAt]
    intro i hi
    rw [withInner, withInner, List.append_nil, allInner, List.mem_cons] at hi
    rcases hi with rfl | hi
    · exact ⟨rfl, rfl⟩
    · exact heach types [] (fun _ ht => ht) i hi

/-- The definitions built from one text are of one file and of one edition throughout. -/
theorem uniform_map_build (file : FileId) (edition : Nat) (package : String)
    (types : List TypeDecl) : Uniform file edition (types.map (build file edition package)) := by
  induction types with
  | nil => exact uniform_nil file edition
  | cons t ts ih =>
    exact uniform_cons (uniform_buildAt file edition package ⟨file, t.node⟩ t none _) ih

end Definition

open Definition

/-- Scopes that are built alike from trees that say the same. -/
structure FileScope.Matches (K : TypeKey → TypeKey → Prop) (s t : FileScope) : Prop where
  package : s.package = t.package
  imports : s.imports = t.imports
  project : s.project = t.project
  types : List.Forall₂ (Definition.Matches K) s.types t.types

namespace FileScope

variable {K : TypeKey → TypeKey → Prop}

/-- Trees that are alike make scopes that match. -/
theorem matches_ofTree {file file' : FileId} {edition edition' : Nat} {t u : Tree}
    {project : Option String} (h : t.Alike (nodesOf K file file') u) :
    (FileScope.ofTree file edition t project).Matches K
      (FileScope.ofTree file' edition' u project) := by
  have hpackage := h.packageName?
  refine ⟨?_, ?_, rfl, ?_⟩
  · exact congrArg (·.getD "") hpackage
  · have himports := congrArg (List.map ImportSpec.mk) h.imports
    rw [List.map_map, List.map_map] at himports
    exact himports
  · have hbuilt : List.Forall₂ (Definition.Matches K)
        (t.types.map (Definition.build file edition (u.packageName?.getD "")))
        (u.types.map (Definition.build file' edition' (u.packageName?.getD ""))) :=
      forall₂_map h.types fun _ _ => matches_build
    unfold FileScope.ofTree
    rw [hpackage]
    exact hbuilt

/-- Scopes that match list types that match, inner ones included. -/
theorem Matches.allTypes {s t : FileScope} (h : s.Matches K t) :
    List.Forall₂ (Definition.Matches K) s.allTypes t.allTypes :=
  matches_withInner _ _ h.types

end FileScope

/-- Tables of corresponding definitions. -/
structure ProjectTable.Matches (R : Definition → Definition → Prop) (t u : ProjectTable) : Prop where
  components : OrderedMap.Related R t.components u.components
  duplicates : OrderedMap.Related (List.Forall₂ R) t.duplicates u.duplicates
  reserved : t.reserved = u.reserved
  withSimpleName : ∀ name, t.withSimpleName name = u.withSimpleName name

namespace ProjectTable

variable {R : Definition → Definition → Prop} {t u : ProjectTable} {d e : Definition}

/-- Tables that match still do when definitions that match are registered in both. -/
theorem Matches.register {K : TypeKey → TypeKey → Prop} (h : t.Matches R u)
    (hR : ∀ d e, R d e → Definition.Matches K d e) (hde : R d e) :
    (t.register d).Matches R (u.register e) := by
  obtain ⟨hcomponents, hduplicates, hreserved, hnamed⟩ := h
  have hindexed : ∀ name, t.bySimpleName.named name = u.bySimpleName.named name := hnamed
  have hmatch := hR d e hde
  have hinner : (d.allInner.map fun i : Definition => i.qname) =
      e.allInner.map fun i : Definition => i.qname :=
    forall₂_map_eq hmatch.allInner fun _ _ hij => hij.qname
  have hothers := hduplicates.get? e.qname
  have hfirst := hcomponents.get? e.qname
  have hnames := congrArg (fun names => addNames names (e.qname :: e.allInner.map
    fun i : Definition => i.qname)) hreserved
  unfold ProjectTable.register
  dsimp only
  rw [hmatch.qname, hinner]
  generalize hx : t.duplicates.get? e.qname = x at hothers ⊢
  generalize hy : u.duplicates.get? e.qname = y at hothers ⊢
  cases hothers with
  | some hlist =>
    exact ⟨hcomponents, hduplicates.insert _ (List.rel_append hlist (.cons hde .nil)), hnames,
      hnamed⟩
  | none =>
    dsimp only
    generalize t.components.get? e.qname = x at hfirst ⊢
    generalize u.components.get? e.qname = y at hfirst ⊢
    cases hfirst with
    | @some a b hab =>
      refine ⟨hcomponents.erase _, hduplicates.insert _ (.cons hab (.cons hde .nil)), hnames,
        fun name => ?_⟩
      rw [ProjectTable.withSimpleName, ProjectTable.withSimpleName, NameIndex.named_remove,
        NameIndex.named_remove, (hR a b hab).name, (hR a b hab).qname, hindexed]
    | none =>
      refine ⟨hcomponents.insert _ hde, hduplicates, hnames, fun name => ?_⟩
      rw [ProjectTable.withSimpleName, ProjectTable.withSimpleName, NameIndex.named_add,
        NameIndex.named_add, hmatch.name, hmatch.qname, hindexed]

/-- **Definitions that correspond one by one give matching tables.** -/
theorem matches_ofList {K : TypeKey → TypeKey → Prop} {ds es : List Definition}
    (h : List.Forall₂ R ds es) (hR : ∀ d e, R d e → Definition.Matches K d e) :
    (ProjectTable.ofList ds).Matches R (ProjectTable.ofList es) := by
  have hfold : ∀ {t u : ProjectTable}, t.Matches R u →
      (ds.foldl ProjectTable.register t).Matches R (es.foldl ProjectTable.register u) := by
    induction h with
    | nil => exact fun htu => htu
    | @cons d e ds es hde _ ih =>
      intro t u htu
      exact ih (htu.register hR hde)
  exact hfold ⟨.empty, .empty, rfl, fun _ => rfl⟩

namespace Matches

variable (h : t.Matches R u)
include h

/-- Tables that match know the same names. -/
theorem component? (qname : String) : Option.Rel R (t.component? qname) (u.component? qname) :=
  h.components.get? qname

end Matches

end ProjectTable

end NedWorkspace
