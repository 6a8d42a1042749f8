/-
# Pieces of syntax that echo each other

A tree keeps some of what was written as text: qualified names, import specifications and expressions.
`Echo T a b` says that `a` and `b` have the same shape and the same names, and that what they keep as
text is related by `T`, piece by piece. Stamps do not count.

* `Echo Eq` is equality of what is written (`Echoing.echo_eq`, `Tree.echo_eq`).
* A weaker `T` says how far two trees may differ and only there.
-/

import Mathlib.Data.List.Forall2
import NedWorkspace.Proofs.Syntax.MergeExact

namespace NedWorkspace

/-- Values that may be missing are related by equality exactly if they are equal. -/
theorem option_rel_eq {α : Type} {a b : Option α} : Option.Rel Eq a b ↔ a = b := by
  refine ⟨fun h => ?_, fun h => ?_⟩
  · cases h with
    | some h => exact congrArg some h
    | none => rfl
  · subst h
    cases a with
    | none => exact .none
    | some a => exact .some rfl

open Stamped

/-- A piece of syntax with texts in it. -/
class Echoing (α : Type) [Stamped α] where
  /-- The same up to stamps, with related texts. -/
  Echo : (String → String → Prop) → α → α → Prop
  echo_eq : ∀ a b : α, Echo Eq a b ↔ restamp .bare a = restamp .bare b

namespace Echoing

variable {α : Type} [Stamped α] [Echoing α]

instance : Echoing (List α) where
  Echo T := List.Forall₂ (Echo T)
  echo_eq as bs := by
    have hrel : (Echo Eq : α → α → Prop) = fun a b => restamp .bare a = restamp .bare b :=
      funext fun a => funext fun b => propext (echo_eq a b)
    change _ ↔ as.map (restamp .bare) = bs.map (restamp .bare)
    rw [hrel, ← List.forall₂_eq_eq_eq, List.forall₂_map_left_iff, List.forall₂_map_right_iff]

instance : Echoing (Option α) where
  Echo T := Option.Rel (Echo T)
  echo_eq a b := by
    change _ ↔ a.map (restamp .bare) = b.map (restamp .bare)
    refine ⟨fun h => ?_, fun h => ?_⟩
    · cases h with
      | some h => exact congrArg some ((echo_eq _ _).mp h)
      | none => rfl
    · match a, b with
      | none, none => exact .none
      | some a, some b => exact .some ((echo_eq a b).mpr (Option.some.inj h))

end Echoing

open Echoing

instance : Echoing PackageDecl where
  Echo T p q := T p.name q.name
  echo_eq p q := by
    refine Iff.trans ?_ (PackageDecl.mk.injEq ..).to_iff.symm
    simp only [NodeSpan.bare, true_and, and_true]

instance : Echoing ImportDecl where
  Echo T i j := T i.spec j.spec
  echo_eq i j := by
    refine Iff.trans ?_ (ImportDecl.mk.injEq ..).to_iff.symm
    simp only [NodeSpan.bare, true_and, and_true]

instance : Echoing TypeRef where
  Echo T r s := T r.name s.name
  echo_eq r s := by
    refine Iff.trans ?_ (TypeRef.mk.injEq ..).to_iff.symm
    simp only [NodeSpan.bare, true_and, and_true]

/-- Entries with the same key and related values. -/
structure PropertyEntry.Echo (T : String → String → Prop) (e f : PropertyEntry) : Prop where
  key : e.key = f.key
  values : List.Forall₂ T e.values f.values

/-- An echo of entries with the same slices is the same entry. -/
theorem PropertyEntry.echo_eq : PropertyEntry.Echo Eq = Eq := by
  funext e f
  refine propext ⟨fun h => ?_, fun h => h ▸ ⟨rfl, List.forall₂_eq_eq_eq.symm ▸ rfl⟩⟩
  obtain ⟨key, values⟩ := e
  exact (PropertyEntry.mk.injEq ..).mpr ⟨h.key, List.forall₂_eq_eq_eq ▸ h.values⟩

/-- Properties with the same name and related texts. -/
structure Property.Echo (T : String → String → Prop) (p q : Property) : Prop where
  name : p.name = q.name
  index : Option.Rel T p.index q.index
  entries : List.Forall₂ (PropertyEntry.Echo T) p.entries q.entries

instance : Echoing Property where
  Echo := Property.Echo
  echo_eq p q := by
    have hbare : restamp .bare p = restamp .bare q ↔
        p.name = q.name ∧ p.index = q.index ∧ p.entries = q.entries := by
      refine (Property.mk.injEq ..).to_iff.trans ?_
      simp only [NodeSpan.bare, true_and, and_true]
    rw [hbare]
    refine ⟨fun ⟨hn, hi, he⟩ => ⟨hn, option_rel_eq.mp hi, ?_⟩,
      fun ⟨hn, hi, he⟩ => ⟨hn, option_rel_eq.mpr hi, ?_⟩⟩
    · rwa [PropertyEntry.echo_eq, List.forall₂_eq_eq_eq] at he
    · rwa [PropertyEntry.echo_eq, List.forall₂_eq_eq_eq]

/-- Parameters that agree up to the texts kept in them. -/
structure Param.Echo (T : String → String → Prop) (p q : Param) : Prop where
  name : p.name = q.name
  type : p.type = q.type
  volatile : p.volatile = q.volatile
  value : Option.Rel T p.value q.value
  properties : Echoing.Echo T p.properties q.properties

instance : Echoing Param where
  Echo := Param.Echo
  echo_eq p q := by
    rw [Param.bare_eq_iff, ← Echoing.echo_eq]
    exact ⟨fun h => ⟨h.name, h.type, h.volatile, option_rel_eq.mp h.value, h.properties⟩,
      fun ⟨hn, ht, hv, he, hp⟩ => ⟨hn, ht, hv, option_rel_eq.mpr he, hp⟩⟩

/-- Gates that agree up to the texts kept in them. -/
structure Gate.Echo (T : String → String → Prop) (g k : Gate) : Prop where
  name : g.name = k.name
  direction : g.direction = k.direction
  isVector : g.isVector = k.isVector
  size : Option.Rel T g.size k.size
  properties : Echoing.Echo T g.properties k.properties

instance : Echoing Gate where
  Echo := Gate.Echo
  echo_eq g k := by
    rw [Gate.bare_eq_iff, ← Echoing.echo_eq]
    exact ⟨fun h => ⟨h.name, h.direction, h.isVector, option_rel_eq.mp h.size, h.properties⟩,
      fun ⟨hn, hd, hv, hs, hp⟩ => ⟨hn, hd, hv, option_rel_eq.mpr hs, hp⟩⟩

/-- Submodules that agree up to the texts kept in them. -/
structure Submodule.Echo (T : String → String → Prop) (s t : Submodule) : Prop where
  name : s.name = t.name
  vectorSize : Option.Rel T s.vectorSize t.vectorSize
  type : Echoing.Echo T s.type t.type
  like : Option.Rel T s.like t.like
  params : Echoing.Echo T s.params t.params
  gates : Echoing.Echo T s.gates t.gates
  properties : Echoing.Echo T s.properties t.properties

instance : Echoing Submodule where
  Echo := Submodule.Echo
  echo_eq s t := by
    rw [Submodule.bare_eq_iff]
    simp only [← Echoing.echo_eq]
    exact ⟨fun h => ⟨h.name, option_rel_eq.mp h.vectorSize, h.type, option_rel_eq.mp h.like,
        h.params, h.gates, h.properties⟩,
      fun ⟨hn, hv, ht, hl, hp, hg, hps⟩ => ⟨hn, option_rel_eq.mpr hv, ht, option_rel_eq.mpr hl, hp,
        hg, hps⟩⟩

/-- Channels that agree up to the texts kept in them. -/
structure ChannelSpec.Echo (T : String → String → Prop) (c d : ChannelSpec) : Prop where
  type : Echoing.Echo T c.type d.type
  like : Option.Rel T c.like d.like

instance : Echoing ChannelSpec where
  Echo := ChannelSpec.Echo
  echo_eq c d := by
    have hbare : restamp .bare c = restamp .bare d ↔
        restamp .bare c.type = restamp .bare d.type ∧ c.like = d.like := by
      refine (ChannelSpec.mk.injEq ..).to_iff.trans ?_
      simp only [NodeSpan.bare, true_and, and_true]
    rw [hbare, ← Echoing.echo_eq]
    exact ⟨fun h => ⟨h.type, option_rel_eq.mp h.like⟩,
      fun ⟨ht, hl⟩ => ⟨ht, option_rel_eq.mpr hl⟩⟩

/-- Connections between the same gates, over channels that agree up to the texts kept in them. -/
structure Connection.Echo (T : String → String → Prop) (c d : Connection) : Prop where
  src : c.src = d.src
  dest : c.dest = d.dest
  arrow : c.arrow = d.arrow
  channel : Echoing.Echo T c.channel d.channel

instance : Echoing Connection where
  Echo := Connection.Echo
  echo_eq c d := by
    have hbare : restamp .bare c = restamp .bare d ↔ c.src = d.src ∧ c.dest = d.dest ∧
        c.arrow = d.arrow ∧ restamp .bare c.channel = restamp .bare d.channel := by
      refine (Connection.mk.injEq ..).to_iff.trans ?_
      simp only [NodeSpan.bare, true_and, and_true]
    rw [hbare, ← Echoing.echo_eq]
    exact ⟨fun h => ⟨h.src, h.dest, h.arrow, h.channel⟩, fun ⟨hs, hd, ha, hc⟩ => ⟨hs, hd, ha, hc⟩⟩

/-- Declarations that agree, their inner types apart, up to the texts kept in them. -/
structure TypeDetails.Echo (T : String → String → Prop) (t u : TypeDetails) : Prop where
  kind : t.kind = u.kind
  name : t.name = u.name
  bases : Echoing.Echo T t.bases u.bases
  interfaces : Echoing.Echo T t.interfaces u.interfaces
  params : Echoing.Echo T t.params u.params
  gates : Echoing.Echo T t.gates u.gates
  submodules : Echoing.Echo T t.submodules u.submodules
  connections : Echoing.Echo T t.connections u.connections
  allowUnconnected : t.allowUnconnected = u.allowUnconnected
  properties : Echoing.Echo T t.properties u.properties

/-- Details echo one another with the same slices if they differ in numbers and spans at most. -/
theorem TypeDetails.echo_eq {t u : TypeDetails} :
    t.Echo Eq u ↔ t.restamp .bare = u.restamp .bare := by
  rw [TypeDetails.bare_eq_iff]
  simp only [← Echoing.echo_eq]
  exact ⟨fun h => ⟨h.kind, h.name, h.bases, h.interfaces, h.params, h.gates, h.submodules,
      h.connections, h.allowUnconnected, h.properties⟩,
    fun ⟨hk, hn, hb, hi, hp, hg, hs, hc, ha, hps⟩ => ⟨hk, hn, hb, hi, hp, hg, hs, hc, ha, hps⟩⟩

/-- Declarations that agree, inner types included, up to the texts kept in them. -/
inductive TypeDecl.Echo (T : String → String → Prop) : TypeDecl → TypeDecl → Prop
  | mk {own own' : TypeDetails} {types types' : List TypeDecl} (details : own.Echo T own')
      (inner : List.Forall₂ (TypeDecl.Echo T) types types') :
      TypeDecl.Echo T ⟨own, types⟩ ⟨own', types'⟩

namespace TypeDecl

/-- An echo of types is one of all but the inner types. -/
theorem Echo.details {T : String → String → Prop} {t u : TypeDecl} (h : t.Echo T u) :
    t.toTypeDetails.Echo T u.toTypeDetails := by
  cases h with
  | mk details _ => exact details

/-- An echo of types is one of the inner types, in order. -/
theorem Echo.types {T : String → String → Prop} {t u : TypeDecl} (h : t.Echo T u) :
    List.Forall₂ (TypeDecl.Echo T) t.types u.types := by
  cases h with
  | mk _ inner => exact inner

/-- Types echo one another with the same slices if they differ in numbers and spans at most. -/
theorem echo_eq (t u : TypeDecl) : t.Echo Eq u ↔ t.restamp .bare = u.restamp .bare := by
  induction t using TypeDecl.induct generalizing u with
  | mk own types ih =>
    obtain ⟨own', types'⟩ := u
    have hinner : List.Forall₂ (TypeDecl.Echo Eq) types types' ↔
        types.map (restamp .bare) = types'.map (restamp .bare) := by
      clear own own'
      induction types generalizing types' with
      | nil => cases types' <;> simp
      | cons t ts ihts =>
        cases types' with
        | nil => simp
        | cons u us =>
          rw [List.forall₂_cons, ih t List.mem_cons_self u,
            ihts (fun t ht => ih t (List.mem_cons_of_mem _ ht)) us, List.map_cons, List.map_cons,
            List.cons.injEq]
    rw [restamp_mk, restamp_mk, TypeDecl.mk.injEq, ← TypeDetails.echo_eq, ← hinner]
    exact ⟨fun h => ⟨h.details, h.types⟩, fun ⟨hown, htypes⟩ => .mk hown htypes⟩

instance : Echoing TypeDecl where
  Echo := TypeDecl.Echo
  echo_eq := TypeDecl.echo_eq

end TypeDecl

/-- Trees that agree up to the texts kept in them. -/
structure Tree.Echo (T : String → String → Prop) (t u : Tree) : Prop where
  package : Echoing.Echo T t.package u.package
  imports : Echoing.Echo T t.imports u.imports
  properties : Echoing.Echo T t.properties u.properties
  types : Echoing.Echo T t.types u.types

/-- **Trees that echo each other word for word are those in which the same is written.** -/
theorem Tree.echo_eq {t u : Tree} : t.Echo Eq u ↔ t.bare = u.bare := by
  have hbare : t.bare = u.bare ↔
      Stamped.restamp .bare t.package = Stamped.restamp .bare u.package ∧
      Stamped.restamp .bare t.imports = Stamped.restamp .bare u.imports ∧
      Stamped.restamp .bare t.properties = Stamped.restamp .bare u.properties ∧
      Stamped.restamp .bare t.types = Stamped.restamp .bare u.types := by
    refine (Tree.mk.injEq ..).to_iff.trans ?_
    simp only [and_true]
    rfl
  rw [hbare]
  simp only [← Echoing.echo_eq]
  exact ⟨fun h => ⟨h.package, h.imports, h.properties, h.types⟩,
    fun ⟨hp, hi, hps, ht⟩ => ⟨hp, hi, hps, ht⟩⟩

end NedWorkspace
