/-
# Pieces of syntax that say the same

Two pieces of syntax are twins when the same is written in them and their nodes, taken in order, have
corresponding numbers. Twins have twins as parts: what is written decides how many nodes each part has,
so the list of nodes falls apart in one way only.
-/

import Mathlib.Data.List.Forall2
import NedWorkspace.Proofs.Syntax.Stamp

namespace NedWorkspace

/-- Lists that go on from fronts of one length correspond in front and behind. -/
theorem forall₂_of_append {α β : Type} {R : α → β → Prop} {as cs : List α} {bs ds : List β}
    (hlen : as.length = bs.length) (h : List.Forall₂ R (as ++ cs) (bs ++ ds)) :
    List.Forall₂ R as bs ∧ List.Forall₂ R cs ds := by
  induction as generalizing bs with
  | nil =>
    obtain rfl := List.length_eq_zero_iff.mp hlen.symm
    exact ⟨.nil, h⟩
  | cons a as ih =>
    obtain ⟨b, bs, rfl⟩ := List.exists_cons_of_length_eq_add_one hlen.symm
    rw [List.cons_append, List.cons_append, List.forall₂_cons] at h
    obtain ⟨hfront, hback⟩ := ih (Nat.succ.inj hlen) h.2
    exact ⟨.cons h.1 hfront, hback⟩

open Stamped

/-- The same is written, and the numbers of the nodes correspond. -/
structure Twin {α : Type} [Stamped α] (R : NodeId → NodeId → Prop) (a b : α) : Prop where
  bare : restamp .bare a = restamp .bare b
  nodes : List.Forall₂ (fun x y : NodeSpan => R x.node y.node) (nodes a) (nodes b)

namespace Twin

variable {α : Type} [Stamped α] {R : NodeId → NodeId → Prop}

/-- A piece at the front of what is left of a list of nodes. -/
theorem split {a b : α} {as bs : List NodeSpan} (h : restamp .bare a = restamp .bare b)
    (hn : List.Forall₂ (fun x y : NodeSpan => R x.node y.node) (Stamped.nodes a ++ as)
      (Stamped.nodes b ++ bs)) :
    Twin R a b ∧ List.Forall₂ (fun x y : NodeSpan => R x.node y.node) as bs := by
  obtain ⟨hfront, hback⟩ := forall₂_of_append (length_nodes_of_bare h) hn
  exact ⟨⟨h, hfront⟩, hback⟩

/-- The elements of twin lists are twins. -/
theorem forall₂ {as bs : List α} (h : Twin R as bs) : List.Forall₂ (Twin R) as bs := by
  obtain ⟨hbare, hnodes⟩ := h
  induction as generalizing bs with
  | nil =>
    cases bs with
    | nil => exact .nil
    | cons b bs => exact absurd hbare (by simp [restamp])
  | cons a as ih =>
    cases bs with
    | nil => exact absurd hbare (by simp [restamp])
    | cons b bs =>
      obtain ⟨hhead, htail⟩ := List.cons_eq_cons.mp hbare
      obtain ⟨htwin, hrest⟩ := split hhead hnodes
      exact .cons htwin (ih htail hrest)

/-- What may be missing is there in both twins or in neither. -/
theorem option {a b : Option α} (h : Twin R a b) : Option.Rel (Twin R) a b := by
  obtain ⟨hbare, hnodes⟩ := h
  match a, b with
  | none, none => exact .none
  | none, some _ => exact absurd hbare (by simp [restamp])
  | some _, none => exact absurd hbare (by simp [restamp])
  | some a, some b =>
    refine .some ⟨Option.some.inj hbare, ?_⟩
    simpa [Stamped.nodes] using hnodes

end Twin

variable {R : NodeId → NodeId → Prop}

theorem TypeRef.Twin.name {r s : TypeRef} (h : Twin R r s) : r.name = s.name :=
  (congrArg TypeRef.name h.bare :)

theorem TypeRef.Twin.node {r s : TypeRef} (h : Twin R r s) : R r.node s.node :=
  (List.forall₂_cons.mp h.nodes).1

namespace Param.Twin

variable {p q : Param} (h : Twin R p q)
include h

theorem node : R p.node q.node := by
  have hn := h.nodes
  rw [show Stamped.nodes p = _ from p.nodes_eq, show Stamped.nodes q = _ from q.nodes_eq] at hn
  exact (List.forall₂_cons.mp hn).1

theorem name : p.name = q.name := (congrArg Param.name h.bare :)

theorem type : p.type = q.type := (congrArg Param.type h.bare :)

end Param.Twin

namespace Gate.Twin

variable {g k : Gate} (h : Twin R g k)
include h

theorem node : R g.node k.node := by
  have hn := h.nodes
  rw [show Stamped.nodes g = _ from g.nodes_eq, show Stamped.nodes k = _ from k.nodes_eq] at hn
  exact (List.forall₂_cons.mp hn).1

theorem name : g.name = k.name := (congrArg Gate.name h.bare :)

theorem direction : g.direction = k.direction := (congrArg Gate.direction h.bare :)

theorem isVector : g.isVector = k.isVector := (congrArg Gate.isVector h.bare :)

theorem size : g.size = k.size := (congrArg Gate.size h.bare :)

end Gate.Twin

/-- What twin submodules agree in. -/
structure Submodule.Alike (R : NodeId → NodeId → Prop) (s t : Submodule) : Prop where
  node : R s.node t.node
  name : s.name = t.name
  vectorSize : s.vectorSize = t.vectorSize
  like : s.like = t.like
  type : Twin R s.type t.type
  params : List.Forall₂ (Twin R) s.params t.params
  gates : List.Forall₂ (Twin R) s.gates t.gates

/-- Twin submodules read the same. -/
theorem Submodule.Twin.alike {s t : Submodule} (h : Twin R s t) : s.Alike R t := by
  obtain ⟨_, hname, hvector, htype, hlike, hparams, hgates, hproperties, _⟩ :=
    (Submodule.mk.injEq ..).mp h.bare
  have hn := h.nodes
  rw [show Stamped.nodes s = _ from s.nodes_eq, show Stamped.nodes t = _ from t.nodes_eq,
    List.forall₂_cons] at hn
  obtain ⟨hnode, hn⟩ := hn
  obtain ⟨type_twin, hn⟩ := Twin.split htype hn
  obtain ⟨_, hn⟩ := Twin.split hproperties hn
  obtain ⟨params_twin, hn⟩ := Twin.split hparams hn
  have gates_twin : Twin R s.gates t.gates := ⟨hgates, hn⟩
  exact ⟨hnode, hname, hvector, hlike, type_twin, params_twin.forall₂, gates_twin.forall₂⟩

/-- What twin channels agree in. -/
structure ChannelSpec.Alike (R : NodeId → NodeId → Prop) (c d : ChannelSpec) : Prop where
  type : Option.Rel (Twin R) c.type d.type
  like : c.like = d.like

/-- Twin channels read the same. -/
theorem ChannelSpec.Twin.alike {c d : ChannelSpec} (h : Twin R c d) : c.Alike R d := by
  obtain ⟨_, htype, hlike, _⟩ := (ChannelSpec.mk.injEq ..).mp h.bare
  have hn := h.nodes
  rw [show Stamped.nodes c = _ from c.nodes_eq, show Stamped.nodes d = _ from d.nodes_eq,
    List.forall₂_cons] at hn
  have type_twin : Twin R c.type d.type := ⟨htype, hn.2⟩
  exact ⟨type_twin.option, hlike⟩

/-- What twin connections agree in. -/
structure Connection.Alike (R : NodeId → NodeId → Prop) (c d : Connection) : Prop where
  node : R c.node d.node
  src : c.src = d.src
  dest : c.dest = d.dest
  arrow : c.arrow = d.arrow
  channel : Option.Rel (Twin R) c.channel d.channel

/-- Twin connections read the same. -/
theorem Connection.Twin.alike {c d : Connection} (h : Twin R c d) : c.Alike R d := by
  obtain ⟨_, hsrc, hdest, harrow, hchannel, _⟩ := (Connection.mk.injEq ..).mp h.bare
  have hn := h.nodes
  rw [show Stamped.nodes c = _ from c.nodes_eq, show Stamped.nodes d = _ from d.nodes_eq,
    List.forall₂_cons] at hn
  have channel_twin : Twin R c.channel d.channel := ⟨hchannel, hn.2⟩
  exact ⟨hn.1, hsrc, hdest, harrow, channel_twin.option⟩

/-- What twin declarations agree in. -/
structure TypeDecl.Alike (R : NodeId → NodeId → Prop) (t u : TypeDecl) : Prop where
  node : R t.node u.node
  kind : t.kind = u.kind
  name : t.name = u.name
  bases : List.Forall₂ (Twin R) t.bases u.bases
  interfaces : List.Forall₂ (Twin R) t.interfaces u.interfaces
  params : List.Forall₂ (Twin R) t.params u.params
  gates : List.Forall₂ (Twin R) t.gates u.gates
  types : List.Forall₂ (Twin R) t.types u.types
  submodules : List.Forall₂ (Twin R) t.submodules u.submodules
  connections : List.Forall₂ (Twin R) t.connections u.connections

/-- Twin types read the same, part by part. -/
theorem TypeDecl.Twin.alike {t u : TypeDecl} (h : Twin R t u) : t.Alike R u := by
  obtain ⟨own, types⟩ := t
  obtain ⟨own', types'⟩ := u
  have hbare : TypeDecl.restamp .bare ⟨own, types⟩ = TypeDecl.restamp .bare ⟨own', types'⟩ := h.bare
  rw [TypeDecl.restamp_mk, TypeDecl.restamp_mk, TypeDecl.mk.injEq] at hbare
  obtain ⟨hown, htypes⟩ := hbare
  obtain ⟨_, hkind, hname, hbases, hinterfaces, hparams, hgates, hsubmodules, hconnections, _,
    hproperties, _⟩ := (TypeDetails.mk.injEq ..).mp hown
  have hn := h.nodes
  rw [show Stamped.nodes (⟨own, types⟩ : TypeDecl) = _ from TypeDecl.nodes_mk own types,
    show Stamped.nodes (⟨own', types'⟩ : TypeDecl) = _ from TypeDecl.nodes_mk own' types',
    TypeDetails.nodesBefore_eq, TypeDetails.nodesBefore_eq, TypeDetails.nodesAfter_eq,
    TypeDetails.nodesAfter_eq, List.cons_append, List.cons_append, List.forall₂_cons] at hn
  obtain ⟨hnode, hn⟩ := hn
  simp only [List.append_assoc] at hn
  obtain ⟨bases_twin, hn⟩ := Twin.split hbases hn
  obtain ⟨interfaces_twin, hn⟩ := Twin.split hinterfaces hn
  obtain ⟨_, hn⟩ := Twin.split hproperties hn
  obtain ⟨params_twin, hn⟩ := Twin.split hparams hn
  obtain ⟨gates_twin, hn⟩ := Twin.split hgates hn
  obtain ⟨types_twin, hn⟩ := Twin.split (a := types) (b := types') htypes hn
  obtain ⟨submodules_twin, hn⟩ := Twin.split hsubmodules hn
  have connections_twin : Twin R own.connections own'.connections := ⟨hconnections, hn⟩
  exact ⟨hnode, hkind, hname, bases_twin.forall₂, interfaces_twin.forall₂, params_twin.forall₂,
    gates_twin.forall₂, types_twin.forall₂, submodules_twin.forall₂, connections_twin.forall₂⟩

/-- What trees agree in that say the same and whose nodes correspond. -/
structure Tree.Alike (R : NodeId → NodeId → Prop) (t u : Tree) : Prop where
  package : Option.Rel (Twin R) t.package u.package
  imports : t.imports.map ImportDecl.spec = u.imports.map ImportDecl.spec
  types : List.Forall₂ (Twin R) t.types u.types

/-- Trees that differ in numbers and spans at most are alike if their nodes correspond in order. -/
theorem Tree.alike_of_bare {t u : Tree} (h : t.bare = u.bare)
    (hn : List.Forall₂ (fun x y : NodeSpan => R x.node y.node) t.nodes u.nodes) : t.Alike R u := by
  obtain ⟨hpackage, himports, hproperties, htypes, _⟩ := (Tree.mk.injEq ..).mp h
  rw [Tree.nodes_eq, Tree.nodes_eq] at hn
  obtain ⟨package_twin, hn⟩ := Twin.split hpackage hn
  obtain ⟨_, hn⟩ := Twin.split himports hn
  obtain ⟨_, hn⟩ := Twin.split hproperties hn
  have types_twin : Twin R t.types u.types := ⟨htypes, hn⟩
  have himports : t.imports.map (Stamped.restamp .bare) = u.imports.map (Stamped.restamp .bare) :=
    himports
  have hspecs := congrArg (List.map ImportDecl.spec) himports
  rw [List.map_map, List.map_map] at hspecs
  exact ⟨package_twin.option, hspecs, types_twin.forall₂⟩

/-- Trees that are alike declare the same package. -/
theorem Tree.Alike.packageName? {t u : Tree} (h : t.Alike R u) : t.packageName? = u.packageName? := by
  have hrel := h.package
  unfold Tree.packageName?
  generalize t.package = p at hrel ⊢
  generalize u.package = q at hrel ⊢
  cases hrel with
  | none => rfl
  | some hpq => exact congrArg some (congrArg PackageDecl.name hpq.bare :)

/-- Trees that are alike declare their package at nodes that correspond. -/
theorem Tree.Alike.packageNode {t u : Tree} (h : t.Alike R u) :
    Option.Rel R (t.package.map PackageDecl.node) (u.package.map PackageDecl.node) := by
  have hrel := h.package
  generalize t.package = p at hrel ⊢
  generalize u.package = q at hrel ⊢
  cases hrel with
  | none => exact .none
  | some hpq => exact .some (List.forall₂_cons.mp hpq.nodes).1

end NedWorkspace
