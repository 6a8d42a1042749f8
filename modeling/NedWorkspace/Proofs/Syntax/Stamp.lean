/-
# Trees up to numbers and spans

The number and the span of a node are stamped on what was written: two texts can say the same with
other stamps. `restamp f` gives every node the stamp that `f` makes of the one it has, so

* `restamp .unnumbered` forgets the numbers,
* `restamp .unplaced` forgets the spans,
* `restamp .bare` forgets both, and what is left is what was written.

`Stamped` collects what all pieces of syntax have in common: restamping changes the nodes one by one
(`nodes_restamp`), two changes are one (`restamp_restamp`), and nothing but the stamps is lost when
they are forgotten (`eq_of_bare`). The last law is what lets a tree be rebuilt from what was written and
the list of its nodes.
-/

import NedWorkspace.Syntax.Tree
import Mathlib.Data.List.Basic

namespace NedWorkspace

namespace NodeSpan

/-- The stamp without its number. -/
def unnumbered (n : NodeSpan) : NodeSpan :=
  ⟨0, n.span⟩

/-- The stamp without its span. -/
def unplaced (n : NodeSpan) : NodeSpan :=
  ⟨n.node, {}⟩

/-- No stamp at all. -/
def bare (_ : NodeSpan) : NodeSpan :=
  ⟨0, {}⟩

/-- Stamps are their numbers and their spans. -/
theorem list_eq_of_unnumbered_of_unplaced {as bs : List NodeSpan}
    (hspans : as.map unnumbered = bs.map unnumbered) (hnumbers : as.map unplaced = bs.map unplaced) :
    as = bs := by
  have hpair : Function.Injective fun n : NodeSpan => (n.unnumbered, n.unplaced) := by
    rintro ⟨m, s⟩ ⟨n, t⟩ h
    simpa [unnumbered, unplaced, and_comm] using h
  refine List.map_injective_iff.mpr hpair ?_
  rw [← List.zip_map', ← List.zip_map', hspans, hnumbers]

@[simp] theorem bare_comp (f : NodeSpan → NodeSpan) : bare ∘ f = bare := rfl

end NodeSpan

/-- Pieces one after another are rebuilt from what is written and the list of their nodes if each of
them is, and if what is written decides how many nodes a piece has. -/
theorem list_eq_of_written {α β γ : Type} {written : α → β} {nodes : α → List γ}
    {as bs : List α} (hlen : ∀ a b, written a = written b → (nodes a).length = (nodes b).length)
    (heq : ∀ a ∈ as, ∀ b, written a = written b → nodes a = nodes b → a = b)
    (hw : as.map written = bs.map written) (hn : as.flatMap nodes = bs.flatMap nodes) : as = bs := by
  induction as generalizing bs with
  | nil => cases bs with
    | nil => rfl
    | cons b bs => simp at hw
  | cons a as ih => cases bs with
    | nil => simp at hw
    | cons b bs =>
      rw [List.map_cons, List.map_cons, List.cons.injEq] at hw
      rw [List.flatMap_cons, List.flatMap_cons] at hn
      obtain ⟨hab, hrest⟩ := List.append_inj hn (hlen a b hw.1)
      rw [heq a List.mem_cons_self b hw.1 hab,
        ih (fun c hc => heq c (List.mem_cons_of_mem a hc)) hw.2 hrest]

/-- A piece of syntax whose nodes are stamped. -/
class Stamped (α : Type) where
  /-- The nodes, each before what lies inside it. -/
  nodes : α → List NodeSpan
  /-- Changes the stamp of every node. -/
  restamp : (NodeSpan → NodeSpan) → α → α
  nodes_restamp : ∀ f a, nodes (restamp f a) = (nodes a).map f
  restamp_restamp : ∀ f g a, restamp f (restamp g a) = restamp (f ∘ g) a
  eq_of_bare : ∀ a b, restamp .bare a = restamp .bare b → nodes a = nodes b → a = b

namespace Stamped

attribute [simp] nodes_restamp restamp_restamp

variable {α : Type} [Stamped α]

/-- What is written decides how many nodes there are. -/
theorem length_nodes_of_bare {a b : α} (h : restamp .bare a = restamp .bare b) :
    (nodes a).length = (nodes b).length := by
  have hn := congrArg (fun c : α => (nodes c).length) h
  simpa only [nodes_restamp, List.length_map] using hn

/-- What is the same up to some change of stamps is the same when stamps are forgotten. -/
theorem bare_of_restamp {f g : NodeSpan → NodeSpan} {a b : α} (h : restamp f a = restamp g b) :
    restamp .bare a = restamp .bare b := by
  have hb := congrArg (restamp NodeSpan.bare) h
  simpa only [restamp_restamp, NodeSpan.bare_comp] using hb

/-- The nodes of a piece at the front of a longer list can be told from what follows them. -/
theorem eq_of_bare_append {a b : α} {as bs : List NodeSpan}
    (h : restamp .bare a = restamp .bare b) (hn : nodes a ++ as = nodes b ++ bs) :
    a = b ∧ as = bs := by
  obtain ⟨hab, hrest⟩ := List.append_inj hn (length_nodes_of_bare h)
  exact ⟨eq_of_bare a b h hab, hrest⟩

instance : Stamped (List α) where
  nodes as := as.flatMap nodes
  restamp f as := as.map (restamp f)
  nodes_restamp f as := by
    simp only [List.flatMap_map, nodes_restamp, List.map_flatMap]
  restamp_restamp f g as := by
    rw [List.map_map]
    exact List.map_congr_left fun a _ => restamp_restamp f g a
  eq_of_bare _ _ := list_eq_of_written (fun _ _ => length_nodes_of_bare)
    fun a _ => eq_of_bare a

instance : Stamped (Option α) where
  nodes a := a.toList.flatMap nodes
  restamp f a := a.map (restamp f)
  nodes_restamp f a := by cases a <;> simp
  restamp_restamp f g a := by cases a <;> simp
  eq_of_bare a b h hn := by
    cases a <;> cases b <;> simp_all
    exact eq_of_bare _ _ h hn

end Stamped

open Stamped

namespace PackageDecl

instance : Stamped PackageDecl where
  nodes p := [⟨p.node, p.span⟩]
  restamp f p := { p with node := (f ⟨p.node, p.span⟩).node, span := (f ⟨p.node, p.span⟩).span }
  nodes_restamp _ _ := rfl
  restamp_restamp _ _ _ := rfl
  eq_of_bare p q h hn := by cases p; cases q; simp_all

end PackageDecl

namespace ImportDecl

instance : Stamped ImportDecl where
  nodes i := [⟨i.node, i.span⟩]
  restamp f i := { i with node := (f ⟨i.node, i.span⟩).node, span := (f ⟨i.node, i.span⟩).span }
  nodes_restamp _ _ := rfl
  restamp_restamp _ _ _ := rfl
  eq_of_bare i j h hn := by cases i; cases j; simp_all

end ImportDecl

namespace Property

instance : Stamped Property where
  nodes p := [p.nodeSpan]
  restamp f p := { p with node := (f p.nodeSpan).node, span := (f p.nodeSpan).span }
  nodes_restamp _ _ := rfl
  restamp_restamp _ _ _ := rfl
  eq_of_bare p q h hn := by cases p; cases q; simp_all [nodeSpan]

end Property

namespace TypeRef

instance : Stamped TypeRef where
  nodes r := [r.nodeSpan]
  restamp f r := { r with node := (f r.nodeSpan).node, span := (f r.nodeSpan).span }
  nodes_restamp _ _ := rfl
  restamp_restamp _ _ _ := rfl
  eq_of_bare p q h hn := by cases p; cases q; simp_all [nodeSpan]

end TypeRef

/-- The nodes of properties, as the declarations around them list them. -/
theorem Property.map_nodeSpan (ps : List Property) : ps.map Property.nodeSpan = nodes ps :=
  List.map_eq_flatMap

/-- The nodes of references, as the declarations around them list them. -/
theorem TypeRef.map_nodeSpan (rs : List TypeRef) : rs.map TypeRef.nodeSpan = nodes rs :=
  List.map_eq_flatMap

namespace Param

theorem nodes_eq (p : Param) : p.nodes = ⟨p.node, p.span⟩ :: Stamped.nodes p.properties := by
  rw [Param.nodes, Property.map_nodeSpan]

instance : Stamped Param where
  nodes := Param.nodes
  restamp f p :=
    { p with node := (f ⟨p.node, p.span⟩).node, span := (f ⟨p.node, p.span⟩).span,
             properties := restamp f p.properties }
  nodes_restamp f p := by simp [nodes_eq]
  restamp_restamp _ _ _ := by simp
  eq_of_bare p q h hn := by
    obtain ⟨_, hname, htype, hvolatile, hvalue, hproperties, _⟩ := (Param.mk.injEq ..).mp h
    rw [nodes_eq, nodes_eq, List.cons.injEq, NodeSpan.mk.injEq] at hn
    have properties_eq := eq_of_bare _ _ hproperties hn.2
    cases p; cases q
    simp_all only [Param.mk.injEq, and_self]

end Param

namespace Gate

theorem nodes_eq (g : Gate) : g.nodes = ⟨g.node, g.span⟩ :: Stamped.nodes g.properties := by
  rw [Gate.nodes, Property.map_nodeSpan]

instance : Stamped Gate where
  nodes := Gate.nodes
  restamp f g :=
    { g with node := (f ⟨g.node, g.span⟩).node, span := (f ⟨g.node, g.span⟩).span,
             properties := restamp f g.properties }
  nodes_restamp f g := by simp [nodes_eq]
  restamp_restamp _ _ _ := by simp
  eq_of_bare g k h hn := by
    obtain ⟨_, hname, hdirection, hvector, hsize, hproperties, _⟩ := (Gate.mk.injEq ..).mp h
    rw [nodes_eq, nodes_eq, List.cons.injEq, NodeSpan.mk.injEq] at hn
    have properties_eq := eq_of_bare _ _ hproperties hn.2
    cases g; cases k
    simp_all only [Gate.mk.injEq, and_self]

end Gate

namespace Submodule

/-- The nodes of a submodule, part by part. -/
theorem nodes_eq (s : Submodule) : s.nodes = ⟨s.node, s.span⟩ ::
    (Stamped.nodes s.type ++ (Stamped.nodes s.properties ++ (Stamped.nodes s.params
      ++ Stamped.nodes s.gates))) := by
  simp only [Submodule.nodes, Property.map_nodeSpan, List.append_assoc]
  rfl

instance : Stamped Submodule where
  nodes := Submodule.nodes
  restamp f s :=
    { s with node := (f ⟨s.node, s.span⟩).node, span := (f ⟨s.node, s.span⟩).span,
             type := restamp f s.type, params := restamp f s.params,
             gates := restamp f s.gates, properties := restamp f s.properties }
  nodes_restamp f s := by simp [nodes_eq]
  restamp_restamp _ _ _ := by simp
  eq_of_bare s t h hn := by
    obtain ⟨_, hname, hsize, htype, hlike, hparams, hgates, hproperties, _⟩ :=
      (Submodule.mk.injEq ..).mp h
    rw [nodes_eq, nodes_eq, List.cons.injEq, NodeSpan.mk.injEq] at hn
    obtain ⟨⟨hnode, hspan⟩, hn⟩ := hn
    obtain ⟨type_eq, hn⟩ := eq_of_bare_append htype hn
    obtain ⟨properties_eq, hn⟩ := eq_of_bare_append hproperties hn
    obtain ⟨params_eq, hn⟩ := eq_of_bare_append hparams hn
    have gates_eq := eq_of_bare _ _ hgates hn
    cases s; cases t
    simp_all only [Submodule.mk.injEq, and_self]

end Submodule

namespace ChannelSpec

theorem nodes_eq (c : ChannelSpec) : c.nodes = ⟨c.node, c.span⟩ :: Stamped.nodes c.type := by
  cases c with
  | mk node type like span => cases type <;> rfl

instance : Stamped ChannelSpec where
  nodes := ChannelSpec.nodes
  restamp f c :=
    { c with node := (f ⟨c.node, c.span⟩).node, span := (f ⟨c.node, c.span⟩).span,
             type := restamp f c.type }
  nodes_restamp f c := by simp [nodes_eq]
  restamp_restamp _ _ _ := by simp
  eq_of_bare c d h hn := by
    obtain ⟨_, htype, hlike, _⟩ := (ChannelSpec.mk.injEq ..).mp h
    rw [nodes_eq, nodes_eq, List.cons.injEq, NodeSpan.mk.injEq] at hn
    have type_eq := eq_of_bare _ _ htype hn.2
    cases c; cases d
    simp_all only [ChannelSpec.mk.injEq]

end ChannelSpec

namespace Connection

theorem nodes_eq (c : Connection) : c.nodes = ⟨c.node, c.span⟩ :: Stamped.nodes c.channel := rfl

instance : Stamped Connection where
  nodes := Connection.nodes
  restamp f c :=
    { c with node := (f ⟨c.node, c.span⟩).node, span := (f ⟨c.node, c.span⟩).span,
             channel := restamp f c.channel }
  nodes_restamp f c := by simp [nodes_eq]
  restamp_restamp _ _ _ := by simp
  eq_of_bare c d h hn := by
    obtain ⟨_, hsrc, hdest, harrow, hchannel, _⟩ := (Connection.mk.injEq ..).mp h
    rw [nodes_eq, nodes_eq, List.cons.injEq, NodeSpan.mk.injEq] at hn
    have channel_eq := eq_of_bare _ _ hchannel hn.2
    cases c; cases d
    simp_all only [Connection.mk.injEq, and_self]

end Connection

/-- What holds of a declaration when it holds of its inner types holds of all declarations. -/
theorem TypeDecl.induct {motive : TypeDecl → Prop}
    (mk : ∀ own types, (∀ t ∈ types, motive t) → motive ⟨own, types⟩) (t : TypeDecl) : motive t :=
  TypeDecl.rec (motive_1 := motive) (motive_2 := fun ts => ∀ t ∈ ts, motive t) mk
    (fun _ h => absurd h List.not_mem_nil)
    (fun t ts ht hts u hu => by
      rcases List.mem_cons.mp hu with rfl | hu
      · exact ht
      · exact hts u hu) t

namespace TypeDetails

/-- Changes the stamps of all but the inner types. -/
def restamp (f : NodeSpan → NodeSpan) (t : TypeDetails) : TypeDetails :=
  { t with node := (f ⟨t.node, t.span⟩).node, span := (f ⟨t.node, t.span⟩).span,
           bases := Stamped.restamp f t.bases, interfaces := Stamped.restamp f t.interfaces,
           params := Stamped.restamp f t.params, gates := Stamped.restamp f t.gates,
           submodules := Stamped.restamp f t.submodules,
           connections := Stamped.restamp f t.connections,
           properties := Stamped.restamp f t.properties }

/-- The nodes of a type up to its gates. -/
theorem nodesBefore_eq (t : TypeDetails) : t.nodesBefore = ⟨t.node, t.span⟩ ::
    (nodes t.bases ++ (nodes t.interfaces ++ (nodes t.properties ++ (nodes t.params
      ++ nodes t.gates)))) := by
  simp only [nodesBefore, TypeRef.map_nodeSpan, Property.map_nodeSpan, List.append_assoc]
  rfl

/-- The nodes of a type from its submodules on. -/
theorem nodesAfter_eq (t : TypeDetails) :
    t.nodesAfter = nodes t.submodules ++ nodes t.connections := rfl

/-- Nodes are stamped one by one, in order. -/
theorem nodesBefore_restamp (f : NodeSpan → NodeSpan) (t : TypeDetails) :
    (t.restamp f).nodesBefore = t.nodesBefore.map f := by
  simp [nodesBefore_eq, restamp]

theorem nodesAfter_restamp (f : NodeSpan → NodeSpan) (t : TypeDetails) :
    (t.restamp f).nodesAfter = t.nodesAfter.map f := by
  simp [nodesAfter_eq, restamp]

/-- Stamping twice is stamping once with both. -/
theorem restamp_restamp (f g : NodeSpan → NodeSpan) (t : TypeDetails) :
    (t.restamp g).restamp f = t.restamp (f ∘ g) := by
  simp [restamp]

/-- The nodes before and after those of the inner types rebuild all but the inner types. -/
theorem eq_of_bare {t u : TypeDetails} (h : t.restamp .bare = u.restamp .bare)
    (hbefore : t.nodesBefore = u.nodesBefore) (hafter : t.nodesAfter = u.nodesAfter) : t = u := by
  obtain ⟨_, hkind, hname, hbases, hinterfaces, hparams, hgates, hsubmodules, hconnections, hallow,
    hproperties, _⟩ := (TypeDetails.mk.injEq ..).mp h
  rw [nodesBefore_eq, nodesBefore_eq, List.cons.injEq, NodeSpan.mk.injEq] at hbefore
  obtain ⟨⟨hnode, hspan⟩, hn⟩ := hbefore
  obtain ⟨bases_eq, hn⟩ := eq_of_bare_append hbases hn
  obtain ⟨interfaces_eq, hn⟩ := eq_of_bare_append hinterfaces hn
  obtain ⟨properties_eq, hn⟩ := eq_of_bare_append hproperties hn
  obtain ⟨params_eq, hn⟩ := eq_of_bare_append hparams hn
  have gates_eq := Stamped.eq_of_bare _ _ hgates hn
  obtain ⟨submodules_eq, hn⟩ := eq_of_bare_append hsubmodules hafter
  have connections_eq := Stamped.eq_of_bare _ _ hconnections hn
  cases t; cases u
  simp_all only

end TypeDetails

mutual

/-- Changes the stamps of a declaration and its inner types. -/
def TypeDecl.restamp (f : NodeSpan → NodeSpan) : TypeDecl → TypeDecl
  | ⟨own, types⟩ => ⟨own.restamp f, TypeDecl.restampEach f types⟩

/-- Changes the stamps of several declarations. -/
def TypeDecl.restampEach (f : NodeSpan → NodeSpan) : List TypeDecl → List TypeDecl
  | [] => []
  | t :: ts => t.restamp f :: TypeDecl.restampEach f ts

end

namespace TypeDecl

theorem restampEach_eq (f : NodeSpan → NodeSpan) (ts : List TypeDecl) :
    restampEach f ts = ts.map (restamp f) := by
  induction ts with
  | nil => rfl
  | cons t ts ih => rw [restampEach, ih, List.map_cons]

/-- A type is stamped in its details and in its inner types. -/
theorem restamp_mk (f : NodeSpan → NodeSpan) (own : TypeDetails) (types : List TypeDecl) :
    restamp f ⟨own, types⟩ = ⟨own.restamp f, types.map (restamp f)⟩ := by
  rw [restamp, restampEach_eq]

theorem nodesOfList_eq (ts : List TypeDecl) : nodesOfList ts = ts.flatMap TypeDecl.nodes := by
  induction ts with
  | nil => rfl
  | cons t ts ih => rw [nodesOfList, ih, List.flatMap_cons]

/-- The nodes of a type are those of its details, around those of its inner types. -/
theorem nodes_mk (own : TypeDetails) (types : List TypeDecl) :
    TypeDecl.nodes ⟨own, types⟩ =
      own.nodesBefore ++ (types.flatMap TypeDecl.nodes ++ own.nodesAfter) := by
  rw [TypeDecl.nodes, nodesOfList_eq, List.append_assoc]

/-- Nodes are stamped one by one, in order. -/
theorem nodes_restamp (f : NodeSpan → NodeSpan) (t : TypeDecl) :
    (t.restamp f).nodes = t.nodes.map f := by
  induction t using TypeDecl.induct with
  | mk own types ih =>
    have htypes : (types.map (restamp f)).flatMap TypeDecl.nodes
        = (types.flatMap TypeDecl.nodes).map f := by
      rw [List.flatMap_map, List.map_flatMap]
      exact List.flatMap_congr ih
    rw [restamp_mk, nodes_mk, nodes_mk, TypeDetails.nodesBefore_restamp,
      TypeDetails.nodesAfter_restamp, htypes, List.map_append, List.map_append]

theorem restamp_restamp (f g : NodeSpan → NodeSpan) (t : TypeDecl) :
    (t.restamp g).restamp f = t.restamp (f ∘ g) := by
  induction t using TypeDecl.induct with
  | mk own types ih =>
    have htypes : types.map (restamp f ∘ restamp g) = types.map (restamp (f ∘ g)) :=
      List.map_congr_left ih
    rw [restamp_mk, restamp_mk, restamp_mk, TypeDetails.restamp_restamp, List.map_map, htypes]

/-- Types that differ in numbers and spans at most have equally many nodes. -/
theorem length_nodes_of_bare {t u : TypeDecl} (h : t.restamp .bare = u.restamp .bare) :
    t.nodes.length = u.nodes.length := by
  have hn := congrArg (fun c : TypeDecl => c.nodes.length) h
  simpa only [nodes_restamp, List.length_map] using hn

/-- Types that differ in numbers and spans at most are the same if their nodes are. -/
theorem eq_of_bare (t u : TypeDecl) (h : t.restamp .bare = u.restamp .bare)
    (hn : t.nodes = u.nodes) : t = u := by
  induction t using TypeDecl.induct generalizing u with
  | mk own types ih =>
    obtain ⟨own', types'⟩ := u
    rw [restamp_mk, restamp_mk, TypeDecl.mk.injEq] at h
    have hbefore : own.nodesBefore.length = own'.nodesBefore.length := by
      have := congrArg (fun t : TypeDetails => t.nodesBefore.length) h.1
      simpa only [TypeDetails.nodesBefore_restamp, List.length_map] using this
    have hafter : own.nodesAfter.length = own'.nodesAfter.length := by
      have := congrArg (fun t : TypeDetails => t.nodesAfter.length) h.1
      simpa only [TypeDetails.nodesAfter_restamp, List.length_map] using this
    rw [nodes_mk, nodes_mk] at hn
    obtain ⟨before_eq, hn⟩ := List.append_inj hn hbefore
    obtain ⟨types_eq, after_eq⟩ := List.append_inj' hn hafter
    rw [TypeDetails.eq_of_bare h.1 before_eq after_eq, list_eq_of_written
      (fun _ _ => length_nodes_of_bare) ih h.2 types_eq]

instance : Stamped TypeDecl where
  nodes := TypeDecl.nodes
  restamp := TypeDecl.restamp
  nodes_restamp := TypeDecl.nodes_restamp
  restamp_restamp := TypeDecl.restamp_restamp
  eq_of_bare := TypeDecl.eq_of_bare

/-- Stamps are not part of the name. -/
theorem name_restamp (f : NodeSpan → NodeSpan) (x : TypeDecl) :
    (Stamped.restamp f x).name = x.name := by
  obtain ⟨own, types⟩ := x
  change (TypeDecl.restamp f ⟨own, types⟩).name = own.name
  rw [TypeDecl.restamp_mk]
  rfl

end TypeDecl

namespace Tree

/-- Changes the stamps of all nodes of a tree. -/
def restamp (f : NodeSpan → NodeSpan) (t : Tree) : Tree :=
  { t with package := Stamped.restamp f t.package, imports := Stamped.restamp f t.imports,
           properties := Stamped.restamp f t.properties, types := Stamped.restamp f t.types }

/-- The tree without its count of numbers given out. -/
def uncounted (t : Tree) : Tree :=
  { t with nextNode := 0 }

/-- The tree without any numbers. -/
def unnumbered (t : Tree) : Tree :=
  (t.restamp .unnumbered).uncounted

/-- The tree without any spans; its numbers stay. -/
def unplaced (t : Tree) : Tree :=
  (t.restamp .unplaced).uncounted

/-- What is written: the tree without numbers and spans. -/
def bare (t : Tree) : Tree :=
  (t.restamp .bare).uncounted

theorem nodes_eq (t : Tree) : t.nodes =
    Stamped.nodes t.package ++ (Stamped.nodes t.imports ++ (Stamped.nodes t.properties
      ++ Stamped.nodes t.types)) := by
  have himports : t.imports.map (fun i => (⟨i.node, i.span⟩ : NodeSpan)) = Stamped.nodes t.imports :=
    List.map_eq_flatMap
  have hpackage : t.package.toList.map (fun p => (⟨p.node, p.span⟩ : NodeSpan))
      = Stamped.nodes t.package := List.map_eq_flatMap
  rw [Tree.nodes, himports, hpackage, Property.map_nodeSpan, TypeDecl.nodesOfList_eq,
    List.append_assoc, List.append_assoc]
  rfl

theorem nodes_restamp (f : NodeSpan → NodeSpan) (t : Tree) :
    (t.restamp f).nodes = t.nodes.map f := by
  simp only [nodes_eq, restamp, Stamped.nodes_restamp, List.map_append]

theorem restamp_restamp (f g : NodeSpan → NodeSpan) (t : Tree) :
    (t.restamp g).restamp f = t.restamp (f ∘ g) := by
  simp only [restamp, Stamped.restamp_restamp]

/-- The next number is no node. -/
theorem nodes_uncounted (t : Tree) : t.uncounted.nodes = t.nodes := rfl

/-- Stamping does not look at the next number. -/
theorem restamp_uncounted (f : NodeSpan → NodeSpan) (t : Tree) :
    t.uncounted.restamp f = (t.restamp f).uncounted := rfl

/-- Stamping leaves the name of the package. -/
theorem packageName?_restamp (f : NodeSpan → NodeSpan) (t : Tree) :
    (t.restamp f).packageName? = t.packageName? := by
  change (t.package.map _).map _ = _
  rw [Option.map_map]
  rfl

/-- What is the same up to some change of stamps has the same written in it. -/
theorem bare_of_restamp {f g : NodeSpan → NodeSpan} {t u : Tree}
    (h : (t.restamp f).uncounted = (u.restamp g).uncounted) : t.bare = u.bare := by
  have hb := congrArg (restamp .bare) h
  simpa only [restamp_uncounted, restamp_restamp, NodeSpan.bare_comp, bare] using hb

/-- Trees that differ in the next number at most are the same if that is. -/
theorem eq_of_uncounted {t u : Tree} (h : t.uncounted = u.uncounted) (hnext : t.nextNode = u.nextNode) :
    t = u := by
  obtain ⟨hpackage, himports, hproperties, htypes, _⟩ := (Tree.mk.injEq ..).mp h
  exact (Tree.mk.injEq ..).mpr ⟨hpackage, himports, hproperties, htypes, hnext⟩

/-- **A tree is what is written in it together with the list of its nodes.** -/
theorem eq_of_bare {t u : Tree} (h : t.bare = u.bare) (hn : t.nodes = u.nodes) :
    t.uncounted = u.uncounted := by
  obtain ⟨hpackage, himports, hproperties, htypes, _⟩ := (Tree.mk.injEq ..).mp h
  rw [nodes_eq, nodes_eq] at hn
  obtain ⟨package_eq, hn⟩ := eq_of_bare_append hpackage hn
  obtain ⟨imports_eq, hn⟩ := eq_of_bare_append himports hn
  obtain ⟨properties_eq, hn⟩ := eq_of_bare_append hproperties hn
  have types_eq := Stamped.eq_of_bare _ _ htypes hn
  cases t; cases u
  simp_all only [uncounted]

end Tree

end NedWorkspace
