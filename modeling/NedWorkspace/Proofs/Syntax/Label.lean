/-
# Where the numbers of a merged tree come from

A label is what a node is besides its place: its category and the key by which merges find its partner.
The package declaration has no key, since it keeps its number under any name.

`Accounts n olds m news` says that the labelled nodes `news` are some of `olds`, none used twice,
together with nodes whose numbers were given out between `n` and `m`, each once. Merging keeps such
accounts (`Tree.merge_accounts`): what a node gets is the number of an old node with the same label, or
a number that nobody had.
-/

import Mathlib.Data.Multiset.AddSub
import Mathlib.Data.Multiset.ZeroCons
import Mathlib.Algebra.Order.Group.Multiset
import Mathlib.Tactic.Abel
import NedWorkspace.Proofs.Syntax.MergeExact

namespace NedWorkspace

/-- The category of a node and its key. -/
inductive NodeLabel where
  | package
  | importDecl (spec : String)
  | property (name : String) (index : Option String)
  | typeRef (name : String)
  | param (name : String)
  | gate (name : String)
  | submodule (name : String)
  | channel (type : Option String) (like : Bool)
  | connection (src : GateRef) (arrow : Arrow) (dest : GateRef)
  | typeDecl (name : String)
deriving DecidableEq, Repr

/-- A node by its number and its label. -/
abbrev LabelledNode := NodeId × NodeLabel

open Stamped Mergeable NodeSupply

/-- A piece of syntax whose nodes have labels. -/
class Labelled (α : Type) [Stamped α] where
  /-- The numbers of the nodes with their labels, in the order of the nodes. -/
  labels : α → List LabelledNode
  fst_labels : ∀ a, (labels a).map Prod.fst = (nodes a).map NodeSpan.node

namespace Labelled

variable {α : Type} [Stamped α] [Labelled α]

instance : Labelled (List α) where
  labels as := as.flatMap labels
  fst_labels as := by
    simp only [List.map_flatMap, fst_labels, nodes]

instance : Labelled (Option α) where
  labels a := a.toList.flatMap labels
  fst_labels a := by
    simp only [List.map_flatMap, fst_labels, nodes]

end Labelled

open Labelled

instance : Labelled PackageDecl where
  labels p := [(p.node, .package)]
  fst_labels _ := rfl

instance : Labelled ImportDecl where
  labels i := [(i.node, .importDecl i.spec)]
  fst_labels _ := rfl

instance : Labelled Property where
  labels p := [(p.node, .property p.name p.index)]
  fst_labels _ := rfl

instance : Labelled TypeRef where
  labels r := [(r.node, .typeRef r.name)]
  fst_labels _ := rfl

instance : Labelled Param where
  labels p := (p.node, .param p.name) :: labels p.properties
  fst_labels p := by
    refine Eq.trans ?_ (congrArg _ p.nodes_eq).symm
    simp only [List.map_cons, fst_labels]

instance : Labelled Gate where
  labels g := (g.node, .gate g.name) :: labels g.properties
  fst_labels g := by
    refine Eq.trans ?_ (congrArg _ g.nodes_eq).symm
    simp only [List.map_cons, fst_labels]

instance : Labelled Submodule where
  labels s := (s.node, .submodule s.name) :: (labels s.type ++ (labels s.properties
    ++ (labels s.params ++ labels s.gates)))
  fst_labels s := by
    refine Eq.trans ?_ (congrArg _ s.nodes_eq).symm
    simp only [List.map_cons, List.map_append, fst_labels]

instance : Labelled ChannelSpec where
  labels c := (c.node, .channel (c.type.map TypeRef.name) c.like.isSome) :: labels c.type
  fst_labels c := by
    refine Eq.trans ?_ (congrArg _ c.nodes_eq).symm
    simp only [List.map_cons, fst_labels]

instance : Labelled Connection where
  labels c := (c.node, .connection c.src c.arrow c.dest) :: labels c.channel
  fst_labels c := by
    refine Eq.trans ?_ (congrArg _ c.nodes_eq).symm
    simp only [List.map_cons, fst_labels]

namespace TypeDetails

/-- The labels of a declaration that come before those of its inner types. -/
def labelsBefore (t : TypeDetails) : List LabelledNode :=
  (t.node, .typeDecl t.name) :: (labels t.bases ++ (labels t.interfaces ++ (labels t.properties
    ++ (labels t.params ++ labels t.gates))))

/-- The labels of a declaration that come after those of its inner types. -/
def labelsAfter (t : TypeDetails) : List LabelledNode :=
  labels t.submodules ++ labels t.connections

theorem fst_labelsBefore (t : TypeDetails) :
    t.labelsBefore.map Prod.fst = t.nodesBefore.map NodeSpan.node := by
  simp only [labelsBefore, nodesBefore_eq, List.map_cons, List.map_append, fst_labels]

theorem fst_labelsAfter (t : TypeDetails) :
    t.labelsAfter.map Prod.fst = t.nodesAfter.map NodeSpan.node := by
  simp only [labelsAfter, nodesAfter_eq, List.map_append, fst_labels]

end TypeDetails

mutual

/-- The labels of a type declaration, in the order of its nodes. -/
def TypeDecl.labels : TypeDecl → List LabelledNode
  | ⟨own, types⟩ => own.labelsBefore ++ (TypeDecl.labelsOfList types ++ own.labelsAfter)

/-- The labels of several type declarations. -/
def TypeDecl.labelsOfList : List TypeDecl → List LabelledNode
  | [] => []
  | t :: ts => t.labels ++ TypeDecl.labelsOfList ts

end

namespace TypeDecl

theorem labelsOfList_eq (ts : List TypeDecl) : labelsOfList ts = ts.flatMap TypeDecl.labels := by
  induction ts with
  | nil => rfl
  | cons t ts ih => rw [labelsOfList, ih, List.flatMap_cons]

/-- The labels of a type are its own, around those of its inner types. -/
theorem labels_mk (own : TypeDetails) (types : List TypeDecl) : TypeDecl.labels ⟨own, types⟩ =
    own.labelsBefore ++ (types.flatMap TypeDecl.labels ++ own.labelsAfter) := by
  rw [TypeDecl.labels, labelsOfList_eq]

/-- Labels go with the nodes, in order. -/
theorem fst_labels (t : TypeDecl) : t.labels.map Prod.fst = t.nodes.map NodeSpan.node := by
  induction t using TypeDecl.induct with
  | mk own types ih =>
    have htypes : (types.flatMap TypeDecl.labels).map Prod.fst
        = (types.flatMap TypeDecl.nodes).map NodeSpan.node := by
      rw [List.map_flatMap, List.map_flatMap]
      exact List.flatMap_congr ih
    rw [labels_mk, nodes_mk, List.map_append, List.map_append, List.map_append, List.map_append,
      TypeDetails.fst_labelsBefore, TypeDetails.fst_labelsAfter, htypes]

instance : Labelled TypeDecl where
  labels := TypeDecl.labels
  fst_labels := TypeDecl.fst_labels

end TypeDecl

namespace Tree

/-- The numbers of all nodes of a tree with their labels, in the order of the nodes. -/
def labels (t : Tree) : List LabelledNode :=
  Labelled.labels t.package ++ (Labelled.labels t.imports ++ (Labelled.labels t.properties
    ++ Labelled.labels t.types))

theorem fst_labels (t : Tree) : t.labels.map Prod.fst = t.nodes.map NodeSpan.node := by
  simp only [labels, nodes_eq, List.map_append, Labelled.fst_labels]

end Tree

/-! ### Accounts -/

/-- The nodes `news` are some of `olds` and some whose numbers were given out from `n` to `m`. -/
def Accounts (n : NodeId) (olds : Multiset LabelledNode) (m : NodeId)
    (news : Multiset LabelledNode) : Prop :=
  n ≤ m ∧ ∃ kept fresh : Multiset LabelledNode, news = kept + fresh ∧ kept ≤ olds ∧
    (fresh.map Prod.fst).Nodup ∧ ∀ x ∈ fresh, n ≤ x.1 ∧ x.1 < m

namespace Accounts

variable {n k m : NodeId} {olds olds₁ olds₂ news news₁ news₂ : Multiset LabelledNode}

/-- Numbers are given out upwards. -/
theorem le (h : Accounts n olds m news) : n ≤ m := h.1

theorem nil (n : NodeId) : Accounts n olds n 0 :=
  ⟨le_rfl, 0, 0, rfl, Multiset.zero_le _, Multiset.nodup_zero, by simp⟩

/-- A node that takes over the number of an old one with its label. -/
theorem kept (n : NodeId) (x : LabelledNode) : Accounts n {x} n {x} :=
  ⟨le_rfl, {x}, 0, (add_zero _).symm, le_rfl, Multiset.nodup_zero, by simp⟩

/-- A node that gets the next number. -/
theorem fresh (n : NodeId) (l : NodeLabel) : Accounts n 0 (n + 1) {(n, l)} :=
  ⟨Nat.le_succ n, 0, {(n, l)}, (zero_add _).symm, Multiset.zero_le _, Multiset.nodup_singleton n,
    by simp⟩

/-- Where more labels may be kept, what accounts for the new ones still does. -/
theorem mono (h : Accounts n olds₁ m news) (hle : olds₁ ≤ olds₂) : Accounts n olds₂ m news := by
  obtain ⟨hnm, kept, fresh, hnews, hkept, hnodup, hrange⟩ := h
  exact ⟨hnm, kept, fresh, hnews, hkept.trans hle, hnodup, hrange⟩

/-- Accounts of two parts, the second of which goes on with the numbers that the first left free. -/
theorem add (h₁ : Accounts n olds₁ k news₁) (h₂ : Accounts k olds₂ m news₂) :
    Accounts n (olds₁ + olds₂) m (news₁ + news₂) := by
  obtain ⟨hnk, kept₁, fresh₁, rfl, hkept₁, hnodup₁, hrange₁⟩ := h₁
  obtain ⟨hkm, kept₂, fresh₂, rfl, hkept₂, hnodup₂, hrange₂⟩ := h₂
  refine ⟨hnk.trans hkm, kept₁ + kept₂, fresh₁ + fresh₂, add_add_add_comm .., add_le_add hkept₁ hkept₂,
    ?_, fun x hx => ?_⟩
  · rw [Multiset.map_add, Multiset.nodup_add]
    refine ⟨hnodup₁, hnodup₂, Multiset.disjoint_left.mpr fun {i} hi hj => ?_⟩
    obtain ⟨x, hx, rfl⟩ := Multiset.mem_map.mp hi
    obtain ⟨y, hy, hxy⟩ := Multiset.mem_map.mp hj
    exact Nat.lt_irrefl _ ((hrange₁ x hx).2.trans_le (hxy ▸ (hrange₂ y hy).1))
  · rcases Multiset.mem_add.mp hx with hx | hx
    · exact ⟨(hrange₁ x hx).1, (hrange₁ x hx).2.trans_le hkm⟩
    · exact ⟨hnk.trans (hrange₂ x hx).1, (hrange₂ x hx).2⟩

/-- A node of a merged tree was in the old tree, or its number is new. -/
theorem mem_or_le (h : Accounts n olds m news) {x : LabelledNode} (hx : x ∈ news) :
    x ∈ olds ∨ n ≤ x.1 := by
  obtain ⟨_, kept, fresh, rfl, hkept, _, hrange⟩ := h
  rcases Multiset.mem_add.mp hx with hx | hx
  · exact .inl (Multiset.mem_of_le hkept hx)
  · exact .inr (hrange x hx).1

/-- If the old numbers are distinct and below `n`, the new ones are distinct and below `m`. -/
theorem nodup (h : Accounts n olds m news) (hnodup : (olds.map Prod.fst).Nodup)
    (hlt : ∀ x ∈ olds, x.1 < n) : (news.map Prod.fst).Nodup ∧ ∀ x ∈ news, x.1 < m := by
  obtain ⟨hnm, kept, fresh, rfl, hkept, hfresh, hrange⟩ := h
  refine ⟨?_, fun x hx => ?_⟩
  · rw [Multiset.map_add, Multiset.nodup_add]
    refine ⟨Multiset.nodup_of_le (Multiset.map_le_map hkept) hnodup, hfresh,
      Multiset.disjoint_left.mpr fun {i} hi hj => ?_⟩
    obtain ⟨x, hx, rfl⟩ := Multiset.mem_map.mp hi
    obtain ⟨y, hy, hxy⟩ := Multiset.mem_map.mp hj
    exact Nat.lt_irrefl _ ((hlt x (Multiset.mem_of_le hkept hx)).trans_le (hxy ▸ (hrange y hy).1))
  · rcases Multiset.mem_add.mp hx with hx | hx
    · exact (hlt x (Multiset.mem_of_le hkept hx)).trans_le hnm
    · exact (hrange x hx).2

end Accounts

/-- A category of nodes whose merges keep accounts. -/
class TracedMergeable (α : Type) [Stamped α] [Labelled α] [Mergeable α] : Prop where
  renumber_accounts : ∀ (a : α) (n : NodeId),
    Accounts n 0 (renumber a n).2 (labels (renumber a n).1)
  adopt_accounts : ∀ (old new : α) (n : NodeId), key old = key new →
    Accounts n (labels old) (adopt old new n).2 (labels (adopt old new n).1.1)

namespace Mergeable

/-- Picking takes one candidate out and leaves the others. -/
theorem perm_of_pick {β : Type} {p : β → Bool} {bs : List β} {b : β} {others : List β}
    (h : pick p bs = some (b, others)) : bs.Perm (b :: others) := by
  induction bs generalizing b others with
  | nil => simp [pick] at h
  | cons c cs ih =>
    rw [pick] at h
    split at h
    · obtain ⟨rfl, rfl⟩ := Prod.mk.inj (Option.some.inj h)
      exact List.Perm.refl _
    · obtain ⟨⟨d, rest⟩, hr, heq⟩ := Option.map_eq_some_iff.mp h
      obtain ⟨rfl, rfl⟩ := Prod.mk.inj heq
      exact ((ih hr).cons c).trans (List.Perm.swap d c rest)

variable {α : Type} [Stamped α] [Labelled α]

/-- The labels of a list are those of its first element and of the rest. -/
theorem coe_labels_cons (a : α) (as : List α) :
    (labels (a :: as) : Multiset LabelledNode) = labels a + labels as := by
  rw [Multiset.coe_add]
  rfl

/-- Labels are new throughout a list if they are for each element. -/
theorem each_accounts {f : α → NodeSupply α} {as : List α} (n : NodeId)
    (h : ∀ a ∈ as, ∀ n, Accounts n 0 (f a n).2 (labels (f a n).1)) :
    Accounts n 0 (each f as n).2 (labels (each f as n).1) := by
  induction as generalizing n with
  | nil => exact .nil n
  | cons a as ih =>
    have hhead := h a List.mem_cons_self n
    have htail := ih (f a n).2 fun b hb => h b (List.mem_cons_of_mem a hb)
    have hsum := hhead.add htail
    rwa [zero_add, ← coe_labels_cons] at hsum

variable [Mergeable α]

/-- **Merging a list keeps accounts of the old nodes that are free.** A partner is taken out of the
free nodes, so no number is taken over twice. -/
theorem mergeFrom_accounts {news : List α} (i : Nat) (free : List (α × Nat)) (n : NodeId)
    (hrenumber : ∀ a ∈ news, ∀ n, Accounts n 0 (renumber a n).2 (labels (renumber a n).1))
    (hadopt : ∀ old, ∀ new ∈ news, ∀ n, key old = key new →
      Accounts n (labels old) (adopt old new n).2 (labels (adopt old new n).1.1)) :
    Accounts n (labels (free.map Prod.fst)) (mergeFrom i free news n).2
      (labels (mergeFrom i free news n).1.1) := by
  induction news generalizing i free n with
  | nil => exact .nil n
  | cons new news ih =>
    have hrest := fun free n => ih (i + 1) free n
      (fun a ha => hrenumber a (List.mem_cons_of_mem new ha))
      (fun old a ha => hadopt old a (List.mem_cons_of_mem new ha))
    cases hpick : pick (fun old => decide (key old.1 = key new)) free with
    | some picked =>
      obtain ⟨old, others⟩ := picked
      have hkey : key old.1 = key new := by simpa using pick_pos hpick
      have hfree : (labels (free.map Prod.fst) : Multiset LabelledNode)
          = labels old.1 + labels (others.map Prod.fst) := by
        rw [← coe_labels_cons, Multiset.coe_eq_coe]
        exact ((perm_of_pick hpick).map Prod.fst).flatMap_right _
      rw [mergeFrom_cons_of_pick n hpick, hfree, coe_labels_cons]
      exact (hadopt old.1 new List.mem_cons_self n hkey).add (hrest others _)
    | none =>
      rw [mergeFrom_cons_of_pick_none n hpick, coe_labels_cons]
      have hsum := (hrenumber new List.mem_cons_self n).add (hrest free (renumber new n).2)
      rwa [zero_add] at hsum

/-- A merged list keeps labels of the old one, each at most once, and takes new numbers for the rest. -/
theorem mergeList_accounts_of {olds news : List α} (n : NodeId)
    (hrenumber : ∀ a ∈ news, ∀ n, Accounts n 0 (renumber a n).2 (labels (renumber a n).1))
    (hadopt : ∀ old, ∀ new ∈ news, ∀ n, key old = key new →
      Accounts n (labels old) (adopt old new n).2 (labels (adopt old new n).1.1)) :
    Accounts n (labels olds) (mergeList olds news n).2 (labels (mergeList olds news n).1.1) := by
  have h := mergeFrom_accounts 0 olds.zipIdx n hrenumber hadopt
  rwa [List.zipIdx_map_fst] at h

variable [TracedMergeable α]

theorem each_renumber_accounts (as : List α) (n : NodeId) :
    Accounts n 0 (each renumber as n).2 (labels (each renumber as n).1) :=
  each_accounts n fun a _ => TracedMergeable.renumber_accounts a

theorem mergeList_accounts (olds news : List α) (n : NodeId) :
    Accounts n (labels olds) (mergeList olds news n).2 (labels (mergeList olds news n).1.1) :=
  mergeList_accounts_of n (fun a _ => TracedMergeable.renumber_accounts a)
    fun old new _ => TracedMergeable.adopt_accounts old new

/-- What is merged keeps labels of the old, and takes new numbers for the rest. -/
theorem mergeOne_accounts (old new : α) (n : NodeId) :
    Accounts n (labels old) (mergeOne old new n).2 (labels (mergeOne old new n).1.1) := by
  by_cases h : key old = key new
  · rw [mergeOne, if_pos h]
    exact TracedMergeable.adopt_accounts old new n h
  · rw [mergeOne, if_neg h]
    exact (TracedMergeable.renumber_accounts new n).mono (Multiset.zero_le _)

/-- What may be missing keeps labels if it is there on both sides. -/
theorem mergeOption_accounts (old new : Option α) (n : NodeId) :
    Accounts n (labels old) (mergeOption old new n).2 (labels (mergeOption old new n).1.1) := by
  have hsome : ∀ a : α, labels (some a) = labels a := fun a => List.flatMap_singleton ..
  match old, new with
  | none, none => exact .nil n
  | some _, none => exact .nil n
  | none, some new =>
    have h := TracedMergeable.renumber_accounts new n
    rw [← hsome] at h
    exact h
  | some old, some new =>
    have h := mergeOne_accounts old new n
    rw [← hsome, ← hsome] at h
    exact h

end Mergeable

instance : TracedMergeable ImportDecl where
  renumber_accounts i n := .fresh n (.importDecl i.spec)
  adopt_accounts old new n h := by
    obtain ⟨node, spec, span⟩ := old
    obtain rfl : spec = new.spec := h
    exact .kept n (node, .importDecl new.spec)

instance : TracedMergeable TypeRef where
  renumber_accounts r n := .fresh n (.typeRef r.name)
  adopt_accounts old new n h := by
    obtain ⟨node, name, span⟩ := old
    obtain rfl : name = new.name := h
    exact .kept n (node, .typeRef new.name)

instance : TracedMergeable Property where
  renumber_accounts p n := .fresh n (.property p.name p.index)
  adopt_accounts old new n h := by
    obtain ⟨node, name, index, entries, span⟩ := old
    obtain ⟨rfl, rfl⟩ : name = new.name ∧ index = new.index := Prod.mk.inj h
    exact .kept n (node, .property new.name new.index)

instance : TracedMergeable Param where
  renumber_accounts p n :=
    (Accounts.fresh n (.param p.name)).add (each_renumber_accounts p.properties (n + 1))
  adopt_accounts old new n h := by
    obtain ⟨node, name, type, volatile, value, properties, span⟩ := old
    obtain rfl : name = new.name := h
    exact (Accounts.kept n (node, .param new.name)).add
      (mergeList_accounts properties new.properties n)

instance : TracedMergeable Gate where
  renumber_accounts g n :=
    (Accounts.fresh n (.gate g.name)).add (each_renumber_accounts g.properties (n + 1))
  adopt_accounts old new n h := by
    obtain ⟨node, name, direction, isVector, size, properties, span⟩ := old
    obtain rfl : name = new.name := h
    exact (Accounts.kept n (node, .gate new.name)).add
      (mergeList_accounts properties new.properties n)

/-- The labels of a submodule, in the order in which its parts are merged. -/
theorem Submodule.coe_labels (s : Submodule) :
    (labels s : Multiset LabelledNode) = {(s.node, .submodule s.name)} + labels s.type
      + labels s.params + labels s.gates + labels s.properties := by
  have h : (labels s : Multiset LabelledNode) = {(s.node, .submodule s.name)} + (labels s.type
      + (labels s.properties + (labels s.params + labels s.gates))) := rfl
  rw [h]
  abel

instance : TracedMergeable Submodule where
  renumber_accounts s n := by
    rw [Submodule.coe_labels]
    exact ((((Accounts.fresh n (.submodule s.name)).add
      (TracedMergeable.renumber_accounts s.type _)).add (each_renumber_accounts s.params _)).add
      (each_renumber_accounts s.gates _)).add (each_renumber_accounts s.properties _)
  adopt_accounts old new n h := by
    rw [Submodule.coe_labels, Submodule.coe_labels, show old.name = new.name from h]
    exact ((((Accounts.kept n (old.node, .submodule new.name)).add
      (mergeOne_accounts old.type new.type _)).add (mergeList_accounts old.params new.params _)).add
      (mergeList_accounts old.gates new.gates _)).add
      (mergeList_accounts old.properties new.properties _)

instance : TracedMergeable ChannelSpec where
  renumber_accounts c n := by
    obtain ⟨node, type, like, span⟩ := c
    cases type with
    | none => exact .fresh n (.channel none like.isSome)
    | some r =>
      exact (Accounts.fresh n (.channel (some r.name) like.isSome)).add
        (mergeOption_accounts none (some r) (n + 1))
  adopt_accounts old new n h := by
    -- The label of the result names the merged type, which says what the new one says.
    have hname : (mergeOption old.type new.type n).1.1.map TypeRef.name
        = new.type.map TypeRef.name := by
      have := congrArg (Option.map TypeRef.name) (mergeOption_exact old.type new.type n).unnumbered
      simpa only [restamp, Option.map_map, Function.comp_def] using this
    obtain ⟨htype, hlike⟩ := Prod.mk.inj h
    have hlabels : (labels old : Multiset LabelledNode) =
        {(old.node, .channel (new.type.map TypeRef.name) new.like.isSome)} + labels old.type := by
      rw [← htype, ← hlike]
      rfl
    have hresult : (labels (adopt old new n).1.1 : Multiset LabelledNode) =
        {(old.node, .channel (new.type.map TypeRef.name) new.like.isSome)}
          + labels (mergeOption old.type new.type n).1.1 := by
      rw [← hname]
      rfl
    rw [hlabels, hresult]
    exact (Accounts.kept n _).add (mergeOption_accounts old.type new.type n)

instance : TracedMergeable Connection where
  renumber_accounts c n := by
    obtain ⟨node, src, dest, arrow, channel, span⟩ := c
    cases channel with
    | none => exact .fresh n (.connection src arrow dest)
    | some spec =>
      exact (Accounts.fresh n (.connection src arrow dest)).add
        (mergeOption_accounts none (some spec) (n + 1))
  adopt_accounts old new n h := by
    obtain ⟨node, src, dest, arrow, channel, span⟩ := old
    obtain ⟨rfl, hrest⟩ : src = new.src ∧ (arrow, dest) = (new.arrow, new.dest) := Prod.mk.inj h
    obtain ⟨rfl, rfl⟩ := Prod.mk.inj hrest
    exact (Accounts.kept n (node, .connection new.src new.arrow new.dest)).add
      (mergeOption_accounts channel new.channel n)

namespace TypeDecl

/-- The labels of a declaration, in the order in which its parts are merged. -/
theorem coe_labels (own : TypeDetails) (types : List TypeDecl) :
    (Labelled.labels (⟨own, types⟩ : TypeDecl) : Multiset LabelledNode) =
      {(own.node, .typeDecl own.name)} + Labelled.labels own.bases + Labelled.labels own.interfaces
        + Labelled.labels own.params + Labelled.labels own.gates + Labelled.labels types
        + Labelled.labels own.submodules + Labelled.labels own.connections
        + Labelled.labels own.properties := by
  have h : (Labelled.labels (⟨own, types⟩ : TypeDecl) : Multiset LabelledNode) =
      ({(own.node, .typeDecl own.name)} + (Labelled.labels own.bases
        + (Labelled.labels own.interfaces + (Labelled.labels own.properties
        + (Labelled.labels own.params + Labelled.labels own.gates)))))
        + (Labelled.labels types + (Labelled.labels own.submodules
        + Labelled.labels own.connections)) := congrArg _ (labels_mk own types)
  rw [h]
  abel

/-- A type numbered anew keeps no label. -/
theorem renumber_accounts (t : TypeDecl) (n : NodeId) : Accounts n 0 (TypeDecl.renumber t n).2
    (Labelled.labels (TypeDecl.renumber t n).1) := by
  induction t using TypeDecl.induct generalizing n with
  | mk own types ih =>
    rw [renumber_mk, coe_labels]
    exact ((((((((Accounts.fresh n (.typeDecl own.name)).add
      (each_renumber_accounts own.bases _)).add (each_renumber_accounts own.interfaces _)).add
      (each_renumber_accounts own.params _)).add (each_renumber_accounts own.gates _)).add
      (each_accounts _ ih)).add (each_renumber_accounts own.submodules _)).add
      (each_renumber_accounts own.connections _)).add (each_renumber_accounts own.properties _)

/-- A type that takes over from one of its name keeps labels of it, at any depth. -/
theorem adopt_accounts (old new : TypeDecl) (n : NodeId) (h : old.name = new.name) :
    Accounts n (Labelled.labels old) (TypeDecl.adopt old new n).2
      (Labelled.labels (TypeDecl.adopt old new n).1.1) := by
  induction new using TypeDecl.induct generalizing old n with
  | mk own types ih =>
    obtain ⟨oldOwn, oldTypes⟩ := old
    rw [adopt_mk, coe_labels, coe_labels, show oldOwn.name = own.name from h]
    exact ((((((((Accounts.kept n (oldOwn.node, .typeDecl own.name)).add
      (mergeList_accounts oldOwn.bases own.bases _)).add
      (mergeList_accounts oldOwn.interfaces own.interfaces _)).add
      (mergeList_accounts oldOwn.params own.params _)).add
      (mergeList_accounts oldOwn.gates own.gates _)).add
      (mergeList_accounts_of _ (fun t _ => renumber_accounts t)
        fun old new hnew n => ih new hnew old n)).add
      (mergeList_accounts oldOwn.submodules own.submodules _)).add
      (mergeList_accounts oldOwn.connections own.connections _)).add
      (mergeList_accounts oldOwn.properties own.properties _)

instance : TracedMergeable TypeDecl where
  renumber_accounts := TypeDecl.renumber_accounts
  adopt_accounts := TypeDecl.adopt_accounts

end TypeDecl

/-- The package keeps its label if there was one before. -/
theorem PackageDecl.merge_accounts (old new : Option PackageDecl) (n : NodeId) :
    Accounts n (labels old) (PackageDecl.merge old new n).2
      (labels (PackageDecl.merge old new n).1.1) := by
  match old, new with
  | none, none => exact .nil n
  | some _, none => exact .nil n
  | none, some _ => exact .fresh n .package
  | some old, some _ => exact .kept n (old.node, .package)

/-- **The nodes of a merged tree are nodes of the old tree with their labels, none used twice, and nodes
whose numbers are new.** -/
theorem Tree.merge_accounts (old new : Tree) :
    Accounts (max old.nextNode 1) old.labels (old.merge new).tree.nextNode
      (old.merge new).tree.labels := by
  have hpackage := PackageDecl.merge_accounts old.package new.package (max old.nextNode 1)
  exact hpackage.add ((mergeList_accounts old.imports new.imports _).add
    ((mergeList_accounts old.properties new.properties _).add
      (mergeList_accounts old.types new.types _)))

end NedWorkspace
