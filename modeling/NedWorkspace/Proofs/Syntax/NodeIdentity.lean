/-
# The identity of nodes over the versions of a text

SPEC_FULL, section 3: unchanged subtrees keep node identity.

When a text is read again and again and every tree is merged into the one before, a node number stands
for one node for good. This module says what that means and proves it.

* `Matched` is the law of one list: the new nodes with a key take over, in order, from the old nodes
  with that key, and new nodes beyond those have new numbers, as has all below them.
* `Tree.Follows` is that law for all lists of a tree and of the nodes that took over from others.
* `Tree.version texts i` is the tree after the text went from `texts 0` to `texts i`, and
  `Tree.version_identity` is the main result.
-/

import Mathlib.Order.Monotone.Basic
import NedWorkspace.Proofs.Syntax.Label
import NedWorkspace.Proofs.Syntax.Numbering

namespace NedWorkspace

open Stamped Mergeable NodeSupply Labelled

namespace Mergeable

variable {α : Type} [Mergeable α]

/-- The nodes with key `k`, in order. -/
def occurrences (k : Key α) (as : List α) : List α :=
  as.filter fun a => decide (key a = k)

@[simp] theorem occurrences_nil (k : Key α) : occurrences k ([] : List α) = [] := rfl

/-- Occurrences of a key are counted from the front. -/
theorem occurrences_cons (k : Key α) (a : α) (as : List α) :
    occurrences k (a :: as) = if key a = k then a :: occurrences k as else occurrences k as := by
  unfold occurrences
  rw [List.filter_cons]
  simp only [decide_eq_true_eq]

/-- The partner of a new node is the first of the free ones with its key. -/
theorem occurrences_of_pick {free others : List (α × Nat)} {old : α × Nat} {k₀ : Key α}
    (h : pick (fun o => decide (key o.1 = k₀)) free = some (old, others)) (k : Key α) :
    occurrences k (free.map Prod.fst) = if k₀ = k then old.1 :: occurrences k (others.map Prod.fst)
      else occurrences k (others.map Prod.fst) := by
  induction free generalizing others with
  | nil => simp [pick] at h
  | cons c cs ih =>
    rw [pick] at h
    split at h
    · rename_i hc
      obtain ⟨rfl, rfl⟩ := Prod.mk.inj (Option.some.inj h)
      rw [List.map_cons, occurrences_cons, of_decide_eq_true hc]
    · rename_i hc
      obtain ⟨⟨d, rest⟩, hr, heq⟩ := Option.map_eq_some_iff.mp h
      obtain ⟨rfl, rfl⟩ := Prod.mk.inj heq
      have hne : key c.1 ≠ k₀ := fun hk => hc (decide_eq_true hk)
      rw [List.map_cons, List.map_cons, occurrences_cons, occurrences_cons, ih hr]
      by_cases hk : k₀ = k
      · have hck : key c.1 ≠ k := fun h => hne (h.trans hk.symm)
        rw [if_pos hk, if_pos hk, if_neg hck, if_neg hck]
      · rw [if_neg hk, if_neg hk]

/-- A new node without a partner is the first with its key that has none. -/
theorem occurrences_of_pick_none {free : List (α × Nat)} {k : Key α}
    (h : pick (fun o => decide (key o.1 = k)) free = none) :
    occurrences k (free.map Prod.fst) = [] := by
  induction free with
  | nil => rfl
  | cons c cs ih =>
    rw [pick] at h
    split at h
    · exact absurd h (by simp)
    · rename_i hc
      have hne : key c.1 ≠ k := fun hk => hc (decide_eq_true hk)
      rw [List.map_cons, occurrences_cons, if_neg hne, ih (Option.map_eq_none_iff.mp h)]

end Mergeable

/-- **The law of a matched list.** For every key, the new node in place `j` among those with that key
follows the old node in place `j`, and has only numbers from `n` on where there is no such old node. -/
structure Matched {α : Type} [Stamped α] [Mergeable α] (Follows : α → α → Prop) (n : NodeId)
    (olds news : List α) : Prop where
  taken : ∀ (k : Key α) (j : Nat) (old new : α), (occurrences k olds)[j]? = some old →
    (occurrences k news)[j]? = some new → Follows old new
  given : ∀ (k : Key α) (j : Nat) (new : α), (occurrences k olds)[j]? = none →
    (occurrences k news)[j]? = some new → ∀ x ∈ numbers new, n ≤ x

/-- A category of nodes with what it means to follow an old node, when the numbers from `n` on are
new. -/
class Followed (α : Type) [Stamped α] [Mergeable α] where
  Follows : NodeId → α → α → Prop
  adopt_follows : ∀ (old new : α) (n m : NodeId), n ≤ m → key old = key new →
    Follows n old (adopt old new m).1.1

open Followed

namespace Matched

variable {α : Type} [Stamped α] [Mergeable α] {R : α → α → Prop} {n : NodeId}

theorem nil (olds : List α) : Matched R n olds [] := by
  refine ⟨fun k j old new _ hnew => ?_, fun k j new _ hnew => ?_⟩
  · simp at hnew
  · simp at hnew

/-- A first new node that takes over from the first old node with its key. -/
theorem cons_taken {olds others news : List α} {old new : α} (hkey : key new = key old)
    (holds : ∀ k, occurrences k olds = if key old = k then old :: occurrences k others
      else occurrences k others)
    (hfollows : R old new) (h : Matched R n others news) : Matched R n olds (new :: news) := by
  obtain ⟨taken, given⟩ := h
  refine ⟨fun k j a b ha hb => ?_, fun k j b ha hb => ?_⟩
  · rw [holds] at ha
    rw [occurrences_cons, hkey] at hb
    by_cases hk : key old = k
    · rw [if_pos hk] at ha hb
      cases j with
      | zero =>
        obtain rfl : old = a := Option.some.inj ha
        obtain rfl : new = b := Option.some.inj hb
        exact hfollows
      | succ j => exact taken k j a b ha hb
    · rw [if_neg hk] at ha hb
      exact taken k j a b ha hb
  · rw [holds] at ha
    rw [occurrences_cons, hkey] at hb
    by_cases hk : key old = k
    · rw [if_pos hk] at ha hb
      cases j with
      | zero => exact absurd ha (by simp)
      | succ j => exact given k j b ha hb
    · rw [if_neg hk] at ha hb
      exact given k j b ha hb

/-- A first new node whose key no old node has. -/
theorem cons_given {olds news : List α} {new : α} (hnone : occurrences (key new) olds = [])
    (hnew : ∀ x ∈ numbers new, n ≤ x) (h : Matched R n olds news) :
    Matched R n olds (new :: news) := by
  obtain ⟨taken, given⟩ := h
  refine ⟨fun k j a b ha hb => ?_, fun k j b ha hb => ?_⟩
  · rw [occurrences_cons] at hb
    by_cases hk : key new = k
    · rw [← hk, hnone] at ha
      simp at ha
    · rw [if_neg hk] at hb
      exact taken k j a b ha hb
  · rw [occurrences_cons] at hb
    by_cases hk : key new = k
    · rw [if_pos hk] at hb
      cases j with
      | zero =>
        obtain rfl : new = b := Option.some.inj hb
        exact hnew
      | succ j =>
        have hnil : (occurrences k olds)[j]? = none := by
          rw [← hk, hnone]
          rfl
        exact given k j b hnil hb
    · rw [if_neg hk] at hb
      exact given k j b ha hb

end Matched

namespace Mergeable

section Keys

variable {α : Type} [Stamped α] [Mergeable α] [LawfulMergeable α]

/-- Numbering anew leaves the key. -/
theorem key_renumber (a : α) (m : NodeId) : key (renumber a m).1 = key a :=
  LawfulMergeable.key_of_bare _ _ (bare_of_restamp (LawfulMergeable.renumber_unnumbered a m))

/-- What takes over has the key that both had. -/
theorem key_adopt {old new : α} (m : NodeId) (h : key old = key new) :
    key (adopt old new m).1.1 = key new :=
  LawfulMergeable.key_of_bare _ _
    (bare_of_restamp (LawfulMergeable.adopt_exact old new m h).unnumbered)

end Keys

variable {α : Type} [Stamped α] [Labelled α] [Mergeable α] [TracedMergeable α]

/-- All numbers of a node that is numbered anew are new. -/
theorem le_of_mem_numbers_renumber (a : α) {m x : NodeId} (hx : x ∈ numbers (renumber a m).1) :
    m ≤ x := by
  have hmem : x ∈ (labels (renumber a m).1).map Prod.fst := by
    rw [fst_labels]
    exact hx
  obtain ⟨y, hy, rfl⟩ := List.mem_map.mp hmem
  rcases (TracedMergeable.renumber_accounts a m).mem_or_le (Multiset.mem_coe.mpr hy) with h | h
  · exact absurd h (Multiset.notMem_zero y)
  · exact h

variable [LawfulMergeable α]

/-- **A merged list matches the old one.** Taking a partner out of the free nodes takes the first
occurrence of its key out of them. -/
theorem mergeFrom_matched {R : α → α → Prop} {n : NodeId} {news : List α}
    (hadopt : ∀ old, ∀ new ∈ news, ∀ m, n ≤ m → key old = key new → R old (adopt old new m).1.1)
    (i : Nat) (free : List (α × Nat)) (m : NodeId) (hm : n ≤ m) :
    Matched R n (free.map Prod.fst) (mergeFrom i free news m).1.1 := by
  induction news generalizing i free m with
  | nil => exact .nil _
  | cons new news ih =>
    have hrest := ih fun old a ha => hadopt old a (List.mem_cons_of_mem new ha)
    cases hpick : pick (fun old => decide (key old.1 = key new)) free with
    | some picked =>
      obtain ⟨old, others⟩ := picked
      have hkey : key old.1 = key new := by simpa using pick_pos hpick
      have hle := (TracedMergeable.adopt_accounts old.1 new m hkey).le
      rw [mergeFrom_cons_of_pick m hpick]
      refine .cons_taken ((key_adopt m hkey).trans hkey.symm) (fun k => ?_)
        (hadopt old.1 new List.mem_cons_self m hm hkey) (hrest _ others _ (hm.trans hle))
      rw [hkey]
      exact occurrences_of_pick hpick k
    | none =>
      have hle := (TracedMergeable.renumber_accounts new m).le
      rw [mergeFrom_cons_of_pick_none m hpick]
      refine .cons_given ?_ (fun x hx => hm.trans (le_of_mem_numbers_renumber new hx))
        (hrest _ free _ (hm.trans hle))
      rw [key_renumber]
      exact occurrences_of_pick_none hpick

/-- The elements of a merged list follow those of the old one with the same key, first with first. -/
theorem mergeList_matched_of {R : α → α → Prop} {n m : NodeId} {olds news : List α}
    (hadopt : ∀ old, ∀ new ∈ news, ∀ m, n ≤ m → key old = key new → R old (adopt old new m).1.1)
    (hm : n ≤ m) : Matched R n olds (mergeList olds news m).1.1 := by
  have h := mergeFrom_matched hadopt 0 olds.zipIdx m hm
  rwa [List.zipIdx_map_fst] at h

variable [Followed α] {n m : NodeId}

theorem mergeList_matched (olds news : List α) (hm : n ≤ m) :
    Matched (Follows n) n olds (mergeList olds news m).1.1 :=
  mergeList_matched_of (fun old new _ m hm => adopt_follows old new n m hm) hm

/-- A node that stands alone is matched like a list of one. -/
theorem mergeOne_matched (old new : α) (hm : n ≤ m) :
    Matched (Follows n) n [old] [(mergeOne old new m).1.1] := by
  by_cases h : key old = key new
  · rw [mergeOne, if_pos h]
    refine .cons_taken ((key_adopt m h).trans h.symm) (fun k => ?_) (adopt_follows old new n m hm h)
      (.nil [])
    rw [occurrences_cons]
  · rw [mergeOne, if_neg h]
    have hnone : occurrences (key (renumber new m).1) [old] = [] := by
      rw [key_renumber, occurrences_cons, if_neg h, occurrences_nil]
    exact .cons_given hnone (fun x hx => hm.trans (le_of_mem_numbers_renumber new hx)) (.nil _)

/-- What may be missing follows the old one of the same key. -/
theorem mergeOption_matched (old new : Option α) (hm : n ≤ m) :
    Matched (Follows n) n old.toList (mergeOption old new m).1.1.toList := by
  match old, new with
  | none, none => exact .nil _
  | some _, none => exact .nil _
  | none, some new =>
    exact .cons_given rfl (fun x hx => hm.trans (le_of_mem_numbers_renumber new hx)) (.nil _)
  | some old, some new => exact mergeOne_matched old new hm

end Mergeable

/-! ### The categories of nodes -/

instance : Followed ImportDecl where
  Follows _ old new := new.node = old.node
  adopt_follows _ _ _ _ _ _ := rfl

instance : Followed TypeRef where
  Follows _ old new := new.node = old.node
  adopt_follows _ _ _ _ _ _ := rfl

instance : Followed Property where
  Follows _ old new := new.node = old.node
  adopt_follows _ _ _ _ _ _ := rfl

instance : Followed Param where
  Follows n old new := new.node = old.node ∧ Matched (Follows n) n old.properties new.properties
  adopt_follows old new _ _ hm _ := ⟨rfl, mergeList_matched old.properties new.properties hm⟩

instance : Followed Gate where
  Follows n old new := new.node = old.node ∧ Matched (Follows n) n old.properties new.properties
  adopt_follows old new _ _ hm _ := ⟨rfl, mergeList_matched old.properties new.properties hm⟩

instance : Followed Submodule where
  Follows n old new := new.node = old.node ∧ Matched (Follows n) n [old.type] [new.type] ∧
    Matched (Follows n) n old.params new.params ∧ Matched (Follows n) n old.gates new.gates ∧
    Matched (Follows n) n old.properties new.properties
  adopt_follows old new n m hm _ := by
    have htype := (mergeOne_accounts old.type new.type m).le
    have hparams := (mergeList_accounts old.params new.params
      (mergeOne old.type new.type m).2).le
    have hgates := (mergeList_accounts old.gates new.gates
      (mergeList old.params new.params (mergeOne old.type new.type m).2).2).le
    refine ⟨rfl, mergeOne_matched old.type new.type hm, ?_, ?_, ?_⟩
    · exact mergeList_matched old.params new.params (hm.trans htype)
    · exact mergeList_matched old.gates new.gates ((hm.trans htype).trans hparams)
    · exact mergeList_matched old.properties new.properties
        (((hm.trans htype).trans hparams).trans hgates)

instance : Followed ChannelSpec where
  Follows n old new := new.node = old.node ∧
    Matched (Follows n) n old.type.toList new.type.toList
  adopt_follows old new _ _ hm _ := ⟨rfl, mergeOption_matched old.type new.type hm⟩

instance : Followed Connection where
  Follows n old new := new.node = old.node ∧
    Matched (Follows n) n old.channel.toList new.channel.toList
  adopt_follows old new _ _ hm _ := ⟨rfl, mergeOption_matched old.channel new.channel hm⟩

/-- A declaration that follows an old one: it has its number, and all its lists are matched. For its
inner types `Matched` is written out. -/
inductive TypeDecl.Follows (n : NodeId) : TypeDecl → TypeDecl → Prop
  | intro {old new : TypeDecl}
      (node : new.node = old.node)
      (bases : Matched (Followed.Follows n) n old.bases new.bases)
      (interfaces : Matched (Followed.Follows n) n old.interfaces new.interfaces)
      (params : Matched (Followed.Follows n) n old.params new.params)
      (gates : Matched (Followed.Follows n) n old.gates new.gates)
      (types_taken : ∀ (k : String) (j : Nat) (t u : TypeDecl), (occurrences k old.types)[j]? = some t →
        (occurrences k new.types)[j]? = some u → TypeDecl.Follows n t u)
      (types_given : ∀ (k : String) (j : Nat) (u : TypeDecl), (occurrences k old.types)[j]? = none →
        (occurrences k new.types)[j]? = some u → ∀ x ∈ numbers u, n ≤ x)
      (submodules : Matched (Followed.Follows n) n old.submodules new.submodules)
      (connections : Matched (Followed.Follows n) n old.connections new.connections)
      (properties : Matched (Followed.Follows n) n old.properties new.properties) :
      TypeDecl.Follows n old new

/-- A type that takes over has its number from the old one, and so at any depth. -/
theorem TypeDecl.adopt_follows (old new : TypeDecl) {n m : NodeId} (hm : n ≤ m) :
    TypeDecl.Follows n old (TypeDecl.adopt old new m).1.1 := by
  induction new using TypeDecl.induct generalizing old m with
  | mk own types ih =>
    obtain ⟨oldOwn, oldTypes⟩ := old
    rw [adopt_mk]
    -- The numbers that are free when a part is merged only go up from part to part.
    have hbases := hm.trans (mergeList_accounts oldOwn.bases own.bases m).le
    set bases := mergeList oldOwn.bases own.bases m with hb
    have hinterfaces := hbases.trans (mergeList_accounts oldOwn.interfaces own.interfaces _).le
    set interfaces := mergeList oldOwn.interfaces own.interfaces bases.2 with hi
    have hparams := hinterfaces.trans (mergeList_accounts oldOwn.params own.params _).le
    set params := mergeList oldOwn.params own.params interfaces.2 with hp
    have hgates := hparams.trans (mergeList_accounts oldOwn.gates own.gates _).le
    set gates := mergeList oldOwn.gates own.gates params.2 with hg
    have hinner := hgates.trans (mergeList_accounts oldTypes types _).le
    set inner := mergeList oldTypes types gates.2 with ht
    have hsubmodules := hinner.trans (mergeList_accounts oldOwn.submodules own.submodules _).le
    set submodules := mergeList oldOwn.submodules own.submodules inner.2 with hs
    have hconnections := hsubmodules.trans
      (mergeList_accounts oldOwn.connections own.connections _).le
    set connections := mergeList oldOwn.connections own.connections submodules.2 with hc
    have htypes : Matched (TypeDecl.Follows n) n oldTypes inner.1.1 :=
      mergeList_matched_of (fun old new hnew m hm _ => ih new hnew old hm) hgates
    refine .intro rfl ?_ ?_ ?_ ?_ htypes.taken htypes.given ?_ ?_ ?_
    · exact mergeList_matched oldOwn.bases own.bases hm
    · exact mergeList_matched oldOwn.interfaces own.interfaces hbases
    · exact mergeList_matched oldOwn.params own.params hinterfaces
    · exact mergeList_matched oldOwn.gates own.gates hparams
    · exact mergeList_matched oldOwn.submodules own.submodules hinner
    · exact mergeList_matched oldOwn.connections own.connections hsubmodules
    · exact mergeList_matched oldOwn.properties own.properties hconnections

instance : Followed TypeDecl where
  Follows := TypeDecl.Follows
  adopt_follows old new _ _ hm _ := TypeDecl.adopt_follows old new hm

namespace Tree

/-- The law of matched lists in a tree and its predecessor. The package declaration follows that of the
predecessor under any name. -/
structure Follows (old new : Tree) : Prop where
  package_taken : ∀ p q, old.package = some p → new.package = some q → q.node = p.node
  package_given : ∀ q, old.package = none → new.package = some q → old.nextNode ≤ q.node
  imports : Matched (Followed.Follows old.nextNode) old.nextNode old.imports new.imports
  properties : Matched (Followed.Follows old.nextNode) old.nextNode old.properties new.properties
  types : Matched (Followed.Follows old.nextNode) old.nextNode old.types new.types

/-- A merged tree follows the old one, at every list of elements. -/
theorem merge_follows (old new : Tree) : old.Follows (old.merge new).tree := by
  have hstart : old.nextNode ≤ max old.nextNode 1 := le_max_left _ _
  have hpackage := hstart.trans
    (PackageDecl.merge_accounts old.package new.package (max old.nextNode 1)).le
  set package := PackageDecl.merge old.package new.package (max old.nextNode 1) with hp
  have himports := hpackage.trans (mergeList_accounts old.imports new.imports _).le
  set imports := mergeList old.imports new.imports package.2 with hi
  have hproperties := himports.trans (mergeList_accounts old.properties new.properties _).le
  set properties := mergeList old.properties new.properties imports.2 with hpr
  have hresult : (old.merge new).tree.package = package.1.1 := rfl
  refine ⟨fun p q hold hnew => ?_, fun q hold hnew => ?_, ?_, ?_, ?_⟩
  · rw [hresult, hp, hold] at hnew
    cases hq : new.package with
    | none => simp [hq, PackageDecl.merge, pure_apply] at hnew
    | some r =>
      rw [hq] at hnew
      obtain rfl := Option.some.inj hnew
      rfl
  · rw [hresult, hp, hold] at hnew
    cases hq : new.package with
    | none => simp [hq, PackageDecl.merge, pure_apply] at hnew
    | some r =>
      rw [hq] at hnew
      obtain rfl := Option.some.inj hnew
      exact hstart
  · exact mergeList_matched old.imports new.imports hpackage
  · exact mergeList_matched old.properties new.properties himports
  · exact mergeList_matched old.types new.types hproperties

/-! ### Versions -/

/-- The numbers of the nodes of a tree, in order. -/
def ids (t : Tree) : List NodeId :=
  t.nodes.map NodeSpan.node

/-- The numbers of a tree are those that are labelled. -/
theorem mem_ids {t : Tree} {x : NodeId} : x ∈ t.ids ↔ ∃ l, (x, l) ∈ t.labels := by
  rw [ids, ← fst_labels]
  simp

/-- The nodes with a span are those of the tree. -/
theorem isSome_spanOf? {t : Tree} {x : NodeId} : (t.spanOf? x).isSome = true ↔ x ∈ t.ids := by
  simp [spanOf?, ids]

/-- The numbers of the nodes are distinct and below the next one to give out. -/
def Numbered (t : Tree) : Prop :=
  t.ids.Nodup ∧ ∀ x ∈ t.ids, x < t.nextNode

/-- A tree just read is numbered. -/
theorem numbered_ofText (text : String) : (Parse.ofText text).tree.Numbered := by
  have h := Parse.numbered text
  exact ⟨Multiset.coe_nodup.mp h.1, fun x hx => (h.2 x (Multiset.mem_coe.mpr hx)).2⟩

/-- Merging leaves a tree numbered, with none of the numbers used twice. -/
theorem Numbered.merge {old : Tree} (h : old.Numbered) (new : Tree) :
    (old.merge new).tree.Numbered := by
  obtain ⟨hnodup, hlt⟩ := h
  rw [ids, ← fst_labels] at hnodup
  have h := (merge_accounts old new).nodup (Multiset.coe_nodup.mpr hnodup) fun x hx =>
    (hlt x.1 (mem_ids.mpr ⟨x.2, Multiset.mem_coe.mp hx⟩)).trans_le (le_max_left _ 1)
  refine ⟨?_, fun x hx => ?_⟩
  · rw [ids, ← fst_labels]
    exact Multiset.coe_nodup.mp h.1
  · obtain ⟨l, hl⟩ := mem_ids.mp hx
    exact h.2 (x, l) (Multiset.mem_coe.mpr hl)

/-- The tree of a file after its text went through `texts 0, …, texts i`. -/
def version (texts : ℕ → String) : ℕ → Tree
  | 0 => (Parse.ofText (texts 0)).tree
  | i + 1 => ((version texts i).merge (Parse.ofText (texts (i + 1))).tree).tree

variable (texts : ℕ → String)

/-- Numbers are never given back. -/
theorem nextNode_le_succ (i : ℕ) : (version texts i).nextNode ≤ (version texts (i + 1)).nextNode :=
  (le_max_left _ 1).trans (merge_accounts _ _).le

theorem monotone_nextNode : Monotone fun i => (version texts i).nextNode :=
  monotone_nat_of_le_succ (nextNode_le_succ texts)

/-- Every version of a text is numbered. -/
theorem version_numbered (i : ℕ) : (version texts i).Numbered := by
  induction i with
  | zero => exact numbered_ofText (texts 0)
  | succ i ih => exact ih.merge _

/-- A version says what its text says. Only the numbers are its own. -/
theorem version_unnumbered (i : ℕ) :
    (version texts i).unnumbered = (Parse.ofText (texts i)).tree.unnumbered := by
  cases i with
  | zero => rfl
  | succ i => exact (merge_exact _ _).1

/-- A node of a later version whose number was given out by version `i` is a node of version `i`. -/
theorem mem_labels_of_lt {i j : ℕ} (hij : i ≤ j) {x : LabelledNode}
    (hx : x ∈ (version texts j).labels) (hlt : x.1 < (version texts i).nextNode) :
    x ∈ (version texts i).labels := by
  induction j, hij using Nat.le_induction with
  | base => exact hx
  | succ j hij ih =>
    rcases (merge_accounts _ _).mem_or_le (Multiset.mem_coe.mpr hx) with h | h
    · exact ih (Multiset.mem_coe.mp h)
    · have hle := (monotone_nextNode texts hij).trans ((le_max_left _ 1).trans h)
      exact absurd hlt (Nat.not_lt.mpr hle)

/-- A number that is in two versions has one label. -/
theorem label_eq {i j : ℕ} {x : NodeId} {l l' : NodeLabel} (hl : (x, l) ∈ (version texts i).labels)
    (hl' : (x, l') ∈ (version texts j).labels) : l = l' := by
  wlog hij : i ≤ j generalizing i j l l'
  · exact (this hl' hl (Nat.le_of_not_le hij)).symm
  · obtain ⟨hnodup, hlt⟩ := version_numbered texts i
    have hmem := mem_labels_of_lt texts hij hl' (hlt x (mem_ids.mpr ⟨l, hl⟩))
    rw [ids, ← fst_labels] at hnodup
    have heq := List.inj_on_of_nodup_map hnodup hl hmem rfl
    exact (Prod.mk.inj heq).2

/-- **A node number stands for one node over all versions of a text.** Every version has the nodes of its
own text, in their places and all but the numbers as they are there. In every version the numbers are
distinct and below `nextNode`, which never goes down. A number that is gone from a version never comes
back. In every matched list the new nodes with a key take over from the old ones in order, and those
beyond get new numbers. And a number in two versions has one category and, but for the package
declaration, one key. -/
theorem version_identity (texts : ℕ → String) :
    (∀ i, (version texts i).unnumbered = (Parse.ofText (texts i)).tree.unnumbered) ∧
    (∀ i, (version texts i).ids.Nodup ∧
      ∀ x ∈ (version texts i).ids, x < (version texts i).nextNode) ∧
    (Monotone fun i => (version texts i).nextNode) ∧
    (∀ i j x, i < j → x ∈ (version texts i).ids → x ∉ (version texts (i + 1)).ids →
      x ∉ (version texts j).ids) ∧
    (∀ i, (version texts i).Follows (version texts (i + 1))) ∧
    (∀ i j x l l', (x, l) ∈ (version texts i).labels → (x, l') ∈ (version texts j).labels →
      l = l') := by
  refine ⟨version_unnumbered texts, version_numbered texts, monotone_nextNode texts,
    fun i j x hij hx hgone hback => ?_, fun i => merge_follows _ _, fun i j x l l' => label_eq texts⟩
  obtain ⟨l, hl⟩ := mem_ids.mp hback
  have hlt := ((version_numbered texts i).2 x hx).trans_le (nextNode_le_succ texts i)
  exact hgone (mem_ids.mpr ⟨l, mem_labels_of_lt texts hij hl hlt⟩)

end Tree

end NedWorkspace
