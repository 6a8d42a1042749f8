/-
# The innermost node at a position

SPEC_FULL, section 4.1: `element_at`.

`Tree.elementAt?` takes the last node whose span contains a position. In a tree that was read, or merged
from trees that were (`Tree.Origin`), spans nest: a merge takes over the spans of the new tree, so it
nests as the new tree does (`Origin.laid`). With nested spans the last node is the innermost one: the
nodes around it contain the position too, and none inside it does (`Origin.element_innermost`).
-/

import NedWorkspace.Proofs.Syntax.Nesting
import NedWorkspace.Proofs.Syntax.NodeIdentity

namespace NedWorkspace

namespace Tree

/-- Each child's span lies within its parent's. -/
def Nested (t : Tree) : Prop :=
  ∀ b ∈ t.preorder, ∀ c ∈ b.children, c.here.span.Within b.here.span

/-- The branch contains the position, all branches around it do and none inside it does. -/
structure Innermost (t : Tree) (p : Position) (b : Branch) : Prop where
  mem : b ∈ t.preorder
  contains : b.here.span.contains p = true
  ancestors : ∀ a ∈ t.preorder, b ∈ a.inner → a.here.span.contains p = true
  descendants : ∀ d ∈ b.inner, d.here.span.contains p = false

variable {t : Tree} {lines : LineIndex} {lo hi : Nat} {b c : Branch} {p : Position}

/-- Where branches are laid, so is all that is inside of them. -/
theorem laid_of_mem_preorder (h : ∀ b ∈ t.branches, b.Laid lines lo hi) (hb : b ∈ t.preorder) :
    b.Laid lines lo hi := by
  rw [preorder, Branch.preorderEach_eq] at hb
  obtain ⟨top, htop, hb⟩ := List.mem_flatMap.mp hb
  exact (h top htop).of_mem_preorder hb

/-- Nodes laid one inside the other are nested. -/
theorem nested_of_laid (h : ∀ b ∈ t.branches, b.Laid lines lo hi) : t.Nested := by
  intro b hb c hc
  refine (laid_of_mem_preorder h hb).within ?_
  rw [Branch.inner, Branch.preorderEach_eq]
  exact List.mem_flatMap.mpr ⟨c, hc, by rw [Branch.preorder_eq]; exact List.mem_cons_self⟩

theorem branches_unnumbered (t : Tree) :
    t.unnumbered.branches = t.branches.map (Branch.restamp .unnumbered) :=
  t.branches_restamp _

/-- Branches with one number are one branch. -/
theorem Numbered.eq_of_node (h : t.Numbered) (hb : b ∈ t.preorder) (hc : c ∈ t.preorder)
    (heq : c.here.node = b.here.node) : c = b := by
  have hnodup := h.1
  rw [ids, ← map_preorder, List.map_map] at hnodup
  exact List.inj_on_of_nodup_map hnodup hc hb heq

/-- The node at a position is that of the last branch whose span contains it. -/
theorem elementAt?_eq (t : Tree) (p : Position) : t.elementAt? p =
    (t.preorder.reverse.find? fun b => b.here.span.contains p).map fun b => b.here.node := by
  rw [elementAt?, ← map_preorder, ← List.map_reverse, List.find?_map, Option.map_map]
  rfl

/-- No element is found exactly where no node contains the position. -/
theorem elementAt?_eq_none_iff :
    t.elementAt? p = none ↔ ∀ n ∈ t.nodes, n.span.contains p = false := by
  rw [elementAt?, Option.map_eq_none_iff, List.find?_eq_none]
  simp

/-- Where spans nest, the node at a position is innermost. -/
theorem innermost_of_elementAt? (h : ∀ b ∈ t.branches, b.Laid lines lo hi) {node : NodeId}
    (hp : t.elementAt? p = some node) : ∃ b, t.Innermost p b ∧ b.here.node = node := by
  rw [elementAt?_eq] at hp
  obtain ⟨b, hfind, rfl⟩ := Option.map_eq_some_iff.mp hp
  obtain ⟨hmem, hcontains, hinner⟩ := Branch.innermost_of_find? hfind
  exact ⟨b, ⟨hmem, hcontains,
    fun a ha hb => ((laid_of_mem_preorder h ha).within hb).contains hcontains, hinner⟩, rfl⟩

/-- How a tree came about: it was read, or a tree was merged into another. -/
inductive Origin where
  | read (text : String)
  | merged (old new : Origin)

namespace Origin

/-- The tree that came about. -/
def tree : Origin → Tree
  | read text => (Parse.ofText text).tree
  | merged old new => (old.tree.merge new.tree).tree

/-- However it was edited, a tree is numbered. -/
theorem numbered (o : Origin) : o.tree.Numbered := by
  induction o with
  | read text => exact numbered_ofText text
  | merged old new hold _ => exact hold.merge new.tree

/-- All branches of the tree lie in the text that was read last. -/
theorem laid (o : Origin) : ∃ lines size, ∀ b ∈ o.tree.branches, b.Laid lines 0 size := by
  induction o with
  | read text => exact ⟨_, _, Parse.laid text⟩
  | merged old new _ hnew =>
    obtain ⟨lines, size, hlaid⟩ := hnew
    refine ⟨lines, size, fun b hb => ?_⟩
    have hsame : (old.merged new).tree.branches.map (Branch.restamp .unnumbered)
        = new.tree.branches.map (Branch.restamp .unnumbered) := by
      rw [← branches_unnumbered, ← branches_unnumbered]
      exact congrArg branches (merge_exact old.tree new.tree).1
    have hmem := List.mem_map_of_mem (f := Branch.restamp .unnumbered) hb
    rw [hsame] at hmem
    obtain ⟨c, hc, heq⟩ := List.mem_map.mp hmem
    rw [← Branch.Laid.restamp_unnumbered, ← heq, Branch.Laid.restamp_unnumbered]
    exact hlaid c hc

/-- **The element at a position is the innermost node there.** In every tree that was read, with or
without mistakes in the text, and in every tree merged from such trees, the branches are the nodes, each
before its children, and the span of each child lies within its parent's. At every position there is no
element exactly if no node's span contains the position. Otherwise the element is the number of one branch
only, which contains the position as all its ancestors do, and none of its descendants does. -/
theorem element_innermost (o : Origin) :
    o.tree.preorder.map Branch.here = o.tree.nodes ∧ o.tree.Nested ∧
    ∀ p, (o.tree.elementAt? p = none ↔ ∀ n ∈ o.tree.nodes, n.span.contains p = false) ∧
      ∀ node, o.tree.elementAt? p = some node →
        ∃ b, o.tree.Innermost p b ∧ b.here.node = node ∧
          ∀ c ∈ o.tree.preorder, c.here.node = node → c = b := by
  obtain ⟨lines, size, hlaid⟩ := o.laid
  refine ⟨map_preorder _, nested_of_laid hlaid, fun p => ⟨elementAt?_eq_none_iff, fun node hp => ?_⟩⟩
  obtain ⟨b, hb, rfl⟩ := innermost_of_elementAt? hlaid hp
  exact ⟨b, hb, rfl, fun c hc => o.numbered.eq_of_node hb.mem hc⟩

end Origin

end Tree

end NedWorkspace
