/-
# A tree as its branches

The lists of nodes that `Tree.nodes` puts one after another say which nodes there are, but not which of
them lies in which. A `Branch` says both: it is a node with its children. `Branched` cuts every piece of
syntax into branches, and in the order in which each branch comes before its children they are the nodes
of the piece (`nodes_branches`).

* What is inside a branch comes right behind it in that order (`Branch.inner_follows`). So the last node
  that contains a position is in a branch that has no such node inside it (`Branch.innermost_of_find?`).
* `Branch.Laid` says where in a text a branch was read: its children between its ends. Then each span
  lies within all spans around it (`Branch.Laid.within`).
-/

import NedWorkspace.Proofs.Syntax.Stamp
import NedWorkspace.Proofs.Text.Position

namespace NedWorkspace

/-- A node with its children. -/
structure Branch where
  here : NodeSpan
  children : List Branch

namespace Branch

mutual

/-- A branch and all inside it, each before its children. -/
def preorder : Branch → List Branch
  | ⟨here, children⟩ => ⟨here, children⟩ :: preorderEach children

/-- Several branches and all inside them. -/
def preorderEach : List Branch → List Branch
  | [] => []
  | b :: bs => b.preorder ++ preorderEach bs

end

/-- The children of a branch, their children, and so on. -/
def inner (b : Branch) : List Branch :=
  preorderEach b.children

mutual

/-- Changes the stamp of every node. -/
def restamp (f : NodeSpan → NodeSpan) : Branch → Branch
  | ⟨here, children⟩ => ⟨f here, restampEach f children⟩

/-- Changes the stamps of several branches. -/
def restampEach (f : NodeSpan → NodeSpan) : List Branch → List Branch
  | [] => []
  | b :: bs => b.restamp f :: restampEach f bs

end

/-- What holds of a branch when it holds of its children holds of all branches. -/
theorem induct {motive : Branch → Prop}
    (mk : ∀ here children, (∀ b ∈ children, motive b) → motive ⟨here, children⟩) (b : Branch) :
    motive b :=
  Branch.rec (motive_1 := motive) (motive_2 := fun bs => ∀ b ∈ bs, motive b) mk
    (fun _ h => absurd h List.not_mem_nil)
    (fun b bs hb hbs c hc => by
      rcases List.mem_cons.mp hc with rfl | hc
      · exact hb
      · exact hbs c hc) b

variable {a b c : Branch} {bs cs : List Branch}

theorem preorderEach_eq (bs : List Branch) : preorderEach bs = bs.flatMap preorder := by
  induction bs with
  | nil => rfl
  | cons b bs ih => rw [preorderEach, ih, List.flatMap_cons]

@[simp] theorem preorderEach_nil : preorderEach [] = [] := rfl

@[simp] theorem preorderEach_append (bs cs : List Branch) :
    preorderEach (bs ++ cs) = preorderEach bs ++ preorderEach cs := by
  simp only [preorderEach_eq, List.flatMap_append]

/-- A branch stands before all that is inside of it. -/
theorem preorder_eq (b : Branch) : b.preorder = b :: b.inner := by
  obtain ⟨here, children⟩ := b
  rw [preorder, inner]

@[simp] theorem preorderEach_cons (b : Branch) (bs : List Branch) :
    preorderEach (b :: bs) = b :: (preorderEach b.children ++ preorderEach bs) := by
  rw [preorderEach, preorder_eq, inner, List.cons_append]

theorem restampEach_eq (f : NodeSpan → NodeSpan) (bs : List Branch) :
    restampEach f bs = bs.map (restamp f) := by
  induction bs with
  | nil => rfl
  | cons b bs ih => rw [restampEach, ih, List.map_cons]

@[simp] theorem restamp_mk (f : NodeSpan → NodeSpan) (here : NodeSpan) (children : List Branch) :
    restamp f ⟨here, children⟩ = ⟨f here, children.map (restamp f)⟩ := by
  rw [restamp, restampEach_eq]

/-! ### The last branch with a property -/

/-- What comes behind a branch, as long as this is known inside each of several branches. -/
theorem inner_follows_of_each {before behind : List Branch}
    (h : ∀ c ∈ bs, ∀ before behind, c.preorder = before ++ b :: behind → b.inner <+: behind)
    (hb : preorderEach bs = before ++ b :: behind) : b.inner <+: behind := by
  induction bs generalizing before with
  | nil => exact absurd hb.symm (by simp)
  | cons c cs ih =>
    have hrest (before : List Branch) (heq : preorderEach cs = before ++ b :: behind) :
        b.inner <+: behind := ih (fun d hd => h d (List.mem_cons_of_mem c hd)) heq
    rw [preorderEach] at hb
    rcases List.append_eq_append_iff.mp hb with ⟨_, _, hcs⟩ | ⟨start, hc, hstart⟩
    · exact hrest _ hcs
    · rcases List.cons_eq_append_iff.mp hstart with ⟨_, hcs⟩ | ⟨start, rfl, rfl⟩
      · exact hrest [] hcs
      · exact (h c List.mem_cons_self before start hc).trans (List.prefix_append _ _)

/-- **What is inside a branch comes right behind it.** -/
theorem inner_follows {before behind : List Branch} (h : preorderEach bs = before ++ b :: behind) :
    b.inner <+: behind := by
  have hone (c : Branch) : ∀ before behind, c.preorder = before ++ b :: behind → b.inner <+: behind := by
    induction c using induct with
    | mk here children ih =>
      intro before behind hc
      rw [preorder_eq] at hc
      rcases List.cons_eq_append_iff.mp hc with ⟨_, hb⟩ | ⟨before, _, hin⟩
      · obtain ⟨rfl, rfl⟩ := List.cons.inj hb
        exact List.prefix_refl _
      · exact inner_follows_of_each ih hin
  exact inner_follows_of_each (fun c _ => hone c) h

/-- **The last branch with a property has none with that property inside it.** -/
theorem innermost_of_find? {p : Branch → Bool} (h : (preorderEach bs).reverse.find? p = some b) :
    b ∈ preorderEach bs ∧ p b = true ∧ ∀ c ∈ b.inner, p c = false := by
  obtain ⟨hp, behind, before, heq, hbehind⟩ := List.find?_eq_some_iff_append.mp h
  have hsplit : preorderEach bs = before.reverse ++ b :: behind.reverse := by
    rw [← List.reverse_reverse (preorderEach bs), heq]
    simp
  refine ⟨by simp [hsplit], hp, fun c hc => ?_⟩
  have hmem := (inner_follows hsplit).subset hc
  simpa using hbehind c (List.mem_reverse.mp hmem)

/-! ### Where a branch was read -/

/-- The branch was read between two offsets of a text, and what is inside it between its own ends. -/
inductive Laid (lines : LineIndex) : Nat → Nat → Branch → Prop
  | mk {lo start stop hi : Nat} {here : NodeSpan} {children : List Branch} (lo_le : lo ≤ start)
      (start_le : start ≤ stop) (le_hi : stop ≤ hi) (span : here.span = lines.span start stop)
      (inside : ∀ b ∈ children, Laid lines start stop b) : Laid lines lo hi ⟨here, children⟩

namespace Laid

variable {lines : LineIndex} {lo lo' hi hi' : Nat}

/-- A branch laid in a stretch is laid in any longer one. -/
theorem mono (h : b.Laid lines lo hi) (hlo : lo' ≤ lo) (hhi : hi ≤ hi') : b.Laid lines lo' hi' := by
  obtain ⟨lo_le, start_le, le_hi, span, inside⟩ := h
  exact ⟨Nat.le_trans hlo lo_le, start_le, Nat.le_trans le_hi hhi, span, inside⟩

/-- What is inside a branch was read where the branch was. -/
theorem of_mem_preorder (h : b.Laid lines lo hi) (hc : c ∈ b.preorder) : c.Laid lines lo hi := by
  induction b using induct generalizing lo hi with
  | mk here children ih =>
    rw [preorder_eq, inner, preorderEach_eq] at hc
    rcases List.mem_cons.mp hc with rfl | hc
    · exact h
    · obtain ⟨lo_le, -, le_hi, -, inside⟩ := h
      obtain ⟨child, hchild, hc⟩ := List.mem_flatMap.mp hc
      exact (ih child hchild (inside child hchild) hc).mono lo_le le_hi

/-- **Spans lie within the spans around them.** -/
theorem within (h : b.Laid lines lo hi) (hc : c ∈ b.inner) : c.here.span.Within b.here.span := by
  obtain ⟨-, -, -, span, inside⟩ := h
  rw [inner, preorderEach_eq] at hc
  obtain ⟨child, hchild, hc⟩ := List.mem_flatMap.mp hc
  obtain ⟨lo_le, -, le_hi, span', -⟩ := (inside child hchild).of_mem_preorder hc
  rw [span, span']
  exact lines.span_within lo_le le_hi

/-- Where a branch was read does not depend on its numbers. -/
theorem restamp_unnumbered : (b.restamp .unnumbered).Laid lines lo hi ↔ b.Laid lines lo hi := by
  induction b using induct generalizing lo hi with
  | mk here children ih =>
    rw [restamp_mk]
    constructor
    · rintro ⟨lo_le, start_le, le_hi, span, inside⟩
      exact ⟨lo_le, start_le, le_hi, span, fun b hb =>
        (ih b hb).mp (inside _ (List.mem_map_of_mem hb))⟩
    · rintro ⟨lo_le, start_le, le_hi, span, inside⟩
      refine ⟨lo_le, start_le, le_hi, span, fun b hb => ?_⟩
      obtain ⟨c, hc, rfl⟩ := List.mem_map.mp hb
      exact (ih c hc).mpr (inside c hc)

end Laid

end Branch

/-! ### Syntax as branches -/

open Stamped

/-- A piece of syntax that can be cut into branches. -/
class Branched (α : Type) [Stamped α] where
  branches : α → List Branch
  nodes_branches : ∀ a, (Branch.preorderEach (branches a)).map Branch.here = nodes a
  branches_restamp : ∀ f a, branches (restamp f a) = (branches a).map (Branch.restamp f)

namespace Branched

attribute [simp] nodes_branches branches_restamp

variable {α : Type} [Stamped α] [Branched α]

instance : Branched (List α) where
  branches as := as.flatMap branches
  nodes_branches as := by
    induction as with
    | nil => rfl
    | cons a as ih => simp [nodes, ih]
  branches_restamp f as := by
    simp [restamp, List.flatMap_map, List.map_flatMap]

instance : Branched (Option α) where
  branches a := a.toList.flatMap branches
  nodes_branches a := by cases a <;> simp [nodes]
  branches_restamp f a := by cases a <;> simp [restamp]

@[simp] theorem branches_nil : branches ([] : List α) = [] := rfl

@[simp] theorem branches_append (as bs : List α) : branches (as ++ bs) = branches as ++ branches bs :=
  List.flatMap_append

@[simp] theorem branches_some (a : α) : branches (some a) = branches a :=
  List.append_nil _

@[simp] theorem branches_toList (a : Option α) : branches a.toList = branches a := rfl

end Branched

open Branched

instance : Branched PackageDecl where
  branches p := [⟨⟨p.node, p.span⟩, []⟩]
  nodes_branches _ := rfl
  branches_restamp _ _ := rfl

instance : Branched ImportDecl where
  branches i := [⟨⟨i.node, i.span⟩, []⟩]
  nodes_branches _ := rfl
  branches_restamp _ _ := rfl

instance : Branched Property where
  branches p := [⟨p.nodeSpan, []⟩]
  nodes_branches _ := rfl
  branches_restamp _ _ := rfl

instance : Branched TypeRef where
  branches r := [⟨r.nodeSpan, []⟩]
  nodes_branches _ := rfl
  branches_restamp _ _ := rfl

instance : Branched Param where
  branches p := [⟨⟨p.node, p.span⟩, branches p.properties⟩]
  nodes_branches p := by
    change _ = p.nodes
    simp [Param.nodes_eq]
  branches_restamp f p := by
    change [(⟨f ⟨p.node, p.span⟩, branches (restamp f p.properties)⟩ : Branch)] = _
    simp

instance : Branched Gate where
  branches g := [⟨⟨g.node, g.span⟩, branches g.properties⟩]
  nodes_branches g := by
    change _ = g.nodes
    simp [Gate.nodes_eq]
  branches_restamp f g := by
    change [(⟨f ⟨g.node, g.span⟩, branches (restamp f g.properties)⟩ : Branch)] = _
    simp

/-- The parts of a submodule. -/
def Submodule.parts (s : Submodule) : List Branch :=
  branches s.type ++ (branches s.properties ++ (branches s.params ++ branches s.gates))

/-- The parts of a submodule are its type, its properties, its parameters and its gates. -/
theorem Submodule.mem_parts {s : Submodule} {b : Branch} : b ∈ s.parts ↔ b ∈ branches s.type ∨
    b ∈ branches s.properties ∨ b ∈ branches s.params ∨ b ∈ branches s.gates := by
  simp only [parts, List.mem_append]

instance : Branched Submodule where
  branches s := [⟨⟨s.node, s.span⟩, s.parts⟩]
  nodes_branches s := by
    change _ = s.nodes
    simp [Submodule.nodes_eq, Submodule.parts]
  branches_restamp f s := by
    change [(⟨f ⟨s.node, s.span⟩, branches (restamp f s.type) ++ (branches (restamp f s.properties)
      ++ (branches (restamp f s.params) ++ branches (restamp f s.gates)))⟩ : Branch)] = _
    simp [Submodule.parts]

instance : Branched ChannelSpec where
  branches c := [⟨⟨c.node, c.span⟩, branches c.type⟩]
  nodes_branches c := by
    change _ = c.nodes
    simp [ChannelSpec.nodes_eq]
  branches_restamp f c := by
    change [(⟨f ⟨c.node, c.span⟩, branches (restamp f c.type)⟩ : Branch)] = _
    simp

instance : Branched Connection where
  branches c := [⟨⟨c.node, c.span⟩, branches c.channel⟩]
  nodes_branches c := by
    change _ = c.nodes
    simp [Connection.nodes_eq]
  branches_restamp f c := by
    change [(⟨f ⟨c.node, c.span⟩, branches (restamp f c.channel)⟩ : Branch)] = _
    simp

namespace TypeDetails

/-- The parts of a declaration that come before its inner types. -/
def partsBefore (t : TypeDetails) : List Branch :=
  branches t.bases ++ (branches t.interfaces ++ (branches t.properties ++ (branches t.params
    ++ branches t.gates)))

/-- The parts of a declaration that come after its inner types. -/
def partsAfter (t : TypeDetails) : List Branch :=
  branches t.submodules ++ branches t.connections

/-- The nodes of a type before its inner types, itself first. -/
theorem nodes_partsBefore (t : TypeDetails) :
    ⟨t.node, t.span⟩ :: (Branch.preorderEach t.partsBefore).map Branch.here = t.nodesBefore := by
  simp [partsBefore, nodesBefore_eq]

/-- The nodes of a type behind its inner types. -/
theorem nodes_partsAfter (t : TypeDetails) :
    (Branch.preorderEach t.partsAfter).map Branch.here = t.nodesAfter := by
  simp [partsAfter, nodesAfter_eq]

theorem partsBefore_restamp (f : NodeSpan → NodeSpan) (t : TypeDetails) :
    (t.restamp f).partsBefore = t.partsBefore.map (Branch.restamp f) := by
  simp [partsBefore, restamp]

theorem partsAfter_restamp (f : NodeSpan → NodeSpan) (t : TypeDetails) :
    (t.restamp f).partsAfter = t.partsAfter.map (Branch.restamp f) := by
  simp [partsAfter, restamp]

end TypeDetails

mutual

/-- A type declaration as a branch. -/
def TypeDecl.branch : TypeDecl → Branch
  | ⟨own, types⟩ => ⟨⟨own.node, own.span⟩,
      own.partsBefore ++ (TypeDecl.branchEach types ++ own.partsAfter)⟩

/-- Several type declarations as branches. -/
def TypeDecl.branchEach : List TypeDecl → List Branch
  | [] => []
  | t :: ts => t.branch :: TypeDecl.branchEach ts

end

namespace TypeDecl

theorem branchEach_eq (ts : List TypeDecl) : branchEach ts = ts.map branch := by
  induction ts with
  | nil => rfl
  | cons t ts ih => rw [branchEach, ih, List.map_cons]

/-- A type has its inner types between its other parts. -/
theorem branch_mk (own : TypeDetails) (types : List TypeDecl) : branch ⟨own, types⟩ =
    ⟨⟨own.node, own.span⟩, own.partsBefore ++ (types.map branch ++ own.partsAfter)⟩ := by
  rw [branch, branchEach_eq]

/-- The nodes of a type are its branch, read from the outside in. -/
theorem nodes_branch (t : TypeDecl) : t.branch.preorder.map Branch.here = t.nodes := by
  induction t using TypeDecl.induct with
  | mk own types ih =>
    have htypes : (Branch.preorderEach (types.map branch)).map Branch.here
        = types.flatMap TypeDecl.nodes := by
      rw [Branch.preorderEach_eq, List.flatMap_map, List.map_flatMap]
      exact List.flatMap_congr ih
    rw [Branch.preorder_eq, branch_mk, nodes_mk, ← TypeDetails.nodes_partsBefore,
      ← TypeDetails.nodes_partsAfter, ← htypes]
    simp [Branch.inner]

/-- Nodes are stamped where they stand in the branch. -/
theorem branch_restamp (f : NodeSpan → NodeSpan) (t : TypeDecl) :
    (TypeDecl.restamp f t).branch = Branch.restamp f t.branch := by
  induction t using TypeDecl.induct with
  | mk own types ih =>
    have htypes : (types.map (TypeDecl.restamp f)).map branch
        = (types.map branch).map (Branch.restamp f) := by
      rw [List.map_map, List.map_map]
      exact List.map_congr_left ih
    rw [restamp_mk, branch_mk, branch_mk, TypeDetails.partsBefore_restamp,
      TypeDetails.partsAfter_restamp, htypes, Branch.restamp_mk, List.map_append, List.map_append]
    rfl

/-- The parts of a declaration. -/
def parts (t : TypeDecl) : List Branch :=
  t.branch.children

end TypeDecl

instance : Branched TypeDecl where
  branches t := [t.branch]
  nodes_branches t := by
    rw [Branch.preorderEach, Branch.preorderEach_nil, List.append_nil]
    exact t.nodes_branch
  branches_restamp f t := congrArg (fun b => [b]) (t.branch_restamp f)

namespace TypeDecl

/-- The parts of a declaration, its inner types among them. -/
theorem parts_eq (t : TypeDecl) :
    t.parts = t.partsBefore ++ (branches t.types ++ t.partsAfter) := by
  obtain ⟨own, types⟩ := t
  have htypes : types.map branch = branches types := List.map_eq_flatMap
  rw [parts, branch_mk, htypes]

theorem branches_eq (t : TypeDecl) : branches t = [⟨⟨t.node, t.span⟩, t.parts⟩] := by
  obtain ⟨own, types⟩ := t
  change [branch _] = _
  rw [parts, branch_mk]

/-- The parts of a type, inner types among them. -/
theorem mem_parts {t : TypeDecl} {b : Branch} : b ∈ t.parts ↔ b ∈ branches t.bases ∨
    b ∈ branches t.interfaces ∨ b ∈ branches t.properties ∨ b ∈ branches t.params ∨
      b ∈ branches t.gates ∨ b ∈ branches t.types ∨ b ∈ branches t.submodules ∨
        b ∈ branches t.connections := by
  simp only [parts_eq, TypeDetails.partsBefore, TypeDetails.partsAfter, List.mem_append, or_assoc]

end TypeDecl

namespace Tree

/-- The branches of a file. -/
def branches (t : Tree) : List Branch :=
  Branched.branches t.package ++ (Branched.branches t.imports ++ (Branched.branches t.properties
    ++ Branched.branches t.types))

/-- All branches of a file, each before its children. -/
def preorder (t : Tree) : List Branch :=
  Branch.preorderEach t.branches

/-- **The branches of a file are its nodes**, in the same order. -/
theorem map_preorder (t : Tree) : t.preorder.map Branch.here = t.nodes := by
  simp [preorder, branches, nodes_eq]

/-- The branches of a file are its package, its imports, its properties and its types. -/
theorem mem_branches {t : Tree} {b : Branch} : b ∈ t.branches ↔ b ∈ Branched.branches t.package ∨
    b ∈ Branched.branches t.imports ∨ b ∈ Branched.branches t.properties ∨
      b ∈ Branched.branches t.types := by
  simp only [branches, List.mem_append]

/-- Nodes are stamped where they stand in the branches of the file. -/
theorem branches_restamp (f : NodeSpan → NodeSpan) (t : Tree) :
    (t.restamp f).branches = t.branches.map (Branch.restamp f) := by
  simp [branches, restamp]

end Tree

end NedWorkspace
