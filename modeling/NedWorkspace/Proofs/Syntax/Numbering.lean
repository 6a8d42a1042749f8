/-
# Reading numbers every node once

A cursor gives out the numbers from `nextNode` on, one after another, and never takes one back. So the
nodes of whatever is read between two cursors have numbers between theirs, and no two nodes have one
number.

`Parser.Numbers used p` is the law in the form in which it goes through a parser step by step: if the
numbers `used` were given out before, then after `p` they may stand in its result together with those
that `p` gave out. A step that makes a node adds its number to `used` (`newNode_bind`), a part that is
read adds its numbers (`bind`), any other step adds nothing (`skip`), and a result may use each number
that is left once (`pure`).

The main result is `Parse.numbered`: all numbers in the tree of a text are distinct and below its
`nextNode`, with or without mistakes in the text.
-/

import Mathlib.Algebra.Order.Group.Multiset
import Mathlib.Data.Multiset.AddSub
import Mathlib.Tactic.Abel
import NedWorkspace.Proofs.Syntax.Stamp
import NedWorkspace.Syntax.Declaration

namespace NedWorkspace

open Stamped

/-- The numbers of some nodes. -/
def NodeSpan.numbersOf (ns : List NodeSpan) : Multiset NodeId :=
  (ns.map NodeSpan.node : List NodeId)

@[simp] theorem NodeSpan.numbersOf_nil : numbersOf [] = 0 := rfl

@[simp] theorem NodeSpan.numbersOf_cons (n : NodeSpan) (ns : List NodeSpan) :
    numbersOf (n :: ns) = {n.node} + numbersOf ns := rfl

@[simp] theorem NodeSpan.numbersOf_append (ns ms : List NodeSpan) :
    numbersOf (ns ++ ms) = numbersOf ns + numbersOf ms := by
  rw [numbersOf, List.map_append, ← Multiset.coe_add]
  rfl

namespace Stamped

variable {α : Type} [Stamped α]

/-- The numbers of the nodes of a piece of syntax. -/
def numbers (a : α) : Multiset NodeId :=
  NodeSpan.numbersOf (nodes a)

@[simp] theorem numbers_nil : numbers ([] : List α) = 0 := rfl

@[simp] theorem numbers_append (as bs : List α) : numbers (as ++ bs) = numbers as + numbers bs := by
  simp [numbers, nodes]

@[simp] theorem numbers_cons (a : α) (as : List α) : numbers (a :: as) = numbers a + numbers as := by
  simp [numbers, nodes]

@[simp] theorem numbers_none : numbers (none : Option α) = 0 := rfl

@[simp] theorem numbers_some (a : α) : numbers (some a) = numbers a := by
  simp [numbers, nodes]

@[simp] theorem numbers_toList (a : Option α) : numbers a.toList = numbers a := rfl

end Stamped

@[simp] theorem PackageDecl.numbers_eq (p : PackageDecl) : numbers p = {p.node} := rfl

@[simp] theorem ImportDecl.numbers_eq (i : ImportDecl) : numbers i = {i.node} := rfl

@[simp] theorem Property.numbers_eq (p : Property) : numbers p = {p.node} := rfl

@[simp] theorem TypeRef.numbers_eq (r : TypeRef) : numbers r = {r.node} := rfl

@[simp] theorem Param.numbers_eq (p : Param) : numbers p = {p.node} + numbers p.properties :=
  congrArg NodeSpan.numbersOf p.nodes_eq

@[simp] theorem Gate.numbers_eq (g : Gate) : numbers g = {g.node} + numbers g.properties :=
  congrArg NodeSpan.numbersOf g.nodes_eq

@[simp] theorem Submodule.numbers_eq (s : Submodule) : numbers s =
    {s.node} + numbers s.type + numbers s.properties + numbers s.params + numbers s.gates := by
  refine (congrArg NodeSpan.numbersOf s.nodes_eq).trans ?_
  simp only [NodeSpan.numbersOf_cons, NodeSpan.numbersOf_append, ← add_assoc]
  rfl

@[simp] theorem ChannelSpec.numbers_eq (c : ChannelSpec) :
    numbers c = {c.node} + numbers c.type :=
  congrArg NodeSpan.numbersOf c.nodes_eq

@[simp] theorem Connection.numbers_eq (c : Connection) :
    numbers c = {c.node} + numbers c.channel := rfl

@[simp] theorem TypeDecl.numbers_eq (t : TypeDecl) : numbers t =
    {t.node} + numbers t.bases + numbers t.interfaces + numbers t.properties + numbers t.params
      + numbers t.gates + numbers t.types + numbers t.submodules + numbers t.connections := by
  obtain ⟨own, types⟩ := t
  refine (congrArg NodeSpan.numbersOf (TypeDecl.nodes_mk own types)).trans ?_
  simp only [TypeDetails.nodesBefore_eq, TypeDetails.nodesAfter_eq, NodeSpan.numbersOf_cons,
    NodeSpan.numbersOf_append, ← add_assoc]
  rfl

/-- The numbers of all nodes of a tree. -/
def Tree.numbers (t : Tree) : Multiset NodeId :=
  NodeSpan.numbersOf t.nodes

theorem Tree.numbers_eq (t : Tree) : t.numbers = Stamped.numbers t.package
    + Stamped.numbers t.imports + Stamped.numbers t.properties + Stamped.numbers t.types := by
  simp only [numbers, nodes_eq, NodeSpan.numbersOf_append, ← add_assoc]
  rfl

/-- Numbers from `lo` up to `hi`, each at most once. -/
def GivenOut (lo hi : NodeId) (numbers : Multiset NodeId) : Prop :=
  numbers.Nodup ∧ ∀ n ∈ numbers, lo ≤ n ∧ n < hi

namespace GivenOut

variable {lo mid hi : NodeId} {ns ms : Multiset NodeId}

theorem zero (lo hi : NodeId) : GivenOut lo hi 0 :=
  ⟨Multiset.nodup_zero, by simp⟩

/-- Fewer numbers are given out in the same stretch. -/
theorem of_le (h : GivenOut lo hi ns) (hle : ms ≤ ns) : GivenOut lo hi ms :=
  ⟨Multiset.nodup_of_le hle h.1, fun n hn => h.2 n (Multiset.mem_of_le hle hn)⟩

/-- Numbers given out up to one place are given out up to any later one. -/
theorem mono (h : GivenOut lo mid ns) (hle : mid ≤ hi) : GivenOut lo hi ns :=
  ⟨h.1, fun n hn => ⟨(h.2 n hn).1, (h.2 n hn).2.trans_le hle⟩⟩

/-- Numbers given out later, together with those given out before. -/
theorem add (h : GivenOut lo mid ns) (k : GivenOut mid hi ms) (hlo : lo ≤ mid) (hhi : mid ≤ hi) :
    GivenOut lo hi (ms + ns) := by
  refine ⟨Multiset.nodup_add.mpr ⟨k.1, h.1, Multiset.disjoint_left.mpr fun {n} hm hn => ?_⟩,
    fun n hn => ?_⟩
  · exact Nat.lt_irrefl _ ((h.2 n hn).2.trans_le (k.2 n hm).1)
  · rcases Multiset.mem_add.mp hn with hn | hn
    · exact ⟨hlo.trans (k.2 n hn).1, (k.2 n hn).2⟩
    · exact ⟨(h.2 n hn).1, (h.2 n hn).2.trans_le hhi⟩

end GivenOut

namespace Parser

variable {α β γ : Type}

/-- The numbers `used`, given out before, may stand in the result of a parser, together with those
that it gives out. -/
def Numbers [Stamped α] (used : Multiset NodeId) (p : Parser α) : Prop :=
  ∀ lo s, lo ≤ s.nextNode → GivenOut lo s.nextNode used →
    GivenOut lo (p.run s).2.nextNode (numbers (p.run s).1)

namespace Numbers

variable [Stamped α] [Stamped β] [Stamped γ] {used : Multiset NodeId}

/-- What is at hand has been numbered before. -/
theorem pure {a : α} (h : numbers a ≤ used) : Numbers used (Pure.pure a : Parser α) :=
  fun _ _ _ hs => hs.of_le h

/-- A part is read and its numbers may be used from then on. -/
theorem bind {p : Parser β} {f : β → Parser α} (hp : Numbers 0 p)
    (hf : ∀ b, Numbers (numbers b + used) (f b)) : Numbers used (p >>= f) := by
  intro lo s hlo hs
  have hle := (p.reaches s).nextNode
  have hpart := hp s.nextNode s le_rfl (.zero _ _)
  exact hf (p.run s).1 lo (p.run s).2 (hlo.trans hle) (hs.add hpart hlo hle)

/-- All that was used goes into a part, and nothing else is used from then on. -/
theorem thread {p : Parser β} {f : β → Parser α} (hp : Numbers used p)
    (hf : ∀ b, Numbers (numbers b) (f b)) : Numbers used (p >>= f) :=
  fun lo s hlo hs => hf (p.run s).1 lo (p.run s).2 (hlo.trans (p.reaches s).nextNode)
    (hp lo s hlo hs)

/-- A node is made. -/
theorem newNode_bind {f : NodeId → Parser α} (hf : ∀ n, Numbers ({n} + used) (f n)) :
    Numbers used (newNode >>= f) := by
  intro lo s hlo hs
  have hnew : GivenOut s.nextNode (s.nextNode + 1) {s.nextNode} :=
    ⟨Multiset.nodup_singleton _, by simp⟩
  exact hf s.nextNode lo _ (hlo.trans (Nat.le_succ _)) (hs.add hnew hlo (Nat.le_succ _))

end Numbers

/-- Any other step goes by without using a number. -/
theorem Numbers.skip [Stamped α] {used : Multiset NodeId} {p : Parser β} {f : β → Parser α}
    (hf : ∀ b, Numbers used (f b)) : Numbers used (p >>= f) := by
  intro lo s hlo hs
  have hle := (p.reaches s).nextNode
  exact hf (p.run s).1 lo (p.run s).2 (hlo.trans hle) (hs.mono hle)

/-- It is enough to look at what is given out by the parser itself. -/
theorem Numbers.of_run [Stamped α] {p : Parser α} (h : ∀ s : Cursor,
    GivenOut s.nextNode (p.run s).2.nextNode (numbers (p.run s).1)) : Numbers 0 p :=
  fun _ s hlo _ => ⟨(h s).1, fun n hn => ⟨hlo.trans ((h s).2 n hn).1, ((h s).2 n hn).2⟩⟩

theorem Numbers.none [Stamped α] {used : Multiset NodeId} :
    Numbers used (Pure.pure Option.none : Parser (Option α)) :=
  .pure (Multiset.zero_le used)

/-- Two ways of reading a part, and one way to go on. -/
theorem Numbers.ite_bind [Stamped α] [Stamped γ] {used : Multiset NodeId} {c : Prop} [Decidable c]
    {x y : Parser γ} {f : γ → Parser α} (hx : Numbers 0 x) (hy : Numbers 0 y)
    (hf : ∀ g, Numbers (numbers g + used) (f g)) :
    Numbers used (if c then x >>= f else y >>= f) := by
  split
  · exact .bind hx hf
  · exact .bind hy hf

/-- Two ways of going by, and one way to go on. -/
theorem Numbers.ite_skip [Stamped α] {used : Multiset NodeId} {c : Prop} [Decidable c]
    {x y : Parser γ} {f : γ → Parser α} (hf : ∀ g, Numbers used (f g)) :
    Numbers used (if c then x >>= f else y >>= f) := by
  split
  · exact .skip hf
  · exact .skip hf

/-- Steps that may be left out before one way to go on. -/
theorem Numbers.when [Stamped α] {used : Multiset NodeId} {c : Prop} [Decidable c]
    {p q : Parser α} (hq : Numbers used q) (hp : Numbers used q → Numbers used p) :
    Numbers used (if c then p else q) := by
  split
  · exact hp hq
  · exact hq

/-- A step that may be left out. -/
theorem Numbers.when_skip [Stamped α] {used : Multiset NodeId} {c : Prop} [Decidable c]
    {x : Parser β} {p : Parser α} (hp : Numbers used p) :
    Numbers used (if c then x >>= fun _ => p else p) :=
  .when hp fun h => .skip fun _ => h

/-! ### Loops -/

/-- The items of a list get numbers one after the other. -/
theorem sepByFrom_numbers [Stamped α] (sep : Kind) {item : Parser (Option α)} (h : Numbers 0 item)
    (s : Cursor) : GivenOut s.nextNode (sepByFrom sep item s).2.nextNode
      (numbers (sepByFrom sep item s).1) := by
  fun_induction sepByFrom sep item s with
  | case1 s r hr => exact .zero _ _
  | case2 s r a ha hsep more ih =>
    have hitem := h s.nextNode s le_rfl (.zero _ _)
    rw [show (item.run s).1 = some a from ha, numbers_some] at hitem
    have hreach := r.2.reaches_next.nextNode
    have hrest := (reaches_sepByFrom sep item r.2.next).nextNode
    rw [numbers_cons, add_comm]
    exact (hitem.mono hreach).add ih ((item.reaches s).nextNode.trans hreach) hrest
  | case3 s r a ha hsep =>
    have hitem := h s.nextNode s le_rfl (.zero _ _)
    rw [show (item.run s).1 = some a from ha, numbers_some] at hitem
    simpa using hitem

theorem sepBy_numbers [Stamped α] (sep : Kind) {item : Parser (Option α)} (h : Numbers 0 item) :
    Numbers 0 (sepBy sep item) :=
  .of_run (sepByFrom_numbers sep h)

/-- The items of a repetition get numbers one after the other. -/
theorem manyWhileFrom_numbers [Stamped α] (p : Kind → Bool) {item : Parser (Option α)}
    (h : Numbers 0 item) (s : Cursor) : GivenOut s.nextNode (manyWhileFrom p item s).2.nextNode
      (numbers (manyWhileFrom p item s).1) := by
  fun_induction manyWhileFrom p item s with
  | case1 s hp r hlt more ih =>
    have hitem := h s.nextNode s le_rfl (.zero _ _)
    have hrest := (reaches_manyWhileFrom p item r.2).nextNode
    rw [numbers_append, numbers_toList, add_comm]
    exact hitem.add ih (item.reaches s).nextNode hrest
  | case2 s hp r hlt => exact h s.nextNode s le_rfl (.zero _ _)
  | case3 s hp => exact .zero _ _

theorem manyWhile_numbers [Stamped α] (p : Kind → Bool) {item : Parser (Option α)}
    (h : Numbers 0 item) : Numbers 0 (manyWhile p item) :=
  .of_run (manyWhileFrom_numbers p h)

/-! ### References, properties and members -/

theorem typeRef_numbers (what : String) : Numbers 0 (typeRef what) := by
  refine .skip fun start => .newNode_bind fun node => .skip fun name => ?_
  cases name with
  | none => exact .none
  | some name => exact .skip fun span => .pure (by simp)

theorem typeRefs_numbers : Numbers 0 typeRefs :=
  sepBy_numbers _ (typeRef_numbers _)

/-- A property and its entries get new numbers. -/
theorem property_numbers : Numbers 0 property := by
  refine .skip fun start => .skip fun _ => .newNode_bind fun node => .skip fun name => ?_
  cases name with
  | none => exact .skip fun _ => .none
  | some name =>
    refine .skip fun _ => .skip fun bracket => .ite_skip fun index => .skip fun paren => ?_
    have hend : ∀ entries : List PropertyEntry, Numbers ({node} + 0)
        (do return some ({ node, name, index, entries, span := ← spanFrom start } : Property)) :=
      fun entries => .skip fun span => .pure (by simp)
    dsimp only
    split
    · exact .skip fun _ => .skip fun _ => .skip fun entries => hend entries
    · exact .skip fun entries => hend entries

theorem properties_numbers : Numbers 0 properties :=
  manyWhile_numbers _ property_numbers

theorem propertyStatement_numbers : Numbers 0 propertyStatement :=
  .bind property_numbers fun property => .skip fun _ => .pure (by simp)

/-- A parameter gets new numbers from its name on. -/
theorem paramFromName_numbers (start : Nat) (volatile : Bool) (type : Option ParamType) :
    Numbers 0 (paramFromName start volatile type) := by
  refine .newNode_bind fun node => .skip fun name => ?_
  cases name with
  | none => exact .skip fun _ => .none
  | some name =>
    refine .bind properties_numbers fun before => .skip fun value =>
      .bind properties_numbers fun after => .skip fun _ => .skip fun span => .pure ?_
    simp only [numbers_some, Param.numbers_eq, numbers_append]
    exact le_of_eq (by abel)

theorem param_numbers : Numbers 0 param := by
  refine .skip fun start => .skip fun volatile => .skip fun next => ?_
  split
  · exact .skip fun _ => paramFromName_numbers _ _ _
  · refine .skip fun plain => ?_
    split
    · exact paramFromName_numbers _ _ _
    · exact .when_skip (.skip fun _ => .none)

/-- A gate gets new numbers. -/
theorem gate_numbers : Numbers 0 gate := by
  refine .skip fun stray => ?_
  split
  · exact .skip fun _ => .none
  · refine .skip fun start => .skip fun next => .when_skip (.newNode_bind fun node =>
      .skip fun name => ?_)
    cases name with
    | none => exact .skip fun _ => .none
    | some name =>
      refine .skip fun isVector => .ite_skip fun size => .bind properties_numbers fun properties =>
        .skip fun _ => .skip fun span => .pure ?_
      simp only [numbers_some, Gate.numbers_eq]
      exact le_of_eq (by abel)

/-! ### Submodules -/

/-- A member of a submodule gets new numbers, and those given out before stay. -/
theorem submoduleMember_numbers (sec : BodySection) (sub : Submodule) :
    Numbers (numbers sub) (submoduleMember sec sub) := by
  have hskip : Numbers (numbers sub) (do skipStatement; return sub) := .skip fun _ => .pure le_rfl
  cases sec with
  | gates =>
    refine .bind gate_numbers fun gate => .pure ?_
    simp only [Submodule.numbers_eq, numbers_append, numbers_toList]
    exact le_of_eq (by abel)
  | parameters =>
    refine .skip fun stray => ?_
    split
    · refine .bind propertyStatement_numbers fun property => .pure ?_
      simp only [Submodule.numbers_eq, numbers_append, numbers_toList]
      exact le_of_eq (by abel)
    · refine .bind param_numbers fun param => .pure ?_
      simp only [Submodule.numbers_eq, numbers_append, numbers_toList]
      exact le_of_eq (by abel)
  | types => exact hskip
  | submodules => exact hskip
  | connections => exact hskip

/-- The members of a submodule get numbers one after the other. -/
theorem submoduleBodyFrom_numbers (sec : BodySection) (sub : Submodule) (lo : NodeId) (s : Cursor)
    (hlo : lo ≤ s.nextNode) (hsub : GivenOut lo s.nextNode (numbers sub)) :
    GivenOut lo (submoduleBodyFrom sec sub s).2.nextNode
      (numbers (submoduleBodyFrom sec sub s).1) := by
  fun_induction submoduleBodyFrom sec sub s with
  | case1 => exact hsub
  | case2 => exact hsub
  | case3 sec sub s t _ _ _ opened _ ih =>
    have hle := ((submoduleSection opened).reaches s).nextNode
    exact ih (hlo.trans hle) (hsub.mono hle)
  | case4 sec sub s t _ _ _ _ r _ ih =>
    have hle := ((submoduleMember sec sub).reaches s).nextNode
    exact ih (hlo.trans hle) (submoduleMember_numbers sec sub lo s hlo hsub)
  | case5 sec sub s t _ _ _ _ r _ ih =>
    have hle := ((submoduleMember sec sub).reaches s).nextNode
    have hpass := ((passOver "a member").reaches r.2).nextNode
    exact ih (hlo.trans (hle.trans hpass)) ((submoduleMember_numbers sec sub lo s hlo hsub).mono hpass)

theorem submoduleBody_numbers (sub : Submodule) : Numbers (numbers sub) (submoduleBody sub) :=
  fun lo s hlo hsub => submoduleBodyFrom_numbers .parameters sub lo s hlo hsub

/-- A submodule keeps the number that it was given at its name. -/
theorem submoduleFromType_numbers (start : Nat) (node : NodeId) (name : String)
    (vectorSize : Option String) :
    Numbers {node} (submoduleFromType start node name vectorSize) := by
  refine .skip fun lt => .ite_skip fun like => .bind (typeRef_numbers _) fun type => ?_
  cases type with
  | none => exact .skip fun _ => .none
  | some type =>
    refine .skip fun cond => .when_skip (.skip fun brace => ?_)
    have hend : ∀ sub : Submodule, Numbers (numbers sub)
        (do return some { sub with span := ← spanFrom start }) :=
      fun sub => .skip fun span => .pure (by simp)
    set sub : Submodule := { node, name, vectorSize, type, like, params := [], gates := [],
                             properties := [], span := {} } with hsub
    have hused : numbers (some type) + {node} = numbers sub := by
      simp only [hsub, numbers_some, Submodule.numbers_eq, numbers_nil]
      abel
    rw [hused]
    split
    · exact .thread (submoduleBody_numbers sub) fun sub => .skip fun _ => .skip fun _ =>
        .thread (.pure le_rfl) hend
    · exact .skip fun _ => .thread (.pure le_rfl) hend

theorem submodule_numbers : Numbers 0 submodule := by
  refine .skip fun stray => ?_
  split
  · exact .skip fun _ => .none
  · refine .skip fun start => .newNode_bind fun node => .skip fun name => ?_
    cases name with
    | none => exact .skip fun _ => .none
    | some name =>
      have hend : ∀ vectorSize, Numbers ({node} + 0) (do
          if ← expect (.mark .colon) "':'" then submoduleFromType start node name vectorSize
          else
            skipStatement
            return none) := fun vectorSize => .skip fun colon => by
        split
        · exact submoduleFromType_numbers start node name vectorSize
        · exact .skip fun _ => .none
      refine .skip fun bracket => ?_
      dsimp only
      split
      · exact .skip fun size => .skip fun vectorSize => hend vectorSize
      · exact .skip fun vectorSize => hend vectorSize

/-! ### Connections -/

/-- The specification of a channel gets new numbers. -/
theorem channelSpec_numbers : Numbers 0 channelSpec := by
  refine .skip fun start => .newNode_bind fun node => .skip fun label =>
    .when (.skip fun lt => .ite_skip fun like => .skip fun named => ?_)
      fun h => .skip fun _ => .skip fun _ => h
  refine .ite_bind (typeRef_numbers _) (.pure le_rfl) fun type => .skip fun brace =>
    .when_skip (.when_skip (.skip fun span => .pure ?_))
  simp only [ChannelSpec.numbers_eq]
  exact le_of_eq (by abel)

theorem channelBetween_numbers : Numbers 0 channelBetween := by
  refine .skip fun ahead => ?_
  split
  · refine .bind channelSpec_numbers fun channel => .skip fun arrow => ?_
    cases arrow with
    | none => exact .none
    | some k => exact .pure (by simp)
  · exact .pure le_rfl

theorem giveUp_numbers [Stamped α] {used : Multiset NodeId} :
    Numbers used (giveUp : Parser (Option α)) :=
  .skip fun _ => .none

/-- Turning a connection around leaves its numbers. -/
theorem numbers_orient (node : NodeId) (left : GateRef) (k : Kind) (right : GateRef)
    (channel : Option ChannelSpec) (span : Span) :
    numbers (orient node left k right channel span) = {node} + numbers channel := by
  unfold orient
  split_ifs <;> rfl

/-- A connection gets new numbers. -/
theorem connection_numbers : Numbers 0 connection := by
  refine .skip fun start => .newNode_bind fun node => .skip fun left => ?_
  cases left with
  | none => exact giveUp_numbers
  | some left =>
    refine .skip fun k => ?_
    cases k with
    | none => exact giveUp_numbers
    | some k =>
      refine .bind channelBetween_numbers fun channel => ?_
      cases channel with
      | none => exact .none
      | some channel =>
        refine .skip fun right => ?_
        cases right with
        | none => exact giveUp_numbers
        | some right =>
          refine .skip fun _ => .skip fun span => .pure ?_
          rw [numbers_some, numbers_orient, numbers_some]
          exact le_of_eq (by abel)

theorem plainLink_numbers : Numbers 0 plainLink := by
  refine .skip fun next => ?_
  split
  · exact .skip fun _ => .pure le_rfl
  · exact .bind connection_numbers fun c => .pure (by simp)
  · exact .skip fun _ => .skip fun _ => .pure le_rfl

mutual

/-- Connections get numbers one after the other, loops around them or not. -/
theorem linkFrom_numbers (s : Cursor) :
    GivenOut s.nextNode (linkFrom s).2.nextNode (numbers (linkFrom s).1) := by
  rw [linkFrom]
  split
  · dsimp only
    split
    · have hhead := (loopHead.reaches s).nextNode
      have hopen := (Cursor.reaches_next (loopHead.run s).2).nextNode
      have hbody := linksFrom_numbers (loopHead.run s).2.next
      have hend := (loopEnd.reaches (linksFrom (loopHead.run s).2.next).2).nextNode
      exact ⟨hbody.1, fun n hn => ⟨(hhead.trans hopen).trans (hbody.2 n hn).1,
        (hbody.2 n hn).2.trans_le hend⟩⟩
    · exact .zero _ _
  · exact plainLink_numbers s.nextNode s le_rfl (.zero _ _)
termination_by (s.rest.length, 0)
decreasing_by
  rename_i h
  exact Prod.Lex.left _ _ (Nat.lt_of_lt_of_le
    (Cursor.length_next_lt (Cursor.rest_ne_nil_of_kind? h)) (loopHead.reaches s).length_le)

theorem linksFrom_numbers (s : Cursor) :
    GivenOut s.nextNode (linksFrom s).2.nextNode (numbers (linksFrom s).1) := by
  rw [linksFrom]
  split
  · exact .zero _ _
  · dsimp only
    split
    · have hmore := linksFrom_numbers (linkFrom s).2
      rw [numbers_append, add_comm]
      exact (linkFrom_numbers s).add hmore (reaches_linkFrom s).nextNode
        (reaches_linksFrom _).nextNode
    · exact linkFrom_numbers s
termination_by (s.rest.length, 1)

end

theorem link_numbers : Numbers 0 link :=
  .of_run linkFrom_numbers

/-! ### Declarations and files -/

/-- The head of a type gets new numbers. -/
theorem typeHead_numbers : Numbers 0 typeHead := by
  refine .skip fun word => .skip fun _ => .newNode_bind fun node => .skip fun name => ?_
  cases name with
  | none => exact giveUp_numbers
  | some name =>
    refine .skip fun extended => .ite_bind typeRefs_numbers (.pure le_rfl) fun bases =>
      .skip fun like => .ite_bind typeRefs_numbers (.pure le_rfl) fun interfaces =>
        .bind properties_numbers fun properties => .pure ?_
    simp only [numbers_some, TypeDecl.numbers_eq, numbers_nil]
    exact le_of_eq (by abel)

/-- A member of a type gets new numbers, and those given out before stay. -/
theorem plainMember_numbers (sec : BodySection) (t : TypeDecl) :
    Numbers (numbers t) (plainMember sec t) := by
  have hproperty : Numbers (numbers t) (do
      return { t with properties := t.properties ++ (← propertyStatement).toList }) := by
    refine .bind propertyStatement_numbers fun property => .pure ?_
    simp only [TypeDecl.numbers_eq, numbers_append, numbers_toList]
    exact le_of_eq (by abel)
  cases sec with
  | parameters =>
    refine .skip fun stray => ?_
    split
    · exact hproperty
    · refine .bind param_numbers fun param => .pure ?_
      simp only [TypeDecl.numbers_eq, numbers_append, numbers_toList]
      exact le_of_eq (by abel)
  | gates =>
    refine .bind gate_numbers fun gate => .pure ?_
    simp only [TypeDecl.numbers_eq, numbers_append, numbers_toList]
    exact le_of_eq (by abel)
  | types =>
    refine .skip fun stray => ?_
    split
    · exact hproperty
    · exact .skip fun _ => .skip fun _ => .pure le_rfl
  | submodules =>
    refine .bind submodule_numbers fun submodule => .pure ?_
    simp only [TypeDecl.numbers_eq, numbers_append, numbers_toList]
    exact le_of_eq (by abel)
  | connections =>
    refine .bind link_numbers fun connections => .pure ?_
    simp only [TypeDecl.numbers_eq, numbers_append]
    exact le_of_eq (by abel)

theorem typeSection_numbers (opened : BodySection) (t : TypeDecl) :
    Numbers (numbers t) (typeSection opened t) :=
  .skip fun _ => .skip fun allow => .pure (by simp only [TypeDecl.numbers_eq, le_refl])

mutual

/-- A type gets new numbers, with all that is inside of it. -/
theorem typeDeclFrom_numbers (s : Cursor) :
    GivenOut s.nextNode (typeDeclFrom s).2.nextNode (numbers (typeDeclFrom s).1) := by
  have hhead := typeHead_numbers s.nextNode s le_rfl (.zero _ _)
  have hle := (typeHead.reaches s).nextNode
  rw [typeDeclFrom]
  dsimp only
  split
  · exact .zero _ _
  · rename_i head heq
    rw [heq, numbers_some] at hhead
    split
    · have hopen := (Cursor.reaches_next (typeHead.run s).2).nextNode
      have hbody := typeBodyFrom_numbers .parameters head s.nextNode (typeHead.run s).2.next
        (hle.trans hopen) (hhead.mono hopen)
      have hend := (bodyEnd.reaches
        (typeBodyFrom .parameters head (typeHead.run s).2.next).2).nextNode
      simp only [numbers_some, TypeDecl.numbers_eq] at hbody ⊢
      exact hbody.mono hend
    · have hend := (bodiless.reaches (typeHead.run s).2).nextNode
      simp only [numbers_some, TypeDecl.numbers_eq] at hhead ⊢
      exact hhead.mono hend
termination_by (s.rest.length, 0)
decreasing_by
  rename_i h
  exact Prod.Lex.left _ _ (Nat.lt_of_lt_of_le
    (Cursor.length_next_lt (Cursor.rest_ne_nil_of_kind? h)) (typeHead.reaches s).length_le)

/-- The members of a body get numbers one after the other. -/
theorem typeBodyFrom_numbers (sec : BodySection) (t : TypeDecl) (lo : NodeId) (s : Cursor)
    (hlo : lo ≤ s.nextNode) (ht : GivenOut lo s.nextNode (numbers t)) :
    GivenOut lo (typeBodyFrom sec t s).2.nextNode (numbers (typeBodyFrom sec t s).1) := by
  rw [typeBodyFrom]
  split
  · exact ht
  · rename_i token rest hs
    have hne : s.rest ≠ [] := by simp [hs]
    split
    · exact ht
    · split
      · rename_i opened _
        exact typeBodyFrom_numbers _ _ lo _ (hlo.trans ((typeSection opened t).reaches s).nextNode)
          (typeSection_numbers opened t lo s hlo ht)
      · split
        · have hdecl := typeDeclFrom_numbers s
          have hle := (reaches_typeDeclFrom s).nextNode
          have hmore : GivenOut lo (typeDeclFrom s).2.nextNode
              (numbers { t with types := t.types ++ (typeDeclFrom s).1.toList }) := by
            refine (ht.add hdecl hlo hle).of_le ?_
            simp only [TypeDecl.numbers_eq, numbers_append, numbers_toList]
            exact le_of_eq (by abel)
          dsimp only
          split
          · exact typeBodyFrom_numbers _ _ lo _ (hlo.trans hle) hmore
          · exact hmore
        · have hmember := plainMember_numbers sec t lo s hlo ht
          have hle := ((plainMember sec t).reaches s).nextNode
          dsimp only
          split
          · exact typeBodyFrom_numbers _ _ lo _ (hlo.trans hle) hmember
          · have hpass := ((passOver "a member declaration").reaches
              ((plainMember sec t).run s).2).nextNode
            exact typeBodyFrom_numbers _ _ lo _ (hlo.trans (hle.trans hpass)) (hmember.mono hpass)
termination_by (s.rest.length, 1)
decreasing_by
  · exact Prod.Lex.left _ _ (length_run_skipOne_bind_lt _ hne)
  · exact Prod.Lex.left _ _ (length_run_passOver_lt _ hne ((plainMember sec t).reaches s))
  · exact Prod.Lex.left _ _ (by assumption)
  · exact Prod.Lex.right _ Nat.zero_lt_one
  · exact Prod.Lex.left _ _ (by assumption)

end

theorem typeDecl_numbers : Numbers 0 typeDecl :=
  .of_run typeDeclFrom_numbers

/-- The declaration of a package gets a new number. -/
theorem packageDecl_numbers : Numbers 0 packageDecl := by
  refine .skip fun start => .skip fun _ => .newNode_bind fun node => .skip fun name => ?_
  cases name with
  | none => exact giveUp_numbers
  | some name => exact .skip fun _ => .skip fun span => .pure (by simp)

/-- An import gets a new number. -/
theorem importDecl_numbers : Numbers 0 importDecl := by
  refine .skip fun start => .skip fun _ => .newNode_bind fun node => .skip fun tokens => ?_
  cases tokens with
  | nil => exact .skip fun _ => giveUp_numbers
  | cons t ts => exact .skip fun _ => .skip fun span => .pure (by simp)

/-- `Numbers`, for a parser that goes on with the tree read so far. -/
def Collects (used : Multiset NodeId) (p : Parser Tree) : Prop :=
  ∀ lo s, lo ≤ s.nextNode → GivenOut lo s.nextNode used →
    GivenOut lo (p.run s).2.nextNode (p.run s).1.numbers

theorem Collects.pure (t : Tree) : Collects t.numbers (Pure.pure t) :=
  fun _ _ _ hs => hs

/-- What is given no place in the tree may be read in between. -/
theorem Collects.skip {used : Multiset NodeId} {p : Parser β} {f : β → Parser Tree}
    (hf : ∀ b, Collects used (f b)) : Collects used (p >>= f) := by
  intro lo s hlo hs
  have hle := (p.reaches s).nextNode
  exact hf (p.run s).1 lo (p.run s).2 (hlo.trans hle) (hs.mono hle)

/-- An item goes into the tree. -/
theorem Collects.item [Stamped β] {used : Multiset NodeId} {p : Parser β} {f : β → Tree}
    (hp : Numbers 0 p) (hf : ∀ b, (f b).numbers = numbers b + used) :
    Collects used (p >>= fun b => Pure.pure (f b)) := by
  intro lo s hlo hs
  have hitem := hp s.nextNode s le_rfl (.zero _ _)
  exact (hs.add hitem hlo (p.reaches s).nextNode).of_le (le_of_eq (hf _))

/-- An item of a file gets new numbers, and those given out before stay. -/
theorem fileItem_numbers (k : Kind) (tree : Tree) : Collects tree.numbers (fileItem k tree) := by
  unfold fileItem
  split
  · cases hpackage : tree.package with
    | some package => exact .skip fun _ => .skip fun _ => .pure tree
    | none =>
      refine .item packageDecl_numbers fun package => ?_
      simp only [Tree.numbers_eq, hpackage, numbers_none]
      abel
  · split
    · refine .item importDecl_numbers fun found => ?_
      simp only [Tree.numbers_eq, numbers_append, numbers_toList]
      abel
    · split
      · refine .item propertyStatement_numbers fun found => ?_
        simp only [Tree.numbers_eq, numbers_append, numbers_toList]
        abel
      · split
        · exact .skip fun _ => .pure tree
        · split
          · refine .item typeDecl_numbers fun found => ?_
            simp only [Tree.numbers_eq, numbers_append, numbers_toList]
            abel
          · exact .skip fun _ => .skip fun _ => .pure tree

/-- The items of a file get numbers one after the other. -/
theorem fileFrom_numbers (tree : Tree) (s : Cursor) {lo : NodeId} (hlo : lo ≤ s.nextNode)
    (h : GivenOut lo s.nextNode tree.numbers) :
    GivenOut lo (fileFrom tree s).2.nextNode (fileFrom tree s).1.numbers := by
  fun_induction fileFrom tree s with
  | case1 => exact h
  | case2 tree s token _ _ r _ ih =>
    exact ih (hlo.trans ((fileItem token.kind tree).reaches s).nextNode)
      (fileItem_numbers token.kind tree lo s hlo h)
  | case3 tree s token _ _ r _ => exact fileItem_numbers token.kind tree lo s hlo h

end Parser

/-- **Every node of a text that is read gets a number of its own.** The numbers start at 1 and stay
below the next one to give out; mistakes in the text make no difference. -/
theorem Parse.numbered (text : String) :
    GivenOut 1 (Parse.ofText text).tree.nextNode (Parse.ofText text).tree.numbers :=
  Parser.fileFrom_numbers {} (Cursor.ofText text) le_rfl (.zero _ _)

end NedWorkspace
