/-
# Findings are about nodes that are there

Whatever is remembered, what is found in a type is about nodes of its declaration
(`Check.about_ownType`): the references, members, submodules and connections that were looked at, or the
declaration itself. None of it says that a type is defined twice, which is found by comparing files, and
only the comparison with interfaces says that something required is missing. One lemma for each check, in
the order of the checks.

The lemmas also say what checking leaves of a property of memories: it stays if lookups and questions for
members keep it (`Model.Steady`).
-/

import NedWorkspace.Check.File
import NedWorkspace.Proofs.Definition.Build

namespace NedWorkspace

/-- From a memory with one property the question gives an answer with another, and what is remembered then
has the first again. -/
def Query.Gives {α : Type} (I : Memory → Prop) (P : α → Prop) (q : Query α) : Prop :=
  ∀ memory, I memory → I (q memory).2 ∧ P (q memory).1

namespace Query.Gives

variable {I : Memory → Prop} {α β : Type} {P : α → Prop} {Q : β → Prop}

/-- An answer at hand is given whatever the memory. -/
theorem pure {a : α} (h : P a) : Gives I P (Pure.pure a : Query α) :=
  fun _ hmemory => ⟨hmemory, h⟩

/-- Queries in a row: the second may rely on what the first one gives. -/
theorem bind {q : Query α} {f : α → Query β} (hq : Gives I P q) (hf : ∀ a, P a → Gives I Q (f a)) :
    Gives I Q (q >>= f) := by
  intro memory hmemory
  obtain ⟨hnext, hanswer⟩ := hq memory hmemory
  exact hf _ hanswer _ hnext

/-- What a query gives may be said in weaker words. -/
theorem imp {R : α → Prop} {q : Query α} (hq : Gives I P q) (h : ∀ a, P a → R a) : Gives I R q :=
  fun memory hmemory => ⟨(hq memory hmemory).1, h _ (hq memory hmemory).2⟩

/-- Two ways of asking, and one way to go on. -/
theorem ite_bind {c : Prop} [Decidable c] {x y : Query α} {f : α → Query β} (hx : c → Gives I P x)
    (hy : ¬c → Gives I P y) (hf : ∀ a, P a → Gives I Q (f a)) :
    Gives I Q (if c then x >>= f else y >>= f) := by
  split
  · rename_i hc
    exact .bind (hx hc) hf
  · rename_i hc
    exact .bind (hy hc) hf

end Query.Gives

/-- Lookups, and questions for the members of certain types, keep a property of memories, and whatever names
lead to is such a type. -/
structure Model.Steady (m : Model) (I : Memory → Prop) (H : Definition → Prop) : Prop where
  lookup : ∀ name context, Query.Gives I (fun found => ∀ t, found = some t → H t) (m.lookup name context)
  members : ∀ d, H d → Query.Gives I (fun _ => True) (m.members d)
  named : ∀ qname project i, m.innerOrToplevel? qname project = some i → H i

/-- Nothing is asked of memories or of types. -/
theorem Model.steady_true (m : Model) : m.Steady (fun _ => True) fun _ => True where
  lookup _ _ _ _ := ⟨trivial, fun _ _ => trivial⟩
  members _ _ _ _ := ⟨trivial, trivial⟩
  named _ _ _ _ := trivial

namespace Problem

/-- Something that an interface requires is missing. -/
def isMissing : Problem → Bool
  | missingParam .. | missingGate .. => true
  | _ => false

/-- The code says that something required is missing. -/
theorem code_eq_iff {p : Problem} : p.code = "E0005" ↔ p.isMissing = true := by
  cases p <;> simp [code, isMissing]

/-- What may be found in one file; definitions of one name are found by comparing files. -/
def Local (p : Problem) : Prop :=
  p.kind ≠ .duplicateDefinition

/-- What may be found without a look at what interfaces require. -/
structure Plain (p : Problem) : Prop where
  kind : p.Local
  isMissing : p.isMissing = false

end Problem

namespace TypeDecl

/-- The numbers of the nodes of a declaration. -/
def ids (x : TypeDecl) : List NodeId :=
  x.nodes.map NodeSpan.node

variable {x t : TypeDecl}

theorem node_mem_ids (x : TypeDecl) : x.node ∈ x.ids :=
  List.mem_map_of_mem (f := NodeSpan.node) x.node_mem_nodes

/-- An inner type has its nodes among those of the type around it. -/
theorem ids_subset_of_mem (h : t ∈ x.types) : t.ids ⊆ x.ids :=
  List.map_subset _ (nodes_subset_of_mem h)

/-- Nodes that stand before the inner types are nodes of the declaration. -/
theorem mem_ids_of_before {n : NodeSpan} (h : n ∈ x.nodesBefore) : n.node ∈ x.ids := by
  obtain ⟨own, types⟩ := x
  rw [ids, nodes_mk]
  exact List.mem_map_of_mem (List.mem_append_left _ h)

/-- Nodes that stand after the inner types are nodes of the declaration. -/
theorem mem_ids_of_after {n : NodeSpan} (h : n ∈ x.nodesAfter) : n.node ∈ x.ids := by
  obtain ⟨own, types⟩ := x
  rw [ids, nodes_mk]
  exact List.mem_map_of_mem (List.mem_append_right _ (List.mem_append_right _ h))

theorem base_mem_ids {r : TypeRef} (h : r ∈ x.bases) : r.node ∈ x.ids := by
  refine mem_ids_of_before (n := r.nodeSpan) ?_
  have hmem : r.nodeSpan ∈ x.bases.map TypeRef.nodeSpan := List.mem_map_of_mem h
  simp [TypeDetails.nodesBefore, hmem]

theorem interface_mem_ids {r : TypeRef} (h : r ∈ x.interfaces) : r.node ∈ x.ids := by
  refine mem_ids_of_before (n := r.nodeSpan) ?_
  have hmem : r.nodeSpan ∈ x.interfaces.map TypeRef.nodeSpan := List.mem_map_of_mem h
  simp [TypeDetails.nodesBefore, hmem]

theorem param_mem_ids {p : Param} (h : p ∈ x.params) : p.node ∈ x.ids := by
  refine mem_ids_of_before (n := ⟨p.node, p.span⟩) ?_
  have hmem : ⟨p.node, p.span⟩ ∈ x.params.flatMap Param.nodes :=
    List.mem_flatMap.mpr ⟨p, h, List.mem_cons_self⟩
  simp [TypeDetails.nodesBefore, hmem]

theorem gate_mem_ids {g : Gate} (h : g ∈ x.gates) : g.node ∈ x.ids := by
  refine mem_ids_of_before (n := ⟨g.node, g.span⟩) ?_
  have hmem : ⟨g.node, g.span⟩ ∈ x.gates.flatMap Gate.nodes :=
    List.mem_flatMap.mpr ⟨g, h, List.mem_cons_self⟩
  simp [TypeDetails.nodesBefore, hmem]

/-- The nodes of a submodule are nodes of the type that contains it. -/
theorem mem_ids_of_submodule {s : Submodule} (h : s ∈ x.submodules) {n : NodeSpan}
    (hn : n ∈ s.nodes) : n.node ∈ x.ids :=
  mem_ids_of_after (List.mem_append_left _ (List.mem_flatMap.mpr ⟨s, h, hn⟩))

/-- The nodes of a connection are nodes of the type that contains it. -/
theorem mem_ids_of_connection {c : Connection} (h : c ∈ x.connections) {n : NodeSpan}
    (hn : n ∈ c.nodes) : n.node ∈ x.ids :=
  mem_ids_of_after (List.mem_append_right _ (List.mem_flatMap.mpr ⟨c, h, hn⟩))

end TypeDecl

namespace Submodule

variable (s : Submodule)

theorem type_mem_nodes : s.type.nodeSpan ∈ s.nodes :=
  List.mem_cons_of_mem _ List.mem_cons_self

theorem param_mem_nodes {p : Param} (h : p ∈ s.params) : ⟨p.node, p.span⟩ ∈ s.nodes := by
  have hmem : ⟨p.node, p.span⟩ ∈ s.params.flatMap Param.nodes :=
    List.mem_flatMap.mpr ⟨p, h, List.mem_cons_self⟩
  simp [nodes, hmem]

theorem gate_mem_nodes {g : Gate} (h : g ∈ s.gates) : ⟨g.node, g.span⟩ ∈ s.nodes := by
  have hmem : ⟨g.node, g.span⟩ ∈ s.gates.flatMap Gate.nodes :=
    List.mem_flatMap.mpr ⟨g, h, List.mem_cons_self⟩
  simp [nodes, hmem]

end Submodule

/-- The type that a channel names is a node of the connection. -/
theorem Connection.type_mem_nodes {c : Connection} {spec : ChannelSpec} {r : TypeRef}
    (hc : c.channel = some spec) (hr : spec.type = some r) : r.nodeSpan ∈ c.nodes := by
  simp [Connection.nodes, hc, ChannelSpec.nodes, hr]

namespace Check

open Query

/-- The finding has a problem of some sort with a node among the given ones, or with no node. -/
structure Fits (sort : Problem → Prop) (ids : List NodeId) (x : Finding) : Prop where
  node : ∀ n, x.node = some n → n ∈ ids
  problem : sort x.problem

/-- The findings are about nodes among the given ones, or about no node, and their problems are of some
sort. -/
def About (sort : Problem → Prop) (ids : List NodeId) (found : List Finding) : Prop :=
  ∀ x ∈ found, Fits sort ids x

variable {sort : Problem → Prop} {ids : List NodeId} {n : NodeId} {m : Model} {d : Definition}
  {I : Memory → Prop} {H : Definition → Prop}

theorem about_nil : About sort ids [] :=
  fun _ hx => absurd hx List.not_mem_nil

/-- A finding at one of the nodes is about them. -/
theorem about_finding (h : n ∈ ids) {problem : Problem} (hsort : sort problem) :
    About sort ids (finding n problem) := by
  intro x hx
  obtain rfl := List.mem_singleton.mp hx
  exact ⟨fun _ hk => Option.some.inj hk ▸ h, hsort⟩

/-- A finding that depends on a condition is about its node, told or not. -/
theorem about_findingIf (condition : Bool) (h : n ∈ ids) {problem : Problem} (hsort : sort problem) :
    About sort ids (findingIf condition n problem) := by
  unfold findingIf
  split
  · exact about_finding h hsort
  · exact about_nil

/-- Findings in a row are about whatever both parts are about. -/
theorem About.append {found more : List Finding} (h : About sort ids found) (hmore : About sort ids more) :
    About sort ids (found ++ more) := by
  intro x hx
  rcases List.mem_append.mp hx with hx | hx
  · exact h x hx
  · exact hmore x hx

/-- Findings gathered from a list are about the nodes if those of each element are. -/
theorem about_flatMap {α : Type} {f : α → List Finding} {as : List α}
    (h : ∀ a ∈ as, About sort ids (f a)) : About sort ids (as.flatMap f) := by
  intro x hx
  obtain ⟨a, ha, hx⟩ := List.mem_flatMap.mp hx
  exact h a ha x hx

/-- Findings about some nodes are about any list that has these. -/
theorem About.mono {ids' : List NodeId} {found : List Finding} (h : About sort ids found)
    (hids : ids ⊆ ids') : About sort ids' found :=
  fun x hx => ⟨fun n hn => hids ((h x hx).node n hn), (h x hx).problem⟩

/-- Plain findings need no node outside of the file. -/
theorem About.local {found : List Finding} (h : About Problem.Plain ids found) :
    About Problem.Local ids found :=
  fun x hx => ⟨(h x hx).node, (h x hx).problem.kind⟩

/-- What is found of a list is what is found of its elements. -/
theorem gives_collect {α : Type} {P : α → List Finding → Prop} {f : α → Query (List Finding)}
    {as : List α} (h : ∀ a ∈ as, Gives I (P a) (f a)) :
    Gives I (fun found => (∀ a ∈ as, ∃ part, P a part ∧ part ⊆ found) ∧
      ∀ x ∈ found, ∃ a ∈ as, ∃ part, P a part ∧ x ∈ part) (collect f as) := by
  induction as with
  | nil => exact .pure ⟨by simp, by simp⟩
  | cons a as ih =>
    refine .bind (h a List.mem_cons_self) fun here hhere => ?_
    refine .bind (ih fun b hb => h b (List.mem_cons_of_mem a hb)) fun more ⟨hall, hmore⟩ =>
      .pure ⟨fun b hb => ?_, fun x hx => ?_⟩
    · rcases List.mem_cons.mp hb with rfl | hb
      · exact ⟨here, hhere, List.subset_append_left here more⟩
      · obtain ⟨part, hpart, hsubset⟩ := hall b hb
        exact ⟨part, hpart, List.subset_append_of_subset_right here hsubset⟩
    · rcases List.mem_append.mp hx with hx | hx
      · exact ⟨a, List.mem_cons_self, here, hhere, hx⟩
      · obtain ⟨b, hb, hpart⟩ := hmore x hx
        exact ⟨b, List.mem_cons_of_mem a hb, hpart⟩

/-- Findings gathered by queries are about the nodes if each query's are. -/
theorem about_collect {α : Type} {f : α → Query (List Finding)} {as : List α}
    (h : ∀ a ∈ as, Gives I (About sort ids) (f a)) : Gives I (About sort ids) (collect f as) := by
  refine (gives_collect h).imp fun found ⟨_, hfound⟩ x hx => ?_
  obtain ⟨_, _, part, hpart, hx⟩ := hfound x hx
  exact hpart x hx

/-! ### References -/

/-- The package is told to be wrong at the node that declares it. -/
theorem about_package (tree : Tree) (expected : Option String) :
    About Problem.Plain tree.ids (package tree expected) := by
  unfold package
  dsimp only
  split
  · exact about_nil
  · split
    · exact about_nil
    · intro x hx
      obtain rfl := List.mem_singleton.mp hx
      refine ⟨fun k hk => ?_, ⟨nofun, rfl⟩⟩
      obtain ⟨decl, hdecl, rfl⟩ := Option.map_eq_some_iff.mp hk
      exact List.mem_map.mpr ⟨⟨decl.node, decl.span⟩, by simp [Tree.nodes, hdecl], rfl⟩

/-- What is told of a name in the text is told at its node. -/
theorem about_reference (hm : m.Steady I H) {r : TypeRef} (h : r.node ∈ ids) {f : Definition → List Finding}
    (hf : ∀ t, About Problem.Plain ids (f t)) : Gives I (About Problem.Plain ids) (reference m d r f) := by
  refine .bind (hm.lookup r.name d.context) fun found _ => ?_
  cases found with
  | none => exact .pure (about_finding h ⟨nofun, rfl⟩)
  | some t => exact .pure (hf t)

theorem about_bases (hm : m.Steady I H) : Gives I (About Problem.Plain d.decl.ids) (bases m d) := by
  have hwrong : Gives I (About Problem.Plain d.decl.ids) (collect (fun r => reference m d r fun base =>
      findingIf (!mayExtend d.kind base.kind) r.node
        (.wrongBase d.kind d.name base.kind base.qname)) d.decl.bases) :=
    about_collect fun r hr => about_reference hm (TypeDecl.base_mem_ids hr) fun _ =>
      about_findingIf _ (TypeDecl.base_mem_ids hr) ⟨nofun, rfl⟩
  refine .bind hwrong fun wrong hwrong => .pure (About.append ?_ hwrong)
  split
  · rename_i second more hbases
    exact about_findingIf _ (TypeDecl.base_mem_ids (by simp [hbases])) ⟨nofun, rfl⟩
  · exact about_nil

theorem about_interfaces (hm : m.Steady I H) : Gives I (About Problem.Plain d.decl.ids) (interfaces m d) := by
  unfold interfaces
  split
  · rename_i first more _ hrefs
    exact .pure (about_finding (TypeDecl.interface_mem_ids (by simp [hrefs])) ⟨nofun, rfl⟩)
  · exact about_collect fun r hr => about_reference hm (TypeDecl.interface_mem_ids hr) fun _ =>
      about_findingIf _ (TypeDecl.interface_mem_ids hr) ⟨nofun, rfl⟩

/-! ### What interfaces require -/

theorem about_requiredParam (h : n ∈ ids) (own : Members) (interface : String) (p : InheritedParam) :
    About Problem.Local ids (requiredParam n own interface p) := by
  unfold requiredParam
  split
  · exact about_finding h nofun
  · exact about_findingIf _ h nofun

theorem about_requiredGate (h : n ∈ ids) (own : Members) (interface : String) (g : InheritedGate) :
    About Problem.Local ids (requiredGate n own interface g) := by
  unfold requiredGate
  split
  · exact about_finding h nofun
  · exact about_findingIf _ h nofun

/-- Missing members are told at the type that lacks them, or at nodes of the same file. -/
theorem about_conformance (hm : m.Steady I H) (h : d.key.node ∈ ids) (own : Members) :
    Gives I (About Problem.Local ids) (conformance m d own) := by
  have hconforms : ∀ project interface,
      Gives I (About Problem.Local ids) (conformsTo m project d own interface) := by
    intro project interface
    unfold conformsTo
    split
    · exact .pure about_nil
    · rename_i i hfound
      have hi := hm.named _ _ i (Option.filter_eq_some_iff.mp hfound).1
      refine .bind (hm.members i hi) fun required _ => .pure ?_
      exact (about_flatMap fun p _ => about_requiredParam h own interface p).append
        (about_flatMap fun g _ => about_requiredGate h own interface g)
  unfold conformance
  split
  · exact .pure about_nil
  · split
    · exact .pure about_nil
    · exact about_collect fun interface _ => hconforms _ interface

/-! ### Members -/

theorem about_params (qname : String) (all : Members) (seen : List String) {ps : List Param}
    (h : ∀ p ∈ ps, p.node ∈ ids) : About Problem.Plain ids (params qname all seen ps) := by
  induction ps generalizing seen with
  | nil => exact about_nil
  | cons p ps ih =>
    have hp := h p List.mem_cons_self
    have hmore := fun seen => ih seen fun q hq => h q (List.mem_cons_of_mem p hq)
    rw [params]
    split
    · refine About.append ?_ (hmore _)
      split
      · exact about_finding hp ⟨nofun, rfl⟩
      · split
        · exact about_findingIf _ hp ⟨nofun, rfl⟩
        · exact about_nil
    · exact .append (about_findingIf _ hp ⟨nofun, rfl⟩) (hmore _)

theorem about_gates (qname : String) (all : Members) (seen : List String) {gs : List Gate}
    (h : ∀ g ∈ gs, g.node ∈ ids) : About Problem.Plain ids (gates qname all seen gs) := by
  induction gs generalizing seen with
  | nil => exact about_nil
  | cons g gs ih =>
    have hg := h g List.mem_cons_self
    have hmore := fun seen => ih seen fun k hk => h k (List.mem_cons_of_mem g hk)
    rw [gates]
    split
    · refine About.append ?_ (hmore _)
      split
      · exact about_finding hg ⟨nofun, rfl⟩
      · split
        · exact about_findingIf _ hg ⟨nofun, rfl⟩
        · exact about_nil
    · refine About.append ?_ (hmore _)
      split
      · exact about_finding hg ⟨nofun, rfl⟩
      · exact about_findingIf _ hg ⟨nofun, rfl⟩

/-- Repetitions are told at the nodes that repeat. -/
theorem about_repeated {problem : String → Problem} (seen : List String)
    {nodes : List (String × NodeId)} (h : ∀ e ∈ nodes, e.2 ∈ ids)
    (hplain : ∀ name, (problem name).Plain) :
    About Problem.Plain ids (repeated problem seen nodes) := by
  induction nodes generalizing seen with
  | nil => exact about_nil
  | cons e nodes ih =>
    exact (about_findingIf _ (h e List.mem_cons_self) (hplain _)).append
      (ih _ fun e' he' => h e' (List.mem_cons_of_mem e he'))

/-- Findings about the members of a type are at nodes of its declaration. -/
theorem about_ownMembers (all : Members) : About Problem.Plain d.decl.ids (ownMembers d all) := by
  have hsubmodules : ∀ e ∈ d.decl.submodules.map fun s => (s.name, s.node), e.2 ∈ d.decl.ids := by
    intro e he
    obtain ⟨s, hs, rfl⟩ := List.mem_map.mp he
    exact TypeDecl.mem_ids_of_submodule hs (n := ⟨s.node, s.span⟩) List.mem_cons_self
  have htypes : ∀ e ∈ d.decl.types.map fun t => (t.name, t.node), e.2 ∈ d.decl.ids := by
    intro e he
    obtain ⟨t, ht, rfl⟩ := List.mem_map.mp he
    exact TypeDecl.ids_subset_of_mem ht t.node_mem_ids
  refine .append (.append (.append ?_ ?_) ?_) ?_
  · exact about_params _ _ _ fun _ hp => TypeDecl.param_mem_ids hp
  · exact about_gates _ _ _ fun _ hg => TypeDecl.gate_mem_ids hg
  · exact about_repeated _ hsubmodules fun _ => ⟨nofun, rfl⟩
  · exact about_repeated _ htypes fun _ => ⟨nofun, rfl⟩

/-! ### Submodules and connections -/

/-- Findings about a submodule are at its nodes. -/
theorem about_submodule (hm : m.Steady I H) {s : Submodule} (h : ∀ k ∈ s.nodes, k.node ∈ ids) :
    Gives I (About Problem.Plain ids) (submodule m d s) := by
  have htype : s.type.node ∈ ids := h _ s.type_mem_nodes
  refine .bind (hm.lookup s.type.name d.context) fun found hfound => ?_
  cases found with
  | none => exact .pure (about_finding htype ⟨nofun, rfl⟩)
  | some type =>
    dsimp only
    split
    · exact .pure (about_finding htype ⟨nofun, rfl⟩)
    · split
      · exact .pure (about_finding htype ⟨nofun, rfl⟩)
      · refine .bind (hm.members type (hfound type rfl)) fun all _ => .pure ((about_flatMap fun p hp => ?_).append
          (about_flatMap fun g hg => ?_))
        · unfold submoduleParam
          split
          · exact about_finding (h _ (s.param_mem_nodes hp)) ⟨nofun, rfl⟩
          · exact about_findingIf _ (h _ (s.param_mem_nodes hp)) ⟨nofun, rfl⟩
        · unfold submoduleGate
          split
          · exact about_finding (h _ (s.gate_mem_nodes hg)) ⟨nofun, rfl⟩
          · exact about_findingIf _ (h _ (s.gate_mem_nodes hg)) ⟨nofun, rfl⟩

/-- A gate used in the wrong way is told at the connection. -/
theorem about_gateUse (h : n ∈ ids) (role : Role) (r : GateRef) (g : Gate) :
    About Problem.Plain ids (gateUse n role r g) := by
  have hfacing : ∀ effective required, About Problem.Plain ids (facing n r.base effective required) := by
    intro effective required
    unfold facing
    split
    · exact about_nil
    · split
      · exact about_finding h ⟨nofun, rfl⟩
      · split
        · exact about_finding h ⟨nofun, rfl⟩
        · exact about_finding h ⟨nofun, rfl⟩
  unfold gateUse
  split
  · exact about_nil
  · split
    · exact about_finding h ⟨nofun, rfl⟩
    · exact .append (.append (hfacing _ _) (about_findingIf _ h ⟨nofun, rfl⟩)) (about_findingIf _ h ⟨nofun, rfl⟩)

/-- Whatever is wrong with one end of a connection is told at the connection. -/
theorem about_endpoint (hm : m.Steady I H) (h : n ∈ ids) (all : Members) (r : GateRef) (role : Role) :
    Gives I (About Problem.Plain ids) (endpoint m d all n r role) := by
  have hindex : ∀ name s, About Problem.Plain ids (submoduleIndex n name s r.moduleIndexed) := fun _ _ =>
    .append (about_findingIf _ h ⟨nofun, rfl⟩) (about_findingIf _ h ⟨nofun, rfl⟩)
  unfold endpoint
  split
  · split
    · exact .pure (about_gateUse h role r _)
    · exact .pure (about_finding h ⟨nofun, rfl⟩)
  · split
    · exact .pure (about_finding h ⟨nofun, rfl⟩)
    · rename_i s _
      refine .bind (hm.lookup s.type.name d.context) fun found hfound => ?_
      cases found with
      | none => exact .pure (hindex _ _)
      | some type =>
        refine .bind (hm.members type (hfound type rfl)) fun members _ => ?_
        cases members.gate? r.base with
        | none => exact .pure ((hindex _ _).append (about_finding h ⟨nofun, rfl⟩))
        | some g => exact .pure ((hindex _ _).append (about_gateUse h role r _))

/-- Findings about a connection are at its nodes. -/
theorem about_connection (hm : m.Steady I H) {c : Connection} (h : ∀ k ∈ c.nodes, k.node ∈ ids) (all : Members) :
    Gives I (About Problem.Plain ids) (connection m d all c) := by
  have hnode : c.node ∈ ids := h ⟨c.node, c.span⟩ List.mem_cons_self
  have hchannel : ∀ spec, c.channel = some spec → Gives I (About Problem.Plain ids) (channel m d spec) := by
    intro spec hspec
    unfold channel
    split
    · exact .pure about_nil
    · rename_i r hr
      have hr : r.node ∈ ids := h _ (Connection.type_mem_nodes hspec hr)
      refine about_reference hm hr fun type => ?_
      split
      · exact about_findingIf _ hr ⟨nofun, rfl⟩
      · exact about_findingIf _ hr ⟨nofun, rfl⟩
  unfold connection
  dsimp only
  refine .bind (about_endpoint hm hnode all _ _) fun src hsrc => ?_
  refine .bind (about_endpoint hm hnode all _ _) fun dest hdest => ?_
  have hlast : ∀ link, About Problem.Plain ids link →
      Gives I (About Problem.Plain ids) (pure (src ++ dest ++ link)) :=
    fun link hlink => .pure ((hsrc.append hdest).append hlink)
  cases hspec : c.channel with
  | none => exact .bind (.pure about_nil) hlast
  | some spec => exact .bind (hchannel spec hspec) hlast

/-! ### Types and files -/

/-- **Only the comparison with interfaces says that something required is missing.** What is found in a type
is what is found there between findings that do not say so, where a circle of supertypes takes the place of
the comparison. -/
theorem ownType_splits (hm : m.Steady I H) {R : Members → Prop} {P : List Finding → Prop}
    (hmembers : Gives I R (m.members d))
    (hcycle : ∀ all, R all → all.cycle = true → P (finding d.key.node (.inheritanceCycle d.qname)))
    (hconformance : ∀ all, R all → all.cycle = false → Gives I P (conformance m d all)) :
    Gives I (fun found => ∃ front here rest, found = front ++ here ++ rest ∧
      About Problem.Plain d.decl.ids front ∧ P here ∧ About Problem.Plain d.decl.ids rest)
      (ownType m d) := by
  refine .bind (about_bases hm) fun bases hbases => ?_
  refine .bind (about_interfaces hm) fun interfaces hinterfaces => ?_
  refine .bind hmembers fun all hall => ?_
  have hsubmodules : Gives I (About Problem.Plain d.decl.ids)
      (collect (submodule m d) d.decl.submodules) :=
    about_collect fun s hs => about_submodule hm fun _ hn => TypeDecl.mem_ids_of_submodule hs hn
  have hconnections : Gives I (About Problem.Plain d.decl.ids)
      (collect (connection m d all) d.decl.connections) :=
    about_collect fun c hc => about_connection hm (fun _ hn => TypeDecl.mem_ids_of_connection hc hn) all
  refine .ite_bind (fun h => .pure (hcycle all hall h))
    (fun h => hconformance all hall (Bool.eq_false_of_not_eq_true h)) fun here hhere => ?_
  refine .ite_bind (fun _ => hsubmodules) (fun _ => .pure about_nil) fun submodules hsubmodules => ?_
  refine .ite_bind (fun _ => hconnections) (fun _ => .pure about_nil) fun connections hconnections => ?_
  refine .pure ⟨bases ++ interfaces, here, ownMembers d all ++ submodules ++ connections, ?_,
    hbases.append hinterfaces, hhere, ((about_ownMembers all).append hsubmodules).append hconnections⟩
  simp only [List.append_assoc]

/-- **What is found in a type is about nodes of its declaration.** -/
theorem about_ownType (hm : m.Steady I H) (hd : H d) (h : d.key.node = d.decl.node) :
    Gives I (About Problem.Local d.decl.ids) (ownType m d) := by
  have hkey : d.key.node ∈ d.decl.ids := h ▸ d.decl.node_mem_ids
  have hcycle : About Problem.Local d.decl.ids (finding d.key.node (.inheritanceCycle d.qname)) :=
    about_finding hkey nofun
  have hsplits := ownType_splits hm (hm.members d hd) (fun _ _ _ => hcycle)
    (fun all _ _ => about_conformance hm hkey all)
  refine hsplits.imp fun found hfound => ?_
  obtain ⟨front, here, rest, rfl, hfront, hhere, hrest⟩ := hfound
  exact (hfront.local.append hhere).append hrest.local

/-- What is found in a file is about nodes of its tree, if its definitions are of declarations there. -/
theorem about_fileFindings (hm : m.Steady I H) {file : FileId} {tree : Tree}
    (h : ∀ d ∈ order (m.index.fileTypes file),
      H d ∧ d.key.node = d.decl.node ∧ d.decl.ids ⊆ tree.ids)
    (expected : Option String) :
    Gives I (About Problem.Local tree.ids) (fileFindings m file tree expected) := by
  have htypes : Gives I (About Problem.Local tree.ids)
      (collect (ownType m) (order (m.index.fileTypes file))) := by
    refine about_collect fun d hd => ?_
    obtain ⟨hsort, hkey, hids⟩ := h d hd
    exact (about_ownType hm hsort hkey).imp fun found hfound => hfound.mono hids
  exact .bind htypes fun _ hfound => .pure ((about_package tree expected).local.append hfound)

end Check
end NedWorkspace
