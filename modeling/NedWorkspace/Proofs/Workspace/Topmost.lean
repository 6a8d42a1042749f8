/-
# Topmost declarations in a workspace

Of several declarations of a name along a chain the topmost should count, and a size should reach the gate
that it is given for. This holds wherever the chain lists types before their supertypes, and
`State.topmost_declarations` says when it does: always for a type that is no interface, and for an interface
that is level. Other interfaces depend on the order in which they name their bases
(`Skew.size_lost`).
-/

import NedWorkspace.Proofs.Resolve.Topmost
import NedWorkspace.Proofs.Workspace.Inherited

namespace NedWorkspace

open Relation

/-- **When the topmost declarations count.** In every reachable state a key stands for one definition. In
such a model let the members of a type be asked for, from a memory that is right
(`Model.gathered_remembered`). If no circle of bases is reached from the type, then each type on the chain
stands before its supertypes, whatever order bases are named in; the type has to be level if it is an
interface, which means that types below it that share a base are bases of the same types. And wherever each
type stands before its supertypes, the declaration that is kept of a parameter or of a gate is that of a type
none of whose supertypes declares the name, and a size that a type gives to a gate of a supertype is applied
to it, the nearest of several. -/
theorem State.topmost_declarations (m : Model) (d : Definition) (memory : Memory) :
    (∀ st : State, st.Reachable → st.current.Keyed) ∧
    (m.Keyed → m.Holds d → m.Gathered memory →
      let x := (m.members d memory).1
      (m.Acyclic d → (d.kind.isInterface = true → m.Level d) → m.TopDown d x.chain) ∧
        (m.TopDown d x.chain → x.TopmostWins m)) := by
  refine ⟨fun st hst => hst.kept.keyed, ?_⟩
  intro hm hd hmemory x
  have hright : m.Right d x := (Model.members_right hm.identified hd hmemory).2
  obtain ⟨interfaces, hx, _⟩ := hright
  rw [hx]
  exact ⟨Model.topDown_lineage hm hd, fun h => h.topmostWins rfl rfl⟩

/-! ### An interface that names a base before an heir of it -/

namespace Skew

/-- An interface with the names after `extends`. -/
def type (node : NodeId) (name : String) (bases : List String) (gates : List Gate) : Definition :=
  .build (.source 0) 0 "" { node, kind := .moduleInterface, name, gates
                            bases := bases.map fun n => ⟨node, n, {}⟩ }

/-- An interface with a gate vector. -/
def low : Definition := type 1 "B" [] [⟨1, "out", some .output, true, none, [], {}⟩]

/-- An interface that gives the size of the vector. -/
def mid : Definition := type 2 "A" ["B"] [⟨2, "out", none, true, some "4", [], {}⟩]

/-- An interface that leaves it alone. -/
def side : Definition := type 3 "Z" ["B"] []

/-- An interface whose bases are both heirs of the first. -/
def even : Definition := type 4 "W" ["Z", "A"] []

/-- An interface that names the first before an heir of it. -/
def skew : Definition := type 5 "D" ["B", "A"] []

def types : List Definition := [low, mid, side, even, skew]

/-- A project with these interfaces. -/
def model : Model :=
  .ofScopes [(.source 0, ⟨"", [], some "p", types⟩)]

theorem holds_iff {d : Definition} : model.Holds d ↔ d ∈ types := by
  constructor
  · intro h
    obtain ⟨f, hf, hd⟩ := List.mem_flatMap.mp (Model.mem_of_holds_ofScopes h)
    obtain rfl := List.mem_singleton.mp hf
    exact hd
  · exact fun hd => .inl (.inl ⟨.source 0, _, rfl, Definition.mem_withInner_self hd⟩)

theorem keyed : model.Keyed :=
  Model.keyed_ofScopes (by decide)

theorem extends_low (y : Definition) : ¬ model.Extends low y := by
  rintro ⟨name, hname, _⟩
  exact absurd hname List.not_mem_nil

/-- An interface with one base. -/
theorem extends_single (name : String) {x b y : Definition} (hnames : x.baseNames = [name])
    (hb : model.denoted name x.context = some b) : model.Extends x y ↔ y = b := by
  simp [Model.Extends, hnames, hb, eq_comm]

/-- An interface with two bases. -/
theorem extends_pair (name other : String) {x b c y : Definition} (hnames : x.baseNames = [name, other])
    (hb : model.denoted name x.context = some b) (hc : model.denoted other x.context = some c) :
    model.Extends x y ↔ y = b ∨ y = c := by
  simp [Model.Extends, hnames, hb, hc, eq_comm]

theorem extends_mid {y : Definition} : model.Extends mid y ↔ y = low :=
  extends_single "B" rfl rfl

theorem extends_side {y : Definition} : model.Extends side y ↔ y = low :=
  extends_single "B" rfl rfl

/-- The interface extends two others, in its order. -/
theorem extends_even {y : Definition} : model.Extends even y ↔ y = side ∨ y = mid :=
  extends_pair "Z" "A" rfl rfl rfl

/-- The other interface names a base before one that is farther down. -/
theorem extends_skew {y : Definition} : model.Extends skew y ↔ y = low ∨ y = mid :=
  extends_pair "B" "A" rfl rfl rfl

/-- Bases are declared before their heirs. -/
theorem node_lt {x y : Definition} (hx : x ∈ types) (h : model.Extends x y) :
    y ∈ types ∧ y.key.node < x.key.node := by
  simp only [types, List.mem_cons, List.not_mem_nil, or_false] at hx
  rcases hx with rfl | rfl | rfl | rfl | rfl
  · exact absurd h (extends_low y)
  · obtain rfl := extends_mid.mp h
    exact ⟨by simp [types], by decide⟩
  · obtain rfl := extends_side.mp h
    exact ⟨by simp [types], by decide⟩
  · rcases extends_even.mp h with rfl | rfl
    · exact ⟨by simp [types], by decide⟩
    · exact ⟨by simp [types], by decide⟩
  · rcases extends_skew.mp h with rfl | rfl
    · exact ⟨by simp [types], by decide⟩
    · exact ⟨by simp [types], by decide⟩

/-- Types extend only such as were declared before them. -/
theorem node_lt_of_transGen {x y : Definition} (hx : x ∈ types) (h : TransGen model.Extends x y) :
    y ∈ types ∧ y.key.node < x.key.node := by
  induction h with
  | single hstep => exact node_lt hx hstep
  | tail _ hstep ih =>
    obtain ⟨hb, hlt⟩ := ih
    obtain ⟨hc, hlt'⟩ := node_lt hb hstep
    exact ⟨hc, lt_trans hlt' hlt⟩

/-- No type extends itself. -/
theorem acyclic {d : Definition} (hd : d ∈ types) : model.Acyclic d := by
  intro e he hcircle
  have hmem : e ∈ types := by
    rcases reflTransGen_iff_eq_or_transGen.mp he with rfl | hreach
    · exact hd
    · exact (node_lt_of_transGen hd hreach).1
  exact lt_irrefl _ (node_lt_of_transGen hmem hcircle).2

theorem low_ne_side : low ≠ side :=
  fun h => absurd (congrArg Definition.name h) (by decide)

theorem low_ne_mid : low ≠ mid :=
  fun h => absurd (congrArg Definition.name h) (by decide)

/-- What the interface reaches by inheritance. -/
theorem reached_even {z : Definition} (h : ReflTransGen model.Extends even z) :
    z = even ∨ z = side ∨ z = mid ∨ z = low := by
  induction h with
  | refl => exact .inl rfl
  | tail _ hstep ih =>
    rcases ih with rfl | rfl | rfl | rfl
    · exact .inr ((extends_even.mp hstep).imp_right .inl)
    · exact .inr (.inr (.inr (extends_side.mp hstep)))
    · exact .inr (.inr (.inr (extends_mid.mp hstep)))
    · exact absurd hstep (extends_low _)

/-- The heirs of the first interface below the even one are both bases of it. -/
theorem level_even : model.Level even := by
  intro w x y z hw hz hwx hxy hzy
  have hx : x = side ∨ x = mid ∨ x = low := by
    rcases reached_even hw with rfl | rfl | rfl | rfl
    · exact (extends_even.mp hwx).imp_right .inl
    · exact .inr (.inr (extends_side.mp hwx))
    · exact .inr (.inr (extends_mid.mp hwx))
    · exact absurd hwx (extends_low _)
  have hy : y = low := by
    rcases hx with rfl | rfl | rfl
    · exact extends_side.mp hxy
    · exact extends_mid.mp hxy
    · exact absurd hxy (extends_low _)
  subst hy
  -- What extends the first interface is a base of the even one, and only that one extends an heir.
  have hz : z = side ∨ z = mid := by
    rcases reached_even hz with rfl | hz | hz | rfl
    · exact ((extends_even.mp hzy).elim low_ne_side low_ne_mid).elim
    · exact .inl hz
    · exact .inr hz
    · exact absurd hzy (extends_low _)
  rcases reached_even hw with rfl | rfl | rfl | rfl
  · exact extends_even.mpr hz
  · exact absurd (extends_side.mp hwx ▸ hxy) (extends_low _)
  · exact absurd (extends_mid.mp hwx ▸ hxy) (extends_low _)
  · exact absurd hwx (extends_low _)

/-- The chain of the interface, nearest first. -/
theorem chain_even : (model.members even {}).1.chain = [even, side, mid, low] := by cbv

/-- The size reaches the gate in the even interface, which names the interface that gives it last. -/
theorem topmost_declarations_even :
    model.Keyed ∧ model.Holds even ∧ model.Gathered {} ∧ model.Acyclic even ∧ model.Level even ∧
      model.Extends mid low ∧ low.DeclaresGate "out" ∧ mid.givenSize? "out" = some "4" ∧
      ∃ g, (model.members even {}).1.gate? "out" = some g ∧ g.decl.size = some "4" := by
  have hmem : even ∈ types := by simp [types]
  have hgathered : model.Gathered {} := (Model.forgotten_empty _).gathered
  obtain ⟨htopDown, hcounts⟩ :=
    (State.topmost_declarations model even {}).2 keyed (holds_iff.mpr hmem) hgathered
  have hwins := hcounts (htopDown (acyclic hmem) fun _ => level_even)
  have hmid : mid ∈ (model.members even {}).1.chain := by simp [chain_even]
  have hlow : low ∈ (model.members even {}).1.chain := by simp [chain_even]
  have hdeclares : low.DeclaresGate "out" := ⟨_, List.mem_cons_self, rfl, rfl⟩
  have hextends : model.Extends mid low := extends_mid.mpr rfl
  obtain ⟨g, hg, hsize⟩ := hwins.size "out" mid hmid low hlow (.single hextends) hdeclares rfl
  rw [chain_even] at hsize
  exact ⟨keyed, holds_iff.mpr hmem, hgathered, acyclic hmem, level_even, hextends, hdeclares, rfl, g, hg,
    hsize⟩

/-- **The order of the bases decides.** Of the skew interface the first base stands before its heir, and the
size that the heir gives to the gate is lost. -/
theorem size_lost :
    model.Keyed ∧ model.Holds skew ∧ model.Gathered {} ∧ model.Acyclic skew ∧
      (model.members skew {}).1.chain = [skew, low, mid] ∧ model.Extends mid low ∧
      ¬ model.TopDown skew (model.members skew {}).1.chain ∧
      low.DeclaresGate "out" ∧ mid.givenSize? "out" = some "4" ∧
      ((model.members skew {}).1.gate? "out").map (·.decl.size) = some none := by
  have hmem : skew ∈ types := by simp [types]
  have hchain : (model.members skew {}).1.chain = [skew, low, mid] := by cbv
  have hextends : model.Extends mid low := extends_mid.mpr rfl
  refine ⟨keyed, holds_iff.mpr hmem, (Model.forgotten_empty _).gathered, acyclic hmem, hchain, hextends,
    fun h => ?_, ⟨_, List.mem_cons_self, rfl, rfl⟩, rfl, by cbv⟩
  have hbehind := h.ordered [skew, low] mid [] hchain low (by simp [hchain]) (.single hextends)
  exact absurd hbehind List.not_mem_nil

end Skew

end NedWorkspace
