/-
# Members in a workspace

SPEC_FULL, section 6: `inherited_members`.

In every reachable state a key stands for one definition (`State.Kept.keyed`): the definitions of a file
have nodes of their own, and the tables hold definitions of the index. So members are what chains and
interfaces give, whatever was asked before (`State.members_inherited`).
-/

import NedWorkspace.Proofs.Resolve.Inherited
import NedWorkspace.Proofs.Workspace.Lookup

namespace NedWorkspace

open Relation

namespace State

variable {st : State}

/-- A definition of the index is found by its key. -/
theorem Kept.get?_of_defines (hkept : st.Kept) {d : Definition} (h : st.current.Defines d) :
    st.index.get? d.key = some d := by
  rcases h with ⟨file, scope, hscope, hd⟩ | ⟨key, c, hget, hd⟩
  · exact hkept.index.get?_of_mem hscope hd
  · obtain ⟨scope, hscope, hc, _⟩ := hkept.index.types.mp hget
    refine hkept.index.get?_of_mem hscope ?_
    rcases List.mem_cons.mp hd with rfl | hd
    · exact hc
    · exact Definition.mem_withInner_of_mem_allInner hc hd

/-- The types that a project sees are definitions of the index. -/
theorem defines_of_mem_typesSeenBy {project : String} {d : Definition}
    (h : d ∈ st.typesSeenBy project) : st.current.Defines d := by
  have hfile : ∀ file, d ∈ st.index.fileTypes file → st.current.Defines d := by
    intro file hd
    unfold DefinitionIndex.fileTypes at hd
    split at hd
    · rename_i scope hscope
      exact .inl ⟨file, scope, hscope, Definition.mem_withInner_self hd⟩
    · exact absurd hd List.not_mem_nil
  rcases List.mem_append.mp h with hd | hd
  · exact hfile .builtin hd
  · obtain ⟨f, _, hd⟩ := List.mem_flatMap.mp hd
    exact hfile f.id hd

/-- A definition that the model of a state holds is found by its key. -/
theorem Kept.get?_of_holds (hkept : st.Kept) {d : Definition} (hd : st.current.Holds d) :
    st.index.get? d.key = some d := by
  refine hkept.get?_of_defines ?_
  rcases hd with hd | ⟨project, table, htable, hd⟩
  · exact hd
  · obtain rfl := hkept.table_eq htable
    have hcomponent := ProjectTable.mem_definitions_ofList.mp hd
    exact defines_of_mem_typesSeenBy (ProjectTable.eq_qname_of_component? hcomponent).2

/-- **A key stands for one definition.** -/
theorem Kept.keyed (hkept : st.Kept) : st.current.Keyed := fun hx hy hkey =>
  Option.some.inj ((hkept.get?_of_holds hx).symm.trans (hkey ▸ hkept.get?_of_holds hy))

/-- In a state that is dirty everything is forgotten. -/
theorem Kept.forgotten (hkept : st.Kept) (hst : st.Coherent) (hdirty : st.dirty = true) :
    st.current.Forgotten st.memory where
  lookups := (hst.forgotten hdirty).lookups
  members _ hd := (hst.forgotten hdirty).members _ (hkept.index.mem_allTypes (hkept.get?_of_holds hd))

/-- **Members are what the chain of a type and its interfaces give, whatever was asked before.** In every
reachable state a key stands for one definition, and while the state is dirty everything that bears on its
definitions is forgotten. In a model where at least a key and an edition stand for one, let the members of
a type be asked for after any questions since everything was forgotten. If the type is no
interface its chain goes from first base to first base, until there is none or it is on the chain already.
The chain of an interface holds types that are reached through bases, each once, and with every type its
bases; all that are reached, where a key stands for one definition. The parameter and the gate of a name
are the first that are declared along the chain from its far end; the gate has the size that is given for
it last. The interfaces are those that the type implements, each once, unless a circle of likeness is
reached from it. Other questions would have led to the same members, their interfaces apart where there is
such a circle. -/
theorem members_inherited :
    (∀ st : State, st.Reachable → st.current.Keyed ∧ st.current.Identified ∧
      (st.dirty = true → st.current.Forgotten st.memory)) ∧
    ∀ (m : Model) (d : Definition) (memory memory' : Memory) (questions questions' : List Question),
      m.Identified → m.Holds d → m.Forgotten memory → m.Forgotten memory' →
      (∀ q ∈ questions, q.Within m) → (∀ q ∈ questions', q.Within m) →
        let x := (m.members d (m.remembered memory questions)).1
        let y := (m.members d (m.remembered memory' questions')).1
        m.Inherits d x ∧ x.chain = y.chain ∧ x.cycle = y.cycle ∧ x.params = y.params ∧
          x.gates = y.gates ∧ (m.Grounded d → x.interfaces = y.interfaces) := by
  refine ⟨fun st hst => ?_, ?_⟩
  · have hkeyed : st.current.Keyed := hst.kept.keyed
    exact ⟨hkeyed, hkeyed.identified, hst.kept.forgotten hst.coherent⟩
  · intro m d memory memory' questions questions' hm hd hmemory hmemory' hquestions hquestions' x y
    have hx : m.Right d x :=
      (Model.members_right hm hd (Model.gathered_remembered hm hmemory questions hquestions)).2
    have hy : m.Right d y :=
      (Model.members_right hm hd (Model.gathered_remembered hm hmemory' questions' hquestions')).2
    refine ⟨hx.inherits hd, ?_⟩
    obtain ⟨interfaces, hx, hinterfaces⟩ := hx
    obtain ⟨interfaces', hy, hinterfaces'⟩ := hy
    rw [hx, hy]
    exact ⟨rfl, rfl, rfl, rfl, fun h => (hinterfaces h).trans (hinterfaces' h).symm⟩

end State

/-! ### Interfaces that extend each other -/

namespace Mutual

/-- A type of one file, with the names after `extends` and those after `like`. -/
def type (node : NodeId) (kind : TypeKind) (name : String) (bases likes : List String) : Definition :=
  .build (.source 0) 0 "" { node, kind, name, bases := bases.map fun n => ⟨node, n, {}⟩,
                            interfaces := likes.map fun n => ⟨node, n, {}⟩ }

/-- An interface that extends the other one. -/
def left : Definition := type 1 .moduleInterface "I" ["J"] []

/-- The other one, which extends the first. -/
def right : Definition := type 2 .moduleInterface "J" ["I"] []

/-- A type that is like the first. -/
def base : Definition := type 3 .simpleModule "B" [] ["I"]

/-- A type that extends it. -/
def derived : Definition := type 4 .simpleModule "S" ["B"] []

def types : List Definition := [left, right, base, derived]

/-- A project with these types. -/
def model : Model :=
  .ofScopes [(.source 0, ⟨"", [], some "p", types⟩)]

theorem holds_iff {d : Definition} : model.Holds d ↔ d ∈ types :=
  ⟨Model.mem_of_holds_ofScopes, fun hd => .inl (.inl ⟨.source 0, _, rfl, hd⟩)⟩

theorem keyed : model.Keyed := by
  intro x y hx hy hkey
  have hnodup : (types.map fun d => d.key).Nodup := by decide
  exact List.inj_on_of_nodup_map hnodup (holds_iff.mp hx) (holds_iff.mp hy) hkey

/-- The chains of the types that extend others. -/
theorem lineages : (model.lineage left).1 = [left, right] ∧ (model.lineage right).1 = [right, left] ∧
    (model.lineage derived).1 = [derived, base] :=
  ⟨by cbv, by cbv, by cbv⟩

theorem lineage_base : (model.lineage base).1 = [base] :=
  congrArg Prod.fst (model.lineage_of_baseNames_eq_nil rfl)

/-- All likeness is that of the base to the first interface. -/
theorem leans_iff {d i : Definition} (hd : d ∈ types) :
    model.Leans d i ↔ base ∈ (model.lineage d).1 ∧ i = left := by
  have hlike : ∀ t ∈ types, ∀ name ∈ t.likeNames, t = base ∧ name = "I" := by
    intro t ht name hname
    simp only [types, List.mem_cons, List.not_mem_nil, or_false] at ht
    rcases ht with rfl | rfl | rfl | rfl
    · exact absurd hname List.not_mem_nil
    · exact absurd hname List.not_mem_nil
    · exact ⟨rfl, List.mem_singleton.mp hname⟩
    · exact absurd hname List.not_mem_nil
  have hchain : ∀ t ∈ (model.lineage d).1, t ∈ types := by
    simp only [types, List.mem_cons, List.not_mem_nil, or_false] at hd ⊢
    rcases hd with rfl | rfl | rfl | rfl
    · simp [lineages]
    · simp [lineages]
    · simp [lineage_base]
    · simp [lineages]
  constructor
  · rintro ⟨t, ht, name, hname, hi⟩
    obtain ⟨rfl, rfl⟩ := hlike t (hchain t ht) name hname
    exact ⟨ht, Option.some.inj (hi.symm.trans rfl)⟩
  · rintro ⟨hbase, rfl⟩
    exact ⟨base, hbase, "I", List.mem_singleton_self _, rfl⟩

/-- The interfaces run in a circle, but likeness does not. -/
theorem grounded : model.Grounded derived := by
  have hderived : derived ∈ types := by simp [types]
  have hleft : left ∈ types := by simp [types]
  refine Model.grounded_of_leans keyed (holds_iff.mpr hderived) fun i hi j hj => ?_
  obtain ⟨_, rfl⟩ := (leans_iff hderived).mp hi
  have hbase := ((leans_iff hleft).mp hj).1
  rw [lineages.1] at hbase
  exact absurd (List.mem_map_of_mem (f := fun d : Definition => d.name) hbase) (by decide)

/-- After the members of one interface and the types that implement the other were asked for, the derived
type has both as its interfaces, since its base is like the first. -/
theorem members_inherited_mutual : model.Identified ∧ model.Holds derived ∧ model.Grounded derived ∧
    ∀ qname, qname ∈ (model.members derived
      (model.remembered {} [.members left, .implementing "J" "p"])).1.interfaces ↔
        qname = "I" ∨ qname = "J" := by
  have hderived : derived ∈ types := by simp [types]
  have hquestions : ∀ q ∈ [Question.members left, .implementing "J" "p"], q.Within model := by
    intro q hq
    rcases List.mem_cons.mp hq with rfl | hq
    · exact holds_iff.mpr List.mem_cons_self
    · obtain rfl := List.mem_singleton.mp hq
      trivial
  obtain ⟨hinherits, _⟩ := State.members_inherited.2 model derived {} {} _ _ keyed.identified
    (holds_iff.mpr hderived) (Model.forgotten_empty _) (Model.forgotten_empty _) hquestions hquestions
  have himplements : ∀ e, model.Implements derived e ↔ e = left ∨ e = right := by
    intro e
    constructor
    · rintro (⟨hkind, _⟩ | ⟨i, hleans, he⟩)
      · exact absurd hkind (by decide)
      · obtain ⟨_, rfl⟩ := (leans_iff hderived).mp hleans
        simpa [lineages] using he
    · intro he
      refine .inr ⟨left, (leans_iff hderived).mpr ⟨?_, rfl⟩, ?_⟩
      · simp [lineages]
      · simpa [lineages] using he
  refine ⟨keyed.identified, holds_iff.mpr hderived, grounded, fun qname => ?_⟩
  rw [(hinherits.interfaces grounded).2]
  simp only [himplements]
  constructor
  · rintro ⟨e, rfl | rfl, rfl⟩
    · exact .inl rfl
    · exact .inr rfl
  · rintro (rfl | rfl)
    · exact ⟨left, .inl rfl, rfl⟩
    · exact ⟨right, .inr rfl, rfl⟩

end Mutual

end NedWorkspace
