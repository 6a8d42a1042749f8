/-
# What questions yield

`Query.Yields m P q` says of a question what is true whatever was asked before: from a memory that is right
it gives an answer of which `P` holds, and it leaves a memory that is right. Lookups yield what names denote,
and questions for members yield the right ones, so a check is followed step by step (`Query.Gives.bind`)
without a word about memories. Checking asks for members only of what lookups and qualified names lead to,
so it leaves memories right (`Model.steady`).
-/

import NedWorkspace.Proofs.Check.Nodes
import NedWorkspace.Proofs.Resolve.Inner
import NedWorkspace.Proofs.Resolve.Inherited

namespace NedWorkspace

/-- From a memory that is right the question gives an answer with a property, and it keeps the memory
right. -/
abbrev Query.Yields {α : Type} (m : Model) (P : α → Prop) (q : Query α) : Prop :=
  Query.Gives m.Gathered P q

namespace Query.Yields

variable {m : Model}

/-- A query that answers yields its answer. -/
theorem of_answers {α : Type} {q : Query α} {a : α} (h : Answers m q a) : Yields m (· = a) q := by
  intro memory hmemory
  obtain ⟨hanswer, hcoherent, hmembers⟩ := h memory hmemory.coherent
  exact ⟨hmemory.congr hcoherent hmembers, hanswer⟩

/-- Looking up a name yields what the name stands for. -/
theorem lookup (name : String) (context : LookupContext) :
    Yields m (· = m.denoted name context) (m.lookup name context) :=
  of_answers (.lookup name context)

/-- Asking for the members of a type yields the right ones, whatever was asked before. -/
theorem members (hm : m.Identified) {d : Definition} (hd : m.Holds d) :
    Yields m (m.Right d) (m.members d) :=
  fun _ hmemory => Model.members_right hm hd hmemory

end Query.Yields

namespace Model

variable {m : Model}

/-- The canonical types of all projects are definitions of files. -/
def Backed (m : Model) : Prop :=
  ∀ project table, m.table? project = some table → ∀ d ∈ table.definitions, m.Defines d

/-- What a qualified name leads to is held by the model. -/
theorem Backed.holds_of_innerOrToplevel? (hm : m.Backed) {qname project : String} {i : Definition}
    (h : m.innerOrToplevel? qname project = some i) : m.Holds i := by
  obtain ⟨table, htable, _⟩ := Option.bind_eq_some_iff.mp h
  have hcanonical : ∀ name d, table.component? name = some d → d ∈ table.definitions :=
    fun name d hd => List.mem_map.mpr ⟨_, OrderedMap.mem_of_get? hd, rfl⟩
  rcases of_innerOrToplevel? htable h with hi | ⟨n, c, _, hlt, hc, hdescend⟩
  · exact holds_of_component? htable hi
  · have hrest : (Name.segments qname).drop n ≠ [] :=
      List.drop_eq_nil_iff.not.mpr (Nat.not_le.mpr hlt)
    exact .inl ((hm project table htable c (hcanonical _ c hc)).allInner
      (Definition.mem_allInner_of_path hrest hdescend))

/-- A model made of scopes has a scope behind every definition that it knows. -/
theorem backed_ofScopes {files : List (FileId × FileScope)} (h : (files.map Prod.fst).Nodup) :
    (ofScopes files).Backed := by
  intro project table htable d hd
  obtain ⟨_, rfl⟩ := Prod.mk.inj (List.mem_singleton.mp (OrderedMap.mem_of_get? htable))
  have hmem := (ProjectTable.eq_qname_of_component? (ProjectTable.mem_definitions_ofList.mp hd)).2
  obtain ⟨⟨file, scope⟩, hf, hd⟩ := List.mem_flatMap.mp hmem
  exact .inl ⟨file, scope, OrderedMap.get?_of_mem (m := ⟨files⟩) h hf,
    Definition.mem_withInner_self hd⟩

/-- **Checking keeps memories right.** -/
theorem steady (hm : m.Identified) (hbacked : m.Backed) : m.Steady m.Gathered m.Holds where
  lookup name context := (Query.Yields.lookup name context).imp fun _ hfound _ ht =>
    holds_of_denoted (hfound ▸ ht)
  members _ hd := (Query.Yields.members hm hd).imp fun _ _ => trivial
  named _ _ _ h := hbacked.holds_of_innerOrToplevel? h

end Model
end NedWorkspace
