/-
# The topmost declaration counts

SPEC_FULL, section 3: parameters and gates are merged along the chain.

Members are gathered from the far end of a chain: the first declaration of a name stays, and sizes that come
later replace its size. Where the chain lists types before their supertypes, the declaration that stays is
that of a type none of whose supertypes declares the name, and a size reaches the gate that it is given for;
of several sizes the nearest stays. `Members.TopmostWins` says this, and `Model.TopDown.topmostWins` that it
follows from the order of the chain alone.
-/

import NedWorkspace.Proofs.Resolve.TopDown

namespace NedWorkspace

open Relation

namespace Definition

/-- The type declares a parameter of the name; assignments declare nothing. -/
def DeclaresParam (d : Definition) (name : String) : Prop :=
  ∃ p ∈ d.decl.params, p.type.isSome = true ∧ p.name = name

/-- The type declares a gate of the name; what has no direction declares nothing. -/
def DeclaresGate (d : Definition) (name : String) : Prop :=
  ∃ g ∈ d.decl.gates, g.direction.isSome = true ∧ g.name = name

/-- The size that the type gives last to the gate of the name. -/
def givenSize? (d : Definition) (name : String) : Option String :=
  d.decl.gates.reverse.findSome? fun g =>
    if g.direction = none ∧ g.name = name then g.size else none

end Definition

/-- Of each name the declaration counts that no supertype of its type has, and sizes reach the gates that
they are given for. -/
structure Members.TopmostWins (m : Model) (x : Members) : Prop where
  param : ∀ name, (∃ t ∈ x.chain, t.DeclaresParam name) → ∃ p, x.param? name = some p ∧
    ∃ t ∈ x.chain, p.declaredIn = t.qname ∧ p.decl ∈ t.decl.params ∧
      ∀ s ∈ x.chain, TransGen m.Extends t s → ¬ s.DeclaresParam name
  gate : ∀ name, (∃ t ∈ x.chain, t.DeclaresGate name) → ∃ g, x.gate? name = some g ∧
    ∃ t ∈ x.chain, g.declaredIn = t.qname ∧
      (∃ k ∈ t.decl.gates, g.decl = { k with size := g.decl.size }) ∧
      ∀ s ∈ x.chain, TransGen m.Extends t s → ¬ s.DeclaresGate name
  size : ∀ name, ∀ t ∈ x.chain, ∀ s ∈ x.chain, TransGen m.Extends t s → s.DeclaresGate name →
    (t.givenSize? name).isSome = true → ∃ g, x.gate? name = some g ∧
      g.decl.size = x.chain.findSome? (·.givenSize? name)

namespace Members

variable {chain front rest : List Definition} {t : Definition} {name : String}

/-! ### The last type that declares a name -/

/-- The last type of a chain that has a property. -/
theorem exists_last {P : Definition → Prop} (h : ∃ t ∈ chain, P t) :
    ∃ front t rest, chain = front ++ t :: rest ∧ P t ∧ ∀ e ∈ rest, ¬ P e := by
  induction chain with
  | nil => exact absurd h (by simp)
  | cons a chain ih =>
    by_cases hlater : ∃ t ∈ chain, P t
    · obtain ⟨front, t, rest, rfl, ht, hrest⟩ := ih hlater
      exact ⟨a :: front, t, rest, rfl, ht, hrest⟩
    · obtain ⟨t, ht, hP⟩ := h
      rcases List.mem_cons.mp ht with rfl | ht
      · exact ⟨[], t, chain, rfl, hP, fun e he hPe => hlater ⟨e, he, hPe⟩⟩
      · exact absurd ⟨t, ht, hP⟩ hlater

/-- What a type says of parameters. -/
def ownParams (t : Definition) : List InheritedParam :=
  t.decl.params.map fun p => ⟨p, t.qname⟩

/-- The parameter that counts is the one declared nearest to the top of the chain. -/
theorem firstParam?_paramEntries (chain : List Definition) (name : String) :
    firstParam? (paramEntries chain) name =
      chain.reverse.findSome? fun t => firstParam? (ownParams t) name :=
  List.find?_flatMap ..

/-- A type contributes a parameter exactly if it declares one of the name. -/
theorem isSome_firstParam? : (firstParam? (ownParams t) name).isSome = true ↔ t.DeclaresParam name := by
  simp [firstParam?, ownParams, Definition.DeclaresParam]

/-- The parameter of a name, from the last type that declares it. -/
theorem exists_firstParam? (front : List Definition) (ht : t.DeclaresParam name)
    (hrest : ∀ e ∈ rest, ¬ e.DeclaresParam name) :
    ∃ p, firstParam? (paramEntries (front ++ t :: rest)) name = some p ∧ p.declaredIn = t.qname ∧
      p.decl ∈ t.decl.params := by
  obtain ⟨p, hp⟩ := Option.isSome_iff_exists.mp (isSome_firstParam?.mpr ht)
  have hbehind : rest.reverse.findSome? (fun t => firstParam? (ownParams t) name) = none := by
    refine List.findSome?_eq_none_iff.mpr fun e he => ?_
    have hnot := hrest e (List.mem_reverse.mp he)
    rwa [← isSome_firstParam?, Bool.not_eq_true, Option.isSome_eq_false_iff, Option.isNone_iff_eq_none]
      at hnot
  have hfirst : firstParam? (paramEntries (front ++ t :: rest)) name = some p := by
    rw [firstParam?_paramEntries, List.reverse_append, List.reverse_cons, List.append_assoc,
      List.findSome?_append, hbehind, Option.none_or, List.singleton_append, List.findSome?_cons, hp]
  obtain ⟨q, hq, rfl⟩ := List.mem_map.mp (List.mem_of_find?_eq_some hp)
  exact ⟨_, hfirst, rfl, hq⟩

/-! ### Gates -/

/-- What a type says of gates. -/
def ownGates (t : Definition) : List InheritedGate :=
  t.decl.gates.map fun g => ⟨g, t.qname⟩

theorem gateEntries_cons (t : Definition) (chain : List Definition) :
    gateEntries (t :: chain) = gateEntries chain ++ ownGates t := by
  simp [gateEntries, ownGates]

/-- The entries of a chain stand from its top down. -/
theorem gateEntries_append (front rest : List Definition) :
    gateEntries (front ++ rest) = gateEntries rest ++ gateEntries front := by
  simp [gateEntries]

/-- Later entries give the size if any of them does. -/
theorem lastSize?_append (entries later : List InheritedGate) (name : String) :
    lastSize? (entries ++ later) name = (lastSize? later name).or (lastSize? entries name) := by
  rw [lastSize?, List.reverse_append, List.findSome?_append]
  rfl

/-- The size that a type gives to a gate is the last one in its text. -/
theorem lastSize?_ownGates (t : Definition) (name : String) :
    lastSize? (ownGates t) name = t.givenSize? name := by
  rw [lastSize?, ownGates, ← List.map_reverse, List.findSome?_map]
  rfl

/-- The size that is given last along a chain is that of the nearest type that gives one. -/
theorem lastSize?_gateEntries (chain : List Definition) (name : String) :
    lastSize? (gateEntries chain) name = chain.findSome? (·.givenSize? name) := by
  induction chain with
  | nil => rfl
  | cons t chain ih =>
    rw [gateEntries_cons, lastSize?_append, lastSize?_ownGates, ih, List.findSome?_cons]
    cases t.givenSize? name <;> rfl

/-- A type contributes a gate exactly if it declares one of the name. -/
theorem exists_declaresGate : (∃ e ∈ ownGates t, declaresGate name e = true) ↔ t.DeclaresGate name := by
  simp [ownGates, declaresGate, Definition.DeclaresGate]

/-- The gate of a name, from the last type that declares it and from the sizes that are given before it. -/
theorem exists_firstGate? (front : List Definition) (ht : t.DeclaresGate name)
    (hrest : ∀ e ∈ rest, ¬ e.DeclaresGate name) :
    ∃ g, firstGate? (gateEntries (front ++ t :: rest)) name = some g ∧ g.declaredIn = t.qname ∧
      (∃ k ∈ t.decl.gates, g.decl = { k with size := g.decl.size }) ∧
      ((front.findSome? (·.givenSize? name)).isSome = true →
        g.decl.size = front.findSome? (·.givenSize? name)) := by
  have hbehind : (gateEntries rest).dropWhile (fun e => !declaresGate name e) = [] := by
    rw [List.dropWhile_eq_nil_iff]
    intro e he
    obtain ⟨s, hs, he⟩ := List.mem_flatMap.mp he
    have hnot : declaresGate name e ≠ true := fun hdeclares =>
      hrest s (List.mem_reverse.mp hs) (exists_declaresGate.mp ⟨e, he, hdeclares⟩)
    simp [hnot]
  obtain ⟨g, later, hown⟩ : ∃ g later,
      (ownGates t).dropWhile (fun e => !declaresGate name e) = g :: later := by
    refine List.exists_cons_of_ne_nil fun hnil => ?_
    obtain ⟨e, he, hdeclares⟩ := exists_declaresGate.mpr ht
    have hnot := List.dropWhile_eq_nil_iff.mp hnil e he
    simp [hdeclares] at hnot
  have hfirst : firstGate? (gateEntries (front ++ t :: rest)) name =
      some (g.resized (lastSize? (later ++ gateEntries front) name)) := by
    rw [firstGate?, gateEntries_append, gateEntries_cons, List.append_assoc, List.dropWhile_append,
      hbehind, List.isEmpty_nil, if_pos rfl, List.dropWhile_append, hown]
    rfl
  have hmem : g ∈ ownGates t :=
    (List.dropWhile_sublist _).subset (hown ▸ List.mem_cons_self)
  obtain ⟨k, hk, rfl⟩ := List.mem_map.mp hmem
  refine ⟨_, hfirst, rfl, ⟨k, hk, rfl⟩, fun hsome => ?_⟩
  obtain ⟨size, hsize⟩ := Option.isSome_iff_exists.mp hsome
  rw [lastSize?_append, lastSize?_gateEntries, hsize]
  rfl

end Members

/-- **Where types stand before their supertypes the topmost declarations count.** -/
theorem Model.TopDown.topmostWins {m : Model} {d : Definition} {x : Members} (h : m.TopDown d x.chain)
    (hparams : x.params = Members.paramsOf x.chain) (hgates : x.gates = Members.gatesOf x.chain) :
    x.TopmostWins m where
  param name hdeclared := by
    obtain ⟨front, t, rest, hchain, ht, hrest⟩ := Members.exists_last hdeclared
    obtain ⟨p, hp, howner, hdecl⟩ := Members.exists_firstParam? front ht hrest
    refine ⟨p, ?_, t, by simp [hchain], howner, hdecl, fun s hs hreach => ?_⟩
    · rw [Members.param?, hparams, Members.find?_paramsOf, hchain, hp]
    · exact hrest s (h.ordered front t rest hchain s hs hreach)
  gate name hdeclared := by
    obtain ⟨front, t, rest, hchain, ht, hrest⟩ := Members.exists_last hdeclared
    obtain ⟨g, hg, howner, hdecl, _⟩ := Members.exists_firstGate? front ht hrest
    refine ⟨g, ?_, t, by simp [hchain], howner, hdecl, fun s hs hreach => ?_⟩
    · rw [Members.gate?, hgates, Members.find?_gatesOf, hchain, hg]
    · exact hrest s (h.ordered front t rest hchain s hs hreach)
  size name t ht s hs hreach hdeclares hgives := by
    obtain ⟨front, u, rest, hchain, hu, hrest⟩ := Members.exists_last (P := (·.DeclaresGate name))
      ⟨s, hs, hdeclares⟩
    obtain ⟨g, hg, _, _, hsize⟩ := Members.exists_firstGate? front hu hrest
    -- The type stands before its supertype, so it stands before the last one that declares the gate.
    have hfront : t ∈ front := by
      rcases List.mem_append.mp (hchain ▸ ht) with ht | ht
      · exact ht
      · rcases List.mem_cons.mp ht with rfl | ht
        · exact absurd hdeclares (hrest s (h.ordered front t rest hchain s hs hreach))
        · obtain ⟨before, after, rfl⟩ := List.append_of_mem ht
          have hlater : s ∈ after := h.ordered (front ++ u :: before) t after (by simp [hchain]) s hs hreach
          exact absurd hdeclares (hrest s (by simp [hlater]))
    have hgiven : (front.findSome? (·.givenSize? name)).isSome = true := by
      rw [List.isSome_findSome?, List.any_eq_true]
      exact ⟨t, hfront, hgives⟩
    refine ⟨g, ?_, ?_⟩
    · rw [Members.gate?, hgates, Members.find?_gatesOf, hchain, hg]
    · rw [hsize hgiven, hchain, List.findSome?_append, Option.or_of_isSome hgiven]

end NedWorkspace
