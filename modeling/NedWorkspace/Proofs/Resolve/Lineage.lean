/-
# Chains of supertypes

What a name denotes depends on the index and the tables alone, and so does the chain of a type: it is
found by lookups, and what is remembered of lookups makes no difference (`Model.chainOf_answers`).

* A type that is no interface is followed by its first base, that by its own, and so on, until there is
  no base or it is on the chain already (`Model.lineage_single`).
* The chain of an interface holds types that are reached through bases, each once, and their bases with
  them (`Model.lineage_branching`). The search keeps `Model.Search`: what was found is reached, and the
  bases of what was found have been looked up, but for those still to come. Whatever all its steps keep
  (`Model.Lasting`) holds when it ends (`Model.Lasting.lineage`).

Chains are searched by keys, all of which are known beforehand (`Model.Covers`). Where a key stands for one
definition (`Model.Keyed`), the chain of an interface holds all types that are reached
(`Model.AllBases.mem_iff`).
-/

import Mathlib.Logic.Relation
import NedWorkspace.Proofs.Definition.Build

namespace NedWorkspace

open Relation

namespace Model

variable {m : Model}

/-! ### Definitions that a model holds -/

/-- The definition is among those of some file, or a key leads to it or to a type around it. -/
def Defines (m : Model) (d : Definition) : Prop :=
  (∃ file scope, m.index.file? file = some scope ∧ d ∈ scope.allTypes) ∨
    ∃ key c, m.index.get? key = some c ∧ d ∈ c :: c.allInner

/-- The index or a table holds the definition. -/
def Holds (m : Model) (d : Definition) : Prop :=
  m.Defines d ∨ ∃ project table, m.table? project = some table ∧ d ∈ table.definitions

/-- A key stands for one definition. -/
def Keyed (m : Model) : Prop :=
  ∀ {x y : Definition}, m.Holds x → m.Holds y → x.key = y.key → x = y

/-- A key and an edition stand for one definition. -/
def Identified (m : Model) : Prop :=
  ∀ {x y : Definition}, m.Holds x → m.Holds y → x.id = y.id → x = y

/-- Where keys tell definitions apart, so do identities. -/
theorem Keyed.identified (h : m.Keyed) : m.Identified :=
  fun hx hy hid => h hx hy (congrArg DefinitionId.key hid)

/-- What a table knows by a name is a type of the model. -/
theorem holds_of_component? {project qname : String} {table : ProjectTable} {d : Definition}
    (htable : m.table? project = some table) (h : table.component? qname = some d) : m.Holds d :=
  .inr ⟨project, table, htable, List.mem_map.mpr ⟨_, OrderedMap.mem_of_get? h, rfl⟩⟩

/-- What the index finds under a key is a definition of the model. -/
theorem defines_of_get? {key : TypeKey} {d : Definition} (h : m.index.get? key = some d) :
    m.Defines d :=
  .inr ⟨key, d, h, List.mem_cons_self⟩

/-- The types below a definition are defined with it. -/
theorem Defines.allInner {d i : Definition} (hd : m.Defines d) (hi : i ∈ d.allInner) :
    m.Defines i := by
  rcases hd with ⟨file, scope, hscope, hd⟩ | ⟨key, c, hget, hd⟩
  · exact .inl ⟨file, scope, hscope, Definition.mem_withInner_of_mem_allInner hd hi⟩
  · refine .inr ⟨key, c, hget, List.mem_cons_of_mem c ?_⟩
    rcases List.mem_cons.mp hd with rfl | hd
    · exact hi
    · exact Definition.allInner_subset hd hi

/-- The compound type around a context is a definition of the model. -/
theorem defines_of_compoundAround? {context : LookupContext} {c : Definition}
    (h : m.compoundAround? context = some c) : m.Defines c := by
  cases context with
  | file file => exact absurd h (by simp [compoundAround?])
  | type key =>
    obtain ⟨_, _, htop⟩ := Option.bind_eq_some_iff.mp (Option.filter_eq_some_iff.mp h).1
    exact defines_of_get? htop

/-- What a qualified name is resolved to is a type of the model. -/
theorem holds_of_resolveQualified {project name : String} {table : ProjectTable}
    {context : LookupContext} {d : Definition} (htable : m.table? project = some table)
    (h : m.resolveQualified table context name = some d) : m.Holds d := by
  rcases Option.or_eq_some_iff.mp h with h | ⟨_, h⟩
  · obtain ⟨c, hc, hinner⟩ := List.exists_of_findSome?_eq_some h
    obtain ⟨path, _, hpath⟩ := Option.bind_eq_some_iff.mp hinner
    obtain ⟨s, ss, hsegments⟩ := List.exists_cons_of_ne_nil (Name.segments_ne_nil path)
    rw [Definition.innerAt?, hsegments] at hpath
    have hdefines : m.Defines c := by
      cases context with
      | file file => exact absurd hc List.not_mem_nil
      | type key =>
        rcases List.mem_append.mp hc with hc | hc
        · exact defines_of_get? (Option.filter_eq_some_iff.mp (Option.mem_toList.mp hc)).1
        · exact defines_of_compoundAround? (Option.mem_toList.mp hc)
    exact .inl (hdefines.allInner (Definition.mem_allInner_of_descend hpath))
  · exact holds_of_component? htable h

/-- What a simple name is resolved to is a type of the model. -/
theorem holds_of_resolveSimple {project name : String} {table : ProjectTable} {scope : FileScope}
    {context : LookupContext} {d : Definition} (htable : m.table? project = some table)
    (h : m.resolveSimple table scope context name = some d) : m.Holds d := by
  rcases Option.or_eq_some_iff.mp h with h | ⟨_, h⟩
  · rcases Option.or_eq_some_iff.mp h with h | ⟨_, h⟩
    · rcases Option.or_eq_some_iff.mp h with h | ⟨_, h⟩
      · obtain ⟨c, hc, hinner⟩ := Option.bind_eq_some_iff.mp h
        exact .inl ((defines_of_compoundAround? hc).allInner
          (Definition.mem_allInner_of_mem_inner (List.mem_of_find?_eq_some hinner)))
      · obtain ⟨i, _, hi⟩ := List.exists_of_findSome?_eq_some h
        split at hi
        · exact holds_of_component? htable hi
        · exact absurd hi (by simp)
    · exact holds_of_component? htable h
  · obtain ⟨qname, _, hq⟩ := Option.bind_eq_some_iff.mp h
    exact holds_of_component? htable hq

/-- **What a name denotes is held by the model.** -/
theorem holds_of_denoted {name : String} {context : LookupContext} {d : Definition}
    (h : m.denoted name context = some d) : m.Holds d := by
  obtain ⟨project, _, hresolve⟩ := Option.bind_eq_some_iff.mp h
  unfold resolve at hresolve
  split at hresolve
  · rename_i table scope htable _
    split at hresolve
    · exact holds_of_resolveQualified htable hresolve
    · exact holds_of_resolveSimple htable hresolve
  · exact absurd hresolve (by simp)

/-- The keys of all definitions that the model holds are among the given ones. -/
def Covers (m : Model) (known : List TypeKey) : Prop :=
  ∀ d, m.Holds d → d.key ∈ known

/-- The keys that are known, and the one asked for, are all that a search can meet. -/
theorem covers_knownKeys (memory : Memory) (key : TypeKey) :
    m.Covers (key :: m.knownKeys memory) := by
  intro d hd
  refine List.mem_cons_of_mem key (List.mem_map.mpr ⟨d, ?_, rfl⟩)
  rcases hd with (⟨file, scope, hscope, hd⟩ | ⟨key, c, hget, hd⟩) | ⟨project, table, htable, hd⟩
  · have hvalue : scope ∈ m.index.files.values :=
      List.mem_map.mpr ⟨_, OrderedMap.mem_of_get? hscope, rfl⟩
    exact List.mem_append_left _ (List.mem_append_left _ (List.mem_append_left _
      (List.mem_flatMap.mpr ⟨scope, hvalue, hd⟩)))
  · have hvalue : c ∈ m.index.types.values := List.mem_map.mpr ⟨_, OrderedMap.mem_of_get? hget, rfl⟩
    refine List.mem_append_left _ (List.mem_append_left _ (List.mem_append_right _ ?_))
    rcases List.mem_cons.mp hd with rfl | hd
    · exact Definition.mem_withInner_self hvalue
    · exact Definition.mem_withInner_of_mem_allInner (Definition.mem_withInner_self hvalue) hd
  · have hvalue : table ∈ m.tables.values :=
      List.mem_map.mpr ⟨_, OrderedMap.mem_of_get? htable, rfl⟩
    exact List.mem_append_left _ (List.mem_append_right _ (List.mem_flatMap.mpr ⟨table, hvalue, hd⟩))

/-! ### Answers that memory makes no difference to -/

/-- The type that comes after `extends` first. -/
def base? (m : Model) (d : Definition) : Option Definition :=
  d.baseNames.head?.bind fun name => m.denoted name d.context

/-- One of the names after `extends` denotes the type. -/
def Extends (m : Model) (d base : Definition) : Prop :=
  ∃ name ∈ d.baseNames, m.denoted name d.context = some base

end Model

/-- The question has one answer, whatever lookups are remembered, and leaves members alone. -/
def Query.Answers {α : Type} (m : Model) (q : Query α) (a : α) : Prop :=
  ∀ memory, memory.Coherent m →
    (q memory).1 = a ∧ (q memory).2.Coherent m ∧ (q memory).2.members = memory.members

namespace Query.Answers

variable {m : Model} {α β : Type}

theorem pure (a : α) : Answers m (Pure.pure a : Query α) a :=
  fun _ h => ⟨rfl, h, rfl⟩

/-- Queries in a row answer as their answers do. -/
theorem bind {q : Query α} {f : α → Query β} {a : α} {b : β} (hq : Answers m q a)
    (hf : Answers m (f a) b) : Answers m (q >>= f) b := by
  intro memory h
  obtain ⟨rfl, hcoherent, hmembers⟩ := hq memory h
  obtain ⟨hanswer, hcoherent', hmembers'⟩ := hf _ hcoherent
  exact ⟨hanswer, hcoherent', hmembers'.trans hmembers⟩

/-- A name is answered by what it denotes, whatever is remembered. -/
theorem lookup (name : String) (context : LookupContext) :
    Answers m (m.lookup name context) (m.denoted name context) := by
  intro memory h
  refine ⟨h.lookup name context, (m.lookup_asks name context memory).coherent h, ?_⟩
  unfold Model.lookup
  cases m.projectFor? context with
  | none => rfl
  | some project => rfl

theorem firstBase (d : Definition) : Answers m (m.firstBase d) (m.base? d) := by
  unfold Model.firstBase Model.base?
  cases d.baseNames with
  | nil => exact .pure none
  | cons name _ => exact .lookup name d.context

end Query.Answers

namespace Model

open Query

variable {m : Model} {d : Definition}

/-- Lists of keys that hold the same of the model's definitions. -/
def Agree (m : Model) (keys keys' : List TypeKey) : Prop :=
  ∀ d, m.Holds d → (d.key ∈ keys ↔ d.key ∈ keys')

theorem Agree.without {keys keys' : List TypeKey} (h : m.Agree keys keys') (key : TypeKey) :
    m.Agree (without keys key) (without keys' key) := by
  intro d hd
  rw [mem_without, mem_without, h d hd]

/-! ### Chains of first bases -/

/-- What follows a type on its chain: each the first base of the one before, with keys that were not met,
until there is no base or its key was met. -/
structure Follows (m : Model) (unmet : List TypeKey) (current : Definition)
    (r : List Definition × Bool) : Prop where
  steps : (current :: r.1).IsChain fun x y => m.base? x = some y
  holds : ∀ e ∈ r.1, m.Holds e
  fresh : ∀ e ∈ r.1, e.key ∈ unmet
  nodup : (r.1.map fun e : Definition => e.key).Nodup
  stop : ∀ last, (current :: r.1).getLast? = some last →
    match m.base? last with
    | none => r.2 = false
    | some base => r.2 = true ∧ (base.key ∉ unmet ∨ base.key ∈ r.1.map fun e : Definition => e.key)

/-- A chain goes on with the first base type, if there is one that is not in it yet. -/
theorem Follows.cons {unmet : List TypeKey} {current base : Definition} {r : List Definition × Bool}
    (hbase : m.base? current = some base) (hunmet : base.key ∈ unmet)
    (h : m.Follows (without unmet base.key) base r) :
    m.Follows unmet current (base :: r.1, r.2) where
  steps := .cons_cons hbase h.steps
  holds := by
    obtain ⟨name, _, hname⟩ := Option.bind_eq_some_iff.mp hbase
    exact List.forall_mem_cons.mpr ⟨holds_of_denoted hname, h.holds⟩
  fresh := List.forall_mem_cons.mpr ⟨hunmet, fun e he => (mem_without.mp (h.fresh e he)).1⟩
  nodup := by
    rw [List.map_cons, List.nodup_cons]
    refine ⟨fun hmem => ?_, h.nodup⟩
    obtain ⟨e, he, hkey⟩ := List.mem_map.mp hmem
    exact (mem_without.mp (h.fresh e he)).2 hkey
  stop last hlast := by
    rw [List.getLast?_cons_cons] at hlast
    have hstop := h.stop last hlast
    split at hstop
    · exact hstop
    · refine ⟨hstop.1, ?_⟩
      rw [mem_without, not_and_or, not_not] at hstop
      rw [List.map_cons, List.mem_cons]
      tauto

/-- The chain of first base types is the same for sets of keys that agree on the model. -/
theorem exists_singleChain {unmet unmet' : List TypeKey} (h : m.Agree unmet unmet')
    (current : Definition) : ∃ r, Answers m (m.singleChain unmet current) r ∧
      Answers m (m.singleChain unmet' current) r ∧ m.Follows unmet current r := by
  rw [singleChain, singleChain]
  have hfirst := Answers.firstBase (m := m) current
  cases hbase : m.base? current with
  | none =>
    rw [hbase] at hfirst
    refine ⟨([], false), hfirst.bind (.pure _), hfirst.bind (.pure _), .singleton _, by simp, by simp,
      .nil, fun last hlast => ?_⟩
    obtain rfl : current = last := by simpa using hlast
    rw [hbase]
  | some base =>
    rw [hbase] at hfirst
    obtain ⟨name, _, hname⟩ := Option.bind_eq_some_iff.mp hbase
    by_cases hmem : base.key ∈ unmet
    · obtain ⟨r, hr, hr', hfollows⟩ := exists_singleChain (h.without base.key) base
      refine ⟨(base :: r.1, r.2), hfirst.bind ?_, hfirst.bind ?_, hfollows.cons hbase hmem⟩
      · dsimp only
        rw [dif_pos hmem]
        exact hr.bind (.pure _)
      · dsimp only
        rw [dif_pos ((h base (holds_of_denoted hname)).mp hmem)]
        exact hr'.bind (.pure _)
    · refine ⟨([], true), hfirst.bind ?_, hfirst.bind ?_, .singleton _, by simp, by simp, .nil,
        fun last hlast => ?_⟩
      · dsimp only
        rw [dif_neg hmem]
        exact .pure _
      · dsimp only
        rw [dif_neg fun hmem' => hmem ((h base (holds_of_denoted hname)).mpr hmem')]
        exact .pure _
      · obtain rfl : current = last := by simpa using hlast
        rw [hbase]
        exact ⟨rfl, .inl hmem⟩
termination_by unmet.length
decreasing_by exact length_without_lt hmem

/-! ### Chains of all bases -/

/-- What holds while the chain of an interface is searched: what was found is reached, and the bases of
what was found have been looked up, but for those of pending types and the given names. -/
structure Search (m : Model) (d : Definition) (pending : List Definition) (current : Definition)
    (names : List String) (chain : List Definition) (cycle : Bool) : Prop where
  head : chain.head? = some d
  nodup : (chain.map fun e : Definition => e.key).Nodup
  holds : ∀ e ∈ chain, m.Holds e
  reached : ∀ e ∈ chain, ReflTransGen m.Extends d e
  current_mem : current ∈ chain
  pending_mem : ∀ e ∈ pending, e ∈ chain
  names_mem : ∀ name ∈ names, name ∈ current.baseNames
  looked : ∀ e ∈ chain, e ∈ pending ∨ ∀ name ∈ e.baseNames, (e = current ∧ name ∈ names) ∨
    ∀ base, m.denoted name e.context = some base →
      base.key ∈ (chain.map fun e : Definition => e.key) ∧ (base.key = d.key → cycle = true)
  back : cycle = true → ∃ e ∈ chain, ∃ base, m.Extends e base ∧ base.key = d.key

namespace Search

variable {pending : List Definition} {current : Definition} {name : String} {names : List String}
  {chain : List Definition} {cycle : Bool}

/-- The search for all base types begins at the type itself. -/
theorem init (hd : m.Holds d) : m.Search d [] d d.baseNames [d] false where
  head := rfl
  nodup := List.nodup_singleton _
  holds := by simpa using hd
  reached := by
    intro e he
    obtain rfl := List.mem_singleton.mp he
    exact .refl
  current_mem := List.mem_singleton_self d
  pending_mem := by simp
  names_mem _ h := h
  looked e he := .inr fun name hname => .inl ⟨List.mem_singleton.mp he, List.mem_singleton.mp he ▸ hname⟩
  back := nofun

/-- The bases of the next pending type are looked up. -/
theorem next {p : Definition} {ps : List Definition} (h : m.Search d (p :: ps) current [] chain cycle) :
    m.Search d ps p p.baseNames chain cycle where
  head := h.head
  nodup := h.nodup
  holds := h.holds
  reached := h.reached
  current_mem := h.pending_mem p List.mem_cons_self
  pending_mem e he := h.pending_mem e (List.mem_cons_of_mem p he)
  names_mem _ hname := hname
  looked e he := by
    rcases h.looked e he with hmem | hclosed
    · rcases List.mem_cons.mp hmem with rfl | hmem
      · exact .inr fun name hname => .inl ⟨rfl, hname⟩
      · exact .inl hmem
    · exact .inr fun name hname => .inr ((hclosed name hname).resolve_left (by simp))
  back := h.back

/-- A name was looked up, and what it denotes, if anything, is on the chain. -/
theorem looked_name (h : m.Search d pending current (name :: names) chain cycle) {cycle' : Bool}
    (hname : ∀ base, m.denoted name current.context = some base →
      base.key ∈ (chain.map fun e : Definition => e.key) ∧ (base.key = d.key → cycle' = true))
    (hcycle : cycle = true → cycle' = true)
    (hback : cycle' = true → ∃ e ∈ chain, ∃ base, m.Extends e base ∧ base.key = d.key) :
    m.Search d pending current names chain cycle' where
  head := h.head
  nodup := h.nodup
  holds := h.holds
  reached := h.reached
  current_mem := h.current_mem
  pending_mem := h.pending_mem
  names_mem n hn := h.names_mem n (List.mem_cons_of_mem name hn)
  looked e he := by
    refine (h.looked e he).imp_right fun hclosed n hn => ?_
    rcases hclosed n hn with ⟨rfl, hmem⟩ | hclosed
    · rcases List.mem_cons.mp hmem with rfl | hmem
      · exact .inr hname
      · exact .inl ⟨rfl, hmem⟩
    · exact .inr fun base hbase => ⟨(hclosed base hbase).1, fun hkey => hcycle ((hclosed base hbase).2 hkey)⟩
  back := hback

/-- A type is found. -/
theorem found (h : m.Search d pending current (name :: names) chain cycle) {base : Definition}
    (hbase : m.denoted name current.context = some base)
    (hnew : base.key ∉ chain.map fun e : Definition => e.key) :
    m.Search d (base :: pending) current (name :: names) (chain ++ [base]) cycle where
  head := by
    rw [List.head?_append, h.head]
    rfl
  nodup := by
    rw [List.map_append, List.map_singleton]
    exact List.nodup_append.mpr ⟨h.nodup, List.nodup_singleton _, by
      intro k hk k' hk' heq
      obtain rfl := List.mem_singleton.mp hk'
      exact hnew (heq ▸ hk)⟩
  holds := by
    intro e he
    rcases List.mem_append.mp he with he | he
    · exact h.holds e he
    · exact List.mem_singleton.mp he ▸ holds_of_denoted hbase
  reached := by
    intro e he
    rcases List.mem_append.mp he with he | he
    · exact h.reached e he
    · obtain rfl := List.mem_singleton.mp he
      exact (h.reached current h.current_mem).tail ⟨name, h.names_mem name List.mem_cons_self, hbase⟩
  current_mem := List.mem_append_left _ h.current_mem
  pending_mem e he := by
    rcases List.mem_cons.mp he with rfl | he
    · exact List.mem_append_right _ (List.mem_singleton_self _)
    · exact List.mem_append_left _ (h.pending_mem e he)
  names_mem := h.names_mem
  looked e he := by
    rcases List.mem_append.mp he with he | he
    · refine (h.looked e he).imp (List.mem_cons_of_mem base) fun hclosed n hn => ?_
      refine (hclosed n hn).imp_right fun hclosed b hb => ?_
      refine ⟨?_, (hclosed b hb).2⟩
      rw [List.map_append]
      exact List.mem_append_left _ (hclosed b hb).1
    · exact .inl (List.mem_singleton.mp he ▸ List.mem_cons_self)
  back hcycle := by
    obtain ⟨e, he, hback⟩ := h.back hcycle
    exact ⟨e, List.mem_append_left _ he, hback⟩

end Search

/-- The keys on a chain are those that were met. -/
def Unmet (m : Model) (unmet : List TypeKey) (chain : List Definition) : Prop :=
  ∀ x, m.Holds x → (x.key ∈ unmet ↔ x.key ∉ chain.map fun e : Definition => e.key)

/-- A type that was found is not looked for again. -/
theorem Unmet.found {unmet : List TypeKey} {chain : List Definition} (h : m.Unmet unmet chain)
    (base : Definition) : m.Unmet (without unmet base.key) (chain ++ [base]) := by
  intro x hx
  rw [mem_without, h x hx, List.map_append, List.map_singleton, List.mem_append, List.mem_singleton,
    not_or]

/-- What every step of a search for the chain of `d` keeps: going on to the next pending type, a name that
denotes nothing, a name that denotes a type met before, and a name that denotes a new type. -/
structure Lasting (m : Model) (d : Definition)
    (I : List Definition → Definition → List String → List Definition → Bool → Prop) : Prop where
  next : ∀ {p ps current chain cycle}, I (p :: ps) current [] chain cycle → I ps p p.baseNames chain cycle
  unresolved : ∀ {pending current name names chain cycle}, m.denoted name current.context = none →
    I pending current (name :: names) chain cycle → I pending current names chain cycle
  known : ∀ {pending current name names chain cycle base}, m.denoted name current.context = some base →
    base.key ∈ (chain.map fun e : Definition => e.key) → I pending current (name :: names) chain cycle →
      I pending current names chain (cycle || decide (base.key = d.key))
  found : ∀ {pending current name names chain cycle base}, m.denoted name current.context = some base →
    base.key ∉ (chain.map fun e : Definition => e.key) → I pending current (name :: names) chain cycle →
      I (base :: pending) current names (chain ++ [base]) (cycle || decide (base.key = d.key))

/-- **The search ends with nothing pending, and with all that its steps keep.** -/
theorem Lasting.exists_branchingChain
    {I : List Definition → Definition → List String → List Definition → Bool → Prop} (hI : m.Lasting d I)
    {unmet unmet' : List TypeKey} {pending : List Definition} {current : Definition}
    {names : List String} {chain : List Definition} {cycle : Bool}
    (h : I pending current names chain cycle) (hunmet : m.Unmet unmet chain)
    (hunmet' : m.Unmet unmet' chain) :
    ∃ r, Answers m (m.branchingChain d.key unmet pending current names chain cycle) r ∧
      Answers m (m.branchingChain d.key unmet' pending current names chain cycle) r ∧
      ∃ last, I [] last [] r.1 r.2 := by
  fun_induction branchingChain m d.key unmet pending current names chain cycle generalizing unmet' with
  | case1 unmet current chain cycle =>
    rw [branchingChain]
    exact ⟨(chain, cycle), .pure _, .pure _, current, h⟩
  | case2 unmet current chain cycle p ps ih =>
    have hnext : m.branchingChain d.key unmet' (p :: ps) current [] chain cycle =
        m.branchingChain d.key unmet' ps p p.baseNames chain cycle := by
      rw [branchingChain]
    rw [hnext]
    exact ih (hI.next h) hunmet hunmet'
  | case3 unmet pending current chain cycle name names ihnone ihmet ihunmet =>
    rw [branchingChain]
    have hlookup := Answers.lookup (m := m) name current.context
    cases hbase : m.denoted name current.context with
    | none =>
      rw [hbase] at hlookup
      obtain ⟨r, hr, hr', hlast⟩ := ihnone (hI.unresolved hbase h) hunmet hunmet'
      exact ⟨r, hlookup.bind hr, hlookup.bind hr', hlast⟩
    | some base =>
      rw [hbase] at hlookup
      have hholds := holds_of_denoted hbase
      by_cases hmem : base.key ∈ unmet
      · have hnew := (hunmet base hholds).mp hmem
        obtain ⟨r, hr, hr', hlast⟩ := ihmet base hmem (hI.found hbase hnew h) (hunmet.found base)
          (hunmet'.found base)
        refine ⟨r, hlookup.bind ?_, hlookup.bind ?_, hlast⟩
        · dsimp only
          rw [dif_pos hmem]
          exact hr
        · dsimp only
          rw [dif_pos ((hunmet' base hholds).mpr hnew)]
          exact hr'
      · have hold := not_not.mp fun hnew => hmem ((hunmet base hholds).mpr hnew)
        obtain ⟨r, hr, hr', hlast⟩ := ihunmet base (hI.known hbase hold h) hunmet hunmet'
        refine ⟨r, hlookup.bind ?_, hlookup.bind ?_, hlast⟩
        · dsimp only
          rw [dif_neg hmem]
          exact hr
        · dsimp only
          rw [dif_neg fun hmem' => (hunmet' base hholds).mp hmem' hold]
          exact hr'

namespace Search

variable {pending : List Definition} {current base : Definition} {name : String} {names : List String}
  {chain : List Definition} {cycle : Bool}

/-- The flag stands for a way back to the beginning, also when it is set by what a name denotes. -/
theorem back_or (h : m.Search d pending current (name :: names) chain cycle)
    (hbase : m.denoted name current.context = some base)
    (hcycle : (cycle || decide (base.key = d.key)) = true) :
    ∃ e ∈ chain, ∃ b, m.Extends e b ∧ b.key = d.key := by
  rw [Bool.or_eq_true, decide_eq_true_iff] at hcycle
  rcases hcycle with hcycle | hkey
  · exact h.back hcycle
  · exact ⟨current, h.current_mem, base, ⟨name, h.names_mem name List.mem_cons_self, hbase⟩, hkey⟩

/-- A name was looked up and what it denotes is on the chain. -/
theorem looked_base (h : m.Search d pending current (name :: names) chain cycle)
    (hbase : m.denoted name current.context = some base)
    (hmem : base.key ∈ chain.map fun e : Definition => e.key)
    (hback : (cycle || decide (base.key = d.key)) = true →
      ∃ e ∈ chain, ∃ b, m.Extends e b ∧ b.key = d.key) :
    m.Search d pending current names chain (cycle || decide (base.key = d.key)) := by
  refine h.looked_name (fun b hb => ?_) (by rintro rfl; rfl) hback
  obtain rfl : base = b := Option.some.inj (hbase.symm.trans hb)
  exact ⟨hmem, fun hkey => by simp [hkey]⟩

/-- **Every step keeps what holds while the chain is searched.** -/
theorem lasting (m : Model) (d : Definition) : m.Lasting d (m.Search d) where
  next h := h.next
  unresolved hnone h := h.looked_name (by simp [hnone]) id h.back
  known hbase hmem h := h.looked_base hbase hmem (h.back_or hbase)
  found hbase hnew h := by
    refine (h.found hbase hnew).looked_base hbase (by simp) fun hcycle => ?_
    obtain ⟨e, he, hb⟩ := h.back_or hbase hcycle
    exact ⟨e, List.mem_append_left _ he, hb⟩

end Search

/-! ### Chains -/

/-- The chain of a type, and whether it runs in a circle, as they are found with nothing remembered. -/
def lineage (m : Model) (d : Definition) : List Definition × Bool :=
  (m.chainOf (d.key :: m.knownKeys {}) d {}).1

/-- A type that extends nothing is alone on its chain. -/
theorem lineage_of_baseNames_eq_nil (m : Model) (h : d.baseNames = []) : m.lineage d = ([d], false) := by
  unfold lineage chainOf
  split
  · rw [h, branchingChain]
    rfl
  · rw [singleChain, firstBase, h]
    rfl

/-- At the beginning everything but the type itself is still to be met. -/
theorem unmet_init {known : List TypeKey} (h : m.Covers known) (d : Definition) :
    m.Unmet (without known d.key) [d] := by
  intro x hx
  rw [mem_without, List.map_singleton, List.mem_singleton, and_iff_right (h x hx)]

/-- What is found when the chain of a type is searched, whatever keys are known. -/
theorem exists_chainOf (hd : m.Holds d) {known known' : List TypeKey} (h : m.Covers known)
    (h' : m.Covers known') : ∃ r, Answers m (m.chainOf known d) r ∧ Answers m (m.chainOf known' d) r ∧
      (d.kind.isInterface = false →
        ∃ more, r = (d :: more.1, more.2) ∧ m.Follows (without known d.key) d more) := by
  unfold chainOf
  dsimp only
  cases d.kind.isInterface with
  | true =>
    obtain ⟨r, hr, hr', _⟩ :=
      (Search.lasting m d).exists_branchingChain (.init hd) (unmet_init h d) (unmet_init h' d)
    exact ⟨r, hr, hr', nofun⟩
  | false =>
    have hagree : m.Agree (without known d.key) (without known' d.key) := by
      intro x hx
      rw [mem_without, mem_without, and_iff_right (h x hx), and_iff_right (h' x hx)]
    obtain ⟨more, hr, hr', hfollows⟩ := exists_singleChain hagree d
    exact ⟨(d :: more.1, more.2), hr.bind (.pure _), hr'.bind (.pure _),
      fun _ => ⟨more, rfl, hfollows⟩⟩

theorem coherent_nothing (m : Model) : Memory.Coherent m {} :=
  fun _ he => absurd he List.not_mem_nil

/-- **The chain of a type depends on the index and the tables alone.** -/
theorem chainOf_answers (hd : m.Holds d) {known : List TypeKey} (h : m.Covers known) :
    Answers m (m.chainOf known d) (m.lineage d) := by
  obtain ⟨r, hr, hr', _⟩ := exists_chainOf hd h (covers_knownKeys {} d.key)
  have heq : m.lineage d = r := (hr' {} (coherent_nothing m)).1
  rw [heq]
  exact hr

/-- A chain of first bases: each type is the first base of the one before, no type comes twice, and at the
end there is no base, or one that is on the chain already. Types are told apart by their keys. -/
structure FirstBases (m : Model) (d : Definition) (chain : List Definition) (cycle : Bool) : Prop where
  head : chain.head? = some d
  steps : chain.IsChain fun x y => m.base? x = some y
  nodup : (chain.map fun e : Definition => e.key).Nodup
  stop : ∀ last, chain.getLast? = some last →
    match m.base? last with
    | none => cycle = false
    | some base => base.key ∈ (chain.map fun e : Definition => e.key) ∧ cycle = true

/-- A chain of all bases: the types that are reached through bases, each once; it runs in a circle if it
leads back to its beginning. Types are told apart by their keys. -/
structure AllBases (m : Model) (d : Definition) (chain : List Definition) (cycle : Bool) : Prop where
  head : chain.head? = some d
  nodup : (chain.map fun e : Definition => e.key).Nodup
  reached : ∀ e ∈ chain, ReflTransGen m.Extends d e
  closed : ∀ e ∈ chain, ∀ base, m.Extends e base → base.key ∈ chain.map fun e : Definition => e.key
  back : cycle = true ↔ ∃ e ∈ chain, ∃ base, m.Extends e base ∧ base.key = d.key

/-- **The chain of a type that is no interface.** -/
theorem lineage_single (hd : m.Holds d) (hkind : d.kind.isInterface = false) :
    m.FirstBases d (m.lineage d).1 (m.lineage d).2 := by
  have hknown := covers_knownKeys (m := m) {} d.key
  obtain ⟨r, hr, _, hsingle⟩ := exists_chainOf hd hknown hknown
  obtain ⟨more, rfl, hfollows⟩ := hsingle hkind
  rw [show m.lineage d = (d :: more.1, more.2) from (hr {} (coherent_nothing m)).1]
  refine ⟨rfl, hfollows.steps, ?_, fun last hlast => ?_⟩
  · rw [List.map_cons, List.nodup_cons]
    refine ⟨fun hmem => ?_, hfollows.nodup⟩
    obtain ⟨e, he, hkey⟩ := List.mem_map.mp hmem
    exact (mem_without.mp (hfollows.fresh e he)).2 hkey
  · have hstop := hfollows.stop last hlast
    split at hstop
    · exact hstop
    · rename_i base hbase
      obtain ⟨name, _, hname⟩ := Option.bind_eq_some_iff.mp hbase
      refine ⟨?_, hstop.1⟩
      rw [List.map_cons, List.mem_cons]
      refine hstop.2.imp_left fun hmet => ?_
      by_contra hne
      exact hmet (mem_without.mpr ⟨hknown base (holds_of_denoted hname), hne⟩)

/-- What every step of the search keeps holds of the chain of an interface. -/
theorem Lasting.lineage {I : List Definition → Definition → List String → List Definition → Bool → Prop}
    (hI : m.Lasting d I) (hkind : d.kind.isInterface = true)
    (hinit : I [] d d.baseNames [d] false) :
    ∃ last, I [] last [] (m.lineage d).1 (m.lineage d).2 := by
  have hunmet := unmet_init (covers_knownKeys (m := m) {} d.key) d
  obtain ⟨r, hr, _, hlast⟩ := hI.exists_branchingChain hinit hunmet hunmet
  have hlineage : m.lineage d = r := by
    rw [Model.lineage, chainOf, if_pos hkind]
    exact (hr {} (coherent_nothing m)).1
  rwa [hlineage]

/-- **The chain of an interface.** -/
theorem lineage_branching (hd : m.Holds d) (hkind : d.kind.isInterface = true) :
    m.AllBases d (m.lineage d).1 (m.lineage d).2 := by
  obtain ⟨last, hsearch⟩ := (Search.lasting m d).lineage hkind (.init hd)
  have hclosed : ∀ e ∈ (m.lineage d).1, ∀ base, m.Extends e base →
      base.key ∈ ((m.lineage d).1.map fun e : Definition => e.key) ∧
        (base.key = d.key → (m.lineage d).2 = true) := by
    rintro e he base ⟨name, hname, hbase⟩
    have hlooked := (hsearch.looked e he).resolve_left List.not_mem_nil
    exact (hlooked name hname).resolve_left (by simp) base hbase
  refine ⟨hsearch.head, hsearch.nodup, hsearch.reached, fun e he base hbase => (hclosed e he base hbase).1,
    hsearch.back, ?_⟩
  rintro ⟨e, he, base, hbase, hkey⟩
  exact (hclosed e he base hbase).2 hkey

namespace AllBases

variable {chain : List Definition} {cycle : Bool}

/-- **The types on the chain of an interface are those that are reached through bases.** -/
theorem mem_iff (h : m.AllBases d chain cycle) (hm : m.Keyed) (hd : m.Holds d) (e : Definition) :
    e ∈ chain ↔ ReflTransGen m.Extends d e := by
  have hholds : ∀ {x}, ReflTransGen m.Extends d x → m.Holds x := by
    intro x hx
    cases hx with
    | refl => exact hd
    | tail _ hstep =>
      obtain ⟨name, _, hname⟩ := hstep
      exact holds_of_denoted hname
  refine ⟨h.reached e, fun he => ?_⟩
  induction he with
  | refl => exact List.mem_of_mem_head? h.head
  | @tail x y hx hstep ih =>
    obtain ⟨e, he, hkey⟩ := List.mem_map.mp (h.closed x ih y hstep)
    exact hm (hholds (h.reached e he)) (hholds (hx.tail hstep)) hkey ▸ he

/-- The search tells of a cycle exactly if the type extends itself in the end. -/
theorem cycle_iff (h : m.AllBases d chain cycle) (hm : m.Keyed) (hd : m.Holds d) :
    cycle = true ↔ TransGen m.Extends d d := by
  rw [h.back, TransGen.tail'_iff]
  constructor
  · rintro ⟨e, he, base, ⟨name, hname, hbase⟩, hkey⟩
    obtain rfl := hm (holds_of_denoted hbase) hd hkey
    exact ⟨e, h.reached e he, name, hname, hbase⟩
  · rintro ⟨e, he, hbase⟩
    exact ⟨e, (h.mem_iff hm hd e).mpr he, d, hbase, rfl⟩

end AllBases

end Model

end NedWorkspace
