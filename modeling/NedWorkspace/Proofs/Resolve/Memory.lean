/-
# What questions do to the memory

All questions to a model are made of two: what does a name denote, and what are the members of a type.
`Query.Built` is that class of questions. `Memory.Asked` says what they can do to the memory: answers of
the rule are added, and members of types that had none. From this follow

* `Memory.Asked.coherent`: remembered lookups stay what the rule gives,
* `Memory.Asked.extension`: what is remembered stays remembered,
* `Query.Built.replay`: a question that was asked already is answered alike from memory, and changes
  nothing.
-/

import NedWorkspace.Check.File
import NedWorkspace.Proofs.Map.Laws

namespace NedWorkspace

/-- The type that a name denotes in a context, by the rule alone. -/
def Model.denoted (m : Model) (name : String) (context : LookupContext) : Option Definition :=
  (m.projectFor? context).bind fun project => m.resolve name context project

namespace Memory

/-- Every remembered lookup is what the rule gives. -/
def Coherent (m : Model) (memory : Memory) : Prop :=
  ∀ e ∈ memory.lookups.entries.entries, e.2 = m.resolve e.1.2.2 e.1.2.1 e.1.1

/-- What the first memory holds, the second holds too. -/
structure Extends (memory memory' : Memory) : Prop where
  lookups : ∀ k a, memory.lookups.entries.get? k = some a → memory'.lookups.entries.get? k = some a
  members : ∀ i a, memory.members.get? i = some a → memory'.members.get? i = some a

/-- What asking a model does to a memory. -/
inductive Asked (m : Model) : Memory → Memory → Prop
  | refl (memory : Memory) : Asked m memory memory
  | trans {a b c : Memory} : Asked m a b → Asked m b c → Asked m a c
  | looked (memory : Memory) (name : String) (context : LookupContext) (project : String) :
      Asked m memory (m.lookupIn name context project memory).2
  /-- Members are gathered, during which more is asked, and remembered. -/
  | gathered {before after : Memory} (id : DefinitionId) (members : Members) :
      before.members.get? id = none → Asked m before after →
        Asked m before { after with members := after.members.insert id members }

/-- What was looked up before is answered from memory, which stays as it is. -/
theorem lookupIn_eq_of_get? {m : Model} {memory : Memory} {name : String} {context : LookupContext}
    {project : String} {answer : Option Definition}
    (h : memory.lookups.entries.get? (project, context, name) = some answer) :
    m.lookupIn name context project memory = (answer, memory) := by
  simp only [Model.lookupIn, LookupCache.lookupIn, h]

/-- What is looked up for the first time is resolved and remembered. -/
theorem lookupIn_eq_of_get?_none {m : Model} {memory : Memory} {name : String}
    {context : LookupContext} {project : String}
    (h : memory.lookups.entries.get? (project, context, name) = none) :
    m.lookupIn name context project memory =
      (m.resolve name context project, { memory with lookups := {
        entries := memory.lookups.entries.insert (project, context, name)
          (m.resolve name context project)
        misses := memory.lookups.misses + 1 } }) := by
  simp only [Model.lookupIn, LookupCache.lookupIn, h]

/-- A coherent memory answers a lookup as the rule does. -/
theorem Coherent.lookupIn {m : Model} {memory : Memory} (h : memory.Coherent m) (name : String)
    (context : LookupContext) (project : String) :
    (m.lookupIn name context project memory).1 = m.resolve name context project := by
  cases hget : memory.lookups.entries.get? (project, context, name) with
  | some answer =>
    rw [lookupIn_eq_of_get? hget]
    exact h _ (OrderedMap.mem_of_get? hget)
  | none => rw [lookupIn_eq_of_get?_none hget]

/-- A coherent memory makes no difference to a lookup. -/
theorem Coherent.lookup {m : Model} {memory : Memory} (h : memory.Coherent m) (name : String)
    (context : LookupContext) : (m.lookup name context memory).1 = m.denoted name context := by
  unfold Model.lookup Model.denoted
  cases m.projectFor? context with
  | none => rfl
  | some project => exact h.lookupIn name context project

/-- After a lookup its answer is remembered. -/
theorem get?_lookupIn (m : Model) (memory : Memory) (name : String) (context : LookupContext)
    (project : String) :
    (m.lookupIn name context project memory).2.lookups.entries.get? (project, context, name)
      = some (m.lookupIn name context project memory).1 := by
  cases hget : memory.lookups.entries.get? (project, context, name) with
  | some answer =>
    rw [lookupIn_eq_of_get? hget]
    exact hget
  | none =>
    rw [lookupIn_eq_of_get?_none hget]
    exact OrderedMap.get?_insert_self ..

namespace Asked

variable {m : Model} {memory memory' : Memory}

/-- **Asking keeps remembered lookups what the rule gives.** -/
theorem coherent (h : Asked m memory memory') (hm : memory.Coherent m) : memory'.Coherent m := by
  induction h with
  | refl => exact hm
  | trans _ _ ih₁ ih₂ => exact ih₂ (ih₁ hm)
  | looked memory name context project =>
    cases hget : memory.lookups.entries.get? (project, context, name) with
    | some answer =>
      rw [lookupIn_eq_of_get? hget]
      exact hm
    | none =>
      rw [lookupIn_eq_of_get?_none hget]
      intro e he
      rcases OrderedMap.mem_insert he with rfl | he
      · rfl
      · exact hm e he
  | gathered id members _ _ ih => exact ih hm

/-- Asking forgets nothing. -/
theorem extension (h : Asked m memory memory') : memory.Extends memory' := by
  induction h with
  | refl => exact ⟨fun _ _ h => h, fun _ _ h => h⟩
  | trans _ _ ih₁ ih₂ =>
    exact ⟨fun k a h => ih₂.lookups k a (ih₁.lookups k a h),
      fun i a h => ih₂.members i a (ih₁.members i a h)⟩
  | looked memory name context project =>
    cases hget : memory.lookups.entries.get? (project, context, name) with
    | some answer =>
      rw [lookupIn_eq_of_get? hget]
      exact ⟨fun _ _ h => h, fun _ _ h => h⟩
    | none =>
      rw [lookupIn_eq_of_get?_none hget]
      refine ⟨fun k a hk => ?_, fun _ _ h => h⟩
      have hne : k ≠ (project, context, name) := by
        rintro rfl
        rw [hget] at hk
        exact absurd hk (by simp)
      exact (OrderedMap.get?_insert_of_ne _ _ hne).trans hk
  | gathered id members hnone _ ih =>
    -- Whatever was asked meanwhile, the type had no members at the beginning.
    refine ⟨ih.lookups, fun i a hi => ?_⟩
    have hne : i ≠ id := by
      rintro rfl
      rw [hnone] at hi
      exact absurd hi (by simp)
    exact (OrderedMap.get?_insert_of_ne _ _ hne).trans (ih.members i a hi)

end Asked

end Memory

open Memory

namespace Query

/-- A question that does to the memory only what asking does. -/
def Asks {α : Type} (m : Model) (q : Query α) : Prop :=
  ∀ memory, Asked m memory (q memory).2

variable {α β : Type} {m : Model}

theorem Asks.pure (a : α) : Asks m (Pure.pure a : Query α) :=
  fun memory => .refl memory

theorem Asks.bind {q : Query α} {f : α → Query β} (hq : Asks m q) (hf : ∀ a, Asks m (f a)) :
    Asks m (q >>= f) :=
  fun memory => .trans (hq memory) (hf (q memory).1 (q memory).2)

/-- The second query sees the memory that the first one leaves. -/
theorem bind_apply (q : Query α) (f : α → Query β) (memory : Memory) :
    (q >>= f) memory = f (q memory).1 (q memory).2 := rfl

/-- A question that begins with a look at the memory. -/
theorem get_bind (f : Memory → Query α) (memory : Memory) :
    ((get : Query Memory) >>= f) memory = f memory memory := rfl

end Query

open Query

namespace Model

/-- One key is taken out, and no other. -/
theorem mem_without {keys : List TypeKey} {k key : TypeKey} :
    k ∈ without keys key ↔ k ∈ keys ∧ k ≠ key := by
  rw [without, List.mem_filter, decide_eq_true_iff]

variable (m : Model)

theorem lookupIn_asks (name : String) (context : LookupContext) (project : String) :
    Asks m (m.lookupIn name context project) :=
  fun memory => .looked memory name context project

theorem lookup_asks (name : String) (context : LookupContext) : Asks m (m.lookup name context) := by
  unfold lookup
  cases m.projectFor? context with
  | none => exact .pure none
  | some project => exact m.lookupIn_asks name context project

theorem firstBase_asks (d : Definition) : Asks m (m.firstBase d) := by
  unfold firstBase
  cases d.baseNames with
  | nil => exact .pure none
  | cons name _ => exact m.lookup_asks name d.context

/-- A chain of first base types is followed by looking up names. -/
theorem singleChain_asks (unmet : List TypeKey) (current : Definition) :
    Asks m (m.singleChain unmet current) := by
  rw [singleChain]
  refine .bind (m.firstBase_asks current) fun base => ?_
  cases base with
  | none => exact .pure _
  | some base =>
    dsimp only
    split
    · exact .bind (singleChain_asks (without unmet base.key) base) fun _ => .pure _
    · exact .pure _
termination_by unmet.length
decreasing_by
  rename_i h
  exact length_without_lt h

/-- All base types are found by looking up names. -/
theorem branchingChain_asks (self : TypeKey) (unmet : List TypeKey) (pending : List Definition)
    (current : Definition) (names : List String) (chain : List Definition) (cycle : Bool) :
    Asks m (m.branchingChain self unmet pending current names chain cycle) := by
  fun_induction branchingChain m self unmet pending current names chain cycle with
  | case1 => exact .pure _
  | case2 => assumption
  | case3 unmet pending current chain cycle name names ihnone ihmet ihunmet =>
    refine .bind (m.lookup_asks name current.context) fun base => ?_
    cases base with
    | none => exact ihnone
    | some base =>
      dsimp only
      split
      · rename_i h
        exact ihmet base h
      · exact ihunmet base

theorem chainOf_asks (known : List TypeKey) (d : Definition) : Asks m (m.chainOf known d) := by
  unfold chainOf
  dsimp only
  split
  · exact m.branchingChain_asks d.key (without known d.key) [] d d.baseNames [d] false
  · exact .bind (m.singleChain_asks (without known d.key) d) fun _ => .pure _

/-- The names of interfaces that a chain is like, each with the type that names it. -/
def likesAlong (chain : List Definition) : List (Definition × String) :=
  chain.flatMap fun t => t.likeNames.map fun name => (t, name)

/-- The interfaces that a type implements by its chain alone. -/
def interfacesAlong (d : Definition) (chain : List Definition) : List String :=
  if d.kind.isInterface then ProjectTable.addNames [] ((chain.drop 1).map fun s => s.qname) else []

/-- The members gathered along a chain. -/
def membersAlong (chain : List Definition × Bool) (interfaces : List String) : Members :=
  { chain := chain.1, interfaces, params := Members.paramsOf chain.1,
    gates := Members.gatesOf chain.1, cycle := chain.2 }

variable {m} {known idle : List TypeKey} {d : Definition} {memory : Memory}

/-- Members that are remembered are answered from memory, which stays as it is. -/
theorem membersAmong_of_get? {members : Members} (h : memory.members.get? d.id = some members) :
    m.membersAmong known idle d memory = (members, memory) := by
  rw [membersAmong]
  rw [Query.get_bind, h]
  rfl

/-- A type whose members are being gathered. -/
theorem membersAmong_of_busy (h : memory.members.get? d.id = none) (hidle : d.key ∉ idle) :
    m.membersAmong known idle d memory = (Members.reentered d, memory) := by
  rw [membersAmong]
  rw [Query.get_bind, h]
  dsimp only
  rw [dif_neg hidle]
  rfl

/-- A type whose members are gathered now. -/
theorem membersAmong_of_idle (h : memory.members.get? d.id = none) (hidle : d.key ∈ idle) :
    m.membersAmong known idle d memory =
      let chain := m.chainOf known d memory
      let interfaces := m.implementedBy known (without idle d.key) (likesAlong chain.1.1)
        (interfacesAlong d chain.1.1) chain.2
      let members := membersAlong chain.1 interfaces.1
      (members, { interfaces.2 with members := interfaces.2.members.insert d.id members }) := by
  rw [membersAmong]
  rw [Query.get_bind, h]
  dsimp only
  rw [dif_pos hidle]
  rfl

theorem implementedBy_nil (found : List String) :
    m.implementedBy known idle [] found = pure found := by
  rw [implementedBy]

/-- A claim that names no type is passed over; else the interface and what it extends are added. -/
theorem implementedBy_cons (t : Definition) (name : String) (likes : List (Definition × String))
    (found : List String) : m.implementedBy known idle ((t, name) :: likes) found = (do
      match ← m.lookup name t.context with
      | none => m.implementedBy known idle likes found
      | some interface =>
        let members ← m.membersAmong known idle interface
        m.implementedBy known idle likes
          (ProjectTable.addNames found (members.chain.map fun s => s.qname))) := by
  refine (implementedBy.eq_2 ..).trans (bind_congr fun interface => ?_)
  cases interface <;> rfl

variable (m)

mutual

theorem membersAmong_asks (known idle : List TypeKey) (d : Definition) :
    Asks m (m.membersAmong known idle d) := by
  intro memory
  cases hget : memory.members.get? d.id with
  | some members =>
    rw [membersAmong_of_get? hget]
    exact .refl memory
  | none =>
    by_cases hidle : d.key ∈ idle
    · rw [membersAmong_of_idle hget hidle]
      refine .gathered d.id _ hget ?_
      exact .trans (m.chainOf_asks known d memory)
        (implementedBy_asks known (without idle d.key) _ _ _)
    · rw [membersAmong_of_busy hget hidle]
      exact .refl memory
termination_by (idle.length, 0)
decreasing_by exact Prod.Lex.left _ _ (length_without_lt hidle)

theorem implementedBy_asks (known idle : List TypeKey) (likes : List (Definition × String))
    (found : List String) : Asks m (m.implementedBy known idle likes found) := by
  match likes with
  | [] =>
    rw [implementedBy_nil]
    exact .pure found
  | (t, name) :: likes =>
    rw [implementedBy_cons]
    refine .bind (m.lookup_asks name t.context) fun interface => ?_
    cases interface with
    | none => exact implementedBy_asks known idle likes found
    | some interface =>
      exact .bind (membersAmong_asks known idle interface) fun _ =>
        implementedBy_asks known idle likes _
termination_by (idle.length, likes.length)
decreasing_by all_goals exact Prod.Lex.right _ (by simp)

end

/-- All types that are known are still to be met when members are asked for. -/
theorem members_eq (d : Definition) (memory : Memory) : m.members d memory =
    m.membersAmong (d.key :: m.knownKeys memory) (d.key :: m.knownKeys memory) d memory := rfl

theorem members_asks (d : Definition) : Asks m (m.members d) := by
  intro memory
  rw [members_eq]
  exact m.membersAmong_asks _ _ d memory

/-- After the members of a type were asked for, they are remembered. -/
theorem get?_members (d : Definition) (memory : Memory) :
    (m.members d memory).2.members.get? d.id = some (m.members d memory).1 := by
  rw [members_eq]
  cases hget : memory.members.get? d.id with
  | some members =>
    rw [membersAmong_of_get? hget]
    exact hget
  | none =>
    rw [membersAmong_of_idle hget List.mem_cons_self]
    exact OrderedMap.get?_insert_self ..

end Model

/-! ### Questions made of others -/

/-- A question that is made of lookups and of questions for members. -/
inductive Query.Built (m : Model) : {α : Type} → Query α → Prop
  | pure {α : Type} (a : α) : Built m (Pure.pure a : Query α)
  | bind {α β : Type} {q : Query α} {f : α → Query β} :
      Built m q → (∀ a, Built m (f a)) → Built m (q >>= f)
  | lookup (name : String) (context : LookupContext) : Built m (m.lookup name context)
  | members (d : Definition) : Built m (m.members d)

namespace Query.Built

variable {m : Model} {α β : Type}

/-- A query built of lookups and of questions for members asks for nothing else. -/
theorem asks {q : Query α} (h : Built m q) : Asks m q := by
  induction h with
  | pure a => exact .pure a
  | bind _ _ ihq ihf => exact .bind ihq ihf
  | lookup name context => exact m.lookup_asks name context
  | members d => exact m.members_asks d

/-- **A question that was asked already is answered alike from memory, and changes nothing.** The
memory may hold more by then. -/
theorem replay {q : Query α} (h : Built m q) {memory later : Memory}
    (hlater : (q memory).2.Extends later) : q later = ((q memory).1, later) := by
  induction h generalizing memory later with
  | pure a => rfl
  | @bind _ _ q f hq hf ihq ihf =>
    have hrest : (f (q memory).1 (q memory).2).2.Extends later := hlater
    have hbetween := ((hf (q memory).1).asks (q memory).2).extension
    have hfirst : (q memory).2.Extends later :=
      ⟨fun k a hk => hrest.lookups k a (hbetween.lookups k a hk),
        fun i a hi => hrest.members i a (hbetween.members i a hi)⟩
    change f (q later).1 (q later).2 = _
    rw [ihq hfirst]
    exact ihf (q memory).1 hrest
  | lookup name context =>
    unfold Model.lookup at hlater ⊢
    cases hproject : m.projectFor? context with
    | none => rfl
    | some project =>
      rw [hproject] at hlater
      exact lookupIn_eq_of_get? (hlater.lookups _ _ (get?_lookupIn m memory name context project))
  | members d =>
    rw [m.members_eq d later]
    exact Model.membersAmong_of_get? (hlater.members _ _ (m.get?_members d memory))

/-- Findings gathered from a list are built as those of each element are. -/
theorem collect {f : α → Query (List β)} (h : ∀ a, Built m (f a)) (as : List α) :
    Built m (Check.collect f as) := by
  induction as with
  | nil => exact .pure []
  | cons a as ih => exact .bind (h a) fun _ => .bind ih fun _ => .pure _

/-- A test by queries is built as the queries are. -/
theorem filterM {f : α → Query Bool} (h : ∀ a, Built m (f a)) (as : List α) :
    Built m (as.filterM f) := by
  have haux : ∀ kept : List α, Built m (as.filterAuxM f kept) := by
    induction as with
    | nil => exact fun kept => .pure kept
    | cons a as ih => exact fun kept => .bind (h a) fun b => ih _
  exact .bind (haux []) fun _ => .pure _

/-- Two ways of asking, and one way to go on. -/
theorem ite_bind {c : Prop} [Decidable c] {x y : Query α} {f : α → Query β} (hx : Built m x)
    (hy : Built m y) (hf : ∀ a, Built m (f a)) : Built m (if c then x >>= f else y >>= f) := by
  split
  · exact .bind hx hf
  · exact .bind hy hf

end Query.Built

namespace Model

variable (m : Model)

theorem firstBase_built (d : Definition) : Built m (m.firstBase d) := by
  unfold firstBase
  cases d.baseNames with
  | nil => exact .pure none
  | cons name _ => exact .lookup name d.context

theorem onlyImplementing_built (interface : String) (ds : List Definition)
    (found : Option Definition) : Built m (m.onlyImplementing interface ds found) := by
  induction ds generalizing found with
  | nil => exact .pure found
  | cons d ds ih =>
    rw [onlyImplementing]
    refine .bind (.members d) fun members => ?_
    split
    · split
      · exact .pure none
      · exact ih (some d)
    · exact ih found

theorem conforming_built (name interface project : String) :
    Built m (m.conforming name interface project) := by
  unfold conforming
  cases m.table? project with
  | none => exact .pure none
  | some table =>
    dsimp only
    split
    · exact .pure _
    · exact m.onlyImplementing_built interface _ none

theorem implementing_built (interface project : String) :
    Built m (m.implementing interface project) := by
  unfold implementing
  cases m.table? project with
  | none => exact .pure []
  | some table => exact .filterM (fun d => .bind (.members d) fun _ => .pure _) _

end Model

namespace Check

variable (m : Model) (d : Definition)

theorem reference_built (r : TypeRef) (f : Definition → List Finding) :
    Built m (reference m d r f) := by
  refine .bind (.lookup r.name d.context) fun t => ?_
  cases t <;> exact .pure _

theorem bases_built : Built m (bases m d) :=
  .bind (.collect (fun r => reference_built m d r _) _) fun _ => .pure _

theorem interfaces_built : Built m (interfaces m d) := by
  unfold interfaces
  split
  · exact .pure _
  · exact .collect (fun r => reference_built m d r _) _

theorem conformsTo_built (project : String) (own : Members) (interface : String) :
    Built m (conformsTo m project d own interface) := by
  unfold conformsTo
  split
  · exact .pure []
  · exact .bind (.members _) fun _ => .pure _

theorem conformance_built (own : Members) : Built m (conformance m d own) := by
  unfold conformance
  split
  · exact .pure []
  · cases m.projectFor? d.context with
    | none => exact .pure []
    | some project => exact .collect (conformsTo_built m d project own) _

theorem submodule_built (s : Submodule) : Built m (submodule m d s) := by
  refine .bind (.lookup s.type.name d.context) fun type => ?_
  cases type with
  | none => exact .pure _
  | some type =>
    dsimp only
    split
    · exact .pure _
    · split
      · exact .pure _
      · exact .bind (.members type) fun _ => .pure _

theorem endpoint_built (all : Members) (node : NodeId) (r : GateRef) (role : Role) :
    Built m (endpoint m d all node r role) := by
  unfold endpoint
  split
  · split <;> exact .pure _
  · split
    · exact .pure _
    · rename_i s _
      refine .bind (.lookup s.type.name d.context) fun type => ?_
      cases type with
      | none => exact .pure _
      | some type =>
        refine .bind (.members type) fun members => ?_
        cases members.gate? r.base <;> exact .pure _

theorem channel_built (c : ChannelSpec) : Built m (channel m d c) := by
  unfold channel
  split
  · exact .pure []
  · exact reference_built m d _ _

theorem connection_built (all : Members) (c : Connection) : Built m (connection m d all c) := by
  unfold connection
  dsimp only
  refine .bind (endpoint_built m d all c.node c.src _) fun _ =>
    .bind (endpoint_built m d all c.node c.dest _) fun _ => ?_
  cases c.channel with
  | none => exact .bind (.pure []) fun _ => .pure _
  | some spec => exact .bind (channel_built m d spec) fun _ => .pure _

theorem ownType_built : Built m (ownType m d) := by
  refine .bind (bases_built m d) fun _ => .bind (interfaces_built m d) fun _ =>
    .bind (.members d) fun all => ?_
  exact .ite_bind (.pure _) (conformance_built m d all) fun _ =>
    .ite_bind (.collect (submodule_built m d) _) (.pure _) fun _ =>
      .ite_bind (.collect (connection_built m d all) _) (.pure _) fun _ => .pure _

/-- What is found in a file is asked for by lookups and by questions for members. -/
theorem fileFindings_built (file : FileId) (tree : Tree) (expected : Option String) :
    Built m (fileFindings m file tree expected) :=
  .bind (.collect (ownType_built m) _) fun _ => .pure _

/-- The check of a file is built of lookups and of questions for members. -/
theorem file_built (file : FileId) (tree : Tree) (expected : Option String) :
    Built m (Check.file m file tree expected) :=
  .bind (fileFindings_built m file tree expected) fun _ => .pure _

end Check

end NedWorkspace
