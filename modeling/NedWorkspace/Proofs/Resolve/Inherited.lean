/-
# Inherited members

SPEC_FULL, section 3: InheritedMembers.

What members a type has is a matter of its chain and of the interfaces that the types on it are like, and
of nothing that was asked before. `Model.Right` says what members are right: chain, parameters and gates
always, interfaces unless likeness runs in a circle below the type. Where it does, a type that is being
gathered is met again and stands for itself alone, so what is found depends on where the search began.

`Model.Gathered` is what questions keep: all remembered lookups are answers of the rule, and all remembered
members are right. The keys that are not idle are those of types that lean on the type being gathered, so
meeting one of them again closes a circle (`Model.membersAmong_right`).
-/

import NedWorkspace.Proofs.Definition.Table
import NedWorkspace.Proofs.Resolve.Declared
import NedWorkspace.Proofs.Resolve.Lineage

namespace NedWorkspace

open Relation

namespace Model

variable {m : Model} {d : Definition}

/-! ### Interfaces -/

/-- Some type on the chain of the first type is like the second one. -/
def Leans (m : Model) (d i : Definition) : Prop :=
  ∃ t ∈ (m.lineage d).1, ∃ name ∈ t.likeNames, m.denoted name t.context = some i

/-- Of the types with these keys the first leans on the second. -/
def LeansByKey (m : Model) (k l : TypeKey) : Prop :=
  ∃ x i, m.Holds x ∧ m.Leans x i ∧ x.key = k ∧ i.key = l

/-- No circle of likeness is reached from the type. -/
def Grounded (m : Model) (d : Definition) : Prop :=
  ∀ k, ReflTransGen m.LeansByKey d.key k → ¬ TransGen m.LeansByKey k k

/-- What a type leans on is a type of the model. -/
theorem holds_of_leans {i : Definition} (h : m.Leans d i) : m.Holds i := by
  obtain ⟨_, _, _, _, hi⟩ := h
  exact holds_of_denoted hi

/-- A type that extends nothing and is like nothing leans on nothing. -/
theorem not_leans (hbases : d.baseNames = []) (hlikes : d.likeNames = []) (i : Definition) :
    ¬ m.Leans d i := by
  rintro ⟨t, ht, name, hname, _⟩
  rw [m.lineage_of_baseNames_eq_nil hbases] at ht
  obtain rfl := List.mem_singleton.mp ht
  rw [hlikes] at hname
  exact absurd hname List.not_mem_nil

/-- No circle is reached from a type if what it leans on leans on nothing. -/
theorem grounded_of_leans (hm : m.Keyed) (hd : m.Holds d)
    (h : ∀ i, m.Leans d i → ∀ j, ¬ m.Leans i j) : m.Grounded d := by
  have hnext : ∀ {k}, m.LeansByKey d.key k → ∀ l, ¬ m.LeansByKey k l := by
    rintro k ⟨x, i, hx, hi, hkey, rfl⟩ l ⟨y, j, hy, hj, hykey, _⟩
    obtain rfl := hm hx hd hkey
    obtain rfl := hm hy (holds_of_leans hi) hykey
    exact h y hi j hj
  intro k hk hcircle
  obtain ⟨l, hfirst, hback⟩ := TransGen.head'_iff.mp hcircle
  rcases ReflTransGen.cases_head hk with rfl | ⟨n, hn, hnk⟩
  · rcases ReflTransGen.cases_head hback with rfl | ⟨n, hln, _⟩
    · exact hnext hfirst _ hfirst
    · exact hnext hfirst n hln
  · rcases ReflTransGen.cases_head hnk with rfl | ⟨n', hnn', _⟩
    · exact hnext hn l hfirst
    · exact hnext hn n' hnn'

/-- The type implements the interface, which is on the chain of one that the type leans on, or, if the type
is an interface, on the rest of its own chain. -/
def Implements (m : Model) (d interface : Definition) : Prop :=
  (d.kind.isInterface = true ∧ interface ∈ (m.lineage d).1.drop 1) ∨
    ∃ i, m.Leans d i ∧ interface ∈ (m.lineage i).1

/-- Interfaces found so far with those that a `like` name stands for. -/
def addImplied (m : Model) (found : List String) (like : Definition × String) : List String :=
  match m.denoted like.2 like.1.context with
  | none => found
  | some i => ProjectTable.addNames found ((m.lineage i).1.map fun s => s.qname)

/-- The interfaces that a type implements, by chains alone. -/
def interfacesOf (m : Model) (d : Definition) : List String :=
  (likesAlong (m.lineage d).1).foldl m.addImplied (interfacesAlong d (m.lineage d).1)

/-- The claims of conformance along a chain are those of its types. -/
theorem mem_likesAlong {chain : List Definition} {like : Definition × String} :
    like ∈ likesAlong chain ↔ like.1 ∈ chain ∧ like.2 ∈ like.1.likeNames := by
  simp only [likesAlong, List.mem_flatMap, List.mem_map]
  constructor
  · rintro ⟨t, ht, name, hname, rfl⟩
    exact ⟨ht, hname⟩
  · rintro ⟨ht, hname⟩
    exact ⟨like.1, ht, like.2, hname, rfl⟩

/-- A type leans on what the `like` names along its chain denote. -/
theorem leans_iff {i : Definition} : m.Leans d i ↔
    ∃ like ∈ likesAlong (m.lineage d).1, m.denoted like.2 like.1.context = some i := by
  simp only [mem_likesAlong, Leans, Prod.exists]
  constructor
  · rintro ⟨t, ht, name, hname, hi⟩
    exact ⟨t, name, ⟨ht, hname⟩, hi⟩
  · rintro ⟨t, name, ⟨ht, hname⟩, hi⟩
    exact ⟨t, ht, name, hname, hi⟩

/-- One claim adds the interface that it names, and all that this one extends. -/
theorem mem_addImplied {found : List String} {like : Definition × String} {qname : String} :
    qname ∈ m.addImplied found like ↔ qname ∈ found ∨
      ∃ i, m.denoted like.2 like.1.context = some i ∧ ∃ e ∈ (m.lineage i).1, e.qname = qname := by
  unfold addImplied
  cases m.denoted like.2 like.1.context with
  | none => simp
  | some i => simp [ProjectTable.mem_addNames]

/-- A list of claims adds what each of them does. -/
theorem mem_foldl_addImplied {likes : List (Definition × String)} {found : List String}
    {qname : String} : qname ∈ likes.foldl m.addImplied found ↔ qname ∈ found ∨ ∃ like ∈ likes,
      ∃ i, m.denoted like.2 like.1.context = some i ∧ ∃ e ∈ (m.lineage i).1, e.qname = qname := by
  induction likes generalizing found with
  | nil => simp
  | cons like likes ih => rw [List.foldl_cons, ih, mem_addImplied, List.exists_mem_cons_iff, or_assoc]

/-- **The interfaces of a type are those that it implements.** -/
theorem mem_interfacesOf {qname : String} :
    qname ∈ m.interfacesOf d ↔ ∃ e, m.Implements d e ∧ e.qname = qname := by
  have hown : qname ∈ interfacesAlong d (m.lineage d).1 ↔
      ∃ e, (d.kind.isInterface = true ∧ e ∈ (m.lineage d).1.drop 1) ∧ e.qname = qname := by
    unfold interfacesAlong
    split
    · rename_i hkind
      simp only [ProjectTable.mem_addNames, List.not_mem_nil, false_or, List.mem_map, hkind, true_and]
    · rename_i hkind
      simp [hkind]
  have himplied : (∃ like ∈ likesAlong (m.lineage d).1, ∃ i,
      m.denoted like.2 like.1.context = some i ∧ ∃ e ∈ (m.lineage i).1, e.qname = qname) ↔
      ∃ e, (∃ i, m.Leans d i ∧ e ∈ (m.lineage i).1) ∧ e.qname = qname := by
    constructor
    · rintro ⟨like, hlike, i, hi, e, he, hqname⟩
      exact ⟨e, ⟨i, leans_iff.mpr ⟨like, hlike, hi⟩, he⟩, hqname⟩
    · rintro ⟨e, ⟨i, hleans, he⟩, hqname⟩
      obtain ⟨like, hlike, hi⟩ := leans_iff.mp hleans
      exact ⟨like, hlike, i, hi, e, he, hqname⟩
  simp only [interfacesOf, mem_foldl_addImplied, hown, himplied, Implements, or_and_right, exists_or]

/-- No interface is listed twice. -/
theorem nodup_interfacesOf (m : Model) (d : Definition) : (m.interfacesOf d).Nodup := by
  refine List.foldlRecOn (likesAlong (m.lineage d).1) _ (motive := List.Nodup) ?_ fun found h like _ => ?_
  · unfold interfacesAlong
    split
    · exact ProjectTable.nodup_addNames List.nodup_nil _
    · exact List.nodup_nil
  · unfold addImplied
    split
    · exact h
    · exact ProjectTable.nodup_addNames h _

/-! ### Members that depend on chains alone -/

/-- The members are those gathered along the chain, with the interfaces that the type implements, unless
likeness runs in a circle. -/
def Right (m : Model) (d : Definition) (x : Members) : Prop :=
  ∃ interfaces, x = membersAlong (m.lineage d) interfaces ∧
    (m.Grounded d → interfaces = m.interfacesOf d)

/-- What is remembered is right. -/
structure Gathered (m : Model) (memory : Memory) : Prop where
  coherent : memory.Coherent m
  members : ∀ {d x}, m.Holds d → memory.members.get? d.id = some x → m.Right d x

/-- A memory of members is right whatever else is remembered. -/
theorem Gathered.congr {memory memory' : Memory} (h : m.Gathered memory) (hcoherent : memory'.Coherent m)
    (hmembers : memory'.members = memory.members) : m.Gathered memory' :=
  ⟨hcoherent, fun hd hx => h.members hd (hmembers ▸ hx)⟩

/-- Members that are right may be remembered. -/
theorem Gathered.insert (hm : m.Identified) {memory : Memory} (h : m.Gathered memory) (hd : m.Holds d)
    {x : Members} (hx : m.Right d x) :
    m.Gathered { memory with members := memory.members.insert d.id x } := by
  refine ⟨h.coherent, fun {e y} he hy => ?_⟩
  dsimp only at hy
  rw [OrderedMap.get?_insert] at hy
  split at hy
  · rename_i hid
    obtain rfl := hm he hd hid
    exact Option.some.inj hy ▸ hx
  · exact h.members he hy

mutual

/-- **Members are right when they are gathered, unless they are being gathered already.** All types that
are lean on this one. -/
theorem membersAmong_right (hm : m.Identified) {known idle : List TypeKey} (hknown : m.Covers known)
    {d : Definition} (hd : m.Holds d)
    (hbusy : ∀ x, m.Holds x → x.key ∉ idle → TransGen m.LeansByKey x.key d.key) {memory : Memory}
    (h : m.Gathered memory) :
    m.Gathered (m.membersAmong known idle d memory).2 ∧
      (d.key ∈ idle → m.Right d (m.membersAmong known idle d memory).1) := by
  cases hget : memory.members.get? d.id with
  | some x =>
    rw [membersAmong_of_get? hget]
    exact ⟨h, fun _ => h.members hd hget⟩
  | none =>
    by_cases hidle : d.key ∈ idle
    · rw [membersAmong_of_idle hget hidle]
      obtain ⟨hchain, hcoherent, hmembers⟩ := chainOf_answers hd hknown memory h.coherent
      have hbusy' : ∀ x, m.Holds x → x.key ∉ without idle d.key →
          ReflTransGen m.LeansByKey x.key d.key := by
        intro x hx hnot
        by_cases hkey : x.key = d.key
        · rw [hkey]
        · exact (hbusy x hx fun hmem => hnot (mem_without.mpr ⟨hmem, hkey⟩)).to_reflTransGen
      obtain ⟨hgathered, hinterfaces⟩ := implementedBy_right hm hknown hd hbusy'
        (likesAlong (m.lineage d).1) (fun _ hlike => hlike) (interfacesAlong d (m.lineage d).1)
        (h.congr hcoherent hmembers)
      dsimp only
      rw [hchain]
      have hright : m.Right d (membersAlong (m.lineage d) _) := ⟨_, rfl, hinterfaces⟩
      exact ⟨hgathered.insert hm hd hright, fun _ => hright⟩
    · rw [membersAmong_of_busy hget hidle]
      exact ⟨h, fun hmem => absurd hmem hidle⟩
termination_by (idle.length, 0)
decreasing_by exact Prod.Lex.left _ _ (length_without_lt hidle)

/-- The interfaces that a type implements are found one `like` name at a time, while the type itself and
all that are being gathered lean on it. -/
theorem implementedBy_right (hm : m.Identified) {known idle : List TypeKey} (hknown : m.Covers known)
    {d : Definition} (hd : m.Holds d)
    (hbusy : ∀ x, m.Holds x → x.key ∉ idle → ReflTransGen m.LeansByKey x.key d.key)
    (likes : List (Definition × String)) (hlikes : ∀ like ∈ likes, like ∈ likesAlong (m.lineage d).1)
    (found : List String) {memory : Memory} (h : m.Gathered memory) :
    m.Gathered (m.implementedBy known idle likes found memory).2 ∧
      (m.Grounded d →
        (m.implementedBy known idle likes found memory).1 = likes.foldl m.addImplied found) := by
  match likes with
  | [] =>
    rw [implementedBy_nil]
    exact ⟨h, fun _ => rfl⟩
  | (t, name) :: likes =>
    have hrest := fun like hlike => hlikes like (List.mem_cons_of_mem _ hlike)
    obtain ⟨hanswer, hcoherent, hmembers⟩ := Query.Answers.lookup name t.context memory h.coherent
    have hlooked := h.congr hcoherent hmembers
    rw [implementedBy_cons, Query.bind_apply, hanswer, List.foldl_cons]
    cases hi : m.denoted name t.context with
    | none =>
      have hfound : m.addImplied found (t, name) = found := by rw [addImplied, hi]
      rw [hfound]
      exact implementedBy_right hm hknown hd hbusy likes hrest found hlooked
    | some i =>
      have hleans : m.LeansByKey d.key i.key :=
        ⟨d, i, hd, leans_iff.mpr ⟨_, hlikes _ List.mem_cons_self, hi⟩, rfl, rfl⟩
      have hbusy' : ∀ x, m.Holds x → x.key ∉ idle → TransGen m.LeansByKey x.key i.key :=
        fun x hx hnot => .tail' (hbusy x hx hnot) hleans
      obtain ⟨hgathered, hright⟩ := membersAmong_right hm hknown (holds_of_denoted hi) hbusy' hlooked
      dsimp only
      rw [Query.bind_apply]
      obtain ⟨hlast, hfold⟩ := implementedBy_right hm hknown hd hbusy likes hrest _ hgathered
      refine ⟨hlast, fun hgrounded => ?_⟩
      -- An interface that is being gathered already would lean on itself.
      have hidle : i.key ∈ idle := by
        by_contra hnot
        exact hgrounded i.key (.single hleans) (hbusy' i (holds_of_denoted hi) hnot)
      obtain ⟨interfaces, hx, _⟩ := hright hidle
      rw [hfold hgrounded, hx, addImplied, hi]
      rfl
termination_by (idle.length, likes.length)
decreasing_by all_goals exact Prod.Lex.right _ (by simp)

end

/-- Whatever was asked before, the answer is right, and so is what is remembered afterwards. -/
theorem members_right (hm : m.Identified) (hd : m.Holds d) {memory : Memory} (h : m.Gathered memory) :
    m.Gathered (m.members d memory).2 ∧ m.Right d (m.members d memory).1 := by
  have hknown : m.Covers (d.key :: m.knownKeys memory) := covers_knownKeys memory d.key
  rw [members_eq]
  obtain ⟨hgathered, hright⟩ := membersAmong_right hm hknown hd
    (fun x hx hnot => absurd (hknown x hx) hnot) h
  exact ⟨hgathered, hright List.mem_cons_self⟩

end Model

/-! ### Whatever was asked before -/

/-- The question keeps what is remembered right. -/
def Query.Keeps {α : Type} (m : Model) (q : Query α) : Prop :=
  ∀ memory, m.Gathered memory → m.Gathered (q memory).2

namespace Query.Keeps

variable {m : Model} {α β : Type}

/-- An answer at hand leaves the memory right. -/
theorem pure (a : α) : Keeps m (Pure.pure a : Query α) :=
  fun _ h => h

/-- Queries in a row leave the memory right if each of them does. -/
theorem bind {q : Query α} {f : α → Query β} (hq : Keeps m q) (hf : ∀ a, Keeps m (f a)) :
    Keeps m (q >>= f) :=
  fun memory h => hf (q memory).1 (q memory).2 (hq memory h)

/-- A test by queries leaves the memory right if each of them does. -/
theorem filterM {f : α → Query Bool} (as : List α) (h : ∀ a ∈ as, Keeps m (f a)) :
    Keeps m (as.filterM f) := by
  have haux : ∀ kept : List α, Keeps m (as.filterAuxM f kept) := by
    induction as with
    | nil => exact fun kept => .pure kept
    | cons a as ih =>
      exact fun kept => .bind (h a List.mem_cons_self) fun b =>
        ih (fun a ha => h a (List.mem_cons_of_mem _ ha)) _
  exact .bind (haux []) fun _ => .pure _

/-- A query that needs no members leaves the memory of them alone. -/
theorem answers {q : Query α} {a : α} (h : Answers m q a) : Keeps m q := by
  intro memory hmemory
  obtain ⟨_, hcoherent, hmembers⟩ := h memory hmemory.coherent
  exact hmemory.congr hcoherent hmembers

/-- To look up a name leaves the memory of members alone. -/
theorem lookupIn (name : String) (context : LookupContext) (project : String) :
    Keeps m (m.lookupIn name context project) :=
  fun memory h => h.congr ((m.lookupIn_asks name context project memory).coherent h.coherent) rfl

/-- The search for the only implementation leaves the memory right. -/
theorem onlyImplementing (hm : m.Identified) (interface : String) (ds : List Definition)
    (hds : ∀ d ∈ ds, m.Holds d) (found : Option Definition) :
    Keeps m (m.onlyImplementing interface ds found) := by
  induction ds generalizing found with
  | nil => exact .pure found
  | cons d ds ih =>
    have hrest := ih fun e he => hds e (List.mem_cons_of_mem d he)
    rw [Model.onlyImplementing]
    refine .bind (fun _ h => (Model.members_right hm (hds d List.mem_cons_self) h).1) fun members => ?_
    split
    · split
      · exact .pure none
      · exact hrest (some d)
    · exact hrest found

theorem conforming (hm : m.Identified) (name interface project : String) :
    Keeps m (m.conforming name interface project) := by
  unfold Model.conforming
  cases htable : m.table? project with
  | none => exact .pure none
  | some table =>
    dsimp only
    split
    · exact .pure _
    · refine .onlyImplementing hm interface _ (fun d hd => ?_) none
      obtain ⟨qname, _, hcomponent⟩ := List.mem_filterMap.mp hd
      exact Model.holds_of_component? htable hcomponent

theorem implementing (hm : m.Identified) (interface project : String) :
    Keeps m (m.implementing interface project) := by
  unfold Model.implementing
  cases htable : m.table? project with
  | none => exact .pure []
  | some table =>
    refine .filterM _ fun d hd => .bind (fun _ h => (Model.members_right hm ?_ h).1) fun _ => .pure _
    exact .inr ⟨project, table, htable, hd⟩

end Query.Keeps

/-- What can be asked of a model and be remembered. -/
inductive Question where
  | lookup (name : String) (context : LookupContext)
  | lookupIn (name : String) (context : LookupContext) (project : String)
  | firstBase (d : Definition)
  | members (d : Definition)
  | conforming (name interface project : String)
  | implementing (interface project : String)

namespace Question

/-- The memory after the question. -/
def ask (m : Model) (memory : Memory) : Question → Memory
  | lookup name context => (m.lookup name context memory).2
  | lookupIn name context project => (m.lookupIn name context project memory).2
  | firstBase d => (m.firstBase d memory).2
  | members d => (m.members d memory).2
  | conforming name interface project => (m.conforming name interface project memory).2
  | implementing interface project => (m.implementing interface project memory).2

/-- Members are asked for of definitions that the model holds. -/
def Within (m : Model) : Question → Prop
  | members d => m.Holds d
  | _ => True

/-- Whatever is asked of the model, the memory stays right. -/
theorem gathered_ask {m : Model} (hm : m.Identified) {memory : Memory} (h : m.Gathered memory)
    {q : Question} (hq : q.Within m) : m.Gathered (q.ask m memory) := by
  cases q with
  | lookup name context => exact Query.Keeps.answers (.lookup name context) memory h
  | lookupIn name context project => exact Query.Keeps.lookupIn name context project memory h
  | firstBase d => exact Query.Keeps.answers (.firstBase d) memory h
  | members d => exact (Model.members_right hm hq h).1
  | conforming name interface project => exact Query.Keeps.conforming hm name interface project memory h
  | implementing interface project => exact Query.Keeps.implementing hm interface project memory h

end Question

namespace Model

variable {m : Model} {d : Definition}

/-- No lookup is remembered, and no definition that the model holds has members. -/
structure Forgotten (m : Model) (memory : Memory) : Prop where
  lookups : memory.lookups.entries = {}
  members : ∀ d, m.Holds d → memory.members.get? d.id = none

/-- In an empty memory everything is forgotten. -/
theorem forgotten_empty (m : Model) : m.Forgotten {} :=
  ⟨rfl, fun _ _ => rfl⟩

/-- What was forgotten is not wrong. -/
theorem Forgotten.gathered {memory : Memory} (h : m.Forgotten memory) : m.Gathered memory where
  coherent e he := by
    rw [h.lookups] at he
    exact absurd he List.not_mem_nil
  members hd hx := nomatch (h.members _ hd).symm.trans hx

/-- What is remembered after some questions. -/
def remembered (m : Model) (memory : Memory) (questions : List Question) : Memory :=
  questions.foldl (Question.ask m) memory

/-- **What is remembered is right, whatever was asked since everything was forgotten.** -/
theorem gathered_remembered (hm : m.Identified) {memory : Memory} (hmemory : m.Forgotten memory)
    (questions : List Question) (hquestions : ∀ q ∈ questions, q.Within m) :
    m.Gathered (m.remembered memory questions) :=
  List.foldlRecOn questions _ (motive := m.Gathered) hmemory.gathered
    fun _ h q hq => q.gathered_ask hm h (hquestions q hq)

/-- The members of a type are those that its chain and its interfaces give it. -/
structure Inherits (m : Model) (d : Definition) (x : Members) : Prop where
  chain : x.chain = (m.lineage d).1
  single : d.kind.isInterface = false → m.FirstBases d x.chain x.cycle
  branching : d.kind.isInterface = true → m.AllBases d x.chain x.cycle
  reached : d.kind.isInterface = true → m.Keyed →
    (∀ e, e ∈ x.chain ↔ ReflTransGen m.Extends d e) ∧ (x.cycle = true ↔ TransGen m.Extends d d)
  params_nodup : (x.params.map fun p => p.decl.name).Nodup
  param? : ∀ name, x.param? name = Members.firstParam? (Members.paramEntries x.chain) name
  gates_nodup : (x.gates.map fun g => g.decl.name).Nodup
  gate? : ∀ name, x.gate? name = Members.firstGate? (Members.gateEntries x.chain) name
  interfaces : m.Grounded d → x.interfaces.Nodup ∧
    ∀ qname, qname ∈ x.interfaces ↔ ∃ e, m.Implements d e ∧ e.qname = qname

/-- Right members are those that the chain, the claims and the declarations along it make. -/
theorem Right.inherits {x : Members} (h : m.Right d x) (hd : m.Holds d) : m.Inherits d x := by
  obtain ⟨interfaces, rfl, hinterfaces⟩ := h
  refine ⟨rfl, lineage_single hd, lineage_branching hd, fun hkind hm => ?_, Members.nodup_paramsOf _,
    Members.find?_paramsOf _, Members.nodup_gatesOf _, Members.find?_gatesOf _, fun hgrounded => ?_⟩
  · have hall := lineage_branching hd hkind
    exact ⟨hall.mem_iff hm hd, hall.cycle_iff hm hd⟩
  · rw [show (membersAlong (m.lineage d) interfaces).interfaces = m.interfacesOf d from
      hinterfaces hgrounded]
    exact ⟨m.nodup_interfacesOf d, fun _ => mem_interfacesOf⟩

/-! ### A project of given files -/

/-- All types of the files, inner ones included. -/
def typesOfScopes (files : List (FileId × FileScope)) : List Definition :=
  files.flatMap fun f => f.2.allTypes

/-- A model of one project that owns all files. -/
def ofScopes (files : List (FileId × FileScope)) : Model :=
  ⟨⟨⟨files⟩, DefinitionIndex.enter {} (typesOfScopes files), 1⟩,
    ⟨[("p", .ofList (files.flatMap fun f => f.2.types))]⟩⟩

variable {files : List (FileId × FileScope)}

/-- The types of a model made of scopes are those that the scopes list. -/
theorem mem_of_holds_ofScopes (h : (ofScopes files).Holds d) : d ∈ typesOfScopes files := by
  rcases h with (⟨file, scope, hscope, hd⟩ | ⟨key, c, hget, hd⟩) | ⟨project, table, htable, hd⟩
  · exact List.mem_flatMap.mpr ⟨(file, scope), OrderedMap.mem_of_get? hscope, hd⟩
  · rcases DefinitionIndex.mem_of_get?_enter hget with hc | hc
    · obtain ⟨f, hf, hc⟩ := List.mem_flatMap.mp hc
      refine List.mem_flatMap.mpr ⟨f, hf, ?_⟩
      rcases List.mem_cons.mp hd with rfl | hd
      · exact hc
      · exact Definition.mem_withInner_of_mem_allInner hc hd
    · exact nomatch hc
  · obtain ⟨_, rfl⟩ := Prod.mk.inj (List.mem_singleton.mp (OrderedMap.mem_of_get? htable))
    have hmem := (ProjectTable.eq_qname_of_component? (ProjectTable.mem_definitions_ofList.mp hd)).2
    obtain ⟨f, hf, hd⟩ := List.mem_flatMap.mp hmem
    exact List.mem_flatMap.mpr ⟨f, hf, Definition.mem_withInner_self hd⟩

/-- A model made of scopes with no key twice is keyed. -/
theorem keyed_ofScopes (h : ((typesOfScopes files).map fun d => d.key).Nodup) :
    (ofScopes files).Keyed :=
  fun hx hy hkey => List.inj_on_of_nodup_map h (mem_of_holds_ofScopes hx) (mem_of_holds_ofScopes hy) hkey

end Model

end NedWorkspace
