/-
# Operations and their sections

What an operation does to the state it does in sections, and all sections are made of a few moves: an
editor joins or leaves, a text is applied, a file is forgotten, projects are configured, derived data are
dropped or computed (`State.Moves`). So what the moves do to the state decides what operations do. This is
said once for every relation between states that the moves keep to, in every monad in which it can be
carried from sections to operations (`Engine.Carries`); the result is `Engine.Carries.carryOut`.

Only the loading of what is missing takes events from the queue again, and only brackets queue an event
that another one answers. A relation that looks at the queue need not keep to either: `Engine.Conveys`
asks for the other moves alone (`State.OpenMoves`) and for brackets as a whole, and
`Engine.Conveys.carryOut` takes it that `loadMissing` was dealt with by itself.
-/

import NedWorkspace.Proofs.Resolve.Memory
import NedWorkspace.Workspace.Session

namespace NedWorkspace

/-- A relation between states before and after that the moves of operations keep to. -/
structure State.Moves (R : State → State → Prop) : Prop where
  refl : ∀ st, R st st
  trans : ∀ {a b c : State}, R a b → R b c → R a c
  events : ∀ (st : State) (events : List Event), R st { st with events }
  edited : ∀ {st : State} {path : Path} {f : SourceFile}, st.store.at? path = some f →
    ∀ editors, R st { st with store := st.store.update { f with editors } }
  applyParse : ∀ (st : State) (path : Path) (text : String),
    R st (st.applyParse path text (Parse.ofText text)).2
  forget : ∀ (st : State) (path : Path), R st (st.forget path).2
  reconfigure : ∀ (st : State) (configs : List ProjectConfig), R st (st.reconfigure configs)
  invalidate : ∀ st : State, R st st.invalidate
  rehash : ∀ st : State, R st st.rehash

/-- A relation that the moves keep to by which an operation lets everybody know. -/
structure State.OpenMoves (R : State → State → Prop) : Prop where
  refl : ∀ st, R st st
  trans : ∀ {a b c : State}, R a b → R b c → R a c
  edited : ∀ {st : State} {path : Path} {f : SourceFile}, st.store.at? path = some f →
    ∀ editors, R st { st with store := st.store.update { f with editors } }
  applyParse : ∀ (st : State) (path : Path) (text : String),
    R st (st.applyParse path text (Parse.ofText text)).2
  forget : ∀ (st : State) (path : Path), R st (st.forget path).2
  reconfigure : ∀ (st : State) (configs : List ProjectConfig), R st (st.reconfigure configs)
  rehash : ∀ st : State, R st st.rehash

/-- Moves that may be made at any time are moves of operations. -/
theorem State.Moves.openMoves {R : State → State → Prop} (h : State.Moves R) : State.OpenMoves R :=
  { h with }

namespace Engine

/-- A predicate that an operation satisfies if its sections keep to a relation. -/
structure Carries (m : Type → Type) [Engine m] (R : State → State → Prop)
    (K : {α : Type} → m α → Prop) : Prop where
  moves : State.Moves R
  done : ∀ {α : Type} (a : α), K (pure a : m α)
  andThen : ∀ {α β : Type} {x : m α} {f : α → m β}, K x → (∀ a, K (f a)) → K (x >>= f)
  readsDisk : K (Engine.disk : m Disk)
  readsProvider : K (Engine.provider : m Provider)
  inSection : ∀ {α : Type} {f : State → α × State}, (∀ st, R st (f st).2) →
    K (Engine.locked f : m α)
  atEnd : ∀ {α : Type} {f : State → State} {x : m α}, (∀ st, R st (f st)) → K x →
    K (Engine.closing f x)

/-- A predicate that an operation satisfies if its sections keep to a relation and queue what they
queue for good, and that an operation between `began` and `ended` has from the operation. -/
structure Conveys (m : Type → Type) [Engine m] (R : State → State → Prop)
    (K : {α : Type} → m α → Prop) : Prop where
  moves : State.OpenMoves R
  done : ∀ {α : Type} (a : α), K (pure a : m α)
  andThen : ∀ {α β : Type} {x : m α} {f : α → m β}, K x → (∀ a, K (f a)) → K (x >>= f)
  readsDisk : K (Engine.disk : m Disk)
  readsProvider : K (Engine.provider : m Provider)
  inSection : ∀ {α : Type} {f : State → α × State}, (∀ st, R st (f st).2) →
    K (Engine.locked f : m α)
  bracketed : ∀ {α : Type} {x : m α}, K x → K (Engine.bracketed x)

variable {m : Type → Type} [Engine m] {R : State → State → Prop} {K : {α : Type} → m α → Prop}

namespace Conveys

variable (hK : Conveys m R K) {α : Type}
include hK

theorem addEditor (st : State) (path : Path) : R st (Engine.addEditor st path) := by
  unfold Engine.addEditor
  cases h : st.store.at? path with
  | none => exact hK.moves.refl st
  | some f => exact hK.moves.edited h _

theorem view (f : State → α) : K (Engine.view f : m α) :=
  hK.inSection fun st => hK.moves.refl st

theorem change {f : State → State} (h : ∀ st, R st (f st)) : K (Engine.change f : m Unit) :=
  hK.inSection h

/-- Tables are rebuilt before they are looked at. -/
theorem viewFresh (f : State → α) : K (Engine.viewFresh f : m α) :=
  hK.inSection fun st => hK.moves.rehash st

theorem rehash : K (Engine.rehash : m Unit) :=
  hK.change fun st => hK.moves.rehash st

theorem hasEditor (path : Path) : K (Engine.hasEditor path : m Bool) :=
  hK.view _

/-- An editor comes by loading the file and by being counted. -/
theorem connect (path : Path) : K (Engine.connect path : m (Except WorkspaceError FileId)) := by
  refine hK.andThen (hK.inSection fun st => hK.addEditor st path) fun known => ?_
  cases known with
  | some id => exact hK.done _
  | none =>
    refine hK.andThen (hK.view _) fun isNed => ?_
    dsimp only
    split
    · refine hK.andThen hK.readsDisk fun d => ?_
      cases d.textOf path with
      | error e => exact hK.done _
      | ok text =>
        refine hK.andThen (hK.inSection fun st => ?_) fun id => hK.done _
        have hlater : ∀ st' : State, R st' (Engine.addEditor st' path).rehash := fun st' =>
          hK.moves.trans (hK.addEditor st' path) (hK.moves.rehash _)
        dsimp only
        cases st.store.at? path with
        | some f => exact hlater st
        | none => exact hK.moves.trans (hK.moves.applyParse st path text) (hlater _)
    · exact hK.done _

/-- A file is read unless something stands in the way. -/
theorem loadFromDisk (path : Path) :
    K (Engine.loadFromDisk path : m (Except WorkspaceError FileId)) := by
  refine hK.andThen (hK.hasEditor path) fun edited => ?_
  split
  · exact hK.done _
  · refine hK.andThen hK.readsDisk fun d => ?_
    cases d.textOf path with
    | error e => exact hK.done _
    | ok text =>
      refine hK.inSection fun st => ?_
      dsimp only
      split
      · exact hK.moves.refl st
      · exact hK.moves.applyParse st path text

theorem dropEditor (path : Path) :
    K (Engine.dropEditor path : m (Except WorkspaceError Bool)) := by
  refine hK.inSection fun st => ?_
  cases hf : (st.store.at? path).filter fun f => decide (0 < f.editors) with
  | none => exact hK.moves.refl st
  | some f =>
    have hat : st.store.at? path = some f := (Option.filter_eq_some_iff.mp hf).1
    exact hK.moves.edited hat _

/-- The last editor to go has the file read again. -/
theorem disconnect (path : Path) :
    K (Engine.disconnect path : m (Except WorkspaceError Unit)) := by
  refine hK.andThen (hK.dropEditor path) fun dropped => ?_
  cases dropped with
  | error e => exact hK.done _
  | ok last =>
    refine hK.andThen hK.readsDisk fun d => ?_
    split
    · refine hK.andThen (hK.loadFromDisk path) fun loaded => ?_
      split
      · exact hK.andThen hK.rehash fun _ => hK.done _
      · exact hK.andThen hK.rehash fun _ => hK.done _
      · exact hK.done _
    · exact hK.done _

/-- A text is set where there is an editor. -/
theorem setText (path : Path) (text : String) :
    K (Engine.setText path text : m (Except WorkspaceError FileId)) := by
  refine hK.inSection fun st => ?_
  cases st.store.at? path with
  | none => exact hK.moves.refl st
  | some _ => exact hK.moves.trans (hK.moves.applyParse st path text) (hK.moves.rehash _)

theorem load (path : Path) : K (Engine.load path : m (Except WorkspaceError FileId)) := by
  refine hK.andThen (hK.loadFromDisk path) fun loaded => ?_
  cases loaded with
  | error e => exact hK.done _
  | ok id => exact hK.andThen hK.rehash fun _ => hK.done _

theorem forget (path : Path) : K (Engine.forget path : m Bool) :=
  hK.inSection fun st => hK.moves.forget st path

theorem reconfigure : K (Engine.reconfigure : m (Except WorkspaceError Unit)) := by
  refine hK.andThen hK.readsProvider fun p => hK.andThen hK.readsDisk fun d => ?_
  cases p.projects d with
  | error e => exact hK.done _
  | ok configs => exact hK.andThen (hK.change fun st => hK.moves.reconfigure st configs) fun _ => hK.done _

/-- Files are read one by one. -/
theorem loadEach (hsilent : ∀ path text, K (Engine.loadSilently path text : m Bool))
    (read : List (Path × Except WorkspaceError String)) :
    K (Engine.loadEach read : m (Nat × List WorkspaceError)) := by
  induction read with
  | nil => exact hK.done _
  | cons r more ih =>
    obtain ⟨path, text⟩ := r
    cases text with
    | error e => exact hK.andThen ih fun _ => hK.done _
    | ok text => exact hK.andThen (hsilent path text) fun _ => hK.andThen ih fun _ => hK.done _

/-- The loading of what is missing, if the loading of each file and the announcement at the end are
allowed. -/
theorem loadMissing (hsilent : ∀ path text, K (Engine.loadSilently path text : m Bool))
    (hend : ∀ {α : Type} {x : m α}, K x → K (Engine.closing (·.emit (.modelChanged none)) x)) :
    K (Engine.loadMissing : m (Except WorkspaceError Nat)) := by
  refine hK.andThen (hK.view _) fun folders => hK.andThen hK.readsDisk fun d => ?_
  dsimp only
  refine hK.andThen (hK.view _) fun missing => ?_
  split
  · exact hK.done _
  · exact hK.andThen hK.readsDisk fun d => hend
      (hK.andThen (hK.loadEach hsilent _) fun _ => hK.andThen hK.rehash fun _ => hK.done _)

/-- A change of the disk is a file read, a file forgotten, or nothing. -/
theorem applyChange (c : DiskChange) : K (Engine.applyChange c : m (List WorkspaceError)) := by
  have htake : ∀ path, K (Engine.applyChange (.changed path) : m (List WorkspaceError)) := by
    intro path
    refine hK.andThen (hK.view _) fun isNed => ?_
    split
    · refine hK.andThen (hK.hasEditor path) fun edited => ?_
      split
      · exact hK.done _
      · refine hK.andThen (hK.loadFromDisk path) fun loaded => ?_
        split
        · exact hK.done _
        · exact hK.done _
        · exact hK.done _
    · exact hK.done _
  cases c with
  | added path => exact htake path
  | changed path => exact htake path
  | removed path => exact hK.andThen (hK.forget path) fun _ => hK.done _
  | projects => exact hK.done _

/-- Changes are applied one by one. -/
theorem applyEach (cs : List DiskChange) :
    K (Engine.applyEach cs : m (List WorkspaceError)) := by
  induction cs with
  | nil => exact hK.done _
  | cons c cs ih => exact hK.andThen (hK.applyChange c) fun _ => hK.andThen ih fun _ => hK.done _

/-- Projects are found anew, and what is missing is loaded. -/
theorem reconfigureAndLoad (hload : K (Engine.loadMissing : m (Except WorkspaceError Nat))) :
    K (Engine.reconfigureAndLoad : m (List WorkspaceError)) := by
  refine hK.andThen hK.reconfigure fun configured => ?_
  cases configured with
  | error e => exact hK.done _
  | ok _ =>
    refine hK.andThen hload fun loaded => ?_
    cases loaded <;> exact hK.done _

/-- A batch is applied in brackets, and what it leads to afterwards. -/
theorem applyChanges (hload : K (Engine.loadMissing : m (Except WorkspaceError Nat)))
    (changes : List DiskChange) :
    K (Engine.applyChanges changes : m (Except WorkspaceError Unit)) := by
  unfold Engine.applyChanges
  split
  · exact hK.done _
  · refine hK.andThen (hK.bracketed ?_) fun _ => hK.done _
    refine hK.andThen (hK.applyEach changes) fun unread => ?_
    dsimp only
    split
    · exact hK.andThen (hK.reconfigureAndLoad hload) fun _ => hK.andThen hK.rehash fun _ => hK.done _
    · exact hK.andThen (hK.done _) fun _ => hK.andThen hK.rehash fun _ => hK.done _

/-- A project without a table has the answer for its absence. -/
theorem viewTable (project : String) (absent : α) (f : ProjectTable → α) :
    K (Engine.viewTable project absent f : m α) :=
  hK.viewFresh _

theorem viewFile (path : Path) (f : SourceFile → α) :
    K (Engine.viewFile path f : m (Option α)) :=
  hK.view _

/-- A type is looked up among the inner and the top-level ones. -/
theorem typeNamed (qname project : String) :
    K (Engine.typeNamed qname project : m (Option Definition)) :=
  hK.viewFresh _

theorem contextOf (place : Place) : K (Engine.contextOf place : m (Option LookupContext)) := by
  cases place with
  | file id => exact hK.done _
  | type qname project => exact hK.andThen (hK.typeNamed qname project) fun _ => hK.done _
  | path path => exact hK.viewFile path _
  | nowhere => exact hK.done _

/-- A question about a type is asked of the one with the name, if there is one. -/
theorem onType (qname project : String) {f : Definition → m Answer}
    (h : ∀ d, K (f d)) : K (Engine.onType qname project f) := by
  refine hK.andThen (hK.typeNamed qname project) fun d => ?_
  cases d with
  | none => exact hK.done _
  | some d => exact h d

/-- A question in a place is asked where the place is, if it is anywhere. -/
theorem inPlace (place : Place) {f : LookupContext → m Answer} (h : ∀ c, K (f c)) :
    K (Engine.inPlace place f) := by
  refine hK.andThen (hK.contextOf place) fun context => ?_
  cases context with
  | none => exact hK.done _
  | some context => exact h context

/-- What holds of operations whose sections do only what is allowed in the open holds of every request
but the one to drop derived data, if it holds of the loading of what is missing, of questions and of the
check of all files. -/
theorem carryOut (hload : K (Engine.loadMissing : m (Except WorkspaceError Nat)))
    (hask : ∀ {α : Type} {q : Model → Query α}, (∀ n, Query.Built n (q n)) →
      K (Engine.ask q : m α)) (hvalidate : K (Engine.validate : m Unit)) {r : Request}
    (hr : r ≠ .invalidate) : K (Engine.carryOut r : m Answer) := by
  have hdone : ∀ {β : Type} {x : m β} {g : β → Answer}, K x →
      K (do return g (← x) : m Answer) := fun hx => hK.andThen hx fun _ => hK.done _
  cases r with
  | connect path => exact hdone (hK.connect path)
  | disconnect path => exact hdone (hK.disconnect path)
  | setText path text => exact hdone (hK.setText path text)
  | load path => exact hdone (hK.load path)
  | forget path => exact hdone (hK.forget path)
  | loadMissing => exact hdone hload
  | applyChanges changes => exact hdone (hK.applyChanges hload changes)
  | reconfigure => exact hdone hK.reconfigure
  | invalidate => exact absurd rfl hr
  | rehash => exact hdone hK.rehash
  | validate => exact hdone hvalidate
  | wake => exact hdone (hK.change fun st => hK.moves.refl st)
  | dispose => exact hK.done _
  | allTypes => exact hdone (hK.view _)
  | allTypeNames => exact hdone (hK.view _)
  | namesByKind project => exact hdone (hK.viewTable project _ _)
  | innerOrToplevel qname project => exact hdone (hK.typeNamed qname project)
  | describe qname project => exact hdone (hK.typeNamed qname project)
  | types project | typeNames project | reservedQNames project | duplicates project
  | type _ project => exact hdone (hK.viewTable project _ _)
  | reservedNames project package => exact hdone (hK.viewFresh _)
  | lookup name place =>
    exact hK.inPlace place fun context => hdone (hask fun n => .lookup name context)
  | visible place kinds => exact hK.inPlace place fun context => hdone (hK.viewFresh _)
  | conforming name interface project =>
    exact hdone (hask fun n => n.conforming_built name interface project)
  | implementing interface project =>
    exact hdone (hask fun n => n.implementing_built interface project)
  | firstBase qname project =>
    exact hK.onType qname project fun d => hdone (hask fun n => n.firstBase_built d)
  | members qname project =>
    exact hK.onType qname project fun d => hdone (hask fun n => .members d)
  | _ => exact hdone (hK.view _)

end Conveys

namespace Carries

variable (hK : Carries m R K)
include hK

theorem conveys : Conveys m R K :=
  { hK with
    moves := hK.moves.openMoves
    bracketed := fun h => hK.andThen (hK.inSection fun st => hK.moves.events st _) fun _ =>
      hK.atEnd (fun st => hK.moves.events st _) h }

theorem loadSilently (path : Path) (text : String) :
    K (Engine.loadSilently path text : m Bool) := by
  refine hK.inSection fun st => ?_
  cases st.store.at? path with
  | some _ => exact hK.moves.refl st
  | none => exact hK.moves.trans (hK.moves.applyParse st path text) (hK.moves.events _ _)

/-- What is missing is loaded without telling anyone before the end. -/
theorem loadMissing : K (Engine.loadMissing : m (Except WorkspaceError Nat)) :=
  hK.conveys.loadMissing hK.loadSilently (hK.atEnd fun st => hK.moves.events st _)

theorem applyChanges (changes : List DiskChange) :
    K (Engine.applyChanges changes : m (Except WorkspaceError Unit)) :=
  hK.conveys.applyChanges hK.loadMissing changes

/-- **What holds of operations whose sections do only what is allowed holds of every request,** if it
holds of questions and of the check of all files. -/
theorem carryOut (hask : ∀ {α : Type} {q : Model → Query α}, (∀ n, Query.Built n (q n)) →
      K (Engine.ask q : m α)) (hvalidate : K (Engine.validate : m Unit)) (r : Request) :
    K (Engine.carryOut r : m Answer) := by
  cases r with
  | invalidate => exact hK.andThen (hK.conveys.change fun st => hK.moves.invalidate st) fun _ => hK.done _
  | _ => exact hK.conveys.carryOut hK.loadMissing hask hvalidate nofun

end Carries

end Engine

end NedWorkspace
