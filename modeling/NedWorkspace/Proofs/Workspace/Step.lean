/-
# Operations as steps

Whatever an operation does to the state, it does by a few kinds of steps (`State.Step`). What every step
keeps holds in every state that is ever met (`State.Reachable`), also between the sections of an
operation, where listeners may act.

That operations take only such steps is shown for every monad that they run in: `Stepwise` is what is
asked of the monad, and `Engine.carryOut_keeps` is the result. Most operations on files ask no questions
of the tables; what is proved of them says so.
-/

import Mathlib.Logic.Relation
import NedWorkspace.Proofs.Workspace.Sections

namespace NedWorkspace

open Memory

namespace State

/-- What the sections of operations are made of. Not every operation asks questions; `asking` tells
whether they are allowed. -/
inductive Step (asking : Prop) : State → State → Prop
  /-- Events are queued or delivered, or diagnostics published. -/
  | noted (st : State) (events : List Event) (diagnostics : DiagnosticStore) :
      Step asking st { st with events, diagnostics }
  /-- An editor joins or leaves. -/
  | edited {st : State} {path : Path} {f : SourceFile} (h : st.store.at? path = some f)
      (editors : Nat) : Step asking st { st with store := st.store.update { f with editors } }
  | loaded {st : State} {path : Path} (h : st.store.at? path = none) (text : String) :
      Step asking st (st.loadNew path text (Parse.ofText text)).2
  | broken {st : State} {path : Path} {f : SourceFile} (h : st.store.at? path = some f)
      {text : String} (hok : (Parse.ofText text).ok = false) :
      Step asking st (st.applyBroken f text (Parse.ofText text).errors)
  | cleaned {st : State} {path : Path} {f : SourceFile} (h : st.store.at? path = some f)
      {text : String} (hok : (Parse.ofText text).ok = true) :
      Step asking st (st.applyClean f text (Parse.ofText text).tree)
  | forgot (st : State) (path : Path) : Step asking st (st.forget path).2
  | configured (st : State) (configs : List ProjectConfig) : Step asking st (st.reconfigure configs)
  | invalidated (st : State) : Step asking st st.invalidate
  | rehashed (st : State) : Step asking st st.rehash
  /-- Something is asked of up-to-date tables. -/
  | asked {st : State} (hasking : asking) (h : st.dirty = false) {memory : Memory}
      (hm : Asked st.model st.memory memory) : Step asking st { st with memory }

/-- Several steps. -/
abbrev Steps (asking : Prop) : State → State → Prop := Relation.ReflTransGen (Step asking)

/-- A state that can be reached from the state at the beginning. -/
def Reachable (st : State) : Prop :=
  Steps True {} st

/-- What holds at the beginning and is kept by every step holds in every reachable state. -/
theorem Reachable.invariant {I : State → Prop} (hinit : I {})
    (hstep : ∀ st st', Step True st st' → I st → I st') {st : State} (h : st.Reachable) : I st := by
  induction h with
  | refl => exact hinit
  | tail _ hs ih => exact hstep _ _ hs ih

namespace Steps

variable {asking : Prop} (st : State)

/-- Giving a text to a path is a step. -/
theorem applyParse (path : Path) (text : String) :
    Steps asking st (st.applyParse path text (Parse.ofText text)).2 := by
  unfold State.applyParse
  cases h : st.store.at? path with
  | none => exact .single (.loaded h text)
  | some f =>
    dsimp only
    cases hok : (Parse.ofText text).ok with
    | true => exact .single (.cleaned h hok)
    | false => exact .single (.broken h hok)

theorem dirty_rehash : st.rehash.dirty = false := by
  unfold State.rehash
  by_cases h : st.dirty = true
  · rw [if_pos h]
  · rw [if_neg h]
    simpa using h

/-- A question asked of up-to-date tables. -/
theorem ask (hasking : asking) {α : Type} {q : Model → Query α} (hq : ∀ m, Query.Asks m (q m)) :
    Steps asking st (st.rehash.ask q).2 :=
  .tail (.single (.rehashed st)) (.asked hasking (dirty_rehash st) (hq _ _))

theorem planValidation : Steps asking st st.planValidation.2 :=
  .tail (.single (.rehashed st)) (.noted _ st.rehash.events _)

/-- Publishing is a step for those that may ask. -/
theorem publish (hasking : asking) (id : FileId) (found : List Diagnostic) :
    Steps asking st (st.publish id found) := by
  have hrehash : Steps asking st st.rehash := .single (.rehashed st)
  have hnoted : ∀ st' : State, ∀ r : Bool × DiagnosticStore,
      Steps asking st' ({ st' with diagnostics := r.2 }.emitIf r.1 (.diagnosticsChanged id)) := by
    intro st' r
    unfold State.emitIf
    split
    · exact .single (.noted st' _ _)
    · exact .single (.noted st' _ _)
  unfold State.publish
  dsimp only
  split
  · exact hrehash
  · split
    · exact hrehash.trans (hnoted _ _)
    · refine Relation.ReflTransGen.trans ?_ (hnoted _ _)
      exact .tail hrehash (.asked hasking (dirty_rehash st) ((Check.file_built ..).asks _))

end Steps

/-- The moves of operations are steps. -/
theorem Steps.moves (asking : Prop) : Moves (Steps asking) where
  refl _ := .refl
  trans := .trans
  events st events := .single (.noted st events st.diagnostics)
  edited h editors := .single (.edited h editors)
  applyParse := Steps.applyParse
  forget st path := .single (.forgot st path)
  reconfigure st configs := .single (.configured st configs)
  invalidate st := .single (.invalidated st)
  rehash st := .single (.rehashed st)

end State

open State

/-- A monad in which it can be said that an operation takes only steps. -/
class Stepwise (m : Type → Type) [Engine m] where
  /-- The operation takes only steps, and asks only if that is allowed. -/
  Keeps (asking : Prop) {α : Type} : m α → Prop
  done {asking : Prop} {α : Type} (a : α) : Keeps asking (pure a : m α)
  andThen {asking : Prop} {α β : Type} {x : m α} {f : α → m β} :
    Keeps asking x → (∀ a, Keeps asking (f a)) → Keeps asking (x >>= f)
  readsDisk {asking : Prop} : Keeps asking (Engine.disk : m Disk)
  readsProvider {asking : Prop} : Keeps asking (Engine.provider : m Provider)
  inSection {asking : Prop} {α : Type} {f : State → α × State} :
    (∀ st, Steps asking st (f st).2) → Keeps asking (Engine.locked f : m α)
  atEnd {asking : Prop} {α : Type} {f : State → State} {x : m α} :
    (∀ st, Steps asking st (f st)) → Keeps asking x → Keeps asking (Engine.closing f x)

open Stepwise

namespace Engine

variable {m : Type → Type} [Engine m] [Stepwise m] {asking : Prop} {α : Type}

/-- The steps of sections are the steps of the operations that are made of them. -/
theorem keeps_carries (m : Type → Type) [Engine m] [Stepwise m] (asking : Prop) :
    Carries m (Steps asking) (Keeps asking) where
  moves := Steps.moves asking
  done := done
  andThen := andThen
  readsDisk := readsDisk
  readsProvider := readsProvider
  inSection := inSection
  atEnd := atEnd

/-- Brackets are steps around steps. -/
theorem bracketed_keeps {x : m α} (h : Keeps asking x) : Keeps asking (bracketed x) :=
  (keeps_carries m asking).conveys.bracketed h

/-- Editors come by steps. -/
theorem connect_keeps (path : Path) : Keeps asking (connect path : m (Except WorkspaceError FileId)) :=
  (keeps_carries m asking).conveys.connect path

/-- Editors go by steps. -/
theorem disconnect_keeps (path : Path) :
    Keeps asking (disconnect path : m (Except WorkspaceError Unit)) :=
  (keeps_carries m asking).conveys.disconnect path

/-- Texts are set by steps. -/
theorem setText_keeps (path : Path) (text : String) :
    Keeps asking (setText path text : m (Except WorkspaceError FileId)) :=
  (keeps_carries m asking).conveys.setText path text

theorem load_keeps (path : Path) : Keeps asking (load path : m (Except WorkspaceError FileId)) :=
  (keeps_carries m asking).conveys.load path

theorem forget_keeps (path : Path) : Keeps asking (forget path : m Bool) :=
  (keeps_carries m asking).conveys.forget path

/-- Projects are found anew by steps. -/
theorem reconfigure_keeps : Keeps asking (reconfigure : m (Except WorkspaceError Unit)) :=
  (keeps_carries m asking).conveys.reconfigure

/-- What is missing is loaded by steps. -/
theorem loadMissing_keeps : Keeps asking (loadMissing : m (Except WorkspaceError Nat)) :=
  (keeps_carries m asking).loadMissing

/-- Changes of the disk are applied by steps. -/
theorem applyChanges_keeps (changes : List DiskChange) :
    Keeps asking (applyChanges changes : m (Except WorkspaceError Unit)) :=
  (keeps_carries m asking).applyChanges changes

/-- A question is a step for those that may ask. -/
theorem ask_keeps (hasking : asking) {q : Model → Query α} (h : ∀ m, Query.Built m (q m)) :
    Keeps asking (ask q : m α) :=
  inSection fun st => .ask st hasking fun m => (h m).asks

theorem publishEach_keeps (hasking : asking) (duplicates : List Diagnostic) (ids : List FileId) :
    Keeps asking (publishEach duplicates ids : m Unit) := by
  induction ids with
  | nil => exact done _
  | cons id ids ih => exact andThen (inSection fun st => .publish st hasking id _) fun _ => ih

/-- Validation is made of steps. -/
theorem validate_keeps (hasking : asking) : Keeps asking (validate : m Unit) :=
  bracketed_keeps (andThen (inSection fun st => .planValidation st) fun _ =>
    publishEach_keeps hasking _ _)

/-- **Carrying out a request takes only steps.** -/
theorem carryOut_keeps (hasking : asking) (r : Request) : Keeps asking (carryOut r : m Answer) :=
  (keeps_carries m asking).carryOut (ask_keeps hasking) (validate_keeps hasking) r

end Engine

end NedWorkspace
