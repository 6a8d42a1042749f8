/-
# Runs of a workspace

The states that a session goes through, whatever commands are given, whatever the listeners do and
whatever becomes of the disk, are reachable by steps. A property of states that every step keeps is kept
by every command of a session, the commands of listeners included (`Command.perform_keeps`).
-/

import NedWorkspace.Proofs.Workspace.Commands
import NedWorkspace.Proofs.Workspace.Step

namespace NedWorkspace

open State Stepwise

instance : Stepwise Plain where
  Keeps asking {_} x := ∀ s st, Steps asking st (x s st).2
  done _ _ _ := .refl
  andThen hx hf s st := (hx s st).trans (hf _ s _)
  readsDisk _ _ := .refl
  readsProvider _ _ := .refl
  inSection h _ st := h st
  atEnd h hx s st := (hx s st).trans (h _)

theorem Plain.bind_apply {α β : Type} (x : Plain α) (f : α → Plain β) (s : Surroundings)
    (st : State) : (x >>= f) s st = f (x s st).1 s (x s st).2 := rfl

theorem Plain.locked_apply {α : Type} (f : State → α × State) (s : Surroundings) (st : State) :
    (Engine.locked f : Plain α) s st = f st := rfl

theorem Plain.view_apply {α : Type} (f : State → α) (s : Surroundings) (st : State) :
    (Engine.view f : Plain α) s st = (f st, st) := rfl

theorem Plain.disk_apply (s : Surroundings) (st : State) :
    (Engine.disk : Plain Disk) s st = (s.disk, st) := rfl

theorem Plain.provider_apply (s : Surroundings) (st : State) :
    (Engine.provider : Plain Provider) s st = (s.provider, st) := rfl

theorem Plain.closing_apply {α : Type} (last : State → State) (x : Plain α) (s : Surroundings)
    (st : State) : Engine.closing last x s st = ((x s st).1, last (x s st).2) := rfl

/-- An operation that nobody listens to takes the state by steps to another. -/
theorem Plain.steps {asking : Prop} {α : Type} {x : Plain α} (h : Keeps asking x) (s : Surroundings)
    (st : State) : Steps asking st (x s st).2 :=
  h s st

/-- A property of states that every step keeps, or every one that asks nothing. -/
def Lasting (asking : Prop) (I : State → Prop) : Prop :=
  ∀ st st', Step asking st st' → I st → I st'

/-- What lasts through one step lasts through any number of them. -/
theorem Lasting.steps {asking : Prop} {I : State → Prop} (hI : Lasting asking I) {st st' : State}
    (h : Steps asking st st') (hst : I st) : I st' := by
  induction h with
  | refl => exact hst
  | tail _ hs ih => exact hI _ _ hs ih

/-- Listeners' commands keep a property. Nothing is said of worlds that lack it, so an operation that
keeps the property under every such reactor gives listeners no other world. -/
def Reactor.Keeps (I : State → Prop) (reactor : Reactor) : Prop :=
  ∀ c w, I w.state → I (reactor c w).2.state

namespace Session

variable {asking : Prop} {α β : Type} {I : State → Prop}

/-- A step of a session keeps a property, if listeners' commands do. -/
def Preserves (I : State → Prop) (x : Session α) : Prop :=
  ∀ reactor : Reactor, reactor.Keeps I → ∀ w, I w.state → I (x reactor w).2.state

theorem Preserves.pure (a : α) : Preserves I (Pure.pure a : Session α) :=
  fun _ _ _ hw => hw

/-- Sessions in a row preserve what each of them does. -/
theorem Preserves.bind {x : Session α} {f : α → Session β} (hx : Preserves I x)
    (hf : ∀ a, Preserves I (f a)) : Preserves I (x >>= f) := by
  intro reactor hr w hw
  have hstep := hx reactor hr w hw
  dsimp only [Bind.bind]
  cases hresult : x reactor w with
  | mk outcome w' =>
    rw [hresult] at hstep
    cases outcome with
    | done a => exact hf a reactor hr w' hstep
    | failed => exact hstep

theorem Preserves.fail : Preserves I (fail : Session α) :=
  fun _ _ _ hw => hw

theorem Preserves.look (f : World → α) : Preserves I (look f) :=
  fun _ _ _ hw => hw

theorem Preserves.update {f : World → World} (h : ∀ w, (f w).state = w.state) :
    Preserves I (update f) := by
  intro _ _ w hw
  change I (f w).state
  rw [h]
  exact hw

/-- What a listener asks for in answer preserves what its command does. -/
theorem react_preserves (l : Listener) : Preserves I (react l) := by
  intro reactor hr w hw
  unfold react
  cases l.reaction with
  | none => exact hw
  | some command =>
    have hstep := hr command w hw
    dsimp only
    cases hresult : reactor command w with
    | mk outcome w' =>
      rw [hresult] at hstep
      cases outcome <;> exact hstep

/-- Telling a listener leaves the state, but for what it asks for in answer. -/
theorem tell_preserves (l : Listener) (e : Event) : Preserves I (tell l e) := by
  refine .bind (.update fun _ => rfl) fun _ => .bind (.look _) fun left => ?_
  split
  · refine .bind (.update fun _ => rfl) fun _ => ?_
    split
    · exact .fail
    · exact react_preserves l
  · exact .pure _

/-- Telling all listeners leaves the state, but for what they ask for in answer. -/
theorem tellEach_preserves (e : Event) (ls : List Listener) : Preserves I (tellEach e ls) := by
  induction ls with
  | nil => exact .pure _
  | cons l ls ih => exact .bind (tell_preserves l e) fun _ => ih

/-- Taking an event from the queue is a step. -/
theorem nextEvent_preserves (hI : Lasting asking I) : Preserves I nextEvent := by
  intro _ _ w hw
  unfold nextEvent
  cases w.state.events with
  | nil => exact hw
  | cons e es => exact hI _ _ (.noted w.state es w.state.diagnostics) hw

/-- Delivery preserves what steps do. -/
theorem deliver_preserves (hI : Lasting asking I) (n : Nat) : Preserves I (deliver n) := by
  induction n with
  | zero => exact .pure _
  | succ n ih =>
    refine .bind (nextEvent_preserves hI) fun e => ?_
    cases e with
    | none => exact .pure _
    | some e => exact .bind (.look _) fun ls => .bind (tellEach_preserves e ls) fun _ => ih

/-- A section under the lock preserves what steps do, listeners included. -/
theorem runSection_preserves (hI : Lasting asking I) {f : State → α × State}
    (h : ∀ st, Steps asking st (f st).2) : Preserves I (runSection f) := by
  refine .bind (fun _ _ w hw => hI.steps (h w.state) hw) fun a => ?_
  exact .bind (.look _) fun n => .bind (deliver_preserves hI n) fun _ => .pure a

end Session

open Session

instance : Stepwise Session where
  Keeps asking {_} x := ∀ I : State → Prop, Lasting asking I → Preserves I x
  done a _ _ := .pure a
  andThen hx hf I hI := .bind (hx I hI) fun a => hf a I hI
  readsDisk _ _ := .look _
  readsProvider _ _ := .look _
  inSection h _ hI := runSection_preserves hI h
  atEnd {asking α f x} h hx I hI := by
    intro reactor hr w hw
    have hfirst := hx I hI reactor hr w hw
    have hlast := runSection_preserves hI (f := fun st => ((), f st)) h reactor hr _ hfirst
    change I (match runSection (fun st => ((), f st)) reactor (x reactor w).2 with
      | (.done _, w') => ((x reactor w).1, w')
      | (.failed, w') => (.failed, w')).2.state
    cases hresult : runSection (fun st => ((), f st)) reactor (x reactor w).2 with
    | mk outcome w' =>
      rw [hresult] at hlast
      cases outcome <;> exact hlast

/-- An operation in a session keeps what every step keeps. -/
theorem Session.preserves {asking : Prop} {α : Type} {x : Session α} (h : Keeps asking x)
    {I : State → Prop} (hI : Lasting asking I) : Preserves I x :=
  h I hI

theorem Session.listen_preserves {I : State → Prop} (trigger : Option EventSort) (times : Nat)
    (fails : Bool) (reaction : Option Command) :
    Preserves I (Session.listen trigger times fails reaction) :=
  .bind (.look _) fun _ => .bind (.update fun _ => rfl) fun _ => .pure _

theorem Session.unlisten_preserves {I : State → Prop} (number : Nat) :
    Preserves I (Session.unlisten number) := by
  refine .bind (.look _) fun known => ?_
  split
  · exact .bind (.look _) fun _ => .bind (.update fun _ => rfl) fun _ => .pure _
  · exact .pure _

/-- Commands are made of what keeps what every step keeps. -/
theorem Session.keeps_hosts : Hosts (fun _ => True) (Keeps True) where
  done := done
  andThen := andThen
  looks f _ _ := .look f
  aside h I _ reactor _ w hw := by
    obtain ⟨a, storage, unreadable, unlistable, provider, heq⟩ := h reactor w
    rw [heq]
    exact hw
  request := Engine.carryOut_keeps trivial
  listens _ _ _ := Session.listen_preserves _ _ _ _
  unlistens number _ _ := Session.unlisten_preserves number
  bracketed := Engine.bracketed_keeps
  inside _ _ _ := trivial
  fails _ _ _ := .fail

/-- **Every command of a session keeps what every step keeps.** -/
theorem Command.perform_keeps (c : Command) : Keeps True c.perform :=
  Session.keeps_hosts.perform c trivial

/-- Commands of listeners, however deeply nested, keep what every step keeps. -/
theorem Reactor.nested_keeps {I : State → Prop} (hI : Lasting True I) (n : Nat) :
    (Reactor.nested n).Keeps I := by
  induction n with
  | zero => exact fun _ _ hw => hw
  | succ n ih => exact fun c w hw => Session.preserves c.perform_keeps hI _ ih w hw

namespace World

/-- A run preserves what its parts do, whatever is left to be delivered. -/
theorem run_preserves {α : Type} {I : State → Prop} (hI : Lasting True I) (w : World) (extra : Nat)
    {step : Session α} (h : Preserves I step) (hw : I w.state) : I (w.run extra step).2.state :=
  h _ (Reactor.nested_keeps hI _) w hw

/-- A world after commands, one after another. -/
def after (w : World) (commands : List Command) : World :=
  commands.foldl (fun w c => (w.perform c).2) w

/-- Commands preserve what steps do. -/
theorem after_preserves {I : State → Prop} (hI : Lasting True I) (w : World) (commands : List Command)
    (hw : I w.state) : I (w.after commands).state := by
  induction commands generalizing w with
  | nil => exact hw
  | cons c cs ih => exact ih _ (run_preserves hI w c.reactions (Session.preserves c.perform_keeps hI) hw)

/-- A session begins with a configuration, whatever it tells, and with a listener. -/
theorem eq_of_start {storage : Storage} {provider : Provider} {w : World}
    (h : World.start storage provider = .ok w) :
    w = ((World.run { storage, provider } 0
      (Engine.reconfigure : Session (Except WorkspaceError Unit))).2.run 0
        (Session.listen none 0 false none)).2 := by
  unfold World.start at h
  dsimp only at h
  split at h
  · exact absurd h (by simp)
  · rename_i heq
    rw [heq]
    exact (Except.ok.inj h).symm

/-- The state at the beginning of a session has what the empty state has and every step keeps. -/
theorem start_preserves {I : State → Prop} (hI : Lasting True I) (hinit : I {}) {storage : Storage}
    {provider : Provider} {w : World} (h : World.start storage provider = .ok w) : I w.state := by
  have hconfigured := run_preserves hI { storage, provider } 0
    (Session.preserves (Engine.reconfigure_keeps (m := Session)) hI) hinit
  rw [eq_of_start h]
  exact run_preserves hI _ 0 (Session.listen_preserves none 0 false none) hconfigured

/-- **Every state that a session leaves is reachable by steps.** -/
theorem reachable_after {storage : Storage} {provider : Provider} {w : World}
    (h : World.start storage provider = .ok w) (commands : List Command) :
    (w.after commands).state.Reachable := by
  have hlasting : Lasting True State.Reachable := fun _ _ hs hst => hst.tail hs
  exact after_preserves hlasting w commands (start_preserves hlasting .refl h)

end World

end NedWorkspace
