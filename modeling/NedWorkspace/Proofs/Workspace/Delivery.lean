/-
# How a session runs

SPEC_FULL, section 4.5: events are queued, then delivered.

What happens to a world in the course of a command has the shape of a tree: sections queue events, events
are taken from the queue and told to the listeners one by one, and a listener may give a command, all of
which happens before the next listener is told (`World.Run`). A failure cuts such a tree short; in a steady
session, where no listener and no command of a listener fails, nothing is cut, and every command leaves the
queue empty once it has run a section (`Session.section_runs`).

That commands go like this is shown of the parts of operations (`Session.runs_conveys`) and of commands
(`Session.runs_hosts`); the results are `World.perform_ran` and `World.after_ran`.
-/

import NedWorkspace.Proofs.Workspace.Brackets
import NedWorkspace.Proofs.Workspace.Commands
import NedWorkspace.Proofs.Workspace.Run

namespace NedWorkspace

open State

mutual

/-- Whether no listener that a command adds ever fails, and no command of one. A command of a listener
(`own`) must not fail itself either; other commands may. -/
def Command.steady (own : Bool) : Command → Bool
  | .listen _ _ fails reaction => !fails && Command.steadyOption reaction
  | .bracket commands fails => !(own && fails) && Command.steadyEach own commands
  | _ => true

/-- Whether the command of a listener, if there is one, is steady. -/
def Command.steadyOption : Option Command → Bool
  | some c => c.steady true
  | none => true

/-- Whether all of several commands are steady. -/
def Command.steadyEach (own : Bool) : List Command → Bool
  | [] => true
  | c :: cs => c.steady own && Command.steadyEach own cs

end

/-- A listener that never fails, and neither does its command. -/
structure Listener.Steady (l : Listener) : Prop where
  fails : l.fails = false
  reaction : ∀ c, l.reaction = some c → c.steady true = true

namespace World

/-- All listeners are steady. -/
def Steady (w : World) : Prop :=
  ∀ l ∈ w.listeners, l.Steady

/-- The events that were ever queued for good, in the order in which they were queued. -/
def history (w : World) : List Event :=
  w.delivered ++ w.state.events

/-- A listener notes an event and may have fewer reactions left. -/
def told (w : World) (l : Listener) (e : Event) (budgets : OrderedMap Nat Nat) : World :=
  { w.note l.number (.event e) with budgets }

/-- What can happen to a world: first the given listeners are told of the given events, each together
with all that its reaction brings about. Where something fails (`steady` is false) some may be left out,
and a bracket may be opened without an operation in it. -/
inductive Run (steady : Prop) : List (Event × Listener) → World → World → Prop
  | done (w : World) : Run steady [] w w
  | andThen {a b c : World} (first : Run steady [] a b) (next : Run steady [] b c) : Run steady [] a c
  /-- A section works on the state. -/
  | made {w : World} {st : State} (h : w.state.Queues st) : Run steady [] w { w with state := st }
  | enclosed {w w' : World} (inner : Run steady [] { w with state := w.state.emit .began } w') :
      Run steady [] w { w' with state := w'.state.emit .ended }
  | opened (w : World) (h : ¬ steady) : Run steady [] w { w with state := w.state.emit .began }
  /-- The disk or the source of projects changes. -/
  | aside (w : World) (storage : Storage) (unreadable unlistable : List Path) (provider : Provider) :
      Run steady [] w { w with storage, unreadable, unlistable, provider }
  | joined (w : World) (l : Listener) (times : Nat) (hnumber : l.number = w.budgets.size)
      (hsteady : steady → l.Steady) : Run steady [] w
        { w with listeners := w.listeners ++ [l], budgets := w.budgets.insert l.number times }
  | left (w : World) (number : Nat) : Run steady [] w
      { w with listeners := w.listeners.filter (·.number != number) }
  /-- An event is taken from the queue and told to those who listen at that moment. -/
  | took {w w' : World} {e : Event} {es : List Event} (hqueue : w.state.events = e :: es)
      (telling : Run steady (w.listeners.map (e, ·))
        { w with state := { w.state with events := es }, delivered := w.delivered ++ [e] } w') :
      Run steady [] w w'
  | heard {w w' : World} {e : Event} {l : Listener} {more : List (Event × Listener)}
      {budgets : OrderedMap Nat Nat} (hkeys : budgets.keys = w.budgets.keys)
      (rest : Run steady more (w.told l e budgets) w') : Run steady ((e, l) :: more) w w'
  | reacted {w v w' : World} {e : Event} {l : Listener} {more : List (Event × Listener)}
      {budgets : OrderedMap Nat Nat} {c : Command} (a : Answer) (hkeys : budgets.keys = w.budgets.keys)
      (hreaction : l.reaction = some c) (reaction : Run steady [] (w.told l e budgets) v)
      (rest : Run steady more (v.note l.number (.reply a)) w') : Run steady ((e, l) :: more) w w'
  | cut {w w' : World} {e : Event} {l : Listener} {more : List (Event × Listener)}
      {budgets : OrderedMap Nat Nat} (h : ¬ steady) (hkeys : budgets.keys = w.budgets.keys)
      (reaction : Run steady [] (w.told l e budgets) w') : Run steady ((e, l) :: more) w w'

variable {steady : Prop} {tells : List (Event × Listener)} {w w' : World}

/-- Steady listeners stay, and only steady ones join them. -/
theorem Run.listeners_steady (h : Run steady tells w w') (hsteady : steady) (hw : w.Steady) : w'.Steady := by
  induction h with
  | done | made | opened | aside => exact hw
  | andThen _ _ ihfirst ihnext => exact ihnext (ihfirst hw)
  | enclosed _ ih => exact ih hw
  | joined w l times hnumber hl =>
    intro k hk
    rcases List.mem_append.mp hk with hk | hk
    · exact hw k hk
    · exact List.mem_singleton.mp hk ▸ hl hsteady
  | left w number => exact fun k hk => hw k (List.mem_filter.mp hk).1
  | took _ _ ih => exact ih hw
  | heard _ _ ih => exact ih hw
  | reacted _ _ _ _ _ ihreaction ihrest => exact ihrest (ihreaction hw)
  | cut hnot => exact absurd hsteady hnot

/-- How a step went, if it went as a run: in a steady session it leaves no more in the queue than it
found, and a `sure` one is not cut short. -/
structure Ran {α : Type} (steady sure : Prop) (tells : List (Event × Listener)) (w : World)
    (r : Outcome α × World) : Prop where
  run : Run steady tells w r.2
  queue : steady → r.2.state.events.length ≤ w.state.events.length
  completed : steady → sure → r.1 ≠ .failed

/-- Nothing stays in the queue where nothing was. -/
theorem Ran.emptied {α : Type} {sure : Prop} {r : Outcome α × World} (h : Ran steady sure tells w r)
    (hs : steady) (hw : w.state.events = []) : r.2.state.events = [] := by
  have hqueue := h.queue hs
  rw [hw, List.length_nil] at hqueue
  exact List.length_eq_zero_iff.mp (Nat.le_zero.mp hqueue)

end World

open World

/-- Listeners' commands go as runs. -/
def Reactor.Runs (steady : Prop) (reactor : Reactor) : Prop :=
  ∀ c w, (steady → c.steady true = true) → (steady → w.Steady) → Ran steady True [] w (reactor c w)

namespace Session

variable {steady sure : Prop} {reactor : Reactor} {α β : Type}

/-- The step goes as a run, if listeners' commands do. -/
def Runs (steady sure : Prop) (x : Session α) : Prop :=
  ∀ reactor : Reactor, reactor.Runs steady → ∀ w, (steady → w.Steady) → Ran steady sure [] w (x reactor w)

/-! ### Events are told -/

/-- A listener is told of an event, and that is all, or it fails, or its command is carried out. -/
theorem tell_cases (reactor : Reactor) (l : Listener) (e : Event) (w : World) :
    ∃ budgets : OrderedMap Nat Nat, budgets.keys = w.budgets.keys ∧
      (tell l e reactor w = (.done (), w.told l e budgets) ∨
        (l.fails = true ∧ tell l e reactor w = (.failed, w.told l e budgets)) ∨
        ∃ c, l.reaction = some c ∧ tell l e reactor w =
          match reactor c (w.told l e budgets) with
          | (.done a, v) => (.done (), v.note l.number (.reply a))
          | (.failed, v) => (.failed, v)) := by
  have htell : tell l e reactor w =
      (if l.trigger = some e.sort ∧ 0 < (w.budgets.get? l.number).getD 0 then do
          update fun w' =>
            { w' with budgets := w'.budgets.insert l.number ((w.budgets.get? l.number).getD 0 - 1) }
          if l.fails then fail else react l
        else return () : Session Unit) reactor (w.note l.number (.event e)) := rfl
  by_cases h : l.trigger = some e.sort ∧ 0 < (w.budgets.get? l.number).getD 0
  · have hknown : w.budgets.contains l.number = true := by
      cases hleft : w.budgets.get? l.number with
      | none => exact absurd h.2 (by simp [hleft])
      | some left => exact Option.isSome_iff_exists.mpr ⟨left, hleft⟩
    refine ⟨_, OrderedMap.keys_insert_of_contains w.budgets hknown
      ((w.budgets.get? l.number).getD 0 - 1), ?_⟩
    rw [if_pos h] at htell
    change _ = (if l.fails then fail else react l : Session Unit) reactor (w.told l e _) at htell
    cases hfails : l.fails with
    | true =>
      rw [hfails] at htell
      exact .inr (.inl ⟨rfl, htell⟩)
    | false =>
      rw [hfails] at htell
      change _ = react l reactor (w.told l e _) at htell
      cases hreaction : l.reaction with
      | none =>
        rw [react, hreaction] at htell
        exact .inl htell
      | some c =>
        rw [react, hreaction] at htell
        exact .inr (.inr ⟨c, rfl, htell⟩)
  · rw [if_neg h] at htell
    exact ⟨w.budgets, rfl, .inl htell⟩

/-- Several listeners are told of an event. -/
theorem tellEach_runs (hreactor : reactor.Runs steady) (e : Event) (ls : List Listener) (w : World)
    (hls : steady → ∀ l ∈ ls, l.Steady) (hw : steady → w.Steady) :
    Ran steady True (ls.map (e, ·)) w (tellEach e ls reactor w) := by
  induction ls generalizing w with
  | nil => exact ⟨.done w, fun _ => Nat.le_refl _, fun _ _ => nofun⟩
  | cons l ls ih =>
    have hlater : steady → ∀ k ∈ ls, k.Steady := fun hs k hk => hls hs k (List.mem_cons_of_mem l hk)
    obtain ⟨budgets, hkeys, htold | ⟨hfails, htold⟩ | ⟨c, hreaction, htold⟩⟩ := tell_cases reactor l e w
    · dsimp only [tellEach, Bind.bind]
      rw [htold]
      have hrest := ih (w.told l e budgets) hlater hw
      exact ⟨.heard hkeys hrest.run, hrest.queue, hrest.completed⟩
    · have hnot : ¬ steady := fun hs =>
        absurd (hls hs l List.mem_cons_self).fails (by rw [hfails]; decide)
      dsimp only [tellEach, Bind.bind]
      rw [htold]
      exact ⟨.cut hnot hkeys (.done _), fun hs => absurd hs hnot, fun hs => absurd hs hnot⟩
    · have hcommand : steady → c.steady true = true := fun hs =>
        (hls hs l List.mem_cons_self).reaction c hreaction
      have hreacted := hreactor c (w.told l e budgets) hcommand hw
      dsimp only [tellEach, Bind.bind]
      rw [htold]
      cases hresult : reactor c (w.told l e budgets) with
      | mk outcome v =>
        rw [hresult] at hreacted
        cases outcome with
        | failed =>
          have hnot : ¬ steady := fun hs => hreacted.completed hs trivial rfl
          exact ⟨.cut hnot hkeys hreacted.run, fun hs => absurd hs hnot, fun hs => absurd hs hnot⟩
        | done a =>
          have hv : steady → (v.note l.number (.reply a)).Steady := fun hs =>
            hreacted.run.listeners_steady hs (hw hs)
          have hrest := ih (v.note l.number (.reply a)) hlater hv
          exact ⟨.reacted a hkeys hreaction hreacted.run hrest.run,
            fun hs => Nat.le_trans (hrest.queue hs) (hreacted.queue hs), hrest.completed⟩

/-- Up to `n` events are delivered; in a steady session all of them are gone then. -/
theorem deliver_runs (hreactor : reactor.Runs steady) (n : Nat) (w : World) (hw : steady → w.Steady) :
    Run steady [] w (deliver n reactor w).2 ∧
      (steady → (deliver n reactor w).2.state.events.length ≤ w.state.events.length - n ∧
        (deliver n reactor w).1 ≠ .failed) := by
  induction n generalizing w with
  | zero => exact ⟨.done w, fun _ => ⟨Nat.le_refl _, nofun⟩⟩
  | succ n ih =>
    dsimp only [deliver, Bind.bind, nextEvent]
    cases hqueue : w.state.events with
    | nil => exact ⟨.done w, fun _ => ⟨by simp [Pure.pure, hqueue], nofun⟩⟩
    | cons e es =>
      dsimp only [look]
      have htold := tellEach_runs hreactor e w.listeners
        { w with state := { w.state with events := es }, delivered := w.delivered ++ [e] } hw hw
      cases hresult : tellEach e w.listeners reactor
          { w with state := { w.state with events := es }, delivered := w.delivered ++ [e] } with
      | mk outcome v =>
        rw [hresult] at htold
        have htook : Run steady [] w v := .took hqueue htold.run
        cases outcome with
        | failed => exact ⟨htook, fun hs => absurd rfl (htold.completed hs trivial)⟩
        | done u =>
          obtain ⟨hrun, hleft⟩ := ih v fun hs => htook.listeners_steady hs (hw hs)
          refine ⟨.andThen htook hrun, fun hs => ⟨?_, (hleft hs).2⟩⟩
          have hqueued : v.state.events.length ≤ es.length := htold.queue hs
          have hrest := (hleft hs).1
          dsimp only at hrest ⊢
          rw [List.length_cons]
          omega

/-- **A section goes as a run on from the state that it made,** and in a steady session it leaves the queue
empty. -/
theorem section_runs (hreactor : reactor.Runs steady) (f : State → α × State) (w : World)
    (hw : steady → w.Steady) :
    Run steady [] { w with state := (f w.state).2 } (runSection f reactor w).2 ∧
      (steady → (runSection f reactor w).2.state.events = [] ∧ (runSection f reactor w).1 ≠ .failed) := by
  obtain ⟨hrun, hleft⟩ := deliver_runs hreactor (f w.state).2.events.length
    { w with state := (f w.state).2 } hw
  dsimp only [runSection, Bind.bind, look]
  cases hresult : deliver (f w.state).2.events.length reactor { w with state := (f w.state).2 } with
  | mk outcome v =>
    rw [hresult] at hrun hleft
    have hempty : steady → v.state.events = [] := fun hs =>
      List.length_eq_zero_iff.mp (by have := (hleft hs).1; dsimp only at this; omega)
    cases outcome with
    | failed => exact ⟨hrun, fun hs => absurd rfl (hleft hs).2⟩
    | done _ => exact ⟨hrun, fun hs => ⟨hempty hs, nofun⟩⟩

/-! ### Operations -/

theorem Runs.pure (a : α) : Runs steady sure (Pure.pure a : Session α) :=
  fun _ _ w _ => ⟨.done w, fun _ => Nat.le_refl _, fun _ _ => nofun⟩

theorem Runs.look (f : World → α) : Runs steady sure (look f) :=
  fun _ _ w _ => ⟨.done w, fun _ => Nat.le_refl _, fun _ _ => nofun⟩

/-- Sessions in a row run, one after the other. -/
theorem Runs.bind {x : Session α} {f : α → Session β} (hx : Runs steady sure x)
    (hf : ∀ a, Runs steady sure (f a)) : Runs steady sure (x >>= f) := by
  intro reactor hreactor w hw
  have hfirst := hx reactor hreactor w hw
  dsimp only [Bind.bind]
  cases hresult : x reactor w with
  | mk outcome v =>
    rw [hresult] at hfirst
    cases outcome with
    | failed => exact ⟨hfirst.run, hfirst.queue, fun hs hsure => absurd rfl (hfirst.completed hs hsure)⟩
    | done a =>
      have hnext := hf a reactor hreactor v fun hs => hfirst.run.listeners_steady hs (hw hs)
      exact ⟨.andThen hfirst.run hnext.run,
        fun hs => Nat.le_trans (hnext.queue hs) (hfirst.queue hs), hnext.completed⟩

/-- What is done under the lock runs if it queues no bracket. -/
theorem Runs.locked {f : State → α × State} (h : ∀ st : State, st.Queues (f st).2) :
    Runs steady sure (Engine.locked f : Session α) := by
  intro reactor hreactor w hw
  obtain ⟨hrun, hleft⟩ := section_runs hreactor f w hw
  refine ⟨.andThen (.made (h w.state)) hrun, fun hs => ?_, fun hs _ => (hleft hs).2⟩
  change (runSection f reactor w).2.state.events.length ≤ _
  rw [(hleft hs).1]
  exact Nat.zero_le _

/-- An operation that a section closes, if the operation and what the section makes are a run. -/
theorem closing_runs {f : State → State} {x : Session α} {w v : World} (hreactor : reactor.Runs steady)
    (hw : steady → (x reactor w).2.Steady)
    (hcompleted : steady → sure → (x reactor w).1 ≠ .failed)
    (hmade : Run steady [] v { (x reactor w).2 with state := f (x reactor w).2.state }) :
    Ran steady sure [] v ((Engine.closing f x : Session α) reactor w) := by
  obtain ⟨hrun, hleft⟩ := section_runs hreactor (fun st => ((), f st)) (x reactor w).2 hw
  dsimp only [Engine.closing]
  cases hresult : runSection (fun st => ((), f st)) reactor (x reactor w).2 with
  | mk outcome u =>
    rw [hresult] at hrun hleft
    have hempty : steady → u.state.events.length ≤ v.state.events.length := fun hs => by
      rw [show u.state.events = [] from (hleft hs).1]
      exact Nat.zero_le _
    cases outcome with
    | failed => exact ⟨.andThen hmade hrun, hempty, fun hs => absurd rfl (hleft hs).2⟩
    | done _ => exact ⟨.andThen hmade hrun, hempty, hcompleted⟩

/-- What is done at the end of a session runs, panic or not. -/
theorem Runs.closing {f : State → State} {x : Session α} (h : ∀ st : State, st.Queues (f st))
    (hx : Runs steady sure x) : Runs steady sure (Engine.closing f x : Session α) := by
  intro reactor hreactor w hw
  have hfirst := hx reactor hreactor w hw
  exact closing_runs hreactor (fun hs => hfirst.run.listeners_steady hs (hw hs)) hfirst.completed
    (.andThen hfirst.run (.made (h _)))

/-- An operation in brackets. If somebody fails on hearing of the first bracket, there is no other. -/
theorem Runs.bracketed {x : Session α} (hx : Runs steady sure x) :
    Runs steady sure (Engine.bracketed x : Session α) := by
  intro reactor hreactor w hw
  obtain ⟨hrun, hleft⟩ := section_runs hreactor (fun st => ((), st.emit .began)) w hw
  change Ran steady sure [] w ((runSection (fun st => ((), st.emit .began)) >>= fun _ =>
    Engine.closing (·.emit .ended) x : Session α) reactor w)
  dsimp only [Bind.bind]
  cases hresult : runSection (fun st => ((), st.emit .began)) reactor w with
  | mk outcome v =>
    rw [hresult] at hrun hleft
    cases outcome with
    | failed =>
      have hnot : ¬ steady := fun hs => (hleft hs).2 rfl
      exact ⟨.andThen (.opened w hnot) hrun, fun hs => absurd hs hnot, fun hs => absurd hs hnot⟩
    | done _ =>
      have hv : steady → v.Steady := fun hs => hrun.listeners_steady hs (hw hs)
      have hinner := hx reactor hreactor v hv
      have hlast := closing_runs hreactor (f := (·.emit .ended)) (v := w)
        (fun hs => hinner.run.listeners_steady hs (hv hs)) hinner.completed
        (.enclosed (.andThen hrun hinner.run))
      exact hlast

theorem runs_conveys : Engine.Conveys Session Queues (Runs steady sure) where
  moves := Queues.openMoves
  done := .pure
  andThen := .bind
  readsDisk := .look _
  readsProvider := .look _
  inSection := .locked
  bracketed := .bracketed

/-- A file is read without telling anyone. -/
theorem loadSilently_runs (path : Path) (text : String) :
    Runs steady sure (Engine.loadSilently path text : Session Bool) := by
  refine .locked fun st => ?_
  cases st.store.at? path with
  | some _ => exact .of_eq rfl
  | none => exact .of_eq rfl

/-- Publishing runs file by file, listeners in between. -/
theorem publishEach_runs (duplicates : List Diagnostic) (ids : List FileId) :
    Runs steady sure (Engine.publishEach duplicates ids : Session Unit) := by
  induction ids with
  | nil => exact .pure _
  | cons id ids ih => exact .bind (runs_conveys.change fun st => Queues.publish st id _) fun _ => ih

/-- Every request runs. -/
theorem carryOut_runs (r : Request) : Runs steady sure (Engine.carryOut r : Session Answer) := by
  have hload : Runs steady sure (Engine.loadMissing : Session (Except WorkspaceError Nat)) :=
    runs_conveys.loadMissing loadSilently_runs (.closing fun st => .emit st nofun nofun)
  have hvalidate : Runs steady sure (Engine.validate : Session Unit) :=
    .bracketed (.bind (.locked Queues.planValidation) fun _ => publishEach_runs _ _)
  have hask : ∀ {β : Type} (q : Model → Query β), Runs steady sure (Engine.ask q : Session β) := fun _ =>
    .locked fun st => (Queues.rehash st).trans (.of_eq rfl)
  cases r with
  | invalidate => exact .bind (runs_conveys.change fun st => .of_eq rfl) fun _ => .pure _
  | _ => exact runs_conveys.carryOut hload (fun _ => hask _) hvalidate nofun

/-! ### Commands -/

/-- To listen is to run, if the listener is a steady one. -/
theorem listen_runs {trigger : Option EventSort} {times : Nat} {fails : Bool} {reaction : Option Command}
    {own : Bool} (h : steady → (Command.listen trigger times fails reaction).steady own = true) :
    Runs steady sure (Session.listen trigger times fails reaction) := by
  intro _ _ w _
  refine ⟨.joined w ⟨w.budgets.size, trigger, fails, reaction⟩ times rfl fun hs => ?_,
    fun _ => Nat.le_refl _, fun _ _ => nofun⟩
  have hc := h hs
  rw [Command.steady, Bool.and_eq_true, Bool.not_eq_true'] at hc
  refine ⟨hc.1, fun c hreaction => ?_⟩
  have hcommand := hc.2
  rw [show reaction = some c from hreaction] at hcommand
  exact hcommand

theorem unlisten_runs (number : Nat) : Runs steady sure (Session.unlisten number) := by
  refine .bind (.look _) fun known => ?_
  split
  · refine .bind (.look _) fun _ => .bind ?_ fun _ => .pure _
    exact fun _ _ w _ => ⟨.left w number, fun _ => Nat.le_refl _, fun _ _ => nofun⟩
  · exact .pure _

end Session

/-- Steady commands are so one by one. -/
theorem Command.steady_of_mem {own : Bool} {cs : List Command} (h : Command.steadyEach own cs = true) :
    ∀ c ∈ cs, c.steady own = true := by
  induction cs with
  | nil => exact fun _ hc => absurd hc List.not_mem_nil
  | cons c cs ih =>
    rw [Command.steadyEach, Bool.and_eq_true] at h
    exact List.forall_mem_cons.mpr ⟨h.1, ih h.2⟩

open Session

variable {steady : Prop}

/-- Commands go as runs. Those of listeners are sure not to be cut short. -/
theorem Session.runs_hosts (own : Bool) :
    Hosts (fun c => steady → c.steady own = true) (Runs steady (own = true)) where
  done := .pure
  andThen := .bind
  looks := .look
  aside h reactor _ w _ := by
    obtain ⟨a, storage, unreadable, unlistable, provider, heq⟩ := h reactor w
    rw [heq]
    exact ⟨.aside w storage unreadable unlistable provider, fun _ => Nat.le_refl _, fun _ _ => nofun⟩
  request := carryOut_runs
  listens := listen_runs
  unlistens := unlisten_runs
  bracketed := .bracketed
  inside hc c hmem hs := by
    have hbracket := hc hs
    rw [Command.steady, Bool.and_eq_true] at hbracket
    exact Command.steady_of_mem hbracket.2 c hmem
  fails hc _ _ w _ := by
    refine ⟨.done w, fun _ => Nat.le_refl _, fun hs hown => ?_⟩
    have hbracket := hc hs
    rw [hown, Command.steady] at hbracket
    exact absurd hbracket (by simp)

/-- Listeners' commands, however deeply nested, go as runs. -/
theorem Reactor.nested_runs (n : Nat) : (Reactor.nested n).Runs steady := by
  induction n with
  | zero => exact fun _ w _ _ => ⟨.done w, fun _ => Nat.le_refl _, fun _ _ => nofun⟩
  | succ n ih =>
    intro c w hc hw
    have hran := (Session.runs_hosts true).perform c hc (Reactor.nested n) ih w hw
    exact ⟨hran.run, hran.queue, fun hs _ => hran.completed hs rfl⟩

namespace World

/-- What runs does so in every world, whatever listeners do in between. -/
theorem run_ran {sure : Prop} {α : Type} (w : World) (extra : Nat) {x : Session α}
    (hx : Runs steady sure x) (hw : steady → w.Steady) : Ran steady sure [] w (w.run extra x) :=
  hx _ (Reactor.nested_runs _) w hw

/-- **A command goes as a run,** and in a steady session it leaves no more in the queue than it found. -/
theorem perform_ran (w : World) {c : Command} (hc : steady → c.steady false = true)
    (hw : steady → w.Steady) : Ran steady False [] w (w.perform c) := by
  have hran := w.run_ran c.reactions ((Session.runs_hosts false).perform c hc) hw
  exact ⟨hran.run, hran.queue, fun _ h => h.elim⟩

/-- Commands one after another go as a run. -/
theorem after_ran (w : World) {commands : List Command}
    (hcommands : steady → ∀ c ∈ commands, c.steady false = true) (hw : steady → w.Steady) :
    Run steady [] w (w.after commands) ∧
      (steady → w.state.events = [] → (w.after commands).state.events = []) := by
  induction commands generalizing w with
  | nil => exact ⟨.done w, fun _ hempty => hempty⟩
  | cons c cs ih =>
    have hfirst := w.perform_ran (c := c) (fun hs => hcommands hs c List.mem_cons_self) hw
    have hlater := ih (w.perform c).2 (fun hs d hd => hcommands hs d (List.mem_cons_of_mem c hd))
      fun hs => hfirst.run.listeners_steady hs (hw hs)
    exact ⟨.andThen hfirst.run hlater.1, fun hs hempty => hlater.2 hs (hfirst.emptied hs hempty)⟩

/-- A session begins with a run in a world without listeners. -/
theorem start_ran {storage : Storage} {provider : Provider} {w : World}
    (h : World.start storage provider = .ok w) :
    Run steady [] { storage, provider } w ∧ (steady → w.state.events = []) := by
  have hempty : World.Steady { storage, provider } := fun _ hl => absurd hl List.not_mem_nil
  have hreconfigure : Runs steady True (Engine.reconfigure : Session (Except WorkspaceError Unit)) :=
    runs_conveys.reconfigure
  have hlistens : Runs steady True (Session.listen none 0 false none) :=
    @listen_runs _ _ none 0 false none false fun _ => rfl
  have hconfigured := World.run_ran { storage, provider } 0 hreconfigure fun _ => hempty
  have hlistened := run_ran _ 0 hlistens fun hs => hconfigured.run.listeners_steady hs hempty
  rw [eq_of_start h]
  exact ⟨.andThen hconfigured.run hlistened.run, fun hs => hlistened.emptied hs (hconfigured.emptied hs rfl)⟩

/-- At the start no one listens and nothing is queued. -/
theorem start_steady {storage : Storage} {provider : Provider} {w : World}
    (h : World.start storage provider = .ok w) : w.Steady ∧ w.state.events = [] := by
  have hran : Run True [] { storage, provider } w ∧ (True → w.state.events = []) := start_ran h
  exact ⟨hran.1.listeners_steady trivial fun _ hl => absurd hl List.not_mem_nil, hran.2 trivial⟩

end World

end NedWorkspace
