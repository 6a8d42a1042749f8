/-
# Sessions without calls back

In a session in which no listener answers events by commands, operations are carried out one after
another: the delivery of events changes nothing but the queue (`Session.deliver_silent`), so the state
after a section is the one that the section made (`Session.runSection_quiet`). Listeners may still fail
and cut operations short.

A property of states that the moves of operations, questions and the check of all files keep then holds
after every command (`World.calm_after`).
-/

import NedWorkspace.Proofs.Workspace.Run

namespace NedWorkspace

open State

/-- No listener gives commands. -/
def World.Quiet (w : World) : Prop :=
  ∀ l ∈ w.listeners, l.reaction = none

mutual

/-- Whether a command adds no listener that gives commands. -/
def Command.quiet : Command → Bool
  | .listen _ _ _ reaction => reaction.isNone
  | .bracket commands _ => Command.quietEach commands
  | _ => true

/-- Whether none of several commands adds a listener that gives commands. -/
def Command.quietEach : List Command → Bool
  | [] => true
  | c :: cs => c.quiet && Command.quietEach cs

end

namespace Session

variable {α β : Type} {I : State → Prop}

/-! ### Events are told -/

/-- Where no listener gives commands, the step changes nothing of the state but the queue of events, and
no listener comes or goes. -/
def Silent (x : Session α) : Prop :=
  ∀ reactor w, w.Quiet → (∃ events, (x reactor w).2.state = { w.state with events }) ∧
    (x reactor w).2.listeners = w.listeners

theorem Silent.pure (a : α) : Silent (Pure.pure a : Session α) :=
  fun _ w _ => ⟨⟨w.state.events, rfl⟩, rfl⟩

theorem Silent.fail : Silent (fail : Session α) :=
  fun _ w _ => ⟨⟨w.state.events, rfl⟩, rfl⟩

theorem Silent.look (f : World → α) : Silent (look f) :=
  fun _ w _ => ⟨⟨w.state.events, rfl⟩, rfl⟩

theorem Silent.update {f : World → World} (hstate : ∀ w, (f w).state = w.state)
    (hlisteners : ∀ w, (f w).listeners = w.listeners) : Silent (update f) :=
  fun _ w _ => ⟨⟨w.state.events, hstate w⟩, hlisteners w⟩

/-- Sessions in a row are silent if each of them is. -/
theorem Silent.bind {x : Session α} {f : α → Session β} (hx : Silent x) (hf : ∀ a, Silent (f a)) :
    Silent (x >>= f) := by
  intro reactor w hw
  obtain ⟨⟨events, hstate⟩, hlisteners⟩ := hx reactor w hw
  dsimp only [Bind.bind]
  cases hresult : x reactor w with
  | mk outcome w' =>
    rw [hresult] at hstate hlisteners
    cases outcome with
    | failed => exact ⟨⟨events, hstate⟩, hlisteners⟩
    | done a =>
      have hw' : w'.Quiet := fun l hl => hw l (hlisteners ▸ hl)
      obtain ⟨⟨events', hstate'⟩, hlisteners'⟩ := hf a reactor w' hw'
      refine ⟨⟨events', ?_⟩, hlisteners'.trans hlisteners⟩
      rw [hstate', hstate]

/-- A listener that does not answer changes nothing. -/
theorem tell_silent {l : Listener} (h : l.reaction = none) (e : Event) : Silent (tell l e) := by
  refine .bind (.update (fun _ => rfl) fun _ => rfl) fun _ => .bind (.look _) fun left => ?_
  split
  · refine .bind (.update (fun _ => rfl) fun _ => rfl) fun _ => ?_
    split
    · exact .fail
    · intro reactor w hw
      rw [react, h]
      exact Silent.pure () reactor w hw
  · exact .pure _

/-- Listeners that do not answer change nothing. -/
theorem tellEach_silent (e : Event) {ls : List Listener} (h : ∀ l ∈ ls, l.reaction = none) :
    Silent (tellEach e ls) := by
  induction ls with
  | nil => exact .pure _
  | cons l ls ih =>
    exact .bind (tell_silent (h l List.mem_cons_self) e) fun _ =>
      ih fun k hk => h k (List.mem_cons_of_mem l hk)

theorem nextEvent_silent : Silent nextEvent := by
  intro _ w _
  unfold nextEvent
  cases w.state.events with
  | nil => exact ⟨⟨w.state.events, rfl⟩, rfl⟩
  | cons e es => exact ⟨⟨es, rfl⟩, rfl⟩

/-- **Where no listener gives commands, the delivery of events changes nothing but the queue.** -/
theorem deliver_silent (n : Nat) : Silent (deliver n) := by
  induction n with
  | zero => exact .pure _
  | succ n ih =>
    refine .bind nextEvent_silent fun e => ?_
    cases e with
    | none => exact .pure _
    | some e =>
      -- The listeners told are those of the world, so they give no commands.
      intro reactor w hw
      exact Silent.bind (tellEach_silent e hw) (fun _ => ih) reactor w hw

/-- The state after a section is the one that the section made, but for the queue. -/
theorem runSection_quiet (f : State → α × State) (reactor : Reactor) (w : World) (hw : w.Quiet) :
    (runSection f reactor w).2.Quiet ∧
      (∃ events, (runSection f reactor w).2.state = { (f w.state).2 with events }) ∧
      ∀ a, (runSection f reactor w).1 = .done a → a = (f w.state).1 := by
  have hmade : { w with state := (f w.state).2 }.Quiet := hw
  obtain ⟨hstate, hlisteners⟩ :=
    deliver_silent (f w.state).2.events.length reactor { w with state := (f w.state).2 } hmade
  have hquiet : ∀ w' : World, w'.listeners = w.listeners → w'.Quiet := fun w' h l hl => hw l (h ▸ hl)
  unfold runSection
  dsimp only [Bind.bind, Session.look, Pure.pure]
  cases hresult : deliver (f w.state).2.events.length reactor { w with state := (f w.state).2 } with
  | mk outcome w' =>
    rw [hresult] at hstate hlisteners
    cases outcome with
    | done _ => exact ⟨hquiet w' hlisteners, hstate, fun a ha => by cases ha; rfl⟩
    | failed => exact ⟨hquiet w' hlisteners, hstate, fun a ha => by cases ha⟩

/-! ### Operations -/

/-- Where no listener gives commands, the step keeps a property of states and adds no listener that
gives commands. -/
def Calm (I : State → Prop) (x : Session α) : Prop :=
  ∀ reactor w, w.Quiet → I w.state → (x reactor w).2.Quiet ∧ I (x reactor w).2.state

theorem Calm.pure (a : α) : Calm I (Pure.pure a : Session α) :=
  fun _ _ hw h => ⟨hw, h⟩

theorem Calm.fail : Calm I (fail : Session α) :=
  fun _ _ hw h => ⟨hw, h⟩

theorem Calm.look (f : World → α) : Calm I (look f) :=
  fun _ _ hw h => ⟨hw, h⟩

/-- What leaves the state and who listens is calm. -/
theorem Calm.update {f : World → World} (hstate : ∀ w, (f w).state = w.state)
    (hquiet : ∀ w : World, w.Quiet → (f w).Quiet) : Calm I (update f) :=
  fun _ w hw h => ⟨hquiet w hw, (hstate w).symm ▸ h⟩

/-- Sessions in a row are calm if each of them is. -/
theorem Calm.bind {x : Session α} {f : α → Session β} (hx : Calm I x) (hf : ∀ a, Calm I (f a)) :
    Calm I (x >>= f) := by
  intro reactor w hw h
  have hstep := hx reactor w hw h
  dsimp only [Bind.bind]
  cases hresult : x reactor w with
  | mk outcome w' =>
    rw [hresult] at hstep
    cases outcome with
    | done a => exact hf a reactor w' hstep.1 hstep.2
    | failed => exact hstep

/-- A section whose result is used later: what follows may rely on what the section made sure of. -/
theorem Calm.section_bind {J : α → State → Prop} {f : State → α × State} {g : α → Session β}
    (hevents : ∀ st events, I st → I { st with events })
    (hevents' : ∀ a st events, J a st → J a { st with events })
    (hf : ∀ st, I st → I (f st).2 ∧ J (f st).1 (f st).2)
    (hg : ∀ a, Calm (fun st => I st ∧ J a st) (g a)) : Calm I (Engine.locked f >>= g) := by
  intro reactor w hw h
  obtain ⟨hquiet, ⟨events, hstate⟩, hdone⟩ := runSection_quiet f reactor w hw
  obtain ⟨hkept, hmade⟩ := hf w.state h
  change ((runSection f >>= g) reactor w).2.Quiet ∧ I ((runSection f >>= g) reactor w).2.state
  dsimp only [Bind.bind]
  cases hresult : runSection f reactor w with
  | mk outcome w' =>
    rw [hresult] at hquiet hstate hdone
    have hI : I w'.state := hstate ▸ hevents _ _ hkept
    cases outcome with
    | failed => exact ⟨hquiet, hI⟩
    | done a =>
      obtain rfl := hdone a rfl
      have hJ : J (f w.state).1 w'.state := hstate ▸ hevents' _ _ _ hmade
      obtain ⟨hquiet', hI', _⟩ := hg _ reactor w' hquiet ⟨hI, hJ⟩
      exact ⟨hquiet', hI'⟩

/-- What is done under the lock is calm if it keeps the invariant. -/
theorem Calm.locked {f : State → α × State} (hevents : ∀ st events, I st → I { st with events })
    (hf : ∀ st, I st → I (f st).2) : Calm I (Engine.locked f : Session α) := by
  intro reactor w hw h
  obtain ⟨hquiet, ⟨events, hstate⟩, _⟩ := runSection_quiet f reactor w hw
  exact ⟨hquiet, hstate ▸ hevents _ _ (hf _ h)⟩

/-- An operation that a section closes ends where the section does. -/
theorem closing_snd (f : State → State) (x : Session α) (reactor : Reactor) (w : World) :
    ((Engine.closing f x : Session α) reactor w).2 =
      (runSection (fun st => ((), f st)) reactor (x reactor w).2).2 := by
  dsimp only [Engine.closing]
  cases runSection (fun st => ((), f st)) reactor (x reactor w).2 with
  | mk outcome w' => cases outcome <;> rfl

/-- **What the moves of operations keep is kept by the operations made of them.** -/
theorem calm_carries (hI : Moves fun st st' => I st → I st') :
    Engine.Carries Session (fun st st' => I st → I st') (Calm I) where
  moves := hI
  done := .pure
  andThen := .bind
  readsDisk := .look _
  readsProvider := .look _
  inSection h := .locked hI.events h
  atEnd {α f x} h hx := by
    intro reactor w hw hst
    obtain ⟨hquiet, hst⟩ := hx reactor w hw hst
    have hlast := Calm.locked (f := fun st => ((), f st)) hI.events h reactor _ hquiet hst
    rw [closing_snd]
    exact hlast

/-- To listen without answering is calm. -/
theorem listen_calm (trigger : Option EventSort) (times : Nat) (fails : Bool) :
    Calm I (Session.listen trigger times fails none) := by
  refine .bind (.look _) fun number => .bind (.update (fun _ => rfl) fun w hw l hl => ?_) fun _ => .pure _
  rcases List.mem_append.mp hl with hl | hl
  · exact hw l hl
  · exact List.mem_singleton.mp hl ▸ rfl

theorem unlisten_calm (number : Nat) : Calm I (Session.unlisten number) := by
  refine .bind (.look _) fun known => ?_
  split
  · exact .bind (.look _) fun _ => .bind (.update (fun _ => rfl) fun w hw l hl =>
      hw l (List.mem_filter.mp hl).1) fun _ => .pure _
  · exact .pure _

end Session

open Session

/-- What sessions without calls back keep, if it holds at the beginning. -/
structure Calming (I : State → Prop) : Prop where
  moves : Moves fun st st' => I st → I st'
  asks : ∀ {α : Type} {q : Model → Query α}, (∀ n, Query.Built n (q n)) →
    ∀ st, I st → I (st.rehash.ask q).2
  validates : Calm I (Engine.validate : Session Unit)

/-- Quiet commands are so one by one. -/
theorem Command.quiet_of_mem {cs : List Command} (h : Command.quietEach cs = true) :
    ∀ c ∈ cs, c.quiet = true := by
  induction cs with
  | nil => exact fun _ hc => absurd hc List.not_mem_nil
  | cons c cs ih =>
    rw [Command.quietEach, Bool.and_eq_true] at h
    exact List.forall_mem_cons.mpr ⟨h.1, ih h.2⟩

variable {I : State → Prop}

/-- Commands that add no listener with commands are made of what keeps what moves, questions and checks
keep. -/
theorem Calming.hosts (hI : Calming I) : Hosts (fun c => c.quiet = true) (Calm I) where
  done := .pure
  andThen := .bind
  looks := .look
  aside h reactor w hw hst := by
    obtain ⟨a, storage, unreadable, unlistable, provider, heq⟩ := h reactor w
    rw [heq]
    exact ⟨hw, hst⟩
  request := (calm_carries hI.moves).carryOut (fun hq => .locked hI.moves.events (hI.asks hq))
    hI.validates
  listens hc := by
    rw [Command.quiet, Option.isNone_iff_eq_none] at hc
    subst hc
    exact listen_calm _ _ _
  unlistens := unlisten_calm
  bracketed := (calm_carries hI.moves).conveys.bracketed
  inside hc := by
    rw [Command.quiet] at hc
    exact Command.quiet_of_mem hc
  fails _ := .fail

/-- **A command that adds no listener with commands keeps what moves, questions and checks keep.** -/
theorem Command.perform_calm (hI : Calming I) (c : Command) (hc : c.quiet = true) :
    Calm I c.perform :=
  hI.hosts.perform c hc

/-- **Sessions without calls back keep what moves, questions and checks keep.** -/
theorem World.calm_after (hI : Calming I) (hinit : I {}) {storage : Storage} {provider : Provider} {w : World}
    (h : World.start storage provider = .ok w) {commands : List Command}
    (hquiet : ∀ c ∈ commands, c.quiet = true) : I (w.after commands).state := by
  have hlater : ∀ w : World, w.Quiet → I w.state → ∀ cs : List Command,
      (∀ c ∈ cs, c.quiet = true) → I (w.after cs).state := by
    intro w hw hst cs hcs
    induction cs generalizing w with
    | nil => exact hst
    | cons c cs ih =>
      obtain ⟨hw', hst'⟩ := Command.perform_calm hI c (hcs c List.mem_cons_self)
        (Reactor.nested (w.reactions + c.reactions)) w hw hst
      exact ih _ hw' hst' fun c hc => hcs c (List.mem_cons_of_mem _ hc)
  have hstart : w.Quiet ∧ I w.state := by
    have hempty : World.Quiet { storage, provider } := fun _ hl => absurd hl List.not_mem_nil
    have hconfigured := (calm_carries hI.moves).conveys.reconfigure
      (Reactor.nested (World.reactions { storage, provider } + 0)) { storage, provider } hempty hinit
    rw [World.eq_of_start h]
    exact listen_calm none 0 false _ _ hconfigured.1 hconfigured.2
  exact hlater w hstart.1 hstart.2 commands hquiet

end NedWorkspace
