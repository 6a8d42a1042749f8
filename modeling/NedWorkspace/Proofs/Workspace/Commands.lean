/-
# What commands are made of

Commands are made of requests, looks at the world, changes of what is outside the workspace, listeners that
come and go, and brackets around commands. So what has to be shown of all commands, or of all that are
allowed in some kind of session, is shown of these (`Session.Hosts`); the induction over commands is done
here once (`Session.Hosts.perform`).
-/

import NedWorkspace.Workspace.Session

namespace NedWorkspace

namespace Session

/-- A predicate that holds of all that allowed commands are made of. -/
structure Hosts (Allowed : Command → Prop) (K : {α : Type} → Session α → Prop) : Prop where
  done : ∀ {α : Type} (a : α), K (pure a : Session α)
  andThen : ∀ {α β : Type} {x : Session α} {f : α → Session β}, K x → (∀ a, K (f a)) → K (x >>= f)
  looks : ∀ {α : Type} (f : World → α), K (look f)
  /-- The disk or the source of projects changes. -/
  aside : ∀ {α : Type} {x : Session α}, (∀ reactor w, ∃ a storage unreadable unlistable provider,
    x reactor w = (.done a, { w with storage, unreadable, unlistable, provider })) → K x
  request : ∀ r : Request, K (Engine.carryOut r : Session Answer)
  listens : ∀ {trigger : Option EventSort} {times : Nat} {fails : Bool} {reaction : Option Command},
    Allowed (.listen trigger times fails reaction) → K (listen trigger times fails reaction)
  unlistens : ∀ number : Nat, K (unlisten number)
  bracketed : ∀ {α : Type} {x : Session α}, K x → K (Engine.bracketed x)
  inside : ∀ {commands : List Command} {fails : Bool}, Allowed (.bracket commands fails) →
    ∀ c ∈ commands, Allowed c
  fails : ∀ {commands : List Command}, Allowed (.bracket commands true) → K (fail : Session Answer)

variable {Allowed : Command → Prop} {K : {α : Type} → Session α → Prop}

mutual

/-- **What holds of all that allowed commands are made of holds of every allowed command.** -/
theorem Hosts.perform (hK : Hosts Allowed K) (c : Command) (hc : Allowed c) : K c.perform := by
  match c with
  | .request r =>
    rw [Command.perform]
    exact hK.request r
  | .unknown =>
    rw [Command.perform]
    exact hK.done _
  | .write path text =>
    rw [Command.perform]
    exact hK.aside fun _ w => ⟨_, _, w.unreadable, w.unlistable, w.provider, rfl⟩
  | .erase path =>
    rw [Command.perform]
    exact hK.aside fun _ w => ⟨_, _, w.unreadable, w.unlistable, w.provider, rfl⟩
  | .diskHas path =>
    rw [Command.perform]
    exact hK.looks _
  | .diskRead path =>
    rw [Command.perform]
    exact hK.looks _
  | .diskList path =>
    rw [Command.perform]
    exact hK.looks _
  | .deny unreadable unlistable =>
    rw [Command.perform]
    exact hK.andThen (hK.aside fun _ w => ⟨(), w.storage, _, _, w.provider, rfl⟩) fun _ => hK.done _
  | .setProvider provider =>
    rw [Command.perform]
    exact hK.andThen (hK.aside fun _ w => ⟨(), w.storage, w.unreadable, w.unlistable, _, rfl⟩)
      fun _ => hK.done _
  | .listen trigger times fails reaction =>
    rw [Command.perform]
    exact hK.andThen (hK.listens hc) fun _ => hK.done _
  | .unlisten number =>
    rw [Command.perform]
    exact hK.unlistens number
  | .bracket commands fails =>
    rw [Command.perform]
    refine hK.bracketed (hK.andThen (hK.performEach commands (hK.inside hc)) fun _ => ?_)
    cases fails with
    | true => exact hK.fails hc
    | false => exact hK.done _

/-- Commands in a row are hosted if each of them is. -/
theorem Hosts.performEach (hK : Hosts Allowed K) (cs : List Command) (hcs : ∀ c ∈ cs, Allowed c) :
    K (Command.performEach cs) := by
  match cs with
  | [] =>
    rw [Command.performEach]
    exact hK.done _
  | c :: cs =>
    rw [Command.performEach]
    exact hK.andThen (hK.perform c (hcs c List.mem_cons_self)) fun _ =>
      hK.andThen (hK.performEach cs fun c hc => hcs c (List.mem_cons_of_mem _ hc)) fun _ => hK.done _

end

end Session

end NedWorkspace
