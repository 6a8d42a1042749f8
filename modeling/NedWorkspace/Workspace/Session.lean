/-
# Sessions with listeners

SPEC_FULL, section 4.5 (`run_with_begin_end`, `add_change_listener`) and section 5.

A session is a workspace with a disk, a source of projects and listeners. After every section of an
operation the queued events are taken from the queue one by one, and each is told to the listeners that
are registered at that moment, in the order of their registration. A listener notes every event. It may
also react to the first few events of one sort: by giving a command, which is carried out at once,
before anybody else hears of the event, or by failing, which ends the operation under way. Then the
events that are still queued are delivered by the next section, and the last sections of the operations
that were cut short are still run.

The number of reactions that listeners can still have, together with those of listeners that a command
may add, bounds how deep commands can be nested (`Command.reactions`, `World.reactions`).
-/

import NedWorkspace.Workspace.Request

namespace NedWorkspace

/-- What can be done in a session. -/
inductive Command where
  | request (request : Request)
  /-- Something that nobody understands. -/
  | unknown
  /-- Writes a file to the disk. -/
  | write (path : Path) (text : String)
  /-- Removes a file from the disk. -/
  | erase (path : Path)
  | diskHas (path : Path)
  | diskRead (path : Path)
  | diskList (path : Path)
  /-- Makes exactly these files unreadable and these folders unlistable. -/
  | deny (unreadable unlistable : List Path)
  /-- Makes the projects come from elsewhere. -/
  | setProvider (provider : Provider)
  /-- Adds a listener that reacts to the first `times` events of a sort, by failing or by a command. -/
  | listen (trigger : Option EventSort) (times : Nat) (fails : Bool) (reaction : Option Command)
  /-- Removes the listener with the given number. -/
  | unlisten (number : Nat)
  /-- Commands between the events `began` and `ended`, perhaps with a failure at the end. -/
  | bracket (commands : List Command) (fails : Bool)

mutual

/-- The number of reactions that a command can bring about by adding listeners. -/
def Command.reactions : Command → Nat
  | .listen _ times _ reaction => times * (1 + Command.reactionsOfOption reaction)
  | .bracket commands _ => Command.reactionsOfList commands
  | _ => 0

/-- The number of reactions of a command that may be missing. -/
def Command.reactionsOfOption : Option Command → Nat
  | some c => c.reactions
  | none => 0

/-- The number of reactions of several commands. -/
def Command.reactionsOfList : List Command → Nat
  | [] => 0
  | c :: cs => c.reactions + Command.reactionsOfList cs

end

/-- A listener. -/
structure Listener where
  number : Nat
  trigger : Option EventSort
  fails : Bool
  reaction : Option Command

/-- What a listener notes: an event, or the answer to the command that it gave. -/
inductive Note where
  | event (e : Event)
  | reply (a : Answer)

/-- What is on the disk. -/
inductive Storage where
  | map (files : FileMap)
  | tree (tree : FolderTree)

namespace Storage

/-- The storage as a disk. -/
def disk : Storage → Disk
  | map files => files.disk
  | tree t => t.disk

/-- Writes a file. A map tells how many files it has then, a tree whether it could be done. -/
def write (s : Storage) (path : Path) (text : String) : Answer × Storage :=
  match s with
  | map files =>
    let files : FileMap := files.insert path text
    (.number files.size, map files)
  | tree t =>
    let r := t.write path text
    (.flag r.1, tree r.2)

/-- Removes a file; says whether there was one. -/
def erase (s : Storage) (path : Path) : Bool × Storage :=
  match s with
  | map files => (files.contains path, map (files.erase path))
  | tree t =>
    match t.remove path with
    | some t => (true, tree t)
    | none => (false, tree t)

end Storage

/-- All that a session can change. -/
structure World where
  state : State := {}
  storage : Storage
  unreadable : List Path := []
  unlistable : List Path := []
  provider : Provider
  /-- The registered listeners. -/
  listeners : List Listener := []
  /-- How many reactions each listener that was ever added has left. -/
  budgets : OrderedMap Nat Nat := {}
  /-- What the listeners noted, with their numbers. -/
  notes : List (Nat × Note) := []
  /-- The events that were taken from the queue, the oldest first. -/
  delivered : List Event := []

namespace World

/-- The disk as operations see it. -/
def disk (w : World) : Disk :=
  w.storage.disk.failing w.unreadable w.unlistable

/-- Notes something for a listener. -/
def note (w : World) (number : Nat) (n : Note) : World :=
  { w with notes := w.notes ++ [(number, n)] }

/-- The number of reactions that some listeners can have, those of listeners they add included. -/
def reactionsOf (w : World) : List Listener → Nat
  | [] => 0
  | l :: ls =>
    (w.budgets.get? l.number).getD 0 * (1 + Command.reactionsOfOption l.reaction)
      + w.reactionsOf ls

/-- The number of reactions that the registered listeners can have. -/
def reactions (w : World) : Nat :=
  w.reactionsOf w.listeners

end World

/-- How a step ends: with a result, or cut short by a failing listener or command. -/
inductive Outcome (α : Type) where
  | done (result : α)
  | failed

/-- How a command that a listener gives is carried out. -/
abbrev Reactor := Command → World → Outcome Answer × World

/-- A step of a session, given how listeners' commands are carried out. -/
def Session (α : Type) : Type :=
  Reactor → World → Outcome α × World

namespace Session

instance : Monad Session where
  pure a := fun _ w => (.done a, w)
  bind x f := fun reactor w =>
    match x reactor w with
    | (.done a, w) => f a reactor w
    | (.failed, w) => (.failed, w)

/-- Cuts the operation short. -/
def fail {α : Type} : Session α :=
  fun _ w => (.failed, w)

/-- A look at the world. -/
def look {α : Type} (f : World → α) : Session α :=
  fun _ w => (.done (f w), w)

/-- A change of the world. -/
def update (f : World → World) : Session Unit :=
  fun _ w => (.done (), f w)

/-- The command of a listener, carried out and noted. -/
def react (l : Listener) : Session Unit := fun reactor w =>
  match l.reaction with
  | none => (.done (), w)
  | some command =>
    match reactor command w with
    | (.done answer, w) => (.done (), w.note l.number (.reply answer))
    | (.failed, w) => (.failed, w)

/-- Tells a listener of an event. -/
def tell (l : Listener) (e : Event) : Session Unit := do
  update (·.note l.number (.event e))
  let left ← look fun w => (w.budgets.get? l.number).getD 0
  if l.trigger = some e.sort ∧ 0 < left then
    update fun w => { w with budgets := w.budgets.insert l.number (left - 1) }
    if l.fails then fail else react l

/-- Tells several listeners of an event, in order. -/
def tellEach (e : Event) : List Listener → Session Unit
  | [] => return ()
  | l :: ls => do
    tell l e
    tellEach e ls

/-- Takes the oldest event from the queue. -/
def nextEvent : Session (Option Event) := fun _ w =>
  match w.state.events with
  | [] => (.done none, w)
  | e :: es =>
    (.done (some e),
      { w with state := { w.state with events := es }, delivered := w.delivered ++ [e] })

/-- Delivers up to `n` events. -/
def deliver : Nat → Session Unit
  | 0 => return ()
  | n + 1 => do
    match ← nextEvent with
    | none => return ()
    | some e =>
      tellEach e (← look World.listeners)
      deliver n

/-- A section, followed by the delivery of all queued events. A listener's command delivers what is
queued when it is given, so the length of the queue is enough. -/
def runSection {α : Type} (f : State → α × State) : Session α := do
  let a ← (fun _ w => let r := f w.state; (.done r.1, { w with state := r.2 }) : Session α)
  deliver (← look fun w => w.state.events.length)
  return a

instance : Engine Session where
  disk := look World.disk
  provider := look World.provider
  locked := runSection
  closing last operation := fun reactor w =>
    let r := operation reactor w
    match runSection (fun st => ((), last st)) reactor r.2 with
    | (.done _, w) => (r.1, w)
    | (.failed, w) => (.failed, w)

/-- Adds a listener; its number is the number of listeners added before. -/
def listen (trigger : Option EventSort) (times : Nat) (fails : Bool) (reaction : Option Command) :
    Session Nat := do
  let number ← look fun w => w.budgets.size
  update fun w =>
    { w with listeners := w.listeners ++ [{ number, trigger, fails, reaction }]
             budgets := w.budgets.insert number times }
  return number

/-- Removes a listener; says whether it was still registered, if it ever was. -/
def unlisten (number : Nat) : Session Answer := do
  if ← look fun w => w.budgets.contains number then
    let registered ← look fun w => w.listeners.any (·.number == number)
    update fun w => { w with listeners := w.listeners.filter (·.number != number) }
    return .flag registered
  else
    return .lacking .listener

end Session

open Session in
mutual

/-- Carries out a command. -/
def Command.perform : Command → Session Answer
  | .request r => Engine.carryOut r
  | .unknown => return .lacking .command
  | .write path text => fun _ w =>
    let r := w.storage.write path text
    (.done r.1, { w with storage := r.2 })
  | .erase path => fun _ w =>
    let r := w.storage.erase path
    (.done (.flag r.1), { w with storage := r.2 })
  | .diskHas path => look fun w => .flag (w.disk.exists? path)
  | .diskRead path => look fun w => .ofExcept .text (w.disk.textOf path)
  | .diskList path => look fun w => .ofExcept .paths (w.disk.filesBelow path)
  | .deny unreadable unlistable => do
    update fun w => { w with unreadable, unlistable }
    return .nothing
  | .setProvider provider => do
    update fun w => { w with provider }
    return .nothing
  | .listen trigger times fails reaction =>
    return .number (← Session.listen trigger times fails reaction)
  | .unlisten number => Session.unlisten number
  | .bracket commands fails => Engine.bracketed do
    let answers ← Command.performEach commands
    if fails then fail else return .several answers

/-- Carries out commands one after another. -/
def Command.performEach : List Command → Session (List Answer)
  | [] => return []
  | c :: cs => do
    let a ← c.perform
    let more ← Command.performEach cs
    return a :: more

end

/-- Carries out listeners' commands nested at most `n` deep. -/
def Reactor.nested : Nat → Reactor
  | 0 => fun _ w => (.done .nothing, w)
  | n + 1 => fun c w => c.perform (Reactor.nested n) w

namespace World

/-- Runs a step that can bring about up to `extra` reactions besides those of the listeners there are. -/
def run {α : Type} (w : World) (extra : Nat) (step : Session α) : Outcome α × World :=
  step (Reactor.nested (w.reactions + extra)) w

/-- Carries out a command. -/
def perform (w : World) (c : Command) : Outcome Answer × World :=
  w.run c.reactions c.perform

/-- A session at its beginning: the projects are known, nothing is loaded, and one listener without
reactions is registered. -/
def start (storage : Storage) (provider : Provider) : Except WorkspaceError World :=
  let w : World := { storage, provider }
  match w.run 0 (Engine.reconfigure : Session (Except WorkspaceError Unit)) with
  | (.done (.error e), _) => .error e
  | (_, w) => .ok (w.run 0 (Session.listen none 0 false none)).2

/-- One number of the state, looked up in a section of its own. -/
def measure (w : World) (f : State → Nat) : Nat × World :=
  match w.run 0 (Engine.view f : Session Nat) with
  | (.done n, w) => (n, w)
  | (.failed, w) => (f w.state, w)

/-- The serial number of the last change, how often the tables were computed, how often resolution had
to apply its rule, and how many answers it remembers. -/
def gauges (w : World) : List Nat × World :=
  let (serial, w) := w.measure State.changeSerial
  let (rehashes, w) := w.measure State.rehashCount
  let (misses, w) := w.measure fun st => st.memory.lookups.misses
  let (remembered, w) := w.measure fun st => st.memory.lookups.entries.size
  ([serial, rehashes, misses, remembered], w)

end World

end NedWorkspace
