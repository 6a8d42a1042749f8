/-
# The brackets in the history of a session

SPEC_FULL, section 4.5: brackets are released on every exit path.

The events that a session ever queued for good, in the order in which they were queued, close no bracket
that was not open, whatever fails (`World.Run.records`). They close every bracket too, and so do the events
of each single command, as long as no listener fails: commands may fail, and whole brackets may be cut
short by a failure inside (`World.history_bracketed`). A listener that fails on hearing of `began` leaves
that bracket open (`World.history_left_open`).
-/

import NedWorkspace.Proofs.Workspace.Delivery

namespace NedWorkspace

open Event

namespace World

variable {steady : Prop} {tells : List (Event × Listener)} {u v w w' : World}

/-- From one world to another the history grew by a word that closes no bracket but its own, and in a
steady session it closes all of them. -/
def Records (steady : Prop) (w w' : World) : Prop :=
  ∃ word, w'.history = w.history ++ word ∧ Nested word ∧ (steady → Balanced word)

namespace Records

theorem of_eq (h : w'.history = w.history) : Records steady w w' :=
  ⟨[], by rw [h, List.append_nil], balanced_nil.nested, fun _ => balanced_nil⟩

/-- What is recorded in a row is recorded. -/
theorem trans (huv : Records steady u v) (hvw : Records steady v w) : Records steady u w := by
  obtain ⟨word, hword, hnested, hbalanced⟩ := huv
  obtain ⟨more, hmore, hnested', hbalanced'⟩ := hvw
  exact ⟨word ++ more, by rw [hmore, hword, List.append_assoc], hnested.append hnested',
    fun hs => (hbalanced hs).append (hbalanced' hs)⟩

/-- What a state queues is recorded. -/
theorem made {st : State} (h : w.state.Queues st) : Records steady w { w with state := st } := by
  obtain ⟨word, hword, hbalanced⟩ := h
  refine ⟨word, ?_, hbalanced.nested, fun _ => hbalanced⟩
  rw [history, hword, ← List.append_assoc]
  rfl

/-- A bracket may stay open where listeners panic. -/
theorem opened (w : World) (h : ¬ steady) :
    Records steady w { w with state := w.state.emit .began } :=
  ⟨[.began], (List.append_assoc ..).symm, nested_began, fun hs => absurd hs h⟩

/-- A bracket that is closed is recorded as a whole. -/
theorem enclosed (h : Records steady { w with state := w.state.emit .began } w') :
    Records steady w { w' with state := w'.state.emit .ended } := by
  obtain ⟨word, hword, hnested, hbalanced⟩ := h
  refine ⟨.began :: word ++ [.ended], ?_, hnested.enclosed, fun hs => (hbalanced hs).enclosed⟩
  have hend : { w' with state := w'.state.emit .ended }.history = w'.history ++ [.ended] :=
    (List.append_assoc ..).symm
  have hbegin : { w with state := w.state.emit .began }.history = w.history ++ [.began] :=
    (List.append_assoc ..).symm
  rw [hend, hword, hbegin]
  simp

/-- What is taken from the queue stays in the history. -/
theorem took {e : Event} {es : List Event} (hqueue : w.state.events = e :: es) :
    Records steady w
      { w with state := { w.state with events := es }, delivered := w.delivered ++ [e] } := by
  refine of_eq ?_
  rw [history, history, hqueue]
  exact List.append_assoc ..

end Records

/-- **Whatever fails in a run, no bracket is closed that was not opened in it;** if nothing fails, all that
are opened are closed. -/
theorem Run.records (h : Run steady tells w w') : Records steady w w' := by
  induction h with
  | done | aside | joined | left => exact .of_eq rfl
  | andThen _ _ ihfirst ihnext => exact ihfirst.trans ihnext
  | made h => exact .made h
  | enclosed _ ih => exact ih.enclosed
  | opened w h => exact .opened w h
  | took hqueue _ ih => exact (Records.took hqueue).trans ih
  | heard _ _ ih => exact ih
  | reacted _ _ _ _ _ ihreaction ihrest => exact Records.trans ihreaction ihrest
  | cut _ _ _ ih => exact ih

/-- The history of a session. -/
theorem nested_history {storage : Storage} {provider : Provider}
    (h : World.start storage provider = .ok w) (commands : List Command) :
    Nested (w.after commands).history := by
  have hstart : Run False [] { storage, provider } w ∧ (False → w.state.events = []) := start_ran h
  have hlater : Run False [] w (w.after commands) := (w.after_ran False.elim False.elim).1
  obtain ⟨word, hword, hnested, _⟩ := (hstart.1.andThen hlater).records
  rw [hword]
  exact hnested

/-- The history of a session in which no listener fails. -/
theorem balanced_history {storage : Storage} {provider : Provider}
    (h : World.start storage provider = .ok w) {commands : List Command}
    (hsteady : ∀ c ∈ commands, c.steady false = true) : Balanced (w.after commands).history := by
  have hstart : Run True [] { storage, provider } w ∧ (True → w.state.events = []) := start_ran h
  obtain ⟨word, hword, _, hbalanced⟩ := (hstart.1.andThen
    (w.after_ran (fun _ => hsteady) fun _ => (start_steady h).1).1).records
  rw [hword]
  exact hbalanced trivial

end World

namespace State

/-- The load of a file queues events of its own behind those that are queued; a silent load drops exactly
these, and none of them is half of a pair of brackets. -/
theorem loadSilently_drops (st : State) {path : Path} (h : st.store.at? path = none) (text : String)
    (s : Surroundings) : ∃ own, Balanced own ∧
      (st.applyParse path text (Parse.ofText text)).2.events = st.events ++ own ∧
      ((Engine.loadSilently path text : Plain Bool) s st).2 =
        { (st.applyParse path text (Parse.ofText text)).2 with
          events := (st.events ++ own).take st.events.length } := by
  obtain ⟨own, hown, hbalanced⟩ := Queues.applyParse st path text (Parse.ofText text)
  refine ⟨own, hbalanced, hown, ?_⟩
  rw [Engine.loadSilently, Plain.locked_apply, h, List.take_left]

end State

namespace World

/-- **Brackets are closed as they were opened.** Whatever commands are given in a session, whatever its
listeners do and whatever fails, the events that were queued close no bracket that is not open, and neither
do those of a single command. If no listener that is registered when a command is given, and none that the
command adds, ever fails, then its events open and close the same brackets, even if the command fails or one
inside it does; and if there never was such a listener in the session, all its events do. A silent load drops
no event that was queued before it, and no bracket without the other. -/
theorem history_bracketed {storage : Storage} {provider : Provider} {w : World}
    (h : World.start storage provider = .ok w) (before : List Command) (c : Command) :
    Nested ((w.after before).perform c).2.history ∧
      (∃ word, ((w.after before).perform c).2.history = (w.after before).history ++ word ∧ Nested word ∧
        ((w.after before).Steady → c.steady false = true → Balanced word)) ∧
      ((∀ d ∈ before ++ [c], d.steady false = true) →
        Balanced ((w.after before).perform c).2.history) ∧
      ∀ (st : State) (path : Path) (text : String) (s : Surroundings), st.store.at? path = none →
        ∃ own, Balanced own ∧
          (st.applyParse path text (Parse.ofText text)).2.events = st.events ++ own ∧
          ((Engine.loadSilently path text : Plain Bool) s st).2 =
            { (st.applyParse path text (Parse.ofText text)).2 with
              events := (st.events ++ own).take st.events.length } := by
  have hlast : w.after (before ++ [c]) = ((w.after before).perform c).2 := by
    rw [World.after, List.foldl_append]
    rfl
  refine ⟨hlast ▸ nested_history h _, ?_, fun hsteady => hlast ▸ balanced_history h hsteady,
    fun st path text s hnew => st.loadSilently_drops hnew text s⟩
  have hran : Ran ((w.after before).Steady ∧ c.steady false = true) False [] (w.after before)
    ((w.after before).perform c) := perform_ran _ And.right And.left
  obtain ⟨word, hword, hnested, hbalanced⟩ := hran.run.records
  exact ⟨word, hword, hnested, fun hw hc => hbalanced ⟨hw, hc⟩⟩

/-- A listener answers the first `began` by a bracket of its own, and a bracket inside another is cut
short. -/
theorem history_bracketed_nested : ∃ w w' : World,
    World.start (.map {}) (.fixed [⟨"p", ⟨"/p"⟩, [⟨""⟩], []⟩]) = .ok w ∧
    ((w.after [.listen (some .began) 1 false (some (.bracket [] false))]).perform
      (.bracket [.request .validate, .bracket [] true] false)).2 = w' ∧
    Balanced w'.history ∧ openings w'.history = 5 := by
  obtain ⟨w, hw, hcount⟩ : ∃ w : World,
      World.start (.map {}) (.fixed [⟨"p", ⟨"/p"⟩, [⟨""⟩], []⟩]) = .ok w ∧
      openings ((w.after [.listen (some .began) 1 false (some (.bracket [] false))]).perform
        (.bracket [.request .validate, .bracket [] true] false)).2.history = 5 :=
    ⟨_, rfl, by decide +kernel⟩
  exact ⟨w, _, hw, rfl, (history_bracketed hw _ _).2.2.1 (by decide), hcount⟩

/-- Somebody fails on hearing of `began`, and the bracket stays open. -/
theorem history_left_open : ∃ w : World,
    World.start (.map {}) (.fixed [⟨"p", ⟨"/p"⟩, [⟨""⟩], []⟩]) = .ok w ∧
    ¬ Balanced ((w.after [.listen (some .began) 1 true none]).perform (.bracket [] false)).2.history := by
  refine ⟨_, rfl, fun h => absurd h.closed ?_⟩
  decide +kernel

end World

end NedWorkspace
