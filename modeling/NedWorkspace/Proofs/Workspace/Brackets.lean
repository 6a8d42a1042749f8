/-
# Events between `began` and `ended`

A word of events is `Nested` if no beginning of it has more `ended` than `began`, and `Balanced` if it has
as many of both besides. Balanced words can be put one after another and between a `began` and an `ended`.

Whatever a section does to the state, it adds a balanced word to the queue (`State.Queues`): a merged tree
and a new configuration bring their own brackets with them, all else is told without any. Only the two
ends of an operation in brackets add half of a pair each.
-/

import Mathlib.Tactic.Set
import NedWorkspace.Proofs.Workspace.Sections

namespace NedWorkspace

namespace Event

/-- How many brackets a word opens. -/
def openings (es : List Event) : Nat :=
  es.countP fun e => e.sort = .began

/-- How many brackets a word closes. -/
def closings (es : List Event) : Nat :=
  es.countP fun e => e.sort = .ended

@[simp] theorem openings_append (es fs : List Event) :
    openings (es ++ fs) = openings es + openings fs :=
  List.countP_append

@[simp] theorem closings_append (es fs : List Event) :
    closings (es ++ fs) = closings es + closings fs :=
  List.countP_append

/-- No beginning of the word closes more brackets than it opens. -/
def Nested (es : List Event) : Prop :=
  ∀ n, closings (es.take n) ≤ openings (es.take n)

/-- Every bracket that the word opens it closes, and no other. -/
structure Balanced (es : List Event) : Prop where
  nested : Nested es
  closed : closings es = openings es

variable {es fs : List Event}

/-- Nested events followed by nested events. -/
theorem Nested.append (hes : Nested es) (hfs : Nested fs) : Nested (es ++ fs) := by
  intro n
  have hfront := hes n
  have hback := hfs (n - es.length)
  rw [List.take_append, openings_append, closings_append]
  omega

/-- A word between brackets. -/
theorem Nested.enclosed (h : Nested es) : Nested (.began :: es ++ [.ended]) := by
  intro n
  cases n with
  | zero => exact Nat.le_refl 0
  | succ n =>
    have hinner := h n
    have hlast : closings ([Event.ended].take (n - es.length)) ≤ 1 :=
      Nat.le_trans List.countP_le_length (List.length_take_le' _ _)
    have hword : (Event.began :: es ++ [Event.ended]).take (n + 1) =
        [Event.began] ++ (es.take n ++ [Event.ended].take (n - es.length)) := by
      rw [List.cons_append, List.take_succ_cons, List.take_append]
      rfl
    have hopen : openings [Event.began] = 1 := rfl
    have hclose : closings [Event.began] = 0 := rfl
    rw [hword, openings_append, closings_append, openings_append, closings_append]
    omega

theorem balanced_nil : Balanced [] :=
  ⟨fun n => by simp [openings, closings], rfl⟩

/-- An event that is not a bracket. -/
theorem balanced_singleton {e : Event} (hbegan : e.sort ≠ .began) (hended : e.sort ≠ .ended) :
    Balanced [e] := by
  have hnone : closings [e] = 0 := by simp [closings, hended]
  have hopen : openings [e] = 0 := by simp [openings, hbegan]
  refine ⟨fun n => ?_, hnone.trans hopen.symm⟩
  cases n with
  | zero => exact Nat.le_refl 0
  | succ n =>
    rw [List.take_succ_cons, List.take_nil, hnone]
    exact Nat.zero_le _

theorem nested_began : Nested [.began] := by
  intro n
  cases n with
  | zero => exact Nat.le_refl 0
  | succ n =>
    rw [List.take_succ_cons, List.take_nil]
    decide

namespace Balanced

/-- Balanced events followed by balanced events. -/
theorem append (hes : Balanced es) (hfs : Balanced fs) : Balanced (es ++ fs) :=
  ⟨hes.nested.append hfs.nested, by rw [closings_append, openings_append, hes.closed, hfs.closed]⟩

/-- Brackets around balanced events. -/
theorem enclosed (h : Balanced es) : Balanced (.began :: es ++ [.ended]) := by
  refine ⟨h.nested.enclosed, ?_⟩
  have hword : (.began :: es ++ [.ended] : List Event) = [.began] ++ es ++ [.ended] := rfl
  rw [hword, closings_append, closings_append, openings_append, openings_append, h.closed]
  exact Nat.add_comm 0 (openings es) ▸ (Nat.add_comm (openings es) 1).trans rfl

end Balanced

end Event

namespace State

open Event

/-- A balanced word is added to the queue. -/
def Queues (st st' : State) : Prop :=
  ∃ word : List Event, st'.events = st.events ++ word ∧ Balanced word

namespace Queues

variable {a b c st st' : State}

/-- Nothing is queued. -/
theorem of_eq (h : st'.events = st.events) : Queues st st' :=
  ⟨[], by rw [h, List.append_nil], balanced_nil⟩

/-- What is queued in a row is queued. -/
theorem trans (hab : Queues a b) (hbc : Queues b c) : Queues a c := by
  obtain ⟨word, hword, hbalanced⟩ := hab
  obtain ⟨more, hmore, hbalanced'⟩ := hbc
  exact ⟨word ++ more, by rw [hmore, hword, List.append_assoc], hbalanced.append hbalanced'⟩

/-- An event that is not a bracket is queued. -/
theorem emit (st : State) {e : Event} (hbegan : e.sort ≠ .began) (hended : e.sort ≠ .ended) :
    Queues st (st.emit e) :=
  ⟨[e], rfl, balanced_singleton hbegan hended⟩

/-- An event that is no bracket may be queued on a condition. -/
theorem emitIf (st : State) (reason : Bool) {e : Event} (hbegan : e.sort ≠ .began)
    (hended : e.sort ≠ .ended) : Queues st (st.emitIf reason e) := by
  unfold State.emitIf
  split
  · exact emit st hbegan hended
  · exact of_eq rfl

/-- Something is done between brackets. -/
theorem enclosed (h : Queues (st.emit .began) st') : Queues st (st'.emit .ended) := by
  obtain ⟨word, hword, hbalanced⟩ := h
  refine ⟨.began :: word ++ [.ended], ?_, hbalanced.enclosed⟩
  change st'.events ++ [.ended] = _
  rw [hword]
  simp [State.emit]

theorem rehash (st : State) : Queues st st.rehash := by
  unfold State.rehash
  split <;> exact of_eq rfl

/-- What diagnostics a new tree moves is told without brackets. -/
theorem remap (st : State) (f : SourceFile) : Queues st (st.remap f) :=
  emitIf { st with diagnostics := _ } _ nofun nofun

theorem applyBroken (st : State) (f : SourceFile) (text : String) (errors : List SyntaxError) :
    Queues st (st.applyBroken f text errors) := by
  unfold State.applyBroken
  dsimp only
  split
  · exact of_eq rfl
  · exact ⟨[.modelChanged (some f.id)], rfl, balanced_singleton nofun nofun⟩

/-- A merged tree brings its own brackets. -/
theorem applyClean (st : State) (f : SourceFile) (text : String) (tree : Tree) :
    Queues st (st.applyClean f text tree) := by
  unfold State.applyClean
  dsimp only
  set now := { f with text, errors := [], broken := false, tree := (f.tree.merge tree).tree }
  have hstored : Queues st { st with store := st.store.update now } := of_eq rfl
  refine hstored.trans ?_
  split
  · refine enclosed ?_
    have hindexed : Queues ({ st with store := st.store.update now }.emit .began)
        ((({ st with store := st.store.update now }.emit .began).indexFile now).invalidate) := of_eq rfl
    exact hindexed.trans ((emit _ (e := .treeMerged f.id) nofun nofun).trans
      ((remap _ now).trans (emit _ (e := .modelChanged (some f.id)) nofun nofun)))
  · split
    · refine (remap _ now).trans (trans ?_ (emit _ (e := .modelChanged (some f.id)) nofun nofun))
      exact of_eq rfl
    · exact remap _ now

/-- What a text changes is told without brackets. -/
theorem applyParse (st : State) (path : Path) (text : String) (parse : Parse) :
    Queues st (st.applyParse path text parse).2 := by
  unfold State.applyParse
  split
  · refine trans (trans ?_ (emit _ (e := .fileLoaded _) nofun nofun))
      (emit _ (e := .modelChanged _) nofun nofun)
    exact of_eq rfl
  · dsimp only
    split
    · exact applyClean ..
    · exact applyBroken ..

/-- A file is forgotten without brackets. -/
theorem forget (st : State) (path : Path) : Queues st (st.forget path).2 := by
  unfold State.forget
  split
  · exact of_eq rfl
  · exact ⟨[.fileRemoved _], rfl, balanced_singleton nofun nofun⟩

theorem forgetEach (st : State) (paths : List Path) : Queues st (st.forgetEach paths) := by
  induction paths generalizing st with
  | nil => exact of_eq rfl
  | cons p paths ih => exact (forget st p).trans (ih _)

/-- A new configuration brings its own brackets. -/
theorem reconfigure (st : State) (configs : List ProjectConfig) :
    Queues st (st.reconfigure configs) := by
  let assigned := { st with registry := .ofConfigs configs }.assignOwners
  have hassigned : Queues st assigned := of_eq rfl
  have hforgotten := enclosed (forgetEach (assigned.emit .began)
    (assigned.store.paths.filter fun p => !assigned.registry.isNedFile p))
  refine (hassigned.trans hforgotten).trans (trans ?_ (emit _ (e := .modelChanged none) nofun nofun))
  exact of_eq rfl

theorem planValidation (st : State) : Queues st st.planValidation.2 :=
  (rehash st).trans (of_eq rfl)

theorem publish (st : State) (id : FileId) (found : List Diagnostic) :
    Queues st (st.publish id found) := by
  unfold State.publish
  refine (rehash st).trans ?_
  dsimp only
  split
  · exact of_eq rfl
  · split
    · refine trans ?_ (emitIf _ _ (e := .diagnosticsChanged id) nofun nofun)
      exact of_eq rfl
    · refine trans ?_ (emitIf _ _ (e := .diagnosticsChanged id) nofun nofun)
      exact of_eq rfl

/-- No move of an operation leaves a bracket open. -/
theorem openMoves : OpenMoves Queues where
  refl _ := of_eq rfl
  trans := trans
  edited _ _ := of_eq rfl
  applyParse st path text := applyParse st path text _
  forget := forget
  reconfigure := reconfigure
  rehash := rehash

end Queues

end State

end NedWorkspace
