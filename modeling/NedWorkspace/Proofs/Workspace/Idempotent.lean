/-
# Checking twice

SPEC_FULL, section 4.6: `validate_all_files`.

A check of all files that follows another one, with nobody doing anything in between, finds everything as
it is. In a circle of types this is no matter of course: what a type's members are depends on which type of
the circle was asked about first, and the first check may find something remembered when it begins. But
whatever it was told it remembers, and every question of the second check was asked by the first, so it is
answered alike, from memory (`Query.Built.replay_each`). The reports are then those that are shown already,
and showing them again has no effect (`State.publishEach_again`).

The result is `State.validate_twice`: but for the two events that every check begins and ends with, the
state after the second check is the state before it.
-/

import NedWorkspace.Proofs.Workspace.Fresh
import NedWorkspace.Proofs.Workspace.Pass

namespace NedWorkspace

open State Query

/-- Questions that were asked one after another are each answered alike from a memory that holds what all
of them left, and change nothing. -/
theorem Query.Built.replay_each {m : Model} {α β : Type} {q : α → Query β} (h : ∀ a, Built m (q a))
    {as : List α} {memory later : Memory} (hlater : (Query.each q as memory).2.Extends later) :
    List.Forall₂ (fun a b => q a later = (b, later)) as (Query.each q as memory).1 := by
  induction as generalizing memory with
  | nil => exact .nil
  | cons a as ih =>
    have hrest : (Query.each q as (q a memory).2).2.Extends later := hlater
    have hbetween := ((Built.each h as).asks (q a memory).2).extension
    have hfirst : (q a memory).2.Extends later :=
      ⟨fun k b hk => hrest.lookups k b (hbetween.lookups k b hk),
        fun i b hi => hrest.members i b (hbetween.members i b hi)⟩
    exact .cons ((h a).replay hfirst) (ih hrest)

namespace State

variable {st : State}

/-- With up-to-date tables, and no diagnostics of files that are not loaded, planning a check changes
nothing. -/
theorem planValidation_again (hdirty : st.dirty = false)
    (hfiles : ∀ id ∈ st.diagnostics.files, (st.store.get? id).isSome = true) :
    st.planValidation = ((st.store.all.map SourceFile.id, st.duplicates), st) := by
  have hgone : (st.diagnostics.files.filter fun f => (st.store.get? f).isNone) = [] := by
    refine List.filter_eq_nil_iff.mpr fun id hid hnone => ?_
    have hloaded := hfiles id hid
    rw [Option.isNone_iff_eq_none.mp hnone] at hloaded
    exact absurd hloaded (by simp)
  unfold planValidation
  rw [rehash_of_fresh hdirty]
  dsimp only
  rw [hgone]
  rfl

/-- **Reports that are shown already.** If the questions about some files are all answered from memory, and
what would be published for each of them is shown, then checking them changes nothing. -/
theorem publishEach_again (told : List Diagnostic) {fs : List SourceFile} {founds : List (List Diagnostic)}
    (s : Surroundings) (hdirty : st.dirty = false) (hget : ∀ f ∈ fs, st.store.get? f.id = some f)
    (hanswers : List.Forall₂ (fun f found => st.check f st.memory = (found, st.memory)) fs founds)
    (hshows : List.Forall₂ (fun f found =>
      st.diagnostics.Shows (report told f found).1 (report told f found).2) fs founds) :
    ((Engine.publishEach told (fs.map SourceFile.id) : Plain Unit) s st).2 = st := by
  induction hanswers with
  | nil => rfl
  | @cons f found fs founds hanswer _ ih =>
    obtain ⟨hshow, hshows⟩ := List.forall₂_cons.mp hshows
    have hpublish : st.publish f.id (told.filter fun d => decide (d.file = f.id)) = st := by
      rw [publish_replaces hdirty (hget f List.mem_cons_self), hanswer]
      change emitIf { st with diagnostics := (st.diagnostics.replace _ (report told f found).2).2 }
        (st.diagnostics.replace _ (report told f found).2).1 _ = st
      rw [show st.diagnostics.replace f.id (report told f found).2 = (false, st.diagnostics) from
        hshow.replace_eq]
      rfl
    change ((Engine.publishEach told (fs.map SourceFile.id) : Plain Unit) s
      (st.publish f.id (told.filter fun d => decide (d.file = f.id)))).2 = st
    rw [hpublish]
    exact ih (fun g hg => hget g (List.mem_cons_of_mem _ hg)) hshows

/-- **Checking twice is checking once.** Let all files of a reachable state be checked, whatever is
remembered and published at the time and whatever circles the types form, and checked again. The second
check queues the events `began` and `ended` and nothing in between, and the state is otherwise the one that
the first check left: the same diagnostics are published in the same order, with the same serial number,
tables, files and trees. -/
theorem validate_twice (h : st.Reachable) (s s' : Surroundings) :
    let once := ((Engine.validate : Plain Unit) s st).2
    ((Engine.validate : Plain Unit) s' once).2 =
      { once with events := once.events ++ [.began, .ended] } := by
  intro once
  obtain ⟨events, diagnostics, hvalidated, hfiles, hshows⟩ := validate_shows h.kept s
  have honce : once = { st.rehash with
    memory := (each st.rehash.check st.store.all st.rehash.memory).2, diagnostics, events } := hvalidated
  set began := once.emit .began with hbegan
  have hstore : began.store = st.store := by
    rw [hbegan, honce]
    exact store_rehash st
  have hdirty : began.dirty = false := by
    rw [hbegan, honce]
    exact Steps.dirty_rehash st
  have hmemory : began.memory = (each st.rehash.check st.store.all st.rehash.memory).2 := by
    rw [hbegan, honce]
    rfl
  have hshown : began.diagnostics = diagnostics := by rw [hbegan, honce]; rfl
  have hcheck : began.check = st.rehash.check := by rw [hbegan, honce]; rfl
  have htold : began.duplicates = st.rehash.duplicates := by rw [hbegan, honce]; rfl
  have hplan := planValidation_again hdirty (by rw [hshown, hstore]; exact hfiles)
  -- The memory that the first check left answers all that was asked for it.
  have hreplayed : List.Forall₂ (fun f found => began.check f began.memory = (found, began.memory))
      st.store.all (each st.rehash.check st.store.all st.rehash.memory).1 := by
    rw [hcheck]
    exact Built.replay_each st.rehash.check_built
      (hmemory ▸ (Memory.Asked.refl (m := st.rehash.model) _).extension)
  have hagain : ((Engine.publishEach st.rehash.duplicates (st.store.all.map SourceFile.id) :
      Plain Unit) s' began).2 = began := by
    refine publishEach_again st.rehash.duplicates s' hdirty (fun f hf => ?_) hreplayed (hshown ▸ hshows)
    rw [hstore]
    exact h.kept.store.get?_of_mem hf
  calc ((Engine.validate : Plain Unit) s' once).2
      = (((Engine.publishEach began.planValidation.1.2 began.planValidation.1.1 : Plain Unit) s'
          began.planValidation.2).2).emit .ended := rfl
    _ = began.emit .ended := by rw [hplan, hstore, htold, hagain]
    _ = { once with events := once.events ++ [.began, .ended] } := by
      rw [hbegan]
      unfold emit
      rw [List.append_assoc]
      rfl

/-- Two types extend each other, and one of them is like a third that is like it. -/
theorem validate_twice_circular :
    let disk : Disk := ⟨fun _ => true, fun p => .ok (if p.text = "/p/a.ned" then
      "simple A extends B like C \x7b\x7d" else "simple B extends A \x7b\x7d simple C like A \x7b\x7d"),
      fun _ => .ok []⟩
    let s : Surroundings := ⟨disk, .fixed []⟩
    let st := fresh [⟨"p", ⟨"/p"⟩, [⟨""⟩], []⟩] disk [⟨"/p/b.ned"⟩, ⟨"/p/a.ned"⟩]
    let once := ((Engine.validate : Plain Unit) s st).2
    st.Reachable ∧ ((Engine.validate : Plain Unit) s once).2 =
      { once with events := once.events ++ [.began, .ended] } := by
  intro disk s st once
  have hst : st.Reachable := reachable_fresh _ _ _
  exact ⟨hst, validate_twice hst s s⟩

end State

end NedWorkspace
