/-
# Checking all files

To check all files is to ask about them one after another, each with what was remembered from those
before. In a circle of types the order matters: the members of a type depend on which type of the circle
was asked about first. So it is not enough that remembered members were right when they were gathered.

`State.Settled` says what is remembered when questions are asked by such passes alone: nothing that bears
on the index (`Memory.Cold`), or what one pass over the files that take part in the tables makes of that.
A second pass then gets all answers from memory (`Query.Built.replay`), so it gives the diagnostics of a
pass that began with nothing remembered. That is the result, `State.validate_published`.
-/

import NedWorkspace.Proofs.Check.Store
import NedWorkspace.Proofs.Workspace.Coherent

namespace NedWorkspace

open State Query

/-- The same question about several things, in order. -/
def Query.each {α β : Type} (q : α → Query β) : List α → Query (List β)
  | [] => pure []
  | a :: as => do
    let here ← q a
    let more ← each q as
    return here :: more

/-- Queries for each element of a list are built if each of them is. -/
theorem Query.Built.each {m : Model} {α β : Type} {q : α → Query β} (h : ∀ a, Built m (q a))
    (as : List α) : Built m (each q as) := by
  induction as with
  | nil => exact .pure []
  | cons a as ih => exact .bind (h a) fun _ => .bind ih fun _ => .pure _

/-- What holds of each answer, whatever is remembered, holds of all answers. -/
theorem Query.forall₂_each {α β : Type} {q : α → Query β} {P : α → β → Prop}
    (h : ∀ a memory, P a (q a memory).1) (as : List α) (memory : Memory) :
    List.Forall₂ P as (each q as memory).1 := by
  induction as generalizing memory with
  | nil => exact .nil
  | cons a as ih => exact .cons (h a memory) (ih (q a memory).2)

/-- The questions that are asked about the types of a file. -/
def Check.types (m : Model) (file : FileId) : Query (List Finding) :=
  collect (ownType m) (order (m.index.fileTypes file))

/-- What is remembered after the types of the given files were asked about. -/
def Model.visited (m : Model) (files : List (FileId × String)) (memory : Memory) : Memory :=
  files.foldl (fun memory f => (Check.types m f.1 memory).2) memory

namespace State

/-- What is asked about a file when it is checked. -/
def check (st : State) (f : SourceFile) : Query (List Diagnostic) :=
  if f.broken || (st.index.projectOf? f.id).isNone then pure []
  else Check.file st.model f.id f.tree (st.expectedPackage? f.path)

/-- The check of a file is built of lookups and of questions for members. -/
theorem check_built (st : State) (f : SourceFile) : Built st.model (st.check f) := by
  unfold check
  split
  · exact .pure []
  · exact Check.file_built ..

/-- What is found in a file is told of this file. -/
theorem file_of_mem_check (st : State) (f : SourceFile) (memory : Memory) :
    ∀ d ∈ (st.check f memory).1, d.file = f.id := by
  intro d hd
  unfold check at hd
  split at hd
  · exact absurd hd List.not_mem_nil
  · obtain ⟨x, _, rfl⟩ := List.mem_map.mp hd
    exact Diagnostic.file_locate _ _

/-- A pass over files leaves in memory what the types of those leave that take part in the tables. -/
theorem memory_each_check (st : State) (fs : List SourceFile) (memory : Memory) :
    (each st.check fs memory).2 = st.model.visited ((fs.filter fun f => !f.broken).filterMap
      fun f => (st.index.projectOf? f.id).map fun project => (f.id, project)) memory := by
  induction fs generalizing memory with
  | nil => rfl
  | cons f fs ih =>
    change (each st.check fs (st.check f memory).2).2 = _
    rw [ih, check]
    cases hbroken : f.broken with
    | true =>
      rw [List.filter_cons_of_neg (by simp [hbroken])]
      rfl
    | false =>
      rw [List.filter_cons_of_pos (by simp [hbroken])]
      cases hproject : st.index.projectOf? f.id with
      | none =>
        rw [List.filterMap_cons_none (by rw [hproject]; rfl)]
        rfl
      | some project =>
        rw [List.filterMap_cons_some (b := (f.id, project)) (by rw [hproject]; rfl)]
        rfl

variable {st : State}

/-- What is published for a file: what is told of it, then what was found in it. -/
def report (told : List Diagnostic) (f : SourceFile) (found : List Diagnostic) :
    FileId × List Diagnostic :=
  (f.id, ((told.filter fun d => decide (d.file = f.id)) ++ found).map (Diagnostic.locate f.tree))

/-- Checking one file of up-to-date tables, and what it tells listeners. -/
theorem publish_replaces (hdirty : st.dirty = false) {f : SourceFile}
    (hget : st.store.get? f.id = some f) (found : List Diagnostic) :
    let r := st.diagnostics.replace f.id
      ((found ++ (st.check f st.memory).1).map (Diagnostic.locate f.tree))
    st.publish f.id found = { st with
      memory := (st.check f st.memory).2
      diagnostics := r.2 }.emitIf r.1 (.diagnosticsChanged f.id) := by
  unfold publish check
  rw [rehash_of_fresh hdirty]
  dsimp only
  rw [hget]
  dsimp only
  split
  · rfl
  · rfl

/-- Checking one file of up-to-date tables. -/
theorem publish_eq (hdirty : st.dirty = false) {f : SourceFile} (hget : st.store.get? f.id = some f)
    (found : List Diagnostic) : ∃ events, st.publish f.id found =
      { st with
        memory := (st.check f st.memory).2
        diagnostics := (st.diagnostics.replace f.id
          ((found ++ (st.check f st.memory).1).map (Diagnostic.locate f.tree))).2
        events } := by
  rw [publish_replaces hdirty hget]
  unfold emitIf
  split
  · exact ⟨_, rfl⟩
  · exact ⟨_, rfl⟩

/-- Checking several files of up-to-date tables publishes a report for each, and changes nothing else but
memory and events. -/
theorem publishEach_reports (told : List Diagnostic) {fs : List SourceFile} (s : Surroundings)
    (hdirty : st.dirty = false) (hget : ∀ f ∈ fs, st.store.get? f.id = some f) :
    ∃ events, ((Engine.publishEach told (fs.map SourceFile.id) : Plain Unit) s st).2 =
      { st with
        memory := (each st.check fs st.memory).2
        diagnostics := st.diagnostics.publishAll
          (List.zipWith (report told) fs (each st.check fs st.memory).1)
        events } := by
  induction fs generalizing st with
  | nil => exact ⟨st.events, rfl⟩
  | cons f fs ih =>
    obtain ⟨events, hpublish⟩ := publish_eq hdirty (hget f List.mem_cons_self)
      (told.filter fun d => decide (d.file = f.id))
    set next := st.publish f.id (told.filter fun d => decide (d.file = f.id)) with hnext
    have hcheck : next.check = st.check := by rw [hpublish]; rfl
    have hmemory : next.memory = (st.check f st.memory).2 := by rw [hpublish]
    have hclean : next.dirty = false := by rw [hpublish]; exact hdirty
    have hloaded : ∀ g ∈ fs, next.store.get? g.id = some g := by
      rw [hpublish]
      exact fun g hg => hget g (List.mem_cons_of_mem _ hg)
    obtain ⟨events', hrest⟩ := ih hclean hloaded
    rw [hcheck, hmemory] at hrest
    refine ⟨events', ?_⟩
    change ((Engine.publishEach told (fs.map SourceFile.id) : Plain Unit) s next).2 = _
    rw [hrest, hpublish]
    rfl

/-- One answer to a question about each of several things. -/
theorem length_each {α β : Type} (q : α → Query β) (as : List α) (memory : Memory) :
    (each q as memory).1.length = as.length :=
  (forall₂_each (P := fun _ _ => True) (fun _ _ => trivial) as memory).length_eq.symm

/-- There is one report for each file, in order. -/
theorem map_fst_reports (told : List Diagnostic) {fs : List SourceFile} {founds : List (List Diagnostic)}
    (h : founds.length = fs.length) :
    (List.zipWith (report told) fs founds).map Prod.fst = fs.map SourceFile.id := by
  induction fs generalizing founds with
  | nil => rfl
  | cons f fs ih =>
    cases founds with
    | nil => exact absurd h (by simp)
    | cons found founds => exact congrArg _ (ih (Nat.succ.inj h))

/-- A report for a file holds what was found in it and what was told of it before. -/
theorem forall₂_reports {told : List Diagnostic} {P : FileId × List Diagnostic → Prop}
    {fs : List SourceFile} {founds : List (List Diagnostic)} (hlength : founds.length = fs.length)
    (h : ∀ r ∈ List.zipWith (report told) fs founds, P r) :
    List.Forall₂ (fun f found => P (report told f found)) fs founds := by
  induction fs generalizing founds with
  | nil =>
    obtain rfl := List.length_eq_zero_iff.mp hlength
    exact .nil
  | cons f fs ih =>
    cases founds with
    | nil => exact absurd hlength (by simp)
    | cons found founds =>
      exact .cons (h _ List.mem_cons_self) (ih (Nat.succ.inj hlength) fun r hr =>
        h r (List.mem_cons_of_mem _ hr))

/-- **Checking several files of up-to-date tables** leaves a report on each shown, and changes nothing else
but memory and events. -/
theorem publishEach_eq (told : List Diagnostic) {fs : List SourceFile}
    (hnodup : (fs.map SourceFile.id).Nodup) (s : Surroundings) (hdirty : st.dirty = false)
    (hget : ∀ f ∈ fs, st.store.get? f.id = some f) :
    ∃ events diagnostics,
      ((Engine.publishEach told (fs.map SourceFile.id) : Plain Unit) s st).2 =
        { st with memory := (each st.check fs st.memory).2, diagnostics, events } ∧
      (∀ id ∈ diagnostics.files, id ∈ fs.map SourceFile.id ∨ id ∈ st.diagnostics.files) ∧
      List.Forall₂ (fun f found => diagnostics.Shows (report told f found).1 (report told f found).2)
        fs (each st.check fs st.memory).1 := by
  obtain ⟨events, hpublished⟩ := publishEach_reports told s hdirty hget
  have hlength := length_each st.check fs st.memory
  have hfst := map_fst_reports told hlength
  refine ⟨events, _, hpublished, fun id hid => ?_, ?_⟩
  · rw [← hfst]
    exact DiagnosticStore.mem_files_publishAll hid
  · exact forall₂_reports hlength (DiagnosticStore.shows_publishAll st.diagnostics (hfst ▸ hnodup))

/-! ### What passes remember -/

/-- While the tables are up to date, nothing is remembered, or just what one pass over the files that take
part in them leaves. -/
def Settled (st : State) : Prop :=
  st.dirty = false → ∃ cold, Memory.Cold st.index cold ∧
    (st.memory = cold ∨ st.memory = st.model.visited st.participants cold)

theorem settled_init : Settled {} := nofun

variable {s : State}

/-- A state that differs in nothing that a pass depends on. -/
theorem Settled.congr (h : st.Settled) (hindex : s.index = st.index)
    (hregistry : s.registry = st.registry) (hmemory : s.memory = st.memory)
    (hdirty : s.dirty = st.dirty) (hfiles : s.store.all.map (fun f => (f.id, f.broken)) =
      st.store.all.map fun f => (f.id, f.broken)) : s.Settled := by
  intro hclean
  rw [hmemory, model, hindex, hregistry, participants_eq, hfiles, hindex, ← participants_eq]
  exact h (hdirty ▸ hclean)

/-- A rebuild settles what it did before. -/
theorem Settled.rehash (h : st.Settled) (hst : st.Coherent) : st.rehash.Settled := by
  by_cases hdirty : st.dirty = true
  · rw [State.rehash, if_pos hdirty]
    exact fun _ => ⟨st.memory, hst.forgotten hdirty, .inl rfl⟩
  · rw [State.rehash, if_neg hdirty]
    exact h

/-- **A step that asks nothing leaves what is remembered as passes leave it.** -/
theorem Settled.step (hs : Step False st s) (hkept : st.Kept) (hst : st.Coherent) (h : st.Settled) :
    s.Settled := by
  cases hs.effect hkept with
  | untouched hindex hregistry hmemory hdirty hfiles =>
    exact h.congr hindex hregistry hmemory hdirty hfiles
  | stale hdirty => exact fun hclean => absurd hclean (by simp [hdirty])
  | rehashed heq =>
    rw [heq]
    exact h.rehash hst
  | asked hasking => exact hasking.elim

theorem rehash_emit (st : State) (e : Event) : (st.emit e).rehash = st.rehash.emit e := by
  unfold State.rehash
  by_cases hdirty : st.dirty = true
  · rw [if_pos hdirty, if_pos (show (st.emit e).dirty = true from hdirty)]
    rfl
  · rw [if_neg hdirty, if_neg (show ¬(st.emit e).dirty = true from hdirty)]

/-- A pass over all files visits the types of the projects, in order. -/
theorem memory_pass (st : State) (memory : Memory) : (each st.check st.store.all memory).2 =
    st.model.visited st.participants memory :=
  memory_each_check st st.store.all memory

/-- A pass answers as one that began with nothing remembered, and leaves what that leaves. -/
theorem Settled.pass_eq (h : st.Settled) (hdirty : st.dirty = false) :
    ∃ cold, Memory.Cold st.index cold ∧ each st.check st.store.all st.memory =
      ((each st.check st.store.all cold).1, st.model.visited st.participants cold) := by
  obtain ⟨cold, hcold, hmemory | hvisited⟩ := h hdirty
  · refine ⟨cold, hcold, Prod.ext ?_ ?_⟩
    · rw [hmemory]
    · rw [memory_pass, hmemory]
  · -- All that the pass asks was asked by the pass before.
    have hbuilt : Built st.model (each st.check st.store.all) := .each st.check_built st.store.all
    have hmemory := memory_pass st cold
    rw [← hvisited] at hmemory
    refine ⟨cold, hcold, ?_⟩
    rw [← hvisited]
    exact hbuilt.replay (hmemory ▸ (Memory.Asked.refl (m := st.model) _).extension)

/-- The state in which the files are checked one after another: nothing is published for files that are
not loaded. -/
theorem planValidation_eq (st : State) : ∃ diagnostics,
    (∀ id ∈ diagnostics.files, (st.store.get? id).isSome = true) ∧
      (st.emit .began).planValidation = ((st.store.all.map SourceFile.id, st.rehash.duplicates),
        { st.rehash.emit .began with diagnostics }) := by
  unfold planValidation
  dsimp only
  rw [rehash_emit, show (st.rehash.emit .began).store = st.store from store_rehash st]
  refine ⟨_, fun id hid => ?_, rfl⟩
  obtain ⟨hmem, hkept⟩ := DiagnosticStore.mem_files_foldl_remove hid
  by_contra hgone
  exact hkept (List.mem_filter.mpr ⟨hmem, by simpa using hgone⟩)

/-- No two files have the same number. -/
theorem Kept.nodup_ids (hkept : st.Kept) : (st.store.all.map SourceFile.id).Nodup := by
  have hid : (SourceFile.id : SourceFile → FileId) = FileId.source ∘ SourceFile.number := rfl
  rw [hid, ← List.map_map]
  exact hkept.store.nodup.map fun _ _ => FileId.source.inj

/-- **What a check of all files leaves.** For each loaded file it shows what was told of ambiguous
names there and what is found in the file; for other files nothing is published. -/
theorem validate_shows (hkept : st.Kept) (surroundings : Surroundings) :
    ∃ events diagnostics, ((Engine.validate : Plain Unit) surroundings st).2 =
        { st.rehash with
          memory := (each st.rehash.check st.store.all st.rehash.memory).2
          diagnostics, events } ∧
      (∀ id ∈ diagnostics.files, (st.store.get? id).isSome = true) ∧
      List.Forall₂ (fun f found => diagnostics.Shows (report st.rehash.duplicates f found).1
          (report st.rehash.duplicates f found).2)
        st.store.all (each st.rehash.check st.store.all st.rehash.memory).1 := by
  obtain ⟨dropped, hdropped, hplan⟩ := planValidation_eq st
  set planned : State := { st.rehash.emit .began with diagnostics := dropped } with hplanned
  have hcheck : planned.check = st.rehash.check := rfl
  have hmemory : planned.memory = st.rehash.memory := rfl
  have hclean : planned.dirty = false := Steps.dirty_rehash st
  have hloaded : ∀ f ∈ st.store.all, planned.store.get? f.id = some f := by
    intro f hf
    change st.rehash.store.get? f.id = some f
    rw [store_rehash]
    exact hkept.store.get?_of_mem hf
  obtain ⟨events, diagnostics, hpublished, hfiles, hfound⟩ :=
    publishEach_eq st.rehash.duplicates hkept.nodup_ids surroundings hclean hloaded
  rw [hcheck, hmemory] at hpublished hfound
  refine ⟨events ++ [.ended], diagnostics, ?_, fun id hid => ?_, hfound⟩
  · change (((Engine.publishEach (st.emit .began).planValidation.1.2
      (st.emit .began).planValidation.1.1 : Plain Unit) surroundings
        (st.emit .began).planValidation.2).2).emit .ended = _
    rw [hplan, hpublished]
    rfl
  · rcases hfiles id hid with hmem | hmem
    · obtain ⟨f, hf, rfl⟩ := List.mem_map.mp hmem
      rw [hkept.store.get?_of_mem hf]
      rfl
    · exact hdropped id hmem

/-- What is published after a check of all files. -/
theorem validate_eq (hkept : st.Kept) (surroundings : Surroundings) :
    ∃ events diagnostics, ((Engine.validate : Plain Unit) surroundings st).2 =
        { st.rehash with
          memory := (each st.rehash.check st.store.all st.rehash.memory).2
          diagnostics, events } ∧
      (∀ id, st.store.get? id = none → diagnostics.get id = []) ∧
      List.Forall₂ (fun f found => diagnostics.get f.id =
          ((st.rehash.duplicates.filter fun d => decide (d.file = f.id)) ++ found).map
            (Diagnostic.locate f.tree))
        st.store.all (each st.rehash.check st.store.all st.rehash.memory).1 := by
  obtain ⟨events, diagnostics, hvalidated, hfiles, hshows⟩ := validate_shows hkept surroundings
  refine ⟨events, diagnostics, hvalidated, fun id hid => ?_, hshows.imp fun _ _ => (·.get)⟩
  by_contra hne
  have hloaded := hfiles id (DiagnosticStore.mem_files_of_get hne)
  rw [hid] at hloaded
  exact absurd hloaded (by simp)

/-- **A pass publishes what a pass that began with nothing remembered would publish**, and leaves what
such a pass leaves. -/
theorem validate_published (hkept : st.Kept) (hst : st.Coherent) (h : st.Settled)
    (surroundings : Surroundings) :
    ∃ cold events diagnostics, Memory.Cold st.index cold ∧
      ((Engine.validate : Plain Unit) surroundings st).2 =
        { st.rehash with
          memory := st.rehash.model.visited st.rehash.participants cold
          diagnostics, events } ∧
      List.Forall₂ (fun f found => diagnostics.get f.id =
          ((st.rehash.duplicates.filter fun d => decide (d.file = f.id)) ++ found).map
            (Diagnostic.locate f.tree))
        st.store.all (each st.rehash.check st.store.all cold).1 := by
  obtain ⟨cold, hcold, hpass⟩ := (h.rehash hst).pass_eq (Steps.dirty_rehash st)
  obtain ⟨events, diagnostics, hvalidated, _, hfound⟩ := validate_eq hkept surroundings
  rw [store_rehash] at hpass
  rw [hpass] at hvalidated hfound
  exact ⟨cold, events, diagnostics, index_rehash st ▸ hcold, hvalidated, hfound⟩

end State

end NedWorkspace
