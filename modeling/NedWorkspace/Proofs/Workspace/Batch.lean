/-
# Failures inside a batch

SPEC_FULL, section 7: no failure in one file aborts others.

What fails in a batch of changes does not stop it. `DiskChange.turns` tells of each change what stands in
its way when its turn comes: a file that cannot be read, if it is a NED file that no editor has. Such a
change leaves the state as it was, so all later changes meet the same states as if it had not been there
(`State.applyEach_unhindered`). It has nothing to do with projects, because a NED file is not the
description of source folders, so the projects are asked for anew with it or without it.

The main result is `State.applyChanges_isolated`.
-/

import NedWorkspace.Proofs.Workspace.Refused
import NedWorkspace.Proofs.Workspace.Resync

namespace NedWorkspace

open State Engine

/-- A list of folders is no source. -/
theorem Registry.fileName?_ne_of_isNedFile {r : Registry} {path : Path} (h : r.isNedFile path = true) :
    path.fileName? ≠ some nedfoldersName := by
  intro hname
  have hnone : path.extension? = none := by
    rw [Path.extension?, hname]
    decide +kernel
  rw [Registry.isNedFile, hnone] at h
  exact absurd h (by simp)

namespace DiskChange

/-- What stands in the way of taking over a change. -/
def obstacle? (d : Disk) (st : State) : DiskChange → Option WorkspaceError
  | added path | changed path =>
    if st.registry.isNedFile path && !st.hasEditor path then WorkspaceError.ofResult? (d.textOf path)
    else none
  | removed _ | projects => none

/-- The changes of a batch, each with what stands in its way when its turn comes. -/
def turns (s : Surroundings) : State → List DiskChange → List (DiskChange × Option WorkspaceError)
  | _, [] => []
  | st, c :: cs => (c, c.obstacle? s.disk st) ::
      turns s ((applyChange c : Plain (List WorkspaceError)) s st).2 cs

/-- The changes of a batch that nothing stands in the way of. -/
def unhindered (s : Surroundings) (st : State) (cs : List DiskChange) : List DiskChange :=
  ((turns s st cs).filter fun t => t.2.isNone).map Prod.fst

/-- What stands in the way of the changes of a batch. -/
def failures (s : Surroundings) (st : State) (cs : List DiskChange) : List WorkspaceError :=
  (turns s st cs).filterMap Prod.snd

variable {s : Surroundings} {st : State} {c : DiskChange} {e : WorkspaceError}

/-- Each change has its turn, in order. -/
theorem map_fst_turns (s : Surroundings) (st : State) (cs : List DiskChange) :
    (turns s st cs).map Prod.fst = cs := by
  induction cs generalizing st with
  | nil => rfl
  | cons c cs ih => rw [turns, List.map_cons, ih]

/-- Only a NED file without editor that cannot be read stands in the way of a change. -/
theorem exists_of_obstacle?_eq_some {d : Disk} (h : c.obstacle? d st = some e) : ∃ path,
    (c = added path ∨ c = changed path) ∧ st.registry.isNedFile path = true ∧
      st.hasEditor path = false ∧ d.textOf path = .error e := by
  have hread : ∀ path, (if st.registry.isNedFile path && !st.hasEditor path then
      WorkspaceError.ofResult? (d.textOf path) else none) = some e →
        st.registry.isNedFile path = true ∧ st.hasEditor path = false ∧ d.textOf path = .error e := by
    intro path h
    split at h
    · rename_i hwanted
      obtain ⟨hned, hidle⟩ : st.registry.isNedFile path = true ∧ st.hasEditor path = false := by
        simpa using hwanted
      exact ⟨hned, hidle, WorkspaceError.ofResult?_eq_some_iff.mp h⟩
    · exact absurd h (by simp)
  cases c with
  | added path => exact ⟨path, .inl rfl, hread path h⟩
  | changed path => exact ⟨path, .inr rfl, hread path h⟩
  | removed path => exact absurd h (by simp [obstacle?])
  | projects => exact absurd h (by simp [obstacle?])

/-- What stands in the way of a change of a batch is that a file cannot be read. -/
theorem exists_of_mem_turns {cs : List DiskChange} {t : DiskChange × Option WorkspaceError}
    (ht : t ∈ turns s st cs) (he : t.2 = some e) : ∃ path cause,
      (t.1 = added path ∨ t.1 = changed path) ∧ s.disk.read path = .error cause ∧
        e = .unreadable path cause := by
  induction cs generalizing st with
  | nil => exact absurd ht List.not_mem_nil
  | cons c cs ih =>
    rcases List.mem_cons.mp ht with rfl | ht
    · obtain ⟨path, hc, _, _, htext⟩ := exists_of_obstacle?_eq_some he
      obtain ⟨cause, hcause⟩ := Disk.textOf_eq_error_iff.mp htext
      exact ⟨path, cause, hc, hcause⟩
    · exact ih ht

/-- A change that fails has nothing to do with projects. -/
theorem touchesProjects_of_obstacle {d : Disk} (h : c.obstacle? d st = some e) :
    c.touchesProjects = false := by
  obtain ⟨path, hc, hned, _⟩ := exists_of_obstacle?_eq_some h
  have hname := Registry.fileName?_ne_of_isNedFile hned
  rcases hc with rfl | rfl
  · simpa [touchesProjects] using hname
  · simpa [touchesProjects] using hname

end DiskChange

namespace State

variable {s : Surroundings} {st : State} {c : DiskChange} {e : WorkspaceError}

/-! ### One change after another -/

/-- A change that something stands in the way of fails and leaves the state as it was. -/
theorem applyChange_of_obstacle (h : c.obstacle? s.disk st = some e) :
    (applyChange c : Plain (List WorkspaceError)) s st = ([e], st) := by
  obtain ⟨path, hc, hned, hidle, htext⟩ := DiskChange.exists_of_obstacle?_eq_some h
  rw [applyChange_read s st hc, hned, hidle, htext]
  rfl

/-- A change that nothing stands in the way of does not fail. -/
theorem applyChange_fst_of_free (h : c.obstacle? s.disk st = none) :
    ((applyChange c : Plain (List WorkspaceError)) s st).1 = [] := by
  have hread : ∀ path, c = .added path ∨ c = .changed path →
      (if st.registry.isNedFile path && !st.hasEditor path then
        WorkspaceError.ofResult? (s.disk.textOf path) else none) = none →
      ((applyChange c : Plain (List WorkspaceError)) s st).1 = [] := by
    intro path hc hfree
    rw [applyChange_read s st hc]
    split
    · rename_i hwanted
      rw [if_pos hwanted] at hfree
      obtain ⟨text, htext⟩ := WorkspaceError.ofResult?_eq_none_iff.mp hfree
      rw [htext]
    · rfl
  cases c with
  | added path => exact hread path (.inl rfl) h
  | changed path => exact hread path (.inr rfl) h
  | removed path => rfl
  | projects => rfl

/-- Changes are applied one after the other, each to what those before it left. -/
theorem applyEach_cons (c : DiskChange) (cs : List DiskChange) (s : Surroundings) (st : State) :
    (applyEach (c :: cs) : Plain (List WorkspaceError)) s st =
      let here := (applyChange c : Plain (List WorkspaceError)) s st
      let more := (applyEach cs : Plain (List WorkspaceError)) s here.2
      (here.1 ++ more.1, more.2) := rfl

/-- What fails in a batch is what stands in the way of its changes, in order. -/
theorem applyEach_fst (s : Surroundings) (st : State) (cs : List DiskChange) :
    ((applyEach cs : Plain (List WorkspaceError)) s st).1 = DiskChange.failures s st cs := by
  induction cs generalizing st with
  | nil => rfl
  | cons c cs ih =>
    rw [applyEach_cons]
    dsimp only
    rw [ih, DiskChange.failures, DiskChange.failures, DiskChange.turns]
    cases hobstacle : c.obstacle? s.disk st with
    | some e =>
      rw [applyChange_of_obstacle hobstacle]
      rfl
    | none =>
      rw [applyChange_fst_of_free hobstacle]
      rfl

/-- **Without the changes that fail a batch leads to the same state,** and none of the others fails. -/
theorem applyEach_unhindered (s : Surroundings) (st : State) (cs : List DiskChange) :
    (applyEach (DiskChange.unhindered s st cs) : Plain (List WorkspaceError)) s st =
      ([], ((applyEach cs : Plain (List WorkspaceError)) s st).2) := by
  induction cs generalizing st with
  | nil => rfl
  | cons c cs ih =>
    rw [DiskChange.unhindered, DiskChange.turns, applyEach_cons]
    cases hobstacle : c.obstacle? s.disk st with
    | some e =>
      rw [applyChange_of_obstacle hobstacle]
      exact ih st
    | none =>
      have hrest := ih ((applyChange c : Plain (List WorkspaceError)) s st).2
      rw [DiskChange.unhindered] at hrest
      rw [List.filter_cons_of_pos rfl, List.map_cons, applyEach_cons]
      dsimp only
      rw [hrest, applyChange_fst_of_free hobstacle]
      rfl

/-- Changes in the way of others do not hide that projects are touched. -/
theorem any_touchesProjects_unhindered (s : Surroundings) (st : State) (cs : List DiskChange) :
    (DiskChange.unhindered s st cs).any DiskChange.touchesProjects =
      cs.any DiskChange.touchesProjects := by
  induction cs generalizing st with
  | nil => rfl
  | cons c cs ih =>
    rw [DiskChange.unhindered, DiskChange.turns, List.any_cons]
    cases hobstacle : c.obstacle? s.disk st with
    | some e =>
      rw [DiskChange.touchesProjects_of_obstacle hobstacle, Bool.false_or,
        applyChange_of_obstacle hobstacle]
      exact ih st
    | none =>
      rw [List.filter_cons_of_pos rfl, List.map_cons, List.any_cons]
      exact congrArg (c.touchesProjects || ·) (ih _)

/-! ### The projects and their files -/

/-- What fails when all missing files are loaded: the folders that cannot be listed, then the files that
cannot be read. -/
def loadFailures (st : State) (d : Disk) : List WorkspaceError :=
  ((st.registry.projects.values.flatMap Project.folders).filterMap fun folder =>
      WorkspaceError.ofResult? (d.filesBelow folder)) ++
    (st.unloaded d).filterMap fun p => WorkspaceError.ofResult? (d.textOf p)

/-- Reading a list of files, the errors are those of the files that cannot be read. -/
theorem loadEach_fst (d : Disk) (paths : List Path) (s : Surroundings) (st : State) :
    ((loadEach (paths.map fun p => (p, d.textOf p)) : Plain (Nat × List WorkspaceError)) s st).1.2 =
      paths.filterMap fun p => WorkspaceError.ofResult? (d.textOf p) := by
  induction paths generalizing st with
  | nil => rfl
  | cons p paths ih =>
    rw [List.map_cons]
    cases htext : d.textOf p with
    | error e =>
      rw [List.filterMap_cons, htext, ← ih st]
      rfl
    | ok text =>
      rw [List.filterMap_cons, htext, WorkspaceError.ofResult?,
        ← ih ((loadSilently p text : Plain Bool) s st).2]
      rfl

/-- What fails when missing files are loaded is told together. -/
theorem ofResult?_loadMissing (s : Surroundings) (st : State) :
    WorkspaceError.ofResult? ((loadMissing : Plain (Except WorkspaceError Nat)) s st).1 =
      WorkspaceError.ofResult? (WorkspaceError.ofList (st.loadFailures s.disk)) := by
  have hcount : ∀ n errors, WorkspaceError.ofResult? (countUnlessFailed n errors) =
      WorkspaceError.ofResult? (WorkspaceError.ofList errors) := by
    intro n errors
    unfold countUnlessFailed
    cases WorkspaceError.ofList errors <;> rfl
  have hunlisted : (collectFiles s.disk (st.registry.projects.values.flatMap Project.folders)).2 =
      (st.registry.projects.values.flatMap Project.folders).filterMap fun folder =>
        WorkspaceError.ofResult? (s.disk.filesBelow folder) := by
    unfold collectFiles
    dsimp only
    rw [List.filterMap_map]
    refine List.filterMap_congr fun folder _ => ?_
    rw [Function.comp_apply]
    cases s.disk.filesBelow folder <;> rfl
  rw [loadMissing_apply, loadFailures, ← hunlisted]
  dsimp only
  split
  · rename_i hempty
    rw [List.isEmpty_iff.mp hempty, hcount, List.filterMap_nil, List.append_nil]
  · rw [hcount, loadEach_fst]

/-- What fails when the projects are asked for anew and what their source folders hold is loaded. -/
def followUp? (s : Surroundings) (st : State) : Option WorkspaceError :=
  match s.provider.projects s.disk with
  | .error e => some e
  | .ok configs =>
    WorkspaceError.ofResult? (WorkspaceError.ofList ((st.reconfigure configs).loadFailures s.disk))

/-- What follows a change of projects has one error at most. -/
theorem reconfigureAndLoad_fst (s : Surroundings) (st : State) :
    ((reconfigureAndLoad : Plain (List WorkspaceError)) s st).1 = (st.followUp? s).toList := by
  rw [reconfigureAndLoad_apply, followUp?]
  cases s.provider.projects s.disk with
  | error e => rfl
  | ok configs =>
    dsimp only
    rw [ofResult?_loadMissing]

/-! ### The whole batch -/

/-- What fails after the changes of a batch were taken over, if they have to do with projects. -/
def aftermath (s : Surroundings) (st : State) (changes : List DiskChange) : List WorkspaceError :=
  if changes.any DiskChange.touchesProjects then
    (((applyEach changes : Plain (List WorkspaceError)) s st).2.followUp? s).toList
  else []

/-- What happens after the changes of a batch were taken over. -/
def settle (touched : Bool) (s : Surroundings) (st : State) : List WorkspaceError × State :=
  if touched then (reconfigureAndLoad : Plain (List WorkspaceError)) s st else ([], st)

/-- What remains to be done after a batch is done once, if a project was touched. -/
theorem settle_fst (s : Surroundings) (st : State) (changes : List DiskChange) :
    (settle (changes.any DiskChange.touchesProjects) s
      ((applyEach changes : Plain (List WorkspaceError)) s st).2).1 = aftermath s st changes := by
  unfold settle aftermath
  split
  · exact reconfigureAndLoad_fst ..
  · rfl

/-- **What fails in a batch does not disturb the rest.** Take any state, any disk, any source of projects
and any batch of at least one change. The changes have their turns in order. If something stands in the
way of one when its turn comes, it says that a file was added or changed, and that file cannot be read.
The answer of the batch tells one failure for each such change, in order, and after these what failed when
the projects were asked for anew or the missing files were loaded, if that was done and failed: it is no
failure if there is none, the failure itself if there is one, and otherwise the list of them. Without the
changes that failed the batch leads to the same state, and its answer tells only what failed in the end.
If all changes failed, nothing fails in the end, and the state is the one before with its tables up to
date. -/
theorem applyChanges_isolated (s : Surroundings) (st : State) {changes : List DiskChange}
    (hne : changes ≠ []) :
    let turns := DiskChange.turns s (st.emit .began) changes
    let kept := (turns.filter fun t => t.2.isNone).map Prod.fst
    let unread := turns.filterMap Prod.snd
    let later := aftermath s (st.emit .began) changes
    let out := (applyChanges changes : Plain (Except WorkspaceError Unit)) s st
    turns.map Prod.fst = changes ∧
      (∀ t ∈ turns, ∀ e, t.2 = some e → ∃ path cause, (t.1 = .added path ∨ t.1 = .changed path) ∧
        s.disk.read path = .error cause ∧ e = .unreadable path cause) ∧
      out.1 = WorkspaceError.ofList (unread ++ later) ∧
      (kept ≠ [] → (applyChanges kept : Plain (Except WorkspaceError Unit)) s st =
        (WorkspaceError.ofList later, out.2)) ∧
      (kept = [] → later = [] ∧ out.2 = (st.emit .began).rehash.emit .ended) := by
  intro turns kept unread later out
  have hout : out = (WorkspaceError.ofList (unread ++ later),
      (settle (changes.any DiskChange.touchesProjects) s ((applyEach changes :
        Plain (List WorkspaceError)) s (st.emit .began)).2).2.rehash.emit .ended) := by
    have heq := applyChanges_eq hne s st
    dsimp only at heq
    rw [applyEach_fst] at heq
    exact heq.trans (congrArg (fun errors => (WorkspaceError.ofList (unread ++ errors), _))
      (settle_fst s _ changes))
  have htouches : kept.any DiskChange.touchesProjects = changes.any DiskChange.touchesProjects :=
    any_touchesProjects_unhindered s (st.emit .began) changes
  have hread : (applyEach kept : Plain (List WorkspaceError)) s (st.emit .began) = _ :=
    applyEach_unhindered s (st.emit .began) changes
  refine ⟨DiskChange.map_fst_turns _ _ _, fun t ht e he => DiskChange.exists_of_mem_turns ht he,
    congrArg Prod.fst hout, fun hsome => ?_, fun hnone => ?_⟩
  · have heq := applyChanges_eq hsome s st
    dsimp only at heq
    rw [hread, htouches] at heq
    rw [heq, hout]
    exact congrArg (fun errors => (WorkspaceError.ofList errors, _)) (settle_fst s _ changes)
  · have huntouched : changes.any DiskChange.touchesProjects = false := by
      rw [← htouches, hnone]
      rfl
    have hsame : ((applyEach changes : Plain (List WorkspaceError)) s (st.emit .began)).2 =
        st.emit .began := by
      rw [hnone] at hread
      exact (congrArg Prod.snd hread).symm
    refine ⟨?_, ?_⟩
    · change aftermath s (st.emit .began) changes = []
      rw [aftermath, huntouched, if_neg Bool.false_ne_true]
    · rw [hout, huntouched, hsame]
      rfl

/-- Two files are said to be added, and only one of them is on the disk. -/
theorem applyChanges_isolated_missing :
    let files : FileMap := SortedMap.insert {} ⟨"/p/a.ned"⟩ "simple A {}"
    let s : Surroundings := ⟨files.disk, .fixed []⟩
    let st := ({} : State).reconfigure [⟨"p", ⟨"/p"⟩, [⟨""⟩], []⟩]
    let out := (applyChanges [.added ⟨"/p/b.ned"⟩, .added ⟨"/p/a.ned"⟩] :
      Plain (Except WorkspaceError Unit)) s st
    out.1 = .error (.unreadable ⟨"/p/b.ned"⟩ "no such file: /p/b.ned") ∧
      (applyChanges [.added ⟨"/p/a.ned"⟩] : Plain (Except WorkspaceError Unit)) s st =
        (.ok (), out.2) := by
  intro files s st out
  have hturns : DiskChange.turns s (st.emit .began) [.added ⟨"/p/b.ned"⟩, .added ⟨"/p/a.ned"⟩] =
      [(.added ⟨"/p/b.ned"⟩, some (.unreadable ⟨"/p/b.ned"⟩ "no such file: /p/b.ned")),
        (.added ⟨"/p/a.ned"⟩, none)] := by
    rfl
  have hlater : aftermath s (st.emit .began) [.added ⟨"/p/b.ned"⟩, .added ⟨"/p/a.ned"⟩] = [] := by
    rfl
  have hne : [DiskChange.added ⟨"/p/b.ned"⟩, .added ⟨"/p/a.ned"⟩] ≠ [] := by simp
  obtain ⟨_, _, hanswer, hkept, _⟩ := applyChanges_isolated s st hne
  rw [hturns, hlater] at hanswer hkept
  exact ⟨hanswer, hkept (by simp)⟩

end State

end NedWorkspace
