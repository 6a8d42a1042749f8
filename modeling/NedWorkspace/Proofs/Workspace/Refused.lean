/-
# Requests that are refused

SPEC_FULL, section 7: ambient error handling.

Opening and closing a file, giving it a text, loading it and asking for the projects can fail. What
stands in the way is looked for before anything is changed (`Request.obstacle?`), so a request that meets
its obstacle leaves the state as it was, down to the queue of events.

| request | obstacle |
| --- | --- |
| `connect` | the file is not loaded, and it is no NED file or cannot be read |
| `disconnect` | the file has no editor |
| `setText` | the file is not loaded |
| `load` | the file has an editor, or it cannot be read |
| `reconfigure` | there is no list of projects |

Conversely a request that fails met its obstacle, but for one case (`State.failed_unchanged`). When the
last editor of a file leaves, the file is loaded from the disk again, and no file is loaded while an editor
has it. So the editor is gone by the time when the disk turns out to be unable to read a file that it
says it has: the request fails, and the file has no editor any more.
-/

import NedWorkspace.Proofs.Workspace.Editors

namespace NedWorkspace

open State Engine

/-- An operation that fails has no other answer than its failure. -/
theorem Answer.eq_error_of_ofExcept {α : Type} (make : α → Answer) (hmake : ∀ a e, make a ≠ failed e)
    {result : Except WorkspaceError α} {e : WorkspaceError} (h : ofExcept make result = failed e) :
    result = .error e := by
  cases result with
  | ok a => exact absurd h (hmake a e)
  | error e' => exact congrArg Except.error (failed.inj h)

namespace Request

/-- The requests that look for what stands in their way before they change anything. -/
def guarded : Request → Bool
  | .connect _ | .disconnect _ | .setText .. | .load _ | .reconfigure => true
  | _ => false

/-- What stands in the way of a request. -/
def obstacle? (s : Surroundings) (st : State) : Request → Option WorkspaceError
  | .connect path =>
    if (st.store.at? path).isSome then none
    else if st.registry.isNedFile path then WorkspaceError.ofResult? (s.disk.textOf path)
    else some (.notNedFile path)
  | .disconnect path => if st.hasEditor path then none else some (.notConnected path)
  | .setText path _ => if (st.store.at? path).isSome then none else some (.notLoaded path)
  | .load path => st.loadObstacle? s.disk path
  | .reconfigure => WorkspaceError.ofResult? (s.provider.projects s.disk)
  | _ => none

end Request

namespace State

variable {s : Surroundings} {st : State} {path : Path} {e : WorkspaceError}

/-! ### The obstacle is met -/

/-- No editor comes to a file that is refused. -/
theorem connect_refused (h : (Request.connect path).obstacle? s st = some e) :
    (Engine.connect path : Plain (Except WorkspaceError FileId)) s st = (.error e, st) := by
  rw [Request.obstacle?] at h
  split at h
  · exact absurd h (by simp)
  · rename_i hnot
    rw [connect_unloaded (by simpa using hnot)]
    split at h
    · rename_i hned
      rw [if_pos hned, WorkspaceError.ofResult?_eq_some_iff.mp h]
    · rename_i hned
      rw [if_neg hned, Option.some.inj h]

/-- **A request that meets its obstacle fails and changes nothing.** -/
theorem carryOut_of_obstacle {r : Request} (h : r.obstacle? s st = some e) :
    (carryOut r : Plain Answer) s st = (.failed e, st) := by
  cases r with
  | connect path =>
    rw [carryOut, Plain.bind_apply, connect_refused h]
    rfl
  | disconnect path =>
    rw [Request.obstacle?] at h
    split at h
    · exact absurd h (by simp)
    · rename_i hidle
      rw [carryOut, Plain.bind_apply, Engine.disconnect, Plain.bind_apply,
        dropEditor_refused (by simpa using hidle), ← Option.some.inj h]
      rfl
  | setText path text =>
    rw [Request.obstacle?] at h
    split at h
    · exact absurd h (by simp)
    · rename_i hnot
      have hat : st.store.at? path = none := by simpa using hnot
      rw [carryOut, Plain.bind_apply, Engine.setText, Plain.locked_apply, hat, ← Option.some.inj h]
      rfl
  | load path =>
    rw [carryOut, Plain.bind_apply, Engine.load, Plain.bind_apply, loadFromDisk_refused h]
    rfl
  | reconfigure =>
    rw [Request.obstacle?, WorkspaceError.ofResult?_eq_some_iff] at h
    rw [carryOut, Plain.bind_apply, Engine.reconfigure, Plain.bind_apply, Plain.provider_apply,
      Plain.bind_apply, Plain.disk_apply, h]
    rfl
  | _ => exact absurd h (by simp [Request.obstacle?])

/-! ### There is no obstacle -/

/-- An editor comes to a file unless something stands in the way. -/
theorem connect_admitted (h : (Request.connect path).obstacle? s st = none) :
    ∃ id, ((Engine.connect path : Plain (Except WorkspaceError FileId)) s st).1 = .ok id := by
  cases hat : st.store.at? path with
  | some f => exact ⟨f.id, by rw [connect_loaded hat]⟩
  | none =>
    rw [Request.obstacle?, hat, if_neg (by simp)] at h
    rw [connect_unloaded hat]
    split at h
    · rename_i hned
      obtain ⟨text, htext⟩ := WorkspaceError.ofResult?_eq_none_iff.mp h
      rw [if_pos hned, htext]
      exact ⟨_, rfl⟩
    · exact absurd h (by simp)

/-- The last editor of a file has left, and the disk cannot read the file although it has it. -/
structure Abandoned (s : Surroundings) (st : State) (path : Path) (e : WorkspaceError) (st' : State) :
    Prop where
  exists? : s.disk.exists? path = true
  unreadable : s.disk.textOf path = .error e
  left : ∃ f, st.store.at? path = some f ∧ f.editors = 1 ∧
    st' = { st with store := st.store.update { f with editors := 0 } }

/-- A file that has an editor can be left, but the disk may turn out to be unable to read it. -/
theorem disconnect_failed (hopen : st.hasEditor path = true)
    (h : ((Engine.disconnect path : Plain (Except WorkspaceError Unit)) s st).1 = .error e) :
    Abandoned s st path e ((Engine.disconnect path : Plain (Except WorkspaceError Unit)) s st).2 := by
  obtain ⟨f, hat, hpositive⟩ := (Option.any_eq_true ..).mp hopen
  rcases Nat.lt_or_ge 1 f.editors with hshared | hfew
  · rw [disconnect_shared hat hshared] at h
    exact absurd h (by simp)
  · have hlast : f.editors = 1 := by
      have : 0 < f.editors := by simpa using hpositive
      omega
    rw [disconnect_sole hat hlast] at h ⊢
    cases hexists : s.disk.exists? path with
    | false => exact absurd h (by simp [hexists])
    | true =>
      set left := { st with store := st.store.update { f with editors := 0 } } with hleft
      simp only [hexists, if_true] at h ⊢
      cases hload : left.loadObstacle? s.disk path with
      | none =>
        obtain ⟨hidle, text, htext⟩ := loadObstacle?_eq_none_iff.mp hload
        rw [loadFromDisk_eq hidle htext] at h
        exact absurd h (by simp)
      | some e' =>
        rw [loadFromDisk_refused hload] at h ⊢
        unfold loadObstacle? at hload
        split at hload
        · obtain rfl := Option.some.inj hload
          exact absurd h (by simp)
        · have htext := WorkspaceError.ofResult?_eq_some_iff.mp hload
          obtain ⟨cause, _, rfl⟩ := Disk.textOf_eq_error_iff.mp htext
          obtain rfl := Except.error.inj h
          exact ⟨hexists, htext, f, hat, hlast, rfl⟩

/-- A text is set unless something stands in the way. -/
theorem setText_admitted (h : (Request.setText path text).obstacle? s st = none) :
    ∃ id, ((Engine.setText path text : Plain (Except WorkspaceError FileId)) s st).1 = .ok id := by
  rw [Request.obstacle?] at h
  split at h
  · rename_i hloaded
    obtain ⟨f, hat⟩ := Option.isSome_iff_exists.mp hloaded
    rw [Engine.setText, Plain.locked_apply, hat]
    exact ⟨_, rfl⟩
  · exact absurd h (by simp)

/-- A file is loaded unless something stands in the way. -/
theorem load_admitted (h : (Request.load path).obstacle? s st = none) :
    ∃ id, ((Engine.load path : Plain (Except WorkspaceError FileId)) s st).1 = .ok id := by
  obtain ⟨hidle, text, htext⟩ := loadObstacle?_eq_none_iff.mp h
  rw [Engine.load, Plain.bind_apply, loadFromDisk_eq hidle htext]
  exact ⟨_, rfl⟩

/-- Projects are found anew unless they cannot be read. -/
theorem reconfigure_admitted (h : Request.reconfigure.obstacle? s st = none) :
    ((Engine.reconfigure : Plain (Except WorkspaceError Unit)) s st).1 = .ok () := by
  obtain ⟨configs, hconfigs⟩ := WorkspaceError.ofResult?_eq_none_iff.mp h
  rw [Engine.reconfigure, Plain.bind_apply, Plain.provider_apply, Plain.bind_apply, Plain.disk_apply,
    hconfigs]
  rfl

/-- **A request that fails changes nothing, but for an editor that has left.** Take any state, any disk
and any source of projects, whatever the disk says exists and whatever it can read. If opening or closing
a file, giving it a text, loading it or asking for the projects fails, the failure is what stood in its
way, and the state is the one before: files and their editors, definitions, tables, diagnostics, what is
remembered and what is queued. There is one exception: the last editor of a file has left, the disk says
that the file exists, and it cannot read it. Then the failure is that of the disk, and the state is the
one before but for the editors of that file, which has none now. -/
theorem failed_unchanged (s : Surroundings) (st : State) {r : Request} (hr : r.guarded = true)
    {e : WorkspaceError} (h : ((carryOut r : Plain Answer) s st).1 = .failed e) :
    (r.obstacle? s st = some e ∧ ((carryOut r : Plain Answer) s st).2 = st) ∨
      ∃ path, r = .disconnect path ∧ Abandoned s st path e ((carryOut r : Plain Answer) s st).2 := by
  cases hobstacle : r.obstacle? s st with
  | some e' =>
    rw [carryOut_of_obstacle hobstacle] at h ⊢
    obtain rfl := Answer.failed.inj h
    exact .inl ⟨rfl, rfl⟩
  | none =>
    -- Only the request to close a file can still fail.
    refine .inr ?_
    cases r with
    | connect path =>
      obtain ⟨id, hok⟩ := connect_admitted hobstacle
      have herror := Answer.eq_error_of_ofExcept .file (fun _ _ => nofun) h
      exact absurd (hok.symm.trans herror) (by simp)
    | disconnect path =>
      have hopen : st.hasEditor path = true := by
        rw [Request.obstacle?] at hobstacle
        simpa using hobstacle
      exact ⟨path, rfl, disconnect_failed hopen
        (Answer.eq_error_of_ofExcept (fun _ => .nothing) (fun _ _ => nofun) h)⟩
    | setText path text =>
      obtain ⟨id, hok⟩ := setText_admitted hobstacle
      have herror := Answer.eq_error_of_ofExcept .file (fun _ _ => nofun) h
      exact absurd (hok.symm.trans herror) (by simp)
    | load path =>
      obtain ⟨id, hok⟩ := load_admitted hobstacle
      have herror := Answer.eq_error_of_ofExcept .file (fun _ _ => nofun) h
      exact absurd (hok.symm.trans herror) (by simp)
    | reconfigure =>
      have herror := Answer.eq_error_of_ofExcept (fun _ => .nothing) (fun _ _ => nofun) h
      exact absurd ((reconfigure_admitted hobstacle).symm.trans herror) (by simp)
    | _ => exact absurd hr (by simp [Request.guarded])

/-- A file that is open in an editor is not loaded from the disk. -/
theorem failed_unchanged_open :
    let files : FileMap := SortedMap.insert {} ⟨"/p/a.ned"⟩ ""
    let s : Surroundings := ⟨files.disk, .fixed [⟨"p", ⟨"/p"⟩, [⟨""⟩], []⟩]⟩
    let st := ((do let _ ← Engine.reconfigure; connect ⟨"/p/a.ned"⟩ :
      Plain (Except WorkspaceError FileId)) s {}).2
    (carryOut (.load ⟨"/p/a.ned"⟩) : Plain Answer) s st =
      (.failed (.editorConnected ⟨"/p/a.ned"⟩), st) := by
  intro files s st
  have hedited : st.hasEditor ⟨"/p/a.ned"⟩ = true := by decide +kernel
  have hobstacle : (Request.load ⟨"/p/a.ned"⟩).obstacle? s st =
      some (.editorConnected ⟨"/p/a.ned"⟩) := by
    rw [Request.obstacle?, loadObstacle?, if_pos hedited]
  have hfailed := congrArg Prod.fst (carryOut_of_obstacle hobstacle)
  rcases failed_unchanged s st rfl hfailed with ⟨_, hsame⟩ | ⟨path, hr, _⟩
  · exact Prod.ext hfailed hsame
  · exact Request.noConfusion hr

/-- The last editor of a file leaves while the file cannot be read: that fails, and the editor is gone. -/
theorem editor_gone_although_failed :
    let files : FileMap := SortedMap.insert {} ⟨"/p/a.ned"⟩ ""
    let projects : Provider := .fixed [⟨"p", ⟨"/p"⟩, [⟨""⟩], []⟩]
    let st := ((do let _ ← Engine.reconfigure; connect ⟨"/p/a.ned"⟩ :
      Plain (Except WorkspaceError FileId)) ⟨files.disk, projects⟩ {}).2
    let out := (carryOut (.disconnect ⟨"/p/a.ned"⟩) : Plain Answer)
      ⟨files.disk.failing [⟨"/p/a.ned"⟩] [], projects⟩ st
    st.Reachable ∧
      out.1 = .failed (.unreadable ⟨"/p/a.ned"⟩ "permission denied: /p/a.ned") ∧ out.2 ≠ st ∧
      (st.store.at? ⟨"/p/a.ned"⟩).map SourceFile.editors = some 1 ∧
      (out.2.store.at? ⟨"/p/a.ned"⟩).map SourceFile.editors = some 0 := by
  intro files projects st out
  have hbefore : (st.store.at? ⟨"/p/a.ned"⟩).map SourceFile.editors = some 1 := by decide +kernel
  have hafter : (out.2.store.at? ⟨"/p/a.ned"⟩).map SourceFile.editors = some 0 := by decide +kernel
  refine ⟨Plain.steps (Stepwise.andThen reconfigure_keeps fun _ => connect_keeps _) _ _, rfl,
    fun hsame => ?_, hbefore, hafter⟩
  rw [hsame, hbefore] at hafter
  exact absurd hafter (by simp)

end State

end NedWorkspace
