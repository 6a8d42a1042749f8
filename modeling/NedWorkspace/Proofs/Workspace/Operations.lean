/-
# What operations do

When nobody listens an operation is a function of the state and its surroundings. These are its equations:
for each operation that deals with files or projects, what it answers and which state it leaves, case by
case. Whatever is proved of such an operation later needs no more of its definition than this.
-/

import NedWorkspace.Proofs.Workspace.Files

namespace NedWorkspace

open State Engine

/-- The failure that a result is. -/
def WorkspaceError.ofResult? {α : Type} : Except WorkspaceError α → Option WorkspaceError
  | .ok _ => none
  | .error e => some e

namespace WorkspaceError

variable {α : Type} {result : Except WorkspaceError α} {e : WorkspaceError}

@[simp] theorem ofResult?_eq_some_iff : ofResult? result = some e ↔ result = .error e := by
  cases result <;> simp [ofResult?]

/-- There is no error exactly if there is a result. -/
theorem ofResult?_eq_none_iff : ofResult? result = none ↔ ∃ a, result = .ok a := by
  cases result <;> simp [ofResult?]

end WorkspaceError

/-- A text cannot be read for the reason that the disk gives. -/
theorem Disk.textOf_eq_error_iff {d : Disk} {path : Path} {e : WorkspaceError} :
    d.textOf path = .error e ↔ ∃ cause, d.read path = .error cause ∧ e = .unreadable path cause := by
  unfold Disk.textOf
  cases d.read path <;> simp [eq_comm]

namespace State

/-- What stands in the way of loading the file at a path from a disk. -/
def loadObstacle? (st : State) (d : Disk) (path : Path) : Option WorkspaceError :=
  if st.hasEditor path then some (.editorConnected path) else WorkspaceError.ofResult? (d.textOf path)

variable {s : Surroundings} {st : State} {path : Path} {f : SourceFile} {c : DiskChange}
  {e : WorkspaceError}

/-! ### Loading -/

theorem textOf_of_read {disk : Disk} {text : String} (hread : disk.read path = .ok text) :
    disk.textOf path = .ok text := by
  unfold Disk.textOf
  rw [hread]

/-- A file without editor is loaded from the disk. -/
theorem loadFromDisk_eq {text : String} (hidle : st.hasEditor path = false)
    (htext : s.disk.textOf path = .ok text) :
    (loadFromDisk path : Plain (Except WorkspaceError FileId)) s st =
      (.ok (st.applyParse path text (Parse.ofText text)).1,
        (st.applyParse path text (Parse.ofText text)).2) := by
  have hedited : (Engine.hasEditor path : Plain Bool) s st = (false, st) := by
    rw [← hidle]
    rfl
  have hstored : (storeLoaded path text : Plain (Except WorkspaceError FileId)) s st =
      (.ok (st.applyParse path text (Parse.ofText text)).1,
        (st.applyParse path text (Parse.ofText text)).2) := by
    change (if st.hasEditor path = true then _ else _) = _
    rw [hidle, if_neg Bool.false_ne_true]
  rw [loadFromDisk, Plain.bind_apply, hedited, if_neg Bool.false_ne_true, Plain.bind_apply,
    Plain.disk_apply]
  dsimp only
  rw [htext]
  exact hstored

/-- A file in whose way something stands is refused, and the state is left as it is. -/
theorem loadFromDisk_refused (h : st.loadObstacle? s.disk path = some e) :
    (loadFromDisk path : Plain (Except WorkspaceError FileId)) s st = (.error e, st) := by
  rw [loadFromDisk, Plain.bind_apply, show (Engine.hasEditor path : Plain Bool) s st =
    (st.hasEditor path, st) from rfl]
  unfold loadObstacle? at h
  split at h
  · rename_i hedited
    rw [hedited, if_pos rfl, Option.some.inj h]
    rfl
  · rename_i hidle
    rw [WorkspaceError.ofResult?_eq_some_iff] at h
    rw [if_neg hidle, Plain.bind_apply, Plain.disk_apply, h]
    rfl

/-- What is not in the way of loading a file: an editor of it, and a text that cannot be read. -/
theorem loadObstacle?_eq_none_iff {d : Disk} :
    st.loadObstacle? d path = none ↔ st.hasEditor path = false ∧ ∃ text, d.textOf path = .ok text := by
  unfold loadObstacle?
  cases st.hasEditor path <;> simp [WorkspaceError.ofResult?_eq_none_iff]

/-! ### Editors -/

/-- An editor joins a loaded file. -/
theorem connect_loaded (hat : st.store.at? path = some f) (s : Surroundings) :
    (Engine.connect path : Plain (Except WorkspaceError FileId)) s st =
      (.ok f.id, { st with store := st.store.update { f with editors := f.editors + 1 } }) := by
  have hadded : addEditor st path =
      { st with store := st.store.update { f with editors := f.editors + 1 } } := by
    rw [addEditor, hat]
  have hfound : (locked fun st => ((st.store.at? path).map SourceFile.id, addEditor st path) :
      Plain (Option FileId)) s st = (some f.id, addEditor st path) := by
    change ((st.store.at? path).map SourceFile.id, addEditor st path) = _
    rw [hat]
    rfl
  rw [Engine.connect, Plain.bind_apply, hfound, ← hadded]
  rfl

/-- A file that is not loaded is opened in an editor: only a NED file is, with the text that the disk
has. -/
theorem connect_unloaded (hat : st.store.at? path = none) (s : Surroundings) :
    (Engine.connect path : Plain (Except WorkspaceError FileId)) s st =
      if st.registry.isNedFile path then
        match s.disk.textOf path with
        | .error e => (.error e, st)
        | .ok text =>
          let r := st.applyParse path text (Parse.ofText text)
          (.ok r.1, (addEditor r.2 path).rehash)
      else (.error (.notNedFile path), st) := by
  have hknown : (locked fun st => ((st.store.at? path).map SourceFile.id, addEditor st path) :
      Plain (Option FileId)) s st = (none, st) := by
    rw [Plain.locked_apply, addEditor, hat]
    rfl
  rw [Engine.connect, Plain.bind_apply, hknown]
  dsimp only
  rw [Plain.bind_apply, Plain.view_apply]
  split
  · rw [Plain.bind_apply, Plain.disk_apply]
    cases s.disk.textOf path with
    | error e => rfl
    | ok text =>
      dsimp only
      rw [Plain.bind_apply, Plain.locked_apply, hat]
      rfl
  · rfl

/-- An editor leaves a file; it is told whether it was the last. -/
theorem dropEditor_eq (hat : st.store.at? path = some f) (hopen : 0 < f.editors) (s : Surroundings) :
    (dropEditor path : Plain (Except WorkspaceError Bool)) s st =
      (.ok (f.editors = 1),
        { st with store := st.store.update { f with editors := f.editors - 1 } }) := by
  rw [dropEditor, Plain.locked_apply, hat, Option.filter_some, if_pos (by simpa using hopen)]

/-- No editor can go where there is none. -/
theorem dropEditor_refused (h : st.hasEditor path = false) :
    (dropEditor path : Plain (Except WorkspaceError Bool)) s st = (.error (.notConnected path), st) := by
  have hnone : (st.store.at? path).filter (fun f => decide (0 < f.editors)) = none := by
    rw [Option.filter_eq_none_iff]
    intro f hat
    rw [hasEditor_of_at? hat] at h
    simpa using h
  rw [dropEditor, Plain.locked_apply, hnone]

/-- An editor other than the last one leaves a file. -/
theorem disconnect_shared (hat : st.store.at? path = some f) (hshared : 1 < f.editors)
    (s : Surroundings) : (Engine.disconnect path : Plain (Except WorkspaceError Unit)) s st =
      (.ok (), { st with store := st.store.update { f with editors := f.editors - 1 } }) := by
  have hlast : decide (f.editors = 1) = false := by simpa using hshared.ne'
  rw [Engine.disconnect, Plain.bind_apply, dropEditor_eq hat (by omega), hlast]
  rfl

/-- The last editor leaves a file, which is then loaded from the disk if the disk has it. -/
theorem disconnect_sole (hat : st.store.at? path = some f) (hlast : f.editors = 1)
    (s : Surroundings) : (Engine.disconnect path : Plain (Except WorkspaceError Unit)) s st =
      let left := { st with store := st.store.update { f with editors := 0 } }
      if s.disk.exists? path then
        match (loadFromDisk path : Plain (Except WorkspaceError FileId)) s left with
        | (.error (.editorConnected _), st') | (.ok _, st') => (.ok (), st'.rehash)
        | (.error e, st') => (.error e, st')
      else (.ok (), left) := by
  rw [Engine.disconnect, Plain.bind_apply, dropEditor_eq hat (by omega), hlast]
  dsimp only
  rw [Plain.bind_apply, Plain.disk_apply]
  cases s.disk.exists? path with
  | false => rfl
  | true =>
    rw [if_pos ⟨rfl, rfl⟩, if_pos rfl, Plain.bind_apply]
    obtain ⟨result, st'⟩ := (loadFromDisk path : Plain (Except WorkspaceError FileId)) s
      { st with store := st.store.update { f with editors := 1 - 1 } }
    cases result with
    | ok id => rfl
    | error e => cases e <;> rfl

/-! ### Projects and changes of the disk -/

/-- New projects replace the old ones, or an error leaves these. -/
theorem reconfigure_apply (s : Surroundings) (st : State) :
    (Engine.reconfigure : Plain (Except WorkspaceError Unit)) s st =
      match s.provider.projects s.disk with
      | .error e => (.error e, st)
      | .ok configs => (.ok (), st.reconfigure configs) := by
  rw [Engine.reconfigure, Plain.bind_apply, Plain.provider_apply, Plain.bind_apply, Plain.disk_apply]
  cases s.provider.projects s.disk <;> rfl

/-- The paths of the NED files below the source folders that are not loaded. -/
def unloaded (st : State) (d : Disk) : List Path :=
  (collectFiles d (st.registry.projects.values.flatMap Project.folders)).1.filter fun p =>
    (st.store.at? p).isNone && st.registry.isNedFile p

/-- What is missing is loaded in brackets, if anything is. -/
theorem loadMissing_apply (s : Surroundings) (st : State) :
    (loadMissing : Plain (Except WorkspaceError Nat)) s st =
      let unlisted := (collectFiles s.disk (st.registry.projects.values.flatMap Project.folders)).2
      if (st.unloaded s.disk).isEmpty then (countUnlessFailed 0 unlisted, st)
      else
        let r := (loadEach ((st.unloaded s.disk).map fun p => (p, s.disk.textOf p)) :
          Plain (Nat × List WorkspaceError)) s st
        (countUnlessFailed r.1.1 (unlisted ++ r.1.2), r.2.rehash.emit (.modelChanged none)) := by
  rw [loadMissing, Plain.bind_apply, Plain.view_apply]
  dsimp only
  rw [Plain.bind_apply, Plain.disk_apply]
  dsimp only
  rw [Plain.bind_apply, Plain.view_apply]
  dsimp only
  rw [← unloaded]
  split
  · rfl
  · rw [Plain.bind_apply, Plain.disk_apply]
    dsimp only
    rw [Plain.closing_apply, Plain.bind_apply]
    rfl

/-- The projects are asked for anew, and what their source folders hold is loaded. -/
theorem reconfigureAndLoad_apply (s : Surroundings) (st : State) :
    (reconfigureAndLoad : Plain (List WorkspaceError)) s st =
      match s.provider.projects s.disk with
      | .error e => ([e], st)
      | .ok configs =>
        let r := (loadMissing : Plain (Except WorkspaceError Nat)) s (st.reconfigure configs)
        ((WorkspaceError.ofResult? r.1).toList, r.2) := by
  rw [reconfigureAndLoad, Plain.bind_apply, reconfigure_apply]
  cases s.provider.projects s.disk with
  | error e => rfl
  | ok configs =>
    dsimp only
    rw [Plain.bind_apply]
    obtain ⟨result, st'⟩ := (loadMissing : Plain (Except WorkspaceError Nat)) s (st.reconfigure configs)
    cases result <;> rfl

/-- A change of a file is taken over by loading it, if it is a NED file without editor. -/
theorem applyChange_read (s : Surroundings) (st : State)
    (hc : c = .added path ∨ c = .changed path) :
    (applyChange c : Plain (List WorkspaceError)) s st =
      if st.registry.isNedFile path && !st.hasEditor path then
        match s.disk.textOf path with
        | .error e => ([e], st)
        | .ok text => ([], (st.applyParse path text (Parse.ofText text)).2)
      else ([], st) := by
  have hview : (applyChange c : Plain (List WorkspaceError)) s st =
      (applyChange (.changed path) : Plain (List WorkspaceError)) s st := by
    rcases hc with rfl | rfl
    · rfl
    · rfl
  rw [hview]
  change ((if st.registry.isNedFile path = true then _ else _ : Plain (List WorkspaceError)) s st) = _
  cases st.registry.isNedFile path with
  | false => rfl
  | true =>
    change ((if st.hasEditor path = true then _ else _ : Plain (List WorkspaceError)) s st) = _
    cases hedited : st.hasEditor path with
    | true => rfl
    | false =>
      rw [if_neg Bool.false_ne_true, Plain.bind_apply]
      cases htext : s.disk.textOf path with
      | ok text =>
        rw [loadFromDisk_eq hedited htext]
        rfl
      | error e =>
        have hrefused : st.loadObstacle? s.disk path = some e := by
          rw [loadObstacle?, hedited, if_neg Bool.false_ne_true,
            WorkspaceError.ofResult?_eq_some_iff, htext]
        obtain ⟨cause, _, rfl⟩ := Disk.textOf_eq_error_iff.mp htext
        rw [loadFromDisk_refused hrefused]
        rfl

end State

end NedWorkspace
