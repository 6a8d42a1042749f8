/-
# A workspace that begins anew

`Engine.beginWith` is the shortest way to a configuration and a set of files: the projects are asked for
once, and every file is loaded once. `State.fresh` is where that leads. Whatever order the files are
loaded in, the fresh state has the same files as the state whose texts it loads
(`State.Kept.sameFiles_fresh`).
-/

import NedWorkspace.Proofs.Workspace.Operations
import NedWorkspace.Proofs.Workspace.Twin

namespace NedWorkspace

open State Stepwise

/-- The loaded texts by path. -/
def SourceStore.texts (s : SourceStore) : FileMap :=
  ⟨s.all.map fun f => (f.path, f.text)⟩

namespace SourceStore

variable {s : SourceStore}

/-- The texts by path are read off the files by path. -/
theorem WellFormed.texts_eq (hs : s.WellFormed) : s.texts = s.byPath.map SourceFile.text := by
  unfold texts SortedMap.map
  rw [← values_byPath, SortedMap.values, List.map_map]
  refine congrArg SortedMap.mk (List.map_congr_left fun e he => ?_)
  exact congrArg (fun p => (p, e.2.text)) (hs.mem_byPath_iff.mp he).2

/-- The texts stand in the order of their paths. -/
theorem WellFormed.ascending_texts (hs : s.WellFormed) : s.texts.Ascending := by
  rw [hs.texts_eq]
  exact hs.ascending_byPath.map SourceFile.text

end SourceStore

/-- A disk that holds the loaded texts. -/
theorem FileMap.disk_read_of_mem {files : FileMap} (h : files.Ascending) {e : Path × String}
    (he : e ∈ files.entries) : files.disk.read e.1 = .ok e.2 := by
  have hget : files.get? e.1 = some e.2 := h.get?_of_mem he Std.ReflOrd.compare_self
  dsimp only [disk]
  rw [hget]

namespace Engine

variable {m : Type → Type} [Engine m]

/-- Loads the files at the given paths, one after another. -/
def loadAll : List Path → m Unit
  | [] => return ()
  | path :: paths => do
    let _ ← load path
    loadAll paths

/-- Asks for the projects, then loads the files at the given paths. -/
def beginWith (paths : List Path) : m Unit := do
  let _ ← reconfigure
  loadAll paths

variable [Stepwise m] {asking : Prop}

/-- Loading files is made of steps. -/
theorem loadAll_keeps (paths : List Path) : Keeps asking (loadAll paths : m Unit) := by
  induction paths with
  | nil => exact done _
  | cons path paths ih => exact andThen (load_keeps path) fun _ => ih

theorem beginWith_keeps (paths : List Path) : Keeps asking (beginWith paths : m Unit) :=
  andThen reconfigure_keeps fun _ => loadAll_keeps paths

end Engine

open Engine

namespace State

/-- The state of a new workspace with a given configuration, after the files at the given paths were
loaded from a disk, each once. -/
def fresh (configs : List ProjectConfig) (disk : Disk) (paths : List Path) : State :=
  ((beginWith paths : Plain Unit) ⟨disk, .fixed configs⟩ {}).2

/-- Nothing is asked on the way. -/
theorem steps_fresh {asking : Prop} (configs : List ProjectConfig) (disk : Disk)
    (paths : List Path) : Steps asking {} (fresh configs disk paths) :=
  Plain.steps (beginWith_keeps paths) _ _

/-- A fresh workspace is a reachable one. -/
theorem reachable_fresh (configs : List ProjectConfig) (disk : Disk) (paths : List Path) :
    (fresh configs disk paths).Reachable :=
  steps_fresh configs disk paths

/-- Loading a file that is not loaded. -/
theorem load_eq {st : State} {path : Path} {s : Surroundings} {text : String}
    (hat : st.store.at? path = none) (hread : s.disk.read path = .ok text) :
    ((load path : Plain (Except WorkspaceError FileId)) s st).2 =
      (st.loadNew path text (Parse.ofText text)).2.rehash := by
  have hidle : st.hasEditor path = false := by
    unfold State.hasEditor
    rw [hat]
    rfl
  have hnew : st.applyParse path text (Parse.ofText text) =
      st.loadNew path text (Parse.ofText text) := by
    unfold State.applyParse
    rw [hat]
  rw [load, Plain.bind_apply, loadFromDisk_eq hidle (textOf_of_read hread), hnew]
  rfl

/-- Loading files that are not loaded adds their texts to those there are, and nothing happens to the
projects. -/
theorem loadAll_texts {s : Surroundings} {loaded : List (Path × String)}
    (hdistinct : loaded.Pairwise fun a b => compare a.1 b.1 ≠ .eq)
    (hread : ∀ e ∈ loaded, s.disk.read e.1 = .ok e.2) {st : State} (hst : st.store.WellFormed)
    (hnew : ∀ e ∈ loaded, st.store.at? e.1 = none) :
    ((loadAll (loaded.map Prod.fst) : Plain Unit) s st).2.store.texts.entries.Perm
        (loaded ++ st.store.texts.entries) ∧
      ((loadAll (loaded.map Prod.fst) : Plain Unit) s st).2.registry.projects =
        st.registry.projects := by
  induction loaded generalizing st with
  | nil => exact ⟨.refl _, rfl⟩
  | cons e loaded ih =>
    obtain ⟨path, text⟩ := e
    rw [List.pairwise_cons] at hdistinct
    have hat := hnew (path, text) List.mem_cons_self
    set next := (st.loadNew path text (Parse.ofText text)).2.rehash with hnext
    have hstore : next.store = (st.store.add path text (Parse.ofText text)).2 := store_rehash _
    have hlater : ∀ e ∈ loaded, next.store.at? e.1 = none := by
      intro e he
      have hne : compare path e.1 ≠ .eq := hdistinct.1 e he
      rw [hstore]
      refine (hst.at?_add ..).trans ((if_neg hne).trans ?_)
      exact hnew e (List.mem_cons_of_mem _ he)
    obtain ⟨htexts, hprojects⟩ := ih hdistinct.2
      (fun e he => hread e (List.mem_cons_of_mem _ he)) (hstore ▸ hst.add hat text _) hlater
    have hadded : next.store.texts.entries.Perm ((path, text) :: st.store.texts.entries) := by
      rw [hstore]
      exact (hst.all_add_perm hat text (Parse.ofText text)).map _
    have hload := load_eq (s := s) hat (hread (path, text) List.mem_cons_self)
    rw [List.map_cons, loadAll, Plain.bind_apply, hload]
    refine ⟨htexts.trans ?_, hprojects.trans (registry_rehash _)⟩
    exact (hadded.append_left loaded).trans List.perm_middle

/-- **A new workspace that loads the texts of a state has the same files.** -/
theorem Kept.sameFiles_fresh {st : State} (hst : st.Kept) {configs : List ProjectConfig} {disk : Disk}
    {loaded : List (Path × String)}
    (hconfigs : st.registry.projects = (Registry.ofConfigs configs).projects)
    (hloaded : loaded.Perm st.store.texts.entries)
    (hdisk : ∀ e ∈ loaded, disk.read e.1 = .ok e.2) :
    st.SameFiles (fresh configs disk (loaded.map Prod.fst)) := by
  have hkept := (reachable_fresh configs disk (loaded.map Prod.fst)).kept
  have hdistinct : loaded.Pairwise fun a b => compare a.1 b.1 ≠ .eq := by
    have hsymm : ∀ {a b : Path × String}, compare a.1 b.1 ≠ .eq → compare b.1 a.1 ≠ .eq :=
      fun hab hba => hab (Std.OrientedCmp.eq_symm hba)
    refine (hloaded.pairwise_iff hsymm).mpr (hst.store.ascending_texts.imp fun hlt => ?_)
    rw [hlt]
    decide
  have hempty : ∀ e ∈ loaded, (({} : State).reconfigure configs).store.at? e.1 = none :=
    fun _ _ => rfl
  have hwell : (({} : State).reconfigure configs).store.WellFormed :=
    wellFormed_reconfigure SourceStore.wellFormed_empty configs
  obtain ⟨htexts, hprojects⟩ := loadAll_texts (s := ⟨disk, .fixed configs⟩) hdistinct hdisk hwell hempty
  have hperm : (fresh configs disk (loaded.map Prod.fst)).store.texts.entries.Perm
      st.store.texts.entries := by
    refine htexts.trans (.trans ?_ hloaded)
    rw [show (({} : State).reconfigure configs).store.texts.entries = [] from rfl, List.append_nil]
  refine ⟨hst, hkept, hconfigs.trans hprojects.symm, ?_⟩
  exact (SortedMap.entries_eq_of_perm hkept.store.ascending_texts hst.store.ascending_texts hperm).symm

end State

end NedWorkspace
