/-
# Keeping step with the disk

SPEC_FULL, section 4.7: WorkspaceSync.

A state is in step with a disk if every path that has no editor holds what the disk holds, as far as it
is the path of a NED file, and nothing otherwise (`State.InStep`). When the disk changes and a batch
names every path that differs, in any order and with any repetitions, taking over the batch brings the
state in step with the new disk (`State.inStep_applyChanges`).

The argument runs along the batch: a path is either in step already, or a change that names it is still
to come. The projects change only after that. Then files that are no longer NED files go, what stays is
in step as before, and what became a NED file is found by listing the source folders.

Projects are looked up again only if a change has to do with them. A description of the projects that
changed unnoticed before the batch stays unnoticed (`State.stale_projects_stay`).
-/

import NedWorkspace.Proofs.Workspace.Operations
import NedWorkspace.Proofs.Workspace.Run

namespace NedWorkspace

open State Engine

namespace DiskChange

/-- The path that a change names. -/
def path? : DiskChange → Option Path
  | added p | changed p | removed p => some p
  | projects => none

/-- A change names a path, in any spelling. -/
def Names (c : DiskChange) (path : Path) : Prop :=
  (c.path?.any fun q => compare q path == .eq) = true

instance (c : DiskChange) (path : Path) : Decidable (c.Names path) :=
  inferInstanceAs (Decidable (_ = true))

/-- A change names the paths that are spelled in it, in whatever way. -/
theorem names_iff {c : DiskChange} {path : Path} :
    c.Names path ↔ ∃ q, c.path? = some q ∧ compare q path = .eq := by
  simp [Names, Option.any_eq_true]

/-- A change that tells the truth about what the disk holds now. -/
def Fits (files : FileMap) : DiskChange → Prop
  | added p | changed p => files.contains p = true
  | removed p => files.contains p = false
  | projects => True

instance (files : FileMap) : (c : DiskChange) → Decidable (c.Fits files)
  | added _ | changed _ => inferInstanceAs (Decidable (_ = true))
  | removed _ => inferInstanceAs (Decidable (_ = false))
  | projects => inferInstanceAs (Decidable True)

/-- Changes that tell how a disk became another: they name every path that differs, in any order and
however often, and each tells the truth. -/
structure Tells (before now : FileMap) (changes : List DiskChange) : Prop where
  named : ∀ path, before.get? path ≠ now.get? path → ∃ c ∈ changes, c.Names path
  fits : ∀ c ∈ changes, c.Fits now

/-- It is enough to look at the paths that one of the disks holds. -/
theorem tells_iff {before now : FileMap} {changes : List DiskChange} :
    (∀ key ∈ before.keys ++ now.keys, before.get? key ≠ now.get? key → ∃ c ∈ changes, c.Names key) ∧
      (∀ c ∈ changes, c.Fits now) ↔ Tells before now changes := by
  refine ⟨fun h => ⟨fun path hdiffers => ?_, h.2⟩, fun h => ⟨fun key _ => h.named key, h.fits⟩⟩
  have hheld : before.contains path = true ∨ now.contains path = true := by
    by_contra hneither
    have hnone : before.get? path = none ∧ now.get? path = none := by
      simpa [SortedMap.contains] using hneither
    exact hdiffers (hnone.1.trans hnone.2.symm)
  obtain ⟨key, hkey, hpath⟩ : ∃ key ∈ before.keys ++ now.keys, compare key path = .eq := by
    rcases hheld with hheld | hheld
    · obtain ⟨key, hkey, hpath⟩ := SortedMap.contains_iff.mp hheld
      exact ⟨key, List.mem_append_left _ hkey, hpath⟩
    · obtain ⟨key, hkey, hpath⟩ := SortedMap.contains_iff.mp hheld
      exact ⟨key, List.mem_append_right _ hkey, hpath⟩
  rw [← before.get?_congr hpath, ← now.get?_congr hpath] at hdiffers
  obtain ⟨c, hc, hnames⟩ := h.1 key hkey hdiffers
  obtain ⟨q, hq, hcompare⟩ := names_iff.mp hnames
  exact ⟨c, hc, names_iff.mpr ⟨q, hq, Std.TransCmp.eq_trans hcompare hpath⟩⟩

instance (before now : FileMap) (changes : List DiskChange) : Decidable (Tells before now changes) :=
  decidable_of_iff _ tells_iff

/-- A change that names the description of the source folders of a project touches the projects. -/
theorem touchesProjects_of_names {c : DiskChange} {root : Path}
    (h : c.Names (root.join ⟨nedfoldersName⟩)) : c.touchesProjects = true := by
  obtain ⟨q, hq, hpath⟩ := names_iff.mp h
  have hname : q.fileName? = some nedfoldersName := by
    rw [Path.fileName?_congr (Path.compare_eq_iff.mp hpath)]
    exact Path.fileName?_join root ⟨nedfoldersName.toList, by decide, by decide⟩
  cases c with
  | added p | changed p | removed p =>
    obtain rfl := Option.some.inj hq
    simp [touchesProjects, hname]
  | projects => exact absurd hq (by simp [path?])

end DiskChange

namespace FileMap

variable {files : FileMap} {path : Path}

/-- A file is held if it has a text. -/
theorem contains_iff_get? : files.contains path = true ↔ ∃ text, files.get? path = some text :=
  Option.isSome_iff_exists

/-- A text that is held can be read. -/
theorem textOf_disk {text : String} (h : files.get? path = some text) :
    files.disk.textOf path = .ok text := by
  unfold Disk.textOf disk
  dsimp only
  rw [h]

end FileMap

namespace Provider

/-- The folders of a project depend on its list of folders only. -/
theorem foldersOnDisk?_congr {before now : FileMap} {root : Path}
    (h : before.get? (root.join ⟨nedfoldersName⟩) = now.get? (root.join ⟨nedfoldersName⟩)) :
    foldersOnDisk? before.disk root = foldersOnDisk? now.disk root := by
  have hexists : before.disk.exists? (root.join ⟨nedfoldersName⟩) =
      now.disk.exists? (root.join ⟨nedfoldersName⟩) := congrArg Option.isSome h
  have hread : before.disk.read (root.join ⟨nedfoldersName⟩) =
      now.disk.read (root.join ⟨nedfoldersName⟩) := by
    dsimp only [FileMap.disk]
    rw [h]
  unfold foldersOnDisk?
  dsimp only
  rw [hexists, hread]

/-- The projects are the same unless the description of one differs. -/
theorem projects_congr {provider : Provider} {list : List ProjectConfig}
    (hprovider : provider = .fixed list ∨ provider = .nedfolders list) {before now : FileMap}
    (h : ∀ root : Path, before.get? (root.join ⟨nedfoldersName⟩) =
      now.get? (root.join ⟨nedfoldersName⟩)) :
    provider.projects before.disk = provider.projects now.disk := by
  rcases hprovider with rfl | rfl
  · rfl
  · have hfolders : ∀ c : ProjectConfig, foldersOnDisk? before.disk c.root =
        foldersOnDisk? now.disk c.root := fun c => foldersOnDisk?_congr (h c.root)
    simp only [projects, hfolders]

/-- A batch that names all that changed and has nothing to do with projects leaves them as they are. -/
theorem projects_eq_of_untouched {provider : Provider} {list : List ProjectConfig}
    (hprovider : provider = .fixed list ∨ provider = .nedfolders list) {before now : FileMap}
    {changes : List DiskChange} (htells : DiskChange.Tells before now changes)
    (htouches : changes.any DiskChange.touchesProjects = false) :
    provider.projects now.disk = provider.projects before.disk := by
  refine (projects_congr hprovider fun root => ?_).symm
  by_contra hdiffers
  obtain ⟨c, hc, hnames⟩ := htells.named _ hdiffers
  exact List.any_eq_false.mp htouches c hc (DiskChange.touchesProjects_of_names hnames)

/-- Projects that are fixed can always be found. -/
theorem exists_projects {provider : Provider} {list : List ProjectConfig}
    (hprovider : provider = .fixed list ∨ provider = .nedfolders list) (d : Disk) :
    ∃ configs, provider.projects d = .ok configs := by
  rcases hprovider with rfl | rfl
  · exact ⟨_, rfl⟩
  · exact ⟨_, rfl⟩

end Provider

namespace State

/-- A path holds what it should if no editor has it. -/
def InStepAt (st : State) (files : FileMap) (path : Path) : Prop :=
  st.textAt? path = if st.registry.isNedFile path then files.get? path else none

/-- A state in step with a disk. -/
def InStep (st : State) (files : FileMap) : Prop :=
  ∀ path, st.hasEditor path = false → st.InStepAt files path

/-- The projects of a state are those that a provider finds on a disk. -/
def ConfiguredBy (st : State) (provider : Provider) (files : FileMap) : Prop :=
  ∃ configs, provider.projects files.disk = .ok configs ∧
    st.registry.projects = (Registry.ofConfigs configs).projects

section Views

variable {st st' : State}

/-- The text at a path is that of its file. -/
theorem textAt?_of_at? {path : Path} (h : st'.store.at? path = st.store.at? path) :
    st'.textAt? path = st.textAt? path :=
  congrArg (Option.map SourceFile.text) h

/-- Whether a path has an editor depends on its file. -/
theorem hasEditor_congr {path : Path} (h : st'.store.at? path = st.store.at? path) :
    st'.hasEditor path = st.hasEditor path := by
  unfold hasEditor
  rw [h]

/-- Texts that are one path have the same editors. -/
theorem hasEditor_of_compare {p q : Path} (h : compare p q = .eq) :
    st.hasEditor q = st.hasEditor p := by
  unfold hasEditor
  rw [st.store.at?_congr h]

/-- A path stays in step as long as its file and the projects stay. -/
theorem InStepAt.congr {files : FileMap} {path : Path} (h : st.InStepAt files path)
    (hat : st'.store.at? path = st.store.at? path)
    (hprojects : st'.registry.projects = st.registry.projects) : st'.InStepAt files path := by
  unfold InStepAt
  rw [textAt?_of_at? hat, Registry.isNedFile_congr hprojects]
  exact h

/-- A state stays in step as long as files and projects stay. -/
theorem InStep.congr {files : FileMap} (h : st.InStep files) (hstore : st'.store = st.store)
    (hprojects : st'.registry.projects = st.registry.projects) : st'.InStep files := by
  intro path hidle
  have hat : st'.store.at? path = st.store.at? path := by rw [hstore]
  rw [hasEditor_congr hat] at hidle
  exact (h path hidle).congr hat hprojects

/-- What is loaded where no editor is stands on the disk. -/
theorem InStep.held {files : FileMap} (h : st.InStep files) (path : Path) (text : String)
    (hidle : st.hasEditor path = false) (htext : st.textAt? path = some text) :
    files.get? path = some text := by
  have hstep := h path hidle
  unfold InStepAt at hstep
  rw [htext] at hstep
  split at hstep
  · exact hstep.symm
  · exact absurd hstep (by simp)

end Views

/-! ### Loading from the disk -/

/-- What happens between two states when files are loaded from a disk: of the paths that are wanted,
those that hold nothing get what the disk holds. -/
structure Loads (files : FileMap) (wanted : Path → Bool) (st st' : State) : Prop where
  wellFormed : st'.store.WellFormed
  projects : st'.registry.projects = st.registry.projects
  hasEditor : ∀ path, st'.hasEditor path = st.hasEditor path
  textAt? : ∀ path, st'.textAt? path =
    (st.textAt? path).or (if wanted path then files.get? path else none)

namespace Loads

variable {files : FileMap} {wanted wanted' : Path → Bool} {st st' st'' : State}

theorem refl (hst : st.store.WellFormed) : Loads files (fun _ => false) st st :=
  ⟨hst, rfl, fun _ => rfl, fun path => by simp⟩

/-- Files loaded one after the other. -/
theorem trans (h : Loads files wanted st st') (h' : Loads files wanted' st' st'') :
    Loads files (fun path => wanted path || wanted' path) st st'' := by
  refine ⟨h'.wellFormed, h'.projects.trans h.projects,
    fun path => (h'.hasEditor path).trans (h.hasEditor path), fun path => ?_⟩
  rw [h'.textAt?, h.textAt?, Option.or_assoc]
  cases wanted path <;> cases wanted' path <;> simp

/-- It does not matter which of the paths that hold something are wanted. -/
theorem congr (h : Loads files wanted st st') (hstore : st''.store = st'.store)
    (hprojects : st''.registry.projects = st'.registry.projects)
    (hwanted : ∀ path, st.textAt? path = none → (if wanted path then files.get? path else none) =
      if wanted' path then files.get? path else none) : Loads files wanted' st st'' := by
  have hat : ∀ path, st''.store.at? path = st'.store.at? path := fun path => by rw [hstore]
  refine ⟨hstore ▸ h.wellFormed, hprojects.trans h.projects,
    fun path => (hasEditor_congr (hat path)).trans (h.hasEditor path), fun path => ?_⟩
  rw [textAt?_of_at? (hat path), h.textAt?]
  cases htext : st.textAt? path with
  | none => rw [hwanted path htext]
  | some text => rw [Option.some_or, Option.some_or]

end Loads

/-- Reading one file that is held loads it. -/
theorem loads_silently {files : FileMap} {path : Path} {text : String}
    (htext : files.get? path = some text) (s : Surroundings) {st : State}
    (hst : st.store.WellFormed) : Loads files (fun q => compare path q == .eq) st
      ((loadSilently path text : Plain Bool) s st).2 := by
  rw [loadSilently, Plain.locked_apply]
  cases hat : st.store.at? path with
  | some f =>
    refine ⟨hst, rfl, fun _ => rfl, fun q => ?_⟩
    by_cases hq : compare path q = .eq
    · have hloaded : st.textAt? q = some f.text := by
        rw [textAt?, ← st.store.at?_congr hq, hat]
        rfl
      rw [hloaded, Option.some_or]
    · simp [hq]
  | none =>
    refine ⟨?_, ?_, fun q => hasEditor_applyParse hst path text _ q, fun q => ?_⟩
    · change (st.applyParse path text (Parse.ofText text)).2.store.WellFormed
      rw [store_applyParse]
      exact hst.give path text _
    · exact congrArg Registry.projects (st.registry_applyParse path text _)
    · refine (textAt?_applyParse hst path text _ q).trans ?_
      by_cases hq : compare path q = .eq
      · have hmissing : st.textAt? q = none := by
          rw [textAt?, ← st.store.at?_congr hq, hat]
          rfl
        simp [hq, hmissing, ← files.get?_congr hq, htext]
      · simp [hq]

/-- Reading a list of files that are held loads them all. -/
theorem loads_each {files : FileMap} {paths : List Path}
    (hheld : ∀ p ∈ paths, files.contains p = true) (s : Surroundings) {st : State}
    (hst : st.store.WellFormed) :
    ((loadEach (paths.map fun p => (p, files.disk.textOf p)) :
        Plain (Nat × List WorkspaceError)) s st).1.2 = [] ∧
      Loads files (fun q => paths.any fun p => compare p q == .eq) st
        ((loadEach (paths.map fun p => (p, files.disk.textOf p)) :
          Plain (Nat × List WorkspaceError)) s st).2 := by
  induction paths generalizing st with
  | nil => exact ⟨rfl, .refl hst⟩
  | cons p paths ih =>
    obtain ⟨text, htext⟩ := FileMap.contains_iff_get?.mp (hheld p List.mem_cons_self)
    have hfirst := loads_silently htext s hst
    obtain ⟨herrors, hmore⟩ := ih (fun q hq => hheld q (List.mem_cons_of_mem p hq)) hfirst.wellFormed
    rw [List.map_cons, FileMap.textOf_disk htext]
    exact ⟨herrors, hfirst.trans hmore⟩

/-- The files below folders, in any spelling, are those on the disk. -/
theorem exists_mem_collectFiles {files : FileMap} {folders : List Path} {path : Path} :
    (∃ p ∈ (collectFiles files.disk folders).1, compare p path = .eq) ↔
      files.contains path = true ∧ ∃ folder ∈ folders, path.startsWith folder = true := by
  have hlist : (collectFiles files.disk folders).1 =
      sortedSet (folders.flatMap fun folder => files.keys.filter (·.startsWith folder)) := by
    simp [collectFiles, List.flatMap_map, Disk.filesBelow, FileMap.disk, Except.toOption]
  rw [hlist, exists_mem_sortedSet, SortedMap.contains_iff]
  constructor
  · rintro ⟨p, hp, hpath⟩
    obtain ⟨folder, hfolder, hp⟩ := List.mem_flatMap.mp hp
    obtain ⟨hkey, hstarts⟩ := List.mem_filter.mp hp
    refine ⟨⟨p, hkey, hpath⟩, folder, hfolder, ?_⟩
    rw [← Path.startsWith_congr (Path.compare_eq_iff.mp hpath)]
    exact hstarts
  · rintro ⟨⟨p, hkey, hpath⟩, folder, hfolder, hstarts⟩
    rw [← Path.startsWith_congr (Path.compare_eq_iff.mp hpath)] at hstarts
    exact ⟨p, List.mem_flatMap.mpr ⟨folder, hfolder, List.mem_filter.mpr ⟨hkey, hstarts⟩⟩, hpath⟩

/-- The paths below the source folders of a state that hold no NED file yet. -/
def missing (st : State) (files : FileMap) : List Path :=
  (collectFiles files.disk (st.registry.projects.values.flatMap Project.folders)).1.filter fun p =>
    (st.store.at? p).isNone && st.registry.isNedFile p

/-- What is missing is held by the disk. -/
theorem contains_of_mem_missing {st : State} {files : FileMap} {p : Path} (h : p ∈ st.missing files) :
    files.contains p = true :=
  (exists_mem_collectFiles.mp ⟨p, (List.mem_filter.mp h).1, Std.ReflOrd.compare_self⟩).1

/-- A path that holds nothing is among the missing ones exactly if the disk has a NED file there. -/
theorem any_missing {st : State} {files : FileMap} {path : Path} (h : st.textAt? path = none) :
    ((st.missing files).any fun p => compare p path == .eq) =
      (files.contains path && st.registry.isNedFile path) := by
  have hnone : st.store.at? path = none := Option.map_eq_none_iff.mp h
  rw [Bool.eq_iff_iff, List.any_eq_true, Bool.and_eq_true]
  constructor
  · rintro ⟨p, hp, hpath⟩
    obtain ⟨hcollected, hp⟩ := List.mem_filter.mp hp
    have hpath : compare p path = .eq := by simpa using hpath
    refine ⟨(exists_mem_collectFiles.mp ⟨p, hcollected, hpath⟩).1, ?_⟩
    rw [← Registry.isNedFile_of_compare _ hpath]
    exact (Bool.and_eq_true_iff.mp hp).2
  · rintro ⟨hheld, hned⟩
    obtain ⟨p, hcollected, hpath⟩ := exists_mem_collectFiles.mpr
      ⟨hheld, Registry.exists_folder_of_isNedFile hned⟩
    refine ⟨p, List.mem_filter.mpr ⟨hcollected, ?_⟩, by simpa using hpath⟩
    rw [st.store.at?_congr hpath, hnone, Registry.isNedFile_of_compare _ hpath, hned]
    rfl

/-- Loading what is missing, with the errors left out. -/
theorem loadMissing_eq (files : FileMap) (provider : Provider) (st : State) :
    (loadMissing : Plain (Except WorkspaceError Nat)) ⟨files.disk, provider⟩ st =
      if (st.missing files).isEmpty then (.ok 0, st)
      else
        let r := (loadEach ((st.missing files).map fun p => (p, files.disk.textOf p)) :
          Plain (Nat × List WorkspaceError)) ⟨files.disk, provider⟩ st
        (countUnlessFailed r.1.1 r.1.2, r.2.rehash.emit (.modelChanged none)) := by
  have hunlisted : (collectFiles files.disk
      (st.registry.projects.values.flatMap Project.folders)).2 = [] := by
    simp [collectFiles, Disk.filesBelow, FileMap.disk]
  rw [loadMissing_apply, hunlisted]
  rfl

/-- **All NED files that were missing are loaded.** -/
theorem loads_missing (files : FileMap) (provider : Provider) {st : State}
    (hst : st.store.WellFormed) :
    (∃ n, ((loadMissing : Plain (Except WorkspaceError Nat)) ⟨files.disk, provider⟩ st).1 = .ok n) ∧
      Loads files st.registry.isNedFile st
        ((loadMissing : Plain (Except WorkspaceError Nat)) ⟨files.disk, provider⟩ st).2 := by
  obtain ⟨herrors, hloads⟩ := loads_each
    (fun p (hp : p ∈ st.missing files) => contains_of_mem_missing hp) ⟨files.disk, provider⟩ hst
  have hwanted : ∀ path, st.textAt? path = none →
      (if (st.missing files).any (fun p => compare p path == .eq) then files.get? path else none) =
        if st.registry.isNedFile path then files.get? path else none := by
    intro path hnone
    rw [any_missing hnone]
    cases hheld : files.get? path with
    | none => simp
    | some text => simp [SortedMap.contains, hheld]
  rw [loadMissing_eq]
  generalize (loadEach _ : Plain (Nat × List WorkspaceError)) _ st = r at herrors hloads ⊢
  split
  · rename_i hempty
    rw [List.isEmpty_iff.mp hempty] at hwanted
    exact ⟨⟨0, rfl⟩, (Loads.refl hst).congr rfl rfl hwanted⟩
  · refine ⟨⟨r.1.1, ?_⟩, hloads.congr (store_rehash r.2) (registry_rehash r.2) hwanted⟩
    change countUnlessFailed r.1.1 r.1.2 = _
    rw [herrors]
    rfl

/-- New projects are taken over without failure, and then the state is in step with the disk, if the
files that were loaded were. -/
theorem inStep_reconfigureAndLoad {files : FileMap} {provider : Provider}
    {configs : List ProjectConfig} (hprovider : provider.projects files.disk = .ok configs)
    {st : State} (hst : st.store.WellFormed) (hloaded : ∀ path text, st.hasEditor path = false →
      st.textAt? path = some text → files.get? path = some text) :
    ((reconfigureAndLoad : Plain (List WorkspaceError)) ⟨files.disk, provider⟩ st).1 = [] ∧
      ((reconfigureAndLoad : Plain (List WorkspaceError)) ⟨files.disk, provider⟩
        st).2.registry.projects = (Registry.ofConfigs configs).projects ∧
      ((reconfigureAndLoad : Plain (List WorkspaceError)) ⟨files.disk, provider⟩ st).2.InStep files := by
  have hwf := wellFormed_reconfigure hst configs
  obtain ⟨⟨n, hn⟩, hloads⟩ := loads_missing files provider hwf
  rw [registry_reconfigure] at hloads
  have hrun : (reconfigureAndLoad : Plain (List WorkspaceError)) ⟨files.disk, provider⟩ st =
      ([], ((loadMissing : Plain (Except WorkspaceError Nat)) ⟨files.disk, provider⟩
        (st.reconfigure configs)).2) := by
    rw [reconfigureAndLoad_apply, hprovider]
    dsimp only
    rw [hn]
    rfl
  rw [hrun]
  refine ⟨rfl, ?_, fun path hidle => ?_⟩
  · rw [hloads.projects, registry_reconfigure]
  · unfold InStepAt
    rw [Registry.isNedFile_congr hloads.projects path, registry_reconfigure, hloads.textAt? path]
    rw [hloads.hasEditor path] at hidle
    unfold State.hasEditor at hidle
    unfold textAt?
    rw [at?_reconfigure hst] at hidle ⊢
    cases hned : (Registry.ofConfigs configs).isNedFile path with
    | false => simp
    | true =>
      simp only [hned, if_true] at hidle ⊢
      cases hat : st.store.at? path with
      | none => rfl
      | some f =>
        rw [hloaded path f.text hidle (congrArg (Option.map SourceFile.text) hat)]
        rfl

/-! ### One change after another -/

/-- What becomes of a path when a change is taken over. -/
structure Takes (files : FileMap) (c : DiskChange) (st st' : State) : Prop where
  wellFormed : st'.store.WellFormed
  projects : st'.registry.projects = st.registry.projects
  /-- A path that is left alone is not named, or in the hands of an editor, or not that of a NED
  file; any other path is in step. -/
  at? : ∀ path, (st'.store.at? path = st.store.at? path ∧
      (c.Names path → st.hasEditor path = true ∨ st.registry.isNedFile path = false)) ∨
    (st'.hasEditor path = false ∧ st'.InStepAt files path)

/-- A change that is none of the workspace's business leaves it. -/
theorem takes_refl {files : FileMap} {c : DiskChange} {st : State} (hst : st.store.WellFormed)
    (h : ∀ path, c.Names path → st.hasEditor path = true ∨ st.registry.isNedFile path = false) :
    Takes files c st st :=
  ⟨hst, rfl, fun path => .inl ⟨rfl, h path⟩⟩

/-- A file that was added or changed is read. -/
theorem takes_read {files : FileMap} (provider : Provider) {c : DiskChange} {q : Path}
    (hc : c = .added q ∨ c = .changed q) (hheld : files.contains q = true) {st : State}
    (hst : st.store.WellFormed) :
    ((applyChange c : Plain (List WorkspaceError)) ⟨files.disk, provider⟩ st).1 = [] ∧
      Takes files c st
        ((applyChange c : Plain (List WorkspaceError)) ⟨files.disk, provider⟩ st).2 := by
  obtain ⟨text, htext⟩ := FileMap.contains_iff_get?.mp hheld
  have hnamed : ∀ {path}, c.Names path → compare q path = .eq := by
    intro path hnames
    obtain ⟨p, hp, hpath⟩ := DiskChange.names_iff.mp hnames
    rcases hc with rfl | rfl
    · exact Option.some.inj hp ▸ hpath
    · exact Option.some.inj hp ▸ hpath
  have hrun : (applyChange c : Plain (List WorkspaceError)) ⟨files.disk, provider⟩ st =
      ([], if st.registry.isNedFile q && !st.hasEditor q then
        (st.applyParse q text (Parse.ofText text)).2 else st) := by
    rw [applyChange_read _ st hc]
    dsimp only
    rw [FileMap.textOf_disk htext]
    split
    · rfl
    · rfl
  rw [hrun]
  refine ⟨rfl, ?_⟩
  split
  · rename_i hread
    obtain ⟨hned, hidle⟩ : st.registry.isNedFile q = true ∧ st.hasEditor q = false := by
      simpa using hread
    have hregistry := st.registry_applyParse q text (Parse.ofText text)
    have htexts := textAt?_applyParse hst q text (Parse.ofText text)
    refine ⟨?_, congrArg Registry.projects hregistry, fun path => ?_⟩
    · rw [store_applyParse]
      exact hst.give q text _
    · by_cases hpath : compare q path = .eq
      · refine .inr ⟨?_, ?_⟩
        · rw [hasEditor_applyParse hst, hasEditor_of_compare hpath, hidle]
        · unfold InStepAt
          rw [htexts, if_pos hpath, hregistry, ← Registry.isNedFile_of_compare _ hpath, hned, if_pos rfl,
            ← files.get?_congr hpath, htext]
      · refine .inl ⟨?_, fun hnames => absurd (hnamed hnames) hpath⟩
        rw [store_applyParse, hst.at?_give, if_neg hpath]
  · rename_i hskip
    refine takes_refl hst fun path hnames => ?_
    rw [hasEditor_of_compare (hnamed hnames), ← Registry.isNedFile_of_compare _ (hnamed hnames)]
    cases hned : st.registry.isNedFile q with
    | false => exact .inr rfl
    | true => exact .inl (by simpa [hned] using hskip)

/-- A file that was removed is forgotten. -/
theorem takes_removed {files : FileMap} {q : Path} (hgone : files.contains q = false) {st : State}
    (hst : st.store.WellFormed) : Takes files (.removed q) st (st.forget q).2 := by
  have hstore := store_forget hst q
  have hregistry := st.registry_forget q
  have hat : ∀ path, (st.forget q).2.store.at? path =
      if compare q path = .eq then none else st.store.at? path := by
    intro path
    rw [hstore, hst.at?_remove]
  refine ⟨hstore ▸ hst.remove q, congrArg Registry.projects hregistry, fun path => ?_⟩
  by_cases hpath : compare q path = .eq
  · have hnone : (st.forget q).2.store.at? path = none := by rw [hat, if_pos hpath]
    refine .inr ⟨hasEditor_of_at?_none hnone, ?_⟩
    have hheld : files.get? path = none := by
      rw [← files.get?_congr hpath]
      simpa [SortedMap.contains] using hgone
    unfold InStepAt textAt?
    rw [hnone, hheld]
    simp
  · refine .inl ⟨by rw [hat, if_neg hpath], ?_⟩
    intro hnames
    obtain ⟨p, hp, hnamed⟩ := DiskChange.names_iff.mp hnames
    exact absurd (Option.some.inj hp ▸ hnamed) hpath

/-- A change that tells the truth is taken over without failure. -/
theorem takes_applyChange {files : FileMap} (provider : Provider) {c : DiskChange}
    (hfits : c.Fits files) {st : State} (hst : st.store.WellFormed) :
    ((applyChange c : Plain (List WorkspaceError)) ⟨files.disk, provider⟩ st).1 = [] ∧
      Takes files c st ((applyChange c : Plain (List WorkspaceError)) ⟨files.disk, provider⟩ st).2 := by
  cases c with
  | added q => exact takes_read provider (.inl rfl) hfits hst
  | changed q => exact takes_read provider (.inr rfl) hfits hst
  | removed q => exact ⟨rfl, takes_removed hfits hst⟩
  | projects => exact ⟨rfl, takes_refl hst fun path hnames => absurd hnames Bool.false_ne_true⟩

/-- In the middle of a batch: a path is in step with the new disk, or it is in step with the old one
and a change that names it is still to come. -/
def Catching (before now : FileMap) (changes : List DiskChange) (st : State) : Prop :=
  ∀ path, st.hasEditor path = false → st.InStepAt now path ∨
    (st.InStepAt before path ∧ ∃ c ∈ changes, c.Names path)

/-- A state in step with the disk before has just the changes told to catch up with. -/
theorem InStep.catching {before now : FileMap} {st : State} (h : st.InStep before)
    {changes : List DiskChange} (htells : DiskChange.Tells before now changes) :
    st.Catching before now changes := by
  intro path hidle
  have hold := h path hidle
  by_cases hsame : before.get? path = now.get? path
  · refine .inl ?_
    unfold InStepAt at hold ⊢
    rwa [hsame] at hold
  · exact .inr ⟨hold, htells.named path hsame⟩

/-- **A change that was taken over need not be waited for any more.** -/
theorem Catching.takes {before now : FileMap} {c : DiskChange} {changes : List DiskChange}
    {st st' : State} (h : st.Catching before now (c :: changes)) (hc : Takes now c st st') :
    st'.Catching before now changes := by
  intro path hidle
  rcases hc.at? path with ⟨hat, hleft⟩ | ⟨_, hstep⟩
  · rw [hasEditor_congr hat] at hidle
    rcases h path hidle with hstep | ⟨hstep, d, hd, hnames⟩
    · exact .inl (hstep.congr hat hc.projects)
    · rcases List.mem_cons.mp hd with rfl | hd
      · -- The change left the path alone, so it is not the path of a NED file.
        have hned : st.registry.isNedFile path = false := by
          rcases hleft hnames with hedited | hned
          · exact absurd hedited (by simp [hidle])
          · exact hned
        refine .inl (InStepAt.congr ?_ hat hc.projects)
        unfold InStepAt at hstep ⊢
        rw [hned] at hstep ⊢
        exact hstep
      · exact .inr ⟨hstep.congr hat hc.projects, d, hd, hnames⟩
  · exact .inl hstep

/-- Change by change the state catches up with the disk. -/
theorem inStep_applyEach {before now : FileMap} (provider : Provider) {changes : List DiskChange}
    (hfits : ∀ c ∈ changes, c.Fits now) {st : State} (hst : st.store.WellFormed)
    (h : st.Catching before now changes) :
    ((applyEach changes : Plain (List WorkspaceError)) ⟨now.disk, provider⟩ st).1 = [] ∧
      ((applyEach changes : Plain (List WorkspaceError)) ⟨now.disk, provider⟩ st).2.store.WellFormed ∧
      ((applyEach changes : Plain (List WorkspaceError)) ⟨now.disk, provider⟩
        st).2.registry.projects = st.registry.projects ∧
      ((applyEach changes : Plain (List WorkspaceError)) ⟨now.disk, provider⟩ st).2.InStep now := by
  induction changes generalizing st with
  | nil =>
    refine ⟨rfl, hst, rfl, fun path hidle => ?_⟩
    rcases h path hidle with hstep | ⟨_, c, hc, _⟩
    · exact hstep
    · exact absurd hc List.not_mem_nil
  | cons c changes ih =>
    obtain ⟨herror, htakes⟩ := takes_applyChange provider (hfits c List.mem_cons_self) hst
    obtain ⟨herrors, hwf, hprojects, hstep⟩ := ih (fun d hd => hfits d (List.mem_cons_of_mem c hd))
      htakes.wellFormed (h.takes htakes)
    refine ⟨?_, hwf, hprojects.trans htakes.projects, hstep⟩
    exact (congrArg₂ (· ++ ·) herror herrors).trans rfl

/-! ### The whole batch -/

/-- A batch is applied in brackets and settled once. -/
theorem applyChanges_eq {changes : List DiskChange} (hne : changes ≠ []) (s : Surroundings)
    (st : State) : (applyChanges changes : Plain (Except WorkspaceError Unit)) s st =
      let read := (applyEach changes : Plain (List WorkspaceError)) s (st.emit .began)
      let configured := if changes.any DiskChange.touchesProjects then
        (reconfigureAndLoad : Plain (List WorkspaceError)) s read.2 else ([], read.2)
      (WorkspaceError.ofList (read.1 ++ configured.1), configured.2.rehash.emit .ended) := by
  unfold applyChanges
  rw [if_neg (by simpa using hne)]
  cases changes.any DiskChange.touchesProjects with
  | false => rfl
  | true => rfl

/-- **A batch that names all that changed brings a state in step with the disk.** Take any state in
step with a disk, and any other disk. Let a batch name every path that differs, whatever the order and
however often, and let it tell the truth: what is added or changed is on the new disk, and what is
removed is not. Let the projects come from a list, or from a list and the descriptions on the disk, and
let those of the state be up to date before the batch, or the batch have to do with projects. Then the
batch is taken over without failure, the projects are up to date, and the state is in step with the new
disk. -/
theorem inStep_applyChanges {st : State} (hst : st.Reachable) {before now : FileMap}
    (hstep : st.InStep before) {changes : List DiskChange}
    (htells : DiskChange.Tells before now changes) {provider : Provider} {list : List ProjectConfig}
    (hprovider : provider = .fixed list ∨ provider = .nedfolders list)
    (hprojects : st.ConfiguredBy provider before ∨ changes.any DiskChange.touchesProjects = true) :
    let out := (applyChanges changes : Plain (Except WorkspaceError Unit)) ⟨now.disk, provider⟩ st
    out.1 = .ok () ∧ out.2.ConfiguredBy provider now ∧ out.2.InStep now := by
  intro out
  have hbegan : (st.emit .began).InStep before := hstep.congr rfl rfl
  obtain ⟨hread, hwf, hkept, hcaught⟩ := inStep_applyEach provider htells.fits
    (show (st.emit .began).store.WellFormed from hst.kept.store) (hbegan.catching htells)
  have hnone : changes = [] → ((applyEach changes : Plain (List WorkspaceError)) ⟨now.disk, provider⟩
      (st.emit .began)).2 = st.emit .began := by
    rintro rfl
    rfl
  have hrun := fun hne : changes ≠ [] => applyChanges_eq hne ⟨now.disk, provider⟩ st
  dsimp only at hrun
  generalize (applyEach changes : Plain (List WorkspaceError)) _ (st.emit .began) = caught
    at hread hwf hkept hcaught hnone hrun
  cases htouches : changes.any DiskChange.touchesProjects with
  | true =>
    have hne : changes ≠ [] := by
      rintro rfl
      exact absurd htouches (by simp)
    obtain ⟨configs, hconfigs⟩ := Provider.exists_projects hprovider now.disk
    obtain ⟨herrors, hnew, hinStep⟩ := inStep_reconfigureAndLoad hconfigs hwf hcaught.held
    generalize (reconfigureAndLoad : Plain (List WorkspaceError)) _ caught.2 = configured
      at herrors hnew hinStep hrun
    have hout : out = (.ok (), configured.2.rehash.emit .ended) := by
      rw [htouches, hread, if_pos rfl, herrors] at hrun
      exact hrun hne
    rw [hout]
    exact ⟨rfl, ⟨configs, hconfigs, (registry_rehash _).trans hnew⟩,
      hinStep.congr (store_rehash _) (registry_rehash _)⟩
  | false =>
    obtain ⟨configs, hconfigs, hcurrent⟩ := hprojects.resolve_right (by simp [htouches])
    have hsame := Provider.projects_eq_of_untouched hprovider htells htouches
    rw [hconfigs] at hsame
    have hout : out.1 = .ok () ∧ out.2.store = caught.2.store ∧
        out.2.registry.projects = caught.2.registry.projects := by
      by_cases hne : changes = []
      · rw [hnone hne]
        subst hne
        exact ⟨rfl, rfl, rfl⟩
      · have hrest : out = (.ok (), caught.2.rehash.emit .ended) := by
          rw [htouches, hread, if_neg Bool.false_ne_true] at hrun
          exact hrun hne
        rw [hrest]
        exact ⟨rfl, store_rehash _, registry_rehash _⟩
    exact ⟨hout.1, ⟨configs, hsame, hout.2.2.trans (hkept.trans hcurrent)⟩,
      hcaught.congr hout.2.1 hout.2.2⟩

/-- A workspace that begins with nothing takes over two files, then that one of them changed and the
other went, told twice and the other way round. -/
theorem inStep_applyChanges_twice :
    let provider : Provider := .nedfolders [⟨"p", ⟨"/p"⟩, [⟨""⟩], []⟩]
    let first : FileMap := SortedMap.insert (SortedMap.insert {} ⟨"/p/a.ned"⟩ "simple A {}")
      ⟨"/p/b.ned"⟩ "simple B {}"
    let second : FileMap := SortedMap.insert {} ⟨"/p/a.ned"⟩ "simple C {}"
    let st := ((applyChanges [.added ⟨"/p/b.ned"⟩, .projects, .added ⟨"/p/a.ned"⟩] :
      Plain (Except WorkspaceError Unit)) ⟨first.disk, provider⟩ {}).2
    let out := (applyChanges [.removed ⟨"/p/b.ned"⟩, .changed ⟨"/p/a.ned"⟩, .removed ⟨"/p/b.ned"⟩] :
      Plain (Except WorkspaceError Unit)) ⟨second.disk, provider⟩ st
    st.InStep first ∧ st.textAt? ⟨"/p/a.ned"⟩ = some "simple A {}" ∧ out.1 = .ok () ∧
      out.2.ConfiguredBy provider second ∧ out.2.InStep second := by
  intro provider first second st out
  have hempty : ({} : State).InStep {} := by
    intro path _
    change none = if _ then none else none
    rw [ite_self]
  have hreachable : st.Reachable := Plain.steps (applyChanges_keeps _) _ _
  let list : List ProjectConfig := [⟨"p", ⟨"/p"⟩, [⟨""⟩], []⟩]
  have hprovider : provider = .fixed list ∨ provider = .nedfolders list := .inr rfl
  have hfirst : DiskChange.Tells {} first
      [.added ⟨"/p/b.ned"⟩, .projects, .added ⟨"/p/a.ned"⟩] := by decide +kernel
  have hsecond : DiskChange.Tells first second
      [.removed ⟨"/p/b.ned"⟩, .changed ⟨"/p/a.ned"⟩, .removed ⟨"/p/b.ned"⟩] := by decide +kernel
  obtain ⟨_, hconfigured, hst⟩ := inStep_applyChanges .refl hempty hfirst hprovider (.inr rfl)
  obtain ⟨hok, hout⟩ := inStep_applyChanges hreachable hst hsecond hprovider (.inl hconfigured)
  exact ⟨hst, by decide +kernel, hok, hout⟩

/-- **A description of projects that changed unnoticed stays unnoticed.** A state configured while the
project had no description is in step with a disk that has one but no file. When a file is added outside
the source folder that the description names, the batch names all that changed and tells the truth, and
yet the file is loaded. -/
theorem stale_projects_stay :
    let provider : Provider := .nedfolders [⟨"p", ⟨"/p"⟩, [⟨""⟩], []⟩]
    let before : FileMap := SortedMap.insert {} ⟨"/p/.nedfolders"⟩ "src"
    let now : FileMap := before.insert ⟨"/p/a.ned"⟩ "simple A {}"
    let st := ((Engine.reconfigure : Plain (Except WorkspaceError Unit))
      ⟨FileMap.disk {}, provider⟩ {}).2
    let out := (applyChanges [.added ⟨"/p/a.ned"⟩] : Plain (Except WorkspaceError Unit))
      ⟨now.disk, provider⟩ st
    st.Reachable ∧ st.InStep before ∧ DiskChange.Tells before now [.added ⟨"/p/a.ned"⟩] ∧
      ¬∃ configs, provider.projects now.disk = .ok configs ∧
        ∀ path, out.2.hasEditor path = false → out.2.textAt? path =
          if (Registry.ofConfigs configs).isNedFile path then now.get? path else none := by
  intro provider before now st out
  refine ⟨Plain.steps reconfigure_keeps _ _, fun path _ => ?_, by decide +kernel, ?_⟩
  · -- Nothing is loaded, and all that the disk holds is the description.
    change none = if st.registry.isNedFile path then before.get? path else none
    by_cases hpath : compare ⟨"/p/.nedfolders"⟩ path = .eq
    · have hned : st.registry.isNedFile ⟨"/p/.nedfolders"⟩ = false := by decide +kernel
      rw [← Registry.isNedFile_of_compare _ hpath, hned]
      rfl
    · rw [SortedMap.get?_insert, if_neg hpath]
      exact (ite_self _).symm
  · rintro ⟨configs, hconfigs, hstep⟩
    have hsrc : provider.projects now.disk = .ok [⟨"p", ⟨"/p"⟩, [⟨"src"⟩], []⟩] := rfl
    obtain rfl : [⟨"p", ⟨"/p"⟩, [⟨"src"⟩], []⟩] = configs := by
      rw [hsrc] at hconfigs
      exact Except.ok.inj hconfigs
    have hloaded := hstep ⟨"/p/a.ned"⟩ (by decide +kernel)
    have htext : out.2.textAt? ⟨"/p/a.ned"⟩ = some "simple A {}" := by decide +kernel
    have hned : (Registry.ofConfigs [⟨"p", ⟨"/p"⟩, [⟨"src"⟩], []⟩]).isNedFile ⟨"/p/a.ned"⟩ = false := by
      decide +kernel
    rw [htext, hned] at hloaded
    exact absurd hloaded (by simp)

end State

end NedWorkspace
