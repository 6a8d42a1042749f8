/-
# What holds of every state

`State.Kept` relates all that a state holds of a file to the file's text: the tree says what the text
says, the index was built from a tree with the same nodes, and the owner is the one that the projects
give. Every step keeps it (`State.Kept.step`), although not every step touches the index: a text that
moves nodes and changes nothing else leaves it as it is.
-/

import NedWorkspace.Proofs.Definition.Build
import NedWorkspace.Proofs.Project.Registry
import NedWorkspace.Proofs.Workspace.Run
import NedWorkspace.Proofs.Workspace.Store

namespace NedWorkspace

namespace DefinitionIndex

/-- Giving files to projects changes the owner of each and nothing else. -/
theorem file?_foldl_setProject (fs : List SourceFile) (owner : SourceFile → Option String)
    (hnodup : (fs.map SourceFile.number).Nodup) (index : DefinitionIndex) (id : FileId) :
    (fs.foldl (fun index f => index.setProject f.id (owner f)) index).file? id =
      match fs.find? fun f => decide (f.id = id) with
      | some f => (index.file? id).map fun scope => { scope with project := owner f }
      | none => index.file? id := by
  induction fs generalizing index with
  | nil => rfl
  | cons f fs ih =>
    rw [List.map_cons, List.nodup_cons] at hnodup
    rw [List.foldl_cons, ih hnodup.2, file?_setProject]
    by_cases hid : id = f.id
    · have hrest : fs.find? (fun g => decide (g.id = id)) = none := by
        refine List.find?_eq_none.mpr fun g hg hgid => hnodup.1 ?_
        have hnumber : g.number = f.number :=
          FileId.source.inj ((of_decide_eq_true hgid).trans hid)
        exact hnumber ▸ List.mem_map_of_mem hg
      rw [hrest, if_pos hid, List.find?_cons_of_pos (by simp [hid]), hid]
    · rw [if_neg hid, List.find?_cons_of_neg (by simpa using fun h => hid h.symm)]

/-- Giving files to projects keeps the two maps of the index in line. -/
theorem WellFormed.foldl_setProject {index : DefinitionIndex} (h : index.WellFormed)
    (fs : List SourceFile) (owner : SourceFile → Option String) :
    (fs.foldl (fun index f => index.setProject f.id (owner f)) index).WellFormed := by
  induction fs generalizing index with
  | nil => exact h
  | cons f fs ih => exact ih (h.setProject f.id (owner f))

end DefinitionIndex

namespace State

/-- What an index and the projects say of a loaded file fits its text. -/
structure KeptFile (index : DefinitionIndex) (registry : Registry) (f : SourceFile) : Prop where
  broken : f.broken = !(Parse.ofText f.text).ok
  tree : f.broken = false → f.tree.unnumbered = (Parse.ofText f.text).tree.unnumbered
  numbered : f.tree.Numbered
  /-- The definitions were built from a tree with the nodes of the present one, perhaps at other
  places. -/
  indexed : ∃ edition t, index.file? f.id =
    some (FileScope.ofTree f.id edition t (registry.owner? f.path)) ∧ t.unplaced = f.tree.unplaced

/-- What every step keeps. -/
structure Kept (st : State) : Prop where
  store : st.store.WellFormed
  index : st.index.WellFormed
  files : ∀ f ∈ st.store.all, KeptFile st.index st.registry f
  builtin : st.index.file? .builtin = some (FileScope.ofTree .builtin 0 Builtin.tree none)
  configured : ∃ configs, st.registry.projects = (Registry.ofConfigs configs).projects

/-- At the beginning there is nothing to keep. -/
theorem kept_init : Kept {} where
  store := SourceStore.wellFormed_empty
  index := DefinitionIndex.wellFormed_seeded
  files := by simp [SourceStore.all, SortedMap.values]
  builtin := (DefinitionIndex.file?_setFile ..).trans (if_pos rfl)
  configured := ⟨[], rfl⟩

variable {st : State}

/-- What a file needs of an index is what the index says of that file. -/
theorem KeptFile.of_file? {index index' : DefinitionIndex} {registry : Registry} {f : SourceFile}
    (h : KeptFile index registry f) (hfile : index'.file? f.id = index.file? f.id) :
    KeptFile index' registry f :=
  ⟨h.broken, h.tree, h.numbered, hfile ▸ h.indexed⟩

/-- A state with the same files, index and projects. -/
theorem Kept.congr (h : st.Kept) {s : State} (hstore : s.store = st.store)
    (hindex : s.index = st.index) (hprojects : s.registry.projects = st.registry.projects) :
    s.Kept := by
  refine ⟨hstore ▸ h.store, hindex ▸ h.index, fun f hf => ?_, hindex ▸ h.builtin,
    hprojects ▸ h.configured⟩
  have hkept := h.files f (hstore ▸ hf)
  refine ⟨hkept.broken, hkept.tree, hkept.numbered, ?_⟩
  rw [hindex, Registry.owner?_congr hprojects]
  exact hkept.indexed

/-- A file is replaced by one that fits the index. -/
theorem Kept.update (h : st.Kept) {path : Path} {f g : SourceFile} (hat : st.store.at? path = some f)
    (hpath : g.path = f.path) (hnumber : g.number = f.number)
    (hg : KeptFile st.index st.registry g) :
    Kept { st with store := st.store.update g } := by
  refine ⟨h.store.update hat hpath hnumber, h.index, fun x hx => ?_, h.builtin, h.configured⟩
  rcases h.store.mem_update hat hnumber hx with rfl | hx
  · exact hg
  · exact h.files x hx

/-- The definitions of one file are built anew, those of the others fit already. -/
theorem kept_indexFile {g : SourceFile} (hstore : st.store.WellFormed)
    (hindex : st.index.WellFormed) (hg : g ∈ st.store.all)
    (hothers : ∀ x ∈ st.store.all, x.id ≠ g.id → KeptFile st.index st.registry x)
    (hbuiltin : st.index.file? .builtin = some (FileScope.ofTree .builtin 0 Builtin.tree none))
    (hconfigured : ∃ configs, st.registry.projects = (Registry.ofConfigs configs).projects)
    (hbroken : g.broken = !(Parse.ofText g.text).ok)
    (htree : g.broken = false → g.tree.unnumbered = (Parse.ofText g.text).tree.unnumbered)
    (hnumbered : g.tree.Numbered) : (st.indexFile g).Kept := by
  refine ⟨hstore, hindex.build hnumbered.1, fun x hx => ?_, ?_, hconfigured⟩
  · by_cases hid : x.id = g.id
    · obtain rfl := hstore.eq_of_id hx hg hid
      refine ⟨hbroken, htree, hnumbered, st.index.nextEdition, x.tree, ?_, rfl⟩
      exact (DefinitionIndex.file?_setFile ..).trans (if_pos rfl)
    · refine (hothers x hx hid).of_file? ?_
      exact (DefinitionIndex.file?_setFile ..).trans (if_neg hid)
  · refine (DefinitionIndex.file?_setFile ..).trans ((if_neg ?_).trans hbuiltin)
    exact FileId.noConfusion

/-- The scope of a file that was just loaded. -/
theorem file?_loadNew (st : State) (path : Path) (text : String) (parse : Parse) :
    (st.loadNew path text parse).2.index.file? (.source st.store.nextNumber) =
      some (.ofTree (.source st.store.nextNumber) st.index.nextEdition parse.tree
        (st.registry.owner? path)) :=
  (DefinitionIndex.file?_setFile ..).trans (if_pos rfl)

/-- The types of a new file are those of its tree. -/
theorem fileTypes_loadNew (st : State) (path : Path) (text : String) (parse : Parse) :
    (st.loadNew path text parse).2.index.fileTypes (.source st.store.nextNumber) =
      (FileScope.ofTree (.source st.store.nextNumber) st.index.nextEdition parse.tree
        (st.registry.owner? path)).types := by
  rw [DefinitionIndex.fileTypes, file?_loadNew]

/-- A new file is kept as it was read. -/
theorem Kept.loadNew (h : st.Kept) {path : Path} (hat : st.store.at? path = none) (text : String) :
    (st.loadNew path text (Parse.ofText text)).2.Kept := by
  have hperm := h.store.all_add_perm hat text (Parse.ofText text)
  have hstore := h.store.add hat text (Parse.ofText text)
  set added := st.store.add path text (Parse.ofText text) with hadded
  have hkept : ({ st with store := added.2 }.indexFile added.1).Kept := by
    refine kept_indexFile hstore h.index (hperm.mem_iff.mpr List.mem_cons_self)
      (fun x hx hid => ?_) h.builtin h.configured rfl (fun _ => rfl) (Tree.numbered_ofText text)
    rcases List.mem_cons.mp (hperm.mem_iff.mp hx) with rfl | hx
    · exact absurd rfl hid
    · exact h.files x hx
  exact hkept.congr rfl rfl rfl

/-- A text with errors keeps tree and types from before. -/
theorem Kept.applyBroken (h : st.Kept) {path : Path} {f : SourceFile}
    (hat : st.store.at? path = some f) {text : String} (hok : (Parse.ofText text).ok = false) :
    (st.applyBroken f text (Parse.ofText text).errors).Kept := by
  have hf := h.files f (SourceStore.mem_of_at? hat)
  have hkept := h.update (g := { f with text, errors := (Parse.ofText text).errors, broken := true })
    hat rfl rfl ⟨by simp [hok], nofun, hf.numbered, hf.indexed⟩
  unfold State.applyBroken
  dsimp only
  split
  · exact hkept
  · exact hkept.congr rfl rfl rfl

/-- Moving diagnostics changes nothing but diagnostics, and queues events. -/
theorem remap_eq (st : State) (f : SourceFile) : ∃ queued diagnostics,
    st.remap f = { st with events := st.events ++ queued, diagnostics } := by
  unfold remap emitIf
  dsimp only
  split
  · exact ⟨_, _, rfl⟩
  · exact ⟨[], _, by rw [List.append_nil]⟩

theorem Kept.remap (h : st.Kept) (f : SourceFile) : (st.remap f).Kept := by
  obtain ⟨events, diagnostics, heq⟩ := remap_eq st f
  rw [heq]
  exact h.congr rfl rfl rfl

/-- A text that parses is kept with its tree and its types. -/
theorem Kept.applyClean (h : st.Kept) {path : Path} {f : SourceFile}
    (hat : st.store.at? path = some f) {text : String} (hok : (Parse.ofText text).ok = true) :
    (st.applyClean f text (Parse.ofText text).tree).Kept := by
  have hf := h.files f (SourceStore.mem_of_at? hat)
  obtain ⟨hunnumbered, hchanged, hunplaced⟩ := f.tree.merge_exact (Parse.ofText text).tree
  have hnumbered := hf.numbered.merge (Parse.ofText text).tree
  unfold State.applyClean
  dsimp only
  set merged := f.tree.merge (Parse.ofText text).tree with hmerged
  set now := { f with text, errors := [], broken := false, tree := merged.tree } with hnow
  have hbroken : now.broken = !(Parse.ofText now.text).ok := by simp [hnow, hok]
  split
  · -- The tree changed: the definitions are built anew.
    have hstore := h.store.update hat (g := now) rfl rfl
    have hmem := h.store.mem_update_self hat (g := now) rfl
    have hkept : (({ st with store := st.store.update now }.emit .began).indexFile now).Kept := by
      refine kept_indexFile hstore h.index hmem (fun x hx hid => ?_) h.builtin h.configured hbroken
        (fun _ => hunnumbered) hnumbered
      rcases h.store.mem_update hat (g := now) rfl hx with rfl | hx
      · exact absurd rfl hid
      · exact h.files x hx
    have hlater := (hkept.congr (s := (((({ st with store := st.store.update now }.emit
      .began).indexFile now).invalidate.emit (.treeMerged f.id)))) rfl rfl rfl).remap now
    exact hlater.congr rfl rfl rfl
  · -- Only places changed: the nodes are those that the definitions were built from.
    rename_i hsame
    obtain ⟨edition, t, hfile, ht⟩ := hf.indexed
    have hsame := (hunplaced (by simpa using hsame)).1
    have hkept := (h.update (g := now) hat rfl rfl ⟨hbroken, fun _ => hunnumbered, hnumbered,
      edition, t, hfile, ht.trans hsame.symm⟩).remap now
    split
    · exact hkept.congr rfl rfl rfl
    · exact hkept

/-- A file that is forgotten leaves the others as they are kept. -/
theorem Kept.forget (h : st.Kept) (path : Path) : (st.forget path).2.Kept := by
  unfold State.forget
  cases hat : st.store.at? path with
  | none => exact h
  | some f =>
    have hkept : Kept { st with store := st.store.remove path,
                                index := st.index.removeFile f.id } := by
      refine ⟨h.store.remove path, h.index.removeFile f.id, fun x hx => ?_, ?_, h.configured⟩
      · obtain ⟨hmem, hne⟩ := h.store.mem_remove_iff.mp hx
        have hid : x.id ≠ f.id := by
          intro heq
          obtain rfl := h.store.eq_of_id hmem (SourceStore.mem_of_at? hat) heq
          exact hne (h.store.compare_path hat)
        refine (h.files x hmem).of_file? ?_
        exact (DefinitionIndex.file?_removeFile ..).trans (if_neg hid)
      · refine (DefinitionIndex.file?_removeFile ..).trans ((if_neg ?_).trans h.builtin)
        exact FileId.noConfusion
    exact hkept.congr rfl rfl rfl

theorem Kept.forgetEach (h : st.Kept) (paths : List Path) : (st.forgetEach paths).Kept := by
  induction paths generalizing st with
  | nil => exact h
  | cons path paths ih => exact ih (h.forget path)

/-- Files are given to the projects of a new configuration. -/
theorem Kept.assignOwners (h : st.Kept) (configs : List ProjectConfig) :
    ({ st with registry := .ofConfigs configs }.assignOwners).Kept := by
  have hfile : ∀ id, (({ st with registry := .ofConfigs configs }).assignOwners).index.file? id
      = _ := fun id => DefinitionIndex.file?_foldl_setProject st.store.all
    (fun f => (Registry.ofConfigs configs).owner? f.path) h.store.nodup st.index id
  refine ⟨h.store, h.index.foldl_setProject st.store.all _, fun f hf => ?_, ?_, configs, rfl⟩
  · have hkept := h.files f hf
    obtain ⟨edition, t, hindexed, ht⟩ := hkept.indexed
    refine ⟨hkept.broken, hkept.tree, hkept.numbered, edition, t, ?_, ht⟩
    have hfound := (h.store.get?_eq_find? f.id).symm.trans (h.store.get?_of_mem hf)
    rw [hfile, hfound, hindexed]
    rfl
  · have hfound : st.store.all.find? (fun g => decide (g.id = .builtin)) = none :=
      List.find?_eq_none.mpr fun g _ hg => FileId.noConfusion (of_decide_eq_true hg)
    rw [hfile, hfound]
    exact h.builtin

/-- New projects keep the files that belong to them. -/
theorem Kept.reconfigure (h : st.Kept) (configs : List ProjectConfig) :
    (st.reconfigure configs).Kept := by
  have howned := h.assignOwners configs
  have hforgot := (howned.congr (s := ({ st with registry := .ofConfigs configs
    }.assignOwners).emit .began) rfl rfl rfl).forgetEach (st.store.paths.filter fun p =>
      !(Registry.ofConfigs configs).isNedFile p)
  exact hforgot.congr rfl rfl rfl

/-- Tables that are up to date are not computed again. -/
theorem rehash_of_fresh (h : st.dirty = false) : st.rehash = st :=
  if_neg (by simp [h])

/-- To rebuild tables changes no project. -/
theorem registry_rehash (st : State) : st.rehash.registry.projects = st.registry.projects := by
  unfold State.rehash
  split
  · rfl
  · rfl

theorem store_rehash (st : State) : st.rehash.store = st.store := by
  unfold State.rehash
  split
  · rfl
  · rfl

/-- Messages name files alike whether the tables are up to date or not. -/
theorem label_rehash (st : State) : st.rehash.label = st.label := by
  funext file
  unfold label
  rw [store_rehash]

theorem index_rehash (st : State) : st.rehash.index = st.index := by
  unfold State.rehash
  split
  · rfl
  · rfl

/-- **Every step keeps what a state holds of its files in line with their texts.** -/
theorem Kept.step {st' : State} {asking : Prop} (hs : Step asking st st') (h : st.Kept) : st'.Kept := by
  cases hs with
  | noted events diagnostics => exact h.congr rfl rfl rfl
  | @edited path f hat editors =>
    have hf := h.files f (SourceStore.mem_of_at? hat)
    exact h.update hat rfl rfl ⟨hf.broken, hf.tree, hf.numbered, hf.indexed⟩
  | loaded hat text => exact h.loadNew hat text
  | broken hat hok => exact h.applyBroken hat hok
  | cleaned hat hok => exact h.applyClean hat hok
  | forgot path => exact h.forget path
  | configured configs => exact h.reconfigure configs
  | invalidated => exact h.congr rfl rfl rfl
  | rehashed => exact h.congr (store_rehash st) (index_rehash st) (registry_rehash st)
  | asked hasking hdirty hm => exact h.congr rfl rfl rfl

/-- Whatever happened, files are kept with what was read from them. -/
theorem Reachable.kept (h : st.Reachable) : st.Kept :=
  h.invariant kept_init fun _ _ hs hst => hst.step hs

end State

end NedWorkspace
