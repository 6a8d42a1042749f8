/-
# The index holds the loaded files

Every scope of the index belongs to a loaded file or to the built-in declarations
(`State.Reachable.indexed`). Together with `State.Kept` this says where all definitions come from: each
is that of a declaration in a numbered tree (`State.Kept.scope_eq`).
-/

import NedWorkspace.Proofs.Definition.Build
import NedWorkspace.Proofs.Workspace.Twin

namespace NedWorkspace
namespace State

/-- No file that is not loaded has definitions, the built-in declarations apart. -/
def Indexed (st : State) : Prop :=
  ∀ id, (st.index.file? id).isSome = true → id = .builtin ∨ id ∈ st.store.all.map SourceFile.id

variable {st s : State}

theorem indexed_init : Indexed {} := by
  intro id hid
  left
  by_contra hne
  have hnone : ({} : State).index.file? id = none :=
    (DefinitionIndex.file?_setFile ..).trans (if_neg hne)
  rw [hnone] at hid
  exact absurd hid (by simp)

/-- Scopes may go and files may come. -/
theorem Indexed.mono (h : st.Indexed)
    (hindex : ∀ id, (s.index.file? id).isSome = true → (st.index.file? id).isSome = true)
    (hids : st.store.all.map SourceFile.id ⊆ s.store.all.map SourceFile.id) : s.Indexed :=
  fun id hid => (h id (hindex id hid)).imp_right fun hmem => hids hmem

/-- Scopes and files agree as long as neither changes. -/
theorem Indexed.congr (h : st.Indexed) (hindex : s.index = st.index)
    (hids : s.store.all.map SourceFile.id = st.store.all.map SourceFile.id) : s.Indexed :=
  h.mono (fun _ hid => hindex ▸ hid) (hids ▸ List.Subset.refl _)

/-- A file that keeps its number leaves its scope. -/
theorem Indexed.update (h : st.Indexed) (hstore : st.store.WellFormed) {path : Path}
    {f g : SourceFile} (hat : st.store.at? path = some f) (hnumber : g.number = f.number) :
    Indexed { st with store := st.store.update g } :=
  h.congr rfl (hstore.map_all_update hat hnumber (congrArg FileId.source hnumber))

/-- The definitions of a loaded file are built. -/
theorem Indexed.indexFile (h : st.Indexed) {f : SourceFile}
    (hf : f.id ∈ st.store.all.map SourceFile.id) : (st.indexFile f).Indexed := by
  intro id hid
  by_cases heq : id = f.id
  · exact .inr (heq ▸ hf)
  · have hfile : (st.indexFile f).index.file? id = st.index.file? id :=
      (DefinitionIndex.file?_setFile ..).trans (if_neg heq)
    exact h id (hfile ▸ hid)

/-- A new file has its scope. -/
theorem Indexed.loadNew (h : st.Indexed) (hstore : st.store.WellFormed) {path : Path}
    (hat : st.store.at? path = none) (text : String) (parse : Parse) :
    (st.loadNew path text parse).2.Indexed := by
  have hperm := (hstore.all_add_perm hat text parse).map SourceFile.id
  set added := st.store.add path text parse with hadded
  have hgrown : Indexed { st with store := added.2 } :=
    h.mono (fun _ hid => hid) fun id hid => hperm.mem_iff.mpr (List.mem_cons_of_mem _ hid)
  exact (hgrown.indexFile (f := added.1) (hperm.mem_iff.mpr List.mem_cons_self)).congr rfl rfl

/-- A text with errors leaves the scope. -/
theorem Indexed.applyBroken (h : st.Indexed) (hstore : st.store.WellFormed) {path : Path}
    {f : SourceFile} (hat : st.store.at? path = some f) (text : String) (errors : List SyntaxError) :
    (st.applyBroken f text errors).Indexed := by
  have hupdated := h.update hstore (g := { f with text, errors, broken := true }) hat rfl
  unfold State.applyBroken
  dsimp only
  split
  · exact hupdated
  · exact hupdated.congr rfl rfl

theorem Indexed.remap (h : st.Indexed) (f : SourceFile) : (st.remap f).Indexed := by
  obtain ⟨events, diagnostics, heq⟩ := remap_eq st f
  rw [heq]
  exact h.congr rfl rfl

/-- A text that parses replaces the scope. -/
theorem Indexed.applyClean (h : st.Indexed) (hstore : st.store.WellFormed) {path : Path}
    {f : SourceFile} (hat : st.store.at? path = some f) (text : String) (tree : Tree) :
    (st.applyClean f text tree).Indexed := by
  unfold State.applyClean
  dsimp only
  set now := { f with text, errors := [], broken := false, tree := (f.tree.merge tree).tree } with hnow
  have hupdated := h.update hstore (g := now) hat rfl
  have hids : (st.store.update now).all.map SourceFile.id = st.store.all.map SourceFile.id :=
    hstore.map_all_update hat (g := now) rfl rfl
  have hmem : now.id ∈ (st.store.update now).all.map SourceFile.id := by
    rw [hids]
    exact List.mem_map.mpr ⟨f, SourceStore.mem_of_at? hat, rfl⟩
  split
  · have hbuilt := (hupdated.congr (s := { st with store := st.store.update now }.emit .began)
      rfl rfl).indexFile (f := now) hmem
    have hlater := (hbuilt.congr (s := (((({ st with store := st.store.update now }.emit
      .began).indexFile now).invalidate.emit (.treeMerged f.id)))) rfl rfl).remap now
    exact hlater.congr rfl rfl
  · have hlater := hupdated.remap now
    split
    · exact hlater.congr rfl rfl
    · exact hlater

/-- A file and its scope go together. -/
theorem Indexed.forget (h : st.Indexed) (hstore : st.store.WellFormed) (path : Path) :
    (st.forget path).2.Indexed := by
  unfold State.forget
  cases hat : st.store.at? path with
  | none => exact h
  | some f =>
    intro id hid
    have hfile : (st.index.removeFile f.id).file? id = _ := DefinitionIndex.file?_removeFile ..
    have hsome : ((st.index.removeFile f.id).file? id).isSome = true := hid
    rw [hfile] at hsome
    split at hsome
    · exact absurd hsome (by simp)
    · rename_i hne
      refine (h id hsome).imp_right fun hmem => ?_
      obtain ⟨x, hx, rfl⟩ := List.mem_map.mp hmem
      refine List.mem_map_of_mem (hstore.mem_remove_iff.mpr ⟨hx, fun hpath => hne ?_⟩)
      rw [hstore.at?_of_mem hx hpath] at hat
      exact congrArg SourceFile.id (Option.some.inj hat)

theorem Indexed.forgetEach (h : st.Indexed) (hkept : st.Kept) (paths : List Path) :
    (st.forgetEach paths).Indexed := by
  induction paths generalizing st with
  | nil => exact h
  | cons path paths ih => exact ih (h.forget hkept.store path) (hkept.forget path)

/-- Files of no project go, and their scopes with them. -/
theorem Indexed.reconfigure (h : st.Indexed) (hkept : st.Kept) (configs : List ProjectConfig) :
    (st.reconfigure configs).Indexed := by
  have hfile := DefinitionIndex.file?_foldl_setProject st.store.all
    (fun f => (Registry.ofConfigs configs).owner? f.path) hkept.store.nodup st.index
  have howned : ({ st with registry := .ofConfigs configs }.assignOwners).Indexed := by
    refine h.mono (fun id hid => ?_) (List.Subset.refl _)
    have hsome : ((st.store.all.foldl (fun index f =>
      index.setProject f.id ((Registry.ofConfigs configs).owner? f.path)) st.index).file? id).isSome
        = true := hid
    rw [hfile] at hsome
    split at hsome
    · simpa using hsome
    · exact hsome
  have hforgot := (howned.congr (s := ({ st with registry := .ofConfigs configs
    }.assignOwners).emit .began) rfl rfl).forgetEach ((hkept.assignOwners configs).congr rfl rfl rfl)
      (st.store.paths.filter fun p => !(Registry.ofConfigs configs).isNedFile p)
  exact hforgot.congr rfl rfl

/-- **Every step keeps the index to the loaded files.** -/
theorem Indexed.step {asking : Prop} (hs : Step asking st s) (hkept : st.Kept) (h : st.Indexed) :
    s.Indexed := by
  cases hs with
  | noted events diagnostics => exact h.congr rfl rfl
  | edited hat editors => exact h.update hkept.store hat rfl
  | loaded hat text => exact h.loadNew hkept.store hat text _
  | broken hat hok => exact h.applyBroken hkept.store hat _ _
  | cleaned hat hok => exact h.applyClean hkept.store hat _ _
  | forgot path => exact h.forget hkept.store path
  | configured configs => exact h.reconfigure hkept configs
  | invalidated => exact h.congr rfl rfl
  | rehashed => exact h.congr (index_rehash st) (by rw [store_rehash])
  | asked hasking hdirty hm => exact h.congr rfl rfl

/-- Whatever happened, exactly the files that are stored have scopes. -/
theorem Reachable.indexed (h : st.Reachable) : st.Indexed := by
  have hboth : st.Kept ∧ st.Indexed := h.invariant (I := fun st => st.Kept ∧ st.Indexed)
    ⟨kept_init, indexed_init⟩ fun _ _ hs hst => ⟨hst.1.step hs, hst.2.step hs hst.1⟩
  exact hboth.2

/-! ### Where definitions come from -/

/-- Every scope is that of a tree whose nodes have numbers of their own. -/
theorem Kept.scope_eq (hkept : st.Kept) (hindexed : st.Indexed) {id : FileId} {scope : FileScope}
    (h : st.index.file? id = some scope) : ∃ edition tree project,
      scope = FileScope.ofTree id edition tree project ∧ tree.ids.Nodup := by
  rcases hindexed id (by rw [h]; rfl) with rfl | hmem
  · rw [hkept.builtin] at h
    obtain rfl := Option.some.inj h
    exact ⟨0, Builtin.tree, none, rfl, (Tree.numbered_ofText Builtin.text).1⟩
  · obtain ⟨f, hf, rfl⟩ := List.mem_map.mp hmem
    obtain ⟨edition, tree, hfile, htree⟩ := (hkept.files f hf).indexed
    rw [hfile] at h
    obtain rfl := Option.some.inj h
    refine ⟨edition, tree, _, rfl, ?_⟩
    rw [Tree.ids_of_unplaced htree]
    exact (hkept.files f hf).numbered.1

end State
end NedWorkspace
