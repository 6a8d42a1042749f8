/-
# The identity of files

SPEC_FULL, section 2: trees are keyed by file identity.

A loaded file goes by a path and by an id. In every reachable state the map from paths to ids and the map
from ids to files are inverse to each other, and what the index holds goes by the ids of the loaded files:
a scope for each, under the project that owns the file now, with the types of its tree, and the types of
the scopes under their keys (`State.Identified`).

An id is given when a file is loaded. `State.Issued ids st` says that some steps lead to the state and that
the loads among them gave these ids. They are the numbers from zero on, one after another
(`State.Issued.numbers`), so a file that is forgotten and loaded again has an id that no file had before.
-/

import NedWorkspace.Proofs.Definition.Unplaced
import NedWorkspace.Proofs.Workspace.Files
import NedWorkspace.Proofs.Workspace.Indexed

namespace NedWorkspace

open Std

/-- The id as a word of 32 bits; the last word stands for the built-in declarations. -/
def FileId.word : FileId → UInt32
  | source n => .ofNat n
  | builtin => .ofNat (2 ^ 32 - 1)

/-- The first ids and that of the built-in declarations are told apart by their words. -/
theorem FileId.nodup_words {n : Nat} (hn : n < 2 ^ 32 - 1) :
    ((builtin :: (List.range n).map source).map word).Nodup := by
  have hword : ∀ k < 2 ^ 32, (UInt32.ofNat k).toNat = k := fun k hk =>
    UInt32.toNat_ofNat_of_lt' hk
  rw [List.map_cons, List.map_map, List.nodup_cons]
  refine ⟨fun hmem => ?_, List.nodup_range.map_on fun k hk l hl h => ?_⟩
  · obtain ⟨k, hk, h⟩ := List.mem_map.mp hmem
    have hk := List.mem_range.mp hk
    have heq := congrArg UInt32.toNat h
    rw [Function.comp_apply, word, word, hword k (by omega), hword _ (by omega)] at heq
    omega
  · have hk := List.mem_range.mp hk
    have hl := List.mem_range.mp hl
    have heq := congrArg UInt32.toNat h
    rwa [Function.comp_apply, Function.comp_apply, word, word, hword k (by omega),
      hword l (by omega)] at heq

namespace SourceStore

variable {s s' s'' : SourceStore} {path : Path} {f g : SourceFile}

/-- Files may have gone, and none has come: those that are there had the same id and path before. -/
structure Left (s s' : SourceStore) : Prop where
  nextNumber : s'.nextNumber = s.nextNumber
  files : s'.all.map (fun f => (f.id, f.path)) ⊆ s.all.map fun f => (f.id, f.path)

namespace Left

theorem refl (s : SourceStore) : Left s s :=
  ⟨rfl, List.Subset.refl _⟩

/-- What was left out stays out. -/
theorem trans (h : Left s s') (h' : Left s' s'') : Left s s'' :=
  ⟨h'.nextNumber.trans h.nextNumber, List.Subset.trans h'.files h.files⟩

/-- Replacing a file keeps its id and its path. -/
theorem update (hs : s.WellFormed) (hat : s.at? path = some f) (hpath : g.path = f.path)
    (hnumber : g.number = f.number) : Left s (s.update g) := by
  have hview : (g.id, g.path) = (f.id, f.path) := by
    rw [SourceFile.id, SourceFile.id, hpath, hnumber]
  refine ⟨(s.ids_update g).2, ?_⟩
  rw [hs.map_all_update hat hnumber hview]
  exact List.Subset.refl _

/-- Forgetting a file brings none. -/
theorem remove (hs : s.WellFormed) (path : Path) : Left s (s.remove path) :=
  ⟨s.nextNumber_remove path, List.map_subset _ fun _ hf => (hs.mem_remove_iff.mp hf).1⟩

/-- Forgetting several files brings none. -/
theorem foldl_remove (hs : s.WellFormed) (paths : List Path) :
    Left s (paths.foldl SourceStore.remove s) := by
  induction paths generalizing s with
  | nil => exact .refl s
  | cons p paths ih => exact (Left.remove hs p).trans (ih (hs.remove p))

end Left

end SourceStore

namespace State

variable {st st' : State} {ids : List FileId}

/-! ### One state -/

/-- Paths, ids, scopes and definitions are those of the loaded files. -/
structure Identified (st : State) : Prop where
  /-- The id at a path leads to a file, and this has the id and the path. -/
  file_of_path : ∀ path id, st.store.idAt? path = some id →
    ∃ f, st.store.get? id = some f ∧ f.id = id ∧ compare f.path path = .eq
  /-- A file has the id that leads to it, and its path leads to that id. -/
  path_of_file : ∀ id f, st.store.get? id = some f → f.id = id ∧ st.store.idAt? f.path = some id
  /-- No id stands at two paths. -/
  path_unique : ∀ p q id, st.store.idAt? p = some id → st.store.idAt? q = some id → compare p q = .eq
  /-- The index has scopes for the loaded files and the built-in declarations, and no others. -/
  scopes : ∀ id, (st.index.file? id).isSome = true ↔
    id = .builtin ∨ (st.store.get? id).isSome = true
  /-- A key leads to the type of some scope that has it, be it a top-level or an inner one. -/
  types : ∀ key d, st.index.types.get? key = some d ↔
    ∃ id scope, st.index.file? id = some scope ∧ d ∈ scope.allTypes ∧ d.key = key
  builtin : st.index.file? .builtin = some (.ofTree .builtin 0 Builtin.tree none)
  /-- A file belongs to the project that owns its path now. -/
  owner : ∀ id f, st.store.get? id = some f → st.index.projectOf? id = st.registry.owner? f.path
  /-- The scope of a file is that of its tree, but for spans. -/
  scope : ∀ id f, st.store.get? id = some f → ∃ scope edition, st.index.file? id = some scope ∧
    scope.unplaced = (FileScope.ofTree id edition f.tree (st.registry.owner? f.path)).unplaced

/-- Types have keys of the file whose scope they are in. -/
theorem Kept.types (hkept : st.Kept) (key : TypeKey) (d : Definition) :
    st.index.types.get? key = some d ↔
      ∃ id scope, st.index.file? id = some scope ∧ d ∈ scope.allTypes ∧ d.key = key := by
  refine hkept.index.types.trans ⟨fun ⟨scope, h⟩ => ⟨key.file, scope, h⟩, ?_⟩
  rintro ⟨id, scope, hscope, hd, rfl⟩
  exact ⟨scope, ((hkept.index.keyed hscope).file d hd).symm ▸ hscope, hd, rfl⟩

/-- **In a reachable state all maps are in line.** -/
theorem Reachable.identified (h : st.Reachable) : st.Identified := by
  have hstore := h.kept.store
  have hscope : ∀ id f, st.store.get? id = some f → ∃ edition t,
      st.index.file? id = some (FileScope.ofTree id edition t (st.registry.owner? f.path)) ∧
        t.unplaced = f.tree.unplaced := by
    intro id f hget
    obtain ⟨hf, rfl⟩ := hstore.get?_eq_some_iff.mp hget
    exact (h.kept.files f hf).indexed
  have hpath : ∀ path id, st.store.idAt? path = some id →
      ∃ f, st.store.get? id = some f ∧ f.id = id ∧ compare f.path path = .eq := by
    intro path id hid
    rw [hstore.idAt?_eq_map] at hid
    obtain ⟨f, hat, rfl⟩ := Option.map_eq_some_iff.mp hid
    exact ⟨f, hstore.get?_of_mem (SourceStore.mem_of_at? hat), rfl, hstore.compare_path hat⟩
  refine ⟨hpath, fun id f hget => ?_, fun p q id hp hq => ?_, fun id => ?_,
    h.kept.types, h.kept.builtin, fun id f hget => ?_, fun id f hget => ?_⟩
  · obtain ⟨hid, hmem⟩ := hstore.held hget
    exact ⟨hid, hstore.ascending.get?_of_mem hmem ReflOrd.compare_self⟩
  · obtain ⟨f, hf, _, hfp⟩ := hpath p id hp
    obtain ⟨g, hg, _, hgq⟩ := hpath q id hq
    obtain rfl := Option.some.inj (hf.symm.trans hg)
    exact TransCmp.eq_trans (OrientedCmp.eq_symm hfp) hgq
  · constructor
    · refine fun hsome => (h.indexed id hsome).imp_right fun hmem => ?_
      obtain ⟨f, hf, rfl⟩ := List.mem_map.mp hmem
      rw [hstore.get?_of_mem hf]
      rfl
    · rintro (rfl | hloaded)
      · rw [h.kept.builtin]
        rfl
      · obtain ⟨f, hget⟩ := Option.isSome_iff_exists.mp hloaded
        obtain ⟨edition, t, hfile, _⟩ := hscope id f hget
        rw [hfile]
        rfl
  · obtain ⟨edition, t, hfile, _⟩ := hscope id f hget
    rw [DefinitionIndex.projectOf?, hfile]
    rfl
  · obtain ⟨edition, t, hfile, ht⟩ := hscope id f hget
    exact ⟨_, edition, hfile, FileScope.unplaced_congr id edition _ ht⟩

/-! ### A whole run -/

/-- Steps lead from the beginning to the state, and the loads among them gave the ids, in this order. A
step is a load if a file comes with it. -/
inductive Issued : List FileId → State → Prop
  | start : Issued [] {}
  | load {ids : List FileId} {st : State} {path : Path} (h : Issued ids st)
      (hat : st.store.at? path = none) (text : String) :
      Issued (ids ++ [(st.loadNew path text (Parse.ofText text)).1])
        (st.loadNew path text (Parse.ofText text)).2
  | other {ids : List FileId} {st st' : State} (h : Issued ids st) (hs : Step True st st')
      (hnone : st'.store.all.map (fun f => (f.id, f.path)) ⊆ st.store.all.map fun f => (f.id, f.path)) :
      Issued ids st'

/-- A state with the numbers it has issued is a reachable one. -/
theorem Issued.reachable (h : st.Issued ids) : st.Reachable := by
  induction h with
  | start => exact .refl
  | load _ hat text ih => exact ih.tail (.loaded hat text)
  | other _ hs _ ih => exact ih.tail hs

/-- **A step loads one file, or none comes with it.** -/
theorem Step.loaded_or_left {asking : Prop} (hs : Step asking st st') (hst : st.store.WellFormed) :
    (∃ path text, st.store.at? path = none ∧ st' = (st.loadNew path text (Parse.ofText text)).2) ∨
      st.store.Left st'.store := by
  cases hs with
  | noted => exact .inr (.refl _)
  | edited hat editors => exact .inr (.update hst hat rfl rfl)
  | loaded hat text => exact .inl ⟨_, text, hat, rfl⟩
  | broken hat hok =>
    right
    rw [(store_applyBroken ..).1]
    exact .update hst hat rfl rfl
  | cleaned hat hok =>
    right
    rw [(store_applyClean ..).1]
    exact .update hst hat rfl rfl
  | forgot path =>
    right
    rw [store_forget hst]
    exact .remove hst path
  | configured configs =>
    right
    rw [store_reconfigure hst]
    exact .foldl_remove hst _
  | invalidated => exact .inr (.refl _)
  | rehashed =>
    right
    rw [store_rehash]
    exact .refl _
  | asked => exact .inr (.refl _)

/-- The ids of all loads can be told, however a state was reached. -/
theorem Reachable.exists_issued (h : st.Reachable) : ∃ ids, st.Issued ids := by
  induction h with
  | refl => exact ⟨[], .start⟩
  | @tail a b hab hs ih =>
    obtain ⟨ids, hissued⟩ := ih
    have hstore := (Reachable.kept hab).store
    rcases hs.loaded_or_left hstore with ⟨path, text, hat, rfl⟩ | hleft
    · exact ⟨_, hissued.load hat text⟩
    · exact ⟨ids, hissued.other hs hleft.files⟩

/-- **The loads give the numbers from zero on, one after another.** -/
theorem Issued.numbers (h : st.Issued ids) :
    st.store.nextNumber = ids.length ∧ ids = (List.range ids.length).map .source := by
  induction h with
  | start => exact ⟨rfl, rfl⟩
  | @load ids a path _ hat text ih =>
    obtain ⟨hnext, hids⟩ := ih
    have hid : (a.loadNew path text (Parse.ofText text)).1 = .source ids.length :=
      congrArg FileId.source hnext
    have hafter : (a.loadNew path text (Parse.ofText text)).2.store.nextNumber = ids.length + 1 :=
      congrArg (· + 1) hnext
    rw [hafter, hid, List.length_append, List.length_singleton, List.range_succ, List.map_append, ← hids]
    exact ⟨rfl, rfl⟩
  | @other ids a b hissued hs hnone ih =>
    have hstore := hissued.reachable.kept.store
    rcases hs.loaded_or_left hstore with ⟨path, text, hat, rfl⟩ | hleft
    · -- The file that comes has the next number, so it was not there before.
      have hnew := (hstore.mem_add hat text (Parse.ofText text)).mpr (.inl rfl)
      have hmem := hnone (List.mem_map_of_mem hnew)
      obtain ⟨f, hf, heq⟩ := List.mem_map.mp hmem
      have hnumber : f.number = a.store.nextNumber := FileId.source.inj (Prod.mk.inj heq).1
      exact absurd (hstore.number_lt f hf) (by omega)
    · exact ⟨hleft.nextNumber.trans ih.1, ih.2⟩

/-- **Files keep their identity.** In every reachable state the maps from paths to ids and from ids to files
are inverse to each other, the index has scopes for these files and for the built-in declarations, and its
map of types holds the types of the scopes under their keys and nothing else. The loads that led
to the state can be listed, and however it was reached, no two of them gave the same id, none gave that of
the built-in declarations, and the loaded files have ids that were given. Words of 32 bits do for all of
them as long as there are fewer than 2^32 - 1 loads. -/
theorem files_identified (h : st.Reachable) : st.Identified ∧ (∃ ids, st.Issued ids) ∧
    ∀ ids, st.Issued ids → ids.Nodup ∧ .builtin ∉ ids ∧ (∀ f ∈ st.store.all, f.id ∈ ids) ∧
      (ids.length < 2 ^ 32 - 1 → ((.builtin :: ids).map FileId.word).Nodup) := by
  refine ⟨h.identified, h.exists_issued, fun ids hissued => ?_⟩
  obtain ⟨hnext, hids⟩ := hissued.numbers
  refine ⟨?_, ?_, fun f hf => ?_, fun hfew => ?_⟩
  · rw [hids]
    exact List.nodup_range.map fun _ _ => FileId.source.inj
  · rw [hids]
    intro hmem
    obtain ⟨n, _, hn⟩ := List.mem_map.mp hmem
    exact FileId.noConfusion hn
  · have hlt := h.kept.store.number_lt f hf
    rw [hids]
    exact List.mem_map.mpr ⟨f.number, List.mem_range.mpr (hnext ▸ hlt), rfl⟩
  · have hwords := FileId.nodup_words hfew
    rwa [← hids] at hwords

/-- A file with a type in a type is loaded, forgotten and loaded again: its old id leads nowhere. -/
theorem files_identified_again : ∃ st : State, st.Reachable ∧ st.Issued [.source 0, .source 1] ∧
    st.Identified ∧ st.store.idAt? ⟨"/p/a.ned"⟩ = some (.source 1) ∧
      st.store.get? (.source 0) = none ∧ st.index.file? (.source 0) = none ∧
      [FileId.source 0, .source 1].Nodup := by
  set path : Path := ⟨"/p/a.ned"⟩ with hpath
  set text := "module A\x7btypes:simple B;\x7d" with htext
  set once := (({} : State).loadNew path text (Parse.ofText text)).2 with honce
  set gone := (once.forget path).2 with hgone
  have hfirst : once.Issued [.source 0] := Issued.start.load rfl text
  have hstore := hfirst.reachable.kept.store
  have hstored : gone.store = once.store.remove path := store_forget hstore path
  have hat : gone.store.at? path = none := by
    rw [hstored, hstore.at?_remove, if_pos ReflOrd.compare_self]
  have hleft : once.store.Left gone.store := by
    rw [hstored]
    exact .remove hstore path
  have hid : (gone.loadNew path text (Parse.ofText text)).1 = .source 1 :=
    congrArg FileId.source (hleft.nextNumber.trans rfl)
  have hissued : (gone.loadNew path text (Parse.ofText text)).2.Issued [.source 0, .source 1] :=
    hid ▸ (hfirst.other (.forgot once path) hleft.files).load hat text
  have h := files_identified hissued.reachable
  have hagain : (gone.loadNew path text (Parse.ofText text)).2.store.idAt? path = some (.source 1) :=
    (SourceStore.idAt?_add ..).trans ((if_pos ReflOrd.compare_self).trans (congrArg some hid))
  have hnone : (gone.loadNew path text (Parse.ofText text)).2.store.get? (.source 0) = none := by
    have hnext : gone.store.nextNumber = 1 := hleft.nextNumber.trans rfl
    refine (SourceStore.get?_add ..).trans ((if_neg ?_).trans ?_)
    · rw [hnext]
      decide
    · rw [hstored, SourceStore.get?_remove, if_pos]
      exact (SourceStore.idAt?_add ..).trans (if_pos ReflOrd.compare_self)
  refine ⟨_, hissued.reachable, hissued, h.1, hagain, hnone, ?_, (h.2.2 _ hissued).1⟩
  refine Option.not_isSome_iff_eq_none.mp fun hsome => ?_
  rcases (h.1.scopes _).mp hsome with hbuiltin | hloaded
  · exact nomatch hbuiltin
  · rw [hnone] at hloaded
    exact nomatch hloaded

end State

end NedWorkspace
