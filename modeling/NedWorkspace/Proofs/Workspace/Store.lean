/-
# The loaded files

The store of files is two maps, from paths to ids and from ids to files. `SourceStore.WellFormed` says
that they are two halves of one thing: every path leads to an id that leads to a file with that path, and
every file stands under its own id and path. Loading, replacing and forgetting a file keep this. What a
well-formed store says of its files is read off one map, of the files by their paths
(`SourceStore.byPath`): loading and replacing put a file in at its path, forgetting takes it out. A file
that is replaced keeps its place, so what is read off the files in order changes only where the file did.
-/

import Mathlib.Data.List.Basic
import NedWorkspace.Proofs.Map.Laws
import NedWorkspace.Workspace.Store

namespace NedWorkspace

open Std

namespace SourceStore

/-- The two maps are in line: both name each file, under its own path and its own id, and no file has a
number that is still to be given. -/
structure WellFormed (s : SourceStore) : Prop where
  ascending : s.ids.Ascending
  found : ∀ e ∈ s.ids.entries, ∃ f, s.get? e.2 = some f ∧ f.path = e.1
  held : ∀ {id f}, s.get? id = some f → f.id = id ∧ (f.path, id) ∈ s.ids.entries
  number_lt : ∀ f ∈ s.all, f.number < s.nextNumber

/-- An empty store is well formed. -/
theorem wellFormed_empty : ({} : SourceStore).WellFormed where
  ascending := SortedMap.ascending_empty
  found := by simp
  held h := by simp [get?] at h
  number_lt := by simp [all, SortedMap.values]

/-- The files by their paths, in order. -/
def byPath (s : SourceStore) : SortedMap Path SourceFile :=
  ⟨s.ids.entries.filterMap fun e => (s.get? e.2).map fun f => (e.1, f)⟩

/-- All files are the values of the map by paths. -/
theorem values_byPath (s : SourceStore) : s.byPath.values = s.all := by
  unfold SortedMap.values byPath all SortedMap.values
  rw [List.map_filterMap, List.filterMap_map]
  refine congrArg (s.ids.entries.filterMap ·) (funext fun e => ?_)
  cases h : s.get? e.2 <;> simp [h]

variable {s : SourceStore} {path : Path} {f g : SourceFile} {id : FileId}

/-- A file that is found at a path is loaded. -/
theorem mem_of_at? (h : s.at? path = some f) : f ∈ s.all := by
  obtain ⟨id, hid, hget⟩ := Option.bind_eq_some_iff.mp h
  obtain ⟨p, hp, _⟩ := SortedMap.mem_of_get? hid
  exact List.mem_filterMap.mpr ⟨id, List.mem_map_of_mem (f := Prod.snd) hp, hget⟩

/-- Texts that are one path lead to one file. -/
theorem at?_congr (s : SourceStore) {p q : Path} (h : compare p q = .eq) : s.at? p = s.at? q := by
  rw [at?, at?, idAt?, idAt?, s.ids.get?_congr h]

/-- The id at a path after a file was added. -/
theorem idAt?_add (s : SourceStore) (path q : Path) (text : String) (parse : Parse) :
    (s.add path text parse).2.idAt? q =
      if compare path q = .eq then some (.source s.nextNumber) else s.idAt? q :=
  SortedMap.get?_insert ..

/-- The file with an id after a file was added. -/
theorem get?_add (s : SourceStore) (path : Path) (text : String) (parse : Parse) (id : FileId) :
    (s.add path text parse).2.get? id =
      if id = .source s.nextNumber then some (s.add path text parse).1 else s.get? id :=
  OrderedMap.get?_insert ..

/-- The file that was added is found at its path. -/
theorem at?_add_self (s : SourceStore) (path : Path) (text : String) (parse : Parse) :
    (s.add path text parse).2.at? path = some (s.add path text parse).1 := by
  rw [at?, idAt?_add, if_pos ReflOrd.compare_self]
  exact (s.get?_add path text parse _).trans (if_pos rfl)

/-- Replacing a file leaves the paths and the next number. -/
theorem ids_update (s : SourceStore) (g : SourceFile) :
    (s.update g).ids = s.ids ∧ (s.update g).nextNumber = s.nextNumber := by
  unfold update
  split
  · exact ⟨rfl, rfl⟩
  · exact ⟨rfl, rfl⟩

/-- The file with an id after a file was replaced. -/
theorem get?_update (h : s.get? g.id = some f) (id : FileId) :
    (s.update g).get? id = if id = g.id then some g else s.get? id := by
  have hcontains : s.files.contains g.id = true := by
    rw [OrderedMap.contains, show s.files.get? g.id = some f from h]
    rfl
  unfold update get?
  rw [if_pos hcontains]
  exact OrderedMap.get?_insert ..

/-- Dropping a path where no file is changes nothing. -/
theorem remove_of_idAt?_none (h : s.idAt? path = none) : s.remove path = s := by
  rw [remove, h]

/-- The id at a path after a file was dropped. -/
theorem idAt?_remove (s : SourceStore) (path q : Path) :
    (s.remove path).idAt? q = if compare path q = .eq then none else s.idAt? q := by
  cases h : s.idAt? path with
  | some id =>
    rw [remove, h]
    exact SortedMap.get?_erase ..
  | none =>
    rw [remove_of_idAt?_none h]
    split
    · rename_i hq
      exact (s.ids.get?_congr hq).symm.trans h
    · rfl

/-- Dropping a file leaves the next number. -/
theorem nextNumber_remove (s : SourceStore) (path : Path) :
    (s.remove path).nextNumber = s.nextNumber := by
  unfold remove
  cases s.idAt? path with
  | some id => rfl
  | none => rfl

/-- Of two files that replace the one with their id, the later one counts. -/
theorem update_update (s : SourceStore) (h : g.id = f.id) :
    (s.update f).update g = s.update g := by
  by_cases hcontains : s.files.contains f.id = true
  · have hnow : (s.files.insert f.id f).contains f.id = true := by
      rw [OrderedMap.contains, OrderedMap.get?_insert_self]
      rfl
    unfold update
    rw [h, if_pos hcontains, if_pos hnow, if_pos hcontains, OrderedMap.insert_insert]
  · unfold update
    rw [h, if_neg hcontains, if_neg hcontains]

/-- The file with an id after the file at a path was dropped. -/
theorem get?_remove (s : SourceStore) (path : Path) (id : FileId) :
    (s.remove path).get? id = if s.idAt? path = some id then none else s.get? id := by
  unfold remove
  cases h : s.idAt? path with
  | some found =>
    refine (OrderedMap.get?_erase ..).trans ?_
    by_cases hid : id = found
    · rw [if_pos hid, if_pos (congrArg some hid.symm)]
    · rw [if_neg hid, if_neg fun heq => hid (Option.some.inj heq).symm]
      rfl
  | none => rw [if_neg nofun]

namespace WellFormed

/-- A file is found by its id exactly if it is loaded. -/
theorem get?_eq_some_iff (hs : s.WellFormed) : s.get? id = some f ↔ f ∈ s.all ∧ f.id = id := by
  constructor
  · intro h
    obtain ⟨hid, hpath⟩ := hs.held h
    exact ⟨List.mem_filterMap.mpr ⟨id, List.mem_map_of_mem (f := Prod.snd) hpath, h⟩, hid⟩
  · rintro ⟨hmem, rfl⟩
    obtain ⟨id, -, hget⟩ := List.mem_filterMap.mp hmem
    rw [(hs.held hget).1]
    exact hget

/-- A file is found by its id. -/
theorem get?_of_mem (hs : s.WellFormed) (h : f ∈ s.all) : s.get? f.id = some f :=
  hs.get?_eq_some_iff.mpr ⟨h, rfl⟩

/-- Files with one id are one file. -/
theorem eq_of_id (hs : s.WellFormed) (hf : f ∈ s.all) (hg : g ∈ s.all) (h : f.id = g.id) :
    f = g := by
  have hfound := hs.get?_of_mem hf
  rw [h, hs.get?_of_mem hg] at hfound
  exact (Option.some.inj hfound).symm

/-- The id of a file stands at each spelling of its path. -/
theorem idAt?_of_mem (hs : s.WellFormed) (h : f ∈ s.all) (hpath : compare f.path path = .eq) :
    s.idAt? path = some f.id :=
  hs.ascending.get?_of_mem (hs.held (hs.get?_of_mem h)).2 hpath

/-- The file at a path is the one that is loaded under a spelling of the path. -/
theorem at?_eq_some_iff (hs : s.WellFormed) :
    s.at? path = some f ↔ f ∈ s.all ∧ compare f.path path = .eq := by
  constructor
  · intro h
    obtain ⟨id, hid, hget⟩ := Option.bind_eq_some_iff.mp h
    obtain ⟨p, hp, hcompare⟩ := SortedMap.mem_of_get? hid
    obtain ⟨g, hg, rfl⟩ := hs.found _ hp
    obtain rfl : g = f := Option.some.inj (hg.symm.trans hget)
    exact ⟨mem_of_at? h, hcompare⟩
  · rintro ⟨hmem, hpath⟩
    rw [SourceStore.at?, hs.idAt?_of_mem hmem hpath]
    exact hs.get?_of_mem hmem

/-- The loaded files are those found at their own paths. -/
theorem mem_all_iff (hs : s.WellFormed) : f ∈ s.all ↔ s.at? f.path = some f := by
  rw [hs.at?_eq_some_iff, and_iff_left ReflOrd.compare_self]

/-- The file at a path has that path. -/
theorem compare_path (hs : s.WellFormed) (h : s.at? path = some f) : compare f.path path = .eq :=
  (hs.at?_eq_some_iff.mp h).2

/-- A loaded file is found at its path. -/
theorem at?_of_mem (hs : s.WellFormed) (h : f ∈ s.all) (hpath : compare f.path path = .eq) :
    s.at? path = some f :=
  hs.at?_eq_some_iff.mpr ⟨h, hpath⟩

/-- The id at a path where a file is. -/
theorem idAt?_of_at? (hs : s.WellFormed) (h : s.at? path = some f) : s.idAt? path = some f.id :=
  hs.idAt?_of_mem (mem_of_at? h) (hs.compare_path h)

/-- A path has an id exactly if a file is found at it. -/
theorem idAt?_eq_map (hs : s.WellFormed) (path : Path) :
    s.idAt? path = (s.at? path).map SourceFile.id := by
  cases hat : s.at? path with
  | some f => exact hs.idAt?_of_at? hat
  | none =>
    refine Option.eq_none_iff_forall_ne_some.mpr fun id hid => ?_
    obtain ⟨p, hp, _⟩ := SortedMap.mem_of_get? hid
    obtain ⟨f, hf, _⟩ := hs.found _ hp
    have hfound : s.at? path = some f := Option.bind_eq_some_iff.mpr ⟨id, hid, hf⟩
    exact nomatch hat.symm.trans hfound

/-- Files with one path are one file. -/
theorem eq_of_path (hs : s.WellFormed) (hf : f ∈ s.all) (hg : g ∈ s.all) (h : f.path = g.path) :
    f = g := by
  have hfound := hs.at?_of_mem hf ReflOrd.compare_self
  rw [h, hs.at?_of_mem hg ReflOrd.compare_self] at hfound
  exact (Option.some.inj hfound).symm

/-- The entries by path are the loaded files under their own paths. -/
theorem mem_byPath_iff (hs : s.WellFormed) {e : Path × SourceFile} :
    e ∈ s.byPath.entries ↔ e.2 ∈ s.all ∧ e.2.path = e.1 := by
  obtain ⟨p, f⟩ := e
  constructor
  · intro h
    obtain ⟨e, he, hmap⟩ := List.mem_filterMap.mp h
    obtain ⟨g, hg, heq⟩ := Option.map_eq_some_iff.mp hmap
    obtain ⟨rfl, rfl⟩ := Prod.mk.inj heq
    obtain ⟨f, hf, hpath⟩ := hs.found e he
    obtain rfl : f = g := Option.some.inj (hf.symm.trans hg)
    exact ⟨(hs.get?_eq_some_iff.mp hg).1, hpath⟩
  · rintro ⟨hmem, hpath⟩
    refine List.mem_filterMap.mpr ⟨(f.path, f.id), (hs.held (hs.get?_of_mem hmem)).2, ?_⟩
    rw [hs.get?_of_mem hmem]
    exact congrArg (fun p => some (p, f)) hpath

/-- The files by path stand in the order of the paths. -/
theorem ascending_byPath (hs : s.WellFormed) : s.byPath.Ascending := by
  refine List.pairwise_filterMap.mpr (hs.ascending.imp fun {a b} hab x hx y hy => ?_)
  obtain ⟨f, _, rfl⟩ := Option.map_eq_some_iff.mp hx
  obtain ⟨g, _, rfl⟩ := Option.map_eq_some_iff.mp hy
  exact hab

/-- What stands at a path in the map of files is the file found there. -/
theorem get?_byPath (hs : s.WellFormed) (path : Path) : s.byPath.get? path = s.at? path := by
  refine Option.ext fun f => ⟨fun h => ?_, fun h => ?_⟩
  · obtain ⟨p, hp, hcompare⟩ := SortedMap.mem_of_get? h
    obtain ⟨hmem, hpath⟩ := hs.mem_byPath_iff.mp hp
    exact hs.at?_of_mem hmem ((congrArg (compare · path) hpath).trans hcompare)
  · obtain ⟨hmem, hcompare⟩ := hs.at?_eq_some_iff.mp h
    exact hs.ascending_byPath.get?_of_mem (l := f.path) (hs.mem_byPath_iff.mpr ⟨hmem, rfl⟩) hcompare

/-- The paths of the files by path are the paths of the store. -/
theorem keys_byPath (hs : s.WellFormed) : s.byPath.keys = s.paths := by
  unfold SortedMap.keys byPath paths SortedMap.keys
  rw [List.map_filterMap, List.filterMap_eq_map_iff_forall_eq_some]
  intro e he
  obtain ⟨f, hf, _⟩ := hs.found e he
  simp [hf]

/-- No two files have one number. -/
theorem nodup (hs : s.WellFormed) : (s.all.map SourceFile.number).Nodup := by
  rw [← values_byPath, SortedMap.values, List.map_map, List.Nodup, List.pairwise_map]
  refine hs.ascending_byPath.imp_of_mem fun {a b} ha hb hab hnumber => ?_
  obtain ⟨ha, hpath⟩ := hs.mem_byPath_iff.mp ha
  obtain ⟨hb, hpath'⟩ := hs.mem_byPath_iff.mp hb
  have heq := hs.eq_of_id ha hb (congrArg FileId.source hnumber)
  rw [← hpath, ← hpath', heq, ReflOrd.compare_self] at hab
  exact absurd hab (by decide)

/-- The file with an id is the one among all files that has it. -/
theorem get?_eq_find? (hs : s.WellFormed) (id : FileId) :
    s.get? id = s.all.find? fun f => decide (f.id = id) := by
  cases hfind : s.all.find? fun f => decide (f.id = id) with
  | some f =>
    exact hs.get?_eq_some_iff.mpr
      ⟨List.mem_of_find?_eq_some hfind, by simpa using List.find?_some hfind⟩
  | none =>
    refine Option.eq_none_iff_forall_ne_some.mpr fun f hf => ?_
    obtain ⟨hmem, hid⟩ := hs.get?_eq_some_iff.mp hf
    exact absurd hid (by simpa using List.find?_eq_none.mp hfind f hmem)

/-! ### A file is loaded -/

/-- No file has the number that is given next. -/
theorem get?_nextNumber (hs : s.WellFormed) : s.get? (.source s.nextNumber) = none := by
  refine Option.eq_none_iff_forall_ne_some.mpr fun f hf => ?_
  obtain ⟨hmem, hid⟩ := hs.get?_eq_some_iff.mp hf
  exact Nat.lt_irrefl _ (FileId.source.inj hid ▸ hs.number_lt f hmem)

/-- The file at a path after a file was added. -/
theorem at?_add (hs : s.WellFormed) (path : Path) (text : String) (parse : Parse) (q : Path) :
    (s.add path text parse).2.at? q =
      if compare path q = .eq then some (s.add path text parse).1 else s.at? q := by
  rw [SourceStore.at?, idAt?_add]
  split
  · exact (s.get?_add path text parse _).trans (if_pos rfl)
  · cases hid : s.idAt? q with
    | none => rw [SourceStore.at?, hid]; rfl
    | some id =>
      have hne : id ≠ .source s.nextNumber := by
        rintro rfl
        rw [hs.idAt?_eq_map] at hid
        obtain ⟨f, hf, hnumber⟩ := Option.map_eq_some_iff.mp hid
        exact nomatch (hnumber ▸ hs.get?_of_mem (mem_of_at? hf)).symm.trans hs.get?_nextNumber
      rw [SourceStore.at?, hid]
      exact (s.get?_add path text parse id).trans (if_neg hne)

/-- Loading a file keeps the two maps in line. -/
theorem add (hs : s.WellFormed) (h : s.at? path = none) (text : String) (parse : Parse) :
    (s.add path text parse).2.WellFormed := by
  have hid : s.ids.get? path = none := by
    have hmap := hs.idAt?_eq_map path
    rwa [h] at hmap
  have hperm := SortedMap.insert_perm_of_get?_none (FileId.source s.nextNumber) hid
  refine ⟨hs.ascending.insert path _, fun e he => ?_, fun {id f} hget => ?_, fun f hf => ?_⟩
  · rw [get?_add]
    rcases List.mem_cons.mp (hperm.mem_iff.mp he) with rfl | he
    · exact ⟨_, if_pos rfl, rfl⟩
    · obtain ⟨f, hf, hpath⟩ := hs.found e he
      refine ⟨f, (if_neg fun heq => ?_).trans hf, hpath⟩
      exact nomatch (heq ▸ hf).symm.trans hs.get?_nextNumber
  · rw [get?_add] at hget
    split at hget
    · rename_i hnew
      obtain rfl := Option.some.inj hget
      exact ⟨hnew.symm, hperm.mem_iff.mpr (hnew ▸ List.mem_cons_self)⟩
    · obtain ⟨hfile, hpath⟩ := hs.held hget
      exact ⟨hfile, hperm.mem_iff.mpr (List.mem_cons_of_mem _ hpath)⟩
  · obtain ⟨id, -, hget⟩ := List.mem_filterMap.mp hf
    rw [get?_add] at hget
    split at hget
    · obtain rfl := Option.some.inj hget
      exact Nat.lt_succ_self _
    · exact Nat.lt_succ_of_lt (hs.number_lt f (hs.get?_eq_some_iff.mp hget).1)

/-- The files after one was loaded are that one and the others. -/
theorem mem_add (hs : s.WellFormed) (h : s.at? path = none) (text : String) (parse : Parse) :
    f ∈ (s.add path text parse).2.all ↔ f = (s.add path text parse).1 ∨ f ∈ s.all := by
  have hnew : (s.add path text parse).1 ∈ (s.add path text parse).2.all :=
    mem_of_at? ((hs.at?_add path text parse path).trans (if_pos ReflOrd.compare_self))
  have hold (hf : f ∈ s.all) : f.id ≠ .source s.nextNumber := fun hid =>
    nomatch (hid ▸ hs.get?_of_mem hf).symm.trans hs.get?_nextNumber
  constructor
  · intro hf
    have hget := (hs.add h text parse).get?_of_mem hf
    rw [get?_add] at hget
    split at hget
    · exact .inl (Option.some.inj hget).symm
    · exact .inr (hs.get?_eq_some_iff.mp hget).1
  · rintro (rfl | hf)
    · exact hnew
    · have hget : (s.add path text parse).2.get? f.id = some f :=
        (s.get?_add path text parse f.id).trans ((if_neg (hold hf)).trans (hs.get?_of_mem hf))
      exact ((hs.add h text parse).get?_eq_some_iff.mp hget).1

/-- A file that is loaded comes in between the others, at its path. -/
theorem byPath_add (hs : s.WellFormed) (h : s.at? path = none) (text : String) (parse : Parse) :
    (s.add path text parse).2.byPath = s.byPath.insert path (s.add path text parse).1 := by
  have hnew := hs.add h text parse
  have hperm := SortedMap.insert_perm_of_get?_none (s.add path text parse).1
    ((hs.get?_byPath path).trans h)
  refine hnew.ascending_byPath.ext (hs.ascending_byPath.insert path _) fun e => ?_
  rw [hperm.mem_iff, List.mem_cons, hs.mem_byPath_iff, hnew.mem_byPath_iff, hs.mem_add h]
  constructor
  · rintro ⟨heq | hmem, hpath⟩
    · exact .inl (Prod.ext (by rw [← hpath, heq]; rfl) heq)
    · exact .inr ⟨hmem, hpath⟩
  · rintro (rfl | ⟨hmem, hpath⟩)
    · exact ⟨.inl rfl, rfl⟩
    · exact ⟨.inr hmem, hpath⟩

/-- The files after one was loaded, up to their order. -/
theorem all_add_perm (hs : s.WellFormed) (h : s.at? path = none) (text : String) (parse : Parse) :
    (s.add path text parse).2.all.Perm ((s.add path text parse).1 :: s.all) := by
  rw [← values_byPath, ← values_byPath, hs.byPath_add h]
  exact (SortedMap.insert_perm_of_get?_none _ ((hs.get?_byPath path).trans h)).map Prod.snd

/-! ### A file is replaced -/

section Replaced

variable (hs : s.WellFormed) (h : s.at? path = some f) (hpath : g.path = f.path)
  (hnumber : g.number = f.number)

include hs h hnumber

/-- The file that is replaced is the one with the id. -/
theorem get?_of_number : s.get? g.id = some f := by
  rw [SourceFile.id, hnumber]
  exact hs.get?_of_mem (mem_of_at? h)

/-- The new file stands where the old one stood. -/
theorem all_update : (s.update g).all = s.all.map fun x => if x.id = g.id then g else x := by
  unfold all
  rw [(s.ids_update g).1, List.map_filterMap]
  refine congrArg (s.ids.values.filterMap ·) (funext fun id => ?_)
  rw [get?_update (hs.get?_of_number h hnumber)]
  cases hget : s.get? id with
  | some x => rw [Option.map_some, (hs.held hget).1, apply_ite some]
  | none =>
    refine if_neg ?_
    rintro rfl
    exact nomatch hget.symm.trans (hs.get?_of_number h hnumber)

/-- A file with the id of the new one is the one that is replaced. -/
theorem eq_of_mem_of_id {x : SourceFile} (hx : x ∈ s.all) (hid : x.id = g.id) : x = f :=
  hs.eq_of_id hx (mem_of_at? h) (hid.trans (congrArg FileId.source hnumber))

/-- What is read off the files in order is the same if the new file agrees with the old one in it. -/
theorem map_all_update {β : Type} {view : SourceFile → β} (hview : view g = view f) :
    (s.update g).all.map view = s.all.map view := by
  rw [hs.all_update h hnumber, List.map_map]
  refine List.map_congr_left fun x hx => ?_
  by_cases hid : x.id = g.id
  · rw [Function.comp_apply, if_pos hid, hview, hs.eq_of_mem_of_id h hnumber hx hid]
  · rw [Function.comp_apply, if_neg hid]

/-- A file after the replacement is the new one or was there. -/
theorem mem_update {x : SourceFile} (hx : x ∈ (s.update g).all) : x = g ∨ x ∈ s.all := by
  rw [hs.all_update h hnumber] at hx
  obtain ⟨y, hy, rfl⟩ := List.mem_map.mp hx
  split
  · exact .inl rfl
  · exact .inr hy

/-- The new file is there. -/
theorem mem_update_self : g ∈ (s.update g).all := by
  rw [hs.all_update h hnumber]
  exact List.mem_map.mpr ⟨f, mem_of_at? h, if_pos (congrArg FileId.source hnumber.symm)⟩

/-- All files but the one that is replaced stay. -/
theorem mem_update_of_mem {x : SourceFile} (hx : x ∈ s.all) (hne : x ≠ f) :
    x ∈ (s.update g).all := by
  rw [hs.all_update h hnumber]
  exact List.mem_map.mpr ⟨x, hx, if_neg fun hid => hne (hs.eq_of_mem_of_id h hnumber hx hid)⟩

include hpath

/-- Replacing a file by one with its path and number keeps the two maps in line. -/
theorem update : (s.update g).WellFormed := by
  have hold := hs.get?_of_number h hnumber
  obtain ⟨hids, hnext⟩ := s.ids_update g
  refine ⟨hids ▸ hs.ascending, fun e he => ?_, fun {id x} hget => ?_, fun x hx => ?_⟩
  · obtain ⟨x, hx, hxpath⟩ := hs.found e (hids ▸ he)
    rw [get?_update hold]
    by_cases hid : e.2 = g.id
    · obtain rfl : x = f := Option.some.inj (hx.symm.trans (hid ▸ hold))
      exact ⟨g, if_pos hid, hpath.trans hxpath⟩
    · exact ⟨x, (if_neg hid).trans hx, hxpath⟩
  · rw [get?_update hold] at hget
    rw [hids]
    split at hget
    · rename_i hid
      obtain rfl := Option.some.inj hget
      exact ⟨hid.symm, hpath ▸ hid ▸ (hs.held hold).2⟩
    · exact hs.held hget
  · rw [hnext]
    rcases hs.mem_update h hnumber hx with rfl | hx
    · exact hnumber ▸ hs.number_lt f (mem_of_at? h)
    · exact hs.number_lt x hx

/-- The new file stands at the path of the old one. -/
theorem byPath_update : (s.update g).byPath = s.byPath.insert f.path g := by
  have hat : s.byPath.get? f.path = some f :=
    (hs.get?_byPath _).trans (hs.at?_of_mem (mem_of_at? h) ReflOrd.compare_self)
  have hnew := hs.update h hpath hnumber
  obtain ⟨p, hp, -, hinsert⟩ := hs.ascending_byPath.mem_insert_of_get? g hat
  obtain rfl : f.path = p := (hs.mem_byPath_iff.mp hp).2
  refine hnew.ascending_byPath.ext (hs.ascending_byPath.insert f.path g) fun e => ?_
  rw [hinsert, hnew.mem_byPath_iff, hs.mem_byPath_iff]
  constructor
  · rintro ⟨hmem, he⟩
    by_cases hid : e.2.id = g.id
    · obtain heq := hnew.eq_of_id hmem (hs.mem_update_self h hnumber) hid
      exact .inl (Prod.ext (by rw [← he, heq, hpath]) heq)
    · rcases hs.mem_update h hnumber hmem with heq | hmem
      · exact absurd (congrArg SourceFile.id heq) hid
      · refine .inr ⟨⟨hmem, he⟩, fun hsame => hid ?_⟩
        rw [hs.eq_of_path hmem (mem_of_at? h) (he.trans hsame)]
        exact congrArg FileId.source hnumber.symm
  · rintro (rfl | ⟨⟨hmem, he⟩, hne⟩)
    · exact ⟨hs.mem_update_self h hnumber, hpath⟩
    · refine ⟨hs.mem_update_of_mem h hnumber hmem fun heq => hne ?_, he⟩
      rw [← he, heq]

/-- The file at a path after the replacement. -/
theorem at?_update (q : Path) :
    (s.update g).at? q = if compare path q = .eq then some g else s.at? q := by
  rw [← (hs.update h hpath hnumber).get?_byPath, hs.byPath_update h hpath hnumber,
    SortedMap.get?_insert, hs.get?_byPath, TransCmp.congr_left (hs.compare_path h)]

end Replaced

/-- Replacing a file by itself changes nothing. -/
theorem update_self (hs : s.WellFormed) (h : s.at? path = some f) : s.update f = s := by
  have hget : s.files.get? f.id = some f := hs.get?_of_mem (mem_of_at? h)
  unfold SourceStore.update
  rw [OrderedMap.insert_self hget, ite_self]

/-! ### A file is forgotten -/

/-- Forgetting a file takes it from both maps. -/
theorem remove (hs : s.WellFormed) (path : Path) : (s.remove path).WellFormed := by
  cases hid : s.idAt? path with
  | none =>
    rw [remove_of_idAt?_none hid]
    exact hs
  | some gone =>
    have hids : (s.remove path).ids = s.ids.erase path := by rw [SourceStore.remove, hid]
    have hnext := s.nextNumber_remove path
    clear hid
    have hascending : (s.remove path).ids.Ascending := by
      rw [hids]
      exact hs.ascending.erase path
    refine ⟨hascending, fun e he => ?_, fun {id f} hget => ?_, fun f hf => ?_⟩
    · obtain ⟨he, hne⟩ := List.mem_filter.mp (hids ▸ he)
      obtain ⟨f, hf, hpath⟩ := hs.found e he
      refine ⟨f, (s.get?_remove path e.2).trans ((if_neg fun hgone => ?_).trans hf), hpath⟩
      have hfile := hs.get?_eq_some_iff.mp hf
      rw [hs.idAt?_eq_map] at hgone
      obtain ⟨x, hx, hxid⟩ := Option.map_eq_some_iff.mp hgone
      obtain rfl := hs.eq_of_id (mem_of_at? hx) hfile.1 (hxid.trans hfile.2.symm)
      exact absurd (hpath ▸ hs.compare_path hx) (by simpa using hne)
    · rw [get?_remove] at hget
      split at hget
      · exact nomatch hget
      · rename_i hkept
        obtain ⟨hfile, hmem⟩ := hs.held hget
        refine ⟨hfile, hids ▸ List.mem_filter.mpr ⟨hmem, ?_⟩⟩
        have hne : compare f.path path ≠ .eq := fun heq =>
          hkept (hs.ascending.get?_of_mem hmem heq)
        simpa using hne
    · obtain ⟨id, -, hget⟩ := List.mem_filterMap.mp hf
      rw [get?_remove] at hget
      split at hget
      · exact nomatch hget
      · exact hnext ▸ hs.number_lt f (hs.get?_eq_some_iff.mp hget).1

/-- The file at a path after one was forgotten. -/
theorem at?_remove (hs : s.WellFormed) (path q : Path) :
    (s.remove path).at? q = if compare path q = .eq then none else s.at? q := by
  rw [SourceStore.at?, idAt?_remove]
  split
  · rfl
  · rename_i hne
    cases hid : s.idAt? q with
    | none => rw [SourceStore.at?, hid]; rfl
    | some id =>
      rw [SourceStore.at?, hid]
      refine (s.get?_remove path id).trans (if_neg fun hgone => hne ?_)
      rw [hs.idAt?_eq_map] at hid hgone
      obtain ⟨x, hx, hxid⟩ := Option.map_eq_some_iff.mp hgone
      obtain ⟨y, hy, hyid⟩ := Option.map_eq_some_iff.mp hid
      obtain rfl := hs.eq_of_id (mem_of_at? hx) (mem_of_at? hy) (hxid.trans hyid.symm)
      exact TransCmp.eq_trans (OrientedCmp.eq_symm (hs.compare_path hx)) (hs.compare_path hy)

/-- The files that are left are those at other paths. -/
theorem mem_remove_iff (hs : s.WellFormed) :
    f ∈ (s.remove path).all ↔ f ∈ s.all ∧ compare f.path path ≠ .eq := by
  rw [(hs.remove path).mem_all_iff, hs.mem_all_iff, hs.at?_remove]
  by_cases heq : compare f.path path = .eq
  · simp [heq, OrientedCmp.eq_symm heq]
  · have hne : compare path f.path ≠ .eq := fun h => heq (OrientedCmp.eq_symm h)
    simp [heq, hne]

/-- The map of files by path after one was forgotten. -/
theorem byPath_remove (hs : s.WellFormed) (path : Path) :
    (s.remove path).byPath = s.byPath.erase path := by
  refine (hs.remove path).ascending_byPath.ext (hs.ascending_byPath.erase path) fun e => ?_
  rw [(hs.remove path).mem_byPath_iff, hs.mem_remove_iff, SortedMap.erase, List.mem_filter,
    hs.mem_byPath_iff, bne_iff_ne]
  constructor
  · rintro ⟨⟨hmem, hne⟩, hpath⟩
    exact ⟨⟨hmem, hpath⟩, hpath ▸ hne⟩
  · rintro ⟨⟨hmem, hpath⟩, hne⟩
    exact ⟨⟨hmem, hpath.symm ▸ hne⟩, hpath⟩

end WellFormed

end SourceStore

end NedWorkspace
