/-
# Loading all that is missing

SPEC_FULL, section 4.4 (one rehash at most), section 4.5 (one event at the end) and section 4.7
(`read_missing_files`).

One operation loads all NED files of a disk that are not loaded. The source folders of all projects are
listed for it, and these may lie in one another, while whether a path is that of a NED file is decided by the
folders of the innermost project alone. `State.missing_eq` says that the two fit: what the listing gives, each
path once and in order, and after the paths are left out that are loaded or are no NED files, is just what
the disk has in that line.

`Gains` says what loading paths one by one does. The result is `State.loadMissing_complete`.
-/

import Mathlib.Data.List.Pairwise
import Mathlib.Data.List.Sort
import NedWorkspace.Proofs.Workspace.Announced
import NedWorkspace.Proofs.Workspace.Fresh
import NedWorkspace.Proofs.Workspace.Live
import NedWorkspace.Proofs.Workspace.Resync

namespace NedWorkspace

open Std State Engine

namespace SortedMap

variable {κ α : Type} [Ord κ]

/-- An insertion adds its key only. -/
theorem mem_keys_insertEntry {k l : κ} {a : α} {es : List (κ × α)}
    (h : l ∈ (insertEntry k a es).map Prod.fst) : l = k ∨ l ∈ es.map Prod.fst := by
  induction es with
  | nil => exact .inl (List.mem_singleton.mp h)
  | cons e es ih =>
    rw [insertEntry] at h
    cases hk : compare k e.1 with
    | lt =>
      rw [hk] at h
      exact List.mem_cons.mp h
    | eq =>
      rw [hk] at h
      exact .inr h
    | gt =>
      rw [hk] at h
      rcases List.mem_cons.mp h with rfl | h
      · exact .inr List.mem_cons_self
      · exact (ih h).imp_right (List.mem_cons_of_mem _)

/-- The keys of a map made of a list are those of the list. -/
theorem mem_keys_ofList {l : κ} {entries : List (κ × α)} (h : l ∈ (ofList entries).keys) :
    l ∈ entries.map Prod.fst := by
  have hfold : ∀ (es : List (κ × α)) (m : SortedMap κ α),
      l ∈ (es.foldl (fun m e => m.insert e.1 e.2) m).keys → l ∈ es.map Prod.fst ∨ l ∈ m.keys := by
    intro es
    induction es with
    | nil => exact fun _ h => .inr h
    | cons e es ih =>
      intro m h
      rw [List.map_cons, List.mem_cons]
      rcases ih _ h with h | h
      · exact .inl (.inr h)
      · exact (mem_keys_insertEntry h).imp_left .inl
  exact (hfold entries {} h).resolve_right List.not_mem_nil

/-- A map made of a list has its keys in order. -/
theorem ascending_ofList [TransOrd κ] (entries : List (κ × α)) : (ofList entries).Ascending := by
  have hfold : ∀ (es : List (κ × α)) (m : SortedMap κ α), m.Ascending →
      (es.foldl (fun m e => m.insert e.1 e.2) m).Ascending := by
    intro es
    induction es with
    | nil => exact fun _ h => h
    | cons e es ih => exact fun m h => ih _ (h.insert e.1 e.2)
  exact hfold entries {} ascending_empty

/-- Keys in order are strictly so, each against all behind it. -/
theorem Ascending.pairwise_keys {m : SortedMap κ α} (h : m.Ascending) :
    m.keys.Pairwise fun k l => compare k l = .lt :=
  List.pairwise_map.mpr h

/-- Each key has one spelling. -/
theorem Ascending.eq_of_mem_keys [TransOrd κ] {m : SortedMap κ α} (h : m.Ascending) {k l : κ}
    (hk : k ∈ m.keys) (hl : l ∈ m.keys) (heq : compare k l = .eq) : k = l := by
  have : Symm fun k l : κ => compare k l = .eq → k = l :=
    ⟨fun _ _ hkl hlk => (hkl (OrientedCmp.eq_symm hlk)).symm⟩
  have hspelled : m.keys.Pairwise fun k l => compare k l = .eq → k = l :=
    h.pairwise_keys.imp fun hlt heq => absurd (hlt.symm.trans heq) (by decide)
  exact hspelled.forall_of_forall (fun _ _ _ => rfl) hk hl heq

end SortedMap

/-- Each key of a sorted set is one of the list, spelled as there. -/
theorem mem_of_mem_sortedSet {κ : Type} [Ord κ] {keys : List κ} {k : κ} (h : k ∈ sortedSet keys) :
    k ∈ keys := by
  simpa using SortedMap.mem_keys_ofList h

/-- Sorted keys are strictly in order. -/
theorem pairwise_sortedSet {κ : Type} [Ord κ] [TransOrd κ] (keys : List κ) :
    (sortedSet keys).Pairwise fun k l => compare k l = .lt :=
  (SortedMap.ascending_ofList _).pairwise_keys

/-- Lists of strictly ascending keys with the same keys are the same. -/
theorem eq_of_mem_iff_of_ascending {κ : Type} [Ord κ] [TransOrd κ] {ks ls : List κ}
    (hks : ks.Pairwise fun k l => compare k l = .lt) (hls : ls.Pairwise fun k l => compare k l = .lt)
    (h : ∀ k, k ∈ ks ↔ k ∈ ls) : ks = ls := by
  have : Antisymm fun k l : κ => compare k l = .lt :=
    ⟨fun k l hkl hlk => absurd (hkl.symm.trans (OrientedCmp.gt_of_lt hlk)) (by decide)⟩
  have : Irrefl fun k l : κ => compare k l = .lt :=
    ⟨fun k hk => absurd (ReflOrd.compare_self.symm.trans hk) (by decide)⟩
  exact hks.eq_of_mem_iff hls h

namespace State

/-- Files are collected from those on the disk. -/
theorem mem_keys_of_mem_collectFiles {files : FileMap} {folders : List Path} {p : Path}
    (h : p ∈ (collectFiles files.disk folders).1) : p ∈ files.keys := by
  obtain ⟨listed, hmem, hlisted⟩ := List.mem_flatMap.mp (mem_of_mem_sortedSet h)
  obtain ⟨folder, _, rfl⟩ := List.mem_map.mp hmem
  exact (List.mem_filter.mp hlisted).1

/-- **Nothing is listed twice, and no NED file is overlooked.** However the source folders of the projects
lie, listing them gives the NED files of the disk that are not loaded, each once. -/
theorem missing_eq (st : State) {files : FileMap} (hfiles : files.Ascending) :
    st.missing files =
      files.keys.filter fun p => (st.store.at? p).isNone && st.registry.isNedFile p := by
  unfold missing
  refine eq_of_mem_iff_of_ascending ((pairwise_sortedSet _).filter _)
    (hfiles.pairwise_keys.filter _) fun p => ?_
  rw [List.mem_filter, List.mem_filter]
  refine and_congr_left fun hp => ⟨mem_keys_of_mem_collectFiles, fun hkey => ?_⟩
  -- The listing has the path in some spelling, and the disk has one spelling of it.
  have hned := (Bool.and_eq_true_iff.mp hp).2
  have hheld : files.contains p = true := SortedMap.contains_iff.mpr ⟨p, hkey, ReflOrd.compare_self⟩
  obtain ⟨q, hq, hcompare⟩ := exists_mem_collectFiles.mpr
    ⟨hheld, Registry.exists_folder_of_isNedFile hned⟩
  rwa [hfiles.eq_of_mem_keys (mem_keys_of_mem_collectFiles hq) hkey hcompare] at hq

/-! ### Loading paths one by one -/

/-- What happens between two states when the files at some paths, which were not loaded, are loaded from a
disk without telling anybody. -/
structure Gains (files : FileMap) (paths : List Path) (st st' : State) : Prop where
  /-- A file that was loaded stays as it is. -/
  loaded : ∀ path f, st.store.at? path = some f → st'.store.at? path = some f
  /-- The files at the paths are loaded, under new numbers. -/
  gained : ∀ p ∈ paths, ∃ text number, files.get? p = some text ∧ st.store.nextNumber ≤ number ∧
    st'.store.at? p = some (.ofText number p text)
  /-- No others are. -/
  others : ∀ path, (∀ p ∈ paths, compare p path ≠ .eq) → st'.store.at? path = st.store.at? path
  wellFormed : st.store.WellFormed → st'.store.WellFormed
  nextNumber : st.store.nextNumber ≤ st'.store.nextNumber
  registry : st'.registry = st.registry
  diagnostics : st'.diagnostics = st.diagnostics
  rehashCount : st'.rehashCount = st.rehashCount
  events : st'.events = st.events

variable {files : FileMap} {st st' st'' : State}

theorem Gains.refl (st : State) : Gains files [] st st where
  loaded _ _ h := h
  gained _ h := absurd h List.not_mem_nil
  others _ _ := rfl
  wellFormed h := h
  nextNumber := le_rfl
  registry := rfl
  diagnostics := rfl
  rehashCount := rfl
  events := rfl

/-- Files gained one list after the other. -/
theorem Gains.trans {ps qs : List Path} (h : Gains files ps st st') (h' : Gains files qs st' st'') :
    Gains files (ps ++ qs) st st'' where
  loaded path f hf := h'.loaded path f (h.loaded path f hf)
  gained p hp := by
    rcases List.mem_append.mp hp with hp | hp
    · obtain ⟨text, number, htext, hnumber, hat⟩ := h.gained p hp
      exact ⟨text, number, htext, hnumber, h'.loaded p _ hat⟩
    · obtain ⟨text, number, htext, hnumber, hat⟩ := h'.gained p hp
      exact ⟨text, number, htext, h.nextNumber.trans hnumber, hat⟩
  others path hne := by
    rw [h'.others path fun p hp => hne p (List.mem_append_right _ hp),
      h.others path fun p hp => hne p (List.mem_append_left _ hp)]
  wellFormed hst := h'.wellFormed (h.wellFormed hst)
  nextNumber := h.nextNumber.trans h'.nextNumber
  registry := h'.registry.trans h.registry
  diagnostics := h'.diagnostics.trans h.diagnostics
  rehashCount := h'.rehashCount.trans h.rehashCount
  events := h'.events.trans h.events

/-- **A file that is not loaded is loaded, and nothing else happens.** -/
theorem gains_loadSilently (hst : st.store.WellFormed) {p : Path} {text : String}
    (htext : files.get? p = some text)
    (hat : st.store.at? p = none) (s : Surroundings) :
    ((loadSilently p text : Plain Bool) s st).1 = true ∧
      Gains files [p] st ((loadSilently p text : Plain Bool) s st).2 := by
  have hrun : (loadSilently p text : Plain Bool) s st =
      (true, { (st.loadNew p text (Parse.ofText text)).2 with events := st.events }) := by
    rw [loadSilently, Plain.locked_apply]
    unfold applyParse
    rw [hat]
  have hadded : ∀ path, (st.store.add p text (Parse.ofText text)).2.at? path =
      if compare p path = .eq then some (.ofText st.store.nextNumber p text)
      else st.store.at? path := hst.at?_add p text (Parse.ofText text)
  rw [hrun]
  refine ⟨rfl, ?_, fun q hq => ?_, fun path hne => ?_, fun _ => hst.add hat text _, Nat.le_succ _, rfl, rfl,
    rfl, rfl⟩
  · intro path f hf
    refine (hadded path).trans ((if_neg fun hpath => ?_).trans hf)
    rw [← st.store.at?_congr hpath, hat] at hf
    exact absurd hf (by simp)
  · obtain rfl := List.mem_singleton.mp hq
    exact ⟨text, _, htext, le_rfl, (hadded q).trans (if_pos ReflOrd.compare_self)⟩
  · exact (hadded path).trans (if_neg (hne p List.mem_cons_self))

/-- Reading a list of new files gains each of them, once. -/
theorem gains_loadEach (hst : st.store.WellFormed) {paths : List Path}
    (hheld : ∀ p ∈ paths, files.contains p = true) (hdistinct : paths.Pairwise fun p q => compare p q = .lt)
    (hat : ∀ p ∈ paths, st.store.at? p = none) (s : Surroundings) :
    ((loadEach (paths.map fun p => (p, files.disk.textOf p)) :
        Plain (Nat × List WorkspaceError)) s st).1 = (paths.length, []) ∧
      Gains files paths st ((loadEach (paths.map fun p => (p, files.disk.textOf p)) :
        Plain (Nat × List WorkspaceError)) s st).2 := by
  induction paths generalizing st with
  | nil => exact ⟨rfl, .refl st⟩
  | cons p paths ih =>
    rw [List.pairwise_cons] at hdistinct
    obtain ⟨text, htext⟩ := FileMap.contains_iff_get?.mp (hheld p List.mem_cons_self)
    obtain ⟨hloaded, hfirst⟩ := gains_loadSilently hst htext (hat p List.mem_cons_self) s
    -- The paths are different, so those that follow are still not loaded.
    have hlater : ∀ q ∈ paths, ((loadSilently p text : Plain Bool) s st).2.store.at? q = none := by
      intro q hq
      rw [hfirst.others q fun r hr => ?_]
      · exact hat q (List.mem_cons_of_mem p hq)
      · rw [List.mem_singleton.mp hr, hdistinct.1 q hq]
        decide
    obtain ⟨hcount, hmore⟩ := ih (hfirst.wellFormed hst)
      (fun q hq => hheld q (List.mem_cons_of_mem p hq)) hdistinct.2 hlater
    rw [List.map_cons, FileMap.textOf_disk htext, loadEach, Plain.bind_apply, Plain.bind_apply, hcount,
      hloaded]
    exact ⟨rfl, hfirst.trans hmore⟩

/-- What the operation returns, and the state it leaves. -/
theorem gains_loadMissing (hst : st.store.WellFormed) {files : FileMap} (hfiles : files.Ascending)
    (provider : Provider) : ∃ later, Gains files (st.missing files) st later ∧
      (loadMissing : Plain (Except WorkspaceError Nat)) ⟨files.disk, provider⟩ st =
        (.ok (st.missing files).length,
          if st.missing files = [] then st else later.rehash.emit (.modelChanged none)) := by
  have hdistinct : (st.missing files).Pairwise fun p q => compare p q = .lt := by
    rw [st.missing_eq hfiles]
    exact hfiles.pairwise_keys.filter _
  have hat : ∀ p ∈ st.missing files, st.store.at? p = none := fun p hp =>
    Option.isNone_iff_eq_none.mp (Bool.and_eq_true_iff.mp (List.mem_filter.mp hp).2).1
  obtain ⟨hcount, hgains⟩ := gains_loadEach hst (fun p hp => contains_of_mem_missing hp) hdistinct hat
    ⟨files.disk, provider⟩
  refine ⟨_, hgains, ?_⟩
  rw [loadMissing_eq]
  by_cases hnone : st.missing files = []
  · rw [if_pos hnone, if_pos (List.isEmpty_iff.mpr hnone), hnone]
    rfl
  · rw [if_neg hnone, if_neg (by simpa using hnone)]
    dsimp only
    rw [hcount]
    rfl

/-- What was loaded is not missing any more, and nothing else has come to be. -/
theorem Gains.missing {later : State} (h : Gains files (st.missing files) st later)
    (hstore : st'.store = later.store) (hprojects : st'.registry.projects = later.registry.projects)
    (hfiles : files.Ascending) : st'.missing files = [] := by
  rw [st'.missing_eq hfiles]
  refine List.filter_eq_nil_iff.mpr fun p hp hmissing => ?_
  obtain ⟨hnone, hned⟩ := Bool.and_eq_true_iff.mp hmissing
  rw [hstore, Option.isNone_iff_eq_none] at hnone
  rw [Registry.isNedFile_congr (hprojects.trans (congrArg _ h.registry))] at hned
  cases hbefore : st.store.at? p with
  | some f =>
    rw [h.loaded p f hbefore] at hnone
    exact absurd hnone (by simp)
  | none =>
    have hwanted : p ∈ st.missing files := by
      rw [st.missing_eq hfiles]
      refine List.mem_filter.mpr ⟨hp, ?_⟩
      rw [hbefore, hned]
      rfl
    obtain ⟨_, _, _, _, hat⟩ := h.gained p hwanted
    rw [hat] at hnone
    exact absurd hnone (by simp)

/-- Tables are rebuilt once at most. -/
theorem rehashCount_rehash_le (st : State) : st.rehash.rehashCount ≤ st.rehashCount + 1 := by
  unfold State.rehash
  split
  · exact le_rfl
  · exact Nat.le_succ _

/-- **Everything that is missing is loaded, at once, and nothing else happens.** In every reachable state the
two maps of the files are in line. Take any state with such maps, and a disk whose files are known by path.
The operation returns the number of paths of the disk that are those of NED
files and were not loaded. These are loaded now, each with the text on the disk, under a new number and
without editors. The files that were loaded are what they were, and no path has got a file besides. The
projects and the diagnostics stay, the tables are computed at most once, and listeners are told just one
thing, that the model changed, and only if something was loaded. Asked again, the operation finds nothing to
do, and leaves the state as it is. -/
theorem loadMissing_complete (st : State) {files : FileMap} (hfiles : files.Ascending)
    (provider : Provider) :
    let wanted := files.keys.filter fun p => (st.store.at? p).isNone && st.registry.isNedFile p
    let load : Plain (Except WorkspaceError Nat) := loadMissing
    let r := load ⟨files.disk, provider⟩ st
    (st.Reachable → st.store.WellFormed) ∧ (st.store.WellFormed →
      r.1 = .ok wanted.length ∧
      (∀ p ∈ wanted, ∃ text number, files.get? p = some text ∧ st.store.nextNumber ≤ number ∧
        r.2.store.at? p = some (.ofText number p text)) ∧
      (∀ path f, st.store.at? path = some f → r.2.store.at? path = some f) ∧
      (∀ path, (∀ p ∈ wanted, compare p path ≠ .eq) → r.2.store.at? path = st.store.at? path) ∧
      r.2.registry.projects = st.registry.projects ∧ r.2.diagnostics = st.diagnostics ∧
      r.2.rehashCount ≤ st.rehashCount + 1 ∧
      r.2.events = st.events ++ (if wanted = [] then [] else [.modelChanged none]) ∧
      load ⟨files.disk, provider⟩ r.2 = (.ok 0, r.2)) := by
  intro wanted load r
  refine ⟨fun hreachable => hreachable.kept.store, fun hst => ?_⟩
  obtain ⟨later, hgains, hrun⟩ := gains_loadMissing hst hfiles provider
  have hwanted : st.missing files = wanted := st.missing_eq hfiles
  have hagain : ∀ st' : State, st'.store.WellFormed → st'.missing files = [] →
      load ⟨files.disk, provider⟩ st' = (.ok 0, st') := by
    intro st' hst' hnone
    obtain ⟨_, _, hrun'⟩ := gains_loadMissing hst' hfiles provider
    rw [hnone, if_pos rfl] at hrun'
    exact hrun'
  have hr : r = _ := hrun
  clear_value r
  subst hr
  by_cases hnone : wanted = []
  · -- Nothing is missing, so nothing is done.
    have hmissing : st.missing files = [] := hwanted.trans hnone
    rw [if_pos hmissing, if_pos hnone, hmissing, hnone, List.append_nil]
    exact ⟨rfl, fun _ hp => absurd hp List.not_mem_nil, fun _ _ h => h, fun _ _ => rfl, rfl, rfl,
      Nat.le_succ _, rfl, hagain st hst hmissing⟩
  · have hmissing : st.missing files ≠ [] := fun h => hnone (hwanted.symm.trans h)
    set r := later.rehash.emit (.modelChanged none) with hr
    have hstore : r.store = later.store := store_rehash later
    have hprojects : r.registry.projects = later.registry.projects := registry_rehash later
    rw [if_neg hmissing, if_neg hnone]
    refine ⟨by rw [hwanted], fun p hp => ?_, fun path f hf => ?_, fun path hne => ?_,
      hprojects.trans (congrArg _ hgains.registry), ?_, ?_, ?_,
      hagain r (hstore ▸ hgains.wellFormed hst) (hgains.missing hstore hprojects hfiles)⟩
    · rw [hstore]
      exact hgains.gained p (hwanted ▸ hp)
    · rw [hstore]
      exact hgains.loaded path f hf
    · rw [hstore]
      exact hgains.others path (hwanted ▸ hne)
    · exact (diagnostics_rehash later).trans hgains.diagnostics
    · exact (rehashCount_rehash_le later).trans (Nat.succ_le_succ hgains.rehashCount.le)
    · exact congrArg (· ++ [Event.modelChanged none]) ((events_rehash later).trans hgains.events)

/-- The source folders of one project lie in each other, and those of a second project lie in the first;
one of three NED files is loaded already. -/
theorem loadMissing_complete_nested :
    let files : FileMap := ⟨[(⟨"/p/a.ned"⟩, "simple A \x7b\x7d"), (⟨"/p/q/b.ned"⟩, "simple B \x7b\x7d"),
      (⟨"/p/s/c.ned"⟩, "simple C \x7b"), (⟨"/p/s/c.txt"⟩, "")]⟩
    let st := fresh [⟨"p", ⟨"/p"⟩, [⟨""⟩, ⟨"s"⟩], []⟩, ⟨"q", ⟨"/p/q"⟩, [⟨""⟩], ["p"]⟩] files.disk [⟨"/p/a.ned"⟩]
    let load : Plain (Except WorkspaceError Nat) := loadMissing
    let r := load ⟨files.disk, .fixed []⟩ st
    files.Ascending ∧ r.1 = .ok 2 ∧ r.2.rehashCount ≤ st.rehashCount + 1 ∧
      r.2.events = st.events ++ [.modelChanged none] ∧ load ⟨files.disk, .fixed []⟩ r.2 = (.ok 0, r.2) := by
  intro files st load r
  have hfiles : files.Ascending := by
    unfold SortedMap.Ascending
    decide +kernel
  have hwanted : (files.keys.filter fun p =>
      (st.store.at? p).isNone && st.registry.isNedFile p).length = 2 := by decide +kernel
  have hst : st.Reachable := reachable_fresh _ _ _
  clear_value st
  obtain ⟨hstore, hcomplete⟩ := loadMissing_complete st hfiles (.fixed [])
  obtain ⟨hcount, _, _, _, _, _, hrehash, hevents, hagain⟩ := hcomplete (hstore hst)
  rw [hwanted] at hcount
  rw [if_neg fun hnone => absurd (hwanted.symm.trans (congrArg List.length hnone)) (by simp)] at hevents
  exact ⟨hfiles, hcount, hrehash, hevents, hagain⟩

end State

end NedWorkspace
