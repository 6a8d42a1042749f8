/-
# What a store of diagnostics says of its changes

SPEC_FULL, section 4.6: diagnostics are published per file.

Publishing, removing, and following the nodes of a merged tree each set the diagnostics of one file and say
whether they are others than before (`DiagnosticStore.Sets`). The three find this out in different ways: a
removal looks whether there was an entry, a publication whether the new list differs from the entry, a merge
whether the entry came out different. They agree only because no file has an entry without diagnostics
(`DiagnosticStore.Tidy`): then a merge is a publication (`remap_eq_replace`), as a removal always is. Every
call keeps the store so (`Tidy.step`), and the result is `DiagnosticStore.reports_truthful`.
-/

import Mathlib.Data.List.Induction
import NedWorkspace.Proofs.Check.Published
import NedWorkspace.Proofs.Syntax.NodeIdentity

namespace NedWorkspace

open Std

/-- A diagnostic before and after a tree was merged that it follows: if it is about a node it has got the
place where the node is, and all else is as it was. -/
structure Diagnostic.Follows (tree : Tree) (before after : Diagnostic) : Prop where
  same : after = { before with span := after.span }
  whole : before.node = none → after = before
  placed : ∀ n, before.node = some n → tree.spanOf? n = some after.span

namespace DiagnosticStore

variable {s : DiagnosticStore} {tree : Tree} {d : Diagnostic}

/-! ### The diagnostics of a file after a call -/

/-- Once the entry of a file is dropped the file has no diagnostics, and other files keep theirs. -/
theorem get_erase (s : DiagnosticStore) (file id : FileId) :
    get ⟨s.byFile.erase file⟩ id = if file = id then [] else s.get id := by
  unfold get
  rw [SortedMap.get?_erase]
  simp only [Std.LawfulEqOrd.compare_eq_iff_eq]
  split
  · rfl
  · rfl

/-- Publishing sets the diagnostics of one file. -/
theorem get_replace (s : DiagnosticStore) (file id : FileId) (ds : List Diagnostic) :
    (s.replace file ds).2.get id = if file = id then ds else s.get id := by
  unfold replace
  by_cases hempty : ds.isEmpty = true
  · rw [if_pos hempty, List.isEmpty_iff.mp hempty]
    exact s.get_erase file id
  · rw [if_neg hempty]
    unfold get
    rw [SortedMap.get?_insert]
    simp only [Std.LawfulEqOrd.compare_eq_iff_eq]
    split
    · rfl
    · rfl

/-- A new tree for a file keeps the diagnostics whose nodes it has, where they stand now. -/
theorem get_remap (s : DiagnosticStore) (file id : FileId) (tree : Tree) :
    (s.remap file tree).2.get id =
      if file = id then ((s.get id).filter (survives tree)).map (Diagnostic.locate tree)
      else s.get id := by
  cases hbefore : s.byFile.get? file with
  | none =>
    have hsame : (s.remap file tree).2 = s := by simp [remap, hbefore]
    rw [hsame]
    split
    · rename_i heq
      rw [← heq, get, hbefore]
      rfl
    · rfl
  | some before =>
    have hreplace : (s.remap file tree).2 =
        (s.replace file ((before.filter (survives tree)).map (Diagnostic.locate tree))).2 := by
      simp only [remap, replace, hbefore]
      split <;> rfl
    rw [hreplace, get_replace]
    split
    · rename_i heq
      rw [← heq, get, hbefore]
      rfl
    · rfl

/-- What is left when the diagnostics of some files are removed. -/
theorem get_foldl_remove (gone : List FileId) (s : DiagnosticStore) (id : FileId) :
    (gone.foldl (fun ds f => (ds.remove f).2) s).get id = if id ∈ gone then [] else s.get id := by
  induction gone generalizing s with
  | nil => rfl
  | cons file gone ih =>
    rw [List.foldl_cons, ih, show (s.remove file).2.get id = _ from s.get_erase file id]
    by_cases hfile : file = id
    · rw [if_pos hfile, if_pos (List.mem_cons.mpr (.inl hfile.symm))]
      split <;> rfl
    · have hmem : id ∈ file :: gone ↔ id ∈ gone := by
        rw [List.mem_cons]
        exact ⟨fun h => h.resolve_left fun heq => hfile heq.symm, .inr⟩
      rw [if_neg hfile]
      simp only [hmem]

/-- A file that has diagnostics has an entry. -/
theorem mem_files_of_get {id : FileId} (h : s.get id ≠ []) : id ∈ s.files := by
  cases hget : s.byFile.get? id with
  | none => exact absurd (by rw [get, hget]; rfl) h
  | some ds =>
    obtain ⟨key, hmem, hkey⟩ := SortedMap.mem_of_get? hget
    obtain rfl := Std.LawfulEqOrd.compare_eq_iff_eq.mp hkey
    exact List.mem_map_of_mem (f := Prod.fst) hmem

/-! ### What a call changes and reports -/

/-- The entries are in the order of the files, each file has one at most, and none is empty. -/
structure Tidy (s : DiagnosticStore) : Prop where
  ascending : s.byFile.Ascending
  nonempty : ∀ e ∈ s.byFile.entries, e.2 ≠ []

/-- A call gives a file these diagnostics, leaves the other entries alone, and says whether the diagnostics
of the file are others than before. -/
structure Sets (s : DiagnosticStore) (file : FileId) (ds : List Diagnostic) (r : Bool × DiagnosticStore) :
    Prop where
  get : r.2.get file = ds
  others : r.2.byFile.erase file = s.byFile.erase file
  report : r.1 = true ↔ r.2.get file ≠ s.get file

/-- No entry of a tidy store is empty. -/
theorem Tidy.get?_ne (h : s.Tidy) (file : FileId) : s.byFile.get? file ≠ some [] := by
  intro hget
  obtain ⟨key, hmem, _⟩ := SortedMap.mem_of_get? hget
  exact h.nonempty _ hmem rfl

/-- A replacement sets the entry of its file, and its flag tells whether that made a difference. -/
theorem sets_replace (h : s.Tidy) (file : FileId) (ds : List Diagnostic) :
    s.Sets file ds (s.replace file ds) := by
  have hget : (s.replace file ds).2.get file = ds := by rw [get_replace, if_pos rfl]
  refine ⟨hget, ?_, ?_⟩
  · unfold replace
    split
    · exact SortedMap.erase_erase ..
    · exact SortedMap.erase_insert ..
  · rw [hget]
    have hbefore := h.get?_ne file
    unfold replace DiagnosticStore.get
    by_cases hds : ds = []
    · rw [if_pos (List.isEmpty_iff.mpr hds), SortedMap.contains]
      cases hfound : s.byFile.get? file with
      | none => simp [hds]
      | some before => simpa [hds, hfound, eq_comm] using hbefore
    · rw [if_neg (by simpa using hds)]
      cases s.byFile.get? file with
      | none => simpa using hds
      | some before => simpa using ne_comm

/-- If no entry is empty, to let diagnostics follow their nodes is to publish those that stay. -/
theorem remap_eq_replace (h : s.Tidy) (file : FileId) (tree : Tree) : s.remap file tree =
    s.replace file (((s.get file).filter (survives tree)).map (Diagnostic.locate tree)) := by
  have hbefore := h.get?_ne file
  unfold remap replace DiagnosticStore.get
  cases hfound : s.byFile.get? file with
  | none => simp [SortedMap.contains, hfound, SortedMap.erase_of_get?_none hfound]
  | some before =>
    rw [Option.getD_some]
    dsimp only
    by_cases hgone : ((before.filter (survives tree)).map (Diagnostic.locate tree)).isEmpty = true
    · have hne : (before.filter (survives tree)).map (Diagnostic.locate tree) ≠ before := fun heq =>
        hbefore (by rw [hfound, ← heq, List.isEmpty_iff.mp hgone])
      rw [if_pos hgone, if_pos hgone, decide_eq_true hne, SortedMap.contains, hfound, Option.isSome_some]
    · rw [if_neg hgone, if_neg hgone, decide_eq_decide.mpr ne_comm]

/-- A diagnostic survives if it is about no node, or its node occurs in the tree. -/
theorem survives_eq (tree : Tree) (d : Diagnostic) :
    survives tree d = d.node.all fun n => decide (n ∈ tree.ids) := by
  unfold survives
  cases d.node with
  | none => rfl
  | some n => exact Bool.eq_iff_iff.mpr (Tree.isSome_spanOf?.trans (by simp))

/-- A diagnostic whose node survives follows it. -/
theorem follows_locate (h : survives tree d = true) : d.Follows tree (d.locate tree) where
  same := d.locate_eq tree
  whole := Diagnostic.locate_of_none
  placed n hn := by
    rw [survives, hn] at h
    obtain ⟨span, hspan⟩ := Option.isSome_iff_exists.mp h
    rw [hspan, Diagnostic.locate_of_some hn hspan]

/-- What stays when diagnostics follow their nodes. -/
theorem sets_remap (h : s.Tidy) (file : FileId) (tree : Tree) : ∃ after,
    List.Forall₂ (Diagnostic.Follows tree)
      ((s.get file).filter fun d => d.node.all fun n => decide (n ∈ tree.ids)) after ∧
    s.Sets file after (s.remap file tree) := by
  have hsurvives : (fun d : Diagnostic => d.node.all fun n => decide (n ∈ tree.ids)) = survives tree :=
    funext fun d => (survives_eq tree d).symm
  rw [hsurvives, remap_eq_replace h]
  refine ⟨_, List.forall₂_map_right_iff.mpr (List.forall₂_same.mpr fun d hd => ?_), sets_replace h ..⟩
  exact follows_locate (List.mem_filter.mp hd).2

/-! ### One call after another -/

/-- A call that may change a store. -/
inductive Call where
  | replace (file : FileId) (diagnostics : List Diagnostic)
  | remap (file : FileId) (tree : Tree)
  | remove (file : FileId)
  | clear

/-- The store after a call. -/
def step (s : DiagnosticStore) : Call → DiagnosticStore
  | .replace file ds => (s.replace file ds).2
  | .remap file tree => (s.remap file tree).2
  | .remove file => (s.remove file).2
  | .clear => s.clear

/-- The store after calls on a new store, one after another. -/
def ofCalls (calls : List Call) : DiagnosticStore :=
  calls.foldl step {}

theorem tidy_empty : ({} : DiagnosticStore).Tidy :=
  ⟨SortedMap.ascending_empty, by simp⟩

/-- Replacing keeps a store tidy: an empty list drops the entry. -/
theorem Tidy.replace (h : s.Tidy) (file : FileId) (ds : List Diagnostic) :
    (s.replace file ds).2.Tidy := by
  unfold DiagnosticStore.replace
  by_cases hds : ds = []
  · rw [if_pos (List.isEmpty_iff.mpr hds)]
    exact ⟨h.ascending.erase file, fun e he => h.nonempty e (List.mem_filter.mp he).1⟩
  · rw [if_neg (by simpa using hds)]
    refine ⟨h.ascending.insert file ds, fun e he => ?_⟩
    rcases h.ascending.mem_insert he with hnew | ⟨key, hold⟩
    · rwa [hnew]
    · exact h.nonempty (key, e.2) hold

/-- Each call keeps a store tidy. -/
theorem Tidy.step (h : s.Tidy) (call : Call) : (s.step call).Tidy := by
  cases call with
  | replace file ds => exact h.replace file ds
  | remap file tree =>
    change (s.remap file tree).2.Tidy
    rw [remap_eq_replace h]
    exact h.replace ..
  | remove file => exact h.replace file []
  | clear => exact tidy_empty

/-- However it was called, a store is tidy. -/
theorem tidy_ofCalls (calls : List Call) : (ofCalls calls).Tidy := by
  unfold ofCalls
  induction calls using List.reverseRecOn with
  | nil => exact tidy_empty
  | append_singleton calls call ih =>
    rw [List.foldl_append]
    exact ih.step call

/-- **What a store says of its changes is true.** Whatever calls were made before, no file has an entry
without diagnostics, and publishing, removing and following a merged tree each set the diagnostics of their
file alone and tell whether these are others than before. Those that follow a tree are, in order, the ones
without a node and the ones whose node occurs in the tree. -/
theorem reports_truthful (calls : List Call) :
    (ofCalls calls).Tidy ∧
    (∀ file ds, (ofCalls calls).Sets file ds ((ofCalls calls).replace file ds)) ∧
    (∀ file, (ofCalls calls).Sets file [] ((ofCalls calls).remove file)) ∧
    ∀ file tree, ∃ after,
      List.Forall₂ (Diagnostic.Follows tree)
        (((ofCalls calls).get file).filter fun d => d.node.all fun n => decide (n ∈ tree.ids)) after ∧
      (ofCalls calls).Sets file after ((ofCalls calls).remap file tree) := by
  have htidy := tidy_ofCalls calls
  exact ⟨htidy, sets_replace htidy, fun file => sets_replace htidy file [], sets_remap htidy⟩

end DiagnosticStore

end NedWorkspace
