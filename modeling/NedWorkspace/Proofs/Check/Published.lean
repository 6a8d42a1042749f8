/-
# Publishing the same again

A store of diagnostics `Shows` a list for a file if publishing that list for the file would change nothing,
not even the order of the entries. A list that was just published is shown (`shows_replace`), and stays so
while diagnostics are published for other files (`Shows.replace`). So after a report for each of several
files all of them are shown (`shows_publishAll`).

None of this needs the entries to be in order: an insertion looks for its key from the front, and it is
enough that the entries before it have smaller keys (`SortedMap.InPlace`).
-/

import NedWorkspace.Check.Store
import NedWorkspace.Proofs.Map.Laws

namespace NedWorkspace

open Std

namespace SortedMap

variable {κ α : Type} [Ord κ]

/-- A key stands with a value where an insertion of the key comes to it. -/
inductive InPlace (k : κ) (a : α) : List (κ × α) → Prop
  | here (es : List (κ × α)) : InPlace k a ((k, a) :: es)
  | there {e : κ × α} {es : List (κ × α)} : compare e.1 k = .lt → InPlace k a es → InPlace k a (e :: es)

variable [TransOrd κ] {k l : κ} {a b : α} {es : List (κ × α)}

/-- An entry put into a sorted list is in its place there. -/
theorem inPlace_insertEntry [LawfulEqOrd κ] (k : κ) (a : α) (es : List (κ × α)) :
    InPlace k a (insertEntry k a es) := by
  induction es with
  | nil => exact .here []
  | cons e es ih =>
    rw [insertEntry]
    cases hk : compare k e.1 with
    | lt => exact .here (e :: es)
    | eq =>
      obtain rfl := LawfulEqOrd.compare_eq_iff_eq.mp hk
      exact .here es
    | gt => exact .there (OrientedCmp.lt_of_gt hk) ih

namespace InPlace

/-- Another insertion of the same changes nothing. -/
theorem insertEntry_eq (h : InPlace k a es) : insertEntry k a es = es := by
  induction h with
  | here es =>
    rw [insertEntry]
    dsimp only
    rw [ReflOrd.compare_self]
  | there hlt _ ih =>
    rw [insertEntry, OrientedCmp.gt_of_lt hlt]
    exact congrArg _ ih

/-- An entry stays in its place when one with another key is put in. -/
theorem insertEntry (h : InPlace k a es) (hne : compare l k ≠ .eq) (b : α) :
    InPlace k a (insertEntry l b es) := by
  induction h with
  | here es =>
    rw [SortedMap.insertEntry]
    cases hl : compare l k with
    | lt => exact .there hl (.here es)
    | eq => exact absurd hl hne
    | gt => exact .here _
  | @there e es hlt hes ih =>
    rw [SortedMap.insertEntry]
    cases hl : compare l e.1 with
    | lt => exact .there (TransCmp.lt_trans hl hlt) (.there hlt hes)
    | eq => exact .there hlt hes
    | gt => exact .there hlt ih

/-- An entry stays in its place when another key is dropped. -/
theorem erase (h : InPlace k a es) (hne : compare l k ≠ .eq) :
    InPlace k a (es.filter fun e => compare e.1 l != .eq) := by
  induction h with
  | here es =>
    rw [List.filter_cons_of_pos (by simpa using fun heq => hne (OrientedCmp.eq_symm heq))]
    exact .here _
  | @there e es hlt _ ih =>
    by_cases he : compare e.1 l = .eq
    · rw [List.filter_cons_of_neg (by simpa using he)]
      exact ih
    · rw [List.filter_cons_of_pos (by simpa using he)]
      exact .there hlt ih

/-- An entry in its place is the one that is looked up. -/
theorem get? {m : SortedMap κ α} (h : InPlace k a m.entries) : m.get? k = some a := by
  have hinsert : m.insert k a = m := congrArg mk h.insertEntry_eq
  rw [← hinsert, get?_insert, if_pos ReflOrd.compare_self]

end InPlace

omit [TransOrd κ] in
/-- To drop a key that has no entry changes nothing. -/
theorem erase_of_get?_none {m : SortedMap κ α} (h : m.get? k = none) : m.erase k = m := by
  have hnone := List.find?_eq_none.mp (Option.map_eq_none_iff.mp h)
  exact congrArg mk (List.filter_eq_self.mpr fun e he => by simpa using hnone e he)

end SortedMap

namespace DiagnosticStore

open SortedMap

variable {s : DiagnosticStore} {id file : FileId} {ds : List Diagnostic}

/-- The store has these diagnostics for a file, and has them where they would be published. -/
structure Shows (s : DiagnosticStore) (id : FileId) (ds : List Diagnostic) : Prop where
  absent : ds = [] → s.byFile.get? id = none
  inPlace : ds ≠ [] → InPlace id ds s.byFile.entries

/-- What a store shows for a file is what it answers. -/
theorem Shows.get (h : s.Shows id ds) : s.get id = ds := by
  unfold DiagnosticStore.get
  by_cases hds : ds = []
  · rw [h.absent hds, hds]
    rfl
  · rw [(h.inPlace hds).get?]
    rfl

/-- **What is shown can be published again without effect.** -/
theorem Shows.replace_eq (h : s.Shows id ds) : s.replace id ds = (false, s) := by
  unfold DiagnosticStore.replace
  by_cases hds : ds = []
  · have hnone := h.absent hds
    rw [if_pos (List.isEmpty_iff.mpr hds), erase_of_get?_none hnone, contains, hnone]
    rfl
  · have hplace := h.inPlace hds
    have hinsert : s.byFile.insert id ds = s.byFile := congrArg SortedMap.mk hplace.insertEntry_eq
    rw [if_neg (by simpa using hds), hplace.get?, hinsert]
    simp

/-- After a replacement the store shows what it was given. -/
theorem shows_replace (s : DiagnosticStore) (id : FileId) (ds : List Diagnostic) :
    (s.replace id ds).2.Shows id ds := by
  unfold DiagnosticStore.replace
  by_cases hds : ds = []
  · rw [if_pos (List.isEmpty_iff.mpr hds)]
    exact ⟨fun _ => (get?_erase ..).trans (if_pos ReflOrd.compare_self), fun hne => absurd hds hne⟩
  · rw [if_neg (by simpa using hds)]
    exact ⟨fun hnil => absurd hnil hds, fun _ => inPlace_insertEntry ..⟩

/-- Publishing for other files leaves alone what is shown. -/
theorem Shows.replace (h : s.Shows id ds) (hne : file ≠ id) (ds' : List Diagnostic) :
    (s.replace file ds').2.Shows id ds := by
  have hcompare : compare file id ≠ .eq := fun heq => hne (LawfulEqOrd.compare_eq_iff_eq.mp heq)
  unfold DiagnosticStore.replace
  split
  · exact ⟨fun hds => (get?_erase ..).trans ((if_neg hcompare).trans (h.absent hds)),
      fun hds => (h.inPlace hds).erase hcompare⟩
  · exact ⟨fun hds => (get?_insert ..).trans ((if_neg hcompare).trans (h.absent hds)),
      fun hds => (h.inPlace hds).insertEntry hcompare ds'⟩

/-- A replacement adds no file but its own. -/
theorem mem_files_replace (h : id ∈ (s.replace file ds).2.files) : id = file ∨ id ∈ s.files := by
  unfold DiagnosticStore.replace at h
  split at h
  · obtain ⟨e, he, rfl⟩ := List.mem_map.mp h
    exact .inr (List.mem_map_of_mem (List.mem_filter.mp he).1)
  · obtain ⟨e, he, rfl⟩ := List.mem_map.mp h
    exact (mem_insertEntry he).imp LawfulEqOrd.compare_eq_iff_eq.mp List.mem_map_of_mem

/-- A file whose diagnostics were removed has none, and no other file has got any. -/
theorem mem_files_foldl_remove {gone : List FileId}
    (h : id ∈ (gone.foldl (fun ds f => (ds.remove f).2) s).files) : id ∈ s.files ∧ id ∉ gone := by
  induction gone generalizing s with
  | nil => exact ⟨h, List.not_mem_nil⟩
  | cons f gone ih =>
    obtain ⟨hmem, hgone⟩ := ih h
    obtain ⟨e, he, rfl⟩ := List.mem_map.mp hmem
    obtain ⟨he, hne⟩ := List.mem_filter.mp he
    refine ⟨List.mem_map_of_mem he, fun hcons => ?_⟩
    rcases List.mem_cons.mp hcons with rfl | hcons
    · exact absurd ReflOrd.compare_self (bne_iff_ne.mp hne)
    · exact hgone hcons

/-! ### One report for each of several files -/

/-- Publishes one report after another. -/
def publishAll (s : DiagnosticStore) (reports : List (FileId × List Diagnostic)) : DiagnosticStore :=
  reports.foldl (fun s r => (s.replace r.1 r.2).2) s

variable {reports : List (FileId × List Diagnostic)}

/-- Reports for other files leave what is shown for a file alone. -/
theorem Shows.publishAll (h : s.Shows id ds) (hreports : id ∉ reports.map Prod.fst) :
    (s.publishAll reports).Shows id ds := by
  induction reports generalizing s with
  | nil => exact h
  | cons r reports ih =>
    rw [List.map_cons, List.mem_cons, not_or] at hreports
    exact ih (h.replace (Ne.symm hreports.1) r.2) hreports.2

/-- **Reports on different files are all shown in the end.** -/
theorem shows_publishAll (s : DiagnosticStore) (hnodup : (reports.map Prod.fst).Nodup) :
    ∀ r ∈ reports, (s.publishAll reports).Shows r.1 r.2 := by
  induction reports generalizing s with
  | nil => exact fun _ hr => absurd hr List.not_mem_nil
  | cons r reports ih =>
    rw [List.map_cons, List.nodup_cons] at hnodup
    intro x hx
    rcases List.mem_cons.mp hx with rfl | hx
    · exact (shows_replace s x.1 x.2).publishAll hnodup.1
    · exact ih _ hnodup.2 x hx

/-- Publishing adds no file but those it reports on. -/
theorem mem_files_publishAll (h : id ∈ (s.publishAll reports).files) :
    id ∈ reports.map Prod.fst ∨ id ∈ s.files := by
  induction reports generalizing s with
  | nil => exact .inr h
  | cons r reports ih =>
    rw [List.map_cons, List.mem_cons]
    rcases ih h with hmem | hmem
    · exact .inl (.inr hmem)
    · exact (mem_files_replace hmem).imp_left .inl

end DiagnosticStore

end NedWorkspace
