/-
# Laws of maps

What lookups give after an insertion or a removal, and what happens to the list of entries. A sorted
map that is built by insertions has its keys in strictly ascending order (`SortedMap.Ascending`); such
a map is fixed by its entries in any order (`SortedMap.entries_eq_of_perm`).
-/

import Mathlib.Tactic.Tauto
import NedWorkspace.Map.Ordered
import NedWorkspace.Map.Sorted
import NedWorkspace.Proofs.Map.Order

namespace NedWorkspace

open Std

namespace OrderedMap

variable {κ α : Type} [DecidableEq κ]

/-- What is looked up is an entry. -/
theorem mem_of_get? {m : OrderedMap κ α} {k : κ} {a : α} (h : m.get? k = some a) :
    (k, a) ∈ m.entries := by
  obtain ⟨e, he, rfl⟩ := Option.map_eq_some_iff.mp h
  have hkey : e.1 = k := by simpa using List.find?_some he
  rw [← hkey]
  exact List.mem_of_find?_eq_some he

/-- An entry of a map after an insertion is the new one or was there before. -/
theorem mem_insert {m : OrderedMap κ α} {k : κ} {a : α} {e : κ × α}
    (h : e ∈ (m.insert k a).entries) : e = (k, a) ∨ e ∈ m.entries := by
  have hlist : ∀ es : List (κ × α), e ∈ insertEntry k a es → e = (k, a) ∨ e ∈ es := by
    intro es
    induction es with
    | nil => simp [insertEntry]
    | cons d es ih =>
      intro he
      rw [insertEntry] at he
      split at he
      · rename_i hd
        rcases List.mem_cons.mp he with rfl | he
        · exact .inl (by rw [hd])
        · exact .inr (List.mem_cons_of_mem d he)
      · rcases List.mem_cons.mp he with rfl | he
        · exact .inr List.mem_cons_self
        · exact (ih he).imp id (List.mem_cons_of_mem d)
  exact hlist m.entries h

/-- An insertion is seen under its key and under no other. -/
theorem get?_insert (m : OrderedMap κ α) (k l : κ) (a : α) :
    (m.insert k a).get? l = if l = k then some a else m.get? l := by
  by_cases h : l = k
  · rw [if_pos h, h, get?_insert_self]
  · rw [if_neg h, get?_insert_of_ne m a h]

/-- A removal is seen under its key and under no other. -/
theorem get?_erase (m : OrderedMap κ α) (k l : κ) :
    (m.erase k).get? l = if l = k then none else m.get? l := by
  by_cases h : l = k
  · rw [if_pos h, h, get?_erase_self]
  · rw [if_neg h, get?_erase_of_ne m h]

/-- The value of a key in what a filter by keys leaves. -/
theorem get?_filter_key (m : OrderedMap κ α) (p : κ → Prop) [DecidablePred p] (k : κ) :
    (m.filter fun k _ => decide ¬p k).get? k = if p k then none else m.get? k := by
  obtain ⟨es⟩ := m
  induction es with
  | nil => simp [get?, filter]
  | cons e es ih =>
    unfold get? filter at ih ⊢
    by_cases he : e.1 = k
    · by_cases hp : p k
      · simpa [List.filter_cons, he, hp] using ih
      · simp [he, hp]
    · by_cases hp : p e.1
      · simpa [List.filter_cons, he, hp] using ih
      · simpa [List.filter_cons, he, hp] using ih

omit [DecidableEq κ] in
theorem length_keys (m : OrderedMap κ α) : m.keys.length = m.size :=
  List.length_map ..

omit [DecidableEq κ] in
/-- Maps with the same keys are of the same size. -/
theorem size_of_keys {m m' : OrderedMap κ α} (h : m'.keys = m.keys) : m'.size = m.size := by
  rw [← length_keys, h, length_keys]

/-- A key that is there keeps its place. -/
theorem keys_insert_of_contains (m : OrderedMap κ α) {k : κ} (h : m.contains k = true) (a : α) :
    (m.insert k a).keys = m.keys := by
  obtain ⟨es⟩ := m
  change (insertEntry k a es).map Prod.fst = es.map Prod.fst
  induction es with
  | nil => exact absurd h (by simp [contains, get?])
  | cons e es ih =>
    rw [insertEntry]
    split
    · rfl
    · rename_i hne
      have hlater : contains ⟨es⟩ k = true := by
        rwa [contains, get?, List.find?_cons_of_neg (by simpa using hne)] at h
      rw [List.map_cons, List.map_cons, ih hlater]

/-- A new key goes to the end. -/
theorem entries_insert_of_get?_none {m : OrderedMap κ α} {k : κ} (a : α) (h : m.get? k = none) :
    (m.insert k a).entries = m.entries ++ [(k, a)] := by
  have hlist : ∀ es : List (κ × α), (∀ e ∈ es, e.1 ≠ k) → insertEntry k a es = es ++ [(k, a)] := by
    intro es hes
    induction es with
    | nil => rfl
    | cons e es ih =>
      rw [insertEntry, if_neg (hes e List.mem_cons_self),
        ih fun d hd => hes d (List.mem_cons_of_mem e hd)]
      rfl
  refine hlist m.entries fun e he heq => ?_
  have hnone := List.find?_eq_none.mp (Option.map_eq_none_iff.mp h) e he
  exact hnone (decide_eq_true heq)

/-- A new key comes last. -/
theorem keys_insert_of_get?_none {m : OrderedMap κ α} {k : κ} (a : α) (h : m.get? k = none) :
    (m.insert k a).keys = m.keys ++ [k] := by
  rw [keys, entries_insert_of_get?_none a h, List.map_append]
  rfl

/-- A new key makes the map larger by one. -/
theorem size_insert_of_get?_none {m : OrderedMap κ α} {k : κ} (a : α) (h : m.get? k = none) :
    (m.insert k a).size = m.size + 1 := by
  rw [← length_keys, keys_insert_of_get?_none a h, List.length_append, length_keys]
  rfl

/-- Setting a key to the value that it has changes nothing. -/
theorem insert_self {m : OrderedMap κ α} {k : κ} {a : α} (h : m.get? k = some a) :
    m.insert k a = m := by
  obtain ⟨es⟩ := m
  refine congrArg mk ?_
  induction es with
  | nil => exact nomatch h
  | cons e es ih =>
    by_cases he : e.1 = k
    · have hvalue : e.2 = a := by simpa [get?, List.find?_cons_of_pos, he] using h
      rw [insertEntry, if_pos he, ← hvalue]
    · have hrest : get? ⟨es⟩ k = some a := by
        simpa [get?, List.find?_cons_of_neg, he] using h
      rw [insertEntry, if_neg he, ih hrest]

/-- Of two values that a key is set to, the later one counts. -/
theorem insert_insert (m : OrderedMap κ α) (k : κ) (a b : α) :
    (m.insert k a).insert k b = m.insert k b := by
  obtain ⟨es⟩ := m
  refine congrArg mk ?_
  change insertEntry k b (insertEntry k a es) = insertEntry k b es
  induction es with
  | nil => simp [insertEntry]
  | cons e es ih =>
    by_cases he : e.1 = k
    · simp [insertEntry, he]
    · simp [insertEntry, he, ih]

/-- No key gets a second entry by an insertion. -/
theorem nodup_keys_insert {m : OrderedMap κ α} (h : m.keys.Nodup) (k : κ) (a : α) :
    (m.insert k a).keys.Nodup := by
  obtain ⟨es⟩ := m
  change (es.map Prod.fst).Nodup at h
  change ((insertEntry k a es).map Prod.fst).Nodup
  induction es with
  | nil => simp [insertEntry]
  | cons e es ih =>
    rw [List.map_cons, List.nodup_cons] at h
    rw [insertEntry]
    split
    · rw [List.map_cons, List.nodup_cons]
      exact h
    · rename_i hne
      rw [List.map_cons, List.nodup_cons]
      refine ⟨fun hmem => ?_, ih h.2⟩
      obtain ⟨e', he', heq⟩ := List.mem_map.mp hmem
      rcases mem_insert (m := ⟨es⟩) he' with rfl | he'
      · exact hne heq.symm
      · exact h.1 (heq ▸ List.mem_map_of_mem he')

theorem nodup_keys_erase {m : OrderedMap κ α} (h : m.keys.Nodup) (k : κ) :
    (m.erase k).keys.Nodup :=
  h.sublist (List.filter_sublist.map _)

/-- An entry is found by its key if no other entry has the key. -/
theorem get?_of_mem {m : OrderedMap κ α} (h : m.keys.Nodup) {k : κ} {a : α}
    (hmem : (k, a) ∈ m.entries) : m.get? k = some a := by
  obtain ⟨es⟩ := m
  induction es with
  | nil => exact absurd hmem (by simp)
  | cons e es ih =>
    obtain ⟨hhead, htail⟩ := List.nodup_cons.mp h
    rcases List.mem_cons.mp hmem with rfl | hmem
    · simp [get?]
    · have hne : ¬ e.1 = k := fun heq => hhead (heq ▸ List.mem_map_of_mem (f := Prod.fst) hmem)
      have hrest := ih htail hmem
      unfold get? at hrest ⊢
      rwa [List.find?_cons_of_neg (by simpa using hne)]

end OrderedMap

namespace SortedMap

variable {κ α : Type} [Ord κ]

/-- What is looked up is an entry, under a key that compares as equal. -/
theorem mem_of_get? {m : SortedMap κ α} {k : κ} {a : α} (h : m.get? k = some a) :
    ∃ l, (l, a) ∈ m.entries ∧ compare l k = .eq := by
  obtain ⟨e, he, rfl⟩ := Option.map_eq_some_iff.mp h
  exact ⟨e.1, List.mem_of_find?_eq_some he, by simpa using List.find?_some he⟩

/-- A key has a value exactly if it is among the keys. -/
theorem contains_iff {m : SortedMap κ α} {k : κ} :
    m.contains k = true ↔ ∃ l ∈ m.keys, compare l k = .eq := by
  simp [contains, get?, keys]

/-- The keys are in strictly ascending order. -/
def Ascending (m : SortedMap κ α) : Prop :=
  m.entries.Pairwise fun a b => compare a.1 b.1 = .lt

theorem ascending_empty : ({} : SortedMap κ α).Ascending := List.Pairwise.nil

/-- A removal leaves the keys in order. -/
theorem Ascending.erase {m : SortedMap κ α} (h : m.Ascending) (k : κ) : (m.erase k).Ascending :=
  List.Pairwise.filter _ h

section Map

variable {β : Type}

/-- The map with each value replaced by what is read off it. -/
def map (view : α → β) (m : SortedMap κ α) : SortedMap κ β :=
  ⟨m.entries.map fun e => (e.1, view e.2)⟩

omit [Ord κ] in
theorem keys_map (view : α → β) (m : SortedMap κ α) : (m.map view).keys = m.keys := by
  simp [keys, map]

omit [Ord κ] in
theorem values_map (view : α → β) (m : SortedMap κ α) : (m.map view).values = m.values.map view := by
  simp [values, map]

/-- Reading something off the values keeps the order of the keys. -/
theorem Ascending.map {m : SortedMap κ α} (h : m.Ascending) (view : α → β) :
    (m.map view).Ascending :=
  List.pairwise_map.mpr h

/-- To look at the values through a function, it does not matter when the function is applied. -/
theorem get?_map (view : α → β) (m : SortedMap κ α) (k : κ) :
    (m.map view).get? k = (m.get? k).map view := by
  unfold get? map
  rw [List.find?_map, Option.map_map, Option.map_map]
  rfl

/-- Insertion does not depend on how values are looked at. -/
theorem map_insert (view : α → β) (m : SortedMap κ α) (k : κ) (a : α) :
    (m.insert k a).map view = (m.map view).insert k (view a) := by
  have hlist : ∀ es : List (κ × α), (insertEntry k a es).map (fun e => (e.1, view e.2)) =
      insertEntry k (view a) (es.map fun e => (e.1, view e.2)) := by
    intro es
    induction es with
    | nil => rfl
    | cons e es ih =>
      rw [insertEntry, List.map_cons, insertEntry]
      cases compare k e.1 with
      | lt => rfl
      | eq => rfl
      | gt => rw [List.map_cons, ih]
  exact congrArg mk (hlist m.entries)

/-- Removal does not depend on how values are looked at. -/
theorem map_erase (view : α → β) (m : SortedMap κ α) (k : κ) :
    (m.erase k).map view = (m.map view).erase k := by
  unfold erase map
  rw [List.filter_map]
  rfl

end Map

variable [TransOrd κ]

/-- Keys that compare as equal have one value. -/
theorem get?_congr (m : SortedMap κ α) {k l : κ} (h : compare k l = .eq) : m.get? k = m.get? l := by
  have hkey : (fun e : κ × α => compare e.1 k == .eq) = fun e => compare e.1 l == .eq :=
    funext fun e => by rw [TransCmp.congr_right h]
  unfold get?
  rw [hkey]

theorem get?_insert (m : SortedMap κ α) (k l : κ) (a : α) :
    (m.insert k a).get? l = if compare k l = .eq then some a else m.get? l := by
  have hlist : ∀ es : List (κ × α), ((insertEntry k a es).find? fun e => compare e.1 l == .eq).map
      Prod.snd = if compare k l = .eq then some a
        else (es.find? fun e => compare e.1 l == .eq).map Prod.snd := by
    intro es
    induction es with
    | nil => by_cases h : compare k l = .eq <;> simp [insertEntry, h]
    | cons e es ih =>
      rw [insertEntry]
      cases hk : compare k e.1 with
      | lt => by_cases h : compare k l = .eq <;> simp [h]
      | eq =>
        have hcongr : compare e.1 l = compare k l := (TransCmp.congr_left hk).symm
        by_cases h : compare k l = .eq <;> simp [hcongr, h]
      | gt =>
        by_cases h : compare e.1 l = .eq
        · have hkl : compare k l = .gt := by rw [← hk]; exact (TransCmp.congr_right h).symm
          simp [h, hkl]
        · simpa [List.find?_cons, h] using ih
  exact hlist m.entries

theorem get?_erase (m : SortedMap κ α) (k l : κ) :
    (m.erase k).get? l = if compare k l = .eq then none else m.get? l := by
  have hlist : ∀ es : List (κ × α), ((es.filter fun e => compare e.1 k != .eq).find?
      fun e => compare e.1 l == .eq).map Prod.snd = if compare k l = .eq then none
        else (es.find? fun e => compare e.1 l == .eq).map Prod.snd := by
    intro es
    induction es with
    | nil => simp
    | cons e es ih =>
      by_cases hk : compare e.1 k = .eq
      · have hcongr : compare e.1 l = compare k l := TransCmp.congr_left hk
        by_cases h : compare k l = .eq <;> simpa [List.find?_cons, hk, hcongr, h] using ih
      · by_cases hl : compare e.1 l = .eq
        · have hkl : compare k l ≠ .eq := fun h =>
            hk ((TransCmp.congr_right h).trans hl)
          simp [hk, hl, hkl]
        · simpa [List.find?_cons, hk, hl] using ih
  exact hlist m.entries

/-- In ascending order, what stands under a key is what a lookup gives. -/
theorem Ascending.get?_of_mem {m : SortedMap κ α} (h : m.Ascending) {l k : κ} {a : α}
    (hmem : (l, a) ∈ m.entries) (hkey : compare l k = .eq) : m.get? k = some a := by
  have hlist : ∀ es : List (κ × α), es.Pairwise (fun a b => compare a.1 b.1 = .lt) →
      (l, a) ∈ es → es.find? (fun e => compare e.1 k == .eq) = some (l, a) := by
    intro es hes hm
    induction es with
    | nil => simp at hm
    | cons e es ih =>
      rw [List.pairwise_cons] at hes
      rcases List.mem_cons.mp hm with rfl | hm
      · simp [hkey]
      · have hlt : compare e.1 k = .lt := by
          rw [← hes.1 _ hm]
          exact (TransCmp.congr_right hkey).symm
        rw [List.find?_cons, hlt]
        exact ih hes.2 hm
  rw [get?, hlist m.entries h hmem]
  rfl

/-- An insertion adds no entry but the one under its key. -/
theorem mem_insertEntry {k : κ} {a : α} {es : List (κ × α)} {e : κ × α}
    (h : e ∈ insertEntry k a es) : compare e.1 k = .eq ∨ e ∈ es := by
  induction es with
  | nil =>
    obtain rfl := List.mem_singleton.mp h
    exact .inl ReflOrd.compare_self
  | cons d es ih =>
    rw [insertEntry] at h
    cases hk : compare k d.1 with
    | lt =>
      rw [hk] at h
      rcases List.mem_cons.mp h with rfl | h
      · exact .inl ReflOrd.compare_self
      · exact .inr h
    | eq =>
      rw [hk] at h
      rcases List.mem_cons.mp h with rfl | h
      · exact .inl (OrientedCmp.eq_comm.mp hk)
      · exact .inr (List.mem_cons_of_mem d h)
    | gt =>
      rw [hk] at h
      rcases List.mem_cons.mp h with rfl | h
      · exact .inr List.mem_cons_self
      · exact (ih h).imp id (List.mem_cons_of_mem d)

/-- An insertion leaves the keys in order. -/
theorem Ascending.insert {m : SortedMap κ α} (h : m.Ascending) (k : κ) (a : α) :
    (m.insert k a).Ascending := by
  have hlist : ∀ es : List (κ × α), es.Pairwise (fun a b => compare a.1 b.1 = .lt) →
      (insertEntry k a es).Pairwise (fun a b => compare a.1 b.1 = .lt) := by
    intro es hes
    induction es with
    | nil => exact List.pairwise_singleton ..
    | cons e es ih =>
      have hes' := List.pairwise_cons.mp hes
      rw [insertEntry]
      cases hk : compare k e.1 with
      | lt =>
        refine List.pairwise_cons.mpr ⟨fun d hd => ?_, hes⟩
        rcases List.mem_cons.mp hd with rfl | hd
        · exact hk
        · exact TransCmp.lt_trans hk (hes'.1 d hd)
      | eq => exact List.pairwise_cons.mpr ⟨fun d hd => hes'.1 d hd, hes'.2⟩
      | gt =>
        have hek : compare e.1 k = .lt := OrientedCmp.lt_of_gt hk
        refine List.pairwise_cons.mpr ⟨fun d hd => ?_, ih hes'.2⟩
        rcases mem_insertEntry hd with hdk | hd
        · rw [← hek]
          exact TransCmp.congr_right hdk
        · exact hes'.1 d hd
  exact hlist m.entries h

/-- Setting a key leaves the other entries alone. -/
theorem erase_insert (m : SortedMap κ α) (k : κ) (a : α) : (m.insert k a).erase k = m.erase k := by
  have hlist : ∀ es : List (κ × α), (insertEntry k a es).filter (fun e => compare e.1 k != .eq) =
      es.filter fun e => compare e.1 k != .eq := by
    intro es
    induction es with
    | nil => simp [insertEntry]
    | cons e es ih =>
      rw [insertEntry]
      cases hk : compare k e.1 with
      | lt => simp
      | eq => simp [OrientedCmp.eq_comm.mp hk]
      | gt => rw [List.filter_cons, ih, List.filter_cons]
  exact congrArg mk (hlist m.entries)

omit [TransOrd κ] in
/-- A key is removed once. -/
theorem erase_erase (m : SortedMap κ α) (k : κ) : (m.erase k).erase k = m.erase k := by
  simp [erase, List.filter_filter]

/-- A value after an insertion is the new one or was there before. -/
theorem Ascending.mem_insert {m : SortedMap κ α} (hm : m.Ascending) {k : κ} {a : α} {e : κ × α}
    (h : e ∈ (m.insert k a).entries) : e.2 = a ∨ ∃ l, (l, e.2) ∈ m.entries := by
  have hget := (hm.insert k a).get?_of_mem h ReflOrd.compare_self
  rw [get?_insert] at hget
  split at hget
  · exact .inl (Option.some.inj hget).symm
  · obtain ⟨l, hl, _⟩ := mem_of_get? hget
    exact .inr ⟨l, hl⟩

/-- A key that is new adds an entry. -/
theorem insert_perm_of_get?_none {m : SortedMap κ α} {k : κ} (a : α) (h : m.get? k = none) :
    (m.insert k a).entries.Perm ((k, a) :: m.entries) := by
  have hlist : ∀ es : List (κ × α), (∀ e ∈ es, compare e.1 k ≠ .eq) →
      (insertEntry k a es).Perm ((k, a) :: es) := by
    intro es hes
    induction es with
    | nil => exact List.Perm.refl _
    | cons e es ih =>
      rw [insertEntry]
      cases hk : compare k e.1 with
      | lt => exact List.Perm.refl _
      | eq => exact absurd (OrientedCmp.eq_comm.mp hk) (hes e List.mem_cons_self)
      | gt =>
        exact ((ih fun d hd => hes d (List.mem_cons_of_mem e hd)).cons e).trans
          (List.Perm.swap (k, a) e es)
  refine hlist m.entries fun e he heq => ?_
  have hnone := List.find?_eq_none.mp (Option.map_eq_none_iff.mp h) e he
  simp [heq] at hnone

/-- A key that is there keeps its entry in place. -/
theorem Ascending.insert_of_get? {m : SortedMap κ α} (hm : m.Ascending) {k : κ} {b : α} (a : α)
    (h : m.get? k = some b) : ∃ front l back, m.entries = front ++ (l, b) :: back ∧
      compare l k = .eq ∧ (m.insert k a).entries = front ++ (l, a) :: back := by
  obtain ⟨l, hl, hkey⟩ := mem_of_get? h
  obtain ⟨front, back, hsplit⟩ := List.append_of_mem hl
  refine ⟨front, l, back, hsplit, hkey, ?_⟩
  have hfront : ∀ e ∈ front, compare k e.1 = .gt := by
    intro e he
    have hlt : compare e.1 l = .lt := by
      have hpair := hm
      rw [Ascending, hsplit, List.pairwise_append] at hpair
      exact hpair.2.2 e he (l, b) List.mem_cons_self
    rw [← TransCmp.congr_left hkey]
    exact OrientedCmp.gt_of_lt hlt
  have hlist : ∀ es : List (κ × α), (∀ e ∈ es, compare k e.1 = .gt) →
      insertEntry k a (es ++ (l, b) :: back) = es ++ (l, a) :: back := by
    intro es hes
    induction es with
    | nil =>
      have heq : compare k l = .eq := OrientedCmp.eq_comm.mp hkey
      simp [insertEntry, heq]
    | cons e es ih =>
      rw [List.cons_append, insertEntry, hes e List.mem_cons_self,
        ih fun d hd => hes d (List.mem_cons_of_mem e hd)]
      rfl
  rw [SortedMap.insert, hsplit]
  exact hlist front hfront

/-- The entries after a key was set anew: the others, and the new one under the old spelling. -/
theorem Ascending.mem_insert_of_get? {m : SortedMap κ α} (hm : m.Ascending) {k : κ} {b : α} (a : α)
    (h : m.get? k = some b) : ∃ l, (l, b) ∈ m.entries ∧ compare l k = .eq ∧
      ∀ e, e ∈ (m.insert k a).entries ↔ e = (l, a) ∨ e ∈ m.entries ∧ e.1 ≠ l := by
  obtain ⟨front, l, back, hsplit, hkey, hinsert⟩ := hm.insert_of_get? a h
  have hne {e d : κ × α} (h : compare e.1 d.1 = .lt) : e.1 ≠ d.1 := fun heq => by
    rw [heq, ReflOrd.compare_self] at h
    exact nomatch h
  have hpair := hm
  rw [Ascending, hsplit, List.pairwise_append, List.pairwise_cons] at hpair
  obtain ⟨-, ⟨hback, -⟩, hfront⟩ := hpair
  refine ⟨l, by simp [hsplit], hkey, fun e => ?_⟩
  simp only [hinsert, hsplit, List.mem_append, List.mem_cons]
  constructor
  · rintro (he | rfl | he)
    · exact .inr ⟨.inl he, hne (hfront e he (l, b) List.mem_cons_self)⟩
    · exact .inl rfl
    · exact .inr ⟨.inr (.inr he), (hne (hback e he)).symm⟩
  · rintro (rfl | ⟨he | rfl | he, hl⟩)
    · exact .inr (.inl rfl)
    · exact .inl he
    · exact absurd rfl hl
    · exact .inr (.inr he)

/-- Setting a key to the value that it has changes nothing. -/
theorem Ascending.insert_self {m : SortedMap κ α} (hm : m.Ascending) {k : κ} {a : α}
    (h : m.get? k = some a) : m.insert k a = m := by
  obtain ⟨front, l, back, hsplit, _, hinsert⟩ := hm.insert_of_get? a h
  exact congrArg mk (hinsert.trans hsplit.symm)

/-- Two ascending maps with the same entries, in any order, are the same. -/
theorem entries_eq_of_perm {m n : SortedMap κ α} (hm : m.Ascending) (hn : n.Ascending)
    (h : m.entries.Perm n.entries) : m.entries = n.entries := by
  refine h.eq_of_pairwise (fun a b _ _ hab hba => ?_) hm hn
  rw [OrientedCmp.gt_of_lt hab] at hba
  exact absurd hba (by decide)

/-- Ascending maps with the same entries are the same. -/
theorem Ascending.ext {m n : SortedMap κ α} (hm : m.Ascending) (hn : n.Ascending)
    (h : ∀ e, e ∈ m.entries ↔ e ∈ n.entries) : m = n := by
  have hnodup {m : SortedMap κ α} (hm : m.Ascending) : m.entries.Nodup :=
    hm.imp fun hlt heq => by
      rw [heq, ReflOrd.compare_self] at hlt
      exact nomatch hlt
  have hperm := (List.perm_ext_iff_of_nodup (hnodup hm) (hnodup hn)).mpr h
  exact congrArg mk (entries_eq_of_perm hm hn hperm)

/-- A map made of a list has the keys of the list. -/
theorem contains_ofList {entries : List (κ × α)} {k : κ} :
    (ofList entries).contains k = true ↔ ∃ e ∈ entries, compare e.1 k = .eq := by
  have hfold : ∀ (es : List (κ × α)) (m : SortedMap κ α),
      (es.foldl (fun m e => m.insert e.1 e.2) m).contains k = true ↔
        m.contains k = true ∨ ∃ e ∈ es, compare e.1 k = .eq := by
    intro es
    induction es with
    | nil => simp
    | cons e es ih =>
      intro m
      have hinsert : (m.insert e.1 e.2).contains k = true ↔
          compare e.1 k = .eq ∨ m.contains k = true := by
        unfold contains
        rw [get?_insert]
        split
        · rename_i heq
          simp [heq]
        · rename_i hne
          simp [hne]
      rw [List.foldl_cons, ih, hinsert]
      simp only [List.mem_cons, exists_eq_or_imp]
      tauto
  refine (hfold entries {}).trans ?_
  simp [contains, get?]

end SortedMap

/-- The keys of a sorted set are those of the list. -/
theorem exists_mem_sortedSet {κ : Type} [Ord κ] [TransOrd κ] {keys : List κ} {k : κ} :
    (∃ l ∈ sortedSet keys, compare l k = .eq) ↔ ∃ l ∈ keys, compare l k = .eq := by
  unfold sortedSet
  rw [← SortedMap.contains_iff, SortedMap.contains_ofList]
  simp

/-- Sorting keys loses none and adds none. -/
theorem mem_sortedSet {κ : Type} [Ord κ] [TransOrd κ] [LawfulEqOrd κ] {keys : List κ} {k : κ} :
    k ∈ sortedSet keys ↔ k ∈ keys := by
  have h : (∃ l ∈ sortedSet keys, compare l k = .eq) ↔ ∃ l ∈ keys, compare l k = .eq :=
    exists_mem_sortedSet
  simpa only [LawfulEqCmp.compare_eq_iff_eq, exists_eq_right] using h

end NedWorkspace
