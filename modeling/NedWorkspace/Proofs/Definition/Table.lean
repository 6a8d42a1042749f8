/-
# What a symbol table says

A name is canonical in a table just when one of the registered definitions has it, and ambiguous just
when several have it, whatever else is registered and in whatever order
(`ProjectTable.component?_ofList`, `ProjectTable.duplicates_ofList`). Both follow from what one
registration does (`ProjectTable.Records.register`).
-/

import Mathlib.Data.List.Induction
import NedWorkspace.Definition.Table
import NedWorkspace.Proofs.Map.Laws

namespace NedWorkspace

namespace NameIndex

/-- A definition is indexed by its simple name, behind those of the same one. -/
theorem named_add (i : NameIndex) (d : Definition) (name : String) :
    (i.add d).named name = if name = d.name then i.named name ++ [d.qname] else i.named name := by
  unfold add named
  rw [OrderedMap.get?_insert]
  split
  · rename_i heq
    rw [heq]
    rfl
  · rfl

/-- A definition taken out is forgotten under its simple name only. -/
theorem named_remove (i : NameIndex) (d : Definition) (name : String) :
    (i.remove d).named name =
      if name = d.name then (i.named name).filter (· != d.qname) else i.named name := by
  unfold remove
  split
  · -- Nothing has the simple name.
    rename_i hnone
    split
    · rename_i heq
      rw [heq, named, hnone]
      rfl
    · rfl
  · rename_i names hnames
    have hother : ∀ lists : OrderedMap String (List String),
        (∀ l, l ≠ d.name → lists.get? l = i.lists.get? l) → name ≠ d.name →
          (⟨lists⟩ : NameIndex).named name = i.named name :=
      fun lists hlists hne => congrArg (·.getD []) (hlists name hne)
    split <;> split <;> rename_i hrest heq
    · rw [heq, named, named, hnames, OrderedMap.get?_erase_self]
      exact hrest.symm
    · exact hother _ (fun l hl => OrderedMap.get?_erase_of_ne _ hl) heq
    · rw [heq, named, named, hnames, OrderedMap.get?_insert_self]
      rfl
    · exact hother _ (fun l hl => OrderedMap.get?_insert_of_ne _ _ hl) heq

end NameIndex

namespace ProjectTable

/-- Names added to a list are in it. -/
theorem mem_addNames {names more : List String} {n : String} :
    n ∈ addNames names more ↔ n ∈ names ∨ n ∈ more := by
  induction more generalizing names with
  | nil => simp [addNames]
  | cons a more ih =>
    rw [addNames, List.foldl_cons, ← addNames, ih, List.mem_cons]
    split
    · rename_i hmem
      have ha : a ∈ names := by simpa using hmem
      constructor
      · exact Or.imp_right .inr
      · rintro (h | rfl | h)
        · exact .inl h
        · exact .inl ha
        · exact .inr h
    · rw [List.mem_append, List.mem_singleton, or_assoc]

/-- No name is added twice. -/
theorem nodup_addNames {names : List String} (h : names.Nodup) (more : List String) :
    (addNames names more).Nodup := by
  refine List.foldlRecOn more _ (motive := List.Nodup) h fun names h a _ => ?_
  split
  · exact h
  · rename_i hnew
    rw [List.nodup_append]
    refine ⟨h, by simp, fun n hn b hb heq => hnew ?_⟩
    rw [List.contains_iff_mem, ← List.mem_singleton.mp hb, ← heq]
    exact hn

/-- The definitions with a given qualified name, in order. -/
def bearers (defs : List Definition) (qname : String) : List Definition :=
  defs.filter (·.qname == qname)

/-- One more definition bears its own name and no other. -/
theorem bearers_concat (defs : List Definition) (d : Definition) (qname : String) :
    bearers (defs ++ [d]) qname =
      if qname = d.qname then bearers defs qname ++ [d] else bearers defs qname := by
  unfold bearers
  rw [List.filter_append]
  by_cases h : qname = d.qname
  · rw [if_pos h, List.filter_cons_of_pos (by simp [h]), List.filter_nil]
  · rw [if_neg h, List.filter_cons_of_neg (by simpa using fun heq => h heq.symm), List.filter_nil,
      List.append_nil]

/-- What a table says of each name is what the definitions registered under it say. -/
structure Records (t : ProjectTable) (defs : List Definition) : Prop where
  nodup : t.components.keys.Nodup
  nodup_duplicates : t.duplicates.keys.Nodup
  canonical : ∀ qname d, t.components.get? qname = some d ↔ bearers defs qname = [d]
  ambiguous : ∀ qname ds, t.duplicates.get? qname = some ds ↔
    bearers defs qname = ds ∧ 2 ≤ ds.length

variable {t : ProjectTable} {defs : List Definition} {d : Definition}

theorem records_empty : Records {} [] where
  nodup := List.nodup_nil
  nodup_duplicates := List.nodup_nil
  canonical := by simp [bearers]
  ambiguous := by
    intro qname ds
    simp only [OrderedMap.get?_empty, reduceCtorEq, false_iff, not_and]
    rintro rfl
    simp [bearers]

/-- A registration by what the definitions registered before say of the name. -/
theorem Records.register_cases (h : t.Records defs) (d : Definition) :
    let reserved := addNames t.reserved (d.qname :: d.allInner.map fun i : Definition => i.qname)
    (2 ≤ (bearers defs d.qname).length ∧ t.register d =
      { t with reserved
               duplicates := t.duplicates.insert d.qname (bearers defs d.qname ++ [d]) }) ∨
    (∃ first, bearers defs d.qname = [first] ∧ t.register d =
      { reserved
        components := t.components.erase d.qname
        duplicates := t.duplicates.insert d.qname [first, d]
        bySimpleName := t.bySimpleName.remove first }) ∨
    (bearers defs d.qname = [] ∧ t.components.get? d.qname = none ∧ t.register d =
      { t with reserved
               components := t.components.insert d.qname d
               bySimpleName := t.bySimpleName.add d }) := by
  have hcanonical := h.canonical d.qname
  have hambiguous := h.ambiguous d.qname
  have hunambiguous : (bearers defs d.qname).length < 2 → t.duplicates.get? d.qname = none := by
    intro hshort
    refine Option.eq_none_iff_forall_ne_some.mpr fun ds hds => ?_
    obtain ⟨rfl, hlength⟩ := (hambiguous ds).mp hds
    omega
  unfold ProjectTable.register
  dsimp only
  match hbearers : bearers defs d.qname with
  | [] =>
    have hcomponents : t.components.get? d.qname = none := by
      refine Option.eq_none_iff_forall_ne_some.mpr fun x hx => ?_
      rw [hcanonical, hbearers] at hx
      exact absurd hx (by simp)
    rw [hunambiguous (by simp [hbearers]), hcomponents]
    exact .inr (.inr ⟨rfl, rfl, rfl⟩)
  | [first] =>
    rw [hunambiguous (by simp [hbearers]), (hcanonical first).mpr hbearers]
    exact .inr (.inl ⟨first, rfl, rfl⟩)
  | x :: y :: rest =>
    rw [(hambiguous _).mpr ⟨hbearers, by simp⟩]
    exact .inl ⟨by simp, rfl⟩

/-- One registration adds a definition to those of its name and leaves all other names alone. -/
theorem Records.register (h : t.Records defs) (d : Definition) :
    (t.register d).Records (defs ++ [d]) := by
  obtain ⟨hlength, heq⟩ | ⟨first, hbearers, heq⟩ | ⟨hbearers, _, heq⟩ := h.register_cases d <;>
    rw [heq]
  · -- The name is ambiguous already.
    refine ⟨h.nodup, OrderedMap.nodup_keys_insert h.nodup_duplicates _ _, fun qname x => ?_,
      fun qname ds => ?_⟩
    · rw [bearers_concat]
      split
      · rename_i heq
        have hlong : ∀ {ys : List Definition}, 2 ≤ ys.length → ys ≠ [x] := by
          rintro _ hys rfl
          exact absurd hys (by simp)
        rw [h.canonical, heq]
        refine iff_of_false (hlong hlength) (hlong ?_)
        rw [List.length_append]
        omega
      · exact h.canonical qname x
    · rw [bearers_concat, OrderedMap.get?_insert]
      split
      · rename_i heq
        rw [heq, Option.some_inj]
        refine ⟨fun hds => ⟨hds, ?_⟩, And.left⟩
        rw [← hds, List.length_append]
        omega
      · exact h.ambiguous qname ds
  · -- One definition has the name already.
    refine ⟨OrderedMap.nodup_keys_erase h.nodup _,
      OrderedMap.nodup_keys_insert h.nodup_duplicates _ _, fun qname x => ?_, fun qname ds => ?_⟩
    · rw [bearers_concat, OrderedMap.get?_erase]
      split
      · rename_i heq
        rw [heq, hbearers]
        simp
      · exact h.canonical qname x
    · rw [bearers_concat, OrderedMap.get?_insert]
      split
      · rename_i heq
        rw [heq, hbearers, Option.some_inj]
        refine ⟨fun hds => ⟨hds, ?_⟩, And.left⟩
        rw [← hds]
        exact Nat.le_refl 2
      · exact h.ambiguous qname ds
  · -- The name is new.
    refine ⟨OrderedMap.nodup_keys_insert h.nodup _ _, h.nodup_duplicates, fun qname x => ?_,
      fun qname ds => ?_⟩
    · rw [bearers_concat, OrderedMap.get?_insert]
      split
      · rename_i heq
        rw [heq, hbearers]
        simp
      · exact h.canonical qname x
    · rw [bearers_concat]
      split
      · rename_i heq
        rw [h.ambiguous, heq, hbearers]
        constructor <;> rintro ⟨rfl, hlength⟩ <;> simp at hlength
      · exact h.ambiguous qname ds

/-- A table is filled by registering one definition after the other. -/
theorem ofList_concat (defs : List Definition) (d : Definition) :
    ofList (defs ++ [d]) = (ofList defs).register d := by
  rw [ofList, List.foldl_append]
  rfl

/-- However it was filled, a table records what it was filled with. -/
theorem records_ofList (defs : List Definition) : (ofList defs).Records defs := by
  induction defs using List.reverseRecOn with
  | nil => exact records_empty
  | append_singleton defs d ih =>
    rw [ofList_concat]
    exact ih.register d

/-- **A name is canonical just when one registered definition has it.** -/
theorem component?_ofList {qname : String} :
    (ofList defs).component? qname = some d ↔ bearers defs qname = [d] :=
  (records_ofList defs).canonical qname d

/-- **A name is ambiguous just when several registered definitions have it.** -/
theorem duplicates_ofList {qname : String} {ds : List Definition} :
    (ofList defs).duplicates.get? qname = some ds ↔ bearers defs qname = ds ∧ 2 ≤ ds.length :=
  (records_ofList defs).ambiguous qname ds

/-- The definitions that share a name are all registered ones that have it. -/
theorem bearers_of_mem_duplicates {e : String × List Definition}
    (h : e ∈ (ofList defs).duplicates.entries) : e.2 = bearers defs e.1 :=
  (duplicates_ofList.mp (OrderedMap.get?_of_mem (records_ofList defs).nodup_duplicates h)).1.symm

/-- A component goes by the name of its definition, which was registered. -/
theorem eq_qname_of_component? {qname : String} (h : (ofList defs).component? qname = some d) :
    qname = d.qname ∧ d ∈ defs := by
  have hmem : d ∈ bearers defs qname := by
    rw [component?_ofList.mp h]
    exact List.mem_cons_self
  obtain ⟨hdefs, hqname⟩ := List.mem_filter.mp hmem
  exact ⟨(eq_of_beq hqname).symm, hdefs⟩

/-- The canonical definitions are those that are found by their names. -/
theorem mem_definitions_ofList :
    d ∈ (ofList defs).definitions ↔ (ofList defs).component? d.qname = some d := by
  constructor
  · intro h
    obtain ⟨⟨qname, _⟩, hmem, rfl⟩ := List.mem_map.mp h
    have hget := OrderedMap.get?_of_mem (records_ofList defs).nodup hmem
    rwa [(eq_qname_of_component? hget).1] at hget
  · intro h
    exact List.mem_map_of_mem (f := Prod.snd) (OrderedMap.mem_of_get? h)

/-- A component is a definition of the table. -/
theorem mem_definitions_of_component? {qname : String}
    (h : (ofList defs).component? qname = some d) :
    d ∈ (ofList defs).definitions ∧ d.qname = qname := by
  have hqname := (eq_qname_of_component? h).1
  refine ⟨?_, hqname.symm⟩
  rw [mem_definitions_ofList, ← hqname]
  exact h

/-- **A table tells of all that was registered and of nothing else,** as the only definition of its name
or as one of several. -/
theorem mem_ofList_iff : (d ∈ (ofList defs).definitions ∨
    ∃ e ∈ (ofList defs).duplicates.entries, d ∈ e.2) ↔ d ∈ defs := by
  constructor
  · rintro (hd | ⟨e, he, hd⟩)
    · exact (eq_qname_of_component? (mem_definitions_ofList.mp hd)).2
    · rw [bearers_of_mem_duplicates he] at hd
      exact (List.mem_filter.mp hd).1
  · intro hd
    have hbears : d ∈ bearers defs d.qname := List.mem_filter.mpr ⟨hd, beq_self_eq_true _⟩
    rcases Nat.lt_or_ge 1 (bearers defs d.qname).length with hseveral | hsole
    · have hget := duplicates_ofList.mpr ⟨rfl, hseveral⟩
      exact .inr ⟨_, OrderedMap.mem_of_get? hget, hbears⟩
    · obtain ⟨x, hx⟩ := List.length_eq_one_iff.mp
        (Nat.le_antisymm hsole (List.length_pos_of_mem hbears))
      obtain rfl : d = x := by simpa [hx] using hbears
      exact .inl (mem_definitions_ofList.mpr (component?_ofList.mpr hx))

end ProjectTable
end NedWorkspace
