/-
# What a symbol table holds

SPEC_FULL, section 3 (the invariants) and section 4.2 (the duplicate policy).

A table moves a name from one of its maps to another as definitions are registered, and keeps an index
of simple names beside them. After any registrations all of it can be told from the definitions alone
(`ProjectTable.Holds`): the canonical definitions are those that share their name with no other
(`ProjectTable.soleBearers`), in the order in which they came, the index lists them by their simple
names in that order, and the reserved names are those of the definitions and of all types inside them.
One registration keeps this (`ProjectTable.Holds.register`).
-/

import Mathlib
import NedWorkspace.Proofs.Definition.Build
import NedWorkspace.Proofs.Definition.Table

namespace NedWorkspace

/-- A type lies inside another, at any depth. -/
inductive Definition.Inside (d : Definition) : Definition → Prop
  | inner {i : Definition} (hi : i ∈ d.inner) : Definition.Inside d i
  | deeper {i j : Definition} (hi : Definition.Inside d i) (hj : j ∈ i.inner) : Definition.Inside d j

/-- All inner types, listed, are those that are inside at some depth. -/
theorem Definition.mem_allInner {d i : Definition} : i ∈ d.allInner ↔ d.Inside i := by
  constructor
  · intro hi
    rw [allInner_eq] at hi
    exact forall_withInner (fun _ hx _ hj => .deeper hx hj) d.inner (fun _ hi => .inner hi) i hi
  · intro hi
    induction hi with
    | inner hi => exact mem_allInner_of_mem_inner hi
    | deeper _ hj ih => exact mem_allInner_of_mem d ih hj

namespace NameIndex

variable {i : NameIndex} {ds : List Definition}

/-- The index finds the definitions of a list by their simple names, in the order of the list. -/
def Finds (i : NameIndex) (ds : List Definition) : Prop :=
  ∀ name, i.named name = (ds.filter (·.name == name)).map (·.qname)

/-- A definition that is put in comes last. -/
theorem Finds.add (h : i.Finds ds) (d : Definition) : (i.add d).Finds (ds ++ [d]) := by
  intro name
  rw [named_add, h name, List.filter_append, List.map_append, List.filter_singleton]
  split
  · rename_i hname
    rw [hname, beq_self_eq_true]
    rfl
  · rename_i hname
    rw [beq_eq_false_iff_ne.mpr (Ne.symm hname)]
    exact (List.append_nil _).symm

/-- A definition that shares its qualified name with no other is taken out. -/
theorem Finds.remove (h : i.Finds ds) {first : Definition}
    (hsole : ∀ x ∈ ds, x.qname = first.qname → x = first) :
    (i.remove first).Finds (ds.filter (·.qname != first.qname)) := by
  intro name
  have hfiltered : ((ds.filter (·.qname != first.qname)).filter (·.name == name)).map (·.qname) =
      ((ds.filter (·.name == name)).map (·.qname)).filter (· != first.qname) := by
    rw [List.filter_map, List.filter_filter, List.filter_filter]
    congr 1
    exact List.filter_congr fun x _ => Bool.and_comm _ _
  rw [named_remove, h name, hfiltered]
  split
  · rfl
  · -- Other lists do not have the name, because nothing else bears it.
    rename_i hne
    symm
    rw [List.filter_eq_self]
    intro qname hqname
    obtain ⟨x, hx, rfl⟩ := List.mem_map.mp hqname
    obtain ⟨hx, hname⟩ := List.mem_filter.mp hx
    rw [bne_iff_ne]
    intro hsame
    obtain rfl := hsole x hx hsame
    exact hne (eq_of_beq hname).symm

end NameIndex

namespace ProjectTable

variable {t : ProjectTable} {defs : List Definition} {d : Definition} {qname : String}

theorem mem_bearers : d ∈ bearers defs qname ↔ d ∈ defs ∧ d.qname = qname := by
  rw [bearers, List.mem_filter, beq_iff_eq]

/-- The definitions that share their qualified name with no other, in order. -/
def soleBearers (defs : List Definition) : List Definition :=
  defs.filter fun d => (bearers defs d.qname).length == 1

/-- A definition is left in the table if it is alone with its name. -/
theorem mem_soleBearers : d ∈ soleBearers defs ↔ bearers defs d.qname = [d] := by
  rw [soleBearers, List.mem_filter, beq_iff_eq, List.length_eq_one_iff]
  constructor
  · rintro ⟨hd, x, hx⟩
    have hmem : d ∈ bearers defs d.qname := mem_bearers.mpr ⟨hd, rfl⟩
    rw [hx, List.mem_singleton] at hmem
    rw [hx, hmem]
  · intro h
    have hmem : d ∈ bearers defs d.qname := by
      rw [h]
      exact List.mem_cons_self
    exact ⟨(mem_bearers.mp hmem).1, d, h⟩

/-- A further definition takes its name from the others, and is by itself only if it is the first. -/
theorem soleBearers_concat (defs : List Definition) (d : Definition) :
    soleBearers (defs ++ [d]) = (soleBearers defs).filter (·.qname != d.qname) ++
      if (bearers defs d.qname).isEmpty then [d] else [] := by
  unfold soleBearers
  rw [List.filter_append, List.filter_filter]
  congr 1
  · refine List.filter_congr fun x hx => ?_
    rw [bearers_concat]
    split
    · rename_i heq
      have hpos : 0 < (bearers defs x.qname).length :=
        List.length_pos_of_mem (mem_bearers.mpr ⟨hx, rfl⟩)
      rw [List.length_append, List.length_singleton, heq, bne_self_eq_false, Bool.false_and,
        beq_eq_false_iff_ne]
      rw [heq] at hpos
      omega
    · rename_i hne
      rw [(bne_iff_ne (a := x.qname)).mpr hne, Bool.true_and]
  · rw [List.filter_singleton, bearers_concat, if_pos rfl, List.length_append, List.length_singleton]
    cases bearers defs d.qname with
    | nil => rfl
    | cons x xs => rfl

/-- What a table holds beside the definitions of ambiguous names. -/
structure Holds (t : ProjectTable) (defs : List Definition) : Prop where
  components : t.components.entries = (soleBearers defs).map fun d => (d.qname, d)
  named : ∀ name, t.withSimpleName name =
    ((soleBearers defs).filter (·.name == name)).map (·.qname)
  reserved : ∀ n, n ∈ t.reserved ↔ ∃ d ∈ defs, n = d.qname ∨ ∃ i, d.Inside i ∧ n = i.qname
  nodup_reserved : t.reserved.Nodup

theorem holds_empty : Holds {} [] where
  components := rfl
  named := fun _ => rfl
  reserved := by simp
  nodup_reserved := List.nodup_nil

/-- A registration reserves the names of a definition. -/
theorem mem_reserve {reserved : List String}
    (h : ∀ n, n ∈ reserved ↔ ∃ d ∈ defs, n = d.qname ∨ ∃ i, d.Inside i ∧ n = i.qname) (n : String) :
    n ∈ addNames reserved (d.qname :: d.allInner.map fun i : Definition => i.qname) ↔
      ∃ x ∈ defs ++ [d], n = x.qname ∨ ∃ i, x.Inside i ∧ n = i.qname := by
  rw [mem_addNames, h, List.mem_cons, List.mem_map]
  simp only [List.mem_append, List.mem_singleton, or_and_right, exists_or, exists_eq_left,
    Definition.mem_allInner, eq_comm (b := n)]

/-- A name that not just one definition has is none of the canonical ones. -/
theorem filter_soleBearers (h : (bearers defs qname).length ≠ 1) :
    (soleBearers defs).filter (·.qname != qname) = soleBearers defs := by
  rw [List.filter_eq_self]
  intro x hx
  rw [bne_iff_ne]
  rintro rfl
  rw [mem_soleBearers.mp hx] at h
  exact h rfl

/-- **One registration keeps what a table holds.** -/
theorem Holds.register (h : t.Holds defs) (hrecords : t.Records defs) (d : Definition) :
    (t.register d).Holds (defs ++ [d]) := by
  have hreserved := mem_reserve (d := d) h.reserved
  have hnodup := nodup_addNames h.nodup_reserved
    (d.qname :: d.allInner.map fun i : Definition => i.qname)
  have hsole := soleBearers_concat defs d
  obtain ⟨hlength, heq⟩ | ⟨first, hbearers, heq⟩ | ⟨hbearers, hnew, heq⟩ :=
    hrecords.register_cases d <;> rw [heq]
  · -- The name is ambiguous already.
    have hsame : soleBearers (defs ++ [d]) = soleBearers defs := by
      rw [hsole, if_neg (by rw [List.isEmpty_iff_length_eq_zero]; omega), List.append_nil,
        filter_soleBearers (by omega)]
    exact ⟨hsame ▸ h.components, hsame ▸ h.named, hreserved, hnodup⟩
  · -- The only definition with the name leaves the components and the index.
    have hleft : soleBearers (defs ++ [d]) = (soleBearers defs).filter (·.qname != d.qname) := by
      rw [hsole, hbearers]
      exact List.append_nil _
    have hmem : first ∈ bearers defs d.qname := by
      rw [hbearers]
      exact List.mem_cons_self
    have hfirst : first.qname = d.qname := (mem_bearers.mp hmem).2
    refine ⟨?_, fun name => ?_, hreserved, hnodup⟩
    · change t.components.entries.filter _ = _
      rw [hleft, h.components, List.filter_map]
      refine congrArg (List.map _) (List.filter_congr fun x _ => ?_)
      exact decide_not (p := x.qname = d.qname)
    · have hsole : ∀ x ∈ soleBearers defs, x.qname = first.qname → x = first := by
        intro x hx hsame
        rw [mem_soleBearers, hsame, hfirst, hbearers] at hx
        exact (List.cons.inj hx).1.symm
      rw [hleft, ← hfirst]
      exact (show t.bySimpleName.Finds (soleBearers defs) from h.named).remove hsole name
  · -- The name is new.
    have hjoined : soleBearers (defs ++ [d]) = soleBearers defs ++ [d] := by
      rw [hsole, filter_soleBearers (by simp [hbearers]), hbearers]
      rfl
    refine ⟨?_, fun name => ?_, hreserved, hnodup⟩
    · rw [hjoined, List.map_append, ← h.components]
      exact OrderedMap.entries_insert_of_get?_none d hnew
    · rw [hjoined]
      exact (show t.bySimpleName.Finds (soleBearers defs) from h.named).add d name

/-- **What a table holds, after any registrations.** -/
theorem holds_ofList (defs : List Definition) : (ofList defs).Holds defs := by
  induction defs using List.reverseRecOn with
  | nil => exact holds_empty
  | append_singleton defs d ih =>
    rw [ofList_concat]
    exact ih.register (records_ofList defs) d

/-- The table has those definitions that are alone with their names, in the order of registration. -/
theorem definitions_ofList (defs : List Definition) :
    (ofList defs).definitions = soleBearers defs := by
  rw [definitions, OrderedMap.values, (holds_ofList defs).components, List.map_map]
  exact List.map_id _

/-- The index agrees with a search of all canonical definitions. -/
theorem withSimpleName_ofList (defs : List Definition) (name : String) :
    (ofList defs).withSimpleName name =
      ((ofList defs).definitions.filter (·.name == name)).map (·.qname) := by
  rw [definitions_ofList]
  exact (holds_ofList defs).named name

/-- The components of a table go by the names of its definitions. -/
theorem keys_components_ofList (defs : List Definition) :
    (ofList defs).components.keys = (ofList defs).definitions.map (·.qname) := by
  rw [definitions_ofList, OrderedMap.keys, (holds_ofList defs).components, List.map_map]
  rfl

/-- The qualified names with a simple name are canonical, and in the order of these. -/
theorem withSimpleName_sublist (defs : List Definition) (name : String) :
    ((ofList defs).withSimpleName name).Sublist (ofList defs).components.keys := by
  rw [withSimpleName_ofList, keys_components_ofList]
  exact List.filter_sublist.map _

/-- The index finds the canonical definitions that have a simple name. -/
theorem mem_withSimpleName_ofList {name : String} : qname ∈ (ofList defs).withSimpleName name ↔
    ∃ d, (ofList defs).component? qname = some d ∧ d.name = name := by
  rw [withSimpleName_ofList, List.mem_map]
  constructor
  · rintro ⟨d, hd, rfl⟩
    obtain ⟨hd, hname⟩ := List.mem_filter.mp hd
    exact ⟨d, mem_definitions_ofList.mp hd, eq_of_beq hname⟩
  · rintro ⟨d, hd, rfl⟩
    obtain ⟨hmem, rfl⟩ := mem_definitions_of_component? hd
    exact ⟨d, List.mem_filter.mpr ⟨hmem, beq_self_eq_true _⟩, rfl⟩

/-- Reserved are the names of the definitions and of all types inside them. -/
theorem isReserved_ofList {n : String} : (ofList defs).isReserved n = true ↔
    ∃ d ∈ defs, n = d.qname ∨ ∃ i, d.Inside i ∧ n = i.qname := by
  rw [isReserved, List.contains_iff_mem]
  exact (holds_ofList defs).reserved n

/-- How many bear a name does not depend on the order. -/
theorem bearers_length_of_perm {defs' : List Definition} (h : defs.Perm defs') (qname : String) :
    (bearers defs qname).length = (bearers defs' qname).length :=
  (h.filter _).length_eq

/-- A qualified name is a key of the components just when one definition has it. -/
theorem mem_components_keys_ofList :
    qname ∈ (ofList defs).components.keys ↔ (bearers defs qname).length = 1 := by
  rw [OrderedMap.keys, (holds_ofList defs).components, List.map_map, List.mem_map,
    List.length_eq_one_iff]
  constructor
  · rintro ⟨d, hd, rfl⟩
    exact ⟨d, mem_soleBearers.mp hd⟩
  · rintro ⟨d, hd⟩
    have hmem : d ∈ bearers defs qname := by
      rw [hd]
      exact List.mem_cons_self
    obtain ⟨_, rfl⟩ := mem_bearers.mp hmem
    exact ⟨d, mem_soleBearers.mpr hd, rfl⟩

/-- A qualified name is a key of the duplicates just when several definitions have it. -/
theorem mem_duplicates_keys_ofList :
    qname ∈ (ofList defs).duplicates.keys ↔ 2 ≤ (bearers defs qname).length := by
  constructor
  · intro h
    obtain ⟨⟨_, ds⟩, hmem, rfl⟩ := List.mem_map.mp h
    have hget := OrderedMap.get?_of_mem (records_ofList defs).nodup_duplicates hmem
    obtain ⟨rfl, hlength⟩ := duplicates_ofList.mp hget
    exact hlength
  · intro h
    have hget := duplicates_ofList.mpr ⟨rfl, h⟩
    exact List.mem_map_of_mem (f := Prod.fst) (OrderedMap.mem_of_get? hget)

/-- **What a symbol table says, for any definitions registered in order.** A qualified name is a key of
the components just when one of them has it; it is a key of the duplicates just when several have it,
and then its list is all of them in the order of registration; no name is both. The reserved names are
those of the definitions and of all types inside them. The canonical definitions stand in the order of
registration, and the index gives for each simple name their qualified names in that order, each once.
So which names are canonical, ambiguous or reserved does not depend on the order of registration. -/
theorem ofList_represents (defs : List Definition) :
    let t := ofList defs
    (∀ qname, qname ∈ t.components.keys ↔ (bearers defs qname).length = 1) ∧
    (∀ qname d, t.component? qname = some d ↔ bearers defs qname = [d]) ∧
    (∀ qname, qname ∈ t.duplicates.keys ↔ 2 ≤ (bearers defs qname).length) ∧
    (∀ qname ds, t.duplicates.get? qname = some ds → ds = bearers defs qname) ∧
    (∀ qname, ¬ (qname ∈ t.components.keys ∧ qname ∈ t.duplicates.keys)) ∧
    (∀ n, t.isReserved n = true ↔ ∃ d ∈ defs, n = d.qname ∨ ∃ i, d.Inside i ∧ n = i.qname) ∧
    t.reserved.Nodup ∧
    (t.definitions = defs.filter fun d => (bearers defs d.qname).length == 1) ∧
    (∀ name, t.withSimpleName name = (t.definitions.filter (·.name == name)).map (·.qname)) ∧
    (∀ name qname, qname ∈ t.withSimpleName name ↔
      ∃ d, t.component? qname = some d ∧ d.name = name) ∧
    (∀ name, (t.withSimpleName name).Nodup ∧ (t.withSimpleName name).Sublist t.components.keys) ∧
    ∀ defs', defs.Perm defs' → ∀ qname,
      (qname ∈ t.components.keys ↔ qname ∈ (ofList defs').components.keys) ∧
      (qname ∈ t.duplicates.keys ↔ qname ∈ (ofList defs').duplicates.keys) ∧
      (t.isReserved qname = true ↔ (ofList defs').isReserved qname = true) := by
  refine ⟨fun _ => mem_components_keys_ofList, fun _ _ => component?_ofList,
    fun _ => mem_duplicates_keys_ofList, fun _ _ h => (duplicates_ofList.mp h).1.symm,
    fun qname h => ?_, fun _ => isReserved_ofList, (holds_ofList defs).nodup_reserved,
    definitions_ofList defs, withSimpleName_ofList defs, fun _ _ => mem_withSimpleName_ofList,
    fun name => ⟨(records_ofList defs).nodup.sublist (withSimpleName_sublist defs name),
      withSimpleName_sublist defs name⟩,
    fun defs' hperm qname => ⟨?_, ?_, ?_⟩⟩
  · rw [mem_components_keys_ofList, mem_duplicates_keys_ofList] at h
    omega
  · rw [mem_components_keys_ofList, mem_components_keys_ofList, bearers_length_of_perm hperm]
  · rw [mem_duplicates_keys_ofList, mem_duplicates_keys_ofList, bearers_length_of_perm hperm]
  · rw [isReserved_ofList, isReserved_ofList]
    simp only [hperm.mem_iff]

/-- Two files that both define `A`, in the other order. -/
theorem ofList_represents_swapped :
    let one := (FileScope.ofTree (.source 0) 1 (Parse.ofText "simple A; simple B;").tree none).types
    let two := (FileScope.ofTree (.source 1) 1 (Parse.ofText "simple A;").tree none).types
    "A" ∈ (ofList (two ++ one)).duplicates.keys ∧ "B" ∈ (ofList (two ++ one)).components.keys := by
  intro one two
  have hkeys : (ofList (one ++ two)).duplicates.keys = ["A"] ∧
      (ofList (one ++ two)).components.keys = ["B"] := by
    unfold one two
    exact Prod.mk.inj (by cbv)
  have hA : "A" ∈ (ofList (one ++ two)).duplicates.keys := by simp [hkeys.1]
  have hB : "B" ∈ (ofList (one ++ two)).components.keys := by simp [hkeys.2]
  have horder := (ofList_represents (one ++ two)).2.2.2.2.2.2.2.2.2.2.2 (two ++ one)
    List.perm_append_comm
  exact ⟨(horder "A").2.1.mp hA, (horder "B").1.mp hB⟩

end ProjectTable
end NedWorkspace
