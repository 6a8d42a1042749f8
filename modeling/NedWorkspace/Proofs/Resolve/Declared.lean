/-
# What is declared along a chain

The parameters and gates of a type are gathered one declaration at a time. Seen as a whole, the parameter
of a name is the first declaration of that name along the chain, read from its far end
(`Members.find?_paramsOf`), and the gate of a name is the first declaration of that name too, with the
size that is given for it last (`Members.find?_gatesOf`). No name comes twice.
-/

import Mathlib.Data.List.Nodup
import NedWorkspace.Resolve.Members

namespace NedWorkspace

/-- The gate with another size, if there is one. -/
def InheritedGate.resized (g : InheritedGate) (size : Option String) : InheritedGate :=
  { g with decl := { g.decl with size := size.or g.decl.size } }

@[simp] theorem InheritedGate.resized_none (g : InheritedGate) : g.resized none = g := rfl

/-- Of two sizes given one after the other, the later one counts. -/
theorem InheritedGate.resized_resized (g : InheritedGate) (size later : Option String) :
    (g.resized size).resized later = g.resized (later.or size) := by
  simp [resized, Option.or_assoc]

namespace Members

/-! ### Parameters -/

/-- What is said of parameters along a chain, from its far end. -/
def paramEntries (chain : List Definition) : List InheritedParam :=
  chain.reverse.flatMap fun t => t.decl.params.map fun p => ⟨p, t.qname⟩

/-- The first declaration of a parameter among those given; assignments declare nothing. -/
def firstParam? (entries : List InheritedParam) (name : String) : Option InheritedParam :=
  entries.find? fun e => e.decl.type.isSome && e.decl.name == name

/-- The parameters of a chain are collected entry by entry. -/
theorem paramsOf_eq (chain : List Definition) : paramsOf chain =
    (paramEntries chain).foldl (fun params e => addParam e.declaredIn params e.decl) [] := by
  simp only [paramsOf, paramEntries, List.foldl_flatMap, List.foldl_map]

/-- A parameter is added if there is none of its name, else the earlier one stays. -/
theorem find?_addParam (params : List InheritedParam) (e : InheritedParam) (name : String) :
    (addParam e.declaredIn params e.decl).find? (·.decl.name == name) =
      (params.find? (·.decl.name == name)).or (firstParam? [e] name) := by
  unfold addParam firstParam?
  cases htype : e.decl.type.isSome with
  | false => simp [htype]
  | true =>
    cases htaken : params.any (·.decl.name == e.decl.name) with
    | false => simp [htype, List.find?_append]
    | true =>
      rw [Bool.not_true, Bool.and_false, if_neg Bool.false_ne_true, List.find?_singleton]
      by_cases hname : e.decl.name = name
      · obtain ⟨p, hp⟩ := Option.isSome_iff_exists.mp
          (List.find?_isSome.mpr (List.any_eq_true.mp (hname ▸ htaken)))
        rw [hp, Option.some_or]
      · simp [hname]

/-- No name of a parameter is added twice. -/
theorem nodup_addParam {owner : String} {params : List InheritedParam} {p : Param}
    (h : (params.map fun e => e.decl.name).Nodup) :
    ((addParam owner params p).map fun e => e.decl.name).Nodup := by
  unfold addParam
  split
  · rename_i hnew
    rw [List.map_append, List.map_singleton, List.nodup_append]
    refine ⟨h, List.nodup_singleton _, fun n hn n' hn' heq => ?_⟩
    obtain ⟨e, he, rfl⟩ := List.mem_map.mp hn
    obtain rfl := List.mem_singleton.mp hn'
    have htaken : params.any (·.decl.name == p.name) = true :=
      List.any_eq_true.mpr ⟨e, he, beq_iff_eq.mpr heq⟩
    simp [htaken] at hnew
  · exact h

/-- **The parameter of a name is the first that is declared, from the far end of the chain.** -/
theorem find?_paramsOf (chain : List Definition) (name : String) :
    (paramsOf chain).find? (·.decl.name == name) = firstParam? (paramEntries chain) name := by
  have hfold : ∀ (entries params : List InheritedParam),
      (entries.foldl (fun params e => addParam e.declaredIn params e.decl) params).find?
        (·.decl.name == name) =
        (params.find? (·.decl.name == name)).or (firstParam? entries name) := by
    intro entries
    induction entries with
    | nil => simp [firstParam?]
    | cons e entries ih =>
      intro params
      rw [List.foldl_cons, ih, find?_addParam, Option.or_assoc]
      simp only [firstParam?, ← List.find?_append, List.singleton_append]
  rw [paramsOf_eq, hfold, List.find?_nil, Option.none_or]

/-- Inherited parameters have names that are all different. -/
theorem nodup_paramsOf (chain : List Definition) :
    ((paramsOf chain).map fun e => e.decl.name).Nodup := by
  rw [paramsOf_eq]
  refine List.foldlRecOn (paramEntries chain) _
    (motive := fun params : List InheritedParam => (params.map fun e => e.decl.name).Nodup) ?_
    fun _ h _ _ => nodup_addParam h
  exact List.nodup_nil

/-! ### Gates -/

/-- What is said of gates along a chain, from its far end. -/
def gateEntries (chain : List Definition) : List InheritedGate :=
  chain.reverse.flatMap fun t => t.decl.gates.map fun g => ⟨g, t.qname⟩

/-- Whether the gate of the given name is declared. -/
def declaresGate (name : String) (e : InheritedGate) : Bool :=
  e.decl.direction.isSome && e.decl.name == name

/-- The size that is given to the gate of the given name. -/
def sizeFor? (name : String) (e : InheritedGate) : Option String :=
  if e.decl.direction = none ∧ e.decl.name = name then e.decl.size else none

/-- The size that is given last. -/
def lastSize? (entries : List InheritedGate) (name : String) : Option String :=
  entries.reverse.findSome? (sizeFor? name)

/-- The first declaration of a gate among those given, with the size that is given for it last after
that. -/
def firstGate? (entries : List InheritedGate) (name : String) : Option InheritedGate :=
  match entries.dropWhile (fun e => !declaresGate name e) with
  | [] => none
  | g :: later => some (g.resized (lastSize? later name))

/-- The size given last counts, whatever stood before. -/
theorem lastSize?_cons (e : InheritedGate) (entries : List InheritedGate) (name : String) :
    lastSize? (e :: entries) name = (lastSize? entries name).or (sizeFor? name e) := by
  simp only [lastSize?, List.reverse_cons, List.findSome?_append, List.findSome?_singleton]

/-- The gates of a chain are collected entry by entry. -/
theorem gatesOf_eq (chain : List Definition) : gatesOf chain =
    (gateEntries chain).foldl (fun gates e => addGate e.declaredIn gates e.decl) [] := by
  simp only [gatesOf, gateEntries, List.foldl_flatMap, List.foldl_map]

theorem name_setGateSize (name : String) (size : Option String) (g : InheritedGate) :
    (setGateSize name size g).decl.name = g.decl.name := by
  unfold setGateSize
  split <;> rfl

/-- A size that is given for a gate is its size from then on. -/
theorem setGateSize_eq {e : InheritedGate} (he : e.decl.direction = none) (g : InheritedGate) :
    setGateSize e.decl.name e.decl.size g = g.resized (sizeFor? g.decl.name e) := by
  unfold setGateSize sizeFor?
  by_cases hname : e.decl.name = g.decl.name
  · rw [if_pos (show _ ∧ _ from ⟨he, hname⟩)]
    cases hsize : e.decl.size with
    | none => simp
    | some size => simp [hname, InheritedGate.resized]
  · rw [if_neg fun h => hname h.1.symm, if_neg fun h => hname h.2, InheritedGate.resized_none]

/-- A gate known by its name takes the size of a new entry; else the entry is added if it declares one. -/
theorem find?_addGate (gates : List InheritedGate) (e : InheritedGate) (name : String) :
    (addGate e.declaredIn gates e.decl).find? (·.decl.name == name) =
      ((gates.find? (·.decl.name == name)).map (·.resized (sizeFor? name e))).or
        (if declaresGate name e then some e else none) := by
  unfold addGate
  cases hdirection : e.decl.direction with
  | none =>
    have hnot : declaresGate name e = false := by simp [declaresGate, hdirection]
    rw [hnot, if_neg Bool.false_ne_true, Option.or_none, List.find?_map]
    simp only [Function.comp_def, name_setGateSize]
    refine Option.map_congr fun g hg => ?_
    have hname : g.decl.name = name := by simpa using List.find?_some hg
    rw [setGateSize_eq hdirection, hname]
  | some direction =>
    have hsize : sizeFor? name e = none := by simp [sizeFor?, hdirection]
    have hdeclares : declaresGate name e = (e.decl.name == name) := by simp [declaresGate, hdirection]
    simp only [hsize, hdeclares, InheritedGate.resized_none, Option.map_id']
    split
    · rename_i htaken
      by_cases hname : e.decl.name = name
      · obtain ⟨g, hg⟩ := Option.isSome_iff_exists.mp
          (List.find?_isSome.mpr (List.any_eq_true.mp (hname ▸ htaken)))
        rw [hg, Option.some_or]
      · simp [hname]
    · rw [List.find?_append, List.find?_singleton]

/-- No name of a gate is added twice. -/
theorem nodup_addGate {owner : String} {gates : List InheritedGate} {g : Gate}
    (h : (gates.map fun e => e.decl.name).Nodup) :
    ((addGate owner gates g).map fun e => e.decl.name).Nodup := by
  unfold addGate
  split
  · split
    · exact h
    · rename_i hnew
      rw [List.map_append, List.map_singleton, List.nodup_append]
      refine ⟨h, List.nodup_singleton _, fun n hn n' hn' heq => hnew ?_⟩
      obtain ⟨e, he, rfl⟩ := List.mem_map.mp hn
      obtain rfl := List.mem_singleton.mp hn'
      exact List.any_eq_true.mpr ⟨e, he, beq_iff_eq.mpr heq⟩
  · simpa only [List.map_map, Function.comp_def, name_setGateSize] using h

/-- A gate that was declared takes the sizes that are given for it later. -/
theorem find?_foldl_addGate_of_some {name : String} {g : InheritedGate} (entries : List InheritedGate)
    {gates : List InheritedGate} (h : gates.find? (·.decl.name == name) = some g) :
    (entries.foldl (fun gates e => addGate e.declaredIn gates e.decl) gates).find?
      (·.decl.name == name) = some (g.resized (lastSize? entries name)) := by
  induction entries generalizing gates g with
  | nil => exact h
  | cons e entries ih =>
    have hnext := find?_addGate gates e name
    rw [h, Option.map_some, Option.some_or] at hnext
    rw [List.foldl_cons, ih hnext, InheritedGate.resized_resized, lastSize?_cons]

/-- A gate that was not declared yet is declared by the first that declares it. -/
theorem find?_foldl_addGate_of_none {name : String} (entries : List InheritedGate)
    {gates : List InheritedGate} (h : gates.find? (·.decl.name == name) = none) :
    (entries.foldl (fun gates e => addGate e.declaredIn gates e.decl) gates).find?
      (·.decl.name == name) = firstGate? entries name := by
  induction entries generalizing gates with
  | nil => exact h
  | cons e entries ih =>
    have hnext := find?_addGate gates e name
    rw [h, Option.map_none, Option.none_or] at hnext
    rw [List.foldl_cons, firstGate?, List.dropWhile_cons]
    cases hdeclares : declaresGate name e with
    | true =>
      rw [hdeclares, if_pos rfl] at hnext
      rw [find?_foldl_addGate_of_some entries hnext]
      rfl
    | false =>
      rw [hdeclares, if_neg Bool.false_ne_true] at hnext
      exact ih hnext

/-- **The gate of a name is the first that is declared, from the far end of the chain, with the size that
is given for it last.** -/
theorem find?_gatesOf (chain : List Definition) (name : String) :
    (gatesOf chain).find? (·.decl.name == name) = firstGate? (gateEntries chain) name := by
  rw [gatesOf_eq]
  exact find?_foldl_addGate_of_none (gateEntries chain) rfl

/-- Inherited gates have names that are all different. -/
theorem nodup_gatesOf (chain : List Definition) :
    ((gatesOf chain).map fun e => e.decl.name).Nodup := by
  rw [gatesOf_eq]
  refine List.foldlRecOn (gateEntries chain) _
    (motive := fun gates : List InheritedGate => (gates.map fun e => e.decl.name).Nodup) ?_
    fun _ h _ _ => nodup_addGate h
  exact List.nodup_nil

end Members

end NedWorkspace
