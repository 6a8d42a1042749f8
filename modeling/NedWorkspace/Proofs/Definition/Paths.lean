/-
# Paths of inner types

Every type inside a definition lies at a path of simple names below it (`Definition.Built.exists_path`), and
the segments of its qualified name are those of the definition's name and then the path
(`Definition.Built.segments_descend`). So the name tells the path.
-/

import NedWorkspace.Proofs.Definition.Registration

namespace NedWorkspace
namespace Definition

variable {file : FileId} {edition : Nat} {package : String} {top : TypeKey} {nodes : List NodeSpan}
variable {d e i : Definition} {path : List String}

/-- A path is followed in two parts. -/
theorem descend_append (d : Definition) (path more : List String) :
    d.descend (path ++ more) = (d.descend path).bind (·.descend more) := by
  induction path generalizing d with
  | nil => rfl
  | cons s path ih =>
    rw [List.cons_append, descend, descend, Option.bind_assoc]
    exact congrArg _ (funext ih)

/-- Of inner declarations with one name the first counts. -/
theorem nodup_names_buildEach {enclosing : TypeKey} {outer : String} (taken : List String)
    (types : List TypeDecl) :
    ((buildEach file edition package top enclosing outer taken types).map name).Nodup ∧
      ∀ i ∈ buildEach file edition package top enclosing outer taken types, i.name ∉ taken := by
  induction types generalizing taken with
  | nil =>
    rw [buildEach]
    exact ⟨List.nodup_nil, fun _ hi => absurd hi List.not_mem_nil⟩
  | cons t ts ih =>
    rw [buildEach]
    split
    · exact ih taken
    · rename_i hnew
      obtain ⟨hnodup, hlater⟩ := ih (t.name :: taken)
      have hname : (buildAt file edition package top (some enclosing) (Name.below outer t.name) t).name
          = t.name := by rw [name, decl_buildAt]
      refine ⟨?_, fun i hi => ?_⟩
      · rw [List.map_cons, List.nodup_cons, hname]
        refine ⟨fun hmem => ?_, hnodup⟩
        obtain ⟨i, hi, heq⟩ := List.mem_map.mp hmem
        exact hlater i hi (heq ▸ List.mem_cons_self)
      · rcases List.mem_cons.mp hi with rfl | hi
        · rw [hname]
          simpa using hnew
        · exact fun hmem => hlater i hi (List.mem_cons_of_mem _ hmem)

/-- An inner type is found by its name. -/
theorem Built.inner?_name (h : Built file edition package top nodes d) (hi : i ∈ d.inner) :
    d.inner? i.name = some i := by
  have hnodup : (d.inner.map name).Nodup := by
    obtain ⟨enclosing, qname, x, _⟩ := h
    rw [inner_buildAt]
    exact (nodup_names_buildEach [] x.types).1
  obtain ⟨j, hj⟩ : ∃ j, d.inner? i.name = some j :=
    Option.isSome_iff_exists.mp (List.find?_isSome.mpr ⟨i, hi, beq_self_eq_true _⟩)
  have hname : j.name = i.name := by simpa using List.find?_some hj
  rw [hj, List.inj_on_of_nodup_map hnodup (List.mem_of_find?_eq_some hj) hi hname]

/-- Inner types have simple names if the declarations inside have. -/
theorem Built.simple_inner (h : Built file edition package top nodes d) (hsimple : d.decl.Simple)
    (hi : i ∈ d.inner) : i.decl.Simple := by
  obtain ⟨enclosing, qname, x, _⟩ := h
  rw [decl_buildAt] at hsimple
  obtain ⟨t, ht, rfl⟩ := mem_inner_buildAt hi
  rw [decl_buildAt]
  exact hsimple.types t ht

/-- Whatever a path leads to was built from the same file. -/
theorem Built.descend (h : Built file edition package top nodes d) (he : d.descend path = some e) :
    Built file edition package top nodes e := by
  induction path generalizing d with
  | nil => exact Option.some.inj he ▸ h
  | cons s path ih =>
    obtain ⟨i, hi, hdescend⟩ := Option.bind_eq_some_iff.mp he
    exact ih (h.inner (List.mem_of_find?_eq_some hi)) hdescend

/-- **A type inside a definition lies at a path below it.** -/
theorem Built.exists_path (h : Built file edition package top nodes d) (hi : i ∈ d.allInner) :
    ∃ s path, d.descend (s :: path) = some i := by
  have hstep : ∀ {c j : Definition}, Built file edition package top nodes c → j ∈ c.inner →
      c.descend [j.name] = some j := by
    intro c j hc hj
    rw [Definition.descend, hc.inner?_name hj]
    rfl
  rw [mem_allInner] at hi
  induction hi with
  | inner hj => exact ⟨_, [], hstep h hj⟩
  | @deeper i j _ hj ih =>
    obtain ⟨s, path, hpath⟩ := ih
    refine ⟨s, path ++ [j.name], ?_⟩
    rw [← List.cons_append, descend_append, hpath]
    exact hstep (h.descend hpath) hj

/-- **The path of a type is read off its name.** -/
theorem Built.segments_descend (h : Built file edition package top nodes d) (hsimple : d.decl.Simple)
    (he : d.descend path = some e) : Name.segments e.qname = Name.segments d.qname ++ path := by
  induction path generalizing d with
  | nil => rw [Option.some.inj he, List.append_nil]
  | cons s path ih =>
    obtain ⟨i, hi, hdescend⟩ := Option.bind_eq_some_iff.mp he
    have hmem := List.mem_of_find?_eq_some hi
    have hname : i.name = s := by simpa using List.find?_some hi
    have hisimple := h.simple_inner hsimple hmem
    have hsegment : Name.segments i.name = [s] := hname ▸ Name.segments_of_simple hisimple.name
    rw [ih (h.inner hmem) hisimple hdescend, h.qname_inner hmem, Name.segments_below, hsegment,
      List.append_assoc]
    rfl

/-- A type of a text is built from its declaration. -/
theorem Read.built (h : d.Read) : ∃ file edition package top nodes,
    Built file edition package top nodes d := by
  obtain ⟨file, edition, text, htree, ht⟩ := h
  exact ⟨file, edition, _, _, _, .intro _ _ _ (List.Subset.refl _)⟩

end Definition
end NedWorkspace
