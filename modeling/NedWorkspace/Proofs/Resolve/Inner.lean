/-
# Inner types by their qualified names

SPEC_FULL, section 6: `get_inner_or_toplevel_type`.

A qualified name that no canonical type has is cut where its longest front part names one; the rest of it
is a path of inner types from there (`Model.exists_longest_cut`). What is found so bears the name. An inner
type is found by its own name unless a canonical type closer to it has the name of a type around it: a
package may be named like a compound module, and then the search goes down in the wrong type
(`Model.inner_reachable`).
-/

import NedWorkspace.Proofs.Definition.Builtin
import NedWorkspace.Proofs.Definition.Paths
import NedWorkspace.Proofs.Resolve.Visible

namespace NedWorkspace

/-- A path that is not empty leads inside. -/
theorem Definition.mem_allInner_of_path {d i : Definition} {path : List String} (h : path ≠ [])
    (hi : d.descend path = some i) : i ∈ d.allInner := by
  obtain ⟨s, path, rfl⟩ := List.exists_cons_of_ne_nil h
  exact mem_allInner_of_descend hi

namespace Definition.Read

variable {d e i : Definition} {path : List String}

/-- The name of a type below another goes on with the path. -/
theorem segments_descend (h : d.Read) (he : d.descend path = some e) :
    Name.segments e.qname = Name.segments d.qname ++ path := by
  obtain ⟨_, _, _, _, _, hbuilt⟩ := h.built
  exact hbuilt.segments_descend h.simple he

/-- The name of an inner type leads to it. -/
theorem exists_path (h : d.Read) (hi : i ∈ d.allInner) : ∃ path, path ≠ [] ∧
    d.descend path = some i ∧ Name.segments i.qname = Name.segments d.qname ++ path := by
  obtain ⟨_, _, _, _, _, hbuilt⟩ := h.built
  obtain ⟨s, path, hpath⟩ := hbuilt.exists_path hi
  exact ⟨s :: path, List.cons_ne_nil s path, hpath, h.segments_descend hpath⟩

/-- The front parts of the name of an inner type are the names of the types around it. -/
theorem exists_around (h : d.Read) (hi : i ∈ d.allInner) {n : ℕ}
    (hle : (Name.segments d.qname).length ≤ n) (hlt : n < (Name.segments i.qname).length) :
    ∃ e, (e = d ∨ e ∈ d.allInner) ∧ i ∈ e.allInner ∧
      Name.segments e.qname = (Name.segments i.qname).take n := by
  obtain ⟨path, _, hpath, hsegments⟩ := h.exists_path hi
  rw [hsegments, List.length_append] at hlt
  rw [← List.take_append_drop (n - (Name.segments d.qname).length) path, descend_append] at hpath
  obtain ⟨e, he, hei⟩ := Option.bind_eq_some_iff.mp hpath
  refine ⟨e, ?_, mem_allInner_of_path (List.drop_eq_nil_iff.not.mpr (by omega)) hei, ?_⟩
  · by_cases hfront : path.take (n - (Name.segments d.qname).length) = []
    · rw [hfront] at he
      exact .inl (Option.some.inj he).symm
    · exact .inr (mem_allInner_of_path hfront he)
  · rw [h.segments_descend he, hsegments, List.take_append, List.take_of_length_le hle]

end Definition.Read

/-- The canonical types of a project are types of texts. -/
theorem ProjectTable.Seeded.read {t : ProjectTable} {d : Definition} (h : t.Seeded)
    (hd : d ∈ t.definitions) : d.Read := by
  obtain ⟨defs, rfl, hread⟩ := h
  have hmem := (ProjectTable.eq_qname_of_component? (ProjectTable.mem_definitions_ofList.mp hd)).2
  rcases List.mem_append.mp hmem with hmem | hmem
  · exact DefinitionIndex.read_of_mem_builtins hmem
  · exact hread d hmem

namespace Model

variable {m : Model} {project : String} {t : ProjectTable} {qname : String} {c d i r : Definition}

/-! ### The search -/

/-- The lengths of the front parts of a name, the longest first. -/
theorem mem_cuts {segments : List String} {n : ℕ} :
    n ∈ (List.range (segments.length - 1)).reverse.map (· + 1) ↔ 0 < n ∧ n < segments.length := by
  simp only [List.mem_map, List.mem_reverse, List.mem_range]
  constructor
  · rintro ⟨k, hk, rfl⟩
    omega
  · intro h
    exact ⟨n - 1, by omega, by omega⟩

/-- The ways to cut a name in two are tried from the longest front on. -/
theorem pairwise_cuts (n : ℕ) :
    ((List.range n).reverse.map (· + 1)).Pairwise (· > ·) := by
  rw [List.pairwise_map, List.pairwise_reverse]
  exact List.pairwise_lt_range.imp fun h => Nat.succ_lt_succ h

/-- What is found is canonical or lies at a path below a canonical type. -/
theorem of_innerOrToplevel? (htable : m.table? project = some t)
    (h : m.innerOrToplevel? qname project = some r) :
    t.component? qname = some r ∨ ∃ n c, 0 < n ∧ n < (Name.segments qname).length ∧
      t.component? (Name.join ((Name.segments qname).take n)) = some c ∧
        c.descend ((Name.segments qname).drop n) = some r := by
  unfold innerOrToplevel? at h
  rw [htable, Option.bind_some] at h
  split at h
  · rename_i d hd
    exact .inl (hd.trans h)
  · obtain ⟨n, hn, hfound⟩ := List.exists_of_findSome?_eq_some (Option.join_eq_some_iff.mp h)
    obtain ⟨c, hc, hdescend⟩ := Option.map_eq_some_iff.mp hfound
    obtain ⟨hpos, hlt⟩ := mem_cuts.mp hn
    exact .inr ⟨n, c, hpos, hlt, hc, hdescend⟩

/-- **The search goes down from the type with the longest name.** -/
theorem exists_longest_cut (htable : m.table? project = some t) (hnone : t.component? qname = none)
    {k : ℕ} (hpos : 0 < k) (hlt : k < (Name.segments qname).length)
    (hk : t.component? (Name.join ((Name.segments qname).take k)) = some c) :
    ∃ n d, k ≤ n ∧ n < (Name.segments qname).length ∧
      t.component? (Name.join ((Name.segments qname).take n)) = some d ∧
        m.innerOrToplevel? qname project = d.descend ((Name.segments qname).drop n) := by
  unfold innerOrToplevel?
  rw [htable, Option.bind_some, hnone]
  dsimp only
  set segments := Name.segments qname
  have hmem := mem_cuts.mpr ⟨hpos, hlt⟩
  have hsome : (((List.range (segments.length - 1)).reverse.map (· + 1)).findSome? fun n =>
      (t.component? (Name.join (segments.take n))).map fun d =>
        d.descend (segments.drop n)).isSome = true := by
    rw [List.isSome_findSome?, List.any_eq_true]
    exact ⟨k, hmem, by rw [hk]; rfl⟩
  obtain ⟨x, hx⟩ := Option.isSome_iff_exists.mp hsome
  rw [hx, Option.join_some]
  obtain ⟨before, n, after, hcuts, hn, hbefore⟩ := List.findSome?_eq_some_iff.mp hx
  obtain ⟨d, hd, rfl⟩ := Option.map_eq_some_iff.mp hn
  have hpairwise := pairwise_cuts (segments.length - 1)
  rw [hcuts] at hmem hpairwise
  have hnlt : n < segments.length := (mem_cuts.mp (hcuts ▸ List.mem_append_right before
    List.mem_cons_self)).2
  refine ⟨n, d, ?_, hnlt, hd, rfl⟩
  rcases List.mem_append.mp hmem with hmem | hmem
  · exact absurd (hbefore k hmem) (by rw [hk]; simp)
  · rcases List.mem_cons.mp hmem with rfl | hmem
    · exact le_rfl
    · exact le_of_lt ((List.pairwise_cons.mp (List.pairwise_append.mp hpairwise).2.1).1 k hmem)

/-! ### What is found -/

/-- **What is found has the name that was asked for,** and is a canonical type or lies in one. -/
theorem innerOrToplevel?_sound (htable : m.table? project = some t) (ht : t.Seeded)
    (h : m.innerOrToplevel? qname project = some r) :
    r.qname = qname ∧ ∃ c ∈ t.definitions, r = c ∨ r ∈ c.allInner := by
  rcases of_innerOrToplevel? htable h with hr | ⟨n, c, hpos, hlt, hc, hdescend⟩
  · obtain ⟨hmem, hqname⟩ := ht.named.of_component? hr
    exact ⟨hqname, r, hmem, .inl rfl⟩
  · obtain ⟨hmem, hqname⟩ := ht.named.of_component? hc
    have hfront : (Name.segments qname).take n ≠ [] := by
      rw [Ne, List.take_eq_nil_iff, not_or]
      exact ⟨hpos.ne', Name.segments_ne_nil qname⟩
    have hname : r.qname = qname := by
      rw [← Name.join_segments r.qname, (ht.read hmem).segments_descend hdescend,
        Name.join_append (Name.segments_ne_nil _), Name.join_segments, hqname,
        ← Name.join_append hfront, List.take_append_drop, Name.join_segments]
    have hrest : (Name.segments qname).drop n ≠ [] :=
      List.drop_eq_nil_iff.not.mpr (Nat.not_le.mpr hlt)
    exact ⟨hname, c, hmem, .inr (Definition.mem_allInner_of_path hrest hdescend)⟩

/-- **An inner type is found by its own name** unless a canonical type with the name of a type around it
has no type of that name. -/
theorem exists_innerOrToplevel? (htable : m.table? project = some t) (ht : t.Seeded)
    (hc : c ∈ t.definitions) (hi : i ∈ c.allInner)
    (hshadow : ∀ e ∈ c.allInner, i ∈ e.allInner → ∀ d, t.component? e.qname = some d →
      ∃ j ∈ d.allInner, j.qname = i.qname) :
    ∃ r, m.innerOrToplevel? i.qname project = some r := by
  cases hnone : t.component? i.qname with
  | some d =>
    refine ⟨d, ?_⟩
    rw [innerOrToplevel?, htable, Option.bind_some, hnone]
  | none =>
    have hself := ht.named.mem_definitions.mp hc
    obtain ⟨path, hpath, _, hsegments⟩ := (ht.read hc).exists_path hi
    have hlt : (Name.segments c.qname).length < (Name.segments i.qname).length := by
      rw [hsegments, List.length_append]
      exact Nat.lt_add_of_pos_right (List.length_pos_of_ne_nil hpath)
    have hcut : t.component? (Name.join ((Name.segments i.qname).take
        (Name.segments c.qname).length)) = some c := by
      rw [hsegments, List.take_left, Name.join_segments, hself]
    obtain ⟨n, d, hle, hnlt, hd, hanswer⟩ := exists_longest_cut htable hnone
      (List.length_pos_of_ne_nil (Name.segments_ne_nil _)) hlt hcut
    -- The search goes down from `d`, which has the name of a type `e` around `i`.
    obtain ⟨e, he, hie, hename⟩ := (ht.read hc).exists_around hi hle hnlt
    rw [← hename, Name.join_segments] at hd
    obtain ⟨hdmem, hdname⟩ := ht.named.of_component? hd
    obtain ⟨j, hj, hjname⟩ : ∃ j ∈ d.allInner, j.qname = i.qname := by
      rcases he with rfl | he
      · rw [hself] at hd
        exact ⟨i, Option.some.inj hd ▸ hi, rfl⟩
      · exact hshadow e he hie d hd
    obtain ⟨way, _, hway, hwaySegments⟩ := (ht.read hdmem).exists_path hj
    have hrest : (Name.segments i.qname).drop n = way := by
      rw [hjname, hdname, hename] at hwaySegments
      exact List.append_cancel_left ((List.take_append_drop n _).trans hwaySegments)
    exact ⟨j, by rw [hanswer, hrest, hway]⟩

/-- **Inner types by their qualified names.** Take any table made of the built-in types and of types of texts
that were read, of any packages. Whatever is found for a name has that name, and it is a canonical type or
lies in one. And for each type inside a canonical one, at any depth, a type of its name is found, provided
that no canonical type takes the name of a type around it without having a type of that name inside. -/
theorem inner_reachable (htable : m.table? project = some t) (ht : t.Seeded) :
    (∀ qname r, m.innerOrToplevel? qname project = some r →
      r.qname = qname ∧ ∃ c ∈ t.definitions, r = c ∨ r ∈ c.allInner) ∧
    ∀ c ∈ t.definitions, ∀ i ∈ c.allInner,
      (∀ e ∈ c.allInner, i ∈ e.allInner → ∀ d, t.component? e.qname = some d →
        ∃ j ∈ d.allInner, j.qname = i.qname) →
      ∃ r, m.innerOrToplevel? i.qname project = some r ∧ r.qname = i.qname := by
  refine ⟨fun _ _ => innerOrToplevel?_sound htable ht, fun c hc i hi hshadow => ?_⟩
  obtain ⟨r, hr⟩ := exists_innerOrToplevel? htable ht hc hi hshadow
  exact ⟨r, hr, (innerOrToplevel?_sound htable ht hr).1⟩

/-! ### A package named like a compound module -/

/-- Names of another package than that of the built-in types are canonical by what files declare. -/
theorem component?_outside {defs : List Definition} {package name : String} (hpackage : package ≠ "ned")
    (hname : Name.isQualified name = false) :
    (ProjectTable.ofList (DefinitionIndex.seeded.builtins ++ defs)).component?
      (Name.qualify package name) = some d ↔
        ProjectTable.bearers defs (Name.qualify package name) = [d] := by
  have hnone : ProjectTable.bearers DefinitionIndex.seeded.builtins (Name.qualify package name) = [] := by
    rw [ProjectTable.bearers, List.filter_eq_nil_iff]
    intro b hb hqname
    have hnamed := (DefinitionIndex.read_of_mem_builtins hb).named
    have hsame := hnamed.qname.symm.trans (eq_of_beq hqname)
    exact hpackage ((Name.qualify_inj hnamed.simple hname hsame).1.symm.trans
      (DefinitionIndex.package_of_mem_builtins hb))
  rw [ProjectTable.component?_ofList, ProjectTable.bearers, List.filter_append]
  exact iff_of_eq (congrArg (· ++ _ = [d]) hnone)

/-- The types of a file that is read from a text. -/
def typesOfText (n : ℕ) (text : String) : List Definition :=
  (FileScope.ofTree (.source n) (n + 1) (Parse.ofText text).tree (some "p")).types

/-- The types of a text are read from it. -/
theorem read_typesOfText {n : ℕ} {text : String} (hd : d ∈ typesOfText n text) : d.Read := by
  obtain ⟨t, ht, rfl⟩ := List.mem_map.mp hd
  exact .intro _ _ text rfl ht

/-- A project that registers types of files. -/
def ofTypes (defs : List Definition) : Model :=
  ⟨{}, ⟨[("p", .ofList (DefinitionIndex.seeded.builtins ++ defs))]⟩⟩

/-- A compound module in a compound module, and a type inside. -/
def deepText : String := "package a;module B\x7btypes:module C\x7btypes:simple I;\x7d\x7d"

/-- A type of a package that is named like the compound module `a.B`. -/
def shadowText : String := "package a.B;simple C;"

/-- A type inside of an inner type, as it is read. -/
theorem exists_deep : ∃ b, typesOfText 0 deepText = [b] ∧ b.qname = "a.B" ∧
    (∀ e ∈ b.allInner, e.qname = "a.B.C" ∨ e.qname = "a.B.C.I") ∧
      ∃ i ∈ b.allInner, i.qname = "a.B.C.I" := by
  have hshape : (typesOfText 0 deepText).map (fun b =>
      (b.qname, b.allInner.map fun i => i.qname)) = [("a.B", ["a.B.C", "a.B.C.I"])] := by cbv
  obtain ⟨b, hb, hpair⟩ := List.map_eq_singleton_iff.mp hshape
  obtain ⟨hqname, hinner⟩ := Prod.mk.inj hpair
  refine ⟨b, hb, hqname, fun e he => ?_, ?_⟩
  · exact List.mem_pair.mp (hinner ▸ List.mem_map_of_mem he)
  · have hlast : "a.B.C.I" ∈ b.allInner.map fun i : Definition => i.qname := by simp [hinner]
    exact List.mem_map.mp hlast

/-- A text whose type hides another one's inner types, as it is read. -/
theorem exists_shadow : ∃ c, typesOfText 1 shadowText = [c] ∧ c.qname = "a.B.C" ∧ c.inner = [] := by
  have hshape : (typesOfText 1 shadowText).map (fun c => (c.qname, c.inner.length)) =
      [("a.B.C", 0)] := by cbv
  obtain ⟨c, hc, hpair⟩ := List.map_eq_singleton_iff.mp hshape
  obtain ⟨hqname, hinner⟩ := Prod.mk.inj hpair
  exact ⟨c, hc, hqname, List.length_eq_zero_iff.mp hinner⟩

/-- A list of one definition has a bearer of its name only. -/
theorem bearers_singleton (d : Definition) (qname : String) :
    ProjectTable.bearers [d] qname = if d.qname = qname then [d] else [] := by
  rw [ProjectTable.bearers, List.filter_singleton]
  simp

/-- The innermost type is found by its name. -/
theorem inner_reachable_deep :
    let m := ofTypes (typesOfText 0 deepText)
    ∃ t, m.table? "p" = some t ∧ t.Seeded ∧ ∃ c ∈ t.definitions, ∃ i ∈ c.allInner,
      i.qname = "a.B.C.I" ∧
      (∀ e ∈ c.allInner, i ∈ e.allInner → ∀ d, t.component? e.qname = some d →
        ∃ j ∈ d.allInner, j.qname = i.qname) ∧
      ∃ r, m.innerOrToplevel? i.qname "p" = some r ∧ r.qname = i.qname := by
  intro m
  obtain ⟨b, hb, hqname, hinner, i, hi, hiname⟩ := exists_deep
  set t : ProjectTable := .ofList (DefinitionIndex.seeded.builtins ++ typesOfText 0 deepText)
  have hseeded : t.Seeded := ⟨_, rfl, fun _ => read_typesOfText⟩
  have hcomponent : ∀ package name d, package ≠ "ned" → Name.isQualified name = false →
      (t.component? (Name.qualify package name) = some d ↔
        (if "a.B" = Name.qualify package name then [b] else []) = [d]) := by
    intro package name d hpackage hname
    rw [component?_outside hpackage hname, hb, bearers_singleton, hqname]
  have hmem : b ∈ t.definitions := by
    rw [hseeded.named.mem_definitions, hqname]
    exact (hcomponent "a" "B" b (by decide) (by decide)).mpr (if_pos (by decide))
  have hshadow : ∀ e ∈ b.allInner, i ∈ e.allInner → ∀ d, t.component? e.qname = some d →
      ∃ j ∈ d.allInner, j.qname = i.qname := by
    intro e he _ d hd
    rcases hinner e he with hename | hename <;> rw [hename] at hd
    · have hbears := (hcomponent "a.B" "C" d (by decide) (by decide)).mp hd
      rw [if_neg (by decide)] at hbears
      exact absurd hbears (by simp)
    · have hbears := (hcomponent "a.B.C" "I" d (by decide) (by decide)).mp hd
      rw [if_neg (by decide)] at hbears
      exact absurd hbears (by simp)
  exact ⟨t, rfl, hseeded, b, hmem, i, hi, hiname, hshadow,
    (inner_reachable rfl hseeded).2 b hmem i hi hshadow⟩

/-- **A package named like a compound module hides what lies deeper in the module.** -/
theorem inner_shadowed :
    let m := ofTypes (typesOfText 0 deepText ++ typesOfText 1 shadowText)
    ∃ t, m.table? "p" = some t ∧ t.Seeded ∧ ∃ c ∈ t.definitions, ∃ i ∈ c.allInner,
      i.qname = "a.B.C.I" ∧ m.innerOrToplevel? i.qname "p" = none := by
  intro m
  obtain ⟨b, hb, hqname, _, i, hi, hiname⟩ := exists_deep
  obtain ⟨c, hc, hcname, hcinner⟩ := exists_shadow
  set t : ProjectTable := .ofList (DefinitionIndex.seeded.builtins ++
    (typesOfText 0 deepText ++ typesOfText 1 shadowText))
  have hseeded : t.Seeded := by
    refine ⟨_, rfl, fun d hd => ?_⟩
    rcases List.mem_append.mp hd with hd | hd
    · exact read_typesOfText hd
    · exact read_typesOfText hd
  have hcomponent : ∀ package name d, package ≠ "ned" → Name.isQualified name = false →
      (t.component? (Name.qualify package name) = some d ↔
        (if "a.B" = Name.qualify package name then [b] else []) ++
          (if "a.B.C" = Name.qualify package name then [c] else []) = [d]) := by
    intro package name d hpackage hname
    rw [component?_outside hpackage hname, ProjectTable.bearers, List.filter_append,
      ← ProjectTable.bearers, ← ProjectTable.bearers, hb, hc, bearers_singleton, bearers_singleton,
      hqname, hcname]
  have hmem : b ∈ t.definitions := by
    rw [hseeded.named.mem_definitions, hqname]
    refine (hcomponent "a" "B" b (by decide) (by decide)).mpr ?_
    rw [if_pos (by decide), if_neg (by decide), List.append_nil]
  have hlonger : t.component? "a.B.C" = some c := by
    refine (hcomponent "a.B" "C" c (by decide) (by decide)).mpr ?_
    rw [if_neg (by decide), if_pos (by decide), List.nil_append]
  have hnone : t.component? "a.B.C.I" = none := by
    refine Option.eq_none_iff_forall_ne_some.mpr fun d hd => ?_
    have hbears := (hcomponent "a.B.C" "I" d (by decide) (by decide)).mp hd
    rw [if_neg (by decide), if_neg (by decide)] at hbears
    exact absurd hbears (by simp)
  -- The search goes down from `c`, which has no inner types.
  have hsegments : Name.segments "a.B.C.I" = ["a", "B", "C", "I"] := by decide
  obtain ⟨n, d, hle, hlt, hd, hanswer⟩ := exists_longest_cut (k := 3) (show m.table? "p" = some t from rfl) hnone
    (by decide) (by decide) hlonger
  obtain rfl : n = 3 := by
    rw [hsegments] at hlt
    exact Nat.le_antisymm (Nat.le_of_lt_succ hlt) hle
  obtain rfl : c = d := Option.some.inj (hlonger.symm.trans hd)
  refine ⟨t, rfl, hseeded, b, hmem, i, hi, hiname, ?_⟩
  rw [hiname, hanswer, hsegments]
  change (c.inner? "I").bind _ = none
  rw [Definition.inner?, hcinner]
  rfl

end Model
end NedWorkspace
