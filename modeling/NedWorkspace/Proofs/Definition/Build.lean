/-
# The definitions of a file

The definitions that a file is given are those of its declarations, at any depth
(`FileScope.built_of_mem`): nodes of the tree become keys, one key for each definition
(`FileScope.nodup_keys`), and an inner type goes by the name of the type around it, a point and its own
name, so a path of inner types is read off the qualified name (`Definition.Built.innerAt?`). A top-level
type goes by its package and a name without points (`Definition.Read.named`).
-/

import NedWorkspace.Definition.Index
import NedWorkspace.Proofs.Name
import NedWorkspace.Proofs.Resolve.Twin
import NedWorkspace.Proofs.Syntax.NodeIdentity
import NedWorkspace.Proofs.Syntax.TypeNames

namespace NedWorkspace

/-- The nodes of an inner declaration are nodes of the one around it. -/
theorem TypeDecl.nodes_subset_of_mem {x t : TypeDecl} (h : t ∈ x.types) : t.nodes ⊆ x.nodes := by
  obtain ⟨own, types⟩ := x
  rw [TypeDecl.nodes_mk]
  intro n hn
  exact List.mem_append_right _ (List.mem_append_left _ (List.mem_flatMap.mpr ⟨t, h, hn⟩))

/-- Names do not depend on stamps. -/
theorem TypeDecl.simple_restamp (f : NodeSpan → NodeSpan) (x : TypeDecl) :
    (x.restamp f).Simple ↔ x.Simple := by
  induction x using TypeDecl.induct with
  | mk own types ih =>
    have hname : (TypeDecl.restamp f ⟨own, types⟩).name = own.name :=
      TypeDecl.name_restamp f ⟨own, types⟩
    have htypes : (TypeDecl.restamp f ⟨own, types⟩).types = types.map (TypeDecl.restamp f) := by
      rw [TypeDecl.restamp_mk]
    constructor
    · intro h
      refine .intro (hname ▸ h.name) fun u hu => (ih u hu).mp (h.types _ ?_)
      exact htypes ▸ List.mem_map_of_mem hu
    · intro h
      refine .intro (hname.symm ▸ h.name) fun v hv => ?_
      obtain ⟨u, hu, rfl⟩ := List.mem_map.mp (htypes ▸ hv)
      exact (ih u hu).mpr (h.types u hu)

theorem TypeDecl.node_mem_nodes (x : TypeDecl) : ⟨x.node, x.span⟩ ∈ x.nodes := by
  obtain ⟨own, types⟩ := x
  rw [TypeDecl.nodes_mk]
  exact List.mem_append_left _ List.mem_cons_self

namespace Definition

/-! ### Definitions and what lies below them -/

/-- What passes from a definition to the types inside it holds of all types below a list if it holds
of those in the list. -/
theorem forall_withInner {P : Definition → Prop} (hinner : ∀ d, P d → ∀ i ∈ d.inner, P i)
    (ds : List Definition) (h : ∀ d ∈ ds, P d) : ∀ d ∈ withInner ds, P d := by
  match ds with
  | [] => exact fun _ hd => absurd hd List.not_mem_nil
  | ⟨own, inner⟩ :: ds =>
    intro d hd
    rw [withInner, List.mem_cons, List.mem_append, allInner] at hd
    have hhead := h ⟨own, inner⟩ List.mem_cons_self
    rcases hd with rfl | hd | hd
    · exact hhead
    · exact forall_withInner hinner inner (hinner _ hhead) d hd
    · exact forall_withInner hinner ds (fun d hd => h d (List.mem_cons_of_mem _ hd)) d hd

/-- A type below a list is one of the list or below one of it. -/
theorem exists_mem_of_mem_withInner {ds : List Definition} {d : Definition} (h : d ∈ withInner ds) :
    ∃ c ∈ ds, d ∈ c :: c.allInner := by
  induction ds with
  | nil => exact absurd h List.not_mem_nil
  | cons c cs ih =>
    rw [withInner, List.mem_cons, List.mem_append] at h
    rcases h with rfl | h | h
    · exact ⟨d, List.mem_cons_self, List.mem_cons_self⟩
    · exact ⟨c, List.mem_cons_self, List.mem_cons_of_mem c h⟩
    · obtain ⟨c', hc', hd⟩ := ih h
      exact ⟨c', List.mem_cons_of_mem c hc', hd⟩

/-- All types below a type of a list are below the list. -/
theorem mem_withInner_of_mem_allInner {ds : List Definition} {d i : Definition}
    (hd : d ∈ withInner ds) (hi : i ∈ d.allInner) : i ∈ withInner ds := by
  rw [allInner_eq] at hi
  exact forall_withInner (fun _ hx _ hj => mem_withInner_of_mem _ hx hj) d.inner
    (fun _ hj => mem_withInner_of_mem _ hd hj) i hi

/-- The types right inside are among all those inside. -/
theorem mem_allInner_of_mem_inner {d i : Definition} (h : i ∈ d.inner) : i ∈ d.allInner := by
  rw [allInner_eq]
  exact mem_withInner_self h

/-- What is inside of an inner type is inside of the type around it. -/
theorem allInner_subset {d i : Definition} (h : i ∈ d.allInner) : i.allInner ⊆ d.allInner := by
  rw [allInner_eq i]
  exact fun e he => forall_withInner (fun _ hx j hj => mem_allInner_of_mem d hx hj) i.inner
    (fun j hj => mem_allInner_of_mem d h hj) e he

/-- A path of simple names leads to a type inside. -/
theorem mem_allInner_of_descend {d e : Definition} {s : String} {path : List String}
    (h : d.descend (s :: path) = some e) : e ∈ d.allInner := by
  induction path generalizing d s with
  | nil =>
    obtain ⟨i, hi, hdescend⟩ := Option.bind_eq_some_iff.mp h
    obtain rfl := Option.some.inj hdescend
    exact mem_allInner_of_mem_inner (List.mem_of_find?_eq_some hi)
  | cons s' path ih =>
    obtain ⟨i, hi, hdescend⟩ := Option.bind_eq_some_iff.mp h
    exact allInner_subset (mem_allInner_of_mem_inner (List.mem_of_find?_eq_some hi)) (ih hdescend)

/-! ### What is built -/

/-- The definition of a declaration whose nodes are among the given ones. -/
inductive Built (file : FileId) (edition : Nat) (package : String) (top : TypeKey)
    (nodes : List NodeSpan) : Definition → Prop
  | intro (enclosing : Option TypeKey) (qname : String) (x : TypeDecl) (hx : x.nodes ⊆ nodes) :
      Built file edition package top nodes (buildAt file edition package top enclosing qname x)

variable {file : FileId} {edition : Nat} {package : String} {top : TypeKey} {nodes : List NodeSpan}
variable {d i : Definition}

@[simp] theorem qname_buildAt (enclosing : Option TypeKey) (qname : String) (x : TypeDecl) :
    (buildAt file edition package top enclosing qname x).qname = qname := by
  obtain ⟨own, types⟩ := x
  rw [buildAt]

@[simp] theorem decl_buildAt (enclosing : Option TypeKey) (qname : String) (x : TypeDecl) :
    (buildAt file edition package top enclosing qname x).decl = x := by
  obtain ⟨own, types⟩ := x
  rw [buildAt]

@[simp] theorem key_buildAt (enclosing : Option TypeKey) (qname : String) (x : TypeDecl) :
    (buildAt file edition package top enclosing qname x).key = ⟨file, x.node⟩ := by
  obtain ⟨own, types⟩ := x
  rw [buildAt]

@[simp] theorem toplevel_buildAt (enclosing : Option TypeKey) (qname : String) (x : TypeDecl) :
    (buildAt file edition package top enclosing qname x).toplevel = top := by
  obtain ⟨own, types⟩ := x
  rw [buildAt]

@[simp] theorem package_buildAt (enclosing : Option TypeKey) (qname : String) (x : TypeDecl) :
    (buildAt file edition package top enclosing qname x).package = package := by
  obtain ⟨own, types⟩ := x
  rw [buildAt]

@[simp] theorem enclosing_buildAt (enclosing : Option TypeKey) (qname : String) (x : TypeDecl) :
    (buildAt file edition package top enclosing qname x).enclosing = enclosing := by
  obtain ⟨own, types⟩ := x
  rw [buildAt]

/-- The inner types are built from the declarations inside, in order. -/
theorem inner_buildAt (enclosing : Option TypeKey) (qname : String) (x : TypeDecl) :
    (buildAt file edition package top enclosing qname x).inner =
      buildEach file edition package top ⟨file, x.node⟩ qname [] x.types := by
  obtain ⟨own, types⟩ := x
  rw [buildAt]

/-- Inner definitions are those of inner declarations. -/
theorem mem_buildEach {enclosing : TypeKey} {outer : String} {taken : List String}
    {types : List TypeDecl} (h : i ∈ buildEach file edition package top enclosing outer taken types) :
    ∃ t ∈ types, i = buildAt file edition package top (some enclosing) (Name.below outer t.name) t := by
  induction types generalizing taken with
  | nil => exact absurd h (by simp [buildEach])
  | cons t ts ih =>
    have hlater {taken : List String}
        (hmem : i ∈ buildEach file edition package top enclosing outer taken ts) :
        ∃ u ∈ t :: ts,
          i = buildAt file edition package top (some enclosing) (Name.below outer u.name) u := by
      obtain ⟨u, hu, heq⟩ := ih hmem
      exact ⟨u, List.mem_cons_of_mem t hu, heq⟩
    rw [buildEach] at h
    split at h
    · exact hlater h
    · rcases List.mem_cons.mp h with rfl | h
      · exact ⟨t, List.mem_cons_self, rfl⟩
      · exact hlater h

/-- Each inner type goes by its simple name below the name of the type around it. -/
theorem mem_inner_buildAt {enclosing : Option TypeKey} {qname : String} {x : TypeDecl}
    (h : i ∈ (buildAt file edition package top enclosing qname x).inner) :
    ∃ t ∈ x.types,
      i = buildAt file edition package top (some ⟨file, x.node⟩) (Name.below qname t.name) t := by
  rw [inner_buildAt] at h
  exact mem_buildEach h

/-- The types inside a type are built alike. -/
theorem Built.inner (h : Built file edition package top nodes d) (hi : i ∈ d.inner) :
    Built file edition package top nodes i := by
  obtain ⟨enclosing, qname, x, hx⟩ := h
  obtain ⟨t, ht, rfl⟩ := mem_inner_buildAt hi
  exact .intro _ _ t (List.Subset.trans (TypeDecl.nodes_subset_of_mem ht) hx)

/-- An inner type goes by the name of the type around it and its own. -/
theorem Built.qname_inner (h : Built file edition package top nodes d) (hi : i ∈ d.inner) :
    i.qname = Name.below d.qname i.name := by
  obtain ⟨enclosing, qname, x, hx⟩ := h
  obtain ⟨t, ht, rfl⟩ := mem_inner_buildAt hi
  simp [name]

/-- A path of simple names is read off the end of the qualified name that it leads to. -/
theorem Built.qname_descend (h : Built file edition package top nodes d) {path : List String}
    {e : Definition} (he : d.descend path = some e) :
    e.qname.toList = d.qname.toList ++ path.flatMap (fun s => '.' :: s.toList) := by
  induction path generalizing d with
  | nil =>
    obtain rfl := Option.some.inj he
    simp
  | cons s path ih =>
    obtain ⟨i, hi, hdescend⟩ := Option.bind_eq_some_iff.mp he
    have hmem := List.mem_of_find?_eq_some hi
    have hname : i.name = s := by simpa using List.find?_some hi
    rw [ih (h.inner hmem) hdescend, h.qname_inner hmem, hname, Name.toList_below,
      List.flatMap_cons, List.append_assoc]

/-- **The type at a path below a type goes by the path.** -/
theorem Built.innerAt? (h : Built file edition package top nodes d) {path : String} {e : Definition}
    (he : d.innerAt? path = some e) : e.qname = Name.below d.qname path ∧ e ∈ d.allInner := by
  refine ⟨String.toList_injective ?_, ?_⟩
  · rw [h.qname_descend he, Name.flatMap_segments, Name.toList_below]
  · obtain ⟨s, ss, hpath⟩ := List.exists_cons_of_ne_nil (Name.segments_ne_nil path)
    rw [Definition.innerAt?, hpath] at he
    exact mem_allInner_of_descend he

/-! ### One key for each definition -/

/-- The nodes of definitions are told by those of their declarations, in order. -/
theorem keys_buildAt_sublist (x : TypeDecl) (enclosing : Option TypeKey) (qname : String) :
    ((withInner [buildAt file edition package top enclosing qname x]).map fun d => d.key.node).Sublist
      (x.nodes.map NodeSpan.node) := by
  induction x using TypeDecl.induct generalizing enclosing qname with
  | mk own types ih =>
    have heach : ∀ (ts : List TypeDecl) (taken : List String), (∀ t ∈ ts, t ∈ types) →
        ((withInner (buildEach file edition package top ⟨file, own.node⟩ qname taken ts)).map
          fun d => d.key.node).Sublist ((ts.flatMap TypeDecl.nodes).map NodeSpan.node) := by
      intro ts
      induction ts with
      | nil =>
        intro taken _
        rw [buildEach]
        exact List.Sublist.refl _
      | cons t ts ihrest =>
        intro taken hts
        have hrest := fun taken => ihrest taken fun t ht => hts t (List.mem_cons_of_mem _ ht)
        rw [buildEach, List.flatMap_cons, List.map_append]
        split
        · exact (hrest taken).trans (List.sublist_append_right _ _)
        · have hhead := ih t (hts t List.mem_cons_self) (some ⟨file, own.node⟩)
            (Name.below qname t.name)
          rw [withInner, withInner, List.append_nil] at hhead
          rw [withInner, ← List.cons_append, List.map_append]
          exact hhead.append (hrest _)
    rw [TypeDecl.nodes_mk, buildAt, withInner, withInner, List.append_nil, allInner, List.map_append,
      TypeDetails.nodesBefore, List.map_cons, List.map_cons, List.cons_append, List.map_append]
    refine List.Sublist.cons_cons _ (.trans ?_ (List.sublist_append_right _ _))
    exact (heach types [] fun _ ht => ht).trans ((List.sublist_append_left _ _).map _)

/-- Definitions are numbered as the nodes of a text are, in the order of the text. -/
theorem keys_map_build_sublist (types : List TypeDecl) :
    ((withInner (types.map (build file edition package))).map fun d => d.key.node).Sublist
      ((TypeDecl.nodesOfList types).map NodeSpan.node) := by
  induction types with
  | nil => exact List.Sublist.refl _
  | cons t ts ih =>
    have hhead : ((withInner [build file edition package t]).map fun d => d.key.node).Sublist
        (t.nodes.map NodeSpan.node) := keys_buildAt_sublist t none _
    rw [withInner, withInner, List.append_nil] at hhead
    rw [List.map_cons, withInner, ← List.cons_append, List.map_append, TypeDecl.nodesOfList,
      List.map_append]
    exact hhead.append ih

/-! ### Top-level types -/

/-- The definition of a top-level type of a file whose tree says what some text says. -/
inductive Read : Definition → Prop
  | intro (file : FileId) (edition : Nat) (text : String) {tree : Tree}
      (htree : tree.bare = (Parse.ofText text).tree.bare) {t : TypeDecl} (ht : t ∈ tree.types) :
      Read (build file edition (tree.packageName?.getD "") t)

/-- A top-level type goes by its package and a name without points. -/
structure Named (d : Definition) : Prop where
  simple : Name.isQualified d.name = false
  qname : d.qname = Name.qualify d.package d.name
  toplevel : d.isToplevel = true

/-- A type of a text and all types inside it have simple names. -/
theorem Read.simple (h : d.Read) : d.decl.Simple := by
  obtain ⟨file, edition, text, htree, ht⟩ := h
  rename_i tree t
  have htypes : tree.types.map (Stamped.restamp .bare) =
      (Parse.ofText text).tree.types.map (Stamped.restamp .bare) :=
    (congrArg Tree.types htree :)
  have hmem : Stamped.restamp .bare t ∈ tree.types.map (Stamped.restamp .bare) :=
    List.mem_map_of_mem ht
  rw [htypes] at hmem
  obtain ⟨u, hu, heq⟩ := List.mem_map.mp hmem
  have hbare : u.restamp .bare = t.restamp .bare := heq
  rw [build, decl_buildAt, ← t.simple_restamp .bare, ← hbare, u.simple_restamp]
  exact Parse.simple_types text u hu

/-- The definitions read from a text have names, and their inner types too. -/
theorem Read.named (h : d.Read) : d.Named := by
  refine ⟨h.simple.name, ?_, ?_⟩
  · obtain ⟨file, edition, text, htree, ht⟩ := h
    simp [build, name]
  · obtain ⟨file, edition, text, htree, ht⟩ := h
    simp [build, isToplevel]

/-- Whether a definition is built in can be told from its file. -/
theorem isBuiltin_of_file {file : FileId} (h : d.file = file) : d.isBuiltin = file.isBuiltin :=
  congrArg FileId.isBuiltin h

end Definition

namespace FileScope

open Definition

variable {file : FileId} {edition : Nat} {tree : Tree} {project : Option String} {d : Definition}

/-- **The definitions of a file are those of its declarations,** each with a top-level type around
it. -/
theorem built_of_mem (h : d ∈ (ofTree file edition tree project).allTypes) :
    ∃ t ∈ tree.types, d ∈ build file edition (tree.packageName?.getD "") t ::
        (build file edition (tree.packageName?.getD "") t).allInner ∧
      Built file edition (tree.packageName?.getD "") ⟨file, t.node⟩ tree.nodes d := by
  obtain ⟨c, hc, hd⟩ := exists_mem_of_mem_withInner h
  obtain ⟨t, ht, rfl⟩ := List.mem_map.mp hc
  have hnodes : t.nodes ⊆ tree.nodes := by
    intro n hn
    rw [Tree.nodes, TypeDecl.nodesOfList_eq]
    exact List.mem_append_right _ (List.mem_flatMap.mpr ⟨t, ht, hn⟩)
  refine ⟨t, ht, hd, ?_⟩
  have hbuilt : Built file edition (tree.packageName?.getD "") ⟨file, t.node⟩ tree.nodes
      (build file edition (tree.packageName?.getD "") t) := .intro none _ t hnodes
  refine forall_withInner (fun _ h _ hi => h.inner hi) [_] (by simpa using hbuilt) d ?_
  rw [withInner, withInner, List.append_nil]
  exact hd

/-- Every definition of a file has a key of the file. -/
theorem file_of_mem (h : d ∈ (ofTree file edition tree project).allTypes) : d.file = file := by
  obtain ⟨t, _, _, enclosing, qname, x, _⟩ := built_of_mem h
  rw [Definition.file, key_buildAt]

/-- **No two definitions of a file have one key.** -/
theorem nodup_keys (h : tree.ids.Nodup) :
    ((ofTree file edition tree project).allTypes.map fun d => d.key).Nodup := by
  have hnodes : ((ofTree file edition tree project).allTypes.map fun d => d.key.node).Nodup := by
    refine List.Nodup.sublist ((keys_map_build_sublist _).trans ?_) h
    rw [Tree.ids, Tree.nodes, List.map_append]
    exact List.sublist_append_right _ _
  have hmap : (ofTree file edition tree project).allTypes.map (fun d => d.key.node) =
      ((ofTree file edition tree project).allTypes.map fun d => d.key).map TypeKey.node := by
    rw [List.map_map]
    rfl
  rw [hmap] at hnodes
  exact hnodes.of_map _

/-- The definitions of a tree with numbers of their own have keys of their own. -/
theorem keyed_ofTree (file : FileId) (edition : Nat) (project : Option String)
    (h : tree.ids.Nodup) : (ofTree file edition tree project).Keyed file :=
  ⟨fun _ hd => file_of_mem hd, nodup_keys h⟩

end FileScope

namespace DefinitionIndex

/-- Building the definitions of a tree with numbers of its own keeps the two maps in line. -/
theorem WellFormed.build {index : DefinitionIndex} (h : index.WellFormed) {file : FileId} {tree : Tree}
    {project : Option String} (hnodup : tree.ids.Nodup) :
    (index.setFile file tree project).WellFormed :=
  h.setFile (FileScope.keyed_ofTree file index.nextEdition project hnodup)

/-- The index of the built-in declarations is well formed. -/
theorem wellFormed_seeded : seeded.WellFormed :=
  wellFormed_empty.build (Tree.numbered_ofText Builtin.text).1

end DefinitionIndex

end NedWorkspace
