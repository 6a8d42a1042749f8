/-
# What a lookup finds

SPEC_FULL, section 4.3: `lookup`.

In every reachable state a name that is looked up leads, if anywhere, to a type that bears it: one below
the compound module around the context, one below the context itself, or a top-level type whose
qualified name no other type has that the project of the context sees (`State.lookup_sound`).

The tables are made of `State.typesSeenBy` (`State.Kept.contributions_eq`), and what name resolution finds
in a table or below a definition bears the name looked up (`State.Kept.sound`).
-/

import NedWorkspace.Proofs.Resolve.Visible
import NedWorkspace.Proofs.Workspace.Coherent
import NedWorkspace.Proofs.Workspace.Files
import NedWorkspace.Proofs.Workspace.Indexed

namespace NedWorkspace

namespace Model

/-- The type has the name: a qualified one as its qualified name, a simple one as its simple name. -/
def Bears (d : Definition) (name : String) : Prop :=
  (if Name.isQualified name then d.qname else d.name) = name

/-- What a name denotes below a compound module bears that name. -/
theorem bears_of_innerByQName? {file : FileId} {edition : Nat} {package : String} {top : TypeKey}
    {nodes : List NodeSpan} {c d : Definition} (hc : c.Built file edition package top nodes)
    {name : String} (h : innerByQName? c name = some d) : d.qname = name ∧ d ∈ c.allInner := by
  obtain ⟨path, hpath, hinner⟩ := Option.bind_eq_some_iff.mp h
  obtain ⟨hqname, hmem⟩ := hc.innerAt? hinner
  exact ⟨hqname.trans (Name.eq_below_of_relativeTo? hpath).symm, hmem⟩

end Model

namespace State

variable {st : State}

/-- The files whose types a project sees: not broken, and owned by the project or by one that it refers
to, directly or through others. -/
def filesSeenBy (st : State) (project : String) : List SourceFile :=
  st.store.all.filter fun f => !f.broken && (st.registry.owner? f.path).any (st.registry.sees project)

/-- The types that a project sees: the built-in ones and the top-level types of the files it sees. -/
def typesSeenBy (st : State) (project : String) : List Definition :=
  st.index.builtins ++ (st.filesSeenBy project).flatMap fun f => st.index.fileTypes f.id

/-- **A table is made of the types that the project sees.** -/
theorem Kept.contributions_eq (h : st.Kept) (project : String) :
    st.registry.contributions st.index st.participants project = st.typesSeenBy project := by
  have howner : ∀ f ∈ st.store.all, st.index.projectOf? f.id = st.registry.owner? f.path := by
    intro f hf
    obtain ⟨edition, t, hindexed, _⟩ := (h.files f hf).indexed
    rw [DefinitionIndex.projectOf?, hindexed]
    rfl
  have hfiles : ∀ fs : List SourceFile, (∀ f ∈ fs, f ∈ st.store.all) →
      ((((fs.filter fun f => !f.broken).filterMap fun f =>
        (st.index.projectOf? f.id).map fun p => (f.id, p)).filter fun f =>
          st.registry.sees project f.2).flatMap fun f => st.index.fileTypes f.1) =
        (fs.filter fun f => !f.broken &&
          (st.registry.owner? f.path).any (st.registry.sees project)).flatMap fun f =>
            st.index.fileTypes f.id := by
    intro fs
    induction fs with
    | nil => exact fun _ => rfl
    | cons f fs ih =>
      intro hfs
      have hrest := ih fun g hg => hfs g (List.mem_cons_of_mem f hg)
      have hf := howner f (hfs f List.mem_cons_self)
      cases hbroken : f.broken with
      | true => simpa [hbroken] using hrest
      | false =>
        cases hproject : st.registry.owner? f.path with
        | none => simpa [hbroken, hproject, hf] using hrest
        | some owner =>
          cases hsees : st.registry.sees project owner with
          | true => simpa [hbroken, hproject, hf, hsees] using hrest
          | false => simpa [hbroken, hproject, hf, hsees] using hrest
  exact congrArg (st.index.builtins ++ ·) (hfiles st.store.all fun _ hf => hf)

/-- The types that a project sees are those of texts that were read. -/
theorem Kept.read_of_mem_typesSeenBy (h : st.Kept) {project : String} {d : Definition}
    (hd : d ∈ st.typesSeenBy project) : d.Read := by
  rcases List.mem_append.mp hd with hd | hd
  · rw [DefinitionIndex.builtins, DefinitionIndex.fileTypes, h.builtin] at hd
    obtain ⟨t, ht, rfl⟩ := List.mem_map.mp hd
    exact .intro .builtin 0 Builtin.text rfl ht
  · obtain ⟨f, hf, hd⟩ := List.mem_flatMap.mp hd
    obtain ⟨hmem, hseen⟩ := List.mem_filter.mp hf
    have hkept := h.files f hmem
    have hbroken : f.broken = false := by
      simpa using (Bool.and_eq_true_iff.mp hseen).1
    obtain ⟨edition, tree, hindexed, htree⟩ := hkept.indexed
    rw [DefinitionIndex.fileTypes, hindexed] at hd
    obtain ⟨t, ht, rfl⟩ := List.mem_map.mp hd
    refine .intro _ _ f.text ?_ ht
    exact (Tree.bare_of_restamp htree).trans (Tree.bare_of_restamp (hkept.tree hbroken))

/-- The table of a project, as it would be computed now. -/
theorem Kept.table_eq (h : st.Kept) {project : String} {t : ProjectTable}
    (ht : st.current.table? project = some t) : t = .ofList (st.typesSeenBy project) := by
  obtain ⟨e, _, heq⟩ := List.mem_map.mp (OrderedMap.mem_of_get? ht)
  obtain ⟨rfl, rfl⟩ := Prod.mk.inj heq
  rw [h.contributions_eq]

/-- A file that was just loaded and has no mistakes is seen by a project that sees its owner. -/
theorem mem_filesSeenBy_loadNew (st : State) {path : Path} {text project owner : String}
    (hok : (Parse.ofText text).ok = true) (howner : st.registry.owner? path = some owner)
    (hsees : st.registry.sees project owner = true) :
    SourceFile.ofText st.store.nextNumber path text ∈
      (st.loadNew path text (Parse.ofText text)).2.filesSeenBy project := by
  have hat : (st.store.add path text (Parse.ofText text)).2.at? path =
      some (.ofText st.store.nextNumber path text) :=
    SourceStore.at?_add_self ..
  refine List.mem_filter.mpr ⟨SourceStore.mem_of_at? hat, ?_⟩
  have hseen : (st.registry.owner? path).any (st.registry.sees project) = true := by
    rw [howner]
    exact hsees
  exact Bool.and_eq_true_iff.mpr ⟨(Bool.not_not _).trans hok, hseen⟩

/-- So are its types, in the order of its text. -/
theorem sublist_typesSeenBy_loadNew (st : State) {path : Path} {text project owner : String}
    (hok : (Parse.ofText text).ok = true) (howner : st.registry.owner? path = some owner)
    (hsees : st.registry.sees project owner = true) :
    (FileScope.ofTree (.source st.store.nextNumber) st.index.nextEdition (Parse.ofText text).tree
        (some owner)).types.Sublist
      ((st.loadNew path text (Parse.ofText text)).2.typesSeenBy project) := by
  refine List.Sublist.trans ?_ (List.sublist_append_right ..)
  refine List.sublist_flatten_of_mem (List.mem_map.mpr
    ⟨_, mem_filesSeenBy_loadNew st hok howner hsees, ?_⟩)
  rw [SourceFile.id, SourceFile.ofText, fileTypes_loadNew, howner]

/-- The type lies below the top-level compound module around a context. -/
def BelowEnclosing (st : State) (context : LookupContext) (d : Definition) : Prop :=
  ∃ key x c, context = .type key ∧ st.index.get? key = some x ∧ c ∈ st.index.fileTypes key.file ∧
    c.kind.isCompound = true ∧ x ∈ c :: c.allInner ∧ d ∈ c.allInner

/-- The type lies below the compound module that is the context itself. -/
def BelowContext (st : State) (context : LookupContext) (d : Definition) : Prop :=
  ∃ key c, context = .type key ∧ st.index.get? key = some c ∧ c.kind.isCompound = true ∧
    d ∈ c.allInner

/-- The type is a top-level one, and no other that the project of the context sees has its qualified
name. -/
def SoleBearer (st : State) (context : LookupContext) (d : Definition) : Prop :=
  ∃ project, st.index.projectOf? context.fileId = some project ∧ d.isToplevel = true ∧
    (st.typesSeenBy project).filter (·.qname == d.qname) = [d]

/-- A definition that a key leads to was built from a declaration, inside a top-level one. -/
theorem Kept.built_of_get? (hkept : st.Kept) (hindexed : st.Indexed) {key : TypeKey} {d : Definition}
    (h : st.index.get? key = some d) : ∃ edition package nodes, ∃ c ∈ st.index.fileTypes key.file,
      st.index.get? d.toplevel = some c ∧ d ∈ c :: c.allInner ∧
        d.Built key.file edition package d.toplevel nodes := by
  obtain ⟨scope, hscope, hmem, _⟩ := hkept.index.types.mp h
  obtain ⟨edition, tree, project, rfl, _⟩ := hkept.scope_eq hindexed hscope
  obtain ⟨t, ht, hd, hbuilt⟩ := FileScope.built_of_mem hmem
  have htop : d.toplevel = ⟨key.file, t.node⟩ := by
    obtain ⟨enclosing, qname, x, _⟩ := hbuilt
    exact Definition.toplevel_buildAt ..
  have htypes : Definition.build key.file edition (tree.packageName?.getD "") t ∈
      (FileScope.ofTree key.file edition tree project).types := List.mem_map_of_mem ht
  refine ⟨edition, _, tree.nodes, _, ?_, ?_, hd, htop ▸ hbuilt⟩
  · rw [DefinitionIndex.fileTypes, hscope]
    exact htypes
  · rw [htop, hkept.index.types]
    exact ⟨_, hscope, Definition.mem_withInner_self htypes, Definition.key_buildAt ..⟩

/-- What is inside of a compound type around a context is below an enclosing type. -/
theorem Kept.belowEnclosing (hkept : st.Kept) (hindexed : st.Indexed) {context : LookupContext}
    {c d : Definition} (hc : st.current.compoundAround? context = some c) (hd : d ∈ c.allInner) :
    st.BelowEnclosing context d := by
  cases context with
  | file file => exact absurd hc (by simp [Model.compoundAround?])
  | type key =>
    obtain ⟨hfound, hcompound⟩ := Option.filter_eq_some_iff.mp hc
    obtain ⟨x, hx, htop⟩ := Option.bind_eq_some_iff.mp hfound
    obtain ⟨_, _, _, c', hc', htop', hmem, _⟩ := hkept.built_of_get? hindexed hx
    obtain rfl : c' = c := Option.some.inj (htop'.symm.trans htop)
    exact ⟨key, x, c', rfl, hx, hc', hcompound, hmem, hd⟩

/-- The types around a context were built from declarations. -/
theorem Kept.built_of_compoundAround? (hkept : st.Kept) (hindexed : st.Indexed)
    {context : LookupContext} {c : Definition} (hc : st.current.compoundAround? context = some c) :
    ∃ file edition package nodes, c.Built file edition package c.toplevel nodes := by
  cases context with
  | file file => exact absurd hc (by simp [Model.compoundAround?])
  | type key =>
    obtain ⟨x, _, htop⟩ := Option.bind_eq_some_iff.mp (Option.filter_eq_some_iff.mp hc).1
    obtain ⟨edition, package, nodes, _, _, _, _, hbuilt⟩ := hkept.built_of_get? hindexed htop
    exact ⟨_, edition, package, nodes, hbuilt⟩

/-- What a qualified name denotes below the types around a context. -/
theorem Kept.below_of_compoundsFor (hkept : st.Kept) (hindexed : st.Indexed)
    {context : LookupContext} {name : String} {d : Definition}
    (h : (st.current.compoundsFor context).findSome? (fun c => Model.innerByQName? c name) = some d) :
    d.qname = name ∧ (st.BelowEnclosing context d ∨ st.BelowContext context d) := by
  obtain ⟨c, hc, hinner⟩ := List.exists_of_findSome?_eq_some h
  cases context with
  | file file => exact absurd hc List.not_mem_nil
  | type key =>
    rcases List.mem_append.mp hc with hc | hc
    · obtain ⟨hget, hcompound⟩ := Option.filter_eq_some_iff.mp (Option.mem_toList.mp hc)
      obtain ⟨_, _, _, _, _, _, _, hbuilt⟩ := hkept.built_of_get? hindexed hget
      obtain ⟨hqname, hmem⟩ := Model.bears_of_innerByQName? hbuilt hinner
      exact ⟨hqname, .inr ⟨key, c, rfl, hget, hcompound, hmem⟩⟩
    · have haround := Option.mem_toList.mp hc
      obtain ⟨_, _, _, _, hbuilt⟩ := hkept.built_of_compoundAround? hindexed haround
      obtain ⟨hqname, hmem⟩ := Model.bears_of_innerByQName? hbuilt hinner
      exact ⟨hqname, .inl (hkept.belowEnclosing hindexed haround hmem)⟩

/-- A canonical type of a project is the only one of its name. -/
theorem Kept.soleBearer (hkept : st.Kept) {context : LookupContext} {project : String}
    (hproject : st.index.projectOf? context.fileId = some project) {d : Definition}
    (hd : d ∈ (ProjectTable.ofList (st.typesSeenBy project)).definitions) :
    st.SoleBearer context d := by
  have hcomponent := ProjectTable.mem_definitions_ofList.mp hd
  have hmem := (ProjectTable.eq_qname_of_component? hcomponent).2
  exact ⟨project, hproject, (hkept.read_of_mem_typesSeenBy hmem).named.toplevel,
    ProjectTable.component?_ofList.mp hcomponent⟩

/-- What a name denotes bears that name. -/
theorem Kept.sound (hkept : st.Kept) (hindexed : st.Indexed) {name : String}
    {context : LookupContext} {d : Definition} (h : st.current.denoted name context = some d) :
    Model.Bears d name ∧
      (st.BelowEnclosing context d ∨ st.BelowContext context d ∨ st.SoleBearer context d) := by
  obtain ⟨project, hproject, hresolve⟩ := Option.bind_eq_some_iff.mp h
  unfold Model.resolve at hresolve
  split at hresolve
  · rename_i table scope htable hscope
    obtain rfl := hkept.table_eq htable
    unfold Model.Bears
    split at hresolve
    · rename_i hqualified
      rw [if_pos hqualified]
      rcases Option.or_eq_some_iff.mp hresolve with hinner | ⟨_, hcomponent⟩
      · obtain ⟨hqname, hbelow⟩ := hkept.below_of_compoundsFor hindexed hinner
        exact ⟨hqname, hbelow.imp_right .inl⟩
      · obtain ⟨hmem, hqname⟩ := ProjectTable.mem_definitions_of_component? hcomponent
        exact ⟨hqname, .inr (.inr (hkept.soleBearer hproject hmem))⟩
    · rename_i hsimple
      rw [if_neg hsimple]
      have hnamed : (ProjectTable.ofList (st.typesSeenBy project)).Named :=
        ⟨_, rfl, fun d hd => (hkept.read_of_mem_typesSeenBy hd).named⟩
      obtain ⟨hname, ⟨c, hc, hmem⟩ | ⟨hmem, _⟩⟩ :=
        Model.named_of_resolveSimple hnamed (Bool.eq_false_of_not_eq_true hsimple) hresolve
      · exact ⟨hname, .inl (hkept.belowEnclosing hindexed hc (Definition.mem_allInner_of_mem_inner hmem))⟩
      · exact ⟨hname, .inr (.inr (hkept.soleBearer hproject hmem))⟩
  · exact absurd hresolve (by simp)

/-- **What a lookup finds bears the name, and it is the only one to do so.** In a reachable state, whatever
is remembered and whether the tables are up to date or not: a type found by a qualified name has it as
its qualified name, one found by a simple name has it as its simple name. The type lies below the
top-level compound module around the context, or below the compound module that is the context itself;
or it is a top-level type, built-in or not, and no other top-level type has its qualified name among the
built-in ones and those of the loaded files without mistakes that belong to the project of the context or
to one that it refers to, directly or through others. -/
theorem lookup_sound (hst : st.Reachable) (surroundings : Surroundings) (name : String)
    (context : LookupContext) {d : Definition}
    (h : ((Engine.ask fun m => m.lookup name context : Plain (Option Definition))
      surroundings st).1 = some d) :
    Model.Bears d name ∧
      (st.BelowEnclosing context d ∨ st.BelowContext context d ∨ st.SoleBearer context d) := by
  rw [hst.coherent.lookup] at h
  exact hst.kept.sound hst.indexed h

/-- In a workspace with one file an inner type is looked up from inside its module. -/
theorem lookup_sound_inner : ∃ (st : State) (surroundings : Surroundings) (d : Definition),
    st.Reachable ∧ ((Engine.ask fun m => m.lookup "T" (.type ⟨.source 0, 1⟩) :
      Plain (Option Definition)) surroundings st).1 = some d ∧ d.name = "T" := by
  let text := Model.nestedText
  let st := ((({} : State).reconfigure [⟨"p", ⟨"/p"⟩, [⟨""⟩], []⟩]).loadNew ⟨"/p/a.ned"⟩ text
    (Parse.ofText text)).2
  have hst : st.Reachable := .tail (.single (.configured {} _)) (.loaded rfl text)
  let scope := FileScope.ofTree (.source 0) 1 (Parse.ofText text).tree (some "p")
  have howner : st.registry.owner? ⟨"/p/a.ned"⟩ = some "p" := by decide +kernel
  have hscope : st.index.file? (.source 0) = some scope :=
    (file?_loadNew ..).trans (congrArg (fun owner =>
      some (FileScope.ofTree (.source 0) 1 (Parse.ofText text).tree owner)) howner)
  obtain ⟨c, cs, i, htypes, hkey, htop, hcompound, hi, hname⟩ := Model.exists_nested
  have haround : st.current.compoundAround? (.type ⟨.source 0, 1⟩) = some c :=
    hkey ▸ Model.compoundAround?_of_types hst.kept.index (hkey ▸ hscope) htypes htop hcompound
  have hfile : st.current.index.file? (LookupContext.type ⟨.source 0, 1⟩).fileId = some scope := hscope
  have hproject : st.current.projectFor? (.type ⟨.source 0, 1⟩) = some "p" := by
    rw [Model.projectFor?, DefinitionIndex.projectOf?, hfile]
    rfl
  let surroundings : Surroundings := ⟨(Storage.map {}).disk, .fixed []⟩
  have hsome : ((Engine.ask fun m => m.lookup "T" (.type ⟨.source 0, 1⟩) :
      Plain (Option Definition)) surroundings st).1.isSome = true := by
    have hnamed : (ProjectTable.ofList (st.typesSeenBy "p")).Named :=
      ⟨_, rfl, fun d hd => (hst.kept.read_of_mem_typesSeenBy hd).named⟩
    obtain ⟨t, ht⟩ : ∃ t, st.current.table? "p" = some t := ⟨_, rfl⟩
    obtain rfl := hst.kept.table_eq ht
    have hfound : (st.current.resolveSimple _ scope (.type ⟨.source 0, 1⟩) "T").isSome = true :=
      (Model.isSome_resolveSimple hnamed (by decide)).mpr (.inl ⟨c, haround, i, hi, hname⟩)
    rw [hst.coherent.lookup, Model.denoted, hproject, Option.bind_some, Model.resolve, ht, hfile]
    exact hfound
  obtain ⟨d, hd⟩ := Option.isSome_iff_exists.mp hsome
  exact ⟨st, surroundings, d, hst, hd, (lookup_sound hst surroundings "T" _ hd).1⟩

end State
end NedWorkspace
