/-
# States with the same files

Two states may have got to the same projects and the same texts in different ways. Then their files have
different numbers, and so have the nodes of their trees. Files correspond by their paths, and the nodes
of corresponding files that are not broken by their places in the trees (`State.Corresponds`). By this
correspondence the models of the two states are twins (`State.SameFiles.twins`).
-/

import NedWorkspace.Proofs.Resolve.Twin
import NedWorkspace.Proofs.Workspace.Coherent

namespace NedWorkspace

/-- In two lists without repetitions, what stands at the place of one thing stands nowhere else. -/
theorem zip_unique {α β : Type} {as : List α} {bs : List β} (has : as.Nodup) (hbs : bs.Nodup)
    {a c : α} {b d : β} (hab : (a, b) ∈ as.zip bs) (hcd : (c, d) ∈ as.zip bs) : a = c ↔ b = d := by
  obtain ⟨i, hi, hab⟩ := List.mem_iff_getElem.mp hab
  obtain ⟨j, hj, hcd⟩ := List.mem_iff_getElem.mp hcd
  rw [List.getElem_zip, Prod.mk.injEq] at hab hcd
  rw [← hab.1, ← hcd.1, ← hab.2, ← hcd.2, has.getElem_inj_iff, hbs.getElem_inj_iff]

namespace Tree

/-- Trees that differ in spans only have the same numbers. -/
theorem ids_of_unplaced {t u : Tree} (h : t.unplaced = u.unplaced) : t.ids = u.ids := by
  have hids : ∀ v : Tree, v.unplaced.ids = v.ids := by
    intro v
    rw [ids, ids, unplaced, nodes_uncounted, nodes_restamp, List.map_map]
    rfl
  rw [← hids, h, hids]

/-- Trees that differ in numbers and spans at most have equally many nodes. -/
theorem length_nodes_of_bare {t u : Tree} (h : t.bare = u.bare) : t.nodes.length = u.nodes.length := by
  have hnodes := congrArg (fun v => v.nodes.length) h
  simpa only [bare, nodes_uncounted, nodes_restamp, List.length_map] using hnodes

/-- Nodes at one place of trees that differ in numbers only. -/
theorem forall₂_of_unnumbered {t u : Tree} (h : t.unnumbered = u.unnumbered) :
    List.Forall₂ (fun x y : NodeSpan => x.span = y.span ∧ (x.node, y.node) ∈ t.ids.zip u.ids)
      t.nodes u.nodes := by
  refine List.forall₂_iff_zip.mpr ⟨length_nodes_of_bare (bare_of_restamp h), fun {x y} hxy => ⟨?_, ?_⟩⟩
  · have hnodes : t.nodes.map NodeSpan.unnumbered = u.nodes.map NodeSpan.unnumbered := by
      have hnodes := congrArg Tree.nodes h
      simpa only [unnumbered, nodes_uncounted, nodes_restamp] using hnodes
    obtain ⟨i, hi, hxy⟩ := List.mem_iff_getElem.mp hxy
    rw [List.getElem_zip, Prod.mk.injEq] at hxy
    rw [List.length_zip, lt_min_iff] at hi
    have hspan := congrArg (fun ns => (ns[i]?).map NodeSpan.span) hnodes
    simpa [hi.1, hi.2, hxy.1, hxy.2, NodeSpan.unnumbered] using hspan
  · rw [ids, ids, List.zip_map]
    exact List.mem_map_of_mem hxy

/-- Nodes at one place have the same span. -/
theorem spanOf?_of_unnumbered {t u : Tree} (h : t.unnumbered = u.unnumbered) (ht : t.Numbered)
    (hu : u.Numbered) {n n' : NodeId} (hn : (n, n') ∈ t.ids.zip u.ids) :
    t.spanOf? n = u.spanOf? n' := by
  have hfound := forall₂_find? (forall₂_of_unnumbered h) (p := (·.node == n)) (q := (·.node == n'))
    fun x y hxy => by
      rw [Bool.eq_iff_iff, beq_iff_eq, beq_iff_eq]
      exact zip_unique ht.1 hu.1 hxy.2 hn
  unfold spanOf?
  generalize t.nodes.find? _ = x at hfound ⊢
  generalize u.nodes.find? _ = y at hfound ⊢
  cases hfound with
  | none => rfl
  | some hxy => exact congrArg some hxy.1

end Tree

namespace State

/-- Files of two states with the same path and text, neither broken, and their trees; or the file of
built-in declarations. -/
inductive PairedFile (st fr : State) : FileId → FileId → Tree → Tree → Prop
  | builtin : PairedFile st fr .builtin .builtin Builtin.tree Builtin.tree
  | source {f g : SourceFile} (hf : f ∈ st.store.all) (hg : g ∈ fr.store.all)
      (hpath : f.path = g.path) (htext : f.text = g.text) (hbroken : f.broken = false) :
      PairedFile st fr f.id g.id f.tree g.tree

/-- Nodes at one place of the trees of corresponding files. -/
def Corresponds (st fr : State) (k k' : TypeKey) : Prop :=
  ∃ t u, PairedFile st fr k.file k'.file t u ∧ (k.node, k'.node) ∈ t.ids.zip u.ids

/-- States with the same projects and the same texts at the same paths. -/
structure SameFiles (st fr : State) : Prop where
  kept : st.Kept
  kept' : fr.Kept
  projects : st.registry.projects = fr.registry.projects
  files : (st.store.all.map fun f => (f.path, f.text)) = fr.store.all.map fun f => (f.path, f.text)

namespace SameFiles

variable {st fr : State} (h : st.SameFiles fr)
include h

/-- The files correspond one by one. -/
theorem forall₂_files : List.Forall₂ (fun f g => f ∈ st.store.all ∧ g ∈ fr.store.all ∧
    f.path = g.path ∧ f.text = g.text) st.store.all fr.store.all := by
  have hfiles := h.files
  rw [← List.forall₂_eq_eq_eq, List.forall₂_map_left_iff, List.forall₂_map_right_iff] at hfiles
  refine (forall₂_mem hfiles).imp ?_
  rintro f g ⟨hf, hg, hfg⟩
  exact ⟨hf, hg, Prod.mk.inj hfg⟩

/-- The same project has the path in a fresh workspace. -/
theorem owner?_eq (path : Path) : st.registry.owner? path = fr.registry.owner? path :=
  Registry.owner?_congr h.projects path

/-- Of files with one text either both are broken or none is. -/
theorem broken_eq {f g : SourceFile} (hf : f ∈ st.store.all) (hg : g ∈ fr.store.all)
    (htext : f.text = g.text) : f.broken = g.broken := by
  rw [(h.kept.files f hf).broken, (h.kept'.files g hg).broken, htext]

/-- The trees of corresponding files differ in numbers only. -/
theorem tree_eq {a a' : FileId} {t u : Tree} (hp : PairedFile st fr a a' t u) :
    t.unnumbered = u.unnumbered ∧ t.Numbered ∧ u.Numbered := by
  cases hp with
  | builtin => exact ⟨rfl, Tree.numbered_ofText _, Tree.numbered_ofText _⟩
  | @source f g hf hg hpath htext hbroken =>
    have hkept := h.kept.files f hf
    have hkept' := h.kept'.files g hg
    have htree' := hkept'.tree ((h.broken_eq hf hg htext).symm.trans hbroken)
    refine ⟨?_, hkept.numbered, hkept'.numbered⟩
    rw [hkept.tree hbroken, htree', htext]

/-- A file corresponds to one file at most. -/
theorem pairedFile_unique {a a' b b' : FileId} {t u v w : Tree} (ha : PairedFile st fr a a' t u)
    (hb : PairedFile st fr b b' v w) : (a = b ↔ a' = b') ∧ (a = b → t = v ∧ u = w) := by
  have hsource : ∀ f g : SourceFile, FileId.builtin ≠ f.id ∧ g.id ≠ FileId.builtin :=
    fun f g => ⟨FileId.noConfusion, FileId.noConfusion⟩
  cases ha with
  | builtin =>
    cases hb with
    | builtin => exact ⟨iff_of_true rfl rfl, fun _ => ⟨rfl, rfl⟩⟩
    | @source f g => exact ⟨iff_of_false (hsource f f).1 (hsource g g).1, fun e => absurd e (hsource f f).1⟩
  | @source f g hf hg hpath htext hbroken =>
    cases hb with
    | builtin => exact ⟨iff_of_false (hsource f f).2 (hsource g g).2, fun e => absurd e (hsource f f).2⟩
    | @source f₂ g₂ hf₂ hg₂ hpath₂ htext₂ hbroken₂ =>
      have hright : f = f₂ → g = g₂ := by
        rintro rfl
        exact h.kept'.store.eq_of_path hg hg₂ (hpath.symm.trans hpath₂)
      have hleft : g = g₂ → f = f₂ := by
        rintro rfl
        exact h.kept.store.eq_of_path hf hf₂ (hpath.trans hpath₂.symm)
      refine ⟨⟨fun e => ?_, fun e => ?_⟩, fun e => ?_⟩
      · rw [hright (h.kept.store.eq_of_id hf hf₂ e)]
      · rw [hleft (h.kept'.store.eq_of_id hg hg₂ e)]
      · obtain rfl := h.kept.store.eq_of_id hf hf₂ e
        obtain rfl := hright rfl
        exact ⟨rfl, rfl⟩

/-- A node corresponds to one node at most. -/
theorem corresponds_unique {k k' l l' : TypeKey} (hk : st.Corresponds fr k k')
    (hl : st.Corresponds fr l l') : k = l ↔ k' = l' := by
  obtain ⟨t, u, hkp, hkn⟩ := hk
  obtain ⟨v, w, hlp, hln⟩ := hl
  obtain ⟨hfile, htrees⟩ := h.pairedFile_unique hkp hlp
  obtain ⟨_, ht, hu⟩ := h.tree_eq hkp
  rw [TypeKey.mk.injEq, TypeKey.mk.injEq, hfile]
  refine and_congr_right fun hfile' => ?_
  obtain ⟨rfl, rfl⟩ := htrees (hfile.mpr hfile')
  exact zip_unique ht.1 hu.1 hkn hln

/-- The trees of corresponding files have the same parts at corresponding nodes. -/
theorem tree_alike {a a' : FileId} {t u : Tree} (hp : PairedFile st fr a a' t u) :
    t.Alike (nodesOf (st.Corresponds fr) a a') u := by
  obtain ⟨hsame, _, _⟩ := h.tree_eq hp
  refine Tree.alike_of_bare (Tree.bare_of_restamp hsame) ?_
  exact (Tree.forall₂_of_unnumbered hsame).imp fun x y hxy => ⟨t, u, hp, hxy.2⟩

/-- Corresponding nodes have the same span. -/
theorem spanOf?_eq {a a' : FileId} {t u : Tree} (hp : PairedFile st fr a a' t u) {n n' : NodeId}
    (hn : nodesOf (st.Corresponds fr) a a' n n') : t.spanOf? n = u.spanOf? n' := by
  obtain ⟨v, w, hq, hmem⟩ := hn
  obtain ⟨rfl, rfl⟩ := (h.pairedFile_unique hp hq).2 rfl
  obtain ⟨hsame, ht, hu⟩ := h.tree_eq hp
  exact Tree.spanOf?_of_unnumbered hsame ht hu hmem

/-- The index of a state holds the scope of a tree with the nodes of the file's present tree. -/
theorem indexed {a a' : FileId} {t u : Tree} (hp : PairedFile st fr a a' t u) :
    ∃ edition edition' v w project,
      st.index.file? a = some (FileScope.ofTree a edition v project) ∧
      fr.index.file? a' = some (FileScope.ofTree a' edition' w project) ∧
      v.unplaced = t.unplaced ∧ w.unplaced = u.unplaced := by
  cases hp with
  | builtin => exact ⟨0, 0, _, _, none, h.kept.builtin, h.kept'.builtin, rfl, rfl⟩
  | @source f g hf hg hpath htext hbroken =>
    obtain ⟨edition, v, hfile, hv⟩ := (h.kept.files f hf).indexed
    obtain ⟨edition', w, hfile', hw⟩ := (h.kept'.files g hg).indexed
    rw [← h.owner?_eq, ← hpath] at hfile'
    exact ⟨edition, edition', v, w, _, hfile, hfile', hv, hw⟩

/-- The scopes of corresponding files match. -/
theorem scopes {a a' : FileId} {t u : Tree} (hp : PairedFile st fr a a' t u) :
    ∃ s s' edition edition', st.index.file? a = some s ∧ fr.index.file? a' = some s' ∧
      s.Matches (st.Corresponds fr) s' ∧
      Definition.Uniform a edition s.types ∧ Definition.Uniform a' edition' s'.types := by
  obtain ⟨edition, edition', v, w, project, hfile, hfile', hv, hw⟩ := h.indexed hp
  obtain ⟨hsame, _, _⟩ := h.tree_eq hp
  have hbare : v.bare = w.bare := by
    rw [Tree.bare_of_restamp hv, Tree.bare_of_restamp hw]
    exact Tree.bare_of_restamp hsame
  have hnodes : List.Forall₂ (fun x y : NodeSpan => nodesOf (st.Corresponds fr) a a' x.node y.node)
      v.nodes w.nodes := by
    refine List.forall₂_iff_zip.mpr ⟨Tree.length_nodes_of_bare hbare, fun {x y} hxy => ?_⟩
    refine ⟨t, u, hp, ?_⟩
    rw [← Tree.ids_of_unplaced hv, ← Tree.ids_of_unplaced hw, Tree.ids, Tree.ids, List.zip_map]
    exact List.mem_map_of_mem hxy
  exact ⟨_, _, edition, edition', hfile, hfile',
    FileScope.matches_ofTree (Tree.alike_of_bare hbare hnodes),
    Definition.uniform_map_build _ _ _ _, Definition.uniform_map_build _ _ _ _⟩

/-- Matching definitions of corresponding files are paired, whatever tables the models have. -/
theorem paired {a a' : FileId} {t u : Tree} (hp : PairedFile st fr a a' t u)
    (tables tables' : OrderedMap String ProjectTable) :
    ∃ s s', st.index.file? a = some s ∧ fr.index.file? a' = some s' ∧
      s.Matches (st.Corresponds fr) s' ∧ ∀ d e, d ∈ s.allTypes → e ∈ s'.allTypes →
        Definition.Matches (st.Corresponds fr) d e →
          Paired (st.Corresponds fr) ⟨st.index, tables⟩ ⟨fr.index, tables'⟩ d e ∧
            d.key.file = a ∧ e.key.file = a' := by
  obtain ⟨s, s', _, _, hs, hs', hmatch, huniform, huniform'⟩ := h.scopes hp
  refine ⟨s, s', hs, hs', hmatch, fun d e hd he hde => ?_⟩
  have hfile := (huniform d hd).1
  have hfile' := (huniform' e he).1
  exact ⟨⟨hde, ⟨s, hfile ▸ hs, hd⟩, ⟨s', hfile' ▸ hs', he⟩⟩, hfile, hfile'⟩

/-- The top-level definitions of corresponding files. -/
theorem fileTypes {a a' : FileId} {t u : Tree} (hp : PairedFile st fr a a' t u)
    (tables tables' : OrderedMap String ProjectTable) :
    List.Forall₂ (Paired (st.Corresponds fr) ⟨st.index, tables⟩ ⟨fr.index, tables'⟩)
      (st.index.fileTypes a) (fr.index.fileTypes a') := by
  obtain ⟨s, s', hs, hs', hmatch, hpaired⟩ := h.paired hp tables tables'
  unfold DefinitionIndex.fileTypes
  rw [hs, hs']
  refine (forall₂_mem hmatch.types).imp ?_
  rintro d e ⟨hd, he, hde⟩
  exact (hpaired d e (Definition.mem_withInner_self hd) (Definition.mem_withInner_self he) hde).1

/-- All definitions of corresponding files. -/
theorem allTypes {a a' : FileId} {t u : Tree} (hp : PairedFile st fr a a' t u)
    (tables tables' : OrderedMap String ProjectTable) :
    List.Forall₂ (fun d e =>
        Paired (st.Corresponds fr) ⟨st.index, tables⟩ ⟨fr.index, tables'⟩ d e ∧
          d.key.file = a ∧ e.key.file = a')
      (Definition.withInner (st.index.fileTypes a)) (Definition.withInner (fr.index.fileTypes a')) := by
  obtain ⟨s, s', hs, hs', hmatch, hpaired⟩ := h.paired hp tables tables'
  unfold DefinitionIndex.fileTypes
  rw [hs, hs']
  refine (forall₂_mem hmatch.allTypes).imp ?_
  rintro d e ⟨hd, he, hde⟩
  exact hpaired d e hd he hde

/-- The files that take part in the tables correspond, and so do their owners. -/
theorem participants : List.Forall₂ (fun e e' => e.2 = e'.2 ∧ ∃ t u, PairedFile st fr e.1 e'.1 t u)
    st.participants fr.participants := by
  unfold State.participants
  rw [List.filterMap_filter, List.filterMap_filter]
  refine List.rel_filterMap ?_ h.forall₂_files
  rintro f g ⟨hf, hg, hpath, htext⟩
  dsimp only
  rw [← h.broken_eq hf hg htext]
  cases hbroken : f.broken with
  | true => exact .none
  | false =>
    have hp := PairedFile.source hf hg hpath htext hbroken
    obtain ⟨_, _, _, _, project, hfile, hfile', _, _⟩ := h.indexed hp
    unfold DefinitionIndex.projectOf?
    rw [hfile, hfile']
    cases project with
    | none => exact .none
    | some project => exact .some ⟨rfl, _, _, hp⟩

/-- The definitions that go into the tables correspond one by one. -/
theorem contributions (project : String) (tables tables' : OrderedMap String ProjectTable) :
    List.Forall₂ (Paired (st.Corresponds fr) ⟨st.index, tables⟩ ⟨fr.index, tables'⟩)
      (st.registry.contributions st.index st.participants project)
      (fr.registry.contributions fr.index fr.participants project) := by
  refine List.rel_append (h.fileTypes .builtin tables tables') ?_
  have hseen := forall₂_filter h.participants (p := fun e => st.registry.sees project e.2)
    (q := fun e => fr.registry.sees project e.2) fun e e' hee => by
      rw [hee.1, Registry.sees_congr h.projects]
  exact forall₂_flatMap hseen fun e e' ⟨_, _, _, hp⟩ => h.fileTypes hp tables tables'

/-- The tables that would be computed now. -/
theorem tables : List.Forall₂ (fun e e' => e.1 = e'.1 ∧
      ProjectTable.Matches (Paired (st.Corresponds fr) st.current fr.current) e.2 e'.2)
    st.current.tables.entries fr.current.tables.entries := by
  have hentries : ∀ s : State, s.current.tables.entries = s.registry.projects.entries.map
      fun e => (e.1, .ofList (s.registry.contributions s.index s.participants e.1)) := fun _ => rfl
  rw [hentries, hentries, h.projects]
  refine forall₂_map (R := Eq) (List.forall₂_same.mpr fun _ _ => rfl) fun e e' hee => ?_
  subst hee
  exact ⟨rfl, ProjectTable.matches_ofList (h.contributions e.1 _ _) fun _ _ hde => hde.matched⟩

/-- **States with the same files have models that say the same.** -/
theorem twins : st.current.Twins (st.Corresponds fr) fr.current where
  index := h.kept.index
  index' := h.kept'.index
  unique := h.corresponds_unique
  scopes := fun ⟨_, _, hp, _⟩ => h.scopes hp
  tables := fun project => OrderedMap.Related.get? h.tables project

end SameFiles

end State

end NedWorkspace
