/-
# What becomes of unsaved text

SPEC_FULL, section 4.1: `disconnect`, unsaved edits are lost.

Two runs of a workspace that differ in nothing but the texts that editors give one file do the same to
all other files, and to this file but for what is written in it (`State.sameBut_after`). When the last
editor closes the file it is read from the disk again, so then the runs also agree in its text and its
mistakes and in all tables. If the text on the disk has no mistakes they agree in all that can be seen,
numbers of nodes apart: `State.unsaved_edits_lost`.

With mistakes on the disk the file keeps the tree of what was last typed without mistakes. The names of
types, for one, give it away (`State.unsaved_edits_survive`).
-/

import NedWorkspace.Proofs.Workspace.Editors
import NedWorkspace.Proofs.Workspace.Tables
import NedWorkspace.Proofs.Workspace.Validation

namespace NedWorkspace

open State Engine

namespace SourceFile

/-- What is known of a file apart from what editors of the file at a path write. -/
def outline (path : Path) (f : SourceFile) : Nat × Path × Nat × Option SourceFile :=
  (f.number, f.path, f.editors, if compare f.path path = .eq then none else some f)

variable {path : Path} {f g : SourceFile}

/-- Files have the same outline if they differ in what is unsaved at the path, and in nothing else. -/
theorem outline_eq_iff : f.outline path = g.outline path ↔
    f.number = g.number ∧ f.path = g.path ∧ f.editors = g.editors ∧
      (compare f.path path ≠ .eq → f = g) := by
  unfold outline
  rw [Prod.mk.injEq, Prod.mk.injEq, Prod.mk.injEq]
  refine and_congr_right fun _ => and_congr_right fun hpath => and_congr_right fun _ => ?_
  rw [← hpath]
  by_cases h : compare f.path path = .eq
  · simp [h]
  · simp [h]

/-- The same text given to both files. -/
theorem outline_given (h : f.outline path = g.outline path) (text : String) (parse : Parse) :
    (f.given text parse).outline path = (g.given text parse).outline path := by
  obtain ⟨hnumber, hpath, heditors, hsame⟩ := outline_eq_iff.mp h
  refine outline_eq_iff.mpr ⟨by simpa using hnumber, by simpa using hpath, by simpa using heditors,
    fun hother => ?_⟩
  rw [given_path] at hother
  rw [hsame hother]

/-- Any text given to the file at the path. -/
theorem outline_given_self (hpath : compare f.path path = .eq) (text : String) (parse : Parse) :
    (f.given text parse).outline path = f.outline path :=
  outline_eq_iff.mpr ⟨f.given_number text parse, f.given_path text parse, f.given_editors text parse,
    fun hother => absurd hpath (f.given_path text parse ▸ hother)⟩

/-- The outline does not depend on what is edited elsewhere. -/
theorem outline_editors (h : f.outline path = g.outline path) (editors : Nat) :
    ({ f with editors } : SourceFile).outline path =
      ({ g with editors } : SourceFile).outline path := by
  obtain ⟨hnumber, hpath, _, hsame⟩ := outline_eq_iff.mp h
  exact outline_eq_iff.mpr ⟨hnumber, hpath, rfl, fun hother => by rw [hsame hother]⟩

end SourceFile

open SourceFile

namespace SourceStore

/-- Files that differ at most in what is written in the file at a path. -/
structure SameBut (path : Path) (s s' : SourceStore) : Prop where
  wellFormed : s.WellFormed
  wellFormed' : s'.WellFormed
  next : s.nextNumber = s'.nextNumber
  files : s.byPath.map (outline path) = s'.byPath.map (outline path)

namespace SameBut

variable {path q : Path} {s s' s'' : SourceStore} {f f' g g' : SourceFile}

theorem refl (path : Path) (hs : s.WellFormed) : SameBut path s s :=
  ⟨hs, hs, rfl, rfl⟩

theorem symm (h : SameBut path s s') : SameBut path s' s :=
  ⟨h.wellFormed', h.wellFormed, h.next.symm, h.files.symm⟩

theorem trans (h : SameBut path s s') (h' : SameBut path s' s'') : SameBut path s s'' :=
  ⟨h.wellFormed, h'.wellFormed', h.next.trans h'.next, h.files.trans h'.files⟩

/-- Stores that differ at one path know the same paths, with the same outlines. -/
theorem at? (h : SameBut path s s') (q : Path) :
    (s.at? q).map (outline path) = (s'.at? q).map (outline path) := by
  have hget := congrArg (fun m => SortedMap.get? m q) h.files
  rwa [SortedMap.get?_map, SortedMap.get?_map, h.wellFormed.get?_byPath,
    h.wellFormed'.get?_byPath] at hget

/-- A path that one store does not know the other does not know either. -/
theorem at?_none (h : SameBut path s s') (hat : s.at? q = none) : s'.at? q = none := by
  have hq := h.at? q
  rw [hat] at hq
  exact Option.map_eq_none_iff.mp hq.symm

/-- A path that one store knows the other knows, with the same outline. -/
theorem at?_some (h : SameBut path s s') (hat : s.at? q = some f) :
    ∃ f', s'.at? q = some f' ∧ f.outline path = f'.outline path := by
  have hq := h.at? q
  rw [hat] at hq
  obtain ⟨f', hat', hsame⟩ := Option.map_eq_some_iff.mp hq.symm
  exact ⟨f', hat', hsame.symm⟩

theorem paths_eq (h : SameBut path s s') : s.paths = s'.paths := by
  have hkeys := congrArg SortedMap.keys h.files
  rwa [SortedMap.keys_map, SortedMap.keys_map, h.wellFormed.keys_byPath,
    h.wellFormed'.keys_byPath] at hkeys

/-- Replacing corresponding files. -/
theorem update (h : SameBut path s s') (hat : s.at? q = some f) (hat' : s'.at? q = some f')
    (hpath : g.path = f.path) (hnumber : g.number = f.number) (hpath' : g'.path = f'.path)
    (hnumber' : g'.number = f'.number) (hsame : g.outline path = g'.outline path) :
    SameBut path (s.update g) (s'.update g') := by
  refine ⟨h.wellFormed.update hat hpath hnumber, h.wellFormed'.update hat' hpath' hnumber', ?_, ?_⟩
  · rw [(s.ids_update g).2, (s'.ids_update g').2, h.next]
  · rw [h.wellFormed.byPath_update hat hpath hnumber, h.wellFormed'.byPath_update hat' hpath' hnumber',
      SortedMap.map_insert, SortedMap.map_insert, h.files, hsame, ← hpath, ← hpath',
      (outline_eq_iff.mp hsame).2.1]

/-- The same text given at the same path. -/
theorem give (h : SameBut path s s') (q : Path) (text : String) (parse : Parse) :
    SameBut path (s.give q text parse) (s'.give q text parse) := by
  cases hat : s.at? q with
  | none =>
    have hat' := h.at?_none hat
    have hsame : (s.add q text parse).1 = (s'.add q text parse).1 := by
      unfold add
      rw [h.next]
    rw [give_of_none hat, give_of_none hat']
    refine ⟨h.wellFormed.add hat text parse, h.wellFormed'.add hat' text parse,
      congrArg (· + 1) h.next, ?_⟩
    rw [h.wellFormed.byPath_add hat, h.wellFormed'.byPath_add hat', SortedMap.map_insert,
      SortedMap.map_insert, h.files, hsame]
  | some f =>
    obtain ⟨f', hat', hsame⟩ := h.at?_some hat
    rw [give_of_some hat, give_of_some hat']
    exact h.update hat hat' (f.given_path text parse) (f.given_number text parse)
      (f'.given_path text parse) (f'.given_number text parse) (outline_given hsame text parse)

/-- A path removed on both sides. -/
theorem remove (h : SameBut path s s') (q : Path) : SameBut path (s.remove q) (s'.remove q) := by
  refine ⟨h.wellFormed.remove q, h.wellFormed'.remove q, ?_, ?_⟩
  · rw [nextNumber_remove, nextNumber_remove, h.next]
  · rw [h.wellFormed.byPath_remove, h.wellFormed'.byPath_remove, SortedMap.map_erase,
      SortedMap.map_erase, h.files]

/-- **What is written in the file at the path does not show.** -/
theorem edited (hs : s.WellFormed) (hat : s.at? q = some f) (hq : compare path q = .eq) (text : String)
    (parse : Parse) : SameBut path (s.give q text parse) s := by
  have hpath : compare f.path path = .eq := by
    rw [Std.TransCmp.congr_right hq]
    exact hs.compare_path hat
  rw [give_of_some hat]
  refine ⟨hs.update hat (f.given_path text parse) (f.given_number text parse), hs,
    (s.ids_update _).2, ?_⟩
  have hold : (s.byPath.map (outline path)).get? f.path = some (f.outline path) := by
    rw [SortedMap.get?_map, hs.get?_byPath, hs.mem_all_iff.mp (mem_of_at? hat)]
    rfl
  rw [hs.byPath_update hat (f.given_path text parse) (f.given_number text parse), SortedMap.map_insert,
    outline_given_self hpath]
  exact hs.ascending_byPath.map _ |>.insert_self hold

/-- If corresponding files at the path agree in what is read off them, so do all files. -/
theorem map_eq {β : Type} (h : SameBut path s s') {view : SourceFile → β}
    (hat : s.at? path = some f) (hat' : s'.at? path = some f') (hview : view f = view f') :
    s.byPath.map view = s'.byPath.map view := by
  have hentries := congrArg SortedMap.entries h.files
  unfold SortedMap.map at hentries
  rw [← List.forall₂_eq_eq_eq, List.forall₂_map_left_iff, List.forall₂_map_right_iff] at hentries
  refine congrArg SortedMap.mk (forall₂_map_eq (forall₂_mem hentries) ?_)
  rintro e e' ⟨he, he', hee⟩
  obtain ⟨hkey, houtline⟩ := Prod.mk.inj hee
  obtain ⟨_, hpath, _, hsame⟩ := outline_eq_iff.mp houtline
  by_cases hown : compare e.2.path path = .eq
  · have hfound := h.wellFormed.at?_of_mem (h.wellFormed.mem_byPath_iff.mp he).1 hown
    have hfound' := h.wellFormed'.at?_of_mem (h.wellFormed'.mem_byPath_iff.mp he').1 (hpath ▸ hown)
    obtain rfl := Option.some.inj (hat.symm.trans hfound)
    obtain rfl := Option.some.inj (hat'.symm.trans hfound')
    rw [hkey, hview]
  · rw [hkey, hsame hown]

end SameBut

end SourceStore

open SourceStore

/-! ### Runs that differ in one file -/

section Runs

variable (path : Path)

/-- Moves elsewhere keep states that differ at one path. -/
theorem lockstep_sameBut : Lockstep (Alongside (SameBut path)) := by
  refine lockstep_of_stores (fun h => ⟨h.wellFormed, h.wellFormed'⟩) (fun h => h.paths_eq)
    (fun h => h.next) (fun h q => ?_)
    (fun h q _ text => h.give q text _) fun h q => h.remove q
  have hat := congrArg (Option.map fun o : Nat × Path × Nat × Option SourceFile => (o.1, o.2.2.1))
    (h.at? q)
  rwa [Option.map_map, Option.map_map] at hat

/-- All requests may be carried out side by side. -/
theorem Request.admits_sameBut (r : Request) : r.Admits (Alongside (SameBut path)) := by
  have hedits : ∀ q, EditsAt (Alongside (SameBut path)) q := by
    intro q
    refine editsAt_of_stores fun h hat hat' editors => ?_
    have hsame := h.at? q
    rw [hat, hat'] at hsame
    exact h.update hat hat' rfl rfl rfl rfl (outline_editors (Option.some.inj hsame) editors)
  cases r with
  | connect q => exact hedits q
  | disconnect q => exact hedits q
  | setText q text => exact writesAt_of_stores fun h text => h.give q text _
  | _ => trivial

namespace State

variable {path} {st st' st'' : State}

/-- States alongside others that are alongside. -/
theorem alongside_trans (h : Alongside (SameBut path) st st')
    (h' : Alongside (SameBut path) st' st'') : Alongside (SameBut path) st st'' :=
  ⟨h.projects.trans h'.projects, h.stores.trans h'.stores⟩

theorem alongside_symm (h : Alongside (SameBut path) st st') : Alongside (SameBut path) st' st :=
  ⟨h.projects.symm, h.stores.symm⟩

/-- A loaded file is given a text. -/
theorem setText_loaded {q : Path} {f : SourceFile} (hat : st.store.at? q = some f) (text : String)
    (s : Surroundings) : ((carryOut (.setText q text) : Plain Answer) s st).2 =
      (st.applyParse q text (Parse.ofText text)).2.rehash := by
  rw [carryOut, Plain.bind_apply, Engine.setText, Plain.locked_apply, hat]
  rfl

/-- An edit of the file at the path does not show. -/
theorem alongside_setText (hst : st.store.WellFormed) {q : Path} (hq : compare path q = .eq)
    (text : String) (s : Surroundings) : Alongside (SameBut path)
      ((carryOut (.setText q text) : Plain Answer) s st).2 st := by
  cases hat : st.store.at? q with
  | none =>
    have hstay : ((carryOut (.setText q text) : Plain Answer) s st).2 = st := by
      rw [carryOut, Plain.bind_apply, Engine.setText, Plain.locked_apply, hat]
      rfl
    rw [hstay]
    exact ⟨rfl, .refl path hst⟩
  | some f =>
    rw [setText_loaded hat]
    refine ⟨(registry_rehash _).trans (congrArg Registry.projects (registry_applyParse ..)), ?_⟩
    rw [store_rehash, store_applyParse]
    exact .edited hst hat hq text _

/-- **A run does to all files what the run without the edits of one file does,** but for what is written
in this file. -/
theorem sameBut_after (h : Alongside (SameBut path) st st') (log : List (Surroundings × Request)) :
    Alongside (SameBut path) (st.after log)
      (st'.after (log.filter fun e => !e.2.writes path)) := by
  induction log generalizing st st' with
  | nil => exact h
  | cons e log ih =>
    obtain ⟨s, r⟩ := e
    cases hwrites : r.writes path with
    | false =>
      rw [List.filter_cons_of_pos (by simp [hwrites])]
      exact ih ((lockstep_sameBut path).carryOut (r.admits_sameBut path) h s)
    | true =>
      rw [List.filter_cons_of_neg (by simp [hwrites])]
      obtain ⟨q, text, rfl, hq⟩ : ∃ q text, r = .setText q text ∧ compare path q = .eq := by
        cases r with
        | setText q text => exact ⟨q, text, rfl, by simpa [Request.writes] using hwrites⟩
        | _ => exact absurd hwrites (by simp [Request.writes])
      exact ih (alongside_trans (alongside_setText h.stores.wellFormed hq text s) h)

/-- A log leads to a reachable state. -/
theorem Reachable.after (hst : st.Reachable) (log : List (Surroundings × Request)) :
    (st.after log).Reachable := by
  induction log generalizing st with
  | nil => exact hst
  | cons e log ih => exact ih (hst.trans (Plain.steps (carryOut_keeps trivial e.2) e.1 st))

end State

end Runs

namespace State

/-! ### An editor opens a file, and the last editor leaves -/

/-- An editor opens a NED file that is on the disk and not loaded. -/
theorem at?_connect_new {st : State} (hst : st.store.WellFormed) {path : Path}
    (hat : st.store.at? path = none) (hned : st.registry.isNedFile path = true) {s : Surroundings}
    {text : String} (hread : s.disk.read path = .ok text) :
    ((carryOut (.connect path) : Plain Answer) s st).2.store.at? path =
      some { SourceFile.ofText st.store.nextNumber path text with editors := 1 } := by
  have hloaded : (st.applyParse path text (Parse.ofText text)).2.store.WellFormed := by
    rw [store_applyParse]
    exact hst.give path text _
  have hat' : (st.applyParse path text (Parse.ofText text)).2.store.at? path =
      some (.ofText st.store.nextNumber path text) := by
    rw [store_applyParse, hst.at?_give, if_pos Std.ReflOrd.compare_self, hat]
    rfl
  rw [carryOut, Plain.bind_apply, connect_unloaded hat, if_pos hned, textOf_of_read hread]
  change (addEditor _ path).rehash.store.at? path = _
  rw [store_rehash, addEditor, hat']
  exact hloaded.at?_update_self
    (g := { SourceFile.ofText st.store.nextNumber path text with editors := 1 }) hat' rfl rfl

/-- The last editor leaves a file that is on the disk. -/
theorem disconnect_last {st : State} (hst : st.store.WellFormed) {path : Path} {f : SourceFile}
    (hat : st.store.at? path = some f) (hlast : f.editors = 1) {s : Surroundings} {text : String}
    (hexists : s.disk.exists? path = true) (hread : s.disk.read path = .ok text) :
    ((carryOut (.disconnect path) : Plain Answer) s st).2 =
      (({ st with store := st.store.update { f with editors := 0 } } : State).applyParse path text
        (Parse.ofText text)).2.rehash := by
  set closed : State := { st with store := st.store.update { f with editors := 0 } }
  have hidle : closed.hasEditor path = false := by
    rw [hasEditor_of_at? (hst.at?_update_self (g := { f with editors := 0 }) hat rfl rfl)]
    rfl
  rw [carryOut, Plain.bind_apply, disconnect_sole hat hlast]
  dsimp only
  rw [if_pos hexists, loadFromDisk_eq hidle (textOf_of_read hread)]
  rfl

/-- The file is then the one with the text of the disk. -/
theorem at?_disconnect_last {st : State} (hst : st.store.WellFormed) {path : Path} {f : SourceFile}
    (hat : st.store.at? path = some f) (hlast : f.editors = 1) {s : Surroundings} {text : String}
    (hexists : s.disk.exists? path = true) (hread : s.disk.read path = .ok text) :
    ((carryOut (.disconnect path) : Plain Answer) s st).2.store.at? path =
      some (({ f with editors := 0 } : SourceFile).given text (Parse.ofText text)) := by
  have hclosed := hst.at?_update_self (g := { f with editors := 0 }) hat rfl rfl
  have hwf : (st.store.update { f with editors := 0 }).WellFormed :=
    hst.update (g := { f with editors := 0 }) hat rfl rfl
  rw [disconnect_last hst hat hlast hexists hread, store_rehash, store_applyParse]
  rw [hwf.at?_give, if_pos Std.ReflOrd.compare_self, hclosed]

end State

/-! ### What can be seen -/

/-- A type goes by its name in its package. -/
theorem Definition.qname_build (file : FileId) (edition : Nat) (package : String) (d : TypeDecl) :
    (Definition.build file edition package d).qname = Name.qualify package d.name := by
  obtain ⟨own, types⟩ := d
  unfold Definition.build Definition.buildAt
  rfl

namespace Tree

/-- The qualified names of the types that a file declares. -/
def qnames (t : Tree) : List String :=
  t.types.map fun d => Name.qualify (t.packageName?.getD "") d.name

/-- Names do not depend on numbers and spans. -/
theorem qnames_restamp (f : NodeSpan → NodeSpan) (t : Tree) : (t.restamp f).qnames = t.qnames := by
  unfold qnames
  rw [packageName?_restamp]
  change (t.types.map (Stamped.restamp f)).map _ = _
  rw [List.map_map]
  exact List.map_congr_left fun d _ => by rw [Function.comp_apply, TypeDecl.name_restamp]

theorem qnames_uncounted (t : Tree) : t.uncounted.qnames = t.qnames := rfl

theorem qnames_unnumbered (t : Tree) : t.unnumbered.qnames = t.qnames := by
  rw [unnumbered, qnames_uncounted, qnames_restamp]

/-- A property keeps its content when nodes are stamped. -/
theorem property?_restamp (f : NodeSpan → NodeSpan) (t : Tree) (name : String) :
    (t.restamp f).property? name = (t.property? name).map (Stamped.restamp f) := by
  change (t.properties.map (Stamped.restamp f)).find? _ = _
  rw [List.find?_map]
  rfl

end Tree

namespace State

variable {st st' : State}

/-- The tree of the file at a path, without numbers. -/
def treeAt? (st : State) (path : Path) : Option Tree :=
  (st.store.at? path).map fun f => f.tree.unnumbered

/-- A property without its number. -/
theorem map_property? (st : State) (path : Path) (name : String) :
    (st.property? path name).map (Stamped.restamp .unnumbered) =
      ((st.treeAt? path).bind fun t => t.property? name).or (path.parent?.bind fun folder =>
        (st.registry.folderFor? (folder.join ⟨packageFileName⟩)).bind fun source =>
          ((ancestors folder).takeWhile (·.startsWith source)).findSome? fun dir =>
            (st.treeAt? (dir.join ⟨packageFileName⟩)).bind fun t => t.property? name) := by
  have hown : ∀ q, ((st.store.at? q).bind fun f => f.tree.property? name).map
      (Stamped.restamp .unnumbered) = (st.treeAt? q).bind fun t => t.property? name := by
    intro q
    unfold treeAt?
    cases st.store.at? q with
    | none => rfl
    | some f => exact (f.tree.property?_restamp .unnumbered name).symm
  have hfolder : ∀ folder, (st.folderProperty? folder name).map (Stamped.restamp .unnumbered) =
      (st.registry.folderFor? (folder.join ⟨packageFileName⟩)).bind fun source =>
        ((ancestors folder).takeWhile (·.startsWith source)).findSome? fun dir =>
          (st.treeAt? (dir.join ⟨packageFileName⟩)).bind fun t => t.property? name := by
    intro folder
    unfold folderProperty?
    rw [Option.map_bind]
    refine congrArg _ (funext fun source => ?_)
    rw [Function.comp_apply, List.map_findSome?]
    exact congrArg (List.findSome? · _) (funext fun dir => hown _)
  unfold property?
  rw [Option.map_or, hown, Option.map_bind]
  exact congrArg _ (congrArg _ (funext hfolder))

theorem packageAt?_eq (st : State) :
    st.store.packageAt? = fun q => (st.treeAt? q).bind Tree.packageName? := by
  funext q
  unfold SourceStore.packageAt? treeAt?
  cases st.store.at? q with
  | none => rfl
  | some f => exact (f.tree.packageName?_restamp .unnumbered).symm

/-- The names of all types are those that the trees declare. -/
theorem Kept.allTypeNames (hst : st.Kept) (s : Surroundings) :
    ((carryOut .allTypeNames : Plain Answer) s st).1 =
      .names (sortedSet (st.store.all.flatMap fun f => f.tree.qnames)) := by
  have hfile : ∀ f ∈ st.store.all,
      (st.index.fileTypes f.id).map (fun d => d.qname) = f.tree.qnames := by
    intro f hf
    obtain ⟨edition, t, hindex, hplaces⟩ := (hst.files f hf).indexed
    have hnames : t.qnames = f.tree.qnames := by
      have hplaced := congrArg Tree.qnames hplaces
      rwa [Tree.unplaced, Tree.unplaced, Tree.qnames_uncounted, Tree.qnames_uncounted,
        Tree.qnames_restamp, Tree.qnames_restamp] at hplaced
    unfold DefinitionIndex.fileTypes
    rw [hindex, ← hnames]
    change (t.types.map (Definition.build f.id edition (t.packageName?.getD ""))).map _ = _
    rw [List.map_map]
    exact List.map_congr_left fun d _ => Definition.qname_build ..
  change Answer.names (sortedSet ((st.store.all.flatMap fun f => st.index.fileTypes f.id).map _)) = _
  rw [List.map_flatMap, List.flatMap_congr hfile]

/-- What is answered in a state. -/
def answer (st : State) (s : Surroundings) (r : Request) : Answer :=
  ((carryOut r : Plain Answer) s st).1

/-- Two states cannot be told apart by the texts of files, by their mistakes, or by tables. -/
structure SameTexts (a b : State) : Prop where
  text : ∀ s q, a.answer s (.text q) = b.answer s (.text q)
  broken : ∀ s q, a.answer s (.broken q) = b.answer s (.broken q)
  syntaxDiagnostics : ∀ s q, a.answer s (.syntaxDiagnostics q) = b.answer s (.syntaxDiagnostics q)
  tables : a.tableViews = b.tableViews

/-- Two states cannot be told apart by the trees of files and what is read off them, numbers of nodes
apart. -/
structure SameTrees (a b : State) : Prop where
  tree : ∀ q, a.treeAt? q = b.treeAt? q
  typeNames : ∀ s, a.answer s .allTypeNames = b.answer s .allTypeNames
  property : ∀ q name, (a.property? q name).map (Stamped.restamp .unnumbered) =
    (b.property? q name).map (Stamped.restamp .unnumbered)
  expectedPackage : ∀ s q, a.answer s (.expectedPackage q) = b.answer s (.expectedPackage q)

/-- What is told of a file without its tree. -/
def told (f : SourceFile) : FileId × Path × String × Bool × List SyntaxError :=
  (f.id, f.path, f.text, f.broken, f.errors)

/-- States that are told the same of their files, and have up-to-date tables, show the same texts. -/
theorem sameTexts_of_told {a b : State} (ha : a.Reachable) (hb : b.Reachable)
    (hclean : a.dirty = false) (hclean' : b.dirty = false)
    (hprojects : a.registry.projects = b.registry.projects)
    (hfiles : a.store.byPath.map told = b.store.byPath.map told) : a.SameTexts b := by
  have hat : ∀ q, (a.store.at? q).map told = (b.store.at? q).map told := by
    intro q
    have hget := congrArg (fun m => SortedMap.get? m q) hfiles
    rwa [SortedMap.get?_map, SortedMap.get?_map, ha.kept.store.get?_byPath,
      hb.kept.store.get?_byPath] at hget
  have hview : ∀ {β : Type} (g : FileId × Path × String × Bool × List SyntaxError → β) (q : Path),
      (a.store.at? q).map (g ∘ told) = (b.store.at? q).map (g ∘ told) := by
    intro β g q
    rw [← Option.map_map, hat, Option.map_map]
  have hrehash : ∀ {x : State}, x.dirty = false → x.rehash = x := by
    intro x hx
    rw [State.rehash, hx, if_neg Bool.false_ne_true]
  have hsame : a.SameFiles b := by
    refine ⟨ha.kept, hb.kept, hprojects, ?_⟩
    have hvalues := congrArg (fun m => (SortedMap.values m).map fun t => (t.2.1, t.2.2.1)) hfiles
    simp only [SortedMap.values_map, List.map_map, values_byPath] at hvalues
    exact hvalues
  refine ⟨fun s q => ?_, fun s q => ?_, fun s q => ?_, ?_⟩
  · exact congrArg (Answer.ofOption .text) (hview (fun t => t.2.2.1) q)
  · exact congrArg (fun broken => Answer.flag (Option.getD broken false))
      (hview (fun t => t.2.2.2.1) q)
  · exact congrArg (fun errors => Answer.diagnostics (Option.getD errors []))
      (hview (fun t => t.2.2.2.2.map (Diagnostic.ofSyntaxError t.1)) q)
  · have htables := hsame.tableViews_rehash ha.coherent hb.coherent
    rwa [hrehash hclean, hrehash hclean'] at htables

/-- States whose trees agree but for numbers show the same of them. -/
theorem sameTrees_of_unnumbered {a b : State} (ha : a.Reachable) (hb : b.Reachable)
    (hprojects : a.registry.projects = b.registry.projects)
    (hfiles : a.store.byPath.map (fun f => f.tree.unnumbered) =
      b.store.byPath.map fun f => f.tree.unnumbered) : a.SameTrees b := by
  have htree : a.treeAt? = b.treeAt? := by
    funext q
    have hget := congrArg (fun m => SortedMap.get? m q) hfiles
    rwa [SortedMap.get?_map, SortedMap.get?_map, ha.kept.store.get?_byPath,
      hb.kept.store.get?_byPath] at hget
  have hfolder : a.registry.folderFor? = b.registry.folderFor? :=
    funext (Registry.folderFor?_congr hprojects)
  refine ⟨congrFun htree, fun s => ?_, fun q name => ?_, fun s q => ?_⟩
  · have hnames := congrArg (fun m => (SortedMap.values m).flatMap Tree.qnames) hfiles
    simp only [SortedMap.values_map, values_byPath, List.flatMap_map, Tree.qnames_unnumbered] at hnames
    unfold answer
    rw [ha.kept.allTypeNames, hb.kept.allTypeNames]
    exact congrArg (fun names => Answer.names (sortedSet names)) hnames
  · rw [map_property?, map_property?, htree, hfolder]
  · refine congrArg (Answer.ofOption .text) ?_
    refine Registry.expectedPackage?_congr hprojects q ?_
    rw [packageAt?_eq, packageAt?_eq, htree]

/-- **Unsaved edits are lost when the last editor leaves.** Take two runs from one state that differ
in nothing but the texts given to one file, whatever else is done, and to whichever files, and whatever
becomes of the disk. When one editor is left that has the file open, and closes it while the disk has
the file, the texts of all files, their mistakes and all tables are the same after both runs. If the
text on the disk has no mistakes, so are all trees but for numbers, the names of all types, the
properties and the expected packages. -/
theorem unsaved_edits_lost {st : State} (hst : st.Reachable) {path : Path}
    {log log' : List (Surroundings × Request)}
    (hlogs : log.filter (fun e => !e.2.writes path) = log'.filter fun e => !e.2.writes path)
    {f : SourceFile} (hat : (st.after log).store.at? path = some f) (hlast : f.editors = 1)
    {s : Surroundings} {text : String} (hexists : s.disk.exists? path = true)
    (hread : s.disk.read path = .ok text) :
    let a := st.after (log ++ [(s, .disconnect path)])
    let b := st.after (log' ++ [(s, .disconnect path)])
    a.SameTexts b ∧ ((Parse.ofText text).ok = true → a.SameTrees b) := by
  intro a b
  have hself : Alongside (SameBut path) st st := ⟨rfl, .refl path hst.kept.store⟩
  have hruns : Alongside (SameBut path) (st.after log) (st.after log') := by
    have hright := sameBut_after hself log'
    rw [← hlogs] at hright
    exact alongside_trans (sameBut_after hself log) (alongside_symm hright)
  obtain ⟨f', hat', houtline⟩ := hruns.stores.at?_some hat
  obtain ⟨hnumber, hpath, heditors, _⟩ := outline_eq_iff.mp houtline
  have ha : a = ((carryOut (.disconnect path) : Plain Answer) s (st.after log)).2 := after_append ..
  have hb : b = ((carryOut (.disconnect path) : Plain Answer) s (st.after log')).2 := after_append ..
  have hends : Alongside (SameBut path) a b := by
    rw [ha, hb]
    exact (lockstep_sameBut path).carryOut (Request.admits_sameBut path _) hruns s
  have hreachable : a.Reachable := hst.after _
  have hreachable' : b.Reachable := hst.after _
  -- Both runs end with the file as the disk has it, merged into what was there.
  have hown := at?_disconnect_last hruns.stores.wellFormed hat hlast hexists hread
  have hown' := at?_disconnect_last hruns.stores.wellFormed' hat' (heditors ▸ hlast) hexists hread
  rw [← ha] at hown
  rw [← hb] at hown'
  have hclean : a.dirty = false := by
    rw [ha, disconnect_last hruns.stores.wellFormed hat hlast hexists hread]
    exact Steps.dirty_rehash _
  have hclean' : b.dirty = false := by
    rw [hb, disconnect_last hruns.stores.wellFormed' hat' (heditors ▸ hlast) hexists hread]
    exact Steps.dirty_rehash _
  refine ⟨sameTexts_of_told hreachable hreachable' hclean hclean' hends.projects
    (hends.stores.map_eq hown hown' ?_), fun hok => sameTrees_of_unnumbered hreachable hreachable'
    hends.projects (hends.stores.map_eq hown hown' ?_)⟩
  · simp [told, SourceFile.id, hnumber, hpath]
  · have hmerged : ∀ g : SourceFile, (g.given text (Parse.ofText text)).tree.unnumbered =
        (Parse.ofText text).tree.unnumbered := by
      intro g
      rw [SourceFile.given, if_pos hok]
      exact (Tree.merge_exact g.tree _).1
    rw [hmerged, hmerged]

/-- Two runs open a file. In the first it is edited twice and left with mistakes, in the second it is
edited otherwise. -/
theorem unsaved_edits_lost_reopened :
    let s : Surroundings := ⟨FileMap.disk (SortedMap.insert {} ⟨"/p/a.ned"⟩ "simple A {}"),
      .fixed [⟨"p", ⟨"/p"⟩, [⟨""⟩], []⟩]⟩
    let opened : List (Surroundings × Request) := [(s, .reconfigure), (s, .connect ⟨"/p/a.ned"⟩)]
    let edits : List (Surroundings × Request) := [(s, .setText ⟨"/p/a.ned"⟩ "simple B {}"),
      (s, .setText ⟨"/p/a.ned"⟩ "simple")]
    let edits' : List (Surroundings × Request) := [(s, .setText ⟨"/p/a.ned"⟩ "simple C {}")]
    let a := ({} : State).after (opened ++ edits ++ [(s, .disconnect ⟨"/p/a.ned"⟩)])
    let b := ({} : State).after (opened ++ edits' ++ [(s, .disconnect ⟨"/p/a.ned"⟩)])
    a.SameTexts b ∧ a.SameTrees b := by
  intro s opened edits edits' a b
  have hedits : (opened ++ edits).filter (fun e => !e.2.writes ⟨"/p/a.ned"⟩) = opened := by
    simp [opened, edits, Request.writes]
  have hedits' : (opened ++ edits').filter (fun e => !e.2.writes ⟨"/p/a.ned"⟩) = opened := by
    simp [opened, edits', Request.writes]
  obtain ⟨g, hopened, heditors⟩ : ∃ g, (({} : State).after opened).store.at? ⟨"/p/a.ned"⟩ = some g ∧
      g.editors = 1 := Option.map_eq_some_iff.mp (by decide +kernel)
  -- Edits do not change how many editors there are.
  have hempty : Alongside (SameBut ⟨"/p/a.ned"⟩) ({} : State) {} := ⟨rfl, .refl _ wellFormed_empty⟩
  have halong := sameBut_after hempty (opened ++ edits)
  rw [hedits] at halong
  obtain ⟨f, hat, hsame⟩ := (alongside_symm halong).stores.at?_some hopened
  have hlast : f.editors = 1 := (outline_eq_iff.mp hsame).2.2.1.symm.trans heditors
  have hexists : s.disk.exists? ⟨"/p/a.ned"⟩ = true := by decide +kernel
  have hread : s.disk.read ⟨"/p/a.ned"⟩ = .ok "simple A {}" := by decide +kernel
  obtain ⟨htexts, htrees⟩ := unsaved_edits_lost .refl (hedits.trans hedits'.symm) hat hlast
    hexists hread
  exact ⟨htexts, htrees (by cbv)⟩

/-- A file that is given a text and then closed by its last editor, while the text on the disk has mistakes,
keeps the tree of what was typed, or the one that it had if there are mistakes in that too. -/
theorem tree_of_typed {st : State} (hst : st.Reachable) {path : Path} {f : SourceFile}
    (hat : st.store.at? path = some f) (hlast : f.editors = 1) {s : Surroundings} {text : String}
    (hexists : s.disk.exists? path = true) (hread : s.disk.read path = .ok text)
    (hbroken : (Parse.ofText text).ok = false) (typed : String) :
    (st.after [(s, .setText path typed), (s, .disconnect path)]).treeAt? path =
      some (if (Parse.ofText typed).ok then (Parse.ofText typed).tree.unnumbered
        else f.tree.unnumbered) := by
  set edited := ((carryOut (.setText path typed) : Plain Answer) s st).2 with hedited
  have hreachable : edited.Reachable := hst.after [(s, .setText path typed)]
  have hgiven : edited.store.at? path = some (f.given typed (Parse.ofText typed)) := by
    rw [hedited, setText_loaded hat, store_rehash, store_applyParse, hst.kept.store.at?_give,
      if_pos Std.ReflOrd.compare_self, hat]
  have hclosed := at?_disconnect_last hreachable.kept.store hgiven (by simpa using hlast) hexists hread
  change (((carryOut (.disconnect path) : Plain Answer) s edited).2.store.at? path).map _ = _
  rw [hclosed, SourceFile.given, if_neg (by simp [hbroken]), SourceFile.given]
  split
  · exact congrArg some (Tree.merge_exact f.tree _).1
  · rfl

/-- **With mistakes on the disk unsaved edits show.** Two runs open a file whose text has mistakes, give it
texts, one without mistakes and one that is that on the disk, and close it. Then its trees are different. -/
theorem unsaved_edits_survive :
    let s : Surroundings := ⟨FileMap.disk (SortedMap.insert {} ⟨"/p/a.ned"⟩ "simple Broken \x7b"),
      .fixed [⟨"p", ⟨"/p"⟩, [⟨""⟩], []⟩]⟩
    let opened : List (Surroundings × Request) := [(s, .reconfigure), (s, .connect ⟨"/p/a.ned"⟩)]
    let a := ({} : State).after (opened ++ [(s, .setText ⟨"/p/a.ned"⟩ "simple Edited {}"),
      (s, .disconnect ⟨"/p/a.ned"⟩)])
    let b := ({} : State).after (opened ++ [(s, .setText ⟨"/p/a.ned"⟩ "simple Broken \x7b"),
      (s, .disconnect ⟨"/p/a.ned"⟩)])
    ¬a.SameTrees b := by
  obtain ⟨hok, hnames⟩ : (Parse.ofText "simple Edited {}").ok = true ∧
      (Parse.ofText "simple Edited {}").tree.qnames = ["Edited"] := Prod.mk.inj (by cbv)
  obtain ⟨hbroken, hnames'⟩ : (Parse.ofText "simple Broken \x7b").ok = false ∧
      (Parse.ofText "simple Broken \x7b").tree.qnames = ["Broken"] := Prod.mk.inj (by cbv)
  intro s opened a b hsame
  have hconfigured : (({} : State).after [(s, .reconfigure)]).Reachable := Reachable.after .refl _
  have hread : s.disk.read ⟨"/p/a.ned"⟩ = .ok "simple Broken \x7b" := by decide +kernel
  have hat := at?_connect_new hconfigured.kept.store rfl (by decide +kernel) hread
  rw [← after_append] at hat
  have hreachable : (({} : State).after opened).Reachable := Reachable.after .refl opened
  have htree : ∀ typed, (({} : State).after (opened ++ [(s, .setText ⟨"/p/a.ned"⟩ typed),
      (s, .disconnect ⟨"/p/a.ned"⟩)])).treeAt? ⟨"/p/a.ned"⟩ =
        some (if (Parse.ofText typed).ok then (Parse.ofText typed).tree.unnumbered
          else (Parse.ofText "simple Broken \x7b").tree.unnumbered) := by
    intro typed
    rw [State.after, List.foldl_append]
    exact tree_of_typed hreachable hat rfl (by decide +kernel) hread hbroken typed
  have hpath := hsame.tree ⟨"/p/a.ned"⟩
  rw [htree, htree, if_pos hok, if_neg (by simp [hbroken])] at hpath
  have hqnames := congrArg Tree.qnames (Option.some.inj hpath)
  rw [Tree.qnames_unnumbered, Tree.qnames_unnumbered, hnames, hnames'] at hqnames
  exact absurd hqnames (by decide)

end State

end NedWorkspace
