/-
# Breaking a file and repairing it

SPEC_FULL, section 4.1: with syntax errors the tree is marked broken and not merged.

A text with mistakes takes a file out of the tables and touches nothing else that was derived from files:
the tree, the definitions and the diagnostics stay (`State.Aside`). When the file is given its former text
again, reading gives the tree that it has (`Tree.merge_same`), so nothing changes but that the file takes part
in the tables again.

With one exception: the repair lets diagnostics follow the nodes of the tree, as every text without
mistakes does, and so drops those whose nodes are gone. A check of all files looks for ambiguous names
before it publishes them file by file, so if a listener changes a file in between, there are such
diagnostics (`State.stale_dropped`). If nobody calls back there are none, and breaking and repairing
leaves everything as it was (`State.repaired`).
-/

import NedWorkspace.Proofs.Workspace.Duplicates
import NedWorkspace.Proofs.Workspace.Live
import NedWorkspace.Proofs.Workspace.Unsaved

namespace NedWorkspace

open State Engine

namespace SourceFile

/-- The mistakes that are known of a file are those in its text, and its tree counts from 1. -/
structure Read (f : SourceFile) : Prop where
  errors : f.errors = (Parse.ofText f.text).errors
  counted : 1 ≤ f.tree.nextNode

/-- A file just read is as it was read. -/
theorem read_ofText (number : Nat) (path : Path) (text : String) : (ofText number path text).Read :=
  ⟨rfl, (Parser.file.reaches (Cursor.ofText text)).nextNode⟩

/-- A file given a text is as it was read from this text or from the last that parsed. -/
theorem Read.given {f : SourceFile} (h : f.Read) (text : String) :
    (f.given text (Parse.ofText text)).Read := by
  refine ⟨?_, ?_⟩
  · rw [given_errors, given_text]
    split
    · rename_i hok
      exact (List.isEmpty_iff.mp hok).symm
    · rfl
  · unfold SourceFile.given
    split
    · exact (Nat.le_max_right ..).trans (Tree.merge_accounts ..).le
    · exact h.counted

/-- Of two texts with mistakes the later one counts. -/
theorem given_given {f : SourceFile} {text text' : String} {parse parse' : Parse}
    (hok : parse.ok = false) (hok' : parse'.ok = false) :
    (f.given text parse).given text' parse' = f.given text' parse' := by
  simp [SourceFile.given, hok, hok']

end SourceFile

/-- If the diagnostic is about a node, it tells the span that the node has in a tree. -/
def Diagnostic.FoundIn (d : Diagnostic) (tree : Tree) : Prop :=
  ∀ n, d.node = some n → tree.spanOf? n = some d.span

namespace DiagnosticStore

/-- A diagnostic stays as it is if its node is where it was found. -/
theorem follows_iff {tree : Tree} {d : Diagnostic} :
    survives tree d = true ∧ d.locate tree = d ↔ d.FoundIn tree := by
  obtain ⟨kind, severity, code, message, file, node, place⟩ := d
  unfold survives Diagnostic.locate Diagnostic.FoundIn
  cases node with
  | none => simp
  | some n => cases hspan : tree.spanOf? n with
    | none => simp [hspan]
    | some span => simp [hspan]

/-- Diagnostics that follow the nodes of a tree are as before exactly if all are found in it. -/
theorem filter_map_eq_iff {tree : Tree} {ds : List Diagnostic} :
    (ds.filter (survives tree)).map (Diagnostic.locate tree) = ds ↔ ∀ d ∈ ds, d.FoundIn tree := by
  constructor
  · intro h d hd
    have hlength := congrArg List.length h
    rw [List.length_map, List.length_filter_eq_length_iff] at hlength
    rw [List.filter_eq_self.mpr hlength] at h
    have hlocate := List.map_inj_left.mp (h.trans (List.map_id ds).symm)
    exact follows_iff.mp ⟨hlength d hd, hlocate d hd⟩
  · intro h
    rw [List.filter_eq_self.mpr fun d hd => (follows_iff.mpr (h d hd)).1]
    exact (List.map_congr_left fun d hd => (follows_iff.mpr (h d hd)).2).trans (List.map_id ds)

end DiagnosticStore

namespace State

variable {st s : State} {path : Path} {f g : SourceFile}

/-- The state after texts were typed into the file at a path, one after another. -/
def typed (st : State) (surroundings : Surroundings) (path : Path) (texts : List String) : State :=
  st.after (texts.map fun text => (surroundings, .setText path text))

/-- No table tells of a type that is declared in a file. -/
def Untold (st : State) (id : FileId) : Prop :=
  ∀ project t, st.registry.table? project = some t →
    ∀ d : Definition, (d ∈ t.definitions ∨ ∃ e ∈ t.duplicates.entries, d ∈ e.2) → d.file ≠ id

/-- Another file is in the place of one, the tables are up to date, and all else that is derived from files
is as it was. -/
structure Aside (st : State) (g : SourceFile) (s : State) : Prop where
  store : s.store = st.store.update g
  index : s.index = st.index
  projects : s.registry.projects = st.registry.projects
  diagnostics : s.diagnostics = st.diagnostics
  fresh : s.dirty = false

/-- A text with errors leaves types and diagnostics. -/
theorem index_applyBroken (st : State) (f : SourceFile) (text : String) (errors : List SyntaxError) :
    (st.applyBroken f text errors).index = st.index ∧
      (st.applyBroken f text errors).diagnostics = st.diagnostics := by
  unfold State.applyBroken
  dsimp only
  split <;> exact ⟨rfl, rfl⟩

/-- A text with mistakes only puts another file in the place of the one that it is typed into. -/
theorem aside_setText (hat : st.store.at? path = some f) {text : String}
    (hok : (Parse.ofText text).ok = false) (surroundings : Surroundings) :
    st.Aside (f.given text (Parse.ofText text)) (st.typed surroundings path [text]) := by
  have hset : st.typed surroundings path [text] =
      (st.applyBroken f text (Parse.ofText text).errors).rehash := by
    refine (setText_loaded hat text surroundings).trans ?_
    rw [State.applyParse, hat]
    simp [hok]
  obtain ⟨hstore, hregistry⟩ := store_applyBroken st f text (Parse.ofText text).errors
  obtain ⟨hindex, hdiagnostics⟩ := index_applyBroken st f text (Parse.ofText text).errors
  rw [hset, SourceFile.given, if_neg (by simp [hok])]
  exact ⟨(store_rehash _).trans hstore, (index_rehash _).trans hindex,
    (registry_rehash _).trans (congrArg Registry.projects hregistry),
    (diagnostics_rehash _).trans hdiagnostics, Steps.dirty_rehash _⟩

/-- Typing one text after another. -/
theorem typed_cons (st : State) (surroundings : Surroundings) (path : Path) (text : String)
    (texts : List String) : st.typed surroundings path (text :: texts) =
      (st.typed surroundings path [text]).typed surroundings path texts := rfl

/-- **Of several texts with mistakes only the last one shows.** -/
theorem aside_typed {texts : List String} (hne : texts ≠ []) (surroundings : Surroundings)
    (hst : st.store.WellFormed) (hat : st.store.at? path = some f)
    (hok : ∀ text ∈ texts, (Parse.ofText text).ok = false) :
    st.Aside (f.given (texts.getLast hne) (Parse.ofText (texts.getLast hne)))
      (st.typed surroundings path texts) := by
  induction texts generalizing st f with
  | nil => exact absurd rfl hne
  | cons text texts ih =>
    have hfirst := aside_setText hat (hok text List.mem_cons_self) surroundings
    by_cases hnil : texts = []
    · subst hnil
      exact hfirst
    · have hat' : (st.typed surroundings path [text]).store.at? path =
          some (f.given text (Parse.ofText text)) := by
        rw [hfirst.store]
        exact hst.at?_update_self hat (f.given_path ..) (f.given_number ..)
      have hst' : (st.typed surroundings path [text]).store.WellFormed := by
        rw [hfirst.store]
        exact hst.update hat (f.given_path ..) (f.given_number ..)
      have hrest := ih hnil hst' hat' fun t ht => hok t (List.mem_cons_of_mem text ht)
      have hlast := hok _ (List.mem_cons_of_mem text (List.getLast_mem hnil))
      rw [SourceFile.given_given (hok text List.mem_cons_self) hlast] at hrest
      rw [List.getLast_cons hnil, typed_cons]
      refine ⟨?_, hrest.index.trans hfirst.index, hrest.projects.trans hfirst.projects,
        hrest.diagnostics.trans hfirst.diagnostics, hrest.fresh⟩
      rw [hrest.store, hfirst.store, SourceStore.update_update]
      rw [SourceFile.given_id, SourceFile.given_id]

/-- Typing takes only steps. -/
theorem steps_typed (surroundings : Surroundings) (path : Path) (texts : List String) :
    Steps True st (st.typed surroundings path texts) := by
  induction texts generalizing st with
  | nil => exact .refl
  | cons text texts ih =>
    exact (Plain.steps (carryOut_keeps trivial (.setText path text)) surroundings st).trans ih

/-- **A broken file contributes no types.** -/
theorem Reachable.untold (h : st.Reachable) (hst : st.dirty = false) (hf : f ∈ st.store.all)
    (hbroken : f.broken = true) : st.Untold f.id := by
  intro project t ht d hd hfile
  have hseen := (h.mem_table_iff ((rehash_of_fresh hst).symm ▸ ht)).mp hd
  rcases h.kept.file_of_mem_typesSeenBy h.indexed hseen with hbuiltin | ⟨x, hx, hxfile⟩
  · rw [Definition.isBuiltin_of_file hfile] at hbuiltin
    exact Bool.noConfusion hbuiltin
  · obtain ⟨hx, hwhole⟩ := List.mem_filter.mp hx
    obtain rfl := h.kept.store.eq_of_id hx hf (hxfile.symm.trans hfile)
    simp [hbroken] at hwhole

/-- Tables are computed from the files, the definitions and the projects. -/
theorem Coherent.registry_rehash_congr (hst : st.Coherent) (hs : s.Coherent)
    (hstore : s.store = st.store) (hindex : s.index = st.index)
    (hprojects : s.registry.projects = st.registry.projects) :
    s.rehash.registry = st.rehash.registry := by
  have hmodel : s.rehash.model = st.rehash.model := by
    rw [hs.model_rehash, hst.model_rehash, current, current, participants, participants, hstore, hindex,
      Registry.rehash, Registry.rehash, hprojects]
    simp only [Registry.contributions_congr hprojects]
  have htables : s.rehash.registry.tables = st.rehash.registry.tables := congrArg Model.tables hmodel
  exact (Registry.mk.injEq ..).mpr
    ⟨(registry_rehash s).trans (hprojects.trans (registry_rehash st).symm), htables⟩

/-- A broken file gets the text back that its tree was read from. -/
structure Restored (st : State) (f : SourceFile) (s : State) : Prop where
  store : s.store = st.store.update f
  index : s.index = st.index
  projects : s.registry.projects = st.registry.projects
  diagnostics : s.diagnostics = (st.diagnostics.remap f.id f.tree).2

/-- Computing the tables changes nothing else. -/
theorem Restored.rehash (h : st.Restored f s) : st.Restored f s.rehash :=
  ⟨(store_rehash s).trans h.store, (index_rehash s).trans h.index,
    (registry_rehash s).trans h.projects, (diagnostics_rehash s).trans h.diagnostics⟩

/-- A text that parses to the tree from before restores the file. -/
theorem restored_applyClean {text : String} {tree : Tree} (hbroken : g.broken = true)
    (hmerge : g.tree.merge tree = ⟨g.tree, false⟩) :
    st.Restored { g with text, errors := [], broken := false } (st.applyClean g text tree) := by
  unfold State.applyClean
  dsimp only
  rw [hmerge, if_neg (by simp), if_pos hbroken]
  set now : SourceFile := { g with text, errors := [], broken := false }
  obtain ⟨hdiagnostics, hstore⟩ := remap_diagnostics { st with store := st.store.update now } now
  obtain ⟨queued, diagnostics, heq⟩ := remap_eq { st with store := st.store.update now } now
  refine ⟨hstore, ?_, ?_, hdiagnostics⟩
  · change (State.remap _ _).index = _
    rw [heq]
  · change (State.remap _ _).registry.projects = _
    rw [heq]

/-- The files of reachable states were read from their texts. -/
theorem Reachable.read (h : st.Reachable) (hf : f ∈ st.store.all) : f.Read :=
  h.forall_files SourceFile.read_ofText (fun _ text hf => hf.given text)
    (fun _ _ hf => ⟨hf.errors, hf.counted⟩) f hf

/-- **A file that was broken gets back the tree that it has with its former text.** -/
theorem Reachable.restored (h : st.Reachable) (hat : st.store.at? path = some f)
    (hwhole : f.broken = false) {worse : State} {text : String} (hok : (Parse.ofText text).ok = false)
    (hworse : st.Aside (f.given text (Parse.ofText text)) worse) (surroundings : Surroundings) :
    worse.Restored f (worse.typed surroundings path [f.text]) ∧
      (worse.typed surroundings path [f.text]).dirty = false := by
  have hf := SourceStore.mem_of_at? hat
  have hkept := h.kept.files f hf
  have hread : (Parse.ofText f.text).ok = true := by simpa [hwhole] using hkept.broken
  set g := f.given text (Parse.ofText text) with hg
  have hgiven : g = { f with text, errors := (Parse.ofText text).errors, broken := true } := by
    rw [hg, SourceFile.given, if_neg (by simp [hok])]
  have hat' : worse.store.at? path = some g := by
    rw [hworse.store]
    exact h.kept.store.at?_update_self hat (f.given_path ..) (f.given_number ..)
  have hclean : worse.typed surroundings path [f.text] =
      (worse.applyClean g f.text (Parse.ofText f.text).tree).rehash := by
    refine (setText_loaded hat' f.text surroundings).trans ?_
    rw [State.applyParse, hat']
    simp [hread]
  have hmerge : g.tree.merge (Parse.ofText f.text).tree = ⟨g.tree, false⟩ := by
    rw [hgiven]
    exact Tree.merge_same (hkept.tree hwhole) (h.read hf).counted
  have hback : { g with text := f.text, errors := [], broken := false } = f := by
    rw [hgiven, ← List.isEmpty_iff.mp hread, ← (h.read hf).errors, ← hwhole]
  have hrestored : worse.Restored _ (worse.applyClean g f.text _) :=
    restored_applyClean (by rw [hgiven]) hmerge
  rw [hback] at hrestored
  rw [hclean]
  exact ⟨hrestored.rehash, Steps.dirty_rehash _⟩

/-- **The diagnostics of a file that was broken and is repaired follow the nodes of its tree.** -/
theorem Reachable.get_restored (h : st.Reachable) (hat : st.store.at? path = some f)
    (hwhole : f.broken = false) {texts : List String} (hne : texts ≠ [])
    (hmistakes : ∀ text ∈ texts, (Parse.ofText text).ok = false) (surroundings : Surroundings)
    (id : FileId) :
    ((st.typed surroundings path texts).typed surroundings path [f.text]).diagnostics.get id =
      if f.id = id then
        ((st.diagnostics.get id).filter (DiagnosticStore.survives f.tree)).map (Diagnostic.locate f.tree)
      else st.diagnostics.get id := by
  have hworse := aside_typed hne surroundings h.kept.store hat hmistakes
  have hlast := hmistakes _ (List.getLast_mem hne)
  rw [(h.restored hat hwhole hlast hworse surroundings).1.diagnostics, hworse.diagnostics,
    DiagnosticStore.get_remap]

/-- They are as they were exactly if each is where its node is. -/
theorem Reachable.get_restored_eq_iff (h : st.Reachable) (hat : st.store.at? path = some f)
    (hwhole : f.broken = false) {texts : List String} (hne : texts ≠ [])
    (hmistakes : ∀ text ∈ texts, (Parse.ofText text).ok = false) (surroundings : Surroundings) :
    ((st.typed surroundings path texts).typed surroundings path [f.text]).diagnostics.get f.id =
        st.diagnostics.get f.id ↔
      ∀ d ∈ st.diagnostics.get f.id, d.FoundIn f.tree := by
  rw [h.get_restored hat hwhole hne hmistakes, if_pos rfl, DiagnosticStore.filter_map_eq_iff]

/-- Where diagnostics are about what is there, each is where its node is. -/
theorem Live.foundIn (h : st.Live) (hstore : st.store.WellFormed) (hf : f ∈ st.store.all) :
    ∀ d ∈ st.diagnostics.get f.id, d.FoundIn f.tree := by
  intro d hd n hn
  obtain ⟨x, hx, hid, hplaced⟩ := h f.id d hd
  obtain rfl := hstore.eq_of_id hx hf hid
  exact (hplaced.node n hn).2

/-- **Breaking a file and repairing it.** Take any reachable state, a loaded file without mistakes and any
texts that all have mistakes. After these are typed into the file one after another, the file has its
tree, and the definitions and diagnostics of all files are as they were, but no table tells of a type of
the file. After the former text is typed again, all files, definitions and tables are as they were at the
beginning, the trees with all their numbers and spans included. So are the diagnostics of all other files;
those of the file follow the nodes of its tree, which means that they are as they were exactly if each is
where its node is. That is so in every session in which no listener calls back. -/
theorem repaired (h : st.Reachable) (hat : st.store.at? path = some f) (hwhole : f.broken = false)
    {texts : List String} (hne : texts ≠ [])
    (hmistakes : ∀ text ∈ texts, (Parse.ofText text).ok = false)
    (surroundings : Surroundings) :
    let last := texts.getLast hne
    let worse := st.typed surroundings path texts
    let mended := worse.typed surroundings path [f.text]
    (worse.store = st.store.update
        { f with text := last, errors := (Parse.ofText last).errors, broken := true } ∧
      worse.index = st.index ∧ worse.diagnostics = st.diagnostics ∧ worse.Untold f.id) ∧
    (mended.store = st.store ∧ mended.index = st.index ∧
      mended.registry = st.rehash.registry) ∧
    (∀ id, mended.diagnostics.get id =
      if f.id = id then
        ((st.diagnostics.get id).filter (DiagnosticStore.survives f.tree)).map (Diagnostic.locate f.tree)
      else st.diagnostics.get id) ∧
    ((∀ id, mended.diagnostics.get id = st.diagnostics.get id) ↔
      ∀ d ∈ st.diagnostics.get f.id, d.FoundIn f.tree) ∧
    ∀ (storage : Storage) (provider : Provider) (w : World) (commands : List Command),
      World.start storage provider = .ok w → (∀ c ∈ commands, c.quiet = true) →
      st = (w.after commands).state → ∀ id, mended.diagnostics.get id = st.diagnostics.get id := by
  intro last worse mended
  have hf := SourceStore.mem_of_at? hat
  have hlast : (Parse.ofText last).ok = false := hmistakes last (List.getLast_mem hne)
  have hworse := aside_typed hne surroundings h.kept.store hat hmistakes
  obtain ⟨hmended, hfresh⟩ : worse.Restored f mended ∧ mended.dirty = false :=
    h.restored hat hwhole hlast hworse surroundings
  have hreachable : worse.Reachable := h.trans (steps_typed surroundings path texts)
  have hreachable' : mended.Reachable := hreachable.trans (steps_typed surroundings path [f.text])
  have hgiven : f.given last (Parse.ofText last) =
      { f with text := last, errors := (Parse.ofText last).errors, broken := true } := by
    rw [SourceFile.given, if_neg (by simp [hlast])]
  have hstore : mended.store = st.store := by
    rw [hmended.store, hworse.store, SourceStore.update_update _ (f.given_id ..).symm,
      h.kept.store.update_self hat]
  have hindex : mended.index = st.index := hmended.index.trans hworse.index
  have hprojects := hmended.projects.trans hworse.projects
  have hdiagnostics := h.get_restored hat hwhole hne hmistakes surroundings
  have hfound : (∀ id, mended.diagnostics.get id = st.diagnostics.get id) ↔
      ∀ d ∈ st.diagnostics.get f.id, d.FoundIn f.tree := by
    rw [← h.get_restored_eq_iff hat hwhole hne hmistakes surroundings]
    refine ⟨fun hsame => hsame f.id, fun hsame id => ?_⟩
    by_cases hid : f.id = id
    · exact hid ▸ hsame
    · rw [hdiagnostics, if_neg hid]
  refine ⟨⟨hgiven ▸ hworse.store, hworse.index, hworse.diagnostics, ?_⟩, ⟨hstore, hindex, ?_⟩,
    hdiagnostics, hfound, fun storage provider w commands hw hquiet hst => hfound.mpr ?_⟩
  · have hbroken := h.kept.store.mem_update_self hat (f.given_number last (Parse.ofText last))
    rw [← hworse.store] at hbroken
    have hid : (f.given last (Parse.ofText last)).id = f.id := by rw [hgiven]; rfl
    exact hid ▸ hreachable.untold hworse.fresh hbroken (by rw [hgiven])
  · rw [← rehash_of_fresh hfresh]
    exact h.coherent.registry_rehash_congr hreachable'.coherent hstore hindex hprojects
  · have hlive : st.Live := hst ▸ (World.calm_after live_calming ⟨.refl, live_init⟩ hw hquiet).2
    exact hlive.foundIn h.kept.store hf

/-- A file that declares two types is broken twice and repaired. -/
theorem repaired_twice_broken :
    let path : Path := ⟨"/p/a.ned"⟩
    let s : Surroundings := ⟨(Storage.map {}).disk, .fixed []⟩
    let st := ((({} : State).reconfigure [⟨"p", ⟨"/p"⟩, [⟨""⟩], []⟩]).loadNew path twiceText
      (Parse.ofText twiceText)).2
    let worse := st.typed s path ["\x7d", "= ;"]
    let mended := worse.typed s path [twiceText]
    st.Reachable ∧ worse.Untold (.source 0) ∧ mended.store = st.store ∧ mended.index = st.index ∧
      mended.registry = st.rehash.registry ∧ ∀ id, mended.diagnostics.get id = st.diagnostics.get id := by
  intro path s st worse mended
  have hst : st.Reachable := .tail (.single (.configured {} _)) (.loaded rfl twiceText)
  have hat : st.store.at? path = some (.ofText 0 path twiceText) := SourceStore.at?_add_self ..
  have hok : (Parse.ofText twiceText).ok = true := by cbv
  have hmistakes : ∀ text ∈ ["\x7d", "= ;"], (Parse.ofText text).ok = false := by decide +kernel
  obtain ⟨⟨_, _, _, huntold⟩, ⟨hstore, hindex, hregistry⟩, _, hfound, _⟩ :=
    repaired hst hat (congrArg (!·) hok) (List.cons_ne_nil _ _) hmistakes s
  exact ⟨hst, huntold, hstore, hindex, hregistry, hfound.mpr fun _ hd => absurd hd List.not_mem_nil⟩

/-- **What was told of a node that is gone meanwhile is published nevertheless.** -/
theorem Kept.published_stale (hkept : st.Kept) (hdirty : st.dirty = false) (hf : f ∈ st.store.all)
    {told : List Diagnostic} {d : Diagnostic} (hd : d ∈ told) (hfile : d.file = f.id) {n : NodeId}
    (hnode : d.node = some n) (hgone : n ∉ f.tree.ids) (s : Surroundings) :
    ∃ e ∈ ((Engine.publishEach told [f.id] : Plain Unit) s st).2.diagnostics.get f.id,
      ¬ e.FoundIn f.tree := by
  have hget : ∀ g ∈ [f], st.store.get? g.id = some g :=
    fun g hg => hkept.store.get?_of_mem (List.mem_singleton.mp hg ▸ hf)
  obtain ⟨_, diagnostics, hrun, _, hshows⟩ := publishEach_eq told (by simp) s hdirty hget
  obtain ⟨found, _, hreport, _, _⟩ := List.forall₂_cons_left_iff.mp hshows
  change ((Engine.publishEach told [f.id] : Plain Unit) s st).2 = _ at hrun
  rw [hrun]
  refine ⟨d.locate f.tree, ?_, fun hfound => ?_⟩
  · rw [show diagnostics.get f.id = _ from hreport.get]
    exact List.mem_map_of_mem (List.mem_append_left _ (List.mem_filter.mpr ⟨hd, by simp [hfile]⟩))
  · have hspan := hfound n ((Diagnostic.node_locate ..).trans hnode)
    exact hgone (Tree.isSome_spanOf?.mp (by rw [hspan]; rfl))

/-- No node is left of a file that is given a text without any. -/
theorem ids_given {text : String} (hok : (Parse.ofText text).ok = true)
    (hnodes : (Parse.ofText text).tree.nodes = []) : (f.given text (Parse.ofText text)).tree.ids = [] := by
  have hsaid := congrArg Tree.nodes (f.tree.merge_exact (Parse.ofText text).tree).1
  simp only [Tree.unnumbered, Tree.nodes_uncounted, Tree.nodes_restamp, hnodes, List.map_nil,
    List.map_eq_nil_iff] at hsaid
  rw [SourceFile.given, if_pos hok, Tree.ids]
  exact List.map_eq_nil_iff.mpr hsaid

/-- **A file is emptied after ambiguous names were looked for and before it is published.** What was told of
the file is published then, and gone when the empty file is broken and repaired. -/
theorem Reachable.stale_dropped_of_told (h : st.Reachable) (hat : st.store.at? path = some f)
    {d : Diagnostic} (hd : d ∈ st.rehash.duplicates) (hfile : d.file = f.id) {n : NodeId}
    (hnode : d.node = some n) (before : List FileId) {empty : String}
    (hclean : (Parse.ofText empty).ok = true) (hnodes : (Parse.ofText empty).tree.nodes = [])
    {mistaken : String} (hmistaken : (Parse.ofText mistaken).ok = false) (s : Surroundings) :
    let plan := st.planValidation
    let halfway := ((Engine.publishEach plan.1.2 before : Plain Unit) s plan.2).2
    let late := ((Engine.publishEach plan.1.2 [f.id] : Plain Unit) s (halfway.typed s path [empty])).2
    late.Reachable ∧
      (∃ g, late.store.at? path = some g ∧ g.id = f.id ∧ g.text = empty ∧ g.broken = false) ∧
      ((late.typed s path [mistaken]).typed s path [empty]).diagnostics.get f.id ≠
        late.diagnostics.get f.id := by
  intro plan halfway late
  have hhalfway : halfway.Reachable := (h.trans (Steps.planValidation st)).trans
    (Plain.steps (publishEach_keeps trivial _ _) s _)
  have hat' : halfway.store.at? path = some f := by
    rw [show halfway.store = plan.2.store from (Plain.Still.publishEach _ _ s plan.2).1,
      show plan.2.store = st.store from store_rehash st]
    exact hat
  set g := f.given empty (Parse.ofText empty) with hg
  have hrun : halfway.typed s path [empty] = _ := setText_loaded hat' empty s
  have hempty : (halfway.typed s path [empty]).store.at? path = some g := by
    rw [hrun, store_rehash, store_applyParse, SourceStore.give_of_some hat']
    exact hhalfway.kept.store.at?_update_self hat' (f.given_path ..) (f.given_number ..)
  have hfresh : (halfway.typed s path [empty]).dirty = false := by
    rw [hrun]
    exact Steps.dirty_rehash _
  have hgone : n ∉ g.tree.ids := by
    rw [ids_given hclean hnodes]
    exact List.not_mem_nil
  have htyped : (halfway.typed s path [empty]).Reachable := hhalfway.trans (steps_typed s path [empty])
  have hid : g.id = f.id := f.given_id ..
  obtain ⟨e, he, hstale⟩ := htyped.kept.published_stale hfresh (SourceStore.mem_of_at? hempty) hd
    (hfile.trans hid.symm) hnode hgone s
  rw [hid] at he
  have hlate : late.Reachable := htyped.trans (Plain.steps (publishEach_keeps trivial _ _) s _)
  have hlast : late.store.at? path = some g := by
    rw [show late.store = (halfway.typed s path [empty]).store from
      (Plain.Still.publishEach _ _ s _).1]
    exact hempty
  have hbroken : g.broken = false := (f.given_broken ..).trans (by rw [hclean]; rfl)
  have hsame := hlate.get_restored_eq_iff hlast hbroken (List.cons_ne_nil mistaken [])
    (fun text ht => List.mem_singleton.mp ht ▸ hmistaken) s
  rw [hid, show g.text = empty from f.given_text ..] at hsame
  exact ⟨hlate, ⟨g, hlast, hid, f.given_text .., hbroken⟩, fun h => hstale (hsame.mp h e he)⟩

/-- Two files declare one name twice each, and the second one is emptied while all files are checked. -/
theorem stale_dropped :
    let a : Path := ⟨"/p/a.ned"⟩
    let b : Path := ⟨"/p/b.ned"⟩
    let s : Surroundings := ⟨(Storage.map {}).disk, .fixed []⟩
    let first := ((({} : State).reconfigure [⟨"p", ⟨"/p"⟩, [⟨""⟩], []⟩]).loadNew a twiceText
      (Parse.ofText twiceText)).2
    let st := (first.loadNew b twiceText (Parse.ofText twiceText)).2
    let plan := st.planValidation
    let halfway := ((Engine.publishEach plan.1.2 [.source 0] : Plain Unit) s plan.2).2
    let late := ((Engine.publishEach plan.1.2 [.source 1] : Plain Unit) s (halfway.typed s b [""])).2
    late.Reachable ∧
      (∃ f, late.store.at? b = some f ∧ f.id = .source 1 ∧ f.text = "" ∧ f.broken = false) ∧
      (Parse.ofText "\x7d").ok = false ∧
      ((late.typed s b ["\x7d"]).typed s b [""]).diagnostics.get (.source 1) ≠
        late.diagnostics.get (.source 1) := by
  intro a b s first st plan halfway late
  have hfirst : first.Reachable := .tail (.single (.configured {} _)) (.loaded rfl twiceText)
  have hnew : first.store.at? b = none :=
    (SourceStore.wellFormed_empty.at?_add ..).trans ((if_neg (by decide +kernel)).trans rfl)
  have hst : st.Reachable := hfirst.tail (.loaded hnew twiceText)
  set f : SourceFile := .ofText 1 b twiceText with hf
  have hat : st.store.at? b = some f := SourceStore.at?_add_self ..
  have howner : first.registry.owner? b = some "p" := by decide +kernel
  -- What is told of the second file is told of one of its own types.
  obtain ⟨x, defs, hdefs, hmem, hxfile, hread⟩ := hst.ambiguous_twice howner rfl
  obtain ⟨d, hd, hdfile, hnode⟩ := hst.exists_mem_duplicates hdefs hmem hread
  have hmistake : (Parse.ofText "\x7d").ok = false := by decide +kernel
  have hclean : (Parse.ofText "").ok = true := by decide +kernel
  obtain ⟨hlate, hlast, hdropped⟩ := hst.stale_dropped_of_told hat hd (hdfile.trans hxfile) hnode
    [.source 0] hclean (by decide +kernel) hmistake s
  exact ⟨hlate, hlast, hmistake, hdropped⟩

end State

end NedWorkspace
