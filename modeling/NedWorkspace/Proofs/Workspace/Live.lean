/-
# Published diagnostics are about what is there

SPEC_FULL, section 4.1: diagnostics of a merged file are remapped.

A diagnostic that is published for a file is about that file, which is loaded, and if it is about a node,
the node is in the tree of the file and has the span that the diagnostic tells (`State.Live`). Definitions
are not built anew when a text moves nodes and changes nothing else, so their own spans say nothing of
that; it is the stored tree that does.

Whoever changes a tree has to move or drop the diagnostics of its file (`State.Live.applyClean`), and
whoever publishes has to look only at nodes that are there (`State.Live.publish`). The check of all files
looks for ambiguous names first and publishes them file by file later, so it matters that nobody changes a
file in between. The result is about sessions without calls back: `State.diagnostics_live`.
-/

import NedWorkspace.Proofs.Check.Duplicates
import NedWorkspace.Proofs.Check.Nodes
import NedWorkspace.Proofs.Workspace.Lookup
import NedWorkspace.Proofs.Workspace.Pass
import NedWorkspace.Proofs.Workspace.Quiet

namespace NedWorkspace

open State

namespace Diagnostic

/-- The diagnostic is about a file, and if about a node, then about one of the file's tree. -/
structure Concerns (d : Diagnostic) (f : SourceFile) : Prop where
  file : d.file = f.id
  node : ∀ n, d.node = some n → n ∈ f.tree.ids

/-- The diagnostic is about a file, and if about a node, then about one of the file's tree, at the place
where that node is. -/
structure Placed (d : Diagnostic) (f : SourceFile) : Prop where
  file : d.file = f.id
  node : ∀ n, d.node = some n → n ∈ f.tree.ids ∧ f.tree.spanOf? n = some d.span

variable {d : Diagnostic} {f g : SourceFile}

/-- A diagnostic is where its node is, as long as the tree stays. -/
theorem Placed.congr (h : d.Placed f) (hid : g.id = f.id) (htree : g.tree = f.tree) : d.Placed g :=
  ⟨h.file.trans hid.symm, htree.symm ▸ h.node⟩

/-- A diagnostic about nodes of a tree has its place after it is located there. -/
theorem Concerns.locate (h : d.Concerns f) : (d.locate f.tree).Placed f := by
  refine ⟨(file_locate ..).trans h.file, fun n hn => ?_⟩
  rw [node_locate] at hn
  have hmem := h.node n hn
  obtain ⟨span, hspan⟩ := Option.isSome_iff_exists.mp (Tree.isSome_spanOf?.mpr hmem)
  exact ⟨hmem, by rw [locate_of_some hn hspan, hspan]⟩

end Diagnostic

namespace State

/-- Every published diagnostic is about the file that it is published for, which is loaded, and if about a
node, then about one of the file's tree, at the place where that node is. -/
def Live (st : State) : Prop :=
  ∀ id, ∀ d ∈ st.diagnostics.get id, ∃ f ∈ st.store.all, f.id = id ∧ d.Placed f

variable {st s : State}

theorem live_init : Live {} :=
  fun _ _ hd => absurd hd List.not_mem_nil

/-- Diagnostics may go, and files with diagnostics stay with their trees. -/
theorem Live.mono (h : st.Live) (hdiagnostics : ∀ id, s.diagnostics.get id ⊆ st.diagnostics.get id)
    (hfiles : ∀ f ∈ st.store.all, s.diagnostics.get f.id ≠ [] →
      ∃ g ∈ s.store.all, g.id = f.id ∧ g.tree = f.tree) : s.Live := by
  intro id d hd
  obtain ⟨f, hf, rfl, hplaced⟩ := h id d (hdiagnostics id hd)
  obtain ⟨g, hg, hid, htree⟩ := hfiles f hf (List.ne_nil_of_mem hd)
  exact ⟨g, hg, hid, hplaced.congr hid htree⟩

/-- Diagnostics are live as long as neither they nor files change. -/
theorem Live.congr (h : st.Live) (hdiagnostics : s.diagnostics = st.diagnostics)
    (hstore : s.store = st.store) : s.Live :=
  h.mono (fun _ => hdiagnostics ▸ List.Subset.refl _) fun f hf _ => ⟨f, hstore ▸ hf, rfl, rfl⟩

/-- A file is replaced by one with the same tree. -/
theorem Live.update (h : st.Live) (hstore : st.store.WellFormed) {path : Path} {f g : SourceFile}
    (hat : st.store.at? path = some f) (hid : g.id = f.id) (htree : g.tree = f.tree) :
    Live { st with store := st.store.update g } := by
  refine h.mono (fun _ => List.Subset.refl _) fun x hx _ => ?_
  by_cases hne : x = f
  · exact ⟨g, hstore.mem_update_self hat (FileId.source.inj hid), hne ▸ hid, hne ▸ htree⟩
  · exact ⟨x, hstore.mem_update_of_mem hat (FileId.source.inj hid) hx hne, rfl, rfl⟩

/-- A new file has no diagnostics yet. -/
theorem Live.loadNew (h : st.Live) (hstore : st.store.WellFormed) {path : Path}
    (hat : st.store.at? path = none) (text : String) (parse : Parse) :
    (st.loadNew path text parse).2.Live := by
  refine h.mono (fun _ => List.Subset.refl _) fun f hf _ => ⟨f, ?_, rfl, rfl⟩
  exact (hstore.mem_add hat text parse).mpr (.inr hf)

/-- A text with errors leaves the tree, and so the diagnostics. -/
theorem Live.applyBroken (h : st.Live) (hstore : st.store.WellFormed) {path : Path} {f : SourceFile}
    (hat : st.store.at? path = some f) (text : String) (errors : List SyntaxError) :
    (st.applyBroken f text errors).Live := by
  have hupdated := h.update hstore hat (g := { f with text, errors, broken := true }) rfl rfl
  unfold State.applyBroken
  dsimp only
  split
  · exact hupdated
  · exact hupdated.congr rfl rfl

theorem remap_diagnostics (st : State) (f : SourceFile) :
    (st.remap f).diagnostics = (st.diagnostics.remap f.id f.tree).2 ∧ (st.remap f).store = st.store := by
  unfold remap emitIf
  dsimp only
  split <;> exact ⟨rfl, rfl⟩

/-- A file gets another tree, and its diagnostics follow. -/
theorem Live.remap (h : st.Live) (hstore : st.store.WellFormed) {path : Path} {f g : SourceFile}
    (hat : st.store.at? path = some f) (hid : g.id = f.id) (hs : s.store = st.store.update g)
    (hdiagnostics : s.diagnostics = st.diagnostics) :
    (s.remap g).Live := by
  obtain ⟨hremap, hsame⟩ := remap_diagnostics s g
  intro id d hd
  rw [hremap, hdiagnostics, DiagnosticStore.get_remap] at hd
  rw [hsame, hs]
  split at hd
  · rename_i heq
    obtain ⟨d', hd', rfl⟩ := List.mem_map.mp hd
    obtain ⟨hmem, hsurvives⟩ := List.mem_filter.mp hd'
    obtain ⟨x, _, hx, hplaced⟩ := h id d' hmem
    refine ⟨g, hstore.mem_update_self hat (FileId.source.inj hid), heq,
      Diagnostic.Concerns.locate ⟨?_, fun n hn => ?_⟩⟩
    · exact hplaced.file.trans (hx.trans heq.symm)
    · rw [DiagnosticStore.survives, hn] at hsurvives
      exact Tree.isSome_spanOf?.mp hsurvives
  · rename_i hne
    obtain ⟨x, hx, rfl, hplaced⟩ := h id d hd
    refine ⟨x, hstore.mem_update_of_mem hat (FileId.source.inj hid) hx fun heq => hne ?_, rfl, hplaced⟩
    rw [heq, hid]

/-- A text that parses takes the diagnostics along to its nodes. -/
theorem Live.applyClean (h : st.Live) (hstore : st.store.WellFormed) {path : Path} {f : SourceFile}
    (hat : st.store.at? path = some f) (text : String) (tree : Tree) :
    (st.applyClean f text tree).Live := by
  unfold State.applyClean
  dsimp only
  set now := { f with text, errors := [], broken := false, tree := (f.tree.merge tree).tree }
  split
  · have hlater := h.remap hstore hat (g := now) (s := ((({ st with
      store := st.store.update now }.emit .began).indexFile now).invalidate.emit (.treeMerged f.id)))
        rfl rfl rfl
    exact hlater.congr rfl rfl
  · have hlater := h.remap hstore hat (g := now) (s := { st with store := st.store.update now })
      rfl rfl rfl
    split
    · exact hlater.congr rfl rfl
    · exact hlater

/-- The diagnostics of a file go with it. -/
theorem Live.forget (h : st.Live) (hstore : st.store.WellFormed) (path : Path) :
    (st.forget path).2.Live := by
  unfold State.forget
  cases hat : st.store.at? path with
  | none => exact h
  | some f =>
    have hget : ∀ id, ((st.diagnostics.remove f.id).2).get id =
        if f.id = id then [] else st.diagnostics.get id := fun id =>
      DiagnosticStore.get_erase st.diagnostics f.id id
    refine h.mono (fun id => ?_) fun x hx hne => ⟨x, ?_, rfl, rfl⟩
    · change ((st.diagnostics.remove f.id).2).get id ⊆ _
      rw [hget]
      split
      · exact List.nil_subset _
      · exact List.Subset.refl _
    · refine hstore.mem_remove_iff.mpr ⟨hx, fun hpath => hne ?_⟩
      rw [hstore.at?_of_mem hx hpath] at hat
      change ((st.diagnostics.remove f.id).2).get x.id = []
      rw [hget, if_pos (congrArg SourceFile.id (Option.some.inj hat)).symm]

theorem Live.forgetEach (h : st.Live) (hkept : st.Kept) (paths : List Path) :
    (st.forgetEach paths).Live := by
  induction paths generalizing st with
  | nil => exact h
  | cons path paths ih => exact ih (h.forget hkept.store path) (hkept.forget path)

/-- Files of no project go, and their diagnostics with them. -/
theorem Live.reconfigure (h : st.Live) (hkept : st.Kept) (configs : List ProjectConfig) :
    (st.reconfigure configs).Live := by
  have howned : Live (({ st with registry := .ofConfigs configs }.assignOwners).emit .began) :=
    h.congr rfl rfl
  have hforgot := howned.forgetEach ((hkept.assignOwners configs).congr rfl rfl rfl)
    (st.store.paths.filter fun p => !(Registry.ofConfigs configs).isNedFile p)
  exact hforgot.congr rfl rfl

theorem diagnostics_rehash (st : State) : st.rehash.diagnostics = st.diagnostics := by
  unfold State.rehash
  split <;> rfl

theorem Live.rehash (h : st.Live) : st.rehash.Live :=
  h.congr (diagnostics_rehash st) (store_rehash st)

/-- **Every move of operations keeps diagnostics at their nodes.** -/
theorem Live.moves : Moves fun st s => st.Reachable ∧ st.Live → s.Reachable ∧ s.Live := by
  have hsteps := Steps.moves True
  refine ⟨fun _ h => h, fun hab hbc h => hbc (hab h), fun st events h => ?_, fun hat editors h => ?_,
    fun st path text h => ?_, fun st path h => ?_, fun st configs h => ?_, fun st h => ?_,
    fun st h => ?_⟩
  · exact ⟨h.1.trans (hsteps.events st events), h.2.congr rfl rfl⟩
  · exact ⟨h.1.trans (hsteps.edited hat editors), h.2.update h.1.kept.store hat rfl rfl⟩
  · refine ⟨h.1.trans (hsteps.applyParse st path text), ?_⟩
    unfold State.applyParse
    cases hat : st.store.at? path with
    | none => exact h.2.loadNew h.1.kept.store hat text _
    | some f =>
      dsimp only
      split
      · exact h.2.applyClean h.1.kept.store hat text _
      · exact h.2.applyBroken h.1.kept.store hat text _
  · exact ⟨h.1.trans (hsteps.forget st path), h.2.forget h.1.kept.store path⟩
  · exact ⟨h.1.trans (hsteps.reconfigure st configs), h.2.reconfigure h.1.kept configs⟩
  · exact ⟨h.1.trans (hsteps.invalidate st), h.2.congr rfl rfl⟩
  · exact ⟨h.1.trans (hsteps.rehash st), h.2.rehash⟩

/-! ### Publishing -/

/-- The definitions of a loaded file are of declarations in its tree. -/
theorem Kept.nodes_of_mem (hkept : st.Kept) {f : SourceFile} (hf : f ∈ st.store.all) {d : Definition}
    (hd : d ∈ Check.order (st.index.fileTypes f.id)) :
    d.file = f.id ∧ d.key.node = d.decl.node ∧ d.decl.ids ⊆ f.tree.ids := by
  obtain ⟨edition, tree, hfile, htree⟩ := (hkept.files f hf).indexed
  rw [DefinitionIndex.fileTypes, hfile] at hd
  obtain ⟨t, _, _, enclosing, qname, x, hx⟩ := FileScope.built_of_mem hd
  rw [← Tree.ids_of_unplaced htree]
  refine ⟨?_, ?_, ?_⟩
  · simp [Definition.file]
  · simp
  · rw [Definition.decl_buildAt]
    exact List.map_subset _ hx

/-- What is found in a file concerns the file. -/
theorem Kept.concerns_of_mem_check (hkept : st.Kept) {f : SourceFile} (hf : f ∈ st.store.all)
    (memory : Memory) {d : Diagnostic} (hd : d ∈ (st.check f memory).1) : d.Concerns f := by
  refine ⟨st.file_of_mem_check f memory d hd, ?_⟩
  unfold check at hd
  split at hd
  · exact absurd hd List.not_mem_nil
  · obtain ⟨x, hx, rfl⟩ := List.mem_map.mp hd
    intro n hn
    rw [Diagnostic.node_locate] at hn
    have habout : Check.About Problem.Local f.tree.ids
        (Check.fileFindings st.model f.id f.tree (st.expectedPackage? f.path) memory).1 :=
      (Check.about_fileFindings st.model.steady_true
        (fun d hd => ⟨trivial, (hkept.nodes_of_mem hf hd).2⟩) _ memory trivial).2
    exact (habout x hx).node n hn

/-- Diagnostics of loaded files are about nodes of their trees. -/
def Told (st : State) (told : List Diagnostic) : Prop :=
  ∀ d ∈ told, ∀ f ∈ st.store.all, d.file = f.id → d.Concerns f

/-- Dropping repetitions adds no diagnostic. -/
theorem mem_of_mem_distinct {ds : List Diagnostic} {d : Diagnostic} (h : d ∈ distinct ds) : d ∈ ds := by
  have hfold : ∀ (more found : List Diagnostic), d ∈ more.foldl (fun found d =>
      if found.any fun e => e.file = d.file ∧ e.node = d.node ∧ e.message = d.message then found
      else found ++ [d]) found → d ∈ found ∨ d ∈ more := by
    intro more
    induction more with
    | nil => exact fun _ h => .inl h
    | cons x more ih =>
      intro found h
      rcases ih _ h with h | h
      · dsimp only at h
        split at h
        · exact .inl h
        · rcases List.mem_append.mp h with h | h
          · exact .inl h
          · exact .inr (List.mem_singleton.mp h ▸ List.mem_cons_self)
      · exact .inr (List.mem_cons_of_mem x h)
  exact (hfold ds [] h).resolve_left List.not_mem_nil

/-- **The diagnostics of ambiguous names are about declarations that are there.** -/
theorem told_duplicates (h : st.Reachable) : st.rehash.Told st.rehash.duplicates := by
  intro d hd f hf hfile
  rw [store_rehash] at hf
  obtain ⟨project, _, hd⟩ := List.mem_flatMap.mp (mem_of_mem_distinct hd)
  have htable : st.current.table? project = st.rehash.registry.table? project := by
    rw [← h.coherent.model_rehash]
    rfl
  rw [← htable] at hd
  split at hd
  · rename_i table ht
    obtain rfl := h.kept.table_eq ht
    obtain ⟨e, he, hd⟩ := List.mem_flatMap.mp hd
    obtain ⟨x, other, hrival, _, rfl⟩ := Check.mem_duplicatesOf.mp hd
    have hx := hrival.mem.1
    have hxfile : x.file = f.id := hfile
    rw [ProjectTable.bearers_of_mem_duplicates he] at hx
    rcases List.mem_append.mp (List.mem_filter.mp hx).1 with hx | hx
    · rw [DefinitionIndex.builtins, DefinitionIndex.fileTypes, h.kept.builtin] at hx
      obtain ⟨t, _, rfl⟩ := List.mem_map.mp hx
      have hbuiltin : f.id = .builtin := by
        rw [← hxfile, Definition.file, Definition.build, Definition.key_buildAt]
      exact absurd hbuiltin FileId.noConfusion
    · obtain ⟨g, hg, hx⟩ := List.mem_flatMap.mp hx
      have hg := (List.mem_filter.mp hg).1
      obtain ⟨hgid, hkey, hids⟩ := h.kept.nodes_of_mem hg (Definition.mem_withInner_self hx)
      obtain rfl := h.kept.store.eq_of_id hf hg (hxfile.symm.trans hgid)
      refine ⟨hfile, fun n hn => ?_⟩
      exact Option.some.inj hn ▸ hids (hkey ▸ x.decl.node_mem_ids)
  · exact absurd hd List.not_mem_nil

/-- What validation plans to publish is live when it is planned. -/
theorem planValidation_live (h : st.Reachable ∧ st.Live) :
    (st.planValidation.2.Reachable ∧ st.planValidation.2.Live) ∧
      st.planValidation.2.Told st.planValidation.1.2 := by
  refine ⟨⟨h.1.trans (Steps.planValidation st), ?_⟩, told_duplicates h.1⟩
  have hdrop : ∀ (gone : List FileId) (ds : DiagnosticStore) (id : FileId),
      (gone.foldl (fun ds f => (ds.remove f).2) ds).get id ⊆ ds.get id := by
    intro gone ds id
    rw [DiagnosticStore.get_foldl_remove]
    split
    · exact List.nil_subset _
    · exact List.Subset.refl _
  exact h.2.rehash.mono (fun id => hdrop _ _ id) fun f hf _ => ⟨f, hf, rfl, rfl⟩

theorem publish_rehash (st : State) (id : FileId) (found : List Diagnostic) :
    st.publish id found = st.rehash.publish id found := by
  unfold State.publish
  rw [rehash_of_fresh (Steps.dirty_rehash st)]

/-- **Publishing puts diagnostics at nodes that are there.** -/
theorem Live.publish {told : List Diagnostic} (h : st.Reachable ∧ st.Live) (htold : st.Told told)
    (id : FileId) :
    let s := st.publish id (told.filter fun d => decide (d.file = id))
    (s.Reachable ∧ s.Live) ∧ s.Told told := by
  intro s
  have hs : s = st.publish id (told.filter fun d => decide (d.file = id)) := rfl
  have hreachable : s.Reachable := h.1.trans (Steps.publish st trivial id _)
  have hrehashed : st.rehash.Reachable := h.1.trans (.single (.rehashed st))
  have htold' : st.rehash.Told told := fun d hd f hf => htold d hd f (store_rehash st ▸ hf)
  rw [publish_rehash] at hs
  cases hget : st.rehash.store.get? id with
  | none =>
    have hnothing : s = st.rehash := by
      rw [hs, ← publish_rehash, State.publish]
      simp only [hget]
    exact ⟨⟨hreachable, hnothing ▸ h.2.rehash⟩, hnothing ▸ htold'⟩
  | some f =>
    obtain ⟨hf, rfl⟩ := hrehashed.kept.store.get?_eq_some_iff.mp hget
    obtain ⟨events, heq⟩ := publish_eq (Steps.dirty_rehash st) hget
      (told.filter fun d => decide (d.file = f.id))
    rw [← hs] at heq
    refine ⟨⟨hreachable, fun id d hd => ?_⟩, ?_⟩
    · rw [heq, DiagnosticStore.get_replace] at hd
      rw [heq]
      split at hd
      · rename_i hid
        obtain ⟨d', hd', rfl⟩ := List.mem_map.mp hd
        refine ⟨f, hf, hid, Diagnostic.Concerns.locate ?_⟩
        rcases List.mem_append.mp hd' with hd' | hd'
        · obtain ⟨hmem, hfile⟩ := List.mem_filter.mp hd'
          exact htold' d' hmem f hf (of_decide_eq_true hfile)
        · exact hrehashed.kept.concerns_of_mem_check hf _ hd'
      · exact h.2.rehash id d hd
    · rw [heq]
      exact htold'

/-- Checking all files keeps diagnostics at their nodes, if nobody calls back in between. -/
theorem validate_calm : Session.Calm (fun st => st.Reachable ∧ st.Live) Engine.validate := by
  refine (Session.calm_carries Live.moves).conveys.bracketed ?_
  refine Session.Calm.section_bind
    (J := fun (plan : List FileId × List Diagnostic) st => st.Told plan.2) Live.moves.events
    (fun _ _ _ htold => htold) (fun st h => planValidation_live h) fun plan => ?_
  obtain ⟨ids, told⟩ := plan
  induction ids with
  | nil => exact .pure _
  | cons id ids ih =>
    refine .bind (.locked (fun st events h => ?_) fun st h => Live.publish h.1 h.2 id) fun _ => ih
    exact ⟨Live.moves.events st events h.1, h.2⟩

/-- Whatever a session does without calls back keeps diagnostics at their nodes. -/
theorem live_calming : Calming fun st => st.Reachable ∧ st.Live := by
  refine ⟨Live.moves, fun hq st hst => ⟨?_, ?_⟩, validate_calm⟩
  · exact hst.1.trans (Steps.ask st trivial fun m => (hq m).asks)
  · exact hst.2.rehash.congr rfl rfl

/-- **Published diagnostics are about what is there.** Take any session in which no listener ever calls
back: projects and files on the disk may change, listeners may come, go and fail, and any requests may be
made, in brackets or not. Then every diagnostic that is published for a file is about that file, the file
is loaded, and if the diagnostic is about a node, the node is in the file's present tree and the diagnostic
tells the span that the node has there. -/
theorem diagnostics_live {storage : Storage} {provider : Provider} {w : World}
    (h : World.start storage provider = .ok w) {commands : List Command}
    (hquiet : ∀ c ∈ commands, c.quiet = true) : (w.after commands).state.Live :=
  (World.calm_after live_calming ⟨.refl, live_init⟩ h hquiet).2

/-- A file is written, loaded and checked while somebody listens, and its text is moved afterwards. -/
theorem diagnostics_live_moved : ∃ w : World,
    World.start (.map {}) (.fixed [⟨"p", ⟨"/p"⟩, [⟨""⟩], []⟩]) = .ok w ∧
    (w.after [.listen (some .modelChanged) 1 true none,
      .bracket [.write ⟨"/p/a.ned"⟩ "simple A extends B;", .request (.load ⟨"/p/a.ned"⟩)] false,
      .request .validate, .request (.setText ⟨"/p/a.ned"⟩ "  simple A extends B;")]).state.Live := by
  obtain ⟨w, hw⟩ : ∃ w, World.start (.map {}) (.fixed [⟨"p", ⟨"/p"⟩, [⟨""⟩], []⟩]) = .ok w := ⟨_, rfl⟩
  exact ⟨w, hw, diagnostics_live hw (by decide)⟩

end State
end NedWorkspace
