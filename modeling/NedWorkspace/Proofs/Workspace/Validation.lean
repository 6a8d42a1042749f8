/-
# Diagnostics depend on the files alone

SPEC_FULL, section 4.6: `validate_all_files`.

A workspace that has been worked on keeps trees with old numbers, remembered lookups, gathered members
and published diagnostics. When all its files are checked and none is broken, what is published for each
path is what a new workspace publishes that loads the same texts and checks them once:
`State.diagnostics_of_files`. Work here means loading, editing and forgetting files, changing the
projects, and checking; other questions may be asked about types in an order of their own, and with
circles of types that can show.

The passes of two states with the same files are compared question by question
(`State.SameFiles.pass`), and so are their ambiguous names (`State.SameFiles.duplicates`).
-/

import Mathlib
import NedWorkspace.Proofs.Check.Twin
import NedWorkspace.Proofs.Project.Registry
import NedWorkspace.Proofs.Workspace.Fresh
import NedWorkspace.Proofs.Workspace.Lockstep
import NedWorkspace.Proofs.Workspace.Pass

namespace NedWorkspace

open State Query

/-- Queries for corresponding elements correspond. -/
theorem Query.Simulates.each {α β γ δ : Type} {K : TypeKey → TypeKey → Prop} {m m' : Model}
    {R : α → β → Prop} {S : γ → δ → Prop} {f : α → Query γ} {g : β → Query δ}
    (hfg : ∀ a b, R a b → Simulates K m m' S (f a) (g b)) {as : List α} {bs : List β}
    (h : List.Forall₂ R as bs) : Simulates K m m' (List.Forall₂ S) (each f as) (each g bs) := by
  induction h with
  | nil => exact .pure .nil
  | cons hab _ ih =>
    exact .bind (hfg _ _ hab) fun _ _ hhere => .bind ih fun _ _ hmore => .pure (.cons hhere hmore)

/-- Where nothing is remembered, nothing differs. -/
theorem Memory.Cold.alike {K : TypeKey → TypeKey → Prop} {m m' : Model} {a b : Memory}
    (ha : a.Cold m.index) (hb : b.Cold m'.index) : Memory.Alike K m m' a b := by
  have hcoherent {m : Model} {a : Memory} (ha : a.Cold m.index) : a.Coherent m := by
    intro e he
    rw [ha.lookups] at he
    exact absurd he List.not_mem_nil
  refine ⟨hcoherent ha, hcoherent hb, fun hde => ?_⟩
  rw [ha.members _ hde.listed.mem_allTypes, hb.members _ hde.listed'.mem_allTypes]
  exact .none

/-- The file at a path is the one whose path is the same. -/
theorem SourceStore.WellFormed.at?_eq_find? {s : SourceStore} (hs : s.WellFormed) (path : Path) :
    s.at? path = s.all.find? fun f => compare f.path path == .eq := by
  rw [← hs.get?_byPath, ← SourceStore.values_byPath, SortedMap.get?, SortedMap.values, List.find?_map,
    ← List.head?_filter, ← List.head?_filter]
  have hsame : (s.byPath.entries.filter fun e => compare e.1 path == .eq) =
      s.byPath.entries.filter fun e => compare e.2.path path == .eq :=
    List.filter_congr fun e he => by rw [(hs.mem_byPath_iff.mp he).2]
  rw [hsame]
  rfl

namespace State

/-- What is published for the file at a path. -/
def published (st : State) (path : Path) : List Diagnostic :=
  match st.store.at? path with
  | some f => st.diagnostics.get f.id
  | none => []

/-- Files of two states that have the same path. -/
def SameFile (st fr : State) (a b : FileId) : Prop :=
  ∃ t u, PairedFile st fr a b t u

namespace SameFiles

variable {st fr : State} (h : st.SameFiles fr)
include h

/-- A file corresponds to one file only. -/
theorem sameFile_unique {a a' b b' : FileId} (ha : st.SameFile fr a a') (hb : st.SameFile fr b b') :
    a = b ↔ a' = b' := by
  obtain ⟨_, _, ha⟩ := ha
  obtain ⟨_, _, hb⟩ := hb
  exact (h.pairedFile_unique ha hb).1

/-- Messages name corresponding files alike. -/
theorem label_eq {a b : FileId} (hab : st.SameFile fr a b) :
    a.isBuiltin = b.isBuiltin ∧ st.label a = fr.label b := by
  obtain ⟨_, _, hp⟩ := hab
  cases hp with
  | builtin => exact ⟨rfl, rfl⟩
  | @source f g hf hg hpath htext hbroken =>
    refine ⟨rfl, ?_⟩
    have hlabel : ∀ {s : State} {x : SourceFile}, s.Kept → x ∈ s.store.all →
        s.label x.id = x.path.text := by
      intro s x hs hx
      change (match s.store.get? x.id with
        | some y => y.path.text
        | none => _) = _
      rw [hs.store.get?_of_mem hx]
    rw [hlabel h.kept hf, hlabel h.kept' hg, hpath]

/-! ### Ambiguous names -/

/-- Two diagnostics agree in file, node and message if the corresponding ones do. -/
theorem agree_iff {a b c d : Diagnostic}
    (hab : Diagnostic.Alike (st.SameFile fr) (st.Corresponds fr) a b)
    (hcd : Diagnostic.Alike (st.SameFile fr) (st.Corresponds fr) c d) :
    (a.file = c.file ∧ a.node = c.node ∧ a.message = c.message) ↔
      (b.file = d.file ∧ b.node = d.node ∧ b.message = d.message) := by
  rw [hab.message, hcd.message, h.sameFile_unique hab.file hcd.file]
  refine and_congr_right fun hfile' => and_congr_left fun _ => ?_
  have hfile := (h.sameFile_unique hab.file hcd.file).mpr hfile'
  have hnode := hab.node
  have hnode' := hcd.node
  rw [← hfile, ← hfile'] at hnode'
  generalize a.node = x at hnode ⊢
  generalize b.node = y at hnode ⊢
  generalize c.node = z at hnode' ⊢
  generalize d.node = w at hnode' ⊢
  cases hnode with
  | none =>
    cases hnode' with
    | none => exact iff_of_true rfl rfl
    | some _ => exact iff_of_false nofun nofun
  | some hn =>
    cases hnode' with
    | none => exact iff_of_false nofun nofun
    | some hn' =>
      have hunique := h.corresponds_unique hn hn'
      rw [TypeKey.mk.injEq, TypeKey.mk.injEq] at hunique
      rw [Option.some.injEq, Option.some.injEq]
      exact ⟨fun heq => (hunique.mp ⟨rfl, heq⟩).2, fun heq => (hunique.mpr ⟨rfl, heq⟩).2⟩

/-- Repetitions are the same on both sides. -/
theorem distinct {ds es : List Diagnostic}
    (hde : List.Forall₂ (Diagnostic.Alike (st.SameFile fr) (st.Corresponds fr)) ds es) :
    List.Forall₂ (Diagnostic.Alike (st.SameFile fr) (st.Corresponds fr)) (State.distinct ds)
      (State.distinct es) := by
  refine List.rel_foldl (fun found found' hfound a b hab => ?_) .nil hde
  have hany : (found.any fun e => decide (e.file = a.file ∧ e.node = a.node ∧ e.message = a.message)) =
      found'.any fun e => decide (e.file = b.file ∧ e.node = b.node ∧ e.message = b.message) :=
    forall₂_any hfound fun x y hxy => decide_eq_decide.mpr (h.agree_iff hxy hab)
  rw [hany]
  split
  · exact hfound
  · exact List.rel_append hfound (.cons hab .nil)

/-- **The same names are ambiguous, at corresponding nodes.** -/
theorem duplicates (hst : st.Coherent) (hfr : fr.Coherent) :
    List.Forall₂ (Diagnostic.Alike (st.SameFile fr) (st.Corresponds fr)) st.rehash.duplicates
      fr.rehash.duplicates := by
  have hnames : st.rehash.registry.names = fr.rehash.registry.names := by
    unfold Registry.names
    rw [registry_rehash, registry_rehash, h.projects]
  unfold State.duplicates
  rw [hnames, label_rehash, label_rehash]
  refine h.distinct (forall₂_flatMap (R := Eq) (List.forall₂_same.mpr fun _ _ => rfl) ?_)
  rintro project _ rfl
  have htables := h.twins.tables project
  rw [← hst.model_rehash, ← hfr.model_rehash] at htables
  change Option.Rel _ (st.rehash.registry.table? project) (fr.rehash.registry.table? project)
    at htables
  generalize st.rehash.registry.table? project = t at htables ⊢
  generalize fr.rehash.registry.table? project = u at htables ⊢
  cases htables with
  | none => exact .nil
  | some htable =>
    exact Check.twin_duplicates (fun a b hab => h.label_eq hab) (fun _ _ ⟨v, w, hp, _⟩ => ⟨v, w, hp⟩)
      htable

/-! ### Passes -/

section Whole

variable (hst : st.Coherent) (hfr : fr.Coherent) (hwhole : ∀ f ∈ st.store.all, f.broken = false)
include hwhole

/-- With no broken file, the same packages are declared at the same paths. -/
theorem packageAt?_eq : st.store.packageAt? = fr.store.packageAt? := by
  funext path
  have hat := forall₂_find? h.forall₂_files (p := fun f => compare f.path path == .eq)
    (q := fun g => compare g.path path == .eq) fun f g hfg => by rw [hfg.2.2.1]
  unfold SourceStore.packageAt?
  rw [h.kept.store.at?_eq_find?, h.kept'.store.at?_eq_find?]
  generalize st.store.all.find? _ = x at hat ⊢
  generalize fr.store.all.find? _ = y at hat ⊢
  cases hat with
  | none => rfl
  | some hfg =>
    obtain ⟨hf, hg, hpath, htext⟩ := hfg
    exact (h.tree_alike (.source hf hg hpath htext (hwhole _ hf))).packageName?

/-- The same package is expected at a path in a fresh workspace. -/
theorem expectedPackage?_eq (path : Path) :
    st.rehash.expectedPackage? path = fr.rehash.expectedPackage? path := by
  have hprojects : st.rehash.registry.projects = fr.rehash.registry.projects := by
    rw [registry_rehash, registry_rehash, h.projects]
  unfold State.expectedPackage?
  rw [store_rehash, store_rehash]
  exact Registry.expectedPackage?_congr hprojects path (h.packageAt?_eq hwhole)

include hst hfr

/-- Corresponding files have the same diagnostics at corresponding nodes. -/
theorem check {f g : SourceFile} (hf : f ∈ st.store.all) (hg : g ∈ fr.store.all)
    (hpath : f.path = g.path) (htext : f.text = g.text) :
    Simulates (st.Corresponds fr) st.current fr.current
      (List.Forall₂ (Diagnostic.Alike (st.SameFile fr) (st.Corresponds fr)))
      (st.rehash.check f) (fr.rehash.check g) := by
  have hp := PairedFile.source hf hg hpath htext (hwhole f hf)
  have hproject : st.index.projectOf? f.id = fr.index.projectOf? g.id := by
    obtain ⟨_, _, _, _, project, hfile, hfile', _, _⟩ := h.indexed hp
    unfold DefinitionIndex.projectOf?
    rw [hfile, hfile']
    rfl
  unfold State.check
  rw [hst.model_rehash, hfr.model_rehash, index_rehash, index_rehash, hproject,
    h.broken_eq hf hg htext, h.expectedPackage?_eq hwhole, hpath]
  split
  · exact .pure .nil
  · exact Check.twin_file h.twins ⟨_, _, hp⟩ (h.tree_alike hp) (fun _ _ => h.spanOf?_eq hp)
      (h.allTypes hp _ _) _

/-- **Passes that begin with nothing remembered find the same in corresponding files.** -/
theorem pass {a b : Memory} (ha : a.Cold st.index) (hb : b.Cold fr.index) : List.Forall₂
    (List.Forall₂ (Diagnostic.Alike (st.SameFile fr) (st.Corresponds fr)))
    (each st.rehash.check st.store.all a).1 (each fr.rehash.check fr.store.all b).1 := by
  have hpass := Simulates.each (fun f g hfg => h.check hst hfr hwhole hfg.1 hfg.2.1 hfg.2.2.1
    hfg.2.2.2) h.forall₂_files
  exact (hpass a b (ha.alike hb)).1

/-- What is told of corresponding files and what is found in them is published alike. -/
theorem published_file {f g : SourceFile} (hf : f ∈ st.store.all) (hg : g ∈ fr.store.all)
    (hpath : f.path = g.path) (htext : f.text = g.text) {found found' : List Diagnostic}
    (hfound : List.Forall₂ (Diagnostic.Alike (st.SameFile fr) (st.Corresponds fr)) found found')
    (hfile : ∀ d ∈ found, d.file = f.id) :
    (((st.rehash.duplicates.filter fun d => decide (d.file = f.id)) ++ found).map
        (Diagnostic.locate f.tree)).map Diagnostic.unnumbered =
      (((fr.rehash.duplicates.filter fun d => decide (d.file = g.id)) ++ found').map
        (Diagnostic.locate g.tree)).map Diagnostic.unnumbered := by
  have hp := PairedFile.source hf hg hpath htext (hwhole f hf)
  have htold := forall₂_filter (h.duplicates hst hfr) (p := fun d => decide (d.file = f.id))
    (q := fun d => decide (d.file = g.id)) fun a b hab =>
      decide_eq_decide.mpr (h.sameFile_unique hab.file ⟨_, _, hp⟩)
  have hall : ∀ d ∈ (st.rehash.duplicates.filter fun d => decide (d.file = f.id)) ++ found,
      d.file = f.id := by
    intro d hd
    rcases List.mem_append.mp hd with hd | hd
    · exact of_decide_eq_true (List.mem_filter.mp hd).2
    · exact hfile d hd
  rw [List.map_map, List.map_map]
  refine forall₂_map_eq (forall₂_mem (List.rel_append htold hfound)) ?_
  rintro a b ⟨ha, _, hab⟩
  have hfile := hall a ha
  have hfile' := (h.sameFile_unique hab.file ⟨_, _, hp⟩).mp hfile
  refine (hab.locate fun n n' hn => ?_).unnumbered
  rw [hfile, hfile'] at hn
  exact h.spanOf?_eq hp hn

/-- Checking all files publishes the same for every path. -/
theorem published_validate (hsettled : st.Settled) (hsettled' : fr.Settled)
    (s s' : Surroundings) (path : Path) :
    (((Engine.validate : Plain Unit) s st).2.published path).map Diagnostic.unnumbered =
      (((Engine.validate : Plain Unit) s' fr).2.published path).map Diagnostic.unnumbered := by
  obtain ⟨a, _, diagnostics, ha, hv, hfound⟩ := validate_published h.kept hst hsettled s
  obtain ⟨b, _, diagnostics', hb, hv', hfound'⟩ := validate_published h.kept' hfr hsettled' s'
  have hfile := forall₂_each (P := fun f (found : List Diagnostic) => ∀ d ∈ found, d.file = f.id)
    st.rehash.file_of_mem_check st.store.all a
  have hpublished : List.Forall₂ (fun f g => f.path = g.path ∧
      (diagnostics.get f.id).map Diagnostic.unnumbered =
        (diagnostics'.get g.id).map Diagnostic.unnumbered) st.store.all fr.store.all := by
    refine forall₂_square h.forall₂_files (List.Forall₂.mp (fun _ _ => And.intro) hfound hfile) hfound'
      (h.pass hst hfr hwhole ha hb) ?_
    rintro f g found found' ⟨hf, hg, hpath, htext⟩ ⟨hget, hown⟩ hget' hfg
    refine ⟨hpath, ?_⟩
    rw [hget, hget']
    exact h.published_file hst hfr hwhole hf hg hpath htext hfg hown
  have hat := forall₂_find? hpublished (p := fun f => compare f.path path == .eq)
    (q := fun g => compare g.path path == .eq) fun f g hfg => by rw [hfg.1]
  rw [hv, hv']
  unfold State.published
  dsimp only
  rw [store_rehash, store_rehash, h.kept.store.at?_eq_find?, h.kept'.store.at?_eq_find?]
  generalize st.store.all.find? _ = x at hat ⊢
  generalize fr.store.all.find? _ = y at hat ⊢
  cases hat with
  | none => rfl
  | some hfg => exact hfg.2

end Whole

end SameFiles

end State

/-! ### Work on files -/

/-- Requests that load, edit or forget files, change the projects, or check. -/
def Request.works : Request → Bool
  | .connect _ | .disconnect _ | .setText _ _ | .load _ | .forget _ | .loadMissing | .applyChanges _
  | .reconfigure | .validate => true
  | _ => false

/-- Work other than checking asks nothing about types. -/
theorem Engine.work_keeps {m : Type → Type} [Engine m] [Stepwise m] {asking : Prop} {r : Request}
    (h : r.works = true) : r = .validate ∨ Stepwise.Keeps asking (carryOut r : m Answer) := by
  have hdone : ∀ {β : Type} {x : m β} {g : β → Answer}, Stepwise.Keeps asking x →
      Stepwise.Keeps asking (do return g (← x) : m Answer) :=
    fun hx => Stepwise.andThen hx fun _ => Stepwise.done _
  cases r with
  | validate => exact .inl rfl
  | connect path => exact .inr (hdone (connect_keeps path))
  | disconnect path => exact .inr (hdone (disconnect_keeps path))
  | setText path text => exact .inr (hdone (setText_keeps path text))
  | load path => exact .inr (hdone (load_keeps path))
  | forget path => exact .inr (hdone (forget_keeps path))
  | loadMissing => exact .inr (hdone loadMissing_keeps)
  | applyChanges changes => exact .inr (hdone (applyChanges_keeps changes))
  | reconfigure => exact .inr (hdone reconfigure_keeps)
  | _ => exact absurd h (by simp [Request.works])

namespace State

/-- A state after requests that nobody listens to, each with the surroundings that it meets. -/
def after (st : State) (log : List (Surroundings × Request)) : State :=
  log.foldl (fun st e => ((Engine.carryOut e.2 : Plain Answer) e.1 st).2) st

/-- One more request comes last. -/
theorem after_append (st : State) (log : List (Surroundings × Request)) (s : Surroundings)
    (r : Request) : st.after (log ++ [(s, r)]) =
      ((Engine.carryOut r : Plain Answer) s (st.after log)).2 := by
  rw [after, List.foldl_append]
  rfl

/-- What work keeps. -/
structure Worked (st : State) : Prop where
  kept : st.Kept
  coherent : st.Coherent
  settled : st.Settled

theorem worked_init : Worked {} := ⟨kept_init, coherent_init, settled_init⟩

/-- Steps that ask for nothing leave what has been worked out. -/
theorem Worked.steps {st s : State} (h : st.Worked) (hs : Steps False st s) : s.Worked := by
  refine Lasting.steps (I := Worked) (fun x y hxy hx => ?_) hs h
  exact ⟨hx.kept.step hxy, hx.coherent.step hxy hx.kept, hx.settled.step hxy hx.kept hx.coherent⟩

/-- Validation works out everything anew. -/
theorem Worked.validate {st : State} (h : st.Worked) (s : Surroundings) :
    ((Engine.validate : Plain Unit) s st).2.Worked := by
  have hsteps : Steps True st ((Engine.validate : Plain Unit) s st).2 :=
    Plain.steps (Engine.validate_keeps trivial) s st
  have hboth := Lasting.steps (I := fun x => x.Kept ∧ x.Coherent)
    (fun x y hxy hx => ⟨hx.1.step hxy, hx.2.step hxy hx.1⟩) hsteps ⟨h.kept, h.coherent⟩
  refine ⟨hboth.1, hboth.2, fun _ => ?_⟩
  obtain ⟨cold, _, _, hcold, hv, _⟩ := validate_published h.kept h.coherent h.settled s
  rw [hv]
  exact ⟨cold, (index_rehash st).symm ▸ hcold, .inr rfl⟩

/-- A log of requests that work on the state leaves it worked. -/
theorem Worked.after {st : State} (h : st.Worked) {log : List (Surroundings × Request)}
    (hlog : ∀ e ∈ log, e.2.works = true) : (st.after log).Worked := by
  induction log generalizing st with
  | nil => exact h
  | cons e log ih =>
    obtain ⟨s, r⟩ := e
    refine ih ?_ fun e he => hlog e (List.mem_cons_of_mem _ he)
    rcases Engine.work_keeps (m := Plain) (hlog (s, r) List.mem_cons_self) with hr | hkeeps
    · obtain rfl : r = .validate := hr
      exact h.validate s
    · exact h.steps (Plain.steps hkeeps s st)

/-- **What is published depends on the files alone.** Take any work on a workspace, whatever becomes of
the disk and of the source of projects in between, that ends with a check of all files and leaves none of
them broken. Its state is configured by some list of projects. Whatever list gives these projects, in
whatever order a new workspace with that list loads the texts that are loaded then, each once: when it
checks all files once, the diagnostics of every path are the same and in the same order, the numbers of
files and nodes apart. -/
theorem diagnostics_of_files {log : List (Surroundings × Request)}
    (hlog : ∀ e ∈ log, e.2.works = true) (surroundings : Surroundings)
    (hwhole : ∀ f ∈ (({} : State).after (log ++ [(surroundings, .validate)])).store.all,
      f.broken = false) :
    let st := ({} : State).after (log ++ [(surroundings, .validate)])
    (∃ configs, st.registry.projects = (Registry.ofConfigs configs).projects) ∧
    ∀ (configs : List ProjectConfig) (disk : Disk) (loaded : List (Path × String))
      (surroundings' : Surroundings),
      st.registry.projects = (Registry.ofConfigs configs).projects →
      loaded.Perm st.store.texts.entries → (∀ e ∈ loaded, disk.read e.1 = .ok e.2) →
      let fr := (State.fresh configs disk (loaded.map Prod.fst)).after [(surroundings', .validate)]
      fr.store.texts = st.store.texts ∧ fr.registry.projects = st.registry.projects ∧
        ∀ path, (st.published path).map Diagnostic.unnumbered =
          (fr.published path).map Diagnostic.unnumbered := by
  intro st
  have hbefore : (({} : State).after log).Worked := worked_init.after hlog
  set before := ({} : State).after log with hdef
  have hst : st = ((Engine.validate : Plain Unit) surroundings before).2 :=
    after_append {} log surroundings .validate
  have hworked := hbefore.validate surroundings
  obtain ⟨hstore, hprojects⟩ := Plain.Still.validate surroundings before
  rw [← hst] at hworked hstore hprojects
  refine ⟨hworked.kept.configured, fun configs disk loaded surroundings' hconfigs hloaded hdisk => ?_⟩
  rw [hprojects] at hconfigs
  rw [hstore] at hloaded
  have hfresh : (State.fresh configs disk (loaded.map Prod.fst)).Worked :=
    worked_init.steps (steps_fresh configs disk (loaded.map Prod.fst))
  have hsame := hbefore.kept.sameFiles_fresh hconfigs hloaded hdisk
  have hunbroken : ∀ f ∈ before.store.all, f.broken = false :=
    fun f hf => hwhole f (show f ∈ st.store.all from hstore ▸ hf)
  obtain ⟨hstore', hprojects'⟩ := Plain.Still.validate surroundings'
    (State.fresh configs disk (loaded.map Prod.fst))
  refine ⟨?_, ?_, fun path => ?_⟩
  · change ((Engine.validate : Plain Unit) surroundings' _).2.store.texts = _
    rw [hstore', hstore]
    exact congrArg SortedMap.mk hsame.files.symm
  · change ((Engine.validate : Plain Unit) surroundings' _).2.registry.projects = _
    rw [hprojects', hprojects]
    exact hsame.projects.symm
  · rw [hst]
    exact hsame.published_validate hbefore.coherent hfresh.coherent hunbroken hbefore.settled
      hfresh.settled surroundings surroundings' path

/-- A file is loaded, forgotten and loaded again after another, with a check in between. -/
theorem diagnostics_of_files_reloaded :
    let s : Surroundings := ⟨⟨fun _ => true, fun p => .ok (if p.text = "/p/a.ned" then "simple A {}"
      else "simple B extends A {}"), fun _ => .ok []⟩, .fixed [⟨"p", ⟨"/p"⟩, [⟨""⟩], []⟩]⟩
    let st := ({} : State).after ([(s, .reconfigure), (s, .load ⟨"/p/a.ned"⟩),
      (s, .forget ⟨"/p/a.ned"⟩), (s, .validate), (s, .load ⟨"/p/b.ned"⟩), (s, .load ⟨"/p/a.ned"⟩)]
        ++ [(s, .validate)])
    st.store.all.map SourceFile.text = ["simple A {}", "simple B extends A {}"] ∧
    ∃ configs, st.registry.projects = (Registry.ofConfigs configs).projects ∧
      ∀ path, (st.published path).map Diagnostic.unnumbered =
        (((State.fresh configs st.store.texts.disk (st.store.texts.entries.map Prod.fst)).after
          [(s, .validate)]).published path).map Diagnostic.unnumbered := by
  intro s st
  have hworks : ∀ e ∈ [(s, Request.reconfigure), (s, .load ⟨"/p/a.ned"⟩), (s, .forget ⟨"/p/a.ned"⟩),
      (s, .validate), (s, .load ⟨"/p/b.ned"⟩), (s, .load ⟨"/p/a.ned"⟩)], e.2.works = true := by
    simp [Request.works]
  set before := ({} : State).after [(s, .reconfigure), (s, .load ⟨"/p/a.ned"⟩),
    (s, .forget ⟨"/p/a.ned"⟩), (s, .validate), (s, .load ⟨"/p/b.ned"⟩), (s, .load ⟨"/p/a.ned"⟩)]
  have hbefore : before.Worked := worked_init.after hworks
  have hvalidated : st = ((Engine.validate : Plain Unit) s before).2 := after_append {} _ s .validate
  have hst : st.Worked := hvalidated ▸ hbefore.validate s
  have hstore : st.store = before.store := hvalidated ▸ (Plain.Still.validate s before).1
  have htexts : st.store.all.map SourceFile.text = ["simple A {}", "simple B extends A {}"] := by
    rw [hstore]
    decide +kernel
  have hparsed : ∀ text ∈ ["simple A {}", "simple B extends A {}"], (Parse.ofText text).ok = true := by
    intro text htext
    rcases List.mem_pair.mp htext with rfl | rfl
    · cbv
    · cbv
  have hwhole : ∀ f ∈ st.store.all, f.broken = false := by
    intro f hf
    rw [(hst.kept.files f hf).broken, hparsed f.text (htexts ▸ List.mem_map_of_mem hf)]
    rfl
  obtain ⟨⟨configs, hconfigs⟩, hsame⟩ := diagnostics_of_files hworks s hwhole
  refine ⟨htexts, configs, hconfigs, ?_⟩
  exact (hsame configs _ _ s hconfigs (.refl _) fun e he =>
    FileMap.disk_read_of_mem hst.kept.store.ascending_texts he).2.2

end State

end NedWorkspace
