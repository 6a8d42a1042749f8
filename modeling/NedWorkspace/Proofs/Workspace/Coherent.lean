/-
# The derived data of a state

SPEC_FULL, section 3 (LookupCache) and section 8 (after `invalidate` the cache is empty).

Tables, remembered lookups and gathered members are derived from the files. `State.Coherent` says when
they may be relied on: while the state is not dirty the tables are those that would be computed now, and
every remembered lookup is what the rule gives; while it is dirty no lookup is remembered and no
definition of the index has members. A step that
changes what the derived data depend on therefore has to make the state dirty, and every step does
(`State.Coherent.step`).

The main result is `State.caches_coherent`.
-/

import NedWorkspace.Proofs.Resolve.Forgotten
import NedWorkspace.Proofs.Workspace.Kept

namespace NedWorkspace

namespace State

/-- The definitions, and the tables that would be computed from them now. -/
def current (st : State) : Model :=
  ⟨st.index, (st.registry.rehash st.index st.participants).tables⟩

/-- The derived data are up to date or known not to be. -/
structure Coherent (st : State) : Prop where
  tables : st.dirty = false → st.model = st.current
  forgotten : st.dirty = true → st.memory.Cold st.index
  remembered : st.dirty = false → st.memory.Coherent st.model

variable {st s : State}

/-- Nothing is remembered at the beginning. -/
theorem coherent_init : Coherent {} :=
  ⟨nofun, fun _ => Memory.cold_empty _ 0, nofun⟩

/-- Marking derived data as stale forgets them, definition by definition. -/
theorem cold_invalidate (st : State) : st.invalidate.memory.Cold st.index :=
  Memory.cold_forgetMembers _ st.index rfl

/-- Which files take part is a matter of their ids, whether they are broken, and their owners. -/
theorem participants_eq (st : State) : st.participants =
    ((st.store.all.map fun f => (f.id, f.broken)).filter fun e => !e.2).filterMap fun e =>
      (st.index.projectOf? e.1).map fun project => (e.1, project) := by
  unfold participants
  rw [List.filter_map, List.filterMap_map]
  rfl

/-- What a step can do to the derived data and to what they depend on. -/
inductive Effect (asking : Prop) (st s : State) : Prop
  | untouched (hindex : s.index = st.index) (hregistry : s.registry = st.registry)
      (hmemory : s.memory = st.memory) (hdirty : s.dirty = st.dirty)
      (hfiles : s.store.all.map (fun f => (f.id, f.broken)) =
        st.store.all.map fun f => (f.id, f.broken)) : Effect asking st s
  | stale (hdirty : s.dirty = true) (hcold : s.memory.Cold s.index) : Effect asking st s
  | rehashed (heq : s = st.rehash) : Effect asking st s
  | asked (hasking : asking) (hdirty : st.dirty = false) {memory : Memory}
      (hm : Memory.Asked st.model st.memory memory) (heq : s = { st with memory }) :
      Effect asking st s

/-- A file that keeps its number, and stays broken or stays right, leaves the model as it is. -/
theorem effect_update {asking : Prop} (hkept : st.Kept) {path : Path} {f g : SourceFile}
    (hat : st.store.at? path = some f) (hnumber : g.number = f.number)
    (hbroken : g.broken = f.broken) : Effect asking st { st with store := st.store.update g } := by
  have hid : g.id = f.id := congrArg FileId.source hnumber
  exact .untouched rfl rfl rfl rfl
    (hkept.store.map_all_update hat hnumber (Prod.ext hid hbroken))

/-- A text that parses drops what was remembered where it changes types. -/
theorem effect_applyClean {asking : Prop} (hkept : st.Kept) {path : Path} {f : SourceFile}
    (hat : st.store.at? path = some f) (text : String) (tree : Tree) :
    Effect asking st (st.applyClean f text tree) := by
  unfold State.applyClean
  dsimp only
  set now := { f with text, errors := [], broken := false, tree := (f.tree.merge tree).tree }
  split
  · obtain ⟨events, diagnostics, heq⟩ := remap_eq (((({ st with
      store := st.store.update now }.emit .began).indexFile now).invalidate).emit
        (.treeMerged f.id)) now
    rw [heq]
    exact .stale rfl (cold_invalidate (({ st with store := st.store.update now }.emit .began).indexFile now))
  · obtain ⟨events, diagnostics, heq⟩ := remap_eq { st with store := st.store.update now } now
    rw [heq]
    split
    · exact .stale rfl (cold_invalidate { st with store := st.store.update now })
    · -- A file that was not broken has got a text that says the same.
      rename_i hbroken
      have hsame : now.broken = f.broken := (Bool.eq_false_of_not_eq_true hbroken).symm
      exact .untouched rfl rfl rfl rfl
        (hkept.store.map_all_update hat (g := now) rfl (Prod.ext rfl hsame))

/-- **Whatever changes what the derived data depend on marks them as stale.** -/
theorem Step.effect {asking : Prop} (hs : Step asking st s) (hkept : st.Kept) :
    Effect asking st s := by
  cases hs with
  | noted events diagnostics => exact .untouched rfl rfl rfl rfl rfl
  | edited hat editors => exact effect_update hkept hat rfl rfl
  | @loaded path hat text =>
    exact .stale rfl (cold_invalidate ({ st with
      store := (st.store.add path text (Parse.ofText text)).2 }.indexFile
        (st.store.add path text (Parse.ofText text)).1))
  | @broken path f hat text hok =>
    unfold State.applyBroken
    dsimp only
    split
    · rename_i hbroken
      exact effect_update hkept hat rfl hbroken.symm
    · exact .stale rfl (cold_invalidate { st with store := st.store.update { f with
        text, errors := (Parse.ofText text).errors, broken := true } })
  | cleaned hat hok => exact effect_applyClean hkept hat _ _
  | forgot path =>
    unfold State.forget
    cases st.store.at? path with
    | none => exact .untouched rfl rfl rfl rfl rfl
    | some f => exact .stale rfl (cold_invalidate { st with index := st.index.removeFile f.id })
  | configured configs =>
    set moved := ({ st with registry := .ofConfigs configs } : State).assignOwners
    exact .stale rfl (cold_invalidate (((moved.emit .began).forgetEach
      (moved.store.paths.filter fun p => !moved.registry.isNedFile p)).emit .ended))
  | invalidated => exact .stale rfl (cold_invalidate st)
  | rehashed => exact .rehashed rfl
  | asked hasking hdirty hm => exact .asked hasking hdirty hm rfl

/-- A state that differs in nothing that the derived data depend on. -/
theorem Coherent.congr (h : st.Coherent) (hindex : s.index = st.index)
    (hregistry : s.registry = st.registry) (hmemory : s.memory = st.memory)
    (hdirty : s.dirty = st.dirty) (hfiles : s.store.all.map (fun f => (f.id, f.broken)) =
      st.store.all.map fun f => (f.id, f.broken)) : s.Coherent := by
  have hmodel : s.model = st.model := by rw [model, model, hindex, hregistry]
  have hcurrent : s.current = st.current := by
    rw [current, current, participants_eq, participants_eq, hindex, hregistry, hfiles]
  refine ⟨fun hd => ?_, fun hd => ?_, fun hd => ?_⟩
  · rw [hmodel, hcurrent]
    exact h.tables (hdirty ▸ hd)
  · rw [hmemory, hindex]
    exact h.forgotten (hdirty ▸ hd)
  · rw [hmemory, hmodel]
    exact h.remembered (hdirty ▸ hd)

/-- A rebuild of the tables leaves what is remembered right. -/
theorem Coherent.rehash (h : st.Coherent) : st.rehash.Coherent := by
  by_cases hdirty : st.dirty = true
  · rw [State.rehash, if_pos hdirty]
    refine ⟨fun _ => rfl, nofun, fun _ e he => ?_⟩
    rw [show st.memory.lookups.entries = {} from (h.forgotten hdirty).lookups] at he
    exact absurd he (by simp)
  · rw [State.rehash, if_neg hdirty]
    exact h

/-- **Every step keeps the derived data up to date or marks them as stale.** -/
theorem Coherent.step {asking : Prop} (hs : Step asking st s) (hkept : st.Kept) (h : st.Coherent) :
    s.Coherent := by
  cases hs.effect hkept with
  | untouched hindex hregistry hmemory hdirty hfiles =>
    exact h.congr hindex hregistry hmemory hdirty hfiles
  | stale hdirty hcold =>
    have hnot : s.dirty ≠ false := by simp [hdirty]
    exact ⟨fun hd => absurd hd hnot, fun _ => hcold, fun hd => absurd hd hnot⟩
  | rehashed heq =>
    rw [heq]
    exact h.rehash
  | asked _ hdirty hm heq =>
    rw [heq]
    exact ⟨h.tables, fun hd => absurd (hdirty.symm.trans hd) (by simp),
      fun _ => hm.coherent (h.remembered hdirty)⟩

/-- Whatever happened, what is remembered is right. -/
theorem Reachable.coherent (h : st.Reachable) : st.Coherent := by
  have hboth : st.Kept ∧ st.Coherent := h.invariant (I := fun st => st.Kept ∧ st.Coherent)
    ⟨kept_init, coherent_init⟩ fun _ _ hs hst => ⟨hst.1.step hs, hst.2.step hs hst.1⟩
  exact hboth.2

/-- After a rehash the tables are those that would be computed from the state before it. -/
theorem Coherent.model_rehash (h : st.Coherent) : st.rehash.model = st.current := by
  by_cases hdirty : st.dirty = true
  · rw [State.rehash, if_pos hdirty]
    rfl
  · rw [State.rehash, if_neg hdirty]
    exact h.tables (by simpa using hdirty)

/-- A lookup answers what the rule gives for tables computed at that moment. -/
theorem Coherent.lookup (h : st.Coherent) (surroundings : Surroundings) (name : String)
    (context : LookupContext) :
    ((Engine.ask fun m => m.lookup name context : Plain (Option Definition)) surroundings st).1 =
      st.current.denoted name context := by
  have hanswer := (h.rehash.remembered (Steps.dirty_rehash st)).lookup name context
  rw [← h.model_rehash]
  exact hanswer

/-- **What is remembered can be relied on in every reachable state.** All states that a session leaves
are reachable, as are those between the sections of its operations. In a reachable state that is dirty
no lookup is remembered and no definition has gathered members, be it listed in a file, inner and built-in
ones included, or found by a key; in one that is not, every remembered lookup, also one that found
nothing, is what the rule gives for the index and the tables as they are. So a lookup, whatever is
remembered, answers what the rule gives for tables computed at that moment. -/
theorem caches_coherent :
    (∀ (storage : Storage) (provider : Provider) (w : World) (commands : List Command),
      World.start storage provider = .ok w → (w.after commands).state.Reachable) ∧
    ∀ st : State, st.Reachable →
      (st.dirty = true → st.memory.lookups.entries.entries = [] ∧
        (∀ d ∈ st.index.allTypes, st.memory.members.get? d.id = none) ∧
        ∀ key d, st.index.get? key = some d → st.memory.members.get? d.id = none) ∧
      (st.dirty = false → ∀ e ∈ st.memory.lookups.entries.entries,
        e.2 = st.model.resolve e.1.2.2 e.1.2.1 e.1.1) ∧
      ∀ (surroundings : Surroundings) (name : String) (context : LookupContext),
        ((Engine.ask fun m => m.lookup name context : Plain (Option Definition)) surroundings st).1 =
          st.current.denoted name context := by
  refine ⟨fun _ _ w commands h => World.reachable_after h commands, fun st hst => ?_⟩
  have hcoherent := hst.coherent
  refine ⟨fun hdirty => ?_, hcoherent.remembered, fun surroundings name context =>
    hcoherent.lookup surroundings name context⟩
  have hcold := hcoherent.forgotten hdirty
  exact ⟨by rw [hcold.lookups], hcold.members, fun _ d hget =>
    hcold.members d (hst.kept.index.mem_allTypes hget)⟩

end State

end NedWorkspace
