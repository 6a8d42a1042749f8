/-
# What happens to the files

Of all that operations do to a state, this is what they do to the loaded files, told path by path: which
file is found at a path after a text was applied, a file was forgotten, or the projects changed. At all
other paths there is what was there before. Nothing here depends on the index, on what is remembered, or
on diagnostics.

| operation | at a path that is concerned |
| --- | --- |
| a text is applied | the file, new or with the text given (`SourceFile.given`) |
| the path is forgotten | nothing |
| the projects change | nothing, unless the path is that of a NED file now |
-/

import NedWorkspace.Proofs.Project.Registry
import NedWorkspace.Proofs.Syntax.Innermost
import NedWorkspace.Proofs.Workspace.Kept

namespace NedWorkspace

open Std Engine

namespace SourceFile

/-- The file that is loaded from a text. -/
def ofText (number : Nat) (path : Path) (text : String) : SourceFile :=
  { number, path, text, tree := (Parse.ofText text).tree, errors := (Parse.ofText text).errors,
    broken := !(Parse.ofText text).ok }

/-- A loaded file that is given a text. -/
def given (f : SourceFile) (text : String) (parse : Parse) : SourceFile :=
  if parse.ok then
    { f with text, errors := [], broken := false, tree := (f.tree.merge parse.tree).tree }
  else { f with text, errors := parse.errors, broken := true }

variable (f : SourceFile) (text : String) (parse : Parse)

@[simp] theorem given_number : (f.given text parse).number = f.number := by
  unfold given
  split <;> rfl

@[simp] theorem given_id : (f.given text parse).id = f.id :=
  congrArg FileId.source (f.given_number text parse)

@[simp] theorem given_path : (f.given text parse).path = f.path := by
  unfold given
  split <;> rfl

@[simp] theorem given_editors : (f.given text parse).editors = f.editors := by
  unfold given
  split <;> rfl

@[simp] theorem given_text : (f.given text parse).text = text := by
  unfold given
  split <;> rfl

@[simp] theorem given_broken : (f.given text parse).broken = !parse.ok := by
  unfold given
  split <;> simp_all

@[simp] theorem given_errors :
    (f.given text parse).errors = if parse.ok then [] else parse.errors := by
  unfold given
  split <;> rfl

end SourceFile

namespace SourceStore

variable {s : SourceStore} {f g : SourceFile}

/-- The file at its path after it was replaced. -/
theorem WellFormed.at?_update_self (hs : s.WellFormed) {path : Path} (h : s.at? path = some f)
    (hpath : g.path = f.path) (hnumber : g.number = f.number) :
    (s.update g).at? path = some g := by
  rw [hs.at?_update h hpath hnumber, if_pos ReflOrd.compare_self]

/-- The files after the file at a path was given a text; it is loaded if it was not. -/
def give (s : SourceStore) (path : Path) (text : String) (parse : Parse) : SourceStore :=
  match s.at? path with
  | none => (s.add path text parse).2
  | some f => s.update (f.given text parse)

/-- A text for a new path adds a file. -/
theorem give_of_none {path : Path} (h : s.at? path = none) (text : String) (parse : Parse) :
    s.give path text parse = (s.add path text parse).2 := by
  rw [give, h]

/-- A text for a known path is given to its file. -/
theorem give_of_some {path : Path} (h : s.at? path = some f) (text : String) (parse : Parse) :
    s.give path text parse = s.update (f.given text parse) := by
  rw [give, h]

/-- A text given to a store leaves it well formed. -/
theorem WellFormed.give (hs : s.WellFormed) (path : Path) (text : String) (parse : Parse) :
    (s.give path text parse).WellFormed := by
  cases hat : s.at? path with
  | none =>
    rw [give_of_none hat]
    exact hs.add hat text parse
  | some f =>
    rw [give_of_some hat]
    exact hs.update hat (f.given_path text parse) (f.given_number text parse)

/-- The file at a path after a text was given; at all other paths there is what was there before. -/
theorem WellFormed.at?_give (hs : s.WellFormed) (path : Path) (text : String) (parse : Parse)
    (q : Path) : (s.give path text parse).at? q =
      if compare path q = .eq then some (match s.at? path with
        | none => (s.add path text parse).1
        | some f => f.given text parse)
      else s.at? q := by
  cases hat : s.at? path with
  | none => rw [give_of_none hat, hs.at?_add]
  | some f =>
    rw [give_of_some hat, hs.at?_update hat (f.given_path text parse) (f.given_number text parse)]

/-- Paths removed leave a store well formed. -/
theorem WellFormed.foldl_remove (hs : s.WellFormed) (paths : List Path) :
    (paths.foldl SourceStore.remove s).WellFormed := by
  induction paths generalizing s with
  | nil => exact hs
  | cons p paths ih => exact ih (hs.remove p)

/-- Removing paths adds no file. -/
theorem WellFormed.mem_foldl_remove (hs : s.WellFormed) {paths : List Path}
    (h : f ∈ (paths.foldl SourceStore.remove s).all) : f ∈ s.all := by
  induction paths generalizing s with
  | nil => exact h
  | cons p paths ih => exact (hs.mem_remove_iff.mp (ih (hs.remove p) h)).1

end SourceStore

namespace State

variable (st : State)

/-- Whether the file at a path has an editor. -/
def hasEditor (path : Path) : Bool :=
  (st.store.at? path).any fun f => decide (0 < f.editors)

/-- The text of the file at a path. -/
def textAt? (path : Path) : Option String :=
  (st.store.at? path).map SourceFile.text

/-- A file that is known has an editor if its count says so. -/
theorem hasEditor_of_at? {st : State} {path : Path} {f : SourceFile}
    (h : st.store.at? path = some f) : st.hasEditor path = decide (0 < f.editors) := by
  rw [hasEditor, h]
  rfl

/-- A file that is not known has no editor. -/
theorem hasEditor_of_at?_none {st : State} {path : Path} (h : st.store.at? path = none) :
    st.hasEditor path = false := by
  rw [hasEditor, h]
  rfl

/-! ### A text is applied -/

/-- A text with errors is stored, with the tree from before. -/
theorem store_applyBroken (f : SourceFile) (text : String) (errors : List SyntaxError) :
    (st.applyBroken f text errors).store =
      st.store.update { f with text, errors, broken := true } ∧
    (st.applyBroken f text errors).registry = st.registry := by
  unfold applyBroken
  dsimp only
  split
  · exact ⟨rfl, rfl⟩
  · exact ⟨rfl, rfl⟩

theorem store_remap (f : SourceFile) :
    (st.remap f).store = st.store ∧ (st.remap f).registry = st.registry := by
  obtain ⟨events, diagnostics, heq⟩ := remap_eq st f
  rw [heq]
  exact ⟨rfl, rfl⟩

/-- A text that parses is stored with its tree. -/
theorem store_applyClean (f : SourceFile) (text : String) (tree : Tree) :
    (st.applyClean f text tree).store = st.store.update
      { f with text, errors := [], broken := false, tree := (f.tree.merge tree).tree } ∧
    (st.applyClean f text tree).registry = st.registry := by
  unfold applyClean
  dsimp only
  split
  · exact store_remap _ _
  · split
    · exact store_remap _ _
    · exact store_remap _ _

theorem registry_applyParse (path : Path) (text : String) (parse : Parse) :
    (st.applyParse path text parse).2.registry = st.registry := by
  unfold applyParse
  split
  · rfl
  · dsimp only
    split
    · exact (store_applyClean ..).2
    · exact (store_applyBroken ..).2

/-- The files after a text was applied. -/
theorem store_applyParse (path : Path) (text : String) (parse : Parse) :
    (st.applyParse path text parse).2.store = st.store.give path text parse := by
  unfold applyParse SourceStore.give
  cases st.store.at? path with
  | none => rfl
  | some f =>
    dsimp only
    unfold SourceFile.given
    split
    · exact (store_applyClean ..).1
    · exact (store_applyBroken ..).1

/-- The file that a text was applied to. -/
theorem id_applyParse (path : Path) (text : String) (parse : Parse) :
    (st.applyParse path text parse).1 =
      ((st.store.at? path).map SourceFile.id).getD (.source st.store.nextNumber) := by
  unfold applyParse
  cases st.store.at? path with
  | none => rfl
  | some f => rfl

/-- A text, whether it parses or not, is the text of its path and of no other. -/
theorem textAt?_applyParse {st : State} (hst : st.store.WellFormed) (path : Path) (text : String)
    (parse : Parse) (q : Path) : (st.applyParse path text parse).2.textAt? q =
      if compare path q = .eq then some text else st.textAt? q := by
  unfold textAt?
  rw [store_applyParse, hst.at?_give]
  split
  · cases st.store.at? path with
    | none => rfl
    | some f => exact congrArg some (f.given_text text parse)
  · rfl

/-- A text comes without an editor. -/
theorem hasEditor_applyParse {st : State} (hst : st.store.WellFormed) (path : Path) (text : String)
    (parse : Parse) (q : Path) :
    (st.applyParse path text parse).2.hasEditor q = st.hasEditor q := by
  unfold hasEditor
  rw [store_applyParse, hst.at?_give]
  split
  · rename_i hq
    rw [← st.store.at?_congr hq]
    cases st.store.at? path with
    | none => rfl
    | some f => simp
  · rfl

/-! ### Files are forgotten -/

/-- Forgetting a path leaves the projects. -/
theorem registry_forget (path : Path) : (st.forget path).2.registry = st.registry := by
  unfold State.forget
  cases st.store.at? path with
  | some f => rfl
  | none => rfl

/-- Forgetting a path drops its file. -/
theorem store_forget {st : State} (hst : st.store.WellFormed) (path : Path) :
    (st.forget path).2.store = st.store.remove path := by
  unfold State.forget
  cases hat : st.store.at? path with
  | some f => rfl
  | none =>
    refine (SourceStore.remove_of_idAt?_none ?_).symm
    rw [hst.idAt?_eq_map, hat]
    rfl

/-- The file at a path after several paths were forgotten. -/
theorem at?_forgetEach {st : State} (hst : st.store.WellFormed) (paths : List Path) (q : Path) :
    (st.forgetEach paths).store.at? q =
      if (paths.any fun p => compare p q == .eq) then none else st.store.at? q := by
  induction paths generalizing st with
  | nil => rfl
  | cons p paths ih =>
    have hstep : (st.forgetEach (p :: paths)) = (st.forget p).2.forgetEach paths := rfl
    have hstore := store_forget hst p
    rw [hstep, ih (hstore ▸ hst.remove p), hstore, hst.at?_remove, List.any_cons]
    by_cases hp : compare p q = .eq
    · simp [hp]
    · simp [hp]

/-- **After a change of the projects exactly the NED files are still there.** -/
theorem at?_reconfigure {st : State} (hst : st.store.WellFormed) (configs : List ProjectConfig)
    (q : Path) :
    (st.reconfigure configs).store.at? q =
      if (Registry.ofConfigs configs).isNedFile q then st.store.at? q else none := by
  have hforgot : (st.reconfigure configs).store.at? q =
      if ((st.store.paths.filter fun p => !(Registry.ofConfigs configs).isNedFile p).any
        fun p => compare p q == .eq) then none else st.store.at? q :=
    at?_forgetEach (show (({ st with registry := .ofConfigs configs } : State).assignOwners.emit
      .began).store.WellFormed from hst) _ q
  rw [hforgot]
  cases hned : (Registry.ofConfigs configs).isNedFile q with
  | true =>
    -- No stray path is the same path as `q`.
    have hstray : ((st.store.paths.filter fun p => !(Registry.ofConfigs configs).isNedFile p).any
        fun p => compare p q == .eq) = false := by
      refine List.any_eq_false.mpr fun p hp heq => ?_
      have hnot := (List.mem_filter.mp hp).2
      rw [Registry.isNedFile_of_compare _ (by simpa using heq), hned] at hnot
      exact absurd hnot (by simp)
    rw [hstray]
    rfl
  | false =>
    simp only [Bool.false_eq_true, if_false, ite_eq_left_iff, Bool.not_eq_true]
    intro hkept
    cases hat : st.store.at? q with
    | none => rfl
    | some f =>
      obtain ⟨p, hp, hpq⟩ := SortedMap.mem_of_get? (hst.idAt?_of_at? hat)
      have hpath : p ∈ st.store.paths := List.mem_map_of_mem (f := Prod.fst) hp
      have hstray := List.any_eq_false.mp hkept p (List.mem_filter.mpr ⟨hpath, by
        rw [Registry.isNedFile_of_compare _ hpq, hned]
        rfl⟩)
      exact absurd hpq (by simpa using hstray)

theorem registry_forgetEach (paths : List Path) : (st.forgetEach paths).registry = st.registry := by
  induction paths generalizing st with
  | nil => rfl
  | cons p paths ih => exact (ih _).trans (st.registry_forget p)

theorem registry_reconfigure (configs : List ProjectConfig) :
    (st.reconfigure configs).registry = .ofConfigs configs :=
  registry_forgetEach _ _

/-- Forgetting several files takes them from the store one by one. -/
theorem store_forgetEach {st : State} (hst : st.store.WellFormed) (paths : List Path) :
    (st.forgetEach paths).store = paths.foldl SourceStore.remove st.store := by
  induction paths generalizing st with
  | nil => rfl
  | cons p paths ih =>
    have hstore := store_forget hst p
    rw [List.foldl_cons, ← hstore]
    exact ih (hstore ▸ hst.remove p)

/-- A change of the projects takes the files from the store that no project has. -/
theorem store_reconfigure {st : State} (hst : st.store.WellFormed) (configs : List ProjectConfig) :
    (st.reconfigure configs).store = (st.store.paths.filter fun p =>
      !(Registry.ofConfigs configs).isNedFile p).foldl SourceStore.remove st.store :=
  store_forgetEach (show (({ st with registry := .ofConfigs configs } : State).assignOwners.emit
    .began).store.WellFormed from hst) _

/-- New projects leave the store well formed. -/
theorem wellFormed_reconfigure {st : State} (hst : st.store.WellFormed)
    (configs : List ProjectConfig) : (st.reconfigure configs).store.WellFormed := by
  rw [store_reconfigure hst]
  exact hst.foldl_remove _

/-! ### What holds of every loaded file -/

/-- What holds of a file when it is loaded, and stays when it is given a text and when editors come and go,
holds of every loaded file. -/
theorem Reachable.forall_files {P : SourceFile → Prop} {st : State} (h : st.Reachable)
    (hloaded : ∀ number path text, P (.ofText number path text))
    (hgiven : ∀ f text, P f → P (f.given text (Parse.ofText text)))
    (heditors : ∀ f editors, P f → P { f with editors }) : ∀ f ∈ st.store.all, P f := by
  have hupdate : ∀ {st : State} {path : Path} {f g : SourceFile}, st.Kept →
      st.store.at? path = some f → g.number = f.number → P g → (∀ x ∈ st.store.all, P x) →
      ∀ x ∈ (st.store.update g).all, P x := by
    intro st path f g hkept hat hnumber hg hst x hx
    rcases hkept.store.mem_update hat hnumber hx with rfl | hx
    · exact hg
    · exact hst x hx
  refine (h.invariant (I := fun st => st.Kept ∧ ∀ f ∈ st.store.all, P f)
    ⟨kept_init, fun f hf => absurd hf List.not_mem_nil⟩ fun st st' hs hst => ?_).2
  refine ⟨hst.1.step hs, ?_⟩
  obtain ⟨hkept, hst⟩ := hst
  cases hs with
  | noted | invalidated | asked => exact hst
  | rehashed => exact store_rehash st ▸ hst
  | @edited path f hat editors =>
    exact hupdate hkept hat (g := { f with editors }) rfl
      (heditors f editors (hst f (SourceStore.mem_of_at? hat))) hst
  | @loaded path hat text =>
    intro f hf
    rcases (hkept.store.mem_add hat text _).mp hf with rfl | hf
    · exact hloaded st.store.nextNumber path text
    · exact hst f hf
  | @broken path f hat text hok =>
    have hg := hgiven f text (hst f (SourceStore.mem_of_at? hat))
    rw [SourceFile.given, if_neg (by simp [hok])] at hg
    rw [(store_applyBroken ..).1]
    exact hupdate hkept hat rfl hg hst
  | @cleaned path f hat text hok =>
    have hg := hgiven f text (hst f (SourceStore.mem_of_at? hat))
    rw [SourceFile.given, if_pos hok] at hg
    rw [(store_applyClean ..).1]
    exact hupdate hkept hat rfl hg hst
  | forgot path =>
    rw [store_forget hkept.store]
    exact fun f hf => hst f (hkept.store.mem_remove_iff.mp hf).1
  | configured configs =>
    rw [store_reconfigure hkept.store]
    exact fun f hf => hst f (hkept.store.mem_foldl_remove hf)

end State

end NedWorkspace
