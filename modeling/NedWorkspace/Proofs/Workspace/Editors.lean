/-
# Editors have the last word

SPEC_FULL, section 4.1 (`EditorConnected`) and section 4.7 (never re-parses a connected file).

Loading a file, loading what is missing, taking over changes of the disk and changing the projects all
read from the disk, and each looks for editors in its own way. None of them touches a file that has one:
as long as such a file stays loaded under its number, only its editors change it
(`State.open_file_unchanged`).

The invariant is that no other file than the given one stands under its number
(`SourceStore.Faithful`). A file that was forgotten and is loaded again gets a new number, so the
invariant survives that too.
-/

import NedWorkspace.Proofs.Workspace.Lockstep
import NedWorkspace.Proofs.Workspace.Operations
import NedWorkspace.Proofs.Workspace.Run

namespace NedWorkspace

open State Engine

namespace SourceStore

/-- If the number of a file is in use, it is the file's own. -/
structure Faithful (f : SourceFile) (s : SourceStore) : Prop where
  wellFormed : s.WellFormed
  /-- The number is not given again. -/
  number_lt : f.number < s.nextNumber
  eq_of_number : ∀ g ∈ s.all, g.number = f.number → g = f

variable {s : SourceStore} {f g h : SourceFile} {path : Path}

/-- A store that is well formed has each of its files where it should be. -/
theorem WellFormed.faithful (hs : s.WellFormed) (hf : f ∈ s.all) : s.Faithful f :=
  ⟨hs, hs.number_lt f hf, fun _ hg hnumber => hs.eq_of_id hg hf (congrArg FileId.source hnumber)⟩

/-- After a file was replaced, the new one is found under its id. -/
theorem WellFormed.eq_of_get?_update (hs : s.WellFormed) (hat : s.at? path = some f)
    (hpath : g.path = f.path) (hnumber : g.number = f.number)
    (hget : (s.update g).get? f.id = some h) : h = g := by
  have hwf := hs.update hat hpath hnumber
  have hnew := hs.at?_update_self hat hpath hnumber
  obtain ⟨hmem, hid⟩ := hwf.get?_eq_some_iff.mp hget
  exact hwf.eq_of_id hmem (mem_of_at? hnew) (hid.trans (congrArg FileId.source hnumber.symm))

namespace Faithful

/-- Any other file may be replaced. -/
theorem update (hf : s.Faithful f) (hat : s.at? path = some g) (hne : g ≠ f)
    (hpath : h.path = g.path) (hnumber : h.number = g.number) : (s.update h).Faithful f := by
  refine ⟨hf.wellFormed.update hat hpath hnumber, (s.ids_update h).2 ▸ hf.number_lt,
    fun x hx heq => ?_⟩
  rcases hf.wellFormed.mem_update hat hnumber hx with rfl | hx
  · exact absurd (hf.eq_of_number g (mem_of_at? hat) (hnumber ▸ heq)) hne
  · exact hf.eq_of_number x hx heq

/-- Any other file may be given a text. -/
theorem give (hf : s.Faithful f) (hother : s.at? path ≠ some f) (text : String) (parse : Parse) :
    (s.give path text parse).Faithful f := by
  cases hat : s.at? path with
  | none =>
    rw [give_of_none hat]
    refine ⟨hf.wellFormed.add hat text parse, Nat.lt_succ_of_lt hf.number_lt, fun x hx heq => ?_⟩
    rcases (hf.wellFormed.mem_add hat text parse).mp hx with rfl | hx
    · exact absurd heq hf.number_lt.ne'
    · exact hf.eq_of_number x hx heq
  | some g =>
    rw [give_of_some hat]
    exact hf.update hat (fun heq => hother (heq ▸ hat)) (g.given_path text parse)
      (g.given_number text parse)

/-- Another path removed leaves a file in its place. -/
theorem remove (hf : s.Faithful f) (path : Path) : (s.remove path).Faithful f :=
  ⟨hf.wellFormed.remove path, s.nextNumber_remove path ▸ hf.number_lt, fun x hx =>
    hf.eq_of_number x (hf.wellFormed.mem_remove_iff.mp hx).1⟩

/-- At another path there is another file. -/
theorem at?_ne (hf : s.Faithful f) (hpath : compare f.path path ≠ .eq) : s.at? path ≠ some f :=
  fun hat => hpath (hf.wellFormed.compare_path hat)

end Faithful

end SourceStore

open SourceStore

section Invariant

/-- States with the same files and projects, in which the number of a file is its own. -/
abbrev KeepsFile (f : SourceFile) : State → State → Prop :=
  Alongside fun s s' => s = s' ∧ s.Faithful f

variable {f : SourceFile} {path : Path}

/-- An open file is kept by all moves. -/
theorem lockstep_keepsFile (hopen : 0 < f.editors) : Lockstep (KeepsFile f) := by
  refine lockstep_of_property (fun hs => hs.wellFormed) (fun hs path hidle text => ?_)
    fun hs path => hs.remove path
  exact hs.give (fun hat => hopen.ne' (hidle f hat)) text _

/-- Editors at other paths leave a file alone. -/
theorem editsAt_keepsFile (hpath : compare f.path path ≠ .eq) : EditsAt (KeepsFile f) path := by
  refine editsAt_of_stores ?_
  rintro s _ g g' ⟨rfl, hs⟩ hat hat' editors
  obtain rfl := Option.some.inj (hat.symm.trans hat')
  exact ⟨rfl, hs.update hat (fun heq => hs.at?_ne hpath (heq ▸ hat)) rfl rfl⟩

/-- Texts for other paths leave a file alone. -/
theorem writesAt_keepsFile (hpath : compare f.path path ≠ .eq) : WritesAt (KeepsFile f) path := by
  refine writesAt_of_stores ?_
  rintro s _ ⟨rfl, hs⟩ text
  exact ⟨rfl, hs.give (hs.at?_ne hpath) text _⟩

end Invariant

namespace Request

/-- Whether the request opens the file at a path in an editor. -/
def joins (path : Path) : Request → Bool
  | .connect q => compare path q == .eq
  | _ => false

/-- Whether the request closes the file at a path in an editor. -/
def leaves (path : Path) : Request → Bool
  | .disconnect q => compare path q == .eq
  | _ => false

/-- Whether the request gives the file at a path a text. -/
def writes (path : Path) : Request → Bool
  | .setText q _ => compare path q == .eq
  | _ => false

/-- A request that does not come from an editor of the file may be carried out. -/
theorem admits_keepsFile {f : SourceFile} {path : Path} {r : Request}
    (hpath : compare f.path path = .eq) (hjoins : r.joins path = false)
    (hleaves : r.leaves path = false) (hwrites : r.writes path = false) :
    r.Admits (KeepsFile f) := by
  have hother : ∀ q, (compare path q == .eq) = false → compare f.path q ≠ .eq := by
    intro q hq
    rw [Std.TransCmp.congr_left hpath]
    simpa using hq
  cases r with
  | connect q => exact editsAt_keepsFile (hother q hjoins)
  | disconnect q => exact editsAt_keepsFile (hother q hleaves)
  | setText q text => exact writesAt_keepsFile (hother q hwrites)
  | _ => trivial

end Request

namespace State

variable {st : State} {path : Path} {f : SourceFile}

/-- **Only its editors change an open file.** Take any state that a workspace can reach, any file that
has an editor in it, and any request other than one that gives the file a text or takes its last editor
away, whatever is on the disk and wherever the projects come from. If the file is still loaded under its
number afterwards, its path, text, tree, mistakes and whether it is broken are what they were. It has
one editor more if an editor joined it, one less if one left it, which both succeed, and as many as
before otherwise. -/
theorem open_file_unchanged (hst : st.Reachable) (hat : st.store.at? path = some f)
    (hopen : 0 < f.editors) {r : Request} (hwrites : r.writes path = false)
    (hleaves : r.leaves path = true → 1 < f.editors) (s : Surroundings) {g : SourceFile}
    (hget : ((carryOut r : Plain Answer) s st).2.store.get? f.id = some g) :
    g = { f with editors := g.editors } ∧
      ((r.joins path = true ∧ ((carryOut r : Plain Answer) s st).1 = .file f.id ∧
          g.editors = f.editors + 1) ∨
        (r.leaves path = true ∧ ((carryOut r : Plain Answer) s st).1 = .nothing ∧
          g.editors + 1 = f.editors) ∨
        (r.joins path = false ∧ r.leaves path = false ∧ g.editors = f.editors)) := by
  have hwf := hst.kept.store
  cases hjoins : r.joins path with
  | true =>
    obtain ⟨q, rfl, hq⟩ : ∃ q, r = .connect q ∧ compare path q = .eq := by
      cases r with
      | connect q => exact ⟨q, rfl, by simpa [Request.joins] using hjoins⟩
      | _ => exact absurd hjoins (by simp [Request.joins])
    rw [carryOut, Plain.bind_apply, connect_loaded (st.store.at?_congr hq ▸ hat)] at hget ⊢
    obtain rfl := hwf.eq_of_get?_update (g := { f with editors := f.editors + 1 }) hat rfl rfl hget
    exact ⟨rfl, .inl ⟨rfl, rfl, rfl⟩⟩
  | false =>
    cases hleft : r.leaves path with
    | true =>
      have hshared := hleaves hleft
      obtain ⟨q, rfl, hq⟩ : ∃ q, r = .disconnect q ∧ compare path q = .eq := by
        cases r with
        | disconnect q => exact ⟨q, rfl, by simpa [Request.leaves] using hleft⟩
        | _ => exact absurd hleft (by simp [Request.leaves])
      rw [carryOut, Plain.bind_apply, disconnect_shared (st.store.at?_congr hq ▸ hat) hshared]
        at hget ⊢
      obtain rfl := hwf.eq_of_get?_update (g := { f with editors := f.editors - 1 }) hat rfl rfl
        hget
      exact ⟨rfl, .inr (.inl ⟨rfl, rfl, Nat.sub_add_cancel hopen⟩)⟩
    | false =>
      have hadmits := Request.admits_keepsFile (hwf.compare_path hat) hjoins hleft hwrites
      obtain ⟨_, _, hfaithful⟩ := (lockstep_keepsFile hopen).carryOut hadmits
        ⟨rfl, rfl, hwf.faithful (mem_of_at? hat)⟩ s
      obtain ⟨hmem, hid⟩ := hfaithful.wellFormed.get?_eq_some_iff.mp hget
      obtain rfl := hfaithful.eq_of_number g hmem (FileId.source.inj hid)
      exact ⟨rfl, .inr (.inr ⟨rfl, rfl, rfl⟩)⟩

/-- A file is open in an editor while its text on the disk changes; the change is taken over together
with a change of the projects. -/
theorem open_file_unchanged_resynced :
    let projects : Provider := .fixed [⟨"p", ⟨"/p"⟩, [⟨""⟩], []⟩]
    let before : FileMap := SortedMap.insert {} ⟨"/p/a.ned"⟩ "simple A {}"
    let now : FileMap := SortedMap.insert {} ⟨"/p/a.ned"⟩ "simple B {}"
    let st := ((do let _ ← Engine.reconfigure; connect ⟨"/p/a.ned"⟩ :
      Plain (Except WorkspaceError FileId)) ⟨before.disk, projects⟩ {}).2
    ∃ f, st.store.at? ⟨"/p/a.ned"⟩ = some f ∧ f.editors = 1 ∧ f.text = "simple A {}" ∧
      ((carryOut (.applyChanges [.changed ⟨"/p/a.ned"⟩, .projects]) : Plain Answer)
        ⟨now.disk, projects⟩ st).2.store.get? f.id = some f := by
  intro projects before now st
  have hst : st.Reachable :=
    Plain.steps (Stepwise.andThen reconfigure_keeps fun _ => connect_keeps _) _ _
  obtain ⟨f, hat, hf⟩ : ∃ f, st.store.at? ⟨"/p/a.ned"⟩ = some f ∧
      (f.editors, f.text, f.id) = (1, "simple A {}", .source 0) :=
    Option.map_eq_some_iff.mp (by decide +kernel)
  obtain ⟨heditors, htext, hid⟩ : f.editors = 1 ∧ f.text = "simple A {}" ∧ f.id = .source 0 := by
    simpa using hf
  refine ⟨f, hat, heditors, htext, ?_⟩
  obtain ⟨g, hget⟩ : ∃ g, ((carryOut (.applyChanges [.changed ⟨"/p/a.ned"⟩, .projects]) :
      Plain Answer) ⟨now.disk, projects⟩ st).2.store.get? f.id = some g := by
    rw [hid]
    exact Option.isSome_iff_exists.mp (by decide +kernel)
  obtain ⟨hsame, hcount⟩ := open_file_unchanged hst hat (by omega)
    (r := .applyChanges [.changed ⟨"/p/a.ned"⟩, .projects]) rfl (by simp [Request.leaves]) _ hget
  have hkept : g.editors = f.editors := by
    simpa [Request.joins, Request.leaves] using hcount
  rw [hkept] at hsame
  rw [hget, hsame]

end State

end NedWorkspace
