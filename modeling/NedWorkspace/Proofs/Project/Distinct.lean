/-
# When source folders are listed twice

SPEC_FULL, section 4.2: configuration source.

Folders are compared as they are listed, and there a `.` at the beginning of a path is a component of its
own. Below a root it means nothing, so `./a` and `a` are two folders of the list but one folder of the
project. This is the only way to list a folder twice (`Path.same_absoluteFolder_iff`): all other spellings
of a folder have the same components, and of these the list keeps the first.

The main result is `ProjectConfig.absoluteFolders_distinct`; `ProjectConfig.dotted_folder_twice` is a list
with one folder twice.
-/

import Mathlib.Data.List.Nodup
import Mathlib.Data.List.Pairwise
import Mathlib.Data.List.Perm.Subperm
import NedWorkspace.Proofs.Project.Folders

namespace NedWorkspace

open ProjectConfig

namespace Path

variable {p q root : Path}

/-! ### Leading dots -/

/-- No piece of a path stands for the `.` at its beginning. -/
theorem here_not_mem_pieces (ps : List (List Char)) : Component.here ∉ ps.filterMap ofPiece? := by
  intro hmem
  obtain ⟨piece, -, hpiece⟩ := List.mem_filterMap.mp hmem
  unfold ofPiece? at hpiece
  split at hpiece
  · exact absurd hpiece (by simp)
  · split at hpiece
    · exact absurd hpiece (by simp)
    · exact absurd hpiece (by simp)

/-- Leaving out the `.` at the beginning keeps all the pieces. -/
theorem filter_pieces (ps : List (List Char)) :
    (ps.filterMap ofPiece?).filter (· != .here) = ps.filterMap ofPiece? := by
  rw [List.filter_eq_self]
  intro c hc
  have hne : c ≠ .here := by
    rintro rfl
    exact here_not_mem_pieces ps hc
  simpa using hne

/-- The components of a path, the `.` at its beginning left out. -/
def undotted (p : Path) : List Component :=
  p.components.filter (· != .here)

/-- A path has a `.` at its beginning or nowhere. -/
theorem components_eq_undotted (p : Path) :
    p.components = p.undotted ∨ p.components = .here :: p.undotted := by
  unfold undotted components
  cases htext : p.text.toList with
  | nil => exact .inl rfl
  | cons c cs =>
    obtain ⟨first, others, hfirst⟩ := List.exists_cons_of_ne_nil (pieces_ne_nil (c :: cs))
    rw [componentsOf_cons hfirst, List.filter_append, filter_pieces, leading]
    split
    · exact .inl rfl
    · split
      · exact .inr rfl
      · exact .inl rfl

/-- The pieces of a relative path are its components without the `.` at its beginning. -/
theorem filterMap_pieces_eq_undotted (hp : p.isAbsolute = false) :
    (pieces p.text.toList).filterMap ofPiece? = p.undotted := by
  unfold undotted components
  cases htext : p.text.toList with
  | nil => rfl
  | cons c cs =>
    have hslash : c ≠ '/' := by
      rintro rfl
      simp [isAbsolute, htext] at hp
    obtain ⟨first, others, hfirst⟩ := List.exists_cons_of_ne_nil (pieces_ne_nil (c :: cs))
    rw [componentsOf_cons hfirst, ← hfirst, List.filter_append, filter_pieces, leading, if_neg hslash]
    split
    · rfl
    · rfl

/-! ### Folders below a root -/

/-- Below a root only the components without the leading `.` count. -/
theorem components_absoluteFolder (hroot : root.text ≠ "") (hp : p.isAbsolute = false) :
    (absoluteFolder root p).components = root.components ++ p.undotted := by
  unfold absoluteFolder
  split
  · rename_i hempty
    have hnone : p.components = [] := components_of_isEmpty (by simpa using hempty)
    rw [undotted, hnone, List.filter_nil, List.append_nil]
  · rw [components_join_of_relative hroot hp, filterMap_pieces_eq_undotted hp]

/-- **Two folders are one below a root exactly if they are one path, or one of them is the other with a
`.` before it.** -/
theorem same_absoluteFolder_iff (hroot : root.text ≠ "") (hp : p.isAbsolute = false)
    (hq : q.isAbsolute = false) :
    (absoluteFolder root p).same (absoluteFolder root q) = true ↔
      p.components = q.components ∨ q.components = .here :: p.components ∨
        p.components = .here :: q.components := by
  have hsame : (absoluteFolder root p).same (absoluteFolder root q) = true ↔ p.undotted = q.undotted := by
    rw [same, beq_iff_eq, components_absoluteFolder hroot hp, components_absoluteFolder hroot hq,
      List.append_cancel_left_eq]
  rw [hsame]
  constructor
  · intro h
    rcases components_eq_undotted p with hp | hp <;> rcases components_eq_undotted q with hq | hq
    · exact .inl (by rw [hp, hq, h])
    · exact .inr (.inl (by rw [hp, hq, h]))
    · exact .inr (.inr (by rw [hp, hq, h]))
    · exact .inl (by rw [hp, hq, h])
  · rintro (h | h | h)
    · rw [undotted, undotted, h]
    · rw [undotted, undotted, h]
      rfl
    · rw [undotted, undotted, h]
      rfl

end Path

namespace Folders

open NedWorkspace.Path

variable {folders : List Path} {text : String}

/-! ### What is listed -/

/-- Of folders that are one path the first is kept. -/
theorem pairwise_loop {found : List Path} (h : found.Pairwise fun p q => q.same p = false) :
    (List.eraseDupsBy.loop Path.same folders found).Pairwise fun p q => p.same q = false := by
  induction folders generalizing found with
  | nil => exact List.pairwise_reverse.mpr h
  | cons folder folders ih =>
    rw [List.eraseDupsBy.loop]
    split
    · exact ih h
    · rename_i hnew
      refine ih (List.pairwise_cons.mpr ⟨fun p hp => ?_, h⟩)
      have hdiffer : folder.same p = false := by
        simpa using List.any_eq_false.mp hnew p hp
      rwa [same, BEq.comm] at hdiffer

/-- The folders of a list that is accepted lie below the root and are different paths. -/
theorem ofText_listed (h : ofText text = .ok folders) :
    (∀ p ∈ folders, p.isAbsolute = false) ∧ folders.Pairwise fun p q => p.same q = false := by
  have hinside : ∀ line ∈ contents text, ¬ Outside line := by
    intro line hline hout
    obtain ⟨before, bad, after, hlines, hbefore, hbad⟩ := exists_first_outside ⟨line, hline, hout⟩
    rw [ofText_of_outside hlines hbefore hbad] at h
    cases h
  rw [ofText_of_inside hinside] at h
  obtain rfl := Except.ok.inj h
  split
  · exact ⟨by decide, List.pairwise_singleton _ _⟩
  · refine ⟨fun p hp => ?_, pairwise_loop .nil⟩
    have hbelow := isBelow_of_mem_named hinside hp
    exact Bool.eq_false_iff.mpr (mt isAbsolute_iff.mp (isBelow_iff.mp hbelow).1)

/-- Among different paths at most two are the same without a leading `.`. -/
theorem countP_undotted_le (h : folders.Pairwise fun p q => p.same q = false) (cs : List Component) :
    folders.countP (fun p => p.undotted == cs) ≤ 2 := by
  have hnodup : ((folders.filter fun p => p.undotted == cs).map components).Nodup := by
    refine List.pairwise_map.mpr ((h.sublist List.filter_sublist).imp fun hdiffer heq => ?_)
    simp [same, heq] at hdiffer
  have hsub : ((folders.filter fun p => p.undotted == cs).map components) ⊆ [cs, .here :: cs] := by
    intro ds hds
    obtain ⟨p, hp, rfl⟩ := List.mem_map.mp hds
    have hcs : p.undotted = cs := by simpa using (List.mem_filter.mp hp).2
    rcases components_eq_undotted p with heq | heq
    · simp [heq, hcs]
    · simp [heq, hcs]
  have hlength := (hnodup.subperm hsub).length_le
  rwa [List.length_map, ← List.countP_eq_length_filter] at hlength

end Folders

namespace ProjectConfig

open NedWorkspace.Path Folders

/-- **The source folders of a project are distinct unless one is listed with and without a `.` at its
beginning.** In a list that is accepted any two folders are different paths, and below the root of the
project they are one exactly if one is the other with a `.` before it. So the project has no folder more
than twice, and none twice if no folder is listed in both ways. -/
theorem absoluteFolders_distinct {c : ProjectConfig} {text : String}
    (hlist : ofText text = .ok c.sourceFolders) (hroot : c.root.text ≠ "") :
    ((c.absoluteFolders.Pairwise fun p q => p.same q = false) ↔
      ∀ p ∈ c.sourceFolders, ∀ q ∈ c.sourceFolders, q.components ≠ .here :: p.components) ∧
    (c.sourceFolders.Pairwise fun p q => p.same q = false ∧
      ((absoluteFolder c.root p).same (absoluteFolder c.root q) = true ↔
        q.components = .here :: p.components ∨ p.components = .here :: q.components)) ∧
    ∀ p : Path, c.absoluteFolders.countP (·.same p) ≤ 2 := by
  obtain ⟨hrelative, hdifferent⟩ := ofText_listed hlist
  have hpairs : c.sourceFolders.Pairwise fun p q => p.same q = false ∧
      ((absoluteFolder c.root p).same (absoluteFolder c.root q) = true ↔
        q.components = .here :: p.components ∨ p.components = .here :: q.components) := by
    refine hdifferent.imp_of_mem fun {p q} hp hq hdiffer => ⟨hdiffer, ?_⟩
    rw [same_absoluteFolder_iff hroot (hrelative p hp) (hrelative q hq), or_iff_right]
    intro heq
    simp [same, heq] at hdiffer
  refine ⟨?_, hpairs, fun p => ?_⟩
  · rw [absoluteFolders, List.pairwise_map]
    constructor
    · -- Two folders of which one is the other with a `.` are different, so they stand in some order.
      intro hdistinct p hp q hq hdotted
      have hboth : c.sourceFolders.Pairwise fun p q =>
          ¬ (q.components = .here :: p.components ∨ p.components = .here :: q.components) :=
        hdistinct.imp₂ (fun p q hfalse hpair hor => by simp [hpair.2.mpr hor] at hfalse) hpairs
      have hsymm : Std.Symm fun p q : Path =>
          ¬ (q.components = .here :: p.components ∨ p.components = .here :: q.components) :=
        ⟨fun p q h hor => h hor.symm⟩
      have hne : p ≠ q := by
        rintro rfl
        exact absurd (congrArg List.length hdotted) (by simp)
      exact hboth.forall hp hq hne (.inl hdotted)
    · intro hundotted
      refine hpairs.imp_of_mem fun {p q} hp hq hpair => Bool.eq_false_iff.mpr fun hsame => ?_
      rcases hpair.2.mp hsame with hdotted | hdotted
      · exact hundotted p hp q hq hdotted
      · exact hundotted q hq p hp hdotted
  · rw [absoluteFolders, List.countP_map]
    refine Nat.le_trans (List.countP_mono_left fun q hq hsame => ?_)
      (countP_undotted_le hdifferent (p.components.drop c.root.components.length))
    have hcomponents : (absoluteFolder c.root q).components = p.components := by
      simpa [same] using hsame
    rw [components_absoluteFolder hroot (hrelative q hq)] at hcomponents
    rw [← hcomponents, List.drop_left, beq_self_eq_true]

/-- A list with two spellings of one folder, and another folder. -/
theorem absoluteFolders_distinct_spelled :
    let c : ProjectConfig := ⟨"p", ⟨"/ws/p"⟩, [⟨"a/b"⟩, ⟨"c"⟩], []⟩
    ofText "a/b\na//b/\nc" = .ok c.sourceFolders ∧ c.root.text ≠ "" ∧
      c.absoluteFolders.Pairwise fun p q => p.same q = false := by
  have hlist : ofText "a/b\na//b/\nc" = .ok [⟨"a/b"⟩, ⟨"c"⟩] := rfl
  have hroot : "/ws/p" ≠ "" := by decide
  exact ⟨hlist, hroot,
    (absoluteFolders_distinct (c := ⟨"p", ⟨"/ws/p"⟩, _, []⟩) hlist hroot).1.mpr (by decide +kernel)⟩

/-- A folder that is listed with and without a `.` at its beginning is in the project twice. -/
theorem dotted_folder_twice :
    let c : ProjectConfig := ⟨"p", ⟨"/ws/p"⟩, [⟨"a"⟩, ⟨"./a"⟩], []⟩
    ofText "a\n./a" = .ok c.sourceFolders ∧ c.root.text ≠ "" ∧
      ¬ c.absoluteFolders.Pairwise fun p q => p.same q = false := by
  have hlist : ofText "a\n./a" = .ok [⟨"a"⟩, ⟨"./a"⟩] := rfl
  exact ⟨hlist, by decide, by decide +kernel⟩

end ProjectConfig

end NedWorkspace
