/-
# What a qualified name says

A simple name has no point, so the last point of a qualified name ends the package
(`Name.qualify_inj`). A name cut at its points is put together again by points
(`Name.flatMap_segmentChars`, `Name.join_segments`), and a name below another has its segments behind those
of the other (`Name.segments_below`). An import without stars names just the simple name of what it stands for
(`ImportSpec.names_qualify`).
-/

import Mathlib.Data.List.Basic
import NedWorkspace.Import
import NedWorkspace.Name

namespace NedWorkspace

namespace Name

/-- A simple name is one without a point. -/
theorem isQualified_eq_false {name : String} : isQualified name = false ↔ '.' ∉ name.toList := by
  simp [isQualified]

/-- The name of an inner type is that of the outer one, a point, and its own. -/
theorem toList_below (outer name : String) :
    (below outer name).toList = outer.toList ++ '.' :: name.toList := by
  rw [below, String.toList_append, String.toList_append, List.append_assoc]
  rfl

theorem qualify_of_ne {package : String} (h : package ≠ "") (name : String) :
    qualify package name = below package name :=
  if_neg h

/-- A name below another is no simple name. -/
theorem isQualified_below (outer name : String) : isQualified (below outer name) = true := by
  simp [isQualified, toList_below]

/-- The last point of a name ends what the name is below. -/
theorem below_inj {outer outer' name name' : String} (hname : isQualified name = false)
    (hname' : isQualified name' = false) (h : below outer name = below outer' name') :
    outer = outer' ∧ name = name' := by
  rw [isQualified_eq_false] at hname hname'
  have hlists := congrArg String.toList h
  rw [toList_below, toList_below] at hlists
  -- If one of the two outer names were longer, its last point would lie in the other simple name.
  rcases List.append_eq_append_iff.mp hlists with ⟨mid, houter, hrest⟩ | ⟨mid, houter, hrest⟩
  · cases mid with
    | nil =>
      rw [List.append_nil] at houter
      exact ⟨String.toList_injective houter.symm, String.toList_injective (List.cons.inj hrest).2⟩
    | cons c mid =>
      have hpoint : '.' ∈ name.toList := (List.cons.inj hrest).2 ▸ by simp
      exact absurd hpoint hname
  · cases mid with
    | nil =>
      rw [List.append_nil] at houter
      exact ⟨String.toList_injective houter, String.toList_injective (List.cons.inj hrest).2.symm⟩
    | cons c mid =>
      have hpoint : '.' ∈ name'.toList := (List.cons.inj hrest).2 ▸ by simp
      exact absurd hpoint hname'

/-- **A qualified name tells package and simple name.** -/
theorem qualify_inj {package package' name name' : String} (hname : isQualified name = false)
    (hname' : isQualified name' = false) (h : qualify package name = qualify package' name') :
    package = package' ∧ name = name' := by
  unfold qualify at h
  split at h
  · rename_i hp
    split at h
    · rename_i hp'
      exact ⟨hp.trans hp'.symm, h⟩
    · have hbelow : name = below package' name' := h
      rw [hbelow, isQualified_below] at hname
      exact absurd hname (by simp)
  · split at h
    · have hbelow : below package name = name' := h
      rw [← hbelow, isQualified_below] at hname'
      exact absurd hname' (by simp)
    · exact below_inj hname hname' h

/-! ### Cutting at points -/

/-- There is always at least one segment. -/
theorem segmentChars_ne_nil (cs : List Char) : segmentChars cs ≠ [] := by
  cases cs with
  | nil => exact List.cons_ne_nil _ _
  | cons c cs =>
    rw [segmentChars]
    split
    · exact List.cons_ne_nil _ _
    · split
      · exact List.cons_ne_nil _ _
      · exact List.cons_ne_nil _ _

/-- Nothing is lost when a name is cut. -/
theorem flatMap_segmentChars (cs : List Char) :
    (segmentChars cs).flatMap (fun s => '.' :: s) = '.' :: cs := by
  induction cs with
  | nil => rfl
  | cons c cs ih =>
    obtain ⟨s, ss, hcs⟩ := List.exists_cons_of_ne_nil (segmentChars_ne_nil cs)
    rw [hcs] at ih
    rw [segmentChars, hcs]
    dsimp only
    split
    · rename_i hc
      rw [List.flatMap_cons, ih, hc]
      rfl
    · rw [List.flatMap_cons] at ih ⊢
      simpa using ih

/-- The segments with a point before each are the name with a point before it. -/
theorem flatMap_segments (name : String) :
    (segments name).flatMap (fun s => '.' :: s.toList) = '.' :: name.toList := by
  have hchars : ((fun s : String => '.' :: s.toList) ∘ String.ofList) = fun s => '.' :: s :=
    funext fun s => by simp
  rw [segments, List.flatMap_map, ← flatMap_segmentChars]
  exact congrArg (List.flatMap · _) hchars

theorem segments_ne_nil (name : String) : segments name ≠ [] := by
  simp [segments, segmentChars_ne_nil]

/-- A point cuts. -/
theorem segmentChars_append (cs ds : List Char) :
    segmentChars (cs ++ '.' :: ds) = segmentChars cs ++ segmentChars ds := by
  induction cs with
  | nil =>
    obtain ⟨s, ss, hds⟩ := List.exists_cons_of_ne_nil (segmentChars_ne_nil ds)
    simp [segmentChars, hds]
  | cons c cs ih =>
    obtain ⟨s, ss, hcs⟩ := List.exists_cons_of_ne_nil (segmentChars_ne_nil cs)
    rw [List.cons_append, segmentChars, ih, segmentChars, hcs, List.cons_append]
    dsimp only
    split
    · rfl
    · rfl

/-- A text without points is one segment. -/
theorem segmentChars_of_not_mem {cs : List Char} (h : '.' ∉ cs) : segmentChars cs = [cs] := by
  induction cs with
  | nil => rfl
  | cons c cs ih =>
    rw [List.mem_cons, not_or] at h
    rw [segmentChars, ih h.2]
    exact if_neg fun hc => h.1 hc.symm

/-- The segments of a name below another follow those of the other. -/
theorem segments_below (outer name : String) :
    segments (below outer name) = segments outer ++ segments name := by
  rw [segments, toList_below, segmentChars_append, List.map_append]
  rfl

theorem segments_of_simple {name : String} (h : isQualified name = false) :
    segments name = [name] := by
  rw [segments, segmentChars_of_not_mem (isQualified_eq_false.mp h), List.map_singleton,
    String.ofList_toList]

/-- A longer path is joined from the left. -/
theorem join_append {path : List String} (h : path ≠ []) (more : List String) :
    join (path ++ more) = more.foldl below (join path) := by
  obtain ⟨s, ss, rfl⟩ := List.exists_cons_of_ne_nil h
  exact List.foldl_append

theorem toList_foldl_below (outer : String) (path : List String) :
    (path.foldl below outer).toList = outer.toList ++ path.flatMap fun s => '.' :: s.toList := by
  induction path generalizing outer with
  | nil => simp
  | cons s path ih =>
    rw [List.foldl_cons, ih, toList_below, List.flatMap_cons, List.append_assoc]

/-- A name is its segments with points between them. -/
theorem join_segments (name : String) : join (segments name) = name := by
  obtain ⟨s, ss, hname⟩ := List.exists_cons_of_ne_nil (segments_ne_nil name)
  have hflat := flatMap_segments name
  rw [hname, List.flatMap_cons, List.cons_append] at hflat
  rw [hname]
  refine String.toList_injective ?_
  exact (toList_foldl_below s ss).trans (List.cons.inj hflat).2

/-- A text whose front can be dropped begins with it. -/
theorem eq_append_of_dropFront? {front text rest : List Char} (h : dropFront? front text = some rest) :
    text = front ++ rest := by
  fun_induction dropFront? front text with
  | case1 text => exact Option.some.inj h
  | case2 c front text ih => rw [ih h, List.cons_append]
  | case3 => exact absurd h (by simp)
  | case4 => exact absurd h (by simp)

/-- What is left of a name when an outer one is taken off. -/
theorem eq_below_of_relativeTo? {outer name path : String} (h : relativeTo? outer name = some path) :
    name = below outer path := by
  obtain ⟨rest, hrest, rfl⟩ := Option.map_eq_some_iff.mp h
  refine String.toList_injective ?_
  rw [eq_append_of_dropFront? hrest, toList_below, String.toList_ofList, List.append_assoc]
  rfl

end Name

namespace ImportSpec

open Name

/-- An import without stars that stands for a type names the type's simple name and no other. -/
theorem names_qualify {i : ImportSpec} {package name name' : String}
    (hname : isQualified name = false) (hname' : isQualified name' = false)
    (htext : i.text = qualify package name) :
    i.names name' = true ↔ i.isWildcard = false ∧ name' = name := by
  have hsuffix : (i.text == name' || ('.' :: name'.toList).isSuffixOf i.text.toList) = true ↔
      name' = name := by
    rw [Bool.or_eq_true, beq_iff_eq, List.isSuffixOf_iff_suffix]
    refine ⟨fun h => ?_, fun h => ?_⟩
    · rcases h with h | ⟨front, hfront⟩
      · have hempty : qualify package name = qualify "" name' := htext.symm.trans h
        exact (qualify_inj hname hname' hempty).2.symm
      · have hbelow : i.text = below (String.ofList front) name' := by
          refine String.toList_injective ?_
          rw [toList_below, String.toList_ofList, hfront]
        rw [htext] at hbelow
        by_cases hpackage : package = ""
        · have hcut : name = below (String.ofList front) name' := by rwa [hpackage] at hbelow
          rw [hcut, isQualified_below] at hname
          exact absurd hname (by simp)
        · rw [qualify_of_ne hpackage] at hbelow
          exact (below_inj hname hname' hbelow).2.symm
    · subst h
      by_cases hpackage : package = ""
      · left
        rw [htext, hpackage]
        rfl
      · right
        rw [htext, qualify_of_ne hpackage, toList_below]
        exact List.suffix_append _ _
  unfold names
  rw [Bool.and_eq_true, hsuffix, Bool.not_eq_true']

end ImportSpec

end NedWorkspace
