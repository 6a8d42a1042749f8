/-
# Components and texts of paths

A path is written anew when something is joined to it or when its last component is cut off. What is
written then means what it should: joining a component adds it to the components of the path
(`Path.components_join`), components that a path begins with are read back as they are
(`Path.components_ofComponents`), and the parent of a path has all its components but the last
(`Path.components_of_parent?`).

All that is asked of a path is a matter of its components, so two texts that are one path have the same
parent, the same name and the same extension.
-/

import Mathlib.Data.List.Basic
import NedWorkspace.Proofs.Map.Order

namespace NedWorkspace

namespace Path

/-! ### Cutting at slashes -/

/-- There is always at least one piece. -/
theorem pieces_ne_nil (cs : List Char) : pieces cs ≠ [] := by
  cases cs with
  | nil => exact List.cons_ne_nil _ _
  | cons c cs =>
    rw [pieces]
    split
    · exact List.cons_ne_nil _ _
    · split
      · exact List.cons_ne_nil _ _
      · exact List.cons_ne_nil _ _

/-- A character either begins the first piece or, if it is a slash, stands before a new one. -/
theorem pieces_cons (c : Char) {cs p : List Char} {ps : List (List Char)} (h : pieces cs = p :: ps) :
    pieces (c :: cs) = if c = '/' then [] :: p :: ps else (c :: p) :: ps := by
  rw [pieces, h]

/-- A slash in between cuts a text in two. -/
theorem pieces_append (a b : List Char) : pieces (a ++ '/' :: b) = pieces a ++ pieces b := by
  induction a with
  | nil =>
    obtain ⟨p, ps, hb⟩ := List.exists_cons_of_ne_nil (pieces_ne_nil b)
    rw [List.nil_append, pieces_cons '/' hb, if_pos rfl, hb]
    rfl
  | cons c a ih =>
    obtain ⟨p, ps, ha⟩ := List.exists_cons_of_ne_nil (pieces_ne_nil a)
    have hrest : pieces (a ++ '/' :: b) = p :: (ps ++ pieces b) := by rw [ih, ha, List.cons_append]
    rw [List.cons_append, pieces_cons c hrest, pieces_cons c ha]
    split
    · rfl
    · rfl

/-- A text without slashes is one piece. -/
theorem pieces_of_not_mem {cs : List Char} (h : '/' ∉ cs) : pieces cs = [cs] := by
  induction cs with
  | nil => rfl
  | cons c cs ih =>
    have hc : c ≠ '/' := fun heq => h (heq ▸ List.mem_cons_self)
    rw [pieces_cons c (ih fun hmem => h (List.mem_cons_of_mem c hmem)), if_neg hc]

/-- No piece has a slash in it. -/
theorem not_mem_of_mem_pieces {cs piece : List Char} (h : piece ∈ pieces cs) : '/' ∉ piece := by
  induction cs generalizing piece with
  | nil =>
    obtain rfl := List.mem_singleton.mp h
    exact List.not_mem_nil
  | cons c cs ih =>
    obtain ⟨p, ps, hcs⟩ := List.exists_cons_of_ne_nil (pieces_ne_nil cs)
    rw [hcs] at ih
    rw [pieces_cons c hcs] at h
    split at h
    · rcases List.mem_cons.mp h with rfl | h
      · exact List.not_mem_nil
      · exact ih h
    · rename_i hc
      rcases List.mem_cons.mp h with rfl | h
      · intro hmem
        rcases List.mem_cons.mp hmem with heq | hmem
        · exact hc heq.symm
        · exact ih List.mem_cons_self hmem
      · exact ih (List.mem_cons_of_mem p h)

/-- The characters of the pieces are characters of the text. -/
theorem mem_of_mem_pieces {cs piece : List Char} (h : piece ∈ pieces cs) {c : Char} (hc : c ∈ piece) :
    c ∈ cs := by
  induction cs generalizing piece with
  | nil =>
    obtain rfl := List.mem_singleton.mp h
    exact hc
  | cons d cs ih =>
    obtain ⟨p, ps, hcs⟩ := List.exists_cons_of_ne_nil (pieces_ne_nil cs)
    rw [hcs] at ih
    rw [pieces_cons d hcs] at h
    split at h
    · rcases List.mem_cons.mp h with rfl | h
      · exact absurd hc List.not_mem_nil
      · exact List.mem_cons_of_mem d (ih h hc)
    · rcases List.mem_cons.mp h with rfl | h
      · rcases List.mem_cons.mp hc with rfl | hc
        · exact List.mem_cons_self
        · exact List.mem_cons_of_mem d (ih List.mem_cons_self hc)
      · exact List.mem_cons_of_mem d (ih (List.mem_cons_of_mem p h) hc)

/-! ### Components -/

namespace Component

/-- A component that can stand anywhere in a path: `..` or a name. -/
def Inner (c : Component) : Prop :=
  ∃ piece, '/' ∉ piece ∧ ofPiece? piece = some c

/-- A component that can stand at the beginning of a path. -/
def Leading (c : Component) : Prop :=
  c = root ∨ c = here ∨ c.Inner

/-- A piece that makes a component is its text, and it is neither empty nor a single point. -/
theorem toList_text_of_piece {piece : List Char} {c : Component} (h : ofPiece? piece = some c) :
    c.text.toList = piece ∧ piece ≠ [] ∧ piece ≠ ['.'] := by
  unfold ofPiece? at h
  split at h
  · exact absurd h (by simp)
  · rename_i hplain
    rw [not_or] at hplain
    split at h
    · rename_i hup
      obtain rfl := Option.some.inj h
      exact ⟨hup.symm, hplain⟩
    · obtain rfl := Option.some.inj h
      exact ⟨String.toList_ofList, hplain⟩

end Component

/-- The root or the `.` that a text begins with, given its first piece. -/
def leading (c : Char) (first : List Char) : List Component :=
  if c = '/' then [.root] else if first = ['.'] then [.here] else []

/-- The first piece of a text may be a component of its own; the others are taken as they are. -/
theorem componentsOf_cons {c : Char} {cs first : List Char} {others : List (List Char)}
    (h : pieces (c :: cs) = first :: others) :
    componentsOf (c :: cs) = leading c first ++ (first :: others).filterMap ofPiece? := by
  simp only [componentsOf, h, leading]

/-- Only a slash at the beginning means the root. -/
theorem root_mem_componentsOf {cs : List Char} :
    .root ∈ componentsOf cs ↔ cs.head? = some '/' := by
  have hpieces : ∀ ps : List (List Char), Component.root ∉ ps.filterMap ofPiece? := by
    intro ps hroot
    obtain ⟨piece, _, hpiece⟩ := List.mem_filterMap.mp hroot
    unfold ofPiece? at hpiece
    split at hpiece
    · exact absurd hpiece (by simp)
    · split at hpiece
      · exact absurd (Option.some.inj hpiece) (by simp)
      · exact absurd (Option.some.inj hpiece) (by simp)
  cases cs with
  | nil => simp [componentsOf, hpieces]
  | cons c cs =>
    obtain ⟨first, others, hfirst⟩ := List.exists_cons_of_ne_nil (pieces_ne_nil (c :: cs))
    rw [componentsOf_cons hfirst, List.mem_append, or_iff_left (hpieces _), leading, List.head?_cons,
      Option.some_inj]
    split
    · rename_i hc
      simp [hc]
    · rename_i hc
      split <;> simp [hc]

/-- A path is absolute exactly if the root is among its components. -/
theorem isAbsolute_iff {p : Path} : p.isAbsolute = true ↔ .root ∈ p.components := by
  rw [components, root_mem_componentsOf, isAbsolute, beq_iff_eq]

/-- What follows a slash adds its components. -/
theorem componentsOf_append {a : List Char} (ha : a ≠ []) (b : List Char) :
    componentsOf (a ++ '/' :: b) = componentsOf a ++ (pieces b).filterMap ofPiece? := by
  obtain ⟨c, cs, rfl⟩ := List.exists_cons_of_ne_nil ha
  obtain ⟨first, others, hfirst⟩ := List.exists_cons_of_ne_nil (pieces_ne_nil (c :: cs))
  have hall : pieces (c :: (cs ++ '/' :: b)) = first :: (others ++ pieces b) := by
    rw [← List.cons_append, pieces_append, hfirst, List.cons_append]
  rw [List.cons_append, componentsOf_cons hall, componentsOf_cons hfirst, ← List.cons_append,
    List.filterMap_append, List.append_assoc]

/-- Slashes stand for no piece. -/
theorem pieces_of_slashes {slashes : List Char} (h : ∀ c ∈ slashes, c = '/') :
    (pieces slashes).filterMap ofPiece? = [] := by
  rw [List.filterMap_eq_nil_iff]
  intro piece hpiece
  cases piece with
  | nil => rfl
  | cons c piece =>
    -- Whatever stands in a piece stands in the text.
    have hc := h c (mem_of_mem_pieces hpiece List.mem_cons_self)
    exact absurd (hc ▸ List.mem_cons_self) (not_mem_of_mem_pieces hpiece)

/-- Slashes at the end mean nothing, except that slashes alone are the root. -/
theorem componentsOf_append_slashes {a slashes : List Char} (ha : a ≠ [])
    (h : ∀ c ∈ slashes, c = '/') : componentsOf (a ++ slashes) = componentsOf a := by
  cases slashes with
  | nil => rw [List.append_nil]
  | cons c cs =>
    rw [List.forall_mem_cons] at h
    obtain ⟨rfl, hcs⟩ := h
    rw [componentsOf_append ha, pieces_of_slashes hcs, List.append_nil]

/-- Slashes alone never go up. -/
theorem up_not_mem_componentsOf_slashes {slashes : List Char} (h : ∀ c ∈ slashes, c = '/') :
    .up ∉ componentsOf slashes := by
  cases slashes with
  | nil => decide
  | cons c cs =>
    obtain rfl := h c List.mem_cons_self
    obtain ⟨first, others, hfirst⟩ := List.exists_cons_of_ne_nil (pieces_ne_nil ('/' :: cs))
    rw [componentsOf_cons hfirst, ← hfirst, pieces_of_slashes h, leading, if_pos rfl]
    decide

/-- A slash at the end means nothing, except that a slash alone is the root. -/
theorem componentsOf_append_slash (a b : List Char) :
    componentsOf (a ++ '/' :: b) = componentsOf (a ++ ['/']) ++ (pieces b).filterMap ofPiece? := by
  by_cases ha : a = []
  · obtain ⟨p, ps, hb⟩ := List.exists_cons_of_ne_nil (pieces_ne_nil b)
    have hslash : pieces ('/' :: b) = [] :: pieces b := by rw [pieces_cons '/' hb, if_pos rfl, hb]
    rw [ha, List.nil_append, componentsOf_cons hslash]
    rfl
  · have hend : componentsOf (a ++ ['/']) = componentsOf a := by
      rw [componentsOf_append ha]
      exact List.append_nil _
    rw [componentsOf_append ha, hend]

/-- A piece by itself is read as its component. -/
theorem componentsOf_piece {piece : List Char} {c : Component} (hslash : '/' ∉ piece)
    (h : ofPiece? piece = some c) : componentsOf piece = [c] := by
  obtain ⟨_, hne, hdot⟩ := Component.toList_text_of_piece h
  obtain ⟨d, ds, rfl⟩ := List.exists_cons_of_ne_nil hne
  have hd : d ≠ '/' := fun heq => hslash (heq ▸ List.mem_cons_self)
  rw [componentsOf_cons (pieces_of_not_mem hslash), leading, if_neg hd, if_neg hdot]
  simp [h]

theorem components_of_isEmpty {p : Path} (h : p.text = "") : p.components = [] := by
  simp [components, h, componentsOf, pieces, ofPiece?]

/-- Joining a relative path adds its pieces to the components of the path. -/
theorem components_join_of_relative {base p : Path} (hbase : base.text ≠ "")
    (hp : p.isAbsolute = false) :
    (base.join p).components = base.components ++ (pieces p.text.toList).filterMap ofPiece? := by
  have hnonempty : base.text.toList ≠ [] := by simpa using hbase
  have hbare : base.text.isEmpty = false := by simpa using hbase
  rw [join, if_neg (by simp [hp])]
  unfold components
  dsimp only
  by_cases hend : base.text.toList.getLast? = some '/'
  · obtain ⟨front, hfront⟩ := List.getLast?_eq_some_iff.mp hend
    simp only [hbare, hend, beq_self_eq_true, Bool.or_true, if_true, String.toList_append]
    rw [hfront, ← componentsOf_append_slash]
    simp
  · have hslashless : (base.text.toList.getLast? == some '/') = false := by simpa using hend
    simp only [hbare, hslashless, Bool.or_false, Bool.false_eq_true, if_false,
      String.toList_append]
    rw [← componentsOf_append hnonempty]
    simp

/-- Nothing comes before what is joined to the empty path. -/
theorem join_of_isEmpty {base p : Path} (hbase : base.text = "") (hp : p.isAbsolute = false) :
    base.join p = p := by
  rw [join, if_neg (by simp [hp])]
  simp [hbase]

/-- **What is joined to a path lies at or below it.** -/
theorem startsWith_join {p : Path} (base : Path) (hp : p.isAbsolute = false) :
    (base.join p).startsWith base = true := by
  unfold startsWith
  rw [List.isPrefixOf_iff_prefix]
  by_cases hbase : base.text = ""
  · rw [components_of_isEmpty hbase]
    exact List.nil_prefix
  · rw [components_join_of_relative hbase hp]
    exact List.prefix_append _ _

/-- **Joining a component to a path adds it to the components of the path.** -/
theorem components_join (p : Path) {c : Component} (hc : c.Inner) :
    (p.join ⟨c.text⟩).components = p.components ++ [c] := by
  obtain ⟨piece, hslash, hpiece⟩ := hc
  obtain ⟨htext, hne, _⟩ := Component.toList_text_of_piece hpiece
  have hrelative : (⟨c.text⟩ : Path).isAbsolute = false := by
    obtain ⟨d, ds, rfl⟩ := List.exists_cons_of_ne_nil hne
    have hd : d ≠ '/' := fun heq => hslash (heq ▸ List.mem_cons_self)
    simp [isAbsolute, htext, hd]
  by_cases hempty : p.text = ""
  · rw [join_of_isEmpty hempty hrelative, components_of_isEmpty hempty, components, htext]
    exact componentsOf_piece hslash hpiece
  · rw [components_join_of_relative hempty hrelative, htext, pieces_of_not_mem hslash]
    simp [hpiece]

/-- Components after the first can stand anywhere. -/
theorem components_eq (p : Path) : p.components = [] ∨
    ∃ c cs, p.components = c :: cs ∧ c.Leading ∧ ∀ d ∈ cs, d.Inner := by
  have hinner : ∀ {cs : List Char} {c : Component}, c ∈ (pieces cs).filterMap ofPiece? → c.Inner := by
    intro cs c hc
    obtain ⟨piece, hpiece, hsome⟩ := List.mem_filterMap.mp hc
    exact ⟨piece, not_mem_of_mem_pieces hpiece, hsome⟩
  unfold components
  cases htext : p.text.toList with
  | nil => exact .inl rfl
  | cons c cs =>
    obtain ⟨first, others, hfirst⟩ := List.exists_cons_of_ne_nil (pieces_ne_nil (c :: cs))
    rw [componentsOf_cons hfirst, ← hfirst]
    unfold leading
    split
    · exact .inr ⟨_, _, rfl, .inl rfl, fun d hd => hinner hd⟩
    · split
      · exact .inr ⟨_, _, rfl, .inr (.inl rfl), fun d hd => hinner hd⟩
      · rw [List.nil_append]
        cases hall : (pieces (c :: cs)).filterMap ofPiece? with
        | nil => exact .inl rfl
        | cons d ds =>
          have hmem : ∀ x ∈ d :: ds, x.Inner := fun x hx => hinner (hall ▸ hx)
          exact .inr ⟨d, ds, rfl, .inr (.inr (hmem d List.mem_cons_self)),
            fun x hx => hmem x (List.mem_cons_of_mem d hx)⟩

/-- The text of a component is read as that component. -/
theorem components_text {c : Component} (h : c.Leading) : (⟨c.text⟩ : Path).components = [c] := by
  rcases h with rfl | rfl | ⟨piece, hslash, hpiece⟩
  · decide
  · decide
  · unfold components
    rw [(Component.toList_text_of_piece hpiece).1]
    exact componentsOf_piece hslash hpiece

/-- Components that can stand in a path are read back as they are. -/
theorem components_ofComponents {c : Component} {cs : List Component} (hc : c.Leading)
    (hcs : ∀ d ∈ cs, d.Inner) : (ofComponents (c :: cs)).components = c :: cs := by
  have hjoin : ∀ (ds : List Component) (p : Path), (∀ d ∈ ds, d.Inner) →
      (ds.foldl (fun q d => q.join ⟨d.text⟩) p).components = p.components ++ ds := by
    intro ds
    induction ds with
    | nil => exact fun p _ => (List.append_nil _).symm
    | cons d ds ih =>
      intro p hds
      rw [List.foldl_cons, ih _ fun x hx => hds x (List.mem_cons_of_mem d hx),
        components_join p (hds d List.mem_cons_self), List.append_assoc]
      rfl
  rw [ofComponents, hjoin cs _ hcs, components_text hc]
  rfl

/-- **The parent of a path has all its components but the last.** -/
theorem components_of_parent? {p parent : Path} (h : p.parent? = some parent) :
    ∃ c, p.components = parent.components ++ [c] := by
  have hsplit : ∃ c front, p.components = front ++ [c] ∧ parent = ofComponents front := by
    unfold parent? at h
    split at h
    · exact absurd h (by simp)
    · exact absurd h (by simp)
    · rename_i c more _ hreverse
      refine ⟨c, more.reverse, ?_, (Option.some.inj h).symm⟩
      rw [← List.reverse_reverse p.components, hreverse, List.reverse_cons]
  obtain ⟨c, front, hcomponents, rfl⟩ := hsplit
  refine ⟨c, ?_⟩
  cases front with
  | nil => exact hcomponents
  | cons d ds =>
    rcases components_eq p with hempty | ⟨first, others, hall, hfirst, hothers⟩
    · rw [hempty] at hcomponents
      exact absurd hcomponents (by simp)
    · rw [hall, List.cons_append, List.cons.injEq] at hcomponents
      obtain ⟨rfl, rfl⟩ := hcomponents
      rw [hall, components_ofComponents hfirst fun x hx => hothers x (List.mem_append_left _ hx)]
      rfl

/-- A path lies where its parent lies. -/
theorem startsWith_of_parent? {p parent base : Path} (h : p.parent? = some parent)
    (hbase : parent.startsWith base = true) : p.startsWith base = true := by
  obtain ⟨c, hcomponents⟩ := components_of_parent? h
  unfold startsWith at hbase ⊢
  rw [List.isPrefixOf_iff_prefix] at hbase ⊢
  rw [hcomponents]
  exact hbase.trans (List.prefix_append _ _)

/-- The name of a file in a folder is the last component of its path. -/
theorem fileName?_join (p : Path) {name : String} (h : (Component.name name).Inner) :
    (p.join ⟨name⟩).fileName? = some name := by
  have hcomponents := components_join p h
  unfold fileName?
  rw [show (p.join ⟨name⟩).components = p.components ++ [.name name] from hcomponents]
  simp

/-! ### Texts that are one path -/

/-- Paths compare as equal if their components are the same, however they are spelled. -/
theorem compare_eq_iff {p q : Path} : compare p q = .eq ↔ p.components = q.components := by
  have hcompare : compare p q = compareComponents p.components q.components := rfl
  rw [hcompare, compareComponents_eq]
  exact Std.LawfulEqCmp.compare_eq_iff_eq

variable {p q : Path} (h : p.components = q.components)
include h

/-- The name of a file depends on components only, not on how the path is spelled. -/
theorem fileName?_congr : p.fileName? = q.fileName? := by
  unfold fileName?
  rw [h]

/-- The extension depends on components only. -/
theorem extension?_congr : p.extension? = q.extension? := by
  unfold extension?
  rw [fileName?_congr h]

/-- The parent depends on components only. -/
theorem parent?_congr : p.parent? = q.parent? := by
  unfold parent?
  rw [h]

/-- Whether a path is below another depends on components only. -/
theorem startsWith_congr (base : Path) : p.startsWith base = q.startsWith base := by
  unfold startsWith
  rw [h]

end Path

end NedWorkspace
