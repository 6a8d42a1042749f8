/-
# What an import specification stands for

SPEC_FULL, section 4.3: `*` is one segment, `**` any number of them.

`ImportSpec.Fits` says when a qualified name has the shape of a specification, reading both from the left: a
character stands for itself, `**` for a run without a line feed, any other `*` for a run without a point. A
name can be cut into such runs in many ways.

What is run is a regular expression, made character by character from the specification. It is written as
some pieces between two anchors are (`ImportSpec.expression_eq`), and these are found in a name exactly if
the name fits the specification (`ImportSpec.found_pieces`). So whatever library compiles the expression, if
it does what is promised of regular expressions, the import covers the names that fit. The main result is
`ImportSpec.covers_exactly`.
-/

import NedWorkspace.Import
import NedWorkspace.Proofs.Pattern

namespace NedWorkspace

namespace ImportSpec

open Pattern

/-- A name can be cut as a specification says. Stars are taken in pairs from the left: a star is a
single one only if no other follows. -/
inductive Fits : List Char → List Char → Prop
  | nil : Fits [] []
  | literal {c : Char} {spec name : List Char} (hc : c ≠ '*') (h : Fits spec name) :
      Fits (c :: spec) (c :: name)
  | star {spec run name : List Char} (hsingle : spec.head? ≠ some '*') (hrun : '.' ∉ run)
      (h : Fits spec name) : Fits ('*' :: spec) (run ++ name)
  | starStar {spec run name : List Char} (hrun : '\n' ∉ run) (h : Fits spec name) :
      Fits ('*' :: '*' :: spec) (run ++ name)

variable {spec name : List Char}

/-- Nothing but the empty name fits the empty specification. -/
theorem fits_nil : Fits [] name ↔ name = [] :=
  ⟨fun h => by cases h; rfl, fun h => h ▸ .nil⟩

/-- A character of a specification stands for itself. -/
theorem fits_literal {c : Char} (hc : c ≠ '*') :
    Fits (c :: spec) name ↔ ∃ rest, name = c :: rest ∧ Fits spec rest := by
  constructor
  · intro h
    cases h with
    | literal _ h => exact ⟨_, rfl, h⟩
    | star => exact absurd rfl hc
    | starStar => exact absurd rfl hc
  · rintro ⟨rest, rfl, h⟩
    exact .literal hc h

/-- A single star stands for a run without a point. -/
theorem fits_star (hsingle : spec.head? ≠ some '*') :
    Fits ('*' :: spec) name ↔ ∃ run rest, name = run ++ rest ∧ '.' ∉ run ∧ Fits spec rest := by
  constructor
  · intro h
    cases h with
    | literal hc => exact absurd rfl hc
    | star _ hrun h => exact ⟨_, _, rfl, hrun, h⟩
    | starStar => exact absurd rfl hsingle
  · rintro ⟨run, rest, rfl, hrun, h⟩
    exact .star hsingle hrun h

/-- Two stars stand for a run without a line feed. -/
theorem fits_starStar :
    Fits ('*' :: '*' :: spec) name ↔ ∃ run rest, name = run ++ rest ∧ '\n' ∉ run ∧ Fits spec rest := by
  constructor
  · intro h
    cases h with
    | literal hc => exact absurd rfl hc
    | star hsingle => exact absurd rfl hsingle
    | starStar hrun h => exact ⟨_, _, rfl, hrun, h⟩
  · rintro ⟨run, rest, rfl, hrun, h⟩
    exact .starStar hrun h

/-! ### The expression of a specification -/

/-- The pieces that a specification stands for. -/
def pieces : List Char → List Piece
  | [] => []
  | c :: cs =>
    if c = '*' then
      match cs with
      | d :: ds =>
        if d = '*' then .many .any :: pieces ds else .many (.except '.') :: pieces (d :: ds)
      | [] => [.many (.except '.')]
    else .one (.literal c) :: pieces cs

/-- The part of an expression that is made of some characters is that of their pieces. -/
theorem expressionOfChars_eq (escape : String → String) (spec : List Char) :
    expressionOfChars escape spec = written escape (pieces spec) := by
  fun_induction pieces spec with
  | case1 => rfl
  | case2 spec ih => simp [expressionOfChars, written, Piece.text, Atom.text, ih]
  | case3 d spec hd ih => simp [expressionOfChars, written, Piece.text, Atom.text, ih, hd]
  | case4 => rfl
  | case5 c spec hc ih =>
    rw [expressionOfChars.eq_def, written, ← ih]
    exact if_neg hc

/-- **The expression of a specification is that of its pieces, between the two ends of a name.** -/
theorem expression_eq (escape : String → String) (i : ImportSpec) :
    i.expression escape = written escape (.start :: (pieces i.text.toList ++ [.stop])) := by
  rw [written, written_append, ← expressionOfChars_eq, ← String.append_assoc]
  rfl

/-- No piece of a specification leaves out a character that means something else in a class. -/
theorem plain_pieces (spec : List Char) : ∀ p ∈ pieces spec, p.Plain := by
  fun_induction pieces spec with
  | case1 => simp
  | case2 spec ih => exact List.forall_mem_cons.mpr ⟨trivial, ih⟩
  | case3 d spec hd ih => exact List.forall_mem_cons.mpr ⟨rfl, ih⟩
  | case4 => exact List.forall_mem_singleton.mpr rfl
  | case5 c spec hc ih => exact List.forall_mem_cons.mpr ⟨trivial, ih⟩

/-- The anchors are plain, too. -/
theorem plain_expression (i : ImportSpec) :
    ∀ p ∈ Piece.start :: (pieces i.text.toList ++ [.stop]), p.Plain := by
  rw [List.forall_mem_cons, List.forall_mem_append]
  exact ⟨trivial, plain_pieces _, List.forall_mem_singleton.mpr trivial⟩

/-- A run that takes all but one character is one without it. -/
theorem forall_takes_iff {a : Atom} {c : Char} (h : ∀ d, a.takes d = (d != c)) (run : List Char) :
    (∀ d ∈ run, a.takes d = true) ↔ c ∉ run := by
  simp only [h, bne_iff_ne]
  exact ⟨fun hall hmem => hall c hmem rfl, fun hnot d hd heq => hnot (heq ▸ hd)⟩

/-- **The pieces of a specification are found up to the end of what fits it.** The induction is on the
specification as it is read into pieces. -/
theorem found_pieces (text spec rest : List Char) :
    Found text (pieces spec ++ [.stop]) rest ↔ Fits spec rest := by
  fun_induction pieces spec generalizing rest with
  | case1 => rw [List.nil_append, found_stop, found_nil, and_true, fits_nil]
  | case2 spec ih =>
    rw [List.cons_append, found_many, fits_starStar]
    simp only [ih, forall_takes_iff (a := .any) fun _ => rfl]
  | case3 d spec hd ih =>
    have hsingle : (d :: spec).head? ≠ some '*' := fun heq => hd (Option.some.inj heq)
    rw [List.cons_append, found_many, fits_star hsingle]
    simp only [ih, forall_takes_iff (a := .except '.') fun _ => rfl]
  | case4 =>
    rw [List.singleton_append, found_many, fits_star (by simp)]
    simp only [found_stop, found_nil, and_true, fits_nil, forall_takes_iff (a := .except '.') fun _ => rfl]
  | case5 c spec hc ih =>
    rw [List.cons_append, found_one, fits_literal hc]
    simp [ih, Atom.takes]

/-- Behind the beginning there is the whole name, so nothing may stand before what fits. -/
theorem found_expression (name spec : List Char) :
    (∃ suffix, suffix <:+ name ∧ Found name (.start :: (pieces spec ++ [.stop])) suffix) ↔
      Fits spec name := by
  simp only [found_start, found_pieces]
  constructor
  · rintro ⟨_, _, rfl, h⟩
    exact h
  · exact fun h => ⟨name, List.suffix_rfl, rfl, h⟩

/-- Without stars a specification fits just itself. -/
theorem fits_iff_of_not_mem (hspec : '*' ∉ spec) : Fits spec name ↔ name = spec := by
  induction spec generalizing name with
  | nil => exact fits_nil
  | cons c spec ih =>
    rw [List.mem_cons, not_or] at hspec
    rw [fits_literal (Ne.symm hspec.1)]
    simp only [ih hspec.2]
    exact ⟨fun ⟨rest, hname, hrest⟩ => hrest ▸ hname, fun hname => ⟨spec, hname, rfl⟩⟩

theorem isWildcard_eq_false {i : ImportSpec} : i.isWildcard = false ↔ '*' ∉ i.text.toList := by
  simp [isWildcard]

/-- **A specification covers the names that fit it,** if the library does what is promised and accepts the
expression. -/
theorem coversBy_iff_fits {lib : Library} (hlib : lib.Documented) {i : ImportSpec}
    (haccepted : i.isWildcard = true → (lib.compile (i.expression lib.escape)).isSome = true)
    (qname : String) : i.coversBy lib qname = true ↔ Fits i.text.toList qname.toList := by
  unfold coversBy search?
  split
  · rename_i search hsearch
    obtain ⟨-, hcompile⟩ := Option.ite_none_right_eq_some.mp hsearch
    rw [expression_eq] at hcompile
    exact (hlib.search i.plain_expression hcompile qname).trans (found_expression ..)
  · rename_i hnone
    have hplain : i.isWildcard = false := by
      refine Bool.eq_false_iff.mpr fun hstar => ?_
      rw [if_pos hstar] at hnone
      exact absurd (haccepted hstar) (by simp [hnone])
    rw [fits_iff_of_not_mem (isWildcard_eq_false.mp hplain), beq_iff_eq, String.toList_inj, eq_comm]

/-- A simple name is named if it is all of a text or what follows one of its points. -/
theorem isSuffixOf_point_iff {text name : String} :
    ('.' :: name.toList).isSuffixOf text.toList = true ↔ ∃ front, text = front ++ "." ++ name := by
  rw [List.isSuffixOf_iff_suffix]
  constructor
  · rintro ⟨front, hfront⟩
    refine ⟨String.ofList front, String.toList_injective ?_⟩
    simp [← hfront]
  · rintro ⟨front, rfl⟩
    exact ⟨front.toList, by simp⟩

/-- **Import specifications mean what they say.** Take any library for regular expressions that does what
is promised and accepts the expression of a specification, if that has a star. Then the specification covers a
qualified name just if it has no star and is the name, or the name can be cut into runs as its stars and
characters say; and it names a simple name just if it has no star and is that name or ends with it behind a
point. -/
theorem covers_exactly {lib : Library} (hlib : lib.Documented) (i : ImportSpec)
    (haccepted : i.isWildcard = true → (lib.compile (i.expression lib.escape)).isSome = true)
    (name : String) :
    (i.coversBy lib name = true ↔
      ('*' ∉ i.text.toList ∧ name = i.text) ∨ Fits i.text.toList name.toList) ∧
    (i.names name = true ↔
      '*' ∉ i.text.toList ∧ (i.text = name ∨ ∃ front, i.text = front ++ "." ++ name)) := by
  constructor
  · rw [coversBy_iff_fits hlib haccepted]
    refine ⟨.inr, ?_⟩
    rintro (⟨hplain, rfl⟩ | h)
    · exact (fits_iff_of_not_mem hplain).mpr rfl
    · exact h
  · unfold names
    rw [Bool.and_eq_true, Bool.not_eq_true', isWildcard_eq_false, Bool.or_eq_true, beq_iff_eq,
      isSuffixOf_point_iff]

/-- The library that runs here accepts the expression of every specification. Three stars are a pair and a
single one, so that a name may have line feeds only behind its last point; and a bracket is just a
bracket. -/
theorem covers_exactly_small :
    Library.small.Documented ∧
      (∀ i : ImportSpec, (Library.small.compile (i.expression Library.small.escape)).isSome = true) ∧
      (⟨"a.***("⟩ : ImportSpec).expression Library.small.escape = "^a\\..*[^.]*\\($" ∧
      Fits "a.***(".toList "a.b.c\nd(".toList ∧ (⟨"a.***("⟩ : ImportSpec).covers "a.b.c\nd(" = true ∧
      ¬ Fits "a.***(".toList "a.b\nc.d(".toList := by
  have haccepted (i : ImportSpec) :
      (Library.small.compile (i.expression Library.small.escape)).isSome = true := by
    rw [expression_eq]
    exact Library.isSome_compile_small i.plain_expression
  have hcovers (name : String) :=
    (covers_exactly Library.small_documented ⟨"a.***("⟩ (fun _ => haccepted _) name).1
  have hstar : ¬ ('*' ∉ "a.***(".toList) := by decide
  have hfits : Fits "a.***(".toList "a.b.c\nd(".toList :=
    ((hcovers _).mp (by decide +kernel)).resolve_left fun h => hstar h.1
  refine ⟨Library.small_documented, haccepted, by decide +kernel, hfits, (hcovers _).mpr (.inr hfits), ?_⟩
  exact fun h => absurd ((hcovers _).mpr (.inr h)) (by decide +kernel)

end ImportSpec

end NedWorkspace
