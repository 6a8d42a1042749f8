/-
# What is found of a regular expression

`Found` says where the pieces of an expression are found in a text: the anchors at its two ends, a character
where one of its kind is, a star over any run of such characters. `Library.Documented` is what a library for
regular expressions promises of an expression that is written as these pieces are (`written`): if it is accepted
at all, it is found in just the texts that have the pieces from some place on.

The library that runs here keeps the promise (`Library.small_documented`) and accepts all such expressions
(`Library.isSome_compile_small`). Many cuts of a text may have to be tried, and the rows of its table try them
all at once: each tells of every suffix of the text whether the pieces are found there (`Tells`), and one
piece turns the row of what follows into its own.
-/

import Mathlib.Data.List.Forall2
import Mathlib.Data.List.Infix
import NedWorkspace.Pattern

namespace NedWorkspace

namespace Pattern

/-- How an expression for one character is written. -/
def Atom.text (escape : String → String) : Atom → String
  | any => "."
  | literal c => escape (String.singleton c)
  | except c => "[^" ++ String.singleton c ++ "]"

/-- How a piece of an expression is written. -/
def Piece.text (escape : String → String) : Piece → String
  | start => "^"
  | stop => "$"
  | one a => a.text escape
  | many a => a.text escape ++ "*"

/-- How an expression is written. -/
def written (escape : String → String) : List Piece → String
  | [] => ""
  | p :: ps => p.text escape ++ written escape ps

/-- Pieces are written one after another. -/
theorem written_append (escape : String → String) (ps qs : List Piece) :
    written escape (ps ++ qs) = written escape ps ++ written escape qs := by
  induction ps with
  | nil => exact String.empty_append.symm
  | cons p ps ih => rw [List.cons_append, written, written, ih, String.append_assoc]

/-- A character that is left out of a class has no other meaning there. -/
def Piece.Plain : Piece → Prop
  | one (.except c) => isPlainInClass c = true
  | many (.except c) => isPlainInClass c = true
  | _ => True

/-- Pieces are found at a suffix of a text. -/
inductive Found (text : List Char) : List Piece → List Char → Prop
  | nil (rest : List Char) : Found text [] rest
  | start {ps : List Piece} (h : Found text ps text) : Found text (.start :: ps) text
  | stop {ps : List Piece} (h : Found text ps []) : Found text (.stop :: ps) []
  | one {a : Atom} {ps : List Piece} {c : Char} {rest : List Char} (hc : a.takes c = true)
      (h : Found text ps rest) : Found text (.one a :: ps) (c :: rest)
  | many {a : Atom} {ps : List Piece} {run rest : List Char} (hrun : ∀ c ∈ run, a.takes c = true)
      (h : Found text ps rest) : Found text (.many a :: ps) (run ++ rest)

/-- **What a library promises.** An expression that it accepts is found in a text if the pieces of the
expression are found somewhere in it. -/
structure Library.Documented (lib : Library) : Prop where
  search : ∀ {ps : List Piece}, (∀ p ∈ ps, p.Plain) → ∀ {search : String → Bool},
    lib.compile (written lib.escape ps) = some search →
      ∀ s : String, search s = true ↔ ∃ suffix, suffix <:+ s.toList ∧ Found s.toList ps suffix

/-! ### Cases -/

section Cases

variable {text rest : List Char} {a : Atom} {ps : List Piece}

/-- No pieces are found anywhere. -/
theorem found_nil : Found text [] rest ↔ True :=
  iff_true_intro (.nil rest)

/-- The beginning is found at the whole text. -/
theorem found_start : Found text (.start :: ps) rest ↔ rest = text ∧ Found text ps rest := by
  constructor
  · intro h
    cases h with
    | start h => exact ⟨rfl, h⟩
  · rintro ⟨rfl, h⟩
    exact .start h

/-- The end is found behind the text. -/
theorem found_stop : Found text (.stop :: ps) rest ↔ rest = [] ∧ Found text ps rest := by
  constructor
  · intro h
    cases h with
    | stop h => exact ⟨rfl, h⟩
  · rintro ⟨rfl, h⟩
    exact .stop h

/-- One character is found before the other pieces. -/
theorem found_one : Found text (.one a :: ps) rest ↔
    ∃ c more, rest = c :: more ∧ a.takes c = true ∧ Found text ps more := by
  constructor
  · intro h
    cases h with
    | one hc h => exact ⟨_, _, rfl, hc, h⟩
  · rintro ⟨c, more, rfl, hc, h⟩
    exact .one hc h

/-- A run of characters is found before the other pieces. -/
theorem found_many : Found text (.many a :: ps) rest ↔
    ∃ run more, rest = run ++ more ∧ (∀ c ∈ run, a.takes c = true) ∧ Found text ps more := by
  constructor
  · intro h
    cases h with
    | many hrun h => exact ⟨_, _, rfl, hrun, h⟩
  · rintro ⟨run, more, rfl, hrun, h⟩
    exact .many hrun h

end Cases

/-! ### The rows of a table -/

/-- A row tells, for each suffix of a text from the longest on, whether it has a property. -/
def Tells (p : List Char → Prop) (cs : List Char) (row : List Bool) : Prop :=
  List.Forall₂ (fun suffix b => b = true ↔ p suffix) cs.tails row

namespace Tells

variable {p q : List Char → Prop} {cs : List Char} {row : List Bool}

/-- The first entry is about the whole text. -/
theorem headD (h : Tells p cs row) : row.headD false = true ↔ p cs := by
  cases cs <;> cases h <;> assumption

/-- A row tells the same of a property that comes to the same. -/
theorem congr (hpq : ∀ suffix, p suffix ↔ q suffix) (h : Tells p cs row) : Tells q cs row :=
  List.Forall₂.imp (fun suffix _ hb => hb.trans (hpq suffix)) h

/-- Some entry is true if the property holds somewhere. -/
theorem any (h : Tells p cs row) : row.any id = true ↔ ∃ suffix, suffix <:+ cs ∧ p suffix := by
  simp only [← List.mem_tails]
  unfold Tells at h
  generalize cs.tails = suffixes at h ⊢
  induction h with
  | nil => simp
  | cons hb _ ih => simp [hb, ih]

/-- Where no suffix has the property, no entry is true. -/
theorem none_of (hq : ∀ suffix ∈ cs.tails, ¬ q suffix) (h : Tells p cs row) :
    Tells q cs (row.map fun _ => false) := by
  refine List.forall₂_map_right_iff.mpr (((List.forall₂_and_left _ _).mpr ⟨hq, h⟩).imp ?_)
  rintro suffix b ⟨hsuffix, -⟩
  simp [hsuffix]

/-- No pieces are left to be found. -/
theorem blank (cs : List Char) : Tells (fun _ => True) cs (cs.map (fun _ => true) ++ [true]) := by
  induction cs with
  | nil => exact .cons (by simp) .nil
  | cons c cs ih => exact .cons (by simp) ih

/-- The beginning is at the whole text. -/
theorem startRow (h : Tells p cs row) :
    Tells (fun suffix => suffix = cs ∧ p suffix) cs (startRow row) := by
  cases cs with
  | nil =>
    cases h with
    | cons hb hnone =>
      cases hnone
      exact .cons (by simpa using hb) .nil
  | cons c cs =>
    cases h with
    | cons hb hlater =>
      refine .cons (by simpa using hb) (none_of (fun suffix hsuffix => ?_) hlater)
      rintro ⟨rfl, -⟩
      exact absurd ((List.mem_tails _ _).mp hsuffix).length_le (Nat.not_succ_le_self _)

/-- The end is at the empty suffix. -/
theorem stopRow (h : Tells p cs row) :
    Tells (fun suffix => suffix = [] ∧ p suffix) cs (stopRow row) := by
  induction cs generalizing row with
  | nil =>
    cases h with
    | cons hb hnone =>
      cases hnone
      exact .cons (by simpa using hb) .nil
  | cons c cs ih =>
    cases h with
    | @cons _ b _ later hb hlater =>
      cases later with
      | nil => cases cs <;> cases hlater
      | cons => exact .cons (by simp) (ih hlater)

/-- A character goes before what the later pieces are found at. -/
theorem oneRow (takes : Char → Bool) (h : Tells p cs row) :
    Tells (fun suffix => ∃ c rest, suffix = c :: rest ∧ takes c = true ∧ p rest) cs
      (oneRow takes cs row) := by
  induction cs generalizing row with
  | nil => exact .cons (by simp) .nil
  | cons d ds ih =>
    cases h with
    | cons hb hlater =>
      refine .cons ?_ (ih hlater)
      rw [Bool.and_eq_true, headD hlater]
      constructor
      · rintro ⟨hd, hrest⟩
        exact ⟨d, ds, rfl, hd, hrest⟩
      · rintro ⟨c, rest, heq, hc, hrest⟩
        obtain ⟨rfl, rfl⟩ := List.cons.inj heq
        exact ⟨hc, hrest⟩

/-- A run of characters goes before what the later pieces are found at. -/
theorem manyRow (takes : Char → Bool) (h : Tells p cs row) :
    Tells (fun suffix => ∃ run rest, suffix = run ++ rest ∧ (∀ c ∈ run, takes c = true) ∧ p rest) cs
      (manyRow takes cs row) := by
  induction cs generalizing row with
  | nil =>
    cases h with
    | cons hb hnone =>
      cases hnone
      refine .cons (hb.trans ⟨fun hp => ⟨[], [], rfl, by simp, hp⟩, ?_⟩) .nil
      rintro ⟨run, rest, heq, _, hp⟩
      rwa [(List.append_eq_nil_iff.mp heq.symm).2] at hp
  | cons d ds ih =>
    cases h with
    | cons hb hlater =>
      have htail := ih hlater
      refine .cons ?_ htail
      rw [Bool.or_eq_true, Bool.and_eq_true, headD htail, hb]
      constructor
      · rintro (hp | ⟨hd, run, rest, heq, hrun, hp⟩)
        · exact ⟨[], d :: ds, rfl, by simp, hp⟩
        · exact ⟨d :: run, rest, by rw [heq, List.cons_append], List.forall_mem_cons.mpr ⟨hd, hrun⟩, hp⟩
      · -- Either the run is empty or it begins with the first character.
        rintro ⟨run, rest, heq, hrun, hp⟩
        cases run with
        | nil =>
          rw [List.nil_append] at heq
          exact .inl (heq ▸ hp)
        | cons c run =>
          obtain ⟨rfl, hds⟩ := List.cons.inj heq
          rw [List.forall_mem_cons] at hrun
          exact .inr ⟨hrun.1, run, rest, hds, hrun.2, hp⟩

end Tells

/-- **The rows of an expression tell of each suffix whether the pieces are found there.** The induction is on
the pieces, from the last one on. -/
theorem tells_rows (ps : List Piece) (cs : List Char) : Tells (Found cs ps) cs (rows ps cs) := by
  induction ps with
  | nil => exact (Tells.blank cs).congr fun _ => found_nil.symm
  | cons p ps ih =>
    cases p with
    | start => exact ih.startRow.congr fun _ => found_start.symm
    | stop => exact ih.stopRow.congr fun _ => found_stop.symm
    | one a => exact (ih.oneRow a.takes).congr fun _ => found_one.symm
    | many a => exact (ih.manyRow a.takes).congr fun _ => found_many.symm

/-! ### Reading what was written -/

/-- The symbols of a piece. -/
def Piece.symbols : Piece → List Symbol
  | many a => [.piece (.one a), .star]
  | p => [.piece p]

/-- An escaped character is read as itself. -/
theorem symbols?_escapeChar (c : Char) (cs : List Char) :
    symbols? (escapeChar c ++ cs) = (symbols? cs).map (.piece (.one (.literal c)) :: ·) := by
  unfold escapeChar
  split
  · rename_i hmeta
    simp [symbols?, hmeta]
  · rename_i hplain
    have hne (d : Char) (hd : isMeta d = true) : c ≠ d := fun h => hplain (h ▸ hd)
    rw [List.singleton_append, symbols?]
    · simp [hplain, hne '^' rfl, hne '$' rfl, hne '.' rfl, hne '*' rfl]
    · exact fun d ds h => absurd h (hne '\\' rfl)
    · exact fun d ds h => absurd h (hne '[' rfl)

/-- An expression for one character is read as what it was written from. -/
theorem symbols?_atom {a : Atom} (h : (Piece.one a).Plain) (cs : List Char) :
    symbols? ((a.text Library.small.escape).toList ++ cs) =
      (symbols? cs).map (.piece (.one a) :: ·) := by
  cases a with
  | any => simp [Atom.text, symbols?]
  | literal c => simpa [Atom.text, Library.small] using symbols?_escapeChar c cs
  | except c =>
    have hplain : isPlainInClass c = true := h
    simp [Atom.text, symbols?, hplain]

/-- A piece is read as what it was written from. -/
theorem symbols?_piece {p : Piece} (h : p.Plain) (cs : List Char) :
    symbols? ((p.text Library.small.escape).toList ++ cs) = (symbols? cs).map (p.symbols ++ ·) := by
  cases p with
  | start => simp [Piece.text, Piece.symbols, symbols?]
  | stop => simp [Piece.text, Piece.symbols, symbols?]
  | one a => exact symbols?_atom h cs
  | many a =>
    have hstar : symbols? ('*' :: cs) = (symbols? cs).map (.star :: ·) := by simp [symbols?]
    rw [Piece.text, String.toList_append, List.append_assoc]
    refine (symbols?_atom (by cases a <;> exact h) _).trans ?_
    rw [show "*".toList ++ cs = '*' :: cs from rfl, hstar, Option.map_map]
    rfl

/-- The symbols of a piece are put together again. -/
theorem pieces?_symbols {p : Piece} {ps : List Piece} {more : List Symbol}
    (h : pieces? more = some ps) : pieces? (p.symbols ++ more) = some (p :: ps) := by
  cases p with
  | start => simp [Piece.symbols, pieces?, h]
  | stop => simp [Piece.symbols, pieces?, h]
  | many a => simp [Piece.symbols, pieces?, h]
  | one a =>
    -- The star of another piece does not come first.
    cases more with
    | nil => simpa [Piece.symbols, pieces?] using h
    | cons s more =>
      cases s with
      | star => exact nomatch h
      | piece => simp [Piece.symbols, pieces?, h]

/-- **An expression is read as the pieces that it was written from.** -/
theorem read?_written {ps : List Piece} (h : ∀ p ∈ ps, p.Plain) :
    read? (written Library.small.escape ps) = some ps := by
  have hsymbols : ∃ ss, symbols? (written Library.small.escape ps).toList = some ss ∧
      pieces? ss = some ps := by
    induction ps with
    | nil => exact ⟨[], rfl, rfl⟩
    | cons p ps ih =>
      rw [List.forall_mem_cons] at h
      obtain ⟨ss, hss, hps⟩ := ih h.2
      refine ⟨p.symbols ++ ss, ?_, pieces?_symbols hps⟩
      rw [written, String.toList_append, symbols?_piece h.1, hss]
      rfl
  obtain ⟨ss, hss, hps⟩ := hsymbols
  rw [read?, hss]
  exact hps

/-- **The library that runs here finds what it should.** -/
theorem Library.small_documented : Library.small.Documented where
  search {ps} hplain {search} hsearch s := by
    have hcompile : Library.small.compile (written Library.small.escape ps) =
        some fun s => (rows ps s.toList).any id := congrArg (Option.map _) (read?_written hplain)
    obtain rfl := Option.some.inj (hsearch.symm.trans hcompile)
    exact (tells_rows ps s.toList).any

/-- It accepts what is written as its pieces are. -/
theorem Library.isSome_compile_small {ps : List Piece} (h : ∀ p ∈ ps, p.Plain) :
    (Library.small.compile (written Library.small.escape ps)).isSome = true := by
  change ((read? _).map _).isSome = true
  rw [read?_written h]
  rfl

end Pattern

end NedWorkspace
