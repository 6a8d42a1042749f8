/-
# The longest fit

The first lexeme of a text is the longest fit of the patterns, and of equally long ones that of the pattern
that is listed first (`Scan.longest_split`, `Scan.le_longest`). The scanner that texts are read with changes
the class of one sort of lexeme, a reserved word right before a dollar sign (`Scan.first_cases`). What it
calls an identifier is one all the same: it is as long as the fit of the pattern for identifiers
(`Scan.fit_of_first`).
-/

import Mathlib.Data.List.TakeWhile
import NedWorkspace.Token.Scan

namespace NedWorkspace

namespace Scan

/-! ### Lexemes and tokens -/

/-- What holds of whatever a scanner finds holds of all lexemes. -/
theorem forall_lexemes {scan : Scanner} {P : Lexeme → Prop}
    (h : ∀ c cs, P ⟨(scan c cs).1, c :: cs.take ((scan c cs).2 - 1)⟩) (cs : List Char) :
    ∀ l ∈ lexemes scan cs, P l := by
  fun_induction lexemes scan cs with
  | case1 => exact fun _ hl => absurd hl List.not_mem_nil
  | case2 c cs found ih => exact List.forall_mem_cons.mpr ⟨h c cs, ih⟩

/-- Every token is a lexeme. -/
theorem exists_lexeme_of_mem_place {offset : Nat} {lead : List Char} {ls : List Lexeme} {t : Token}
    (h : t ∈ place offset lead ls) : ∃ l ∈ ls, t.kind = l.kind ∧ t.text = String.ofList l.chars := by
  fun_induction place offset lead ls with
  | case1 => exact absurd h List.not_mem_nil
  | case2 offset lead l ls stop htrivia ih =>
    obtain ⟨m, hm, hsame⟩ := ih h
    exact ⟨m, List.mem_cons_of_mem l hm, hsame⟩
  | case3 offset lead l ls stop htrivia ih =>
    rcases List.mem_cons.mp h with rfl | h
    · exact ⟨l, List.mem_cons_self, rfl, rfl⟩
    · obtain ⟨m, hm, hsame⟩ := ih h
      exact ⟨m, List.mem_cons_of_mem l hm, hsame⟩

/-! ### Fits of patterns -/

/-- Of patterns that cover equally much the first is taken. -/
theorem longest_split {cs : List Char} {ps : List (Kind × Pattern)} {kind : Kind} {n : Nat}
    (h : longest cs ps = some (kind, n)) :
    ∃ before pattern after, ps = before ++ (kind, pattern) :: after ∧ pattern cs = some n ∧
      ∀ p ∈ before, ∀ m, p.2 cs = some m → m < n := by
  induction ps with
  | nil => exact absurd h (by simp [longest])
  | cons p ps ih =>
    obtain ⟨k, pattern⟩ := p
    have hlater (hps : longest cs ps = some (kind, n)) (hp : ∀ m, pattern cs = some m → m < n) :
        ∃ before pattern' after, (k, pattern) :: ps = before ++ (kind, pattern') :: after ∧
          pattern' cs = some n ∧ ∀ p ∈ before, ∀ m, p.2 cs = some m → m < n := by
      obtain ⟨before, pattern', after, rfl, hfit, hbefore⟩ := ih hps
      exact ⟨_ :: before, pattern', after, rfl, hfit, List.forall_mem_cons.mpr ⟨hp, hbefore⟩⟩
    have hfirst {m : Nat} (hfit : pattern cs = some m) (heq : some (k, m) = some (kind, n)) :
        ∃ before pattern' after, (k, pattern) :: ps = before ++ (kind, pattern') :: after ∧
          pattern' cs = some n ∧ ∀ p ∈ before, ∀ m, p.2 cs = some m → m < n := by
      obtain ⟨rfl, rfl⟩ := Prod.mk.inj (Option.some.inj heq)
      exact ⟨[], pattern, ps, rfl, hfit, fun p hp => absurd hp List.not_mem_nil⟩
    rw [longest] at h
    split at h
    · rename_i hnone
      exact hlater h fun m hm => absurd hm (by simp [hnone])
    · rename_i m hfit _
      exact hfirst hfit h
    · rename_i m other k' hfit hps
      split at h
      · exact hfirst hfit h
      · rename_i hlt
        refine hlater (hps.trans h) fun l hl => ?_
        rw [hfit] at hl
        obtain rfl := Option.some.inj hl
        have heq := (Prod.mk.inj (Option.some.inj h)).2
        omega

/-- The longest fit is the fit of one of the patterns. -/
theorem mem_of_longest {cs : List Char} {ps : List (Kind × Pattern)} {kind : Kind} {n : Nat}
    (h : longest cs ps = some (kind, n)) : ∃ pattern, (kind, pattern) ∈ ps ∧ pattern cs = some n := by
  obtain ⟨before, pattern, after, rfl, hfit, _⟩ := longest_split h
  exact ⟨pattern, by simp, hfit⟩

/-- Patterns that fit alike have the same longest fit. -/
theorem longest_congr {cs ds : List Char} {ps : List (Kind × Pattern)}
    (h : ∀ p ∈ ps, p.2 cs = p.2 ds) : longest cs ps = longest ds ps := by
  induction ps with
  | nil => rfl
  | cons p ps ih =>
    obtain ⟨kind, pattern⟩ := p
    have hpattern : pattern cs = pattern ds := h (kind, pattern) List.mem_cons_self
    rw [longest, longest, hpattern, ih fun q hq => h q (List.mem_cons_of_mem _ hq)]

/-- Every fit is at most as long as the longest. -/
theorem le_longest {cs : List Char} {ps : List (Kind × Pattern)} {k : Kind} {fits : Pattern} {n : Nat}
    (hp : (k, fits) ∈ ps) (hfit : fits cs = some n) :
    ∃ kind m, longest cs ps = some (kind, m) ∧ n ≤ m := by
  induction ps with
  | nil => exact absurd hp List.not_mem_nil
  | cons q ps ih =>
    obtain ⟨kind, pattern⟩ := q
    rw [longest]
    rcases List.mem_cons.mp hp with heq | hp
    · obtain ⟨rfl, rfl⟩ := Prod.mk.inj heq
      rw [hfit]
      cases longest cs ps with
      | none => exact ⟨k, n, rfl, le_rfl⟩
      | some found =>
        obtain ⟨other, m⟩ := found
        dsimp only
        split
        · exact ⟨k, n, rfl, le_rfl⟩
        · rename_i hlt
          exact ⟨other, m, rfl, by omega⟩
    · obtain ⟨other, m, hlongest, hle⟩ := ih hp
      rw [hlongest]
      cases pattern cs with
      | none => exact ⟨other, m, rfl, hle⟩
      | some l =>
        dsimp only
        split
        · rename_i hml
          exact ⟨kind, l, rfl, hle.trans hml⟩
        · exact ⟨other, m, rfl, hle⟩

/-- The pattern of a class. -/
def patternOf : Kind → Pattern
  | .blank => run isSeparator
  | .comment => comment
  | .keyword k => exactly k.spelling.toList
  | .ident => ident
  | .integer => run Char.isDigit
  | .real => real
  | .string => quoted
  | .mark m => exactly m.spelling.toList
  | .error => fun _ => none

/-- The patterns are those of the classes, but for errors. -/
theorem mem_patterns_iff {kind : Kind} {pattern : Pattern} :
    (kind, pattern) ∈ patterns ↔ kind ≠ .error ∧ pattern = patternOf kind := by
  constructor
  · intro h
    simp only [patterns, List.mem_append, List.mem_cons, List.mem_map, List.not_mem_nil, or_false,
      Prod.mk.injEq] at h
    obtain (((⟨rfl, rfl⟩ | ⟨rfl, rfl⟩) | ⟨k, _, rfl, rfl⟩) | ⟨rfl, rfl⟩ | ⟨rfl, rfl⟩ | ⟨rfl, rfl⟩ |
      ⟨rfl, rfl⟩) | ⟨m, _, rfl, rfl⟩ := h
    all_goals exact ⟨by simp, rfl⟩
  · rintro ⟨herror, rfl⟩
    cases kind with
    | error => exact absurd rfl herror
    | keyword k =>
      simp only [patterns, patternOf, List.mem_append, List.mem_map]
      exact .inl (.inl (.inr ⟨k, k.mem_all, rfl⟩))
    | mark m =>
      simp only [patterns, patternOf, List.mem_append, List.mem_map]
      exact .inr ⟨m, m.mem_all, rfl⟩
    | _ => simp [patterns, patternOf]

/-! ### Scanners -/

variable {c : Char} {cs ds : List Char} {kind : Kind} {n : Nat}

/-- What is no error is the longest fit. -/
theorem longest_of_best (h : best c cs = (kind, n)) (hkind : kind ≠ .error) :
    longest (c :: cs) patterns = some (kind, n) := by
  unfold best at h
  split at h
  · rename_i hlongest
    exact hlongest.trans (congrArg some h)
  · exact absurd (congrArg Prod.fst h).symm hkind

/-- What is no error is a fit of the pattern of its class. -/
theorem fit_of_best (h : best c cs = (kind, n)) (hkind : kind ≠ .error) :
    patternOf kind (c :: cs) = some n := by
  obtain ⟨pattern, hmem, hfit⟩ := mem_of_longest (longest_of_best h hkind)
  rwa [← (mem_patterns_iff.mp hmem).2]

/-- The scanner that texts are read with finds the same as the one that finds the longest fit, unless that is a
reserved word and a dollar sign follows. -/
theorem first_cases (c : Char) (cs : List Char) :
    first c cs = best c cs ∨ ∃ k n, best c cs = (.keyword k, n) ∧
      (cs.drop (n - 1)).head? = some '$' ∧ first c cs = (.ident, n) := by
  unfold first
  split
  · rename_i k n hbest
    split
    · rename_i hdollar
      exact .inr ⟨k, n, hbest, hdollar, rfl⟩
    · exact .inl hbest.symm
  · exact .inl rfl

/-- The scanner that texts are read with finds lexemes that are as long as the longest fits. -/
theorem length_first (c : Char) (cs : List Char) : (first c cs).2 = (best c cs).2 := by
  rcases first_cases c cs with hbest | ⟨k, n, hbest, -, hfirst⟩
  · rw [hbest]
  · rw [hbest, hfirst]

/-- Where the longest fits are the same and neither or both stand before a dollar sign, the same is read. -/
theorem first_congr (hbest : best c cs = best c ds)
    (hhead : ∀ k n, best c cs = (.keyword k, n) →
      ((cs.drop (n - 1)).head? = some '$' ↔ (ds.drop (n - 1)).head? = some '$')) :
    first c cs = first c ds := by
  unfold first
  rw [← hbest]
  split
  · rename_i k n hkeyword
    exact if_congr (hhead k n hkeyword) rfl rfl
  · rfl

/-- A reserved word is made like a name. -/
theorem spelling_isName (k : Keyword) :
    ∃ c cs, k.spelling.toList = c :: cs ∧ isNameStart c = true ∧ cs.all isNamePart = true := by
  have hall : ∀ k ∈ Keyword.all, k.spelling.toList.head?.any isNameStart = true ∧
      k.spelling.toList.tail.all isNamePart = true := by decide
  obtain ⟨hhead, htail⟩ := hall k k.mem_all
  cases hword : k.spelling.toList with
  | nil => exact absurd hhead (by simp [hword])
  | cons c cs => exact ⟨c, cs, rfl, by simpa [hword] using hhead, by simpa [hword] using htail⟩

/-- A reserved word that is the longest fit ends in the text. -/
theorem keyword_of_best {k : Keyword} (h : best c cs = (.keyword k, n)) :
    k.spelling.toList <+: c :: cs ∧ n = k.spelling.toList.length := by
  have hfit := fit_of_best h nofun
  rw [patternOf, exactly] at hfit
  split at hfit
  · rename_i hpre
    exact ⟨List.isPrefixOf_iff_prefix.mp hpre, (Option.some.inj hfit).symm⟩
  · exact absurd hfit nofun

/-- What stands behind a text makes no difference to a longest fit in it, if it is no dollar sign. -/
theorem first_append_of_ne {b : Char} (hb : b ≠ '$') (hbest : best c (cs ++ b :: ds) = best c cs) :
    first c (cs ++ b :: ds) = first c cs := by
  refine first_congr hbest fun k n hkeyword => ?_
  obtain ⟨hpre, hn⟩ := keyword_of_best (hbest ▸ hkeyword)
  have hle : n - 1 ≤ cs.length := by
    have hlength := hpre.length_le
    rw [List.length_cons] at hlength
    omega
  rw [List.drop_append_of_le_length hle]
  cases cs.drop (n - 1) with
  | nil => simpa using hb
  | cons => rfl

/-- **A reserved word that is the longest fit before a dollar sign is as long as the identifier there.** No half
of a gate follows, or the identifier would be longer. -/
theorem ident_of_dollar {k : Keyword} (h : best c cs = (.keyword k, n))
    (hdollar : (cs.drop (n - 1)).head? = some '$') : ident (c :: cs) = some n := by
  obtain ⟨hpre, hn⟩ := keyword_of_best h
  obtain ⟨w, word, hword, hw, hparts⟩ := spelling_isName k
  rw [hword] at hpre hn
  obtain ⟨rfl, more, rfl⟩ : w = c ∧ ∃ more, word ++ more = cs := List.cons_prefix_cons.mp hpre
  rw [hn, List.length_cons, Nat.add_sub_cancel, List.drop_left] at hdollar
  obtain ⟨rest, rfl⟩ := List.head?_eq_some_iff.mp hdollar
  have htake : (word ++ '$' :: rest).takeWhile isNamePart = word := by
    rw [List.takeWhile_append_of_pos (List.all_eq_true.mp hparts)]
    simp [isNamePart]
  have hident : ident (w :: (word ++ '$' :: rest)) =
      some (1 + word.length + halfSuffix ('$' :: rest)) := by
    rw [ident, if_pos hw, htake]
    dsimp only
    rw [List.drop_left]
  have hmem : (Kind.ident, ident) ∈ patterns := mem_patterns_iff.mpr ⟨by simp, rfl⟩
  obtain ⟨_, m, hlongest, hle⟩ := le_longest hmem hident
  obtain ⟨-, rfl⟩ := Prod.mk.inj (Option.some.inj (hlongest.symm.trans (longest_of_best h (by simp))))
  rw [List.length_cons] at hn
  rw [hident]
  exact congrArg some (by omega)

/-- **A lexeme that is no error is the fit of the pattern of its class,** also when a reserved word is read as an
identifier. -/
theorem fit_of_first (h : first c cs = (kind, n)) (hkind : kind ≠ .error) :
    patternOf kind (c :: cs) = some n := by
  rcases first_cases c cs with hbest | ⟨k, m, hbest, hdollar, hfirst⟩
  · exact fit_of_best (hbest.symm.trans h) hkind
  · obtain ⟨rfl, rfl⟩ := Prod.mk.inj (hfirst.symm.trans h)
    exact ident_of_dollar hbest hdollar

end Scan

end NedWorkspace
