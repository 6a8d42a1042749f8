/-
# Tokens written out

A token of the language is one whose text, by itself, is a single lexeme of its kind (`Token.isSound`).
Written out one after another with blanks between them, such tokens are read back as they are
(`tokenize_spell`); the points of qualified names need no blanks around them.

The text of a run of such tokens neither begins nor ends with a blank (`Token.trim_sourceText`).
-/

import Mathlib.Data.List.Chain
import NedWorkspace.Proofs.Token.Boundary
import NedWorkspace.Syntax.Stretch

namespace NedWorkspace

/-- Whether a token is one of the language: the first lexeme of its text is all of it, and it is neither
a blank nor an error. -/
def Token.isSound (t : Token) : Bool :=
  match t.text.toList with
  | [] => false
  | c :: cs =>
    Scan.first c cs == (t.kind, cs.length + 1) && !t.kind.isTrivia && t.kind != .error

/-- A token of the language is the first lexeme of its own text. -/
theorem Token.exists_of_isSound {t : Token} (h : t.isSound = true) :
    ∃ c cs, t.text.toList = c :: cs ∧ Scan.first c cs = (t.kind, cs.length + 1) ∧
      t.kind.isTrivia = false ∧ t.kind ≠ .error := by
  unfold isSound at h
  split at h
  · exact absurd h Bool.false_ne_true
  · rename_i c cs htext
    simp only [Bool.and_eq_true, beq_iff_eq, bne_iff_ne, Bool.not_eq_true'] at h
    exact ⟨c, cs, htext, h.1.1, h.1.2, h.2⟩

namespace Scan

/-! ### The ends of a lexeme -/

/-- A character that is neither blank nor a quote. -/
def isPlain (c : Char) : Bool :=
  !Text.isBlank c && c != '"'

theorem isPlain_of_le {c : Char} (h : 35 ≤ c.toNat) (h' : c.toNat ≤ 126) : isPlain c = true := by
  have hblank : Text.isBlank c = false := by
    simp only [Text.isBlank, Text.blankRanges, List.any_cons, List.any_nil, Bool.or_false,
      Bool.or_eq_false_iff, Bool.and_eq_false_iff, decide_eq_false_iff_not]
    omega
  have hquote : c ≠ '"' := by
    rintro rfl
    exact absurd h (by decide)
  simpa [isPlain, hblank] using hquote

/-- Digits are plain. -/
theorem isPlain_of_isDigit {c : Char} (h : c.isDigit = true) : isPlain c = true := by
  simp only [Char.isDigit, Bool.and_eq_true, decide_eq_true_eq, UInt32.le_iff_toNat_le] at h
  exact isPlain_of_le (Nat.le_trans (by decide) h.1) (Nat.le_trans h.2 (by decide))

/-- The characters of names are plain. -/
theorem isPlain_of_isNamePart {c : Char} (h : isNamePart c = true) : isPlain c = true := by
  have hcases : (decide (65 ≤ c.val ∧ c.val ≤ 90) || (decide (97 ≤ c.val) && decide (c.val ≤ 122)) ||
      c.isDigit || c == '_') = true := h
  simp only [Bool.or_eq_true, Bool.and_eq_true, decide_eq_true_eq, beq_iff_eq,
    UInt32.le_iff_toNat_le] at hcases
  obtain ((h | h) | h) | rfl := hcases
  · exact isPlain_of_le (Nat.le_trans (by decide) h.1) (Nat.le_trans h.2 (by decide))
  · exact isPlain_of_le (Nat.le_trans (by decide) h.1) (Nat.le_trans h.2 (by decide))
  · exact isPlain_of_isDigit h
  · decide

/-- Nothing blank among characters, and no quote. -/
def Solid (cs : List Char) : Prop :=
  ∀ c ∈ cs, isPlain c = true

/-- A run of plain characters is solid. -/
theorem solid_takeWhile {p : Char → Bool} (hp : ∀ c, p c = true → isPlain c = true)
    (cs : List Char) : Solid (cs.takeWhile p) :=
  fun c hc => hp c (List.mem_takeWhile_imp hc)

theorem take_length_takeWhile (p : Char → Bool) (cs : List Char) :
    cs.take (cs.takeWhile p).length = cs.takeWhile p :=
  (List.prefix_iff_eq_take.mp (List.takeWhile_prefix p)).symm

theorem solid_nil : Solid [] :=
  fun _ hc => absurd hc List.not_mem_nil

theorem solid_cons {c : Char} {cs : List Char} (hc : isPlain c = true) (hcs : Solid cs) :
    Solid (c :: cs) :=
  List.forall_mem_cons.mpr ⟨hc, hcs⟩

/-- Solid texts one after the other are solid. -/
theorem solid_append {cs ds : List Char} (hcs : Solid cs) (hds : Solid ds) : Solid (cs ++ ds) :=
  List.forall_mem_append.mpr ⟨hcs, hds⟩

/-- Digits and whatever solid characters come behind them. -/
theorem solid_take_digits {cs : List Char} {n : Nat}
    (h : Solid ((cs.drop (cs.takeWhile Char.isDigit).length).take n)) :
    Solid (cs.take ((cs.takeWhile Char.isDigit).length + n)) := by
  rw [List.take_add, take_length_takeWhile]
  exact solid_append (solid_takeWhile (fun _ => isPlain_of_isDigit) cs) h

/-- An exponent is solid. -/
theorem solid_exponent (cs : List Char) : Solid (cs.take (exponent cs)) := by
  cases cs with
  | nil => exact solid_nil
  | cons e cs =>
    -- The letter, the sign and the digits are solid, one after another.
    have hdigits {sign n : Nat} (he : isPlain e = true) (hsign : Solid (cs.take sign))
        (hn : ((cs.drop sign).takeWhile Char.isDigit).length = n + 1) :
        Solid ((e :: cs).take (1 + sign + (n + 1))) := by
      rw [Nat.add_assoc, Nat.add_comm 1, List.take_succ_cons, List.take_add, ← hn,
        take_length_takeWhile]
      exact solid_cons he (solid_append hsign (solid_takeWhile (fun _ => isPlain_of_isDigit) _))
    rw [exponent.eq_def]
    dsimp only
    split
    · rename_i he
      have he : isPlain e = true := by
        rcases Bool.or_eq_true_iff.mp he with he | he
        · rw [eq_of_beq he]
          decide
        · rw [eq_of_beq he]
          decide
      split
      · exact solid_nil
      · rename_i n hn
        refine hdigits he ?_ hn
        split
        · rename_i s _
          split
          · rename_i hs
            refine solid_cons ?_ solid_nil
            rcases Bool.or_eq_true_iff.mp hs with hs | hs
            · rw [eq_of_beq hs]
              decide
            · rw [eq_of_beq hs]
              decide
          · exact solid_nil
        · exact solid_nil
    · exact solid_nil

/-- A number is solid. -/
theorem solid_real {cs : List Char} {n : Nat} (h : real cs = some n) : Solid (cs.take n) := by
  rw [real] at h
  dsimp only at h
  split at h
  · exact absurd h (by simp)
  · rename_i point tail hdrop
    split at h
    · rename_i hpoint
      rw [Bool.and_eq_true, beq_iff_eq] at hpoint
      rw [← Option.some.inj h, Nat.add_assoc, Nat.add_assoc]
      refine solid_take_digits ?_
      rw [hdrop, hpoint.1, Nat.add_comm 1, List.take_succ_cons]
      exact solid_cons (by decide) (solid_take_digits (solid_exponent _))
    · exact absurd h (by simp)

/-- A name is solid. -/
theorem solid_ident {cs : List Char} {n : Nat} (h : ident cs = some n) : Solid (cs.take n) := by
  unfold ident at h
  split at h
  · exact absurd h (by simp)
  · rename_i c cs
    split at h
    · rename_i hstart
      have hc : isNamePart c = true := by
        simp only [isNameStart, isNamePart, Char.isAlphanum, Bool.or_eq_true] at hstart ⊢
        exact hstart.imp_left .inl
      rw [← Option.some.inj h, Nat.add_assoc, Nat.add_comm 1, List.take_succ_cons, List.take_add,
        take_length_takeWhile]
      refine solid_cons (isPlain_of_isNamePart hc) (solid_append
        (solid_takeWhile (fun _ => isPlain_of_isNamePart) cs) ?_)
      generalize cs.drop (cs.takeWhile isNamePart).length = rest
      cases rest with
      | nil => exact solid_nil
      | cons d rest =>
        cases rest with
        | nil =>
          rw [halfSuffix_singleton]
          exact solid_nil
        | cons e rest =>
          rw [halfSuffix_cons_cons]
          split
          · rename_i hhalf
            obtain ⟨rfl, rfl | rfl⟩ := hhalf
            · exact solid_cons (by decide) (solid_cons (by decide) solid_nil)
            · exact solid_cons (by decide) (solid_cons (by decide) solid_nil)
          · exact solid_nil
    · exact absurd h (by simp)

/-- A fixed spelling that fits a text of its length is that text. -/
theorem eq_of_exactly {word cs : List Char} (h : exactly word cs = some cs.length) : word = cs := by
  rw [exactly] at h
  split at h
  · rename_i hprefix
    exact (List.isPrefixOf_iff_prefix.mp hprefix).eq_of_length (Option.some.inj h)
  · exact absurd h (by simp)

/-- A string literal ends with its second quote. -/
theorem getLast?_of_quoted {c : Char} {cs : List Char} (h : quoted (c :: cs) = some (cs.length + 1)) :
    c = '"' ∧ cs.getLast? = some '"' := by
  rw [quoted] at h
  split at h
  · rename_i hquotes
    rw [Bool.and_eq_true, beq_iff_eq, beq_iff_eq] at hquotes
    have hitems : items cs = cs.length - 1 := by
      have := Option.some.inj h
      omega
    refine ⟨hquotes.1, ?_⟩
    rw [List.getLast?_eq_getElem?, ← hitems, ← List.head?_drop]
    exact hquotes.2
  · exact absurd h (by simp)

/-- The spellings of keywords and marks are solid. -/
theorem solid_spellings :
    (∀ k ∈ Keyword.all, k.spelling.toList.all isPlain = true) ∧
      ∀ m ∈ Mark.all, m.spelling.toList.all isPlain = true := by
  decide +kernel

/-- What the ends of a token of kind `k` can be. -/
def EndOf (k : Kind) (d : Char) : Prop :=
  Text.isBlank d = false ∧ (d = '"' → k = .string)

/-- A text that the pattern of a class fits has no blank at either end of it, and no quote if it is no
string. -/
theorem endOf_fit {c : Char} {cs : List Char} {k : Kind}
    (hfit : patternOf k (c :: cs) = some (cs.length + 1)) (htrivia : k.isTrivia = false) :
    ∀ d, (c :: cs).head? = some d ∨ (c :: cs).getLast? = some d → EndOf k d := by
  have hends (hsolid : Solid (c :: cs)) :
      ∀ d, (c :: cs).head? = some d ∨ (c :: cs).getLast? = some d → EndOf k d := by
    intro d hd
    have hplain := hsolid d (hd.elim List.mem_of_head? List.mem_of_getLast?)
    simp only [isPlain, Bool.and_eq_true, Bool.not_eq_true', bne_iff_ne] at hplain
    exact ⟨hplain.1, fun hquote => absurd hquote hplain.2⟩
  have hall : (c :: cs).take (cs.length + 1) = c :: cs :=
    List.take_length (l := c :: cs)
  cases k with
  | blank => exact absurd htrivia (by decide)
  | comment => exact absurd htrivia (by decide)
  | error => exact absurd hfit nofun
  | keyword w => exact hends (eq_of_exactly hfit ▸ List.all_eq_true.mp (solid_spellings.1 w w.mem_all))
  | ident => exact hends (hall ▸ solid_ident hfit)
  | integer =>
    refine hends ?_
    have hrun : ((c :: cs).takeWhile Char.isDigit).length = cs.length + 1 := by
      rw [patternOf, run] at hfit
      split at hfit
      · exact absurd hfit (by simp)
      · rename_i n hn
        exact hn.trans (Option.some.inj hfit)
    rw [← hall, ← hrun, take_length_takeWhile]
    exact solid_takeWhile (fun _ => isPlain_of_isDigit) _
  | real => exact hends (hall ▸ solid_real hfit)
  | string =>
    obtain ⟨rfl, hlast⟩ := getLast?_of_quoted hfit
    rintro d (hd | hd)
    · rw [← Option.some.inj hd]
      exact ⟨by decide, fun _ => rfl⟩
    · rw [List.getLast?_cons, hlast, Option.getD_some] at hd
      rw [← Option.some.inj hd]
      exact ⟨by decide, fun _ => rfl⟩
  | mark m => exact hends (eq_of_exactly hfit ▸ List.all_eq_true.mp (solid_spellings.2 m m.mem_all))

/-- So has a text of which the first lexeme is all. -/
theorem endOf_first {c : Char} {cs : List Char} {k : Kind} (h : first c cs = (k, cs.length + 1))
    (htrivia : k.isTrivia = false) (herror : k ≠ .error) :
    ∀ d, (c :: cs).head? = some d ∨ (c :: cs).getLast? = some d → EndOf k d :=
  endOf_fit (fit_of_first h herror) htrivia

end Scan

/-! ### The text of a run of tokens -/

/-- A text without blanks at its ends is not trimmed. -/
theorem Text.trimChars_eq_self {cs : List Char}
    (h : ∀ c, cs.head? = some c ∨ cs.getLast? = some c → Text.isBlank c = false) :
    Text.trimChars cs = cs := by
  have hdrop : ∀ ds : List Char, (∀ c, ds.head? = some c → Text.isBlank c = false) →
      ds.dropWhile Text.isBlank = ds := by
    intro ds hds
    cases ds with
    | nil => rfl
    | cons d ds => rw [List.dropWhile_cons, hds d rfl, if_neg Bool.false_ne_true]
  rw [Text.trimChars, hdrop cs fun c hc => h c (.inl hc), hdrop cs.reverse, List.reverse_reverse]
  intro c hc
  rw [List.head?_reverse] at hc
  exact h c (.inr hc)

namespace Token

/-- The characters of a token, those before it included. -/
def chars (t : Token) : List Char :=
  t.lead.toList ++ t.text.toList

/-- The text of tokens is that of the first one, then the others with what stands before them. -/
theorem toList_sourceText (t : Token) (ts : List Token) :
    (sourceText (t :: ts)).toList = t.text.toList ++ ts.flatMap chars := by
  rw [sourceText]
  generalize t.text = text
  induction ts generalizing text with
  | nil => simp
  | cons u us ih =>
    rw [List.foldl_cons, ih, List.flatMap_cons, chars]
    simp

/-- The two ends of a token are not blank, and no quotes unless it is a string. -/
structure Edged (t : Token) : Prop where
  ne_nil : t.text.toList ≠ []
  endOf : ∀ d, t.text.toList.head? = some d ∨ t.text.toList.getLast? = some d → Scan.EndOf t.kind d

/-- A token of the language has no blank at either end. -/
theorem edged_of_isSound {t : Token} (h : t.isSound = true) : t.Edged := by
  obtain ⟨c, cs, htext, hfirst, htrivia, herror⟩ := exists_of_isSound h
  refine ⟨?_, ?_⟩ <;> rw [htext]
  · exact List.cons_ne_nil c cs
  · exact Scan.endOf_first hfirst htrivia herror

/-- The text of a run of tokens begins with the first and ends with the last. -/
theorem head?_sourceText {t : Token} (ht : t.text.toList ≠ []) (ts : List Token) :
    (sourceText (t :: ts)).toList.head? = t.text.toList.head? := by
  rw [toList_sourceText, List.head?_append_of_ne_nil _ ht]

/-- The text of tokens ends as the last of them does. -/
theorem getLast?_sourceText {ts : List Token} {t : Token} (ht : t.text.toList ≠ [])
    (hlast : ts.getLast? = some t) :
    (sourceText ts).toList.getLast? = t.text.toList.getLast? := by
  cases ts with
  | nil => exact absurd hlast (by simp)
  | cons u us =>
    rw [toList_sourceText]
    cases hus : us.getLast? with
    | none =>
      rw [List.getLast?_eq_none_iff.mp hus] at hlast ⊢
      rw [List.getLast?_singleton, Option.some_inj] at hlast
      rw [hlast, List.flatMap_nil, List.append_nil]
    | some v =>
      rw [List.getLast?_cons, hus, Option.getD_some, Option.some_inj] at hlast
      obtain ⟨vs, rfl⟩ := List.getLast?_eq_some_iff.mp hus
      rw [List.flatMap_append, List.flatMap_singleton, chars, ← List.append_assoc,
        ← List.append_assoc, hlast, List.getLast?_append_of_ne_nil _ ht]

/-- The text of a run of tokens has no blanks at its ends if the first token and the last have none. -/
theorem trim_sourceText_of_edged {t u : Token} {ts : List Token} (ht : t.Edged) (hu : u.Edged)
    (hlast : (t :: ts).getLast? = some u) :
    Text.trim (sourceText (t :: ts)) = sourceText (t :: ts) := by
  rw [Text.trim, Text.trimChars_eq_self, String.ofList_toList]
  rintro d (hd | hd)
  · rw [head?_sourceText ht.ne_nil] at hd
    exact (ht.endOf d (.inl hd)).1
  · rw [getLast?_sourceText hu.ne_nil hlast] at hd
    exact (hu.endOf d (.inr hd)).1

/-- **The text of a run of tokens has no blanks at its ends.** -/
theorem trim_sourceText {ts : List Token} (h : ∀ t ∈ ts, t.isSound = true) :
    Text.trim (sourceText ts) = sourceText ts := by
  cases ts with
  | nil => decide
  | cons t ts =>
    have hlast := List.getLast?_eq_some_getLast (List.cons_ne_nil t ts)
    exact trim_sourceText_of_edged (edged_of_isSound (h t List.mem_cons_self))
      (edged_of_isSound (h _ (List.mem_of_getLast? hlast))) hlast

end Token

/-! ### Reading back -/

namespace Scan

/-- Blanks in a row are one lexeme. -/
theorem first_separator {b : Char} (hb : isSeparator b = true) (cs : List Char) :
    first b cs = (.blank, (cs.takeWhile isSeparator).length + 1) := by
  have hrun : longest (b :: cs) patterns = longest (b :: cs) [(.blank, run isSeparator)] := by
    simp only [isSeparator, Bool.or_eq_true, beq_iff_eq] at hb
    obtain (((rfl | rfl) | rfl) | rfl) | rfl := hb
    all_goals rfl
  have hbest : best b cs = (.blank, (cs.takeWhile isSeparator).length + 1) := by
    rw [best, hrun, longest, longest, run, List.takeWhile_cons, if_pos hb, List.length_cons]
  rw [first, hbest]

/-- No token begins with a blank. -/
theorem isSeparator_of_first {c : Char} {cs : List Char} {k : Kind} {n : Nat}
    (h : first c cs = (k, n)) (htrivia : k.isTrivia = false) : isSeparator c = false := by
  rw [Bool.eq_false_iff]
  intro hc
  rw [first_separator hc] at h
  have hk : Kind.blank = k := congrArg Prod.fst h
  exact absurd htrivia (by rw [← hk]; decide)

/-- Blanks in front are one lexeme. -/
theorem lexemes_separators {bs cs : List Char} (hbs : ∀ b ∈ bs, isSeparator b = true)
    (hne : bs ≠ []) (hcs : ∀ c, cs.head? = some c → isSeparator c = false) :
    lexemes first (bs ++ cs) = ⟨.blank, bs⟩ :: lexemes first cs := by
  cases bs with
  | nil => exact absurd rfl hne
  | cons b bs =>
    have htake : ((bs ++ cs).takeWhile isSeparator).length = bs.length := by
      rw [List.takeWhile_append_of_pos fun c hc => hbs c (List.mem_cons_of_mem _ hc)]
      cases cs with
      | nil => simp
      | cons c cs => simp [hcs c rfl]
    rw [List.cons_append, lexemes, first_separator (hbs b List.mem_cons_self), htake,
      Nat.add_sub_cancel, List.take_left, List.drop_left]

/-- Two slashes begin a comment. -/
theorem first_comment (cs : List Char) : (first '/' ('/' :: cs)).1 = .comment := by
  have hlongest : longest ('/' :: '/' :: cs) patterns =
      longest ('/' :: '/' :: cs) [(.comment, comment), (.mark .slash, exactly ['/'])] := rfl
  have hbest : best '/' ('/' :: cs) = (.comment, (('/' :: '/' :: cs).takeWhile (· != '\n')).length) := by
    rw [best, hlongest]
    simp [longest, comment, exactly]
  rw [first, hbest]

/-- Blanks are barriers. -/
theorem barrier_of_isSeparator {b : Char} (h : isSeparator b = true) : Barrier b := by
  refine barrier_of_mem ?_
  simp only [isSeparator, Bool.or_eq_true, beq_iff_eq] at h
  simp only [List.mem_cons]
  grind

/-- What is no comment is none before a blank. -/
theorem comment_append_separator {c : Char} {cs : List Char} (h : (first c cs).1 ≠ .comment)
    {b : Char} (hb : isSeparator b = true) (ds : List Char) :
    comment (c :: (cs ++ b :: ds)) = comment (c :: cs) := by
  have hslashes : ['/', '/'].isPrefixOf (c :: cs) = false := by
    cases cs with
    | nil => simp [List.isPrefixOf]
    | cons d cs =>
      rw [Bool.eq_false_iff]
      intro hslashes
      simp only [List.isPrefixOf, Bool.and_true, Bool.and_eq_true, beq_iff_eq] at hslashes
      obtain ⟨rfl, rfl⟩ := hslashes
      exact h (first_comment cs)
  have hslashes' : ['/', '/'].isPrefixOf (c :: (cs ++ b :: ds)) = false := by
    cases cs with
    | nil =>
      have hne : ('/' == b) = false := by
        rw [beq_eq_false_iff_ne]
        rintro rfl
        exact absurd hb (by decide)
      simp [List.isPrefixOf, hne]
    | cons d cs => exact hslashes
  rw [comment, comment, hslashes, hslashes']
  rfl

/-- A lexeme that is all of a text is the same before a blank. -/
theorem first_append_separator {c : Char} {cs : List Char} {k : Kind}
    (h : first c cs = (k, cs.length + 1)) (htrivia : k.isTrivia = false) (herror : k ≠ .error)
    {b : Char} (hb : isSeparator b = true) (ds : List Char) :
    first c (cs ++ b :: ds) = first c cs := by
  by_cases hquote : c = '"'
  · subst hquote
    rw [first_quote] at h
    rw [first_quote, first_quote]
    cases hq : quoted ('"' :: cs) with
    | some n => rw [quoted_append hq]
    | none =>
      rw [hq] at h
      exact absurd (congrArg Prod.fst h).symm herror
  · have hlongest : longest (c :: (cs ++ b :: ds)) patterns = longest (c :: cs) patterns := by
      refine longest_congr fun p hp => ?_
      obtain rfl | rfl | rfl | hstop := pattern_cases hp
      · simp [run, isSeparator_of_first h htrivia]
      · refine comment_append_separator (fun hcomment => ?_) hb ds
        rw [h] at hcomment
        rw [show k = .comment from hcomment] at htrivia
        exact absurd htrivia (by decide)
      · exact (quoted_of_ne hquote _).trans (quoted_of_ne hquote _).symm
      · exact hstop (barrier_of_isSeparator hb) c cs ds
    have hbeq : (c == '"') = false := by simpa using hquote
    have hbest : best c (cs ++ b :: ds) = best c cs := by
      rw [best, best, hlongest, hbeq]
      rfl
    exact first_append_of_ne (barrier_of_isSeparator hb).dollar hbest

theorem nameBarrier_point : NameBarrier '.' := by
  have hkeywords : ∀ k ∈ Keyword.all, '.' ∉ k.spelling.toList := by decide
  exact ⟨by decide, by decide, fun k => hkeywords k k.mem_all⟩

/-- No name begins with a digit. -/
theorem isDigit_of_isNameStart {c : Char} (hc : isNameStart c = true) : c.isDigit = false := by
  rw [Bool.eq_false_iff]
  intro hdigit
  have hle : c.toNat ≤ 57 := (Char.isDigit_iff_toNat.mp hdigit).2
  have hge : 65 ≤ c.toNat := by
    simp only [isNameStart, Bool.or_eq_true, beq_iff_eq] at hc
    obtain halpha | rfl := hc
    · obtain hupper | hlower :=
        Bool.or_eq_true_iff.mp (show (c.isUpper || c.isLower) = true from halpha)
      · exact UInt32.le_iff_toNat_le.mp (of_decide_eq_true hupper).1
      · have h97 : 97 ≤ c.toNat :=
          UInt32.le_iff_toNat_le.mp (of_decide_eq_true (Bool.and_eq_true_iff.mp hlower).1)
        omega
    · decide
  omega

/-- A name that is all of a text is the same before a point. -/
theorem first_name_append_point {c : Char} (hc : isNameStart c = true) (cs ds : List Char) :
    first c (cs ++ '.' :: ds) = first c cs := by
  have hne {d : Char} (hd : isNameStart d = false) : c ≠ d := by
    rintro rfl
    exact absurd hc (by simp [hd])
  have hdigit := isDigit_of_isNameStart hc
  have hlongest : longest (c :: (cs ++ '.' :: ds)) patterns = longest (c :: cs) patterns := by
    refine longest_congr fun p hp => ?_
    simp only [patterns, List.mem_append, List.mem_cons, List.mem_map, List.not_mem_nil,
      or_false] at hp
    obtain (((rfl | rfl) | ⟨k, _, rfl⟩) | rfl | rfl | rfl | rfl) | ⟨m, _, rfl⟩ := hp
    · have hc : isSeparator c = false := by
        rw [Bool.eq_false_iff]
        intro hsep
        simp only [isSeparator, Bool.or_eq_true, beq_iff_eq] at hsep
        obtain (((rfl | rfl) | rfl) | rfl) | rfl := hsep
        all_goals exact absurd hc (by decide)
      simp [run, hc]
    · have hslash : ('/' == c) = false := beq_eq_false_iff_ne.mpr (hne (by decide)).symm
      simp [comment, List.isPrefixOf, hslash]
    · exact exactly_append_stop cs ds fun h => nameBarrier_point.keywords k (List.mem_of_mem_tail h)
    · exact ident_append_stop cs ds nameBarrier_point
    · simp [run, hdigit]
    · have hpoint : (c == '.') = false := beq_eq_false_iff_ne.mpr (hne (by decide))
      simp [real, hdigit, hpoint]
    · exact (quoted_of_ne (hne (by decide)) _).trans (quoted_of_ne (hne (by decide)) _).symm
    · have hmarks : ∀ m ∈ Mark.all, m.spelling.toList.head?.any isNameStart = false := by decide
      have hmark := hmarks m m.mem_all
      cases hword : m.spelling.toList with
      | nil => rfl
      | cons w word =>
        rw [hword] at hmark
        have hw : (w == c) = false := beq_eq_false_iff_ne.mpr (hne hmark).symm
        simp [exactly, List.isPrefixOf, hw]
  have hbeq : (c == '"') = false := by simpa using hne (d := '"') (by decide)
  have hbest : best c (cs ++ '.' :: ds) = best c cs := by
    rw [best, best, hlongest, hbeq]
    rfl
  exact first_append_of_ne (by decide) hbest

/-- A point that no point or digit follows is a lexeme. -/
theorem first_point {d : Char} (hpoint : d ≠ '.') (hdigit : d.isDigit = false) (ds : List Char) :
    first '.' (d :: ds) = (.mark .dot, 1) := by
  have hlongest : longest ('.' :: d :: ds) patterns = longest ('.' :: d :: ds)
      [(.real, real), (.mark .dotDot, exactly ['.', '.']), (.mark .dot, exactly ['.'])] := rfl
  have hne : ('.' == d) = false := beq_eq_false_iff_ne.mpr hpoint.symm
  have hbest : best '.' (d :: ds) = (.mark .dot, 1) := by
    rw [best, hlongest]
    simp [longest, real, exactly, List.isPrefixOf, hne, hdigit]
  rw [first, hbest]

end Scan

/-- The kinds that need no blank between them: those of names and import specifications. -/
def Kind.joins : Kind → Kind → Bool
  | .ident, .mark .dot | .mark .star, .mark .dot | .mark .starStar, .mark .dot => true
  | .mark .dot, .ident | .mark .dot, .mark .star | .mark .dot, .mark .starStar => true
  | _, _ => false

namespace Token

/-- Tokens one after another, each with what stands before it. -/
def spell (ts : List Token) : String :=
  String.ofList (ts.flatMap chars)

/-- Tokens of the language with blanks between them, the points of names apart. -/
structure Spaced (ts : List Token) : Prop where
  sound : ∀ t ∈ ts, t.isSound = true
  blank : ∀ t ∈ ts, t.lead.toList.all Scan.isSeparator = true
  apart : ts.IsChain fun t u => u.lead ≠ "" ∨ t.kind.joins u.kind = true

/-- The text of a mark is its spelling. -/
theorem toList_text_of_mark {t : Token} (h : t.isSound = true) {m : Mark}
    (hk : t.kind = .mark m) : t.text.toList = m.spelling.toList := by
  obtain ⟨c, cs, htext, hfirst, _, herror⟩ := exists_of_isSound h
  have hfit := Scan.fit_of_first hfirst herror
  rw [hk] at hfit
  rw [htext]
  exact (Scan.eq_of_exactly hfit).symm

/-- A name begins with a letter or an underscore. -/
theorem exists_nameStart {t : Token} (h : t.isSound = true) (hk : t.kind = .ident) :
    ∃ c cs, t.text.toList = c :: cs ∧ Scan.isNameStart c = true := by
  obtain ⟨c, cs, htext, hfirst, _, herror⟩ := exists_of_isSound h
  have hfit := Scan.fit_of_first hfirst herror
  rw [hk, Scan.patternOf, Scan.ident] at hfit
  split at hfit
  · rename_i hstart
    exact ⟨c, cs, htext, hstart⟩
  · exact absurd hfit (by simp)

/-- A token before one that joins it. -/
theorem first_joined {t u : Token} (ht : t.isSound = true) (hu : u.isSound = true)
    (h : t.kind.joins u.kind = true) {c : Char} {cs : List Char} (htext : t.text.toList = c :: cs)
    (ds : List Char) :
    Scan.first c (cs ++ (u.text.toList ++ ds)) = (t.kind, cs.length + 1) := by
  obtain ⟨c', cs', htext', hfirst, _⟩ := exists_of_isSound ht
  obtain ⟨rfl, rfl⟩ := List.cons.inj (htext'.symm.trans htext)
  unfold Kind.joins at h
  split at h
  · rename_i htk huk
    obtain ⟨d, es, htext'', hstart⟩ := exists_nameStart ht htk
    obtain ⟨rfl, rfl⟩ := List.cons.inj (htext''.symm.trans htext)
    rw [toList_text_of_mark hu huk, ← hfirst]
    exact Scan.first_name_append_point hstart _ ds
  · rename_i htk huk
    obtain ⟨rfl, rfl⟩ := List.cons.inj (htext.symm.trans (toList_text_of_mark ht htk))
    rw [toList_text_of_mark hu huk, htk]
    rfl
  · rename_i htk huk
    obtain ⟨rfl, rfl⟩ := List.cons.inj (htext.symm.trans (toList_text_of_mark ht htk))
    rw [toList_text_of_mark hu huk, htk]
    rfl
  · rename_i htk huk
    obtain ⟨rfl, rfl⟩ := List.cons.inj (htext.symm.trans (toList_text_of_mark ht htk))
    obtain ⟨d, es, hutext, hstart⟩ := exists_nameStart hu huk
    rw [hutext, htk]
    exact Scan.first_point (by rintro rfl; exact absurd hstart (by decide))
      (Scan.isDigit_of_isNameStart hstart) _
  · rename_i htk huk
    obtain ⟨rfl, rfl⟩ := List.cons.inj (htext.symm.trans (toList_text_of_mark ht htk))
    rw [toList_text_of_mark hu huk, htk]
    rfl
  · rename_i htk huk
    obtain ⟨rfl, rfl⟩ := List.cons.inj (htext.symm.trans (toList_text_of_mark ht htk))
    rw [toList_text_of_mark hu huk, htk]
    rfl
  · exact absurd h Bool.false_ne_true

/-- What may stand behind a token: nothing, a blank, or a token that joins it. -/
theorem lexemes_text {t : Token} (ht : t.isSound = true) {cs : List Char}
    (hcs : cs = [] ∨ (∃ b ds, cs = b :: ds ∧ Scan.isSeparator b = true) ∨
      ∃ (u : Token) (ds : List Char), u.isSound = true ∧ t.kind.joins u.kind = true ∧
        cs = u.text.toList ++ ds) :
    Scan.lexemes Scan.first (t.text.toList ++ cs) = ⟨t.kind, t.text.toList⟩ :: Scan.lexemes Scan.first cs := by
  obtain ⟨c, ds, htext, hfirst, htrivia, herror⟩ := exists_of_isSound ht
  have hwhole : Scan.first c (ds ++ cs) = (t.kind, ds.length + 1) := by
    obtain rfl | ⟨b, es, rfl, hb⟩ | ⟨u, es, hu, hjoins, rfl⟩ := hcs
    · rw [List.append_nil, hfirst]
    · rw [Scan.first_append_separator hfirst htrivia herror hb, hfirst]
    · exact first_joined ht hu hjoins htext es
  rw [htext, List.cons_append, Scan.lexemes, hwhole, Nat.add_sub_cancel, List.take_left,
    List.drop_left]

/-- What stands behind a token when tokens are spaced. -/
theorem behind_cases {t : Token} {ts : List Token} (h : Spaced (t :: ts)) :
    ts.flatMap chars = [] ∨
      (∃ b ds, ts.flatMap chars = b :: ds ∧ Scan.isSeparator b = true) ∨
      ∃ (u : Token) (ds : List Char), u.isSound = true ∧ t.kind.joins u.kind = true ∧
        ts.flatMap chars = u.text.toList ++ ds := by
  cases ts with
  | nil => exact .inl rfl
  | cons u us =>
    have hu : u ∈ t :: u :: us := List.mem_cons_of_mem _ List.mem_cons_self
    have hblank := List.all_eq_true.mp (h.blank u hu)
    rw [List.flatMap_cons, chars]
    cases hlead : u.lead.toList with
    | nil =>
      have hempty : u.lead = "" := String.toList_eq_nil_iff.mp hlead
      have hjoins := (List.isChain_cons_cons.mp h.apart).1.resolve_left fun hne => hne hempty
      exact .inr (.inr ⟨u, us.flatMap chars, h.sound u hu, hjoins, rfl⟩)
    | cons b bs =>
      exact .inr (.inl ⟨b, _, rfl, hblank b (by rw [hlead]; exact List.mem_cons_self)⟩)

/-- The text of a token begins with no blank. -/
theorem isSeparator_head {t : Token} (h : t.isSound = true) (cs : List Char) :
    ∀ c, (t.text.toList ++ cs).head? = some c → Scan.isSeparator c = false := by
  intro c hc
  obtain ⟨d, ds, htext, hfirst, htrivia, _⟩ := exists_of_isSound h
  rw [htext, List.cons_append, List.head?_cons, Option.some_inj] at hc
  exact hc ▸ Scan.isSeparator_of_first hfirst htrivia

/-- The induction is on the tokens: each is the next lexeme, behind its blanks. -/
theorem place_spell {ts : List Token} (h : Spaced ts) (offset : Nat) :
    List.Forall₂ Moved (Scan.place offset [] (Scan.lexemes Scan.first (ts.flatMap chars))) ts := by
  induction ts generalizing offset with
  | nil =>
    rw [List.flatMap_nil, Scan.lexemes, Scan.place]
    exact .nil
  | cons t ts ih =>
    have ht := h.sound t List.mem_cons_self
    have hblank := List.all_eq_true.mp (h.blank t List.mem_cons_self)
    have hrest := ih ⟨fun u hu => h.sound u (List.mem_cons_of_mem _ hu),
      fun u hu => h.blank u (List.mem_cons_of_mem _ hu), h.apart.tail⟩
    have htext := lexemes_text ht (behind_cases h)
    have htrivia : t.kind.isTrivia = false := by
      obtain ⟨_, _, _, _, htrivia, _⟩ := exists_of_isSound ht
      exact htrivia
    have hplace (offset : Nat) : List.Forall₂ Moved
        (Scan.place offset t.lead.toList (⟨t.kind, t.text.toList⟩ :: Scan.lexemes Scan.first (ts.flatMap chars)))
        (t :: ts) := by
      rw [Scan.place]
      simp only [htrivia, Bool.false_eq_true, if_false, String.ofList_toList]
      exact .cons ⟨rfl, rfl, rfl⟩ (hrest _)
    rw [List.flatMap_cons, chars, List.append_assoc]
    by_cases hlead : t.lead.toList = []
    · rw [hlead, List.nil_append, htext]
      rw [hlead] at hplace
      exact hplace offset
    · rw [Scan.lexemes_separators hblank hlead (isSeparator_head ht _), htext, Scan.place]
      exact hplace _

end Token

/-- **Tokens that are written out are read back.** -/
theorem tokenize_spell {ts : List Token} (h : Token.Spaced ts) :
    List.Forall₂ Token.Moved (tokenize (Token.spell ts)) ts := by
  rw [tokenize, tokenizeBy, Token.spell, String.toList_ofList]
  exact Token.place_spell h 0

end NedWorkspace
