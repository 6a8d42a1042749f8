/-
# Where lexemes end

A pattern does not see past a character that neither goes on with a name or a number nor stands inside
a spelling: such a character is a barrier. Blanks are barriers, and so is a closing brace. Two sorts of
lexemes go through barriers, strings and comments, and so does the error for a string that never ends.

* A text that ends with a closing brace, as a lexeme of its own, is cut into the same lexemes whatever
  follows it (`Scan.lexemes_append`).
* The tokens of what follows are the same as if it stood alone, up to their places
  (`tokenize_append`).
-/

import Mathlib.Data.List.TakeWhile
import NedWorkspace.Proofs.Syntax.TypeNames

namespace NedWorkspace

namespace Scan

/-! ### Barriers -/

/-- A character that goes on with no name. -/
structure NameBarrier (b : Char) : Prop where
  namePart : isNamePart b = false
  dollar : b ≠ '$'
  keywords : ∀ k : Keyword, b ∉ k.spelling.toList

/-- A character that goes on with nothing. -/
structure Barrier (b : Char) : Prop extends NameBarrier b where
  digit : b.isDigit = false
  point : b ≠ '.'
  sign : b ≠ '+' ∧ b ≠ '-'
  marks : ∀ m : Mark, b ∉ m.spelling.toList.tail

/-- Blanks and the closing brace are barriers. -/
theorem barrier_of_mem {b : Char} (h : b ∈ [' ', '\t', '\r', '\n', '\x0c', '\x7d']) : Barrier b := by
  have hkeywords : ∀ k ∈ Keyword.all, [' ', '\t', '\r', '\n', '\x0c', '\x7d'].all
      (fun c => c ∉ k.spelling.toList) = true := by decide
  have hmarks : ∀ m ∈ Mark.all, [' ', '\t', '\r', '\n', '\x0c', '\x7d'].all
      (fun c => c ∉ m.spelling.toList.tail) = true := by decide
  have hrest : [' ', '\t', '\r', '\n', '\x0c', '\x7d'].all (fun c => isNamePart c = false ∧
      c.isDigit = false ∧ c ≠ '.' ∧ c ≠ '$' ∧ c ≠ '+' ∧ c ≠ '-') = true := by decide
  simp only [List.all_eq_true, decide_eq_true_eq] at hkeywords hmarks hrest
  obtain ⟨hname, hdigit, hpoint, hdollar, hsign⟩ := hrest b h
  exact ⟨⟨hname, hdollar, fun k => hkeywords k k.mem_all b h⟩, hdigit, hpoint, hsign,
    fun m => hmarks m m.mem_all b h⟩

section Barrier

variable {b : Char} (cs ds : List Char)

/-- A run that stops at a character goes no further. -/
theorem takeWhile_append_stop {p : Char → Bool} (hstop : p b = false) :
    (cs ++ b :: ds).takeWhile p = cs.takeWhile p := by
  induction cs with
  | nil => simp [hstop]
  | cons c cs ih =>
    rw [List.cons_append, List.takeWhile_cons, List.takeWhile_cons, ih]

/-- Whether a spelling is ahead is decided before a character that it does not hold. -/
theorem isPrefixOf_append_stop {word : List Char} (hword : b ∉ word) :
    word.isPrefixOf (cs ++ b :: ds) = word.isPrefixOf cs := by
  induction word generalizing cs with
  | nil => simp
  | cons w word ih =>
    rw [List.mem_cons, not_or] at hword
    cases cs with
    | nil =>
      have hne : (w == b) = false := by simpa using fun h => hword.1 h.symm
      simp [List.isPrefixOf, hne]
    | cons c cs =>
      rw [List.cons_append, List.isPrefixOf_cons_cons, List.isPrefixOf_cons_cons, ih cs hword.2]

/-- A run ends before a character that is not of its class. -/
theorem run_append_stop {p : Char → Bool} (hstop : p b = false) :
    run p (cs ++ b :: ds) = run p cs := by
  rw [run, run, takeWhile_append_stop cs ds hstop]

/-- A spelling is found, or not, before a character that it does not hold. -/
theorem exactly_append_stop {c : Char} {word : List Char} (hword : b ∉ word.tail) :
    exactly word (c :: cs ++ b :: ds) = exactly word (c :: cs) := by
  cases word with
  | nil => rfl
  | cons w word =>
    rw [List.tail_cons] at hword
    rw [exactly, exactly, List.cons_append, List.isPrefixOf_cons_cons, List.isPrefixOf_cons_cons,
      isPrefixOf_append_stop cs ds hword]

theorem halfSuffix_singleton (c : Char) : halfSuffix [c] = 0 := by
  unfold halfSuffix
  split
  · rename_i heq
    exact absurd (List.cons.inj heq).2 (by simp)
  · rfl

/-- The half of a gate's name is a dollar sign and a letter. -/
theorem halfSuffix_cons_cons (c d : Char) :
    halfSuffix (c :: d :: cs) = if c = '$' ∧ (d = 'i' ∨ d = 'o') then 2 else 0 := by
  unfold halfSuffix
  split
  · rename_i heq
    obtain ⟨rfl, htail⟩ := List.cons.inj heq
    obtain ⟨rfl, rfl⟩ := List.cons.inj htail
    simp
  · rename_i hne
    rw [if_neg fun h => hne d cs (by rw [h.1])]

section Names

variable (hb : NameBarrier b)
include hb

/-- The half of a gate's name is decided before a barrier for names. -/
theorem halfSuffix_append_stop : halfSuffix (cs ++ b :: ds) = halfSuffix cs := by
  have hio : ¬(b = 'i' ∨ b = 'o') := by
    rintro (rfl | rfl)
    · exact absurd hb.namePart (by decide)
    · exact absurd hb.namePart (by decide)
  match cs with
  | [] =>
    cases ds with
    | nil => exact halfSuffix_singleton b
    | cons d ds =>
      rw [List.nil_append, halfSuffix_cons_cons, if_neg fun h => hb.dollar h.1]
      rfl
  | [c] =>
    rw [List.singleton_append, halfSuffix_cons_cons, if_neg fun h => hio h.2, halfSuffix_singleton]
  | c :: d :: cs => rw [List.cons_append, List.cons_append, halfSuffix_cons_cons, halfSuffix_cons_cons]

/-- A name ends before a barrier for names. -/
theorem ident_append_stop {c : Char} : ident (c :: cs ++ b :: ds) = ident (c :: cs) := by
  rw [List.cons_append, ident, ident]
  split
  · dsimp only
    rw [takeWhile_append_stop cs ds hb.namePart]
    have hdrop : (cs ++ b :: ds).drop (cs.takeWhile isNamePart).length =
        cs.drop (cs.takeWhile isNamePart).length ++ b :: ds :=
      List.drop_append_of_le_length (List.takeWhile_prefix _).length_le
    rw [hdrop, halfSuffix_append_stop _ _ hb]
  · rfl

end Names

variable (hb : Barrier b)
include hb

/-- An exponent ends before a barrier. -/
theorem exponent_append_stop : exponent (cs ++ b :: ds) = exponent cs := by
  cases cs with
  | nil =>
    have he : (b == 'e' || b == 'E') = false := by
      rw [Bool.or_eq_false_iff, beq_eq_false_iff_ne, beq_eq_false_iff_ne]
      refine ⟨fun h => ?_, fun h => ?_⟩
      · exact absurd hb.namePart (by rw [h]; decide)
      · exact absurd hb.namePart (by rw [h]; decide)
    simp [exponent, he]
  | cons e cs =>
    simp only [List.cons_append, exponent]
    split
    · cases cs with
      | nil => simp [hb.sign.1, hb.sign.2, hb.digit]
      | cons c cs =>
        dsimp only [List.cons_append]
        have hdrop : ∀ n ≤ 1, (((c :: (cs ++ b :: ds)).drop n).takeWhile Char.isDigit) =
            ((c :: cs).drop n).takeWhile Char.isDigit := by
          intro n hn
          have hle : n ≤ (c :: cs).length := hn.trans (Nat.le_add_left 1 cs.length)
          rw [← List.cons_append, List.drop_append_of_le_length hle,
            takeWhile_append_stop _ ds hb.digit]
        rw [hdrop _ (by split <;> omega)]
    · rfl

/-- A number ends before a barrier. -/
theorem real_append_stop : real (cs ++ b :: ds) = real cs := by
  have hwhole := takeWhile_append_stop cs ds hb.digit
  have hdrop : (cs ++ b :: ds).drop (cs.takeWhile Char.isDigit).length =
      cs.drop (cs.takeWhile Char.isDigit).length ++ b :: ds :=
    List.drop_append_of_le_length (List.takeWhile_prefix _).length_le
  rw [real, real, hwhole]
  dsimp only
  rw [hdrop]
  cases cs.drop (cs.takeWhile Char.isDigit).length with
  | nil => simp [hb.point]
  | cons point tail =>
    dsimp only [List.cons_append]
    have htail : (tail ++ b :: ds).drop (tail.takeWhile Char.isDigit).length =
        tail.drop (tail.takeWhile Char.isDigit).length ++ b :: ds :=
      List.drop_append_of_le_length (List.takeWhile_prefix _).length_le
    rw [takeWhile_append_stop tail ds hb.digit, htail, exponent_append_stop _ _ hb]

end Barrier

/-! ### Strings and comments -/

/-- A run of string items that stops before the end, other than at a last backslash, stops there
whatever follows. -/
theorem items_append {cs : List Char} (hend : cs.drop (items cs) ≠ [])
    (hslash : cs.drop (items cs) ≠ ['\\']) (ds : List Char) : items (cs ++ ds) = items cs := by
  fun_induction items cs with
  | case1 => exact absurd rfl hend
  | case2 c cs hquote =>
    rw [List.cons_append, items.eq_def]
    simp [hquote]
  | case3 c hquote hback => exact absurd (by simpa using hback) hslash
  | case4 c hquote hback d es hnewline => simp [items, hquote, hback, hnewline]
  | case5 c hquote hback d es hnewline ih =>
    rw [Nat.add_comm, List.drop_succ_cons, List.drop_succ_cons] at hend hslash
    simp [items, hquote, hback, hnewline, ih hend hslash]
  | case6 c cs hquote hback ih =>
    rw [Nat.add_comm, List.drop_succ_cons] at hend hslash
    rw [List.cons_append, items.eq_def]
    simp [hquote, hback, ih hend hslash]

/-- A string that ends, or is broken off, does so whatever follows. -/
theorem quoted_append_stop {cs : List Char} (hend : cs.drop (items cs) ≠ [])
    (hslash : cs.drop (items cs) ≠ ['\\']) (c : Char) (ds : List Char) :
    quoted (c :: (cs ++ ds)) = quoted (c :: cs) := by
  have hle : items cs ≤ cs.length := by
    by_contra hlt
    exact hend (List.drop_eq_nil_of_le (by omega))
  have hhead : ((cs ++ ds).drop (items cs)).head? = (cs.drop (items cs)).head? := by
    rw [List.drop_append_of_le_length hle]
    exact List.head?_append_of_ne_nil _ hend
  rw [quoted, quoted, items_append hend hslash, hhead]

/-- A string that is closed is closed whatever follows. -/
theorem quoted_append {c : Char} {cs : List Char} {n : Nat} (h : quoted (c :: cs) = some n)
    (ds : List Char) : quoted (c :: (cs ++ ds)) = some n := by
  have hclosed : (cs.drop (items cs)).head? = some '"' := by
    rw [quoted] at h
    split at h
    · rename_i hquotes
      rw [Bool.and_eq_true, beq_iff_eq, beq_iff_eq] at hquotes
      exact hquotes.2
    · exact absurd h (by simp)
  rw [quoted_append_stop (fun hnil => by simp [hnil] at hclosed)
    (fun heq => by simp [heq] at hclosed), h]

/-- A comment that ends with its line ends there whatever follows, and what is no comment is none. -/
theorem comment_append {cs : List Char} (hlen : 2 ≤ cs.length) (h : comment cs ≠ some cs.length)
    (ds : List Char) : comment (cs ++ ds) = comment cs := by
  match cs, hlen with
  | c :: d :: cs, _ =>
    have hprefix : ['/', '/'].isPrefixOf (c :: d :: cs ++ ds) =
        ['/', '/'].isPrefixOf (c :: d :: cs) := rfl
    rw [comment] at h
    rw [comment, comment, hprefix]
    split
    · rename_i hslashes
      rw [if_pos hslashes, ne_eq, Option.some_inj] at h
      rw [List.takeWhile_append, if_neg h]
    · rfl

/-! ### Lexemes up to a closing brace -/

/-- A closing brace is a lexeme whatever follows. -/
theorem first_rbrace (ds : List Char) : first '\x7d' ds = (.mark .rbrace, 1) := rfl

/-- Nothing but a string, or the error for an open one, begins with a quote. -/
theorem first_quote (cs : List Char) : first '"' cs =
    match quoted ('"' :: cs) with
    | some n => (.string, n)
    | none => (.error, 1 + items cs) := by
  have hlongest : longest ('"' :: cs) patterns = longest ('"' :: cs) [(.string, quoted)] := rfl
  unfold first
  rw [best, hlongest, longest, longest]
  cases quoted ('"' :: cs) <;> rfl

/-- A pattern is one of three that go through barriers, or it does not see past one. -/
theorem pattern_cases {p : Kind × Pattern} (hp : p ∈ patterns) :
    p = (.blank, run isSeparator) ∨ p = (.comment, comment) ∨ p = (.string, quoted) ∨
      ∀ {b : Char}, Barrier b → ∀ (c : Char) (cs ds : List Char),
        p.2 (c :: cs ++ b :: ds) = p.2 (c :: cs) := by
  simp only [patterns, List.mem_append, List.mem_cons, List.mem_map, List.not_mem_nil,
    or_false] at hp
  obtain (((rfl | rfl) | ⟨k, _, rfl⟩) | rfl | rfl | rfl | rfl) | ⟨m, _, rfl⟩ := hp
  · exact .inl rfl
  · exact .inr (.inl rfl)
  · exact .inr (.inr (.inr fun hb c cs ds =>
      exactly_append_stop cs ds fun h => hb.keywords k (List.mem_of_mem_tail h)))
  · exact .inr (.inr (.inr fun hb c cs ds => ident_append_stop cs ds hb.toNameBarrier))
  · exact .inr (.inr (.inr fun hb c cs ds => run_append_stop _ ds hb.digit))
  · exact .inr (.inr (.inr fun hb c cs ds => real_append_stop _ ds hb))
  · exact .inr (.inr (.inl rfl))
  · exact .inr (.inr (.inr fun hb c cs ds => exactly_append_stop cs ds (hb.marks m)))

/-- A string begins with a quote. -/
theorem quoted_of_ne {c : Char} (h : c ≠ '"') (cs : List Char) : quoted (c :: cs) = none := by
  simp [quoted, h]

theorem barrier_rbrace : Barrier '\x7d' :=
  barrier_of_mem (by decide)

/-- The lexemes that end before a closing brace are the same whatever follows the brace. -/
theorem first_append {c : Char} {cs : List Char}
    (hshort : (first c (cs ++ ['\x7d'])).2 ≤ cs.length + 1) (ds : List Char) :
    first c (cs ++ '\x7d' :: ds) = first c (cs ++ ['\x7d']) := by
  have hsplit : cs ++ '\x7d' :: ds = cs ++ ['\x7d'] ++ ds := by simp
  by_cases hquote : c = '"'
  · subst hquote
    rw [first_quote] at hshort
    rw [hsplit, first_quote, first_quote]
    cases hq : quoted ('"' :: (cs ++ ['\x7d'])) with
    | some n => rw [quoted_append hq ds]
    | none =>
      rw [hq] at hshort
      have hle : items (cs ++ ['\x7d']) ≤ cs.length := by
        dsimp only at hshort
        omega
      have hdrop : (cs ++ ['\x7d']).drop (items (cs ++ ['\x7d'])) =
          cs.drop (items (cs ++ ['\x7d'])) ++ ['\x7d'] :=
        List.drop_append_of_le_length hle
      have hend : (cs ++ ['\x7d']).drop (items (cs ++ ['\x7d'])) ≠ [] := by simp [hdrop]
      have hslash : (cs ++ ['\x7d']).drop (items (cs ++ ['\x7d'])) ≠ ['\\'] := fun heq => by
        have hlast := congrArg List.getLast? (hdrop.symm.trans heq)
        simp at hlast
      rw [quoted_append_stop hend hslash, items_append hend hslash, hq]
  · have hlongest : longest (c :: (cs ++ '\x7d' :: ds)) patterns =
        longest (c :: (cs ++ ['\x7d'])) patterns := by
      refine longest_congr fun p hp => ?_
      obtain rfl | rfl | rfl | hstop := pattern_cases hp
      · rw [← List.cons_append, ← List.cons_append]
        exact (run_append_stop _ ds (by decide)).trans (run_append_stop _ [] (by decide)).symm
      · rw [hsplit, ← List.cons_append]
        refine comment_append (by simp) (fun hall => ?_) ds
        obtain ⟨kind, m, hfound, hle⟩ := le_longest hp hall
        rw [length_first, best, hfound] at hshort
        simp only [List.length_cons, List.length_append, List.length_nil] at hle hshort
        omega
      · exact (quoted_of_ne hquote _).trans (quoted_of_ne hquote _).symm
      · rw [← List.cons_append, ← List.cons_append, hstop barrier_rbrace, hstop barrier_rbrace]
    have hbeq : (c == '"') = false := by simpa using hquote
    have hbest : best c (cs ++ '\x7d' :: ds) = best c (cs ++ ['\x7d']) := by
      rw [best, best, hlongest, hbeq]
      rfl
    refine first_congr hbest fun k n hkeyword => ?_
    -- What follows is in the text, or it is the brace.
    have hle : n - 1 ≤ cs.length := by
      rw [length_first, ← hbest, hkeyword] at hshort
      exact Nat.sub_le_of_le_add hshort
    rw [List.drop_append_of_le_length hle, List.drop_append_of_le_length hle]
    cases cs.drop (n - 1) <;> rfl

/-- A text that is not empty has a first lexeme. -/
theorem lexemes_ne_nil {cs : List Char} (h : cs ≠ []) : lexemes first cs ≠ [] := by
  cases cs with
  | nil => exact absurd rfl h
  | cons c cs => simp [lexemes]

/-- The last lexeme ends the text. -/
theorem exists_append_of_getLast? {cs : List Char} {l : Lexeme}
    (h : (lexemes first cs).getLast? = some l) : ∃ before, cs = before ++ l.chars := by
  obtain ⟨ls, hls⟩ := List.getLast?_eq_some_iff.mp h
  have hchars := flatMap_lexemes first cs
  rw [hls, List.flatMap_append, List.flatMap_cons, List.flatMap_nil, List.append_nil] at hchars
  exact ⟨_, hchars.symm⟩

/-- **Behind a closing brace lexemes begin anew.** -/
theorem lexemes_append {cs : List Char}
    (h : (lexemes first cs).getLast? = some ⟨.mark .rbrace, ['\x7d']⟩) (ds : List Char) :
    lexemes first (cs ++ ds) = lexemes first cs ++ lexemes first ds := by
  fun_induction lexemes first cs with
  | case1 => exact absurd h (by simp)
  | case2 c cs found ih =>
    by_cases hrest : cs.drop (found.2 - 1) = []
    · -- The brace is the only lexeme.
      rw [hrest, lexemes, List.getLast?_singleton, Option.some_inj, Lexeme.mk.injEq,
        List.cons.injEq] at h
      obtain ⟨hkind, rfl, htake⟩ := h
      have hcs : cs = [] := by
        rw [← List.take_append_drop (found.2 - 1) cs, htake, hrest, List.append_nil]
      subst hcs
      rw [List.singleton_append, lexemes, first_rbrace, hkind]
      simp [lexemes]
    · have hlast : (lexemes first (cs.drop (found.2 - 1))).getLast? = some ⟨.mark .rbrace, ['\x7d']⟩ := by
        rwa [List.getLast?_cons_of_ne_nil (lexemes_ne_nil hrest)] at h
      obtain ⟨before, hbefore⟩ := exists_append_of_getLast? hlast
      have hlen : found.2 - 1 < cs.length := by
        by_contra hle
        exact hrest (List.drop_eq_nil_of_le (by omega))
      obtain ⟨init, hcs⟩ : ∃ init, cs = init ++ ['\x7d'] :=
        ⟨cs.take (found.2 - 1) ++ before, by
          rw [List.append_assoc, ← hbefore, List.take_append_drop]⟩
      have hfirst : first c (cs ++ ds) = found := by
        have hshort : (first c (init ++ ['\x7d'])).2 ≤ init.length + 1 := by
          rw [← hcs]
          change found.2 ≤ _
          rw [hcs, List.length_append, List.length_singleton] at hlen
          omega
        have happend := first_append hshort ds
        rwa [← hcs, List.append_cons, ← hcs] at happend
      rw [List.cons_append, lexemes, hfirst, List.take_append_of_le_length hlen.le,
        List.drop_append_of_le_length hlen.le, ih hlast, List.cons_append]

/-! ### Tokens -/

/-- Tokens of lexemes that go on behind a token. -/
theorem place_append_of_getLast? (offset : Nat) (lead : List Char) {ls : List Lexeme} {l : Lexeme}
    (hlast : ls.getLast? = some l) (hl : l.kind.isTrivia = false) (ms : List Lexeme) :
    ∃ stop, place offset lead (ls ++ ms) = place offset lead ls ++ place stop [] ms := by
  fun_induction place offset lead ls with
  | case1 => exact absurd hlast (by simp)
  | case2 offset lead m ls stop htrivia ih =>
    cases ls with
    | nil =>
      rw [List.getLast?_singleton, Option.some_inj] at hlast
      exact absurd htrivia (by simp [hlast, hl])
    | cons n ls =>
      rw [List.getLast?_cons_cons] at hlast
      obtain ⟨next, hnext⟩ := ih hlast
      refine ⟨next, ?_⟩
      rw [List.cons_append, place]
      simp only [if_pos htrivia]
      exact hnext
  | case3 offset lead m ls stop htrivia ih =>
    cases ls with
    | nil =>
      refine ⟨stop, ?_⟩
      simp [place, htrivia, stop]
    | cons n ls =>
      rw [List.getLast?_cons_cons] at hlast
      obtain ⟨next, hnext⟩ := ih hlast
      refine ⟨next, ?_⟩
      rw [List.cons_append, place]
      simp only [if_neg htrivia]
      rw [hnext, List.cons_append]

end Scan

/-- The same token at another place. -/
structure Token.Moved (t u : Token) : Prop where
  kind : t.kind = u.kind
  text : t.text = u.text
  lead : t.lead = u.lead

/-- Tokens placed elsewhere are the same up to their places. -/
theorem Scan.place_moved (offset offset' : Nat) (lead : List Char) (ls : List Lexeme) :
    List.Forall₂ Token.Moved (place offset lead ls) (place offset' lead ls) := by
  induction ls generalizing offset offset' lead with
  | nil => exact .nil
  | cons l ls ih =>
    rw [place, place]
    split
    · exact ih _ _ _
    · exact .cons ⟨rfl, rfl, rfl⟩ (ih _ _ _)

namespace Scan

/-- No lexeme is empty. -/
theorem chars_ne_nil (cs : List Char) : ∀ l ∈ lexemes first cs, l.chars ≠ [] :=
  forall_lexemes (fun _ _ => List.cons_ne_nil _ _) cs

/-- The last token comes from the last lexeme if nothing lies behind it. -/
theorem getLast?_of_place {offset : Nat} {lead : List Char} {ls : List Lexeme} {t : Token}
    (hls : ∀ l ∈ ls, l.chars ≠ []) (hlast : (place offset lead ls).getLast? = some t)
    (hstop : t.stop = offset + Text.byteLength (ls.flatMap Lexeme.chars)) :
    ls.getLast? = some ⟨t.kind, t.text.toList⟩ := by
  fun_induction place offset lead ls with
  | case1 => exact absurd hlast (by simp)
  | case2 offset lead l ls stop htrivia ih =>
    rw [List.flatMap_cons, Text.byteLength_append, ← Nat.add_assoc] at hstop
    have hrest := ih (fun m hm => hls m (List.mem_cons_of_mem _ hm)) hlast hstop
    rw [List.getLast?_cons_of_ne_nil (fun hnil => by simp [hnil] at hrest), hrest]
  | case3 offset lead l ls stop htrivia ih =>
    rw [List.flatMap_cons, Text.byteLength_append, ← Nat.add_assoc] at hstop
    cases hplace : place stop [] ls with
    | nil =>
      rw [hplace, List.getLast?_singleton, Option.some_inj] at hlast
      subst hlast
      have hnil : ls = [] := by
        cases ls with
        | nil => rfl
        | cons m ls =>
          -- The lexeme after the last token would have a length.
          have hm := hls m (List.mem_cons_of_mem _ List.mem_cons_self)
          cases hchars : m.chars with
          | nil => exact absurd hchars hm
          | cons c cs =>
            have hpos := c.utf8Size_pos
            simp only [List.flatMap_cons, hchars, List.cons_append, Text.byteLength] at hstop
            omega
      simp [hnil]
    | cons u us =>
      rw [hplace, List.getLast?_cons_cons] at hlast
      rw [hplace] at ih
      have hrest := ih (fun m hm => hls m (List.mem_cons_of_mem _ hm)) hlast hstop
      rw [List.getLast?_cons_of_ne_nil (fun hnil => by simp [hnil] at hrest), hrest]

/-- What is read as a mark is its spelling. -/
theorem chars_of_first {c : Char} {cs : List Char} {m : Mark} (h : (first c cs).1 = .mark m) :
    c :: cs.take ((first c cs).2 - 1) = m.spelling.toList := by
  have hfit := fit_of_first (Prod.ext h rfl : first c cs = (.mark m, (first c cs).2)) (by simp)
  rw [patternOf, exactly] at hfit
  split at hfit
  · rename_i hprefix
    have htake := List.prefix_iff_eq_take.mp (List.isPrefixOf_iff_prefix.mp hprefix)
    have hne : m.spelling.toList ≠ [] := by cases m <;> decide
    rw [← Option.some.inj hfit]
    cases hword : m.spelling.toList with
    | nil => exact absurd hword hne
    | cons w ws =>
      rw [hword, List.length_cons, List.take_succ_cons] at htake
      rw [List.length_cons, Nat.add_sub_cancel]
      exact htake.symm
  · exact absurd hfit (by simp)

/-- The lexeme of a mark is its spelling. -/
theorem chars_of_mark {cs : List Char} {l : Lexeme} {m : Mark} (h : l ∈ lexemes first cs)
    (hkind : l.kind = .mark m) : l.chars = m.spelling.toList :=
  forall_lexemes (P := fun l => l.kind = .mark m → l.chars = m.spelling.toList)
    (fun _ _ => chars_of_first) cs l h hkind

end Scan

/-- A mark is written as it is spelled. -/
theorem text_of_mark {text : String} {t : Token} {m : Mark} (h : t ∈ tokenize text)
    (hkind : t.kind = .mark m) : t.text = m.spelling := by
  obtain ⟨l, hl, hlkind, htext⟩ := Scan.exists_lexeme_of_mem_place h
  rw [htext, Scan.chars_of_mark hl (hlkind.symm.trans hkind), String.ofList_toList]

/-- **Behind a closing brace tokens begin anew.** -/
theorem tokenize_append {text : String} {brace : Token}
    (hlast : (tokenize text).getLast? = some brace) (hkind : brace.kind = .mark .rbrace)
    (hstop : brace.stop = Text.byteLength text.toList) (more : String) :
    ∃ tokens, tokenize (text ++ more) = tokenize text ++ tokens ∧
      List.Forall₂ Token.Moved tokens (tokenize more) := by
  have hlexeme : (Scan.lexemes Scan.first text.toList).getLast? = some ⟨brace.kind, brace.text.toList⟩ :=
    Scan.getLast?_of_place (Scan.chars_ne_nil _) hlast
      (by rw [Scan.flatMap_lexemes, Nat.zero_add, hstop])
  have hchars : brace.text.toList = ['\x7d'] := Scan.chars_of_mark (List.mem_of_getLast? hlexeme) hkind
  rw [hkind, hchars] at hlexeme
  obtain ⟨stop, hplace⟩ := Scan.place_append_of_getLast? 0 [] hlexeme rfl
    (Scan.lexemes Scan.first more.toList)
  refine ⟨_, ?_, Scan.place_moved stop 0 [] _⟩
  rw [tokenize, tokenizeBy, String.toList_append, Scan.lexemes_append hlexeme, hplace]
  rfl

end NedWorkspace
