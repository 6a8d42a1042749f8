/-
# A text is cut into the longest lexemes

SPEC_FULL, section 10: lexing.

The classes of lexemes are declared as languages (`Scan.words`), and a scanner is generated from the
declarations. `Scan.Documented` is what is promised of it: it finds a longest word of all classes, of classes
that share it one for a fixed spelling, and where no class has a word, it takes a single character for an
error, or a quote with the longest run of complete string items.

The tokens that any such scanner makes of a text lie in it one behind the other, in the places that they
claim, and what is between them is a sequence of blanks and comments (`Scan.Tiles`, `tokenize_longest`). The
patterns make such a scanner (`Scan.best_documented`). The one that texts are read with keeps the promise but
for the class of a reserved word right before a dollar sign, so its tokens lie in a text just so
(`tiles_tokenize`).
-/

import NedWorkspace.Proofs.Token.Classes

namespace NedWorkspace

open scoped Computability

namespace Scan

variable {kind other : Kind} {c : Char} {cs word rest : List Char} {n : Nat}

/-! ### What is promised -/

/-- The classes of one word, which is written out. -/
def isSpelled : Kind → Bool
  | .keyword _ | .mark _ => true
  | _ => false

/-- **What is promised of a scanner** that is generated from the declarations of the classes. -/
structure Documented (scan : Scanner) : Prop where
  /-- What is found is a word of its class. -/
  sound : ∀ {c : Char} {cs : List Char} {kind : Kind} {n : Nat}, scan c cs = (kind, n) → kind ≠ .error →
    n ≤ (c :: cs).length ∧ (c :: cs).take n ∈ words kind
  /-- Where a class has a word, one is found, and a longer word wins over a shorter one. -/
  longest : ∀ {c : Char} {cs : List Char} {other : Kind}, ∀ w ∈ words other, w <+: c :: cs →
    (scan c cs).1 ≠ .error ∧ w.length ≤ (scan c cs).2
  /-- A fixed spelling wins over a pattern. -/
  spelled : ∀ {c : Char} {cs : List Char} {kind : Kind} {n : Nat}, scan c cs = (kind, n) →
    ∀ other, isSpelled other = true → (c :: cs).take n ∈ words other → isSpelled kind = true
  /-- An error is one character. -/
  stray : ∀ {c : Char} {cs : List Char} {n : Nat}, scan c cs = (.error, n) → c ≠ '"' → n = 1
  /-- The error for a string that never ends goes as far as the string does. -/
  unclosed : ∀ {cs : List Char} {n : Nat}, scan '"' cs = (.error, n) → ∃ m, n = m + 1 ∧ m ≤ cs.length ∧
    cs.take m ∈ item∗ ∧ ∀ w ∈ item∗, w <+: cs → w.length ≤ m

/-- What is read at the beginning of a text, and what is left. -/
inductive Reads : Kind → List Char → List Char → Prop
  /-- The longest word of any class. -/
  | lexeme {kind : Kind} {word rest : List Char} (hword : word ∈ words kind)
      (hlongest : ∀ other, ∀ w ∈ words other, w <+: word ++ rest → w.length ≤ word.length) :
      Reads kind word rest
  /-- A character at which no class has a word. -/
  | stray {c : Char} {rest : List Char} (hc : c ≠ '"')
      (hnone : ∀ other, ∀ w ∈ words other, ¬ w <+: c :: rest) : Reads .error [c] rest
  /-- A string that never ends, as far as it goes. -/
  | unclosed {run rest : List Char} (hrun : run ∈ item∗)
      (hlongest : ∀ w ∈ item∗, w <+: run ++ rest → w.length ≤ run.length)
      (hnone : ∀ other, ∀ w ∈ words other, ¬ w <+: '"' :: (run ++ rest)) : Reads .error ('"' :: run) rest

/-- A scanner reads the longest word wherever there is one. -/
def Reading (scan : Scanner) : Prop :=
  ∀ c cs, Reads (scan c cs).1 (c :: cs.take ((scan c cs).2 - 1)) (cs.drop ((scan c cs).2 - 1))

/-! ### Spellings -/

/-- Reserved words are spelled differently. -/
theorem spelling_injective {k k' : Keyword} (h : k.spelling.toList = k'.spelling.toList) : k = k' := by
  have hnodup : (Keyword.all.map fun k => k.spelling.toList).Nodup := by decide
  exact List.inj_on_of_nodup_map hnodup k.mem_all k'.mem_all h

/-- A reserved word is made like an identifier. -/
theorem spelling_mem_ident (k : Keyword) : k.spelling.toList ∈ words .ident := by
  obtain ⟨c, cs, hword, hc, hcs⟩ := spelling_isName k
  rw [hword]
  refine mem_one_mul.mpr ⟨c, cs, hc, Language.mem_mul.mpr ⟨cs, ?_, [], ?_, List.append_nil cs⟩, rfl⟩
  · exact mem_many.mpr (List.all_eq_true.mp hcs)
  · exact (Language.mem_add _ _ _).mpr (.inl rfl)

/-- No mark is spelled like a reserved word. -/
theorem spelling_ne (k : Keyword) (m : Mark) : k.spelling.toList ≠ m.spelling.toList := by
  have hall : ∀ k ∈ Keyword.all, ∀ m ∈ Mark.all, k.spelling.toList ≠ m.spelling.toList := by
    decide +kernel
  exact hall k k.mem_all m m.mem_all

/-- The text of a reserved word that is written out is that of no other class like it. -/
theorem keyword_of_isSpelled {k : Keyword} (hspelled : isSpelled kind = true)
    (hword : k.spelling.toList ∈ words kind) : kind = .keyword k := by
  cases kind with
  | keyword k' => exact congrArg Kind.keyword (spelling_injective (show k.spelling.toList = _ from hword)).symm
  | mark m => exact absurd (show k.spelling.toList = _ from hword) (spelling_ne k m)
  | _ => exact absurd hspelled Bool.false_ne_true

/-! ### The longest fit -/

/-- A pattern finds the words of its class. -/
theorem finds_patternOf (kind : Kind) (cs : List Char) : Finds (words kind) cs (patternOf kind cs) := by
  cases kind with
  | blank => exact finds_run _ cs
  | comment => exact finds_comment cs
  | keyword k => exact finds_exactly _ cs
  | ident => exact finds_ident cs
  | integer => exact finds_run _ cs
  | real => exact finds_real cs
  | string => exact finds_quoted cs
  | mark m => exact finds_exactly _ cs
  | error => exact ⟨nofun, fun w hw => absurd hw (Language.notMem_zero w)⟩

/-- A text that begins with a word of some class is covered that far by the longest fit. -/
theorem exists_longest_of_prefix {w : List Char} (hw : w ∈ words other) (hpre : w <+: cs) :
    ∃ kind n, longest cs patterns = some (kind, n) ∧ w.length ≤ n := by
  obtain ⟨n, hn, hle⟩ := (finds_patternOf other cs).complete w hw hpre
  have herror : other ≠ .error := by
    rintro rfl
    exact absurd hw (Language.notMem_zero w)
  obtain ⟨kind, m, hfound, hmax⟩ := le_longest (mem_patterns_iff.mpr ⟨herror, rfl⟩) hn
  exact ⟨kind, m, hfound, hle.trans hmax⟩

/-- No class has the empty word. -/
theorem nil_not_mem_words : [] ∉ words kind := by
  have hone : ∀ {p : Char → Bool} {l : Language Char}, [] ∉ one p * l := by
    intro p l hmem
    obtain ⟨c, v, _, _, heq⟩ := mem_one_mul.mp hmem
    exact nomatch heq
  cases kind with
  | keyword k =>
    obtain ⟨c, cs, hword, _⟩ := spelling_isName k
    exact fun h => nomatch (show [] = k.spelling.toList from h).trans hword
  | mark m =>
    have hmarks : ∀ m ∈ Mark.all, [] ≠ m.spelling.toList := by decide
    exact hmarks m m.mem_all
  | real =>
    intro h
    obtain ⟨u, _, v, hv, heq⟩ := Language.mem_mul.mp h
    exact hone ((List.append_eq_nil_iff.mp heq).2 ▸ hv)
  | error => exact Language.notMem_zero _
  | blank => exact hone
  | comment => exact hone
  | ident => exact hone
  | integer => exact hone
  | string => exact hone

/-- No pattern of a reserved word comes after that of identifiers. -/
theorem pairwise_patterns : patterns.Pairwise fun p q => p.1 = .ident → ∀ k, q.1 ≠ .keyword k := by
  have hkinds : (patterns.map Prod.fst).Pairwise fun a b => a = .ident → ∀ k ∈ Keyword.all, b ≠ .keyword k := by
    decide +kernel
  exact (List.pairwise_map.mp hkinds).imp fun h hident k => h hident k k.mem_all

/-- Of the patterns for more than one word only that for identifiers fits a fixed spelling, and only that of a
reserved word. -/
theorem fits_spelling :
    (∀ m ∈ Mark.all, ∀ kind ∈ [Kind.blank, .comment, .ident, .integer, .real, .string],
      patternOf kind m.spelling.toList = none) ∧
    ∀ k ∈ Keyword.all, ∀ kind ∈ [Kind.blank, .comment, .integer, .real, .string],
      patternOf kind k.spelling.toList = none := by
  decide +kernel

/-- A fixed spelling is a word of such classes only, or an identifier that is a reserved word, too. -/
theorem isSpelled_or_ident {w : List Char} (hother : isSpelled other = true) (hw : w ∈ words other)
    (hword : w ∈ words kind) :
    isSpelled kind = true ∨ kind = .ident ∧ ∃ k, other = .keyword k ∧ w = k.spelling.toList := by
  obtain ⟨n, hn, -⟩ := (finds_patternOf kind w).complete w hword List.prefix_rfl
  have hnone (h : patternOf kind w = none) : False := nomatch h.symm.trans hn
  cases other with
  | keyword k =>
    obtain rfl : w = k.spelling.toList := hw
    have hfits := fits_spelling.2 k k.mem_all
    cases kind with
    | keyword => exact .inl rfl
    | mark => exact .inl rfl
    | ident => exact .inr ⟨rfl, k, rfl, rfl⟩
    | error => exact absurd hword (Language.notMem_zero _)
    | _ => exact (hnone (hfits _ (by simp))).elim
  | mark m =>
    obtain rfl : w = m.spelling.toList := hw
    have hfits := fits_spelling.1 m m.mem_all
    cases kind with
    | keyword => exact .inl rfl
    | mark => exact .inl rfl
    | error => exact absurd hword (Language.notMem_zero _)
    | _ => exact (hnone (hfits _ (by simp))).elim
  | _ => exact absurd hother Bool.false_ne_true

/-- The longest fit is no identifier if it is a reserved word: the pattern of that covers as much, and comes
first. -/
theorem longest_ne_ident {k : Keyword} (h : longest cs patterns = some (.ident, n)) :
    cs.take n ≠ k.spelling.toList := by
  intro hk
  obtain ⟨before, pattern, after, hpatterns, hfit, hbefore⟩ := longest_split h
  have hmem : (Kind.ident, pattern) ∈ patterns := by simp [hpatterns]
  obtain ⟨-, rfl⟩ := mem_patterns_iff.mp hmem
  have hlen : (cs.take n).length = n := by
    rw [List.length_take, Nat.min_eq_left ((finds_patternOf .ident cs).sound n hfit).1]
  have hreserved : patternOf (.keyword k) cs = some n := by
    rw [patternOf, exactly, ← hk, if_pos (List.isPrefixOf_iff_prefix.mpr (List.take_prefix n cs)), hlen]
  have hkeyword : (Kind.keyword k, patternOf (.keyword k)) ∈ patterns := mem_patterns_iff.mpr ⟨by simp, rfl⟩
  rw [hpatterns, List.mem_append, List.mem_cons] at hkeyword
  have hpairwise := pairwise_patterns
  rw [hpatterns, List.pairwise_append, List.pairwise_cons] at hpairwise
  rcases hkeyword with hkeyword | hkeyword | hkeyword
  · exact absurd (hbefore _ hkeyword n hreserved) (Nat.lt_irrefl n)
  · exact absurd (Prod.mk.inj hkeyword).1 (by simp)
  · exact hpairwise.2.1.1 _ hkeyword rfl k rfl

/-- Where no class has a word, there is no fit. -/
theorem longest_of_error (h : best c cs = (.error, n)) : longest (c :: cs) patterns = none := by
  cases hlongest : longest (c :: cs) patterns with
  | none => rfl
  | some found =>
    obtain ⟨pattern, hmem, -⟩ := mem_of_longest (show _ = some (found.1, found.2) from hlongest)
    have hfound : found = (.error, n) := by
      rw [best, hlongest] at h
      exact h
    rw [hfound] at hmem
    exact absurd rfl (mem_patterns_iff.mp hmem).1

/-- **The patterns make a scanner as it is promised.** -/
theorem best_documented : Documented best where
  sound {c cs kind n} h hkind := (finds_patternOf kind (c :: cs)).sound n (fit_of_best h hkind)
  longest {c cs other} w hw hpre := by
    obtain ⟨kind, n, hlongest, hle⟩ := exists_longest_of_prefix hw hpre
    obtain ⟨pattern, hmem, -⟩ := mem_of_longest hlongest
    rw [best, hlongest]
    exact ⟨(mem_patterns_iff.mp hmem).1, hle⟩
  spelled {c cs kind n} h other hother hw := by
    by_cases hkind : kind = .error
    · subst hkind
      obtain ⟨_, _, hlongest, -⟩ := exists_longest_of_prefix hw (List.take_prefix n _)
      exact absurd (hlongest.symm.trans (longest_of_error h)) (Option.some_ne_none _)
    · have hword := ((finds_patternOf kind (c :: cs)).sound n (fit_of_best h hkind)).2
      refine (isSpelled_or_ident hother hw hword).resolve_right ?_
      rintro ⟨rfl, k, -, hk⟩
      exact longest_ne_ident (longest_of_best h hkind) hk
  stray {c cs n} h hc := by
    have hn := congrArg Prod.snd h
    rw [best, longest_of_error h, if_neg (by simpa using hc)] at hn
    exact hn.symm
  unclosed {cs n} h := by
    have hn := congrArg Prod.snd h
    rw [best, longest_of_error h, if_pos (beq_self_eq_true _)] at hn
    obtain ⟨hle, hitems⟩ := take_items cs
    refine ⟨items cs, hn.symm.trans (Nat.add_comm _ _), hle, hitems, fun w hw hpre => ?_⟩
    obtain ⟨m, hm, hmax⟩ := (finds_items cs).complete w hw hpre
    obtain rfl := Option.some.inj hm
    exact hmax

/-! ### Reading -/

/-- A scanner as it is promised reads the longest word. -/
theorem Documented.reading {scan : Scanner} (h : Documented scan) : Reading scan := by
  intro c cs
  cases hscan : scan c cs with
  | mk kind n =>
    by_cases hkind : kind = .error
    · subst hkind
      have hnone : ∀ other, ∀ w ∈ words other, ¬ w <+: c :: cs := fun other w hw hpre =>
        (h.longest w hw hpre).1 (congrArg Prod.fst hscan)
      by_cases hc : c = '"'
      · subst hc
        obtain ⟨m, rfl, hle, hitems, hmax⟩ := h.unclosed hscan
        have hsplit := List.take_append_drop m cs
        refine .unclosed hitems (fun w hw hpre => ?_) (hsplit.symm ▸ hnone)
        rw [Nat.add_sub_cancel, List.length_take, Nat.min_eq_left hle]
        rw [Nat.add_sub_cancel, hsplit] at hpre
        exact hmax w hw hpre
      · obtain rfl := h.stray hscan hc
        exact .stray hc hnone
    · obtain ⟨hle, hword⟩ := h.sound hscan hkind
      cases n with
      | zero => exact absurd hword nil_not_mem_words
      | succ n =>
        refine .lexeme hword fun other w hw hpre => ?_
        rw [Nat.add_sub_cancel, List.cons_append, List.take_append_drop] at hpre
        rw [Nat.add_sub_cancel, List.length_cons, List.length_take, Nat.min_eq_left (Nat.le_of_succ_le_succ hle)]
        exact (h.longest w hw hpre).2.trans_eq (congrArg Prod.snd hscan)

/-- A reserved word is read as such by a scanner as it is promised. -/
theorem Documented.keyword {scan : Scanner} (h : Documented scan) {k : Keyword}
    (hk : c :: cs.take ((scan c cs).2 - 1) = k.spelling.toList) : (scan c cs).1 = .keyword k := by
  have hpre : k.spelling.toList <+: c :: cs :=
    hk ▸ List.cons_prefix_cons.mpr ⟨rfl, List.take_prefix _ _⟩
  have hmem : k.spelling.toList ∈ words (.keyword k) := rfl
  have hkind := (h.longest _ hmem hpre).1
  have hword := (h.sound rfl hkind).2
  have htake : (c :: cs).take (scan c cs).2 = k.spelling.toList := by
    cases hn : (scan c cs).2 with
    | zero => exact absurd (hn ▸ hword) nil_not_mem_words
    | succ n => rwa [hn] at hk
  exact keyword_of_isSpelled (h.spelled rfl (.keyword k) rfl htake) (htake ▸ hword)

/-- The scanner that texts are read with reads the longest word: before a dollar sign a reserved word is an
identifier, too. -/
theorem reading_first : Reading first := by
  intro c cs
  have hbest := best_documented.reading c cs
  rcases first_cases c cs with hfirst | ⟨k, n, hkeyword, -, hfirst⟩
  · rw [hfirst]
    exact hbest
  · rw [hkeyword] at hbest
    rw [hfirst]
    cases hbest with
    | lexeme hword hlongest =>
      rw [show _ = k.spelling.toList from hword] at hlongest ⊢
      exact .lexeme (spelling_mem_ident k) hlongest

/-- Something is read. -/
theorem Reads.ne_nil (h : Reads kind word rest) : word ≠ [] := by
  cases h with
  | lexeme hword =>
    rintro rfl
    exact nil_not_mem_words hword
  | stray => exact List.cons_ne_nil _ _
  | unclosed => exact List.cons_ne_nil _ _

/-! ### Tokens and what is between them -/

/-- A sequence of blanks and comments, each as long as can be, before the rest of a text. -/
inductive Skips : List Char → List Char → Prop
  | nil (rest : List Char) : Skips [] rest
  | cons {kind : Kind} {word gap rest : List Char} (hkind : kind = .blank ∨ kind = .comment)
      (hreads : Reads kind word (gap ++ rest)) (hgap : Skips gap rest) : Skips (word ++ gap) rest

/-- The tokens of a text that begins at an offset, each in its place and behind blanks and comments. -/
inductive Tiles : Nat → List Char → List Token → Prop
  | nil {offset : Nat} {gap : List Char} (hgap : Skips gap []) : Tiles offset gap []
  | cons {offset : Nat} {gap word rest : List Char} {t : Token} {ts : List Token}
      (hlead : t.lead.toList = gap) (htext : t.text.toList = word) (hgap : Skips gap (word ++ rest))
      (hkind : ¬ (t.kind = .blank ∨ t.kind = .comment)) (hreads : Reads t.kind word rest)
      (hstart : t.start = offset + Text.byteLength gap)
      (hstop : t.stop = t.start + Text.byteLength word) (hrest : Tiles t.stop rest ts) :
      Tiles offset (gap ++ (word ++ rest)) (t :: ts)

theorem isTrivia_iff : kind.isTrivia = true ↔ kind = .blank ∨ kind = .comment := by
  cases kind <;> simp [Kind.isTrivia]

/-- A gap is made of words for blanks and comments. -/
theorem Skips.mem_many {gap : List Char} (h : Skips gap rest) :
    gap ∈ (words .blank + words .comment)∗ := by
  induction h with
  | nil => exact Language.nil_mem_kstar _
  | cons hkind hreads _ ih =>
    refine append_mem_kstar ?_ ih
    rcases hkind with rfl | rfl
    · cases hreads with
      | lexeme hword => exact (Language.mem_add _ _ _).mpr (.inl hword)
    · cases hreads with
      | lexeme hword => exact (Language.mem_add _ _ _).mpr (.inr hword)

/-- Another blank or comment after a sequence of them. -/
theorem Skips.concat {gap : List Char} (h : Skips gap (word ++ rest))
    (hkind : kind = .blank ∨ kind = .comment) (hreads : Reads kind word rest) :
    Skips (gap ++ word) rest := by
  generalize hnext : word ++ rest = next at h
  induction h with
  | nil next =>
    have hlast : Skips (word ++ []) rest := .cons hkind hreads (.nil rest)
    rwa [List.append_nil] at hlast
  | cons hkind' hreads' _ ih =>
    subst hnext
    rw [List.append_assoc]
    refine .cons hkind' ?_ (ih rfl)
    rwa [List.append_assoc]

/-- What has been passed stands before the tokens that follow. -/
theorem tiles_place {scan : Scanner} (hscan : Reading scan) (offset : Nat) {lead cs : List Char}
    (h : Skips lead cs) :
    Tiles offset (lead ++ cs) (place (offset + Text.byteLength lead) lead (lexemes scan cs)) := by
  fun_induction lexemes scan cs generalizing offset lead with
  | case1 =>
    rw [List.append_nil]
    exact .nil h
  | case2 c cs found ih =>
    have hreads : Reads found.1 (c :: cs.take (found.2 - 1)) (cs.drop (found.2 - 1)) := hscan c cs
    have hsplit : c :: cs = (c :: cs.take (found.2 - 1)) ++ cs.drop (found.2 - 1) := by
      rw [List.cons_append, List.take_append_drop]
    rw [hsplit] at h ⊢
    generalize c :: cs.take (found.2 - 1) = word at *
    generalize cs.drop (found.2 - 1) = rest at *
    rw [place]
    dsimp only
    by_cases hkind : found.1.isTrivia = true
    · rw [if_pos hkind, Nat.add_assoc, ← Text.byteLength_append, ← List.append_assoc]
      exact ih offset (h.concat (isTrivia_iff.mp hkind) hreads)
    · rw [if_neg hkind]
      exact .cons String.toList_ofList String.toList_ofList h (mt isTrivia_iff.mpr hkind) hreads rfl rfl
        (ih _ (.nil rest))

namespace Tiles

variable {offset : Nat} {ts : List Token}

/-- A text is its tokens, each behind a gap, and one more gap. -/
theorem exists_trail (h : Tiles offset cs ts) : ∃ trail, cs = ts.flatMap Token.chars ++ trail ∧
    trail ∈ (words .blank + words .comment)∗ ∧
      ∀ t ∈ ts, t.lead.toList ∈ (words .blank + words .comment)∗ := by
  induction h with
  | nil hgap => exact ⟨_, rfl, hgap.mem_many, fun t ht => absurd ht List.not_mem_nil⟩
  | cons hlead htext hgap _ _ _ _ _ ih =>
    obtain ⟨trail, rfl, htrail, hleads⟩ := ih
    refine ⟨trail, ?_, htrail, List.forall_mem_cons.mpr ⟨hlead ▸ hgap.mem_many, hleads⟩⟩
    rw [List.flatMap_cons, Token.chars, hlead, htext, List.append_assoc, List.append_assoc]

/-- Every token stands in the text where it claims to. -/
theorem exists_place (h : Tiles offset cs ts) {t : Token} (ht : t ∈ ts) : ∃ before after,
    cs = before ++ (t.text.toList ++ after) ∧ t.start = offset + Text.byteLength before ∧
      t.stop = t.start + Text.byteLength t.text.toList ∧ Reads t.kind t.text.toList after := by
  induction h with
  | nil => exact absurd ht List.not_mem_nil
  | @cons offset gap word rest u ts hlead htext hgap hkind hreads hstart hstop hrest ih =>
    rcases List.mem_cons.mp ht with rfl | ht
    · exact ⟨gap, rest, by rw [htext], hstart, htext ▸ hstop, htext ▸ hreads⟩
    · obtain ⟨before, after, rfl, hplace, hends, hreads'⟩ := ih ht
      refine ⟨gap ++ (word ++ before), after, by simp only [List.append_assoc], ?_, hends, hreads'⟩
      rw [hplace, hstop, hstart, Text.byteLength_append, Text.byteLength_append, Nat.add_assoc,
        Nat.add_assoc]

/-- Tokens do not overlap. -/
theorem pairwise (h : Tiles offset cs ts) : ts.Pairwise fun t u => t.stop ≤ u.start := by
  induction h with
  | nil => exact .nil
  | cons _ _ _ _ _ _ _ hrest ih =>
    refine .cons (fun u hu => ?_) ih
    obtain ⟨_, _, _, hplace, _⟩ := hrest.exists_place hu
    exact hplace ▸ Nat.le_add_right _ _

end Tiles

end Scan

/-- Every character takes a byte at least. -/
theorem Text.byteLength_pos {cs : List Char} (h : cs ≠ []) : 0 < byteLength cs := by
  cases cs with
  | nil => exact absurd rfl h
  | cons c cs => exact Nat.add_pos_left c.utf8Size_pos _

/-- The tokens of a text lie in it one behind the other. -/
theorem tiles_tokenize (text : String) : Scan.Tiles 0 text.toList (tokenize text) :=
  Scan.tiles_place Scan.reading_first 0 (.nil text.toList)

/-- **Lexing loses nothing and reads the longest.** Take any scanner that does what is promised of one that is
generated from the classes of lexemes. The tokens that it makes of any text lie in it one behind the other;
none is empty, and each says what stands at its place in the text, between two characters. Before each token
and behind the last there are only blanks and comments. Each token is the longest word at its place of all
classes of lexemes, and a reserved word rather than an identifier; errors are only where no class has a
word. -/
theorem tokenize_longest {scan : Scan.Scanner} (hscan : Scan.Documented scan) (text : String) :
    let tokens := tokenizeBy scan text
    Scan.Tiles 0 text.toList tokens ∧
    (∃ trail, text.toList = tokens.flatMap Token.chars ++ trail ∧
      trail ∈ (Scan.words .blank + Scan.words .comment)∗ ∧
      ∀ t ∈ tokens, t.lead.toList ∈ (Scan.words .blank + Scan.words .comment)∗) ∧
    (tokens.Pairwise fun t u => t.stop ≤ u.start) ∧
    (∀ t ∈ tokens, ∀ k : Keyword, t.text = k.spelling → t.kind = .keyword k) ∧
    ∀ t ∈ tokens, t.start < t.stop ∧ ∃ before after,
      text.toList = before ++ (t.text.toList ++ after) ∧ Text.byteLength before = t.start ∧
      Text.byteLength (before ++ t.text.toList) = t.stop ∧ Scan.Reads t.kind t.text.toList after := by
  intro tokens
  have htiles : Scan.Tiles 0 text.toList tokens := Scan.tiles_place hscan.reading 0 (.nil text.toList)
  refine ⟨htiles, htiles.exists_trail, htiles.pairwise, fun t ht k hk => ?_, fun t ht => ?_⟩
  · obtain ⟨l, hl, hkind, htext⟩ := Scan.exists_lexeme_of_mem_place ht
    rw [hkind]
    refine Scan.forall_lexemes (P := fun l => l.chars = k.spelling.toList → l.kind = .keyword k)
      (fun _ _ => hscan.keyword) _ l hl ?_
    rw [← hk, htext, String.toList_ofList]
  · obtain ⟨before, after, htext, hstart, hstop, hreads⟩ := htiles.exists_place ht
    rw [Nat.zero_add] at hstart
    have hpos := Text.byteLength_pos hreads.ne_nil
    refine ⟨by omega, before, after, htext, hstart.symm, ?_, hreads⟩
    rw [Text.byteLength_append, hstop, hstart]

/-- The scanner that finds the longest fit of the patterns is one as it is promised. It reads a reserved
word, half a gate, an incomplete exponent, and a string that never ends. -/
theorem tokenize_longest_best :
    Scan.Documented Scan.best ∧
      tokenizeBy Scan.best "int g$i 1.5e+\"a" = [⟨.keyword .int, "int", 0, 3, ""⟩, ⟨.ident, "g$i", 4, 7, " "⟩,
        ⟨.real, "1.5", 8, 11, " "⟩, ⟨.ident, "e", 11, 12, ""⟩, ⟨.mark .plus, "+", 12, 13, ""⟩,
        ⟨.error, "\"a", 13, 15, ""⟩] ∧
      Scan.Tiles 0 "int g$i 1.5e+\"a".toList (tokenizeBy Scan.best "int g$i 1.5e+\"a") :=
  ⟨Scan.best_documented, by decide +kernel, (tokenize_longest Scan.best_documented _).1⟩

/-- The scanner that texts are read with has an identifier before the dollar sign. -/
example : tokenize "int$" = [⟨.ident, "int", 0, 3, ""⟩, ⟨.mark .dollar, "$", 3, 4, ""⟩] := by
  decide +kernel

end NedWorkspace
