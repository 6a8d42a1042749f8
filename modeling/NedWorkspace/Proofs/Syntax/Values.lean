/-
# Property values are slices of the text

SPEC_FULL, section 1: values are opaque source slices, string literals unquoted.

A value of a property is a run of tokens, and what is kept of it is the slice of the text in which they
stand (`Parser.property_values`). The quotes of a string literal are left out. They are taken off the slice,
though, and not off a token, so any value that begins with a string literal and ends with one loses its first
quote and its last, and two values that are different in the text are kept as one text
(`Parser.quotes_of_two_literals`).
-/

import NedWorkspace.Proofs.Syntax.Accept.Member
import NedWorkspace.Proofs.Syntax.Behind
import NedWorkspace.Proofs.Token.Slices

namespace NedWorkspace

open Rule Stretch

/-! ### What is kept of a run of tokens -/

namespace Token

variable {text : String} {run run' : List Token}

/-- The text that is kept of a property value. -/
def value (run : List Token) : String :=
  Parser.unquote (Text.trim (sourceText run))

/-- The run begins with a string literal and ends with one, which can be the same. -/
def Quoted (run : List Token) : Prop :=
  ∃ t u, run.head? = some t ∧ run.getLast? = some u ∧ t.kind = .string ∧ u.kind = .string

/-- The run neither begins nor ends with an error. -/
def Clean (run : List Token) : Prop :=
  ∀ t, run.head? = some t ∨ run.getLast? = some t → t.kind ≠ .error

/-- How the kept text of a run of tokens follows from the slice of the text that it stands in. -/
structure Keeps (text : String) (run : List Token) : Prop where
  slice : ∀ t u, run.head? = some t → run.getLast? = some u →
    Text.slice? text t.start u.stop = some (sourceText run)
  quoted : Quoted run → sourceText run = "\"" ++ value run ++ "\""
  asWritten : Clean run → ¬ Quoted run → value run = sourceText run
  /-- An error at an end of the run may be a blank that the language does not know, or a quote. -/
  trimmed : Text.trim (sourceText run) = value run ∨
    Text.trim (sourceText run) = "\"" ++ value run ++ "\""

end Token

namespace Parser

/-- A text of two characters or more that ends with a quote has it behind the rest. -/
theorem exists_concat_quote {c : Char} {cs : List Char} (hne : cs ≠ [])
    (hlast : (c :: cs).getLast? = some '"') : ∃ inner, cs = inner ++ ['"'] := by
  rcases List.eq_nil_or_concat' cs with rfl | ⟨inner, d, rfl⟩
  · exact absurd rfl hne
  · rw [← List.cons_append, List.getLast?_concat] at hlast
    exact ⟨inner, by rw [Option.some.inj hlast]⟩

/-- A text between two quotes is kept without them. -/
theorem eq_of_quotes {text : String} {inner : List Char} (h : text.toList = '"' :: (inner ++ ['"'])) :
    text = "\"" ++ unquote text ++ "\"" := by
  have hunquote : unquote text = String.ofList inner :=
    unquote_literal (by rw [h, String.toList_ofList])
  rw [hunquote, ← String.toList_inj, h]
  simp

/-- Quotes are taken off both ends of a text or off none. -/
theorem unquote_cases (text : String) :
    text = unquote text ∨ text = "\"" ++ unquote text ++ "\"" := by
  by_cases hquotes : text.toList.head? = some '"' ∧ text.toList.getLast? = some '"'
  · obtain ⟨hhead, hlast⟩ := hquotes
    obtain ⟨more, hmore⟩ := List.head?_eq_some_iff.mp hhead
    rw [hmore] at hlast
    by_cases hnil : more = []
    · left
      simp [unquote, hmore, hnil]
    · obtain ⟨inner, rfl⟩ := exists_concat_quote hnil hlast
      exact .inr (eq_of_quotes hmore)
  · exact .inl (unquote_eq_self hquotes).symm

end Parser

namespace Token

variable {text : String} {run run' : List Token}

/-- A run that begins and ends with a string literal begins and ends with a quote, and these are two. -/
theorem exists_quotes (hmem : ∀ t ∈ run, t ∈ tokenize text) (h : Quoted run) :
    ∃ inner, (sourceText run).toList = '"' :: (inner ++ ['"']) := by
  obtain ⟨t, u, ht, hu, htkind, hukind⟩ := h
  obtain ⟨more, rfl⟩ := List.head?_eq_some_iff.mp ht
  have htmem := hmem t List.mem_cons_self
  have humem := hmem u (List.mem_of_getLast? hu)
  obtain ⟨first, hfirst⟩ := Scan.exists_quoted (htkind ▸ mem_words_of_mem htmem (by simp [htkind]))
  obtain ⟨last, hlast⟩ := Scan.exists_quoted (hukind ▸ mem_words_of_mem humem (by simp [hukind]))
  have hend : (sourceText (t :: more)).toList.getLast? = some '"' := by
    rw [getLast?_sourceText (ne_nil_of_mem humem) hu, hlast, ← List.cons_append, List.getLast?_concat]
  rw [toList_sourceText, hfirst, List.cons_append, List.append_assoc] at hend ⊢
  obtain ⟨inner, hinner⟩ := Parser.exists_concat_quote (by simp) hend
  exact ⟨inner, by rw [hinner]⟩

/-- **What is kept of a run of tokens of a text.** -/
theorem keeps_of_tokenize {before after : List Token} (h : tokenize text = before ++ (run ++ after)) :
    Keeps text run := by
  have hmem : ∀ t ∈ run, t ∈ tokenize text := by
    intro t ht
    rw [h]
    exact List.mem_append_right _ (List.mem_append_left _ ht)
  have htrim (hclean : Clean run) : Text.trim (sourceText run) = sourceText run := by
    cases run with
    | nil => decide
    | cons t more =>
      have hlast := List.getLast?_eq_some_getLast (List.cons_ne_nil t more)
      exact trim_sourceText_of_edged (edged_of_mem (hmem t List.mem_cons_self) (hclean t (.inl rfl)))
        (edged_of_mem (hmem _ (List.mem_of_getLast? hlast)) (hclean _ (.inr hlast))) hlast
  constructor
  case slice => exact fun t u ht hu => tokenize_slice h ht hu
  case quoted =>
    intro hquoted
    obtain ⟨inner, hinner⟩ := exists_quotes hmem hquoted
    have hclean : Clean run := by
      obtain ⟨t, u, ht, hu, htkind, hukind⟩ := hquoted
      rintro v (hv | hv)
      · rw [ht, Option.some_inj] at hv
        simp [← hv, htkind]
      · rw [hu, Option.some_inj] at hv
        simp [← hv, hukind]
    rw [value, htrim hclean]
    exact Parser.eq_of_quotes hinner
  case asWritten =>
    intro hclean hquoted
    rw [value, htrim hclean]
    cases run with
    | nil => decide
    | cons t more =>
      have hlast := List.getLast?_eq_some_getLast (List.cons_ne_nil t more)
      exact Parser.unquote_sourceText (edged_of_mem (hmem t List.mem_cons_self) (hclean t (.inl rfl)))
        (edged_of_mem (hmem _ (List.mem_of_getLast? hlast)) (hclean _ (.inr hlast))) hlast
        fun ht hu => hquoted ⟨t, _, rfl, hlast, ht, hu⟩
  case trimmed => exact Parser.unquote_cases _

/-- Two runs of one sort are kept as one text only if they stand in equal slices. -/
theorem Keeps.value_eq_iff (h : Keeps text run) (h' : Keeps text run') (hclean : Clean run)
    (hclean' : Clean run') (hsort : Quoted run ↔ Quoted run') :
    value run = value run' ↔ sourceText run = sourceText run' := by
  constructor
  · intro hvalue
    by_cases hquoted : Quoted run
    · rw [h.quoted hquoted, h'.quoted (hsort.mp hquoted), hvalue]
    · rw [← h.asWritten hclean hquoted, ← h'.asWritten hclean' (mt hsort.mpr hquoted), hvalue]
  · intro hsource
    rw [value, value, hsource]

end Token

/-! ### Properties with any values -/

/-- The tokens of a value: any with paired brackets, but no comma and no semicolon outside them. There may
be none. -/
def ValueTokens : Rule (List Token) := fun run ts =>
  run = ts ∧ Paired [.mark .comma, .mark .semicolon] ts

/-- An entry of a property: its key, empty if it has none, and the tokens of its values. -/
structure EntryTokens where
  key : String
  values : List (List Token)

namespace EntryTokens

/-- The entry that is kept. -/
def kept (e : EntryTokens) : PropertyEntry :=
  ⟨e.key, e.values.map Token.value⟩

inductive Written : Rule EntryTokens
  | keyed {t u : Token} {ts : List Token} {runs : List (List Token)} (word : Parser.isWord t.text = true)
      (sign : u.kind = .mark .eq) (values : SepBy (.mark .comma) ValueTokens runs ts) :
      Written ⟨t.text, runs⟩ (t :: u :: ts)
  | plain {ts : List Token} {runs : List (List Token)} (values : SepBy (.mark .comma) ValueTokens runs ts)
      (keyless : ¬ BeginsWithKey ts) : Written ⟨"", runs⟩ ts

end EntryTokens

/-- Entries with semicolons between them. A semicolon may stand behind the last one. -/
inductive EntriesTokens : Rule (List EntryTokens)
  | nil : EntriesTokens [] []
  | last {e : EntryTokens} {ts : List Token} (entry : e.Written ts) (given : ts ≠ []) :
      EntriesTokens [e] ts
  | more {e : EntryTokens} {es : List EntryTokens} {t : Token} {ts us : List Token} (entry : e.Written ts)
      (mark : t.kind = .mark .semicolon) (rest : EntriesTokens es us) :
      EntriesTokens (e :: es) (ts ++ t :: us)

/-- A property with a list of entries. -/
inductive PropertyTokens (name : String) (es : List EntryTokens) : List Token → Prop
  | mk {tAt tName tOpen tClose : Token} {tIndex tEntries : List Token} {index : Option (List Token)}
      (atSign : tAt.kind = .mark .atSign) (word : Parser.isWord tName.text = true) (named : tName.text = name)
      (index : Perhaps (Between (.mark .lbracket) (.mark .rbracket)
        (fun run ts => run = ts ∧ Paired Parser.indexStops ts)) index tIndex)
      (opening : tOpen.kind = .mark .lparen) (entries : EntriesTokens es tEntries)
      (closing : tClose.kind = .mark .rparen) :
      PropertyTokens name es (tAt :: tName :: (tIndex ++ tOpen :: (tEntries ++ [tClose])))

/-! ### The runs lie in the property -/

/-- The tokens of one value stand together among those of the list. -/
theorem ValueTokens.isInfix {runs : List (List Token)} {run ts : List Token}
    (h : SepBy (.mark .comma) ValueTokens runs ts) (hrun : run ∈ runs) : run <:+: ts := by
  induction h with
  | last piece =>
    obtain ⟨rfl, -⟩ := piece
    obtain rfl := List.mem_singleton.mp hrun
    exact List.infix_rfl
  | more first _ _ ih =>
    rcases List.mem_cons.mp hrun with rfl | hrun
    · obtain ⟨rfl, -⟩ := first
      exact (List.prefix_append _ _).isInfix
    · exact (ih hrun).trans ((List.suffix_cons _ _).trans (List.suffix_append _ _)).isInfix

/-- The tokens of one value stand together among those of the entry. -/
theorem EntryTokens.Written.isInfix {e : EntryTokens} {run ts : List Token} (h : e.Written ts)
    (hrun : run ∈ e.values) : run <:+: ts := by
  cases h with
  | keyed _ _ values =>
    exact (ValueTokens.isInfix values hrun).trans ((List.suffix_cons _ _).trans (List.suffix_cons _ _)).isInfix
  | plain values _ => exact ValueTokens.isInfix values hrun

/-- The tokens of one value stand together among those of all entries. -/
theorem EntriesTokens.isInfix {es : List EntryTokens} {e : EntryTokens} {run ts : List Token}
    (h : EntriesTokens es ts) (he : e ∈ es) (hrun : run ∈ e.values) : run <:+: ts := by
  induction h with
  | nil => exact absurd he List.not_mem_nil
  | last entry _ =>
    obtain rfl := List.mem_singleton.mp he
    exact entry.isInfix hrun
  | more entry _ _ ih =>
    rcases List.mem_cons.mp he with rfl | he
    · exact (entry.isInfix hrun).trans (List.prefix_append _ _).isInfix
    · exact (ih he).trans ((List.suffix_cons _ _).trans (List.suffix_append _ _)).isInfix

/-- The tokens of one value stand together among those of the property. -/
theorem PropertyTokens.isInfix {name : String} {es : List EntryTokens} {e : EntryTokens}
    {run ts : List Token} (h : PropertyTokens name es ts) (he : e ∈ es) (hrun : run ∈ e.values) :
    run <:+: ts := by
  obtain @⟨tAt, tName, tOpen, tClose, tIndex, tEntries, index, -, -, -, -, -, entries, -⟩ := h
  obtain ⟨lo, hi, hinner⟩ := entries.isInfix he hrun
  refine ⟨tAt :: tName :: (tIndex ++ tOpen :: lo), hi ++ [tClose], ?_⟩
  rw [← hinner]
  simp only [List.cons_append, List.append_assoc]

/-! ### Reading -/

/-- Balanced tokens do not begin by closing. -/
theorem Stretch.Paired.isClosing_head {stops : List Kind} {t : Token} {ts : List Token}
    (h : Paired stops (t :: ts)) : t.kind.isClosing = false := by
  generalize hall : t :: ts = all at h
  cases h with
  | nil => exact absurd hall (List.cons_ne_nil _ _)
  | token _ unclosing _ _ =>
    obtain ⟨rfl, -⟩ := List.cons.inj hall
    exact unclosing
  | group shape _ _ _ =>
    obtain ⟨rfl, -⟩ := List.cons.inj hall
    rw [Bool.eq_false_iff]
    intro hclosing
    have hopening := Kind.isOpening_of_closer? shape
    simp [Kind.isOpening_of_isClosing hclosing] at hopening

/-- Values do not begin with a closing bracket. -/
theorem ValueTokens.isClosing_head {runs : List (List Token)} {t : Token} {ts : List Token}
    (h : SepBy (.mark .comma) ValueTokens runs (t :: ts)) : t.kind.isClosing = false := by
  generalize hall : t :: ts = all at h
  cases h with
  | last piece =>
    obtain ⟨-, paired⟩ := piece
    exact (hall ▸ paired).isClosing_head
  | @more _ _ first _ _ piece mark _ =>
    obtain ⟨-, paired⟩ := piece
    cases first with
    | nil =>
      obtain ⟨rfl, -⟩ := List.cons.inj hall
      rw [mark]
      rfl
    | cons u us =>
      obtain ⟨rfl, -⟩ := List.cons.inj hall
      exact paired.isClosing_head

namespace Parser

variable {ts us : List Token}

/-- A value is kept as the text of its tokens, without quotes around it. -/
theorem propertyValue_takes_run {run : List Token} (h : Paired [.mark .comma, .mark .semicolon] run)
    (hus : Token.Ends [.mark .comma, .mark .semicolon] us) :
    Takes (run ++ us) us (Option.Rel (fun v run => v = Token.value run) · (some run)) propertyValue := by
  refine .bind_eq (expression_takes_paired h (List.Subset.refl _) hus) (.pure (.some ?_))
  split
  · rename_i hnil
    subst hnil
    decide
  · rw [Option.map_some, Option.getD_some, Token.value]

/-- Values are kept one by one, as the texts of their tokens. -/
theorem values_takes_runs {runs : List (List Token)} (h : SepBy (.mark .comma) ValueTokens runs ts)
    (hus : Token.Ends [.mark .semicolon] us) (hcomma : Token.next? us ≠ some (.mark .comma)) :
    Takes (ts ++ us) us (· = runs.map Token.value) (sepBy (.mark .comma) propertyValue) := by
  have htakes : Takes (ts ++ us) us (List.Forall₂ (fun v run => v = Token.value run) · runs)
      (sepBy (.mark .comma) propertyValue) := by
    refine sepBy_takes (Token.Ends [.mark .comma, .mark .semicolon]) h ?_
      (fun t us ht => Token.ends_cons (.inl (by simp [ht])))
      (fun k hk => (hus k hk).imp_left (List.mem_cons_of_mem _)) hcomma
    rintro run ts us ⟨rfl, paired⟩ hus
    exact propertyValue_takes_run paired hus
  refine htakes.imp fun found hfound => ?_
  rwa [← List.forall₂_eq_eq_eq, List.forall₂_map_right_iff]

/-- The key is the word before a sign of equality, and there is none in what begins with no such word. -/
theorem look_keyAhead_takes_none (hmarks : Token.MarksNoWords (ts ++ us)) (hkeyless : ¬ BeginsWithKey ts)
    (hus : Token.next? us = some (.mark .semicolon) ∨ Token.next? us = some (.mark .rparen)) :
    Takes (ts ++ us) (ts ++ us) (· = none) (look keyAhead) := by
  refine .look fun s hs => ?_
  rw [keyAhead, hs]
  split
  · rename_i t u more htokens
    refine if_neg fun hkey => ?_
    cases ts with
    | nil =>
      obtain ⟨m, hm⟩ : ∃ m, t.kind = .mark m := by
        rw [List.nil_append] at htokens
        rw [htokens] at hus
        rcases hus with h | h
        · exact ⟨_, Option.some.inj h⟩
        · exact ⟨_, Option.some.inj h⟩
      have hno := hmarks t (by simp [htokens]) m hm
      simp [hkey.2] at hno
    | cons w ts =>
      obtain ⟨rfl, hmore⟩ := List.cons.inj htokens
      cases ts with
      | nil =>
        rw [show us = _ from hmore, Token.next?_cons, hkey.1] at hus
        simp at hus
      | cons v ts =>
        obtain ⟨rfl, -⟩ := List.cons.inj hmore
        exact hkeyless ⟨_, _, ts, rfl, hkey.2, hkey.1⟩
  · rfl

/-- An entry is kept with its key and its values. -/
theorem propertyEntry_takes_tokens {e : EntryTokens} (h : e.Written ts)
    (hmarks : Token.MarksNoWords (ts ++ us))
    (hus : Token.next? us = some (.mark .semicolon) ∨ ts ≠ [] ∧ Token.next? us = some (.mark .rparen)) :
    Takes (ts ++ us) us (Option.Rel (fun p e => p = EntryTokens.kept e) · (some e)) propertyEntry := by
  have hends : Token.Ends [.mark .semicolon] us := by
    intro k hk
    rw [hk] at hus
    rcases hus with hus | ⟨-, hus⟩
    · exact .inl (by simp [Option.some.inj hus])
    · exact .inr (by simp [Option.some.inj hus, Kind.isClosing])
  have hcomma : Token.next? us ≠ some (.mark .comma) := by
    rcases hus with hus | ⟨-, hus⟩ <;> simp [hus]
  refine .bind_eq kind?_takes ?_
  cases h with
  | @keyed t u ts runs word sign values =>
    rw [List.cons_append, List.cons_append, Token.next?_cons]
    split
    · rename_i hnone
      exact absurd hnone (by simp)
    · rename_i hclose
      have hno := hmarks t List.mem_cons_self _ (Option.some.inj hclose)
      simp [word] at hno
    · refine .bind_eq (a := some t.text) (.look fun s hs => ?_) ?_
      · rw [keyAhead, hs]
        exact if_pos ⟨sign, word⟩
      · exact .andThen skipOne_takes fun _ => .andThen skipOne_takes fun _ =>
          .bind_eq (.pure rfl) (.bind_eq (values_takes_runs values hends hcomma) (.pure (.some rfl)))
  | @plain ts runs values keyless =>
    have hopen : Token.next? (ts ++ us) ≠ some (.mark .rparen) ∧ Token.next? (ts ++ us) ≠ none := by
      cases ts with
      | nil =>
        rw [List.nil_append]
        rcases hus with hus | ⟨hne, -⟩
        · simp [hus]
        · exact absurd rfl hne
      | cons t ts =>
        have hclosing := ValueTokens.isClosing_head values
        refine ⟨fun hclose => ?_, by simp⟩
        rw [List.cons_append, Token.next?_cons] at hclose
        rw [Option.some.inj hclose] at hclosing
        exact absurd hclosing (by decide)
    split
    · exact absurd ‹_› hopen.2
    · exact absurd ‹_› hopen.1
    · exact .bind_eq (look_keyAhead_takes_none hmarks keyless (hus.imp_right And.right)) (.bind_eq (.pure rfl)
        (.bind_eq (values_takes_runs values hends hcomma) (.pure (.some rfl))))

/-- No item at all. -/
theorem sepBy_takes_none {α β : Type} {sep : Kind} {item : Parser (Option α)} {E : α → β → Prop}
    (hitem : Takes ts us (· = none) item) : Takes ts us (List.Forall₂ E · []) (sepBy sep item) := by
  intro s hs
  obtain ⟨hitem, hrest, herrors⟩ := hitem s hs
  change List.Forall₂ E (sepByFrom sep item s).1 [] ∧ (sepByFrom sep item s).2.rest = us ∧
    (sepByFrom sep item s).2.errors = s.errors
  rw [sepByFrom, hitem]
  exact ⟨.nil, hrest, herrors⟩

/-- No entry is read in front of the closing bracket. -/
theorem propertyEntry_takes_none {t : Token} (ht : t.kind = .mark .rparen) :
    Takes (t :: ts) (t :: ts) (· = none) propertyEntry := by
  refine .bind_eq kind?_takes ?_
  rw [Token.next?_cons, ht]
  exact .pure rfl

/-- Entries are kept one by one. -/
theorem entries_takes_tokens {es : List EntryTokens} (h : EntriesTokens es ts) {c : Token}
    (hc : c.kind = .mark .rparen) (hmarks : Token.MarksNoWords (ts ++ c :: us)) :
    Takes (ts ++ c :: us) (c :: us) (· = es.map EntryTokens.kept) (sepBy (.mark .semicolon) propertyEntry) := by
  have htakes : Takes (ts ++ c :: us) (c :: us) (List.Forall₂ (fun p e => p = EntryTokens.kept e) · es)
      (sepBy (.mark .semicolon) propertyEntry) := by
    induction h with
    | nil => exact sepBy_takes_none (propertyEntry_takes_none hc)
    | last entry given =>
      exact sepBy_takes_last (propertyEntry_takes_tokens entry hmarks (.inr ⟨given, by simp [hc]⟩)) (by simp [hc])
    | @more e es t ts vs entry mark rest ih =>
      rw [List.append_assoc, List.cons_append] at hmarks ⊢
      refine sepBy_takes_cons (propertyEntry_takes_tokens entry hmarks (.inl (by simp [mark]))) mark (ih ?_)
      exact fun u hu => hmarks u (List.mem_append_right _ (List.mem_cons_of_mem _ hu))
  refine htakes.imp fun found hfound => ?_
  rwa [← List.forall₂_eq_eq_eq, List.forall₂_map_right_iff]

/-- A property is kept with its name and its entries. -/
theorem property_takes_tokens {name : String} {es : List EntryTokens} (h : PropertyTokens name es ts)
    (hmarks : Token.MarksNoWords (ts ++ us)) :
    Takes (ts ++ us) us
      (fun found => ∃ p : Property, found = some p ∧ p.name = name ∧ p.entries = es.map EntryTokens.kept)
      property := by
  obtain @⟨tAt, tName, tOpen, tClose, tIndex, tEntries, index, -, word, named, hindex, opening, entries,
    closing⟩ := h
  simp only [List.cons_append, List.append_assoc, List.nil_append] at hmarks ⊢
  refine .andThen .any fun start => .andThen skipOne_takes fun _ => .andThen .newNode fun node =>
    .bind_eq (a := some tName.text) (.look fun s hs => by simp [hs, word]) (.andThen skipOne_takes fun _ => ?_)
  have hbehind (kept : Option String) : Takes (tOpen :: (tEntries ++ tClose :: us)) us
      (fun found => ∃ p : Property, found = some p ∧ p.name = name ∧ p.entries = es.map EntryTokens.kept) (do
        let entries ← do
          if ← eat (.mark .lparen) then
            let entries ← sepBy (.mark .semicolon) propertyEntry
            let _ ← expect (.mark .rparen) "')'"
            pure entries
          else pure []
        return some { node, name := tName.text, index := kept, entries, span := ← spanFrom start }) := by
    refine .bind_eq (eat_takes opening)
      (.bind_eq (entries_takes_tokens entries closing fun t ht => hmarks t ?_)
        (.andThen (expect_takes closing _) fun _ => .bind_eq (.pure rfl)
          (.andThen .any fun _ => .pure ⟨_, rfl, named, rfl⟩)))
    exact List.mem_cons_of_mem _ (List.mem_cons_of_mem _ (List.mem_append_right _ (List.mem_cons_of_mem _ ht)))
  cases hindex with
  | none => exact .bind_eq (eat_takes_none (by simp [opening])) (.bind_eq (.pure rfl) (hbehind none))
  | some hindex =>
    obtain ⟨hopen, ⟨rfl, paired⟩, hclose⟩ := hindex
    simp only [List.cons_append, List.append_assoc, List.nil_append]
    refine .bind_eq (eat_takes hopen) (.andThen (Q := fun _ => True) ?_ hbehind)
    exact .bind (expression_takes_paired paired (List.Subset.refl _)
      (Token.ends_cons (.inl (by simp [hclose, indexStops])))) fun _ _ =>
        .andThen (expect_takes hclose _) fun _ => .pure trivial

/-- **Property values are stored as written.** Wherever a property with entries is read in a text, it is
read to its end without an error, with the name and the keys that are written, and of every value the slice of
the text is kept in which its tokens stand. A value that begins and ends with a string literal, a single
literal above all, is kept without the quote at each end, and any other value is kept exactly, unless an
error stands at one of its ends. So two values are kept as one text only if their slices are equal or one of
them begins and ends with a literal and the other does not. -/
theorem property_values {text : String} {s : Cursor} {name : String} {es : List EntryTokens}
    {ts after : List Token} (hs : (Cursor.ofText text).Reaches s) (hrest : s.rest = ts ++ after)
    (h : PropertyTokens name es ts) :
    (∃ p, (property.run s).1 = some p ∧ p.name = name ∧ p.entries = es.map EntryTokens.kept) ∧
      (property.run s).2.rest = after ∧ (property.run s).2.errors = s.errors ∧
      (∀ e ∈ es, ∀ run ∈ e.values, Token.Keeps text run) ∧
      ∀ e ∈ es, ∀ run ∈ e.values, ∀ e' ∈ es, ∀ run' ∈ e'.values, Token.Clean run → Token.Clean run' →
        (Token.Quoted run ↔ Token.Quoted run') →
          (Token.value run = Token.value run' ↔ Token.sourceText run = Token.sourceText run') := by
  obtain ⟨before, hbefore⟩ := hs.rest
  have htokens : tokenize text = before ++ (ts ++ after) := by
    rw [← hrest]
    exact hbefore.symm
  have hmarks : Token.MarksNoWords (ts ++ after) :=
    Token.marksNoWords_of_tokenize fun t ht => htokens ▸ List.mem_append_right _ ht
  have hkeeps : ∀ e ∈ es, ∀ run ∈ e.values, Token.Keeps text run := by
    intro e he run hrun
    obtain ⟨lo, hi, rfl⟩ := h.isInfix he hrun
    have hsplit : tokenize text = (before ++ lo) ++ (run ++ (hi ++ after)) := by
      rw [htokens]
      simp only [List.append_assoc]
    exact Token.keeps_of_tokenize hsplit
  obtain ⟨hproperty, hafter, herrors⟩ := property_takes_tokens h hmarks s hrest
  refine ⟨hproperty, hafter, herrors, hkeeps, ?_⟩
  intro e he run hrun e' he' run' hrun' hclean hclean' hsort
  exact (hkeeps e he run hrun).value_eq_iff (hkeeps e' he' run' hrun') hclean hclean' hsort

/-- A string literal, a word and a call. -/
theorem property_values_mixed :
    ∃ p : Property, (property.run (Cursor.ofText "@p(k=\"a\",b;f(1))")).1 = some p ∧ p.name = "p" ∧
      p.entries = [⟨"k", ["a", "b"]⟩, ⟨"", ["f(1)"]⟩] := by
  let text := "@p(k=\"a\",b;f(1))"
  let a : List Token := [⟨.string, "\"a\"", 5, 8, ""⟩]
  let b : List Token := [⟨.ident, "b", 9, 10, ""⟩]
  let f : List Token := [⟨.ident, "f", 11, 12, ""⟩, ⟨.mark .lparen, "(", 12, 13, ""⟩,
    ⟨.integer, "1", 13, 14, ""⟩, ⟨.mark .rparen, ")", 14, 15, ""⟩]
  have ha : ValueTokens a a := ⟨rfl, .token rfl rfl (by decide) .nil⟩
  have hb : ValueTokens b b := ⟨rfl, .token rfl rfl (by decide) .nil⟩
  have hf : ValueTokens f f :=
    ⟨rfl, .token rfl rfl (by decide) (.group rfl (by decide) (.token rfl rfl (by decide) .nil) .nil)⟩
  have hproperty : PropertyTokens "p" [⟨"k", [a, b]⟩, ⟨"", [f]⟩] (tokenize text) := by
    have hat : (⟨.mark .atSign, "@", 0, 1, ""⟩ : Token).kind = .mark .atSign := rfl
    have hname : (⟨.ident, "p", 1, 2, ""⟩ : Token).text = "p" := rfl
    have hopen : (⟨.mark .lparen, "(", 2, 3, ""⟩ : Token).kind = .mark .lparen := rfl
    have hkey : Parser.isWord (⟨.ident, "k", 3, 4, ""⟩ : Token).text = true := rfl
    have hsign : (⟨.mark .eq, "=", 4, 5, ""⟩ : Token).kind = .mark .eq := rfl
    have hcomma : (⟨.mark .comma, ",", 8, 9, ""⟩ : Token).kind = .mark .comma := rfl
    have hsemicolon : (⟨.mark .semicolon, ";", 10, 11, ""⟩ : Token).kind = .mark .semicolon := rfl
    have hclose : (⟨.mark .rparen, ")", 15, 16, ""⟩ : Token).kind = .mark .rparen := rfl
    have hplain := EntryTokens.Written.plain (.last hf) (by
      rintro ⟨t, u, us, hts, -, hu⟩
      obtain ⟨-, hts⟩ := List.cons.inj hts
      obtain ⟨rfl, -⟩ := List.cons.inj hts
      exact absurd hu (by decide))
    have hentries := EntriesTokens.more (.keyed hkey hsign (.more ha hcomma (.last hb))) hsemicolon
      (.last hplain (List.cons_ne_nil _ _))
    have htokens := PropertyTokens.mk hat rfl hname .none hopen hentries hclose
    refine Eq.subst (motive := PropertyTokens "p" [⟨"k", [a, b]⟩, ⟨"", [f]⟩]) ?_ htokens
    decide +kernel
  obtain ⟨⟨p, hp, hname, hentries⟩, -⟩ := property_values (s := Cursor.ofText text) (.refl _)
    (List.append_nil _).symm hproperty
  exact ⟨p, hp, hname, hentries.trans (by decide +kernel)⟩

/-- **Two literals with an operator between them lose the quotes at their outer ends,** and then they are
kept as what is a different value in the text. -/
theorem quotes_of_two_literals :
    (tokenize "@p(\"a\" + \"b\", a\" + \"b);").map (fun t => (t.kind, t.start, t.stop)) =
        [(.mark .atSign, 0, 1), (.ident, 1, 2), (.mark .lparen, 2, 3), (.string, 3, 6), (.mark .plus, 7, 8),
          (.string, 9, 12), (.mark .comma, 12, 13), (.ident, 14, 15), (.string, 15, 20), (.ident, 20, 21),
          (.mark .rparen, 21, 22), (.mark .semicolon, 22, 23)] ∧
      Text.slice? "@p(\"a\" + \"b\", a\" + \"b);" 3 12 = some "\"a\" + \"b\"" ∧
      Text.slice? "@p(\"a\" + \"b\", a\" + \"b);" 14 21 = some "a\" + \"b" ∧
      (property.run (Cursor.ofText "@p(\"a\" + \"b\", a\" + \"b);")).1.map Property.entries =
        some [⟨"", ["a\" + \"b", "a\" + \"b"]⟩] := by
  refine ⟨by decide +kernel, ?_, ?_, by cbv⟩
  · decide +kernel
  · decide +kernel

end Parser

end NedWorkspace
