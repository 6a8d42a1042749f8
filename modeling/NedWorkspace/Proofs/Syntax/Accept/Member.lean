/-
# Members that are written are read

Properties, parameters, gates and submodules: each parser takes what its rule of the grammar writes, no
token more, notes no error, and gives the piece of syntax that is written, up to the numbers and spans of
its nodes.
-/

import NedWorkspace.Proofs.Syntax.Accept.Stretch
import NedWorkspace.Proofs.Syntax.Rounds

namespace NedWorkspace

open Rule Stretch Echoing

/-! ### First tokens -/

theorem Property.Written.leads_many {ps : List Property} {ts : List Token}
    (h : Many Property.Written ps ts) : Token.Leads (· = .mark .atSign) ts := by
  cases h with
  | nil => exact fun l hl => absurd hl (by simp)
  | cons first _ =>
    obtain ⟨atSign, _⟩ := first
    exact fun l hl => (Option.some.inj hl).symm.trans atSign

/-- Either there are no brackets, or they may hold a size. -/
theorem VectorWritten.cases {isVector : Bool} {size : Option String} {ts : List Token}
    (h : VectorWritten isVector size ts) :
    isVector = false ∧ size = none ∧ ts = [] ∨ isVector = true ∧
      Between (.mark .lbracket) (.mark .rbracket) (Perhaps (ExprWritten Parser.indexStops)) size ts := by
  cases h with
  | scalar => exact .inl ⟨rfl, rfl, rfl⟩
  | vector written => exact .inr ⟨rfl, written⟩

/-- The kinds that would go on with a property statement. -/
def statementBars : List Kind :=
  [.mark .lbracket, .mark .lparen, .mark .semicolon]

/-- What a member of a body does not begin with. -/
structure Kind.BeginsMember (k : Kind) : Prop where
  ne_rbrace : k ≠ .mark .rbrace
  notSection : BodySection.ofKind? k = none
  notBar : k ∉ statementBars

theorem Kind.beginsMember_ident : Kind.ident.BeginsMember :=
  ⟨by decide, rfl, by decide⟩

theorem Kind.beginsMember_atSign : (Kind.mark .atSign).BeginsMember :=
  ⟨by decide, rfl, by decide⟩

/-- A keyword that opens no section may begin a member. -/
theorem Kind.beginsMember_keyword {w : Keyword} (h : BodySection.ofKind? (.keyword w) = none) :
    (Kind.keyword w).BeginsMember :=
  ⟨by simp, h, by simp [statementBars]⟩

theorem Kind.beginsMember_of_paramType? {k : Kind} {a : ParamType} (h : Parser.paramType? k = some a) :
    k.BeginsMember ∧ k ≠ .mark .atSign := by
  unfold Parser.paramType? at h
  split at h
  · exact ⟨beginsMember_keyword rfl, by simp⟩
  · exact ⟨beginsMember_keyword rfl, by simp⟩
  · exact ⟨beginsMember_keyword rfl, by simp⟩
  · exact ⟨beginsMember_keyword rfl, by simp⟩
  · exact ⟨beginsMember_keyword rfl, by simp⟩
  · exact ⟨beginsMember_keyword rfl, by simp⟩
  · exact absurd h (by simp)

theorem Kind.beginsMember_of_direction? {k : Kind} {a : GateDirection}
    (h : Parser.direction? k = some a) : k.BeginsMember := by
  unfold Parser.direction? at h
  split at h
  · exact beginsMember_keyword rfl
  · exact beginsMember_keyword rfl
  · exact beginsMember_keyword rfl
  · exact absurd h (by simp)

/-- A word that opens a section neither closes a body nor goes on with a member. -/
theorem BodySection.notBar_of_ofKind? {k : Kind} {sec : BodySection} (h : ofKind? k = some sec) :
    k ≠ .mark .rbrace ∧ k ∉ statementBars := by
  unfold ofKind? at h
  split at h <;> simp_all [statementBars]

/-- A parameter begins as members do, and not with a property. -/
theorem Param.Written.exists_cons {p : Param} {ts : List Token} (h : p.Written ts) :
    ∃ t more, ts = t :: more ∧ t.kind.BeginsMember ∧ t.kind ≠ .mark .atSign := by
  obtain ⟨volatile, type, ident, _⟩ := h
  generalize Param.volatile _ = v at volatile
  generalize Param.type _ = a at type
  cases volatile with
  | yes word => exact ⟨_, _, rfl, word ▸ Kind.beginsMember_keyword rfl, by simp [word]⟩
  | no =>
    cases type with
    | none => exact ⟨_, _, rfl, ident ▸ Kind.beginsMember_ident, by simp [ident]⟩
    | some word => exact ⟨_, _, rfl, Kind.beginsMember_of_paramType? word⟩

/-- A gate begins as members do. -/
theorem Gate.Written.exists_cons {g : Gate} {ts : List Token} (h : g.Written ts) :
    ∃ t more, ts = t :: more ∧ t.kind.BeginsMember := by
  obtain ⟨direction, ident, _⟩ := h
  generalize Gate.direction _ = a at direction
  cases direction with
  | none => exact ⟨_, _, rfl, ident ▸ Kind.beginsMember_ident⟩
  | some word => exact ⟨_, _, rfl, Kind.beginsMember_of_direction? word⟩

theorem PropertyStatement.exists_cons {p : Property} {ts : List Token} (h : PropertyStatement p ts) :
    ∃ t more, ts = t :: more ∧ t.kind = .mark .atSign := by
  obtain ⟨property, _⟩ := h
  obtain ⟨atSign, _⟩ := property
  exact ⟨_, _, rfl, atSign⟩

/-- A header begins with the word for its section. -/
theorem HeaderWritten.exists_cons {opened : BodySection} {allow : Bool} {ts : List Token}
    (h : HeaderWritten opened allow ts) :
    ∃ t more, ts = t :: more ∧ BodySection.ofKind? t.kind = some opened := by
  obtain ⟨word, _⟩ := h
  exact ⟨_, _, rfl, word⟩

/-- The content of a submodule never begins with what would go on with the member before it. -/
theorem SubmoduleContent.Written.clear {sec : BodySection} {content : SubmoduleContent}
    {ts : List Token} (h : content.Written sec ts) {c : Token} (hc : c.kind = .mark .rbrace)
    (us : List Token) : Token.Clear statementBars (ts ++ c :: us) := by
  cases h with
  | nil => simp [hc, statementBars]
  | header header _ _ =>
    obtain ⟨t, more, rfl, hopened⟩ := header.exists_cons
    exact Token.clear_cons.mpr (BodySection.notBar_of_ofKind? hopened).2
  | param param _ =>
    obtain ⟨t, more, rfl, hbegins, _⟩ := param.exists_cons
    exact Token.clear_cons.mpr hbegins.notBar
  | property property _ =>
    obtain ⟨t, more, rfl, hat⟩ := property.exists_cons
    exact Token.clear_cons.mpr (hat ▸ Kind.beginsMember_atSign.notBar)
  | gate gate _ =>
    obtain ⟨t, more, rfl, hbegins⟩ := gate.exists_cons
    exact Token.clear_cons.mpr hbegins.notBar

theorem BodyWritten.exists_cons {α : Type} {empty a : α} {W : Rule α} {ts : List Token}
    (h : BodyWritten empty W a ts) :
    ∃ t more, ts = t :: more ∧ (t.kind = .mark .lbrace ∨ t.kind = .mark .semicolon) := by
  cases h with
  | absent ends => exact ⟨_, _, rfl, .inr ends⟩
  | given opening _ _ _ => exact ⟨_, _, rfl, .inl opening⟩

/-- A value is not empty, and no bracket is closed at its beginning. -/
theorem ValueWritten.exists_cons {v : String} {ts : List Token} (h : ValueWritten v ts) :
    ∃ t more, ts = t :: more ∧ t.kind.isClosing = false := by
  cases h with
  | literal kind _ _ => exact ⟨_, [], rfl, by simp [kind, Kind.isClosing]⟩
  | expression value _ =>
    obtain ⟨t, more, hts, hclosing, _⟩ := value.exists_cons
    exact ⟨t, more, hts, hclosing⟩

theorem IsWord.kind_ne_mark {t : Token} (h : IsWord t) (m : Mark) : t.kind ≠ .mark m := by
  intro hk
  have hmarks : ∀ m ∈ Mark.all, Parser.isWord m.spelling = false := by decide
  have hword := h.word
  rw [← String.ofList_toList (s := t.text), Token.toList_text_of_mark h.sound hk,
    String.ofList_toList, hmarks m m.mem_all] at hword
  exact absurd hword Bool.false_ne_true

namespace Parser

variable {ts us : List Token}

/-! ### Properties -/

/-- An expression in square brackets, behind the opening one. -/
theorem bracketed_takes {text : Option String} (h : Perhaps (ExprWritten indexStops) text ts)
    {c : Token} (hc : c.kind = .mark .rbracket) :
    Takes (ts ++ c :: us) us (· = text) bracketed :=
  .bind_eq (expression_takes_perhaps h (Token.ends_cons (.inl (by simp [hc, indexStops]))))
    (.andThen (expect_takes hc _) fun _ => .pure rfl)

/-- A string literal loses its quotes. -/
theorem unquote_literal {text inner : String} (h : text.toList = '"' :: (inner.toList ++ ['"'])) :
    unquote text = inner := by
  simp [unquote, h]

/-- A text without quotes at both of its ends stays as it is. -/
theorem unquote_eq_self {text : String}
    (h : ¬ (text.toList.head? = some '"' ∧ text.toList.getLast? = some '"')) : unquote text = text := by
  unfold unquote
  split
  · rename_i first more htext
    split
    · rename_i last inner hmore
      split
      · rename_i hquotes
        rw [Bool.and_eq_true, beq_iff_eq, beq_iff_eq] at hquotes
        refine absurd ⟨?_, ?_⟩ h
        · rw [htext, hquotes.1, List.head?_cons]
        · rw [htext, ← List.reverse_reverse more, hmore, List.reverse_cons, ← List.cons_append,
            List.getLast?_concat, hquotes.2]
      · rfl
    · rfl
  · rfl

/-- The text of a run of tokens keeps its quotes unless it begins and ends with a string literal. -/
theorem unquote_sourceText {t u : Token} {ts : List Token} (ht : t.Edged) (hu : u.Edged)
    (hlast : (t :: ts).getLast? = some u) (hedges : t.kind = .string → u.kind ≠ .string) :
    unquote (Token.sourceText (t :: ts)) = Token.sourceText (t :: ts) := by
  refine unquote_eq_self fun ⟨hhead, hend⟩ => ?_
  rw [Token.head?_sourceText ht.ne_nil] at hhead
  rw [Token.getLast?_sourceText hu.ne_nil hlast] at hend
  exact hedges ((ht.endOf _ (.inl hhead)).2 rfl) ((hu.endOf _ (.inr hend)).2 rfl)

/-- A value is read as it is written. -/
theorem propertyValue_takes {v : String} (h : ValueWritten v ts)
    (hus : Token.Ends [.mark .comma, .mark .semicolon] us) :
    Takes (ts ++ us) us (Option.Rel Eq · (some v)) propertyValue := by
  cases h with
  | @literal t _ kind sound quoted =>
    have hexpr : ExprWritten [.mark .comma, .mark .semicolon] t.text [t] :=
      { ne_nil := by simp
        sound := by simpa using sound
        text_eq := rfl
        paired := .token (by simp [kind, Kind.isOpening]) (by simp [kind, Kind.isClosing])
          (by simp [kind]) .nil }
    exact .bind_eq (expression_takes hexpr (List.Subset.refl _) hus)
      (.pure (.some (unquote_literal quoted)))
  | expression value edges =>
    refine .bind_eq (expression_takes value (List.Subset.refl _) hus) (.pure (.some ?_))
    obtain ⟨t, more, rfl, -⟩ := value.exists_cons
    have hlast := List.getLast?_eq_some_getLast (List.cons_ne_nil t more)
    rw [value.text_eq]
    exact unquote_sourceText (Token.edged_of_isSound (value.sound _ List.mem_cons_self))
      (Token.edged_of_isSound (value.sound _ (List.mem_of_getLast? hlast))) hlast (edges t rfl _ hlast)

/-- Values with commas between them are read as they are written. -/
theorem values_takes {vs : List String} (h : SepBy (.mark .comma) ValueWritten vs ts)
    (hus : Token.Ends [.mark .semicolon] us) (hcomma : Token.next? us ≠ some (.mark .comma)) :
    Takes (ts ++ us) us (· = vs) (sepBy (.mark .comma) propertyValue) := by
  refine (sepBy_takes (Token.Ends [.mark .comma, .mark .semicolon]) h propertyValue_takes
    (fun t us ht => Token.ends_cons (.inl (by simp [ht])))
    (fun k hk => (hus k hk).imp_left (List.mem_cons_of_mem _)) hcomma).imp fun found hfound => ?_
  exact List.forall₂_eq_eq_eq ▸ hfound

/-- An entry is read as it is written. -/
theorem propertyEntry_takes {e : PropertyEntry} (h : e.Written ts)
    (hus : Token.Ends [.mark .semicolon] us) (hcomma : Token.next? us ≠ some (.mark .comma))
    (heq : Token.next? us ≠ some (.mark .eq)) :
    Takes (ts ++ us) us (Option.Rel (PropertyEntry.Echo Eq) · (some e)) propertyEntry := by
  refine .bind_eq kind?_takes ?_
  cases h with
  | @keyed t u ts values word sign written =>
    rw [List.cons_append, List.cons_append, Token.next?_cons]
    split
    · rename_i hnone
      exact absurd hnone (by simp)
    · rename_i hclose
      exact absurd (Option.some.inj hclose) (word.kind_ne_mark _)
    · refine .bind_eq (a := some t.text) (.look fun s hs => ?_) ?_
      · rw [keyAhead, hs]
        exact if_pos ⟨sign, word.word⟩
      · exact .andThen skipOne_takes fun _ => .andThen skipOne_takes fun _ =>
          .bind_eq (.pure rfl) (.bind_eq (values_takes written hus hcomma)
            (.pure (.some (PropertyEntry.echo_eq ▸ rfl))))
  | @plain ts values written keyless =>
    obtain ⟨t, more, rfl, hclosing⟩ : ∃ t more, ts = t :: more ∧ t.kind.isClosing = false := by
      cases written with
      | last piece => exact piece.exists_cons
      | more first _ _ =>
        obtain ⟨t, more, rfl, hclosing⟩ := first.exists_cons
        exact ⟨t, _, List.cons_append, hclosing⟩
    rw [List.cons_append, Token.next?_cons]
    split
    · rename_i hnone
      exact absurd hnone (by simp)
    · rename_i hclose
      rw [Option.some.inj hclose] at hclosing
      exact absurd hclosing (by decide)
    · refine .bind_eq (a := none) (.look fun s hs => ?_) (.bind_eq (.pure rfl)
        (.bind_eq (values_takes written hus hcomma) (.pure (.some (PropertyEntry.echo_eq ▸ rfl)))))
      rw [keyAhead, hs]
      split
      · rename_i t' u rest htokens
        refine if_neg fun hkey => ?_
        cases more with
        | nil =>
          obtain ⟨rfl, hus'⟩ := List.cons.inj htokens
          exact heq (by rw [show us = _ from hus', Token.next?_cons, hkey.1])
        | cons v more =>
          obtain ⟨hfirst, htokens⟩ := List.cons.inj htokens
          obtain ⟨rfl, _⟩ := List.cons.inj htokens
          exact keyless ⟨t, v, more, rfl, hfirst ▸ hkey.2, hkey.1⟩
      · rfl

theorem entries_takes {es : List PropertyEntry}
    (h : SepBy (.mark .semicolon) PropertyEntry.Written es ts) {c : Token}
    (hc : c.kind = .mark .rparen) :
    Takes (ts ++ c :: us) (c :: us) (List.Forall₂ (PropertyEntry.Echo Eq) · es)
      (sepBy (.mark .semicolon) propertyEntry) :=
  sepBy_takes
    (fun us => Token.Ends [.mark .semicolon] us ∧ Token.Clear [.mark .comma, .mark .eq] us) h
    (fun he hus => propertyEntry_takes he hus.1 (hus.2.ne (by simp)) (hus.2.ne (by simp)))
    (fun t us ht => ⟨Token.ends_cons (.inl (by simp [ht])), by simp [ht]⟩)
    ⟨Token.ends_cons (.inr (by simp [hc, Kind.isClosing])), by simp [hc]⟩ (by simp [hc])

/-- A property is read as it is written. -/
theorem property_takes {p : Property} (h : p.Written ts)
    (hus : Token.Clear [.mark .lbracket, .mark .lparen] us) :
    Takes (ts ++ us) us (Echo Eq · (some p)) property := by
  obtain @⟨p, tAt, tName, tIndex, tEntries, hat, hword, hname, hindex, hentries⟩ := h
  generalize hpindex : p.index = index at hindex
  generalize hpentries : p.entries = entries at hentries
  simp only [List.cons_append, List.append_assoc]
  refine .andThen .any fun start => .andThen skipOne_takes fun _ => .andThen .newNode fun node =>
    .bind_eq (a := some tName.text) (.look fun s hs => ?_) (.andThen skipOne_takes fun _ => ?_)
  · simp [hs, hword.word]
  · have hbehind : Takes (tEntries ++ us) us (Echo Eq · (some p)) (do
        let entries ← do
          if ← eat (.mark .lparen) then
            let entries ← sepBy (.mark .semicolon) propertyEntry
            let _ ← expect (.mark .rparen) "')'"
            pure entries
          else pure []
        return some { node, name := tName.text, index, entries, span := ← spanFrom start }) := by
      have hend {found : List PropertyEntry}
          (h : List.Forall₂ (PropertyEntry.Echo Eq) found entries) :
          Takes us us (Echo Eq · (some p)) (do
            return some { node, name := tName.text, index, entries := found, span := ← spanFrom start }) :=
        .andThen .any fun _ => .pure (.some ⟨hname, option_rel_eq.mpr hpindex.symm, hpentries ▸ h⟩)
      cases hentries with
      | none => exact .bind_eq (eat_takes_none (hus.ne (by simp))) (.bind_eq (.pure rfl) (hend .nil))
      | some hentries =>
        obtain ⟨opening, written, closing⟩ := hentries
        simp only [List.cons_append, List.append_assoc, List.nil_append]
        exact .bind_eq (eat_takes opening) (.bind (entries_takes written closing) fun found hfound =>
          .andThen (expect_takes closing _) fun _ => .bind_eq (.pure rfl) (hend hfound))
    cases hindex with
    | none =>
      have hclear : Token.Clear [.mark .lbracket] (tEntries ++ us) :=
        (hentries.leads Between.leads).clear_append (hus.mono (by simp)) (by simp)
      exact .bind_eq (eat_takes_none (hclear.ne (by simp))) (.bind_eq (.pure rfl) hbehind)
    | some hindex =>
      obtain ⟨opening, written, closing⟩ := hindex
      simp only [List.cons_append, List.append_assoc, List.nil_append]
      exact .bind_eq (eat_takes opening) (.bind_eq (bracketed_takes (.some written) closing) hbehind)

/-- Properties in a row are read as they are written. -/
theorem properties_takes {ps : List Property} (h : Many Property.Written ps ts)
    (hus : Token.Clear [.mark .lbracket, .mark .lparen, .mark .atSign] us) :
    Takes (ts ++ us) us (Echo Eq · ps) properties := by
  induction h with
  | nil =>
    refine (manyWhile_takes_nil ?_).imp fun found (hfound : found = []) => by rw [hfound]; exact .nil
    have hat := hus.ne (k := .mark .atSign) (by simp)
    cases us with
    | nil => rfl
    | cons u us => simpa using hat
  | @cons p ps ts vs first rest ih =>
    have hclear : Token.Clear [.mark .lbracket, .mark .lparen] (vs ++ us) :=
      (Property.Written.leads_many rest).clear_append (hus.mono (by simp)) (by simp)
    have hread := property_takes first hclear
    rw [List.append_assoc]
    obtain ⟨atSign, _⟩ := first
    exact manyWhile_takes_cons (by simp [atSign]) (Token.length_lt_cons_append ..) hread ih

/-- A token that may be there is eaten if it is. -/
theorem eat_takes_flag {k : Kind} {b : Bool} (h : Flag k b ts) (hus : Token.next? us ≠ some k) :
    Takes (ts ++ us) us (· = b) (eat k) := by
  cases h with
  | no => exact eat_takes_none hus
  | yes word => exact eat_takes word

/-- A property statement is read as it is written. -/
theorem propertyStatement_takes {p : Property} (h : PropertyStatement p ts)
    (hus : Token.Clear statementBars us) :
    Takes (ts ++ us) us (Echo Eq · (some p)) propertyStatement := by
  obtain ⟨property, ends⟩ := h
  rw [List.append_assoc]
  refine .bind (property_takes property (ends.leads.clear_append (hus.mono (by simp [statementBars]))
    (by simp)))
    fun found hfound => ?_
  exact .andThen (eat_takes_flag ends (hus.ne (by simp [statementBars]))) fun _ => .pure hfound

/-! ### Parameters and gates -/

/-- The value of a parameter is read as it is written, if there is one. -/
theorem paramValue_takes {text : Option String}
    (h : Perhaps (After (.mark .eq) (ExprWritten [.mark .semicolon, .mark .atSign])) text ts)
    (hus : Token.Ends [.mark .semicolon, .mark .atSign] us) (heq : Token.next? us ≠ some (.mark .eq)) :
    Takes (ts ++ us) us (· = text) paramValue := by
  cases h with
  | none => exact .bind_eq (eat_takes_none heq) (.pure rfl)
  | some h =>
    obtain ⟨mark, value⟩ := h
    exact .bind_eq (eat_takes mark)
      (.bind_eq (expression_takes value (List.Subset.refl _) hus) (.pure rfl))

/-- A parameter is read from its name on as it is written. -/
theorem paramFromName_takes {p : Param} {tName tEnd : Token} {tBefore tValue tAfter : List Token}
    {first second : List Property} (ident : tName.kind = .ident) (name : tName.text = p.name)
    (before : Many Property.Written first tBefore)
    (value : Perhaps (After (.mark .eq) (ExprWritten [.mark .semicolon, .mark .atSign])) p.value tValue)
    (after : Many Property.Written second tAfter) (properties : p.properties = first ++ second)
    (ends : tEnd.kind = .mark .semicolon) (us : List Token) (start : Nat) :
    Takes (tName :: (tBefore ++ (tValue ++ (tAfter ++ tEnd :: us)))) us (Echo Eq · (some p))
      (paramFromName start p.volatile p.type) := by
  refine .andThen .newNode fun node => .bind_eq (expectIdent_takes ident _) ?_
  have hclear {ks : List Kind} (hks : .mark .semicolon ∉ ks) : Token.Clear ks (tEnd :: us) := by
    simpa [ends] using hks
  have hfinish {before after : List Property} (h : Echo Eq (before ++ after) p.properties) :
      Takes (tEnd :: us) us (Echo Eq · (some p)) (do
        let _ ← expect (.mark .semicolon) "';'"
        return some ({ node, name := tName.text, type := p.type, volatile := p.volatile,
                       value := p.value, properties := before ++ after,
                       span := ← spanFrom start } : Param)) :=
    .andThen (expect_takes ends _) fun _ => .andThen .any fun _ =>
      .pure (.some ⟨name, rfl, rfl, option_rel_eq.mpr rfl, h⟩)
  obtain ⟨hvalue, rfl⟩ | ⟨text, hvalue, hwritten⟩ := value.cases
  · -- Without a value between them all properties are read in one go.
    rw [List.nil_append, ← List.append_assoc]
    refine .bind (properties_takes (before.append after) (hclear (by simp))) fun found hfound => ?_
    refine .bind_eq (a := p.value) (hvalue ▸ paramValue_takes .none (Token.ends_cons (.inl (by simp [ends])))
      (by simp [ends])) ?_
    refine .bind_eq (manyWhile_takes_nil (by simp [ends])) (hfinish ?_)
    rw [List.append_nil, properties]
    exact hfound
  · have hbehind : Token.Ends [.mark .semicolon, .mark .atSign] (tAfter ++ tEnd :: us) := by
      cases after with
      | nil => exact Token.ends_cons (.inl (by simp [ends]))
      | cons first _ =>
        obtain ⟨atSign, _⟩ := first
        exact Token.ends_cons (.inl (by simp [atSign]))
    have hsign : Token.Clear [.mark .eq] (tAfter ++ tEnd :: us) :=
      (Property.Written.leads_many after).clear_append (hclear (by simp)) (by simp)
    refine .bind (properties_takes before ?_) fun found hfound => ?_
    · obtain ⟨mark, _⟩ := hwritten
      simp [mark]
    · refine .bind_eq (paramValue_takes value hbehind (hsign.ne (by simp))) ?_
      refine .bind (properties_takes after (hclear (by simp))) fun found' hfound' => hfinish ?_
      rw [properties]
      exact List.rel_append hfound hfound'

/-- What follows the name of a parameter. -/
theorem next?_behind_name {tEnd : Token} {tBefore tValue tAfter : List Token} {text : Option String}
    {first second : List Property} {stops : List Kind} (before : Many Property.Written first tBefore)
    (value : Perhaps (After (.mark .eq) (ExprWritten stops)) text tValue)
    (after : Many Property.Written second tAfter) (ends : tEnd.kind = .mark .semicolon)
    (us : List Token) :
    ∃ k ∈ [Kind.mark .eq, .mark .semicolon, .mark .atSign],
      Token.next? (tBefore ++ (tValue ++ (tAfter ++ tEnd :: us))) = some k := by
  cases before with
  | cons first _ =>
    obtain ⟨atSign, _⟩ := first
    exact ⟨_, by simp, congrArg some atSign⟩
  | nil =>
    cases value with
    | some value =>
      obtain ⟨mark, _⟩ := value
      exact ⟨_, by simp, congrArg some mark⟩
    | none =>
      cases after with
      | cons first _ =>
        obtain ⟨atSign, _⟩ := first
        exact ⟨_, by simp, congrArg some atSign⟩
      | nil => exact ⟨_, by simp, congrArg some ends⟩

/-- A parameter is read as it is written. -/
theorem param_takes {p : Param} (h : p.Written ts) : Takes (ts ++ us) us (Echo Eq · (some p)) param := by
  obtain @⟨p, tVolatile, tType, tBefore, tValue, tAfter, tName, tEnd, first, second, volatile, type,
    ident, name, before, value, after, properties, ends⟩ := h
  simp only [List.append_assoc, List.cons_append, List.nil_append]
  have hname (start : Nat) := paramFromName_takes ident name before value after properties
    ends us start
  have hclear : Token.Clear [.keyword .volatile]
      (tType ++ tName :: (tBefore ++ (tValue ++ (tAfter ++ tEnd :: us)))) :=
    type.leads.clear_append (by simp [ident]) (by simp [paramType?])
  refine .andThen .any fun start => .bind_eq (eat_takes_flag volatile (hclear.ne (by simp)))
    (.bind_eq kind?_takes ?_)
  obtain ⟨htype, rfl⟩ | ⟨t, type, htype, hword, rfl⟩ := type.cases
  · rw [htype] at hname
    rw [List.nil_append, Token.next?_cons, Option.bind_some, ident]
    refine .bind_eq (a := true) (.look fun s hs => ?_) ?_
    · obtain ⟨k, hk, hnext⟩ := next?_behind_name before value after ends us
      have hsecond : s.secondKind? = some k := by
        rw [← hnext, Cursor.secondKind?, hs, List.getElem?_cons_succ, ← List.head?_eq_getElem?]
        rfl
      rw [isPlainAssignment, Cursor.kind?_eq_next?, hs, Token.next?_cons, ident, hsecond]
      simp only [List.mem_cons, List.not_mem_nil, or_false] at hk
      obtain rfl | rfl | rfl := hk <;> rfl
    · dsimp only
      rw [Bool.or_true]
      exact hname start
  · rw [htype] at hname
    rw [List.cons_append, List.nil_append, Token.next?_cons, Option.bind_some, hword]
    exact .andThen skipOne_takes fun _ => hname start

/-- A gate is read as it is written. -/
theorem gate_takes {g : Gate} (h : g.Written ts) : Takes (ts ++ us) us (Echo Eq · (some g)) gate := by
  obtain @⟨g, tDirection, tVector, tProperties, tName, tEnd, direction, ident, name, vector, properties,
    ends⟩ := h
  simp only [List.append_assoc, List.cons_append, List.nil_append]
  have hclear : Token.Clear [.mark .lbracket, .mark .lparen, .mark .atSign] (tEnd :: us) := by
    simp [ends]
  have hfinish (start node : Nat) : Takes (tProperties ++ tEnd :: us) us (Echo Eq · (some g)) (do
      let properties ← Parser.properties
      let _ ← expect (.mark .semicolon) "';'"
      return some ({ node, name := tName.text, direction := g.direction, isVector := g.isVector,
                     size := g.size, properties, span := ← spanFrom start } : Gate)) :=
    .bind (properties_takes properties hclear) fun found hfound => .andThen (expect_takes ends _) fun _ =>
      .andThen .any fun _ => .pure (.some ⟨name, rfl, rfl, option_rel_eq.mpr rfl, hfound⟩)
  have hat : Token.Clear [.mark .atSign]
      (tDirection ++ tName :: (tVector ++ (tProperties ++ tEnd :: us))) :=
    direction.leads.clear_append (by simp [ident]) (by simp [direction?])
  have hway : (Token.next? (tDirection ++ tName :: (tVector ++ (tProperties ++ tEnd :: us)))).bind
      direction? = g.direction := by
    obtain ⟨hdirection, rfl⟩ | ⟨t, way, hdirection, hword, rfl⟩ := direction.cases
    · rw [hdirection, List.nil_append, Token.next?_cons, Option.bind_some, ident]
      rfl
    · rw [hdirection, List.cons_append, Token.next?_cons, Option.bind_some, hword]
  refine .bind_eq (at?_takes_false (hat.ne (by simp))) (.andThen .any fun start =>
    .bind_eq kind?_takes ?_)
  rw [hway]
  refine .when_bind (tName :: (tVector ++ (tProperties ++ tEnd :: us))) (fun hsome => ?_)
    (fun hnone => ?_) ?_
  · obtain ⟨hdirection, _⟩ | ⟨t, way, _, _, rfl⟩ := direction.cases
    · exact absurd hsome (by simp [hdirection])
    · exact skipOne_takes
  · obtain ⟨_, rfl⟩ | ⟨t, way, hdirection, _⟩ := direction.cases
    · rfl
    · exact absurd (by simp [hdirection]) hnone
  · refine .andThen .newNode fun node => .bind_eq (expectIdent_takes ident _) ?_
    have hfinish := hfinish start node
    obtain ⟨hvector, hsize, rfl⟩ | ⟨hvector, hwritten⟩ := vector.cases
    · rw [hvector, hsize] at hfinish
      have hnext : Token.Clear [.mark .lbracket] (tProperties ++ tEnd :: us) :=
        (Property.Written.leads_many properties).clear_append (hclear.mono (by simp)) (by simp)
      exact .bind_eq (eat_takes_none (hnext.ne (by simp))) (.bind_eq (.pure rfl) hfinish)
    · rw [hvector] at hfinish
      generalize g.size = size at hwritten hfinish
      obtain ⟨opening, size, closing⟩ := hwritten
      simp only [List.cons_append, List.append_assoc, List.nil_append]
      exact .bind_eq (eat_takes opening) (.bind_eq (bracketed_takes size closing) hfinish)

/-! ### Submodules -/

/-- The header of a section is read as it is written. -/
theorem sectionHeader_takes {opened : BodySection} {allow : Bool} (h : HeaderWritten opened allow ts)
    (us : List Token) :
    ∃ t more, ts = t :: more ∧ BodySection.ofKind? t.kind = some opened ∧
      Takes (more ++ us) us (· = allow) (sectionHeader opened) := by
  obtain @⟨tWord, tColon, tAllow, word, allowed, only, colon⟩ := h
  refine ⟨tWord, _, rfl, word, ?_⟩
  rw [List.append_assoc]
  unfold sectionHeader
  split
  · exact .bind_eq (eat_takes_flag allowed (by simp [colon]))
      (.andThen (expect_takes colon _) fun _ => .pure rfl)
  · rename_i hopened
    cases allowed with
    | no => exact .bind_eq (.pure rfl) (.andThen (expect_takes colon _) fun _ => .pure rfl)
    | yes word => exact absurd (only rfl) hopened

/-- The members of a submodule body, from a place in a section on. -/
def submoduleBodyAt (sec : BodySection) (sub : Submodule) : Parser Submodule :=
  ⟨submoduleBodyFrom sec sub, reaches_submoduleBodyFrom sec sub⟩

end Parser

namespace Submodule

/-- A submodule that says more. -/
def extended (s : Submodule) (c : SubmoduleContent) : Submodule :=
  { s with params := s.params ++ c.params, gates := s.gates ++ c.gates,
           properties := s.properties ++ c.properties }

theorem extended_empty (s : Submodule) : s.extended {} = s := by
  simp [extended]

end Submodule

namespace Parser

theorem submoduleBodyAt_close {c : Token} (hc : c.kind = .mark .rbrace) (sec : BodySection)
    (sub : Submodule) : Takes (c :: us) (c :: us) (· = sub) (submoduleBodyAt sec sub) := by
  intro s hs
  change (submoduleBodyFrom sec sub s).1 = sub ∧ (submoduleBodyFrom sec sub s).2.rest = c :: us ∧
    (submoduleBodyFrom sec sub s).2.errors = s.errors
  rw [submoduleBodyFrom_cons hs, if_pos hc]
  exact ⟨rfl, hs, rfl⟩

/-- A header opens its section, and the rest of the submodule is read in it. -/
theorem submoduleBodyAt_section {t : Token} {more final : List Token} {sec opened : BodySection}
    {sub : Submodule} {R : Submodule → Prop}
    (hopened : BodySection.ofKind? t.kind = some opened)
    (hsection : Takes (t :: more) us (fun _ => True) (submoduleSection opened))
    (hrest : Takes us final R (submoduleBodyAt opened sub)) :
    Takes (t :: more) final R (submoduleBodyAt sec sub) := by
  intro s hs
  obtain ⟨_, hafter, herrors⟩ := hsection s hs
  obtain ⟨hresult, hfinal, herrors'⟩ := hrest _ hafter
  have hrun : (submoduleBodyAt sec sub).run s =
      (submoduleBodyAt opened sub).run ((submoduleSection opened).run s).2 := by
    change submoduleBodyFrom sec sub s = _
    rw [submoduleBodyFrom_cons hs, if_neg (BodySection.notBar_of_ofKind? hopened).1, hopened]
    rfl
  rw [hrun]
  exact ⟨hresult, hfinal, herrors'.trans herrors⟩

/-- A member is read, and then the rest of the submodule. -/
theorem submoduleBodyAt_member {t : Token} {more final : List Token} {sec : BodySection}
    {sub : Submodule} {Q R : Submodule → Prop} (hbegins : t.kind.BeginsMember)
    (hmember : Takes (t :: more) us Q (submoduleMember sec sub)) (hlt : us.length < (t :: more).length)
    (hrest : ∀ sub', Q sub' → Takes us final R (submoduleBodyAt sec sub')) :
    Takes (t :: more) final R (submoduleBodyAt sec sub) := by
  intro s hs
  obtain ⟨hresult, hafter, herrors⟩ := hmember s hs
  obtain ⟨hresult', hfinal, herrors'⟩ := hrest _ hresult _ hafter
  have hrun : (submoduleBodyAt sec sub).run s =
      (submoduleBodyAt sec ((submoduleMember sec sub).run s).1).run
        ((submoduleMember sec sub).run s).2 := by
    change submoduleBodyFrom sec sub s = _
    rw [submoduleBodyFrom_cons hs, if_neg hbegins.ne_rbrace, hbegins.notSection]
    exact if_pos (by rw [hafter, hs]; exact hlt)
  rw [hrun]
  exact ⟨hresult', hfinal, herrors'.trans herrors⟩

/-- A member is read, and then what stands behind it. -/
theorem submoduleBodyAt_takes_member {t : Token} {more final : List Token} {sec : BodySection}
    {sub base base' : Submodule} {content content' : SubmoduleContent} (hbegins : t.kind.BeginsMember)
    (hmember : Takes (t :: more ++ us) us (Echo Eq · base') (submoduleMember sec sub))
    (hext : base'.extended content = base.extended content')
    (hrest : ∀ found, Echo Eq found base' →
      Takes us final (Echo Eq · (base'.extended content)) (submoduleBodyAt sec found)) :
    Takes (t :: more ++ us) final (Echo Eq · (base.extended content')) (submoduleBodyAt sec sub) :=
  hext ▸ submoduleBodyAt_member hbegins hmember (Token.length_lt_cons_append ..) hrest

section Members

variable {sub base : Submodule}

/-- A submodule has sections for parameters and gates. -/
theorem submoduleSection_takes {opened : BodySection} {allow : Bool} (h : HeaderWritten opened allow ts)
    (allowed : opened = .parameters ∨ opened = .gates) (us : List Token) :
    Takes (ts ++ us) us (fun _ => True) (submoduleSection opened) := by
  obtain ⟨t, more, rfl, -, hheader⟩ := sectionHeader_takes h us
  refine .andThen skipOne_takes fun _ => .andThen hheader fun _ => ?_
  rw [if_neg fun hboth => allowed.elim hboth.1 hboth.2]
  exact .pure trivial

theorem submoduleMember_takes_param {p : Param} (h : p.Written ts) (hsub : Echo Eq sub base)
    (us : List Token) : Takes (ts ++ us) us (Echo Eq · { base with params := base.params ++ [p] })
      (submoduleMember .parameters sub) := by
  have hread : Takes (ts ++ us) us (Echo Eq · (some p)) param := param_takes h
  obtain ⟨t, more, rfl, -, hat⟩ := h.exists_cons
  refine .bind_eq (at?_takes_false (by simpa using hat)) (.bind hread fun found hfound => .pure ?_)
  exact { hsub with params := List.rel_append hsub.params (option_rel_toList hfound) }

theorem submoduleMember_takes_property {p : Property} (h : PropertyStatement p ts)
    (hsub : Echo Eq sub base) (hus : Token.Clear statementBars us) :
    Takes (ts ++ us) us (Echo Eq · { base with properties := base.properties ++ [p] })
      (submoduleMember .parameters sub) := by
  have hread := propertyStatement_takes h hus
  obtain ⟨t, more, rfl, hat⟩ := h.exists_cons
  refine .bind_eq (at?_takes_true hat) (.bind hread fun found hfound => .pure ?_)
  exact { hsub with properties := List.rel_append hsub.properties (option_rel_toList hfound) }

theorem submoduleMember_takes_gate {g : Gate} (h : g.Written ts) (hsub : Echo Eq sub base)
    (us : List Token) : Takes (ts ++ us) us (Echo Eq · { base with gates := base.gates ++ [g] })
      (submoduleMember .gates sub) := by
  refine .bind (gate_takes h) fun found hfound => .pure ?_
  exact { hsub with gates := List.rel_append hsub.gates (option_rel_toList hfound) }

end Members

/-- The content of a submodule is read as it is written, from its section on. -/
theorem submoduleBodyAt_takes {sec : BodySection} {content : SubmoduleContent}
    (h : content.Written sec ts) {c : Token} (hc : c.kind = .mark .rbrace) (us : List Token) :
    ∀ sub base : Submodule, Echo Eq sub base →
      Takes (ts ++ c :: us) (c :: us) (Echo Eq · (base.extended content)) (submoduleBodyAt sec sub) := by
  induction h with
  | nil =>
    intro sub base hsub
    refine (submoduleBodyAt_close hc _ sub).imp fun found hfound => ?_
    rw [hfound, Submodule.extended_empty]
    exact hsub
  | @header sec opened content ts vs header allowed _ ih =>
    intro sub base hsub
    have hsection := submoduleSection_takes header allowed (vs ++ c :: us)
    obtain ⟨t, more, rfl, hopened⟩ := header.exists_cons
    rw [List.append_assoc]
    exact submoduleBodyAt_section hopened hsection (ih sub base hsub)
  | @param content p ts vs param _ ih =>
    intro sub base hsub
    have hmember := submoduleMember_takes_param param hsub (vs ++ c :: us)
    obtain ⟨t, more, rfl, hbegins, -⟩ := param.exists_cons
    rw [List.append_assoc]
    exact submoduleBodyAt_takes_member hbegins hmember (by simp [Submodule.extended])
      fun found hfound => ih found _ hfound
  | @property content p ts vs property rest ih =>
    intro sub base hsub
    have hmember := submoduleMember_takes_property property hsub (rest.clear hc us)
    obtain ⟨t, more, rfl, hat⟩ := property.exists_cons
    rw [List.append_assoc]
    exact submoduleBodyAt_takes_member (hat ▸ Kind.beginsMember_atSign) hmember
      (by simp [Submodule.extended]) fun found hfound => ih found _ hfound
  | @gate content g ts vs gate _ ih =>
    intro sub base hsub
    have hmember := submoduleMember_takes_gate gate hsub (vs ++ c :: us)
    obtain ⟨t, more, rfl, hbegins⟩ := gate.exists_cons
    rw [List.append_assoc]
    exact submoduleBodyAt_takes_member hbegins hmember (by simp [Submodule.extended])
      fun found hfound => ih found _ hfound

/-- `<expr> like`, behind the opening bracket. -/
theorem likeExpression_takes {stops : List Kind} {text : String} (h : LikeWritten stops text ts)
    (hstops : [.mark .gt, .mark .semicolon] ⊆ stops) (us : List Token) :
    ∃ t more, ts = t :: more ∧ t.kind = .mark .lt ∧
      Takes (more ++ us) us (· = text) likeExpression := by
  obtain @⟨l, r, w, text, ts, opening, expr, closing, like⟩ := h
  refine ⟨l, _, rfl, opening, ?_⟩
  have hends : Token.Ends [.mark .gt, .mark .semicolon] (r :: w :: us) :=
    Token.ends_cons (.inl (by simp [closing]))
  have hfinish (found : Option String) (hfound : found.getD "" = text) :
      Takes (r :: w :: us) us (· = text) (do
        let _ ← expect (.mark .gt) "'>'"
        let _ ← expect (.keyword .like) "'like'"
        return found.getD "") :=
    .andThen (expect_takes closing _) fun _ => .andThen (expect_takes like _) fun _ => .pure hfound
  rw [List.append_assoc]
  obtain ⟨rfl, rfl⟩ | hexpr := expr
  · exact .bind_eq (expression_takes_perhaps .none hends) (hfinish none rfl)
  · exact .bind_eq (expression_takes hexpr hstops hends) (hfinish (some text) rfl)

/-- The interface clause, if there is one. -/
theorem like_takes {α : Type} {stops : List Kind} {like : Option String} {final : List Token}
    {R : α → Prop} {f : Option String → Parser α} (h : Perhaps (LikeWritten stops) like ts)
    (hstops : [.mark .gt, .mark .semicolon] ⊆ stops) (hus : Token.next? us ≠ some (.mark .lt))
    (hf : Takes us final R (f like)) :
    Takes (ts ++ us) final R (do
      let like ← do
        if ← eat (.mark .lt) then some <$> likeExpression else pure none
      f like) := by
  cases h with
  | none => exact .bind_eq (eat_takes_none hus) (.bind_eq (.pure rfl) hf)
  | @some text _ piece =>
    obtain ⟨t, more, rfl, hopening, htakes⟩ := likeExpression_takes piece hstops us
    have hmap : Takes (more ++ us) us (· = some text) (some <$> likeExpression) :=
      htakes.bind fun found hfound => .pure (congrArg some hfound)
    exact .bind_eq (eat_takes hopening) (.bind_eq hmap hf)

/-- The rest of a submodule, behind its type. -/
theorem submoduleRest_takes {s : Submodule} {type : TypeRef} {content : SubmoduleContent}
    (htype : Echo Eq type s.type) (body : BodyWritten {} (SubmoduleContent.Written .parameters) content ts)
    (holds : (⟨s.params, s.gates, s.properties⟩ : SubmoduleContent) = content)
    (hus : Token.next? us ≠ some (.mark .semicolon)) (start : Nat) (node : NodeId) :
    Takes (ts ++ us) us (Echo Eq · (some s)) (do
      let sub : Submodule :=
        { node, name := s.name, vectorSize := s.vectorSize, type, like := s.like, params := [],
          gates := [], properties := [], span := {} }
      let sub ← do
        if ← eat (.mark .lbrace) then
          let sub ← submoduleBody sub
          let _ ← expect (.mark .rbrace) "'\x7d'"
          let _ ← eat (.mark .semicolon)
          pure sub
        else
          let _ ← expect (.mark .semicolon) "';'"
          pure sub
      return some { sub with span := ← spanFrom start }) := by
  have hfinish {sub : Submodule} (h : Echo Eq sub s) :
      Takes us us (Echo Eq · (some s)) (do return some { sub with span := ← spanFrom start }) :=
    .andThen .any fun _ => .pure (.some { h with })
  cases body with
  | absent ends =>
    obtain ⟨hparams, hgates, hproperties⟩ := SubmoduleContent.mk.inj holds
    refine .bind_eq (eat_takes_none (by simp [ends])) (.andThen (expect_takes ends _) fun _ =>
      .bind_eq (.pure rfl) (hfinish ⟨rfl, option_rel_eq.mpr rfl, htype, option_rel_eq.mpr rfl, ?_, ?_, ?_⟩))
    · rw [hparams]
      exact .nil
    · rw [hgates]
      exact .nil
    · rw [hproperties]
      exact .nil
  | @given _ o c ts tEnd ended opening written closing ends =>
    have hbase : ({ s with params := [], gates := [], properties := [] } : Submodule).extended content = s := by
      rw [← holds]
      rfl
    have hread := submoduleBodyAt_takes written closing (tEnd ++ us)
      { node, name := s.name, vectorSize := s.vectorSize, type, like := s.like, params := [],
        gates := [], properties := [], span := {} }
      { s with params := [], gates := [], properties := [] }
      ⟨rfl, option_rel_eq.mpr rfl, htype, option_rel_eq.mpr rfl, .nil, .nil, .nil⟩
    rw [hbase] at hread
    simp only [List.cons_append, List.append_assoc]
    exact .bind_eq (eat_takes opening) (.bind hread fun sub hsub =>
      .andThen (expect_takes closing _) fun _ => .andThen (eat_takes_flag ends hus) fun _ =>
        .bind_eq (.pure rfl) (hfinish hsub))

/-- A submodule is read from its type on as it is written. -/
theorem submoduleFromType_takes {s : Submodule} {tLike tType tCondition tBody : List Token}
    {given : Option String} {content : SubmoduleContent}
    (like : Perhaps (LikeWritten [.mark .gt, .mark .semicolon]) s.like tLike)
    (type : s.type.Written tType)
    (condition : Perhaps (After (.keyword .ifWord) (ExprWritten [.mark .lbrace, .mark .semicolon])) given
      tCondition)
    (body : BodyWritten {} (SubmoduleContent.Written .parameters) content tBody)
    (holds : (⟨s.params, s.gates, s.properties⟩ : SubmoduleContent) = content)
    (hus : Token.next? us ≠ some (.mark .semicolon)) (start : Nat) (node : NodeId) :
    Takes (tLike ++ (tType ++ (tCondition ++ (tBody ++ us)))) us (Echo Eq · (some s))
      (submoduleFromType start node s.name s.vectorSize) := by
  obtain ⟨t, more, rfl, hident⟩ := type.exists_cons
  obtain ⟨b, behind, hb, hbegins⟩ := body.exists_cons
  have hclear {ks : List Kind} (hks : .mark .lbrace ∉ ks ∧ .mark .semicolon ∉ ks) :
      Token.Clear ks (tBody ++ us) := by
    rw [hb, List.cons_append, Token.clear_cons]
    obtain hk | hk := hbegins <;> rw [hk]
    · exact hks.1
    · exact hks.2
  refine like_takes like (List.Subset.refl _) (by simp [hident]) ?_
  have hdot : Token.Clear [.mark .dot] (tCondition ++ (tBody ++ us)) :=
    (condition.leads After.leads).clear_append (hclear (by simp)) (by simp)
  have hif : Token.Clear [.keyword .ifWord] (tBody ++ us) := hclear (by simp)
  refine .bind (typeRef_takes type hdot _) fun found hfound => ?_
  obtain ⟨type', rfl, htype⟩ := exists_of_option_rel hfound
  have hbody := submoduleRest_takes htype body holds hus start node
  obtain ⟨_, rfl⟩ | ⟨text, _, hgiven⟩ := condition.cases
  · exact .bind_eq (eat_takes_none (hif.ne (by simp))) hbody
  · obtain ⟨mark, expr⟩ := hgiven
    have hends : Token.Ends [.mark .lbrace, .mark .semicolon] (tBody ++ us) := by
      rw [hb]
      exact Token.ends_cons (.inl (by simpa using hbegins))
    exact .bind_eq (eat_takes mark) (.andThen (expression_takes expr (List.Subset.refl _) hends)
      fun _ => hbody)

/-- A submodule is read as it is written. -/
theorem submodule_takes {s : Submodule} (h : s.Written ts)
    (hus : Token.next? us ≠ some (.mark .semicolon)) :
    Takes (ts ++ us) us (Echo Eq · (some s)) submodule := by
  obtain @⟨s, tName, tColon, tSize, tLike, tType, tCondition, tBody, given, content, ident, name, size,
    colon, like, type, condition, body, holds⟩ := h
  simp only [List.cons_append, List.append_assoc]
  refine .bind_eq (at?_takes_false (by simp [ident])) (.andThen .any fun start =>
    .andThen .newNode fun node => .bind_eq (expectIdent_takes ident _) ?_)
  have htype : Takes (tColon :: (tLike ++ (tType ++ (tCondition ++ (tBody ++ us))))) us
      (Echo Eq · (some s)) (do
        if ← expect (.mark .colon) "':'" then submoduleFromType start node tName.text s.vectorSize
        else
          skipStatement
          return none) := by
    rw [name]
    exact .bind_eq (expect_takes colon _) (submoduleFromType_takes like type condition body holds hus _ _)
  obtain ⟨hsize, rfl⟩ | ⟨text, hsize, hwritten⟩ := size.cases
  · rw [hsize] at htype
    exact .bind_eq (eat_takes_none (by simp [colon])) (.bind_eq (.pure rfl) htype)
  · rw [hsize] at htype
    obtain ⟨opening, expr, closing⟩ := hwritten
    simp only [List.cons_append, List.append_assoc, List.nil_append]
    exact .bind_eq (eat_takes opening) (.bind_eq (bracketed_takes (.some expr) closing)
      (.bind_eq (.pure rfl) htype))

end Parser

end NedWorkspace
