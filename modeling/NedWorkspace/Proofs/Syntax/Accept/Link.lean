/-
# Connections that are written are read

Whether a channel stands between two arrows is decided by looking ahead, past brackets, for the second
arrow. Where a channel is written this finds it, and where none is written it finds the end of the
connection first (`Stretch.arrowAhead_append`).
-/

import NedWorkspace.Proofs.Syntax.Accept.Member

namespace NedWorkspace

open Rule Stretch Echoing

/-- The kinds that end a connection, braces apart. -/
def connectionStops : List Kind :=
  [.mark .semicolon, .mark .comma, .keyword .ifWord]

/-- The kinds of the arrows. -/
def arrowKinds : List Kind :=
  [.mark .rightArrow, .mark .leftArrow, .mark .biArrow]

theorem Kind.mem_arrowKinds {k : Kind} (h : k.isArrow = true) : k ∈ arrowKinds := by
  unfold isArrow at h
  split at h <;> simp_all [arrowKinds]

namespace Stretch

variable {stops : List Kind} {ts us : List Token}

/-- No arrow is seen inside of brackets. -/
theorem arrowAhead_append_inside (h : Paired stops ts) (depth : Nat) :
    arrowAhead (depth + 1) (ts ++ us) = arrowAhead (depth + 1) us := by
  induction h generalizing depth us with
  | nil => rfl
  | token plain unclosing _ _ ih =>
    rw [List.cons_append, arrowAhead, if_neg (by simp), if_neg (by simp),
      depthAfter_plain plain unclosing, ih]
  | group shape _ _ _ ihinner ih =>
    rw [List.cons_append, List.append_assoc, List.cons_append, arrowAhead, if_neg (by simp),
      if_neg (by simp), depthAfter_opening (Kind.isOpening_of_closer? shape), ihinner, arrowAhead,
      if_neg (by simp), if_neg (by simp), depthAfter_closing (Kind.isClosing_of_closer? shape),
      Nat.add_sub_cancel, ih]

theorem endsConnection_eq_false {k : Kind} (hk : k ∉ connectionStops) (hclosing : k.isClosing = false) :
    endsConnection k = false := by
  unfold endsConnection
  split <;> simp_all [connectionStops, Kind.isClosing]

/-- Looking ahead goes through a run in which no connection ends, and stops early at most at an arrow. -/
theorem arrowAhead_append (h : Paired stops ts) (hstops : connectionStops ⊆ stops) :
    (arrowAhead 0 us = true → arrowAhead 0 (ts ++ us) = true) ∧
      (arrowKinds ⊆ stops → arrowAhead 0 (ts ++ us) = arrowAhead 0 us) := by
  induction h with
  | nil => exact ⟨id, fun _ => rfl⟩
  | @token stops t ts plain unclosing free _ ih =>
    have hends := endsConnection_eq_false (fun hk => free (hstops hk)) unclosing
    rw [List.cons_append, arrowAhead, hends, depthAfter_plain plain unclosing]
    refine ⟨fun hus => ?_, fun harrows => ?_⟩
    · split
      · rfl
      · simpa using (ih hstops).1 hus
    · have harrow : ¬ (0 = 0 ∧ t.kind.isArrow = true) := fun harrow =>
        free (harrows (Kind.mem_arrowKinds harrow.2))
      rw [if_neg harrow, if_neg (by simp)]
      exact (ih hstops).2 harrows
  | @group stops o c inner ts shape free inside _ _ ih =>
    have hopening := Kind.isOpening_of_closer? shape
    have hclosing := Kind.isClosing_of_closer? shape
    have hunclosing : o.kind.isClosing = false := by
      rw [Bool.eq_false_iff]
      intro hclosing
      simp [Kind.isOpening_of_isClosing hclosing] at hopening
    have hunarrow : o.kind.isArrow = false := by
      unfold Kind.isArrow
      split <;> simp_all [Kind.isOpening]
    have hends := endsConnection_eq_false (fun hk => free (hstops hk)) hunclosing
    have hskip : arrowAhead 0 (o :: (inner ++ c :: ts) ++ us) = arrowAhead 0 (ts ++ us) := by
      rw [List.cons_append, List.append_assoc, List.cons_append, arrowAhead, hunarrow, hends,
        if_neg (by simp), if_neg (by simp), depthAfter_opening hopening,
        arrowAhead_append_inside inside, arrowAhead, if_neg (by simp), if_neg (by simp),
        depthAfter_closing hclosing]
    rw [hskip]
    exact ih hstops

/-- A token that is no bracket and ends nothing is balanced by itself. -/
theorem Paired.single {t : Token} (plain : t.kind.isOpening = false)
    (unclosing : t.kind.isClosing = false) (free : t.kind ∉ stops) : Paired stops [t] :=
  .token plain unclosing free .nil

end Stretch

/-- A group is balanced. -/
theorem GroupWritten.paired {k : Kind} {stops : List Kind} {ts : List Token} (h : GroupWritten k ts)
    (free : k ∉ stops) : Paired stops ts := by
  obtain ⟨rfl, shape, inside⟩ := h
  exact .group shape free inside .nil

/-- A connection begins with a name. -/
theorem Connection.Written.exists_cons {c : Connection} {ts : List Token} (h : c.Written ts) :
    ∃ t more, ts = t :: more ∧ t.kind = .ident := by
  obtain ⟨leftEnd, _⟩ := h
  cases leftEnd with
  | own ident _ => exact ⟨_, _, rfl, ident⟩
  | inner module _ _ _ _ => exact ⟨_, _, rfl, module⟩

/-- A connection or a loop over connections begins as members do. -/
theorem LinkWritten.exists_cons {cs : List Connection} {ts : List Token} (h : LinkWritten cs ts) :
    ∃ t more, ts = t :: more ∧ t.kind.BeginsMember := by
  cases h with
  | connection written =>
    obtain ⟨t, more, hts, hident⟩ := written.exists_cons
    exact ⟨t, more, hts, hident ▸ Kind.beginsMember_ident⟩
  | loop word => exact ⟨_, _, rfl, word ▸ Kind.beginsMember_keyword rfl⟩

theorem IsName.paired {stops : List Kind} {ts : List Token} (h : IsName ts)
    (hident : .ident ∉ stops) (hdot : .mark .dot ∉ stops) : Paired stops ts := by
  induction h with
  | single ident => exact .single (by rw [ident]; rfl) (by rw [ident]; rfl) (ident ▸ hident)
  | more ident dot _ ih =>
    exact .token (by rw [ident]; rfl) (by rw [ident]; rfl) (ident ▸ hident)
      (.token (by rw [dot]; rfl) (by rw [dot]; rfl) (dot ▸ hdot) ih)

/-- No arrow stands inside of an index. -/
theorem IndexWritten.paired {i : GateIndex} {ts : List Token} (h : IndexWritten i ts) :
    Paired (connectionStops ++ arrowKinds) ts := by
  cases h with
  | absent => exact .nil
  | bracketed group => exact group.paired (by simp [connectionStops, arrowKinds])
  | next mark =>
    exact .single (by rw [mark]; rfl) (by rw [mark]; rfl) (by simp [mark, connectionStops, arrowKinds])

/-- No arrow stands inside of the name of a gate. -/
theorem GateRef.Written.paired {g : GateRef} {ts : List Token} (h : g.Written ts) :
    Paired (connectionStops ++ arrowKinds) ts := by
  have hplain {t : Token} {us : List Token} (ht : t.kind = .ident ∨ t.kind = .mark .dot)
      (hus : Paired (connectionStops ++ arrowKinds) us) :
      Paired (connectionStops ++ arrowKinds) (t :: us) := by
    obtain ht | ht := ht <;>
      exact .token (by rw [ht]; rfl) (by rw [ht]; rfl) (by simp [ht, connectionStops, arrowKinds]) hus
  cases h with
  | own ident gateIndex => exact hplain (.inl ident) gateIndex.paired
  | inner module group dot ident gateIndex =>
    refine hplain (.inl module) (Paired.append ?_ (hplain (.inr dot) (hplain (.inl ident) gateIndex.paired)))
    obtain ⟨_, rfl⟩ | ⟨_, group⟩ := group
    · exact .nil
    · exact group.paired (by simp [connectionStops, arrowKinds])

/-- An expression in angle brackets is balanced. -/
theorem LikeWritten.paired {text : String} {ts : List Token} (h : LikeWritten channelStops text ts) :
    Paired connectionStops ts := by
  obtain ⟨opening, expr, closing, like⟩ := h
  refine .token (by rw [opening]; rfl) (by rw [opening]; rfl) (by simp [opening, connectionStops])
    (Paired.append ?_ (.token (by rw [closing]; rfl) (by rw [closing]; rfl)
      (by simp [closing, connectionStops]) (.single (by rw [like]; rfl) (by rw [like]; rfl)
        (by simp [like, connectionStops]))))
  obtain ⟨_, rfl⟩ | expr := expr
  · exact .nil
  · exact expr.paired.mono (by simp [connectionStops, channelStops])

/-- The specification of a channel is balanced, so the arrow behind it is found. -/
theorem ChannelSpec.Written.paired {c : ChannelSpec} {ts : List Token} (h : c.Written ts) :
    Paired connectionStops ts := by
  obtain ⟨label, like, type, body, _⟩ := h
  refine Paired.append ?_ (Paired.append ?_ (Paired.append ?_ ?_))
  · obtain rfl | ⟨t, u, ht, hu, rfl⟩ := label
    · exact .nil
    · exact .token (by rw [ht]; rfl) (by rw [ht]; rfl) (by simp [ht, connectionStops])
        (.single (by rw [hu]; rfl) (by rw [hu]; rfl) (by simp [hu, connectionStops]))
  · obtain ⟨_, rfl⟩ | ⟨text, _, hlike⟩ := like.cases
    · exact .nil
    · exact hlike.paired
  · obtain ⟨_, rfl⟩ | ⟨r, _, htype⟩ := type.cases
    · exact .nil
    · exact htype.name.paired (by simp [connectionStops]) (by simp [connectionStops])
  · obtain rfl | body := body
    · exact .nil
    · exact body.paired (by simp [connectionStops])

namespace Parser

variable {ts us : List Token}

/-! ### Ends of connections -/

/-- The index of a gate is read as it is written. -/
theorem gateIndex_takes {i : GateIndex} (h : IndexWritten i ts)
    (hus : Token.Clear [.mark .lbracket, .mark .plusPlus] us) :
    Takes (ts ++ us) us (· = i) gateIndex := by
  cases h with
  | absent =>
    exact .bind_eq (at?_takes_false (hus.ne (by simp)))
      (.bind_eq (eat_takes_none (hus.ne (by simp))) (.pure rfl))
  | bracketed group =>
    exact .bind_eq (at?_takes_some (group.next?_append us))
      (.andThen (skipGroup_takes group) fun _ => .pure rfl)
  | next mark =>
    exact .bind_eq (at?_takes_false (by simp [mark])) (.bind_eq (eat_takes mark) (.pure rfl))

/-- The name of a gate is read as it is written. -/
theorem gateRef_takes {g : GateRef} (h : g.Written ts)
    (hus : Token.Clear [.mark .lbracket, .mark .plusPlus, .mark .dot] us) :
    Takes (ts ++ us) us (· = some g) gateRef := by
  cases h with
  | @own tGate index tIndex ident gateIndex =>
    refine .bind_eq (expectIdent_takes ident _) ?_
    cases gateIndex with
    | absent =>
      exact .bind_eq (at?_takes_false (hus.ne (by simp)))
        (.bind_eq (eat_takes_none (hus.ne (by simp)))
          (.bind_eq (gateIndex_takes .absent (hus.mono (by simp))) (.pure rfl)))
    | bracketed group =>
      exact .bind_eq (at?_takes_some (group.next?_append us))
        (.andThen (skipGroup_takes group) fun _ => .bind_eq (eat_takes_none (hus.ne (by simp)))
          (.bind_eq (.pure rfl) (.pure rfl)))
    | next mark =>
      exact .bind_eq (at?_takes_false (by simp [mark]))
        (.bind_eq (eat_takes_none (by simp [mark]))
          (.bind_eq (gateIndex_takes (.next mark) (hus.mono (by simp))) (.pure rfl)))
  | @inner tModule tDot tGate indexed index tGroup tIndex module group dot ident gateIndex =>
    simp only [List.cons_append, List.append_assoc]
    refine .bind_eq (expectIdent_takes module _) ?_
    have hat : Takes (tGroup ++ tDot :: tGate :: (tIndex ++ us)) (tGroup ++ tDot :: tGate :: (tIndex ++ us))
        (· = indexed) (at? (.mark .lbracket)) := by
      obtain ⟨rfl, rfl⟩ | ⟨rfl, group⟩ := group
      · exact at?_takes_false (by simp [dot])
      · exact at?_takes_some (group.next?_append _)
    refine .bind_eq hat (.when_bind (tDot :: tGate :: (tIndex ++ us)) (fun hindexed => ?_)
      (fun hplain => ?_) (.bind_eq (eat_takes dot) (.bind_eq (expectIdent_takes ident _)
        (.bind_eq (gateIndex_takes gateIndex (hus.mono (by simp))) (.pure rfl)))))
    · obtain ⟨rfl, _⟩ | ⟨_, group⟩ := group
      · exact nomatch hindexed
      · exact skipGroup_takes group
    · obtain ⟨_, rfl⟩ | ⟨rfl, _⟩ := group
      · rfl
      · exact absurd rfl hplain

theorem arrow_takes {t : Token} (h : t.kind.isArrow = true) :
    Takes (t :: ts) ts (· = some t.kind) arrow := by
  refine .bind_eq kind?_takes ?_
  rw [Token.next?_cons]
  dsimp only
  rw [if_pos h]
  exact .andThen skipOne_takes fun _ => .pure rfl

/-! ### Channels -/

/-- What can follow the type of a channel. -/
theorem clear_behind_type {tBody : List Token} (body : tBody = [] ∨ GroupWritten (.mark .lbrace) tBody)
    {k : Kind} (hus : Token.next? us = some k) (hk : k.isArrow = true) :
    Token.Clear [.ident, .mark .colon, .mark .dot, .mark .lt] (tBody ++ us) := by
  intro l hl heq
  obtain rfl | group := body
  · rw [List.nil_append, hus, Option.some_inj] at heq
    subst heq
    have harrow := Kind.mem_arrowKinds hk
    simp [arrowKinds] at harrow hl
    grind
  · rw [group.next?_append, Option.some_inj] at heq
    subst heq
    simp at hl

/-- Where no label is written none is found. -/
theorem isLabelled_eq_false {like : Option String} {type : Option TypeRef}
    {tLike tType behind : List Token} (hlike : Perhaps (LikeWritten channelStops) like tLike)
    (htype : Perhaps TypeRef.Written type tType) (hbehind : Token.Clear [.ident, .mark .colon] behind)
    {s : Cursor} (hs : s.rest = tLike ++ (tType ++ behind)) : isLabelled s = false := by
  have hsecond {t : Token} {more : List Token} (hrest : s.rest = t :: more) :
      s.secondKind? = Token.next? more := by
    rw [Cursor.secondKind?, hrest, List.getElem?_cons_succ, ← List.head?_eq_getElem?]
    rfl
  cases hlike with
  | some hlike =>
    obtain ⟨opening, _⟩ := hlike
    simp [isLabelled, Cursor.kind?, hs, opening]
  | none =>
    cases htype with
    | none =>
      have hident := hbehind.ne (k := .ident) (by simp)
      have hnext : s.kind? = Token.next? behind := by rw [Cursor.kind?_eq_next?, hs]; rfl
      simp [isLabelled, hnext, hident]
    | some htype =>
      have hcolon := hbehind.ne (k := .mark .colon) (by simp)
      cases htype.name with
      | single ident => simp [isLabelled, hsecond hs, hcolon]
      | more ident dot _ => simp [isLabelled, hsecond hs, dot]

/-- The specification of a channel is read as it is written, up to the arrow. -/
theorem channelSpec_takes {c : ChannelSpec} (h : c.Written ts) {k : Kind}
    (hus : Token.next? us = some k) (hk : k.isArrow = true) :
    Takes (ts ++ us) us (Echo Eq · c) channelSpec := by
  obtain @⟨c, tLabel, tLike, tType, tBody, label, like, type, body, interface⟩ := h
  simp only [List.append_assoc]
  have hclear := clear_behind_type body hus hk
  refine .andThen .any fun start => .andThen .newNode fun node => ?_
  have hspec : Takes (tLike ++ (tType ++ (tBody ++ us))) us (Echo Eq · c) (do
      let like ← do
        if ← eat (.mark .lt) then some <$> likeExpression else pure none
      let type ← do
        if ← at? .ident then typeRef "channel type" else pure none
      if ← at? (.mark .lbrace) then skipGroup
      if type.isNone ∧ like.isSome then complainExpected "channel interface name"
      return ({ node, type, like, span := ← spanFrom start } : ChannelSpec)) := by
    have hbody {found : Option TypeRef} (h : Echo Eq found c.type) :
        Takes (tBody ++ us) us (Echo Eq · c) (do
          if ← at? (.mark .lbrace) then skipGroup
          if found.isNone ∧ c.like.isSome then complainExpected "channel interface name"
          return ({ node, type := found, like := c.like, span := ← spanFrom start } : ChannelSpec)) := by
      have hfinish : Takes us us (Echo Eq · c) (do
          if found.isNone ∧ c.like.isSome then complainExpected "channel interface name"
          return ({ node, type := found, like := c.like, span := ← spanFrom start } : ChannelSpec)) := by
        have hnamed : ¬ (found.isNone = true ∧ c.like.isSome = true) := by
          rintro ⟨hnone, hlike⟩
          have hsome := interface hlike
          rw [← option_isSome_eq_of_rel h] at hsome
          simp [Option.isNone_iff_eq_none.mp hnone] at hsome
        rw [if_neg hnamed]
        exact .andThen .any fun _ => .pure ⟨h, option_rel_eq.mpr rfl⟩
      obtain rfl | group := body
      · refine .bind_eq (at?_takes_false ?_) hfinish
        rintro heq
        rw [List.nil_append, hus, Option.some_inj] at heq
        exact absurd hk (by simp [heq, Kind.isArrow])
      · exact .bind_eq (at?_takes_some (group.next?_append us))
          (.andThen (skipGroup_takes group) fun _ => hfinish)
    obtain ⟨htype, rfl⟩ | ⟨r, htype, hwritten⟩ := type.cases
    · refine like_takes like (by simp [channelStops]) (hclear.ne (by simp)) ?_
      refine .bind_eq (at?_takes_false (hclear.ne (by simp))) (.bind_eq (.pure rfl) (hbody ?_))
      rw [htype]
      exact .none
    · obtain ⟨t, more, rfl, hident⟩ := hwritten.exists_cons
      refine like_takes like (by simp [channelStops]) (by simp [hident]) ?_
      refine .bind_eq (at?_takes_true hident)
        (.bind (typeRef_takes hwritten (hclear.mono (by simp)) _) fun found hfound => hbody ?_)
      rw [htype]
      exact hfound
  obtain rfl | ⟨t, u, ht, hu, rfl⟩ := label
  · exact .bind_eq (a := false) (.look fun s hs => isLabelled_eq_false like type (hclear.mono (by simp)) hs) hspec
  · refine .bind_eq (a := true) (.look fun s hs => ?_)
      (.andThen skipOne_takes fun _ => .andThen skipOne_takes fun _ => hspec)
    simp [isLabelled, Cursor.kind?, Cursor.secondKind?, hs, ht, hu]

/-- A channel and the second arrow, or nothing where no arrow comes. -/
theorem channelBetween_takes {channel : Option ChannelSpec} (h : Perhaps ChannelBetween channel ts)
    (hus : arrowAhead 0 us = false) :
    Takes (ts ++ us) us (fun found => ∃ c, found = some c ∧ Echo Eq c channel) channelBetween := by
  cases h with
  | none =>
    exact .bind_eq (a := false) (.look fun s hs => by rw [hs]; exact hus) (.pure ⟨none, rfl, .none⟩)
  | some h =>
    obtain @⟨c, ts, tArrow, channel, arrow⟩ := h
    have hahead : arrowAhead 0 (ts ++ tArrow :: us) = true :=
      (arrowAhead_append channel.paired (List.Subset.refl _)).1 (by simp [arrowAhead, arrow])
    rw [List.append_assoc]
    exact .bind_eq (a := true) (.look fun s hs => by rw [hs]; exact hahead)
      (.bind (channelSpec_takes channel rfl arrow) fun found hfound =>
        .bind_eq (arrow_takes arrow) (.pure ⟨some found, rfl, .some hfound⟩))

/-! ### Connections and loops -/

/-- A condition and what ends a connection are passed over. -/
theorem connectionEnd_takes {tCondition : List Token} {tEnd : Token} {given : Option String}
    (condition : Perhaps (After (.keyword .ifWord) (ExprWritten [.mark .semicolon, .mark .comma])) given
      tCondition)
    (ends : tEnd.kind = .mark .semicolon ∨ tEnd.kind = .mark .comma) :
    Takes (tCondition ++ tEnd :: us) us (fun _ => True) connectionEnd := by
  have hend : Takes (tEnd :: us) us (fun _ => True) (do
      if ← eat (.mark .comma) then
        return ()
      else
        let _ ← expect (.mark .semicolon) "';'") := by
    obtain hsemicolon | hcomma := ends
    · exact .bind_eq (eat_takes_none (by simp [hsemicolon]))
        (.andThen (expect_takes hsemicolon _) fun _ => .pure trivial)
    · exact .bind_eq (eat_takes hcomma) (.pure trivial)
  cases condition with
  | none => exact .bind_eq (eat_takes_none (by rcases ends with h | h <;> simp [h])) hend
  | some condition =>
    obtain ⟨mark, expr⟩ := condition
    exact .bind_eq (eat_takes mark) (.andThen (expression_takes expr (List.Subset.refl _)
      (Token.ends_cons (.inl (by simpa using ends)))) fun _ => hend)

/-- An arrow that points to the left swaps the ends of a connection, and each other arrow leaves them. -/
theorem orient_eq (node : NodeId) (left : GateRef) (k : Kind) (right : GateRef)
    (channel : Option ChannelSpec) (span : Span) :
    let c := orient node left k right channel span
    (c.src, c.dest, c.arrow) = Connection.oriented k left right ∧ c.channel = channel := by
  dsimp only
  rw [orient, Connection.oriented]
  split
  · exact ⟨rfl, rfl⟩
  · split
    · exact ⟨rfl, rfl⟩
    · exact ⟨rfl, rfl⟩

/-- A connection is read as it is written. -/
theorem connection_takes {c : Connection} (h : c.Written ts) :
    Takes (ts ++ us) us (Echo Eq · (some c)) connection := by
  obtain @⟨c, left, right, tLeft, tChannel, tRight, tCondition, tArrow, tEnd, given, leftEnd, arrow,
    channel, rightEnd, condition, ends, joins⟩ := h
  simp only [List.cons_append, List.append_assoc, List.nil_append]
  have hend : Token.Clear [.mark .lbracket, .mark .plusPlus, .mark .dot] (tCondition ++ tEnd :: us) :=
    (condition.leads After.leads).clear_append (by rcases ends with h | h <;> simp [h]) (by simp)
  have hahead : arrowAhead 0 (tRight ++ (tCondition ++ tEnd :: us)) = false := by
    rw [(arrowAhead_append rightEnd.paired (by simp)).2 (by simp)]
    cases condition with
    | none => rcases ends with h | h <;> simp [arrowAhead, h, Kind.isArrow, endsConnection]
    | some condition =>
      obtain ⟨mark, _⟩ := condition
      simp [arrowAhead, mark, Kind.isArrow, endsConnection]
  refine .andThen .any fun start => .andThen .newNode fun node =>
    .bind_eq (gateRef_takes leftEnd ?_) (.bind_eq (arrow_takes arrow)
      (.bind (channelBetween_takes channel hahead) fun found hfound => ?_))
  · have hkind := Kind.mem_arrowKinds arrow
    refine Token.clear_cons.mpr fun hbarred => ?_
    simp only [arrowKinds, List.mem_cons, List.not_mem_nil, or_false] at hkind hbarred
    grind
  · obtain ⟨found, rfl, hfound⟩ := hfound
    refine .bind_eq (gateRef_takes rightEnd hend) (.andThen (connectionEnd_takes condition ends) fun _ =>
      .andThen .any fun span => .pure (.some ?_))
    obtain ⟨hjoins, hchannel⟩ := orient_eq node left tArrow.kind right found span
    obtain ⟨hsrc, hjoins⟩ := Prod.mk.inj (hjoins.trans joins.symm)
    obtain ⟨hdest, harrow⟩ := Prod.mk.inj hjoins
    refine ⟨hsrc, hdest, harrow, ?_⟩
    rw [hchannel]
    exact hfound

/-- The items of a loop. -/
def links : Parser (List Connection) :=
  ⟨linksFrom, reaches_linksFrom⟩

theorem link_takes_connection {c : Connection} (h : c.Written ts) :
    Takes (ts ++ us) us (Echo Eq · [c]) link := by
  have hread : Takes (ts ++ us) us (Echo Eq · (some c)) connection := connection_takes h
  obtain ⟨t, more, rfl, hident⟩ := h.exists_cons
  have hplain : Takes (t :: more ++ us) us (Echo Eq · [c]) plainLink := by
    refine .bind_eq kind?_takes ?_
    rw [List.cons_append, Token.next?_cons, hident]
    exact .bind hread fun found hfound => .pure (option_rel_toList hfound)
  intro s hs
  have hrun : link.run s = plainLink.run s := by
    change linkFrom s = _
    rw [linkFrom, if_neg (by simp [Cursor.kind?_eq_next?, hs, hident])]
  rw [hrun]
  exact hplain s hs

/-- A loop stands for the connections in it. -/
theorem link_takes_loop {tFor o c : Token} {cs : List Connection} {header : String}
    {tHeader tEnd : List Token} {ended : Bool} (word : tFor.kind = .keyword .forWord)
    (head : ExprWritten [.mark .lbrace, .mark .semicolon] header tHeader)
    (opening : o.kind = .mark .lbrace)
    (hlinks : Takes (ts ++ c :: (tEnd ++ us)) (c :: (tEnd ++ us)) (Echo Eq · cs) links)
    (closing : c.kind = .mark .rbrace) (ends : Flag (.mark .semicolon) ended tEnd)
    (hus : Token.next? us ≠ some (.mark .semicolon)) :
    Takes (tFor :: (tHeader ++ o :: (ts ++ c :: (tEnd ++ us)))) us (Echo Eq · cs) link := by
  have hhead : Takes (tFor :: (tHeader ++ o :: (ts ++ c :: (tEnd ++ us))))
      (o :: (ts ++ c :: (tEnd ++ us))) (fun _ => True) loopHead :=
    .andThen skipOne_takes fun _ => .andThen (expression_takes head (List.Subset.refl _)
      (Token.ends_cons (.inl (by simp [opening])))) fun _ => .pure trivial
  have hend : Takes (c :: (tEnd ++ us)) us (fun _ => True) loopEnd :=
    .andThen (expect_takes closing _) fun _ => .andThen (eat_takes_flag ends hus) fun _ => .pure trivial
  intro s hs
  obtain ⟨_, hopen, herrors⟩ := hhead s hs
  obtain ⟨hresult, hclose, herrors'⟩ := hlinks (loopHead.run s).2.next
    (by rw [Cursor.rest_next, hopen, List.tail_cons])
  obtain ⟨_, hrest, herrors''⟩ := hend _ hclose
  have hrun : link.run s = ((links.run (loopHead.run s).2.next).1,
      (loopEnd.run (links.run (loopHead.run s).2.next).2).2) := by
    change linkFrom s = _
    rw [linkFrom, if_pos (by rw [Cursor.kind?_eq_next?, hs, Token.next?_cons, word])]
    dsimp only
    rw [if_pos (by rw [Cursor.kind?_eq_next?, hopen, Token.next?_cons, opening])]
    rfl
  rw [hrun]
  refine ⟨hresult, hrest, ?_⟩
  rw [herrors'', herrors', Cursor.errors_next, herrors]

theorem links_takes_close {c : Token} (hc : c.kind = .mark .rbrace) :
    Takes (c :: us) (c :: us) (· = []) links := by
  intro s hs
  have hrun : links.run s = ([], s) := by
    change linksFrom s = _
    rw [linksFrom, if_pos (.inr (by rw [Cursor.kind?_eq_next?, hs, Token.next?_cons, hc]))]
  rw [hrun]
  exact ⟨rfl, hs, rfl⟩

/-- A connection or a loop is read, and then the rest of them. -/
theorem links_takes_cons {t : Token} {more final : List Token} {P Q : List Connection → Prop}
    (ht : t.kind ≠ .mark .rbrace) (hlink : Takes (t :: more) us P link)
    (hlt : us.length < (t :: more).length) (hrest : Takes us final Q links) :
    Takes (t :: more) final (fun cs => ∃ ds es, P ds ∧ Q es ∧ cs = ds ++ es) links := by
  intro s hs
  obtain ⟨hfirst, hafter, herrors⟩ := hlink s hs
  obtain ⟨hmore, hfinal, herrors'⟩ := hrest _ hafter
  have hrun : links.run s = ((link.run s).1 ++ (links.run (link.run s).2).1,
      (links.run (link.run s).2).2) := by
    change linksFrom s = _
    have hkind : s.kind? = some t.kind := by rw [Cursor.kind?_eq_next?, hs, Token.next?_cons]
    rw [linksFrom, if_neg (by simp [hkind, ht])]
    exact if_pos (by
      change (link.run s).2.rest.length < s.rest.length
      rw [hafter, hs]
      exact hlt)
  rw [hrun]
  exact ⟨⟨_, _, hfirst, hmore, rfl⟩, hfinal, herrors'.trans herrors⟩

mutual

/-- Connections and loops are read as they are written. -/
theorem link_takes {cs : List Connection} {ts us : List Token} (h : LinkWritten cs ts)
    (hus : Token.next? us ≠ some (.mark .semicolon)) : Takes (ts ++ us) us (Echo Eq · cs) link := by
  cases h with
  | connection written => exact link_takes_connection written
  | loop word head opening links closing ends =>
    simp only [List.cons_append, List.append_assoc]
    exact link_takes_loop word head opening (links_takes links closing) closing ends hus
termination_by (ts.length, 0)
decreasing_by exact Prod.Lex.left _ _ (by simp only [List.length_cons, List.length_append]; omega)

/-- What stands between braces is read as it is written, up to the closing one. -/
theorem links_takes {cs : List Connection} {ts us : List Token} (h : LinksWritten cs ts) {c : Token}
    (hc : c.kind = .mark .rbrace) : Takes (ts ++ c :: us) (c :: us) (Echo Eq · cs) links := by
  cases h with
  | nil => exact (links_takes_close hc).imp fun found (hfound : found = []) => by rw [hfound]; exact .nil
  | @cons cs ds ts vs first rest =>
    have hclear : Token.next? (vs ++ c :: us) ≠ some (.mark .semicolon) := by
      cases rest with
      | nil => simp [hc]
      | cons second _ =>
        obtain ⟨t, more, rfl, hbegins⟩ := second.exists_cons
        intro hsemicolon
        exact hbegins.notBar (by rw [Option.some.inj hsemicolon]; simp [statementBars])
    have hlt : vs.length < (ts ++ vs).length := by
      obtain ⟨t, more, rfl, _⟩ := first.exists_cons
      exact Token.length_lt_cons_append t more vs
    have hread := link_takes first hclear
    have hmore : Takes (vs ++ c :: us) (c :: us) (Echo Eq · ds) links := links_takes rest hc
    obtain ⟨t, more, rfl, hbegins⟩ := first.exists_cons
    rw [List.append_assoc]
    refine (links_takes_cons hbegins.ne_rbrace hread (Token.length_lt_cons_append ..) hmore).imp
      fun found hfound => ?_
    obtain ⟨cs', ds', hcs, hds, rfl⟩ := hfound
    exact List.rel_append hcs hds
termination_by (ts.length, 1)
decreasing_by
  · rw [List.length_append]
    rcases Nat.eq_zero_or_pos vs.length with hzero | hpos
    · rw [hzero]
      exact Prod.Lex.right _ Nat.zero_lt_one
    · exact Prod.Lex.left _ _ (by omega)
  · exact Prod.Lex.left _ _ hlt

end

end Parser

end NedWorkspace
