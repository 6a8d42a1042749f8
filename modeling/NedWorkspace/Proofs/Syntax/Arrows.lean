/-
# What an arrow says

SPEC_FULL, section 1: `a.g[i] --> [Chan | {..}] --> b.h++`.

A connection has one arrow, or two with a channel between them. The first says which end sends and whether
both do: another arrow in its place gives another connection, unless it only turns a connection from one end
to the same end around. The second arrow says nothing, and any arrow can stand there
(`Parser.arrow_replaced`, `Parser.second_arrow_ignored`).
-/

import NedWorkspace.Proofs.Syntax.Accept.Link

namespace NedWorkspace

open Rule Stretch Echoing Stamped Mergeable

/-- A channel as it stands in a connection, with the arrow behind it. -/
structure ChannelText where
  spec : ChannelSpec
  tokens : List Token
  arrow : Token
  written : spec.Written tokens
  isArrow : arrow.kind.isArrow = true

namespace ChannelText

/-- Two arrows with a channel between them. -/
theorem between (m : ChannelText) : ChannelBetween m.spec (m.tokens ++ [m.arrow]) :=
  .mk m.written m.isArrow

/-- The channel with another arrow behind it. -/
def withArrow (m : ChannelText) (t : Token) (ht : t.kind.isArrow = true) : ChannelText :=
  { m with arrow := t, isArrow := ht }

end ChannelText

/-- A connection statement as it stands in a text. -/
structure ConnectionText where
  left : GateRef
  right : GateRef
  channel : Option ChannelText
  given : Option String
  leftTokens : List Token
  rightTokens : List Token
  conditionTokens : List Token
  arrow : Token
  stop : Token
  leftEnd : left.Written leftTokens
  rightEnd : right.Written rightTokens
  condition : Perhaps (After (.keyword .ifWord) (ExprWritten [.mark .semicolon, .mark .comma])) given
    conditionTokens
  isArrow : arrow.kind.isArrow = true
  ends : stop.kind = .mark .semicolon ∨ stop.kind = .mark .comma

namespace ConnectionText

variable (c : ConnectionText)

/-- The tokens of the channel and of the arrow behind it. -/
def channelTokens : List Token :=
  match c.channel with
  | none => []
  | some m => m.tokens ++ [m.arrow]

def tokens : List Token :=
  c.leftTokens ++ c.arrow :: (c.channelTokens ++ (c.rightTokens ++ (c.conditionTokens ++ [c.stop])))

/-- The connection that is written. -/
def connection : Connection :=
  let ends := Connection.oriented c.arrow.kind c.left c.right
  { node := 0, src := ends.1, dest := ends.2.1, arrow := ends.2.2,
    channel := c.channel.map ChannelText.spec, span := default }

/-- The tokens of a connection with two arrows are a writing of it. -/
theorem written : c.connection.Written c.tokens := by
  refine .mk c.leftEnd c.isArrow ?_ c.rightEnd c.condition c.ends rfl
  unfold connection channelTokens
  cases c.channel with
  | none => exact .none
  | some m => exact .some m.between

/-- The statement with another first arrow. -/
def withFirst (t : Token) (ht : t.kind.isArrow = true) : ConnectionText :=
  { c with arrow := t, isArrow := ht }

/-- The statement with another arrow behind the channel. -/
def withSecond (t : Token) (ht : t.kind.isArrow = true) : ConnectionText :=
  { c with channel := c.channel.map (·.withArrow t ht) }

end ConnectionText

/-- The first arrow makes a difference, unless both go one way between two ends that are one. -/
theorem Connection.oriented_eq_iff {k l : Kind} (hk : k.isArrow = true) (hl : l.isArrow = true)
    (left right : GateRef) : oriented k left right = oriented l left right ↔
      k = l ∨ left = right ∧ k ≠ .mark .biArrow ∧ l ≠ .mark .biArrow := by
  have hkinds := Kind.mem_arrowKinds hk
  have hkinds' := Kind.mem_arrowKinds hl
  simp only [arrowKinds, List.mem_cons, List.not_mem_nil, or_false] at hkinds hkinds'
  rcases hkinds with rfl | rfl | rfl <;> rcases hkinds' with rfl | rfl | rfl
  all_goals simp [oriented]
  · exact fun h => h.symm
  · exact fun h => h.symm

/-- A merge of two lists of which one node is replaced tells whether it is another. -/
theorem mergeList_between {α : Type} [Stamped α] [Mergeable α] [LawfulMergeable α] (cs ds : List α)
    (a b : α) (n : NodeId) :
    (mergeList (cs ++ a :: ds) (cs ++ b :: ds) n).1.2 = false ↔ restamp .bare a = restamp .bare b := by
  rw [(mergeList_exact (cs ++ a :: ds) (cs ++ b :: ds) n).changed]
  change (cs ++ a :: ds).map (restamp .bare) = (cs ++ b :: ds).map (restamp .bare) ↔ _
  rw [List.map_append, List.map_append, List.append_cancel_left_eq, List.map_cons, List.map_cons,
    List.cons_eq_cons, and_iff_left rfl]

namespace ConnectionText

variable {c d : ConnectionText} {old new : Connection}

/-- Statements with the same ends and the same channel are the same connection exactly if their first arrows
make the same of the ends. -/
theorem bare_eq_iff (hleft : c.left = d.left) (hright : c.right = d.right)
    (hspec : c.channel.map ChannelText.spec = d.channel.map ChannelText.spec)
    (hold : Echo Eq old c.connection) (hnew : Echo Eq new d.connection) :
    restamp .bare old = restamp .bare new ↔ c.arrow.kind = d.arrow.kind ∨
      c.left = c.right ∧ c.arrow.kind ≠ .mark .biArrow ∧ d.arrow.kind ≠ .mark .biArrow := by
  rw [(echo_eq _ _).mp hold, (echo_eq _ _).mp hnew, ← echo_eq,
    ← Connection.oriented_eq_iff c.isArrow d.isArrow]
  unfold connection
  rw [← hleft, ← hright, hspec]
  constructor
  · intro h
    exact Prod.ext h.src (Prod.ext h.dest h.arrow)
  · intro h
    rw [h]
    exact (echo_eq _ _).mpr rfl

end ConnectionText

namespace Parser

/-- A connection statement is read as the connection that is written. -/
theorem connection_of_tokens (c : ConnectionText) {s : Cursor} {after : List Token}
    (hs : s.rest = c.tokens ++ after) :
    ∃ found, (connection.run s).1 = some found ∧ Echo Eq found c.connection ∧
      (connection.run s).2.rest = after ∧ (connection.run s).2.errors = s.errors := by
  obtain ⟨hfound, hrest, herrors⟩ := connection_takes c.written s hs
  generalize (connection.run s).1 = result at hfound
  cases hfound with
  | some hfound => exact ⟨_, rfl, hfound, hrest, herrors⟩

/-- **The first arrow of a connection counts and the second does not.** A connection statement is read
without an error, and so it is with any other arrow in the place of one of its own. With another first arrow
it is another connection, whatever connections stand around it, unless `-->` and `<--` stand for each other
between two ends that are one. With another second arrow it is always the same connection. -/
theorem arrow_replaced (c : ConnectionText) {t : Token} (ht : t.kind.isArrow = true) {s : Cursor}
    {after : List Token} (hs : s.rest = c.tokens ++ after) :
    ∃ old, (connection.run s).1 = some old ∧ (connection.run s).2.rest = after ∧
      (connection.run s).2.errors = s.errors ∧
      (∀ (s' : Cursor) (after' : List Token), s'.rest = (c.withFirst t ht).tokens ++ after' →
        ∃ new, (connection.run s').1 = some new ∧ (connection.run s').2.rest = after' ∧
          (connection.run s').2.errors = s'.errors ∧
          (new.src, new.dest, new.arrow) = Connection.oriented t.kind c.left c.right ∧
          ∀ (cs ds : List Connection) (n : NodeId),
            (mergeList (cs ++ old :: ds) (cs ++ new :: ds) n).1.2 = false ↔
              c.arrow.kind = t.kind ∨
                c.left = c.right ∧ c.arrow.kind ≠ .mark .biArrow ∧ t.kind ≠ .mark .biArrow) ∧
      ∀ (s' : Cursor) (after' : List Token), s'.rest = (c.withSecond t ht).tokens ++ after' →
        ∃ new, (connection.run s').1 = some new ∧ (connection.run s').2.rest = after' ∧
          (connection.run s').2.errors = s'.errors ∧
          ∀ (cs ds : List Connection) (n : NodeId),
            (mergeList (cs ++ old :: ds) (cs ++ new :: ds) n).1.2 = false := by
  obtain ⟨old, hold, hecho, hrest, herrors⟩ := connection_of_tokens c hs
  refine ⟨old, hold, hrest, herrors, ?_, ?_⟩
  · intro s' after' hs'
    obtain ⟨new, hnew, hecho', hrest', herrors'⟩ := connection_of_tokens (c.withFirst t ht) hs'
    refine ⟨new, hnew, hrest', herrors', ?_, ?_⟩
    · exact Prod.ext hecho'.src (Prod.ext hecho'.dest hecho'.arrow)
    · intro cs ds n
      rw [mergeList_between, ConnectionText.bare_eq_iff (c := c) (d := c.withFirst t ht) rfl rfl rfl hecho hecho']
      rfl
  · intro s' after' hs'
    obtain ⟨new, hnew, hecho', hrest', herrors'⟩ := connection_of_tokens (c.withSecond t ht) hs'
    refine ⟨new, hnew, hrest', herrors', ?_⟩
    intro cs ds n
    have hspec : c.channel.map ChannelText.spec = (c.withSecond t ht).channel.map ChannelText.spec := by
      cases hchannel : c.channel with
      | none => simp [ConnectionText.withSecond, hchannel]
      | some m => simp [ConnectionText.withSecond, hchannel, ChannelText.withArrow]
    rw [mergeList_between, ConnectionText.bare_eq_iff (c := c) (d := c.withSecond t ht) rfl rfl hspec hecho
      hecho']
    exact .inl rfl

/-- A connection over a channel, with each of its arrows replaced. -/
theorem arrow_replaced_channel :
    ∃ old turned again, (connection.run (Cursor.ofText "a --> C --> b;")).1 = some old ∧
      (connection.run (Cursor.ofText "a <-- C --> b;")).1 = some turned ∧
      (connection.run (Cursor.ofText "a --> C <-- b;")).1 = some again ∧
      (mergeList [old] [turned] 1).1.2 = true ∧ (mergeList [old] [again] 1).1.2 = false := by
  let r : TypeRef := { node := 0, name := "C", span := default }
  have hname : r.Written [⟨.ident, "C", 6, 7, " "⟩] :=
    { ne_nil := List.cons_ne_nil _ _
      sound := by decide +kernel
      text_eq := rfl
      name := .single rfl }
  have hspec : ChannelSpec.Written { node := 0, type := some r, like := none, span := default }
      ([] ++ ([] ++ ([⟨.ident, "C", 6, 7, " "⟩] ++ []))) :=
    .mk (.inl rfl) .none (.some hname) (.inl rfl) (fun _ => rfl)
  let m : ChannelText :=
    { spec := { node := 0, type := some r, like := none, span := default }
      tokens := [⟨.ident, "C", 6, 7, " "⟩]
      arrow := ⟨.mark .rightArrow, "-->", 8, 11, " "⟩
      written := hspec
      isArrow := rfl }
  let c : ConnectionText :=
    { left := ⟨none, false, "a", .absent⟩
      right := ⟨none, false, "b", .absent⟩
      channel := some m
      given := none
      leftTokens := [⟨.ident, "a", 0, 1, ""⟩]
      rightTokens := [⟨.ident, "b", 12, 13, " "⟩]
      conditionTokens := []
      arrow := ⟨.mark .rightArrow, "-->", 2, 5, " "⟩
      stop := ⟨.mark .semicolon, ";", 13, 14, ""⟩
      leftEnd := @GateRef.Written.own ⟨.ident, "a", 0, 1, ""⟩ _ _ rfl .absent
      rightEnd := @GateRef.Written.own ⟨.ident, "b", 12, 13, " "⟩ _ _ rfl .absent
      condition := .none
      isArrow := rfl
      ends := .inl rfl }
  have hleft : Kind.isArrow (⟨.mark .leftArrow, "<--", 2, 5, " "⟩ : Token).kind = true := rfl
  have hright : Kind.isArrow (⟨.mark .leftArrow, "<--", 8, 11, " "⟩ : Token).kind = true := rfl
  let all (k l : Mark) : List Token :=
    [⟨.ident, "a", 0, 1, ""⟩, ⟨.mark k, k.spelling, 2, 5, " "⟩, ⟨.ident, "C", 6, 7, " "⟩,
      ⟨.mark l, l.spelling, 8, 11, " "⟩, ⟨.ident, "b", 12, 13, " "⟩, ⟨.mark .semicolon, ";", 13, 14, ""⟩]
  have htokens : tokenize "a --> C --> b;" = all .rightArrow .rightArrow := by decide +kernel
  have hold : (Cursor.ofText "a --> C --> b;").rest = c.tokens ++ [] := htokens
  have hturned : tokenize "a <-- C --> b;" = all .leftArrow .rightArrow := by decide +kernel
  have hagain : tokenize "a --> C <-- b;" = all .rightArrow .leftArrow := by decide +kernel
  obtain ⟨old, hrun, -, -, hfirst, -⟩ := arrow_replaced c hleft hold
  obtain ⟨old', hrun', -, -, -, hsecond⟩ := arrow_replaced c hright hold
  obtain rfl := Option.some.inj (hrun.symm.trans hrun')
  obtain ⟨turned, hturned, -, -, -, hchanged⟩ := hfirst (Cursor.ofText _) [] hturned
  obtain ⟨again, hagain, -, -, hsame⟩ := hsecond (Cursor.ofText _) [] hagain
  have hdiffer : ¬ (Kind.mark .rightArrow = .mark .leftArrow ∨
      (⟨none, false, "a", .absent⟩ : GateRef) = ⟨none, false, "b", .absent⟩ ∧
        Kind.mark .rightArrow ≠ .mark .biArrow ∧ Kind.mark .leftArrow ≠ .mark .biArrow) := by decide
  refine ⟨old, turned, again, hrun, hturned, hagain, ?_, hsame [] [] 1⟩
  rw [← Bool.not_eq_false]
  exact mt (hchanged [] [] 1).mp hdiffer

/-- **Another second arrow goes unnoticed:** two texts that differ in it give one connection between two
ends, at the same places and with the same numbers, and neither has an error. -/
theorem second_arrow_ignored :
    let old := connection.run (Cursor.ofText "a --> C --> b;")
    let new := connection.run (Cursor.ofText "a --> C <-- b;")
    old.1 = new.1 ∧ (old.2.errors = [] ∧ new.2.errors = []) ∧
      old.1.map (fun c => (c.src.gate, c.dest.gate, c.channel.isSome)) = some ("a", "b", true) := by
  exact ⟨by decide +kernel, by decide +kernel, by decide +kernel⟩

end Parser

end NedWorkspace
