/-
# Every member takes a token

The loops over the members of a body go on as long as tokens are taken. A member that begins with anything but
a closing brace takes one (`Parser.MovesAt`), whether it can be read or not.
-/

import NedWorkspace.Proofs.Syntax.Takes

namespace NedWorkspace

open Stretch

namespace Parser

variable {α β : Type}

/-- A step from a cursor whose next token has a kind takes a token. -/
def MovesAt (k : Kind) (p : Parser α) : Prop :=
  ∀ s : Cursor, s.kind? = some k → (p.run s).2.rest.length < s.rest.length

namespace MovesAt

variable {k : Kind}

/-- Whatever follows, a token is skipped. -/
theorem skipOne_bind {f : Unit → Parser α} : MovesAt k (skipOne >>= f) :=
  fun _ hs => length_run_skipOne_bind_lt f (Cursor.rest_ne_nil_of_kind? hs)

/-- A parser that moves does so whatever follows it. -/
theorem bind {p : Parser β} {f : β → Parser α} (h : MovesAt k p) : MovesAt k (p >>= f) :=
  fun s hs => Nat.lt_of_le_of_lt ((f _).reaches _).length_le (h s hs)

/-- To look does not move, so what follows must. -/
theorem look_bind {g : Cursor → β} {f : β → Parser α} (h : ∀ a, MovesAt k (f a)) :
    MovesAt k (look g >>= f) :=
  fun s hs => h (g s) s hs

theorem newNode_bind {f : NodeId → Parser α} (h : ∀ n, MovesAt k (f n)) :
    MovesAt k (newNode >>= f) :=
  fun s hs => h s.nextNode { s with nextNode := s.nextNode + 1 } hs

theorem complainExpected_bind {what : String} {f : Unit → Parser α} (h : MovesAt k (f ())) :
    MovesAt k (complainExpected what >>= f) :=
  fun s hs => h (s.complainExpected what) hs

/-- What follows moves, given the kind of the token ahead. -/
theorem kind?_bind {f : Option Kind → Parser α} (h : MovesAt k (f (some k))) :
    MovesAt k (kind? >>= f) := by
  intro s hs
  change ((f s.kind?).run s).2.rest.length < _
  rw [hs]
  exact h s hs

/-- What follows moves, given whether the token ahead is the one asked for. -/
theorem at?_bind {k' : Kind} {f : Bool → Parser α} (h : MovesAt k (f (k == k'))) :
    MovesAt k (at? k' >>= f) := by
  intro s hs
  change ((f (s.kind? == some k')).run s).2.rest.length < _
  rw [hs]
  exact h s hs

/-- Either the token is eaten, or what follows moves. -/
theorem eat_bind {k' : Kind} {f : Bool → Parser α} (h : MovesAt k (f false)) :
    MovesAt k (eat k' >>= f) := by
  have hmoves : MovesAt k (at? k' >>= fun found => (do
      if found then
        skipOne
        return true
      else return false) >>= f) := by
    refine .at?_bind ?_
    cases k == k' with
    | true => exact skipOne_bind (f := fun _ => f true)
    | false => exact h
  exact hmoves

/-- Either a name is read, or what follows moves. -/
theorem expectIdent_bind {what : String} {f : Option String → Parser α} (h : MovesAt k (f none)) :
    MovesAt k (expectIdent what >>= f) := by
  intro s hs
  obtain ⟨t, ts, hrest, rfl⟩ := Cursor.exists_of_kind? hs
  by_cases hident : t.kind = .ident
  · have hrun : (expectIdent what).run s = (some t.text, s.next) := by
      simp [expectIdent, look, hrest, hident, skipOne]
    rw [run_bind, hrun]
    exact Nat.lt_of_le_of_lt ((f _).reaches _).length_le
      (Cursor.length_next_lt (Cursor.rest_ne_nil_of_kind? hs))
  · have hrun : (expectIdent what).run s = (none, s.complainExpected what) := by
      simp [expectIdent, look, hrest, hident, complainExpected]
    rw [run_bind, hrun]
    exact h (s.complainExpected what) hs

end MovesAt

variable {k : Kind}

/-- To skip a statement is to move, but for a closing brace. -/
theorem skipStatement_moves (hk : k ≠ .mark .rbrace) : MovesAt k skipStatement := by
  intro s hs
  obtain ⟨t, ts, hrest, rfl⟩ := Cursor.exists_of_kind? hs
  change (s.skip (statement 0 s.rest)).rest.length < _
  have hpos : 0 < statement 0 s.rest := by
    rw [hrest, statement]
    split
    · exact Nat.one_pos
    · rw [if_neg fun h => hk h.2]
      omega
  rw [Cursor.rest_skip, List.length_drop, hrest, List.length_cons] at *
  omega

theorem propertyStatement_moves : MovesAt k propertyStatement :=
  .bind (.look_bind fun _ => .skipOne_bind)

theorem strayProperty_moves : MovesAt k strayProperty :=
  .bind .skipOne_bind

theorem paramFromName_moves (hk : k ≠ .mark .rbrace) (start : Nat) (volatile : Bool)
    (type : Option ParamType) : MovesAt k (paramFromName start volatile type) :=
  .newNode_bind fun _ => .expectIdent_bind (.bind (skipStatement_moves hk))

/-- A parameter moves on, read or given up, but for a closing brace. -/
theorem param_moves (hk : k ≠ .mark .rbrace) : MovesAt k param := by
  refine .look_bind fun start => .eat_bind (.kind?_bind ?_)
  split
  · exact .skipOne_bind
  · refine .look_bind fun plain => ?_
    split
    · exact paramFromName_moves hk _ _ _
    · split
      · exact .complainExpected_bind (.bind (skipStatement_moves hk))
      · exact .bind (skipStatement_moves hk)

/-- A gate moves on, read or given up, but for a closing brace. -/
theorem gate_moves (hk : k ≠ .mark .rbrace) : MovesAt k gate := by
  refine .at?_bind ?_
  split
  · exact .bind strayProperty_moves
  · refine .look_bind fun start => .kind?_bind ?_
    dsimp only
    split
    · exact .skipOne_bind
    · exact .newNode_bind fun _ => .expectIdent_bind (.bind (skipStatement_moves hk))

/-- A submodule moves on, read or given up, but for a closing brace. -/
theorem submodule_moves (hk : k ≠ .mark .rbrace) : MovesAt k submodule := by
  refine .at?_bind ?_
  split
  · exact .bind strayProperty_moves
  · exact .look_bind fun start => .newNode_bind fun _ =>
      .expectIdent_bind (.bind (skipStatement_moves hk))

/-- A member of a submodule moves on, but for a closing brace. -/
theorem submoduleMember_moves (hk : k ≠ .mark .rbrace) (sec : BodySection) (sub : Submodule) :
    MovesAt k (submoduleMember sec sub) := by
  cases sec with
  | gates => exact .bind (gate_moves hk)
  | parameters =>
    refine .at?_bind ?_
    split
    · exact .bind propertyStatement_moves
    · exact .bind (param_moves hk)
  | types => exact .bind (skipStatement_moves hk)
  | submodules => exact .bind (skipStatement_moves hk)
  | connections => exact .bind (skipStatement_moves hk)

/-- A connection begins with a name. -/
theorem connection_moves : MovesAt .ident connection := by
  refine .look_bind fun start => .newNode_bind fun node => .bind fun s hs => ?_
  obtain ⟨t, ts, hrest, hident⟩ := Cursor.exists_of_kind? hs
  have hrun : (expectIdent "gate or submodule name").run s = (some t.text, s.next) := by
    simp [expectIdent, look, hrest, hident, skipOne]
  rw [gateRef, run_bind, hrun]
  exact Nat.lt_of_le_of_lt (Parser.reaches _ _).length_le
    (Cursor.length_next_lt (Cursor.rest_ne_nil_of_kind? hs))

/-- A connection moves on, read or given up, but for a closing brace. -/
theorem plainLink_moves (hk : k ≠ .mark .rbrace) : MovesAt k plainLink := by
  refine .kind?_bind ?_
  split
  · exact .bind strayProperty_moves
  · rename_i heq
    obtain rfl := Option.some.inj heq
    exact .bind connection_moves
  · exact .complainExpected_bind (.bind (skipStatement_moves hk))

/-- A connection or a loop moves on, but for a closing brace. -/
theorem linkFrom_moves (hk : k ≠ .mark .rbrace) {s : Cursor} (hs : s.kind? = some k) :
    (linkFrom s).2.rest.length < s.rest.length := by
  rw [linkFrom]
  split
  · have hhead : (loopHead.run s).2.rest.length < s.rest.length :=
      MovesAt.skipOne_bind (k := k) s hs
    dsimp only
    split
    · exact Nat.lt_of_le_of_lt (((Cursor.reaches_next _).trans ((reaches_linksFrom _).trans
        (loopEnd.reaches _))).length_le) hhead
    · exact Nat.lt_of_le_of_lt (loopUnopened.reaches _).length_le hhead
  · exact plainLink_moves hk s hs

/-- A member of a type moves on, but for a closing brace. -/
theorem plainMember_moves (hk : k ≠ .mark .rbrace) (sec : BodySection) (t : TypeDecl) :
    MovesAt k (plainMember sec t) := by
  cases sec with
  | parameters =>
    refine .at?_bind ?_
    split
    · exact .bind propertyStatement_moves
    · exact .bind (param_moves hk)
  | gates => exact .bind (gate_moves hk)
  | types =>
    refine .at?_bind ?_
    split
    · exact .bind propertyStatement_moves
    · exact .complainExpected_bind (.bind (skipStatement_moves hk))
  | submodules => exact .bind (submodule_moves hk)
  | connections =>
    have hlink : MovesAt k link := fun s hs => linkFrom_moves hk hs
    exact .bind hlink

theorem typeHead_moves : MovesAt k typeHead :=
  .look_bind fun _ => .skipOne_bind

/-- A type moves on, whatever the token it begins with. -/
theorem typeDeclFrom_moves {s : Cursor} (hs : s.kind? = some k) :
    (typeDeclFrom s).2.rest.length < s.rest.length := by
  have hhead := typeHead_moves s hs
  rw [typeDeclFrom]
  dsimp only
  split
  · exact hhead
  · split
    · exact Nat.lt_of_le_of_lt (((Cursor.reaches_next _).trans ((reaches_typeBodyFrom _ _ _).trans
        (bodyEnd.reaches _))).length_le) hhead
    · exact Nat.lt_of_le_of_lt (bodiless.reaches _).length_le hhead

end Parser

end NedWorkspace
