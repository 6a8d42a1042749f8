/-
# Tokens that a parser takes

`Parser.Takes before after Q p` says all there is to say about a step that goes well: with `before`
ahead, `p` takes tokens until `after` is ahead, notes no error, and gives a result of which `Q` holds.
It goes through a parser step by step (`Takes.bind`), and a step that looks at the next token is decided
by the kind of that token, `Token.next?`.
-/

import Mathlib.Data.List.Forall2
import NedWorkspace.Syntax.Declaration

namespace NedWorkspace

/-- The kind of the first token. -/
def Token.next? (ts : List Token) : Option Kind :=
  ts.head?.map Token.kind

@[simp] theorem Token.next?_nil : Token.next? [] = none := rfl

@[simp] theorem Token.next?_cons (t : Token) (ts : List Token) :
    Token.next? (t :: ts) = some t.kind := rfl

namespace Cursor

theorem rest_next (s : Cursor) : s.next.rest = s.rest.tail := by
  unfold next
  split
  · rename_i h
    rw [h, List.tail_nil]
  · rename_i h
    rw [h, List.tail_cons]

theorem rest_skip (s : Cursor) (n : Nat) : (s.skip n).rest = s.rest.drop n := by
  induction n generalizing s with
  | zero => rfl
  | succ n ih => rw [skip, ih, rest_next, ← List.drop_one, List.drop_drop, Nat.add_comm]

theorem errors_next (s : Cursor) : s.next.errors = s.errors := by
  unfold next
  split
  · rfl
  · rfl

/-- To skip is not to complain. -/
theorem errors_skip (s : Cursor) (n : Nat) : (s.skip n).errors = s.errors := by
  induction n generalizing s with
  | zero => rfl
  | succ n ih => rw [skip, ih, errors_next]

/-- A cursor looks at the first of the tokens ahead. -/
theorem kind?_eq_next? (s : Cursor) : s.kind? = Token.next? s.rest := rfl

/-- A cursor that sees a kind has a token of it ahead. -/
theorem exists_of_kind? {s : Cursor} {k : Kind} (h : s.kind? = some k) :
    ∃ (t : Token) (ts : List Token), s.rest = t :: ts ∧ t.kind = k := by
  cases hs : s.rest with
  | nil => simp [kind?, hs] at h
  | cons t ts => exact ⟨t, ts, rfl, by simpa [kind?, hs] using h⟩

end Cursor

/-- A key is a word before a sign of equality. -/
theorem Parser.exists_of_keyAhead {s : Cursor} {key : String} (h : keyAhead s = some key) :
    ∃ (t u : Token) (ts : List Token), s.rest = t :: u :: ts ∧ isWord t.text = true ∧
      u.kind = .mark .eq := by
  unfold keyAhead at h
  split at h
  · rename_i t u ts hrest
    split at h
    · rename_i hkey
      exact ⟨t, u, ts, hrest, hkey.2, hkey.1⟩
    · exact absurd h (by simp)
  · exact absurd h (by simp)

namespace Parser

variable {α β : Type}

/-- With `before` ahead, the parser takes tokens until `after` is ahead, notes no error, and its result
satisfies `Q`. -/
def Takes (before after : List Token) (Q : α → Prop) (p : Parser α) : Prop :=
  ∀ s : Cursor, s.rest = before →
    Q (p.run s).1 ∧ (p.run s).2.rest = after ∧ (p.run s).2.errors = s.errors

namespace Takes

variable {before middle after : List Token} {Q : α → Prop} {R : β → Prop}

/-- A result at hand takes no token. -/
theorem pure {a : α} (h : Q a) : Takes before before Q (Pure.pure a : Parser α) :=
  fun _ hs => ⟨h, hs, rfl⟩

/-- Parsers in a row take the tokens one after the other. -/
theorem bind {p : Parser α} {f : α → Parser β} (hp : Takes before middle Q p)
    (hf : ∀ a, Q a → Takes middle after R (f a)) : Takes before after R (p >>= f) := by
  intro s hs
  obtain ⟨hresult, hrest, herrors⟩ := hp s hs
  obtain ⟨hresult', hrest', herrors'⟩ := hf _ hresult _ hrest
  exact ⟨hresult', hrest', herrors'.trans herrors⟩

/-- A step whose result is known. -/
theorem bind_eq {p : Parser α} {f : α → Parser β} {a : α} (hp : Takes before middle (· = a) p)
    (hf : Takes middle after R (f a)) : Takes before after R (p >>= f) :=
  hp.bind fun _ h => h ▸ hf

/-- A step whose result does not matter. -/
theorem andThen {p : Parser α} {f : α → Parser β} (hp : Takes before middle Q p)
    (hf : ∀ a, Takes middle after R (f a)) : Takes before after R (p >>= f) :=
  hp.bind fun a _ => hf a

/-- What is known of a result may be said in weaker words. -/
theorem imp {p : Parser α} {Q' : α → Prop} (hp : Takes before after Q p) (h : ∀ a, Q a → Q' a) :
    Takes before after Q' p := by
  intro s hs
  obtain ⟨hresult, hrest⟩ := hp s hs
  exact ⟨h _ hresult, hrest⟩

/-- To look takes no token. -/
theorem look {g : Cursor → α} (h : ∀ s : Cursor, s.rest = before → Q (g s)) :
    Takes before before Q (Parser.look g) :=
  fun s hs => ⟨h s hs, hs, rfl⟩

/-- A step that may be left out, and then `middle` is ahead already. -/
theorem when_bind (middle : List Token) {c : Prop} [Decidable c] {p : Parser α} {q : Parser β}
    (hmade : c → Takes before middle (fun _ => True) p) (hleft : ¬ c → before = middle)
    (hq : Takes middle after R q) : Takes before after R (if c then p >>= fun _ => q else q) := by
  split
  · rename_i hc
    exact (hmade hc).andThen fun _ => hq
  · rename_i hc
    rwa [hleft hc]

/-- Something that is read off the cursor and may be anything. -/
theorem any {g : Cursor → α} : Takes before before (fun _ => True) (Parser.look g) :=
  .look fun _ _ => trivial

theorem newNode : Takes before before (fun _ => True) Parser.newNode :=
  fun _ hs => ⟨trivial, hs, rfl⟩

end Takes

variable {ts us : List Token} {t : Token} {k : Kind}

/-! ### Single steps -/

theorem kind?_takes : Takes ts ts (· = Token.next? ts) kind? :=
  .look fun s hs => by rw [Cursor.kind?_eq_next?, hs]

theorem at?_takes (k : Kind) : Takes ts ts (· = (Token.next? ts == some k)) (at? k) :=
  .look fun s hs => by rw [Cursor.kind?_eq_next?, hs]

theorem at?_takes_some (h : Token.next? ts = some k) : Takes ts ts (· = true) (at? k) := by
  have htaken : Takes ts ts (· = (Token.next? ts == some k)) (at? k) := at?_takes k
  rwa [h, beq_self_eq_true] at htaken

theorem at?_takes_true (h : t.kind = k) : Takes (t :: ts) (t :: ts) (· = true) (at? k) :=
  at?_takes_some (congrArg some h)

theorem at?_takes_false (h : Token.next? ts ≠ some k) : Takes ts ts (· = false) (at? k) := by
  have htaken : Takes ts ts (· = (Token.next? ts == some k)) (at? k) := at?_takes k
  rwa [beq_eq_false_iff_ne.mpr h] at htaken

theorem skipOne_takes : Takes (t :: ts) ts (fun _ => True) skipOne := by
  intro s hs
  refine ⟨trivial, ?_, s.errors_next⟩
  rw [show (skipOne.run s).2 = s.next from rfl, Cursor.rest_next, hs, List.tail_cons]

/-- As many tokens are taken as were counted. -/
theorem takeCounted_takes {count : List Token → Nat} (h : count (ts ++ us) = ts.length) :
    Takes (ts ++ us) us (· = ts) (takeCounted count) := by
  intro s hs
  refine ⟨?_, ?_, s.errors_skip _⟩
  · change s.rest.take (count s.rest) = ts
    rw [hs, h, List.take_left']
    rfl
  · change (s.skip (count s.rest)).rest = us
    rw [Cursor.rest_skip, hs, h, List.drop_left']
    rfl

/-- The token that is asked for is taken. -/
theorem eat_takes (h : t.kind = k) : Takes (t :: ts) ts (· = true) (eat k) :=
  .bind_eq (at?_takes_true h) (.andThen skipOne_takes fun _ => .pure rfl)

/-- Any other token is left. -/
theorem eat_takes_none (h : Token.next? ts ≠ some k) : Takes ts ts (· = false) (eat k) :=
  .bind_eq (at?_takes_false h) (.pure rfl)

/-- A token that is there is no reason to complain. -/
theorem expect_takes (h : t.kind = k) (what : String) :
    Takes (t :: ts) ts (· = true) (expect k what) :=
  .bind_eq (eat_takes h) (.pure rfl)

/-- A name is read as its text. -/
theorem expectIdent_takes (h : t.kind = .ident) (what : String) :
    Takes (t :: ts) ts (· = some t.text) (expectIdent what) := by
  refine .bind_eq (a := some t) (.look fun s hs => by rw [hs, List.head?_cons]) ?_
  dsimp only
  rw [if_pos h]
  exact .andThen skipOne_takes fun _ => .pure rfl

/-- Items as long as the next token begins one. -/
theorem manyWhile_takes_nil {p : Kind → Bool} {item : Parser (Option α)}
    (h : (Token.next? ts).any p = false) : Takes ts ts (· = []) (manyWhile p item) := by
  intro s hs
  change (manyWhileFrom p item s).1 = [] ∧ (manyWhileFrom p item s).2.rest = ts ∧
    (manyWhileFrom p item s).2.errors = s.errors
  rw [manyWhileFrom, if_neg (by rw [Cursor.kind?_eq_next?, hs, h]; exact Bool.false_ne_true)]
  exact ⟨rfl, hs, rfl⟩

/-- An item is read, and then the rest of the repetition. -/
theorem manyWhile_takes_cons {p : Kind → Bool} {item : Parser (Option α)} {after : List Token}
    {E : α → β → Prop} {b : β} {bs : List β} (hnext : (Token.next? ts).any p = true)
    (hlt : us.length < ts.length) (hitem : Takes ts us (Option.Rel E · (some b)) item)
    (hmore : Takes us after (List.Forall₂ E · bs) (manyWhile p item)) :
    Takes ts after (List.Forall₂ E · (b :: bs)) (manyWhile p item) := by
  intro s hs
  obtain ⟨hitem, hrest, herrors⟩ := hitem s hs
  obtain ⟨hmore, hrest', herrors'⟩ := hmore _ hrest
  have hrun : (manyWhile p item).run s = ((item.run s).1.toList ++
      ((manyWhile p item).run (item.run s).2).1, ((manyWhile p item).run (item.run s).2).2) := by
    change manyWhileFrom p item s = _
    rw [manyWhileFrom, if_pos (by rw [Cursor.kind?_eq_next?, hs, hnext])]
    exact if_pos (by rw [hrest, hs]; exact hlt)
  rw [hrun]
  refine ⟨?_, hrest', herrors'.trans herrors⟩
  generalize (item.run s).1 = found at hitem ⊢
  cases hitem with
  | some h => exact .cons h hmore

/-- The last of the items. -/
theorem sepBy_takes_last {sep : Kind} {item : Parser (Option α)} {E : α → β → Prop} {b : β}
    (hitem : Takes ts us (Option.Rel E · (some b)) item) (hnext : Token.next? us ≠ some sep) :
    Takes ts us (List.Forall₂ E · [b]) (sepBy sep item) := by
  intro s hs
  obtain ⟨hitem, hrest, herrors⟩ := hitem s hs
  change List.Forall₂ E (sepByFrom sep item s).1 [b] ∧ (sepByFrom sep item s).2.rest = us ∧
    (sepByFrom sep item s).2.errors = s.errors
  rw [sepByFrom]
  generalize item.run s = found at hitem hrest herrors ⊢
  obtain ⟨a, u⟩ := found
  cases hitem with
  | some h =>
    dsimp only at hrest ⊢
    rw [if_neg (by rw [Cursor.kind?_eq_next?, hrest]; exact hnext)]
    exact ⟨.cons h .nil, hrest, herrors⟩

/-- An item that the separator follows. -/
theorem sepBy_takes_cons {sep : Kind} {item : Parser (Option α)} {after : List Token}
    {E : α → β → Prop} {b : β} {bs : List β}
    (hitem : Takes ts (t :: us) (Option.Rel E · (some b)) item) (hsep : t.kind = sep)
    (hmore : Takes us after (List.Forall₂ E · bs) (sepBy sep item)) :
    Takes ts after (List.Forall₂ E · (b :: bs)) (sepBy sep item) := by
  intro s hs
  obtain ⟨hitem, hrest, herrors⟩ := hitem s hs
  change List.Forall₂ E (sepByFrom sep item s).1 (b :: bs) ∧ (sepByFrom sep item s).2.rest = after ∧
    (sepByFrom sep item s).2.errors = s.errors
  rw [sepByFrom]
  generalize item.run s = found at hitem hrest herrors ⊢
  obtain ⟨a, u⟩ := found
  dsimp only at hrest herrors
  cases hitem with
  | some h =>
    obtain ⟨hmore, hrest', herrors'⟩ := hmore u.next (by rw [Cursor.rest_next, hrest, List.tail_cons])
    dsimp only
    rw [if_pos (by rw [Cursor.kind?_eq_next?, hrest, Token.next?_cons, hsep])]
    exact ⟨.cons h hmore, hrest', herrors'.trans (u.errors_next.trans herrors)⟩

end Parser

end NedWorkspace
