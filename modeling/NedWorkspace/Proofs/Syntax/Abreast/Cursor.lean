/-
# Cursors abreast

What is read depends on the kinds and the texts of the tokens; the blanks and comments between them only
show in what a tree keeps as text (SPEC_FULL, section 1, parser scope). A `Likeness` says how what lies
ahead in one text corresponds to what lies ahead in another, and what this makes of the texts that are kept
of it. Two cursors are abreast (`Cursor.Abreast`) when what lies ahead of them corresponds and the same
errors were noted, those noted before the comparison began apart.

Whether a run of tokens can be kept depends on what stands before it, too. `Cursor.Behind` and
`Cursor.Held` say of two cursors abreast what was taken last, and how far the tokens ahead can be kept.
-/

import NedWorkspace.Proofs.Map.Related
import NedWorkspace.Proofs.Syntax.Kept
import NedWorkspace.Proofs.Syntax.Takes

namespace NedWorkspace

/-- A correspondence between what lies ahead in two texts, and between the texts that are kept of it. -/
structure Likeness where
  ahead : List Token → List Token → Prop
  slice : String → String → Prop
  /-- Token for token the same words lie ahead. -/
  words : ∀ {ts us : List Token}, ahead ts us → List.Forall₂ (fun t u : Token => t.word = u.word) ts us
  marks : ∀ {ts us : List Token}, ahead ts us → Token.MarksNoWords ts
  tail : ∀ {ts us : List Token}, ahead ts us → ahead ts.tail us.tail
  empty : slice "" ""
  kept : ∀ {ts us : List Token} {i n : Nat}, ahead ts us → Stretch.Kept ts i n →
    slice (Token.keptText ts i n) (Token.keptText us i n)
  unquoted : ∀ {ts us : List Token} {i n : Nat}, ahead ts us → Stretch.Kept ts i n →
    slice (Parser.unquote (Token.keptText ts i n)) (Parser.unquote (Token.keptText us i n))

/-! ### How far a stretch goes depends on the kinds -/

namespace Stretch

variable {ts us : List Token} (h : List.Forall₂ (fun t u : Token => t.kind = u.kind) ts us)
include h

/-- Where a statement ends depends on what the tokens are, not on their layout. -/
theorem statement_congr (depth : Nat) : statement depth ts = statement depth us := by
  induction h generalizing depth with
  | nil => rfl
  | cons hkind _ ih => simp only [statement, hkind, ih]

theorem group_congr (depth : Nat) : group depth ts = group depth us := by
  induction h generalizing depth with
  | nil => rfl
  | cons hkind _ ih => simp only [group, hkind, ih]

/-- Whether a group is closed depends on what the tokens are. -/
theorem groupCloses_congr (depth : Nat) : groupCloses depth ts = groupCloses depth us := by
  induction h generalizing depth with
  | nil => rfl
  | cons hkind _ ih => simp only [groupCloses, hkind, ih]

/-- Where an expression ends depends on what the tokens are. -/
theorem expression_congr (stops : List Kind) (depth : Nat) :
    expression stops depth ts = expression stops depth us := by
  induction h generalizing depth with
  | nil => rfl
  | cons hkind _ ih => simp only [expression, hkind, ih]

/-- How much debris is passed over depends on what the tokens are. -/
theorem debris_congr (depth : Nat) : debris depth ts = debris depth us := by
  induction h generalizing depth with
  | nil => rfl
  | cons hkind _ ih => simp only [debris, hkind, ih]

theorem debrisDepth_congr (depth : Nat) : debrisDepth depth ts = debrisDepth depth us := by
  induction h generalizing depth with
  | nil => rfl
  | cons hkind _ ih => simp only [debrisDepth, hkind, ih]

/-- Whether an arrow is ahead depends on what the tokens are. -/
theorem arrowAhead_congr (depth : Nat) : arrowAhead depth ts = arrowAhead depth us := by
  induction h generalizing depth with
  | nil => rfl
  | cons hkind _ ih => simp only [arrowAhead, hkind, ih]

/-- Where an import ends depends on what the tokens are. -/
theorem importSpec_congr : importSpec ts = importSpec us := by
  simp only [importSpec]
  induction h with
  | nil => rfl
  | cons hkind _ ih =>
    simp only [List.takeWhile_cons, hkind]
    split
    · rw [List.length_cons, List.length_cons, ih]
    · rfl

/-- Where a qualified name ends depends on what the tokens are. -/
theorem nameTail_congr : nameTail ts = nameTail us := by
  fun_induction nameTail ts generalizing us with
  | case1 d i ts hkinds ih =>
    cases h with
    | cons hd h => cases h with
      | cons hi h => rw [nameTail, ← hd, ← hi, if_pos hkinds, ih h]
  | case2 d i ts hkinds =>
    cases h with
    | cons hd h => cases h with
      | cons hi h => rw [nameTail, ← hd, ← hi, if_neg hkinds]
  | case3 ts hshort =>
    cases h with
    | nil => rfl
    | cons hd h => cases h with
      | nil => rfl
      | cons hi h => exact absurd rfl (hshort _ _ _)

theorem name_congr : name ts = name us := by
  cases h with
  | nil => rfl
  | cons _ h => simp only [name, nameTail_congr h]

end Stretch

namespace Cursor

/-- What lies ahead corresponds, and the same errors were noted but for those in `before`. -/
structure Abreast (L : Likeness) (before : List String) (s t : Cursor) : Prop where
  rest : L.ahead s.rest t.rest
  messages : s.errors.map SyntaxError.message = before ++ t.errors.map SyntaxError.message

namespace Abreast

variable {L : Likeness} {before : List String} {s t : Cursor} (h : s.Abreast L before t)
include h

/-- The words ahead are the same. -/
theorem words : List.Forall₂ (fun t u : Token => t.word = u.word) s.rest t.rest :=
  L.words h.rest

/-- Cursors abreast have the same kinds of tokens ahead. -/
theorem sameKinds : List.Forall₂ (fun t u : Token => t.kind = u.kind) s.rest t.rest :=
  h.words.imp fun _ _ => Token.kind_of_word

/-- Cursors abreast have equally many tokens ahead. -/
theorem length_eq : s.rest.length = t.rest.length :=
  h.words.length_eq

/-- The tokens at one distance ahead correspond, if there are any. -/
theorem getElem? (i : Nat) :
    Option.Rel (fun t u : Token => t.word = u.word) s.rest[i]? t.rest[i]? := by
  have hrest := h.words
  generalize s.rest = as at hrest ⊢
  generalize t.rest = bs at hrest ⊢
  induction hrest generalizing i with
  | nil => exact .none
  | cons hword _ ih =>
    cases i with
    | zero => exact .some hword
    | succ i => exact ih i

/-- Cursors abreast look at the same word. -/
theorem head? : Option.Rel (fun t u : Token => t.word = u.word) s.rest.head? t.rest.head? := by
  rw [List.head?_eq_getElem?, List.head?_eq_getElem?]
  exact h.getElem? 0

theorem kind? : s.kind? = t.kind? :=
  option_map_eq_of_rel Token.kind_of_word h.head?

theorem secondKind? : s.secondKind? = t.secondKind? :=
  option_map_eq_of_rel Token.kind_of_word (h.getElem? 1)

theorem text? : s.rest.head?.map Token.text = t.rest.head?.map Token.text :=
  option_map_eq_of_rel Token.text_of_word h.head?

/-- Whether a key of a property is ahead is the same for cursors abreast. -/
theorem keyAhead : Parser.keyAhead s = Parser.keyAhead t := by
  have hrest := h.words
  unfold Parser.keyAhead
  generalize s.rest = as at hrest ⊢
  generalize t.rest = bs at hrest ⊢
  cases hrest with
  | nil => rfl
  | cons hfirst hrest => cases hrest with
    | nil => rfl
    | cons hsecond _ => simp only [Token.text_of_word hfirst, Token.kind_of_word hsecond]

/-- A step on each side keeps cursors abreast. -/
theorem next : s.next.Abreast L before t.next := by
  refine ⟨?_, ?_⟩
  · rw [rest_next, rest_next]
    exact L.tail h.rest
  · rw [errors_next, errors_next]
    exact h.messages

/-- As many steps on each side keep cursors abreast. -/
theorem skip (n : Nat) : (s.skip n).Abreast L before (t.skip n) := by
  induction n generalizing s t with
  | zero => exact h
  | succ n ih => exact ih h.next

/-- The same complaint on each side keeps cursors abreast. -/
theorem complain (message : String) : (s.complain message).Abreast L before (t.complain message) := by
  refine ⟨h.rest, ?_⟩
  simp only [Cursor.complain, List.map_append, h.messages, List.append_assoc]
  rfl

/-- What is found in place of what was expected reads the same on each side. -/
theorem complainExpected (what : String) :
    (s.complainExpected what).Abreast L before (t.complainExpected what) := by
  have hrest := h.words
  unfold Cursor.complainExpected
  generalize hs : s.rest = as at hrest ⊢
  generalize ht : t.rest = bs at hrest ⊢
  cases hrest with
  | nil => exact h.complain _
  | cons hword _ =>
    dsimp only
    rw [Token.text_of_word hword]
    exact h.complain _

end Abreast

/-- The token before what lies ahead has a kind. -/
def Behind (L : Likeness) (k : Kind) (s t : Cursor) : Prop :=
  ∃ o p : Token, o.kind = k ∧ L.ahead (o :: s.rest) (p :: t.rest)

/-- Of what lies ahead as many tokens as `count` says can be kept. -/
def Held (L : Likeness) (count : List Token → Nat) (s t : Cursor) : Prop :=
  ∃ (ts us : List Token) (i : Nat), L.ahead ts us ∧ s.rest = ts.drop i ∧ t.rest = us.drop i ∧
    Stretch.Kept ts i (count s.rest)

section Held

variable {L : Likeness} {before : List String} {s t : Cursor} {count count' : List Token → Nat}

/-- Behind the next token. -/
theorem Abreast.behind_next {k : Kind} (h : s.Abreast L before t) (hk : s.kind? = some k) :
    Behind L k s.next t.next := by
  obtain ⟨o, ts, hs, ho⟩ := exists_of_kind? hk
  obtain ⟨p, us, ht⟩ : ∃ p us, t.rest = p :: us := by
    have hkind : t.kind? = some k := h.kind? ▸ hk
    obtain ⟨p, us, ht, -⟩ := exists_of_kind? hkind
    exact ⟨p, us, ht⟩
  refine ⟨o, p, ho, ?_⟩
  have hrest := h.rest
  rw [hs, ht] at hrest
  rw [rest_next, rest_next, hs, ht]
  exact hrest

/-- Behind a token that opens an expression it can be kept as far as this token reaches. -/
theorem Behind.held {k : Kind} (h : Behind L k s t) : Held L (Stretch.reach k) s t := by
  obtain ⟨o, p, rfl, hahead⟩ := h
  exact ⟨_, _, 1, hahead, rfl, rfl, Stretch.kept_reach o s.rest⟩

/-- Where fewer tokens are counted, the tokens ahead still hold what is asked of them. -/
theorem Held.mono (h : Held L count' s t) (hle : ∀ ts, count ts ≤ count' ts) : Held L count s t := by
  obtain ⟨ts, us, i, hahead, hs, ht, hkept⟩ := h
  exact ⟨ts, us, i, hahead, hs, ht, hkept.mono (hle _)⟩

/-- What is kept is the same text up to the likeness. -/
theorem Held.slice (h : Held L count s t) :
    L.slice (Text.trim (Token.sourceText (s.rest.take (count s.rest))))
        (Text.trim (Token.sourceText (t.rest.take (count s.rest)))) ∧
      L.slice (Parser.unquote (Text.trim (Token.sourceText (s.rest.take (count s.rest)))))
        (Parser.unquote (Text.trim (Token.sourceText (t.rest.take (count s.rest))))) := by
  obtain ⟨ts, us, i, hahead, hs, ht, hkept⟩ := h
  rw [hs] at hkept ⊢
  rw [ht]
  exact ⟨L.kept hahead hkept, L.unquoted hahead hkept⟩

/-- Behind some of the tokens that can be kept are the others. -/
theorem Held.skip (h : Held L count s t) (n : Nat)
    (hcount : count s.rest = n + count (s.rest.drop n)) : Held L count (s.skip n) (t.skip n) := by
  obtain ⟨ts, us, i, hahead, hs, ht, hkept⟩ := h
  refine ⟨ts, us, i + n, hahead, ?_, ?_, ?_⟩
  · rw [rest_skip, hs, List.drop_drop]
  · rw [rest_skip, ht, List.drop_drop]
  · rw [hcount] at hkept
    rw [rest_skip]
    exact hkept.skip

end Held

end Cursor

end NedWorkspace
