/-
# Runs of tokens with paired brackets

`Stretch.Paired stops ts` says that the brackets of `ts` are paired, each with one of its own shape, and
that no token outside them has a kind in `stops`. Reading does not look at the shapes; it counts. On
paired brackets the count is the number of brackets that are open, and `Stretch.closes` keeps these on a
stack: it is what is left of `Paired` in the middle of a run.

A stretch of any sort that begins between a body's opening brace and its closing one, `Stretch.Inside`,
ends there too: at the end of a statement or of an expression no brace is open that was not open before.
-/

import Mathlib.Data.List.Chain
import NedWorkspace.Proofs.Syntax.Kept
import NedWorkspace.Syntax.Link

namespace NedWorkspace

namespace Kind

/-- The bracket that closes an opening one. -/
def closer? : Kind → Option Kind
  | mark .lparen => some (mark .rparen)
  | mark .lbracket => some (mark .rbracket)
  | mark .lbrace => some (mark .rbrace)
  | _ => none

/-- A brace of either sort. -/
def isBrace : Kind → Bool
  | mark .lbrace | mark .rbrace => true
  | _ => false

/-- The brackets that are to be closed after a token, the innermost first; nothing if the token closes
one that is not open. -/
def step (k : Kind) (stack : List Kind) : Option (List Kind) :=
  match k.closer? with
  | some c => some (c :: stack)
  | none =>
    if k.isClosing then
      match stack with
      | c :: more => if k = c then some more else none
      | [] => none
    else some stack

theorem closer?_eq_none {k : Kind} (h : k.isOpening = false) : k.closer? = none := by
  unfold closer?
  split <;> simp_all [isOpening]

/-- A token with a partner opens. -/
theorem isOpening_of_closer? {k c : Kind} (h : k.closer? = some c) : k.isOpening = true := by
  unfold closer? at h
  split at h <;> simp_all [isOpening]

/-- The partner of an opening token closes. -/
theorem isClosing_of_closer? {k c : Kind} (h : k.closer? = some c) : c.isClosing = true := by
  unfold closer? at h
  split at h <;> simp_all <;> rw [← h] <;> rfl

/-- No token both opens and closes. -/
theorem isOpening_of_isClosing {k : Kind} (h : k.isClosing = true) : k.isOpening = false := by
  unfold isClosing at h
  split at h <;> simp_all [isOpening]

/-- A brace is a bracket. -/
theorem isBrace_of_not_bracket {k : Kind} (hopening : k.isOpening = false) (hclosing : k.isClosing = false) :
    k.isBrace = false := by
  rw [Bool.eq_false_iff]
  intro hbrace
  unfold isBrace at hbrace
  split at hbrace
  · exact absurd hopening (by decide)
  · exact absurd hclosing (by decide)
  · exact absurd hbrace Bool.false_ne_true

/-- An opening bracket waits for its partner. -/
theorem step_opening {k c : Kind} (h : k.closer? = some c) (stack : List Kind) :
    k.step stack = some (c :: stack) := by
  simp [step, h]

/-- A closing bracket must be the one that is waited for. -/
theorem step_closing {k : Kind} (h : k.isClosing = true) (stack : List Kind) :
    k.step (k :: stack) = some stack := by
  simp [step, closer?_eq_none (isOpening_of_isClosing h), h]

/-- What is no bracket leaves those that are waited for. -/
theorem step_plain {k : Kind} (hopening : k.isOpening = false) (hclosing : k.isClosing = false)
    (stack : List Kind) : k.step stack = some stack := by
  simp [step, closer?_eq_none hopening, hclosing]

/-- What a token does to the brackets that are to be closed. -/
theorem step_cases {k : Kind} {stack stack' : List Kind} (h : k.step stack = some stack') :
    (∃ c, k.closer? = some c ∧ stack' = c :: stack) ∨
    (k.isClosing = true ∧ stack = k :: stack') ∨
    (k.isOpening = false ∧ k.isClosing = false ∧ stack' = stack) := by
  unfold step at h
  split at h
  · rename_i c hc
    exact .inl ⟨c, hc, (Option.some.inj h).symm⟩
  · rename_i hc
    have hopening : k.isOpening = false := by
      unfold isOpening
      split <;> simp_all [closer?]
    split at h
    · rename_i hclosing
      split at h
      · split at h
        · rename_i heq
          exact .inr (.inl ⟨hclosing, by rw [heq, Option.some.inj h]⟩)
        · exact absurd h (by simp)
      · exact absurd h (by simp)
    · rename_i hclosing
      exact .inr (.inr ⟨hopening, by simpa using hclosing, (Option.some.inj h).symm⟩)

theorem closer?_eq_rbrace {k c : Kind} (h : k.closer? = some c) :
    c = .mark .rbrace ↔ k = .mark .lbrace := by
  unfold closer? at h
  split at h <;> simp_all <;> subst h <;> simp

end Kind

namespace Stretch

/-- Brackets are paired, and outside them no kind is in `stops`. -/
inductive Paired : List Kind → List Token → Prop
  | nil {stops : List Kind} : Paired stops []
  | token {stops : List Kind} {t : Token} {ts : List Token} (plain : t.kind.isOpening = false)
      (unclosing : t.kind.isClosing = false) (free : t.kind ∉ stops) (rest : Paired stops ts) :
      Paired stops (t :: ts)
  | group {stops : List Kind} {o c : Token} {inner ts : List Token}
      (shape : o.kind.closer? = some c.kind) (free : o.kind ∉ stops) (inside : Paired [] inner)
      (rest : Paired stops ts) : Paired stops (o :: (inner ++ c :: ts))

/-- Whether a run closes the brackets on the stack, and pairs all others. -/
def closes : List Kind → List Token → Bool
  | stack, [] => stack.isEmpty
  | stack, t :: ts =>
    match t.kind.step stack with
    | some stack' => closes stack' ts
    | none => false

/-- Tokens close what is open if they do after the first of them. -/
theorem closes_cons {stack : List Kind} {t : Token} {ts : List Token} :
    closes stack (t :: ts) = true ↔
      ∃ stack', t.kind.step stack = some stack' ∧ closes stack' ts = true := by
  rw [closes]
  split
  · rename_i stack' h
    simp [h]
  · rename_i h
    simp [h]

/-- Paired brackets leave the stack as it was. -/
theorem closes_append_of_paired {stops : List Kind} {ts : List Token} (h : Paired stops ts)
    (stack : List Kind) (more : List Token) : closes stack (ts ++ more) = closes stack more := by
  induction h generalizing stack more with
  | nil => rfl
  | token plain unclosing _ _ ih =>
    rw [List.cons_append, closes, Kind.step_plain plain unclosing]
    exact ih stack more
  | group shape _ _ _ ihinner ih =>
    rw [List.cons_append, closes, Kind.step_opening shape]
    dsimp only
    rw [List.append_assoc, ihinner, List.cons_append, closes,
      Kind.step_closing (Kind.isClosing_of_closer? shape)]
    exact ih stack more

/-- The token that closes a bracket on the stack, with what lies before it and behind it. -/
theorem exists_closing (inner : List Kind) {stack : List Kind} {c : Kind} {ts : List Token}
    (h : closes (inner ++ c :: stack) ts = true) :
    ∃ (before : List Token) (t : Token) (behind : List Token), ts = before ++ t :: behind ∧
      t.kind = c ∧ closes inner before = true ∧ closes stack behind = true := by
  induction ts generalizing inner with
  | nil => simp [closes] at h
  | cons t ts ih =>
    obtain ⟨stack', hstep, hts⟩ := closes_cons.mp h
    obtain ⟨d, hd, rfl⟩ | ⟨hclosing, hstack⟩ | ⟨hplain, hunclosing, rfl⟩ := Kind.step_cases hstep
    · obtain ⟨before, u, behind, rfl, hu, hbefore, hbehind⟩ := ih (d :: inner) hts
      exact ⟨t :: before, u, behind, rfl, hu,
        closes_cons.mpr ⟨_, Kind.step_opening hd inner, hbefore⟩, hbehind⟩
    · cases inner with
      | nil =>
        obtain ⟨rfl, rfl⟩ := List.cons.inj hstack
        exact ⟨[], t, ts, rfl, rfl, rfl, hts⟩
      | cons d inner =>
        obtain ⟨rfl, rfl⟩ := List.cons.inj hstack
        obtain ⟨before, u, behind, rfl, hu, hbefore, hbehind⟩ := ih inner hts
        exact ⟨t :: before, u, behind, rfl, hu,
          closes_cons.mpr ⟨inner, Kind.step_closing hclosing inner, hbefore⟩, hbehind⟩
    · obtain ⟨before, u, behind, rfl, hu, hbefore, hbehind⟩ := ih inner hts
      exact ⟨t :: before, u, behind, rfl, hu,
        closes_cons.mpr ⟨inner, Kind.step_plain hplain hunclosing inner, hbefore⟩, hbehind⟩

/-! ### Counting brackets that are paired

In these lemmas `opened` are the brackets that the count knows of, and `stack` those that were open
before it began. -/

/-- An opening bracket leads one deeper. -/
theorem depthAfter_opening {k : Kind} (h : k.isOpening = true) (depth : Nat) :
    depthAfter depth k = depth + 1 := by
  simp [depthAfter, h]

/-- A closing bracket leads back. -/
theorem depthAfter_closing {k : Kind} (h : k.isClosing = true) (depth : Nat) :
    depthAfter depth k = depth - 1 := by
  simp [depthAfter, h, Kind.isOpening_of_isClosing h]

theorem depthAfter_plain {k : Kind} (hopening : k.isOpening = false) (hclosing : k.isClosing = false)
    (depth : Nat) : depthAfter depth k = depth := by
  simp [depthAfter, hopening, hclosing]

/-- One token further. It opens a bracket, or closes the innermost one that the count knows of, or,
where it knows of none, one that was open before. -/
theorem closes_step {opened stack : List Kind} {t : Token} {before : List Token}
    (h : closes (opened ++ stack) (t :: before) = true) :
    ∃ opened' stack' : List Kind, opened'.length = depthAfter opened.length t.kind ∧
      closes (opened' ++ stack') before = true ∧
      (stack' = stack ∨ opened = [] ∧ stack = t.kind :: stack' ∧ t.kind.isClosing = true) := by
  obtain ⟨stack', hstep, hbefore⟩ := closes_cons.mp h
  obtain ⟨c, hc, rfl⟩ | ⟨hclosing, hstack⟩ | ⟨hplain, hunclosing, rfl⟩ := Kind.step_cases hstep
  · exact ⟨c :: opened, stack, (depthAfter_opening (Kind.isOpening_of_closer? hc) _).symm, hbefore,
      .inl rfl⟩
  · rw [depthAfter_closing hclosing]
    cases opened with
    | nil => exact ⟨[], stack', rfl, hbefore, .inr ⟨rfl, hstack, hclosing⟩⟩
    | cons c opened =>
      obtain ⟨_, rfl⟩ := List.cons.inj hstack
      exact ⟨opened, stack, rfl, hbefore, .inl rfl⟩
  · exact ⟨opened, stack, (depthAfter_plain hplain hunclosing _).symm, hbefore, .inl rfl⟩

variable {close : Token} (behind : List Token)

/-- A statement ends where no brace is open that was not open before it. -/
theorem drop_statement (hclose : close.kind = .mark .rbrace) (opened : List Kind) {stack : List Kind}
    {before : List Token} (h : closes (opened ++ stack) before = true)
    (hbraceless : Kind.mark .rbrace ∉ stack) :
    ∃ (stack' : List Kind) (before' : List Token),
      (before ++ close :: behind).drop (statement opened.length (before ++ close :: behind)) =
        before' ++ close :: behind ∧
      closes stack' before' = true ∧ Kind.mark .rbrace ∉ stack' ∧ before' <:+ before := by
  induction before generalizing opened stack with
  | nil =>
    have hnil : opened = [] ∧ stack = [] := by simpa [closes] using h
    obtain ⟨rfl, rfl⟩ := hnil
    exact ⟨[], [], by simp [statement, hclose], rfl, List.not_mem_nil, List.suffix_refl _⟩
  | cons t before ih =>
    obtain ⟨opened', stack', hlength, hbefore, hstack⟩ := closes_step h
    have hbraceless' : Kind.mark .rbrace ∉ stack' := fun hmem => by
      rcases hstack with rfl | ⟨_, rfl, _⟩
      · exact hbraceless hmem
      · exact hbraceless (List.mem_cons_of_mem _ hmem)
    rw [List.cons_append, statement]
    split
    · rename_i hend
      have hnil : opened' = [] := by
        rw [← List.length_eq_zero_iff, hlength, hend.1, hend.2]
        rfl
      subst hnil
      exact ⟨stack', before, rfl, hbefore, hbraceless', List.suffix_cons t before⟩
    · split
      · rename_i hend
        -- The stack has no brace that this one could close.
        obtain rfl := List.length_eq_zero_iff.mp hend.1
        obtain ⟨stack'', hstep, _⟩ := closes_cons.mp h
        obtain ⟨c, hc, _⟩ | ⟨_, hmem⟩ | ⟨_, hunclosing, _⟩ := Kind.step_cases hstep
        · exact absurd hc (by simp [hend.2, Kind.closer?])
        · rw [List.nil_append, hend.2] at hmem
          exact absurd (hmem ▸ List.mem_cons_self) hbraceless
        · exact absurd hunclosing (by simp [hend.2, Kind.isClosing])
      · obtain ⟨stack'', before', hdrop, hcloses, hnone, hsuffix⟩ := ih opened' hbefore hbraceless'
        refine ⟨stack'', before', ?_, hcloses, hnone, hsuffix.trans (List.suffix_cons t before)⟩
        rw [← hlength, Nat.add_comm, List.drop_succ_cons]
        exact hdrop

/-- An expression closes the brackets it opens, and no others. -/
theorem drop_expression (hclose : close.kind.isClosing = true) (stops : List Kind)
    (opened : List Kind) {stack : List Kind} {before : List Token}
    (h : closes (opened ++ stack) before = true) :
    ∃ before' : List Token,
      (before ++ close :: behind).drop
          (expression stops opened.length (before ++ close :: behind)) = before' ++ close :: behind ∧
      closes stack before' = true ∧ before' <:+ before := by
  induction before generalizing opened with
  | nil =>
    have hnil : opened = [] ∧ stack = [] := by simpa [closes] using h
    obtain ⟨rfl, rfl⟩ := hnil
    exact ⟨[], by simp [expression, hclose], rfl, List.suffix_refl _⟩
  | cons t before ih =>
    rw [List.cons_append, expression]
    split
    · rename_i hend
      obtain rfl := List.length_eq_zero_iff.mp hend.1
      exact ⟨t :: before, rfl, h, List.suffix_refl _⟩
    · rename_i hgo
      obtain ⟨opened', stack', hlength, hbefore, rfl | ⟨rfl, _, hclosing⟩⟩ := closes_step h
      · obtain ⟨before', hdrop, hcloses, hsuffix⟩ := ih opened' hbefore
        refine ⟨before', ?_, hcloses, hsuffix.trans (List.suffix_cons t before)⟩
        rw [← hlength, Nat.add_comm, List.drop_succ_cons]
        exact hdrop
      · exact absurd ⟨rfl, .inr hclosing⟩ hgo

/-- A group that is open closes the brackets it opened, and no others. -/
theorem drop_group (close : Token) (behind : List Token) (opened : List Kind) {stack : List Kind}
    {before : List Token} (h : closes (opened ++ stack) before = true) (hopened : opened ≠ []) :
    ∃ before' : List Token,
      (before ++ close :: behind).drop (group opened.length (before ++ close :: behind)) =
        before' ++ close :: behind ∧
      closes stack before' = true ∧ before' <:+ before := by
  induction before generalizing opened with
  | nil =>
    have hnil : opened = [] ∧ stack = [] := by simpa [closes] using h
    exact absurd hnil.1 hopened
  | cons t before ih =>
    obtain ⟨opened', stack', hlength, hbefore, rfl | ⟨hnil, _⟩⟩ := closes_step h
    · rw [List.cons_append, group, ← hlength]
      split
      · rename_i hend
        obtain rfl := List.length_eq_zero_iff.mp hend
        exact ⟨before, rfl, hbefore, List.suffix_cons t before⟩
      · rename_i hgo
        obtain ⟨before', hdrop, hcloses, hsuffix⟩ := ih opened' hbefore (List.length_eq_zero_iff.not.mp hgo)
        refine ⟨before', ?_, hcloses, hsuffix.trans (List.suffix_cons t before)⟩
        rw [Nat.add_comm, List.drop_succ_cons]
        exact hdrop
    · exact absurd hnil hopened

/-! ### Between the braces of a body -/

/-- Marks are no words, and no `@` stands right before a brace. -/
structure Clean (ts : List Token) : Prop where
  marks : Token.MarksNoWords ts
  names : ts.IsChain fun t u => t.kind = .mark .atSign → u.kind.isBrace = false

/-- The end of clean tokens is clean. -/
theorem Clean.of_suffix {ts us : List Token} (h : Clean us) (hsuffix : ts <:+ us) : Clean ts :=
  ⟨fun t ht => h.marks t (hsuffix.mem ht), h.names.suffix hsuffix⟩

/-- The end of a body: its closing brace, and what comes behind it. -/
structure BodyClose where
  brace : Token
  behind : List Token
  kind : brace.kind = .mark .rbrace

/-- The tokens ahead lead to the closing brace of a body: what comes before the brace is clean and
closes brackets that are open, none of them a brace. -/
def Inside (b : BodyClose) (ts : List Token) : Prop :=
  ∃ (stack : List Kind) (before : List Token), ts = before ++ b.brace :: b.behind ∧
    closes stack before = true ∧ Kind.mark .rbrace ∉ stack ∧ Clean (before ++ [b.brace])

namespace Inside

variable {b : BodyClose} {ts : List Token} {t : Token}

theorem ne_nil (h : Inside b ts) : ts ≠ [] := by
  obtain ⟨stack, before, rfl, _⟩ := h
  simp

/-- The next token is the closing brace, or it changes what is open and the brace is still to come. -/
theorem cases_cons (h : Inside b (t :: ts)) :
    (t = b.brace ∧ ts = b.behind) ∨
    ∃ (stack stack' : List Kind) (before : List Token), ts = before ++ b.brace :: b.behind ∧
      t.kind.step stack = some stack' ∧ closes stack' before = true ∧
      Kind.mark .rbrace ∉ stack ∧ Clean (t :: before ++ [b.brace]) := by
  obtain ⟨stack, before, heq, hcloses, hbraceless, hclean⟩ := h
  cases before with
  | nil => exact .inl (List.cons.inj heq)
  | cons u before =>
    obtain ⟨rfl, rfl⟩ := List.cons.inj heq
    obtain ⟨stack', hstep, hbefore⟩ := closes_cons.mp hcloses
    exact .inr ⟨stack, stack', before, rfl, hstep, hbefore, hbraceless, hclean⟩

/-- At a closing brace the body ends. -/
theorem eq_of_rbrace (h : Inside b (t :: ts)) (hkind : t.kind = .mark .rbrace) :
    t = b.brace ∧ ts = b.behind := by
  obtain hend | ⟨stack, stack', before, _, hstep, _, hbraceless, _⟩ := h.cases_cons
  · exact hend
  · obtain ⟨c, hc, _⟩ | ⟨_, hstack⟩ | ⟨_, hunclosing, _⟩ := Kind.step_cases hstep
    · exact absurd hc (by simp [hkind, Kind.closer?])
    · rw [hkind] at hstack
      exact absurd (hstack ▸ List.mem_cons_self) hbraceless
    · exact absurd hunclosing (by simp [hkind, Kind.isClosing])

/-- Behind a token that is no brace. -/
theorem tail (h : Inside b (t :: ts)) (hkind : t.kind.isBrace = false) : Inside b ts := by
  obtain ⟨rfl, _⟩ | ⟨stack, stack', before, rfl, hstep, hbefore, hbraceless, hclean⟩ := h.cases_cons
  · exact absurd hkind (by simp [b.kind, Kind.isBrace])
  · refine ⟨stack', before, rfl, hbefore, ?_, hclean.of_suffix (List.suffix_cons _ _)⟩
    obtain ⟨c, hc, rfl⟩ | ⟨_, rfl⟩ | ⟨_, _, rfl⟩ := Kind.step_cases hstep
    · rw [List.mem_cons, not_or]
      refine ⟨fun hc' => ?_, hbraceless⟩
      rw [(Kind.closer?_eq_rbrace hc).mp hc'.symm] at hkind
      exact absurd hkind (by decide)
    · exact fun hmem => hbraceless (List.mem_cons_of_mem _ hmem)
    · exact hbraceless

/-- An opening brace begins a body of its own, behind which the outer one goes on. -/
theorem inner (h : Inside b (t :: ts)) (hkind : t.kind = .mark .lbrace) :
    ∃ b' : BodyClose, Inside b' ts ∧ Inside b b'.behind := by
  obtain ⟨rfl, _⟩ | ⟨stack, stack', before, rfl, hstep, hbefore, hbraceless, hclean⟩ := h.cases_cons
  · exact absurd (hkind.symm.trans b.kind) (by decide)
  · rw [hkind, Kind.step_opening rfl, Option.some_inj] at hstep
    obtain ⟨first, brace, rest, rfl, hbrace, hfirst, hrest⟩ :=
      exists_closing [] (hstep ▸ hbefore)
    refine ⟨⟨brace, rest ++ b.brace :: b.behind, hbrace⟩, ⟨[], first, by simp, hfirst,
      List.not_mem_nil, ?_⟩, ⟨stack, rest, rfl, hrest, hbraceless, ?_⟩⟩
    · -- The tokens up to the inner closing brace are a part of those up to the outer one.
      have hpart : first ++ [brace] <:+: t :: (first ++ brace :: rest) ++ [b.brace] :=
        ⟨[t], rest ++ [b.brace], by simp⟩
      exact ⟨fun u hu => hclean.marks u (hpart.mem hu), hclean.names.infix hpart⟩
    · exact hclean.of_suffix ⟨t :: first ++ [brace], by simp⟩

/-- A statement that is passed over ends inside of the braces it began in. -/
theorem drop_statement (h : Inside b ts) : Inside b (ts.drop (statement 0 ts)) := by
  obtain ⟨stack, before, rfl, hcloses, hbraceless, hclean⟩ := h
  obtain ⟨stack', before', hdrop, hcloses', hbraceless', hsuffix⟩ :=
    Stretch.drop_statement b.behind b.kind [] hcloses hbraceless
  exact ⟨stack', before', hdrop, hcloses', hbraceless',
    hclean.of_suffix ((List.suffix_append_inj_of_length_eq rfl).mpr ⟨hsuffix, rfl⟩)⟩

/-- An expression ends inside of the braces it began in. -/
theorem drop_expression (h : Inside b ts) (stops : List Kind) :
    Inside b (ts.drop (expression stops 0 ts)) := by
  obtain ⟨stack, before, rfl, hcloses, hbraceless, hclean⟩ := h
  have hclosing : b.brace.kind.isClosing = true := by
    rw [b.kind]
    rfl
  obtain ⟨before', hdrop, hcloses', hsuffix⟩ :=
    Stretch.drop_expression b.behind hclosing stops [] hcloses
  exact ⟨stack, before', hdrop, hcloses', hbraceless,
    hclean.of_suffix ((List.suffix_append_inj_of_length_eq rfl).mpr ⟨hsuffix, rfl⟩)⟩

/-- A group ends inside of the braces it began in. -/
theorem drop_group (h : Inside b (t :: ts)) (hkind : t.kind.isOpening = true) :
    Inside b ((t :: ts).drop (group 0 (t :: ts))) := by
  obtain ⟨rfl, _⟩ | ⟨stack, stack', before, rfl, hstep, hbefore, hbraceless, hclean⟩ := h.cases_cons
  · exact absurd hkind (by simp [b.kind, Kind.isOpening])
  · obtain ⟨c, hc, rfl⟩ | ⟨hclosing, _⟩ | ⟨hplain, _⟩ := Kind.step_cases hstep
    · obtain ⟨before', hdrop, hcloses', hsuffix⟩ := 
        Stretch.drop_group b.brace b.behind [c] hbefore (by simp)
      refine ⟨stack, before', ?_, hcloses', hbraceless, hclean.of_suffix
        ((List.suffix_append_inj_of_length_eq rfl).mpr ⟨hsuffix.trans (List.suffix_cons t _), rfl⟩)⟩
      rw [group, depthAfter_opening hkind, if_neg (by omega), Nat.add_comm 1, List.drop_succ_cons]
      exact hdrop
    · exact absurd (Kind.isOpening_of_isClosing hclosing) (by simp [hkind])
    · exact absurd hplain (by simp [hkind])

end Inside

end Stretch

end NedWorkspace
