/-
# Mistakes stay inside the body

Parsing recovers from errors (SPEC_FULL, section 1, parser scope), and how far a mistake can reach is the
question here. Whatever stands between the braces of a body, as long as its brackets are paired, reading the
body ends at its closing brace: no parser steps over a brace that it did not see opened. `Parser.Stays` says
that a step begun inside a body ends inside it, and `Parser.StaysIf` says so of cursors with a property.

One step does not look at what it takes: a property in a section that has no properties is stepped over
with its name, whatever this is. So no `@` may stand right before a brace (`Stretch.Clean`).
-/

import NedWorkspace.Proofs.Syntax.Bracket
import NedWorkspace.Proofs.Syntax.Takes

namespace NedWorkspace

open Stretch

namespace Stretch.Inside

variable {b : BodyClose} {ts : List Token} {t u : Token}

/-- What stands behind an `@` is no brace. -/
theorem isBrace_second (h : Inside b (t :: u :: ts)) (hkind : t.kind = .mark .atSign) :
    u.kind.isBrace = false := by
  obtain ⟨rfl, _⟩ | ⟨_, _, before, heq, _, _, _, hclean⟩ := h.cases_cons
  · exact absurd (hkind.symm.trans b.kind) (by decide)
  · have hchain := hclean.names
    cases before with
    | nil =>
      obtain ⟨rfl, _⟩ := List.cons.inj heq
      exact (List.isChain_cons_cons.mp hchain).1 hkind
    | cons v before =>
      obtain ⟨rfl, _⟩ := List.cons.inj heq
      exact (List.isChain_cons_cons.mp hchain).1 hkind

/-- A word is no brace. -/
theorem isBrace_word (h : Inside b (t :: ts)) (hword : Parser.isWord t.text = true) :
    t.kind.isBrace = false := by
  obtain ⟨stack, before, heq, _, _, hclean⟩ := h
  have hmem : t ∈ before ++ [b.brace] := by
    cases before with
    | nil => exact (List.cons.inj heq).1 ▸ List.mem_singleton_self _
    | cons v before => exact (List.cons.inj heq).1 ▸ List.mem_cons_self
  obtain ⟨hopening, hclosing⟩ := hclean.marks.isBracket hmem hword
  exact Kind.isBrace_of_not_bracket hopening hclosing

end Stretch.Inside

namespace Parser

variable {α β : Type}

/-- A step from a cursor with a property, inside a body, ends inside it. -/
def StaysIf (P : Cursor → Prop) (p : Parser α) : Prop :=
  ∀ (b : BodyClose) (s : Cursor), P s → Inside b s.rest → Inside b (p.run s).2.rest

/-- A step that begins inside a body ends inside it. -/
def Stays (p : Parser α) : Prop :=
  ∀ (b : BodyClose) (s : Cursor), Inside b s.rest → Inside b (p.run s).2.rest

namespace StaysIf

variable {P : Cursor → Prop} {p : Parser β} {f : β → Parser α}

/-- What follows stays inside wherever it begins there. -/
theorem bind (hp : StaysIf P p) (hf : ∀ a, Stays (f a)) : StaysIf P (p >>= f) :=
  fun b s hs h => hf _ b _ (hp b s hs h)

/-- What is seen may be used in what follows. -/
theorem look_bind {g : Cursor → β} (hf : ∀ a, StaysIf (fun s => P s ∧ g s = a) (f a)) :
    StaysIf P (look g >>= f) :=
  fun b s hs h => hf (g s) b s ⟨hs, rfl⟩ h

/-- A step that may be left out. -/
theorem when_bind {c : Prop} [Decidable c] {q : Parser α} (hp : c → StaysIf P p) (hq : Stays q) :
    StaysIf P (if c then p >>= fun _ => q else q) := by
  split
  · rename_i hc
    exact (hp hc).bind fun _ => hq
  · exact fun b s _ => hq b s

/-- The next token may be taken if it is no brace. -/
theorem skipOne (h : ∀ (b : BodyClose) (s : Cursor) (t : Token) (ts : List Token), P s →
    s.rest = t :: ts → Inside b (t :: ts) → t.kind.isBrace = false) :
    StaysIf P Parser.skipOne := by
  intro b s hs hin
  change Inside b s.next.rest
  rw [Cursor.rest_next]
  cases hrest : s.rest with
  | nil => exact absurd hrest hin.ne_nil
  | cons t ts =>
    rw [hrest] at hin
    exact hin.tail (h b s t ts hs hrest hin)

end StaysIf

namespace Stays

variable {p q : Parser α}

/-- What always stays inside does so under any condition. -/
theorem staysIf (h : Stays p) {P : Cursor → Prop} : StaysIf P p :=
  fun b s _ => h b s

theorem pure (a : α) : Stays (Pure.pure a : Parser α) :=
  fun _ _ h => h

theorem bind {p : Parser β} {f : β → Parser α} (hp : Stays p) (hf : ∀ a, Stays (f a)) :
    Stays (p >>= f) :=
  fun b s h => hf _ b _ (hp b s h)

theorem look (g : Cursor → α) : Stays (Parser.look g) :=
  fun _ _ h => h

theorem newNode : Stays Parser.newNode :=
  fun _ _ h => h

theorem complain (message : String) : Stays (Parser.complain message) :=
  fun _ _ h => h

theorem complainExpected (what : String) : Stays (Parser.complainExpected what) :=
  fun _ _ h => h

theorem look_bind {g : Cursor → β} {f : β → Parser α} (hf : ∀ a, StaysIf (g · = a) (f a)) :
    Stays (Parser.look g >>= f) :=
  fun b s h => hf (g s) b s rfl h

/-- A choice stays inside if both of its cases do. -/
theorem ite {c : Prop} [Decidable c] (hp : Stays p) (hq : Stays q) :
    Stays (if c then p else q) := by
  split
  · exact hp
  · exact hq

/-- Two ways of reading a part, and one way to go on. -/
theorem ite_bind {c : Prop} [Decidable c] {p q : Parser β} {f : β → Parser α} (hp : Stays p)
    (hq : Stays q) (hf : ∀ a, Stays (f a)) : Stays (if c then p >>= f else q >>= f) :=
  .ite (hp.bind hf) (hq.bind hf)

/-- A step that may be left out. -/
theorem when_bind {c : Prop} [Decidable c] {p : Parser β} {q : Parser α} (hp : Stays p)
    (hq : Stays q) : Stays (if c then p >>= fun _ => q else q) :=
  .ite (hp.bind fun _ => hq) hq

/-- What is done only where the next token has a kind. -/
theorem at?_bind {k : Kind} {f : Bool → Parser α} (ht : StaysIf (·.kind? = some k) (f true))
    (hf : Stays (f false)) : Stays (at? k >>= f) := by
  intro b s h
  change Inside b ((f (s.kind? == some k)).run s).2.rest
  by_cases hk : s.kind? = some k
  · rw [hk, beq_self_eq_true]
    exact ht b s hk h
  · rw [beq_eq_false_iff_ne.mpr hk]
    exact hf b s h

/-- What is done only where a token of a kind was taken. -/
theorem eat_bind {k : Kind} {f : Bool → Parser α}
    (ht : StaysIf (·.kind? = some k) (skipOne >>= fun _ => f true)) (hf : Stays (f false)) :
    Stays (eat k >>= f) := by
  have h : Stays (at? k >>= fun found => (do
      if found then
        skipOne
        return true
      else return false) >>= f) := .at?_bind ht hf
  exact h

end Stays

/-! ### Single steps -/

/-- To skip one token that is no brace is to stay inside. -/
theorem skipOne_stays {k : Kind} (hk : k.isBrace = false) :
    StaysIf (·.kind? = some k) skipOne := by
  refine .skipOne fun _ s t ts hs hrest _ => ?_
  rw [Cursor.kind?, hrest, List.head?_cons, Option.map_some, Option.some_inj] at hs
  rwa [hs]

/-- To eat a token that is no brace is to stay inside. -/
theorem eat_stays {k : Kind} (hk : k.isBrace = false) : Stays (eat k) :=
  .at?_bind ((skipOne_stays hk).bind fun _ => .pure true) (.pure false)

theorem expect_stays {k : Kind} (hk : k.isBrace = false) (what : String) :
    Stays (expect k what) :=
  .bind (eat_stays hk) fun _ => .ite (.pure _) (.bind (.complainExpected what) fun _ => .pure _)

/-- A name is no brace. -/
theorem expectIdent_stays (what : String) : Stays (expectIdent what) := by
  refine .look_bind fun head => ?_
  have hmissing : Stays (do complainExpected what; return none : Parser (Option String)) :=
    .bind (.complainExpected what) fun _ => .pure _
  cases head with
  | none => exact hmissing.staysIf
  | some t =>
    dsimp only
    split
    · rename_i hkind
      refine .bind (.skipOne fun _ s u us hs hrest _ => ?_) fun _ => .pure _
      rw [hrest, List.head?_cons, Option.some_inj] at hs
      rw [hs, hkind]
      rfl
    · exact hmissing.staysIf

/-! ### Stretches -/

/-- Tokens are taken and the cursor stays inside if the count does not go beyond the braces. -/
theorem takeCounted_stays {P : Cursor → Prop} {count : List Token → Nat}
    (h : ∀ (b : BodyClose) (s : Cursor), P s → Inside b s.rest →
      Inside b (s.rest.drop (count s.rest))) : StaysIf P (takeCounted count) := by
  intro b s hs hin
  change Inside b (s.skip (count s.rest)).rest
  rw [Cursor.rest_skip]
  exact h b s hs hin

theorem skipStatement_stays : Stays skipStatement :=
  .bind (fun b s => takeCounted_stays (P := fun _ => True) (fun _ _ _ h => h.drop_statement) b s
    trivial) fun _ => .pure _

/-- A group that begins inside ends inside. -/
theorem skipGroup_stays {k : Kind} (hk : k.isOpening = true) :
    StaysIf (·.kind? = some k) skipGroup := by
  refine .look_bind fun closes => .bind (takeCounted_stays fun b s hs h => ?_) fun _ =>
    .ite (.pure _) (.complain _)
  obtain ⟨t, ts, hrest, rfl⟩ := Cursor.exists_of_kind? hs.1
  rw [hrest] at h ⊢
  exact h.drop_group hk

/-- An expression that begins inside ends inside. -/
theorem expression_stays (stops : List Kind) : Stays (expression stops) := by
  refine .bind (fun b s => takeCounted_stays (P := fun _ => True)
    (fun _ _ _ h => h.drop_expression stops) b s trivial) fun ts => ?_
  cases ts with
  | nil => exact .pure _
  | cons t ts => exact .pure _

/-- A qualified name holds no brace. -/
theorem nameTail_stays {b : BodyClose} {ts : List Token} (h : Inside b ts) :
    Inside b (ts.drop (nameTail ts)) := by
  fun_induction nameTail ts with
  | case1 d i ts hkinds ih =>
    rw [Nat.add_comm, List.drop_succ_cons, List.drop_succ_cons]
    refine ih ((h.tail ?_).tail ?_)
    · rw [hkinds.1]
      rfl
    · rw [hkinds.2]
      rfl
  | case2 => exact h
  | case3 => exact h

theorem qualifiedName_stays (what : String) : Stays (qualifiedName what) := by
  refine .at?_bind (.bind (takeCounted_stays fun b s hs h => ?_) fun _ => .pure _)
    (.bind (.complainExpected what) fun _ => .pure _)
  obtain ⟨t, ts, hrest, hkind⟩ := Cursor.exists_of_kind? hs
  rw [hrest] at h ⊢
  rw [name, Nat.add_comm, List.drop_succ_cons]
  refine nameTail_stays (h.tail ?_)
  rw [hkind]
  rfl

theorem typeRef_stays (what : String) : Stays (typeRef what) := by
  refine .bind (.look _) fun _ => .bind .newNode fun _ => .bind (qualifiedName_stays what) fun name => ?_
  cases name with
  | none => exact .pure _
  | some name => exact .bind (.look _) fun _ => .pure _

/-! ### Repetition -/

/-- A list stays inside if its items do and its separator is no brace. -/
theorem sepByFrom_stays {sep : Kind} (hsep : sep.isBrace = false) {item : Parser (Option α)}
    (hitem : Stays item) (b : BodyClose) (s : Cursor) (h : Inside b s.rest) :
    Inside b (sepByFrom sep item s).2.rest := by
  fun_induction sepByFrom sep item s with
  | case1 s r hnone => exact hitem b s h
  | case2 s r a hsome hkind more ih =>
    have hafter := hitem b s h
    exact ih (skipOne_stays hsep b r.2 hkind hafter)
  | case3 s r a hsome hkind => exact hitem b s h

theorem sepBy_stays {sep : Kind} (hsep : sep.isBrace = false) {item : Parser (Option α)}
    (hitem : Stays item) : Stays (sepBy sep item) :=
  sepByFrom_stays hsep hitem

/-- A repetition stays inside if its items do. -/
theorem manyWhileFrom_stays {p : Kind → Bool} {item : Parser (Option α)}
    (hitem : StaysIf (·.kind?.any p = true) item) (b : BodyClose) (s : Cursor)
    (h : Inside b s.rest) : Inside b (manyWhileFrom p item s).2.rest := by
  fun_induction manyWhileFrom p item s with
  | case1 s hkind r hlt more ih => exact ih (hitem b s hkind h)
  | case2 s hkind r hlt => exact hitem b s hkind h
  | case3 s hkind => exact h

theorem typeRefs_stays : Stays typeRefs :=
  sepBy_stays rfl (typeRef_stays _)

end Parser

end NedWorkspace
