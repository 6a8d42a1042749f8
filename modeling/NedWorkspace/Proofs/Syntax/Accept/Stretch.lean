/-
# Stretches that are written are read

An expression is taken up to what ends it, a qualified name up to what does not go on with it, and a group
up to the bracket that closes it. Each is taken whole, whatever stands inside its brackets.

A parser of a piece that may be followed by several things asks of what follows only that it does not go
on with the piece: `Token.Clear` says which kinds must not come next, `Token.Ends` which must.
-/

import NedWorkspace.Proofs.Map.Related
import NedWorkspace.Proofs.Syntax.Echo
import NedWorkspace.Proofs.Syntax.Grammar
import NedWorkspace.Proofs.Syntax.Takes

namespace NedWorkspace

open Rule Stretch Echoing

/-- The next token has none of the kinds. -/
def Token.Clear (ks : List Kind) (ts : List Token) : Prop :=
  ∀ k ∈ ks, Token.next? ts ≠ some k

/-- The next token ends an expression. -/
def Token.Ends (stops : List Kind) (ts : List Token) : Prop :=
  ∀ k, Token.next? ts = some k → k ∈ stops ∨ k.isClosing = true

namespace Token

variable {ks : List Kind} {t : Token} {ts : List Token}

@[simp] theorem clear_cons : Clear ks (t :: ts) ↔ t.kind ∉ ks := by
  simp only [Clear, next?_cons, ne_eq, Option.some_inj]
  exact ⟨fun h hk => h _ hk rfl, fun h k hk heq => h (heq ▸ hk)⟩

theorem Clear.mono {ks' : List Kind} (h : Clear ks ts) (hsub : ks' ⊆ ks) : Clear ks' ts :=
  fun k hk => h k (hsub hk)

theorem Clear.ne (h : Clear ks ts) {k : Kind} (hk : k ∈ ks) : next? ts ≠ some k :=
  h k hk

theorem ends_cons (h : t.kind ∈ ks ∨ t.kind.isClosing = true) : Ends ks (t :: ts) :=
  fun _ hk => Option.some.inj hk ▸ h

/-- What is left behind a piece that has a token is shorter than what stood before it. -/
theorem length_lt_cons_append (t : Token) (ts us : List Token) :
    us.length < (t :: (ts ++ us)).length := by
  simp only [List.length_cons, List.length_append]
  omega

end Token

/-! ### Paired brackets are taken whole -/

namespace Stretch

variable {stops : List Kind} {ts : List Token}

/-- Balanced tokens behind balanced tokens. -/
theorem Paired.append {us : List Token} (hts : Paired stops ts) (hus : Paired stops us) :
    Paired stops (ts ++ us) := by
  induction hts with
  | nil => exact hus
  | token plain unclosing free _ ih => exact .token plain unclosing free (ih hus)
  | group shape free inside _ _ ih =>
    rw [List.cons_append, List.append_assoc, List.cons_append]
    exact .group shape free inside (ih hus)

/-- Tokens that hold none of some kinds hold none of fewer kinds. -/
theorem Paired.mono {stops' : List Kind} (h : Paired stops ts) (hsub : stops' ⊆ stops) :
    Paired stops' ts := by
  induction h with
  | nil => exact .nil
  | token plain unclosing free _ ih => exact .token plain unclosing (fun hk => free (hsub hk)) (ih hsub)
  | group shape free inside _ _ ih => exact .group shape (fun hk => free (hsub hk)) inside (ih hsub)

/-- Inside brackets nothing ends an expression, and outside them the kinds in `stops` do. -/
theorem expression_append {s : List Kind} (h : Paired s ts) {depth : Nat}
    (hs : depth = 0 → stops ⊆ s) (us : List Token) :
    expression stops depth (ts ++ us) = ts.length + expression stops depth us := by
  induction h generalizing depth us with
  | nil => simp
  | @token s t ts plain unclosing free _ ih =>
    have hgo : ¬ (depth = 0 ∧ (t.kind ∈ stops ∨ t.kind.isClosing = true)) := by
      rintro ⟨hdepth, hstop | hclosing⟩
      · exact free (hs hdepth hstop)
      · simp [unclosing] at hclosing
    rw [List.cons_append, expression, if_neg hgo, depthAfter_plain plain unclosing, ih hs,
      List.length_cons]
    omega
  | @group s o c inner ts shape free _ _ ihinner ih =>
    have hopening := Kind.isOpening_of_closer? shape
    have hclosing := Kind.isClosing_of_closer? shape
    have hgo : ¬ (depth = 0 ∧ (o.kind ∈ stops ∨ o.kind.isClosing = true)) := by
      rintro ⟨hdepth, hstop | hclosing⟩
      · exact free (hs hdepth hstop)
      · simp [Kind.isOpening_of_isClosing hclosing] at hopening
    rw [List.cons_append, List.append_assoc, List.cons_append, expression, if_neg hgo,
      depthAfter_opening hopening, ihinner (by simp), expression, if_neg (by simp),
      depthAfter_closing hclosing, Nat.add_sub_cancel, ih hs, List.length_cons, List.length_append,
      List.length_cons]
    omega

/-- The end of a group is not among balanced tokens inside of it. -/
theorem group_append {s : List Kind} (h : Paired s ts) (depth : Nat) (us : List Token) :
    group (depth + 1) (ts ++ us) = ts.length + group (depth + 1) us ∧
      groupCloses (depth + 1) (ts ++ us) = groupCloses (depth + 1) us := by
  induction h generalizing depth us with
  | nil => simp
  | @token s t ts plain unclosing _ _ ih =>
    obtain ⟨hlength, hcloses⟩ := ih depth us
    rw [List.cons_append, group, groupCloses, depthAfter_plain plain unclosing, if_neg (by omega),
      hlength, hcloses, List.length_cons]
    exact ⟨by omega, by simp⟩
  | @group s o c inner ts shape _ _ _ ihinner ih =>
    obtain ⟨hlength, hcloses⟩ := ih depth us
    obtain ⟨hlength', hcloses'⟩ := ihinner (depth + 1) (c :: (ts ++ us))
    have hclosing := Kind.isClosing_of_closer? shape
    rw [List.cons_append, List.append_assoc, List.cons_append, group, groupCloses,
      depthAfter_opening (Kind.isOpening_of_closer? shape), if_neg (by omega), hlength', hcloses',
      group, groupCloses, depthAfter_closing hclosing, Nat.add_sub_cancel, if_neg (by omega), hlength,
      hcloses]
    exact ⟨by simp only [List.length_cons, List.length_append]; omega, by simp⟩

end Stretch

/-! ### First tokens -/

namespace Token

variable {P : Kind → Prop} {ts us : List Token}

/-- The first token, if there is one, has a kind in `P`. -/
def Leads (P : Kind → Prop) (ts : List Token) : Prop :=
  ∀ k, next? ts = some k → P k

/-- A part that may be empty before a clear place. -/
theorem Leads.clear_append {ks : List Kind} (hts : Leads P ts) (hus : Clear ks us)
    (hks : ∀ k ∈ ks, ¬ P k) : Clear ks (ts ++ us) := by
  cases ts with
  | nil => exact hus
  | cons t ts => exact clear_cons.mpr fun hk => hks _ hk (hts _ rfl)

end Token

namespace Rule

variable {α : Type} {W : Rule α} {k : Kind} {ts : List Token}

theorem Perhaps.leads {P : Kind → Prop} {a : Option α} (h : Perhaps W a ts)
    (hW : ∀ {a ts}, W a ts → Token.Leads P ts) : Token.Leads P ts := by
  cases h with
  | none => exact fun k hk => absurd hk (by simp)
  | some piece => exact hW piece

/-- What may be left out is either missing or there. -/
theorem Perhaps.cases {a : Option α} (h : Perhaps W a ts) :
    a = .none ∧ ts = [] ∨ ∃ b, a = .some b ∧ W b ts := by
  cases h with
  | none => exact .inl ⟨rfl, rfl⟩
  | some piece => exact .inr ⟨_, rfl, piece⟩

/-- Written one list after the other. -/
theorem Many.append {as bs : List α} {us : List Token} (has : Many W as ts) (hbs : Many W bs us) :
    Many W (as ++ bs) (ts ++ us) := by
  induction has with
  | nil => exact hbs
  | cons first _ ih =>
    rw [List.cons_append, List.append_assoc]
    exact .cons first ih

theorem Clause.leads {P : Kind → Prop} {W : Rule (List α)} {as : List α} (h : Clause W as ts)
    (hW : ∀ {as ts}, W as ts → Token.Leads P ts) : Token.Leads P ts := by
  cases h with
  | none => exact fun k hk => absurd hk (by simp)
  | some pieces => exact hW pieces

theorem After.leads {a : α} (h : After k W a ts) : Token.Leads (· = k) ts := by
  obtain ⟨mark, _⟩ := h
  exact fun l hl => (Option.some.inj hl).symm.trans mark

theorem Between.leads {l : Kind} {a : α} (h : Between k l W a ts) : Token.Leads (· = k) ts := by
  obtain ⟨opening, _, _⟩ := h
  exact fun l hl => (Option.some.inj hl).symm.trans opening

theorem Flag.leads {b : Bool} (h : Flag k b ts) : Token.Leads (· = k) ts := by
  cases h with
  | no => exact fun l hl => absurd hl (by simp)
  | yes word => exact fun l hl => (Option.some.inj hl).symm.trans word

/-- A choice is one token, or none. -/
theorem Choice.cases {f : Kind → Option α} {a : Option α} (h : Choice f a ts) :
    a = .none ∧ ts = [] ∨ ∃ t b, a = .some b ∧ f t.kind = .some b ∧ ts = [t] := by
  cases h with
  | none => exact .inl ⟨rfl, rfl⟩
  | some word => exact .inr ⟨_, _, rfl, word, rfl⟩

theorem Choice.leads {f : Kind → Option α} {a : Option α} (h : Choice f a ts) :
    Token.Leads (fun k => (f k).isSome = true) ts := by
  cases h with
  | none => exact fun l hl => absurd hl (by simp)
  | some word =>
    intro l hl
    obtain rfl := Option.some.inj hl
    simp [word]

end Rule

theorem GroupWritten.next?_append {k : Kind} {ts : List Token} (h : GroupWritten k ts)
    (us : List Token) :
    Token.next? (ts ++ us) = some k := by
  obtain ⟨rfl, _, _⟩ := h
  rfl

/-- An expression begins with a token that ends none. -/
theorem ExprWritten.exists_cons {stops : List Kind} {text : String} {ts : List Token}
    (h : ExprWritten stops text ts) :
    ∃ t more, ts = t :: more ∧ t.kind.isClosing = false ∧ t.kind ∉ stops := by
  have hne := h.ne_nil
  cases h.paired with
  | nil => exact absurd rfl hne
  | token _ unclosing free _ => exact ⟨_, _, rfl, unclosing, free⟩
  | group shape free _ _ =>
    refine ⟨_, _, rfl, ?_, free⟩
    rw [Bool.eq_false_iff]
    intro hclosing
    have hopening := Kind.isOpening_of_closer? shape
    simp [Kind.isOpening_of_isClosing hclosing] at hopening

/-- A reference to a type begins with an identifier. -/
theorem TypeRef.Written.exists_cons {r : TypeRef} {ts : List Token} (h : r.Written ts) :
    ∃ t more, ts = t :: more ∧ t.kind = .ident := by
  cases h.name with
  | single ident => exact ⟨_, _, rfl, ident⟩
  | more ident _ _ => exact ⟨_, _, rfl, ident⟩

namespace Parser

variable {ts us : List Token}

/-! ### Kept texts -/

/-- A run of tokens with paired brackets is taken up to what ends it. -/
theorem expression_takes_paired {stops stops' : List Kind} (h : Paired stops' ts) (hsub : stops ⊆ stops')
    (hus : Token.Ends stops us) : Takes (ts ++ us) us
      (· = if ts = [] then none else some (Text.trim (Token.sourceText ts))) (expression stops) := by
  have hcount : Stretch.expression stops 0 (ts ++ us) = ts.length := by
    rw [expression_append h (fun _ => hsub)]
    cases us with
    | nil => rfl
    | cons u us => rw [Stretch.expression, if_pos ⟨rfl, hus u.kind rfl⟩, Nat.add_zero]
  refine .bind_eq (takeCounted_takes hcount) ?_
  cases ts with
  | nil => exact .pure rfl
  | cons t ts => exact .pure rfl

/-- An expression is read up to the first token that ends it. -/
theorem expression_takes {stops stops' : List Kind} {text : String} (h : ExprWritten stops' text ts)
    (hsub : stops ⊆ stops') (hus : Token.Ends stops us) :
    Takes (ts ++ us) us (· = some text) (expression stops) := by
  refine (expression_takes_paired h.paired hsub hus).imp fun found hfound => ?_
  rw [hfound, if_neg h.ne_nil, h.text_eq, Token.trim_sourceText h.sound]

/-- An expression that may be missing. -/
theorem expression_takes_perhaps {stops : List Kind} {text : Option String}
    (h : Perhaps (ExprWritten stops) text ts) (hus : Token.Ends stops us) :
    Takes (ts ++ us) us (· = text) (expression stops) := by
  cases h with
  | none => exact expression_takes_paired .nil (List.Subset.refl _) hus
  | some h => exact expression_takes h (List.Subset.refl _) hus

/-- A qualified name goes on as long as points do. -/
theorem nameTail_append (h : IsName ts) (hus : Token.Clear [.mark .dot] us) :
    ∃ t more, ts = t :: more ∧ t.kind = .ident ∧ nameTail (more ++ us) = more.length := by
  induction h with
  | @single t ident =>
    refine ⟨t, [], rfl, ident, ?_⟩
    match us, hus with
    | [], _ => rfl
    | [u], _ => rfl
    | u :: v :: us, hus =>
      have hdot : u.kind ≠ .mark .dot := fun hdot => hus _ List.mem_cons_self (congrArg some hdot)
      exact if_neg fun hpair => hdot hpair.1
  | @more t d ts ident dot _ ih =>
    obtain ⟨i, more, rfl, hi, hmore⟩ := ih
    refine ⟨t, d :: i :: more, rfl, ident, ?_⟩
    rw [List.cons_append, List.cons_append, nameTail, if_pos ⟨dot, hi⟩, hmore, List.length_cons,
      List.length_cons]
    omega

/-- A qualified name is read as it is written. -/
theorem qualifiedName_takes {text : String} (h : NameWritten text ts)
    (hus : Token.Clear [.mark .dot] us) (what : String) :
    Takes (ts ++ us) us (· = some text) (qualifiedName what) := by
  obtain ⟨t, more, rfl, hident, htail⟩ := nameTail_append h.name hus
  have hcount : Stretch.name (t :: more ++ us) = (t :: more).length := by
    rw [List.cons_append, Stretch.name, htail, List.length_cons, Nat.add_comm]
  refine .bind_eq (at?_takes_true hident) (.bind_eq (takeCounted_takes hcount) (.pure ?_))
  rw [h.text_eq, Token.trim_sourceText h.sound]

theorem typeRef_takes {r : TypeRef} (h : r.Written ts) (hus : Token.Clear [.mark .dot] us)
    (what : String) : Takes (ts ++ us) us (Echo Eq · (some r)) (typeRef what) :=
  .andThen .any fun _ => .andThen .newNode fun _ => .bind_eq (qualifiedName_takes h hus what)
    (.andThen .any fun _ => .pure (.some rfl))

/-- Pieces with a separator between them, if each is read where the separator or the end follows. -/
theorem sepBy_takes {α β : Type} {sep : Kind} {W : Rule β} {E : α → β → Prop}
    {item : Parser (Option α)} {bs : List β} (good : List Token → Prop) (h : SepBy sep W bs ts)
    (hitem : ∀ {b ts us}, W b ts → good us → Takes (ts ++ us) us (Option.Rel E · (some b)) item)
    (hsep : ∀ (t : Token) (us : List Token), t.kind = sep → good (t :: us)) (hgood : good us)
    (hus : Token.next? us ≠ some sep) : Takes (ts ++ us) us (List.Forall₂ E · bs) (sepBy sep item) := by
  induction h with
  | last piece => exact sepBy_takes_last (hitem piece hgood) hus
  | more first mark _ ih =>
    rw [List.append_assoc, List.cons_append]
    exact sepBy_takes_cons (hitem first (hsep _ _ mark)) mark ih

theorem typeRefs_takes {rs : List TypeRef} (h : SepBy (.mark .comma) TypeRef.Written rs ts)
    (hus : Token.Clear [.mark .dot, .mark .comma] us) :
    Takes (ts ++ us) us (Echo Eq · rs) typeRefs :=
  sepBy_takes (Token.Clear [.mark .dot]) h (fun hr hus => typeRef_takes hr hus _)
    (fun t us ht => by simp [ht]) (hus.mono (by simp)) (hus.ne (by simp))

/-! ### Groups -/

/-- A group is passed over. -/
theorem skipGroup_takes {k : Kind} (h : GroupWritten k ts) :
    Takes (ts ++ us) us (fun _ => True) skipGroup := by
  obtain @⟨o, c, inner, rfl, shape, inside⟩ := h
  have hopening := depthAfter_opening (Kind.isOpening_of_closer? shape) 0
  have hclosing := depthAfter_closing (Kind.isClosing_of_closer? shape) 1
  obtain ⟨hlength, hcloses⟩ := group_append inside 0 (c :: us)
  have htokens : o :: (inner ++ [c]) ++ us = o :: (inner ++ c :: us) := by simp
  have hcount : Stretch.group 0 (o :: (inner ++ [c]) ++ us) = (o :: (inner ++ [c])).length := by
    rw [htokens, Stretch.group, hopening, if_neg (by omega), hlength, Stretch.group, hclosing,
      if_pos rfl]
    simp only [List.length_cons, List.length_append, List.length_nil]
    omega
  have hcloses : groupCloses 0 (o :: (inner ++ [c]) ++ us) = true := by
    rw [htokens, groupCloses, hopening, hcloses, groupCloses, hclosing]
    simp
  exact .bind_eq (a := true) (.look fun s hs => by rw [hs, hcloses])
    (.andThen (takeCounted_takes hcount) fun _ => .pure trivial)

end Parser

end NedWorkspace
