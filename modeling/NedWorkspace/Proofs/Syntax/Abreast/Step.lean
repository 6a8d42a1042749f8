/-
# Steps abreast

`Parser.Abreast` relates two steps that take cursors abreast to cursors abreast and give related results.
It goes through a parser by the rules `pure` and `bind`, one lemma for each parser. Where a parser keeps
what it takes, the relation is `Parser.AbreastIf`, under a condition on the two cursors, or
`Parser.AbreastWithin`, with an invariant of the steps of a loop.
-/

import NedWorkspace.Proofs.Syntax.Abreast.Cursor
import NedWorkspace.Proofs.Syntax.Echo

namespace NedWorkspace

namespace Parser

variable {α β γ δ : Type}

/-- Two steps that give related results and keep cursors abreast. -/
def Abreast (L : Likeness) (R : α → β → Prop) (p : Parser α) (q : Parser β) : Prop :=
  ∀ (before : List String) (s t : Cursor), s.Abreast L before t →
    R (p.run s).1 (q.run t).1 ∧ (p.run s).2.Abreast L before (q.run t).2

/-- Two steps that give related results and keep cursors abreast of which something is known. -/
def AbreastIf (L : Likeness) (P : Cursor → Cursor → Prop) (R : α → β → Prop) (p : Parser α)
    (q : Parser β) : Prop :=
  ∀ (before : List String) (s t : Cursor), s.Abreast L before t → P s t →
    R (p.run s).1 (q.run t).1 ∧ (p.run s).2.Abreast L before (q.run t).2

/-- Two steps that give related results, keep cursors abreast, and keep what is known of them. -/
def AbreastWithin (L : Likeness) (I : Cursor → Cursor → Prop) (R : α → β → Prop) (p : Parser α)
    (q : Parser β) : Prop :=
  ∀ (before : List String) (s t : Cursor), s.Abreast L before t → I s t →
    R (p.run s).1 (q.run t).1 ∧ (p.run s).2.Abreast L before (q.run t).2 ∧ I (p.run s).2 (q.run t).2

variable {L : Likeness}

namespace Abreast

variable {R : α → β → Prop} {S : γ → δ → Prop}

/-- Related results at hand are read abreast. -/
theorem pure {a : α} {b : β} (h : R a b) :
    Abreast L R (Pure.pure a : Parser α) (Pure.pure b : Parser β) :=
  fun _ _ _ hst => ⟨h, hst⟩

/-- Parsers in a row are abreast if each of them is. -/
theorem bind {p : Parser γ} {q : Parser δ} {f : γ → Parser α} {g : δ → Parser β}
    (hp : Abreast L S p q) (hf : ∀ c d, S c d → Abreast L R (f c) (g d)) :
    Abreast L R (p >>= f) (q >>= g) := by
  intro before s t h
  obtain ⟨hresult, hafter⟩ := hp before s t h
  exact hf _ _ hresult before _ _ hafter

/-- A step whose results are the same. -/
theorem bind_eq {p q : Parser γ} {f : γ → Parser α} {g : γ → Parser β} (hp : Abreast L Eq p q)
    (hf : ∀ c, Abreast L R (f c) (g c)) : Abreast L R (p >>= f) (q >>= g) :=
  hp.bind fun c _ hcd => hcd ▸ hf c

/-- Two ways of reading a part, and one way to go on. -/
theorem ite_bind {c : Prop} [Decidable c] {p p' : Parser γ} {q q' : Parser δ} {f : γ → Parser α}
    {g : δ → Parser β} (hp : Abreast L S p q) (hp' : Abreast L S p' q')
    (hf : ∀ c d, S c d → Abreast L R (f c) (g d)) :
    Abreast L R (if c then p >>= f else p' >>= f) (if c then q >>= g else q' >>= g) := by
  split
  · exact hp.bind hf
  · exact hp'.bind hf

/-- Steps that may be left out before one way to go on. -/
theorem when {c : Prop} [Decidable c] {x x' : Parser α} {y y' : Parser β} (h : Abreast L R x y)
    (h' : Abreast L R x y → Abreast L R x' y') :
    Abreast L R (if c then x' else x) (if c then y' else y) := by
  split
  · exact h' h
  · exact h

/-- A step that may be left out. -/
theorem when_bind {c : Prop} [Decidable c] {p : Parser γ} {q : Parser δ} {x : Parser α}
    {y : Parser β} (hp : Abreast L S p q) (h : Abreast L R x y) :
    Abreast L R (if c then p >>= fun _ => x else x) (if c then q >>= fun _ => y else y) :=
  .when h fun h => hp.bind fun _ _ _ => h

/-- To look without moving is to be abreast if what is seen is related. -/
theorem look {f : Cursor → α} {g : Cursor → β}
    (h : ∀ before s t, s.Abreast L before t → R (f s) (g t)) :
    Abreast L R (Parser.look f) (Parser.look g) :=
  fun before s t hst => ⟨h before s t hst, hst⟩

/-- Numbers of nodes and places do not correspond. -/
theorem start_bind {f : Nat → Parser α} {g : Nat → Parser β}
    (h : ∀ m n, Abreast L R (f m) (g n)) : Abreast L R (start >>= f) (start >>= g) :=
  bind (S := fun _ _ => True) (look fun _ _ _ _ => trivial) fun m n _ => h m n

/-- Spans may differ. -/
theorem spanFrom_bind {m n : Nat} {f : Span → Parser α} {g : Span → Parser β}
    (h : ∀ a b, Abreast L R (f a) (g b)) : Abreast L R (spanFrom m >>= f) (spanFrom n >>= g) :=
  bind (S := fun _ _ => True) (look fun _ _ _ _ => trivial) fun a b _ => h a b

/-- Numbers of nodes may differ. -/
theorem newNode_bind {f : NodeId → Parser α} {g : NodeId → Parser β}
    (h : ∀ m n, Abreast L R (f m) (g n)) : Abreast L R (newNode >>= f) (newNode >>= g) :=
  bind (S := fun _ _ => True) (fun _ _ _ hst => ⟨trivial, hst.rest, hst.messages⟩)
    fun m n _ => h m n

/-- What is done only where the next token has a kind. -/
theorem at?_bind {k : Kind} {f : Bool → Parser α} {g : Bool → Parser β}
    (ht : AbreastIf L (fun s _ => s.kind? = some k) R (f true) (g true))
    (hf : Abreast L R (f false) (g false)) : Abreast L R (at? k >>= f) (at? k >>= g) := by
  intro before s t h
  change R ((f (s.kind? == some k)).run s).1 ((g (t.kind? == some k)).run t).1 ∧
    ((f (s.kind? == some k)).run s).2.Abreast L before ((g (t.kind? == some k)).run t).2
  rw [← h.kind?]
  by_cases hk : s.kind? = some k
  · rw [hk, beq_self_eq_true]
    exact ht before s t h hk
  · rw [beq_eq_false_iff_ne.mpr hk]
    exact hf before s t h

/-- What is done only behind a token of a kind. -/
theorem eat_bind {k : Kind} {f : Bool → Parser α} {g : Bool → Parser β}
    (ht : AbreastIf L (Cursor.Behind L k) R (f true) (g true))
    (hf : Abreast L R (f false) (g false)) : Abreast L R (eat k >>= f) (eat k >>= g) := by
  have htaken : AbreastIf L (fun s _ => s.kind? = some k) R (skipOne >>= fun _ => f true)
      (skipOne >>= fun _ => g true) := fun before s t h hk => ht before _ _ h.next (h.behind_next hk)
  have h : Abreast L R (at? k >>= fun found => (do
        if found then
          skipOne
          return true
        else return false) >>= f)
      (at? k >>= fun found => (do
        if found then
          skipOne
          return true
        else return false) >>= g) := .at?_bind htaken hf
  exact h

/-- What is read only behind a token of a kind, and one way to go on. -/
theorem eat_ite_bind {k : Kind} {p p' : Parser γ} {q q' : Parser δ} {f : Bool → γ → Parser α}
    {g : Bool → δ → Parser β} (hp : AbreastIf L (Cursor.Behind L k) S p q) (hp' : Abreast L S p' q')
    (hf : ∀ found c d, S c d → Abreast L R (f found c) (g found d)) :
    Abreast L R (eat k >>= fun found => if found then p >>= f found else p' >>= f found)
      (eat k >>= fun found => if found then q >>= g found else q' >>= g found) := by
  refine .eat_bind (fun before s t h hbehind => ?_) (hp'.bind (hf false))
  obtain ⟨hresult, hafter⟩ := hp before s t h hbehind
  exact hf true _ _ hresult before _ _ hafter

end Abreast

namespace AbreastIf

variable {P Q : Cursor → Cursor → Prop} {R : α → β → Prop} {S : γ → δ → Prop} {p : Parser γ}
  {q : Parser δ}

theorem bind {f : γ → Parser α} {g : δ → Parser β} (hp : AbreastIf L P S p q)
    (hf : ∀ c d, S c d → Abreast L R (f c) (g d)) : AbreastIf L P R (p >>= f) (q >>= g) := by
  intro before s t h hP
  obtain ⟨hresult, hafter⟩ := hp before s t h hP
  exact hf _ _ hresult before _ _ hafter

theorem mono (hp : AbreastIf L Q S p q)
    (hPQ : ∀ {before s t}, s.Abreast L before t → P s t → Q s t) : AbreastIf L P S p q :=
  fun before s t h hP => hp before s t h (hPQ h hP)

/-- What is known of all cursors abreast is no condition. -/
theorem abreast (hp : AbreastIf L P S p q) (hP : ∀ {before s t}, s.Abreast L before t → P s t) :
    Abreast L S p q :=
  fun before s t h => hp before s t h (hP h)

end AbreastIf

namespace AbreastWithin

variable {I : Cursor → Cursor → Prop} {R : α → β → Prop} {S : γ → δ → Prop} {p : Parser γ}
  {q : Parser δ}

/-- Nothing need be known of the cursors behind a loop. -/
theorem abreastIf (h : AbreastWithin L I S p q) : AbreastIf L I S p q :=
  fun before s t hst hI => ⟨(h before s t hst hI).1, (h before s t hst hI).2.1⟩

theorem pure {a : α} {b : β} (h : R a b) :
    AbreastWithin L I R (Pure.pure a : Parser α) (Pure.pure b : Parser β) :=
  fun _ _ _ hst hI => ⟨h, hst, hI⟩

theorem bind {f : γ → Parser α} {g : δ → Parser β} (hp : AbreastWithin L I S p q)
    (hf : ∀ c d, S c d → AbreastWithin L I R (f c) (g d)) :
    AbreastWithin L I R (p >>= f) (q >>= g) := by
  intro before s t h hI
  obtain ⟨hresult, hafter, hI⟩ := hp before s t h hI
  exact hf _ _ hresult before _ _ hafter hI

end AbreastWithin

/-! ### Single steps -/

theorem kind?_abreast : Abreast L Eq kind? kind? :=
  .look fun _ _ _ h => h.kind?

theorem at?_abreast (k : Kind) : Abreast L Eq (at? k) (at? k) :=
  .look fun _ _ _ h => by rw [h.kind?]

theorem skipOne_abreast : Abreast L Eq skipOne skipOne :=
  fun _ _ _ h => ⟨rfl, h.next⟩

section Count

variable {count : List Token → Nat} (hcount : ∀ {ts us : List Token},
  List.Forall₂ (fun t u : Token => t.kind = u.kind) ts us → count ts = count us)
include hcount

/-- As many tokens are taken on each side. -/
theorem takeCounted_abreast :
    Abreast L (fun ts us => ts.length = us.length) (takeCounted count) (takeCounted count) := by
  intro before s t h
  have hn := hcount h.sameKinds
  change (s.rest.take (count s.rest)).length = (t.rest.take (count t.rest)).length ∧
    (s.skip (count s.rest)).Abreast L before (t.skip (count t.rest))
  rw [hn, List.length_take, List.length_take, h.length_eq]
  exact ⟨rfl, h.skip _⟩

/-- Runs of tokens that can be kept, and are taken as such. -/
theorem takeCounted_kept : AbreastIf L (Cursor.Held L count)
    (fun ts us => ts.length = us.length ∧
      L.slice (Text.trim (Token.sourceText ts)) (Text.trim (Token.sourceText us)) ∧
      L.slice (unquote (Text.trim (Token.sourceText ts))) (unquote (Text.trim (Token.sourceText us))))
    (takeCounted count) (takeCounted count) := by
  intro before s t h hheld
  obtain ⟨hlength, hafter⟩ := takeCounted_abreast hcount before s t h
  have hrun : (takeCounted count).run t = (t.rest.take (count s.rest), t.skip (count s.rest)) := by
    rw [hcount h.sameKinds]
    rfl
  rw [hrun] at hlength hafter ⊢
  exact ⟨⟨hlength, hheld.slice⟩, hafter⟩

end Count

theorem complain_abreast (message : String) : Abreast L Eq (complain message) (complain message) :=
  fun _ _ _ h => ⟨rfl, h.complain message⟩

theorem complainExpected_abreast (what : String) :
    Abreast L Eq (complainExpected what) (complainExpected what) :=
  fun _ _ _ h => ⟨rfl, h.complainExpected what⟩

/-- A token is eaten on each side, or on neither. -/
theorem eat_abreast (k : Kind) : Abreast L Eq (eat k) (eat k) := by
  refine .bind_eq (at?_abreast k) fun found => ?_
  split
  · exact .bind_eq skipOne_abreast fun _ => .pure rfl
  · exact .pure rfl

/-- A token is missed on each side, with the same complaint, or on neither. -/
theorem expect_abreast (k : Kind) (what : String) : Abreast L Eq (expect k what) (expect k what) := by
  refine .bind_eq (eat_abreast k) fun found => ?_
  split
  · exact .pure rfl
  · exact .bind_eq (complainExpected_abreast what) fun _ => .pure rfl

/-- A name is read on each side, or missed with the same complaint. -/
theorem expectIdent_abreast (what : String) :
    Abreast L Eq (expectIdent what) (expectIdent what) := by
  have hmissing : Abreast L Eq (do complainExpected what; return none : Parser (Option String))
      (do complainExpected what; return none) :=
    .bind_eq (complainExpected_abreast what) fun _ => .pure rfl
  refine .bind (.look fun _ _ _ h => h.head?) fun a b hab => ?_
  cases hab with
  | none => exact hmissing
  | some hword =>
    dsimp only
    rw [Token.kind_of_word hword, Token.text_of_word hword]
    split
    · exact .bind_eq skipOne_abreast fun _ => .pure rfl
    · exact hmissing

theorem passOver_abreast (what : String) : Abreast L Eq (passOver what) (passOver what) :=
  .bind_eq (complainExpected_abreast what) fun _ => skipOne_abreast

/-! ### Repetition -/

/-- Items with a separator between them, with an invariant that the separator keeps as well. -/
theorem sepByFrom_within {I : Cursor → Cursor → Prop} {sep : Kind}
    (hsep : ∀ s t, I s t → s.kind? = some sep → I s.next t.next) {R : α → β → Prop}
    {item : Parser (Option α)} {item' : Parser (Option β)}
    (hitem : AbreastWithin L I (Option.Rel R) item item') (before : List String) (s : Cursor) :
    ∀ t : Cursor, s.Abreast L before t → I s t →
    List.Forall₂ R (sepByFrom sep item s).1 (sepByFrom sep item' t).1 ∧
      (sepByFrom sep item s).2.Abreast L before (sepByFrom sep item' t).2 ∧
      I (sepByFrom sep item s).2 (sepByFrom sep item' t).2 := by
  fun_induction sepByFrom sep item s with
  | case1 s r hnone =>
    intro t h hI
    obtain ⟨hresult, hafter, hI⟩ := hitem before s t h hI
    rw [hnone] at hresult
    rw [sepByFrom]
    generalize (item'.run t).1 = b at hresult
    cases hresult with
    | none => exact ⟨.nil, hafter, hI⟩
  | case2 s r a hsome hkind more ih =>
    intro t h hI
    obtain ⟨hresult, hafter, hI⟩ := hitem before s t h hI
    rw [hsome] at hresult
    rw [sepByFrom]
    generalize (item'.run t).1 = b at hresult
    cases hresult with
    | some hab =>
      obtain ⟨hmore, hend⟩ := ih _ hafter.next (hsep _ _ hI hkind)
      rw [hafter.kind?] at hkind
      simp only [if_pos hkind]
      exact ⟨.cons hab hmore, hend⟩
  | case3 s r a hsome hkind =>
    intro t h hI
    obtain ⟨hresult, hafter, hI⟩ := hitem before s t h hI
    rw [hsome] at hresult
    rw [sepByFrom]
    generalize (item'.run t).1 = b at hresult
    cases hresult with
    | some hab =>
      rw [hafter.kind?] at hkind
      simp only [if_neg hkind]
      exact ⟨.cons hab .nil, hafter, hI⟩

/-- A list with separators is read abreast as its items are, as long as a separator keeps the condition. -/
theorem sepBy_within {I : Cursor → Cursor → Prop} {sep : Kind}
    (hsep : ∀ s t, I s t → s.kind? = some sep → I s.next t.next) {R : α → β → Prop}
    {item : Parser (Option α)} {item' : Parser (Option β)}
    (hitem : AbreastWithin L I (Option.Rel R) item item') :
    AbreastWithin L I (List.Forall₂ R) (sepBy sep item) (sepBy sep item') :=
  sepByFrom_within hsep hitem

/-- A list with separators is read abreast if its items are. -/
theorem sepBy_abreast (sep : Kind) {R : α → β → Prop} {item : Parser (Option α)}
    {item' : Parser (Option β)} (hitem : Abreast L (Option.Rel R) item item') :
    Abreast L (List.Forall₂ R) (sepBy sep item) (sepBy sep item') := by
  intro before s t h
  have hwithin : AbreastWithin L (fun _ _ => True) (Option.Rel R) item item' := fun before s t h _ =>
    ⟨(hitem before s t h).1, (hitem before s t h).2, trivial⟩
  obtain ⟨hresult, hafter, -⟩ := sepBy_within (fun _ _ _ _ => trivial) hwithin before s t h trivial
  exact ⟨hresult, hafter⟩

/-- A repetition goes through as many rounds on each side. -/
theorem manyWhileFrom_abreast (p : Kind → Bool) {R : α → β → Prop} {item : Parser (Option α)}
    {item' : Parser (Option β)} (hitem : Abreast L (Option.Rel R) item item')
    (before : List String) (s : Cursor) : ∀ t : Cursor, s.Abreast L before t →
    List.Forall₂ R (manyWhileFrom p item s).1 (manyWhileFrom p item' t).1 ∧
      (manyWhileFrom p item s).2.Abreast L before (manyWhileFrom p item' t).2 := by
  fun_induction manyWhileFrom p item s with
  | case1 s hkind r hlt more ih =>
    intro t h
    obtain ⟨hresult, hafter⟩ := hitem before s t h
    obtain ⟨hmore, hend⟩ := ih _ hafter
    rw [hafter.length_eq, h.length_eq] at hlt
    rw [h.kind?] at hkind
    rw [manyWhileFrom, if_pos hkind]
    simp only [if_pos hlt]
    exact ⟨List.rel_append (option_rel_toList hresult) hmore, hend⟩
  | case2 s hkind r hlt =>
    intro t h
    obtain ⟨hresult, hafter⟩ := hitem before s t h
    rw [hafter.length_eq, h.length_eq] at hlt
    rw [h.kind?] at hkind
    rw [manyWhileFrom, if_pos hkind]
    simp only [if_neg hlt]
    exact ⟨option_rel_toList hresult, hafter⟩
  | case3 s hkind =>
    intro t h
    rw [h.kind?] at hkind
    rw [manyWhileFrom, if_neg hkind]
    exact ⟨.nil, h⟩

theorem manyWhile_abreast (p : Kind → Bool) {R : α → β → Prop} {item : Parser (Option α)}
    {item' : Parser (Option β)} (hitem : Abreast L (Option.Rel R) item item') :
    Abreast L (List.Forall₂ R) (manyWhile p item) (manyWhile p item') :=
  manyWhileFrom_abreast p hitem

/-! ### Stretches -/

theorem skipStatement_abreast : Abreast L Eq skipStatement skipStatement :=
  .bind (takeCounted_abreast fun h => Stretch.statement_congr h 0) fun _ _ _ => .pure rfl

theorem complainUnbalanced_abreast : Abreast L Eq complainUnbalanced complainUnbalanced :=
  complain_abreast _

/-- A group is passed over on each side, or complained of as unbalanced on each side. -/
theorem skipGroup_abreast : Abreast L Eq skipGroup skipGroup := by
  refine .bind_eq (.look fun _ _ _ h => Stretch.groupCloses_congr h.sameKinds 0) fun closes =>
    .bind (takeCounted_abreast fun h => Stretch.group_congr h 0) fun _ _ _ => ?_
  split
  · exact .pure rfl
  · exact complainUnbalanced_abreast

/-- Debris is passed over on each side, with the same complaint. -/
theorem skipDebris_abreast : Abreast L Eq skipDebris skipDebris := by
  refine .bind_eq skipOne_abreast fun _ =>
    .bind_eq (.look fun _ _ _ h => Stretch.debrisDepth_congr h.sameKinds 0) fun depth =>
    .bind (takeCounted_abreast fun h => Stretch.debris_congr h 0) fun _ _ _ => ?_
  split
  · exact .pure rfl
  · exact complainUnbalanced_abreast

/-- Behind an expression. -/
theorem snd_run_expression (stops : List Kind) (s : Cursor) :
    ((expression stops).run s).2 = s.skip (Stretch.expression stops 0 s.rest) := by
  rw [expression, run_bind]
  split
  · rfl
  · rfl

/-- An expression that is not kept is there or is not there. -/
theorem expression_abreast (stops : List Kind) :
    Abreast L (Option.Rel fun _ _ => True) (expression stops) (expression stops) := by
  refine .bind (takeCounted_abreast fun h => Stretch.expression_congr h stops 0) fun ts us hlength => ?_
  match ts, us, hlength with
  | [], [], _ => exact .pure .none
  | t :: ts, u :: us, _ => exact .pure (.some trivial)

/-- The text of an expression, and the same without quotes. -/
theorem expression_kept (stops : List Kind) : AbreastIf L (Cursor.Held L (Stretch.expression stops 0))
    (Option.Rel fun a b => L.slice a b ∧ L.slice (unquote a) (unquote b)) (expression stops)
    (expression stops) := by
  refine .bind (takeCounted_kept fun h => Stretch.expression_congr h stops 0) fun ts us hrun => ?_
  match ts, us, hrun with
  | [], [], _ => exact .pure .none
  | t :: ts, u :: us, hrun => exact .pure (.some hrun.2)

/-- Of a name all tokens are parts. -/
theorem held_name {before : List String} {s t : Cursor} (h : s.Abreast L before t)
    (hk : s.kind? = some .ident) : Cursor.Held L Stretch.name s t := by
  refine ⟨_, _, 0, h.rest, rfl, rfl, .parts fun u hu => ?_⟩
  obtain ⟨t, ts, hs, hkind⟩ := Cursor.exists_of_kind? hk
  rw [hs, List.drop_zero, Stretch.name, Nat.add_comm, List.take_succ_cons] at hu
  rcases List.mem_cons.mp hu with rfl | hu
  · rw [hkind]
    rfl
  · exact Stretch.isImportPart_of_mem_nameTail hu

/-- A qualified name is the same stretch on each side. -/
theorem qualifiedName_abreast (what : String) :
    Abreast L (Option.Rel L.slice) (qualifiedName what) (qualifiedName what) := by
  refine .at?_bind ?_ (.bind_eq (complainExpected_abreast what) fun _ => .pure .none)
  exact .bind ((takeCounted_kept Stretch.name_congr).mono held_name) fun _ _ hrun => .pure (.some hrun.2.1)

open Echoing in
/-- A name of a type is the same stretch on each side. -/
theorem typeRef_abreast (what : String) :
    Abreast L (Echo L.slice) (typeRef what) (typeRef what) := by
  refine .start_bind fun _ _ => .newNode_bind fun _ _ =>
    .bind (qualifiedName_abreast what) fun a b h => ?_
  cases h with
  | none => exact .pure .none
  | some hname => exact .spanFrom_bind fun _ _ => .pure (.some hname)

open Echoing in
theorem typeRefs_abreast : Abreast L (Echo L.slice) typeRefs typeRefs :=
  sepBy_abreast _ (typeRef_abreast _)

open Echoing

end Parser

end NedWorkspace
