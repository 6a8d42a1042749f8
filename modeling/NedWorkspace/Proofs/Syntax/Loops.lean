/-
# The loops of the parser

A loop reads in rounds: a round ends it or hands on what it has, with the cursor that the next round starts
from (`Round`). `Loop.Progresses` says that every round takes a token or is the last, and that the loop is
over after at most one round more than there are tokens left, with what the parser reads there. It follows
from what a single round does (`Loop.progresses_of_advances`): nothing else ends a loop.

The rounds differ in what they do where nothing was taken. In bodies and between connections they pass over
a token, properties end there, and the items of a file and of lists have no such case: an item of a file
always takes a token (`Parser.fileItem_moves`), and an item of a list has a separator behind it or is the
last.
-/

import NedWorkspace.Proofs.Syntax.Contained.Declaration

namespace NedWorkspace

/-- A later cursor of the same text, with at least one token taken in between. -/
def Cursor.Before (s t : Cursor) : Prop :=
  s.Reaches t ∧ t.rest.length < s.rest.length

namespace Cursor

variable {s t u : Cursor}

/-- To move and then perhaps to move is to move. -/
theorem Before.trans_reaches (h : s.Before t) (k : t.Reaches u) : s.Before u :=
  ⟨h.1.trans k, Nat.lt_of_le_of_lt k.length_le h.2⟩

/-- Perhaps to move and then to move is to move. -/
theorem Reaches.trans_before (h : s.Reaches t) (k : t.Before u) : s.Before u :=
  ⟨h.trans k.1, Nat.lt_of_lt_of_le k.2 h.length_le⟩

theorem before_next {k : Kind} (h : s.kind? = some k) : s.Before s.next :=
  ⟨s.reaches_next, length_next_lt (rest_ne_nil_of_kind? h)⟩

end Cursor

/-- What a round of a loop does: there is another one, or the loop is over. -/
inductive Round (σ ρ : Type) where
  | again (state : σ) (s : Cursor)
  | done (result : ρ) (s : Cursor)

namespace Round

variable {σ ρ : Type}

/-- What comes of a round, with what comes of the rounds after it. -/
def finish (run : σ → Cursor → ρ × Cursor) : Round σ ρ → ρ × Cursor
  | again a s => run a s
  | done r s => (r, s)

/-- The round from a cursor goes on, and takes a token unless it is the last. -/
def Advances (s : Cursor) : Round σ ρ → Prop
  | again _ t => s.Before t
  | done _ t => s.Reaches t

end Round

/-- A loop: what one round does, and what the parser reads in all of them. -/
structure Loop (σ ρ : Type) where
  round : σ → Cursor → Round σ ρ
  run : σ → Cursor → ρ × Cursor

namespace Loop

variable {σ ρ : Type} (l : Loop σ ρ)

/-- What comes of the loop if it is over within a number of rounds. -/
def within : Nat → σ → Cursor → Option (ρ × Cursor)
  | 0, _, _ => none
  | n + 1, a, s =>
    match l.round a s with
    | .again b t => within n b t
    | .done r t => some (r, t)

/-- Every round takes a token or is the last, and so the loop is over as soon as the tokens are. -/
structure Progresses : Prop where
  advances : ∀ (a : σ) (s : Cursor), (l.round a s).Advances s
  ends : ∀ (a : σ) (s : Cursor), l.within (s.rest.length + 1) a s = some (l.run a s)

/-- **A loop progresses if its rounds advance,** and if what the parser reads is what one round reads and
then the others. -/
theorem progresses_of_advances (hadvances : ∀ a s, (l.round a s).Advances s)
    (hrun : ∀ a s, l.run a s = (l.round a s).finish l.run) : l.Progresses := by
  have hends (n : Nat) : ∀ (a : σ) (s : Cursor), s.rest.length < n → l.within n a s = some (l.run a s) := by
    induction n with
    | zero => exact fun a s h => absurd h (Nat.not_lt_zero _)
    | succ n ih =>
      intro a s h
      have hround := hadvances a s
      rw [within, hrun a s]
      cases hcase : l.round a s with
      | again b t =>
        rw [hcase] at hround
        exact ih b t (Nat.lt_of_lt_of_le hround.2 (Nat.le_of_lt_succ h))
      | done r t => rfl
  exact ⟨hadvances, fun a s => hends _ a s (Nat.lt_succ_self _)⟩

/-- One round leads from a place of the loop to the next. -/
def Leads (x y : σ × Cursor) : Prop :=
  l.round x.1 x.2 = .again y.1 y.2

variable {l}

/-- What a loop gets to lies behind where it starts. -/
theorem Progresses.reaches (h : l.Progresses) {x y : σ × Cursor} (hlead : Relation.ReflTransGen l.Leads x y) :
    x.2.Reaches y.2 := by
  induction hlead with
  | refl => exact .refl _
  | @tail y z _ hstep ih =>
    have hround := h.advances y.1 y.2
    rw [hstep] at hround
    exact ih.trans hround.1

/-- A loop that ends within a number of rounds got to its last one by rounds that go on. -/
theorem exists_done_of_within {n : Nat} {a : σ} {s : Cursor} {r : ρ × Cursor} (h : l.within n a s = some r) :
    ∃ b t, Relation.ReflTransGen l.Leads (a, s) (b, t) ∧ l.round b t = .done r.1 r.2 := by
  induction n generalizing a s with
  | zero => cases h
  | succ n ih =>
    rw [within] at h
    cases hround : l.round a s with
    | again b t =>
      rw [hround] at h
      obtain ⟨b', t', hlead, hdone⟩ := ih h
      have hfirst : l.Leads (a, s) (b, t) := hround
      exact ⟨b', t', .head hfirst hlead, hdone⟩
    | done r' t =>
      rw [hround] at h
      obtain rfl := Option.some.inj h
      exact ⟨a, s, .refl, hround⟩

/-- What a loop reads is what its last round hands on. -/
theorem Progresses.exists_done (h : l.Progresses) (a : σ) (s : Cursor) :
    ∃ b t, Relation.ReflTransGen l.Leads (a, s) (b, t) ∧ l.round b t = .done (l.run a s).1 (l.run a s).2 :=
  exists_done_of_within (h.ends a s)

/-- What a loop has collected was there at the start or came in a round on the way. -/
theorem exists_collected {β : Type} (items : σ → List β) {From : β → σ × Cursor → Prop}
    (hround : ∀ {x y}, l.Leads x y → ∀ c ∈ items y.1, c ∈ items x.1 ∨ From c x) {x y : σ × Cursor}
    (hlead : Relation.ReflTransGen l.Leads x y) :
    ∀ c ∈ items y.1, c ∈ items x.1 ∨ ∃ z, Relation.ReflTransGen l.Leads x z ∧ From c z := by
  induction hlead with
  | refl => exact fun c hc => .inl hc
  | @tail y z hlead hstep ih =>
    intro c hc
    rcases hround hstep c hc with hbefore | hfrom
    · exact ih c hbefore
    · exact .inr ⟨y, hlead, hfrom⟩

end Loop

namespace Parser

variable {α ρ : Type}

/-! ### Lists -/

/-- Items with separators between them, behind those in a list. -/
def sepByLoop (sep : Kind) (item : Parser (Option α)) : Loop (List α) (List α) where
  round found s :=
    let r := item.run s
    match r.1 with
    | none => .done found r.2
    | some a => if r.2.kind? = some sep then .again (found ++ [a]) r.2.next else .done (found ++ [a]) r.2
  run found s := (found ++ (sepByFrom sep item s).1, (sepByFrom sep item s).2)

/-- A separator is a token, so a list with separators needs no item to take one. -/
theorem sepByLoop_progresses (sep : Kind) (item : Parser (Option α)) : (sepByLoop sep item).Progresses := by
  refine Loop.progresses_of_advances _ (fun found s => ?_) fun found s => ?_
  · have hitem := item.reaches s
    simp only [sepByLoop]
    split
    · exact hitem
    · split
      · rename_i hsep
        exact hitem.trans_before (Cursor.before_next hsep)
      · exact hitem
  · simp only [sepByLoop]
    rw [sepByFrom]
    generalize item.run s = r
    obtain ⟨a, t⟩ := r
    cases a with
    | none => simp [Round.finish]
    | some a =>
      by_cases hsep : t.kind? = some sep
      · simp [hsep, Round.finish]
      · simp [hsep, Round.finish]

/-- Items as long as the next token begins one, behind those in a list; an item that takes no token is the
last. -/
def manyWhileLoop (p : Kind → Bool) (item : Parser (Option α)) : Loop (List α) (List α) where
  round found s :=
    if s.kind?.any p then
      let r := item.run s
      if r.2.rest.length < s.rest.length then .again (found ++ r.1.toList) r.2
      else .done (found ++ r.1.toList) r.2
    else .done found s
  run found s := (found ++ (manyWhileFrom p item s).1, (manyWhileFrom p item s).2)

/-- A repetition takes a token in each round. -/
theorem manyWhileLoop_progresses (p : Kind → Bool) (item : Parser (Option α)) :
    (manyWhileLoop p item).Progresses := by
  refine Loop.progresses_of_advances _ (fun found s => ?_) fun found s => ?_
  · simp only [manyWhileLoop]
    split
    · split
      · rename_i hlt
        exact ⟨item.reaches s, hlt⟩
      · exact item.reaches s
    · exact .refl _
  · simp only [manyWhileLoop]
    rw [manyWhileFrom]
    split
    · by_cases hlt : (item.run s).2.rest.length < s.rest.length
      · simp [hlt, Round.finish]
      · simp [hlt, Round.finish]
    · simp [Round.finish]

/-! ### Connections -/

/-- The items of a loop over connections, behind the connections in a list. A token is passed over if an
item took none. -/
def linksLoop : Loop (List Connection) (List Connection) where
  round found s :=
    if s.kind? = none ∨ s.kind? = some (.mark .rbrace) then .done found s
    else
      let r := linkFrom s
      if r.2.rest.length < s.rest.length then .again (found ++ r.1) r.2 else .again (found ++ r.1) r.2.next
  run found s := (found ++ (linksFrom s).1, (linksFrom s).2)

/-- Every item of a loop takes a token. -/
theorem linkFrom_lt {s : Cursor} (h : ¬ (s.kind? = none ∨ s.kind? = some (.mark .rbrace))) :
    (linkFrom s).2.rest.length < s.rest.length := by
  cases hkind : s.kind? with
  | none => exact absurd (.inl hkind) h
  | some k => exact linkFrom_moves (fun hk => h (.inr (hkind.trans (congrArg some hk)))) hkind

/-- A list of connections takes a token in each round. -/
theorem linksLoop_progresses : linksLoop.Progresses := by
  refine Loop.progresses_of_advances _ (fun found s => ?_) fun found s => ?_
  · simp only [linksLoop]
    split
    · exact .refl _
    · rename_i hend
      rw [if_pos (linkFrom_lt hend)]
      exact ⟨reaches_linkFrom s, linkFrom_lt hend⟩
  · simp only [linksLoop]
    rw [linksFrom]
    split
    · simp [Round.finish]
    · rename_i hend
      simp only [if_pos (linkFrom_lt hend), Round.finish, List.append_assoc]

/-- A round of a loop adds the connections of one item. -/
theorem linksLoop_leads {x y : List Connection × Cursor} (h : linksLoop.Leads x y) :
    y.1 = x.1 ++ (linkFrom x.2).1 := by
  simp only [Loop.Leads, linksLoop] at h
  split at h
  · cases h
  · rename_i hend
    rw [if_pos (linkFrom_lt hend)] at h
    exact (Round.again.inj h).1.symm

/-- The last round hands on what was read before it. -/
theorem linksLoop_done {found links : List Connection} {s t : Cursor}
    (h : linksLoop.round found s = .done links t) : links = found := by
  simp only [linksLoop] at h
  split at h
  · exact (Round.done.inj h).1.symm
  · split at h
    · cases h
    · cases h

/-! ### Bodies -/

/-- The members of a body in braces: the section that the next member stands in, and what was read so far. A
token is passed over, with an error, if a member took none. -/
def bodyLoop (header : BodySection → ρ → Parser ρ) (member : Kind → BodySection → ρ → Parser ρ) (what : String)
    (run : BodySection → ρ → Cursor → ρ × Cursor) : Loop (BodySection × ρ) ρ where
  round a s :=
    match s.kind? with
    | none => .done a.2 s
    | some k =>
      if k = .mark .rbrace then .done a.2 s
      else
        match BodySection.ofKind? k with
        | some opened =>
          let r := (header opened a.2).run s
          .again (opened, r.1) r.2
        | none =>
          let r := (member k a.1 a.2).run s
          if r.2.rest.length < s.rest.length then .again (a.1, r.1) r.2
          else .again (a.1, r.1) ((passOver what).run r.2).2
  run a := run a.1 a.2

section

variable {header : BodySection → ρ → Parser ρ} {member : Kind → BodySection → ρ → Parser ρ} {what : String}
  {run : BodySection → ρ → Cursor → ρ × Cursor}

/-- A round of a body advances if headers and members take a token, and then passes over none. -/
theorem bodyLoop_advances (hheader : ∀ k opened a, MovesAt k (header opened a))
    (hmember : ∀ k sec a, k ≠ .mark .rbrace → MovesAt k (member k sec a)) (a : BodySection × ρ) (s : Cursor) :
    ((bodyLoop header member what run).round a s).Advances s := by
  simp only [bodyLoop]
  split
  · exact .refl _
  · rename_i k hkind
    split
    · exact .refl _
    · rename_i hopen
      split
      · exact ⟨(header _ a.2).reaches s, hheader k _ a.2 s hkind⟩
      · have hmoves := hmember k a.1 a.2 hopen s hkind
        rw [if_pos hmoves]
        exact ⟨(member k a.1 a.2).reaches s, hmoves⟩

/-- The last round of a body hands on what was read before it. -/
theorem bodyLoop_done {a : BodySection × ρ} {r : ρ} {s t : Cursor}
    (h : (bodyLoop header member what run).round a s = .done r t) : r = a.2 := by
  simp only [bodyLoop] at h
  split at h
  · exact (Round.done.inj h).1.symm
  · split at h
    · exact (Round.done.inj h).1.symm
    · split at h
      · cases h
      · split at h
        · cases h
        · cases h

end

/-- A body of a submodule. -/
def submoduleBodyLoop : Loop (BodySection × Submodule) Submodule :=
  bodyLoop (fun opened sub => do submoduleSection opened; return sub) (fun _ => submoduleMember) "a member"
    submoduleBodyFrom

/-- The body of a submodule takes a token in each round. -/
theorem submoduleBodyLoop_progresses : submoduleBodyLoop.Progresses := by
  refine Loop.progresses_of_advances _ (bodyLoop_advances (fun _ _ _ => .bind .skipOne_bind)
    fun _ sec sub hopen => submoduleMember_moves hopen sec sub) fun a s => ?_
  simp only [submoduleBodyLoop, bodyLoop]
  cases hrest : s.rest with
  | nil =>
    rw [Cursor.kind?_eq_next?, hrest, Token.next?_nil, submoduleBodyFrom]
    split
    · rfl
    · rename_i hcons
      exact absurd (hrest.symm.trans hcons) (by simp)
  | cons token tokens =>
    rw [Cursor.kind?_eq_next?, hrest, Token.next?_cons, submoduleBodyFrom_cons hrest]
    dsimp only
    split
    · rfl
    · rename_i hopen
      have hmoves := submoduleMember_moves hopen a.1 a.2 s (congrArg Token.next? hrest)
      cases BodySection.ofKind? token.kind with
      | some opened => rfl
      | none =>
        dsimp only
        rw [← hrest, if_pos hmoves, if_pos hmoves]
        rfl

theorem typeDecl_moves {k : Kind} : MovesAt k typeDecl :=
  fun _ hs => typeDeclFrom_moves hs

/-- One member of a body, an inner type included, whose first token has kind `k`. -/
def typeMember (k : Kind) (sec : BodySection) (t : TypeDecl) : Parser TypeDecl := do
  if sec = .types ∧ k.isTypeWord then
    return { t with types := t.types ++ (← typeDecl).toList }
  else
    plainMember sec t

/-- A member of a type, of whichever section, takes a token but for a closing brace. -/
theorem typeMember_moves {k : Kind} (hk : k ≠ .mark .rbrace) (sec : BodySection) (t : TypeDecl) :
    MovesAt k (typeMember k sec t) := by
  unfold typeMember
  split
  · exact .bind typeDecl_moves
  · exact plainMember_moves hk sec t

/-- A body of a type. -/
def typeBodyLoop : Loop (BodySection × TypeDecl) TypeDecl :=
  bodyLoop typeSection typeMember "a member declaration" typeBodyFrom

/-- The body of a type takes a token in each round. -/
theorem typeBodyLoop_progresses : typeBodyLoop.Progresses := by
  refine Loop.progresses_of_advances _ (bodyLoop_advances (fun _ _ _ => .skipOne_bind)
    fun _ sec t hopen => typeMember_moves hopen sec t) fun a s => ?_
  simp only [typeBodyLoop, bodyLoop]
  cases hrest : s.rest with
  | nil =>
    rw [Cursor.kind?_eq_next?, hrest, Token.next?_nil, typeBodyFrom_nil hrest]
    rfl
  | cons token tokens =>
    rw [Cursor.kind?_eq_next?, hrest, Token.next?_cons, typeBodyFrom_cons hrest]
    dsimp only
    split
    · rfl
    · rename_i hopen
      have hmoves := typeMember_moves hopen a.1 a.2 s (congrArg Token.next? hrest)
      cases BodySection.ofKind? token.kind with
      | some opened => rfl
      | none =>
        dsimp only
        rw [← hrest, if_pos hmoves]
        unfold typeMember at hmoves ⊢
        split
        · rename_i htype
          rw [if_pos htype] at hmoves
          exact if_pos hmoves
        · rename_i htype
          rw [if_neg htype] at hmoves
          exact if_pos hmoves

/-! ### Files -/

/-- Every item of a file takes a token. -/
theorem fileItem_moves (k : Kind) (tree : Tree) : MovesAt k (fileItem k tree) := by
  unfold fileItem
  split
  · exact .bind (.look_bind fun _ => .skipOne_bind)
  · split
    · exact .bind (.look_bind fun _ => .skipOne_bind)
    · split
      · exact .bind propertyStatement_moves
      · split
        · exact .skipOne_bind
        · split
          · exact .bind typeDecl_moves
          · exact .complainExpected_bind (.bind .skipOne_bind)

/-- The items of a file, behind those in a tree. -/
def fileLoop : Loop Tree Tree where
  round tree s :=
    match s.kind? with
    | none => .done tree s
    | some k =>
      let r := (fileItem k tree).run s
      .again r.1 r.2
  run := fileFrom

/-- A file takes a token in each round. -/
theorem fileLoop_progresses : fileLoop.Progresses := by
  refine Loop.progresses_of_advances _ (fun tree s => ?_) fun tree s => ?_
  · simp only [fileLoop]
    split
    · exact .refl _
    · rename_i k hkind
      exact ⟨(fileItem k tree).reaches s, fileItem_moves k tree s hkind⟩
  · simp only [fileLoop]
    cases hrest : s.rest with
    | nil =>
      rw [fileFrom, Cursor.kind?_eq_next?, hrest]
      rfl
    | cons token tokens =>
      have hkind : s.kind? = some token.kind := by rw [Cursor.kind?_eq_next?, hrest, Token.next?_cons]
      rw [fileFrom_cons hrest, hkind]
      simp only [if_pos (fileItem_moves token.kind tree s hkind), Round.finish]

end Parser

end NedWorkspace
