/-
# The parser goes on and comes to an end

Whatever tokens there are, reading them only goes on: every round of a loop takes a token or is the last, a
declaration inside another one and a loop inside another one begin behind it, and a file is read up to its
last token. So the tokens that are left bound everything the parser does, and where it goes back to the text
for the source of what it read, the tokens and the slice between them are there (`Parser.progress`).
-/

import NedWorkspace.Proofs.Syntax.Loops
import NedWorkspace.Proofs.Syntax.TypeNames
import NedWorkspace.Proofs.Text.Position
import NedWorkspace.Proofs.Token.Slices

namespace NedWorkspace

open Stretch

namespace Cursor

variable {text : String} {tokens taken : List Token} {s t : Cursor}

/-! ### Positions -/

/-- How many of the tokens were taken. -/
def position (tokens : List Token) (s : Cursor) : Nat :=
  tokens.length - s.rest.length

/-- The tokens that are left are those from the position on. -/
theorem rest_eq_drop (h : s.rest <:+ tokens) : s.rest = tokens.drop (s.position tokens) :=
  List.suffix_iff_eq_drop.mp h

/-- The position of a cursor is the number of tokens behind it. -/
theorem position_eq {before : List Token} (h : tokens = before ++ s.rest) :
    s.position tokens = before.length := by
  rw [position, h, List.length_append, Nat.add_sub_cancel]

/-- A cursor that goes on is no further back. -/
theorem position_mono (tokens : List Token) (h : s.Reaches t) : s.position tokens ≤ t.position tokens :=
  Nat.sub_le_sub_left h.length_le _

/-! ### Going back to the text -/

/-- The text from the next token of one cursor to the last token taken at another, unless one of these
tokens or the slice between them is missing. -/
def between? (text : String) (s t : Cursor) : Option String :=
  (tokenize text)[s.position (tokenize text)]?.bind fun first =>
    (tokenize text)[t.position (tokenize text) - 1]?.bind fun last => Text.slice? text first.start last.stop

/-- **Where tokens were taken, the text goes from the first of them to the last.** -/
theorem between?_eq (h : (ofText text).Reaches s) (hrest : s.rest = taken ++ t.rest) (hne : taken ≠ []) :
    between? text s t = some (Token.sourceText taken) := by
  obtain ⟨before, hbefore⟩ := h.rest
  have htokens : tokenize text = before ++ (taken ++ t.rest) := by rw [← hrest, hbefore]; rfl
  have hs : s.position (tokenize text) = before.length := position_eq (htokens.trans (by rw [hrest]))
  have htaken : tokenize text = (before ++ taken) ++ t.rest := by rw [htokens, List.append_assoc]
  have ht : t.position (tokenize text) = before.length + taken.length := by
    rw [position_eq htaken, List.length_append]
  obtain ⟨first, hfirst⟩ := Option.ne_none_iff_exists'.mp (mt List.head?_eq_none_iff.mp hne)
  obtain ⟨last, hlast⟩ := Option.ne_none_iff_exists'.mp (mt List.getLast?_eq_none_iff.mp hne)
  have hpos := List.length_pos_of_ne_nil hne
  have hgetFirst : (tokenize text)[before.length]? = some first := by
    rw [htokens, List.getElem?_append_right (Nat.le_refl _), Nat.sub_self,
      List.getElem?_append_left hpos, ← List.head?_eq_getElem?, hfirst]
  have hgetLast : (tokenize text)[before.length + taken.length - 1]? = some last := by
    rw [htokens, List.getElem?_append_right (by omega), List.getElem?_append_left (by omega),
      ← hlast, List.getLast?_eq_getElem?]
    congr 1
    omega
  rw [between?, hs, ht, hgetFirst, hgetLast]
  exact tokenize_slice htokens hfirst hlast

/-- The last token taken is the last one stepped over. -/
theorem lastStop_skip (s : Cursor) (n : Nat) :
    (s.skip n).lastStop = ((s.rest.take n).getLast?.map Token.stop).getD s.lastStop := by
  induction n generalizing s with
  | zero => rfl
  | succ n ih =>
    rw [skip, ih, rest_next]
    cases hrest : s.rest with
    | nil => simp [next, hrest]
    | cons t ts =>
      rw [List.tail_cons, List.take_succ_cons, List.getLast?_cons, next, hrest]
      cases (ts.take n).getLast? with
      | none => rfl
      | some u => rfl

end Cursor

namespace Parser

variable {text : String} {s t u b : Cursor}

/-! ### Recursion -/

/-- The body of the type declared at a cursor, with the head in front of it. -/
inductive Opens (s : Cursor) : TypeDecl → Cursor → Prop
  | mk {head : TypeDecl} (hhead : (typeHead.run s).1 = some head)
      (hbrace : (typeHead.run s).2.kind? = some (.mark .lbrace)) : Opens s head (typeHead.run s).2.next

/-- Reading the declaration at one cursor reads the declaration at another inside its body. -/
inductive Declares (s u : Cursor) : Prop
  | mk {head t : TypeDecl} {b : Cursor} {k : Kind} (hopens : Opens s head b)
      (hlead : Relation.ReflTransGen typeBodyLoop.Leads ((.parameters, head), b) ((.types, t), u))
      (hkind : u.kind? = some k) (hword : k.isTypeWord = true)

/-- Reading the loop over connections at one cursor reads the item at another inside its braces. -/
inductive Repeats (s u : Cursor) : Prop
  | mk {found : List Connection} (hfor : s.kind? = some (.keyword .forWord))
      (hbrace : (loopHead.run s).2.kind? = some (.mark .lbrace))
      (hlead : Relation.ReflTransGen linksLoop.Leads ([], (loopHead.run s).2.next) (found, u))
      (hround : ∃ x, linksLoop.Leads (found, u) x)

/-- A body begins behind the place where its head does. -/
theorem Opens.before {head : TypeDecl} (h : Opens s head b) : s.Before b := by
  obtain ⟨hhead, hbrace⟩ := h
  exact (typeHead.reaches s).trans_before (Cursor.before_next hbrace)

/-- A place opens one body at most. -/
theorem Opens.unique {head head' : TypeDecl} {b' : Cursor} (h : Opens s head b) (h' : Opens s head' b') :
    b = b' := by
  cases h
  cases h'
  rfl

/-- An inner type begins behind the place where the outer one does. -/
theorem Declares.before (h : Declares s u) : s.Before u := by
  obtain ⟨hopens, hlead, -, -⟩ := h
  exact hopens.before.trans_reaches (typeBodyLoop_progresses.reaches hlead)

/-- The body of an inner type begins behind that of the outer one. -/
theorem Declares.bodies {head head' : TypeDecl} {b' : Cursor} (h : Declares s u) (hs : Opens s head b)
    (hu : Opens u head' b') : b.Before b' := by
  obtain ⟨hopens, hlead, -, -⟩ := h
  rw [hs.unique hopens]
  exact (typeBodyLoop_progresses.reaches hlead).trans_before hu.before

/-- A round of a loop begins behind the one before it. -/
theorem Repeats.before (h : Repeats s u) : s.Before u := by
  obtain ⟨-, hbrace, hlead, -⟩ := h
  exact ((loopHead.reaches s).trans_before (Cursor.before_next hbrace)).trans_reaches
    (linksLoop_progresses.reaches hlead)

/-! ### Nothing else is read inside -/

/-- The head of a type holds no inner types. -/
theorem typeHead_types {head : TypeDecl} (h : (typeHead.run s).1 = some head) : head.types = [] := by
  simp only [typeHead, run_bind] at h
  cases hname : ((expectIdent "type name").run (newNode.run (skipOne.run (kind?.run s).2).2).2).1 with
  | none =>
    rw [hname] at h
    cases h
  | some name =>
    rw [hname] at h
    simp only [run_bind] at h
    split at h
    all_goals
      simp only [run_bind] at h
      split at h
      all_goals
        obtain rfl := Option.some.inj h
        rfl

/-- The inner types that a round of a body adds are the declaration read there. -/
theorem typeBodyLoop_types {x y : (BodySection × TypeDecl) × Cursor} (h : typeBodyLoop.Leads x y) :
    ∀ inner ∈ y.1.2.types, inner ∈ x.1.2.types ∨
      x.1.1 = .types ∧ (∃ k, x.2.kind? = some k ∧ k.isTypeWord = true) ∧ (typeDeclFrom x.2).1 = some inner := by
  obtain ⟨⟨sec, t⟩, s⟩ := x
  intro inner hinner
  simp only [Loop.Leads, typeBodyLoop, bodyLoop] at h
  split at h
  · cases h
  · rename_i k hkind
    split at h
    · cases h
    · rename_i hopen
      split at h
      · rw [← (Prod.mk.inj (Round.again.inj h).1).2] at hinner
        exact .inl hinner
      · rw [if_pos (typeMember_moves hopen sec t s hkind)] at h
        rw [← (Prod.mk.inj (Round.again.inj h).1).2, typeMember] at hinner
        split at hinner
        · rename_i htype
          rcases List.mem_append.mp hinner with hbefore | hdecl
          · exact .inl hbefore
          · exact .inr ⟨htype.1, ⟨k, hkind, htype.2⟩, Option.mem_toList.mp hdecl⟩
        · rw [(plainMember_frame sec t s).2] at hinner
          exact .inl hinner

/-- **An inner type is what a declaration inside is read as.** -/
theorem exists_declares {decl inner : TypeDecl} (h : (typeDeclFrom s).1 = some decl) (hmem : inner ∈ decl.types) :
    ∃ u, Declares s u ∧ (typeDeclFrom u).1 = some inner := by
  rw [typeDeclFrom] at h
  dsimp only at h
  split at h
  · cases h
  · rename_i head hhead
    have hnone := typeHead_types hhead
    split at h
    · rename_i hbrace
      obtain rfl := Option.some.inj h
      change inner ∈ (typeBodyLoop.run (.parameters, head) (typeHead.run s).2.next).1.types at hmem
      obtain ⟨a, t, hlead, hdone⟩ :=
        typeBodyLoop_progresses.exists_done (.parameters, head) (typeHead.run s).2.next
      rw [bodyLoop_done hdone] at hmem
      obtain hstart | ⟨⟨⟨sec, d⟩, u⟩, hplace, rfl, ⟨k, hkind, hword⟩, hread⟩ :=
        Loop.exists_collected (fun a => a.2.types) typeBodyLoop_types hlead inner hmem
      · exact absurd (hnone ▸ hstart) (by simp)
      · exact ⟨u, .mk (.mk hhead hbrace) hplace hkind hword, hread⟩
    · obtain rfl := Option.some.inj h
      exact absurd (hnone ▸ hmem) (by simp)

/-- **A connection in a loop is what an item inside is read as.** -/
theorem exists_repeats {c : Connection} (hfor : s.kind? = some (.keyword .forWord)) (hmem : c ∈ (linkFrom s).1) :
    ∃ u, Repeats s u ∧ c ∈ (linkFrom u).1 := by
  rw [linkFrom, if_pos hfor] at hmem
  dsimp only at hmem
  split at hmem
  · rename_i hbrace
    obtain ⟨found, t, hlead, hdone⟩ := linksLoop_progresses.exists_done [] (loopHead.run s).2.next
    have hfound : c ∈ found := linksLoop_done hdone ▸ hmem
    have hround {x y : List Connection × Cursor} (h : linksLoop.Leads x y) :
        ∀ c ∈ y.1, c ∈ x.1 ∨ c ∈ (linkFrom x.2).1 ∧ ∃ y, linksLoop.Leads x y := by
      rw [linksLoop_leads h]
      exact fun c hc => (List.mem_append.mp hc).imp_right fun hread => ⟨hread, y, h⟩
    obtain hstart | ⟨⟨links, u⟩, hplace, hread, hnext⟩ := Loop.exists_collected id hround hlead c hfound
    · exact absurd hstart (by simp)
    · exact ⟨u, .mk hfor hbrace hplace hnext, hread⟩
  · exact absurd hmem (by simp)

/-- **A file is read up to its last token.** -/
theorem rest_fileFrom (tree : Tree) (s : Cursor) : (fileFrom tree s).2.rest = [] := by
  fun_induction fileFrom tree s with
  | case1 tree s hrest => exact hrest
  | case2 tree s token _ _ r _ ih => exact ih
  | case3 tree s token _ hrest r hnot =>
    have hkind : s.kind? = some token.kind := by rw [Cursor.kind?_eq_next?, hrest, Token.next?_cons]
    exact absurd (fileItem_moves token.kind tree s hkind) hnot

/-! ### Sources -/

/-- What is counted off is taken. -/
theorem rest_takeCounted (count : List Token → Nat) (s : Cursor) :
    s.rest = ((takeCounted count).run s).1 ++ ((takeCounted count).run s).2.rest := by
  change s.rest = s.rest.take _ ++ (s.skip _).rest
  rw [Cursor.rest_skip, List.take_append_drop]

/-- A result is the slice of the text, which is there, without blanks around it. -/
def Sourced (slice result : Option String) : Prop :=
  ∃ source, slice = some source ∧ result = some (Text.trim source)

/-- Where tokens were counted off, the text from the first to the last of them is their source. -/
theorem between?_takeCounted (count : List Token → Nat) (h : (Cursor.ofText text).Reaches s)
    (hmoved : s.Before ((takeCounted count).run s).2) :
    ((takeCounted count).run s).1 ≠ [] ∧ Cursor.between? text s ((takeCounted count).run s).2 =
      some (Token.sourceText ((takeCounted count).run s).1) := by
  have hrest := rest_takeCounted count s
  have hne : ((takeCounted count).run s).1 ≠ [] := by
    intro hnil
    rw [hnil, List.nil_append] at hrest
    exact absurd (congrArg List.length hrest) (Nat.ne_of_gt hmoved.2)
  exact ⟨hne, Cursor.between?_eq h hrest hne⟩

/-- The source of an expression goes from its first token to its last. -/
theorem expression_sourced (stops : List Kind) (h : (Cursor.ofText text).Reaches s)
    (hmoved : s.Before ((expression stops).run s).2) :
    Sourced (Cursor.between? text s ((expression stops).run s).2) ((expression stops).run s).1 := by
  unfold expression at hmoved ⊢
  rw [run_bind] at hmoved ⊢
  have hcounted := between?_takeCounted (Stretch.expression stops 0) h
  generalize (takeCounted (Stretch.expression stops 0)).run s = r at hmoved hcounted ⊢
  obtain ⟨taken, t⟩ := r
  cases taken with
  | nil => exact absurd rfl (hcounted hmoved).1
  | cons first more => exact ⟨_, (hcounted hmoved).2, rfl⟩

/-- The source of an import goes from the token behind the keyword to the last one of the
specification. -/
theorem importDecl_sourced (h : (Cursor.ofText text).Reaches s)
    (hmoved : s.next.Before ((takeCounted importSpec).run s.next).2) :
    Sourced (Cursor.between? text s.next ((takeCounted importSpec).run s.next).2)
      ((importDecl.run s).1.map ImportDecl.spec) := by
  obtain ⟨hne, hslice⟩ := between?_takeCounted importSpec (h.trans s.reaches_next) hmoved
  refine ⟨_, hslice, ?_⟩
  -- the node number given out in between changes no token
  have hsame : ((takeCounted importSpec).run (newNode.run (skipOne.run (start.run s).2).2).2).1 =
      ((takeCounted importSpec).run s.next).1 := rfl
  simp only [importDecl, run_bind]
  rw [hsame]
  cases htaken : ((takeCounted importSpec).run s.next).1 with
  | nil => exact absurd htaken hne
  | cons first more => rfl

/-- The source of a name goes from its first token to where the last token taken ends. -/
theorem qualifiedName_sourced (what : String) (h : (Cursor.ofText text).Reaches s)
    (hident : s.kind? = some .ident) :
    Sourced (Text.slice? text s.start ((qualifiedName what).run s).2.lastStop)
      ((qualifiedName what).run s).1 := by
  obtain ⟨t, ts, hrest, -⟩ := Cursor.exists_of_kind? hident
  have hrun : (qualifiedName what).run s =
      (some (Text.trim (Token.sourceText (s.rest.take (name s.rest)))), s.skip (name s.rest)) := by
    simp [qualifiedName, at?, look, hident, takeCounted]
  rw [hrun]
  refine ⟨_, ?_, rfl⟩
  rw [Cursor.lastStop_skip, Cursor.start, hrest, name, Nat.add_comm, List.take_succ_cons]
  obtain ⟨u, hu⟩ := Option.ne_none_iff_exists'.mp
    (mt List.getLast?_eq_none_iff.mp (List.cons_ne_nil t (ts.take (nameTail ts))))
  obtain ⟨before, hbefore⟩ := h.rest
  have htokens : tokenize text = before ++ (t :: ts.take (nameTail ts) ++ ts.drop (nameTail ts)) := by
    rw [List.cons_append, List.take_append_drop, ← hrest, hbefore]
    rfl
  rw [hu]
  exact tokenize_slice htokens rfl hu

/-! ### All of it -/

/-- What it means that reading goes on and comes to an end. -/
structure Progress : Prop where
  /-- The loops over the items of a file, over the members of bodies and over connections. -/
  file : fileLoop.Progresses
  typeBody : typeBodyLoop.Progresses
  submoduleBody : submoduleBodyLoop.Progresses
  links : linksLoop.Progresses
  /-- The loops over properties, over the entries and the values of one, and over references. -/
  properties : (manyWhileLoop (· == .mark .atSign) property).Progresses
  entries : (sepByLoop (.mark .semicolon) propertyEntry).Progresses
  values : (sepByLoop (.mark .comma) propertyValue).Progresses
  references : (sepByLoop (.mark .comma) (typeRef "type name")).Progresses
  /-- A declaration inside another begins behind its beginning, and so does its body; inner types are read
  in no other way. -/
  declarations : ∀ {s u : Cursor}, Declares s u → s.Before u
  bodies : ∀ {s u b b' : Cursor} {head head' : TypeDecl}, Declares s u → Opens s head b → Opens u head' b' →
    b.Before b'
  innerTypes : ∀ {s : Cursor} {decl inner : TypeDecl}, (typeDeclFrom s).1 = some decl → inner ∈ decl.types →
    ∃ u, Declares s u ∧ (typeDeclFrom u).1 = some inner
  /-- An item inside a loop over connections begins behind the beginning of the loop, and the connections of
  the loop are read in no other way. -/
  repetitions : ∀ {s u : Cursor}, Repeats s u → s.Before u
  repeated : ∀ {s : Cursor} {c : Connection}, s.kind? = some (.keyword .forWord) → c ∈ (linkFrom s).1 →
    ∃ u, Repeats s u ∧ c ∈ (linkFrom u).1
  /-- The position in the tokens never goes back, nor past their end. -/
  onward : ∀ {α : Type} (p : Parser α) {tokens : List Token} {s : Cursor}, s.rest <:+ tokens →
    s.position tokens ≤ (p.run s).2.position tokens ∧ (p.run s).2.position tokens ≤ tokens.length ∧
      (p.run s).2.rest = tokens.drop ((p.run s).2.position tokens)
  /-- A file takes all tokens. -/
  consumes : ∀ s : Cursor, (Parser.file.run s).2.rest = []
  /-- Where the source of something is read off the text, its tokens and the slice are there. -/
  expressions : ∀ {text : String} {s : Cursor} (stops : List Kind), (Cursor.ofText text).Reaches s →
    s.Before ((expression stops).run s).2 →
      Sourced (Cursor.between? text s ((expression stops).run s).2) ((expression stops).run s).1
  imports : ∀ {text : String} {s : Cursor}, (Cursor.ofText text).Reaches s →
    s.next.Before ((takeCounted importSpec).run s.next).2 →
      Sourced (Cursor.between? text s.next ((takeCounted importSpec).run s.next).2)
        ((importDecl.run s).1.map ImportDecl.spec)
  names : ∀ {text : String} {s : Cursor} (what : String), (Cursor.ofText text).Reaches s →
    s.kind? = some .ident →
      Sourced (Text.slice? text s.start ((qualifiedName what).run s).2.lastStop) ((qualifiedName what).run s).1
  /-- Every offset lies on a line that begins somewhere, and not behind it. -/
  lines : ∀ (lines : LineIndex) (offset : Nat),
    ∃ start, (0 :: lines.breaks)[(lines.position offset).line]? = some start ∧ start ≤ offset

/-- **Whatever the tokens, every step of reading goes on, and a file is read to its end.** -/
theorem progress : Progress where
  file := fileLoop_progresses
  typeBody := typeBodyLoop_progresses
  submoduleBody := submoduleBodyLoop_progresses
  links := linksLoop_progresses
  properties := manyWhileLoop_progresses _ _
  entries := sepByLoop_progresses _ _
  values := sepByLoop_progresses _ _
  references := sepByLoop_progresses _ _
  declarations := Declares.before
  bodies := Declares.bodies
  innerTypes := exists_declares
  repetitions := Repeats.before
  repeated := exists_repeats
  onward p _ s h := ⟨Cursor.position_mono _ (p.reaches s), Nat.sub_le _ _,
    Cursor.rest_eq_drop ((p.reaches s).rest.trans h)⟩
  consumes := rest_fileFrom {}
  expressions := expression_sourced
  imports := importDecl_sourced
  names := qualifiedName_sourced
  lines := LineIndex.exists_lineStart

end Parser

end NedWorkspace
