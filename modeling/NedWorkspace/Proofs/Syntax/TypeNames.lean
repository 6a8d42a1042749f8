/-
# Types are declared under simple names

An identifier holds no point, whatever pattern competed for its characters (`Scan.point_not_mem_first`), and
the name of a type is the text of an identifier. So no type of a text that is read, with or without
mistakes, has a point in its name, and neither has a type inside it (`Parse.simple_types`).

`Parser.Gives P p` says that what `p` gives satisfies `P` wherever all identifiers ahead are simple; it
goes through a parser step by step.
-/

import Mathlib.Data.List.TakeWhile
import NedWorkspace.Proofs.Name
import NedWorkspace.Proofs.Token.Fit
import NedWorkspace.Syntax.Declaration

namespace NedWorkspace

namespace Scan

/-- No half of a gate's name has a point. -/
theorem point_not_mem_halfSuffix (cs : List Char) : '.' ∉ cs.take (halfSuffix cs) := by
  unfold halfSuffix
  split
  · split
    · rename_i c _ hc
      rcases Bool.or_eq_true_iff.mp hc with hc | hc
      · simp [eq_of_beq hc]
      · simp [eq_of_beq hc]
    · simp
  · simp

/-- No identifier covers a point. -/
theorem point_not_mem_ident {cs : List Char} {n : Nat} (h : ident cs = some n) :
    '.' ∉ cs.take n := by
  unfold ident at h
  split at h
  · exact absurd h (by simp)
  · rename_i c cs
    split at h
    · rename_i hstart
      obtain rfl := Option.some.inj h
      have hfirst : '.' ≠ c := fun heq => by
        rw [← heq] at hstart
        exact absurd hstart (by decide)
      have hparts : '.' ∉ cs.takeWhile isNamePart := fun hmem =>
        absurd (List.mem_takeWhile_imp hmem) (by decide)
      have htake : cs.take (cs.takeWhile isNamePart).length = cs.takeWhile isNamePart :=
        List.prefix_iff_eq_take.mp (List.takeWhile_prefix _) |>.symm
      rw [Nat.add_assoc, Nat.add_comm 1, List.take_succ_cons, List.take_add, htake]
      simp only [List.mem_cons, List.mem_append, not_or]
      exact ⟨hfirst, hparts, point_not_mem_halfSuffix _⟩
    · exact absurd h (by simp)

/-- The identifiers of a text are simple names. -/
theorem point_not_mem_first {c : Char} {cs : List Char} (h : (first c cs).1 = .ident) :
    '.' ∉ c :: cs.take ((first c cs).2 - 1) := by
  have hfit : ident (c :: cs) = some (first c cs).2 :=
    fit_of_first (Prod.ext h rfl : first c cs = (.ident, (first c cs).2)) (by simp)
  have htake := point_not_mem_ident hfit
  cases hn : (first c cs).2 with
  | zero =>
    -- A fit of an identifier covers its first character.
    rw [hn, ident] at hfit
    split at hfit
    · exact absurd (Option.some.inj hfit) (by omega)
    · exact absurd hfit (by simp)
  | succ n => rwa [hn, List.take_succ_cons] at htake

end Scan

/-- All identifiers ahead are simple names. -/
def Cursor.Simple (s : Cursor) : Prop :=
  ∀ t ∈ s.rest, t.kind = .ident → Name.isQualified t.text = false

namespace Cursor

/-- The names in a text are simple, since lexemes for names hold no point. -/
theorem simple_ofText (text : String) : (Cursor.ofText text).Simple := by
  intro t ht hkind
  obtain ⟨l, hl, hsame, htext⟩ := Scan.exists_lexeme_of_mem_place ht
  have hpoint : l.kind = .ident → '.' ∉ l.chars :=
    Scan.forall_lexemes (P := fun l => l.kind = .ident → '.' ∉ l.chars)
      (fun _ _ => Scan.point_not_mem_first) _ l hl
  rw [Name.isQualified_eq_false, htext, String.toList_ofList]
  exact hpoint (hsame ▸ hkind)

/-- What is ahead later was ahead before. -/
theorem Simple.of_reaches {s t : Cursor} (h : s.Simple) (hreach : s.Reaches t) : t.Simple :=
  fun token ht => h token (hreach.rest.mem ht)

end Cursor

/-- What the head of a declaration says, its properties apart. -/
def TypeDecl.heading (t : TypeDecl) : TypeKind × String × List TypeRef × List TypeRef :=
  (t.kind, t.name, t.bases, t.interfaces)

/-- The type is declared under a simple name, and so are the types inside it. -/
inductive TypeDecl.Simple : TypeDecl → Prop
  | intro {t : TypeDecl} (name : Name.isQualified t.name = false)
      (types : ∀ u ∈ t.types, TypeDecl.Simple u) : TypeDecl.Simple t

theorem TypeDecl.Simple.name {t : TypeDecl} (h : t.Simple) : Name.isQualified t.name = false := by
  cases h
  assumption

/-- The inner types of a type with simple names have simple names. -/
theorem TypeDecl.Simple.types {t : TypeDecl} (h : t.Simple) : ∀ u ∈ t.types, u.Simple := by
  cases h
  assumption

namespace Parser

variable {α β : Type}

/-- What a parser gives satisfies `P` where all identifiers ahead are simple names. -/
def Gives (P : α → Prop) (p : Parser α) : Prop :=
  ∀ s : Cursor, s.Simple → P (p.run s).1

namespace Gives

variable {P : α → Prop} {Q : β → Prop}

theorem pure {a : α} (h : P a) : Gives P (Pure.pure a : Parser α) :=
  fun _ _ => h

/-- What follows may rely on what was read before. -/
theorem bind {p : Parser β} {f : β → Parser α} (hp : Gives Q p) (hf : ∀ b, Q b → Gives P (f b)) :
    Gives P (p >>= f) :=
  fun s hs => hf _ (hp s hs) _ (hs.of_reaches (p.reaches s))

/-- A step whose result does not matter. -/
theorem skip {p : Parser β} {f : β → Parser α} (hf : ∀ b, Gives P (f b)) : Gives P (p >>= f) :=
  fun s hs => hf _ _ (hs.of_reaches (p.reaches s))

end Gives

/-- A name that is read is simple. -/
theorem expectIdent_simple (what : String) :
    Gives (fun name => ∀ n ∈ name, Name.isQualified n = false) (expectIdent what) := by
  intro s hs
  cases hrest : s.rest with
  | nil => simp [expectIdent, look, hrest]
  | cons t ts =>
    by_cases hkind : t.kind = .ident
    · have hname := hs t (hrest ▸ List.mem_cons_self) hkind
      simpa [expectIdent, look, hrest, hkind] using hname
    · simp [expectIdent, look, hrest, hkind]

/-- The head of a type gives a simple name, and no inner types. -/
theorem typeHead_simple :
    Gives (fun head => ∀ t ∈ head, Name.isQualified t.name = false ∧ t.types = []) typeHead := by
  refine .skip fun word => .skip fun _ => .skip fun node => .bind (expectIdent_simple _) fun name h => ?_
  cases name with
  | none => exact .skip fun _ => .pure (by simp)
  | some name =>
    have hend : ∀ bases interfaces, Gives
        (fun head : Option TypeDecl => ∀ t ∈ head, Name.isQualified t.name = false ∧ t.types = []) (do
          let properties ← properties
          return some { node, kind := typeKind (word.getD .error), name, bases, interfaces,
                        properties }) :=
      fun bases interfaces => .skip fun properties => .pure (by simpa using h)
    refine .skip fun extended => ?_
    dsimp only
    split
    all_goals
      refine .skip fun bases => .skip fun like => ?_
      split
      all_goals exact .skip fun interfaces => hend bases interfaces

/-! ### A body leaves what the head of its declaration says -/

/-- No member but a type changes the heading or the inner types. -/
theorem plainMember_frame (sec : BodySection) (t : TypeDecl) (s : Cursor) :
    ((plainMember sec t).run s).1.heading = t.heading ∧
      ((plainMember sec t).run s).1.types = t.types := by
  cases sec with
  | parameters => simp only [plainMember, run_bind]; split <;> exact ⟨rfl, rfl⟩
  | gates => exact ⟨rfl, rfl⟩
  | types => simp only [plainMember, run_bind]; split <;> exact ⟨rfl, rfl⟩
  | submodules => exact ⟨rfl, rfl⟩
  | connections => exact ⟨rfl, rfl⟩

/-- The body of a type leaves its heading. -/
theorem typeBodyFrom_heading (sec : BodySection) (t : TypeDecl) (s : Cursor) :
    (typeBodyFrom sec t s).1.heading = t.heading := by
  rw [typeBodyFrom]
  split
  · rfl
  · rename_i token rest hs
    have hne : s.rest ≠ [] := by simp [hs]
    split
    · rfl
    · split
      · exact typeBodyFrom_heading _ _ _
      · split
        · dsimp only
          split
          · exact typeBodyFrom_heading _ _ _
          · rfl
        · dsimp only
          split
          · exact (typeBodyFrom_heading _ _ _).trans (plainMember_frame sec t s).1
          · exact (typeBodyFrom_heading _ _ _).trans (plainMember_frame sec t s).1
termination_by s.rest.length
decreasing_by
  · exact length_run_skipOne_bind_lt _ hne
  · exact length_run_passOver_lt _ hne ((plainMember sec t).reaches s)
  · assumption
  · assumption

theorem typeBodyFrom_name (sec : BodySection) (t : TypeDecl) (s : Cursor) :
    (typeBodyFrom sec t s).1.name = t.name :=
  congrArg (·.2.1) (typeBodyFrom_heading sec t s)

mutual

/-- A type and all types inside it go by identifiers. -/
theorem typeDeclFrom_simple {s : Cursor} (hs : s.Simple) : ∀ t ∈ (typeDeclFrom s).1, t.Simple := by
  intro t ht
  have hhead := typeHead_simple s hs
  rw [typeDeclFrom] at ht
  dsimp only at ht
  split at ht
  · exact absurd ht (by simp)
  · rename_i head heq
    rw [heq] at hhead
    obtain ⟨hname, htypes⟩ := hhead head rfl
    have hinner : ∀ u ∈ head.types, u.Simple := by simp [htypes]
    split at ht
    · obtain rfl := Option.some.inj ht
      refine .intro ?_ ?_
      · exact (typeBodyFrom_name .parameters head (typeHead.run s).2.next).symm ▸ hname
      · exact typeBodyFrom_simple .parameters hinner
          ((hs.of_reaches (typeHead.reaches s)).of_reaches (Cursor.reaches_next _))
    · obtain rfl := Option.some.inj ht
      exact .intro hname hinner
termination_by (s.rest.length, 0)
decreasing_by
  rename_i h
  exact Prod.Lex.left _ _ (Nat.lt_of_lt_of_le
    (Cursor.length_next_lt (Cursor.rest_ne_nil_of_kind? h)) (typeHead.reaches s).length_le)

/-- Inner types have simple names, at any depth. -/
theorem typeBodyFrom_simple (sec : BodySection) {t : TypeDecl} (ht : ∀ u ∈ t.types, u.Simple)
    {s : Cursor} (hs : s.Simple) : ∀ u ∈ (typeBodyFrom sec t s).1.types, u.Simple := by
  rw [typeBodyFrom]
  split
  · exact ht
  · rename_i token rest hrest
    have hne : s.rest ≠ [] := by simp [hrest]
    split
    · exact ht
    · split
      · rename_i opened _
        exact typeBodyFrom_simple opened (t := ((typeSection opened t).run s).1) ht
          (hs.of_reaches ((typeSection opened t).reaches s))
      · split
        · have hmore : ∀ u ∈ t.types ++ (typeDeclFrom s).1.toList, u.Simple := by
            intro u hu
            rcases List.mem_append.mp hu with hu | hu
            · exact ht u hu
            · exact typeDeclFrom_simple hs u (Option.mem_toList.mp hu)
          dsimp only
          split
          · exact typeBodyFrom_simple sec hmore (hs.of_reaches (reaches_typeDeclFrom s))
          · exact hmore
        · have hmember : ∀ u ∈ ((plainMember sec t).run s).1.types, u.Simple :=
            (plainMember_frame sec t s).2.symm ▸ ht
          have hnext := hs.of_reaches ((plainMember sec t).reaches s)
          dsimp only
          split
          · exact typeBodyFrom_simple sec hmember hnext
          · exact typeBodyFrom_simple sec hmember (hnext.of_reaches ((passOver _).reaches _))
termination_by (s.rest.length, 1)
decreasing_by
  · exact Prod.Lex.left _ _ (length_run_skipOne_bind_lt _ hne)
  · exact Prod.Lex.left _ _ (length_run_passOver_lt _ hne ((plainMember sec t).reaches s))
  · exact Prod.Lex.left _ _ (by assumption)
  · exact Prod.Lex.right _ Nat.zero_lt_one
  · exact Prod.Lex.left _ _ (by assumption)

end

/-- One more item of a file brings no name with a point. -/
theorem fileItem_simple (k : Kind) {tree : Tree} (htree : ∀ t ∈ tree.types, t.Simple) :
    Gives (fun tree : Tree => ∀ t ∈ tree.types, t.Simple) (fileItem k tree) := by
  unfold fileItem
  split
  · refine .skip fun package => ?_
    split
    · exact .skip fun _ => .pure htree
    · exact .pure htree
  · split
    · exact .skip fun _ => .pure htree
    · split
      · exact .skip fun _ => .pure htree
      · split
        · exact .skip fun _ => .pure htree
        · split
          · refine .bind (Q := fun decl => ∀ t ∈ decl, t.Simple) (fun _ hs => typeDeclFrom_simple hs)
              fun decl hdecl => .pure fun t ht => ?_
            rcases List.mem_append.mp ht with ht | ht
            · exact htree t ht
            · exact hdecl t (Option.mem_toList.mp ht)
          · exact .skip fun _ => .skip fun _ => .pure htree

/-- The types of a file have simple names, at any depth. -/
theorem fileFrom_simple (tree : Tree) (s : Cursor) (hs : s.Simple)
    (htree : ∀ t ∈ tree.types, t.Simple) : ∀ t ∈ (fileFrom tree s).1.types, t.Simple := by
  fun_induction fileFrom tree s with
  | case1 => exact htree
  | case2 tree s token _ _ r _ ih =>
    exact ih (hs.of_reaches ((fileItem token.kind tree).reaches s))
      (fileItem_simple token.kind htree s hs)
  | case3 tree s token _ _ r _ => exact fileItem_simple token.kind htree s hs

end Parser

/-- **Types are declared under simple names,** mistakes in the text or not, and so are the types inside
them. -/
theorem Parse.simple_types (text : String) : ∀ t ∈ (Parse.ofText text).tree.types, t.Simple :=
  Parser.fileFrom_simple {} (Cursor.ofText text) (Cursor.simple_ofText text) (by simp)

end NedWorkspace
