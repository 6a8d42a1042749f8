/-
# Which tokens a tree can keep as text

The engine consumes declarations only, and what it does not look into a tree keeps as "opaque source slices"
and "opaque token runs" (SPEC_FULL, section 1, parser scope): qualified names, import specifications and
expressions. Where these stand can be told from the tokens alone. Names and import specifications are runs
of identifiers, points and stars. An expression stands behind the mark that opens it, a bracket, a sign of
equality or the `<` before a `like`, and goes at most as far as `Stretch.reach` says. `Stretch.Kept` puts
the two together, and `Stretch.Inner` says which blanks and comments can be inside of such a run.
-/

import NedWorkspace.Proofs.Token.Boundary
import NedWorkspace.Syntax.Member

namespace NedWorkspace

namespace Token

/-- A token without its place and the blanks and comments before it. -/
def word (t : Token) : Kind × String :=
  (t.kind, t.text)

theorem kind_of_word {t u : Token} (h : t.word = u.word) : t.kind = u.kind :=
  (Prod.mk.inj h).1

theorem text_of_word {t u : Token} (h : t.word = u.word) : t.text = u.text :=
  (Prod.mk.inj h).2

/-- The text that is kept of `n` tokens from place `i` on, as it stands in the source. -/
def keptText (ts : List Token) (i n : Nat) : String :=
  Text.trim (sourceText ((ts.drop i).take n))

/-- No mark is taken for a word. -/
def MarksNoWords (ts : List Token) : Prop :=
  ∀ t ∈ ts, ∀ m, t.kind = .mark m → Parser.isWord t.text = false

/-- The marks of a text are none. -/
theorem marksNoWords_of_tokenize {text : String} {ts : List Token} (h : ∀ t ∈ ts, t ∈ tokenize text) :
    MarksNoWords ts := by
  intro t ht m hm
  have hmarks : ∀ m ∈ Mark.all, Parser.isWord m.spelling = false := by decide
  rw [text_of_mark (h t ht) hm]
  exact hmarks m m.mem_all

/-- A word is no bracket. -/
theorem MarksNoWords.isBracket {ts : List Token} {t : Token} (h : MarksNoWords ts) (ht : t ∈ ts)
    (hword : Parser.isWord t.text = true) : t.kind.isOpening = false ∧ t.kind.isClosing = false := by
  cases hkind : t.kind with
  | mark m => exact absurd hword (by simp [h t ht m hkind])
  | _ => exact ⟨rfl, rfl⟩

/-- Runs with the same words, and with the same blanks and comments between them, have the same text. -/
theorem sourceText_congr {ts us : List Token} (hwords : ts.map word = us.map word)
    (hleads : ts.tail.map lead = us.tail.map lead) : sourceText ts = sourceText us := by
  cases ts with
  | nil => rw [List.map_eq_nil_iff.mp hwords.symm]
  | cons t ts =>
    obtain ⟨u, us, rfl, hword, htail⟩ := List.map_eq_cons_iff.mp hwords.symm
    rw [sourceText, sourceText, text_of_word hword]
    generalize t.text = text
    clear hwords hword
    rw [List.tail_cons, List.tail_cons] at hleads
    induction ts generalizing us text with
    | nil => rw [List.map_eq_nil_iff.mp htail]
    | cons t ts ih =>
      obtain ⟨v, vs, rfl, hword, htail⟩ := List.map_eq_cons_iff.mp htail
      obtain ⟨hlead, hleads⟩ := List.cons.inj hleads
      rw [List.foldl_cons, List.foldl_cons, text_of_word hword, hlead]
      exact ih _ hleads htail _

end Token

namespace Stretch

variable {ts us : List Token} {t : Token} {stops stops' : List Kind} {i k m n : Nat}

/-! ### How far an expression goes -/

/-- An expression that more kinds end is no longer. -/
theorem expression_le (hsub : stops ⊆ stops') (depth : Nat) (ts : List Token) :
    expression stops' depth ts ≤ expression stops depth ts := by
  induction ts generalizing depth with
  | nil => exact Nat.le_refl 0
  | cons t ts ih =>
    rw [expression, expression]
    split
    · exact Nat.zero_le _
    · rename_i hgo
      rw [if_neg fun h => hgo ⟨h.1, h.2.imp_left fun hmem => hsub hmem⟩]
      exact Nat.add_le_add_left (ih _) 1

/-- Behind an expression that ends at one of some kinds, the one that these do not end goes on. -/
theorem expression_split (stops : List Kind) (depth : Nat) (ts : List Token) :
    expression [] depth ts =
      expression stops depth ts + expression [] 0 (ts.drop (expression stops depth ts)) := by
  induction ts generalizing depth with
  | nil => rfl
  | cons t ts ih =>
    by_cases hend : depth = 0 ∧ (t.kind ∈ stops ∨ t.kind.isClosing)
    · rw [expression.eq_2 stops, if_pos hend, hend.1, List.drop_zero, Nat.zero_add]
    · have hgo : ¬ (depth = 0 ∧ (t.kind ∈ ([] : List Kind) ∨ t.kind.isClosing)) := fun h =>
        hend ⟨h.1, .inr (h.2.resolve_left List.not_mem_nil)⟩
      rw [expression.eq_2 stops, if_neg hend, expression, if_neg hgo, ih, Nat.add_comm 1, Nat.add_comm 1,
        List.drop_succ_cons]
      omega

/-- A token that is no bracket is part of an expression that only a bracket ends. -/
theorem expression_cons (hopening : t.kind.isOpening = false) (hclosing : t.kind.isClosing = false) :
    expression [] 0 (t :: ts) = 1 + expression [] 0 ts := by
  rw [expression, if_neg (by simp [hclosing]), depthAfter, if_neg (by simp [hopening]),
    if_neg (by simp [hclosing])]

/-! ### What can be kept -/

/-- How many tokens behind one of a kind an expression can have that this token opens. The values of a
property are separated by semicolons and commas, so only a bracket ends them all. -/
def reach : Kind → List Token → Nat
  | .mark .lparen => expression [] 0
  | .mark .lbracket | .mark .eq | .mark .lt => expression [.mark .semicolon] 0
  | _ => fun _ => 0

/-- `reach` from the token at a place. -/
def reachFrom (ts : List Token) (k : Nat) : Nat :=
  match ts.drop k with
  | [] => 0
  | t :: us => reach t.kind us

/-- **The `n` tokens from place `i` on can be kept as text:** they are parts of a name or of an import
specification, or they are in the reach of a token before them. -/
inductive Kept (ts : List Token) : Nat → Nat → Prop
  | parts {i n : Nat} (h : ∀ t ∈ (ts.drop i).take n, isImportPart t.kind = true) : Kept ts i n
  | behind {k i n : Nat} (h : i + n ≤ reachFrom ts k) : Kept ts (k + 1 + i) n

namespace Kept

/-- Of no tokens nothing is kept. -/
theorem zero (ts : List Token) (i : Nat) : Kept ts i 0 :=
  .parts fun t ht => absurd ht (by simp)

/-- What is kept to a length is kept to any shorter one. -/
theorem mono (h : Kept ts i n) (hm : m ≤ n) : Kept ts i m := by
  cases h with
  | parts h => exact .parts fun t ht => h t ((List.take_prefix_take_left hm).mem ht)
  | behind h => exact .behind ((Nat.add_le_add_left hm _).trans h)

/-- What is left of a run behind some of its tokens. -/
theorem skip (h : Kept ts i (m + n)) : Kept ts (i + m) n := by
  cases h with
  | parts h =>
    refine .parts fun t ht => h t ?_
    rw [← List.drop_drop] at ht
    rw [List.take_add]
    exact List.mem_append_right _ ht
  | @behind k i _ h =>
    rw [Nat.add_assoc (k + 1)]
    exact .behind ((Nat.add_assoc i m n).trans_le h)

/-- What is kept behind some tokens is kept that far further on. -/
theorem of_drop (h : Kept (ts.drop k) i n) : Kept ts (k + i) n := by
  cases h with
  | parts h => exact .parts (List.drop_drop ▸ h)
  | @behind j i _ h =>
    have hreach : reachFrom (ts.drop k) j = reachFrom ts (k + j) := by
      rw [reachFrom, reachFrom, List.drop_drop]
    rw [show k + (j + 1 + i) = k + j + 1 + i by omega]
    exact .behind (hreach ▸ h)

end Kept

/-- What one token opens lies behind it. -/
theorem kept_reach (t : Token) (ts : List Token) : Kept (t :: ts) 1 (reach t.kind ts) :=
  .behind (k := 0) (i := 0) (Nat.zero_add _).le

/-- What goes on with a name is made of parts. -/
theorem isImportPart_of_mem_nameTail (h : t ∈ ts.take (nameTail ts)) : isImportPart t.kind = true := by
  fun_induction nameTail ts with
  | case1 d i ts hkinds ih =>
    rw [Nat.add_comm, List.take_succ_cons, List.take_succ_cons] at h
    rcases List.mem_cons.mp h with rfl | h
    · rw [hkinds.1]
      rfl
    · rcases List.mem_cons.mp h with rfl | h
      · rw [hkinds.2]
        rfl
      · exact ih h
  | case2 => exact absurd h (by simp)
  | case3 => exact absurd h (by simp)

/-! ### Inside and outside -/

/-- **The blanks and comments before the token at place `i` can be inside of a kept text:** the token and
the one before are both parts of a name or of an import specification, or both are in one reach. -/
def Inner (ts : List Token) (i : Nat) : Prop :=
  0 < i ∧ ((∀ t ∈ (ts.drop (i - 1)).take 2, isImportPart t.kind = true) ∨
    ∃ k < i, k + 1 < i ∧ i ≤ k + reachFrom ts k)

instance (ts : List Token) (i : Nat) : Decidable (Inner ts i) :=
  inferInstanceAs (Decidable (_ ∧ (_ ∨ _)))

/-- Only what stands between the tokens of a run is inside. -/
theorem Kept.inner (h : Kept ts k n) (hlt : k < i) (hi : i < k + n) : Inner ts i := by
  refine ⟨Nat.zero_lt_of_lt hlt, ?_⟩
  cases h with
  | parts h =>
    refine .inl fun t ht => h t ?_
    rw [show i - 1 = k + (i - 1 - k) by omega, ← List.drop_drop] at ht
    rw [show n = (i - 1 - k) + (n - (i - 1 - k)) by omega, List.take_add]
    exact List.mem_append_right _ ((List.take_prefix_take_left (by omega)).mem ht)
  | @behind k j _ h => exact .inr ⟨k, by omega, by omega, by omega⟩

end Stretch

end NedWorkspace
