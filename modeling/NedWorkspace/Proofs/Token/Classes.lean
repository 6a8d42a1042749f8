/-
# What patterns look for

Each class of lexemes is a language (`Scan.words`), written as a regular expression over classes of
characters. A pattern finds the longest word of its language that a text begins with, and finds none
exactly if the text begins with none (`Scan.Finds`).

A pattern looks at the characters once, from left to right, and never has to take back what it read but
for an exponent that is not finished. This works because what may follow a repetition never begins with
what is repeated, and it is proved in that way: a lemma for each way of putting languages together
(`Scan.Finds.many`, `Scan.Finds.after`, `Scan.Finds.perhaps`) and one for each pattern.
-/

import Mathlib.Computability.Language
import NedWorkspace.Proofs.Token.Spell

namespace NedWorkspace

open scoped Computability

namespace Scan

/-! ### The languages -/

/-- One character of a class. -/
def one (p : Char → Bool) : Language Char :=
  fun w => ∃ c, p c = true ∧ w = [c]

/-- One or more characters of a class. -/
def several (p : Char → Bool) : Language Char :=
  one p * (one p)∗

/-- The sign of an exponent. -/
def isSign (c : Char) : Bool :=
  c == '+' || c == '-'

/-- The letter of an exponent. -/
def isExponent (c : Char) : Bool :=
  c == 'e' || c == 'E'

/-- The letter of a gate half. -/
def isHalf (c : Char) : Bool :=
  c == 'i' || c == 'o'

/-- What a string is made of: any character but a quote or a backslash, or a backslash and any character
but a line feed. -/
def item : Language Char :=
  one (fun c => c != '"' && c != '\\') + one (· == '\\') * one (· != '\n')

/-- The words of a class of lexemes. -/
def words : Kind → Language Char
  | .blank => several isSeparator
  | .comment => one (· == '/') * (one (· == '/') * (one (· != '\n'))∗)
  | .keyword k => {k.spelling.toList}
  | .ident => one isNameStart * ((one isNamePart)∗ * (1 + one (· == '$') * one isHalf))
  | .integer => several Char.isDigit
  | .real => (one Char.isDigit)∗ * (one (· == '.') * (one Char.isDigit * ((one Char.isDigit)∗ *
      (1 + one isExponent * ((1 + one isSign) * several Char.isDigit)))))
  | .string => one (· == '"') * (item∗ * one (· == '"'))
  | .mark m => {m.spelling.toList}
  | .error => 0

/-- The longest word of a language that a text begins with has this length, or there is none. -/
structure Finds (l : Language Char) (cs : List Char) (found : Option Nat) : Prop where
  sound : ∀ n ∈ found, n ≤ cs.length ∧ cs.take n ∈ l
  complete : ∀ w ∈ l, w <+: cs → ∃ n ∈ found, w.length ≤ n

/-! ### Putting languages together -/

variable {p q : Char → Bool} {l m : Language Char} {c : Char} {cs w : List Char} {found : Option Nat}

/-- A word of one character and a language is that character before a word of the language. -/
theorem mem_one_mul : w ∈ one p * l ↔ ∃ c v, p c = true ∧ v ∈ l ∧ w = c :: v := by
  rw [Language.mem_mul]
  constructor
  · rintro ⟨_, ⟨c, hc, rfl⟩, v, hv, rfl⟩
    exact ⟨c, v, hc, hv, rfl⟩
  · rintro ⟨c, v, hc, hv, rfl⟩
    exact ⟨[c], ⟨c, hc, rfl⟩, v, hv, rfl⟩

/-- A word of characters of one class is one whose characters are all of it. -/
theorem mem_many : w ∈ (one p)∗ ↔ ∀ c ∈ w, p c = true := by
  rw [Language.mem_kstar]
  constructor
  · rintro ⟨ws, rfl, hws⟩ c hc
    obtain ⟨v, hv, hcv⟩ := List.mem_flatten.mp hc
    obtain ⟨d, hd, rfl⟩ := hws v hv
    exact List.mem_singleton.mp hcv ▸ hd
  · intro h
    refine ⟨w.map ([·]), by simp [← List.flatMap_def], fun v hv => ?_⟩
    obtain ⟨c, hc, rfl⟩ := List.mem_map.mp hv
    exact ⟨c, h c hc, rfl⟩

/-- A word more. -/
theorem append_mem_kstar {u v : List Char} (hu : u ∈ l) (hv : v ∈ l∗) : u ++ v ∈ l∗ := by
  obtain ⟨ws, rfl, hws⟩ := Language.mem_kstar.mp hv
  exact Language.mem_kstar.mpr ⟨u :: ws, rfl, List.forall_mem_cons.mpr ⟨hu, hws⟩⟩

/-- No word of the language begins with a character of the class. -/
def Unlike (p : Char → Bool) (l : Language Char) : Prop :=
  ∀ w ∈ l, ∀ c, w.head? = some c → p c = false

/-- Words that begin with characters of another class do not go on with this one. -/
theorem unlike_one_mul (h : ∀ c, q c = true → p c = false) : Unlike p (one q * l) := by
  intro w hw c hc
  obtain ⟨d, v, hd, _, rfl⟩ := mem_one_mul.mp hw
  exact h c (Option.some.inj hc ▸ hd)

theorem unlike_nil : Unlike p 1 := by
  intro w hw c hc
  rw [(Language.mem_one w).mp hw] at hc
  exact absurd hc (by simp)

/-- What may be left out does not go on with a class if, when there, it does not. -/
theorem Unlike.perhaps (h : Unlike p l) : Unlike p (1 + l) := by
  intro w hw
  rcases (Language.mem_add _ _ _).mp hw with hw | hw
  · exact unlike_nil w hw
  · exact h w hw

/-- The empty word is there in any text. -/
theorem finds_nil (cs : List Char) : Finds 1 cs (some 0) where
  sound n hn := by
    obtain rfl := Option.mem_some.mp hn
    exact ⟨Nat.zero_le _, rfl⟩
  complete w hw _ := ⟨0, rfl, by rw [(Language.mem_one w).mp hw, List.length_nil]⟩

/-- Words that are never longer than what is found make no difference. -/
theorem Finds.add (h : Finds l cs found) (hm : ∀ w ∈ m, w <+: cs → ∃ n ∈ found, w.length ≤ n) :
    Finds (m + l) cs found where
  sound n hn := ⟨(h.sound n hn).1, (Language.mem_add _ _ _).mpr (.inr (h.sound n hn).2)⟩
  complete w hw := ((Language.mem_add _ _ _).mp hw).elim (hm w) (h.complete w)

/-- A word that may be missing. -/
theorem Finds.perhaps (h : Finds l cs found) : Finds (1 + l) cs (some (found.getD 0)) := by
  cases found with
  | none =>
    rw [add_comm]
    exact (finds_nil cs).add fun w hw hpre => absurd (h.complete w hw hpre) (by simp)
  | some n =>
    exact h.add fun w hw _ => ⟨n, rfl, by rw [(Language.mem_one w).mp hw]; exact Nat.zero_le n⟩

/-- One character and then a word. -/
theorem Finds.after (h : Finds l cs found) (hc : p c = true) :
    Finds (one p * l) (c :: cs) (found.map (· + 1)) where
  sound n hn := by
    obtain ⟨k, hk, rfl⟩ := Option.mem_map.mp hn
    obtain ⟨hle, hmem⟩ := h.sound k hk
    exact ⟨Nat.succ_le_succ hle, mem_one_mul.mpr ⟨c, _, hc, hmem, rfl⟩⟩
  complete w hw hpre := by
    obtain ⟨d, v, _, hv, rfl⟩ := mem_one_mul.mp hw
    obtain ⟨k, hk, hle⟩ := h.complete v hv (List.cons_prefix_cons.mp hpre).2
    exact ⟨k + 1, Option.mem_map_of_mem _ hk, Nat.succ_le_succ hle⟩

/-- A character is found before whatever is found behind it. -/
theorem Finds.afterChar (h : Finds l cs found) (c : Char) :
    Finds (one (· == c) * l) (c :: cs) (found.map (· + 1)) :=
  h.after (beq_self_eq_true c)

/-- Something else at the beginning. -/
theorem finds_none (h : ∀ d, cs.head? = some d → p d = false) : Finds (one p * l) cs none where
  sound n hn := absurd hn (by simp)
  complete w hw hpre := by
    obtain ⟨d, v, hd, _, rfl⟩ := mem_one_mul.mp hw
    obtain ⟨more, rfl⟩ := hpre
    exact absurd hd (by rw [h d rfl]; exact Bool.false_ne_true)

/-- A character that may be missing, and then a word that does not begin like it. -/
theorem Finds.afterPerhaps (hunlike : Unlike p l) (h : Finds l cs found) (hc : p c = true) :
    Finds ((1 + one p) * l) (c :: cs) (found.map (· + 1)) := by
  rw [add_mul, one_mul]
  refine (h.after hc).add fun w hw hpre => ?_
  cases w with
  | nil =>
    obtain ⟨n, hn, _⟩ := h.complete [] hw List.nil_prefix
    exact ⟨n + 1, Option.mem_map_of_mem _ hn, Nat.zero_le _⟩
  | cons d w =>
    obtain ⟨rfl, _⟩ := List.cons_prefix_cons.mp hpre
    exact absurd hc (by rw [hunlike _ hw d rfl]; exact Bool.false_ne_true)

/-- A character that is missing. -/
theorem Finds.missing (h : Finds l cs found) (hcs : ∀ d, cs.head? = some d → p d = false) :
    Finds ((1 + one p) * l) cs found := by
  rw [add_mul, one_mul, add_comm]
  exact h.add fun w hw hpre => absurd ((finds_none hcs).complete w hw hpre) (by simp)

/-- If what follows a repetition begins with something else, the repetition took all it could. -/
theorem prefix_of_many {u v : List Char} (hu : ∀ c ∈ u, p c = true)
    (hv : ∀ c, v.head? = some c → p c = false) (h : u ++ v <+: cs) :
    u.length ≤ (cs.takeWhile p).length ∧ v <+: cs.drop (cs.takeWhile p).length := by
  obtain ⟨more, rfl⟩ := h
  rw [List.append_assoc, List.takeWhile_append_of_pos hu]
  refine ⟨by simp, ?_⟩
  cases v with
  | nil => exact List.nil_prefix
  | cons c v =>
    have hstop : (c :: v ++ more).takeWhile p = [] := by simp [hv c rfl]
    rw [hstop, List.append_nil, List.drop_left]
    exact List.prefix_append _ _

/-- As many characters of a class as there are, and then a word that begins with none of them. -/
theorem Finds.many (cs : List Char) (hunlike : Unlike p l)
    (h : Finds l (cs.drop (cs.takeWhile p).length) found) :
    Finds ((one p)∗ * l) cs (found.map ((cs.takeWhile p).length + ·)) where
  sound n hn := by
    obtain ⟨k, hk, rfl⟩ := Option.mem_map.mp hn
    obtain ⟨hle, hmem⟩ := h.sound k hk
    have hwhile := (List.takeWhile_prefix (l := cs) p).length_le
    rw [List.length_drop] at hle
    rw [List.take_add, take_length_takeWhile]
    exact ⟨by omega, Language.mem_mul.mpr
      ⟨_, mem_many.mpr fun c hc => List.mem_takeWhile_imp hc, _, hmem, rfl⟩⟩
  complete w hw hpre := by
    obtain ⟨u, hu, v, hv, rfl⟩ := Language.mem_mul.mp hw
    obtain ⟨hlen, hvpre⟩ := prefix_of_many (mem_many.mp hu) (hunlike v hv) hpre
    obtain ⟨k, hk, hle⟩ := h.complete v hv hvpre
    exact ⟨_, Option.mem_map_of_mem _ hk, by rw [List.length_append]; exact Nat.add_le_add hlen hle⟩

/-! ### Each pattern -/

/-- A spelling is found where it is ahead. -/
theorem finds_exactly (word cs : List Char) : Finds {word} cs (exactly word cs) := by
  rw [exactly]
  split
  · rename_i hpre
    rw [List.isPrefixOf_iff_prefix] at hpre
    refine ⟨fun n hn => ?_, fun w hw _ => ⟨_, rfl, (congrArg List.length hw).le⟩⟩
    obtain rfl := Option.mem_some.mp hn
    exact ⟨hpre.length_le, (List.prefix_iff_eq_take.mp hpre).symm⟩
  · rename_i hpre
    rw [List.isPrefixOf_iff_prefix] at hpre
    refine ⟨fun n hn => absurd hn (by simp), fun w hw hmem => absurd hmem ?_⟩
    rwa [show w = word from hw]

/-- Of a class of characters, as many are found as are ahead. -/
theorem finds_many (cs : List Char) : Finds (one p)∗ cs (some (cs.takeWhile p).length) := by
  have hfinds := Finds.many cs (unlike_nil (p := p)) (finds_nil _)
  rwa [mul_one] at hfinds

/-- A run is found if there is one character at least. -/
theorem finds_run (p : Char → Bool) (cs : List Char) : Finds (several p) cs (run p cs) := by
  cases cs with
  | nil => exact finds_none (by simp)
  | cons c cs =>
    rw [run, List.takeWhile_cons]
    cases hc : p c with
    | true => exact (finds_many cs).after hc
    | false => exact finds_none (by simp [hc])

theorem finds_one (p : Char → Bool) (cs : List Char) :
    Finds (one p) cs (if cs.head?.any p = true then some 1 else none) := by
  rw [← mul_one (one p)]
  cases cs with
  | nil => exact finds_none (by simp)
  | cons c cs =>
    rw [List.head?_cons, Option.any_some]
    split
    · rename_i hc
      exact (finds_nil cs).after hc
    · rename_i hc
      exact finds_none (by simpa using hc)

/-- A comment is found up to the end of its line. -/
theorem finds_comment (cs : List Char) : Finds (words .comment) cs (comment cs) := by
  rw [comment]
  split
  · rename_i hslashes
    obtain ⟨more, rfl⟩ := List.isPrefixOf_iff_prefix.mp hslashes
    exact ((finds_many more).afterChar '/').afterChar '/'
  · rename_i hslashes
    cases cs with
    | nil => exact finds_none (by simp)
    | cons c cs =>
      by_cases hc : c = '/'
      · subst hc
        have hnext : ∀ d, cs.head? = some d → (d == '/') = false := by
          intro d hd
          obtain ⟨more, rfl⟩ := List.head?_eq_some_iff.mp hd
          rw [beq_eq_false_iff_ne]
          rintro rfl
          exact hslashes rfl
        exact (finds_none hnext).afterChar '/'
      · exact finds_none (by simpa using hc)

/-- A dollar sign must have one of the two letters behind it. -/
theorem halfSuffix_dollar (cs : List Char) :
    halfSuffix ('$' :: cs) = if cs.head?.any isHalf = true then 2 else 0 := by
  cases cs with
  | nil => rfl
  | cons d cs => simp [halfSuffix_cons_cons, isHalf]

theorem halfSuffix_of_ne {c : Char} (hc : c ≠ '$') (cs : List Char) : halfSuffix (c :: cs) = 0 := by
  cases cs with
  | nil => exact halfSuffix_singleton c
  | cons d cs => rw [halfSuffix_cons_cons, if_neg fun h => hc h.1]

/-- The half of a gate's name is found where it is ahead. -/
theorem finds_halfSuffix (cs : List Char) :
    Finds (1 + one (· == '$') * one isHalf) cs (some (halfSuffix cs)) := by
  cases cs with
  | nil => exact (finds_none (by simp)).perhaps
  | cons c cs =>
    by_cases hc : c = '$'
    · subst hc
      have hfinds := ((finds_one isHalf cs).afterChar '$').perhaps
      rw [halfSuffix_dollar]
      split <;> simpa [*] using hfinds
    · rw [halfSuffix_of_ne hc]
      exact (finds_none (by simpa using hc)).perhaps

/-- A name is found with the half of a gate behind it. -/
theorem finds_ident (cs : List Char) : Finds (words .ident) cs (ident cs) := by
  cases cs with
  | nil => exact finds_none (by simp)
  | cons c cs =>
    rw [ident]
    split
    · rename_i hc
      have hunlike : Unlike isNamePart (1 + one (· == '$') * one isHalf) := by
        refine Unlike.perhaps (unlike_one_mul fun d hd => ?_)
        rw [eq_of_beq hd]
        decide
      have hfinds := ((finds_halfSuffix _).many cs hunlike).after hc
      rw [Option.map_some, Option.map_some, Nat.add_comm, ← Nat.add_assoc] at hfinds
      exact hfinds
    · rename_i hc
      exact finds_none (by simpa using hc)

/-! ### Numbers -/

/-- The number of signs at the beginning, of which only one counts. -/
def signs (cs : List Char) : Nat :=
  if cs.head?.any isSign = true then 1 else 0

/-- A number may have a sign. -/
theorem finds_signed (cs : List Char) : Finds ((1 + one isSign) * several Char.isDigit) cs
    ((run Char.isDigit (cs.drop (signs cs))).map (signs cs + ·)) := by
  have hunlike : Unlike isSign (several Char.isDigit) := by
    refine unlike_one_mul fun c hc => Bool.eq_false_iff.mpr fun hsign => ?_
    rw [isSign, Bool.or_eq_true, beq_iff_eq, beq_iff_eq] at hsign
    exact absurd hc (by rcases hsign with rfl | rfl <;> decide)
  have hnone : ∀ cs : List Char, cs.head?.any isSign = false → signs cs = 0 ∧
      ∀ d, cs.head? = some d → isSign d = false := by
    intro cs h
    exact ⟨if_neg (by simp [h]), fun d hd => by simpa [hd] using h⟩
  cases hhead : cs.head?.any isSign with
  | false =>
    rw [(hnone cs hhead).1]
    simpa using (finds_run Char.isDigit cs).missing (hnone cs hhead).2
  | true =>
    have hone : signs cs = 1 := if_pos hhead
    cases cs with
    | nil => exact absurd hhead (by simp)
    | cons s cs =>
      have hfinds := (finds_run Char.isDigit cs).afterPerhaps hunlike (by simpa using hhead)
      rw [hone]
      simpa [Nat.add_comm] using hfinds

theorem exponent_cons (e : Char) (cs : List Char) : exponent (e :: cs) =
    if isExponent e = true then
      (((run Char.isDigit (cs.drop (signs cs))).map (signs cs + ·)).map (· + 1)).getD 0
    else 0 := by
  cases cs with
  | nil => exact (ite_self 0).trans (ite_self 0).symm
  | cons s cs =>
    have hsigns : signs (s :: cs) = if (s == '+' || s == '-') = true then 1 else 0 := rfl
    simp only [exponent, hsigns, run]
    refine if_congr Iff.rfl ?_ rfl
    generalize (if (s == '+' || s == '-') = true then 1 else 0) = k
    cases (((s :: cs).drop k).takeWhile Char.isDigit).length with
    | zero => rfl
    | succ n =>
      simp only [Option.map_some, Option.getD_some]
      omega

/-- An exponent that is not finished is not taken. -/
theorem finds_exponent (cs : List Char) :
    Finds (1 + one isExponent * ((1 + one isSign) * several Char.isDigit)) cs (some (exponent cs)) := by
  cases cs with
  | nil => exact (finds_none (by simp)).perhaps
  | cons e cs =>
    rw [exponent_cons]
    split
    · rename_i he
      exact ((finds_signed cs).after he).perhaps
    · rename_i he
      exact (finds_none (by simpa using he)).perhaps

/-- An exponent does not go on with digits. -/
theorem unlike_exponent {l : Language Char} : Unlike Char.isDigit (1 + one isExponent * l) := by
  refine Unlike.perhaps (unlike_one_mul fun c hc => ?_)
  rw [isExponent, Bool.or_eq_true, beq_iff_eq, beq_iff_eq] at hc
  rcases hc with rfl | rfl <;> decide

/-- The digits behind the point, of which there is at least one, and what comes after them. -/
theorem finds_fraction (cs : List Char) :
    Finds (one Char.isDigit * ((one Char.isDigit)∗ *
      (1 + one isExponent * ((1 + one isSign) * several Char.isDigit)))) cs
      (if (cs.takeWhile Char.isDigit).length = 0 then none
        else some ((cs.takeWhile Char.isDigit).length +
          exponent (cs.drop (cs.takeWhile Char.isDigit).length))) := by
  cases cs with
  | nil => exact finds_none (by simp)
  | cons d cs =>
    cases hd : d.isDigit with
    | false =>
      rw [List.takeWhile_cons, hd, if_neg Bool.false_ne_true, List.length_nil, if_pos rfl]
      exact finds_none (by simpa using hd)
    | true =>
      have hfinds := ((finds_exponent _).many cs unlike_exponent).after hd
      simpa [hd, Nat.add_right_comm] using hfinds

/-- A point, the digits behind it, and perhaps an exponent. -/
def fractional : Pattern
  | [] => none
  | point :: tail =>
    let fraction := (tail.takeWhile Char.isDigit).length
    if point == '.' && fraction != 0 then
      some (1 + fraction + exponent (tail.drop fraction))
    else none

/-- A point is part of a number if a digit follows it. -/
theorem finds_fractional (cs : List Char) :
    Finds (one (· == '.') * (one Char.isDigit * ((one Char.isDigit)∗ *
      (1 + one isExponent * ((1 + one isSign) * several Char.isDigit))))) cs (fractional cs) := by
  cases cs with
  | nil => exact finds_none (by simp)
  | cons point tail =>
    by_cases hpoint : point = '.'
    · subst hpoint
      have hfinds := (finds_fraction tail).afterChar '.'
      rw [fractional]
      split at hfinds
      · simpa [*] using hfinds
      · rename_i hsome
        simp only [Option.map_some] at hfinds
        rw [if_pos (by simpa using hsome), Nat.add_assoc, Nat.add_comm]
        exact hfinds
    · have hbeq : (point == '.') = false := beq_eq_false_iff_ne.mpr hpoint
      rw [fractional, hbeq, Bool.false_and]
      exact finds_none (by simpa using hpoint)

/-- The digits before the point are taken first. -/
theorem real_eq (cs : List Char) : real cs =
    (fractional (cs.drop (cs.takeWhile Char.isDigit).length)).map
      ((cs.takeWhile Char.isDigit).length + ·) := by
  rw [real]
  dsimp only
  cases cs.drop (cs.takeWhile Char.isDigit).length with
  | nil => rfl
  | cons point tail =>
    rw [fractional]
    dsimp only
    split
    · simp only [Option.map_some, Nat.add_assoc]
    · rfl

/-- A number with a point is found as far as it goes. -/
theorem finds_real (cs : List Char) : Finds (words .real) cs (real cs) := by
  rw [real_eq]
  refine (finds_fractional _).many cs (unlike_one_mul fun c hc => ?_)
  rw [eq_of_beq hc]
  decide

/-! ### Strings -/

theorem items_quote (cs : List Char) : items ('"' :: cs) = 0 := by
  rw [items.eq_def]
  rfl

/-- Complete items are passed. -/
theorem items_append_of_mem {w : List Char} (hw : w ∈ item∗) (cs : List Char) :
    items (w ++ cs) = w.length + items cs := by
  obtain ⟨ws, rfl, hws⟩ := Language.mem_kstar.mp hw
  clear hw
  induction ws with
  | nil => simp
  | cons v ws ih =>
    rw [List.forall_mem_cons] at hws
    rw [List.flatten_cons, List.append_assoc, List.length_append, Nat.add_assoc, ← ih hws.2]
    rcases (Language.mem_add _ _ _).mp hws.1 with ⟨c, hc, rfl⟩ | hescape
    · rw [Bool.and_eq_true, bne_iff_ne, bne_iff_ne] at hc
      rw [List.singleton_append, items.eq_def]
      simp [hc.1, hc.2]
    · obtain ⟨c, _, hc, ⟨d, hd, rfl⟩, rfl⟩ := mem_one_mul.mp hescape
      obtain rfl : c = '\\' := eq_of_beq hc
      have hnewline : d ≠ '\n' := by simpa using hd
      simp [items, hnewline]

/-- What is counted as items of a string are items of a string. -/
theorem take_items (cs : List Char) : items cs ≤ cs.length ∧ cs.take (items cs) ∈ item∗ := by
  have hnone : ([] : List Char) ∈ item∗ := Language.nil_mem_kstar _
  fun_induction items cs with
  | case1 => exact ⟨Nat.le_refl 0, hnone⟩
  | case2 c cs hquote => exact ⟨Nat.zero_le _, hnone⟩
  | case3 c hquote hback => exact ⟨Nat.zero_le _, hnone⟩
  | case4 c hquote hback d es hnewline => exact ⟨Nat.zero_le _, hnone⟩
  | case5 c hquote hback d es hnewline ih =>
    have hitem : [c, d] ∈ item := (Language.mem_add _ _ _).mpr
      (.inr (mem_one_mul.mpr ⟨c, [d], hback, ⟨d, by simpa using hnewline, rfl⟩, rfl⟩))
    refine ⟨by simp only [List.length_cons]; omega, ?_⟩
    rw [Nat.add_comm]
    exact append_mem_kstar hitem ih.2
  | case6 c cs hquote hback ih =>
    have hitem : [c] ∈ item := (Language.mem_add _ _ _).mpr (.inl
      ⟨c, by simpa using ⟨by simpa using hquote, by simpa using hback⟩, rfl⟩)
    refine ⟨by simp only [List.length_cons]; omega, ?_⟩
    rw [Nat.add_comm]
    exact append_mem_kstar hitem ih.2

/-- Of the items of a string, as many are found as are ahead. -/
theorem finds_items (cs : List Char) : Finds item∗ cs (some (items cs)) where
  sound n hn := by
    obtain rfl := Option.mem_some.mp hn
    exact take_items cs
  complete w hw hpre := by
    obtain ⟨more, rfl⟩ := hpre
    exact ⟨_, rfl, by rw [items_append_of_mem hw]; exact Nat.le_add_right _ _⟩

/-- Complete items and then a quote. -/
theorem finds_closed (cs : List Char) : Finds (item∗ * one (· == '"')) cs
    (if (cs.drop (items cs)).head? == some '"' then some (items cs + 1) else none) where
  sound n hn := by
    split at hn
    · rename_i hquote
      obtain rfl := Option.mem_some.mp hn
      obtain ⟨more, hmore⟩ := List.head?_eq_some_iff.mp (eq_of_beq hquote)
      have hlen := congrArg List.length hmore
      rw [List.length_drop, List.length_cons] at hlen
      rw [List.take_add, hmore]
      exact ⟨by omega, Language.mem_mul.mpr ⟨_, (take_items cs).2, ['"'], ⟨'"', rfl, rfl⟩, rfl⟩⟩
    · exact absurd hn (by simp)
  complete w hw hpre := by
    obtain ⟨u, hu, _, ⟨c, hc, rfl⟩, rfl⟩ := Language.mem_mul.mp hw
    obtain rfl : c = '"' := eq_of_beq hc
    obtain ⟨more, rfl⟩ := hpre
    have hitems : items (u ++ ['"'] ++ more) = u.length := by
      rw [List.append_assoc, items_append_of_mem hu, List.singleton_append, items_quote, Nat.add_zero]
    rw [hitems, List.append_assoc, List.drop_left, List.length_append]
    exact ⟨_, rfl, Nat.le_refl _⟩

/-- A string is found from quote to quote. -/
theorem finds_quoted (cs : List Char) : Finds (words .string) cs (quoted cs) := by
  cases cs with
  | nil => exact finds_none (by simp)
  | cons c cs =>
    by_cases hc : c = '"'
    · subst hc
      have hfinds := (finds_closed cs).afterChar '"'
      rw [quoted, beq_self_eq_true, Bool.true_and]
      split
      · rename_i hclosed
        rwa [if_pos hclosed] at hfinds
      · rename_i hopen
        rwa [if_neg hopen] at hfinds
    · rw [quoted_of_ne hc]
      exact finds_none (by simpa using hc)

end Scan

end NedWorkspace
