/-
# The lines of a text

A line ends with a line feed. In UTF-8 the byte of a line feed is part of no other character
(`Text.lineFeed_notMem`), so the breaks that are counted over the characters of a text are those that its
bytes show (`LineIndex.breaks_ofText`). Hence the line of an offset is the number of line feeds before it,
and its column the distance from where that line begins (`Text.BeginsLine`), also behind the end of the text.

The beginnings of the lines are in ascending order, so a search among them for an offset, whatever it answers,
leads to the line of the offset (`LineIndex.line_of_searched`). The main result is `LineIndex.position_exact`.
-/

import Mathlib.Data.List.Induction
import Mathlib.Data.String.Basic
import NedWorkspace.Proofs.Text.Position

namespace NedWorkspace

namespace Text

/-- The bytes of a text in UTF-8. -/
def bytes (text : String) : List UInt8 :=
  text.toUTF8.data.toList

/-- The bytes of a text are those of its characters, in order. -/
theorem bytes_eq (text : String) : bytes text = text.toList.flatMap String.utf8EncodeChar := by
  conv => lhs; rw [← String.ofList_toList (s := text)]
  rw [bytes, String.toUTF8_eq_toByteArray, String.toByteArray_ofList]
  exact List.toList_data_toByteArray

/-- The byte of a line feed. -/
def lineFeed : UInt8 := 10

/-- A line feed is one byte. -/
theorem utf8EncodeChar_lineFeed : String.utf8EncodeChar '\n' = [lineFeed] := rfl

/-- No byte of a longer encoding is a line feed. -/
theorem lineFeed_ne_ofNat {n : Nat} (hlow : 128 ≤ n) (hhigh : n < 256) : lineFeed ≠ UInt8.ofNat n := by
  intro h
  have hvalue := congrArg UInt8.toNat h
  rw [UInt8.toNat_ofNat_of_lt' hhigh, show lineFeed.toNat = 10 from rfl] at hvalue
  omega

/-- The byte of a line feed is part of no other character: where a character takes several bytes, all are
at least 128. -/
theorem lineFeed_notMem {c : Char} (h : c ≠ '\n') : lineFeed ∉ String.utf8EncodeChar c := by
  unfold String.utf8EncodeChar
  dsimp only
  split
  · rename_i hascii
    rw [List.mem_singleton]
    intro heq
    have hvalue := congrArg UInt8.toNat heq
    rw [UInt8.toNat_ofNat_of_lt' (Nat.lt_of_le_of_lt hascii (by decide)),
      show lineFeed.toNat = 10 from rfl] at hvalue
    exact h (Char.ext (UInt32.toNat_inj.mp hvalue.symm))
  · split
    · simp only [List.mem_cons, List.not_mem_nil, or_false, not_or]
      refine ⟨?_, ?_⟩ <;> exact lineFeed_ne_ofNat (by omega) (by omega)
    · split
      · simp only [List.mem_cons, List.not_mem_nil, or_false, not_or]
        refine ⟨?_, ?_, ?_⟩ <;> exact lineFeed_ne_ofNat (by omega) (by omega)
      · simp only [List.mem_cons, List.not_mem_nil, or_false, not_or]
        refine ⟨?_, ?_, ?_, ?_⟩ <;> exact lineFeed_ne_ofNat (by omega) (by omega)

/-- A line of a text begins behind so many line feeds, and right behind the last of them. -/
structure BeginsLine (text : List UInt8) (line start : Nat) : Prop where
  count : (text.take start).count lineFeed = line
  behind : start = 0 ∨ text[start - 1]? = some lineFeed

/-- A line that begins in the front of a text begins in the text. -/
theorem BeginsLine.of_take {text : List UInt8} {n line start : Nat} (h : BeginsLine (text.take n) line start)
    (hle : start ≤ n) : BeginsLine text line start := by
  refine ⟨?_, h.behind.imp_right fun hbehind => ?_⟩
  · rw [← h.count, List.take_take, Nat.min_eq_left hle]
  · rw [List.getElem?_take] at hbehind
    split at hbehind
    · exact hbehind
    · exact absurd hbehind (by simp)

end Text

open Text

namespace LineIndex

/-- The offsets just after each line feed, for bytes that begin at `offset`. -/
def breaksOfBytes (offset : Nat) : List UInt8 → List Nat
  | [] => []
  | b :: bs =>
    if b = lineFeed then (offset + 1) :: breaksOfBytes (offset + 1) bs else breaksOfBytes (offset + 1) bs

/-- Line feeds are found in one part after the other. -/
theorem breaksOfBytes_append (offset : Nat) (as bs : List UInt8) : breaksOfBytes offset (as ++ bs) =
    breaksOfBytes offset as ++ breaksOfBytes (offset + as.length) bs := by
  induction as generalizing offset with
  | nil => rfl
  | cons a as ih =>
    rw [List.cons_append, breaksOfBytes, breaksOfBytes, ih, List.length_cons,
      show offset + 1 + as.length = offset + (as.length + 1) by omega]
    split
    · rfl
    · rfl

/-- Where there is no line feed none is found. -/
theorem breaksOfBytes_of_notMem {offset : Nat} {bs : List UInt8} (h : lineFeed ∉ bs) :
    breaksOfBytes offset bs = [] := by
  induction bs generalizing offset with
  | nil => rfl
  | cons b bs ih =>
    rw [List.mem_cons, not_or] at h
    rw [breaksOfBytes, if_neg (Ne.symm h.1), ih h.2]

/-- The characters and the bytes of a text show the same breaks. -/
theorem breaksFrom_eq (offset : Nat) (cs : List Char) :
    breaksFrom offset cs = breaksOfBytes offset (cs.flatMap String.utf8EncodeChar) := by
  induction cs generalizing offset with
  | nil => rfl
  | cons c cs ih =>
    rw [breaksFrom, List.flatMap_cons, breaksOfBytes_append, String.length_utf8EncodeChar, ← ih]
    split
    · rename_i hc
      rw [hc, utf8EncodeChar_lineFeed]
      rfl
    · rename_i hc
      rw [breaksOfBytes_of_notMem (lineFeed_notMem hc), List.nil_append]

/-- The index of a text is what its bytes give. -/
theorem breaks_ofText (text : String) : (ofText text).breaks = breaksOfBytes 0 (bytes text) := by
  rw [bytes_eq, ← breaksFrom_eq]
  rfl

/-- There are as many breaks as line feeds. -/
theorem length_breaksOfBytes (offset : Nat) (bs : List UInt8) :
    (breaksOfBytes offset bs).length = bs.count lineFeed := by
  induction bs generalizing offset with
  | nil => rfl
  | cons b bs ih =>
    rw [breaksOfBytes, List.count_cons]
    split
    · rename_i hb
      rw [List.length_cons, ih, hb, if_pos (beq_self_eq_true _)]
    · rename_i hb
      rw [ih, if_neg (by simpa using hb), Nat.add_zero]

/-- A break stands behind its line feed, so never at the very beginning. -/
theorem lt_of_mem_breaksOfBytes {offset n : Nat} {bs : List UInt8} (h : n ∈ breaksOfBytes offset bs) :
    offset < n := by
  induction bs generalizing offset with
  | nil => exact absurd h List.not_mem_nil
  | cons b bs ih =>
    rw [breaksOfBytes] at h
    split at h
    · rcases List.mem_cons.mp h with rfl | h
      · exact Nat.lt_succ_self _
      · exact Nat.lt_of_succ_lt (ih h)
    · exact Nat.lt_of_succ_lt (ih h)

/-- Breaks are found in order. -/
theorem pairwise_breaksOfBytes (offset : Nat) (bs : List UInt8) :
    (breaksOfBytes offset bs).Pairwise (· < ·) := by
  induction bs generalizing offset with
  | nil => exact .nil
  | cons b bs ih =>
    rw [breaksOfBytes]
    split
    · exact .cons (fun n hn => lt_of_mem_breaksOfBytes hn) (ih _)
    · exact ih _

theorem takeWhile_eq_nil {offset : Nat} {ns : List Nat} (h : ∀ n ∈ ns, offset < n) :
    ns.takeWhile (· ≤ offset) = [] :=
  List.takeWhile_eq_nil_iff.mpr fun hlength hle =>
    Nat.not_le_of_lt (h _ (List.getElem_mem hlength)) (of_decide_eq_true hle)

/-- The breaks up to an offset are those that the bytes before it show. -/
theorem takeWhile_breaksOfBytes (offset n : Nat) (bs : List UInt8) :
    (breaksOfBytes offset bs).takeWhile (· ≤ offset + n) = breaksOfBytes offset (bs.take n) := by
  induction bs generalizing offset n with
  | nil => simp [breaksOfBytes]
  | cons b bs ih =>
    cases n with
    | zero => exact takeWhile_eq_nil fun n hn => lt_of_mem_breaksOfBytes hn
    | succ n =>
      have hrest := ih (offset + 1) n
      rw [show offset + 1 + n = offset + (n + 1) by omega] at hrest
      rw [List.take_succ_cons, breaksOfBytes, breaksOfBytes]
      split
      · rw [List.takeWhile_cons_of_pos (by simp), hrest]
      · exact hrest

/-- The last line of a text begins at the last break. -/
theorem beginsLine_last (bs : List UInt8) : (breaksOfBytes 0 bs).getLastD 0 ≤ bs.length ∧
    BeginsLine bs (bs.count lineFeed) ((breaksOfBytes 0 bs).getLastD 0) := by
  induction bs using List.reverseRecOn with
  | nil => exact ⟨Nat.le_refl _, rfl, .inl rfl⟩
  | append_singleton bs b ih =>
    obtain ⟨hle, hcount, hbehind⟩ := ih
    rw [breaksOfBytes_append, List.length_append, List.count_append, Nat.zero_add]
    by_cases hb : b = lineFeed
    · have hbreak : breaksOfBytes bs.length [b] = [bs.length + 1] := by rw [breaksOfBytes, if_pos hb]; rfl
      rw [hbreak, List.getLastD_concat]
      refine ⟨Nat.le_refl _, ?_, .inr ?_⟩
      · rw [List.take_of_length_le (by simp), List.count_append]
      · simp [hb]
    · have hbreak : breaksOfBytes bs.length [b] = [] := by rw [breaksOfBytes, if_neg hb]; rfl
      rw [hbreak, List.append_nil]
      refine ⟨Nat.le_succ_of_le hle, ?_, hbehind.imp_right fun h => ?_⟩
      · rw [List.take_append_of_le_length hle, hcount, List.count_singleton, if_neg (by simpa using hb),
          Nat.add_zero]
      · rw [List.getElem?_append_left (List.getElem?_eq_some_iff.mp h).1, h]

/-! ### Positions in a text -/

variable (text : String) (offset : Nat)

/-- The breaks up to an offset are those of the text before it. -/
theorem takeWhile_breaks :
    (ofText text).breaks.takeWhile (· ≤ offset) = breaksOfBytes 0 ((bytes text).take offset) := by
  rw [breaks_ofText, ← takeWhile_breaksOfBytes, Nat.zero_add]

/-- The line of an offset is the number of line feeds before it. -/
theorem line_ofText :
    ((ofText text).position offset).line = ((bytes text).take offset).count lineFeed := by
  rw [← length_breaksOfBytes 0, ← takeWhile_breaks]
  rfl

/-- The line of an offset begins where the index says. -/
theorem beginsLine_lineStart :
    BeginsLine (bytes text) ((ofText text).position offset).line ((ofText text).lineStart offset) := by
  have hlast := (beginsLine_last ((bytes text).take offset)).2
  rw [← takeWhile_breaks, ← line_ofText] at hlast
  exact hlast.of_take ((ofText text).lineStart_le offset)

/-! ### Searching the line -/

/-- What a search for an offset among ascending numbers may answer: where the offset stands, or, if it does
not stand there, where it would have to be put. -/
inductive Searched (starts : List Nat) (offset : Nat) : Except Nat Nat → Prop
  | found {i : Nat} (h : starts[i]? = some offset) : Searched starts offset (.ok i)
  | missing {i : Nat} (hlength : i ≤ starts.length) (hbefore : ∀ n ∈ starts.take i, n < offset)
      (hbehind : ∀ n ∈ starts.drop i, offset < n) : Searched starts offset (.error i)

/-- The line that an answer means: that of the offset itself, or the one before the place for it. -/
def lineOfAnswer : Except Nat Nat → Nat
  | .ok i => i
  | .error i => i - 1

/-- If the beginnings of lines up to an offset are cut off from those behind it, the last of them begins the
line of the offset. -/
theorem line_of_split {lines : LineIndex} {offset : Nat} {front back : List Nat}
    (h : 0 :: lines.breaks = front ++ back) (hfront : ∀ n ∈ front, n ≤ offset) (hback : ∀ n ∈ back, offset < n) :
    (lines.position offset).line = front.length - 1 := by
  cases front with
  | nil =>
    rw [List.nil_append] at h
    exact absurd (hback 0 (h ▸ List.mem_cons_self)) (Nat.not_lt_zero offset)
  | cons first front =>
    obtain ⟨_, hbreaks⟩ := List.cons.inj h
    have hall : ∀ n ∈ front, decide (n ≤ offset) = true := fun n hn =>
      decide_eq_true (hfront n (List.mem_cons_of_mem first hn))
    change (lines.breaks.takeWhile (· ≤ offset)).length = front.length
    rw [hbreaks]
    change ((front ++ back).takeWhile _).length = _
    rw [List.takeWhile_append_of_pos hall, takeWhile_eq_nil hback, List.append_nil]

/-- Whatever a search among the beginnings of the lines answers, it leads to the line of the offset. -/
theorem line_of_searched {text : String} {offset : Nat} {answer : Except Nat Nat}
    (h : Searched (0 :: (ofText text).breaks) offset answer) :
    lineOfAnswer answer = ((ofText text).position offset).line := by
  have hascending : (0 :: (ofText text).breaks).Pairwise (· < ·) := by
    rw [breaks_ofText]
    exact .cons (fun n hn => lt_of_mem_breaksOfBytes hn) (pairwise_breaksOfBytes ..)
  cases h with
  | @found i hi =>
    obtain ⟨hlength, hat⟩ := List.getElem?_eq_some_iff.mp hi
    have hsplit := List.take_append_drop i (0 :: (ofText text).breaks)
    rw [← List.getElem_cons_drop hlength, hat] at hsplit
    rw [← hsplit, List.pairwise_append, List.pairwise_cons] at hascending
    obtain ⟨_, ⟨hbehind, _⟩, hbefore⟩ := hascending
    rw [List.append_cons] at hsplit
    rw [line_of_split hsplit.symm (fun n hn => ?_) hbehind, List.length_append,
      List.length_take_of_le (Nat.le_of_lt hlength)]
    · rfl
    · rcases List.mem_append.mp hn with hn | hn
      · exact Nat.le_of_lt (hbefore n hn offset List.mem_cons_self)
      · exact Nat.le_of_eq (List.mem_singleton.mp hn)
  | @missing i hlength hbefore hbehind =>
    rw [line_of_split (List.take_append_drop i _).symm (fun n hn => Nat.le_of_lt (hbefore n hn)) hbehind,
      List.length_take_of_le hlength]
    rfl

/-! ### Exactness -/

/-- **Positions are offsets.** In every text the line of an offset is the number of line feeds before it, and
the column is the distance from where that line begins, also for offsets behind the end; a search among the
beginnings of the lines finds this line. So a later offset has a later position, different offsets have
different positions, and a span between two offsets contains the positions of the offsets between them and
no others. -/
theorem position_exact (text : String) :
    (∀ offset, ((ofText text).position offset).line = ((bytes text).take offset).count lineFeed ∧
      ∃ start, (0 :: (ofText text).breaks)[((ofText text).position offset).line]? = some start ∧
        BeginsLine (bytes text) ((ofText text).position offset).line start ∧
        start + ((ofText text).position offset).column = offset) ∧
    (∀ offset answer, Searched (0 :: (ofText text).breaks) offset answer →
      lineOfAnswer answer = ((ofText text).position offset).line) ∧
    (∀ a b, (ofText text).position a < (ofText text).position b ↔ a < b) ∧
    Function.Injective (ofText text).position ∧
    ∀ a b offset, ((ofText text).span a b).contains ((ofText text).position offset) = true ↔
      a ≤ offset ∧ offset ≤ b := by
  refine ⟨fun offset => ?_, fun _ _ => line_of_searched, fun a b => position_lt_position _,
    position_injective _, fun a b offset => contains_span_iff _⟩
  exact ⟨line_ofText text offset, (ofText text).lineStart offset, (ofText text).getElem?_lineStart offset,
    beginsLine_lineStart text offset, (ofText text).lineStart_add_column offset⟩

example : ["a\n", "é\nb"].map (fun text => (LineIndex.ofText text).position 5) = [⟨1, 3⟩, ⟨1, 2⟩] := by decide

end LineIndex

end NedWorkspace
