/-
# Reading goes on in a text

The tokens of a text stand one behind another (`tokenize_inOrder`). A cursor that takes them as they come
is `Orderly`: the last token taken ends before the next one begins. A parser is `Steady` if it keeps a
cursor orderly and moves both ends of the gap between these tokens onward, never back. All parsers that
read no node are steady, and instances find it out along the way a parser is put together; only where it
goes on by cases on what it found does a proof say so.
-/

import NedWorkspace.Proofs.Syntax.Takes
import NedWorkspace.Proofs.Text.Slice
import NedWorkspace.Syntax.Declaration

namespace NedWorkspace

/-! ### The tokens of a text -/

namespace Token

/-- Tokens that stand one behind another between two offsets. -/
def InOrder (lo hi : Nat) : List Token → Prop
  | [] => lo ≤ hi
  | t :: ts => lo ≤ t.start ∧ t.start ≤ t.stop ∧ InOrder t.stop hi ts

/-- Tokens behind one place are behind any earlier one. -/
theorem InOrder.mono {lo lo' hi : Nat} {ts : List Token} (h : InOrder lo hi ts) (hle : lo' ≤ lo) :
    InOrder lo' hi ts := by
  cases ts with
  | nil => exact Nat.le_trans hle h
  | cons t ts => exact ⟨Nat.le_trans hle h.1, h.2⟩

/-- Tokens in order leave no stretch turned around. -/
theorem InOrder.le {lo hi : Nat} {ts : List Token} (h : InOrder lo hi ts) : lo ≤ hi := by
  induction ts generalizing lo with
  | nil => exact h
  | cons t ts ih => exact Nat.le_trans h.1 (Nat.le_trans h.2.1 (ih h.2.2))

end Token

open Token

/-- Lexemes are placed one behind another. -/
theorem Scan.place_inOrder (offset : Nat) (lead : List Char) (ls : List Lexeme) :
    InOrder offset (offset + Text.byteLength (ls.flatMap Lexeme.chars)) (place offset lead ls) := by
  induction ls generalizing offset lead with
  | nil => exact Nat.le_refl _
  | cons l ls ih =>
    rw [List.flatMap_cons, Text.byteLength_append, ← Nat.add_assoc, place]
    split
    · exact (ih _ _).mono (Nat.le_add_right _ _)
    · exact ⟨Nat.le_refl _, Nat.le_add_right _ _, ih _ _⟩

/-- **The tokens of a text stand one behind another** between its ends. -/
theorem tokenize_inOrder (text : String) : InOrder 0 text.utf8ByteSize (tokenize text) := by
  have h := Scan.place_inOrder 0 [] (Scan.lexemes Scan.first text.toList)
  rwa [Scan.flatMap_lexemes, Text.byteLength_toList, Nat.zero_add] at h

/-! ### Cursors that go on -/

namespace Cursor

variable {s t u : Cursor}

/-- The tokens that are left stand one behind another, all behind the last one taken. -/
def Orderly (s : Cursor) : Prop :=
  InOrder s.lastStop s.frame.size s.rest

/-- What was read last ends before what is ahead begins. -/
theorem Orderly.lastStop_le (h : s.Orderly) : s.lastStop ≤ s.start := by
  unfold Orderly at h
  unfold start
  split
  · rename_i hrest
    rwa [hrest] at h
  · rename_i hrest
    rw [hrest] at h
    exact h.1

/-- The second cursor is orderly and no less far in the text. If tokens were taken in between, the last
one ends behind the place where the first begins. -/
structure Onward (s t : Cursor) : Prop where
  orderly : t.Orderly
  frame : t.frame = s.frame
  lastStop : s.lastStop ≤ t.lastStop
  start : s.start ≤ t.start
  moved : t.rest.length < s.rest.length → s.start ≤ t.lastStop

namespace Onward

theorem refl (h : s.Orderly) : s.Onward s :=
  ⟨h, rfl, Nat.le_refl _, Nat.le_refl _, fun hlt => absurd hlt (Nat.lt_irrefl _)⟩

theorem trans (h : s.Onward t) (k : t.Onward u) : s.Onward u := by
  refine ⟨k.orderly, k.frame.trans h.frame, Nat.le_trans h.lastStop k.lastStop,
    Nat.le_trans h.start k.start, fun hlt => ?_⟩
  rcases Nat.lt_or_ge u.rest.length t.rest.length with hmoved | hstill
  · exact Nat.le_trans h.start (k.moved hmoved)
  · exact Nat.le_trans (h.moved (Nat.lt_of_le_of_lt hstill hlt)) k.lastStop

/-- Taking a token leads past it. -/
theorem next (h : s.Orderly) : s.Onward s.next := by
  cases hrest : s.rest with
  | nil =>
    rw [Cursor.next, hrest]
    exact refl h
  | cons t ts =>
    have hnext : s.next = { s with rest := ts, lastStop := t.stop } := by rw [Cursor.next, hrest]
    unfold Orderly at h
    rw [hrest] at h
    obtain ⟨hbefore, hsize, hrest'⟩ := h
    have horderly : s.next.Orderly := by rwa [hnext]
    have hstart : s.start = t.start := by rw [Cursor.start, hrest]
    have hgap := horderly.lastStop_le
    rw [hnext] at horderly hgap ⊢
    rw [← hstart] at hbefore hsize
    exact ⟨horderly, rfl, Nat.le_trans hbefore hsize, Nat.le_trans hsize hgap, fun _ => hsize⟩

/-- To skip tokens is to go onward. -/
theorem skip (h : s.Orderly) (n : Nat) : s.Onward (s.skip n) := by
  induction n generalizing s with
  | zero => exact .refl h
  | succ n ih => exact (next h).trans (ih (next h).orderly)

end Onward

end Cursor

open Cursor

namespace Parser

variable {α β : Type}

/-- A parser that takes tokens as they come. -/
class Steady (p : Parser α) : Prop where
  onward : ∀ s : Cursor, s.Orderly → s.Onward (p.run s).2

namespace Steady

instance pure (a : α) : Steady (Pure.pure a : Parser α) :=
  ⟨fun _ => .refl⟩

instance bind (p : Parser β) (f : β → Parser α) [hp : Steady p] [hf : ∀ b, Steady (f b)] :
    Steady (p >>= f) :=
  ⟨fun s hs => (hp.onward s hs).trans ((hf _).onward _ (hp.onward s hs).orderly)⟩

/-- A step, and then whatever it finds. -/
theorem andThen {p : Parser β} {f : β → Parser α} [Steady p] (hf : ∀ b, Steady (f b)) :
    Steady (p >>= f) :=
  inferInstance

instance map (f : β → α) (p : Parser β) [hp : Steady p] : Steady (f <$> p) :=
  ⟨hp.onward⟩

instance ite (c : Prop) [Decidable c] (p q : Parser α) [hp : Steady p] [hq : Steady q] :
    Steady (if c then p else q) := by
  split
  · exact hp
  · exact hq

instance look (g : Cursor → α) : Steady (look g) :=
  ⟨fun _ => .refl⟩

instance kind? : Steady kind? := look _

instance at? (k : Kind) : Steady (at? k) := look _

instance skipOne : Steady skipOne :=
  ⟨fun _ => .next⟩

instance takeCounted (count : List Token → Nat) : Steady (takeCounted count) :=
  ⟨fun _ hs => .skip hs _⟩

/-- What only gives out numbers and notes errors. -/
theorem of_still {p : Parser α}
    (h : ∀ s, (p.run s).2.rest = s.rest ∧ (p.run s).2.lastStop = s.lastStop) : Steady p := by
  refine ⟨fun s hs => ?_⟩
  have hframe := (p.reaches s).frame
  obtain ⟨hrest, hlast⟩ := h s
  refine ⟨?_, hframe, Nat.le_of_eq hlast.symm, Nat.le_of_eq ?_, fun hlt => ?_⟩
  · rwa [Orderly, hframe, hrest, hlast]
  · rw [Cursor.start, Cursor.start, hframe, hrest]
  · exact absurd (hrest ▸ hlt) (Nat.lt_irrefl _)

instance newNode : Steady newNode := of_still fun _ => ⟨rfl, rfl⟩

instance complain (message : String) : Steady (complain message) := of_still fun _ => ⟨rfl, rfl⟩

instance complainExpected (what : String) : Steady (complainExpected what) :=
  of_still fun _ => ⟨rfl, rfl⟩

instance complainRepeatedPackage : Steady complainRepeatedPackage := of_still fun _ => ⟨rfl, rfl⟩

instance complainUnbalanced : Steady complainUnbalanced := complain _

instance eat (k : Kind) : Steady (eat k) := by unfold Parser.eat; infer_instance

instance expect (k : Kind) (what : String) : Steady (expect k what) := by
  unfold Parser.expect; infer_instance

instance passOver (what : String) : Steady (passOver what) := by
  unfold Parser.passOver; infer_instance

instance skipStatement : Steady skipStatement := by unfold Parser.skipStatement; infer_instance

instance skipGroup : Steady skipGroup := by unfold Parser.skipGroup; infer_instance

instance skipDebris : Steady skipDebris := by unfold Parser.skipDebris; infer_instance

instance expectIdent (what : String) : Steady (expectIdent what) := by
  refine andThen fun head => ?_
  cases head with
  | none => infer_instance
  | some t => infer_instance

instance expression (stops : List Kind) : Steady (expression stops) := by
  refine andThen fun tokens => ?_
  cases tokens with
  | nil => infer_instance
  | cons t ts => infer_instance

instance qualifiedName (what : String) : Steady (qualifiedName what) := by
  unfold Parser.qualifiedName; infer_instance

instance bracketed : Steady bracketed := by unfold Parser.bracketed; infer_instance

instance skipProperty : Steady skipProperty := by
  have hend : Steady (do if ← Parser.at? (.mark .lparen) then Parser.skipGroup) := inferInstance
  dsimp only [Parser.skipProperty]
  infer_instance

instance strayProperty : Steady strayProperty := by unfold Parser.strayProperty; infer_instance

instance sepBy (sep : Kind) (item : Parser (Option α)) [hitem : Steady item] :
    Steady (sepBy sep item) := by
  refine ⟨fun s hs => ?_⟩
  change s.Onward (sepByFrom sep item s).2
  fun_induction sepByFrom sep item s with
  | case1 s r _ => exact hitem.onward s hs
  | case2 s r a _ _ more ih =>
    have hr := hitem.onward s hs
    have hnext := Onward.next hr.orderly
    exact hr.trans (hnext.trans (ih hnext.orderly))
  | case3 s r a _ _ => exact hitem.onward s hs

instance manyWhile (p : Kind → Bool) (item : Parser (Option α)) [hitem : Steady item] :
    Steady (manyWhile p item) := by
  refine ⟨fun s hs => ?_⟩
  change s.Onward (manyWhileFrom p item s).2
  fun_induction manyWhileFrom p item s with
  | case1 s h r hlt more ih =>
    have hr := hitem.onward s hs
    exact hr.trans (ih hr.orderly)
  | case2 s h r hlt => exact hitem.onward s hs
  | case3 s h => exact .refl hs

instance propertyValue : Steady propertyValue := by unfold Parser.propertyValue; infer_instance

instance propertyEntry : Steady propertyEntry := by
  refine andThen fun next => ?_
  split
  · infer_instance
  · infer_instance
  · refine andThen fun key => ?_
    cases key with
    | none => infer_instance
    | some key => infer_instance

instance paramValue : Steady paramValue := by unfold Parser.paramValue; infer_instance

instance sectionHeader (opened : BodySection) : Steady (sectionHeader opened) := by
  unfold Parser.sectionHeader; infer_instance

instance likeExpression : Steady likeExpression := by unfold Parser.likeExpression; infer_instance

instance submoduleSection (opened : BodySection) : Steady (submoduleSection opened) := by
  unfold Parser.submoduleSection; infer_instance

instance gateIndex : Steady gateIndex := by unfold Parser.gateIndex; infer_instance

instance gateRef : Steady gateRef := by
  refine andThen fun first => ?_
  cases first with
  | none => infer_instance
  | some first =>
    have hinner (indexed : Bool) : Steady (do
        match ← Parser.expectIdent "gate name" with
        | none => return none
        | some gate => return some ({ module := some first, moduleIndexed := indexed, gate,
                                      index := ← Parser.gateIndex } : GateRef)) := by
      refine andThen fun gate => ?_
      cases gate with
      | none => infer_instance
      | some gate => infer_instance
    have hend (indexed : Bool) : Steady (do
        if ← Parser.eat (.mark .dot) then
          match ← Parser.expectIdent "gate name" with
          | none => return none
          | some gate =>
            return some ({ module := some first, moduleIndexed := indexed, gate,
                           index := ← Parser.gateIndex } : GateRef)
        else
          let index ← if indexed then Pure.pure .bracketed else Parser.gateIndex
          return some { module := none, moduleIndexed := false, gate := first, index }) :=
      inferInstance
    dsimp only
    infer_instance

instance arrow : Steady arrow := by
  refine andThen fun next => ?_
  cases next with
  | none => infer_instance
  | some k => infer_instance

instance connectionEnd : Steady connectionEnd := by dsimp only [Parser.connectionEnd]; infer_instance

instance loopHead : Steady loopHead := by unfold Parser.loopHead; infer_instance

instance loopEnd : Steady loopEnd := by unfold Parser.loopEnd; infer_instance

instance loopUnopened : Steady loopUnopened := by unfold Parser.loopUnopened; infer_instance

instance bodiless : Steady bodiless := by unfold Parser.bodiless; infer_instance

instance bodyEnd : Steady bodyEnd := by unfold Parser.bodyEnd; infer_instance

end Steady

end Parser

end NedWorkspace
