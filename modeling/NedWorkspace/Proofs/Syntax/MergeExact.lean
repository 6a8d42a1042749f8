/-
# What a merge says

SPEC_FULL, section 4.1: structural differences.

A merge of an old piece of syntax with a new one gives a piece with all that the new one says, at the
new one's places, and tells whether the two differ in what is written. `ExactMerge` states this for one
result; `LawfulMergeable` states it for a category of nodes, and lists of nodes of a lawful category are
merged exactly too (`mergeList_exact`): if nothing changed, every new node met the old one at its own
place, because a partner at another place counts as a change.

The main result is `Tree.merge_exact`.
-/

import NedWorkspace.Proofs.Syntax.Stamp
import NedWorkspace.Syntax.Merge

namespace NedWorkspace

namespace NodeSupply

variable {α β : Type}

theorem bind_apply (x : NodeSupply α) (f : α → NodeSupply β) (n : NodeId) :
    (x >>= f) n = f (x n).1 (x n).2 := rfl

theorem pure_apply (a : α) (n : NodeId) : (pure a : NodeSupply α) n = (a, n) := rfl

end NodeSupply

open Stamped Mergeable NodeSupply

/-- The result `r` of a merge that began with the numbers from `n` on free. -/
structure ExactMerge {α : Type} [Stamped α] (old new : α) (n : NodeId) (r : (α × Bool) × NodeId) :
    Prop where
  /-- The result says what the new piece says, at the same places. -/
  unnumbered : restamp .unnumbered r.1.1 = restamp .unnumbered new
  /-- The flag tells whether what is written differs. -/
  changed : r.1.2 = false ↔ restamp .bare old = restamp .bare new
  /-- Where nothing differs every node keeps its number, and none is given out. -/
  unplaced : r.1.2 = false → restamp .unplaced r.1.1 = restamp .unplaced old
  supply : r.1.2 = false → r.2 = n

/-- A category of nodes whose merges are exact. -/
class LawfulMergeable (α : Type) [Stamped α] [Mergeable α] : Prop where
  key_of_bare : ∀ a b : α, restamp .bare a = restamp .bare b → key a = key b
  renumber_unnumbered : ∀ (a : α) (n : NodeId),
    restamp .unnumbered (renumber a n).1 = restamp .unnumbered a
  adopt_exact : ∀ (old new : α) (n : NodeId), key old = key new →
    ExactMerge old new n (adopt old new n)

namespace Mergeable

variable {α β : Type}

/-- What is picked from a list is one of the list. -/
theorem mem_of_pick {p : β → Bool} {bs : List β} {b : β} {others : List β}
    (h : pick p bs = some (b, others)) : b ∈ bs := by
  induction bs generalizing b others with
  | nil => simp [pick] at h
  | cons c cs ih =>
    rw [pick] at h
    split at h
    · obtain ⟨rfl, rfl⟩ := Prod.mk.inj (Option.some.inj h)
      exact List.mem_cons_self
    · obtain ⟨r, hr, heq⟩ := Option.map_eq_some_iff.mp h
      obtain ⟨rfl, rfl⟩ := Prod.mk.inj heq
      exact List.mem_cons_of_mem c (ih hr)

/-- What is picked passes the test. -/
theorem pick_pos {p : β → Bool} {bs : List β} {b : β} {others : List β}
    (h : pick p bs = some (b, others)) : p b = true := by
  induction bs generalizing b others with
  | nil => simp [pick] at h
  | cons c cs ih =>
    rw [pick] at h
    split at h
    · obtain ⟨rfl, rfl⟩ := Prod.mk.inj (Option.some.inj h)
      assumption
    · obtain ⟨r, hr, heq⟩ := Option.map_eq_some_iff.mp h
      obtain ⟨rfl, rfl⟩ := Prod.mk.inj heq
      exact ih hr

/-- One step of merging a list, when there is a partner. -/
theorem mergeFrom_cons_of_pick [Mergeable α] {i : Nat} {free others : List (α × Nat)} {new : α}
    {news : List α} {old : α × Nat} (n : NodeId)
    (h : pick (fun old => decide (key old.1 = key new)) free = some (old, others)) :
    mergeFrom i free (new :: news) n =
      let r := adopt old.1 new n
      let more := mergeFrom (i + 1) others news r.2
      ((r.1.1 :: more.1.1, old.2 != i || r.1.2 || more.1.2), more.2) := by
  rw [mergeFrom, h]
  rfl

/-- One step of merging a list, when there is no partner. -/
theorem mergeFrom_cons_of_pick_none [Mergeable α] {i : Nat} {free : List (α × Nat)} {new : α}
    {news : List α} (n : NodeId)
    (h : pick (fun old => decide (key old.1 = key new)) free = none) :
    mergeFrom i free (new :: news) n =
      let r := renumber new n
      let more := mergeFrom (i + 1) free news r.2
      ((r.1 :: more.1.1, true), more.2) := by
  rw [mergeFrom, h]
  rfl

variable [Stamped α]

/-- Numbering each element of a list changes nothing but numbers. -/
theorem each_unnumbered {f : α → NodeSupply α} {as : List α} (n : NodeId)
    (h : ∀ a ∈ as, ∀ n, restamp .unnumbered (f a n).1 = restamp .unnumbered a) :
    restamp .unnumbered (each f as n).1 = restamp .unnumbered as := by
  induction as generalizing n with
  | nil => rfl
  | cons a as ih =>
    have hhead := h a List.mem_cons_self n
    have htail := ih (f a n).2 fun b hb => h b (List.mem_cons_of_mem a hb)
    exact List.cons_eq_cons.mpr ⟨hhead, htail⟩

variable [Mergeable α]

/-- A merged list says what the new one says. -/
theorem mergeFrom_unnumbered {news : List α} (i : Nat) (free : List (α × Nat)) (n : NodeId)
    (hrenumber : ∀ a ∈ news, ∀ n, restamp .unnumbered (renumber a n).1 = restamp .unnumbered a)
    (hadopt : ∀ old, ∀ new ∈ news, ∀ n, key old = key new → ExactMerge old new n (adopt old new n)) :
    restamp .unnumbered (mergeFrom i free news n).1.1 = restamp .unnumbered news := by
  induction news generalizing i free n with
  | nil => rfl
  | cons new news ih =>
    have hrest := fun free n => ih (i + 1) free n
      (fun a ha => hrenumber a (List.mem_cons_of_mem new ha))
      (fun old a ha => hadopt old a (List.mem_cons_of_mem new ha))
    cases hpick : pick (fun old => decide (key old.1 = key new)) free with
    | some picked =>
      obtain ⟨old, others⟩ := picked
      have hkey : key old.1 = key new := by simpa using pick_pos hpick
      rw [mergeFrom_cons_of_pick n hpick]
      exact List.cons_eq_cons.mpr
        ⟨(hadopt old.1 new List.mem_cons_self n hkey).unnumbered, hrest others _⟩
    | none =>
      rw [mergeFrom_cons_of_pick_none n hpick]
      exact List.cons_eq_cons.mpr ⟨hrenumber new List.mem_cons_self n, hrest free _⟩

/-- **A merge of lists of one length changes nothing exactly if the lists say the same.** The old nodes
that are free are always those from place `i` on: a partner that stands later counts as a change. -/
theorem mergeFrom_exact {olds news : List α} (i : Nat) (n : NodeId)
    (hlen : olds.length = news.length)
    (hkey : ∀ a b : α, restamp .bare a = restamp .bare b → key a = key b)
    (hadopt : ∀ old, ∀ new ∈ news, ∀ n, key old = key new → ExactMerge old new n (adopt old new n)) :
    let r := mergeFrom i (olds.zipIdx i) news n
    (r.1.2 = false ↔ restamp .bare olds = restamp .bare news) ∧
      (r.1.2 = false → restamp .unplaced r.1.1 = restamp .unplaced olds ∧ r.2 = n) := by
  induction news generalizing i olds n with
  | nil =>
    obtain rfl := List.length_eq_zero_iff.mp hlen
    exact ⟨⟨fun _ => rfl, fun _ => rfl⟩, fun _ => ⟨rfl, rfl⟩⟩
  | cons new news ih =>
    obtain ⟨old, olds, rfl⟩ := List.exists_cons_of_length_eq_add_one hlen
    by_cases hk : key old = key new
    · have hpick : pick (fun o : α × Nat => decide (key o.1 = key new)) ((old :: olds).zipIdx i)
          = some ((old, i), olds.zipIdx (i + 1)) := by
        simp [List.zipIdx_cons, pick, hk]
      have hhead := hadopt old new List.mem_cons_self n hk
      have htail := ih (i + 1) (adopt old new n).2 (Nat.succ.inj hlen)
        fun o a ha => hadopt o a (List.mem_cons_of_mem new ha)
      rw [mergeFrom_cons_of_pick n hpick]
      simp only [bne_self_eq_false, Bool.false_or, Bool.or_eq_false_iff]
      refine ⟨?_, fun ⟨hh, ht⟩ => ?_⟩
      · rw [hhead.changed, htail.1]
        exact List.cons_eq_cons.symm
      · obtain ⟨hplaced, hsupply⟩ := htail.2 ht
        exact ⟨List.cons_eq_cons.mpr ⟨hhead.unplaced hh, hplaced⟩, hsupply.trans (hhead.supply hh)⟩
    · have hdiffer : restamp .bare (old :: olds) ≠ restamp .bare (new :: news) := fun h =>
        hk (hkey old new (List.cons_eq_cons.mp h).1)
      have hchanged : (mergeFrom i ((old :: olds).zipIdx i) (new :: news) n).1.2 = true := by
        cases hpick : pick (fun o : α × Nat => decide (key o.1 = key new))
            ((old :: olds).zipIdx i) with
        | some picked =>
          obtain ⟨other, others⟩ := picked
          have hmem := mem_of_pick hpick
          have hother : key other.1 = key new := by simpa using pick_pos hpick
          have hplace : other.2 ≠ i := by
            rw [List.zipIdx_cons, List.mem_cons] at hmem
            rcases hmem with rfl | hmem
            · exact absurd hother hk
            · have := List.le_snd_of_mem_zipIdx hmem
              omega
          rw [mergeFrom_cons_of_pick n hpick]
          simp [hplace]
        | none => rw [mergeFrom_cons_of_pick_none n hpick]
      have hnot : ¬ (mergeFrom i ((old :: olds).zipIdx i) (new :: news) n).1.2 = false := by
        rw [hchanged]
        exact Bool.noConfusion
      exact ⟨⟨fun h => absurd h hnot, fun h => absurd h hdiffer⟩, fun h => absurd h hnot⟩

/-- **Merging lists is exact if merging their nodes is.** -/
theorem mergeFrom_zipIdx_exact {olds news : List α} (n : NodeId)
    (hkey : ∀ a b : α, restamp .bare a = restamp .bare b → key a = key b)
    (hrenumber : ∀ a ∈ news, ∀ n, restamp .unnumbered (renumber a n).1 = restamp .unnumbered a)
    (hadopt : ∀ old, ∀ new ∈ news, ∀ n, key old = key new → ExactMerge old new n (adopt old new n)) :
    ExactMerge olds news n (mergeList olds news n) := by
  have hcontent := mergeFrom_unnumbered 0 olds.zipIdx n hrenumber hadopt
  by_cases hlen : olds.length = news.length
  · obtain ⟨hchanged, hkept⟩ := mergeFrom_exact 0 n hlen hkey hadopt
    have hflag : (mergeList olds news n).1.2 = (mergeFrom 0 olds.zipIdx news n).1.2 := by
      simp [mergeList, bind_apply, pure_apply, hlen]
    refine ⟨hcontent, ?_, fun h => ?_, fun h => ?_⟩
    · rw [hflag, hchanged]
    · exact (hkept (hflag ▸ h)).1
    · exact (hkept (hflag ▸ h)).2
  · have hflag : ¬ (mergeList olds news n).1.2 = false := by
      simp [mergeList, bind_apply, pure_apply, hlen]
    have hdiffer : restamp .bare olds ≠ restamp .bare news := fun h => by
      have := congrArg List.length h
      simp only [restamp, List.length_map] at this
      exact hlen this
    exact ⟨hcontent, ⟨fun h => absurd h hflag, fun h => absurd h hdiffer⟩,
      fun h => absurd h hflag, fun h => absurd h hflag⟩

variable [LawfulMergeable α]

theorem each_renumber_unnumbered (as : List α) (n : NodeId) :
    restamp .unnumbered (each renumber as n).1 = restamp .unnumbered as :=
  each_unnumbered n fun a _ => LawfulMergeable.renumber_unnumbered a

/-- A merged list has the content of the new one, and its flag tells whether that differs from the old. -/
theorem mergeList_exact (olds news : List α) (n : NodeId) :
    ExactMerge olds news n (mergeList olds news n) :=
  mergeFrom_zipIdx_exact n LawfulMergeable.key_of_bare
    (fun a _ => LawfulMergeable.renumber_unnumbered a)
    (fun old new _ => LawfulMergeable.adopt_exact old new)

/-- What is merged has the content of the new, and its flag tells whether that differs from the old. -/
theorem mergeOne_exact (old new : α) (n : NodeId) :
    ExactMerge old new n (mergeOne old new n) := by
  by_cases h : key old = key new
  · rw [mergeOne, if_pos h]
    exact LawfulMergeable.adopt_exact old new n h
  · have hdiffer : restamp .bare old ≠ restamp .bare new := fun hb =>
      h (LawfulMergeable.key_of_bare old new hb)
    rw [mergeOne, if_neg h]
    exact ⟨LawfulMergeable.renumber_unnumbered new n, ⟨nofun, fun hb => absurd hb hdiffer⟩,
      nofun, nofun⟩

/-- What may be missing is merged to the content of the new, with a flag that is right. -/
theorem mergeOption_exact (old new : Option α) (n : NodeId) :
    ExactMerge old new n (mergeOption old new n) := by
  match old, new with
  | none, none => exact ⟨rfl, ⟨fun _ => rfl, fun _ => rfl⟩, fun _ => rfl, fun _ => rfl⟩
  | some _, none => exact ⟨rfl, ⟨nofun, nofun⟩, nofun, nofun⟩
  | none, some new =>
    exact ⟨congrArg some (LawfulMergeable.renumber_unnumbered new n), ⟨nofun, nofun⟩, nofun, nofun⟩
  | some old, some new =>
    have h := mergeOne_exact old new n
    exact ⟨congrArg some h.unnumbered, h.changed.trans (Option.some_inj).symm,
      fun hf => congrArg some (h.unplaced hf), h.supply⟩

end Mergeable

instance : LawfulMergeable ImportDecl where
  key_of_bare _ _ h := (congrArg ImportDecl.spec h :)
  renumber_unnumbered _ _ := rfl
  adopt_exact old new n h := by
    obtain ⟨node, spec, span⟩ := old
    obtain rfl : spec = new.spec := h
    exact ⟨rfl, ⟨fun _ => rfl, fun _ => rfl⟩, fun _ => rfl, fun _ => rfl⟩

instance : LawfulMergeable TypeRef where
  key_of_bare _ _ h := (congrArg TypeRef.name h :)
  renumber_unnumbered _ _ := rfl
  adopt_exact old new n h := by
    obtain ⟨node, name, span⟩ := old
    obtain rfl : name = new.name := h
    exact ⟨rfl, ⟨fun _ => rfl, fun _ => rfl⟩, fun _ => rfl, fun _ => rfl⟩

instance : LawfulMergeable Property where
  key_of_bare _ _ h := (congrArg key h :)
  renumber_unnumbered _ _ := rfl
  adopt_exact old new n h := by
    obtain ⟨node, name, index, entries, span⟩ := old
    obtain ⟨rfl, rfl⟩ : name = new.name ∧ index = new.index := Prod.mk.inj h
    have hflag : decide (new.entries ≠ entries) = false ↔ entries = new.entries := by
      rw [decide_eq_false_iff_not, not_not, eq_comm]
    refine ⟨rfl, hflag.trans ⟨fun he => he ▸ rfl, congrArg Property.entries⟩, fun he => ?_,
      fun _ => rfl⟩
    obtain rfl := hflag.mp he
    rfl

/-- A flag that joins the flag of one part with a comparison of others. -/
theorem or_decide_ne_eq_false {α : Type} [DecidableEq α] {b : Bool} {x y : α} :
    (b || decide (x ≠ y)) = false ↔ b = false ∧ y = x := by
  rw [Bool.or_eq_false_iff, decide_eq_false_iff_not, not_not, eq_comm (a := x)]

/-- What is written in two parameters is the same. -/
theorem Param.bare_eq_iff {p q : Param} : restamp .bare p = restamp .bare q ↔
    p.name = q.name ∧ p.type = q.type ∧ p.volatile = q.volatile ∧ p.value = q.value ∧
      restamp .bare p.properties = restamp .bare q.properties := by
  refine (Param.mk.injEq ..).to_iff.trans ?_
  simp only [NodeSpan.bare, true_and, and_true]

instance : LawfulMergeable Param where
  key_of_bare _ _ h := (congrArg Param.name h :)
  renumber_unnumbered p n := by
    have h := each_renumber_unnumbered p.properties (n + 1)
    exact congrArg (fun ps => { restamp .unnumbered p with properties := ps }) h
  adopt_exact old new n h := by
    have hp := mergeList_exact old.properties new.properties n
    have hflag : (adopt old new n).1.2 = false ↔
        (((mergeList old.properties new.properties n).1.2 = false ∧ old.type = new.type) ∧
          old.volatile = new.volatile) ∧ old.value = new.value := by
      change (_ || decide (_ ≠ _) || _ != _ || decide (_ ≠ _)) = false ↔ _
      rw [or_decide_ne_eq_false, Bool.or_eq_false_iff, or_decide_ne_eq_false, bne_eq_false_iff_eq,
        eq_comm (a := new.volatile)]
      rfl
    refine ⟨congrArg (fun ps => { restamp .unnumbered new with properties := ps }) hp.unnumbered,
      ?_, fun hf => ?_, fun hf => hp.supply (hflag.mp hf).1.1.1⟩
    · rw [hflag, hp.changed, Param.bare_eq_iff]
      exact ⟨fun ⟨⟨⟨hps, ht⟩, hv⟩, he⟩ => ⟨h, ht, hv, he, hps⟩,
        fun ⟨_, ht, hv, he, hps⟩ => ⟨⟨⟨hps, ht⟩, hv⟩, he⟩⟩
    · obtain ⟨⟨⟨hps, ht⟩, hv⟩, he⟩ := hflag.mp hf
      exact (Param.mk.injEq ..).mpr ⟨rfl, h.symm, ht.symm, hv.symm, he.symm, hp.unplaced hps, rfl⟩

/-- What is written in two gates is the same. -/
theorem Gate.bare_eq_iff {g k : Gate} : restamp .bare g = restamp .bare k ↔
    g.name = k.name ∧ g.direction = k.direction ∧ g.isVector = k.isVector ∧ g.size = k.size ∧
      restamp .bare g.properties = restamp .bare k.properties := by
  refine (Gate.mk.injEq ..).to_iff.trans ?_
  simp only [NodeSpan.bare, true_and, and_true]

instance : LawfulMergeable Gate where
  key_of_bare _ _ h := (congrArg Gate.name h :)
  renumber_unnumbered g n := by
    have h := each_renumber_unnumbered g.properties (n + 1)
    exact congrArg (fun ps => { restamp .unnumbered g with properties := ps }) h
  adopt_exact old new n h := by
    have hp := mergeList_exact old.properties new.properties n
    have hflag : (adopt old new n).1.2 = false ↔
        (((mergeList old.properties new.properties n).1.2 = false ∧ old.direction = new.direction) ∧
          old.isVector = new.isVector) ∧ old.size = new.size := by
      change (_ || decide (_ ≠ _) || _ != _ || decide (_ ≠ _)) = false ↔ _
      rw [or_decide_ne_eq_false, Bool.or_eq_false_iff, or_decide_ne_eq_false, bne_eq_false_iff_eq,
        eq_comm (a := new.isVector)]
      rfl
    refine ⟨congrArg (fun ps => { restamp .unnumbered new with properties := ps }) hp.unnumbered,
      ?_, fun hf => ?_, fun hf => hp.supply (hflag.mp hf).1.1.1⟩
    · rw [hflag, hp.changed, Gate.bare_eq_iff]
      exact ⟨fun ⟨⟨⟨hps, hd⟩, hv⟩, hs⟩ => ⟨h, hd, hv, hs, hps⟩,
        fun ⟨_, hd, hv, hs, hps⟩ => ⟨⟨⟨hps, hd⟩, hv⟩, hs⟩⟩
    · obtain ⟨⟨⟨hps, hd⟩, hv⟩, hs⟩ := hflag.mp hf
      exact (Gate.mk.injEq ..).mpr ⟨rfl, h.symm, hd.symm, hv.symm, hs.symm, hp.unplaced hps, rfl⟩

/-- What is written in two submodules is the same. -/
theorem Submodule.bare_eq_iff {s t : Submodule} : restamp .bare s = restamp .bare t ↔
    s.name = t.name ∧ s.vectorSize = t.vectorSize ∧ restamp .bare s.type = restamp .bare t.type ∧
      s.like = t.like ∧ restamp .bare s.params = restamp .bare t.params ∧
      restamp .bare s.gates = restamp .bare t.gates ∧
      restamp .bare s.properties = restamp .bare t.properties := by
  refine (Submodule.mk.injEq ..).to_iff.trans ?_
  simp only [NodeSpan.bare, true_and, and_true]

instance : LawfulMergeable Submodule where
  key_of_bare _ _ h := (congrArg Submodule.name h :)
  renumber_unnumbered s n := by
    refine (Submodule.mk.injEq ..).mpr ⟨rfl, rfl, rfl, ?_, rfl, ?_, ?_, ?_, rfl⟩
    · exact LawfulMergeable.renumber_unnumbered s.type _
    · exact each_renumber_unnumbered s.params _
    · exact each_renumber_unnumbered s.gates _
    · exact each_renumber_unnumbered s.properties _
  adopt_exact old new n h := by
    -- The parts are merged one after another, each with the numbers that the one before left free.
    let type := mergeOne old.type new.type n
    let params := mergeList old.params new.params type.2
    let gates := mergeList old.gates new.gates params.2
    let properties := mergeList old.properties new.properties gates.2
    have htype : ExactMerge old.type new.type n type := mergeOne_exact ..
    have hparams : ExactMerge old.params new.params type.2 params := mergeList_exact ..
    have hgates : ExactMerge old.gates new.gates params.2 gates := mergeList_exact ..
    have hproperties : ExactMerge old.properties new.properties gates.2 properties :=
      mergeList_exact ..
    have hflag : (adopt old new n).1.2 = false ↔
        (((((old.vectorSize = new.vectorSize ∧ old.like = new.like) ∧ type.1.2 = false) ∧
          params.1.2 = false) ∧ gates.1.2 = false) ∧ properties.1.2 = false) := by
      change (decide (_ ≠ _) || decide (_ ≠ _) || type.1.2 || params.1.2 || gates.1.2
        || properties.1.2) = false ↔ _
      rw [Bool.or_eq_false_iff, Bool.or_eq_false_iff, Bool.or_eq_false_iff, Bool.or_eq_false_iff,
        or_decide_ne_eq_false, decide_eq_false_iff_not, not_not, eq_comm (a := new.vectorSize)]
    refine ⟨?_, ?_, fun hf => ?_, fun hf => ?_⟩
    · exact (Submodule.mk.injEq ..).mpr ⟨rfl, rfl, rfl, htype.unnumbered, rfl, hparams.unnumbered,
        hgates.unnumbered, hproperties.unnumbered, rfl⟩
    · rw [hflag, htype.changed, hparams.changed, hgates.changed, hproperties.changed,
        Submodule.bare_eq_iff]
      exact ⟨fun ⟨⟨⟨⟨⟨hv, hl⟩, ht⟩, hps⟩, hgs⟩, hprops⟩ => ⟨h, hv, ht, hl, hps, hgs, hprops⟩,
        fun ⟨_, hv, ht, hl, hps, hgs, hprops⟩ => ⟨⟨⟨⟨⟨hv, hl⟩, ht⟩, hps⟩, hgs⟩, hprops⟩⟩
    · obtain ⟨⟨⟨⟨⟨hv, hl⟩, ht⟩, hps⟩, hgs⟩, hprops⟩ := hflag.mp hf
      exact (Submodule.mk.injEq ..).mpr ⟨rfl, h.symm, hv.symm, htype.unplaced ht, hl.symm,
        hparams.unplaced hps, hgates.unplaced hgs, hproperties.unplaced hprops, rfl⟩
    · obtain ⟨⟨⟨⟨_, ht⟩, hps⟩, hgs⟩, hprops⟩ := hflag.mp hf
      exact (hproperties.supply hprops).trans ((hgates.supply hgs).trans
        ((hparams.supply hps).trans (htype.supply ht)))

instance : LawfulMergeable ChannelSpec where
  key_of_bare c d h := by
    obtain ⟨_, htype, hlike, _⟩ := (ChannelSpec.mk.injEq ..).mp h
    have hname : c.type.map TypeRef.name = d.type.map TypeRef.name := by
      have := congrArg (Option.map TypeRef.name) htype
      simpa only [restamp, Option.map_map, Function.comp_def] using this
    exact Prod.ext hname (congrArg Option.isSome hlike)
  renumber_unnumbered c n := by
    obtain ⟨node, type, like, span⟩ := c
    cases type with
    | none => rfl
    | some r => rfl
  adopt_exact old new n h := by
    have htype := mergeOption_exact old.type new.type n
    have hflag : (adopt old new n).1.2 = false ↔
        (mergeOption old.type new.type n).1.2 = false ∧ old.like = new.like :=
      or_decide_ne_eq_false
    refine ⟨congrArg (fun t => { restamp .unnumbered new with type := t }) htype.unnumbered, ?_,
      fun hf => ?_, fun hf => htype.supply (hflag.mp hf).1⟩
    · rw [hflag, htype.changed]
      refine Iff.symm ((ChannelSpec.mk.injEq ..).to_iff.trans ?_)
      simp only [NodeSpan.bare, true_and, and_true]
    · obtain ⟨ht, hl⟩ := hflag.mp hf
      exact (ChannelSpec.mk.injEq ..).mpr ⟨rfl, htype.unplaced ht, hl.symm, rfl⟩

instance : LawfulMergeable Connection where
  key_of_bare c d h := by
    obtain ⟨_, hsrc, hdest, harrow, _⟩ := (Connection.mk.injEq ..).mp h
    exact Prod.ext hsrc (Prod.ext harrow hdest)
  renumber_unnumbered c n := by
    obtain ⟨node, src, dest, arrow, channel, span⟩ := c
    cases channel with
    | none => rfl
    | some spec =>
      have hspec := LawfulMergeable.renumber_unnumbered spec (n + 1)
      exact (Connection.mk.injEq ..).mpr ⟨rfl, rfl, rfl, rfl, congrArg some hspec, rfl⟩
  adopt_exact old new n h := by
    have hchannel := mergeOption_exact old.channel new.channel n
    obtain ⟨hsrc, hrest⟩ := Prod.mk.inj h
    obtain ⟨harrow, hdest⟩ := Prod.mk.inj hrest
    refine ⟨congrArg (fun c => { restamp .unnumbered new with channel := c }) hchannel.unnumbered,
      hchannel.changed.trans ?_, fun hf => ?_, hchannel.supply⟩
    · exact ⟨fun hc => (Connection.mk.injEq ..).mpr ⟨rfl, hsrc, hdest, harrow, hc, rfl⟩,
        congrArg Connection.channel⟩
    · exact (Connection.mk.injEq ..).mpr ⟨rfl, hsrc.symm, hdest.symm, harrow.symm,
        hchannel.unplaced hf, rfl⟩

/-- What is written in two declarations, their inner types apart, is the same. -/
theorem TypeDetails.bare_eq_iff {t u : TypeDetails} : t.restamp .bare = u.restamp .bare ↔
    t.kind = u.kind ∧ t.name = u.name ∧ Stamped.restamp .bare t.bases = Stamped.restamp .bare u.bases ∧
      Stamped.restamp .bare t.interfaces = Stamped.restamp .bare u.interfaces ∧
      Stamped.restamp .bare t.params = Stamped.restamp .bare u.params ∧
      Stamped.restamp .bare t.gates = Stamped.restamp .bare u.gates ∧
      Stamped.restamp .bare t.submodules = Stamped.restamp .bare u.submodules ∧
      Stamped.restamp .bare t.connections = Stamped.restamp .bare u.connections ∧
      t.allowUnconnected = u.allowUnconnected ∧
      Stamped.restamp .bare t.properties = Stamped.restamp .bare u.properties := by
  refine (TypeDetails.mk.injEq ..).to_iff.trans ?_
  simp only [NodeSpan.bare, true_and, and_true]

namespace TypeDecl

/-- Merging two declarations, part after part. -/
theorem adopt_mk (old : TypeDecl) (own : TypeDetails) (types : List TypeDecl) (n : NodeId) :
    TypeDecl.adopt old ⟨own, types⟩ n =
      let bases := mergeList old.bases own.bases n
      let interfaces := mergeList old.interfaces own.interfaces bases.2
      let params := mergeList old.params own.params interfaces.2
      let gates := mergeList old.gates own.gates params.2
      let inner := mergeList old.types types gates.2
      let submodules := mergeList old.submodules own.submodules inner.2
      let connections := mergeList old.connections own.connections submodules.2
      let properties := mergeList old.properties own.properties connections.2
      ((⟨{ own with node := old.node, bases := bases.1.1, interfaces := interfaces.1.1,
                    params := params.1.1, gates := gates.1.1, submodules := submodules.1.1,
                    connections := connections.1.1, properties := properties.1.1 }, inner.1.1⟩,
        (decide (own.kind ≠ old.kind) || own.allowUnconnected != old.allowUnconnected
          || bases.1.2 || interfaces.1.2 || params.1.2 || gates.1.2) || inner.1.2
          || (submodules.1.2 || connections.1.2 || properties.1.2)), properties.2) := by
  rw [TypeDecl.adopt]
  simp only [bind_apply, pure_apply, TypeDecl.adoptFrom_eq, TypeDetails.adoptBefore,
    TypeDetails.adoptAfter, mergeList, Bool.or_assoc]

/-- Fresh numbers for a declaration, part after part. -/
theorem renumber_mk (own : TypeDetails) (types : List TypeDecl) (n : NodeId) :
    TypeDecl.renumber ⟨own, types⟩ n =
      let bases := each Mergeable.renumber own.bases (n + 1)
      let interfaces := each Mergeable.renumber own.interfaces bases.2
      let params := each Mergeable.renumber own.params interfaces.2
      let gates := each Mergeable.renumber own.gates params.2
      let inner := each Mergeable.renumber types gates.2
      let submodules := each Mergeable.renumber own.submodules inner.2
      let connections := each Mergeable.renumber own.connections submodules.2
      let properties := each Mergeable.renumber own.properties connections.2
      (⟨{ own with node := n, bases := bases.1, interfaces := interfaces.1, params := params.1,
                   gates := gates.1, submodules := submodules.1, connections := connections.1,
                   properties := properties.1 }, inner.1⟩, properties.2) := by
  rw [TypeDecl.renumber]
  simp only [bind_apply, pure_apply, TypeDecl.renumberEach_eq, TypeDetails.renumberBefore,
    TypeDetails.renumberAfter, fresh]
  rfl

/-- A type numbered anew is the same but for the numbers. -/
theorem renumber_unnumbered (t : TypeDecl) (n : NodeId) :
    Stamped.restamp .unnumbered (TypeDecl.renumber t n).1 = Stamped.restamp .unnumbered t := by
  induction t using TypeDecl.induct generalizing n with
  | mk own types ih =>
    rw [renumber_mk]
    refine (restamp_mk _ _ _).trans (Eq.trans ?_ (restamp_mk _ _ _).symm)
    refine (TypeDecl.mk.injEq ..).mpr ⟨(TypeDetails.mk.injEq ..).mpr ?_, ?_⟩
    · exact ⟨rfl, rfl, rfl, each_renumber_unnumbered .., each_renumber_unnumbered ..,
        each_renumber_unnumbered .., each_renumber_unnumbered .., each_renumber_unnumbered ..,
        each_renumber_unnumbered .., rfl, each_renumber_unnumbered .., rfl⟩
    · exact each_unnumbered _ fun t ht n => ih t ht n

/-- Types that differ in numbers and spans at most have the same name. -/
theorem key_of_bare (t u : TypeDecl) (h : Stamped.restamp .bare t = Stamped.restamp .bare u) :
    t.name = u.name := by
  obtain ⟨own, types⟩ := t
  obtain ⟨own', types'⟩ := u
  have hown := (restamp_mk .bare own types).symm.trans (h.trans (restamp_mk .bare own' types'))
  exact (congrArg TypeDetails.name (TypeDecl.mk.inj hown).1 :)

/-- A type that takes over from one of its name has the content of the new, at any depth. -/
theorem adopt_exact (old new : TypeDecl) (n : NodeId) (h : old.name = new.name) :
    ExactMerge old new n (TypeDecl.adopt old new n) := by
  induction new using TypeDecl.induct generalizing old n with
  | mk own types ih =>
    obtain ⟨oldOwn, oldTypes⟩ := old
    rw [adopt_mk]
    -- Every part is merged exactly, the inner types by the hypothesis of the induction.
    have hbases := mergeList_exact oldOwn.bases own.bases n
    set bases := mergeList oldOwn.bases own.bases n
    have hinterfaces := mergeList_exact oldOwn.interfaces own.interfaces bases.2
    set interfaces := mergeList oldOwn.interfaces own.interfaces bases.2
    have hparams := mergeList_exact oldOwn.params own.params interfaces.2
    set params := mergeList oldOwn.params own.params interfaces.2
    have hgates := mergeList_exact oldOwn.gates own.gates params.2
    set gates := mergeList oldOwn.gates own.gates params.2
    have hinner : ExactMerge oldTypes types gates.2 (mergeList oldTypes types gates.2) :=
      mergeFrom_zipIdx_exact gates.2 key_of_bare (fun t _ => renumber_unnumbered t)
        fun old new hnew n => ih new hnew old n
    set inner := mergeList oldTypes types gates.2
    have hsubmodules := mergeList_exact oldOwn.submodules own.submodules inner.2
    set submodules := mergeList oldOwn.submodules own.submodules inner.2
    have hconnections := mergeList_exact oldOwn.connections own.connections submodules.2
    set connections := mergeList oldOwn.connections own.connections submodules.2
    have hproperties := mergeList_exact oldOwn.properties own.properties connections.2
    set properties := mergeList oldOwn.properties own.properties connections.2
    have hflag : ((decide (own.kind ≠ oldOwn.kind)
        || own.allowUnconnected != oldOwn.allowUnconnected || bases.1.2 || interfaces.1.2
        || params.1.2 || gates.1.2) || inner.1.2
        || (submodules.1.2 || connections.1.2 || properties.1.2)) = false ↔
        ((((((oldOwn.kind = own.kind ∧ oldOwn.allowUnconnected = own.allowUnconnected) ∧
          bases.1.2 = false) ∧ interfaces.1.2 = false) ∧ params.1.2 = false) ∧ gates.1.2 = false) ∧
          inner.1.2 = false) ∧ (submodules.1.2 = false ∧ connections.1.2 = false) ∧
          properties.1.2 = false := by
      simp only [Bool.or_eq_false_iff, decide_eq_false_iff_not, not_not, bne_eq_false_iff_eq,
        eq_comm (a := own.kind), eq_comm (a := own.allowUnconnected)]
    refine ⟨?_, ?_, fun hf => ?_, fun hf => ?_⟩
    · refine (restamp_mk _ _ _).trans (Eq.trans ?_ (restamp_mk _ _ _).symm)
      exact (TypeDecl.mk.injEq ..).mpr ⟨(TypeDetails.mk.injEq ..).mpr ⟨rfl, rfl, rfl,
        hbases.unnumbered, hinterfaces.unnumbered, hparams.unnumbered, hgates.unnumbered,
        hsubmodules.unnumbered, hconnections.unnumbered, rfl, hproperties.unnumbered, rfl⟩,
        hinner.unnumbered⟩
    · refine hflag.trans (Iff.trans ?_ (Eq.congr (restamp_mk _ _ _) (restamp_mk _ _ _)).symm)
      rw [TypeDecl.mk.injEq, TypeDetails.bare_eq_iff, hbases.changed, hinterfaces.changed,
        hparams.changed, hgates.changed, hinner.changed, hsubmodules.changed, hconnections.changed,
        hproperties.changed]
      constructor
      · rintro ⟨⟨⟨⟨⟨⟨⟨hk, ha⟩, hb⟩, hi⟩, hp⟩, hg⟩, ht⟩, ⟨hs, hc⟩, hpr⟩
        exact ⟨⟨hk, h, hb, hi, hp, hg, hs, hc, ha, hpr⟩, ht⟩
      · rintro ⟨⟨hk, _, hb, hi, hp, hg, hs, hc, ha, hpr⟩, ht⟩
        exact ⟨⟨⟨⟨⟨⟨⟨hk, ha⟩, hb⟩, hi⟩, hp⟩, hg⟩, ht⟩, ⟨hs, hc⟩, hpr⟩
    · obtain ⟨⟨⟨⟨⟨⟨⟨hk, ha⟩, hb⟩, hi⟩, hp⟩, hg⟩, ht⟩, ⟨hs, hc⟩, hpr⟩ := hflag.mp hf
      refine (restamp_mk _ _ _).trans (Eq.trans ?_ (restamp_mk _ _ _).symm)
      exact (TypeDecl.mk.injEq ..).mpr ⟨(TypeDetails.mk.injEq ..).mpr ⟨rfl, hk.symm, h.symm,
        hbases.unplaced hb, hinterfaces.unplaced hi, hparams.unplaced hp, hgates.unplaced hg,
        hsubmodules.unplaced hs, hconnections.unplaced hc, ha.symm, hproperties.unplaced hpr, rfl⟩,
        hinner.unplaced ht⟩
    · obtain ⟨⟨⟨⟨⟨⟨_, hb⟩, hi⟩, hp⟩, hg⟩, ht⟩, ⟨hs, hc⟩, hpr⟩ := hflag.mp hf
      exact (hproperties.supply hpr).trans ((hconnections.supply hc).trans
        ((hsubmodules.supply hs).trans ((hinner.supply ht).trans ((hgates.supply hg).trans
        ((hparams.supply hp).trans ((hinterfaces.supply hi).trans (hbases.supply hb)))))))

instance : LawfulMergeable TypeDecl where
  key_of_bare := TypeDecl.key_of_bare
  renumber_unnumbered := TypeDecl.renumber_unnumbered
  adopt_exact := TypeDecl.adopt_exact

end TypeDecl

/-- The package is merged to the content of the new one, with a flag that is right. -/
theorem PackageDecl.merge_exact (old new : Option PackageDecl) (n : NodeId) :
    ExactMerge old new n (PackageDecl.merge old new n) := by
  match old, new with
  | none, none => exact ⟨rfl, ⟨fun _ => rfl, fun _ => rfl⟩, fun _ => rfl, fun _ => rfl⟩
  | some _, none => exact ⟨rfl, ⟨nofun, nofun⟩, nofun, nofun⟩
  | none, some _ => exact ⟨rfl, ⟨nofun, nofun⟩, nofun, nofun⟩
  | some ⟨_, name, _⟩, some new =>
    have hflag : (name != new.name) = false ↔ name = new.name := bne_eq_false_iff_eq
    refine ⟨rfl, hflag.trans ⟨fun h => h ▸ rfl, fun h => congrArg PackageDecl.name
      (Option.some.inj h)⟩, fun h => ?_, fun _ => rfl⟩
    obtain rfl := hflag.mp h
    rfl

namespace Tree

/-- **A merge says what the new tree says, and tells whether the old one says the same.** If it does,
every node has the number that the node in its place has in the old tree, and no number was given out. -/
theorem merge_exact (old new : Tree) :
    (old.merge new).tree.unnumbered = new.unnumbered ∧
      ((old.merge new).changed = false ↔ old.bare = new.bare) ∧
      ((old.merge new).changed = false → (old.merge new).tree.unplaced = old.unplaced ∧
        (old.merge new).tree.nextNode = max old.nextNode 1) := by
  have hpackage := PackageDecl.merge_exact old.package new.package (max old.nextNode 1)
  set package := PackageDecl.merge old.package new.package (max old.nextNode 1)
  have himports := mergeList_exact old.imports new.imports package.2
  set imports := mergeList old.imports new.imports package.2
  have hproperties := mergeList_exact old.properties new.properties imports.2
  set properties := mergeList old.properties new.properties imports.2
  have htypes := mergeList_exact old.types new.types properties.2
  set types := mergeList old.types new.types properties.2
  have hmerge : old.merge new =
      ⟨⟨package.1.1, imports.1.1, properties.1.1, types.1.1, types.2⟩,
        package.1.2 || imports.1.2 || properties.1.2 || types.1.2⟩ := rfl
  rw [hmerge]
  refine ⟨?_, ?_, fun hf => ?_⟩
  · exact (Tree.mk.injEq ..).mpr ⟨hpackage.unnumbered, himports.unnumbered,
      hproperties.unnumbered, htypes.unnumbered, rfl⟩
  · simp only [Bool.or_eq_false_iff]
    rw [hpackage.changed, himports.changed, hproperties.changed, htypes.changed]
    refine Iff.symm ((Tree.mk.injEq ..).to_iff.trans ?_)
    exact ⟨fun ⟨hp, hi, hpr, ht, _⟩ => ⟨⟨⟨hp, hi⟩, hpr⟩, ht⟩,
      fun ⟨⟨⟨hp, hi⟩, hpr⟩, ht⟩ => ⟨hp, hi, hpr, ht, rfl⟩⟩
  · simp only [Bool.or_eq_false_iff] at hf
    obtain ⟨⟨⟨hp, hi⟩, hpr⟩, ht⟩ := hf
    exact ⟨(Tree.mk.injEq ..).mpr ⟨hpackage.unplaced hp, himports.unplaced hi,
      hproperties.unplaced hpr, htypes.unplaced ht, rfl⟩,
      (htypes.supply ht).trans ((hproperties.supply hpr).trans ((himports.supply hi).trans
        (hpackage.supply hp)))⟩

/-- What is read again where it was before, is merged without a trace. -/
theorem merge_same {old new : Tree} (h : old.unnumbered = new.unnumbered)
    (hnext : 1 ≤ old.nextNode) : old.merge new = ⟨old, false⟩ := by
  obtain ⟨hsaid, hchanged, hkept⟩ := merge_exact old new
  have hsame := hchanged.mpr (bare_of_restamp h)
  obtain ⟨hunplaced, hcount⟩ := hkept hsame
  have hspans := congrArg nodes (hsaid.trans h.symm)
  have hnumbers := congrArg nodes hunplaced
  simp only [unnumbered, unplaced, nodes_uncounted, nodes_restamp] at hspans hnumbers
  have hnodes := NodeSpan.list_eq_of_unnumbered_of_unplaced hspans hnumbers
  have htree : (old.merge new).tree = old := eq_of_uncounted
    (eq_of_bare (bare_of_restamp hunplaced) hnodes) (hcount.trans (Nat.max_eq_left hnext))
  calc old.merge new = ⟨(old.merge new).tree, (old.merge new).changed⟩ := rfl
    _ = ⟨old, false⟩ := by rw [htree, hsame]

/-- Two trees have the same structure if the same is written in them. -/
theorem sameStructure_iff (a b : Tree) : a.sameStructure b = true ↔ a.bare = b.bare := by
  rw [sameStructure, Bool.not_eq_true', (merge_exact a b).2.1]

/-- **The structural diff is exact.** Whatever the trees, a merge has all that the new tree has, spans
included, and only numbers are its own. It reports no change exactly if the trees agree once numbers,
spans and counts are erased. Then every node has the number of the node at the same place of the old
tree, and no number was given out. So having the same structure is an equivalence. -/
theorem structural_diff_exact :
    (∀ old new : Tree,
      (old.merge new).tree.unnumbered = new.unnumbered ∧
      ((old.merge new).changed = false ↔ old.bare = new.bare) ∧
      ((old.merge new).changed = false →
        (old.merge new).tree.unplaced = old.unplaced ∧
        (old.merge new).tree.nodes.map NodeSpan.node = old.nodes.map NodeSpan.node ∧
        (old.merge new).tree.nextNode = max old.nextNode 1)) ∧
    Equivalence fun a b : Tree => a.sameStructure b = true := by
  refine ⟨fun old new => ?_, ?_⟩
  · obtain ⟨hsaid, hchanged, hkept⟩ := merge_exact old new
    refine ⟨hsaid, hchanged, fun hsame => ?_⟩
    obtain ⟨hunplaced, hnext⟩ := hkept hsame
    have hnumbers : ∀ t : Tree, t.unplaced.nodes.map NodeSpan.node = t.nodes.map NodeSpan.node := by
      intro t
      rw [unplaced, nodes_uncounted, nodes_restamp, List.map_map]
      rfl
    refine ⟨hunplaced, ?_, hnext⟩
    rw [← hnumbers, hunplaced, hnumbers]
  · refine ⟨fun a => ?_, fun {a b} hab => ?_, fun {a b c} hab hbc => ?_⟩
    · exact (sameStructure_iff a a).mpr rfl
    · exact (sameStructure_iff b a).mpr ((sameStructure_iff a b).mp hab).symm
    · exact (sameStructure_iff a c).mpr
        (((sameStructure_iff a b).mp hab).trans ((sameStructure_iff b c).mp hbc))

end Tree

end NedWorkspace
