/-
# Reading nests spans

While a node is read that begins at an offset `lo`, the parts of it that were read so far lie between
`lo` and the last token taken (`Cursor.Holds`). When its span is made, it reaches from `lo` to the last
token taken, so the parts lie inside it. This is so only if a token was taken since `lo`: the parsers that
make a span do so after a piece that they cannot do without (`Parser.Eager`), and where that piece is
missing they give no node. The channel of a connection alone can have no token at all. Then its span is
empty and begins where the next token does (`channelSpec_lays`), and the connection goes on only if this is
its second arrow.

`Parser.Lays lo begun parts Q p` is the law in the form in which it goes through a parser step by step.
A step that takes tokens changes nothing (`skip`), a part that is read is added (`part`), a node is made
of the parts (`made`). The main result is `Parse.laid`: all branches of the tree of a text lie in the
text, with or without mistakes in it.
-/

import NedWorkspace.Proofs.Syntax.Branch
import NedWorkspace.Proofs.Syntax.Onward

namespace NedWorkspace

open Branched

namespace Cursor

variable {s t : Cursor} {lo : Nat} {bs cs : List Branch}

/-- The branches lie between an offset and the last token taken. -/
def Encloses (s : Cursor) (lo : Nat) (bs : List Branch) : Prop :=
  ∀ b ∈ bs, b.Laid s.frame.lines lo s.lastStop

namespace Encloses

theorem nil (s : Cursor) (lo : Nat) : s.Encloses lo [] :=
  fun _ h => absurd h List.not_mem_nil

/-- What is laid one after the other is laid together. -/
theorem append (h : s.Encloses lo bs) (k : s.Encloses lo cs) : s.Encloses lo (bs ++ cs) :=
  List.forall_mem_append.mpr ⟨h, k⟩

/-- What is laid stays so when the cursor moves on. -/
theorem onward (h : s.Encloses lo bs) (k : s.Onward t) : t.Encloses lo bs := by
  intro b hb
  rw [k.frame]
  exact (h b hb).mono (Nat.le_refl _) k.lastStop

/-- What is laid behind one place is laid behind an earlier one. -/
theorem mono {lo' : Nat} (h : s.Encloses lo bs) (hle : lo' ≤ lo) : s.Encloses lo' bs :=
  fun b hb => (h b hb).mono hle (Nat.le_refl _)

/-- A node whose span is made now lies around what was read since the offset. -/
theorem around (h : s.Encloses lo bs) (hle : lo ≤ s.lastStop) (node : NodeId) :
    s.Encloses lo [⟨⟨node, s.spanFrom lo⟩, bs⟩] := by
  have hspan : s.spanFrom lo = s.frame.lines.span lo s.lastStop := by
    rw [Cursor.spanFrom, Nat.max_eq_left hle]
  intro b hb
  rw [List.mem_singleton.mp hb]
  exact ⟨Nat.le_refl lo, hle, Nat.le_refl _, hspan, h⟩

end Encloses

/-- What is known at a cursor while a node is read that begins at an offset: some parts of it were
read, and if it has `begun`, a token was taken behind the offset. -/
structure Holds (s : Cursor) (lo : Nat) (begun : Prop) (parts : List Branch) : Prop where
  orderly : s.Orderly
  start : lo ≤ s.start
  begun : begun → lo ≤ s.lastStop
  parts : s.Encloses lo parts

namespace Holds

variable {begun : Prop} {parts : List Branch}

theorem onward (h : s.Holds lo begun parts) (k : s.Onward t) : t.Holds lo begun parts :=
  ⟨k.orderly, Nat.le_trans h.start k.start, fun hb => Nat.le_trans (h.begun hb) k.lastStop,
    h.parts.onward k⟩

/-- At the beginning of a node. -/
theorem init (h : s.Orderly) : s.Holds s.start False [] :=
  ⟨h, Nat.le_refl _, False.elim, .nil _ _⟩

/-- The parts so far may be forgotten. -/
theorem bare (h : s.Holds lo begun parts) : s.Holds lo False [] :=
  ⟨h.orderly, h.start, False.elim, .nil _ _⟩

/-- Other parts may be there instead. -/
theorem having (h : s.Holds lo begun parts) (hbs : s.Encloses lo bs) : s.Holds lo begun bs :=
  ⟨h.orderly, h.start, h.begun, hbs⟩

end Holds

end Cursor

open Cursor

namespace Parser

variable {α β γ : Type} {lo : Nat} {begun : Prop} {parts : List Branch} {Q : α → Cursor → Prop}

/-- Begun where something is known of a node, the parser goes on, and of its result and where it ends
`Q` holds. -/
def Lays (lo : Nat) (begun : Prop) (parts : List Branch) (Q : α → Cursor → Prop) (p : Parser α) :
    Prop :=
  ∀ s : Cursor, s.Holds lo begun parts → s.Onward (p.run s).2 ∧ Q (p.run s).1 (p.run s).2

/-- The branches of a result, seen in some way, lie behind an offset. -/
def Behind (lo : Nat) (view : α → List Branch) (a : α) (s : Cursor) : Prop :=
  s.Encloses lo (view a)

/-- The branches of a result lie between an offset and the next token. -/
def Before (lo : Nat) (view : α → List Branch) (a : α) (s : Cursor) : Prop :=
  ∀ b ∈ view a, b.Laid s.frame.lines lo s.start

/-- What the parser reads lies where it reads it. -/
class Reads [Stamped α] [Branched α] (p : Parser α) : Prop where
  lays : ∀ lo, Lays lo False [] (Behind lo branches) p

/-- Where a result is given, a token was taken. -/
class Eager (p : Parser (Option α)) : Prop where
  moves : ∀ s : Cursor, (p.run s).1.isSome → (p.run s).2.rest.length < s.rest.length

instance [Stamped α] [Branched α] (p : Parser α) [hp : Reads p] : Steady p :=
  ⟨fun s hs => (hp.lays s.start s (.init hs)).1⟩

instance [Stamped α] [Branched α] : Reads (Pure.pure none : Parser (Option α)) where
  lays _ _ hs := ⟨.refl hs.orderly, .nil _ _⟩

instance [Stamped α] [Branched α] : Reads (Pure.pure [] : Parser (List α)) where
  lays _ _ hs := ⟨.refl hs.orderly, .nil _ _⟩

namespace Lays

theorem pure {a : α} (h : ∀ s : Cursor, s.Holds lo begun parts → Q a s) :
    Lays lo begun parts Q (Pure.pure a) :=
  fun s hs => ⟨.refl hs.orderly, h s hs⟩

/-- The result has no branches but the parts. -/
theorem pure_of_subset {view : α → List Branch} {a : α} (h : view a ⊆ parts) :
    Lays lo begun parts (Behind lo view) (Pure.pure a) :=
  .pure fun _ hs b hb => hs.parts b (h hb)

/-- A parser that gives nothing lays nothing. -/
theorem none [Stamped α] [Branched α] :
    Lays lo begun parts (Behind lo branches) (Pure.pure Option.none : Parser (Option α)) :=
  .pure_of_subset (List.nil_subset _)

/-- Parts that are not used may be there. -/
theorem of_subset {parts' : List Branch} {p : Parser α} (h : parts' ⊆ parts)
    (hp : Lays lo begun parts' Q p) : Lays lo begun parts Q p :=
  fun s hs => hp s (hs.having fun b hb => hs.parts b (h hb))

/-- A step that takes tokens, if any. -/
theorem skip {p : Parser β} {f : β → Parser α} [hp : Steady p] (hf : ∀ b, Lays lo begun parts Q (f b)) :
    Lays lo begun parts Q (p >>= f) := by
  intro s hs
  have h := hp.onward s hs.orderly
  obtain ⟨hon, hq⟩ := hf _ _ (hs.onward h)
  exact ⟨h.trans hon, hq⟩

/-- A part is read. -/
theorem part [Stamped β] [Branched β] {p : Parser β} {f : β → Parser α} [hp : Reads p]
    (hf : ∀ b, Lays lo begun (branches b ++ parts) Q (f b)) : Lays lo begun parts Q (p >>= f) := by
  intro s hs
  obtain ⟨h, hpart⟩ := hp.lays lo s hs.bare
  have hs' := hs.onward h
  obtain ⟨hon, hq⟩ := hf _ _ (hs'.having (hpart.append hs'.parts))
  exact ⟨h.trans hon, hq⟩

/-- All parts go into a step, and what they are then is seen in some way. -/
theorem thread {p : Parser β} {f : β → Parser α} {view : β → List Branch}
    (hp : Lays lo begun parts (Behind lo view) p) (hf : ∀ b, Lays lo begun (view b) Q (f b)) :
    Lays lo begun parts Q (p >>= f) := by
  intro s hs
  obtain ⟨h, hparts⟩ := hp s hs
  have hs' := hs.onward h
  obtain ⟨hon, hq⟩ := hf _ _ (hs'.having hparts)
  exact ⟨h.trans hon, hq⟩

/-- A step that tells whether it took a token. -/
theorem taking (took : β → Prop) {p : Parser β} {f : β → Parser α} [hp : Steady p]
    (hmoves : ∀ s, took (p.run s).1 → (p.run s).2.rest.length < s.rest.length)
    (htook : ∀ b, took b → Lays lo True parts Q (f b))
    (hleft : ∀ b, ¬ took b → Lays lo begun parts Q (f b)) : Lays lo begun parts Q (p >>= f) := by
  intro s hs
  have h := hp.onward s hs.orderly
  have hs' := hs.onward h
  by_cases hb : took (p.run s).1
  · have hmoved := Nat.le_trans hs.start (h.moved (hmoves s hb))
    obtain ⟨hon, hq⟩ := htook _ hb _ ⟨hs'.orderly, hs'.start, fun _ => hmoved, hs'.parts⟩
    exact ⟨h.trans hon, hq⟩
  · obtain ⟨hon, hq⟩ := hleft _ hb _ hs'
    exact ⟨h.trans hon, hq⟩

/-- A piece that cannot be missing. -/
theorem eager {p : Parser (Option β)} {f : Option β → Parser α} [Steady p] [hp : Eager p]
    (hnone : Lays lo begun parts Q (f Option.none)) (hsome : ∀ b, Lays lo True parts Q (f (some b))) :
    Lays lo begun parts Q (p >>= f) := by
  refine .taking (fun b => b.isSome = true) hp.moves (fun b hb => ?_) fun b hb => ?_
  · obtain ⟨b, rfl⟩ := Option.isSome_iff_exists.mp hb
    exact hsome b
  · rw [Option.not_isSome_iff_eq_none.mp hb]
    exact hnone

/-- A word ahead that is taken. -/
theorem word {g : Cursor → Option β} {f : Option β → Parser α} {f' : β → Parser α}
    (hg : ∀ s, (g s).isSome → s.rest ≠ []) (hf : ∀ b, f (some b) = skipOne >>= fun _ => f' b)
    (hnone : Lays lo begun parts Q (f Option.none)) (hsome : ∀ b, Lays lo True parts Q (f' b)) :
    Lays lo begun parts Q (look g >>= f) := by
  intro s hs
  change s.Onward ((f (g s)).run s).2 ∧ Q ((f (g s)).run s).1 ((f (g s)).run s).2
  cases hb : g s with
  | none => exact hnone s hs
  | some b =>
    have hnext := Onward.next hs.orderly
    have hs' := hs.onward hnext
    have hmoved := hnext.moved (length_next_lt (hg s (by simp [hb])))
    obtain ⟨hon, hq⟩ := hsome b s.next ⟨hs'.orderly, hs'.start, fun _ => Nat.le_trans hs.start hmoved,
      hs'.parts⟩
    rw [hf]
    exact ⟨hnext.trans hon, hq⟩

/-- A node begins where the next token does. -/
theorem start_of {R : Nat → α → Cursor → Prop} {f : Nat → Parser α}
    (hR : ∀ {lo lo' a s}, lo ≤ lo' → R lo' a s → R lo a s) (hf : ∀ lo, Lays lo False [] (R lo) (f lo)) :
    Lays lo begun parts (R lo) (Parser.start >>= f) := by
  intro s hs
  obtain ⟨hon, hq⟩ := hf s.start s (.init hs.orderly)
  exact ⟨hon, hR hs.start hq⟩

/-- A node begins where the cursor is. -/
theorem start {view : α → List Branch} {f : Nat → Parser α}
    (hf : ∀ lo, Lays lo False [] (Behind lo view) (f lo)) :
    Lays lo begun parts (Behind lo view) (Parser.start >>= f) :=
  start_of (R := fun lo => Behind lo view) (fun hle h => Encloses.mono h hle) hf

/-- A part that may have no token, and a piece behind it that cannot be missing. -/
theorem closed {view : β → List Branch} {p : Parser β} {q : Parser (Option γ)}
    {f : β → Option γ → Parser α} [hq : Steady q] [Eager q]
    (hp : Lays lo False [] (Before lo view) p) (hnone : ∀ b, Lays lo begun parts Q (f b Option.none))
    (hsome : ∀ b c, Lays lo begun (view b ++ parts) Q (f b (some c))) :
    Lays lo begun parts Q (p >>= fun b => q >>= f b) := by
  intro s hs
  obtain ⟨hon, hpart⟩ := hp s hs.bare
  have hclose := hq.onward _ hon.orderly
  have hs' := hs.onward (hon.trans hclose)
  simp only [run_bind]
  cases hc : (q.run (p.run s).2).1 with
  | none =>
    obtain ⟨hrest, hq⟩ := hnone (p.run s).1 _ hs'
    exact ⟨(hon.trans hclose).trans hrest, hq⟩
  | some c =>
    have hle := hclose.moved (Eager.moves _ (by rw [hc]; rfl))
    have hpart' : (q.run (p.run s).2).2.Encloses lo (view (p.run s).1) := by
      intro b hb
      rw [hclose.frame]
      exact (hpart b hb).mono (Nat.le_refl _) hle
    obtain ⟨hrest, hq⟩ := hsome (p.run s).1 c _
      (hs'.having (hpart'.append hs'.parts))
    exact ⟨(hon.trans hclose).trans hrest, hq⟩

/-- A node is made of the parts. -/
theorem made [Stamped α] [Branched α] {g : Span → α} {node : NodeId} {inside : List Branch}
    (hg : ∀ span, branches (g span) = [⟨⟨node, span⟩, inside⟩]) (hparts : inside ⊆ parts) :
    Lays lo True parts (Behind lo branches)
      (spanFrom lo >>= fun span => Pure.pure (some (g span))) := by
  intro s hs
  have hinside : s.Encloses lo inside := fun c hc => hs.parts c (hparts hc)
  have hnode := hinside.around (hs.begun trivial) node
  rw [← hg, ← branches_some] at hnode
  exact ⟨.refl hs.orderly, hnode⟩

/-- Two ways of reading a part, and one way to go on. -/
theorem ite_part [Stamped γ] [Branched γ] {c : Prop} [Decidable c] {x y : Parser γ} {f : γ → Parser α}
    [Reads x] [Reads y] (hf : ∀ g, Lays lo begun (branches g ++ parts) Q (f g)) :
    Lays lo begun parts Q (if c then x >>= f else y >>= f) := by
  split
  · exact .part hf
  · exact .part hf

/-- Two ways of going by, and one way to go on. -/
theorem ite_skip {c : Prop} [Decidable c] {x y : Parser γ} {f : γ → Parser α} [Steady x] [Steady y]
    (hf : ∀ g, Lays lo begun parts Q (f g)) :
    Lays lo begun parts Q (if c then x >>= f else y >>= f) := by
  split
  · exact .skip hf
  · exact .skip hf

/-- Steps that may be left out before one way to go on. -/
theorem when {c : Prop} [Decidable c] {p q : Parser α} (hq : Lays lo begun parts Q q)
    (hp : Lays lo begun parts Q q → Lays lo begun parts Q p) :
    Lays lo begun parts Q (if c then p else q) := by
  split
  · exact hp hq
  · exact hq

/-- A step that may be left out. -/
theorem when_skip {c : Prop} [Decidable c] {x : Parser β} [Steady x] {p : Parser α}
    (hp : Lays lo begun parts Q p) : Lays lo begun parts Q (if c then x >>= fun _ => p else p) :=
  .when hp fun h => .skip fun _ => h

end Lays

/-! ### Pieces that cannot be missing -/

namespace Eager

/-- The piece and what goes on with it; without it there is no result. -/
theorem bind {p : Parser (Option β)} {f : Option β → Parser (Option α)} [hp : Eager p]
    (hnone : ∀ s, ((f none).run s).1 = none) : Eager (p >>= f) where
  moves s h := by
    have hmoves := hp.moves s
    rw [run_bind] at h ⊢
    generalize p.run s = r at hmoves h ⊢
    obtain ⟨_ | b, t⟩ := r
    · exact absurd (hnone t) (Option.ne_none_iff_isSome.mpr h)
    · exact Nat.lt_of_le_of_lt ((f (some b)).reaches t).length_le (hmoves rfl)

instance expectIdent (what : String) : Eager (expectIdent what) where
  moves s h := by
    cases hrest : s.rest with
    | nil => simp [Parser.expectIdent, look, hrest] at h
    | cons t ts =>
      by_cases hk : t.kind = .ident
      · have hrun : ((Parser.expectIdent what).run s).2 = s.next := by
          simp [Parser.expectIdent, look, hrest, hk, skipOne]
        rw [hrun, ← hrest]
        exact length_next_lt (by simp [hrest])
      · simp [Parser.expectIdent, look, hrest, hk] at h

instance qualifiedName (what : String) : Eager (qualifiedName what) where
  moves s h := by
    by_cases hk : s.kind? = some .ident
    · have hne := rest_ne_nil_of_kind? hk
      obtain ⟨t, ts, hrest⟩ := List.exists_cons_of_ne_nil hne
      have hrun : ((Parser.qualifiedName what).run s).2 = s.skip (Stretch.name s.rest) := by
        simp [Parser.qualifiedName, Parser.at?, look, hk, Parser.takeCounted]
      rw [hrun, rest_skip, hrest, Stretch.name, List.length_drop]
      simp only [List.length_cons]
      omega
    · simp [Parser.qualifiedName, Parser.at?, look, hk] at h

instance gateRef : Eager gateRef :=
  bind fun _ => rfl

instance arrow : Eager arrow where
  moves s h := by
    cases hk : s.kind? with
    | none => simp [Parser.arrow, Parser.kind?, look, hk] at h
    | some k =>
      by_cases harrow : k.isArrow = true
      · have hrun : (Parser.arrow.run s).2 = s.next := by
          simp [Parser.arrow, Parser.kind?, look, hk, harrow, skipOne]
        rw [hrun]
        exact length_next_lt (rest_ne_nil_of_kind? hk)
      · simp [Parser.arrow, Parser.kind?, look, hk, harrow] at h

end Eager

/-! ### Loops -/

instance [Stamped α] [Branched α] (sep : Kind) (item : Parser (Option α)) [hitem : Reads item] :
    Reads (sepBy sep item) := by
  refine ⟨fun lo s hs => ⟨Steady.onward s hs.orderly, ?_⟩⟩
  change (sepByFrom sep item s).2.Encloses lo (branches (sepByFrom sep item s).1)
  fun_induction sepByFrom sep item s with
  | case1 s r hr => exact .nil _ _
  | case2 s r a ha hsep more ih =>
    obtain ⟨hon, hpart⟩ := hitem.lays lo s hs
    have hpart : r.2.Encloses lo (branches r.1) := hpart
    have hnext := Onward.next hon.orderly
    have hmore : r.2.next.Onward more.2 :=
      (inferInstance : Steady (sepBy sep item)).onward r.2.next hnext.orderly
    rw [ha, branches_some] at hpart
    exact (hpart.onward (hnext.trans hmore)).append (ih (hs.onward (hon.trans hnext)))
  | case3 s r a ha hsep =>
    have hpart : r.2.Encloses lo (branches r.1) := (hitem.lays lo s hs).2
    rw [ha] at hpart
    exact hpart

instance [Stamped α] [Branched α] (p : Kind → Bool) (item : Parser (Option α)) [hitem : Reads item] :
    Reads (manyWhile p item) := by
  refine ⟨fun lo s hs => ⟨Steady.onward s hs.orderly, ?_⟩⟩
  change (manyWhileFrom p item s).2.Encloses lo (branches (manyWhileFrom p item s).1)
  fun_induction manyWhileFrom p item s with
  | case1 s hp r hlt more ih =>
    obtain ⟨hon, hpart⟩ := hitem.lays lo s hs
    have hpart : r.2.Encloses lo (branches r.1) := hpart
    have hmore : r.2.Onward more.2 :=
      (inferInstance : Steady (manyWhile p item)).onward r.2 hon.orderly
    rw [branches_append, branches_toList]
    exact (hpart.onward hmore).append (ih (hs.onward hon))
  | case2 s hp r hlt => exact (hitem.lays lo s hs).2
  | case3 s hp => exact .nil _ _

/-! ### References, properties and members -/

instance (what : String) : Reads (typeRef what) where
  lays _ := .start fun _ => .skip fun _ => .eager .none fun _ => .made (fun _ => rfl)
    (List.nil_subset _)

instance : Reads typeRefs :=
  inferInstanceAs (Reads (sepBy _ _))

instance : Reads property where
  lays _ := by
    refine .start fun lo => .skip fun _ => .skip fun node => .word (fun s h => ?_) (fun _ => rfl)
      (.skip fun _ => .none) fun name => .skip fun bracket => .ite_skip fun index =>
        .skip fun paren => ?_
    · rintro hnil
      simp [hnil] at h
    · dsimp only
      have hend (entries : List PropertyEntry) : Lays lo True [] (Behind lo branches)
          (do return some ({ node, name, index, entries, span := ← spanFrom lo } : Property)) :=
        .made (fun _ => rfl) (List.nil_subset _)
      split
      · exact .skip fun _ => .skip fun _ => .skip hend
      · exact .skip hend

instance : Reads properties :=
  inferInstanceAs (Reads (manyWhile _ _))

instance : Reads propertyStatement where
  lays _ := .part fun property => .skip fun _ => .pure_of_subset (by simp)

/-- A parameter has its properties inside. -/
theorem paramFromName_lays (volatile : Bool) (type : Option ParamType) :
    Lays lo False [] (Behind lo branches) (paramFromName lo volatile type) := by
  refine .skip fun node => .eager (.skip fun _ => .none) fun name => .part fun before =>
    .skip fun value => .part fun after => .skip fun _ => ?_
  have hparts : branches (before ++ after) ⊆ branches after ++ (branches before ++ []) := by
    simp
  exact .made (fun _ => rfl) hparts

instance : Reads param where
  lays _ := by
    refine .start fun lo => .skip fun volatile => .skip fun next => ?_
    split
    · exact .skip fun _ => paramFromName_lays _ _
    · refine .skip fun plain => ?_
      split
      · exact paramFromName_lays _ _
      · exact .when_skip (.skip fun _ => .none)

instance : Reads gate where
  lays _ := by
    refine .skip fun stray => ?_
    split
    · exact .skip fun _ => .none
    · exact .start fun lo => .skip fun next => .when_skip (.skip fun node =>
        .eager (.skip fun _ => .none) fun name => .skip fun isVector => .ite_skip fun size =>
          .part fun properties => .skip fun _ => .made (fun _ => rfl) (List.subset_append_left _ _))

/-! ### Submodules -/

/-- A member of a submodule is laid behind the parts before it. -/
theorem submoduleMember_lays (sec : BodySection) (sub : Submodule) :
    Lays lo begun sub.parts (Behind lo Submodule.parts) (submoduleMember sec sub) := by
  have hskip : Lays lo begun sub.parts (Behind lo Submodule.parts) (do skipStatement; return sub) :=
    .skip fun _ => .pure_of_subset (List.Subset.refl _)
  cases sec with
  | gates =>
    refine .part fun gate => .pure_of_subset fun b hb => ?_
    simp only [Submodule.mem_parts, branches_append, branches_toList, List.mem_append] at hb ⊢
    tauto
  | parameters =>
    refine .skip fun stray => ?_
    split
    · refine .part fun property => .pure_of_subset fun b hb => ?_
      simp only [Submodule.mem_parts, branches_append, branches_toList, List.mem_append] at hb ⊢
      tauto
    · refine .part fun param => .pure_of_subset fun b hb => ?_
      simp only [Submodule.mem_parts, branches_append, branches_toList, List.mem_append] at hb ⊢
      tauto
  | types => exact hskip
  | submodules => exact hskip
  | connections => exact hskip

theorem submoduleBody_lays (sub : Submodule) :
    Lays lo begun sub.parts (Behind lo Submodule.parts) (submoduleBody sub) := by
  intro s hs
  change s.Onward (submoduleBodyFrom .parameters sub s).2 ∧
    (submoduleBodyFrom .parameters sub s).2.Encloses lo (submoduleBodyFrom .parameters sub s).1.parts
  generalize BodySection.parameters = sec
  fun_induction submoduleBodyFrom sec sub s with
  | case1 => exact ⟨.refl hs.orderly, hs.parts⟩
  | case2 => exact ⟨.refl hs.orderly, hs.parts⟩
  | case3 sec sub s t _ _ _ opened _ ih =>
    have hon : s.Onward ((submoduleSection opened).run s).2 := Steady.onward s hs.orderly
    obtain ⟨hrest, hq⟩ := ih (hs.onward hon)
    exact ⟨hon.trans hrest, hq⟩
  | case4 sec sub s t _ _ _ _ r _ ih =>
    obtain ⟨hon, hmember⟩ := submoduleMember_lays sec sub s hs
    have hs' := hs.onward hon
    obtain ⟨hrest, hq⟩ := ih (hs'.having hmember)
    exact ⟨hon.trans hrest, hq⟩
  | case5 sec sub s t _ _ _ _ r _ ih =>
    obtain ⟨hon, hmember⟩ := submoduleMember_lays sec sub s hs
    have hpass : r.2.Onward ((passOver "a member").run r.2).2 := Steady.onward r.2 hon.orderly
    have hs' := hs.onward (hon.trans hpass)
    obtain ⟨hrest, hq⟩ := ih (hs'.having (Encloses.onward hmember hpass))
    exact ⟨(hon.trans hpass).trans hrest, hq⟩

/-- A submodule has its type and its members inside, in order. -/
theorem submoduleFromType_lays (node : NodeId) (name : String) (vectorSize : Option String) :
    Lays lo True [] (Behind lo branches) (submoduleFromType lo node name vectorSize) := by
  refine .skip fun lt => .ite_skip fun like => .part fun type => ?_
  cases type with
  | none => exact .skip fun _ => .none
  | some type =>
    refine .skip fun cond => .when_skip (.skip fun brace => ?_)
    have hend (sub : Submodule) : Lays lo True sub.parts (Behind lo branches)
        (do return some { sub with span := ← spanFrom lo }) := by
      have hsub : ∀ span, branches { sub with span } = [⟨⟨sub.node, span⟩, sub.parts⟩] := fun _ => rfl
      exact .made hsub (List.Subset.refl _)
    set sub : Submodule := { node, name, vectorSize, type, like, params := [], gates := [],
                             properties := [], span := {} } with hsub
    have hparts : sub.parts ⊆ branches (some type) ++ [] := by simp [hsub, Submodule.parts]
    refine .of_subset hparts ?_
    split
    · exact .thread (submoduleBody_lays sub) fun sub => .skip fun _ => .skip fun _ =>
        .thread (.pure_of_subset (List.Subset.refl _)) hend
    · exact .skip fun _ => .thread (.pure_of_subset (List.Subset.refl _)) hend

instance : Reads submodule where
  lays _ := by
    refine .skip fun stray => ?_
    split
    · exact .skip fun _ => .none
    · refine .start fun lo => .skip fun node => .eager (.skip fun _ => .none) fun name => ?_
      have hend (vectorSize : Option String) : Lays lo True [] (Behind lo branches) (do
          if ← expect (.mark .colon) "':'" then submoduleFromType lo node name vectorSize
          else
            skipStatement
            return none) := .skip fun colon => by
        split
        · exact submoduleFromType_lays node name vectorSize
        · exact .skip fun _ => .none
      refine .skip fun bracket => ?_
      split
      · exact .skip fun size => .skip hend
      · exact .skip hend

/-! ### Connections -/

/-- A channel may have no token at all. Then it lies right before the next one. -/
theorem channelSpec_lays : Lays lo False [] (Before lo branches) channelSpec := by
  have hearlier {lo lo' : Nat} {c : ChannelSpec} {s : Cursor} (hle : lo ≤ lo')
      (h : Before lo' branches c s) : Before lo branches c s :=
    fun b hb => (h b hb).mono hle (Nat.le_refl _)
  refine .start_of (R := fun lo => Before lo branches) hearlier fun lo =>
    .skip fun node => .skip fun label => .when (.skip fun lt => .ite_skip fun like =>
      .skip fun named => .ite_part fun type => .skip fun brace => .when_skip (.when_skip ?_))
        fun h => .skip fun _ => .skip fun _ => h
  intro s hs
  refine ⟨.refl hs.orderly, fun b hb => ?_⟩
  obtain rfl : b = ⟨⟨node, s.spanFrom lo⟩, branches type⟩ := List.mem_singleton.mp hb
  exact ⟨Nat.le_refl lo, Nat.le_max_right _ _, Nat.max_le.mpr ⟨hs.orderly.lastStop_le, hs.start⟩, rfl,
    fun c hc => (hs.parts c (List.mem_append_left _ hc)).mono (Nat.le_refl _) (Nat.le_max_left _ _)⟩

instance : Reads channelBetween where
  lays _ := by
    refine .skip fun ahead => ?_
    split
    · exact .closed channelSpec_lays (fun _ => .none) fun channel _ => .pure_of_subset (by simp)
    · exact .pure_of_subset (List.nil_subset _)

/-- Turning a connection around leaves its nodes. -/
theorem branches_orient (node : NodeId) (left : GateRef) (k : Kind) (right : GateRef)
    (channel : Option ChannelSpec) (span : Span) :
    branches (orient node left k right channel span) = [⟨⟨node, span⟩, branches channel⟩] := by
  unfold orient
  split_ifs <;> rfl

theorem giveUp_lays [Stamped α] [Branched α] :
    Lays lo begun parts (Behind lo branches) (giveUp : Parser (Option α)) :=
  .skip fun _ => .none

instance : Reads connection where
  lays _ := by
    refine .start fun lo => .skip fun node => .eager giveUp_lays fun left => .eager giveUp_lays fun k =>
      .part fun channel => ?_
    cases channel with
    | none => exact .none
    | some channel =>
      exact .eager giveUp_lays fun right => .skip fun _ =>
        .made (branches_orient node left k right channel) (by simp)

instance : Reads plainLink where
  lays _ := by
    refine .skip fun next => ?_
    split
    · exact .skip fun _ => .pure_of_subset (List.nil_subset _)
    · exact .part fun c => .pure_of_subset (by simp)
    · exact .skip fun _ => .skip fun _ => .pure_of_subset (List.nil_subset _)

mutual

/-- Connections are laid one behind the other, loops around them or not. -/
theorem linkFrom_lays (s : Cursor) (hs : s.Holds lo False []) :
    s.Onward (linkFrom s).2 ∧ (linkFrom s).2.Encloses lo (branches (linkFrom s).1) := by
  rw [linkFrom]
  split
  · dsimp only
    have hhead : s.Onward (loopHead.run s).2 := Steady.onward s hs.orderly
    split
    · have hopen := hhead.trans (.next hhead.orderly)
      obtain ⟨hbody, hparts⟩ := linksFrom_lays (loopHead.run s).2.next (hs.onward hopen)
      have hend : (linksFrom (loopHead.run s).2.next).2.Onward
          (loopEnd.run (linksFrom (loopHead.run s).2.next).2).2 := Steady.onward _ hbody.orderly
      exact ⟨hopen.trans (hbody.trans hend), hparts.onward hend⟩
    · have hmissing : (loopHead.run s).2.Onward (loopUnopened.run (loopHead.run s).2).2 :=
        Steady.onward _ hhead.orderly
      exact ⟨hhead.trans hmissing, .nil _ _⟩
  · exact Reads.lays (p := plainLink) lo s hs
termination_by (s.rest.length, 0)
decreasing_by
  rename_i h
  exact Prod.Lex.left _ _ (Nat.lt_of_lt_of_le
    (Cursor.length_next_lt (Cursor.rest_ne_nil_of_kind? h)) (loopHead.reaches s).length_le)

theorem linksFrom_lays (s : Cursor) (hs : s.Holds lo False []) :
    s.Onward (linksFrom s).2 ∧ (linksFrom s).2.Encloses lo (branches (linksFrom s).1) := by
  rw [linksFrom]
  split
  · exact ⟨.refl hs.orderly, .nil _ _⟩
  · dsimp only
    split
    · obtain ⟨hfirst, hparts⟩ := linkFrom_lays s hs
      obtain ⟨hmore, hparts'⟩ := linksFrom_lays (linkFrom s).2 (hs.onward hfirst)
      rw [branches_append]
      exact ⟨hfirst.trans hmore, (hparts.onward hmore).append hparts'⟩
    · exact linkFrom_lays s hs
termination_by (s.rest.length, 1)

end

instance : Reads link where
  lays _ s hs := linkFrom_lays s hs

/-! ### Declarations and files -/

/-- What is known behind the head of a declaration: a token was taken, and its parts lie where they were
read. -/
def Headed (lo : Nat) (head : Option TypeDecl) (s : Cursor) : Prop :=
  ∀ t ∈ head, lo ≤ s.lastStop ∧ s.Encloses lo t.parts

/-- The head of a type is laid before its body. -/
theorem typeHead_lays : Lays lo False [] (Headed lo) typeHead := by
  have hnone : Lays lo False [] (Headed lo) giveUp :=
    .skip fun _ => .pure fun _ _ _ h => absurd h (by simp)
  refine .skip fun word => .skip fun _ => .skip fun node => .eager hnone fun name =>
    .skip fun extended => .ite_part fun bases => .skip fun like => .ite_part fun interfaces =>
      .part fun properties => .pure fun s hs t ht => ?_
  obtain rfl := Option.some.inj ht
  refine ⟨hs.begun trivial, fun b hb => hs.parts b ?_⟩
  simp only [TypeDecl.mem_parts, branches_nil, List.append_nil, List.mem_append,
    List.not_mem_nil] at hb ⊢
  tauto

/-- A member of a type is laid behind the parts before it. -/
theorem plainMember_lays (sec : BodySection) (t : TypeDecl) :
    Lays lo begun t.parts (Behind lo TypeDecl.parts) (plainMember sec t) := by
  have hproperty : Lays lo begun t.parts (Behind lo TypeDecl.parts) (do
      return { t with properties := t.properties ++ (← propertyStatement).toList }) := by
    refine .part fun property => .pure_of_subset fun b hb => ?_
    simp only [TypeDecl.mem_parts, branches_append, branches_toList, List.mem_append] at hb ⊢
    tauto
  cases sec with
  | parameters =>
    refine .skip fun stray => ?_
    split
    · exact hproperty
    · refine .part fun param => .pure_of_subset fun b hb => ?_
      simp only [TypeDecl.mem_parts, branches_append, branches_toList, List.mem_append] at hb ⊢
      tauto
  | gates =>
    refine .part fun gate => .pure_of_subset fun b hb => ?_
    simp only [TypeDecl.mem_parts, branches_append, branches_toList, List.mem_append] at hb ⊢
    tauto
  | types =>
    refine .skip fun stray => ?_
    split
    · exact hproperty
    · exact .skip fun _ => .skip fun _ => .pure_of_subset (List.Subset.refl _)
  | submodules =>
    refine .part fun submodule => .pure_of_subset fun b hb => ?_
    simp only [TypeDecl.mem_parts, branches_append, branches_toList, List.mem_append] at hb ⊢
    tauto
  | connections =>
    refine .part fun connections => .pure_of_subset fun b hb => ?_
    simp only [TypeDecl.mem_parts, branches_append, List.mem_append] at hb ⊢
    tauto

theorem typeSection_lays (opened : BodySection) (t : TypeDecl) :
    Lays lo begun t.parts (Behind lo TypeDecl.parts) (typeSection opened t) := by
  refine .skip fun _ => .skip fun allow => .pure_of_subset fun b hb => ?_
  simpa only [TypeDecl.mem_parts] using hb

/-- A declaration with a span that reaches from its beginning to the last token taken. -/
theorem encloses_spanned {s : Cursor} {t : TypeDecl} (hle : lo ≤ s.lastStop)
    (ht : s.Encloses lo t.parts) : s.Encloses lo (branches (some { t with span := s.spanFrom lo })) := by
  rw [branches_some, TypeDecl.branches_eq]
  refine Encloses.around (fun c hc => ht c ?_) hle _
  simpa only [TypeDecl.mem_parts] using hc

mutual

/-- A type has all its parts inside, in order. -/
theorem typeDeclFrom_lays {lo : Nat} (s : Cursor) (hs : s.Holds lo False []) :
    s.Onward (typeDeclFrom s).2 ∧ (typeDeclFrom s).2.Encloses lo (branches (typeDeclFrom s).1) := by
  obtain ⟨hon, hhead⟩ := typeHead_lays s (.init hs.orderly)
  rw [typeDeclFrom]
  dsimp only
  split
  · exact ⟨hon, .nil _ _⟩
  · rename_i head heq
    obtain ⟨hle, hparts⟩ := hhead head heq
    split
    · have hopen := hon.trans (.next hon.orderly)
      have hs' : (typeHead.run s).2.next.Holds s.start True head.parts :=
        ⟨hopen.orderly, hopen.start, fun _ => Nat.le_trans hle (Onward.next hon.orderly).lastStop,
          hparts.onward (.next hon.orderly)⟩
      obtain ⟨hbody, hparts⟩ := typeBodyFrom_lays .parameters head _ hs'
      have hend : (typeBodyFrom .parameters head (typeHead.run s).2.next).2.Onward
          (bodyEnd.run (typeBodyFrom .parameters head (typeHead.run s).2.next).2).2 :=
        Steady.onward _ hbody.orderly
      have hle' := (hs'.onward (hbody.trans hend)).begun trivial
      exact ⟨hopen.trans (hbody.trans hend), (encloses_spanned hle' (hparts.onward hend)).mono hs.start⟩
    · have hend : (typeHead.run s).2.Onward (bodiless.run (typeHead.run s).2).2 :=
        Steady.onward _ hon.orderly
      exact ⟨hon.trans hend, (encloses_spanned (Nat.le_trans hle hend.lastStop)
        (hparts.onward hend)).mono hs.start⟩
termination_by (s.rest.length, 0)
decreasing_by
  rename_i h
  exact Prod.Lex.left _ _ (Nat.lt_of_lt_of_le
    (Cursor.length_next_lt (Cursor.rest_ne_nil_of_kind? h)) (typeHead.reaches s).length_le)

/-- The members of a body are laid one behind the other. -/
theorem typeBodyFrom_lays {lo : Nat} {begun : Prop} (sec : BodySection) (t : TypeDecl) (s : Cursor)
    (hs : s.Holds lo begun t.parts) : s.Onward (typeBodyFrom sec t s).2 ∧
      (typeBodyFrom sec t s).2.Encloses lo (typeBodyFrom sec t s).1.parts := by
  rw [typeBodyFrom]
  split
  · exact ⟨.refl hs.orderly, hs.parts⟩
  · rename_i token rest hrest
    have hne : s.rest ≠ [] := by simp [hrest]
    split
    · exact ⟨.refl hs.orderly, hs.parts⟩
    · split
      · rename_i opened _
        obtain ⟨hon, hparts⟩ := typeSection_lays opened t s hs
        have hs' := hs.onward hon
        obtain ⟨hmore, hq⟩ := typeBodyFrom_lays opened _ _ (hs'.having hparts)
        exact ⟨hon.trans hmore, hq⟩
      · split
        · obtain ⟨hon, hdecl⟩ := typeDeclFrom_lays s hs.bare
          have hs' := hs.onward hon
          have hparts : (typeDeclFrom s).2.Encloses lo
              { t with types := t.types ++ (typeDeclFrom s).1.toList }.parts := by
            intro b hb
            have hmem : b ∈ branches (typeDeclFrom s).1 ++ t.parts := by
              simp only [TypeDecl.mem_parts, branches_append, branches_toList, List.mem_append] at hb ⊢
              tauto
            exact (hdecl.append hs'.parts) b hmem
          dsimp only
          split
          · obtain ⟨hmore, hq⟩ := typeBodyFrom_lays sec _ _ (hs'.having hparts)
            exact ⟨hon.trans hmore, hq⟩
          · exact ⟨hon, hparts⟩
        · obtain ⟨hon, hparts⟩ := plainMember_lays sec t s hs
          dsimp only
          split
          · have hs' := hs.onward hon
            obtain ⟨hmore, hq⟩ := typeBodyFrom_lays sec _ _ (hs'.having hparts)
            exact ⟨hon.trans hmore, hq⟩
          · have hpass : ((plainMember sec t).run s).2.Onward
                ((passOver "a member declaration").run ((plainMember sec t).run s).2).2 :=
              Steady.onward _ hon.orderly
            have hs' := hs.onward (hon.trans hpass)
            obtain ⟨hmore, hq⟩ := typeBodyFrom_lays sec _ _
              (hs'.having (Encloses.onward hparts hpass))
            exact ⟨(hon.trans hpass).trans hmore, hq⟩
termination_by (s.rest.length, 1)
decreasing_by
  · exact Prod.Lex.left _ _ (length_run_skipOne_bind_lt _ hne)
  · exact Prod.Lex.left _ _ (length_run_passOver_lt _ hne ((plainMember sec t).reaches s))
  · exact Prod.Lex.left _ _ (by assumption)
  · exact Prod.Lex.right _ Nat.zero_lt_one
  · exact Prod.Lex.left _ _ (by assumption)

end

instance : Reads typeDecl where
  lays _ s hs := typeDeclFrom_lays s hs

instance : Reads packageDecl where
  lays _ := .start fun _ => .skip fun _ => .skip fun _ => .eager giveUp_lays fun _ => .skip fun _ =>
    .made (fun _ => rfl) (List.nil_subset _)

instance : Reads importDecl where
  lays _ := by
    refine .start fun lo => .skip fun _ => .skip fun node => .taking (fun tokens => tokens ≠ [])
      (fun s h => ?_) (fun tokens h => ?_) fun tokens h => ?_
    · have htaken := List.length_pos_iff.mpr h
      change 0 < (s.rest.take (Stretch.importSpec s.rest)).length at htaken
      change (s.skip (Stretch.importSpec s.rest)).rest.length < _
      rw [List.length_take] at htaken
      rw [rest_skip, List.length_drop]
      omega
    · cases tokens with
      | nil => exact absurd rfl h
      | cons t ts => exact .skip fun _ => .made (fun _ => rfl) (List.nil_subset _)
    · rw [not_not.mp h]
      exact .skip fun _ => giveUp_lays

/-- An item of a file is laid behind those before it. -/
theorem fileItem_lays (k : Kind) (tree : Tree) :
    Lays 0 False tree.branches (Behind 0 Tree.branches) (fileItem k tree) := by
  have hsame : tree.branches ⊆ tree.branches := List.Subset.refl _
  unfold fileItem
  split
  · cases hpackage : tree.package with
    | some package => exact .skip fun _ => .skip fun _ => .pure_of_subset hsame
    | none =>
      refine .part fun package => .pure_of_subset fun b hb => ?_
      simp only [Tree.mem_branches, List.mem_append] at hb ⊢
      tauto
  · split
    · refine .part fun found => .pure_of_subset fun b hb => ?_
      simp only [Tree.mem_branches, branches_append, branches_toList, List.mem_append] at hb ⊢
      tauto
    · split
      · refine .part fun found => .pure_of_subset fun b hb => ?_
        simp only [Tree.mem_branches, branches_append, branches_toList, List.mem_append] at hb ⊢
        tauto
      · split
        · exact .skip fun _ => .pure_of_subset hsame
        · split
          · refine .part fun found => .pure_of_subset fun b hb => ?_
            simp only [Tree.mem_branches, branches_append, branches_toList, List.mem_append] at hb ⊢
            tauto
          · exact .skip fun _ => .skip fun _ => .pure_of_subset hsame

/-- The items of a file are laid one behind the other. -/
theorem fileFrom_lays (tree : Tree) (s : Cursor) (hs : s.Holds 0 False tree.branches) :
    s.Onward (fileFrom tree s).2 ∧ (fileFrom tree s).2.Encloses 0 (fileFrom tree s).1.branches := by
  fun_induction fileFrom tree s with
  | case1 => exact ⟨.refl hs.orderly, hs.parts⟩
  | case2 tree s token _ _ r _ ih =>
    obtain ⟨hon, hitem⟩ := fileItem_lays token.kind tree s hs
    obtain ⟨hmore, hq⟩ := ih ⟨hon.orderly, Nat.zero_le _, False.elim, hitem⟩
    exact ⟨hon.trans hmore, hq⟩
  | case3 tree s token _ _ r _ => exact fileItem_lays token.kind tree s hs

end Parser

/-- **All branches of a text that is read lie in it**, each with what is inside it between its ends.
Mistakes in the text make no difference. -/
theorem Parse.laid (text : String) : ∀ b ∈ (Parse.ofText text).tree.branches,
    b.Laid (LineIndex.ofText text) 0 text.utf8ByteSize := by
  have horderly : (Cursor.ofText text).Orderly := tokenize_inOrder text
  obtain ⟨hon, hparts⟩ := Parser.fileFrom_lays {} (Cursor.ofText text)
    ⟨horderly, Nat.zero_le _, False.elim, .nil _ _⟩
  have hsize := hon.orderly.le
  intro b hb
  have hb := hparts b hb
  rw [hon.frame] at hsize hb
  exact hb.mono (Nat.le_refl _) hsize

end NedWorkspace
