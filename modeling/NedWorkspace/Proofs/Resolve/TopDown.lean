/-
# Chains that list types before their supertypes

`Model.TopDown` says of a chain that each type stands before all of its supertypes on it. Where bases do not
run in a circle, a chain of first bases is so by itself. The chain of an interface is found by a search that
goes on with the type found last, so a type may be found, through one of its heirs, before another of its
heirs: then the chain is not so. It is so if, below the interface, types that share a base are bases of the
same types (`Model.Level`): then who extends a type that was found has been found too, and nothing that is
found later extends it (`Model.Levelled`).

The main result is `Model.topDown_lineage`.
-/

import Mathlib.Data.List.Chain
import NedWorkspace.Proofs.Resolve.Inherited

namespace NedWorkspace

open Relation

namespace Model

variable {m : Model} {d : Definition}

/-- No circle of bases is reached from the type. -/
def Acyclic (m : Model) (d : Definition) : Prop :=
  ∀ e, ReflTransGen m.Extends d e → ¬ TransGen m.Extends e e

/-- Below the type, types that share a base are bases of the same types. -/
def Level (m : Model) (d : Definition) : Prop :=
  ∀ w x y z, ReflTransGen m.Extends d w → ReflTransGen m.Extends d z →
    m.Extends w x → m.Extends x y → m.Extends z y → m.Extends w z

/-- The chain of a type goes on with the bases of each type on it, or with the first base if the type is no
interface, and each type on it stands before all of its supertypes there. -/
structure TopDown (m : Model) (d : Definition) (chain : List Definition) : Prop where
  closed : ∀ e ∈ chain, ∀ s, m.Extends e s → d.kind.isInterface = true ∨ m.base? e = some s → s ∈ chain
  ordered : ∀ front t rest, chain = front ++ t :: rest →
    ∀ s ∈ chain, TransGen m.Extends t s → s ∈ rest

/-- The first base type is one that the type extends. -/
theorem extends_of_base? {e base : Definition} (h : m.base? e = some base) : m.Extends e base := by
  obtain ⟨name, hname, hbase⟩ := Option.bind_eq_some_iff.mp h
  exact ⟨name, List.mem_of_mem_head? hname, hbase⟩

/-- Whatever is reached by inheritance is a type of the model. -/
theorem holds_of_reached (hd : m.Holds d) {e : Definition} (h : ReflTransGen m.Extends d e) :
    m.Holds e := by
  cases h with
  | refl => exact hd
  | tail _ hstep =>
    obtain ⟨name, _, hname⟩ := hstep
    exact holds_of_denoted hname

/-- A chain is top-down if nothing on it is reached from what stands behind it. -/
theorem ordered_of_pairwise {chain : List Definition}
    (hpairwise : chain.Pairwise fun x y => ¬ TransGen m.Extends y x)
    (hacyclic : ∀ e ∈ chain, ¬ TransGen m.Extends e e) {front rest : List Definition} {t s : Definition}
    (hchain : chain = front ++ t :: rest) (hs : s ∈ chain) (hreach : TransGen m.Extends t s) :
    s ∈ rest := by
  rw [hchain] at hpairwise hs
  rcases List.mem_append.mp hs with hs | hs
  · exact absurd hreach ((List.pairwise_append.mp hpairwise).2.2 s hs t List.mem_cons_self)
  · rcases List.mem_cons.mp hs with rfl | hs
    · exact absurd hreach (hacyclic s (hchain ▸ by simp))
    · exact hs

/-! ### Chains of first bases -/

namespace FirstBases

variable {chain : List Definition} {cycle : Bool}

/-- In a chain of first base types each extends all those behind it. -/
theorem pairwise (h : m.FirstBases d chain cycle) : chain.Pairwise (TransGen m.Extends) :=
  (h.steps.imp fun _ _ hbase => TransGen.single (extends_of_base? hbase)).pairwise

/-- Each type of the chain is reached from the one it belongs to. -/
theorem reached (h : m.FirstBases d chain cycle) {e : Definition} (he : e ∈ chain) :
    ReflTransGen m.Extends d e := by
  obtain ⟨rest, rfl⟩ := List.head?_eq_some_iff.mp h.head
  rcases List.mem_cons.mp he with rfl | he
  · exact .refl
  · exact ((List.pairwise_cons.mp h.pairwise).1 e he).to_reflTransGen

/-- The first base of a type on the chain is on the chain. -/
theorem closed (h : m.FirstBases d chain cycle) (hm : m.Keyed) (hd : m.Holds d) {e s : Definition}
    (he : e ∈ chain) (hs : m.base? e = some s) : s ∈ chain := by
  obtain ⟨front, rest, hchain⟩ := List.append_of_mem he
  cases rest with
  | nil =>
    have hstop := h.stop e (by rw [hchain, List.getLast?_concat])
    rw [hs] at hstop
    obtain ⟨x, hx, hkey⟩ := List.mem_map.mp hstop.1
    have hreached := (h.reached he).tail (extends_of_base? hs)
    exact hm (holds_of_reached hd (h.reached hx)) (holds_of_reached hd hreached) hkey ▸ hx
  | cons b rest =>
    have hsteps := h.steps
    rw [hchain, List.isChain_append_cons_cons] at hsteps
    have hnext : m.base? e = some b := hsteps.2.1
    rw [hchain, ← Option.some.inj (hnext.symm.trans hs)]
    simp

/-- **A chain of first bases is top-down.** -/
theorem topDown (h : m.FirstBases d chain cycle) (hm : m.Keyed) (hd : m.Holds d)
    (hacyclic : m.Acyclic d) (hkind : d.kind.isInterface = false) : m.TopDown d chain where
  closed e he s _ hbase := h.closed hm hd he (hbase.resolve_left (by simp [hkind]))
  ordered front t rest hchain s hs hreach := by
    have hnone : ∀ e ∈ chain, ¬ TransGen m.Extends e e := fun e he => hacyclic e (h.reached he)
    refine ordered_of_pairwise ?_ hnone hchain hs hreach
    exact h.pairwise.imp_of_mem fun hx _ hxy hyx => hnone _ hx (hxy.trans hyx)

end FirstBases

/-! ### Chains of interfaces -/

/-- What holds while the chain of a level interface is searched: who extends a type that was found has been
found, and the bases of the type through which the current one was found have all been found. -/
structure Levelled (m : Model) (d : Definition) (pending : List Definition) (current : Definition)
    (names : List String) (chain : List Definition) (cycle : Bool) : Prop where
  search : m.Search d pending current names chain cycle
  upward : ∀ y ∈ chain, ∀ z, ReflTransGen m.Extends d z → m.Extends z y → z ∈ chain
  expanded : current = d ∨ ∃ w ∈ chain, m.Extends w current ∧ ∀ b, m.Extends w b → b ∈ chain
  waiting : ∀ p ∈ pending, ∃ w ∈ chain, m.Extends w p ∧ (w = current ∨ ∀ b, m.Extends w b → b ∈ chain)
  rest : ∀ b, m.Extends current b → b ∈ chain ∨ ∃ name ∈ names, m.denoted name current.context = some b
  sorted : chain.Pairwise fun x y => ¬ TransGen m.Extends y x

namespace Levelled

variable {pending : List Definition} {current base p : Definition} {ps : List Definition} {name : String}
  {names : List String} {chain : List Definition} {cycle : Bool}

/-- The search begins on the level of the type itself. -/
theorem init (hd : m.Holds d) (hacyclic : m.Acyclic d) :
    m.Levelled d [] d d.baseNames [d] false where
  search := .init hd
  upward y hy z hz hzy := by
    obtain rfl := List.mem_singleton.mp hy
    exact absurd (.tail' hz hzy) (hacyclic y .refl)
  expanded := .inl rfl
  waiting := by simp
  rest b hb := .inr hb
  sorted := List.pairwise_singleton _ _

/-- The names of a type that was found come after those of all found before. -/
theorem next (h : m.Levelled d (p :: ps) current [] chain cycle) :
    m.Levelled d ps p p.baseNames chain cycle := by
  have hcurrent : ∀ b, m.Extends current b → b ∈ chain := fun b hb =>
    (h.rest b hb).resolve_right (by simp)
  have hexpanded : ∀ q ∈ p :: ps, ∃ w ∈ chain, m.Extends w q ∧ ∀ b, m.Extends w b → b ∈ chain := by
    intro q hq
    obtain ⟨w, hw, hwq, rfl | hall⟩ := h.waiting q hq
    · exact ⟨w, hw, hwq, hcurrent⟩
    · exact ⟨w, hw, hwq, hall⟩
  refine ⟨h.search.next, h.upward, .inr (hexpanded p List.mem_cons_self), fun q hq => ?_,
    fun b hb => .inr hb, h.sorted⟩
  obtain ⟨w, hw, hwq, hall⟩ := hexpanded q (List.mem_cons_of_mem p hq)
  exact ⟨w, hw, hwq, .inr hall⟩

/-- A name denotes nothing, or a type that was found before. -/
theorem passed (h : m.Levelled d pending current (name :: names) chain cycle) {cycle' : Bool}
    (hsearch : m.Search d pending current names chain cycle')
    (hname : ∀ b, m.denoted name current.context = some b → b ∈ chain) :
    m.Levelled d pending current names chain cycle' := by
  refine ⟨hsearch, h.upward, h.expanded, h.waiting, fun b hb => ?_, h.sorted⟩
  obtain hb | ⟨n, hn, hb⟩ := h.rest b hb
  · exact .inl hb
  · rcases List.mem_cons.mp hn with rfl | hn
    · exact .inl (hname b hb)
    · exact .inr ⟨n, hn, hb⟩

/-- Who extends a base of the current type has been found. -/
theorem upward_base (h : m.Levelled d pending current names chain cycle) (hacyclic : m.Acyclic d)
    (hlevel : m.Level d) (hbase : m.Extends current base) {z : Definition}
    (hz : ReflTransGen m.Extends d z) (hzb : m.Extends z base) : z ∈ chain := by
  rcases h.expanded with rfl | ⟨w, hw, hwc, hall⟩
  · rcases ReflTransGen.cases_tail hz with rfl | ⟨w, hw, hwz⟩
    · exact h.search.current_mem
    · -- Then `w` would extend the interface itself.
      have hback := hlevel w z base current hw .refl hwz hzb hbase
      exact absurd (.tail' hw hback) (hacyclic current .refl)
  · exact hall z (hlevel w current base z (h.search.reached w hw) hz hwc hbase hzb)

/-- Who reaches a type that was found has been found. -/
theorem upward_of_transGen (h : m.Levelled d pending current names chain cycle) {z y : Definition}
    (hz : ReflTransGen m.Extends d z) (hy : y ∈ chain) (hreach : TransGen m.Extends z y) : z ∈ chain := by
  induction hreach with
  | single hstep => exact h.upward _ hy z hz hstep
  | @tail b c hzb hbc ih => exact ih (h.upward c hy b (hz.trans hzb.to_reflTransGen) hbc)

/-- A type that is found new is on the level that is being searched, or right below it. -/
theorem found (h : m.Levelled d pending current (name :: names) chain cycle) (hacyclic : m.Acyclic d)
    (hlevel : m.Level d) (hbase : m.denoted name current.context = some base) (hnew : base ∉ chain)
    {cycle' : Bool} (hsearch : m.Search d (base :: pending) current names (chain ++ [base]) cycle') :
    m.Levelled d (base :: pending) current names (chain ++ [base]) cycle' where
  search := hsearch
  upward y hy z hz hzy := by
    refine List.mem_append_left _ ?_
    rcases List.mem_append.mp hy with hy | hy
    · exact h.upward y hy z hz hzy
    · obtain rfl := List.mem_singleton.mp hy
      exact h.upward_base hacyclic hlevel ⟨name, h.search.names_mem name List.mem_cons_self, hbase⟩ hz hzy
  expanded := by
    refine h.expanded.imp_right fun ⟨w, hw, hwc, hall⟩ => ?_
    exact ⟨w, List.mem_append_left _ hw, hwc, fun b hb => List.mem_append_left _ (hall b hb)⟩
  waiting p hp := by
    rcases List.mem_cons.mp hp with rfl | hp
    · exact ⟨current, List.mem_append_left _ h.search.current_mem,
        ⟨name, h.search.names_mem name List.mem_cons_self, hbase⟩, .inl rfl⟩
    · obtain ⟨w, hw, hwp, hall⟩ := h.waiting p hp
      exact ⟨w, List.mem_append_left _ hw, hwp,
        hall.imp_right fun hall b hb => List.mem_append_left _ (hall b hb)⟩
  rest b hb := by
    obtain hb | ⟨n, hn, hb⟩ := h.rest b hb
    · exact .inl (List.mem_append_left _ hb)
    · rcases List.mem_cons.mp hn with rfl | hn
      · obtain rfl := Option.some.inj (hbase.symm.trans hb)
        exact .inl (by simp)
      · exact .inr ⟨n, hn, hb⟩
  sorted := by
    refine List.pairwise_append.mpr ⟨h.sorted, List.pairwise_singleton _ _, fun x hx y hy hreach => ?_⟩
    obtain rfl := List.mem_singleton.mp hy
    exact hnew (h.upward_of_transGen (hsearch.reached y (by simp)) hx hreach)

/-- **Every step keeps it,** if the interface is level and nothing below it runs in a circle. -/
theorem lasting (hm : m.Keyed) (hacyclic : m.Acyclic d) (hlevel : m.Level d) :
    m.Lasting d (m.Levelled d) where
  next h := h.next
  unresolved hnone h := h.passed ((Search.lasting m d).unresolved hnone h.search) (by simp [hnone])
  known hbase hmem h := by
    refine h.passed ((Search.lasting m d).known hbase hmem h.search) fun b hb => ?_
    obtain rfl := Option.some.inj (hbase.symm.trans hb)
    obtain ⟨x, hx, hkey⟩ := List.mem_map.mp hmem
    exact hm (h.search.holds x hx) (holds_of_denoted hb) hkey ▸ hx
  found hbase hnew h := by
    refine h.found hacyclic hlevel hbase (fun hmem => hnew ?_)
      ((Search.lasting m d).found hbase hnew h.search)
    exact List.mem_map_of_mem (f := fun e : Definition => e.key) hmem

end Levelled

/-- **The chain of a level interface is top-down.** -/
theorem topDown_of_level (hm : m.Keyed) (hd : m.Holds d) (hacyclic : m.Acyclic d) (hlevel : m.Level d)
    (hkind : d.kind.isInterface = true) : m.TopDown d (m.lineage d).1 := by
  obtain ⟨_, hlast⟩ := (Levelled.lasting hm hacyclic hlevel).lineage hkind (.init hd hacyclic)
  have hall := lineage_branching hd hkind
  refine ⟨fun e he s hs _ => ?_, fun front t rest hchain s hs hreach => ?_⟩
  · exact (hall.mem_iff hm hd s).mpr ((hall.reached e he).tail hs)
  · exact ordered_of_pairwise hlast.sorted (fun e he => hacyclic e (hall.reached e he)) hchain hs hreach

/-- **Where bases do not run in a circle a chain is top-down,** that of an interface if it is level. -/
theorem topDown_lineage (hm : m.Keyed) (hd : m.Holds d) (hacyclic : m.Acyclic d)
    (hlevel : d.kind.isInterface = true → m.Level d) : m.TopDown d (m.lineage d).1 := by
  cases hkind : d.kind.isInterface with
  | true => exact topDown_of_level hm hd hacyclic (hlevel hkind) hkind
  | false => exact (lineage_single hd hkind).topDown hm hd hacyclic hkind

end Model
end NedWorkspace
