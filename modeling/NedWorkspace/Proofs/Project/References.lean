/-
# Projects that are referred to through others

SPEC_FULL, section 4.2: reference cycles are allowed.

References may run in circles, name projects that are not configured, and be repeated; so may the names
of the projects. What a project refers to, directly or through others, is found by following each
reference once, and `Project.Reaching` is what holds meanwhile. In the end there is nothing left to
follow, and the projects found are those that `Relation.TransGen` tells of (`Project.mem_reachable_iff`).

What a project sees is therefore a matter of its name alone, and one project sees another exactly if
references lead from the one to the other in any number of steps (`Registry.sees_iff`).
-/

import Mathlib.Logic.Relation
import NedWorkspace.Proofs.Project.Registry

namespace NedWorkspace

open Relation

namespace Project

variable (configs : List ProjectConfig)

/-- One project refers to another, which is configured. -/
def Refers (a b : String) : Prop :=
  b ∈ referencesOf configs a ∧ b ∈ configs.map ProjectConfig.name

/-- What holds while the references from a project are followed: what was reached is reached by
references, and what those lead to is reached as well or still to be looked at. -/
structure Reaching (start : String) (unmet pending references reached : List String) : Prop where
  nodup : reached.Nodup
  mem_unmet : ∀ n, n ∈ unmet ↔ n ∈ configs.map ProjectConfig.name ∧ n ≠ start ∧ n ∉ reached
  mem_reached : ∀ p ∈ pending, p ∈ reached
  sound : ∀ n ∈ reached, n ≠ start ∧ TransGen (Refers configs) start n
  led : ∀ r ∈ references, r ∈ configs.map ProjectConfig.name → TransGen (Refers configs) start r
  followed : ∀ m, m = start ∨ m ∈ reached → m ∈ pending ∨
    ∀ n, Refers configs m n → n = start ∨ n ∈ reached ∨ n ∈ references

variable {configs} {start : String} {unmet pending references reached : List String}

theorem mem_others {names : List String} {name n : String} : n ∈ others names name ↔ n ∈ names ∧ n ≠ name := by
  simp [others]

/-- At the beginning the references of the project itself are to be looked at. -/
theorem reaching_start (start : String) :
    Reaching configs start (others (configs.map ProjectConfig.name) start) []
      (referencesOf configs start) [] where
  nodup := List.nodup_nil
  mem_unmet n := by simp [mem_others]
  mem_reached p hp := absurd hp List.not_mem_nil
  sound n hn := absurd hn List.not_mem_nil
  led r hr hconfigured := .single ⟨hr, hconfigured⟩
  followed m hm := by
    obtain rfl := hm.resolve_right List.not_mem_nil
    exact .inr fun n hn => .inr (.inr hn.1)

/-! ### Steps -/

/-- The references of the project reached last come next. -/
theorem Reaching.next {p : String} (h : Reaching configs start unmet (p :: pending) [] reached) :
    Reaching configs start unmet pending (referencesOf configs p) reached where
  nodup := h.nodup
  mem_unmet := h.mem_unmet
  mem_reached q hq := h.mem_reached q (List.mem_cons_of_mem p hq)
  sound := h.sound
  led r hr hconfigured := by
    have hp := (h.sound p (h.mem_reached p List.mem_cons_self)).2
    exact hp.tail ⟨hr, hconfigured⟩
  followed m hm := by
    rcases h.followed m hm with hpending | hnone
    · rcases List.mem_cons.mp hpending with rfl | hpending
      · exact .inr fun n hn => .inr (.inr hn.1)
      · exact .inl hpending
    · refine .inr fun n hn => (hnone n hn).imp_right fun hmem => ?_
      exact .inl (hmem.resolve_right List.not_mem_nil)

/-- A reference to something that was not reached before. -/
theorem Reaching.met {r : String} (h : Reaching configs start unmet pending (r :: references) reached)
    (hr : r ∈ unmet) :
    Reaching configs start (others unmet r) (r :: pending) references (reached ++ [r]) := by
  obtain ⟨hconfigured, hstart, hnew⟩ := (h.mem_unmet r).mp hr
  have hmem : ∀ {n}, n ∈ reached ++ [r] ↔ n ∈ reached ∨ n = r := by simp
  constructor
  case nodup =>
    exact List.nodup_append.mpr ⟨h.nodup, List.pairwise_singleton _ r,
      fun a ha b hb heq => hnew (List.mem_singleton.mp hb ▸ heq ▸ ha)⟩
  case mem_unmet =>
    intro n
    rw [mem_others, h.mem_unmet, hmem, not_or]
    tauto
  case mem_reached =>
    intro p hp
    exact hmem.mpr ((List.mem_cons.mp hp).symm.imp_left (h.mem_reached p))
  case sound =>
    intro n hn
    rcases hmem.mp hn with hn | rfl
    · exact h.sound n hn
    · exact ⟨hstart, h.led n List.mem_cons_self hconfigured⟩
  case led => exact fun q hq => h.led q (List.mem_cons_of_mem r hq)
  case followed =>
    intro m hm
    rw [hmem, ← or_assoc] at hm
    rcases hm with hm | rfl
    · refine (h.followed m hm).imp (List.mem_cons_of_mem r) fun hall n hn => ?_
      rw [hmem]
      rcases hall n hn with heq | hn | hn
      · exact .inl heq
      · exact .inr (.inl (.inl hn))
      · rcases List.mem_cons.mp hn with rfl | hn
        · exact .inr (.inl (.inr rfl))
        · exact .inr (.inr hn)
    · exact .inl List.mem_cons_self

/-- A reference to something that was reached before, to the project itself, or to none. -/
theorem Reaching.skip {r : String} (h : Reaching configs start unmet pending (r :: references) reached)
    (hr : r ∉ unmet) : Reaching configs start unmet pending references reached where
  nodup := h.nodup
  mem_unmet := h.mem_unmet
  mem_reached := h.mem_reached
  sound := h.sound
  led q hq := h.led q (List.mem_cons_of_mem r hq)
  followed m hm := by
    refine (h.followed m hm).imp_right fun hall n hn => ?_
    rcases hall n hn with heq | hmem | hmem
    · exact .inl heq
    · exact .inr (.inl hmem)
    · rcases List.mem_cons.mp hmem with rfl | hmem
      · have hmet := mt (h.mem_unmet n).mpr hr
        by_cases hstart : n = start
        · exact .inl hstart
        · exact .inr (.inl (not_not.mp fun hnew => hmet ⟨hn.2, hstart, hnew⟩))
      · exact .inr (.inr hmem)

/-- When nothing is left to be looked at, all that references lead to was reached. -/
theorem Reaching.mem_of_transGen (h : Reaching configs start unmet [] [] reached) {n : String}
    (hn : TransGen (Refers configs) start n) : n = start ∨ n ∈ reached := by
  have hclosed : ∀ m, m = start ∨ m ∈ reached → ∀ n, Refers configs m n → n = start ∨ n ∈ reached := by
    intro m hm n hn
    have hall := (h.followed m hm).resolve_left List.not_mem_nil
    simpa using hall n hn
  induction hn with
  | single hn => exact hclosed start (.inl rfl) _ hn
  | tail _ hn ih => exact hclosed _ ih _ hn

/-! ### The whole run -/

/-- The search over references ends with every project that is reached, each of them once. -/
theorem Reaching.reach (h : Reaching configs start unmet pending references reached) :
    (reach configs unmet pending references reached).Nodup ∧
      ∀ n, n ∈ reach configs unmet pending references reached ↔
        n ≠ start ∧ TransGen (Refers configs) start n := by
  induction unmet, pending, references, reached using reach.induct configs with
  | case1 unmet reached =>
    rw [Project.reach]
    exact ⟨h.nodup, fun n => ⟨h.sound n, fun hn => (h.mem_of_transGen hn.2).resolve_left hn.1⟩⟩
  | case2 unmet reached p ps ih =>
    rw [Project.reach]
    exact ih h.next
  | case3 unmet pending reached r rs hr ih =>
    rw [Project.reach, dif_pos hr]
    exact ih (h.met hr)
  | case4 unmet pending reached r rs hr ih =>
    rw [Project.reach, dif_neg hr]
    exact ih (h.skip hr)

/-- No project is found twice. -/
theorem nodup_reachable (configs : List ProjectConfig) (name : String) :
    (reachable configs name).Nodup :=
  (reaching_start name).reach.1

/-- **What is found are the other projects to which references lead.** -/
theorem mem_reachable_iff {name other : String} :
    other ∈ reachable configs name ↔ other ≠ name ∧ TransGen (Refers configs) name other :=
  (reaching_start name).reach.2 other

/-- What references lead to is configured. -/
theorem configured_of_transGen {a b : String} (h : TransGen (Refers configs) a b) :
    b ∈ configs.map ProjectConfig.name := by
  cases h with
  | single h => exact h.2
  | tail _ h => exact h.2

/-- References lead only from what is configured. -/
theorem configured_of_refers {a b : String} (h : Refers configs a b) :
    a ∈ configs.map ProjectConfig.name := by
  obtain ⟨hmem, _⟩ := h
  unfold referencesOf at hmem
  split at hmem
  · rename_i c hfind
    have hname : c.name = a := by simpa using List.find?_some hfind
    exact hname ▸ List.mem_map_of_mem (List.mem_of_find?_eq_some hfind)
  · exact absurd hmem List.not_mem_nil

end Project

namespace Registry

open Project

variable {configs : List ProjectConfig} {r : Registry}

/-- A registry of a configuration has a project for each name, and what that one refers to depends on
the name alone. -/
theorem project?_ofConfigs (configs : List ProjectConfig) (name : String) :
    ((ofConfigs configs).project? name).map (·.referenced) =
      if name ∈ configs.map ProjectConfig.name then some (reachable configs name) else none := by
  have hrun : ∀ (cs : List ProjectConfig) (m : OrderedMap String Project),
      ((cs.foldl (fun m c => m.insert c.name (.ofConfig configs c)) m).get? name).map (·.referenced) =
        if name ∈ cs.map ProjectConfig.name then some (reachable configs name)
        else (m.get? name).map (·.referenced) := by
    intro cs
    induction cs with
    | nil => exact fun m => rfl
    | cons c cs ih =>
      intro m
      rw [List.foldl_cons, ih, OrderedMap.get?_insert, List.map_cons]
      by_cases hlater : name ∈ cs.map ProjectConfig.name
      · rw [if_pos hlater, if_pos (List.mem_cons_of_mem _ hlater)]
      · rw [if_neg hlater]
        by_cases hname : name = c.name
        · rw [if_pos hname, if_pos (hname ▸ List.mem_cons_self), hname]
          rfl
        · rw [if_neg hname, if_neg (by simp only [List.mem_cons, hname, hlater, or_self, not_false_eq_true])]
  exact hrun configs {}

/-- **A project sees those to which references lead from it in any number of steps.** -/
theorem sees_iff (hr : r.projects = (ofConfigs configs).projects) {project owner : String} :
    r.sees project owner = true ↔ ReflTransGen (Refers configs) project owner := by
  have hproject : (r.project? project).map (·.referenced) =
      if project ∈ configs.map ProjectConfig.name then some (reachable configs project) else none := by
    rw [project?, hr]
    exact project?_ofConfigs configs project
  have hany : ((r.project? project).any fun p => p.referenced.contains owner) = true ↔
      owner ≠ project ∧ TransGen (Refers configs) project owner := by
    rw [← mem_reachable_iff]
    cases hp : r.project? project with
    | none =>
      -- Nothing is referred to from what is not configured.
      refine iff_of_false (by simp) fun hmem => ?_
      obtain ⟨next, hnext, _⟩ := TransGen.head'_iff.mp (mem_reachable_iff.mp hmem).2
      rw [hp, if_pos (configured_of_refers hnext)] at hproject
      exact absurd hproject (by simp)
    | some p =>
      rw [hp, Option.map_some] at hproject
      split at hproject
      · rw [Option.any_some, Option.some.inj hproject, List.contains_iff_mem]
      · exact absurd hproject (by simp)
  rw [sees, Bool.or_eq_true, beq_iff_eq, hany, reflTransGen_iff_eq_or_transGen]
  constructor
  · exact fun h => h.imp Eq.symm And.right
  · intro h
    by_cases heq : project = owner
    · exact .inl heq
    · exact .inr ⟨fun h => heq h.symm, h.resolve_left fun h => heq h.symm⟩

end Registry

end NedWorkspace
