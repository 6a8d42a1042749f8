/-
# The orders of paths and files

Paths and file ids are the keys of sorted maps. Both orders are total. Two file ids that compare as
equal are the same; two paths are when their components are.
-/

import NedWorkspace.Definition.Basic
import NedWorkspace.Path

namespace NedWorkspace

open Std

namespace Path

namespace Component

/-- A component as a number for its sort and the name that it may have. -/
def code : Component → Nat × String
  | root => (0, "")
  | here => (1, "")
  | up => (2, "")
  | name n => (3, n)

/-- Components are compared by their sorts and then by their names. -/
theorem compare_eq : (compare : Component → Component → Ordering) =
    compareLex (compareOn fun c => c.code.1) (compareOn fun c => c.code.2) := by
  funext a b
  cases a <;> cases b <;> rfl

/-- Components are told apart by their codes. -/
theorem code_injective {a b : Component} (h : a.code = b.code) : a = b := by
  cases a <;> cases b <;> simp_all [code]

instance : TransOrd Component := by
  unfold TransOrd
  rw [compare_eq]
  infer_instance

instance : LawfulEqOrd Component where
  compare_self {a} := ReflOrd.compare_self
  eq_of_compare {a b} h := by
    rw [compare_eq, compareLex, Ordering.then_eq_eq] at h
    exact code_injective (Prod.ext (LawfulEqOrd.eq_of_compare h.1) (LawfulEqOrd.eq_of_compare h.2))

end Component

/-- Components are compared one by one, as lists are in the order of a dictionary. -/
theorem compareComponents_eq (as bs : List Component) :
    compareComponents as bs = List.compareLex compare as bs := by
  induction as generalizing bs with
  | nil => cases bs <;> rfl
  | cons a as ih =>
    cases bs with
    | nil => rfl
    | cons b bs => rw [compareComponents, ih, List.compareLex_cons_cons]

/-- The order of paths is that of their lists of components. -/
theorem compare_eq : (compare : Path → Path → Ordering) =
    fun p q => List.compareLex compare p.components q.components := by
  funext p q
  exact compareComponents_eq p.components q.components

instance : TransOrd Path where
  eq_swap := by
    intro p q
    rw [compare_eq]
    exact OrientedCmp.eq_swap
  isLE_trans := by
    intro p q r hpq hqr
    rw [compare_eq] at hpq hqr ⊢
    exact TransCmp.isLE_trans hpq hqr

end Path

namespace FileId

/-- A file as a number for its sort and the number that it may have. -/
def code : FileId → Nat × Nat
  | source n => (0, n)
  | builtin => (1, 0)

theorem compare_eq : (compare : FileId → FileId → Ordering) =
    compareLex (compareOn fun f => f.code.1) (compareOn fun f => f.code.2) := by
  funext a b
  cases a <;> cases b <;> rfl

theorem code_injective {a b : FileId} (h : a.code = b.code) : a = b := by
  cases a <;> cases b <;> simp_all [code]

instance : TransOrd FileId := by
  unfold TransOrd
  rw [compare_eq]
  infer_instance

instance : LawfulEqOrd FileId where
  compare_self {a} := ReflOrd.compare_self
  eq_of_compare {a b} h := by
    rw [compare_eq, compareLex, Ordering.then_eq_eq] at h
    exact code_injective (Prod.ext (LawfulEqOrd.eq_of_compare h.1) (LawfulEqOrd.eq_of_compare h.2))

end FileId

end NedWorkspace
