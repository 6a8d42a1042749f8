/-!
# Maps that remember the order of insertion

A map as a list of entries. A new key goes to the end, a key that is there keeps its place, and
removing a key leaves the order of the others alone. `get?` is the view that the lemmas speak of.
-/

namespace NedWorkspace

/-- A map whose entries stand in the order in which their keys were first put in. -/
structure OrderedMap (κ α : Type) where
  entries : List (κ × α) := []

namespace OrderedMap

variable {κ α : Type} [DecidableEq κ]

/-- The value of a key. -/
def get? (m : OrderedMap κ α) (k : κ) : Option α :=
  (m.entries.find? fun e => decide (e.1 = k)).map Prod.snd

/-- Whether a key has a value. -/
def contains (m : OrderedMap κ α) (k : κ) : Bool :=
  (m.get? k).isSome

/-- Entries with a key set to a value. -/
def insertEntry (k : κ) (a : α) : List (κ × α) → List (κ × α)
  | [] => [(k, a)]
  | e :: es => if e.1 = k then (e.1, a) :: es else e :: insertEntry k a es

/-- Sets a key to a value. -/
def insert (m : OrderedMap κ α) (k : κ) (a : α) : OrderedMap κ α :=
  ⟨insertEntry k a m.entries⟩

/-- Removes a key. -/
def erase (m : OrderedMap κ α) (k : κ) : OrderedMap κ α :=
  ⟨m.entries.filter fun e => decide (e.1 ≠ k)⟩

/-- The keys in order. -/
def keys (m : OrderedMap κ α) : List κ :=
  m.entries.map Prod.fst

/-- The values in the order of their keys. -/
def values (m : OrderedMap κ α) : List α :=
  m.entries.map Prod.snd

/-- The number of keys. -/
def size (m : OrderedMap κ α) : Nat :=
  m.entries.length

/-- Keeps the entries whose key and value satisfy `p`. -/
def filter (p : κ → α → Bool) (m : OrderedMap κ α) : OrderedMap κ α :=
  ⟨m.entries.filter fun e => p e.1 e.2⟩

@[simp] theorem get?_empty (k : κ) : (({} : OrderedMap κ α)).get? k = none := rfl

@[simp] theorem get?_insert_self (m : OrderedMap κ α) (k : κ) (a : α) :
    (m.insert k a).get? k = some a := by
  have h : ∀ es : List (κ × α),
      (insertEntry k a es).find? (fun e => decide (e.1 = k)) = some (k, a) := by
    intro es
    induction es with
    | nil => simp [insertEntry]
    | cons e es ih =>
      by_cases he : e.1 = k <;> simp [insertEntry, he, ih]
  simp [get?, insert, h]

theorem get?_insert_of_ne (m : OrderedMap κ α) {k l : κ} (a : α) (hne : l ≠ k) :
    (m.insert k a).get? l = m.get? l := by
  have h : ∀ es : List (κ × α),
      (insertEntry k a es).find? (fun e => decide (e.1 = l))
        = es.find? (fun e => decide (e.1 = l)) := by
    intro es
    induction es with
    | nil => simp [insertEntry, Ne.symm hne]
    | cons e es ih =>
      by_cases he : e.1 = k
      · have hl : ¬ e.1 = l := fun hl => hne (hl.symm.trans he)
        simp [insertEntry, he, List.find?, Ne.symm hne]
      · by_cases hl : e.1 = l
        · simp [insertEntry, List.find?, hl, hne]
        · simp [insertEntry, he, List.find?, hl, ih]
  simp [get?, insert, h]

@[simp] theorem get?_erase_self (m : OrderedMap κ α) (k : κ) : (m.erase k).get? k = none := by
  simp only [get?, erase, Option.map_eq_none_iff, List.find?_eq_none, List.mem_filter,
    decide_eq_true_eq]
  exact fun e he => he.2

theorem get?_erase_of_ne (m : OrderedMap κ α) {k l : κ} (hne : l ≠ k) :
    (m.erase k).get? l = m.get? l := by
  have h : ∀ es : List (κ × α),
      (es.filter fun e => decide (e.1 ≠ k)).find? (fun e => decide (e.1 = l))
        = es.find? (fun e => decide (e.1 = l)) := by
    intro es
    induction es with
    | nil => rfl
    | cons e es ih =>
      by_cases he : e.1 = k
      · have hl : ¬ e.1 = l := fun hl => hne (hl.symm.trans he)
        simpa [List.filter, he, List.find?, Ne.symm hne] using ih
      · by_cases hl : e.1 = l
        · simp [List.filter, List.find?, hl, hne]
        · simpa [List.filter, he, List.find?, hl] using ih
  simp only [get?, erase, h]

end OrderedMap

end NedWorkspace
