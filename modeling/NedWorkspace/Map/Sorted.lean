/-!
# Maps in the order of their keys

A map as a list of entries in ascending order of their keys. Keys that compare as equal are the same
key, even if they are written differently; the map keeps the one that was put in first.
-/

namespace NedWorkspace

/-- A map whose entries stand in the order of their keys. -/
structure SortedMap (κ α : Type) where
  entries : List (κ × α) := []

namespace SortedMap

variable {κ α : Type} [Ord κ]

/-- The value of a key. -/
def get? (m : SortedMap κ α) (k : κ) : Option α :=
  (m.entries.find? fun e => compare e.1 k == .eq).map Prod.snd

/-- Whether a key has a value. -/
def contains (m : SortedMap κ α) (k : κ) : Bool :=
  (m.get? k).isSome

/-- Entries with a key set to a value: in its place if the key is new, else in the place and under the
spelling that it has. -/
def insertEntry (k : κ) (a : α) : List (κ × α) → List (κ × α)
  | [] => [(k, a)]
  | e :: es =>
    match compare k e.1 with
    | .lt => (k, a) :: e :: es
    | .eq => (e.1, a) :: es
    | .gt => e :: insertEntry k a es

/-- Sets a key to a value. -/
def insert (m : SortedMap κ α) (k : κ) (a : α) : SortedMap κ α :=
  ⟨insertEntry k a m.entries⟩

/-- Removes a key. -/
def erase (m : SortedMap κ α) (k : κ) : SortedMap κ α :=
  ⟨m.entries.filter fun e => compare e.1 k != .eq⟩

/-- The keys in ascending order. -/
def keys (m : SortedMap κ α) : List κ :=
  m.entries.map Prod.fst

/-- The values in the order of their keys. -/
def values (m : SortedMap κ α) : List α :=
  m.entries.map Prod.snd

/-- The number of keys. -/
def size (m : SortedMap κ α) : Nat :=
  m.entries.length

/-- The map of a list of entries, a later one replacing an earlier one with the same key. -/
def ofList (entries : List (κ × α)) : SortedMap κ α :=
  entries.foldl (fun m e => m.insert e.1 e.2) {}

end SortedMap

/-- Keys in ascending order, each once. -/
def sortedSet {κ : Type} [Ord κ] (keys : List κ) : List κ :=
  (SortedMap.ofList (keys.map fun k => (k, ()))).keys

end NedWorkspace
