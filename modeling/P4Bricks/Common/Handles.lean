import Mathlib.Data.Finset.Card
/-!
# Handles, and the maps they key

A set of numbers in use, from which the next one handed out is the least that is
free; and a map with finitely many keys, as the keys and a function. Everything
about such a map is said through `at?`, the value of a key if it has one.
-/

namespace P4Bricks

/-! ## The least free number -/

/-- The least number not in the set. -/
def firstFree (s : Finset ℕ) : ℕ := ((List.range (s.card + 1)).find? fun i => i ∉ s).getD 0

/-- A set of `n` numbers misses one of the first `n + 1`. -/
theorem exists_free (s : Finset ℕ) : ∃ i, (List.range (s.card + 1)).find? (fun i => i ∉ s) = some i := by
  rw [← Option.isSome_iff_exists, List.find?_isSome]
  by_contra hall
  have hsub : Finset.range (s.card + 1) ⊆ s := by
    intro i hi
    by_contra hn
    exact hall ⟨i, by simpa using hi, by simpa using hn⟩
  have hcard := Finset.card_le_card hsub
  rw [Finset.card_range] at hcard
  omega

theorem firstFree_spec (s : Finset ℕ) :
    firstFree s ∉ s ∧ (∀ j < firstFree s, j ∈ s) ∧ firstFree s ≤ s.card := by
  obtain ⟨i, hi⟩ := exists_free s
  have heq : firstFree s = i := by rw [firstFree, hi, Option.getD_some]
  obtain ⟨hfree, hlt, hbelow⟩ := List.find?_range_eq_some.mp hi
  rw [heq]
  refine ⟨by simpa using hfree, fun j hj => by simpa using hbelow j hj, ?_⟩
  rw [List.mem_range] at hlt
  omega

/-- The handle given is not one in use, -/
theorem firstFree_notMem (s : Finset ℕ) : firstFree s ∉ s := (firstFree_spec s).1

/-- every smaller one is, -/
theorem mem_of_lt_firstFree {s : Finset ℕ} {j : ℕ} (h : j < firstFree s) : j ∈ s :=
  (firstFree_spec s).2.1 j h

/-- so that it is at most the number of those in use. -/
theorem firstFree_le_card (s : Finset ℕ) : firstFree s ≤ s.card := (firstFree_spec s).2.2

/-! ## Finite maps -/

/-- A map. What `get` says of other keys means nothing. -/
structure Dict (κ α : Type*) where
  keys : Finset κ
  get : κ → α

namespace Dict

variable {κ α : Type*} [DecidableEq κ]

def empty [Inhabited α] : Dict κ α := ⟨∅, fun _ => default⟩

def at? (d : Dict κ α) (k : κ) : Option α := if k ∈ d.keys then some (d.get k) else none

/-- The key gets a value, whether it has one or not. -/
def set (d : Dict κ α) (k : κ) (a : α) : Dict κ α := ⟨insert k d.keys, Function.update d.get k a⟩

/-- A key that has a value keeps it. -/
def insert (d : Dict κ α) (k : κ) (a : α) : Dict κ α := if k ∈ d.keys then d else d.set k a

def erase (d : Dict κ α) (k : κ) : Dict κ α := ⟨d.keys.erase k, d.get⟩

variable {d : Dict κ α} {k k' : κ} {a : α}

@[simp] theorem keys_set : (d.set k a).keys = Insert.insert k d.keys := rfl

@[simp] theorem keys_erase : (d.erase k).keys = d.keys.erase k := rfl

/-- What is found under a key is what the dictionary holds of a key it has. -/
theorem at?_eq_some : d.at? k = some a ↔ k ∈ d.keys ∧ d.get k = a := by
  unfold at?
  split_ifs with h
  · simp [h]
  · simp [h]

theorem at?_eq_none : d.at? k = none ↔ k ∉ d.keys := by
  unfold at?
  split_ifs with h
  · simp [h]
  · simp [h]

theorem mem_keys_of_at? (h : d.at? k = some a) : k ∈ d.keys := (at?_eq_some.mp h).1

theorem exists_at? (h : k ∈ d.keys) : ∃ a, d.at? k = some a := ⟨d.get k, at?_eq_some.mpr ⟨h, rfl⟩⟩

/-- A key that is set is found with its new value, the others as before. -/
theorem at?_set : (d.set k a).at? k' = if k' = k then some a else d.at? k' := by
  by_cases h : k' = k
  · subst h
    simp [at?, set]
  · simp [at?, set, h]

/-- An erased key is not found, the others are as before. -/
theorem at?_erase : (d.erase k).at? k' = if k' = k then none else d.at? k' := by
  by_cases h : k' = k
  · subst h
    simp [at?, erase]
  · simp [at?, erase, h]

/-- `insert` sets a key that is new; of one that is there it keeps the value. -/
theorem insert_of_notMem (h : k ∉ d.keys) : d.insert k a = d.set k a := if_neg h

end Dict

end P4Bricks
