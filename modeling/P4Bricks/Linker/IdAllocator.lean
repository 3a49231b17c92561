import Mathlib.Data.Finset.Insert
import Mathlib.Data.Int.Order.Basic
import Mathlib.Order.Interval.Finset.Nat
/-!
# The allocator of ids

`P4ObjectIdAllocator` of `linker_commons.h`. `get_next_id` counts up from zero and tries
to mark each number, until one was not marked. The condition of its loop has then counted
once more, so the id it returns is the one after the id it has marked.
-/

namespace P4Bricks

namespace Linker

/-- The largest `int`, which is what a `p4object_id_t` is. -/
def maxId : ℕ := 2 ^ 31 - 1

structure P4ObjectIdAllocator where
  usedIds : Finset ℤ := ∅

namespace P4ObjectIdAllocator

/-- `mark_id`: whether the id was not marked. -/
def markId (a : P4ObjectIdAllocator) (id : ℤ) : Bool × P4ObjectIdAllocator :=
  (decide (id ∉ a.usedIds), ⟨insert id a.usedIds⟩)

/-- The loop of `mark_id_range` over the ids from `start` on. -/
def markIdsFrom (a : P4ObjectIdAllocator) (start : ℤ) : ℕ → Option Bool × P4ObjectIdAllocator
  | 0 => (none, a)
  | n + 1 =>
    match a.markId start with
    | (false, a) => (some false, a)
    | (true, a) => a.markIdsFrom (start + 1) n

/-- `mark_id_range`, which returns nothing when it has marked all ids of the range. -/
def markIdRange (a : P4ObjectIdAllocator) (start stop : ℤ) : Option Bool × P4ObjectIdAllocator :=
  a.markIdsFrom start (stop + 1 - start).toNat

/-- The loop of `get_next_id`, which may count `n` times more. `id_gen++` is evaluated
before `mark_id` is called, and on the old value. -/
def getNextIdFrom (a : P4ObjectIdAllocator) (idGen : ℕ) : ℕ → Option (ℤ × P4ObjectIdAllocator)
  | 0 => none
  | n + 1 =>
    match a.markId idGen with
    | (false, _) => a.getNextIdFrom (idGen + 1) n
    | (true, a) => some ((idGen + 1 : ℕ), a)

/-- `get_next_id`. Nothing is said of an `int` that is counted beyond the largest. -/
def getNextId (a : P4ObjectIdAllocator) : Option (ℤ × P4ObjectIdAllocator) :=
  a.getNextIdFrom 0 maxId

inductive Call where
  | markId (id : ℤ)
  | markIdRange (start stop : ℤ)
  | getNextId
  deriving DecidableEq

/-- What an id that `get_next_id` returns has to be: one that was neither marked nor
returned, and that is marked now. -/
def ReturnsFresh (a : P4ObjectIdAllocator) (returned : Finset ℤ) : Prop :=
  ∃ id a', a.getNextId = some (id, a') ∧ id ∉ a.usedIds ∧ id ∉ returned ∧ id ∈ a'.usedIds

/-- Every `get_next_id` of the run returns such an id. -/
def AllFresh : P4ObjectIdAllocator → Finset ℤ → List Call → Prop
  | _, _, [] => True
  | a, returned, .markId id :: calls => (a.markId id).2.AllFresh returned calls
  | a, returned, .markIdRange start stop :: calls =>
    (a.markIdRange start stop).2.AllFresh returned calls
  | a, returned, .getNextId :: calls => a.ReturnsFresh returned ∧
    ∀ id ∈ a.getNextId, id.2.AllFresh (insert id.1 returned) calls

variable {a a' : P4ObjectIdAllocator} {id : ℤ} {idGen n : ℕ}

theorem markId_of_mem (h : id ∈ a.usedIds) : a.markId id = (false, a) := by
  unfold markId
  rw [Finset.insert_eq_of_mem h, decide_eq_false (not_not.mpr h)]

theorem markId_of_notMem (h : id ∉ a.usedIds) : a.markId id = (true, ⟨insert id a.usedIds⟩) := by
  unfold markId
  rw [decide_eq_true h]

/-- **What the loop does**: it marks the first number that is not marked, and returns
the number after it. -/
theorem getNextIdFrom_eq_some (h : a.getNextIdFrom idGen n = some (id, a')) :
    ∃ k : ℕ, idGen ≤ k ∧ (∀ i : ℕ, idGen ≤ i → i < k → (i : ℤ) ∈ a.usedIds) ∧
      (k : ℤ) ∉ a.usedIds ∧ id = k + 1 ∧ a'.usedIds = insert (k : ℤ) a.usedIds := by
  induction n generalizing idGen with
  | zero => cases h
  | succ n ih =>
    unfold getNextIdFrom at h
    by_cases hused : (idGen : ℤ) ∈ a.usedIds
    · rw [markId_of_mem hused] at h
      obtain ⟨k, hk, hbelow, hfree, hid, hafter⟩ := ih h
      refine ⟨k, by omega, fun i hi hik => ?_, hfree, hid, hafter⟩
      rcases eq_or_lt_of_le hi with rfl | hlt
      · exact hused
      · exact hbelow i hlt hik
    · rw [markId_of_notMem hused] at h
      obtain ⟨rfl, rfl⟩ := Prod.mk.inj (Option.some.inj h)
      exact ⟨idGen, le_rfl, fun i hi hik => by omega, hused, by norm_cast, rfl⟩

theorem getNextId_eq_some (h : a.getNextId = some (id, a')) :
    ∃ k : ℕ, (∀ i : ℕ, i < k → (i : ℤ) ∈ a.usedIds) ∧
      (k : ℤ) ∉ a.usedIds ∧ id = k + 1 ∧ a'.usedIds = insert (k : ℤ) a.usedIds := by
  obtain ⟨k, -, hbelow, rest⟩ := getNextIdFrom_eq_some h
  exact ⟨k, fun i hi => hbelow i (Nat.zero_le i) hi, rest⟩

/-- **An id that was not marked is not marked afterwards.** -/
theorem mem_usedIds_of_getNextId (h : a.getNextId = some (id, a')) (hid : id ∈ a'.usedIds) :
    id ∈ a.usedIds := by
  obtain ⟨k, -, -, rfl, hafter⟩ := getNextId_eq_some h
  rw [hafter, Finset.mem_insert] at hid
  have hne : (k : ℤ) + 1 ≠ k := by omega
  exact hid.resolve_left hne

theorem not_returnsFresh (a : P4ObjectIdAllocator) (returned : Finset ℤ) :
    ¬ a.ReturnsFresh returned := by
  rintro ⟨id, a', hnext, hfree, -, hmarked⟩
  exact hfree (mem_usedIds_of_getNextId hnext hmarked)

/-- **A run gives out fresh ids** when it gives out none. -/
theorem allFresh_iff (a : P4ObjectIdAllocator) (returned : Finset ℤ) (calls : List Call) :
    a.AllFresh returned calls ↔ Call.getNextId ∉ calls := by
  induction calls generalizing a returned with
  | nil => simp [AllFresh]
  | cons c calls ih =>
    rw [List.mem_cons, not_or]
    cases c with
    | markId id => simpa [AllFresh] using ih (a.markId id).2 returned
    | markIdRange start stop => simpa [AllFresh] using ih (a.markIdRange start stop).2 returned
    | getNextId => exact ⟨fun h => absurd h.1 (a.not_returnsFresh returned), fun h => absurd rfl h.1⟩

/-- The first id is 1, while 0 is marked. It may have been marked, and may still be. -/
theorem not_allFresh_marked :
    ¬ AllFresh {} ∅ [.markId 1, .getNextId] ∧
    (((({} : P4ObjectIdAllocator).markId 1).2.getNextId).map Prod.fst = some 1) ∧
    (({} : P4ObjectIdAllocator).getNextId.map fun r => (r.1, (r.2.markId r.1).1)) =
      some (1, true) := by
  refine ⟨?_, by decide +kernel, by decide +kernel⟩
  rintro ⟨⟨id, a', hnext, hfree, -, hmarked⟩, -⟩
  exact hfree (mem_usedIds_of_getNextId hnext hmarked)

end P4ObjectIdAllocator

end Linker

end P4Bricks
