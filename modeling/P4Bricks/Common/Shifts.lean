import Mathlib.Logic.Equiv.Basic
/-!
# Shifting by exchanges

A row of cells whose contents move by a fixed distance, one exchange at a
time, so that nothing is ever overwritten. What comes to rest where something
was moved away is not said here: it is what happened to be there.
-/

namespace P4Bricks

namespace Shifts

variable {α : Type*} {num n i : ℕ}

/-- The contents of two cells change places. -/
def exchange (c : ℕ → α) (i j : ℕ) : ℕ → α := c ∘ Equiv.swap i j

theorem exchange_left (c : ℕ → α) (i j : ℕ) : exchange c i j i = c j := by
  rw [exchange, Function.comp_apply, Equiv.swap_apply_left]

theorem exchange_of_ne {c : ℕ → α} {i j k : ℕ} (hi : k ≠ i) (hj : k ≠ j) : exchange c i j k = c k := by
  rw [exchange, Function.comp_apply, Equiv.swap_apply_of_ne_of_ne hi hj]

/-- Cells `0` to `n - 1` get what is `num` cells further on, from the first
cell on. -/
def up (num : ℕ) : ℕ → (ℕ → α) → ℕ → α
  | 0, c => c
  | n + 1, c => exchange (up num n c) n (n + num)

/-- Cells `n` down to `num` get what is `num` cells before. -/
def down (num : ℕ) : ℕ → (ℕ → α) → ℕ → α
  | 0, c => c
  | n + 1, c => if n + 1 > num - 1 then down num n (exchange c (n + 1) (n + 1 - num)) else c

/-- What is in a cell after an exchange was in some cell before. -/
theorem exists_exchange (c : ℕ → α) (i j k : ℕ) : ∃ l, exchange c i j k = c l := ⟨_, rfl⟩

/-- What a shift leaves at an index stood at some index before, up -/
theorem exists_up (c : ℕ → α) (i : ℕ) : ∃ j, up num n c i = c j := by
  induction n generalizing i with
  | zero => exact ⟨i, rfl⟩
  | succ n ih =>
    obtain ⟨j, hj⟩ := exists_exchange (up num n c) n (n + num) i
    rw [up, hj]
    exact ih j

/-- and down. -/
theorem exists_down (c : ℕ → α) (i : ℕ) : ∃ j, down num n c i = c j := by
  induction n generalizing c with
  | zero => exact ⟨i, rfl⟩
  | succ n ih =>
    rw [down]
    split
    · obtain ⟨j, hj⟩ := ih (exchange c (n + 1) (n + 1 - num))
      rw [hj]
      exact exists_exchange c _ _ j
    · exact ⟨i, rfl⟩

/-- Where nothing is shifted up to an index, it keeps what it has; -/
theorem up_of_le (c : ℕ → α) (h : n = 0 ∨ n + num ≤ i) : up num n c i = c i := by
  induction n with
  | zero => rfl
  | succ n ih => rw [up, exchange_of_ne (by omega) (by omega), ih (by omega)]

/-- below the count it has what stood `num` places above. -/
theorem up_of_lt (hnum : 0 < num) (c : ℕ → α) (h : i < n) : up num n c i = c (i + num) := by
  induction n with
  | zero => omega
  | succ n ih =>
    rw [up]
    rcases Nat.lt_or_ge i n with hi | hi
    · rw [exchange_of_ne (by omega) (by omega), ih hi]
    · -- The cell that is exchanged now was not touched before.
      obtain rfl : i = n := by omega
      rw [exchange_left, up_of_le c (.inr (Nat.le_refl _))]

/-- Above the last index shifted nothing changes, -/
theorem down_of_gt (c : ℕ → α) (h : n < i) : down num n c i = c i := by
  induction n generalizing c with
  | zero => rfl
  | succ n ih =>
    rw [down]
    split
    · rw [ih _ (by omega), exchange_of_ne (by omega) (by omega)]
    · rfl

/-- and from `num` on an index has what stood `num` places below. -/
theorem down_of_le (hnum : 0 < num) (c : ℕ → α) (hi : num ≤ i) (hn : i ≤ n) :
    down num n c i = c (i - num) := by
  induction n generalizing c with
  | zero => omega
  | succ n ih =>
    rw [down, if_pos (by omega)]
    rcases Nat.lt_or_ge n i with hlt | hge
    · obtain rfl : i = n + 1 := by omega
      rw [down_of_gt _ hlt, exchange_left]
    · rw [ih _ hge, exchange_of_ne (by omega) (by omega)]

end Shifts

end P4Bricks
