import Mathlib.Data.Nat.ModEq
import Mathlib.Tactic.Ring
/-!
# Sums with an end-around carry

One's complement addition in a word whose largest value is `m`: a carry out of the word
comes back in at its low end. The result stands for the sum modulo `m`, and of the two
representatives of zero it is the small one for zero alone. This is what makes a sum in
wide words the same as one in narrow words.
-/

namespace P4Bricks

/-- The sum of two words, with the carry added. -/
def endAround (m a b : ℕ) : ℕ := if a + b ≤ m then a + b else a + b - m

/-- The word `x` stands for the number `n`. -/
structure Represents (m n x : ℕ) : Prop where
  le : x ≤ m
  modEq : x ≡ n [MOD m]
  zero_iff : x = 0 ↔ n = 0

/-- Two numbers that the same words stand for. -/
structure SameSum (m a b : ℕ) : Prop where
  modEq : a ≡ b [MOD m]
  zero_iff : a = 0 ↔ b = 0

namespace SameSum

variable {m a b c d : ℕ}

theorem refl (a : ℕ) : SameSum m a a := ⟨Nat.ModEq.refl a, Iff.rfl⟩

theorem symm (h : SameSum m a b) : SameSum m b a := ⟨h.modEq.symm, h.zero_iff.symm⟩

theorem trans (h : SameSum m a b) (h' : SameSum m b c) : SameSum m a c :=
  ⟨h.modEq.trans h'.modEq, h.zero_iff.trans h'.zero_iff⟩

theorem add (h : SameSum m a b) (h' : SameSum m c d) : SameSum m (a + c) (b + d) := by
  have hz := h.zero_iff
  have hz' := h'.zero_iff
  exact ⟨h.modEq.add h'.modEq, by omega⟩

/-- A factor that is one modulo `m` does not count. -/
theorem mul {k : ℕ} (hk : k ≡ 1 [MOD m]) (hpos : k ≠ 0) (a : ℕ) : SameSum m (k * a) a := by
  refine ⟨?_, by simp [hpos]⟩
  have hmul := hk.mul_right a
  rwa [Nat.one_mul] at hmul

end SameSum

namespace Represents

variable {m n k x y : ℕ}

theorem of_le (h : x ≤ m) : Represents m x x := ⟨h, Nat.ModEq.refl x, Iff.rfl⟩

theorem congr (h : Represents m n x) (hs : SameSum m n k) : Represents m k x :=
  ⟨h.le, h.modEq.trans hs.modEq, h.zero_iff.trans hs.zero_iff⟩

/-- **A number is represented by one word.** -/
theorem unique (h : Represents m n x) (h' : Represents m n y) : x = y := by
  have hmod := h.modEq.trans h'.modEq.symm
  have hle := h.le
  have hle' := h'.le
  have hzero : x = 0 ↔ y = 0 := h.zero_iff.trans h'.zero_iff.symm
  rcases Nat.lt_or_ge x m with hx | hx
  · rcases Nat.lt_or_ge y m with hy | hy
    · have heq : x % m = y % m := hmod
      rwa [Nat.mod_eq_of_lt hx, Nat.mod_eq_of_lt hy] at heq
    · obtain rfl : y = m := by omega
      have heq : x % y = y % y := hmod
      rw [Nat.mod_self, Nat.mod_eq_of_lt hx] at heq
      omega
  · obtain rfl : x = m := by omega
    rcases Nat.lt_or_ge y x with hy | hy
    · have heq : x % x = y % x := hmod
      rw [Nat.mod_self, Nat.mod_eq_of_lt hy] at heq
      omega
    · omega

/-- **The end-around sum of two words** stands for the sum of what they stand for. -/
theorem endAround (h : Represents m n x) (h' : Represents m k y) :
    Represents m (n + k) (endAround m x y) := by
  have hle := h.le
  have hle' := h'.le
  have hz := h.zero_iff
  have hz' := h'.zero_iff
  have hsum := h.modEq.add h'.modEq
  unfold P4Bricks.endAround
  split
  · exact ⟨‹_›, hsum, by omega⟩
  · refine ⟨by omega, ?_, by omega⟩
    have hcarry : x + y = x + y - m + m := by omega
    rw [hcarry] at hsum
    exact (Nat.add_modEq_right (a := x + y - m) (n := m)).symm.trans hsum

/-- **A word folded into its halves** stands for the same in the words of half the size. -/
theorem fold {b : ℕ} (h : Represents (b * b - 1) n x) (hb : 1 < b) :
    Represents (b - 1) n (P4Bricks.endAround (b - 1) (x % b) (x / b)) := by
  have hle := h.le
  have hbb : 0 < b * b := Nat.mul_pos (by omega) (by omega)
  have hhigh : x / b < b := Nat.div_lt_of_lt_mul (by omega)
  have hlow : x % b < b := Nat.mod_lt _ (by omega)
  have hdiv : b - 1 ∣ b * b - 1 := by
    refine ⟨b + 1, ?_⟩
    obtain ⟨c, rfl⟩ : ∃ c, b = c + 1 := ⟨b - 1, by omega⟩
    rw [Nat.add_sub_cancel, (by ring : (c + 1) * (c + 1) = c * (c + 1 + 1) + 1), Nat.add_sub_cancel]
  have hbase : b ≡ 1 [MOD b - 1] := by
    have hsub : b = b - 1 + 1 := by omega
    conv_lhs => rw [hsub]
    exact (Nat.add_modEq_left (a := 1) (n := b - 1))
  have hsame : SameSum (b - 1) (x % b + x / b) n := by
    have hsplit : x % b + b * (x / b) = x := Nat.mod_add_div x b
    have hparts := (SameSum.refl (m := b - 1) (x % b)).add
      (SameSum.mul hbase (by omega) (x / b)).symm
    rw [hsplit] at hparts
    exact hparts.trans ⟨h.modEq.of_dvd hdiv, h.zero_iff⟩
  exact ((of_le (by omega)).endAround (of_le (by omega))).congr hsame

end Represents

end P4Bricks
