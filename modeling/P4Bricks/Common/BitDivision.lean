import Mathlib
import P4Bricks.Common.Bits
/-!
# Division of bit strings

Division modulo two in a register of `w` bits: the register is shifted by one for each bit
of the dividend, and the divisor, whose leading bit is not written down, is taken off when
a one is shifted out. `divide_bits` reads several bits at once, which is what a table of
remainders is for; `toPoly_divide` says that the register holds a remainder of polynomials.
-/

namespace P4Bricks

open Polynomial

variable {w : ℕ}

/-- One step of the division, with a zero shifted in. -/
def shiftStep (poly reg : BitVec w) : BitVec w :=
  if reg.msb then reg <<< 1 ^^^ poly else reg <<< 1

/-- One step of the division, for one bit of the dividend. -/
def divideBit (poly reg : BitVec w) (b : Bool) : BitVec w :=
  if (reg.msb ^^ b) then reg <<< 1 ^^^ poly else reg <<< 1

/-- The division of a bit string, from what the register holds. -/
def divide (poly reg : BitVec w) (bits : List Bool) : BitVec w :=
  bits.foldl (divideBit poly) reg

theorem divide_append (poly reg : BitVec w) (l l' : List Bool) :
    divide poly reg (l ++ l') = divide poly (divide poly reg l) l' :=
  List.foldl_append

/-! ## Several bits at once -/

/-- **A step is linear.** -/
theorem shiftStep_xor (poly a b : BitVec w) :
    shiftStep poly (a ^^^ b) = shiftStep poly a ^^^ shiftStep poly b := by
  have hshift : (a ^^^ b) <<< 1 = a <<< 1 ^^^ b <<< 1 := BitVec.shiftLeft_xor_distrib ..
  unfold shiftStep
  rw [BitVec.msb_xor, hshift]
  -- the divisor taken off twice is not taken off
  cases a.msb <;> cases b.msb
  · rfl
  · simp [BitVec.xor_assoc]
  · simp only [Bool.xor_false, if_true, if_false, Bool.false_eq_true]
    rw [BitVec.xor_assoc, BitVec.xor_comm (b <<< 1), ← BitVec.xor_assoc]
  · simp only [Bool.xor_self, if_true, if_false, Bool.false_eq_true]
    rw [BitVec.xor_assoc, BitVec.xor_comm (b <<< 1), ← BitVec.xor_assoc poly, BitVec.xor_self,
      BitVec.zero_xor]

theorem shiftSteps_xor (poly a b : BitVec w) (n : ℕ) :
    (shiftStep poly)^[n] (a ^^^ b) = (shiftStep poly)^[n] a ^^^ (shiftStep poly)^[n] b := by
  induction n generalizing a b with
  | zero => rfl
  | succ n ih => rw [Function.iterate_succ_apply, shiftStep_xor, ih]; rfl

/-- Steps that shift no one out only shift. -/
theorem shiftSteps_of_lt (poly x : BitVec w) (n : ℕ) (h : x.toNat * 2 ^ n < 2 ^ w) :
    (shiftStep poly)^[n] x = x <<< n := by
  induction n generalizing x with
  | zero => simp
  | succ n ih =>
    have hhalf : 2 * (x.toNat * 2 ^ n) < 2 ^ w := by
      rw [pow_succ] at h
      linarith
    have hone : x.toNat ≤ x.toNat * 2 ^ n := Nat.le_mul_of_pos_right _ (by positivity)
    have hmsb : x.msb = false := by
      rw [BitVec.msb_eq_decide, decide_eq_false_iff_not, not_le]
      rcases Nat.eq_zero_or_pos w with rfl | hw
      · simp only [Nat.pow_zero] at hhalf ⊢
        omega
      · have hpow : 2 ^ w = 2 * 2 ^ (w - 1) := by
          rw [← pow_succ', Nat.sub_add_cancel hw]
        omega
    have hshift : (x <<< 1).toNat = 2 * x.toNat := by
      rw [BitVec.toNat_shiftLeft, Nat.shiftLeft_eq, Nat.mod_eq_of_lt (by omega)]
      omega
    have hstep : shiftStep poly x = x <<< 1 := by simp [shiftStep, hmsb]
    rw [Function.iterate_succ_apply, hstep, ih (x <<< 1) (by rw [hshift]; linarith),
      ← BitVec.shiftLeft_add, Nat.add_comm]

/-- The word holds the bit string at its low end. -/
def Holds (bits : List Bool) (x : BitVec w) : Prop :=
  ∀ i, x.getLsbD i = bits.reverse.getD i false

/-- One bit of a word. -/
def bitWord (w k : ℕ) (b : Bool) : BitVec w := if b then BitVec.twoPow w k else 0#w

theorem getLsbD_bitWord (k i : ℕ) (b : Bool) :
    (bitWord w k b).getLsbD i = (b && decide (i < w) && decide (k = i)) := by
  unfold bitWord
  cases b
  · simp
  · rw [if_pos rfl, BitVec.getLsbD_twoPow, Bool.true_and]
    by_cases hk : k = i
    · rw [hk]
    · simp [hk]

/-- A bit of the dividend goes in at the top of the register. -/
theorem divideBit_eq (hw : 0 < w) (poly reg : BitVec w) (b : Bool) :
    divideBit poly reg b = shiftStep poly (reg ^^^ bitWord w (w - 1) b) := by
  have hmsb : (bitWord w (w - 1) b).msb = b := by
    rw [BitVec.msb_eq_getLsbD_last, getLsbD_bitWord]
    simp [hw]
  have hout : bitWord w (w - 1) b <<< 1 = 0#w := by
    apply BitVec.eq_of_getLsbD_eq
    intro i hi
    rw [BitVec.getLsbD_shiftLeft, getLsbD_bitWord]
    have hlast : w - 1 ≠ i - 1 ∨ i < 1 := by omega
    rcases hlast with hne | hlt
    · simp [hne]
    · simp [hlt]
  have hshift : (reg ^^^ bitWord w (w - 1) b) <<< 1 = reg <<< 1 := by
    have hxor : (reg ^^^ bitWord w (w - 1) b) <<< 1 = reg <<< 1 ^^^ bitWord w (w - 1) b <<< 1 :=
      BitVec.shiftLeft_xor_distrib ..
    rw [hxor, hout, BitVec.xor_zero]
  unfold divideBit shiftStep
  rw [BitVec.msb_xor, hmsb, hshift]

theorem shiftLeft_low_bit (x : BitVec w) (k : ℕ) :
    x <<< k = (x >>> 1) <<< (k + 1) ^^^ bitWord w k (x.getLsbD 0) := by
  apply BitVec.eq_of_getLsbD_eq
  intro i hi
  simp only [BitVec.getLsbD_xor, BitVec.getLsbD_shiftLeft, BitVec.getLsbD_ushiftRight,
    getLsbD_bitWord, hi, decide_true, Bool.true_and, Bool.and_true]
  rcases Nat.lt_trichotomy i k with hlt | rfl | hgt
  · simp [hlt, Nat.lt_succ_of_lt hlt, Nat.ne_of_gt hlt]
  · simp
  · have hsub : 1 + (i - (k + 1)) = i - k := by omega
    have hk : ¬ i < k := by omega
    have hk' : ¬ i < k + 1 := by omega
    simp [hk, hk', hsub, Nat.ne_of_lt hgt]

/-- **Several bits are divided at once**, by as many steps from the sum of the register and
of the bits at its top. -/
theorem divide_bits {bits : List Bool} {x : BitVec w} (h : Holds bits x)
    (hn : bits.length ≤ w) (poly reg : BitVec w) :
    divide poly reg bits =
      (shiftStep poly)^[bits.length] (reg ^^^ x <<< (w - bits.length)) := by
  induction bits using List.reverseRecOn generalizing x with
  | nil =>
    have hzero : x <<< w = 0 := BitVec.shiftLeft_eq_zero (Nat.le_refl w)
    simp [divide, hzero]
  | append_singleton bits b ih =>
    rw [List.length_append, List.length_singleton] at hn ⊢
    have hlow : x.getLsbD 0 = b := by simpa using h 0
    have hrest : Holds bits (x >>> 1) := by
      intro i
      rw [BitVec.getLsbD_ushiftRight, h (1 + i), Nat.add_comm]
      simp
    -- The new bit comes in below those that are still to be divided, so it moves up without being
    -- divided itself.
    have hout : (shiftStep poly)^[bits.length] (bitWord w (w - (bits.length + 1)) b) =
        bitWord w (w - 1) b := by
      have hlt : (bitWord w (w - (bits.length + 1)) b).toNat * 2 ^ bits.length < 2 ^ w := by
        cases b
        · simp [bitWord]
        · rw [bitWord, if_pos rfl, BitVec.toNat_twoPow, Nat.mod_eq_of_lt
            (Nat.pow_lt_pow_right (by decide) (by omega)), ← pow_add]
          exact Nat.pow_lt_pow_right (by decide) (by omega)
      rw [shiftSteps_of_lt poly _ _ hlt]
      apply BitVec.eq_of_getLsbD_eq
      intro i hi
      simp only [BitVec.getLsbD_shiftLeft, getLsbD_bitWord, hi, decide_true, Bool.true_and,
        Bool.and_true]
      rcases Nat.lt_or_ge i bits.length with hlt | hge
      · simp only [hlt, decide_true, Bool.not_true, Bool.false_and]
        rw [decide_eq_false (by omega), Bool.and_false]
      · rw [decide_eq_false (by omega), decide_eq_true (by omega : i - bits.length < w)]
        have hiff : w - (bits.length + 1) = i - bits.length ↔ w - 1 = i := by omega
        simp [hiff]
    have hsplit := shiftLeft_low_bit x (w - (bits.length + 1))
    have hpred : w - (bits.length + 1) + 1 = w - bits.length := by omega
    rw [hpred, hlow] at hsplit
    rw [divide_append, ih hrest (by omega), divide, List.foldl_cons, List.foldl_nil,
      divideBit_eq (by omega), Function.iterate_succ_apply', hsplit, ← BitVec.xor_assoc,
      shiftSteps_xor _ _ (bitWord w _ b), hout]

/-- **A table of the remainders** of all strings of eight bits does the division: the top
of the register is looked up and what is left of it moves up. -/
theorem divide_byte {bits : List Bool} {x : BitVec w} (h : Holds bits x) {n : ℕ}
    (hlen : bits.length = n) (hn : n ≤ w) (poly reg : BitVec w) :
    divide poly reg bits =
      (shiftStep poly)^[n] ((x ^^^ reg >>> (w - n)) <<< (w - n)) ^^^ reg <<< n := by
  subst hlen
  obtain ⟨k, hk⟩ : ∃ k, w = k + bits.length := ⟨w - bits.length, by omega⟩
  have hsub : w - bits.length = k := by omega
  rw [divide_bits h hn, hsub]
  have hlt := Nat.mod_lt reg.toNat (Nat.two_pow_pos k)
  have hle : 2 ^ k ≤ 2 ^ w := Nat.pow_le_pow_right (by decide) (by omega)
  have hlow : (BitVec.ofNat w (reg.toNat % 2 ^ k)).toNat = reg.toNat % 2 ^ k := by
    rw [BitVec.toNat_ofNat, Nat.mod_eq_of_lt (by omega)]
  -- The register is its top, which is divided with the bits, and its low part, which only moves
  -- up.
  have hreg : reg ^^^ x <<< k =
      (x ^^^ reg >>> k) <<< k ^^^ BitVec.ofNat w (reg.toNat % 2 ^ k) := by
    apply BitVec.eq_of_getLsbD_eq
    intro i hi
    simp only [BitVec.getLsbD_xor, BitVec.getLsbD_shiftLeft, BitVec.getLsbD_ushiftRight,
      BitVec.getLsbD_ofNat, Nat.testBit_mod_two_pow, hi, decide_true, Bool.true_and]
    rcases Nat.lt_or_ge i k with hlt | hge
    · simp [hlt, BitVec.getLsbD]
    · have hnot : ¬ i < k := by omega
      have hback : k + (i - k) = i := by omega
      simp [hnot, hback, Bool.xor_comm]
  have hup : (shiftStep poly)^[bits.length] (BitVec.ofNat w (reg.toNat % 2 ^ k)) =
      reg <<< bits.length := by
    have hfits : reg.toNat % 2 ^ k * 2 ^ bits.length < 2 ^ k * 2 ^ bits.length :=
      Nat.mul_lt_mul_of_pos_right hlt (Nat.two_pow_pos _)
    rw [← pow_add, ← hk] at hfits
    rw [shiftSteps_of_lt _ _ _ (by rwa [hlow])]
    apply BitVec.eq_of_getLsbD_eq
    intro i hi
    have hbelow : i - bits.length < k ∨ i < bits.length := by omega
    simp only [BitVec.getLsbD_shiftLeft, BitVec.getLsbD_ofNat, Nat.testBit_mod_two_pow, hi,
      decide_true, Bool.true_and]
    rcases hbelow with hin | hout
    · have hin' : i - bits.length < w := by omega
      simp [hin, hin', BitVec.getLsbD]
    · simp [hout]
  rw [hreg, shiftSteps_xor, hup]

/-! ## The register as a polynomial -/

/-- The polynomial of a word, bit `i` at `X ^ i`. -/
noncomputable def toPoly (x : BitVec w) : (ZMod 2)[X] :=
  ∑ i ∈ Finset.range w, if x.getLsbD i then X ^ i else 0

/-- The polynomial of a bit string, its first bit at the highest power. -/
noncomputable def bitsPoly : List Bool → (ZMod 2)[X]
  | [] => 0
  | b :: bits => (if b then X ^ bits.length else 0) + bitsPoly bits

/-- What is divided by: the word with the leading bit that is not written down. -/
noncomputable def divisor (poly : BitVec w) : (ZMod 2)[X] := X ^ w + toPoly poly

theorem coeff_toPoly (x : BitVec w) (n : ℕ) :
    (toPoly x).coeff n = if x.getLsbD n then 1 else 0 := by
  have hterm : ∀ i, (if x.getLsbD i then (X : (ZMod 2)[X]) ^ i else 0).coeff n =
      if n = i then (if x.getLsbD i then 1 else 0) else 0 := by
    intro i
    split
    · rw [coeff_X_pow]
    · simp
  rw [toPoly, finsetSum_coeff, Finset.sum_congr rfl fun i _ => hterm i, Finset.sum_ite_eq]
  by_cases hn : n < w
  · simp [hn]
  · rw [if_neg (by simpa using hn), BitVec.getLsbD_of_ge x n (by omega)]
    rfl

theorem degree_toPoly (x : BitVec w) : (toPoly x).degree < w := by
  rw [degree_lt_iff_coeff_zero]
  intro n hn
  rw [coeff_toPoly, BitVec.getLsbD_of_ge x n hn]
  rfl

theorem divisor_monic (poly : BitVec w) : (divisor poly).Monic :=
  monic_X_pow_add (degree_toPoly poly)

theorem degree_divisor (poly : BitVec w) : (divisor poly).degree = w := by
  rw [divisor, degree_add_eq_left_of_degree_lt (by rw [degree_X_pow]; exact degree_toPoly poly),
    degree_X_pow]

theorem toPoly_xor (a b : BitVec w) : toPoly (a ^^^ b) = toPoly a + toPoly b := by
  ext n
  rw [coeff_add, coeff_toPoly, coeff_toPoly, coeff_toPoly, BitVec.getLsbD_xor]
  cases a.getLsbD n <;> cases b.getLsbD n <;> decide

/-- A shift is a product with `X`, less what is shifted out. -/
theorem toPoly_shiftLeft_one (hw : 0 < w) (x : BitVec w) :
    toPoly (x <<< 1) = X * toPoly x + (if x.msb then X ^ w else 0) := by
  have hmsb : x.msb = x.getLsbD (w - 1) := BitVec.msb_eq_getLsbD_last x
  ext n
  have hout : (if x.msb then (X : (ZMod 2)[X]) ^ w else 0).coeff n =
      if x.msb then if n = w then 1 else 0 else 0 := by
    split
    · rw [coeff_X_pow]
    · simp
  rw [coeff_add, coeff_toPoly, BitVec.getLsbD_shiftLeft, hout]
  obtain _ | n := n
  · have hne : ¬ 0 = w := by omega
    simp [hne]
  · rw [coeff_X_mul, coeff_toPoly, Nat.add_sub_cancel]
    rcases Nat.lt_trichotomy (n + 1) w with hlt | heq | hgt
    · simp [hlt, Nat.ne_of_lt hlt]
    · -- the bit that is shifted out counts twice
      have hn : n = w - 1 := by omega
      have hnot : ¬ n + 1 < w := by omega
      rw [hmsb, ← hn]
      rw [decide_eq_false hnot, Bool.false_and, Bool.false_and, if_pos heq]
      cases x.getLsbD n <;> decide
    · have hne : ¬ n + 1 = w := by omega
      have hnot : ¬ n + 1 < w := by omega
      simp [hne, hnot, BitVec.getLsbD_of_ge x n (by omega)]

/-- **One step of the division** as polynomials. -/
theorem toPoly_divideBit (hw : 0 < w) (poly reg : BitVec w) (b : Bool) :
    toPoly (divideBit poly reg b) = X * toPoly reg + (if b then X ^ w else 0) +
      (if (reg.msb ^^ b) then divisor poly else 0) := by
  have htwice : (X : (ZMod 2)[X]) ^ w + X ^ w = 0 := CharTwo.add_self_eq_zero _
  have hshift := toPoly_shiftLeft_one hw reg
  unfold divideBit divisor
  cases hm : reg.msb <;> cases b <;>
    simp only [hm, if_true, if_false, Bool.false_eq_true, Bool.xor_self, Bool.xor_false,
      Bool.false_xor, add_zero, toPoly_xor] at hshift ⊢
  · exact hshift
  · linear_combination hshift - htwice
  · linear_combination hshift
  · exact hshift

/-- **The register holds a remainder**: of what it held, moved up, with the bit string
behind its end, by the divisor. -/
theorem toPoly_divide (hw : 0 < w) (poly reg : BitVec w) (bits : List Bool) :
    toPoly (divide poly reg bits) =
      (toPoly reg * X ^ bits.length + bitsPoly bits * X ^ w) %ₘ divisor poly := by
  have hdvd : divisor poly ∣ toPoly (divide poly reg bits) -
      (toPoly reg * X ^ bits.length + bitsPoly bits * X ^ w) := by
    induction bits generalizing reg with
    | nil => simp [divide, bitsPoly]
    | cons b bits ih =>
      obtain ⟨q, hq⟩ := ih (divideBit poly reg b)
      have hstep := toPoly_divideBit hw poly reg b
      have hunfold : divide poly reg (b :: bits) = divide poly (divideBit poly reg b) bits := rfl
      refine ⟨q + X ^ bits.length * (if (reg.msb ^^ b) then 1 else 0), ?_⟩
      have hite : ∀ (c : Bool) (p : (ZMod 2)[X]), (if c then p else 0) = p * if c then 1 else 0 := by
        intro c p
        cases c <;> simp
      rw [hite _ (X ^ w), hite _ (divisor poly)] at hstep
      rw [hunfold, bitsPoly, List.length_cons, pow_succ, hite b (X ^ bits.length)]
      rw [hstep] at hq
      linear_combination hq
  have hself : toPoly (divide poly reg bits) %ₘ divisor poly = toPoly (divide poly reg bits) := by
    rw [modByMonic_eq_self_iff (divisor_monic poly), degree_divisor]
    exact degree_toPoly _
  rw [← hself]
  exact modByMonic_eq_of_dvd_sub (divisor_monic poly) hdvd

end P4Bricks
