import P4Bricks.Common.BitAt
import P4Bricks.Common.Bits
/-!
# The bits of numbers in byte strings

A byte string denotes a number, most significant byte first. Counted from
the other end, its bits are the bits of this number, and the bytes of a number
have the number's bits.
-/

namespace P4Bricks

variable {l : List UInt8}

theorem bytesVal_cons (b : UInt8) (l : List UInt8) :
    bytesVal (b :: l) = 2 ^ (8 * l.length) * b.toNat + bytesVal l := by
  rw [bytesVal, bytesBits_cons, bitsVal_append, bytesBits_length, bitsVal_byteBits, mul_comm,
    bytesVal]

theorem bytesVal_lt (l : List UInt8) : bytesVal l < 2 ^ (8 * l.length) := by
  have h := bitsVal_lt (bytesBits l)
  rwa [bytesBits_length] at h

theorem natBytes_length (n x : ℕ) : (natBytes n x).length = n := by
  induction n generalizing x with
  | zero => rfl
  | succ n ih => rw [natBytes, List.length_append, ih, List.length_singleton]

theorem byteBit_ofNat {x r : ℕ} (hr : r < 8) : byteBit (UInt8.ofNat x) r = x.testBit (7 - r) := by
  have hlt : 7 - r < 8 := by omega
  rw [byteBit, UInt8.toNat_ofNat', Nat.testBit_mod_two_pow, decide_eq_true hlt, Bool.true_and]

/-- **The bits of a number's bytes.** -/
theorem bitAt_natBytes {n x j : ℕ} (hj : j < 8 * n) :
    bitAt (natBytes n x) j = x.testBit (8 * n - 1 - j) := by
  induction n generalizing x with
  | zero => omega
  | succ n ih =>
    rw [natBytes]
    rcases Nat.lt_or_ge j (8 * n) with hlt | hge
    · have hshift : 8 * (n + 1) - 1 - j = 8 * n - 1 - j + 8 := by omega
      rw [bitAt_append_left (by rwa [natBytes_length]), ih hlt, hshift]
      exact Nat.testBit_div_two_pow (n := 8) x (8 * n - 1 - j)
    · obtain ⟨r, rfl⟩ : ∃ r, j = 8 * n + r := ⟨j - 8 * n, by omega⟩
      have hr : r < 8 := by omega
      have hlast : bitAt (natBytes n (x / 256) ++ [UInt8.ofNat x])
          (8 * (natBytes n (x / 256)).length + r) = bitAt [UInt8.ofNat x] r := bitAt_append_right
      rw [natBytes_length] at hlast
      rw [hlast, bitAt, (by omega : r / 8 = 0), (by omega : r % 8 = r),
        (by omega : 8 * (n + 1) - 1 - (8 * n + r) = 7 - r)]
      exact byteBit_ofNat hr

theorem natBits_eq (w v : ℕ) : natBits w v = (List.range w).map fun i => v.testBit (w - 1 - i) := by
  induction w generalizing v with
  | zero => rfl
  | succ w ih =>
    rw [natBits, ih, List.range_succ, List.map_append, List.map_singleton]
    congr 1
    · refine List.map_congr_left fun i hi => ?_
      have hlt := List.mem_range.mp hi
      rw [Nat.testBit_div_two, (by omega : w - 1 - i + 1 = w + 1 - 1 - i)]
    · rw [(by omega : w + 1 - 1 - w = 0)]

/-- A byte string is written out by its bits. -/
theorem bytesBits_eq (l : List UInt8) : bytesBits l = (List.range (8 * l.length)).map (bitAt l) := by
  induction l with
  | nil => rfl
  | cons b l ih =>
    have hlen : 8 * (b :: l).length = 8 + 8 * l.length := by
      rw [List.length_cons]
      omega
    rw [bytesBits_cons, hlen, List.range_add, List.map_append, byteBits, natBits_eq, ih,
      List.map_map]
    have hfirst : (List.range 8).map (fun i => b.toNat.testBit (8 - 1 - i)) =
        (List.range 8).map (bitAt (b :: l)) := by
      refine List.map_congr_left fun r hr => ?_
      have hr8 := List.mem_range.mp hr
      rw [bitAt, Nat.div_eq_of_lt hr8, Nat.mod_eq_of_lt hr8]
      rfl
    have hrest : (List.range (8 * l.length)).map (bitAt l) =
        (List.range (8 * l.length)).map (bitAt (b :: l) ∘ (8 + ·)) :=
      List.map_congr_left fun j _ => bitAt_drop (l := b :: l) (k := 1)
    rw [hfirst, hrest]

/-- The low bits of its number are the last ones. -/
theorem bytesVal_mod {n : ℕ} (hn : n ≤ 8 * l.length) :
    bytesVal l % 2 ^ n = bitsVal ((List.range n).map fun i => bitAt l (8 * l.length - n + i)) := by
  have hsplit : List.range (8 * l.length) =
      List.range (8 * l.length - n) ++ (List.range n).map (8 * l.length - n + ·) := by
    rw [← List.range_add, Nat.sub_add_cancel hn]
  have hlow : (List.map (bitAt l) (List.map (8 * l.length - n + ·) (List.range n))).length = n := by
    simp
  have hlt := bitsVal_lt (List.map (bitAt l) (List.map (8 * l.length - n + ·) (List.range n)))
  rw [hlow] at hlt
  rw [bytesVal, bytesBits_eq, hsplit, List.map_append, bitsVal_append, hlow,
    Nat.mul_add_mod', Nat.mod_eq_of_lt hlt, List.map_map]
  rfl

/-- **The bits of the number a byte string denotes.** -/
theorem testBit_bytesVal {j : ℕ} (hj : j < 8 * l.length) :
    (bytesVal l).testBit (8 * l.length - 1 - j) = bitAt l j := by
  induction l generalizing j with
  | nil => simp at hj
  | cons b l ih =>
    rw [List.length_cons] at hj ⊢
    rw [bytesVal_cons, Nat.testBit_two_pow_mul_add _ (bytesVal_lt l)]
    rcases Nat.lt_or_ge j 8 with hlt | hge
    · rw [if_neg (by omega), bitAt, (by omega : j / 8 = 0), (by omega : j % 8 = j), byteBit,
        (by omega : 8 * (l.length + 1) - 1 - j - 8 * l.length = 7 - j)]
      rfl
    · obtain ⟨k, rfl⟩ : ∃ k, j = 8 * 1 + k := ⟨j - 8, by omega⟩
      rw [if_pos (by omega), ← bitAt_drop, List.drop_one, List.tail_cons, ← ih (by omega)]
      congr 1
      omega

/-- A byte string is its number's bytes. -/
theorem natBytes_bytesVal (l : List UInt8) : natBytes l.length (bytesVal l) = l := by
  refine bitAt_ext (natBytes_length _ _) fun j hj => ?_
  rw [natBytes_length] at hj
  rw [bitAt_natBytes hj, testBit_bytesVal hj]

/-- Numbers that the bytes have room for are told apart by them. -/
theorem natBytes_inj {n x y : ℕ} (hx : x < 2 ^ (8 * n)) (hy : y < 2 ^ (8 * n))
    (h : natBytes n x = natBytes n y) : x = y := by
  refine Nat.eq_of_testBit_eq fun i => ?_
  rcases Nat.lt_or_ge i (8 * n) with hlt | hge
  · have hi : 8 * n - 1 - (8 * n - 1 - i) = i := by omega
    have hbit := bitAt_natBytes (n := n) (x := x) (j := 8 * n - 1 - i) (by omega)
    rw [h, bitAt_natBytes (by omega), hi] at hbit
    exact hbit.symm
  · have hpow : 2 ^ (8 * n) ≤ 2 ^ i := Nat.pow_le_pow_right (by omega) hge
    rw [Nat.testBit_lt_two_pow (hx.trans_le hpow), Nat.testBit_lt_two_pow (hy.trans_le hpow)]

/-- The number has no more than `n` bits when the bits before these are zero. -/
theorem bytesVal_lt_two_pow_iff {n : ℕ} (hn : n ≤ 8 * l.length) :
    bytesVal l < 2 ^ n ↔ ∀ j < 8 * l.length - n, bitAt l j = false := by
  constructor
  · intro hlt j hj
    rw [← testBit_bytesVal (by omega)]
    exact Nat.testBit_lt_two_pow (hlt.trans_le (Nat.pow_le_pow_right (by omega) (by omega)))
  · intro h
    refine Nat.lt_pow_two_of_testBit _ fun i hi => ?_
    rcases Nat.lt_or_ge i (8 * l.length) with hlt | hge
    · have hbit := testBit_bytesVal (l := l) (j := 8 * l.length - 1 - i) (by omega)
      rw [(by omega : 8 * l.length - 1 - (8 * l.length - 1 - i) = i)] at hbit
      rw [hbit]
      exact h _ (by omega)
    · exact Nat.testBit_lt_two_pow ((bytesVal_lt l).trans_le (Nat.pow_le_pow_right (by omega) hge))

end P4Bricks
