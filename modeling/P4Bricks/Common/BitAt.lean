import Mathlib.Data.Nat.Bitwise
/-!
# Single bits of byte strings

`bitAt l j` is the `j`-th bit of a byte string, counted from the most
significant bit of its first byte. Shifting and masking bytes is described
by what becomes of each bit, so that moving a field from one place to another
comes down to adding offsets.
-/

namespace P4Bricks

/-- `b << n`, cut back to a byte. -/
def shl (b : UInt8) (n : ℕ) : UInt8 := UInt8.ofNat (b.toNat <<< n)

/-- `b >> n`. -/
def shr (b : UInt8) (n : ℕ) : UInt8 := UInt8.ofNat (b.toNat >>> n)

/-! ## The bits of a byte -/

/-- The `r`-th bit of a byte, from the most significant one. -/
def byteBit (b : UInt8) (r : ℕ) : Bool := b.toNat.testBit (7 - r)

variable {b c : UInt8} {r n : ℕ}

theorem testBit_toNat_of_ge {i : ℕ} (h : 8 ≤ i) : b.toNat.testBit i = false := by
  refine Nat.testBit_lt_two_pow (lt_of_lt_of_le b.toNat_lt ?_)
  exact Nat.pow_le_pow_right (by omega) h

@[simp] theorem byteBit_zero : byteBit 0 r = false := Nat.zero_testBit _

@[simp] theorem byteBit_and : byteBit (b &&& c) r = (byteBit b r && byteBit c r) := by
  rw [byteBit, UInt8.toNat_and, Nat.testBit_and, byteBit, byteBit]

@[simp] theorem byteBit_or : byteBit (b ||| c) r = (byteBit b r || byteBit c r) := by
  rw [byteBit, UInt8.toNat_or, Nat.testBit_or, byteBit, byteBit]

theorem byteBit_shl (hr : r < 8) : byteBit (shl b n) r = (decide (r + n < 8) && byteBit b (r + n)) := by
  rw [byteBit, shl, UInt8.toNat_ofNat', Nat.testBit_mod_two_pow, Nat.testBit_shiftLeft, byteBit]
  rcases Nat.lt_or_ge (r + n) 8 with h | h
  · have hle : 7 - r ≥ n := by omega
    have hsub : 7 - r - n = 7 - (r + n) := by omega
    have hlt : 7 - r < 8 := by omega
    simp [hle, hsub, h, hlt]
  · have hle : ¬7 - r ≥ n := by omega
    have hge : ¬r + n < 8 := by omega
    simp [hle, hge]

theorem byteBit_shr (hr : r < 8) : byteBit (shr b n) r = (decide (n ≤ r) && byteBit b (r - n)) := by
  have hle : b.toNat >>> n < 2 ^ 8 := by
    rw [Nat.shiftRight_eq_div_pow]
    exact lt_of_le_of_lt (Nat.div_le_self _ _) b.toNat_lt
  rw [byteBit, shr, UInt8.toNat_ofNat', Nat.mod_eq_of_lt hle, Nat.testBit_shiftRight, byteBit]
  rcases Nat.lt_or_ge r n with h | h
  · rw [testBit_toNat_of_ge (by omega)]
    simp [h]
  · have hsum : n + (7 - r) = 7 - (r - n) := by omega
    simp [hsum, h]

theorem byteBit_ones (hr : r < 8) : byteBit 0xFF r = true := by
  have h255 : (0xFF : UInt8).toNat = 2 ^ 8 - 1 := rfl
  rw [byteBit, h255, Nat.testBit_two_pow_sub_one]
  simpa using by omega

/-- The mask of the bits from the `n`-th on. -/
theorem byteBit_shr_ones (hr : r < 8) : byteBit (shr 0xFF n) r = decide (n ≤ r) := by
  rw [byteBit_shr hr]
  rcases Nat.lt_or_ge r n with h | h
  · simp [h]
  · simp [h, byteBit_ones (by omega : r - n < 8)]

theorem byteBit_not (hr : r < 8) : byteBit (~~~b) r = !byteBit b r := by
  have hsize : UInt8.size - 1 - b.toNat = 2 ^ 8 - (b.toNat + 1) := by
    have := b.toNat_lt
    simp only [UInt8.size]
    omega
  rw [byteBit, UInt8.toNat_not, hsize, Nat.testBit_two_pow_sub_succ b.toNat_lt, byteBit]
  simp
  omega

/-- **A byte is its eight bits.** -/
theorem byteBit_ext (h : ∀ r < 8, byteBit b r = byteBit c r) : b = c := by
  refine UInt8.toNat_inj.mp (Nat.eq_of_testBit_eq fun i => ?_)
  rcases Nat.lt_or_ge i 8 with hi | hi
  · have := h (7 - i) (by omega)
    rwa [byteBit, byteBit, (by omega : 7 - (7 - i) = i)] at this
  · rw [testBit_toNat_of_ge hi, testBit_toNat_of_ge hi]

/-! ## The bits of a byte string -/

/-- The `j`-th bit of a byte string. -/
def bitAt (l : List UInt8) (j : ℕ) : Bool := byteBit (l.getD (j / 8) 0) (j % 8)

variable {l l' : List UInt8} {j k : ℕ}

theorem bitAt_drop : bitAt (l.drop k) j = bitAt l (8 * k + j) := by
  have hdiv : (8 * k + j) / 8 = k + j / 8 := by omega
  have hmod : (8 * k + j) % 8 = j % 8 := by omega
  rw [bitAt, bitAt, hdiv, hmod, List.getD_eq_getElem?_getD, List.getElem?_drop,
    List.getD_eq_getElem?_getD]

theorem bitAt_take (h : j < 8 * k) : bitAt (l.take k) j = bitAt l j := by
  rw [bitAt, bitAt, List.getD_eq_getElem?_getD, List.getElem?_take_of_lt (by omega),
    List.getD_eq_getElem?_getD]

theorem bitAt_append_left (h : j < 8 * l.length) : bitAt (l ++ l') j = bitAt l j := by
  rw [bitAt, bitAt, List.getD_append _ _ _ _ (by omega)]

theorem bitAt_append_right : bitAt (l ++ l') (8 * l.length + j) = bitAt l' j := by
  have hdiv : (8 * l.length + j) / 8 = l.length + j / 8 := by omega
  have hmod : (8 * l.length + j) % 8 = j % 8 := by omega
  rw [bitAt, bitAt, hdiv, hmod, List.getD_append_right _ _ _ _ (by omega), Nat.add_sub_cancel_left]

/-- **Byte strings of one length with the same bits are the same.** -/
theorem bitAt_ext (hlen : l.length = l'.length) (h : ∀ j < 8 * l.length, bitAt l j = bitAt l' j) :
    l = l' := by
  refine List.ext_getElem hlen fun i hi hi' => byteBit_ext fun r hr => ?_
  have hj := h (8 * i + r) (by omega)
  rw [bitAt, bitAt, (by omega : (8 * i + r) / 8 = i), (by omega : (8 * i + r) % 8 = r)] at hj
  rwa [List.getD_eq_getElem _ _ hi, List.getD_eq_getElem _ _ hi'] at hj

/-- A bit of one byte of the string. -/
theorem bitAt_mul_add {i : ℕ} (hr : r < 8) : bitAt l (8 * i + r) = byteBit (l.getD i 0) r := by
  rw [bitAt, (by omega : (8 * i + r) / 8 = i), (by omega : (8 * i + r) % 8 = r)]

theorem bitAt_of_length_le (h : 8 * l.length ≤ j) : bitAt l j = false := by
  rw [bitAt, List.getD_eq_default _ _ (by omega), byteBit_zero]

/-- Masking a byte string masks its bits. -/
theorem bitAt_zipWith_and : bitAt (List.zipWith (· &&& ·) l l') j = (bitAt l j && bitAt l' j) := by
  rcases Nat.lt_or_ge j (8 * min l.length l'.length) with h | h
  · have hl : j / 8 < l.length := by omega
    have hl' : j / 8 < l'.length := by omega
    have hz : j / 8 < (List.zipWith (· &&& ·) l l').length := by
      rw [List.length_zipWith]
      omega
    rw [bitAt, bitAt, bitAt, List.getD_eq_getElem _ _ hz, List.getD_eq_getElem _ _ hl,
      List.getD_eq_getElem _ _ hl', List.getElem_zipWith, byteBit_and]
  · rw [bitAt_of_length_le (by rwa [List.length_zipWith])]
    rcases Nat.le_total l.length l'.length with hle | hle
    · rw [bitAt_of_length_le (by omega : 8 * l.length ≤ j), Bool.false_and]
    · rw [bitAt_of_length_le (by omega : 8 * l'.length ≤ j), Bool.and_false]

/-- Two neighbouring bytes merged: the eight bits from the `o`-th on. -/
theorem byteBit_merge {i o : ℕ} (hr : r < 8) (ho : o ≤ 8) :
    byteBit (shl (l.getD i 0) o ||| shr (l.getD (i + 1) 0) (8 - o)) r = bitAt l (8 * i + r + o) := by
  rw [byteBit_or, byteBit_shl hr, byteBit_shr hr]
  rcases Nat.lt_or_ge (r + o) 8 with h | h
  · have hn : ¬8 - o ≤ r := by omega
    rw [Nat.add_assoc, bitAt_mul_add h]
    simp [h, hn]
  · have hn : ¬r + o < 8 := by omega
    have hle : 8 - o ≤ r := by omega
    rw [(by omega : 8 * i + r + o = 8 * (i + 1) + (r - (8 - o))), bitAt_mul_add (by omega)]
    simp [hn, hle]

/-- The bits of a number of low bits. -/
theorem byteBit_ofNat_ones {t : ℕ} (ht : t ≤ 8) (hr : r < 8) :
    byteBit (UInt8.ofNat (2 ^ t - 1)) r = decide (8 - t ≤ r) := by
  have hlt : 2 ^ t - 1 < 2 ^ 8 := by
    have := Nat.pow_le_pow_right (by omega : 0 < 2) ht
    have := Nat.two_pow_pos t
    omega
  rw [byteBit, UInt8.toNat_ofNat', Nat.mod_eq_of_lt hlt, Nat.testBit_two_pow_sub_one]
  exact decide_eq_decide.mpr (by omega)

end P4Bricks
