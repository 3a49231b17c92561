import P4Bricks.Common.BitDivision
import P4Bricks.Common.BitNumbers
import P4Bricks.Calculations.CrcTables
/-!
# Cyclic redundancy checks

`crc16` and `crc32` with their constant tables, and `crc_custom` with a configuration that
can be changed and the table computed for it. All three look up the byte that leaves the
remainder, one byte of the buffer after the other, and reflect the bytes on their way in and
the remainder on its way out where they are to. What they compute is the division of the
bits of the buffer by the polynomial.
-/

namespace P4Bricks

namespace Calculations

open Polynomial

/-- The types `crc_custom` is instantiated at. -/
inductive CrcType where
  | uint8 | uint16 | uint32 | uint64
  deriving DecidableEq, Repr

def CrcType.width : CrcType → ℕ
  | .uint8 => 8
  | .uint16 => 16
  | .uint32 => 32
  | .uint64 => 64

/-- `crc_config_t`. -/
structure CrcConfig (w : ℕ) where
  polynomial : BitVec w
  initialRemainder : BitVec w
  finalXorValue : BitVec w
  dataReflected : Bool
  remainderReflected : Bool
  deriving DecidableEq, Repr

variable {w : ℕ}

/-- One pass of the loop of `reflect`, over the data that is left and the reflection. -/
def reflectBit (nBits : ℕ) (s : BitVec w × BitVec w) (bit : ℕ) : BitVec w × BitVec w :=
  (s.1 >>> 1, if s.1 &&& 1#w ≠ 0#w then s.2 ||| 1#w <<< (nBits - 1 - bit) else s.2)

def reflect (data : BitVec w) (nBits : ℕ) : BitVec w :=
  ((List.range nBits).foldl (reflectBit nBits) (data, 0#w)).2

/-- One bit of the division in `recompute_crc_table`. -/
def divideCurrent (polynomial remainder : BitVec w) : BitVec w :=
  if remainder &&& 1#w <<< (w - 1) ≠ 0#w then remainder <<< 1 ^^^ polynomial
  else remainder <<< 1

def recomputeCrcTable (newConfig : CrcConfig w) : List (BitVec w) :=
  (List.range 256).map fun dividend =>
    (divideCurrent newConfig.polynomial)^[8] (BitVec.ofNat w dividend <<< (w - 8))

/-- The loop over the buffer, with the table and what is made of a byte. -/
def tableLoop (table : List (BitVec w)) (byteOf : UInt8 → BitVec w) (remainder : BitVec w) :
    ByteContainer → Option (BitVec w)
  | [] => some remainder
  | b :: buf => do
    let data := byteOf b ^^^ remainder >>> (w - 8)
    let entry ← table[data.toNat]?
    tableLoop table byteOf (entry ^^^ remainder <<< 8) buf

/-- `crc16`; a `char` is signed when it is converted. -/
def crc16 (buf : ByteContainer) : Option (BitVec 16) := do
  let remainder ← tableLoop tableCrc16
    (fun b => reflect ((BitVec.ofNat 8 b.toNat).signExtend 16) 8) 0x0000#16 buf
  some (reflect remainder 16 ^^^ 0x0000#16)

def crc32 (buf : ByteContainer) : Option (BitVec 32) := do
  let remainder ← tableLoop tableCrc32
    (fun b => reflect ((BitVec.ofNat 8 b.toNat).signExtend 32) 8) 0xFFFFFFFF#32 buf
  some (reflect remainder 32 ^^^ 0xFFFFFFFF#32)

/-- `crc_custom_init`. -/
def crcCustomInit : (T : CrcType) → CrcConfig T.width
  | .uint8 => ⟨0x07#8, 0x00#8, 0x00#8, false, false⟩
  | .uint16 => ⟨0x8005#16, 0x0000#16, 0x0000#16, true, true⟩
  | .uint32 => ⟨0x04c11db7#32, 0xffffffff#32, 0xffffffff#32, true, true⟩
  | .uint64 => ⟨0x1b#64, 0#64, 0#64, true, true⟩

/-- A `crc_custom`: the table is the one of the configuration. -/
structure CrcCustom (w : ℕ) where
  config : CrcConfig w
  crcTable : List (BitVec w)
  computed : crcTable = recomputeCrcTable config

namespace CrcCustom

def new (T : CrcType) : CrcCustom T.width := ⟨crcCustomInit T, _, rfl⟩

/-- The byte that goes into the remainder. -/
def byteOf (c : CrcCustom w) (b : UInt8) : BitVec w :=
  if c.config.dataReflected then reflect (BitVec.ofNat w b.toNat) 8 else BitVec.ofNat w b.toNat

/-- `operator()`. -/
def apply (c : CrcCustom w) (buf : ByteContainer) : Option (BitVec w) := do
  let remainder ← tableLoop c.crcTable c.byteOf c.config.initialRemainder buf
  some (if c.config.remainderReflected then reflect remainder w ^^^ c.config.finalXorValue
    else remainder ^^^ c.config.finalXorValue)

end CrcCustom

/-! ## The division, bit by bit -/

/-- The bits of a byte in the order in which they are divided. -/
def dividedBits (reflected : Bool) (b : UInt8) : List Bool :=
  if reflected then (byteBits b).reverse else byteBits b

/-- The remainder of the whole message. -/
def CrcConfig.remainder (c : CrcConfig w) (message : ByteContainer) : BitVec w :=
  divide c.polynomial c.initialRemainder (message.flatMap (dividedBits c.dataReflected))

/-- The check of a message. -/
def CrcConfig.check (c : CrcConfig w) (message : ByteContainer) : BitVec w :=
  (if c.remainderReflected then (c.remainder message).reverse else c.remainder message) ^^^
    c.finalXorValue

theorem dividedBits_length (reflected : Bool) (b : UInt8) : (dividedBits reflected b).length = 8 := by
  cases reflected <;> simp [dividedBits]

/-! ## Reflections -/

theorem and_bit_ne_zero (x : BitVec w) {k : ℕ} (hk : k < w) :
    x &&& 1#w <<< k ≠ 0#w ↔ x.getLsbD k = true := by
  have hbit : BitVec.twoPow w k ≠ 0#w := by
    intro hzero
    have hget := congrArg (fun y => BitVec.getLsbD y k) hzero
    simp [hk] at hget
  rw [← BitVec.twoPow_eq, BitVec.and_twoPow]
  split <;> simp_all

/-- After `k` passes the low `k` bits have gone to the top of the reflection. -/
theorem reflectBits_eq (hw : 0 < w) (data : BitVec w) {nBits k : ℕ} (hk : k ≤ nBits) :
    ((List.range k).foldl (reflectBit nBits) (data, 0#w)).1 = data >>> k ∧
      ∀ i, ((List.range k).foldl (reflectBit nBits) (data, 0#w)).2.getLsbD i =
        (decide (i < w) && decide (i < nBits ∧ nBits ≤ i + k) &&
          data.getLsbD (nBits - 1 - i)) := by
  induction k with
  | zero =>
    refine ⟨by simp, ?_⟩
    intro i
    have hnone : ¬ (i < nBits ∧ nBits ≤ i + 0) := by omega
    rw [decide_eq_false hnone]
    simp
  | succ k ih =>
    obtain ⟨hdata, hbits⟩ := ih (by omega)
    rw [List.range_succ, List.foldl_append, List.foldl_cons, List.foldl_nil]
    generalize (List.range k).foldl (reflectBit nBits) (data, 0#w) = s at hdata hbits ⊢
    have hlow := and_bit_ne_zero (data >>> k) hw
    rw [BitVec.shiftLeft_zero, BitVec.getLsbD_ushiftRight, Nat.add_zero] at hlow
    refine ⟨by rw [reflectBit, hdata, ← BitVec.shiftRight_add], ?_⟩
    intro i
    have hnext : (reflectBit nBits s k).2.getLsbD i =
        (s.2.getLsbD i || (data.getLsbD k && (decide (i < w) && decide (nBits - 1 - k = i)))) := by
      rw [reflectBit, hdata]
      by_cases hset : data.getLsbD k = true
      · rw [if_pos (hlow.mpr hset), BitVec.getLsbD_or, ← BitVec.twoPow_eq,
          BitVec.getLsbD_twoPow, hset, Bool.true_and]
        congr 1
        by_cases hi : nBits - 1 - k = i
        · rw [hi]
        · simp [hi]
      · rw [if_neg (fun h => hset (hlow.mp h))]
        simp [hset]
    rw [hnext, hbits i]
    -- bit `i` of the reflection is the one written in this pass, or it was there before
    rcases Nat.lt_trichotomy (i + k + 1) nBits with hlt | heq | hgt
    · have hold : ¬ (i < nBits ∧ nBits ≤ i + k) := by omega
      have hnew : ¬ (i < nBits ∧ nBits ≤ i + (k + 1)) := by omega
      have hne : ¬ nBits - 1 - k = i := by omega
      rw [decide_eq_false hold, decide_eq_false hnew, decide_eq_false hne]
      simp
    · have hold : ¬ (i < nBits ∧ nBits ≤ i + k) := by omega
      have hnew : i < nBits ∧ nBits ≤ i + (k + 1) := by omega
      have hi : nBits - 1 - k = i := by omega
      have hi' : nBits - 1 - i = k := by omega
      rw [decide_eq_false hold, decide_eq_true hnew, decide_eq_true hi, hi']
      simp [Bool.and_comm]
    · have hne : ¬ nBits - 1 - k = i := by omega
      have hiff : (i < nBits ∧ nBits ≤ i + k) ↔ (i < nBits ∧ nBits ≤ i + (k + 1)) := by omega
      simp only [hiff, hne, decide_false, Bool.and_false, Bool.or_false]

theorem getLsbD_reflect (hw : 0 < w) (data : BitVec w) (nBits i : ℕ) :
    (reflect data nBits).getLsbD i =
      (decide (i < w) && decide (i < nBits) && data.getLsbD (nBits - 1 - i)) := by
  have hiff : (i < nBits ∧ nBits ≤ i + nBits) ↔ i < nBits := by omega
  rw [reflect, (reflectBits_eq hw data (Nat.le_refl nBits)).2 i, decide_eq_decide.mpr hiff]

/-- **A word reflected about its center** is the word read backwards. -/
theorem reflect_width (hw : 0 < w) (data : BitVec w) : reflect data w = data.reverse := by
  apply BitVec.eq_of_getLsbD_eq
  intro i hi
  rw [getLsbD_reflect hw, BitVec.getLsbD_reverse, BitVec.getMsbD]
  simp [hi]

theorem reverse_byteBits_getD (b : UInt8) (i : ℕ) :
    (byteBits b).reverse.getD i false = (decide (i < 8) && b.toNat.testBit i) := by
  have hlen : (byteBits b).reverse.length = 8 := by simp
  by_cases hi : i < 8
  · have hback : 8 - 1 - (8 - 1 - i) = i := by omega
    rw [List.getD_eq_getElem _ _ (by omega), List.getElem_reverse]
    simp only [byteBits, natBits_eq, List.length_map, List.length_range, List.getElem_map,
      List.getElem_range, hback, hi, decide_true, Bool.true_and]
  · rw [List.getD_eq_default _ _ (by omega)]
    simp [hi]

theorem byteBits_getD (b : UInt8) (i : ℕ) :
    (byteBits b).getD i false = (decide (i < 8) && b.toNat.testBit (7 - i)) := by
  have hlen := byteBits_length b
  by_cases hi : i < 8
  · rw [byteBits, natBits_eq]
    simp [hi]
  · rw [List.getD_eq_default _ _ (by omega)]
    simp [hi]

/-- What goes into the remainder for a byte holds the bits that are divided. -/
theorem holds_byte (hw : 8 ≤ w) (b : UInt8) :
    Holds (dividedBits false b) (BitVec.ofNat w b.toNat) := by
  intro i
  have hb : b.toNat < 2 ^ 8 := b.toNat_lt
  rw [dividedBits, if_neg (by decide), reverse_byteBits_getD, BitVec.getLsbD_ofNat]
  by_cases hi : i < 8
  · have hiw : i < w := by omega
    simp [hi, hiw]
  · have hpow : 2 ^ 8 ≤ 2 ^ i := Nat.pow_le_pow_right (by decide) (by omega)
    simp [hi, Nat.testBit_lt_two_pow (lt_of_lt_of_le hb hpow)]

/-- A reflected byte too, whatever lies above its low bits. -/
theorem holds_reflected (hw : 8 ≤ w) {b : UInt8} {data : BitVec w}
    (hdata : ∀ i < 8, data.getLsbD i = b.toNat.testBit i) :
    Holds (dividedBits true b) (reflect data 8) := by
  intro i
  rw [dividedBits, if_pos rfl, List.reverse_reverse, byteBits_getD,
    getLsbD_reflect (by omega)]
  by_cases hi : i < 8
  · have hiw : i < w := by omega
    rw [hdata _ (by omega)]
    simp [hi, hiw]
  · simp [hi]

/-! ## The tables -/

theorem divideCurrent_eq (hw : 0 < w) (polynomial remainder : BitVec w) :
    divideCurrent polynomial remainder = shiftStep polynomial remainder := by
  have hmsb := BitVec.msb_eq_getLsbD_last remainder
  have hbit := and_bit_ne_zero remainder (k := w - 1) (by omega)
  rw [← hmsb] at hbit
  unfold divideCurrent shiftStep
  split
  · rw [if_pos (hbit.mp ‹_›)]
  · rw [if_neg (fun h => ‹¬ _› (hbit.mpr h))]

theorem recomputeCrcTable_get (hw : 0 < w) (c : CrcConfig w) {n : ℕ} (hn : n < 256) :
    (recomputeCrcTable c)[n]? =
      some ((shiftStep c.polynomial)^[8] (BitVec.ofNat w n <<< (w - 8))) := by
  have hstep : divideCurrent c.polynomial = shiftStep c.polynomial :=
    funext fun r => divideCurrent_eq hw c.polynomial r
  simp [recomputeCrcTable, hstep, List.getElem?_range hn]

/-- **The loop divides**: with the table of the polynomial, and the bits of each byte. -/
theorem tableLoop_divides (hw : 8 ≤ w) (c : CrcConfig w) {byteOf : UInt8 → BitVec w}
    {bitsOf : UInt8 → List Bool} (hlen : ∀ b, (bitsOf b).length = 8)
    (hbyte : ∀ b, Holds (bitsOf b) (byteOf b)) (remainder : BitVec w) (buf : ByteContainer) :
    tableLoop (recomputeCrcTable c) byteOf remainder buf =
      some (divide c.polynomial remainder (buf.flatMap bitsOf)) := by
  induction buf generalizing remainder with
  | nil => rfl
  | cons b buf ih =>
    have hlt : (byteOf b ^^^ remainder >>> (w - 8)).toNat < 2 ^ 8 := by
      rw [BitVec.toNat_xor, BitVec.toNat_ushiftRight, Nat.shiftRight_eq_div_pow]
      refine Nat.xor_lt_two_pow ?_ ?_
      · refine Nat.lt_pow_two_of_testBit _ fun i hi => ?_
        rw [BitVec.testBit_toNat, hbyte b i, List.getD_eq_default _ _ (by simp [hlen b, hi])]
      · have hr := remainder.isLt
        have hsplit : 2 ^ w = 2 ^ (w - 8) * 2 ^ 8 := by rw [← pow_add, Nat.sub_add_cancel hw]
        exact Nat.div_lt_of_lt_mul (by omega)
    have hget := recomputeCrcTable_get (by omega) c hlt
    rw [BitVec.ofNat_toNat, BitVec.setWidth_eq] at hget
    rw [tableLoop, List.flatMap_cons, divide_append, divide_byte (hbyte b) (hlen b) hw]
    simp only [hget, Option.bind_eq_bind, Option.bind_some]
    exact ih _

/-! ## The checks -/

theorem tableCrc16_eq : tableCrc16 = recomputeCrcTable (w := 16) (crcCustomInit .uint16) := by
  decide +kernel

theorem tableCrc32_eq : tableCrc32 = recomputeCrcTable (w := 32) (crcCustomInit .uint32) := by
  decide +kernel

/-- The loop of the two fixed checks, whose bytes are reflected after they were extended. -/
theorem fixedLoop_divides (hw : 8 ≤ w) {c : CrcConfig w} (hc : c.dataReflected = true)
    (buf : ByteContainer) :
    tableLoop (recomputeCrcTable c) (fun b => reflect ((BitVec.ofNat 8 b.toNat).signExtend w) 8)
      c.initialRemainder buf = some (c.remainder buf) := by
  rw [tableLoop_divides hw c (dividedBits_length true), CrcConfig.remainder, hc]
  intro b
  refine holds_reflected hw fun i hi => ?_
  have hiw : i < w := by omega
  rw [BitVec.getLsbD_signExtend, if_pos hi, BitVec.getLsbD_ofNat, decide_eq_true hiw,
    decide_eq_true hi, Bool.true_and, Bool.true_and]

/-- **A custom check divides**, whatever its configuration. -/
theorem CrcCustom.apply_eq (hw : 8 ≤ w) (c : CrcCustom w) (buf : ByteContainer) :
    c.apply buf = some (c.config.check buf) := by
  have hloop : tableLoop c.crcTable c.byteOf c.config.initialRemainder buf =
      some (c.config.remainder buf) := by
    rw [c.computed]
    refine tableLoop_divides hw c.config (dividedBits_length c.config.dataReflected) ?_ _ _
    intro b
    unfold CrcCustom.byteOf
    cases c.config.dataReflected
    · exact holds_byte hw b
    · refine holds_reflected hw fun i hi => ?_
      have hiw : i < w := by omega
      rw [BitVec.getLsbD_ofNat, decide_eq_true hiw, Bool.true_and]
  simp only [CrcCustom.apply, hloop, Option.bind_eq_bind, Option.bind_some]
  unfold CrcConfig.check
  cases c.config.remainderReflected
  · rfl
  · simp only [if_true, reflect_width (by omega : 0 < w)]

/-- The remainder and the mask that `crc16` starts and ends with are those of the default
configuration. -/
theorem crc16_eq (buf : ByteContainer) :
    crc16 buf = some (CrcConfig.check (w := 16) (crcCustomInit .uint16) buf) := by
  have hloop := fixedLoop_divides (w := 16) (by decide) (c := crcCustomInit .uint16) rfl buf
  have hinit : 0x0000#16 = (crcCustomInit .uint16).initialRemainder := rfl
  rw [← tableCrc16_eq, ← hinit] at hloop
  rw [crc16, hloop]
  exact congrArg (fun r => some (r ^^^ 0x0000#16)) (reflect_width (by decide) _)

theorem crc32_eq (buf : ByteContainer) :
    crc32 buf = some (CrcConfig.check (w := 32) (crcCustomInit .uint32) buf) := by
  have hloop := fixedLoop_divides (w := 32) (by decide) (c := crcCustomInit .uint32) rfl buf
  have hinit : 0xFFFFFFFF#32 = (crcCustomInit .uint32).initialRemainder := rfl
  rw [← tableCrc32_eq, ← hinit] at hloop
  rw [crc32, hloop]
  exact congrArg (fun r => some (r ^^^ 0xFFFFFFFF#32)) (reflect_width (by decide) _)

/-- The check of the nine digits. -/
example : crc32 [0x31, 0x32, 0x33, 0x34, 0x35, 0x36, 0x37, 0x38, 0x39] = some 0xCBF43926#32 := by
  decide +kernel

/-- **The checks divide by the polynomial.** For each type and configuration `crc_custom` is
the division of the message bit by bit, its remainder is the one of polynomials, and with the
configuration it starts with it is the fixed check of its width. -/
theorem crcCustom_divides (T : CrcType) (c : CrcCustom T.width) (buf : ByteContainer) :
    c.apply buf = some (c.config.check buf) ∧
      toPoly (c.config.remainder buf) =
        (toPoly c.config.initialRemainder * X ^ (8 * buf.length) +
          bitsPoly (buf.flatMap (dividedBits c.config.dataReflected)) * X ^ T.width) %ₘ
          divisor c.config.polynomial ∧
      (CrcCustom.new .uint16).apply buf = crc16 buf ∧
      (CrcCustom.new .uint32).apply buf = crc32 buf := by
  have hw : ∀ T : CrcType, 8 ≤ T.width := by
    intro T
    cases T <;> decide
  refine ⟨c.apply_eq (hw T) buf, ?_, ?_, ?_⟩
  · have hlen : (buf.flatMap (dividedBits c.config.dataReflected)).length = 8 * buf.length := by
      simp [List.length_flatMap, dividedBits_length, Nat.mul_comm]
    have hw0 := hw T
    rw [CrcConfig.remainder, toPoly_divide (by omega), hlen]
  · exact ((CrcCustom.new .uint16).apply_eq (hw _) buf).trans (crc16_eq buf).symm
  · exact ((CrcCustom.new .uint32).apply_eq (hw _) buf).trans (crc32_eq buf).symm

end Calculations

end P4Bricks
