import P4Bricks.Parser.Helpers.BitCopy
import P4Bricks.Parser.Helpers.Reads
/-!
# The bits of a field

What `generic_extract` is for: the bits of the field, aligned to the right in whole
bytes, from no byte that has none of them. A field of at most eight bits that lies in
two bytes is not masked after its second byte was merged, and keeps the bits that are
in front of it; and a field of no bits at an offset has a byte read and written.
-/

namespace P4Bricks

namespace Parsing

/-- The bytes of `data` that hold the bits from `off` on, `w` of them. -/
def holding (data : ByteContainer) (off w : ℕ) : ByteContainer := data.take ((off + w + 7) / 8)

/-- **Exactly the field.** Whatever stands behind the bytes of the field is not read, the
destination is filled, and it has the field's bits after zeros. -/
def ExtractsField (data : ByteContainer) (off w : ℕ) : Prop :=
  ∃ bytes, genericExtract data off w = .ok bytes ∧
    genericExtract (holding data off w) off w = .ok bytes ∧
    bytes.length = (w + 7) / 8 ∧
    (∀ j < padding w, bitAt bytes j = false) ∧
    ∀ j < w, bitAt bytes (padding w + j) = bitAt data (off + j)

variable {data : ByteContainer} {off w : ℕ}

/-- There is nothing to copy, and the routine does not stop there. -/
theorem not_extractsField_empty (hw : w = 0) (hoff : off ≠ 0) : ¬ExtractsField data off w := by
  rintro ⟨bytes, hx, -, hlen, -⟩
  subst hw
  have hn : (0 + 7) / 8 = 0 := rfl
  simp only [genericExtract, hn, hoff, false_and, if_false, Nat.mul_zero, Nat.sub_self,
    Nat.pos_of_ne_zero hoff, if_true] at hx
  obtain ⟨init, -, hx⟩ := bind_eq_ok hx
  obtain ⟨last, -, hx⟩ := bind_eq_ok hx
  cases hx

/-- The bytes that are there are read alone. -/
theorem genericExtract_holding (hempty : w = 0 → off = 0) (hoff : off < 8)
    (hlen : off + w ≤ 8 * data.length) :
    ∃ bytes, genericExtract data off w = .ok bytes ∧
      genericExtract (holding data off w) off w = .ok bytes := by
  have hheld : off + w ≤ 8 * (holding data off w).length := by
    rw [holding, List.length_take]
    omega
  obtain ⟨bytes, hx, -⟩ := (genericExtract_returns hempty hlen).exists_ok
  obtain ⟨bytes', hx', -⟩ := (genericExtract_returns hempty hheld).exists_ok
  refine ⟨bytes, hx, ?_⟩
  obtain ⟨hlength, hbits⟩ := genericExtract_bits hx hoff
  obtain ⟨hlength', hbits'⟩ := genericExtract_bits hx' hoff
  -- Both have the same bits: none of them stands behind the field.
  have hsame : bytes' = bytes := by
    refine bitAt_ext (hlength'.trans hlength.symm) fun j hj => ?_
    have hpad : padding w = 8 * ((w + 7) / 8) - w := rfl
    rw [hbits j (by omega), hbits' j (by omega), Extracted, Extracted, holding,
      bitAt_take (by omega)]
  rw [← hsame]
  exact hx'

/-- **When `generic_extract` extracts the field**: there is a bit to extract, or no offset,
and if it is of one byte and lies in two, the bits in front of it that move there with it
are zero. -/
theorem extractsField_iff (hoff : off < 8) (hlen : off + w ≤ 8 * data.length) :
    ExtractsField data off w ↔ (w = 0 → off = 0) ∧
      ((w + 7) / 8 = 1 → padding w < off →
        ∀ j < padding w, bitAt data (off - padding w + j) = false) := by
  have hpad : padding w = 8 * ((w + 7) / 8) - w := rfl
  by_cases hempty : w = 0 → off = 0
  swap
  · rw [Classical.not_imp] at hempty
    refine iff_of_false (not_extractsField_empty hempty.1 hempty.2) fun h => ?_
    exact hempty.2 (h.1 hempty.1)
  rw [and_iff_right hempty]
  obtain ⟨bytes, hx, hx'⟩ := genericExtract_holding hempty hoff hlen
  obtain ⟨hlength, hbits⟩ := genericExtract_bits hx hoff
  have hfront : ∀ j < padding w, bitAt bytes j =
      (decide ((w + 7) / 8 = 1 ∧ padding w < off) && bitAt data (off + j - padding w)) := by
    intro j hj
    rw [hbits j (by omega), Extracted]
    simp [Nat.not_le.mpr hj]
  constructor
  · rintro ⟨bytes', hx'', -, -, hzero, -⟩ hone hlt j hj
    obtain rfl : bytes = bytes' := Except.ok.inj (hx.symm.trans hx'')
    have hbit := hzero j hj
    rw [hfront j hj, decide_eq_true ⟨hone, hlt⟩, Bool.true_and] at hbit
    rwa [(by omega : off - padding w + j = off + j - padding w)]
  · intro hclean
    refine ⟨bytes, hx, hx', hlength, fun j hj => ?_, fun j hj => ?_⟩
    · rw [hfront j hj]
      by_cases hmoved : (w + 7) / 8 = 1 ∧ padding w < off
      · have hbit := hclean hmoved.1 hmoved.2 j hj
        rw [(by omega : off + j - padding w = off - padding w + j), hbit, Bool.and_false]
      · rw [decide_eq_false hmoved, Bool.false_and]
    · rw [hbits (padding w + j) (by omega), Extracted, decide_eq_true (by omega), Bool.true_and]
      congr 1
      omega

/-- Ten bits from the fifth on. -/
theorem extractsField_tenBits : ExtractsField [0xFF, 0xFF] 5 10 :=
  (extractsField_iff (by decide) (by decide)).mpr ⟨by decide, by decide⟩

/-- Four bits that lie in two bytes come with those in front of them. -/
theorem straddling_unmasked : ¬ExtractsField [0xFF, 0xFF] 6 4 := by
  rintro ⟨bytes, hx, -, -, hzero, -⟩
  have hbytes : genericExtract [0xFF, 0xFF] 6 4 = .ok [0xFF] := rfl
  obtain rfl := Except.ok.inj (hbytes.symm.trans hx)
  exact absurd (hzero 0 (by decide)) (by decide)

end Parsing

end P4Bricks
