import P4Bricks.Common.BitNumbers
import P4Bricks.Common.Runs
import P4Bricks.Parser.Helpers.BitCopy
import P4Bricks.Phv.Factory
/-!
# The number and the bytes of a field

A field of fixed width, with `arith`, goes through assignments, the operations
of `Data`, extractions and `set_bytes`. It should hold the result of each of
them, brought into its width, as a number in its range and as the bytes of
this number in two's complement.

Four things stand in the way. A signed field that does not saturate keeps a
number between its maximum and its mask as it is. `two_comp_mod` changes the
number and not the bytes. `set_bytes` takes the bits in front of the field's
width as they come. And a field of one byte that is extracted from further
right gets the bits before it from the packet. A run in which none of this happens
keeps the field right, and only such a run does.
-/

namespace P4Bricks

namespace Field

open Parsing

variable {f f' : Field} {x : ℤ}

/-! ## What a field should hold -/

/-- The number that `nbits` bits stand for. -/
def reading (f : Field) (bits : ℕ) : ℤ :=
  if f.isSigned ∧ bits.testBit (f.nbits - 1) then bits - 2 ^ f.nbits else bits

/-- The field holds one value: a number in its range, and its bytes in two's
complement. -/
@[mk_iff] structure Encoded (f : Field) : Prop where
  lower : f.min ≤ f.value
  upper : f.value ≤ f.max
  bytes : f.bytes = natBytes f.nbytes (f.value % 2 ^ f.nbits).toNat

/-- It is the value that comes of the exact result `x`. -/
@[mk_iff] structure Holds (f : Field) (x : ℤ) : Prop extends Encoded f where
  clamped : f.isSaturating = true → f.value = Max.max f.min (Min.min x f.max)
  reduced : f.isSaturating = false → f.value % 2 ^ f.nbits = x % 2 ^ f.nbits

/-- The assignments of a value, the operations of `Data` on any operands, and
the ways bytes get into the field. A header's bit offset is one in a byte. -/
inductive ValueOp where
  | set (v : ℤ)
  | arith (op : Expressions.ArithOp) (l r : Data)
  | bitNeg (d : Data)
  | extract (data : ByteContainer) (hdrOffset : Fin 8)
  | setBytes (src : ByteContainer)
  deriving DecidableEq, Repr

namespace ValueOp

variable (env : Expressions.Env)

/-- The exact result of an operation, if it has one. -/
def exact (f : Field) : ValueOp → Option ℤ
  | .set v => some v
  | .arith op l r => op.eval env l r
  | .bitNeg d => Expressions.negBits d
  | .extract data off =>
    some (f.reading (bitsVal ((List.range f.nbits).map fun i => bitAt data (off + i))))
  | .setBytes src => some (f.reading (bytesVal src % 2 ^ f.nbits))

/-- `Field::set_bytes`. -/
def setBytesOf (f : Field) (src : ByteContainer) : Option Field :=
  if src.length = f.nbytes then
    let f := { f with bytes := src }
    some (if f.arith then f.syncValue else f)
  else none

/-- One operation. All those of `Data` export the bytes, but `two_comp_mod`. -/
def step (f : Field) : ValueOp → Option Field
  | .set v => f.set v
  | .arith op l r =>
    if op = .twoCompMod then (op.eval env l r).map fun v => { f with value := v }
    else (op.eval env l r).bind f.set
  | .bitNeg d => (Expressions.negBits d).bind f.set
  | .extract data off => (f.extract data off).toOption
  | .setBytes src => setBytesOf f src

/-- A result that a signed field does not bring into its range. -/
def Fits (f : Field) (x : ℤ) : Prop :=
  ¬(f.isSigned = true ∧ f.isSaturating = false ∧ f.max < x ∧ x ≤ f.mask)

instance (f : Field) (x : ℤ) : Decidable (Fits f x) := inferInstanceAs (Decidable ¬_)

/-- What has to be for the operation to leave its result in the field. -/
def Meets (f : Field) : ValueOp → Prop
  | .set v => Fits f v
  | .arith op l r =>
    ∀ v ∈ op.eval env l r, if op = .twoCompMod then f.value = v else Fits f v
  | .bitNeg d => Fits f d.value.not
  | .extract data off =>
    f.nbytes = 1 → padding f.nbits < off →
      ∀ j < padding f.nbits, bitAt data (off + j - padding f.nbits) = false
  | .setBytes src => bytesVal src < 2 ^ f.nbits

instance (f : Field) : (op : ValueOp) → Decidable (Meets env f op)
  | .set v => inferInstanceAs (Decidable (Fits f v))
  | .arith op l r => inferInstanceAs (Decidable (∀ v ∈ op.eval env l r, _))
  | .bitNeg _ => inferInstanceAs (Decidable (Fits f _))
  | .extract _ _ => inferInstanceAs (Decidable (_ → _ → ∀ j < padding f.nbits, _ = false))
  | .setBytes src => inferInstanceAs (Decidable (bytesVal src < 2 ^ f.nbits))

/-- The operation leaves its result, if it returns. -/
def Right (f : Field) (op : ValueOp) : Prop :=
  ∀ f', step env f op = some f' → ∃ x, op.exact env f = some x ∧ f'.Holds x

end ValueOp

/-- A field of fixed width with `arith`, and one value. -/
structure Sound (f : Field) : Prop extends Encoded f where
  fixed : f.vlMask = none
  arith : f.arith = true
  wide : f.isSigned = true → 1 < f.nbits

/-! ## Bounds -/

theorem mask_eq (hf : f.vlMask = none) : f.mask = 2 ^ f.nbits - 1 := by
  rw [mask, hf]
  rfl

/-- The bounds of a signed field, by half the number of its values. -/
theorem signed_bounds (hf : f.vlMask = none) (hs : f.isSigned = true) (hw : 1 < f.nbits) :
    ∃ half : ℤ, 1 < half ∧ (2 : ℤ) ^ f.nbits = 2 * half ∧ f.min = -half ∧ f.max = half - 1 ∧
      f.mask = 2 * half - 1 := by
  obtain ⟨n, hn⟩ : ∃ n, f.nbits = n + 2 := ⟨f.nbits - 2, by omega⟩
  have hpow : (2 : ℤ) ^ f.nbits = 2 * 2 ^ (f.nbits - 1) := by
    rw [hn, (by omega : n + 2 - 1 = n + 1), pow_succ' 2 (n + 1)]
  have hhalf : (1 : ℤ) < 2 ^ (f.nbits - 1) := one_lt_pow₀ (by norm_num) (by omega)
  refine ⟨2 ^ (f.nbits - 1), hhalf, hpow, by simp [min, hs], by simp [max, hs], ?_⟩
  rw [mask_eq hf, hpow]

theorem unsigned_bounds (hf : f.vlMask = none) (hs : f.isSigned = false) :
    f.min = 0 ∧ f.max = 2 ^ f.nbits - 1 := by
  constructor
  · simp [min, hs]
  · simp [max, hs, mask_eq hf]

/-- The range of a field has no two values that its width does not tell apart. -/
theorem eq_of_emod (hf : f.vlMask = none) (hw : f.isSigned = true → 1 < f.nbits) {v w : ℤ}
    (hv : f.min ≤ v ∧ v ≤ f.max) (hw' : f.min ≤ w ∧ w ≤ f.max)
    (h : v % 2 ^ f.nbits = w % 2 ^ f.nbits) : v = w := by
  have hdvd : (2 : ℤ) ^ f.nbits ∣ v - w := Int.dvd_of_emod_eq_zero (Int.emod_eq_emod_iff_emod_sub_eq_zero.mp h)
  have hspan : f.max - f.min < 2 ^ f.nbits := by
    rcases hs : f.isSigned with _ | _
    · obtain ⟨hmin, hmax⟩ := unsigned_bounds hf hs
      omega
    · obtain ⟨half, h1, hpow, hmin, hmax, -⟩ := signed_bounds hf hs (hw hs)
      omega
  have habs : |v - w| < 2 ^ f.nbits := abs_lt.mpr ⟨by omega, by omega⟩
  have hzero := Int.eq_zero_of_abs_lt_dvd hdvd habs
  omega

/-- A number in the range is written as the value modulo the width. -/
theorem exported_eq (hf : f.vlMask = none) (hw : f.isSigned = true → 1 < f.nbits) {v : ℤ}
    (hmin : f.min ≤ v) (hmax : v ≤ f.max) :
    (if 0 ≤ v then v else v - f.min - f.min) = v % 2 ^ f.nbits := by
  rcases hs : f.isSigned with _ | _
  · obtain ⟨hmin', hmax'⟩ := unsigned_bounds hf hs
    rw [if_pos (by omega), Int.emod_eq_of_lt (by omega) (by omega)]
  · obtain ⟨half, h1, hpow, hmin', hmax', -⟩ := signed_bounds hf hs (hw hs)
    split_ifs with h0
    · rw [Int.emod_eq_of_lt h0 (by omega)]
    · rw [← Int.add_emod_right, Int.emod_eq_of_lt (by omega) (by omega)]
      omega

/-! ## Assignments -/

theorem nbits_le (f : Field) : f.nbits ≤ 8 * f.nbytes := by
  rw [nbytes]
  omega

theorem saturate_eq (hsat : f.isSaturating = true) (hle : f.min ≤ f.max) :
    f.saturate x = Max.max f.min (Min.min x f.max) := by
  rw [saturate, if_pos hsat]
  split_ifs <;> omega

/-- What is not saturated is reduced by the width. -/
theorem wrap_unsigned (hf : f.vlMask = none) (hs : f.isSigned = false) :
    f.wrap x = f.saturate x % 2 ^ f.nbits := by
  simp [wrap, hs, isVL, hf]

theorem wrap_signed (hs : f.isSigned = true) :
    f.wrap x = if f.saturate x < f.min ∨ f.saturate x > f.mask then
      if f.saturate x % 2 ^ f.nbits > f.max then f.saturate x % 2 ^ f.nbits - (f.mask + 1)
      else f.saturate x % 2 ^ f.nbits
    else f.saturate x := by
  simp [wrap, hs]

/-- **What `export_bytes` makes of a value** that it brings into the range. -/
theorem wrap_spec (hf : f.vlMask = none) (hw : f.isSigned = true → 1 < f.nbits)
    (hfits : ValueOp.Fits f x) :
    f.min ≤ f.wrap x ∧ f.wrap x ≤ f.max ∧
      (f.isSaturating = true → f.wrap x = Max.max f.min (Min.min x f.max)) ∧
      (f.isSaturating = false → f.wrap x % 2 ^ f.nbits = x % 2 ^ f.nbits) := by
  have hpos : (0 : ℤ) < 2 ^ f.nbits := by positivity
  rcases hsat : f.isSaturating with _ | _
  · -- The value is reduced by the width.
    have hkeep : f.saturate x = x := by simp [saturate, hsat]
    have h0 := Int.emod_nonneg x hpos.ne'
    have hlt := Int.emod_lt_of_pos x hpos
    rcases hs : f.isSigned with _ | _
    · obtain ⟨hmin, hmax⟩ := unsigned_bounds hf hs
      rw [wrap_unsigned hf hs, hkeep]
      exact ⟨by omega, by omega, nofun, fun _ => Int.emod_emod_of_dvd x dvd_rfl⟩
    · obtain ⟨half, h1, hpow, hmin, hmax, hmask⟩ := signed_bounds hf hs (hw hs)
      have habove : ¬(f.max < x ∧ x ≤ f.mask) := fun h => hfits ⟨hs, hsat, h⟩
      rw [wrap_signed hs, hkeep]
      split_ifs with hout hhigh
      · have hreduced : (x % 2 ^ f.nbits - (f.mask + 1)) % 2 ^ f.nbits = x % 2 ^ f.nbits := by
          rw [(by omega : f.mask + 1 = 2 ^ f.nbits), Int.sub_emod_right, Int.emod_emod_of_dvd x dvd_rfl]
        exact ⟨by omega, by omega, nofun, fun _ => hreduced⟩
      · exact ⟨by omega, by omega, nofun, fun _ => Int.emod_emod_of_dvd x dvd_rfl⟩
      · exact ⟨by omega, by omega, nofun, fun _ => rfl⟩
  · -- The value is in the range before it is reduced.
    rcases hs : f.isSigned with _ | _
    · obtain ⟨hmin, hmax⟩ := unsigned_bounds hf hs
      have hclamp := saturate_eq (x := x) hsat (by omega)
      rw [wrap_unsigned hf hs, Int.emod_eq_of_lt (by omega) (by omega)]
      exact ⟨by omega, by omega, fun _ => hclamp, nofun⟩
    · obtain ⟨half, h1, hpow, hmin, hmax, hmask⟩ := signed_bounds hf hs (hw hs)
      have hclamp := saturate_eq (x := x) hsat (by omega)
      rw [wrap_signed hs, if_neg (by omega)]
      exact ⟨by omega, by omega, fun _ => hclamp, nofun⟩

/-- A value above the range of a signed field, up to the mask, is left as it is. -/
theorem wrap_of_not_fits (hf : f.vlMask = none) (hw : f.isSigned = true → 1 < f.nbits)
    (hfits : ¬ValueOp.Fits f x) : f.wrap x = x := by
  obtain ⟨hs, hsat, habove, hle⟩ := not_not.mp hfits
  obtain ⟨half, h1, hpow, hmin, hmax, hmask⟩ := signed_bounds hf hs (hw hs)
  have hkeep : f.saturate x = x := by simp [saturate, hsat]
  rw [wrap_signed hs, hkeep, if_neg (by omega)]

/-- What `export_bytes` leaves is not beyond the mask. -/
theorem wrap_bounds (hf : f.vlMask = none) (hw : f.isSigned = true → 1 < f.nbits) (x : ℤ) :
    f.min ≤ f.wrap x ∧ f.wrap x ≤ f.mask := by
  have hpos : (0 : ℤ) < 2 ^ f.nbits := by positivity
  have h0 := Int.emod_nonneg (f.saturate x) hpos.ne'
  have hlt := Int.emod_lt_of_pos (f.saturate x) hpos
  have hmask := mask_eq hf
  rcases hs : f.isSigned with _ | _
  · obtain ⟨hmin, -⟩ := unsigned_bounds hf hs
    rw [wrap_unsigned hf hs]
    exact ⟨by omega, by omega⟩
  · obtain ⟨half, h1, hpow, hmin, hmax, -⟩ := signed_bounds hf hs (hw hs)
    rw [wrap_signed hs]
    split_ifs <;> constructor <;> omega

/-- **A field of fixed width has room for every number.** -/
theorem set_fixed (hf : f.vlMask = none) (hw : f.isSigned = true → 1 < f.nbits) (x : ℤ) :
    f.set x = some (f.put x) := by
  obtain ⟨hlower, hupper⟩ := wrap_bounds hf hw x
  have hmask := mask_eq hf
  have hwritten : f.written (f.wrap x) < 2 ^ f.nbits := by
    zify
    rw [written, Int.natCast_natAbs]
    rcases hs : f.isSigned with _ | _
    · obtain ⟨hmin, -⟩ := unsigned_bounds hf hs
      rw [if_pos (by omega), abs_of_nonneg (by omega)]
      omega
    · obtain ⟨half, h1, hpow, hmin, -, -⟩ := signed_bounds hf hs (hw hs)
      rw [abs_of_nonneg (by split_ifs <;> omega)]
      split_ifs <;> omega
  have hroom : f.written (f.wrap x) < 256 ^ f.nbytes := by
    refine hwritten.trans_le ?_
    rw [(by norm_num : (256 : ℕ) = 2 ^ 8), ← pow_mul]
    exact Nat.pow_le_pow_right (by omega) f.nbits_le
  exact if_pos hroom

theorem holds_put (hf : f.vlMask = none) (hw : f.isSigned = true → 1 < f.nbits) :
    (f.put x).Holds x ↔ ValueOp.Fits f x := by
  constructor
  · intro hholds hfits
    have hvalue : (f.put x).value = x := wrap_of_not_fits hf hw fun h => h hfits
    have hupper : (f.put x).value ≤ f.max := hholds.upper
    have habove := hfits.2.2.1
    omega
  · intro hfits
    obtain ⟨hmin, hmax, hclamped, hreduced⟩ := wrap_spec hf hw hfits
    have hspare : ({ f with value := x } : Field).spare = 0 := spare_of_fixed (by simp [isVL, hf])
    have hwritten : f.written (f.wrap x) = (f.wrap x % 2 ^ f.nbits).toNat := by
      rw [written, exported_eq hf hw hmin hmax]
      have h0 : 0 ≤ f.wrap x % 2 ^ f.nbits := Int.emod_nonneg _ (by positivity)
      omega
    have hbytes : (f.put x).bytes = natBytes f.nbytes (f.wrap x % 2 ^ f.nbits).toNat := by
      rw [← hwritten, put, exported, hspare, List.replicate_zero, List.append_nil]
      rfl
    exact ⟨⟨hmin, hmax, hbytes⟩, hclamped, hreduced⟩

/-! ## Bytes -/

/-- The bytes tell apart the values in the range. -/
theorem eq_of_natBytes (hf : f.vlMask = none) (hw : f.isSigned = true → 1 < f.nbits) {v w : ℤ}
    (hv : f.min ≤ v ∧ v ≤ f.max) (hw' : f.min ≤ w ∧ w ≤ f.max)
    (h : natBytes f.nbytes (v % 2 ^ f.nbits).toNat = natBytes f.nbytes (w % 2 ^ f.nbits).toNat) :
    v = w := by
  have hpos : (0 : ℤ) < 2 ^ f.nbits := by positivity
  have hroom : ∀ u : ℤ, (u % 2 ^ f.nbits).toNat < 2 ^ (8 * f.nbytes) := by
    intro u
    have hlt : (u % 2 ^ f.nbits).toNat < 2 ^ f.nbits := by
      zify
      rw [Int.toNat_of_nonneg (Int.emod_nonneg _ hpos.ne')]
      exact Int.emod_lt_of_pos u hpos
    exact hlt.trans_le (Nat.pow_le_pow_right (by omega) f.nbits_le)
  have hnat := natBytes_inj (hroom v) (hroom w) h
  have hv₀ := Int.emod_nonneg v hpos.ne'
  have hw₀ := Int.emod_nonneg w hpos.ne'
  exact eq_of_emod hf hw hv hw' (by omega)

theorem reading_unsigned (hs : f.isSigned = false) (bits : ℕ) : f.reading bits = bits := by
  simp [reading, hs]

/-- The sign of a number is read from how often the half of the values goes into it. -/
theorem reading_signed (hs : f.isSigned = true) {half : ℤ} (hmax : f.max = half - 1) (bits : ℕ) :
    ∃ q r : ℕ, (bits : ℤ) = half * q + r ∧ (r : ℤ) < half ∧
      f.reading bits = if q % 2 = 1 then (bits : ℤ) - 2 ^ f.nbits else bits := by
  have hhalf : half = ((2 ^ (f.nbits - 1) : ℕ) : ℤ) := by
    rw [max, if_pos hs] at hmax
    push_cast
    omega
  refine ⟨bits / 2 ^ (f.nbits - 1), bits % 2 ^ (f.nbits - 1), ?_, ?_, ?_⟩
  · rw [hhalf]
    exact_mod_cast (Nat.div_add_mod bits (2 ^ (f.nbits - 1))).symm
  · rw [hhalf]
    exact_mod_cast Nat.mod_lt bits (by positivity)
  · simp [reading, hs, Nat.testBit_eq_decide_div_mod_eq]

theorem reading_emod (f : Field) (bits : ℕ) :
    f.reading bits % 2 ^ f.nbits = (bits : ℤ) % 2 ^ f.nbits := by
  rw [reading]
  split_ifs
  · exact Int.sub_emod_right _ _
  · rfl

/-- Bits of the field's width are read in its range, -/
theorem reading_range (hf : f.vlMask = none) (hw : f.isSigned = true → 1 < f.nbits) {bits : ℕ}
    (hlt : bits < 2 ^ f.nbits) : f.min ≤ f.reading bits ∧ f.reading bits ≤ f.max := by
  have hltZ : (bits : ℤ) < 2 ^ f.nbits := by exact_mod_cast hlt
  rcases hs : f.isSigned with _ | _
  · obtain ⟨hmin, hmax⟩ := unsigned_bounds hf hs
    rw [reading_unsigned hs]
    exact ⟨by omega, by omega⟩
  · obtain ⟨half, h1, hpow, hmin, hmax, -⟩ := signed_bounds hf hs (hw hs)
    obtain ⟨q, r, hbits, hr, hread⟩ := reading_signed hs hmax bits
    have hq : q < 2 := by
      by_contra hge
      have hq2 : half * 2 ≤ half * q := by gcongr; omega
      omega
    rw [hread]
    rcases (by omega : q = 0 ∨ q = 1) with rfl | rfl
    · rw [if_neg (by omega)]
      exact ⟨by omega, by omega⟩
    · rw [if_pos (by omega)]
      exact ⟨by omega, by omega⟩

/-- and those that go beyond it are read above the range. -/
theorem reading_above (hf : f.vlMask = none) (hw : f.isSigned = true → 1 < f.nbits) {bits : ℕ}
    (hle : 2 ^ f.nbits ≤ bits) : f.max < f.reading bits := by
  have hleZ : (2 : ℤ) ^ f.nbits ≤ bits := by exact_mod_cast hle
  rcases hs : f.isSigned with _ | _
  · obtain ⟨hmin, hmax⟩ := unsigned_bounds hf hs
    rw [reading_unsigned hs]
    omega
  · obtain ⟨half, h1, hpow, hmin, hmax, -⟩ := signed_bounds hf hs (hw hs)
    obtain ⟨q, r, hbits, hr, hread⟩ := reading_signed hs hmax bits
    have hq : 2 ≤ q := by
      by_contra hlt
      have hq1 : half * q ≤ half * 1 := by gcongr; omega
      omega
    rw [hread]
    split_ifs with hodd
    · -- An odd number that is not one is three at least.
      have hq3 : half * 3 ≤ half * q := by gcongr; omega
      omega
    · omega

/-- The number a field reads from its bytes. -/
theorem syncValue_eq (hf : f.vlMask = none) (hw : f.isSigned = true → 1 < f.nbits) :
    f.syncValue = { f with value := f.reading (bytesVal f.bytes) } := by
  rcases hs : f.isSigned with _ | _
  · simp [syncValue, reading, hs]
  · obtain ⟨half, h1, hpow, hmin, hmax, -⟩ := signed_bounds hf hs (hw hs)
    rw [max, if_pos hs] at hmax
    have hsub : ∀ v : ℤ, v - 2 ^ (f.nbits - 1) + f.min = v - 2 ^ f.nbits := fun v => by omega
    simp only [syncValue, reading, hs, hsub, true_and, Int.toNat_natCast]

/-- **Bytes that are read in** are the field's value when they have no bit in front
of its width. -/
theorem holds_bytes (hf : f.vlMask = none) (hw : f.isSigned = true → 1 < f.nbits)
    {src : ByteContainer} (hlen : src.length = f.nbytes) :
    ({ f with bytes := src }.syncValue).Holds (f.reading (bytesVal src % 2 ^ f.nbits)) ↔
      bytesVal src < 2 ^ f.nbits := by
  have hsync : { f with bytes := src }.syncValue =
      { f with bytes := src, value := f.reading (bytesVal src) } := syncValue_eq hf hw
  rw [hsync]
  constructor
  · intro hholds
    have hupper : f.reading (bytesVal src) ≤ f.max := hholds.upper
    by_contra hge
    have habove := reading_above hf hw (not_lt.mp hge)
    omega
  · intro hlt
    obtain ⟨hmin, hmax⟩ := reading_range hf hw hlt
    have hbits : (f.reading (bytesVal src) % 2 ^ f.nbits).toNat = bytesVal src := by
      rw [reading_emod]
      exact_mod_cast congrArg Int.toNat (Int.ofNat_inj.mpr (Nat.mod_eq_of_lt hlt))
    rw [Nat.mod_eq_of_lt hlt]
    refine ⟨⟨hmin, hmax, ?_⟩, fun _ => ?_, fun _ => rfl⟩
    · change src = natBytes f.nbytes (f.reading (bytesVal src) % 2 ^ f.nbits).toNat
      rw [hbits, ← hlen, natBytes_bytesVal]
    · change f.reading (bytesVal src) = Max.max f.min (Min.min (f.reading (bytesVal src)) f.max)
      omega

/-- The bits of the field are those of the packet, and so are, in some cases, the
bits in front of it. -/
theorem extract_cases (env : Expressions.Env) (harith : f.arith = true) {data : ByteContainer}
    {off : Fin 8} (h : f.extract data off = .ok f') :
    ∃ src : ByteContainer, f' = { f with bytes := src }.syncValue ∧ src.length = f.nbytes ∧
      bytesVal src % 2 ^ f.nbits = bitsVal ((List.range f.nbits).map fun i => bitAt data (off + i)) ∧
      (bytesVal src < 2 ^ f.nbits ↔ (ValueOp.extract data off).Meets env f) := by
  obtain ⟨src, hsrc, h⟩ := bind_eq_ok h
  have hf' : f' = { f with bytes := src }.syncValue := by
    rw [← Except.ok.inj h]
    exact if_pos harith
  obtain ⟨hlen, hbits⟩ := genericExtract_bits hsrc off.isLt
  have hnbytes : src.length = f.nbytes := hlen
  have hle : f.nbits ≤ 8 * src.length := hnbytes ▸ f.nbits_le
  have hpad : 8 * src.length - f.nbits = padding f.nbits := by rw [hlen, padding]
  refine ⟨src, hf', hnbytes, ?_, ?_⟩
  · rw [bytesVal_mod hle, hpad]
    congr 1
    refine List.map_congr_left fun i hi => ?_
    have hi' := List.mem_range.mp hi
    rw [hbits _ (by omega), Extracted, decide_eq_true (Or.inl (Nat.le_add_right _ _)), Bool.true_and,
      (by omega : (off : ℕ) + (padding f.nbits + i) - padding f.nbits = off + i)]
  · rw [bytesVal_lt_two_pow_iff hle, hpad]
    -- Bits in front of the field get in only where it lies in a single byte behind an offset
    -- larger than its padding.
    have hfront : ∀ j < padding f.nbits, bitAt src j =
        (decide (f.nbytes = 1 ∧ padding f.nbits < off) &&
          bitAt data (off + j - padding f.nbits)) := by
      intro j hj
      rw [hbits j (by omega), Extracted]
      congr 1
      exact decide_eq_decide.mpr (or_iff_right (by omega))
    constructor
    · intro hzero hone hlt j hj
      have hj' := hfront j hj
      rwa [hzero j hj, decide_eq_true ⟨hone, hlt⟩, Bool.true_and, eq_comm] at hj'
    · intro hmeets j hj
      rw [hfront j hj]
      by_cases hfar : f.nbytes = 1 ∧ padding f.nbits < off
      · rw [hmeets hfar.1 hfar.2 j hj, Bool.and_false]
      · rw [decide_eq_false hfar, Bool.false_and]

/-! ## Runs -/

theorem sound_ofInfo {fi : FInfo} (hvl : fi.isVL = false)
    (hw : fi.isSigned = true → 1 < fi.bitwidth) : (Field.ofInfo true fi).Sound := by
  have hf : (Field.ofInfo true fi).vlMask = none := by simp [ofInfo, hvl]
  have hzero : (Field.ofInfo true fi).min ≤ (Field.ofInfo true fi).reading 0 ∧
      (Field.ofInfo true fi).reading 0 ≤ (Field.ofInfo true fi).max :=
    reading_range hf hw (by positivity)
  have hread : (Field.ofInfo true fi).reading 0 = 0 := by simp [reading]
  rw [hread] at hzero
  refine ⟨⟨hzero.1, hzero.2, ?_⟩, hf, rfl, hw⟩
  have hbytes : (Field.ofInfo true fi).bytes = List.replicate ((fi.bitwidth + 7) / 8) 0 := rfl
  have hvalue : (Field.ofInfo true fi).value = 0 := rfl
  rw [hbytes, hvalue, Int.zero_emod, Int.toNat_zero, natBytes_zero]
  rfl

namespace ValueOp

variable {env : Expressions.Env} {op : ValueOp} {ops : List ValueOp}

/-- What an operation does not touch. -/
theorem step_kept (h : step env f op = some f') :
    f'.nbits = f.nbits ∧ f'.isSigned = f.isSigned ∧ f'.vlMask = f.vlMask ∧ f'.arith = f.arith := by
  have hset : ∀ v, f.set v = some f' → f'.nbits = f.nbits ∧ f'.isSigned = f.isSigned ∧
      f'.vlMask = f.vlMask ∧ f'.arith = f.arith := by
    intro v hv
    rw [eq_put_of_set hv]
    exact ⟨rfl, rfl, rfl, rfl⟩
  cases op with
  | set v => exact hset v h
  | arith op l r =>
    rw [step] at h
    split_ifs at h
    · obtain ⟨v, -, rfl⟩ := Option.map_eq_some_iff.mp h
      exact ⟨rfl, rfl, rfl, rfl⟩
    · obtain ⟨v, -, hv⟩ := Option.bind_eq_some_iff.mp h
      exact hset v hv
  | bitNeg d =>
    obtain ⟨v, -, hv⟩ := Option.bind_eq_some_iff.mp h
    exact hset v hv
  | extract data off =>
    have hok : f.extract data off = .ok f' := toOption_eq_some h
    obtain ⟨src, -, hok⟩ := bind_eq_ok hok
    rw [← Except.ok.inj hok]
    dsimp only
    split_ifs <;> exact ⟨rfl, rfl, rfl, rfl⟩
  | setBytes src =>
    rw [step, setBytesOf] at h
    split_ifs at h with hlen
    rw [← Option.some.inj h]
    dsimp only
    split_ifs <;> exact ⟨rfl, rfl, rfl, rfl⟩

/-- The field stays sound where the operation leaves its result. -/
theorem sound_step (hf : f.Sound) (hr : op.Right env f) (h : step env f op = some f') : f'.Sound := by
  obtain ⟨x, -, hholds⟩ := hr f' h
  obtain ⟨hnbits, hsigned, hvl, harith⟩ := step_kept h
  refine ⟨hholds.toEncoded, hvl.trans hf.fixed, harith.trans hf.arith, ?_⟩
  rw [hsigned, hnbits]
  exact hf.wide

/-- The arithmetic leaves its result by `export_bytes`, and `two_comp_mod` leaves it
when nothing changes. -/
theorem right_arith (hf : f.Sound) {op : Expressions.ArithOp} {l r : Data} :
    Right env f (.arith op l r) ↔
      ((step env f (.arith op l r)).isSome → Meets env f (.arith op l r)) := by
  rcases hv : op.eval env l r with _ | v
  · have hnone : step env f (.arith op l r) = none := by simp [step, hv]
    exact ⟨fun _ hs => by simp [hnone] at hs, fun _ f' h => by simp [hnone] at h⟩
  by_cases hop : op = .twoCompMod
  · have hstep : step env f (.arith op l r) = some { f with value := v } := by
      rw [step, if_pos hop, hv, Option.map_some]
    constructor
    · intro hr _ w hw
      obtain rfl := Option.some.inj (hv.symm.trans hw)
      obtain ⟨x, -, hholds⟩ := hr _ hstep
      rw [if_pos hop]
      -- The bytes are those of the old value still.
      have hbytes : f.bytes = natBytes f.nbytes (v % 2 ^ f.nbits).toNat := hholds.bytes
      rw [hf.bytes] at hbytes
      exact eq_of_natBytes hf.fixed hf.wide ⟨hf.lower, hf.upper⟩ ⟨hholds.lower, hholds.upper⟩ hbytes
    · intro hm f' h
      obtain rfl := Option.some.inj (hstep.symm.trans h)
      have heq := hm (Option.isSome_of_eq_some hstep) v hv
      rw [if_pos hop] at heq
      refine ⟨v, hv, ?_⟩
      rw [← heq]
      have hlower := hf.lower
      have hupper := hf.upper
      refine ⟨hf.toEncoded, fun _ => ?_, fun _ => rfl⟩
      change f.value = Max.max f.min (Min.min f.value f.max)
      omega
  · have hstep : step env f (.arith op l r) = some (f.put v) := by
      rw [step, if_neg hop, hv, Option.bind_some, set_fixed hf.fixed hf.wide]
    constructor
    · intro hr _ w hw
      obtain rfl := Option.some.inj (hv.symm.trans hw)
      obtain ⟨x, hx, hholds⟩ := hr _ hstep
      obtain rfl := Option.some.inj (hv.symm.trans hx)
      rw [if_neg hop]
      exact (holds_put hf.fixed hf.wide).mp hholds
    · intro hm f' h
      obtain rfl := Option.some.inj (hstep.symm.trans h)
      have hfits := hm (Option.isSome_of_eq_some hstep) v hv
      rw [if_neg hop] at hfits
      exact ⟨v, hv, (holds_put hf.fixed hf.wide).mpr hfits⟩

theorem right_extract (hf : f.Sound) {data : ByteContainer} {off : Fin 8} :
    Right env f (.extract data off) ↔
      ((step env f (.extract data off)).isSome → Meets env f (.extract data off)) := by
  rcases hx : f.extract data off with e | f₁
  · have hnone : step env f (.extract data off) = none := by
      rw [step, hx]
      rfl
    exact ⟨fun _ hs => by simp [hnone] at hs, fun _ f' h => by simp [hnone] at h⟩
  have hstep : step env f (.extract data off) = some f₁ := by
    rw [step, hx]
    rfl
  obtain ⟨src, rfl, hlen, hwire, hmeets⟩ := extract_cases env hf.arith hx
  have hholds := holds_bytes hf.fixed hf.wide hlen
  rw [hwire, hmeets] at hholds
  constructor
  · intro hr _
    obtain ⟨x, hx', h⟩ := hr _ hstep
    obtain rfl := Option.some.inj hx'
    exact hholds.mp h
  · intro hm f' h
    obtain rfl := Option.some.inj (hstep.symm.trans h)
    exact ⟨_, rfl, hholds.mpr (hm (Option.isSome_of_eq_some hstep))⟩

theorem right_setBytes (hf : f.Sound) {src : ByteContainer} :
    Right env f (.setBytes src) ↔
      ((step env f (.setBytes src)).isSome → Meets env f (.setBytes src)) := by
  by_cases hlen : src.length = f.nbytes
  · have hstep : step env f (.setBytes src) = some { f with bytes := src }.syncValue := by
      simp [step, setBytesOf, hlen, hf.arith]
    have hholds := holds_bytes hf.fixed hf.wide hlen
    constructor
    · intro hr _
      obtain ⟨x, hx, h⟩ := hr _ hstep
      obtain rfl := Option.some.inj hx
      exact hholds.mp h
    · intro hm f' h
      obtain rfl := Option.some.inj (hstep.symm.trans h)
      exact ⟨_, rfl, hholds.mpr (hm (Option.isSome_of_eq_some hstep))⟩
  · have hnone : step env f (.setBytes src) = none := by simp [step, setBytesOf, hlen]
    exact ⟨fun _ hs => by simp [hnone] at hs, fun _ f' h => by simp [hnone] at h⟩

/-- **One operation** leaves its result when it meets the condition, and only then. -/
theorem right_iff (hf : f.Sound) :
    op.Right env f ↔ ((step env f op).isSome → op.Meets env f) := by
  have hput : ∀ x, (f.put x).Holds x ↔ Fits f x := fun x => holds_put hf.fixed hf.wide
  cases op with
  | set v =>
    have hstep : step env f (.set v) = some (f.put v) := set_fixed hf.fixed hf.wide v
    constructor
    · intro hr _
      obtain ⟨x, hx, hholds⟩ := hr _ hstep
      obtain rfl := Option.some.inj hx
      exact (hput v).mp hholds
    · intro hm f' h
      obtain rfl := Option.some.inj (hstep.symm.trans h)
      exact ⟨v, rfl, (hput v).mpr (hm (Option.isSome_of_eq_some hstep))⟩
  | arith op l r => exact right_arith hf
  | bitNeg d =>
    rcases hneg : Expressions.negBits d with _ | v
    · exact ⟨fun _ hs => by simp [step, hneg] at hs, fun _ f' h => by simp [step, hneg] at h⟩
    · have hv : v = d.value.not := by
        rw [Expressions.negBits] at hneg
        split_ifs at hneg
        exact (Option.some.inj hneg).symm
      have hstep : step env f (.bitNeg d) = some (f.put v) := by
        rw [step, hneg, Option.bind_some, set_fixed hf.fixed hf.wide]
      constructor
      · intro hr _
        obtain ⟨x, hx, hholds⟩ := hr _ hstep
        obtain rfl := Option.some.inj (hneg.symm.trans hx)
        have hfits := (hput v).mp hholds
        rwa [hv] at hfits
      · intro hm f' h
        obtain rfl := Option.some.inj (hstep.symm.trans h)
        have hfits : Fits f d.value.not := hm (Option.isSome_of_eq_some hstep)
        exact ⟨v, hneg, (hput v).mpr (hv ▸ hfits)⟩
  | extract data off => exact right_extract hf
  | setBytes src => exact right_setBytes hf

/-- **The values of a field.** -/
theorem right_of_run (fi : FInfo) (hvl : fi.isVL = false)
    (hw : fi.isSigned = true → 1 < fi.bitwidth) (env : Expressions.Env) (ops : List ValueOp) :
    Runs.Always (step env) (Right env) (Field.ofInfo true fi) ops ↔
      Runs.Always (step env) (fun f op => (step env f op).isSome → op.Meets env f)
        (Field.ofInfo true fi) ops :=
  Runs.Always.congr (fun _ _ _ hf hr h => sound_step hf hr h) (fun _ _ hf => right_iff hf)
    (sound_ofInfo hvl hw)

/-- An environment for operations on numbers. -/
def numbers : Expressions.Env where
  phv := ⟨[], [], [], []⟩
  locals := []
  registers := fun _ _ => none
  toUint := fun v => (v % 2 ^ 32).toNat
  toSize := fun v => (v % 2 ^ 64).toNat

/-- A field of five bits with a sign. -/
def fiveBits : FInfo := { bitwidth := 5, isSigned := true }

/-- It is set to 100, reduced to its complement, negated and read from a packet. -/
def fiveBitsOps : List ValueOp :=
  [.set 100, .arith .twoCompMod ⟨36, true⟩ ⟨5, true⟩, .bitNeg ⟨4, true⟩, .extract [0x1d] 3,
    .setBytes [0x10]]

theorem right_fiveBits :
    (Runs.run (step numbers) (Field.ofInfo true fiveBits) fiveBitsOps).map
        (fun f => (f.value, f.bytes)) = some (-16, [0x10]) ∧
      Runs.Always (step numbers) (Right numbers) (Field.ofInfo true fiveBits) fiveBitsOps :=
  ⟨by decide +kernel, (right_of_run fiveBits rfl (fun _ => by decide) numbers fiveBitsOps).mpr
    (by decide +kernel)⟩

/-- A field of eight bits with a sign, set to 200, holds 200. -/
theorem above_the_range :
    ¬Runs.Always (step numbers) (Right numbers)
      (Field.ofInfo true { bitwidth := 8, isSigned := true }) [.set 200] := by
  intro h
  obtain ⟨x, -, hholds⟩ := h.1 _ rfl
  have hupper := hholds.upper
  revert hupper
  decide +kernel

end ValueOp

end Field

end P4Bricks
