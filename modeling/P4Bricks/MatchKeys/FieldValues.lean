import P4Bricks.Common.ByteOrder
import P4Bricks.MatchKeys.Entries
/-!
# Fields and parameters as numbers

What a packet key and an entry have for a field, as the numbers that their bytes denote. In each
of the ways that fields are compared, the comparison of the bytes is one of the numbers under the
mask of the field, which is applied to the entry as well: a bit of a parameter that its field does
not have is not looked at.
-/

namespace P4Bricks

namespace MatchKeys

namespace MatchKeyBuilder

/-- The packet has what the field names, in the size that the key has for it. -/
def Carries (phv : Phv) (x : KeyField) : Prop :=
  ∃ header, phv.headers[x.input.header]? = some header ∧
    (x.input.mtype ≠ .valid → ∃ field, header.getField x.input.fOffset = some field ∧
      field.bytes.length = x.nbytes ∧ field.nbytes = x.nbytes)

/-- The value of a field of the packet: whether the header is valid, or else the field's own
value, and 0 if its header is not valid. A hidden field has its value in any header. -/
def fieldValue (phv : Phv) (x : KeyField) : ℕ :=
  match phv.headers[x.input.header]? with
  | none => 0
  | some header =>
    if x.input.mtype = .valid then if header.isValid then 1 else 0
    else
      match header.getField x.input.fOffset with
      | none => 0
      | some field => if header.isValid || field.hidden then bytesVal field.bytes else 0

/-- **A value satisfies a parameter.** Both are masked by the mask of the field. A prefix is
counted from the highest of `width` bits. -/
def SatisfiedIn (width value : ℕ) (x : KeyField) (param : MatchKeyParam) : Prop :=
  let masked := value &&& bytesVal x.mask
  let wanted := bytesVal param.key &&& bytesVal x.mask
  match x.input.mtype with
  | .valid | .exact => masked = wanted
  | .ternary => masked &&& bytesVal param.mask = wanted &&& bytesVal param.mask
  | .range => bytesVal param.key ≤ value ∧ value ≤ bytesVal param.mask
  | .lpm => masked / 2 ^ (width - param.prefixLength.toNat) =
      wanted / 2 ^ (width - param.prefixLength.toNat)

/-- The same, with the bits of the field. -/
def Satisfied (value : ℕ) (x : KeyField) (param : MatchKeyParam) : Prop :=
  SatisfiedIn x.input.nbits value x param

/-- The parameter as an entry has it: the bits above the width are cut. -/
def cutParam (x : KeyField) (param : MatchKeyParam) : MatchKeyParam :=
  { param with key := cutTop x.input.nbits param.key }

/-- The value of the parameter is within the width of its field. -/
def Within (x : KeyField) (param : MatchKeyParam) : Prop := bytesVal param.key < 2 ^ x.input.nbits

section
variable {phv : Phv} {x : KeyField} {param : MatchKeyParam} {bytes mask : ByteContainer} {nbits : ℕ}

theorem bytesVal_applyMask (h : mask.length = bytes.length) :
    bytesVal (applyMask bytes mask) = bytesVal bytes &&& bytesVal mask :=
  bytesVal_zipWith_and h.symm

/-- The first byte of a field that is not whole bytes is cut to the bits above the others. -/
theorem toNat_and_getByte0Mask (b : UInt8) (hr : nbits % 8 ≠ 0) :
    (b &&& getByte0Mask nbits).toNat = b.toNat % 2 ^ (nbits % 8) := by
  have hlt : 2 ^ (nbits % 8) - 1 < 2 ^ 8 := by
    have hle : 2 ^ (nbits % 8) ≤ 2 ^ 8 := Nat.pow_le_pow_right (by omega) (by omega)
    have hone : 0 < 2 ^ (nbits % 8) := by positivity
    omega
  rw [getByte0Mask, if_neg hr, UInt8.toNat_and, UInt8.toNat_ofNat', Nat.one_shiftLeft,
    Nat.mod_eq_of_lt hlt, Nat.and_two_pow_sub_one_eq_mod]

/-- Bytes of a value within the width have nothing to cut. -/
theorem cutTop_of_lt (hlen : bytes.length = nbitsToNbytes nbits)
    (h : bytesVal bytes < 2 ^ nbits) : cutTop nbits bytes = bytes := by
  rcases bytes with - | ⟨b, bytes⟩
  · rfl
  · rw [cutTop_cons]
    have hb : b &&& getByte0Mask nbits = b := by
      by_cases hr : nbits % 8 = 0
      · have h255 : (0xff : UInt8) = -1 := rfl
        rw [getByte0Mask, if_pos hr, h255, UInt8.and_neg_one]
      · rw [List.length_cons, nbitsToNbytes] at hlen
        have hsplit : nbits = 8 * bytes.length + nbits % 8 := by omega
        have hbyte : b.toNat < 2 ^ (nbits % 8) := by
          by_contra hge
          rw [bytesVal_cons, hsplit, pow_add] at h
          have hmul := Nat.mul_le_mul_left (2 ^ (8 * bytes.length)) (not_lt.mp hge)
          omega
        refine UInt8.toNat_inj.mp ?_
        rw [toNat_and_getByte0Mask b hr, Nat.mod_eq_of_lt hbyte]
    rw [hb]

/-- Bytes that are cut have a value within the width. -/
theorem bytesVal_cutTop_lt (hlen : bytes.length = nbitsToNbytes nbits) :
    bytesVal (cutTop nbits bytes) < 2 ^ nbits := by
  rw [nbitsToNbytes] at hlen
  by_cases hr : nbits % 8 = 0
  · have hlt := bytesVal_lt (cutTop nbits bytes)
    rw [length_cutTop] at hlt
    have hbits : 8 * bytes.length = nbits := by omega
    rwa [hbits] at hlt
  · rcases bytes with - | ⟨b, bytes⟩
    · rw [List.length_nil] at hlen
      omega
    · rw [List.length_cons] at hlen
      have hrest := bytesVal_lt bytes
      have hbyte : b.toNat % 2 ^ (nbits % 8) + 1 ≤ 2 ^ (nbits % 8) := Nat.mod_lt _ (by positivity)
      have hmul := Nat.mul_le_mul_left (2 ^ (8 * bytes.length)) hbyte
      have hwidth : 2 ^ nbits = 2 ^ (8 * bytes.length) * 2 ^ (nbits % 8) := by
        rw [← pow_add, (by omega : 8 * bytes.length + nbits % 8 = nbits)]
      rw [Nat.mul_succ, ← hwidth] at hmul
      rw [cutTop_cons, bytesVal_cons, toNat_and_getByte0Mask b hr]
      omega

/-- A packet key has the value of the field, in its size. -/
theorem Carries.fieldKey (h : Carries phv x) (hx : x.Sound) :
    (fieldKey phv x.input).length = x.nbytes ∧
      bytesVal (MatchKeyBuilder.fieldKey phv x.input) = fieldValue phv x := by
  obtain ⟨header, hheader, hfield⟩ := h
  unfold MatchKeyBuilder.fieldKey fieldValue
  rw [hheader]
  by_cases hv : x.input.mtype = .valid
  · simp only [hv, if_true, nbytes_of_valid hx hv]
    cases header.isValid <;> exact ⟨rfl, rfl⟩
  · obtain ⟨field, hget, hbytes, hnbytes⟩ := hfield hv
    simp only [hv, if_false, hget]
    split_ifs
    · exact ⟨hbytes, rfl⟩
    · exact ⟨(List.length_replicate).trans hnbytes, bytesVal_replicate_zero _⟩

/-- What a packet key has for a field. -/
def packetChunk (phv : Phv) (x : KeyField) : ByteContainer := applyMask (fieldKey phv x.input) x.mask

theorem Carries.length_packetChunk (h : Carries phv x) (hx : x.Sound) :
    (packetChunk phv x).length = x.nbytes := by
  have hkey := (h.fieldKey hx).1
  rw [packetChunk, length_applyMask (hx.length_mask.trans hkey.symm), hkey]

theorem Carries.bytesVal_packetChunk (h : Carries phv x) (hx : x.Sound) :
    bytesVal (packetChunk phv x) = fieldValue phv x &&& bytesVal x.mask := by
  obtain ⟨hlen, hval⟩ := h.fieldKey hx
  rw [packetChunk, bytesVal_applyMask (hx.length_mask.trans hlen.symm), hval]

theorem Within.cutParam_eq (h : Within x param) (hsane : paramSane x.input param = true) :
    cutParam x param = param := by
  have hkey := cutTop_of_lt (paramSane_iff.mp hsane).2.1 h
  rw [cutParam, hkey]

/-- Only a prefix is counted. -/
theorem satisfiedIn_congr {width width' value : ℕ} (hlpm : x.input.mtype ≠ .lpm) :
    SatisfiedIn width value x param ↔ SatisfiedIn width' value x param := by
  unfold SatisfiedIn
  rcases hm : x.input.mtype
  case lpm => exact absurd hm hlpm
  all_goals exact Iff.rfl

theorem length_cutParam (hsane : paramSane x.input param = true) :
    (cutParam x param).key.length = x.nbytes :=
  (length_cutTop ..).trans (paramSane_iff.mp hsane).2.1

theorem bytesVal_stored_false (hx : x.Sound) (hsane : paramSane x.input param = true) :
    bytesVal (stored false x param) = bytesVal (cutParam x param).key &&& bytesVal x.mask := by
  have hkey := length_cutParam hsane
  rw [stored, if_neg (by simp)]
  exact bytesVal_applyMask (hx.length_mask.trans hkey.symm)

theorem bytesVal_stored_true (hx : x.Sound) (hsane : paramSane x.input param = true)
    (hne : param.type ≠ .range) :
    bytesVal (stored true x param) =
      bytesVal (cutParam x param).key &&& bytesVal (paramMask param) &&& bytesVal x.mask := by
  have hkey := length_cutParam hsane
  have hmask := length_paramMask hx hsane
  have hboth : (applyMask (cutParam x param).key (paramMask param)).length = x.nbytes := by
    rw [length_applyMask (hmask.trans hkey.symm), hkey]
  rw [stored, if_pos ⟨rfl, hne⟩]
  exact (bytesVal_applyMask (hx.length_mask.trans hboth.symm)).trans
    (congrArg (· &&& bytesVal x.mask) (bytesVal_applyMask (hmask.trans hkey.symm)))

/-- The byte that a prefix ends in. -/
theorem byteBit_ofNat_shift {k r : ℕ} (hk : k < 8) (hr : r < 8) :
    byteBit (.ofNat (0xff <<< (8 - k))) r = decide (r < k) := by
  have hones : Nat.testBit 0xff (7 - r - (8 - k)) = decide (7 - r - (8 - k) < 8) :=
    Nat.testBit_two_pow_sub_one 8 _
  rw [byteBit_ofNat hr, Nat.testBit_shiftLeft, hones, ← Bool.decide_and]
  exact decide_eq_decide.mpr (by omega)

/-- **The mask of a prefix** has its bits. -/
theorem bitAt_createMaskFromPrefLen {p size j : ℕ} (hj : j < 8 * size) :
    bitAt (createMaskFromPrefLen p size) j = decide (j < p) := by
  obtain ⟨i, r, hr, rfl⟩ : ∃ i r, r < 8 ∧ j = 8 * i + r := ⟨j / 8, j % 8, by omega, by omega⟩
  have hi : i < size := by omega
  -- full bytes, the byte that the prefix ends in, and zeros
  have hbase : (List.replicate (p / 8) (0xff : UInt8) ++ List.replicate (size - p / 8) 0).getD i 0 =
      if i < p / 8 then 0xff else 0 := by
    split_ifs with hfull
    · rw [List.getD_append _ _ _ _ (by simpa using hfull), List.getD_replicate _ hfull]
    · rw [List.getD_append_right _ _ _ _ (by simpa using hfull)]
      simp
  rw [bitAt_mul_add hr, createMaskFromPrefLen]
  split_ifs with hend
  · by_cases hlast : i = p / 8
    · have hlen : p / 8 < (List.replicate (p / 8) (0xff : UInt8) ++
          List.replicate (size - p / 8) 0).length := by
        simp
        omega
      rw [hlast, List.getD_eq_getElem?_getD, List.getElem?_set_self hlen, Option.getD_some,
        byteBit_ofNat_shift (Nat.mod_lt _ (by omega)) hr]
      exact decide_eq_decide.mpr (by omega)
    · rw [List.getD_eq_getElem?_getD, List.getElem?_set_ne (Ne.symm hlast),
        ← List.getD_eq_getElem?_getD, hbase]
      split_ifs with hfull
      · rw [byteBit_ones hr, decide_eq_true (by omega)]
      · rw [byteBit_zero, decide_eq_false (by omega)]
  · rw [hbase]
    split_ifs with hfull
    · rw [byteBit_ones hr, decide_eq_true (by omega)]
    · rw [byteBit_zero, decide_eq_false (by omega)]

/-- A prefix of both. -/
theorem applyMask_createMask_eq_iff {p size : ℕ} {l m : ByteContainer} (hl : l.length = size)
    (hm : m.length = size) (hp : p ≤ 8 * size) :
    applyMask l (createMaskFromPrefLen p size) = applyMask m (createMaskFromPrefLen p size) ↔
      (bytesBits l).take p = (bytesBits m).take p := by
  have hmask := length_createMaskFromPrefLen hp
  have hlen : (applyMask l (createMaskFromPrefLen p size)).length = size := by
    rw [length_applyMask (hmask.trans hl.symm), hl]
  have hlen' : (applyMask m (createMaskFromPrefLen p size)).length = size := by
    rw [length_applyMask (hmask.trans hm.symm), hm]
  rw [take_bytesBits_eq_iff_bitAt (hl.trans hm.symm) (hl ▸ hp)]
  have hbit : ∀ (k : ByteContainer) {j : ℕ}, j < 8 * size →
      bitAt (applyMask k (createMaskFromPrefLen p size)) j = (bitAt k j && decide (j < p)) := by
    intro k j hj
    rw [applyMask, bitAt_zipWith_and, bitAt_createMaskFromPrefLen hj]
  constructor
  · intro heq j hj
    have hboth := congrArg (bitAt · j) heq
    simpa only [hbit _ (by omega : j < 8 * size), decide_eq_true hj, Bool.and_true] using hboth
  · intro hall
    refine bitAt_ext (hlen.trans hlen'.symm) fun j hj => ?_
    rw [hlen] at hj
    rw [hbit l hj, hbit m hj]
    by_cases hjp : j < p
    · rw [hall j hjp]
    · rw [decide_eq_false hjp, Bool.and_false, Bool.and_false]

/-- The mask of a parameter that is matched whole takes everything. -/
theorem paramMask_whole (hx : x.Sound) (hsane : paramSane x.input param = true)
    (hwhole : x.input.mtype = .valid ∨ x.input.mtype = .exact) :
    paramMask param = List.replicate x.nbytes 0xff := by
  obtain ⟨htype, hlen, -, -, -⟩ := paramSane_iff.mp hsane
  rcases hwhole with hv | he
  · rw [paramMask, htype, hv, nbytes_of_valid hx hv]
    rfl
  · rw [paramMask, htype, he]
    exact congrArg (List.replicate · 0xff) hlen

/-- **A field matched whole**, in a unit for exact keys or prefixes. -/
theorem packetChunk_eq_stored_iff {width : ℕ} (h : Carries phv x) (hx : x.Sound)
    (hsane : paramSane x.input param = true)
    (hwhole : x.input.mtype = .valid ∨ x.input.mtype = .exact) :
    packetChunk phv x = stored false x param ↔
      SatisfiedIn width (fieldValue phv x) x (cutParam x param) := by
  have hlen := (h.length_packetChunk hx).trans (length_stored hx hsane false).symm
  rw [← bytesVal_inj hlen, h.bytesVal_packetChunk hx, bytesVal_stored_false hx hsane, SatisfiedIn]
  rcases hwhole with hm | hm <;> rw [hm]

/-- **A prefix**, in a unit for prefixes: it is counted from the first bit of the first byte. -/
theorem take_packetChunk_eq_iff (h : Carries phv x) (hx : x.Sound)
    (hsane : paramSane x.input param = true) (hlpm : x.input.mtype = .lpm) :
    (bytesBits (packetChunk phv x)).take param.prefixLength.toNat =
        (bytesBits (stored false x param)).take param.prefixLength.toNat ↔
      SatisfiedIn (8 * x.nbytes) (fieldValue phv x) x (cutParam x param) := by
  have hchunk := h.length_packetChunk hx
  have hlen := hchunk.trans (length_stored hx hsane false).symm
  rw [take_bytesBits_eq_iff hlen, h.bytesVal_packetChunk hx, bytesVal_stored_false hx hsane, hchunk,
    SatisfiedIn, hlpm]
  rfl

/-- **A masked comparison**, in a unit for ternary keys or ranges. -/
theorem applyMask_packetChunk_eq_iff (h : Carries phv x) (hx : x.Sound)
    (hsane : paramSane x.input param = true) (hne : x.input.mtype ≠ .range) :
    applyMask (packetChunk phv x) (paramMask param) = stored true x param ↔
      SatisfiedIn (8 * x.nbytes) (fieldValue phv x) x (cutParam x param) := by
  have htype := (paramSane_iff.mp hsane).1
  have hmask := length_paramMask hx hsane
  have hchunk := h.length_packetChunk hx
  have hkey := length_cutParam hsane
  have hmasked : (applyMask (packetChunk phv x) (paramMask param)).length = x.nbytes := by
    rw [length_applyMask (hmask.trans hchunk.symm), hchunk]
  have hstored := length_stored hx hsane true
  by_cases hternary : x.input.mtype = .ternary
  · have hgiven : paramMask param = param.mask := by rw [paramMask, htype, hternary]
    rw [← bytesVal_inj (hmasked.trans hstored.symm), bytesVal_applyMask (hmask.trans hchunk.symm),
      h.bytesVal_packetChunk hx, bytesVal_stored_true hx hsane (htype ▸ hne), hgiven, SatisfiedIn,
      hternary, Nat.land_assoc (bytesVal (cutParam x param).key),
      Nat.land_comm (bytesVal param.mask) (bytesVal x.mask), ← Nat.land_assoc]
    rfl
  · by_cases hlpm : x.input.mtype = .lpm
    · -- the mask of a prefix leaves the first bits of both
      have hprefix : paramMask param = createMaskFromPrefLen param.prefixLength.toNat x.nbytes := by
        rw [paramMask, htype, hlpm]
        exact congrArg (createMaskFromPrefLen _) (paramSane_iff.mp hsane).2.1
      have hle : param.prefixLength.toNat ≤ 8 * x.nbytes := by
        have hle := prefix_le hsane (htype.trans hlpm)
        rwa [(paramSane_iff.mp hsane).2.1] at hle
      have hsame : stored true x param = applyMask (stored false x param) (paramMask param) := by
        rw [stored, stored, if_pos ⟨rfl, htype ▸ hne⟩, if_neg (by simp), applyMask_comm]
      rw [hsame, hprefix, applyMask_createMask_eq_iff hchunk (length_stored hx hsane false) hle]
      exact take_packetChunk_eq_iff h hx hsane hlpm
    · have hwhole : x.input.mtype = .valid ∨ x.input.mtype = .exact := by
        rcases hm : x.input.mtype <;> simp_all
      have hones : ∀ bytes : ByteContainer, bytes.length = x.nbytes →
          applyMask bytes (paramMask param) = bytes := by
        intro bytes hlen
        rw [paramMask_whole hx hsane hwhole, ← hlen, applyMask_ones]
      have hsame : stored true x param = stored false x param := by
        rw [stored, stored, if_pos ⟨rfl, htype ▸ hne⟩, if_neg (by simp)]
        exact congrArg (applyMask · x.mask) (hones _ hkey)
      rw [hones _ hchunk, hsame]
      exact packetChunk_eq_stored_iff h hx hsane hwhole

/-- **A range**: neither bound is passed. -/
theorem not_lt_packetChunk_iff {width : ℕ} (h : Carries phv x) (hx : x.Sound)
    (hsane : paramSane x.input param = true) (hrange : x.input.mtype = .range)
    (hplain : x.isMasked = false) :
    ¬ packetChunk phv x < stored true x param ∧ ¬ paramMask param < packetChunk phv x ↔
      SatisfiedIn width (fieldValue phv x) x (cutParam x param) := by
  obtain ⟨htype, -, -, -, hbounds⟩ := paramSane_iff.mp hsane
  have hkey := length_cutParam hsane
  have hgiven : paramMask param = param.mask := by rw [paramMask, htype, hrange]
  have hones : ∀ bytes : ByteContainer, bytes.length = x.nbytes → applyMask bytes x.mask = bytes := by
    intro bytes hlen
    rw [KeyField.mask_of_not_isMasked hplain, ← hlen, applyMask_ones]
  obtain ⟨hfield, hval⟩ := h.fieldKey hx
  have hstart : stored true x param = (cutParam x param).key := by
    rw [stored, if_neg (by simp [htype, hrange])]
    exact hones _ hkey
  have hend : param.mask.length = x.nbytes := (hbounds (htype.trans hrange)).1
  rw [packetChunk, hones _ hfield, hstart, hgiven, lt_iff_bytesVal_lt (hfield.trans hkey.symm),
    lt_iff_bytesVal_lt (hend.trans hfield.symm), hval, SatisfiedIn, hrange, not_lt, not_lt]
  rfl

end

end MatchKeyBuilder

end MatchKeys

end P4Bricks
