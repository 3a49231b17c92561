import Mathlib.Data.Int.Bitwise
import P4Bricks.Common.BitNumbers
import P4Bricks.Parser.Helpers.BitCopy
import P4Bricks.Phv.FieldValues
import P4Bricks.Phv.HeaderSizes
/-!
# Assignments between variable fields

A field of variable length gets its mask with its length, and an assignment passes the
value through the mask it takes over from its source. The mask is computed in an `int`:
from 32 bits on it is the one of the length modulo 32, and an assignment loses the bits
above it.
-/

namespace P4Bricks

open Parsing

/-! ## The mask of a length -/

/-- The shift is by the count modulo 32. -/
theorem toBitVec_one_shiftLeft (n : ℤ) :
    ((1 : Int32) <<< Int32.ofInt n).toBitVec = 1#32 <<< (n % 32).toNat := by
  have h32 : (32 : BitVec 32).toInt = 32 := by decide
  have hn : (Int32.ofInt n).toBitVec.toInt = n.bmod (2 ^ 32) := by simp
  have hint : ((Int32.ofInt n).toBitVec.smod 32).toInt = n % 32 := by
    rw [BitVec.toInt_smod, h32, Int.fmod_eq_emod_of_nonneg _ (by decide), hn, Int.bmod]
    split <;> omega
  have hcond := BitVec.toInt_eq_toNat_cond ((Int32.ofInt n).toBitVec.smod 32)
  have hlt := ((Int32.ofInt n).toBitVec.smod 32).isLt
  have hnat : ((Int32.ofInt n).toBitVec.smod 32).toNat = (n % 32).toNat := by
    rw [hint] at hcond
    split at hcond <;> omega
  show 1#32 <<< ((Int32.ofInt n).toBitVec.smod 32) = _
  rw [BitVec.shiftLeft_eq', hnat]

/-- **The mask of whole bytes**, as the machine computes it. -/
theorem vlMask_eq {n : ℤ} (h0 : 0 ≤ n) (h8 : n % 8 = 0) :
    ((1 : Int32) <<< Int32.ofInt n).toInt - 1 = 2 ^ (n.toNat % 32) - 1 := by
  have hk : (n % 32).toNat = n.toNat % 32 := by omega
  have hcases : n.toNat % 32 = 0 ∨ n.toNat % 32 = 8 ∨ n.toNat % 32 = 16 ∨ n.toNat % 32 = 24 := by
    omega
  rw [← Int32.toInt_toBitVec, toBitVec_one_shiftLeft, hk]
  rcases hcases with h | h | h | h
  · rw [h]
    decide
  · rw [h]
    decide
  · rw [h]
    decide
  · rw [h]
    decide

namespace Field

variable {f g s : Field} {data : ByteContainer} {off : ℕ} {n : ℤ}

/-- A field has another's bytes, value and width. -/
structure Copies (f s : Field) : Prop where
  bytes : f.bytes = s.bytes
  value : f.value = s.value
  nbits : f.nbits = s.nbits

/-- What an extraction leaves in an unsigned field of variable length, whatever the field
was before. -/
structure Extracted (s : Field) (n : ℤ) : Prop where
  nonneg : 0 ≤ n
  nbits : s.nbits = n.toNat
  isVL : s.isVL
  mask : s.mask = ((1 : Int32) <<< Int32.ofInt n).toInt - 1
  value : s.value = bytesVal s.bytes
  length : s.bytes.length = (n.toNat + 7) / 8

theorem extracted_of_extractVL (hg : g.isSigned = false) (harith : g.arith = true) (hoff : off < 8)
    (h : g.extractVL data off n = .ok s) : s.Extracted n := by
  unfold extractVL at h
  split_ifs at h with hbelow hneg
  unfold extract at h
  obtain ⟨bytes, hbytes, h⟩ := bind_eq_ok h
  obtain ⟨hlen, -⟩ := genericExtract_bits hbytes hoff
  simp only [harith, if_true, Except.ok.injEq] at h
  subst h
  refine ⟨by omega, rfl, rfl, rfl, ?_, hlen⟩
  simp [syncValue, hg]

/-- The value of an assignment between unsigned fields of variable length. -/
theorem resizedTo_wrap (hf : f.isSigned = false) {k : ℕ} (hmask : s.mask = 2 ^ k - 1) (v : ℕ) :
    (f.resizedTo s).wrap v =
      (if f.isSaturating = true ∧ 2 ^ k ≤ v then 2 ^ k - 1 else v % 2 ^ k : ℕ) := by
  have hpos : 0 < 2 ^ k := Nat.two_pow_pos k
  have hcast : (2 ^ k : ℤ) - 1 = ((2 ^ k - 1 : ℕ) : ℤ) := by
    rw [Nat.cast_sub hpos]
    norm_num
  have hland : ∀ m : ℕ, Int.land m ((2 ^ k - 1 : ℕ) : ℤ) = ((m % 2 ^ k : ℕ) : ℤ) := fun m => by
    show ((m &&& (2 ^ k - 1) : ℕ) : ℤ) = _
    rw [Nat.and_two_pow_sub_one_eq_mod]
  have hwrap : (f.resizedTo s).wrap v = Int.land ((f.resizedTo s).saturate v) s.mask := by
    simp only [resizedTo, wrap, hf, mask, isVL, Option.isSome_some, if_true, Option.getD_some,
      Bool.false_eq_true, if_false]
  have hmin : (f.resizedTo s).min = 0 := by simp [resizedTo, min, hf]
  have hmax : (f.resizedTo s).max = s.mask := by
    simp only [resizedTo, max, hf, mask, Option.getD_some, Bool.false_eq_true, if_false]
  have hkept : (f.resizedTo s).isSaturating = f.isSaturating := rfl
  rw [hwrap, saturate, hmin, hmax, hmask, hcast, hkept]
  have hnonneg : ¬((v : ℤ) < 0) := by omega
  by_cases hsat : f.isSaturating = true
  · simp only [hsat, hnonneg, if_true, if_false, true_and]
    by_cases hle : 2 ^ k ≤ v
    · have hgt : (v : ℤ) > ((2 ^ k - 1 : ℕ) : ℤ) := by omega
      rw [if_pos hgt, if_pos hle, hland, Nat.mod_eq_of_lt (by omega)]
    · have hgt : ¬(v : ℤ) > ((2 ^ k - 1 : ℕ) : ℤ) := by omega
      rw [if_neg hgt, if_neg hle, hland]
  · rw [if_neg hsat, if_neg fun h => hsat h.1, hland]

/-- What was extracted has no more bits than its width. -/
theorem Extracted.wrap_eq (hs : s.Extracted n) (h8 : n % 8 = 0) (hf : f.isSigned = false) :
    ∃ v : ℕ, (f.resizedTo s).wrap s.value = v ∧ v < 2 ^ (n.toNat % 32) ∧
      (v = bytesVal s.bytes ↔ bytesVal s.bytes < 2 ^ (n.toNat % 32)) := by
  have hmask : s.mask = 2 ^ (n.toNat % 32) - 1 := by rw [hs.mask, vlMask_eq hs.nonneg h8]
  have hpos : 0 < 2 ^ (n.toNat % 32) := Nat.two_pow_pos _
  have hmod := Nat.mod_lt (bytesVal s.bytes) hpos
  rw [hs.value, resizedTo_wrap hf hmask]
  refine ⟨_, rfl, ?_, ?_⟩
  · split <;> omega
  · constructor
    · intro heq
      split at heq <;> omega
    · intro hlt
      rw [if_neg (by omega), Nat.mod_eq_of_lt hlt]

/-- A field has room for what is assigned to it when that was extracted. -/
theorem assignVL_eq (hf : f.isSigned = false) (hs : s.Extracted n) (h8 : n % 8 = 0) :
    f.assignVL s = some ((f.resizedTo s).put s.value) := by
  obtain ⟨v, hv, hlt, -⟩ := hs.wrap_eq h8 hf
  have hroom : (f.resizedTo s).written ((f.resizedTo s).wrap s.value) < 256 ^ s.nbytes := by
    rw [hv, written, if_pos (by omega), Int.natAbs_natCast]
    have hwidth : n.toNat % 32 ≤ 8 * s.nbytes := by
      rw [nbytes, hs.nbits]
      omega
    calc v < 2 ^ (n.toNat % 32) := hlt
      _ ≤ 2 ^ (8 * s.nbytes) := Nat.pow_le_pow_right (by omega) hwidth
      _ = 256 ^ s.nbytes := by rw [pow_mul]; norm_num
  exact if_pos hroom

/-- **When an assignment copies a field**: it is shorter than 32 bits, or its value has no
more bits than the mask. -/
theorem copies_assignVL (hf : f.isSigned = false) (hs : s.Extracted n) (h8 : n % 8 = 0) :
    ((f.resizedTo s).put s.value).Copies s ↔ n < 32 ∨ s.value < 2 ^ (n.toNat % 32) := by
  have hn := hs.nonneg
  obtain ⟨v, hv, hbelow, hkept⟩ := hs.wrap_eq h8 hf
  have hvalue : ((f.resizedTo s).put s.value).value = v := hv
  have hlt : bytesVal s.bytes < 2 ^ n.toNat := by
    have hbytes := bytesVal_lt s.bytes
    rwa [hs.length, (by omega : 8 * ((n.toNat + 7) / 8) = n.toNat)] at hbytes
  have hcond : (n < 32 ∨ s.value < 2 ^ (n.toNat % 32)) ↔
      bytesVal s.bytes < 2 ^ (n.toNat % 32) := by
    rw [hs.value]
    constructor
    · rintro (h | h)
      · rwa [(by omega : n.toNat % 32 = n.toNat)]
      · exact_mod_cast h
    · exact fun h => .inr (by exact_mod_cast h)
  rw [hcond, ← hkept]
  constructor
  · intro h
    have hsame := h.value
    rw [hvalue, hs.value] at hsame
    exact Int.ofNat.inj hsame
  · intro h
    refine ⟨?_, by rw [hvalue, hs.value, h], rfl⟩
    -- The bytes are those of the value, and it is that of the source's bytes.
    have hspare : ({ f.resizedTo s with value := s.value } : Field).spare = 0 := by
      have hlen : (f.resizedTo s).bytes.length = (f.resizedTo s).nbytes := List.length_replicate ..
      have hnone : (f.resizedTo s).bytes.length - (f.resizedTo s).nbytes = 0 := by omega
      rw [spare]
      split
      · exact hnone
      · rfl
    have hwritten : (f.resizedTo s).written ((f.resizedTo s).wrap s.value) = v := by
      rw [hv, written, if_pos (by omega), Int.natAbs_natCast]
    have hbytes : ((f.resizedTo s).put s.value).bytes = natBytes s.nbytes v := by
      rw [put, exported, hspare, List.replicate_zero, List.append_nil]
      exact congrArg (natBytes s.nbytes) hwritten
    rw [hbytes, h, nbytes, hs.nbits, ← hs.length, natBytes_bytesVal]

end Field

/-! ## Whole headers -/

namespace Header

variable {x y z : Header}

/-- Only `$valid$` may differ. -/
structure SameButValid (x y : Header) : Prop where
  headerType : y.headerType = x.headerType
  length : y.fields.length = x.fields.length
  fields : ∀ i, i ≠ x.validOffset → y.fields[i]? = x.fields[i]?

theorem SameButValid.refl (x : Header) : x.SameButValid x := ⟨rfl, rfl, fun _ _ => rfl⟩

theorem SameButValid.trans (h : x.SameButValid y) (h' : y.SameButValid z) : x.SameButValid z := by
  have hoff : y.validOffset = x.validOffset := by rw [validOffset, validOffset, h.length]
  exact ⟨h'.headerType.trans h.headerType, h'.length.trans h.length, fun i hi =>
    (h'.fields i (by rwa [hoff])).trans (h.fields i hi)⟩

theorem SameButValid.setValid (h : x.SameButValid y) (b : Bool) : x.SameButValid (y.setValid b) := by
  have hoff : y.validOffset = x.validOffset := by rw [validOffset, validOffset, h.length]
  refine ⟨h.headerType, ?_, fun i hi => ?_⟩
  · rw [Header.setValid, List.length_modify, h.length]
  · have hne : y.validOffset ≠ i := fun heq => hi (heq.symm.trans hoff)
    rw [← h.fields i hi]
    simp [Header.setValid, hne]

/-- What the loop of `assign_header` leaves at one place. -/
theorem assignFields_getElem? {fs gs fs' : List Field} (h : assignFields fs gs = .ok fs') {i : ℕ}
    {f g : Field} (hf : fs[i]? = some f) (hg : gs[i]? = some g) :
    fs'[i]? = if f.isVL then f.assignVL g else f.set g.value := by
  induction fs generalizing gs fs' i with
  | nil => simp at hf
  | cons f₀ fs ih =>
    cases gs with
    | nil => cases h
    | cons g₀ gs =>
      obtain ⟨f', hf', h⟩ := bind_eq_ok h
      obtain ⟨rest, hrest, h⟩ := bind_eq_ok h
      cases h
      cases i with
      | zero =>
        obtain rfl : f₀ = f := by simpa using hf
        obtain rfl : g₀ = g := by simpa using hg
        exact (required_eq_ok hf').symm
      | succ i =>
        rw [List.getElem?_cons_succ] at hf hg ⊢
        exact ih hrest hf hg

/-- The fields have room for what they are assigned. -/
def Assignable (fs gs : List Field) : Prop :=
  ∀ (i : ℕ) (f g : Field), fs[i]? = some f → gs[i]? = some g →
    ∃ f', (if f.isVL then f.assignVL g else f.set g.value) = some f'

/-- Fields of one shape get the widths of their sources. -/
theorem assignFields_spec {fs gs : List Field} (hs : fs.map Field.shape = gs.map Field.shape)
    (ha : Assignable fs gs) :
    ∃ fs', assignFields fs gs = .ok fs' ∧
      (fs'.map fun f => (f.nbits, f.hidden)) = gs.map fun f => (f.nbits, f.hidden) := by
  induction fs generalizing gs with
  | nil =>
    obtain rfl : gs = [] := List.map_eq_nil_iff.mp hs.symm
    exact ⟨[], rfl, rfl⟩
  | cons f fs ih =>
    cases gs with
    | nil => simp at hs
    | cons g gs =>
      rw [List.map_cons, List.map_cons, List.cons.injEq] at hs
      obtain ⟨fs', hfs', hwidths⟩ := ih hs.2 fun i f g hf hg => ha (i + 1) f g hf hg
      obtain ⟨f', hf'⟩ := ha 0 f g rfl rfl
      refine ⟨f' :: fs', ?_, ?_⟩
      · rw [assignFields, hf', hfs']
        rfl
      · rw [List.map_cons, List.map_cons, hwidths]
        congr 1
        obtain ⟨-, -, hhidden⟩ := Field.signs_of_shape hs.1
        split at hf'
        · rw [Field.eq_put_of_set hf']
          exact Prod.ext rfl hhidden
        · next hvl =>
          rw [Field.eq_put_of_set hf']
          exact Prod.ext (Field.nbits_of_shape hs.1 hvl) hhidden

/-- **A header is assigned from another of its type.** -/
theorem assignFrom_spec (htype : x.headerType = y.headerType) (hs : x.SameFields y)
    (hy : y.Sized) (ha : Assignable x.fields y.fields) :
    ∃ z, x.assignFrom y = .ok z ∧ assignFields x.fields y.fields = .ok z.fields := by
  obtain ⟨fields, hfields, hwidths⟩ := assignFields_spec hs ha
  have hnbits : ({ x with fields := fields } : Header).nbits = y.nbits := by
    have hsum : ∀ l : List Field, ((l.takeWhile fun f => !f.hidden).map Field.nbits).sum =
        (((l.map fun f => (f.nbits, f.hidden)).takeWhile fun p => !p.2).map Prod.fst).sum := by
      intro l
      rw [List.takeWhile_map, List.map_map]
      rfl
    have hx' := hsum fields
    have hy' := hsum y.fields
    rw [hwidths, ← hy'] at hx'
    exact hx'
  unfold assignFrom
  rw [if_neg (not_not.mpr htype), hfields]
  simp only [bind, Except.bind]
  split
  · have hwhole : ({ x with fields := fields } : Header).nbits % 8 = 0 := by
      have hbytes := hy.bytes
      omega
    rw [recomputeNbytesPacket, if_pos hwhole]
    exact ⟨_, rfl, rfl⟩
  · exact ⟨_, rfl, rfl⟩

end Header

namespace Phv

variable {phv phv' : Phv} {x : Header}

theorem modifyHeader_setValid {h k : ℕ} (hx : phv'.headers[k]? = some x) (b : Bool) :
    ∃ x', (phv'.modifyHeader h (·.setValid b)).headers[k]? = some x' ∧ x.SameButValid x' := by
  rw [modifyHeader, List.getElem?_modify, hx]
  by_cases hk : h = k
  · exact ⟨x.setValid b, by simp [hk], (Header.SameButValid.refl x).setValid b⟩
  · exact ⟨x, by simp [hk], .refl x⟩

theorem markInvalid_sameButValid {h k : ℕ} (hx : phv.headers[k]? = some x) :
    ∃ x', (phv.markInvalid h).headers[k]? = some x' ∧ x.SameButValid x' := by
  obtain ⟨x', hx', hsame⟩ := @modifyHeader_setValid phv x h k hx false
  refine ⟨x', ?_, hsame⟩
  unfold markInvalid
  split
  · exact hx'
  · exact hx'

/-- Marking a header valid may mark another invalid, and changes no other field. -/
theorem markValid_sameButValid {h k : ℕ} (hx : phv.headers[k]? = some x) :
    ∃ x', (phv.markValid h).headers[k]? = some x' ∧ x.SameButValid x' := by
  obtain ⟨x', hx', hsame⟩ := @modifyHeader_setValid phv x h k hx true
  unfold markValid
  split
  · exact ⟨x', hx', hsame⟩
  unfold makeHeaderValid
  dsimp only
  split
  · exact ⟨x', hx', hsame⟩
  · split
    · split
      · exact ⟨x', hx', hsame⟩
      · obtain ⟨x'', hx'', hsame'⟩ := markInvalid_sameButValid hx'
        exact ⟨x'', hx'', hsame.trans hsame'⟩
    · exact ⟨x', hx', hsame⟩

theorem Sized.markValid (hs : phv.Sized) (h : ℕ) : (phv.markValid h).Sized :=
  (Effect.markValid h).sized hs

/-- A header with one variable field has room for all that it is assigned when that field
has. -/
theorem assignable {x y z : Header} {i : ℕ} {f g f' : Field} (hx : x.Sized) (hb : x.blank = z.blank)
    (hwide : ∀ e ∈ z.fields, e.isSigned = true → 1 < e.nbits) (hf : x.fields[i]? = some f)
    (hg : y.fields[i]? = some g) (hvl : f.isVL) (hset : f.assignVL g = some f') :
    Header.Assignable x.fields y.fields := by
  intro j e g' he hg'
  by_cases hevl : e.isVL = true
  · -- It is the one field of variable length.
    obtain ⟨hi, hfi⟩ := List.getElem?_eq_some_iff.mp hf
    obtain ⟨hj, hej⟩ := List.getElem?_eq_some_iff.mp he
    have hone := List.pairwise_iff_getElem.mp hx.oneVL
    obtain rfl : j = i := by
      rcases Nat.lt_trichotomy j i with hlt | heq | hlt
      · exact absurd (hfi ▸ hvl) (hone j i hj hi hlt (hej ▸ hevl))
      · exact heq
      · exact absurd (hej ▸ hevl) (hone i j hi hj hlt (hfi ▸ hvl))
    obtain rfl := Option.some.inj (he.symm.trans hf)
    obtain rfl := Option.some.inj (hg'.symm.trans hg)
    exact ⟨f', by rw [if_pos hvl, hset]⟩
  · have hblank := congrArg (·[j]?) (Header.fields_blank hb)
    simp only [List.getElem?_map, he, Option.map_some] at hblank
    obtain ⟨e₀, he₀, heq⟩ := Option.map_eq_some_iff.mp hblank.symm
    have hsigned := congrArg Field.isSigned heq
    have hnbits : e₀.nbits = e.nbits := Field.nbits_congr heq (by rwa [Field.isVL_congr heq])
    have hfixed : e.vlMask = none := by simpa [Field.isVL] using hevl
    refine ⟨e.put g'.value, ?_⟩
    rw [if_neg hevl]
    refine Field.set_fixed hfixed (fun hs => ?_) g'.value
    rw [← hnbits]
    exact hwide e₀ (List.mem_of_getElem? he₀) (Eq.trans hsigned hs)

/-- **A variable field after `assign_header`** is what `assign_VL` makes of it. -/
theorem assignHeader_variable (hs : phv.Sized) {dst src i : ℕ} {x y : Header} {f s f' : Field}
    (hx : phv.headers[dst]? = some x) (hy : phv.headers[src]? = some y) (hvalid : y.isValid)
    (htype : x.headerType = y.headerType) (hsame : x.SameFields y)
    (hwide : ∀ e ∈ x.fields, e.isSigned = true → 1 < e.nbits) (hf : x.fields[i]? = some f)
    (hg : y.fields[i]? = some s) (hvl : f.isVL) (hset : f.assignVL s = some f') :
    ∃ phv', phv.assignHeader dst src = .ok phv' ∧ phv'.getField dst i = some f' := by
  obtain ⟨x', hx', hsx⟩ := @markValid_sameButValid phv x dst dst hx
  obtain ⟨y', hy', hsy⟩ := @markValid_sameButValid phv y dst src hy
  have hsizes := hs.markValid dst
  have hblank := (@Effect.markValid phv dst).blank_eq
  -- The hidden `$valid$` is no variable field, and no other field was changed.
  have hnot : ∀ {hdr : Header} {k : ℕ} {g : Field}, phv.headers[k]? = some hdr →
      hdr.fields[i]? = some g → g.isVL → i ≠ hdr.validOffset := by
    intro hdr k g hhdr hgi hgvl hi
    have hsized := hs hdr (List.mem_of_getElem? hhdr)
    exact hsized.hiddenFixed g (List.mem_of_getElem? hgi) (hsized.validHidden g (hi ▸ hgi)) hgvl
  have hsvl : s.isVL := by
    have hshape := congrArg (·[i]?) hsame
    simp only [List.getElem?_map, hf, hg, Option.map_some, Option.some.injEq] at hshape
    rwa [← Field.isVL_of_shape hshape]
  have hf' := (hsx.fields i (hnot hx hf hvl)).trans hf
  have hg' := (hsy.fields i (hnot hy hg hsvl)).trans hg
  obtain ⟨x₀, hx₀, hbx⟩ := exists_header hblank.symm hx'
  obtain ⟨y₀, hy₀, hby⟩ := exists_header hblank.symm hy'
  obtain rfl : x₀ = x := Option.some.inj (hx₀.symm.trans hx)
  obtain rfl : y₀ = y := Option.some.inj (hy₀.symm.trans hy)
  have hsame' : x'.SameFields y' := hsame.congr hbx.symm hby.symm
  have htype' : x'.headerType = y'.headerType := by rw [hsx.headerType, hsy.headerType, htype]
  have hassign := assignable (hsizes x' (List.mem_of_getElem? hx')) hbx.symm hwide hf' hg' hvl hset
  obtain ⟨z, hz, hfields⟩ := Header.assignFrom_spec htype' hsame'
    (hsizes y' (List.mem_of_getElem? hy')) hassign
  have hzi := Header.assignFields_getElem? hfields hf' hg'
  rw [if_pos hvl, hset] at hzi
  refine ⟨(phv.markValid dst).modifyHeader dst fun _ => z, ?_, ?_⟩
  · unfold assignHeader
    simp only [hx, hy, hx', hy', required, bind, Except.bind, hvalid, Bool.not_true,
      Bool.false_eq_true, if_false, hz]
  · rw [getField, modifyHeader, List.getElem?_modify, hx']
    simpa [Header.getField] using hzi

/-- **What an assignment keeps of a field that was extracted.** Whatever was done to the two
fields before, `assign_VL`, on its own or as a part of `assign_header`, copies an unsigned
field of variable length when its length is below 32 bits or its value below the mask of
the length modulo 32, and only then. -/
theorem assignVL_copies_iff (f g s : Field) (hf : f.isSigned = false) (hg : g.isSigned = false)
    (harith : g.arith = true) (hvl : f.isVL) {data : ByteContainer} {off : ℕ} {n : ℤ}
    (hoff : off < 8) (h8 : n % 8 = 0) (hx : g.extractVL data off n = .ok s)
    (phv : Phv) (hs : phv.Sized) {dst src i : ℕ} {x y : Header}
    (hdst : phv.headers[dst]? = some x) (hsrc : phv.headers[src]? = some y) (hvalid : y.isValid)
    (htype : x.headerType = y.headerType) (hsame : x.SameFields y)
    (hwide : ∀ e ∈ x.fields, e.isSigned = true → 1 < e.nbits)
    (hfi : x.fields[i]? = some f) (hsi : y.fields[i]? = some s) :
    ((∃ f', f.assignVL s = some f' ∧ f'.Copies s) ↔ n < 32 ∨ s.value < 2 ^ (n.toNat % 32)) ∧
      ((∃ phv' f', phv.assignHeader dst src = .ok phv' ∧ phv'.getField dst i = some f' ∧
        f'.Copies s) ↔ n < 32 ∨ s.value < 2 ^ (n.toNat % 32)) := by
  have hextracted := Field.extracted_of_extractVL hg harith hoff hx
  have hset := Field.assignVL_eq hf hextracted h8
  obtain ⟨phv', hassign, hget⟩ :=
    assignHeader_variable hs hdst hsrc hvalid htype hsame hwide hfi hsi hvl hset
  rw [← Field.copies_assignVL hf hextracted h8, hset]
  refine ⟨⟨?_, fun hcopy => ⟨_, rfl, hcopy⟩⟩, ?_⟩
  · rintro ⟨f', hf', hcopy⟩
    exact Option.some.inj hf' ▸ hcopy
  constructor
  · rintro ⟨phv₁, f', hassign', hget', hcopy⟩
    obtain rfl := Except.ok.inj (hassign.symm.trans hassign')
    obtain rfl := Option.some.inj (hget.symm.trans hget')
    exact hcopy
  · exact fun hcopy => ⟨phv', _, hassign, hget, hcopy⟩

/-! ## Options of two and of five bytes -/

/-- A variable field that holds the bytes. -/
def optionsField (bytes : ByteContainer) : Field :=
  { value := bytesVal bytes, nbits := 8 * bytes.length, bytes := bytes
    vlMask := some (((1 : Int32) <<< Int32.ofInt (8 * bytes.length)).toInt - 1) }

/-- A field of no bits. -/
def noOptions : Field := { value := 0, nbits := 0, bytes := [], vlMask := some 0 }

/-- A header of one byte and of options, which is not valid when there are none. -/
def optionsHeader (options : Field) : Header where
  headerType := 0
  fields := [Field.create 8 false, options, (Field.create 1 true).put (if options.nbits = 0 then 0 else 1)]
  valid := options.nbits ≠ 0
  metadata := false
  nbytesPacket := (8 + options.nbits) / 8
  unionMembership := none

/-- A header with the options, and one without. -/
def optionsPhv (bytes : ByteContainer) : Phv :=
  ⟨[optionsHeader noOptions, optionsHeader (optionsField bytes)], [], [], []⟩

theorem optionsPhv_sized {bytes : ByteContainer} : (optionsPhv bytes).Sized := by
  intro hdr hhdr
  have hcases : hdr = optionsHeader noOptions ∨ hdr = optionsHeader (optionsField bytes) := by
    simpa [optionsPhv] using hhdr
  have hall : ∀ options : Field, options.nbits % 8 = 0 → options.isVL → options.hidden = false →
      (optionsHeader options).Sized := by
    intro options hwhole hvl hvisible
    refine ⟨?_, ?_, ?_, ?_, ?_⟩
    · simp [Header.nbits, Header.packetFields, optionsHeader, Field.create, Field.put,
        Field.exported, hvisible]
      omega
    · simp [optionsHeader, Field.create, Field.put, Field.exported, Field.isVL]
    · simp [optionsHeader, Field.create, Field.put, Field.exported, hvisible]
    · simp [optionsHeader, Field.create, Field.put, Field.exported, hvisible, Field.isVL]
    · simp [optionsHeader, Field.create, Field.put, Field.exported, Header.validOffset]
  rcases hcases with rfl | rfl
  · exact hall noOptions rfl rfl rfl
  · exact hall (optionsField bytes) (by simp [optionsField]) rfl rfl

/-- Options of two bytes are copied. -/
theorem twoBytes_copied :
    ((∃ f', noOptions.assignVL (optionsField [1, 2]) = some f' ∧ f'.Copies (optionsField [1, 2])) ↔
      (16 : ℤ) < 32 ∨ (optionsField [1, 2]).value < 2 ^ ((16 : ℤ).toNat % 32)) ∧
    ((∃ phv' f', (optionsPhv [1, 2]).assignHeader 0 1 = .ok phv' ∧ phv'.getField 0 1 = some f' ∧
        f'.Copies (optionsField [1, 2])) ↔
      (16 : ℤ) < 32 ∨ (optionsField [1, 2]).value < 2 ^ ((16 : ℤ).toNat % 32)) :=
  assignVL_copies_iff noOptions noOptions (optionsField [1, 2]) rfl rfl rfl rfl
    (by decide : 0 < 8) (by decide) (by decide : noOptions.extractVL [1, 2] 0 16 = _) (optionsPhv [1, 2])
    optionsPhv_sized rfl rfl rfl rfl rfl (by decide) rfl rfl

/-- Of options of five bytes the last one is left. -/
theorem fiveBytes_not_copied :
    noOptions.extractVL [1, 2, 3, 4, 5] 0 40 = .ok (optionsField [1, 2, 3, 4, 5]) ∧
    (noOptions.assignVL (optionsField [1, 2, 3, 4, 5])).map Field.bytes = some [0, 0, 0, 0, 5] ∧
    ¬∀ (f g s : Field) (data : ByteContainer) (off : ℕ) (n : ℤ), f.isSigned = false →
      g.isSigned = false → g.arith = true → f.isVL → off < 8 → n % 8 = 0 →
      g.extractVL data off n = .ok s → ∃ f', f.assignVL s = some f' ∧ f'.Copies s := by
  have hx : noOptions.extractVL [1, 2, 3, 4, 5] 0 40 = .ok (optionsField [1, 2, 3, 4, 5]) := by decide
  refine ⟨hx, by decide, fun h => ?_⟩
  obtain ⟨f', hf', hcopy⟩ := h noOptions noOptions _ _ 0 40 rfl rfl rfl rfl (by decide) (by decide) hx
  have hbytes := congrArg (Option.map Field.bytes) hf'
  rw [Option.map_some, hcopy.bytes] at hbytes
  exact absurd hbytes (by decide)

end Phv

end P4Bricks
