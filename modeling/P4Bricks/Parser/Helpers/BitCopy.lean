import P4Bricks.Common.Outcomes
import P4Bricks.Parser.Deparse
/-!
# Copying bits

What `generic_extract` and `generic_deparse` do, bit by bit. A field of `w`
bits is kept in `(w + 7) / 8` bytes, after `padding w` bits that are not its
own. Extraction leaves these bits zero, but for a field of one byte that has
to move left: there they are the bits in front of the field. Deparsing adds
them to the bits that are in front of the field in the destination.
-/

namespace P4Bricks

namespace Parsing

/-- The bits of the first byte that are not the field's. -/
def padding (w : ℕ) : ℕ := 8 * ((w + 7) / 8) - w

/-! ## Extraction -/

variable {data bytes : ByteContainer} {off w : ℕ}

theorem readByte_eq {i : ℕ} {b : UInt8} (h : readByte data i = .ok b) : b = data.getD i 0 := by
  rw [List.getD_eq_getElem?_getD]
  unfold readByte at h
  split at h
  · cases h
  · next hb =>
    cases h
    rw [hb]
    rfl

theorem readBytes_eq {f : ℕ → Except Stop UInt8} {n : ℕ} (h : readBytes f n = .ok bytes) :
    bytes.length = n ∧ ∀ i < n, f i = .ok (bytes.getD i 0) := by
  induction n generalizing bytes with
  | zero =>
    cases h
    exact ⟨rfl, by omega⟩
  | succ n ih =>
    obtain ⟨init, hinit, h⟩ := bind_eq_ok h
    obtain ⟨b, hb, h⟩ := bind_eq_ok h
    cases h
    obtain ⟨hlen, hall⟩ := ih hinit
    refine ⟨by simp [hlen], fun i hi => ?_⟩
    rcases Nat.lt_or_ge i n with hlt | hge
    · rw [List.getD_append _ _ _ _ (by omega)]
      exact hall i hlt
    · obtain rfl : i = n := by omega
      rw [List.getD_append_right _ _ _ _ (by omega), hlen]
      simpa using hb

/-- Bytes merged from two neighbours each. -/
theorem readBytes_merge {o o' n : ℕ} (h : readBytes (fun i => do
      .ok (shl (← readByte data i) o ||| shr (← readByte data (i + 1)) o')) n = .ok bytes) :
    bytes.length = n ∧
      ∀ i < n, bytes.getD i 0 = shl (data.getD i 0) o ||| shr (data.getD (i + 1) 0) o' := by
  obtain ⟨hlen, hall⟩ := readBytes_eq h
  refine ⟨hlen, fun i hi => ?_⟩
  obtain ⟨b, hb, h⟩ := bind_eq_ok (hall i hi)
  obtain ⟨c, hc, h⟩ := bind_eq_ok h
  rw [← Except.ok.inj h, readByte_eq hb, readByte_eq hc]

theorem getD_maskFirst {n i : ℕ} : (maskFirst n bytes).getD i 0 =
    if i = 0 then bytes.getD 0 0 &&& shr 0xFF n else bytes.getD i 0 := by
  cases bytes with
  | nil =>
    split
    · exact byteBit_ext fun r _ => by simp [maskFirst]
    · rfl
  | cons b bytes =>
    cases i with
    | zero => rfl
    | succ i => rfl

/-- The bits of a string whose bytes are known one by one. -/
theorem bitAt_of_getD {n : ℕ} {P : ℕ → Bool}
    (h : ∀ i < n, ∀ r < 8, byteBit (bytes.getD i 0) r = P (8 * i + r)) :
    ∀ j < 8 * n, bitAt bytes j = P j := by
  intro j hj
  rw [bitAt, h (j / 8) (by omega) (j % 8) (by omega), Nat.div_add_mod]

/-- The bits of a field in the bytes it was extracted to. -/
def Extracted (data : ByteContainer) (off w : ℕ) (j : ℕ) : Bool :=
  decide (padding w ≤ j ∨ (w + 7) / 8 = 1 ∧ padding w < off) && bitAt data (off + j - padding w)

/-- When the bits of the field are where they have to be, but for those in
front of it. -/
theorem extracted_same {data : ByteContainer} {off w j : ℕ} (h : off = padding w) :
    Extracted data off w j = (bitAt data j && decide (padding w ≤ j)) := by
  have hlt : ¬padding w < off := by omega
  rw [Extracted, (by omega : off + j - padding w = j), Bool.and_comm]
  simp [hlt]

/-- The bytes hold the field's bits, and in front of them what extraction leaves there. -/
def HoldsField (bytes data : ByteContainer) (off w : ℕ) : Prop :=
  bytes.length = (w + 7) / 8 ∧ ∀ j < 8 * ((w + 7) / 8), bitAt bytes j = Extracted data off w j

/-! Each way through `generic_extract` leaves such bytes. -/

/-- Whole bytes from the start of one: they are copied. -/
theorem extracted_copied (halign : off = 0 ∧ w % 8 = 0)
    (h : readBytes (readByte data) ((w + 7) / 8) = .ok bytes) : HoldsField bytes data off w := by
  have hpad : padding w = 8 * ((w + 7) / 8) - w := rfl
  obtain ⟨hlen, hall⟩ := readBytes_eq h
  refine ⟨hlen, bitAt_of_getD fun i hi r hr => ?_⟩
  rw [readByte_eq (hall i hi), extracted_same (by omega), bitAt_mul_add hr,
    decide_eq_true (by omega), Bool.and_true]

/-- The bits are where they have to be, and the first byte is masked. -/
theorem extracted_unmoved (heq : off = padding w)
    (h : readBytes (readByte data) ((w + 7) / 8) = .ok bytes) :
    HoldsField (maskFirst (padding w) bytes) data off w := by
  have hpad : padding w = 8 * ((w + 7) / 8) - w := rfl
  obtain ⟨hlen, hall⟩ := readBytes_eq h
  have hbyte : ∀ i < (w + 7) / 8, bytes.getD i 0 = data.getD i 0 :=
    fun i hi => readByte_eq (hall i hi)
  refine ⟨by cases bytes <;> exact hlen, bitAt_of_getD fun i hi r hr => ?_⟩
  rw [getD_maskFirst, extracted_same heq, bitAt_mul_add hr]
  split
  · next hi0 =>
    subst hi0
    rw [hbyte 0 hi, byteBit_and, byteBit_shr_ones hr]
    simp
  · rw [hbyte i hi, decide_eq_true (by omega), Bool.and_true]

/-- The bits move left, and the first byte is masked before the last one is written. -/
theorem extracted_left {last : UInt8} (hoff : off < 8) (hlt : padding w < off)
    (hn : (w + 7) / 8 ≠ 0)
    (hinit : readBytes (fun i => do
      .ok (shl (← readByte data i) (off - padding w) |||
        shr (← readByte data (i + 1)) (8 - (off - padding w)))) ((w + 7) / 8 - 1) = .ok bytes)
    (hlast : readLast data ((w + 7) / 8 - 1) (off - padding w)
      (decide (off + w > 8 * ((w + 7) / 8))) = .ok last) :
    HoldsField (maskFirst (padding w) bytes ++ [last]) data off w := by
  have hpad : padding w = 8 * ((w + 7) / 8) - w := rfl
  rw [readLast, if_pos (decide_eq_true (by omega))] at hlast
  obtain ⟨b, hb, hlast⟩ := bind_eq_ok hlast
  obtain ⟨c, hc, hlast⟩ := bind_eq_ok hlast
  obtain ⟨hlen, hall⟩ := readBytes_merge hinit
  have hlen' : (maskFirst (padding w) bytes).length = (w + 7) / 8 - 1 := by
    cases bytes <;> exact hlen
  refine ⟨by rw [List.length_append, hlen']; simp; omega, bitAt_of_getD fun i hi r hr => ?_⟩
  rw [Extracted, (by omega : off + (8 * i + r) - padding w = 8 * i + r + (off - padding w)),
    ← byteBit_merge hr (by omega)]
  rcases Nat.lt_or_ge i ((w + 7) / 8 - 1) with hlt' | hge'
  · rw [List.getD_append _ _ _ _ (by omega), getD_maskFirst]
    split
    · next hi0 =>
      subst hi0
      rw [hall 0 hlt', byteBit_and, byteBit_shr_ones hr, Bool.and_comm]
      congr 1
      exact decide_eq_decide.mpr (by omega)
    · rw [hall i hlt', decide_eq_true (by omega), Bool.true_and]
  · -- The last byte is not masked, and it is the first one when there is one.
    obtain rfl : i = (w + 7) / 8 - 1 := by omega
    rw [List.getD_append_right _ _ _ _ (by omega), hlen', Nat.sub_self,
      decide_eq_true (by omega), Bool.true_and]
    rw [← Except.ok.inj hlast, readByte_eq hb, readByte_eq hc]
    rfl

/-- The bits move right, and the first byte is masked. -/
theorem extracted_right {first : UInt8} (hoff : off < 8) (hgt : off < padding w)
    (hfirst : readByte data 0 = .ok first)
    (hrest : readBytes (fun i => do
      .ok (shl (← readByte data i) (8 - (padding w - off)) |||
        shr (← readByte data (i + 1)) (padding w - off))) ((w + 7) / 8 - 1) = .ok bytes) :
    HoldsField ((shr first (padding w - off) &&& shr 0xFF (padding w)) :: bytes) data off w := by
  have hpad : padding w = 8 * ((w + 7) / 8) - w := rfl
  obtain ⟨hlen, hall⟩ := readBytes_merge hrest
  refine ⟨by rw [List.length_cons, hlen]; omega, bitAt_of_getD fun i hi r hr => ?_⟩
  rw [Extracted]
  cases i with
  | zero =>
    rw [List.getD_cons_zero, byteBit_and, byteBit_shr_ones hr, readByte_eq hfirst,
      byteBit_shr hr]
    rcases Nat.lt_or_ge r (padding w) with hlt' | hge'
    · have hn : ¬(padding w ≤ 8 * 0 + r ∨ (w + 7) / 8 = 1 ∧ padding w < off) := by omega
      rw [decide_eq_false hn, decide_eq_false (by omega : ¬padding w ≤ r), Bool.and_false,
        Bool.false_and]
    · have hy : padding w ≤ 8 * 0 + r ∨ (w + 7) / 8 = 1 ∧ padding w < off := by omega
      rw [decide_eq_true hy, decide_eq_true hge', decide_eq_true (by omega : padding w - off ≤ r),
        (by omega : off + (8 * 0 + r) - padding w = 8 * 0 + (r - (padding w - off))),
        bitAt_mul_add (by omega)]
      simp
  | succ i =>
    -- Each later byte takes the bits that the one before it has left.
    have hmerge := byteBit_merge (l := data) (i := i) (o := 8 - (padding w - off)) hr (by omega)
    rw [(by omega : 8 - (8 - (padding w - off)) = padding w - off)] at hmerge
    rw [List.getD_cons_succ, hall i (by omega), hmerge, decide_eq_true (by omega), Bool.true_and]
    congr 1
    omega

/-- **The bits `generic_extract` leaves.** -/
theorem genericExtract_bits (h : genericExtract data off w = .ok bytes) (hoff : off < 8) :
    bytes.length = (w + 7) / 8 ∧
      ∀ j < 8 * ((w + 7) / 8), bitAt bytes j = Extracted data off w j := by
  have hpad : padding w = 8 * ((w + 7) / 8) - w := rfl
  dsimp only [genericExtract] at h
  rw [← hpad] at h
  split at h
  · next halign => exact extracted_copied halign h
  split at h
  · next heq =>
    obtain ⟨copy, hcopy, h⟩ := bind_eq_ok h
    cases h
    exact extracted_unmoved heq hcopy
  split at h
  · next hne hlt =>
    obtain ⟨init, hinit, h⟩ := bind_eq_ok h
    obtain ⟨last, hlast, h⟩ := bind_eq_ok h
    split at h
    · cases h
    next hn =>
    cases h
    exact extracted_left hoff hlt hn hinit hlast
  · next hne hge =>
    obtain ⟨first, hfirst, h⟩ := bind_eq_ok h
    obtain ⟨rest, hrest, h⟩ := bind_eq_ok h
    cases h
    exact extracted_right hoff (by omega) hfirst hrest

/-! ## Deparsing -/

variable {src dst dst' : ByteContainer}

/-- The bits of a field's bytes, padding and all, moved to its place in the
header. -/
def Placed (src : ByteContainer) (off w j : ℕ) : Bool :=
  decide (off ≤ j + padding w) && bitAt src (j + padding w - off)

/-- The field was written: nothing in front of it changed, and nothing in the
bytes after it. -/
structure Wrote (src dst dst' : ByteContainer) (off w : ℕ) : Prop where
  length : dst'.length = dst.length
  bits : ∀ j < off + w, bitAt dst' j = if j < off then bitAt dst j else Placed src off w j
  rest : dst'.drop ((off + w + 7) / 8) = dst.drop ((off + w + 7) / 8)

/-- What becomes of the bit at a place: the padding is added to the bits in front of
the field, and behind it no bit is set. -/
structure Merged (src dst : ByteContainer) (off w j : ℕ) (b : Bool) : Prop where
  before : j < off → b = (bitAt dst j || Placed src off w j)
  within : off ≤ j → j < off + w → b = Placed src off w j
  behind : off + w ≤ j → b = true → bitAt dst j = true

/-- The field was written over what was there. -/
structure Overwrote (src dst dst' : ByteContainer) (off w : ℕ) : Prop where
  length : dst'.length = dst.length
  bits : ∀ j, Merged src dst off w j (bitAt dst' j)
  rest : dst'.drop ((off + w + 7) / 8) = dst.drop ((off + w + 7) / 8)

theorem writeBytes_spec {n : ℕ} {f : ℕ → UInt8} (hn : n ≤ dst.length) :
    ∃ dst', writeBytes dst n f = .ok dst' ∧ dst'.length = dst.length ∧
      (∀ i < n, dst'.getD i 0 = f i) ∧ dst'.drop n = dst.drop n := by
  refine ⟨_, if_pos hn, ?_, fun i hi => ?_, ?_⟩
  · rw [List.length_append, List.length_map, List.length_range, List.length_drop]
    omega
  · rw [List.getD_append _ _ _ _ (by simpa using hi), List.getD_eq_getElem _ _ (by simpa using hi)]
    simp
  · rw [List.drop_append_of_le_length (by simp), List.drop_of_length_le (by simp), List.nil_append]

/-- A write is right when each byte is. -/
theorem overwrote_of_bytes {f : ℕ → UInt8} (hdst : off + w ≤ 8 * dst.length)
    (hf : ∀ i < (off + w + 7) / 8, ∀ r < 8, Merged src dst off w (8 * i + r) (byteBit (f i) r)) :
    ∃ dst', writeBytes dst ((off + w + 7) / 8) f = .ok dst' ∧ Overwrote src dst dst' off w := by
  obtain ⟨dst', hw, hlen, hget, hrest⟩ := writeBytes_spec (f := f)
    (by omega : (off + w + 7) / 8 ≤ dst.length)
  refine ⟨dst', hw, hlen, fun j => ?_, hrest⟩
  rcases Nat.lt_or_ge j (8 * ((off + w + 7) / 8)) with hlt | hge
  · have hbit := hf (j / 8) (by omega) (j % 8) (by omega)
    rw [bitAt, hget (j / 8) (by omega)]
    rwa [Nat.div_add_mod] at hbit
  · -- The bytes behind the field are those that were there.
    obtain ⟨k, rfl⟩ := Nat.exists_eq_add_of_le hge
    have hsame : bitAt dst' (8 * ((off + w + 7) / 8) + k) = bitAt dst (8 * ((off + w + 7) / 8) + k) := by
      rw [← bitAt_drop, ← bitAt_drop, hrest]
    exact ⟨fun h => by omega, fun _ h => by omega, fun _ h => hsame ▸ h⟩

/-- The padding is in the destination already. -/
def Absorbed (src dst : ByteContainer) (off w : ℕ) : Prop :=
  ∀ j < off, Placed src off w j = true → bitAt dst j = true

theorem placed_eq {j : ℕ} (h : off ≤ j + padding w) :
    Placed src off w j = bitAt src (j + padding w - off) := by
  rw [Placed, decide_eq_true h, Bool.true_and]

/-- There is nothing behind the field to move. -/
theorem placed_behind {j : ℕ} (hsrc : src.length = (w + 7) / 8) (hj : off + w ≤ j) :
    Placed src off w j = false := by
  have hpad : padding w = 8 * ((w + 7) / 8) - w := rfl
  rw [placed_eq (by omega), bitAt_of_length_le (by omega)]

/-- The first byte of a write keeps what is in front of the field. -/
theorem merged_first {x : UInt8} {r : ℕ} (hr : r < 8)
    (hsrc : src.length = (w + 7) / 8) (hx : byteBit x r = Placed src off w r) :
    Merged src dst off w (8 * 0 + r) (byteBit (dst.getD 0 0 &&& ~~~shr 0xFF off ||| x) r) := by
  have hd : bitAt dst r = byteBit (dst.getD 0 0) r := by
    rw [← bitAt_mul_add hr, Nat.mul_zero, Nat.zero_add]
  rw [byteBit_or, byteBit_and, byteBit_not hr, byteBit_shr_ones hr, hx, ← hd, Nat.mul_zero,
    Nat.zero_add]
  refine ⟨fun hlt => ?_, fun hge hlt => ?_, fun hge hset => ?_⟩
  · rw [decide_eq_false (by omega : ¬off ≤ r), Bool.not_false, Bool.and_true]
  · rw [decide_eq_true hge, Bool.not_true, Bool.and_false, Bool.false_or]
  · rw [placed_behind hsrc hge, Bool.or_false, Bool.and_eq_true] at hset
    exact hset.1

/-- The bytes after the first hold the field's bits and no other. -/
theorem merged_placed {x : UInt8} {i r : ℕ} (hoff : off < 8) (hi : i ≠ 0)
    (hsrc : src.length = (w + 7) / 8) (hx : byteBit x r = Placed src off w (8 * i + r)) :
    Merged src dst off w (8 * i + r) (byteBit x r) := by
  refine ⟨fun hlt => by omega, fun _ _ => hx, fun hge hset => ?_⟩
  rw [hx, placed_behind hsrc hge] at hset
  cases hset

/-- A byte of a field that moves left. -/
theorem byteBit_left {o i r n : ℕ} (hr : r < 8) (ho : o ≤ 8) (hsrc : src.length ≤ n) (hi : i < n) :
    byteBit (if i + 1 < n then shl (src.getD i 0) o ||| shr (src.getD (i + 1) 0) (8 - o)
      else shl (src.getD i 0) o) r = bitAt src (8 * i + r + o) := by
  rw [← byteBit_merge hr ho]
  split
  · rfl
  · -- There is no byte after the last one to merge with.
    rw [List.getD_eq_default _ _ (by omega : src.length ≤ i + 1), byteBit_or, byteBit_shr hr]
    simp

/-- The first byte of a field that moves right. -/
theorem byteBit_right_first {r : ℕ} (hright : padding w ≤ off) (hr : r < 8) :
    byteBit (shr (src.getD 0 0) (off - padding w)) r = Placed src off w r := by
  rw [byteBit_shr hr, Placed]
  rcases Nat.lt_or_ge (r + padding w) off with hlt | hge
  · rw [decide_eq_false (by omega), decide_eq_false (by omega), Bool.false_and, Bool.false_and]
  · rw [decide_eq_true (by omega), decide_eq_true (by omega), ← bitAt_mul_add (by omega)]
    congr 2
    omega

/-- The bits that are cut off on the right of one byte start the next, -/
theorem byteBit_right_cut {i r : ℕ} (hright : padding w ≤ off) (hoff : off < 8)
    (hr : r < off - padding w) :
    byteBit (shl (src.getD i 0) (8 - (off - padding w))) r = Placed src off w (8 * (i + 1) + r) := by
  rw [byteBit_shl (by omega), decide_eq_true (by omega), Bool.true_and,
    ← bitAt_mul_add (by omega), placed_eq (by omega)]
  congr 1
  omega

/-- and zeros come in behind them. -/
theorem byteBit_right_zero {i r : ℕ} (hr : r < 8) (hge : off - padding w ≤ r) :
    byteBit (shl (src.getD i 0) (8 - (off - padding w))) r = false := by
  rw [byteBit_shl hr, decide_eq_false (by omega), Bool.false_and]

/-- The last byte of such a write keeps what is behind the field. -/
theorem merged_last {i r : ℕ} (hright : padding w < off) (hoff : off < 8) (hr : r < 8)
    (hi : i + 1 < (off + w + 7) / 8) (hlast : ¬i + 1 + 1 < (off + w + 7) / 8) :
    Merged src dst off w (8 * (i + 1) + r)
      (byteBit (dst.getD (i + 1) 0 &&& UInt8.ofNat (2 ^ (8 * ((off + w + 7) / 8) - (off + w)) - 1) |||
        shl (src.getD i 0) (8 - (off - padding w))) r) := by
  have hpad : padding w = 8 * ((w + 7) / 8) - w := rfl
  have hmask : byteBit (UInt8.ofNat (2 ^ (8 * ((off + w + 7) / 8) - (off + w)) - 1)) r =
      decide (off + w ≤ 8 * (i + 1) + r) := by
    rw [byteBit_ofNat_ones (by omega) hr]
    exact decide_eq_decide.mpr (by omega)
  rw [byteBit_or, byteBit_and, hmask]
  refine ⟨fun hlt => by omega, fun _ hlt => ?_, fun hge hset => ?_⟩
  · rw [decide_eq_false (by omega), Bool.and_false, Bool.false_or]
    exact byteBit_right_cut hright.le hoff (by omega)
  · -- Behind the field the byte is as it was.
    rw [byteBit_right_zero hr (by omega), Bool.or_false, Bool.and_eq_true] at hset
    rw [bitAt_mul_add hr]
    exact hset.1

/-! Each way through `generic_deparse` overwrites the field's place. -/

/-- Whole bytes from the start of one: they are copied. -/
theorem overwrote_copied (hsrc : src.length = (w + 7) / 8) (hdst : off + w ≤ 8 * dst.length)
    (halign : off = 0 ∧ w % 8 = 0) :
    ∃ dst', writeBytes dst ((w + 7) / 8) (fun i => src.getD i 0) = .ok dst' ∧
      Overwrote src dst dst' off w := by
  have hpad : padding w = 8 * ((w + 7) / 8) - w := rfl
  rw [(by omega : (w + 7) / 8 = (off + w + 7) / 8)]
  refine overwrote_of_bytes hdst fun i hi r hr => ?_
  have hbyte : byteBit (src.getD i 0) r = Placed src off w (8 * i + r) := by
    rw [placed_eq (by omega), ← bitAt_mul_add hr]
    congr 1
    omega
  refine ⟨fun _ => by omega, fun _ _ => hbyte, fun hge hset => ?_⟩
  rw [hbyte, placed_behind hsrc hge] at hset
  cases hset

/-- The field starts where its padding ends, so that no bit moves in its byte. -/
theorem overwrote_unmoved (hoff : off < 8) (hsrc : src.length = (w + 7) / 8)
    (hdst : off + w ≤ 8 * dst.length) (heq : padding w = off) :
    ∃ dst', writeBytes dst ((off + w + 7) / 8) (fun i =>
        if i = 0 then dst.getD 0 0 &&& ~~~shr 0xFF off ||| src.getD 0 0 else src.getD i 0) =
          .ok dst' ∧ Overwrote src dst dst' off w := by
  refine overwrote_of_bytes hdst fun i hi r hr => ?_
  have hbyte : ∀ k, byteBit (src.getD k 0) r = Placed src off w (8 * k + r) := by
    intro k
    rw [placed_eq (by omega), ← bitAt_mul_add hr]
    congr 1
    omega
  split
  · next hi0 =>
    subst hi0
    exact merged_first hr hsrc (by simpa using hbyte 0)
  · next hi0 => exact merged_placed hoff hi0 hsrc (hbyte i)

/-- It moves left: each byte takes bits of the next one. -/
theorem overwrote_left (hoff : off < 8) (hsrc : src.length = (w + 7) / 8)
    (hdst : off + w ≤ 8 * dst.length) (hlt : off < padding w) :
    ∃ dst', writeBytes dst ((off + w + 7) / 8) (fun i =>
        (if i = 0 then dst.getD 0 0 &&& ~~~shr 0xFF off else 0) |||
          if i + 1 < (off + w + 7) / 8 then
            shl (src.getD i 0) (padding w - off) ||| shr (src.getD (i + 1) 0) (8 - (padding w - off))
          else shl (src.getD i 0) (padding w - off)) = .ok dst' ∧
      Overwrote src dst dst' off w := by
  have hpad : padding w = 8 * ((w + 7) / 8) - w := rfl
  refine overwrote_of_bytes hdst fun i hi r hr => ?_
  have hbyte := @byteBit_left src (padding w - off) i r ((off + w + 7) / 8) hr (by omega)
    (by omega) hi
  have hplace := @placed_eq off w src (8 * i + r) (by omega)
  rw [(by omega : 8 * i + r + (padding w - off) = 8 * i + r + padding w - off), ← hplace] at hbyte
  split
  · next hi0 =>
    subst hi0
    exact merged_first hr hsrc (by simpa using hbyte)
  · next hi0 =>
    refine merged_placed hoff hi0 hsrc ?_
    rw [byteBit_or, byteBit_zero, Bool.false_or]
    exact hbyte

/-- A field of one byte moves right: it may fill a part of a second one. -/
theorem overwrote_right_one (hoff : off < 8) (hsrc : src.length = (w + 7) / 8)
    (hdst : off + w ≤ 8 * dst.length) (hright : padding w < off) (hone : (w + 7) / 8 = 1) :
    ∃ dst', writeBytes dst 2 (fun i =>
        if i = 0 then dst.getD 0 0 &&& ~~~shr 0xFF off ||| shr (src.getD 0 0) (off - padding w)
        else shl (src.getD 0 0) (8 - (off - padding w))) = .ok dst' ∧
      Overwrote src dst dst' off w := by
  have hpad : padding w = 8 * ((w + 7) / 8) - w := rfl
  rw [(by omega : 2 = (off + w + 7) / 8)]
  refine overwrote_of_bytes hdst fun i hi r hr => ?_
  split
  · next hi0 =>
    subst hi0
    exact merged_first hr hsrc (byteBit_right_first hright.le hr)
  · next hi0 =>
    obtain rfl : i = 1 := by omega
    refine merged_placed hoff hi0 hsrc ?_
    rcases Nat.lt_or_ge r (off - padding w) with hlt | hge'
    · exact byteBit_right_cut hright.le hoff hlt
    · rw [byteBit_right_zero hr hge', placed_behind hsrc (by omega)]

/-- A longer one moves right: each byte leaves bits to the next one, so that there may be one
byte more. -/
theorem overwrote_right (hoff : off < 8) (hsrc : src.length = (w + 7) / 8)
    (hdst : off + w ≤ 8 * dst.length) (hright : padding w < off) :
    ∃ dst', writeBytes dst ((off + w + 7) / 8) (fun i =>
        if i = 0 then dst.getD 0 0 &&& ~~~shr 0xFF off ||| shr (src.getD 0 0) (off - padding w)
        else if i + 1 < (off + w + 7) / 8 then
          shl (src.getD (i - 1) 0) (8 - (off - padding w)) ||| shr (src.getD i 0) (off - padding w)
        else (dst.getD i 0 &&& UInt8.ofNat (2 ^ (8 * ((off + w + 7) / 8) - (off + w)) - 1)) |||
          shl (src.getD (i - 1) 0) (8 - (off - padding w))) = .ok dst' ∧
      Overwrote src dst dst' off w := by
  refine overwrote_of_bytes hdst fun i hi r hr => ?_
  split
  · next hi0 =>
    subst hi0
    exact merged_first hr hsrc (byteBit_right_first hright.le hr)
  next hi0 =>
  obtain ⟨i, rfl⟩ : ∃ k, i = k + 1 := ⟨i - 1, by omega⟩
  rw [Nat.add_sub_cancel]
  split
  · -- A byte between the first and the last holds bits of the field only.
    next hmid =>
    refine merged_placed hoff hi0 hsrc ?_
    have hmerge := byteBit_merge (l := src) (i := i) (o := 8 - (off - padding w)) hr (by omega)
    rw [(by omega : 8 - (8 - (off - padding w)) = off - padding w)] at hmerge
    rw [hmerge, placed_eq (by omega)]
    congr 1
    omega
  · next hlast => exact merged_last hright hoff hr hi hlast

/-- **The bits `generic_deparse` writes**, whatever the padding is. -/
theorem genericDeparse_overwrites (hoff : off < 8) (hsrc : src.length = (w + 7) / 8)
    (hdst : off + w ≤ 8 * dst.length) :
    ∃ dst', genericDeparse src w dst off = .ok dst' ∧ Overwrote src dst dst' off w := by
  have hpad : padding w = 8 * ((w + 7) / 8) - w := rfl
  dsimp only [genericDeparse]
  rw [← hpad]
  split
  · -- Nothing is written.
    next h0 =>
    refine ⟨dst, rfl, rfl, fun j => ⟨fun hlt => ?_, fun _ _ => by omega, fun _ h => h⟩, rfl⟩
    have hnone : Placed src off w j = false := by
      rw [Placed, decide_eq_false (by omega), Bool.false_and]
    rw [hnone, Bool.or_false]
  next h0 =>
  rw [if_neg (by omega)]
  split
  · next halign => exact overwrote_copied hsrc hdst halign
  split
  · next heq => exact overwrote_unmoved hoff hsrc hdst heq
  split
  · next hne hlt => exact overwrote_left hoff hsrc hdst hlt
  next hne hge =>
  have hright : padding w < off := by omega
  split
  · next hone => exact overwrote_right_one hoff hsrc hdst hright hone
  · exact overwrote_right hoff hsrc hdst hright

/-- Padding that is in the destination already does not show. -/
theorem genericDeparse_bits (hoff : off < 8) (hsrc : src.length = (w + 7) / 8)
    (hdst : off + w ≤ 8 * dst.length) (habs : Absorbed src dst off w) :
    ∃ dst', genericDeparse src w dst off = .ok dst' ∧ Wrote src dst dst' off w := by
  obtain ⟨dst', hd, hover⟩ := genericDeparse_overwrites hoff hsrc hdst
  refine ⟨dst', hd, hover.length, fun j hj => ?_, hover.rest⟩
  split
  · next hlt =>
    rw [(hover.bits j).before hlt]
    rcases hp : Placed src off w j with _ | _
    · rw [Bool.or_false]
    · rw [habs j hlt hp, Bool.or_true]
  · next hge => exact (hover.bits j).within (by omega) hj

end Parsing

end P4Bricks
