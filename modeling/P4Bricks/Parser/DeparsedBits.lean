import P4Bricks.Common.BitNumbers
import P4Bricks.Parser.Helpers.HeaderCopy
/-!
# The bits of a deparsed header

What `generic_deparse` is for: the bits of a value that is aligned to the right in whole
bytes, at a bit offset of the destination, between what was written before and bytes
that are not its own. Fields written one after the other leave the concatenation of
their bits. A value that has bits set in front of its own sets them in the byte it starts
in, which the fields before it have been written to.
-/

namespace P4Bricks

/-! ## Bit strings -/

theorem getElem?_bytesBits {l : ByteContainer} {j : ℕ} (hj : j < 8 * l.length) :
    (bytesBits l)[j]? = some (bitAt l j) := by
  rw [bytesBits_eq, List.getElem?_map, List.getElem?_range hj, Option.map_some]

theorem getD_bytesBits (l : ByteContainer) (j : ℕ) : (bytesBits l).getD j false = bitAt l j := by
  rcases Nat.lt_or_ge j (8 * l.length) with hlt | hge
  · rw [List.getD_eq_getElem?_getD, getElem?_bytesBits hlt, Option.getD_some]
  · rw [List.getD_eq_default _ _ (by rwa [bytesBits_length]), bitAt_of_length_le hge]

/-- Bit strings of one length are told apart by their bits. -/
theorem bits_ext {l m : List Bool} (hlen : l.length = m.length)
    (h : ∀ j < l.length, l.getD j false = m.getD j false) : l = m := by
  refine List.ext_getElem hlen fun j hj hj' => ?_
  have hbit := h j hj
  rwa [List.getD_eq_getElem _ _ hj, List.getD_eq_getElem _ _ hj'] at hbit

theorem getD_drop (l : List Bool) (k j : ℕ) : (l.drop k).getD j false = l.getD (k + j) false := by
  rw [List.getD_eq_getElem?_getD, List.getElem?_drop, List.getD_eq_getElem?_getD]

theorem getD_take {l : List Bool} {k j : ℕ} (h : j < k) :
    (l.take k).getD j false = l.getD j false := by
  rw [List.getD_eq_getElem?_getD, List.getElem?_take_of_lt h, List.getD_eq_getElem?_getD]

theorem getD_append_add (l m : List Bool) (j : ℕ) :
    (l ++ m).getD (l.length + j) false = m.getD j false := by
  rw [List.getD_append_right _ _ _ _ (by omega), Nat.add_sub_cancel_left]

namespace Parsing

/-! ## Values -/

/-- The bits of a value of `w` bits, kept in whole bytes. -/
def valueBits (src : ByteContainer) (w : ℕ) : List Bool := ((bytesBits src).drop (padding w)).take w

/-- A value of `w` bits has the bytes that hold these. A variable field that was reset has
no bits, whatever bytes it still has. -/
def HasBytes (src : ByteContainer) (w : ℕ) : Prop := w ≠ 0 → src.length = (w + 7) / 8

/-- A value of `w` bits, aligned to the right after zeros. -/
structure RightAligned (src : ByteContainer) (w : ℕ) : Prop where
  hasBytes : HasBytes src w
  zeros : ∀ j < padding w, bitAt src j = false

variable {src dst dst' : ByteContainer} {w off : ℕ} {acc bits pre : List Bool}

theorem valueBits_length (hsrc : HasBytes src w) : (valueBits src w).length = w := by
  have hpad : padding w = 8 * ((w + 7) / 8) - w := rfl
  rw [valueBits, List.length_take, List.length_drop, bytesBits_length]
  by_cases hw : w = 0
  · omega
  · have hlen := hsrc hw
    omega

theorem getD_valueBits {j : ℕ} (hj : j < w) :
    (valueBits src w).getD j false = bitAt src (padding w + j) := by
  rw [valueBits, getD_take hj, getD_drop, getD_bytesBits]

/-! ## What is written -/

/-- The bits after a value was written behind those of `acc`: what stands in front of the
value is added to the bits of the byte it starts in. -/
def written (acc : List Bool) (src : ByteContainer) (w : ℕ) : List Bool :=
  ((List.range acc.length).map fun j => acc.getD j false ||
    (decide (8 * (acc.length / 8) ≤ j) && Placed src acc.length w j)) ++ valueBits src w

theorem written_length (hsrc : HasBytes src w) :
    (written acc src w).length = acc.length + w := by
  rw [written, List.length_append, List.length_map, List.length_range, valueBits_length hsrc]

theorem getD_written {j : ℕ} (h : j < acc.length) : (written acc src w).getD j false =
    (acc.getD j false || (decide (8 * (acc.length / 8) ≤ j) && Placed src acc.length w j)) := by
  rw [written, List.getD_append _ _ _ _ (by simpa using h), List.getD_eq_getElem?_getD,
    List.getElem?_map, List.getElem?_range h]
  rfl

theorem getD_written_add (acc : List Bool) (src : ByteContainer) {w j : ℕ} (hj : j < w) :
    (written acc src w).getD (acc.length + j) false = bitAt src (padding w + j) := by
  have hadd := getD_append_add ((List.range acc.length).map fun j => acc.getD j false ||
    (decide (8 * (acc.length / 8) ≤ j) && Placed src acc.length w j)) (valueBits src w) j
  rw [List.length_map, List.length_range] at hadd
  rw [written, hadd, getD_valueBits hj]

/-- A bit that is set stays set. -/
theorem written_keeps {j : ℕ} (h : acc.getD j false = true) :
    (written acc src w).getD j false = true := by
  have hj : j < acc.length := by
    by_contra hge
    rw [List.getD_eq_default _ _ (by omega)] at h
    cases h
  rw [getD_written hj, h, Bool.true_or]

theorem placed_add {n j : ℕ} : Placed src (n + off) w (n + j) = Placed src off w j := by
  rw [Placed, Placed, (by omega : n + j + padding w - (n + off) = j + padding w - off)]
  congr 1
  exact decide_eq_decide.mpr (by omega)

/-- Whole bytes in front are left alone. -/
theorem written_append (hpre : pre.length % 8 = 0) (hsrc : HasBytes src w) :
    written (pre ++ acc) src w = pre ++ written acc src w := by
  refine bits_ext ?_ fun j hj => ?_
  · rw [written_length hsrc, List.length_append, List.length_append, written_length hsrc,
      Nat.add_assoc]
  rw [written_length hsrc, List.length_append] at hj
  rcases Nat.lt_or_ge j pre.length with hlt | hge
  · have hnot : ¬8 * ((pre.length + acc.length) / 8) ≤ j := by omega
    rw [getD_written (by rw [List.length_append]; omega), List.length_append, decide_eq_false hnot,
      Bool.false_and, Bool.or_false, List.getD_append _ _ _ _ hlt, List.getD_append _ _ _ _ hlt]
  obtain ⟨k, rfl⟩ := Nat.exists_eq_add_of_le hge
  rw [getD_append_add]
  rcases Nat.lt_or_ge k acc.length with hlt | hge'
  · have hbyte : 8 * ((pre.length + acc.length) / 8) ≤ pre.length + k ↔
        8 * (acc.length / 8) ≤ k := by omega
    rw [getD_written (by rw [List.length_append]; omega), getD_written hlt, List.length_append,
      getD_append_add, placed_add, decide_eq_decide.mpr hbyte]
  · obtain ⟨i, rfl⟩ := Nat.exists_eq_add_of_le hge'
    rw [getD_written_add _ _ (by omega), ← Nat.add_assoc, ← List.length_append,
      getD_written_add _ _ (by omega)]

theorem placed_front {j : ℕ} (h : j < off) (hset : Placed src off w j = true) :
    ∃ i < padding w, bitAt src i = true ∧ i + off = j + padding w := by
  rw [Placed, Bool.and_eq_true, decide_eq_true_eq] at hset
  exact ⟨j + padding w - off, by omega, hset.2, by omega⟩

/-- The bits behind those before are the value's when no bit in front of it shows. -/
theorem written_eq_iff {src : ByteContainer} {w : ℕ} :
    written acc src w = acc ++ valueBits src w ↔ ∀ j < acc.length, 8 * (acc.length / 8) ≤ j →
      Placed src acc.length w j = true → acc.getD j false = true := by
  constructor
  · intro h j hj hbyte hset
    have hbit := @getD_written src w acc j hj
    rw [h, List.getD_append _ _ _ _ hj, hset, decide_eq_true hbyte, Bool.and_true,
      Bool.or_true] at hbit
    exact hbit
  · intro h
    rw [written]
    congr 1
    refine bits_ext (by simp) fun j hj => ?_
    have hlt : j < acc.length := by simpa using hj
    rw [List.getD_eq_getElem?_getD, List.getElem?_map, List.getElem?_range hlt, Option.map_some,
      Option.getD_some]
    rcases hp : decide (8 * (acc.length / 8) ≤ j) && Placed src acc.length w j with _ | _
    · rw [Bool.or_false]
    · rw [Bool.and_eq_true, decide_eq_true_eq] at hp
      rw [h j hlt hp.1 hp.2, Bool.true_or]

/-- **A value that is aligned after zeros is added behind the bits before.** -/
theorem written_rightAligned (h : RightAligned src w) :
    written acc src w = acc ++ valueBits src w := by
  refine written_eq_iff.mpr fun j hj _ hset => ?_
  obtain ⟨i, hi, hbit, -⟩ := placed_front hj hset
  rw [h.zeros i hi] at hbit
  cases hbit

/-! ## Where it is written -/

/-- A value without bits needs no bytes. -/
theorem genericDeparse_of_hasBytes (hoff : off < 8) (hsrc : HasBytes src w)
    (hdst : off + w ≤ 8 * dst.length) :
    ∃ dst', genericDeparse src w dst off = .ok dst' ∧ Overwrote src dst dst' off w := by
  by_cases hw : w = 0
  · refine ⟨dst, by rw [genericDeparse, if_pos hw], rfl, fun j => ?_, rfl⟩
    subst hw
    have hpad : padding 0 = 0 := rfl
    refine ⟨fun hlt => ?_, fun _ _ => by omega, fun _ h => h⟩
    rw [Placed, decide_eq_false (by omega), Bool.false_and, Bool.or_false]
  · exact genericDeparse_overwrites hoff (hsrc hw) hdst

/-- The destination starts with the bits; behind them no bit was set, and the bytes that
hold none of them are as they were. -/
structure Filled (bits : List Bool) (dst dst' : ByteContainer) : Prop where
  length : dst'.length = dst.length
  holds : ∀ j < bits.length, bitAt dst' j = bits.getD j false
  behind : ∀ j, bits.length ≤ j → bitAt dst' j = true → bitAt dst j = true
  rest : dst'.drop ((bits.length + 7) / 8) = dst.drop ((bits.length + 7) / 8)

theorem Overwrote.filled (h : Overwrote src dst dst' acc.length w) (hoff : acc.length < 8)
    (hsrc : HasBytes src w) (hacc : ∀ j < acc.length, bitAt dst j = acc.getD j false) :
    Filled (written acc src w) dst dst' := by
  have hlen := @written_length src w acc hsrc
  refine ⟨h.length, fun j hj => ?_, fun j hj => (h.bits j).behind (by omega), by
    rw [hlen]
    exact h.rest⟩
  rcases Nat.lt_or_ge j acc.length with hlt | hge
  · rw [(h.bits j).before hlt, getD_written hlt, hacc j hlt, decide_eq_true (by omega),
      Bool.true_and]
  · obtain ⟨k, rfl⟩ := Nat.exists_eq_add_of_le hge
    rw [(h.bits _).within hge (by omega), getD_written_add _ _ (by omega), placed_eq (by omega)]
    congr 1
    omega

/-- What comes after the first bytes is filled on its own. -/
theorem Filled.append {k : ℕ} {dst₁ dst₂ : ByteContainer} (h : Filled acc dst dst₁)
    (hk : k = acc.length / 8) (hdst : acc.length ≤ 8 * dst.length)
    (hext : acc.length ≤ 8 * k + bits.length)
    (h₂ : Filled bits (dst₁.drop k) dst₂) : Filled (acc.take (8 * k) ++ bits) dst (dst₁.take k ++ dst₂) := by
  have hlen := h.length
  have hlen₂ := h₂.length
  rw [List.length_drop] at hlen₂
  have htake : (dst₁.take k).length = k := by
    rw [List.length_take]
    omega
  have hbits : (acc.take (8 * k)).length = 8 * k := by
    rw [List.length_take]
    omega
  refine ⟨by rw [List.length_append, htake]; omega, fun j hj => ?_, fun j hj hset => ?_, ?_⟩
  · rw [List.length_append, hbits] at hj
    -- The first `k` bytes are those of the first run; a bit after them is a bit of the second.
    rcases Nat.lt_or_ge j (8 * k) with hlt | hge
    · rw [bitAt_append_left (by omega), bitAt_take hlt, h.holds j (by omega),
        List.getD_append _ _ _ _ (by omega), getD_take hlt]
    · obtain ⟨i, rfl⟩ := Nat.exists_eq_add_of_le hge
      have hright := @bitAt_append_right (dst₁.take k) dst₂ i
      have hgetD := getD_append_add (acc.take (8 * k)) bits i
      rw [htake] at hright
      rw [hbits] at hgetD
      rw [hright, hgetD, h₂.holds i (by omega)]
  · rw [List.length_append, hbits] at hj
    obtain ⟨i, rfl⟩ := Nat.exists_eq_add_of_le (by omega : 8 * k ≤ j)
    have hright := @bitAt_append_right (dst₁.take k) dst₂ i
    rw [htake] at hright
    rw [hright] at hset
    have hset₁ := h₂.behind i (by omega) hset
    rw [bitAt_drop] at hset₁
    exact h.behind _ (by omega) hset₁
  · have hend : ((acc.take (8 * k) ++ bits).length + 7) / 8 = k + (bits.length + 7) / 8 := by
      rw [List.length_append, hbits]
      omega
    have hpast : k + (bits.length + 7) / 8 =
        (acc.length + 7) / 8 + (k + (bits.length + 7) / 8 - (acc.length + 7) / 8) := by omega
    rw [hend, ← List.drop_drop, List.drop_left' htake, h₂.rest, List.drop_drop, hpast,
      ← List.drop_drop, h.rest, List.drop_drop]

/-- The bits were stored at the offset: those before it are as they were, and no byte is
written after the last one that holds a bit of theirs. -/
structure Stores (bits : List Bool) (dst dst' : ByteContainer) (off : ℕ) : Prop where
  length : dst'.length = dst.length
  stored : (bytesBits dst').take (off + bits.length) = (bytesBits dst).take off ++ bits
  beyond : ∀ n, (bits ≠ [] → off + bits.length ≤ 8 * n) → dst'.drop n = dst.drop n

/-- What fills the destination from the bits it starts with on is stored behind these. -/
theorem Filled.stores (h : Filled (acc ++ bits) dst dst') (hacc : acc = (bytesBits dst).take off)
    (hdst : off + bits.length ≤ 8 * dst.length) (hempty : bits = [] → dst' = dst) :
    Stores bits dst dst' off := by
  have hlen : acc.length = off := by
    rw [hacc, List.length_take, bytesBits_length]
    omega
  have hlen' := h.length
  refine ⟨hlen', ?_, fun n hn => ?_⟩
  · rw [← hacc]
    refine bits_ext ?_ fun j hj => ?_
    · rw [List.length_take, bytesBits_length, List.length_append]
      omega
    · rw [List.length_take, bytesBits_length] at hj
      rw [getD_take (by omega), getD_bytesBits, h.holds j (by rw [List.length_append]; omega)]
  · by_cases hb : bits = []
    · rw [hempty hb]
    · have hlast := hn hb
      have hrest := h.rest
      rw [List.length_append, hlen] at hrest
      obtain ⟨k, rfl⟩ := Nat.exists_eq_add_of_le (by omega : (off + bits.length + 7) / 8 ≤ n)
      rw [← List.drop_drop, hrest, List.drop_drop]

/-- A value that is aligned after zeros is stored. -/
theorem genericDeparse_stores (hoff : off < 8) (hsrc : RightAligned src w)
    (hdst : off + w ≤ 8 * dst.length) :
    ∃ dst', genericDeparse src w dst off = .ok dst' ∧ Stores (valueBits src w) dst dst' off := by
  have hacc : ((bytesBits dst).take off).length = off := by
    rw [List.length_take, bytesBits_length]
    omega
  obtain ⟨dst', hd, hover⟩ := genericDeparse_of_hasBytes hoff hsrc.hasBytes hdst
  refine ⟨dst', hd, ?_⟩
  have hfill : Filled (written ((bytesBits dst).take off) src w) dst dst' := by
    refine Overwrote.filled (by rwa [hacc]) (by omega) hsrc.hasBytes fun j hj => ?_
    rw [getD_take (by omega), getD_bytesBits]
  rw [written_rightAligned hsrc] at hfill
  refine hfill.stores rfl (by rw [valueBits_length hsrc.hasBytes]; omega) fun hnone => ?_
  -- Nothing at all is written of a value without bits.
  have hw : w = 0 := by
    rw [← valueBits_length hsrc.hasBytes, hnone]
    rfl
  rw [genericDeparse, if_pos hw] at hd
  exact (Except.ok.inj hd).symm

end Parsing

open Parsing

/-! ## Headers -/

namespace Header

variable {fields : List Field} {acc pre : List Bool} {dst : ByteContainer}

/-- The bits after the fields were written behind those of `acc`. -/
def writtenFields (acc : List Bool) (fields : List Field) : List Bool :=
  fields.foldl (fun acc f => written acc f.bytes f.nbits) acc

/-- The values have the bytes of their widths. -/
def Kept (fields : List Field) : Prop := ∀ f ∈ fields, HasBytes f.bytes f.nbits

theorem writtenFields_length (hkept : Kept fields) :
    (writtenFields acc fields).length = acc.length + (fields.map Field.nbits).sum := by
  induction fields generalizing acc with
  | nil => rfl
  | cons f fields ih =>
    rw [writtenFields, List.foldl_cons, ← writtenFields, ih fun g hg => hkept g (by simp [hg]),
      written_length (hkept f (by simp)), List.map_cons, List.sum_cons, Nat.add_assoc]

theorem writtenFields_append (hpre : pre.length % 8 = 0) (hkept : Kept fields) :
    writtenFields (pre ++ acc) fields = pre ++ writtenFields acc fields := by
  induction fields generalizing acc with
  | nil => rfl
  | cons f fields ih =>
    rw [writtenFields, List.foldl_cons, written_append hpre (hkept f (by simp))]
    exact ih fun g hg => hkept g (by simp [hg])

/-- **What the loop of `Header::deparse` leaves.** -/
theorem deparseFields_fills (hkept : Kept fields) (hvis : ∀ f ∈ fields, ¬f.hidden)
    (hoff : acc.length < 8) (hdst : acc.length + (fields.map Field.nbits).sum ≤ 8 * dst.length)
    (hacc : ∀ j < acc.length, bitAt dst j = acc.getD j false) :
    ∃ dst', deparseFields dst acc.length fields = .ok dst' ∧
      Filled (writtenFields acc fields) dst dst' := by
  induction fields generalizing acc dst with
  | nil => exact ⟨dst, rfl, rfl, hacc, fun _ _ h => h, rfl⟩
  | cons f fields ih =>
    rw [List.map_cons, List.sum_cons] at hdst
    have hsrc := hkept f (by simp)
    have hkept' : Kept fields := fun g hg => hkept g (by simp [hg])
    obtain ⟨dst₁, hd₁, hover⟩ := genericDeparse_of_hasBytes hoff hsrc (by omega : _ ≤ 8 * dst.length)
    have hfill := hover.filled hoff hsrc hacc
    have hlen₁ := hfill.length
    have hwlen := @written_length f.bytes f.nbits acc hsrc
    -- The loop goes on with the bits of the byte that is not full.
    obtain ⟨k, hk⟩ : ∃ k, k = (acc.length + f.nbits) / 8 := ⟨_, rfl⟩
    have hcut : ((written acc f.bytes f.nbits).drop (8 * k)).length = (acc.length + f.nbits) % 8 := by
      rw [List.length_drop, hwlen]
      omega
    have hpre : ((written acc f.bytes f.nbits).take (8 * k)).length = 8 * k := by
      rw [List.length_take, hwlen]
      omega
    obtain ⟨dst₂, hd₂, hfill₂⟩ := ih hkept' (fun g hg => hvis g (by simp [hg]))
      (by omega : ((written acc f.bytes f.nbits).drop (8 * k)).length < 8)
      (by rw [List.length_drop (l := dst₁) (i := k)]; omega)
      (fun j hj => by rw [bitAt_drop, getD_drop, hfill.holds _ (by omega)])
    refine ⟨dst₁.take k ++ dst₂, ?_, ?_⟩
    · rw [hcut] at hd₂
      rw [deparseFields, if_neg (hvis f (by simp)), Field.deparse, hd₁]
      simp only [bind, Except.bind]
      rw [← hk, hd₂]
    · have hstep : writtenFields acc (f :: fields) = (written acc f.bytes f.nbits).take (8 * k) ++
          writtenFields ((written acc f.bytes f.nbits).drop (8 * k)) fields := by
        rw [← writtenFields_append (by omega) hkept', List.take_append_drop]
        rfl
      rw [hstep]
      refine hfill.append (by rw [hwlen, hk]) (by omega) ?_ hfill₂
      rw [writtenFields_length hkept', hcut, hwlen]
      omega

/-- The bits of the fields that are on the wire, in order. -/
def bits (h : Header) : List Bool := h.packetFields.flatMap fun f => valueBits f.bytes f.nbits

theorem writtenFields_rightAligned (h : ∀ f ∈ fields, RightAligned f.bytes f.nbits) :
    writtenFields acc fields = acc ++ fields.flatMap fun f => valueBits f.bytes f.nbits := by
  induction fields generalizing acc with
  | nil => exact (List.append_nil acc).symm
  | cons f fields ih =>
    rw [writtenFields, List.foldl_cons, written_rightAligned (h f (by simp)), ← writtenFields,
      ih fun g hg => h g (by simp [hg]), List.flatMap_cons, List.append_assoc]

theorem packetFields_visible {h : Header} {f : Field} (hf : f ∈ h.packetFields) : ¬f.hidden := by
  have hvis := List.mem_takeWhile_imp hf
  simpa using hvis

/-- **`generic_deparse` stores the bits of a value, and `Header::deparse` those of its
fields, one after the other.** -/
theorem deparse_stores {src dst out : ByteContainer} {w off : ℕ} {h : Header} (hoff : off < 8)
    (hsrc : RightAligned src w) (hdst : off + w ≤ 8 * dst.length)
    (hfields : ∀ f ∈ h.packetFields, RightAligned f.bytes f.nbits)
    (hout : h.nbits ≤ 8 * out.length) :
    (∃ dst', genericDeparse src w dst off = .ok dst' ∧ Stores (valueBits src w) dst dst' off) ∧
      ∃ out', h.deparse out = .ok out' ∧ Stores h.bits out out' 0 := by
  refine ⟨genericDeparse_stores hoff hsrc hdst, ?_⟩
  have hnone : ([] : List Bool) = (bytesBits out).take 0 := (List.take_zero).symm
  obtain ⟨out', hd, hfill⟩ := @deparseFields_fills h.packetFields [] out
    (fun f hf => (hfields f hf).hasBytes) (fun f hf => packetFields_visible hf) (by simp)
    (by simpa [nbits] using hout) (by simp)
  have hwritten : writtenFields [] h.packetFields = h.bits := writtenFields_rightAligned hfields
  have hbits : h.bits.length = h.nbits := by
    rw [← hwritten, writtenFields_length fun f hf => (hfields f hf).hasBytes, nbits]
    exact Nat.zero_add _
  rw [hwritten] at hfill
  refine ⟨out', ?_, ?_⟩
  · rw [deparse, deparseFields_takeWhile]
    exact hd
  · have hfill' : Filled ([] ++ h.bits) out out' := hfill
    refine hfill'.stores hnone (by omega) fun hempty => ?_
    -- A header without bits leaves every byte.
    have hrest := hfill.rest
    rw [hempty] at hrest
    exact hrest

/-- A header of four and twelve bits, and eleven bits from the sixth on. -/
def nibbleHeader : Header :=
  ⟨0, [{ arith := true, value := 0xA, nbits := 4, bytes := [0x0A] },
    { arith := true, value := 0xBCD, nbits := 12, bytes := [0x0B, 0xCD] }], true, false, 2, none⟩

theorem nibbleHeader_stores :
    (∃ dst', genericDeparse [0x07, 0xFF] 11 [0xFF, 0, 0xFF] 5 = .ok dst' ∧
      Stores (valueBits [0x07, 0xFF] 11) [0xFF, 0, 0xFF] dst' 5) ∧
    ∃ out', nibbleHeader.deparse [0, 0, 0x55] = .ok out' ∧
      Stores nibbleHeader.bits [0, 0, 0x55] out' 0 :=
  deparse_stores (by decide) ⟨fun _ => rfl, by decide⟩ (by decide) (by
    intro f hf
    have hcases : f = { arith := true, value := 0xA, nbits := 4, bytes := [0x0A] } ∨
        f = { arith := true, value := 0xBCD, nbits := 12, bytes := [0x0B, 0xCD] } := by
      simpa [nibbleHeader, packetFields] using hf
    rcases hcases with rfl | rfl
    · exact ⟨fun _ => rfl, by decide⟩
    · exact ⟨fun _ => rfl, by decide⟩) (by decide)

end Header

end P4Bricks
