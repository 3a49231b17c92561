import P4Bricks.Calculations.Model
import P4Bricks.Parser.DeparsedBits
/-!
# What is hashed

The buffer of a calculation is meant to be the bits of its entries, one after the other,
in whole bytes. Each value is added to the byte in which the bits before it end, with the
bits that it has in front of its own: the buffer is as it is meant to be when these are
in the byte already.
-/

namespace P4Bricks

namespace Calculations

open Parsing

/-! ## The entries' bits -/

/-- A value and its width. -/
abbrev Value := ByteContainer × ℕ

def fieldValue (f : Field) : Value := (f.bytes, f.nbits)

/-- The values an entry adds: none if its header is not valid. -/
def Entry.values (phv : Phv) : Entry → List Value
  | .field h fieldOffset => (phv.headers[h]?.toList.filter Header.isValid).flatMap fun hdr =>
    (hdr.getField fieldOffset).toList.map fieldValue
  | .constant v nbits => [(v, nbits)]
  | .header h => (phv.headers[h]?.toList.filter Header.isValid).flatMap fun hdr =>
    hdr.packetFields.map fieldValue

def valuesBits (values : List Value) : List Bool := values.flatMap fun v => valueBits v.1 v.2

def entryBits (phv : Phv) (entries : List Entry) : List Bool :=
  valuesBits (entries.flatMap (Entry.values phv))

/-- The bits in whole bytes, with zeros behind them. -/
def Packs (bits : List Bool) (buf : ByteContainer) : Prop :=
  bytesBits buf = bits ++ List.replicate (padding bits.length) false

/-! ## A packet and an input list -/

/-- The fields of the packet have the bytes of their widths, and its headers those of
their fields. -/
structure Regular (phv : Phv) : Prop where
  kept : ∀ hdr ∈ phv.headers, Header.Kept hdr.fields
  sized : ∀ hdr ∈ phv.headers, hdr.nbits = 8 * hdr.nbytesPacket

/-- What the entry names is there, and a constant has its exact size. -/
def Entry.Fits (phv : Phv) : Entry → Prop
  | .field h fieldOffset => ∃ hdr f, phv.headers[h]? = some hdr ∧ hdr.getField fieldOffset = some f
  | .constant v nbits => HasBytes v nbits
  | .header h => ∃ hdr, phv.headers[h]? = some hdr

/-- Whole headers are added after whole bytes only. -/
def Aligned (phv : Phv) (n : ℕ) (entries : List Entry) : Prop :=
  ∀ pre h post, entries = pre ++ .header h :: post → (n + (entryBits phv pre).length) % 8 = 0

/-! ## Values one after the other -/

/-- The bits after the values were written behind those of `acc`. -/
def writtenValues (acc : List Bool) (values : List Value) : List Bool :=
  values.foldl (fun acc v => written acc v.1 v.2) acc

/-- What each value has in front of its own bits is there already. -/
def Absorbs : List Bool → List Value → Prop
  | _, [] => True
  | acc, (src, w) :: values =>
    (∀ j < acc.length, 8 * (acc.length / 8) ≤ j → Placed src acc.length w j = true →
      acc.getD j false = true) ∧ Absorbs (acc ++ valueBits src w) values

variable {acc bits : List Bool} {values : List Value} {phv : Phv} {s s' : Deparse}

theorem writtenValues_append (acc : List Bool) (values values' : List Value) :
    writtenValues acc (values ++ values') = writtenValues (writtenValues acc values) values' :=
  List.foldl_append

theorem valuesBits_cons (v : Value) (values : List Value) :
    valuesBits (v :: values) = valueBits v.1 v.2 ++ valuesBits values := List.flatMap_cons

theorem valuesBits_append (values values' : List Value) :
    valuesBits (values ++ values') = valuesBits values ++ valuesBits values' := List.flatMap_append

theorem writtenValues_length (hall : ∀ v ∈ values, HasBytes v.1 v.2) :
    (writtenValues acc values).length = acc.length + (valuesBits values).length := by
  induction values generalizing acc with
  | nil => rfl
  | cons v values ih =>
    have hv : HasBytes v.1 v.2 := hall v (by simp)
    rw [writtenValues, List.foldl_cons, ← writtenValues, ih fun x hx => hall x (by simp [hx]),
      written_length hv, valuesBits_cons, List.length_append, valueBits_length hv, Nat.add_assoc]

/-- A bit that is set is never cleared. -/
theorem writtenValues_keeps {j : ℕ} (h : acc.getD j false = true) :
    (writtenValues acc values).getD j false = true := by
  induction values generalizing acc with
  | nil => exact h
  | cons v values ih => exact ih (written_keeps h)

/-- **The values are added one after the other** when each is absorbed, and only then:
a bit that comes in front of a value stays. -/
theorem writtenValues_eq_iff :
    writtenValues acc values = acc ++ valuesBits values ↔ Absorbs acc values := by
  induction values generalizing acc with
  | nil => simp [writtenValues, valuesBits, Absorbs]
  | cons v values ih =>
    obtain ⟨src, w⟩ := v
    rw [valuesBits_cons, ← List.append_assoc, Absorbs, ← written_eq_iff, writtenValues,
      List.foldl_cons, ← writtenValues]
    by_cases hw : written acc src w = acc ++ valueBits src w
    · rw [hw, ih, and_iff_right rfl]
    refine iff_of_false (fun h => hw ?_) fun h => hw h.1
    -- A bit of the value that is not absorbed is in the result too.
    rw [written_eq_iff]
    intro j hj hbyte hset
    have hbit : (written acc src w).getD j false = true := by
      rw [getD_written hj, hset, decide_eq_true hbyte, Bool.and_true, Bool.or_true]
    have hlast := @writtenValues_keeps _ values j hbit
    rwa [h, List.append_assoc, List.getD_append _ _ _ _ hj] at hlast

/-! ## The visitor -/

namespace Deparse

/-- The visitor has written these bits. -/
structure Wrote (s : Deparse) (acc : List Bool) : Prop where
  nbits : s.nbits = acc.length
  length : s.buf.length = (acc.length + 7) / 8
  bits : ∀ j, bitAt s.buf j = acc.getD j false

theorem resize_length (bytes : ByteContainer) {n : ℕ} (h : bytes.length ≤ n) :
    (resize bytes n).length = n := by
  rw [resize, List.length_append, List.length_take, List.length_replicate]
  omega

theorem bitAt_resize (bytes : ByteContainer) {n : ℕ} (h : bytes.length ≤ n) (j : ℕ) :
    bitAt (resize bytes n) j = bitAt bytes j := by
  rw [resize, List.take_of_length_le h]
  rcases Nat.lt_or_ge j (8 * bytes.length) with hlt | hge
  · rw [bitAt_append_left hlt]
  · obtain ⟨k, rfl⟩ := Nat.exists_eq_add_of_le hge
    rw [bitAt_append_right, bitAt_of_length_le hge, bitAt]
    simp

/-- What is written behind the bits is there afterwards, with zeros behind it. -/
theorem extend_wrote (hs : s.Wrote acc) {n : ℕ} {write : ByteContainer → Except Stop ByteContainer}
    (hlen : bits.length = acc.length % 8 + n)
    (hwrite : ∀ dst : ByteContainer, acc.length % 8 + n ≤ 8 * dst.length →
      (∀ j < acc.length % 8, bitAt dst j = (acc.drop (8 * (acc.length / 8))).getD j false) →
      ∃ dst', write dst = .ok dst' ∧ Filled bits dst dst') :
    ∃ s', s.extend n write = .ok s' ∧ s'.Wrote (acc.take (8 * (acc.length / 8)) ++ bits) := by
  have hbuf := hs.length
  have hle : s.buf.length ≤ (acc.length + n + 7) / 8 := by omega
  obtain ⟨buf, hdef⟩ : ∃ buf, buf = resize s.buf ((acc.length + n + 7) / 8) := ⟨_, rfl⟩
  have hnew : buf.length = (acc.length + n + 7) / 8 := by rw [hdef, resize_length _ hle]
  have hold : ∀ j, bitAt buf j = acc.getD j false := fun j => by
    rw [hdef, bitAt_resize _ hle, hs.bits]
  obtain ⟨dst', hw, hfill⟩ := hwrite (buf.drop (acc.length / 8))
    (by rw [List.length_drop]; omega) fun j _ => by rw [bitAt_drop, hold, getD_drop]
  have hstart : Filled acc buf buf := ⟨rfl, fun j _ => hold j, fun _ _ h => h, rfl⟩
  have hall := hstart.append rfl (by omega) (by omega) hfill
  have htake : (acc.take (8 * (acc.length / 8))).length = 8 * (acc.length / 8) := by
    rw [List.length_take]
    omega
  refine ⟨⟨buf.take (acc.length / 8) ++ dst', acc.length + n⟩, ?_, ?_, ?_, fun j => ?_⟩
  · rw [extend, hs.nbits, ← hdef, hw]
    rfl
  · rw [List.length_append, htake]
    dsimp only
    omega
  · rw [hall.length, hnew, List.length_append, htake]
    omega
  · rcases Nat.lt_or_ge j (acc.take (8 * (acc.length / 8)) ++ bits).length with hlt | hge
    · exact hall.holds j hlt
    · -- No bit was there before, and none has come.
      rw [List.getD_eq_default _ _ hge]
      refine Bool.eq_false_iff.mpr fun hset => ?_
      have hset' := hall.behind j hge hset
      rw [List.length_append, htake] at hge
      rw [hold, List.getD_eq_default _ _ (by omega)] at hset'
      cases hset'

/-- A value is written behind the bits. -/
theorem extend_value (hs : s.Wrote acc) {src : ByteContainer} {w : ℕ} (hsrc : HasBytes src w) :
    ∃ s', s.extend w (fun dst => genericDeparse src w dst s.getOffset) = .ok s' ∧
      s'.Wrote (written acc src w) := by
  have hdrop : (acc.drop (8 * (acc.length / 8))).length = acc.length % 8 := by
    rw [List.length_drop]
    omega
  have htake : (acc.take (8 * (acc.length / 8))).length % 8 = 0 := by
    rw [List.length_take]
    omega
  have hoff : s.getOffset = acc.length % 8 := by rw [getOffset, hs.nbits]
  have hlen := @written_length src w (acc.drop (8 * (acc.length / 8))) hsrc
  rw [hdrop] at hlen
  obtain ⟨s', hx, hs'⟩ := @extend_wrote acc _ s hs w
    (fun dst => genericDeparse src w dst s.getOffset) hlen fun dst hdst hacc => by
      obtain ⟨dst', hd, hover⟩ := genericDeparse_of_hasBytes (by omega : acc.length % 8 < 8) hsrc hdst
      refine ⟨dst', by rw [hoff, hd], Overwrote.filled ?_ (by omega) hsrc ?_⟩
      · rwa [hdrop]
      · rwa [hdrop]
  rw [← written_append htake hsrc, List.take_append_drop] at hs'
  exact ⟨s', hx, hs'⟩

/-- A header is written behind whole bytes. -/
theorem extend_header (hs : s.Wrote acc) {hdr : Header} (hoff : acc.length % 8 = 0)
    (hkept : Header.Kept hdr.packetFields) (hsized : hdr.nbits = 8 * hdr.nbytesPacket) :
    ∃ s', s.extend (hdr.nbytesPacket * 8) hdr.deparse = .ok s' ∧
      s'.Wrote (Header.writtenFields acc hdr.packetFields) := by
  have htake : acc.take (8 * (acc.length / 8)) = acc := List.take_of_length_le (by omega)
  have hlen := @Header.writtenFields_length hdr.packetFields [] hkept
  have hsum : (hdr.packetFields.map Field.nbits).sum = hdr.nbits := rfl
  rw [List.length_nil, hsum] at hlen
  obtain ⟨s', hx, hs'⟩ := @extend_wrote acc (Header.writtenFields [] hdr.packetFields) s hs
    (hdr.nbytesPacket * 8) hdr.deparse (by omega) fun dst hdst _ => by
      obtain ⟨dst', hd, hfill⟩ := @Header.deparseFields_fills hdr.packetFields [] dst hkept
        (fun f hf => Header.packetFields_visible hf) (by simp)
        (by rw [hsum, List.length_nil]; omega) (by simp)
      refine ⟨dst', ?_, hfill⟩
      rw [Header.deparse, Header.deparseFields_takeWhile]
      exact hd
  rw [htake, ← Header.writtenFields_append hoff hkept, List.append_nil] at hs'
  exact ⟨s', hx, hs'⟩

/-- **One entry** is written behind the bits. -/
theorem visit_wrote (hs : s.Wrote acc) (hreg : Regular phv) {e : Entry} (hfits : e.Fits phv)
    (hoff : ∀ h, e = .header h → acc.length % 8 = 0) :
    ∃ s', visit phv s e = .ok s' ∧ s'.Wrote (writtenValues acc (e.values phv)) := by
  cases e with
  | field h fieldOffset =>
    obtain ⟨hdr, f, hhdr, hf⟩ := hfits
    simp only [visit, Entry.values, hhdr, hf, required, bind, Except.bind, Option.toList_some,
      List.filter_cons, List.filter_nil]
    split
    · have hkept := hreg.kept hdr (List.mem_of_getElem? hhdr) f (List.mem_of_getElem? hf)
      simpa [writtenValues, fieldValue, hf, Field.deparse] using extend_value hs hkept
    · exact ⟨s, rfl, hs⟩
  | constant v nbits => exact extend_value hs hfits
  | header h =>
    obtain ⟨hdr, hhdr⟩ := hfits
    have halign := hoff h rfl
    have hzero : s.getOffset = 0 := by rw [getOffset, hs.nbits, halign]
    simp only [visit, Entry.values, hhdr, hzero, ne_eq, not_true_eq_false, if_false, required, bind,
      Except.bind, Option.toList_some, List.filter_cons, List.filter_nil]
    split
    · have hmem := List.mem_of_getElem? hhdr
      have hkept : Header.Kept hdr.packetFields :=
        fun f hf => hreg.kept hdr hmem f ((List.takeWhile_sublist _).subset hf)
      obtain ⟨s', hx, hs'⟩ := extend_header hs halign hkept (hreg.sized hdr hmem)
      refine ⟨s', hx, ?_⟩
      simpa [writtenValues, Header.writtenFields, fieldValue, List.foldl_map] using hs'
    · exact ⟨s, rfl, hs⟩

end Deparse

variable {entries : List Entry}

theorem hasBytes_of_fits (hreg : Regular phv) {e : Entry} (hfits : e.Fits phv) :
    ∀ v ∈ e.values phv, HasBytes v.1 v.2 := by
  intro v hv
  cases e with
  | field h fieldOffset =>
    obtain ⟨hdr, hhdr, f, hf, rfl⟩ : ∃ hdr, hdr ∈ phv.headers[h]?.toList.filter Header.isValid ∧
        ∃ f, hdr.getField fieldOffset = some f ∧ fieldValue f = v := by
      simpa [Entry.values] using hv
    have hmem := List.mem_of_getElem? (Option.mem_toList.mp (List.mem_of_mem_filter hhdr))
    exact hreg.kept hdr hmem f (List.mem_of_getElem? hf)
  | constant c nbits =>
    obtain rfl : v = (c, nbits) := by simpa [Entry.values] using hv
    exact hfits
  | header h =>
    obtain ⟨hdr, hhdr, hv⟩ := List.mem_flatMap.mp hv
    obtain ⟨f, hf, rfl⟩ := List.mem_map.mp hv
    have hmem := List.mem_of_getElem? (Option.mem_toList.mp (List.mem_of_mem_filter hhdr))
    exact hreg.kept hdr hmem f ((List.takeWhile_sublist _).subset hf)

/-- **The whole list** is written behind the bits. -/
theorem visits_wrote (hs : s.Wrote acc) (hreg : Regular phv) (hfits : ∀ e ∈ entries, e.Fits phv)
    (halign : Aligned phv acc.length entries) :
    ∃ s', entries.foldlM (Deparse.visit phv) s = .ok s' ∧
      s'.Wrote (writtenValues acc (entries.flatMap (Entry.values phv))) := by
  induction entries generalizing acc s with
  | nil => exact ⟨s, rfl, hs⟩
  | cons e entries ih =>
    have hfe := hfits e (by simp)
    obtain ⟨s₁, hx, hs₁⟩ := Deparse.visit_wrote hs hreg hfe fun h he => by
      have hhere := halign [] h entries (by rw [he, List.nil_append])
      simpa [entryBits, valuesBits] using hhere
    obtain ⟨s₂, hx₂, hs₂⟩ := ih hs₁ (fun e' he' => hfits e' (by simp [he'])) fun pre h post hsplit => by
      have hthere := halign (e :: pre) h post (by rw [hsplit, List.cons_append])
      rw [entryBits, List.flatMap_cons, valuesBits_append, List.length_append] at hthere
      rw [writtenValues_length (hasBytes_of_fits hreg hfe), entryBits, Nat.add_assoc]
      exact hthere
    refine ⟨s₂, ?_, ?_⟩
    · rw [List.foldlM_cons, hx]
      exact hx₂
    · rwa [List.flatMap_cons, writtenValues_append]

theorem Deparse.Wrote.packs (hs : s.Wrote acc) : Packs acc s.buf := by
  have hpad : padding acc.length = 8 * ((acc.length + 7) / 8) - acc.length := rfl
  have hlen := hs.length
  refine bits_ext ?_ fun j hj => ?_
  · rw [bytesBits_length, List.length_append, List.length_replicate]
    omega
  · rw [getD_bytesBits, hs.bits]
    rcases Nat.lt_or_ge j acc.length with hlt | hge
    · rw [List.getD_append _ _ _ _ hlt]
    · rw [List.getD_eq_default _ _ hge, List.getD_append_right _ _ _ _ hge]
      simp

/-- A buffer is packed in one way, and it tells the bits if their number is known. -/
theorem Packs.bits_eq {buf : ByteContainer} (h : Packs acc buf) (h' : Packs bits buf)
    (hlen : acc.length = bits.length) : acc = bits := by
  have heq : acc ++ List.replicate (padding acc.length) false =
      bits ++ List.replicate (padding bits.length) false := h.symm.trans h'
  exact (List.append_inj heq hlen).1

/-- **What is hashed**: the bits of the entries in order, in whole bytes, and the payload
if it is asked for, exactly when each value finds the bits in front of its own in the
byte it starts in. -/
theorem build_packs_iff (b : BufBuilder) (phv : Phv) (data : ByteContainer) (hreg : Regular phv)
    (hfits : ∀ e ∈ b.entries, e.Fits phv) (halign : Aligned phv 0 b.entries) :
    (∃ buf, b.build phv data = .ok (buf ++ if b.withPayload then data else []) ∧
      Packs (entryBits phv b.entries) buf) ↔
    Absorbs [] (b.entries.flatMap (Entry.values phv)) := by
  have hstart : Deparse.Wrote {} [] := ⟨rfl, rfl, fun j => by simp [bitAt]⟩
  obtain ⟨s, hx, hs⟩ := visits_wrote hstart hreg hfits halign
  have hbuild : b.build phv data = .ok (s.buf ++ if b.withPayload then data else []) := by
    rw [BufBuilder.build, hx]
    simp only [bind, Except.bind]
    split
    · rfl
    · rw [List.append_nil]
  have hall : ∀ v ∈ b.entries.flatMap (Entry.values phv), HasBytes v.1 v.2 := fun v hv => by
    obtain ⟨e, he, hv⟩ := List.mem_flatMap.mp hv
    exact hasBytes_of_fits hreg (hfits e he) v hv
  rw [← writtenValues_eq_iff, List.nil_append]
  constructor
  · rintro ⟨buf, hb, hpacks⟩
    obtain rfl : buf = s.buf :=
      List.append_cancel_right (Except.ok.inj (hb.symm.trans hbuild))
    refine hs.packs.bits_eq hpacks ?_
    rw [writtenValues_length hall, List.length_nil, Nat.zero_add]
  · intro heq
    refine ⟨s.buf, hbuild, ?_⟩
    rw [entryBits, ← heq]
    exact hs.packs

/-! ## A field that lies in two bytes -/

/-- Three fields of six, four and six bits. -/
def splitBlank : Header where
  headerType := 0
  fields := [Field.create 6 false, Field.create 4 false, Field.create 6 false, Field.create 1 true]
  valid := true
  metadata := false
  nbytesPacket := 2
  unionMembership := none

/-- The second one is kept with two bits of the first in front of it. -/
def splitHeader : Header :=
  { splitBlank with fields := [
      { Field.create 6 false with bytes := [0x03], value := 0x03 },
      { Field.create 4 false with bytes := [0x39], value := 0x39 }, Field.create 6 false,
      Field.create 1 true] }

def splitPhv : Phv := ⟨[splitHeader], [], [], []⟩

theorem splitPhv_regular : Regular splitPhv := by
  refine ⟨fun hdr hhdr => ?_, fun hdr hhdr => ?_⟩
  · obtain rfl : hdr = splitHeader := by simpa [splitPhv] using hhdr
    intro f hf _
    have hall : ∀ f ∈ splitHeader.fields, f.bytes.length = (f.nbits + 7) / 8 := by decide
    exact hall f hf
  · obtain rfl : hdr = splitHeader := by simpa [splitPhv] using hhdr
    rfl

/-- The whole header, a field of it again and the payload. -/
def splitBuilder : BufBuilder := ⟨[.header 0, .field 0 0], true⟩

theorem splitBuilder_packs :
    (∃ buf, splitBuilder.build splitPhv [0xAB] = .ok (buf ++ [0xAB]) ∧
      Packs (entryBits splitPhv splitBuilder.entries) buf) ↔
    Absorbs [] (splitBuilder.entries.flatMap (Entry.values splitPhv)) :=
  build_packs_iff splitBuilder splitPhv [0xAB] splitPhv_regular (by
    intro e he
    have hcases : e = .header 0 ∨ e = .field 0 0 := by simpa [splitBuilder] using he
    rcases hcases with rfl | rfl
    · exact ⟨splitHeader, rfl⟩
    · exact ⟨splitHeader, _, rfl, rfl⟩) (by
    rintro (_ | ⟨e, _ | ⟨e', pre⟩⟩) h post hsplit
    · rfl
    · simp [splitBuilder] at hsplit
    · simp [splitBuilder] at hsplit)

/-- After six zero bits the field of four comes with the two bits of its header. -/
theorem split_not_packed :
    splitBlank.extractFixed [0x0E, 0x40] = .ok splitHeader ∧
    (⟨[.constant [0x00] 6, .field 0 1], false⟩ : BufBuilder).build splitPhv [] = .ok [0x0E, 0x40] ∧
    ¬∀ (b : BufBuilder) (phv : Phv) (data : ByteContainer), Regular phv →
      (∀ e ∈ b.entries, e.Fits phv) → Aligned phv 0 b.entries →
      ∃ buf, b.build phv data = .ok (buf ++ if b.withPayload then data else []) ∧
        Packs (entryBits phv b.entries) buf := by
  refine ⟨by decide, by decide, fun h => ?_⟩
  obtain ⟨buf, hbuild, hpacks⟩ := h ⟨[.constant [0x00] 6, .field 0 1], false⟩ splitPhv []
    splitPhv_regular (by
      intro e he
      have hcases : e = .constant [0x00] 6 ∨ e = .field 0 1 := by simpa using he
      rcases hcases with rfl | rfl
      · exact fun _ => rfl
      · exact ⟨splitHeader, _, rfl, rfl⟩) (by
      rintro (_ | ⟨e, _ | ⟨e', pre⟩⟩) h post hsplit
      · simp at hsplit
      · simp at hsplit
      · simp at hsplit)
  have hbytes : (⟨[.constant [0x00] 6, .field 0 1], false⟩ : BufBuilder).build splitPhv [] =
      .ok [0x0E, 0x40] := by decide
  obtain rfl : buf = [0x0E, 0x40] := by
    have hbuf := Except.ok.inj (hbuild.symm.trans hbytes)
    simpa using hbuf
  have hsame : bytesBits [0x0E, 0x40] = bytesBits [0x02, 0x40] := hpacks
  exact absurd hsame (by decide)

end Calculations

end P4Bricks
