import P4Bricks.Calculations.Buffer
import P4Bricks.Calculations.Cksum16
import P4Bricks.Calculations.Crc
import P4Bricks.Phv.FieldValues
/-!
# Checksums

A checksum is written to its target field by `update` and compared with it by `verify`.
The one of a calculation is a 64-bit hash, which `update` cuts to the width of the field
and `verify` compares as it is. The one of an IPv4 header is taken over the header's bytes,
with those of the field at zero.
-/

namespace P4Bricks

open Parsing Calculations

/-! ## Fields of a packet -/

/-- A field of a header with another in its place. -/
def Header.putField (hdr : Header) (fieldOffset : ℕ) (f : Field) : Header :=
  { hdr with fields := hdr.fields.set fieldOffset f }

/-- A header vector with another field in one place. -/
def Phv.putField (phv : Phv) (h fieldOffset : ℕ) (f : Field) : Phv :=
  phv.modifyHeader h (·.putField fieldOffset f)

namespace Calculations

/-- `NamedCalculation`: what it hashes, and the hash. -/
structure NamedCalculation where
  builder : BufBuilder
  c : ByteContainer → BitVec 64

/-- `output`. -/
def NamedCalculation.output (calculation : NamedCalculation) (phv : Phv) (data : ByteContainer) :
    Except Stop ℕ := do
  let key ← calculation.builder.build phv data
  .ok (calculation.c key).toNat

end Calculations

namespace Checksums

/-- The two classes. -/
inductive Kind where
  | calcBased (calculation : NamedCalculation)
  | ipv4

/-- `Checksum`. -/
structure Checksum where
  headerId : ℕ
  fieldOffset : ℕ
  condition : Option Expressions.Expression
  kind : Kind

/-- What a checksum meets besides the header vector: the data behind the headers, what a
condition reads, and how a number is converted to `uint64_t`. -/
structure Context where
  data : ByteContainer
  env : Expressions.Env
  toUint64 : ℤ → ℕ

/-- The checksum of an IPv4 header: it is deparsed to a buffer and the bytes of the field
are cleared. -/
def ipv4Cksum (ipv4Hdr : Header) (buffer : ByteContainer) : Except Stop (BitVec 16) := do
  let buffer ← ipv4Hdr.deparse buffer
  .ok (cksum16 (((buffer.set 10 0).set 11 0).take ipv4Hdr.nbytesPacket))

namespace Checksum

/-- The arguments that are not the packet's: the registers an earlier evaluation left and
what is in the buffer of 60 bytes, which is not initialized. -/
structure Scratch where
  temps : List ℤ
  buffer : ByteContainer
  size : buffer.length = 60

def isChecksumConditionMet (c : Checksum) (ctx : Context) (s : Scratch) (phv : Phv) :
    Except Stop Bool :=
  match c.condition with
  | none => .ok true
  | some condition => required (condition.evalBool { ctx.env with phv := phv } s.temps)

def isTargetFieldValid (c : Checksum) (phv : Phv) : Except Stop Bool := do
  let hdr ← required phv.headers[c.headerId]?
  .ok hdr.isValid

/-- `update_`. -/
def update_ (c : Checksum) (ctx : Context) (s : Scratch) (phv : Phv) : Except Stop Phv := do
  match c.kind with
  | .calcBased calculation =>
    let cksum ← calculation.output phv ctx.data
    let fCksum ← required (phv.getField c.headerId c.fieldOffset)
    .ok (phv.putField c.headerId c.fieldOffset (← required (fCksum.set cksum)))
  | .ipv4 =>
    let ipv4Hdr ← required phv.headers[c.headerId]?
    if ipv4Hdr.isValid then do
      let ipv4Field ← required (ipv4Hdr.getField c.fieldOffset)
      let cksum ← ipv4Cksum ipv4Hdr s.buffer
      let f ← required (Field.ValueOp.setBytesOf ipv4Field (storeLE cksum))
      .ok (phv.putField c.headerId c.fieldOffset f)
    else .ok phv

/-- `verify_`. -/
def verify_ (c : Checksum) (ctx : Context) (s : Scratch) (phv : Phv) : Except Stop Bool := do
  match c.kind with
  | .calcBased calculation =>
    let cksum ← calculation.output phv ctx.data
    let fCksum ← required (phv.getField c.headerId c.fieldOffset)
    if fCksum.arith then .ok (cksum == ctx.toUint64 fCksum.value) else .error .abort
  | .ipv4 =>
    let ipv4Hdr ← required phv.headers[c.headerId]?
    if ipv4Hdr.isValid then do
      let ipv4Field ← required (ipv4Hdr.getField c.fieldOffset)
      let cksum ← ipv4Cksum ipv4Hdr s.buffer
      if ipv4Field.bytes.length < 2 then .error .beyond
      else .ok (storeLE cksum == ipv4Field.bytes.take 2)
    else .ok true

def update (c : Checksum) (ctx : Context) (s : Scratch) (phv : Phv) : Except Stop Phv := do
  if ← c.isChecksumConditionMet ctx s phv then c.update_ ctx s phv else .ok phv

def verify (c : Checksum) (ctx : Context) (s : Scratch) (phv : Phv) : Except Stop Bool := do
  if ← c.isTargetFieldValid phv then
    if ← c.isChecksumConditionMet ctx s phv then c.verify_ ctx s phv else .ok true
  else .ok true

end Checksum

/-! ## What is asked of a packet -/

/-- The calculation does not hash the field. -/
def Avoids (builder : BufBuilder) (h fieldOffset : ℕ) : Prop :=
  ∀ e ∈ builder.entries, e ≠ .field h fieldOffset ∧ e ≠ .header h

/-- An IPv4 header: the field has the two bytes from the tenth on. -/
structure IPv4Shaped (hdr : Header) (fieldOffset : ℕ) (f : Field) : Prop where
  kept : Header.Kept hdr.packetFields
  place : hdr.packetFields[fieldOffset]? = some f
  before : ((hdr.packetFields.take fieldOffset).map Field.nbits).sum = 80
  wide : f.nbits = 16
  sized : hdr.nbits = 8 * hdr.nbytesPacket
  options : hdr.nbytesPacket ≤ 60

/-- What the target field is like: arithmetic is on for it, as `init_checksums` sees to, and
its width is fixed. -/
structure Target (c : Checksum) (hdr : Header) (f : Field) : Prop where
  arith : f.arith = true
  fixed : f.vlMask = none
  signed : f.isSigned = true → 1 < f.nbits
  calcBased : ∀ calculation, c.kind = .calcBased calculation →
    Avoids calculation.builder c.headerId c.fieldOffset
  ipv4 : c.kind = .ipv4 → IPv4Shaped hdr c.fieldOffset f

/-- The field has room for the hash: a field with a sign keeps what its width can hold, and
a greater number only if it is the extension of its sign. -/
def Takes (toUint64 : ℤ → ℕ) (f : Field) (hash : ℕ) : Prop :=
  if f.isSigned then
    if f.isSaturating then hash < 2 ^ (f.nbits - 1)
    else hash < 2 ^ f.nbits ∨ 2 ^ (f.nbits - 1) ≤ hash % 2 ^ f.nbits ∧
      toUint64 ((hash % 2 ^ f.nbits : ℕ) - 2 ^ f.nbits) = hash
  else hash < 2 ^ f.nbits

/-- The hash fits in the target field. -/
def Checksum.Fits (c : Checksum) (ctx : Context) (phv : Phv) (f : Field) : Prop :=
  ∀ calculation hash, c.kind = .calcBased calculation →
    calculation.output phv ctx.data = .ok hash → Takes ctx.toUint64 f hash

/-! ## The hash and its field -/

section

variable {f : Field} {hash : ℕ} {toUint64 : ℤ → ℕ}

/-- How the conversion treats the numbers of 64 bits: `convert_to<uint64_t>()`. -/
def Converts (toUint64 : ℤ → ℕ) : Prop := ∀ v : ℤ, 0 ≤ v → v < 2 ^ 64 → toUint64 v = v.toNat

/-- A smaller number is not read as the hash. -/
theorem toUint64_ne (hto : Converts toUint64) (hhash : hash < 2 ^ 64) {v : ℤ} (h0 : 0 ≤ v)
    (hlt : v < hash) : toUint64 v ≠ hash := by
  rw [hto v h0 (by omega)]
  omega

theorem toUint64_self (hto : Converts toUint64) (hhash : hash < 2 ^ 64) :
    toUint64 (hash : ℤ) = hash := by
  rw [hto _ (by omega) (by omega)]
  rfl

theorem unsigned_set_iff (hto : Converts toUint64) (hhash : hash < 2 ^ 64)
    (hfixed : f.vlMask = none) (hs : f.isSigned = false) :
    toUint64 (f.wrap hash) = hash ↔ hash < 2 ^ f.nbits := by
  obtain ⟨hmin, hmax⟩ := Field.unsigned_bounds hfixed hs
  have hpos : (0 : ℤ) < 2 ^ f.nbits := by positivity
  have hcast : ((2 ^ f.nbits : ℕ) : ℤ) = 2 ^ f.nbits := by push_cast; rfl
  rw [Field.wrap_unsigned hfixed hs]
  rcases Nat.lt_or_ge hash (2 ^ f.nbits) with hlt | hge
  · have hsat : f.saturate hash = hash := by
      unfold Field.saturate
      split_ifs <;> omega
    rw [hsat, Int.emod_eq_of_lt (by omega) (by omega)]
    exact iff_of_true (toUint64_self hto hhash) hlt
  · -- what the field holds is below its width
    have hnonneg := Int.emod_nonneg (f.saturate hash) hpos.ne'
    have hbelow := Int.emod_lt_of_pos (f.saturate hash) hpos
    exact iff_of_false (toUint64_ne hto hhash hnonneg (by omega)) (by omega)

theorem signed_set_iff (hto : Converts toUint64) (hhash : hash < 2 ^ 64)
    (hfixed : f.vlMask = none) (hs : f.isSigned = true) (hw : 1 < f.nbits) :
    toUint64 (f.wrap hash) = hash ↔ Takes toUint64 f hash := by
  obtain ⟨half, h1, hpow, hmin, hmax, hmask⟩ := Field.signed_bounds hfixed hs hw
  have hpred : 2 ^ f.nbits = 2 * 2 ^ (f.nbits - 1) := by
    rw [← pow_succ', Nat.sub_add_cancel (by omega)]
  have hcast : ((2 ^ f.nbits : ℕ) : ℤ) = 2 ^ f.nbits := by push_cast; rfl
  have hmod : (hash : ℤ) % 2 ^ f.nbits = (hash % 2 ^ f.nbits : ℕ) := by push_cast; rfl
  rw [Takes, if_pos hs, Field.wrap_signed hs]
  rcases hsat : f.isSaturating with _ | _
  · have hsame : f.saturate hash = hash := by simp [Field.saturate, hsat]
    rw [hsame, if_neg Bool.false_ne_true]
    rcases Nat.lt_or_ge hash (2 ^ f.nbits) with hlt | hge
    · rw [if_neg (by omega)]
      exact iff_of_true (toUint64_self hto hhash) (.inl hlt)
    have hbelow := Nat.mod_lt hash (Nat.two_pow_pos f.nbits)
    rw [if_pos (by omega), hmod]
    rcases Nat.lt_or_ge (hash % 2 ^ f.nbits) (2 ^ (f.nbits - 1)) with hlow | hhigh
    · rw [if_neg (by omega)]
      refine iff_of_false (toUint64_ne hto hhash (by omega) (by omega)) ?_
      rintro (hlt | hhigh)
      · omega
      · omega
    · -- the number is taken to be negative
      have hneg : ((hash % 2 ^ f.nbits : ℕ) : ℤ) - (f.mask + 1) =
          ((hash % 2 ^ f.nbits : ℕ) : ℤ) - 2 ^ f.nbits := by omega
      rw [if_pos (by omega), hneg]
      constructor
      · intro h
        exact .inr ⟨hhigh, h⟩
      · rintro (hlt | ⟨-, h⟩)
        · omega
        · exact h
  · rw [if_pos rfl]
    rcases Nat.lt_or_ge hash (2 ^ (f.nbits - 1)) with hlt | hge
    · have hsame : f.saturate hash = hash := by
        unfold Field.saturate
        split_ifs <;> omega
      rw [hsame, if_neg (by omega)]
      exact iff_of_true (toUint64_self hto hhash) hlt
    · have hclamp : f.saturate hash = f.max := by
        unfold Field.saturate
        split_ifs <;> omega
      rw [hclamp, if_neg (by omega)]
      exact iff_of_false (toUint64_ne hto hhash (by omega) (by omega)) (by omega)

/-- **A hash is read back from the field** it was set in when the field has room for it, and
only then. -/
theorem toUint64_set_iff (hto : Converts toUint64) (hhash : hash < 2 ^ 64)
    (hfixed : f.vlMask = none) (hsigned : f.isSigned = true → 1 < f.nbits) :
    toUint64 (f.put hash).value = hash ↔ Takes toUint64 f hash := by
  have hvalue : (f.put hash).value = f.wrap hash := rfl
  rw [hvalue]
  rcases hs : f.isSigned with _ | _
  · rw [unsigned_set_iff hto hhash hfixed hs, Takes, hs]
    rfl
  · exact signed_set_iff hto hhash hfixed hs (hsigned hs)

end

/-! ## What a change of the field leaves alone -/

section

variable {phv : Phv} {hdr : Header} {f f' : Field} {h o : ℕ}

theorem headers_putField (phv : Phv) (h o : ℕ) (f : Field) (g : ℕ) :
    (phv.putField h o f).headers[g]? =
      if h = g then phv.headers[g]?.map (·.putField o f) else phv.headers[g]? := by
  rw [Phv.putField, Phv.modifyHeader, List.getElem?_modify]
  split <;> simp

theorem header_putField (hhdr : phv.headers[h]? = some hdr) :
    (phv.putField h o f).headers[h]? = some (hdr.putField o f) := by
  rw [headers_putField, if_pos rfl, hhdr, Option.map_some]

theorem getField_putField (hf : hdr.getField o = some f) :
    (hdr.putField o f').getField o = some f' := by
  have hlt : o < hdr.fields.length := (List.getElem?_eq_some_iff.mp hf).1
  rw [Header.getField, Header.putField, List.getElem?_set_self hlt]

/-- **An entry that is not the field** adds the same. -/
theorem visit_putField {e : Entry} (he : e ≠ .field h o ∧ e ≠ .header h) (s : Deparse) :
    Deparse.visit (phv.putField h o f) s e = Deparse.visit phv s e := by
  cases e with
  | constant v nbits => rfl
  | field g o' =>
    simp only [Deparse.visit, headers_putField]
    by_cases hg : h = g
    · have ho : o ≠ o' := fun ho => he.1 (by rw [hg, ho])
      rw [if_pos hg]
      cases hx : phv.headers[g]? with
      | none => rfl
      | some x =>
        have hget : (x.putField o f).getField o' = x.getField o' := List.getElem?_set_ne ho
        simp only [Option.map_some, required, ok_bind, hget]
        rfl
    · rw [if_neg hg]
  | header g =>
    have hg : h ≠ g := fun hg => he.2 (by rw [hg])
    simp only [Deparse.visit, headers_putField, if_neg hg]

/-- **The input of a calculation that avoids the field** does not change with it. -/
theorem output_putField {calculation : NamedCalculation}
    (havoid : Avoids calculation.builder h o) (data : ByteContainer) :
    calculation.output (phv.putField h o f) data = calculation.output phv data := by
  have hfold : ∀ (entries : List Entry) (s : Deparse), (∀ e ∈ entries, e ≠ .field h o ∧ e ≠ .header h) →
      entries.foldlM (Deparse.visit (phv.putField h o f)) s = entries.foldlM (Deparse.visit phv) s := by
    intro entries
    induction entries with
    | nil => intro s _; rfl
    | cons e entries ih =>
      intro s hall
      rw [List.foldlM_cons, List.foldlM_cons, visit_putField (hall e (by simp))]
      congr 1
      funext s'
      exact ih s' fun e' he' => hall e' (by simp [he'])
  rw [NamedCalculation.output, NamedCalculation.output, BufBuilder.build, BufBuilder.build,
    hfold _ _ havoid]

/-! ## The header of an IPv4 checksum -/

theorem takeWhile_set {α : Type*} {p : α → Bool} {l : List α} {i : ℕ} {a b : α}
    (ha : (l.takeWhile p)[i]? = some a) (hb : p b = true) :
    (l.set i b).takeWhile p = (l.takeWhile p).set i b := by
  induction l generalizing i with
  | nil => simp at ha
  | cons c l ih =>
    rcases hc : p c with _ | _
    · simp [hc] at ha
    · cases i with
      | zero => simp [hc, hb]
      | succ i =>
        have ha' : (l.takeWhile p)[i]? = some a := by simpa [hc] using ha
        simp [hc, ih ha']

theorem packetFields_putField (hplace : hdr.packetFields[o]? = some f)
    (hhidden : f'.hidden = f.hidden) :
    (hdr.putField o f').packetFields = hdr.packetFields.set o f' := by
  have hvis : ¬f.hidden := Header.packetFields_visible (List.mem_of_getElem? hplace)
  exact takeWhile_set hplace (by simpa [hhidden] using hvis)

/-- The header with two other bytes in its checksum field. -/
theorem IPv4Shaped.putField (hshape : IPv4Shaped hdr o f) (hnbits : f'.nbits = f.nbits)
    (hhidden : f'.hidden = f.hidden) (hbytes : f'.bytes.length = 2) :
    IPv4Shaped (hdr.putField o f') o f' := by
  have hfields := packetFields_putField hshape.place hhidden
  obtain ⟨hlt, hget⟩ := List.getElem?_eq_some_iff.mp hshape.place
  have hsum : ((hdr.packetFields.set o f').map Field.nbits) = hdr.packetFields.map Field.nbits := by
    rw [List.map_set, hnbits, ← hget]
    refine List.ext_getElem? fun i => ?_
    rw [List.getElem?_set]
    split
    · next hi =>
      subst hi
      simp [hlt]
    · rfl
  refine ⟨?_, ?_, ?_, hnbits.trans hshape.wide, ?_, hshape.options⟩
  · intro g hg
    rw [hfields] at hg
    rcases List.mem_or_eq_of_mem_set hg with hg | rfl
    · exact hshape.kept g hg
    · intro _
      rw [hbytes, hnbits, hshape.wide]
  · rw [hfields, List.getElem?_set_self hlt]
  · rw [hfields, List.take_set_of_le (Nat.le_refl o)]
    exact hshape.before
  · rw [Header.nbits, hfields, hsum]
    exact hshape.sized

/-- The bits in front of the field. -/
theorem IPv4Shaped.front_length (hshape : IPv4Shaped hdr o f) :
    (Header.writtenFields [] (hdr.packetFields.take o)).length = 80 := by
  have hpre : Header.Kept (hdr.packetFields.take o) := fun g hg =>
    hshape.kept g (List.mem_of_mem_take hg)
  rw [Header.writtenFields_length hpre, hshape.before]
  rfl

theorem IPv4Shaped.hasBytes (hshape : IPv4Shaped hdr o f) : HasBytes f.bytes 16 :=
  hshape.wide ▸ hshape.kept f (List.mem_of_getElem? hshape.place)

/-- The header's bytes hold the bits in front of the field, its own, and those behind it. -/
theorem IPv4Shaped.deparse (hshape : IPv4Shaped hdr o f) {buffer : ByteContainer}
    (hsize : buffer.length = 60) :
    ∃ out, hdr.deparse buffer = .ok out ∧ out.length = 60 ∧ ∀ j < 8 * hdr.nbytesPacket,
      bitAt out j = (Header.writtenFields [] (hdr.packetFields.take o) ++ valueBits f.bytes 16 ++
        Header.writtenFields [] (hdr.packetFields.drop (o + 1))).getD j false := by
  have hlimit := hshape.options
  have hsized := hshape.sized
  obtain ⟨hlt, hget⟩ := List.getElem?_eq_some_iff.mp hshape.place
  obtain ⟨out, hd, hfill⟩ := @Header.deparseFields_fills hdr.packetFields [] buffer hshape.kept
    (fun g hg => Header.packetFields_visible hg) (by simp)
    (by simp only [Header.nbits] at hsized; simp; omega) (by simp)
  refine ⟨out, ?_, hfill.length.trans hsize, ?_⟩
  · rw [Header.deparse, Header.deparseFields_takeWhile]
    exact hd
  have hlen : (Header.writtenFields [] hdr.packetFields).length = 8 * hdr.nbytesPacket := by
    rw [Header.writtenFields_length hshape.kept, List.length_nil, Nat.zero_add, ← hsized]
    rfl
  have hsplit : hdr.packetFields = hdr.packetFields.take o ++ f :: hdr.packetFields.drop (o + 1) := by
    rw [← hget, List.getElem_cons_drop, List.take_append_drop]
  have hpost : Header.Kept (hdr.packetFields.drop (o + 1)) := fun g hg =>
    hshape.kept g (List.mem_of_mem_drop hg)
  have hbytes := hshape.hasBytes
  have hfront := hshape.front_length
  -- the field fills whole bytes, so nothing of it shows in front, nor of what comes after it
  have hwritten : Header.writtenFields [] hdr.packetFields =
      Header.writtenFields [] (hdr.packetFields.take o) ++ valueBits f.bytes 16 ++
        Header.writtenFields [] (hdr.packetFields.drop (o + 1)) := by
    have haligned : RightAligned f.bytes 16 := ⟨hbytes, fun j hj => absurd hj (by decide +revert)⟩
    have hbehind := @Header.writtenFields_append (hdr.packetFields.drop (o + 1)) []
      (Header.writtenFields [] (hdr.packetFields.take o) ++ valueBits f.bytes 16)
      (by rw [List.length_append, hfront, valueBits_length hbytes]) hpost
    rw [List.append_nil] at hbehind
    rw [← hbehind, ← written_rightAligned haligned]
    conv_lhs => rw [hsplit]
    rw [Header.writtenFields, List.foldl_append, List.foldl_cons, hshape.wide]
    rfl
  intro j hj
  rw [← hwritten]
  exact hfill.holds j (by omega)

/-- Two buffers that differ in the field's bytes only are the same without these. -/
theorem cleared_eq {out out' : ByteContainer} {n : ℕ} (hlen : out.length = out'.length)
    (hbits : ∀ j < 8 * n, j < 80 ∨ 96 ≤ j → bitAt out j = bitAt out' j) :
    ((out.set 10 0).set 11 0).take n = ((out'.set 10 0).set 11 0).take n := by
  refine List.ext_getElem (by simp [hlen]) fun i hi hi' => ?_
  have hin : i < n := by simp at hi; omega
  have hout : i < out.length := by simp at hi; omega
  simp only [List.getElem_take, List.getElem_set]
  by_cases h11 : 11 = i
  · rw [if_pos h11, if_pos h11]
  by_cases h10 : 10 = i
  · rw [if_neg h11, if_neg h11, if_pos h10, if_pos h10]
  rw [if_neg h11, if_neg h11, if_neg h10, if_neg h10]
  refine byteBit_ext fun r hr => ?_
  have hbit := hbits (8 * i + r) (by omega) (by omega)
  rwa [bitAt_mul_add hr, bitAt_mul_add hr, List.getD_eq_getElem _ _ hout,
    List.getD_eq_getElem _ _ (by omega)] at hbit

/-- **What is summed does not depend on the field**, nor on what was in the buffer. -/
theorem ipv4Cksum_putField (hshape : IPv4Shaped hdr o f) (hnbits : f'.nbits = f.nbits)
    (hhidden : f'.hidden = f.hidden) (hbytes : f'.bytes.length = 2) {buffer buffer' : ByteContainer}
    (hsize : buffer.length = 60) (hsize' : buffer'.length = 60) :
    ipv4Cksum (hdr.putField o f') buffer' = ipv4Cksum hdr buffer := by
  have hshape' := hshape.putField hnbits hhidden hbytes
  have hfields := packetFields_putField hshape.place hhidden
  obtain ⟨out, hd, hlen, hbits⟩ := hshape.deparse hsize
  obtain ⟨out', hd', hlen', hbits'⟩ := hshape'.deparse hsize'
  rw [hfields, List.take_set_of_le (Nat.le_refl o), List.drop_set_of_lt (Nat.lt_succ_self o)] at hbits'
  have hfront := hshape.front_length
  have hown := valueBits_length hshape.hasBytes
  have hown' := valueBits_length hshape'.hasBytes
  have hclear := cleared_eq (hlen'.trans hlen.symm) (n := hdr.nbytesPacket) fun j hj hj' => by
    rw [hbits j hj, hbits' j hj, List.append_assoc, List.append_assoc]
    rcases hj' with hlt | hge
    · rw [List.getD_append _ _ _ _ (by omega), List.getD_append _ _ _ _ (by omega)]
    · rw [List.getD_append_right _ _ _ _ (by omega), List.getD_append_right _ _ _ _ (by omega),
        List.getD_append_right _ _ _ _ (by omega), List.getD_append_right _ _ _ _ (by omega),
        hown, hown']
  have hnbytes : (hdr.putField o f').nbytesPacket = hdr.nbytesPacket := rfl
  rw [ipv4Cksum, ipv4Cksum, hd, hd', ok_bind, ok_bind, hnbytes, hclear]

end

/-! ## A checksum is verified after it was updated -/

section

variable {c : Checksum} {ctx : Context} {s s' : Checksum.Scratch} {phv phv' : Phv} {hdr : Header}
  {f : Field} {met : Bool}

/-- **A checksum of a calculation** is verified when the field has room for the hash. -/
theorem verify_calcBased_iff {calculation : NamedCalculation} (hkind : c.kind = .calcBased calculation)
    (hhdr : phv.headers[c.headerId]? = some hdr) (hf : hdr.getField c.fieldOffset = some f)
    (ht : Target c hdr f) (hto : Converts ctx.toUint64)
    (hup : c.update_ ctx s phv = .ok phv') :
    c.verify_ ctx s' phv' = .ok true ↔ c.Fits ctx phv f := by
  have hget : phv.getField c.headerId c.fieldOffset = some f := by
    rw [Phv.getField, hhdr, Option.bind_some, hf]
  simp only [Checksum.update_, hkind] at hup
  obtain ⟨hash, hhash, hup⟩ := bind_eq_ok hup
  have hset : f.set hash = some (f.put hash) := Field.set_fixed ht.fixed ht.signed hash
  rw [hget, required, ok_bind, hset, required, ok_bind] at hup
  obtain rfl := Except.ok.inj hup
  have hlt : hash < 2 ^ 64 := by
    obtain ⟨key, -, hkey⟩ := bind_eq_ok hhash
    rw [← Except.ok.inj hkey]
    exact (calculation.c key).isLt
  have hget' : (phv.putField c.headerId c.fieldOffset (f.put hash)).getField c.headerId c.fieldOffset =
      some (f.put hash) := by
    rw [Phv.getField, header_putField hhdr, Option.bind_some, getField_putField hf]
  have harith : (f.put hash).arith = true := ht.arith
  simp only [Checksum.verify_, hkind, output_putField (ht.calcBased _ hkind), hhash, ok_bind, hget',
    required, harith, if_true]
  rw [Except.ok.injEq, beq_iff_eq, eq_comm, toUint64_set_iff hto hlt ht.fixed ht.signed]
  constructor
  · rintro htakes calculation' hash' hkind' hhash'
    obtain rfl := Kind.calcBased.inj (hkind.symm.trans hkind')
    obtain rfl := Except.ok.inj (hhash.symm.trans hhash')
    exact htakes
  · intro hfits
    exact hfits calculation hash hkind hhash

theorem setBytesOf_eq {src : ByteContainer} {f' : Field}
    (h : Field.ValueOp.setBytesOf f src = some f') :
    f'.bytes = src ∧ f'.nbits = f.nbits ∧ f'.hidden = f.hidden := by
  unfold Field.ValueOp.setBytesOf at h
  split at h
  · obtain rfl := Option.some.inj h
    dsimp only
    split <;> exact ⟨rfl, rfl, rfl⟩
  · cases h

/-- **The checksum of an IPv4 header** is verified. -/
theorem verify_ipv4 (hkind : c.kind = .ipv4)
    (hhdr : phv.headers[c.headerId]? = some hdr) (hf : hdr.getField c.fieldOffset = some f)
    (ht : Target c hdr f) (hup : c.update_ ctx s phv = .ok phv') :
    c.verify_ ctx s' phv' = .ok true := by
  simp only [Checksum.update_, hkind, hhdr, required, ok_bind] at hup
  by_cases hvalid : hdr.isValid = true
  · rw [if_pos hvalid, hf, ok_bind] at hup
    obtain ⟨cksum, hcksum, hup⟩ := bind_eq_ok hup
    obtain ⟨f', hf', hup⟩ := bind_eq_ok hup
    obtain ⟨hbytes, hnbits, hhidden⟩ := setBytesOf_eq (required_eq_ok hf')
    obtain rfl := Except.ok.inj hup
    have hlen : f'.bytes.length = 2 := by rw [hbytes]; rfl
    have hsame := ipv4Cksum_putField (ht.ipv4 hkind) hnbits hhidden hlen s.size s'.size
    have hvalid' : (hdr.putField c.fieldOffset f').isValid = true := hvalid
    simp only [Checksum.verify_, hkind, header_putField hhdr, required, ok_bind, hvalid',
      getField_putField hf, hsame, hcksum, if_true]
    rw [if_neg (by omega), hbytes]
    exact congrArg Except.ok (beq_self_eq_true _)
  · rw [if_neg hvalid] at hup
    obtain rfl := Except.ok.inj hup
    simp only [Checksum.verify_, hkind, hhdr, required, ok_bind, if_neg hvalid]

theorem putField_self (hhdr : phv.headers[c.headerId]? = some hdr)
    (hf : hdr.getField c.fieldOffset = some f) : phv.putField c.headerId c.fieldOffset f = phv := by
  have hfields : hdr.putField c.fieldOffset f = hdr := by
    obtain ⟨hlt, hget⟩ := List.getElem?_eq_some_iff.mp hf
    rw [Header.putField, ← hget, List.set_getElem_self]
  have hheaders : phv.headers.modify c.headerId (·.putField c.fieldOffset f) = phv.headers := by
    refine List.ext_getElem? fun i => ?_
    rw [List.getElem?_modify]
    split
    · next hi =>
      rw [← hi, hhdr]
      exact congrArg some hfields
    · simp
  rw [Phv.putField, Phv.modifyHeader, hheaders]

/-- An update changes the target field at most. -/
theorem update_putField (hhdr : phv.headers[c.headerId]? = some hdr)
    (hf : hdr.getField c.fieldOffset = some f) (hup : c.update_ ctx s phv = .ok phv') :
    ∃ f', phv' = phv.putField c.headerId c.fieldOffset f' := by
  cases hkind : c.kind with
  | calcBased calculation =>
    simp only [Checksum.update_, hkind] at hup
    obtain ⟨hash, -, hup⟩ := bind_eq_ok hup
    obtain ⟨g, -, hup⟩ := bind_eq_ok hup
    obtain ⟨f', -, hup⟩ := bind_eq_ok hup
    exact ⟨f', (Except.ok.inj hup).symm⟩
  | ipv4 =>
    simp only [Checksum.update_, hkind, hhdr, required, ok_bind] at hup
    split at hup
    · rw [hf, ok_bind] at hup
      obtain ⟨cksum, -, hup⟩ := bind_eq_ok hup
      obtain ⟨f', -, hup⟩ := bind_eq_ok hup
      exact ⟨f', (Except.ok.inj hup).symm⟩
    · exact ⟨f, (Except.ok.inj hup).symm.trans (putField_self hhdr hf).symm⟩

/-- **A checksum is verified right after it was updated** when its header is not valid, its
condition is not met, or the target field has room for the hash, and only then. -/
theorem verify_update_iff (hhdr : phv.headers[c.headerId]? = some hdr)
    (hf : hdr.getField c.fieldOffset = some f) (ht : Target c hdr f) (hto : Converts ctx.toUint64)
    (hmet : ∀ s f', c.isChecksumConditionMet ctx s (phv.putField c.headerId c.fieldOffset f') = .ok met)
    (hup : c.update ctx s phv = .ok phv') :
    c.verify ctx s' phv' = .ok true ↔ hdr.isValid = false ∨ met = false ∨ c.Fits ctx phv f := by
  have hself := putField_self hhdr hf
  have hmet₀ : ∀ s, c.isChecksumConditionMet ctx s phv = .ok met := by
    intro s
    have hmet' := hmet s f
    rwa [hself] at hmet'
  rw [Checksum.update, hmet₀, ok_bind] at hup
  obtain ⟨f', rfl⟩ : ∃ f', phv' = phv.putField c.headerId c.fieldOffset f' := by
    split at hup
    · exact update_putField hhdr hf hup
    · exact ⟨f, (Except.ok.inj hup).symm.trans hself.symm⟩
  have hvalid : (hdr.putField c.fieldOffset f').isValid = hdr.isValid := rfl
  simp only [Checksum.verify, Checksum.isTargetFieldValid, header_putField hhdr, required, ok_bind,
    hvalid, hmet]
  rcases hv : hdr.isValid with _ | _
  · exact iff_of_true rfl (.inl rfl)
  rcases hm : met with _ | _
  · exact iff_of_true rfl (.inr (.inl rfl))
  rw [hm, if_pos rfl] at hup
  simp only [if_true, Bool.true_eq_false, false_or]
  cases hkind : c.kind with
  | calcBased calculation => exact verify_calcBased_iff hkind hhdr hf ht hto hup
  | ipv4 =>
    refine iff_of_true (verify_ipv4 hkind hhdr hf ht hup) ?_
    intro calculation hash hcalc _
    rw [hkind] at hcalc
    cases hcalc

end

/-! ## A field of 16 bits -/

/-- A byte and a checksum of 16 bits. -/
def dataField : Field := { value := 0x31, nbits := 8, bytes := [0x31] }

def cksumField : Field := { value := 0, nbits := 16, bytes := [0, 0] }

def cksumHeader : Header where
  headerType := 0
  fields := [dataField, cksumField]
  valid := true
  metadata := false
  nbytesPacket := 3
  unionMembership := none

def cksumPhv : Phv := ⟨[cksumHeader], [], [], []⟩

/-- A hash of the byte, written behind it. -/
def byteChecksum (c : ByteContainer → BitVec 64) : Checksum where
  headerId := 0
  fieldOffset := 1
  condition := none
  kind := .calcBased ⟨⟨[.field 0 0], false⟩, c⟩

def crc16Checksum : Checksum := byteChecksum fun key => ((crc16 key).getD 0).setWidth 64

def crc32Checksum : Checksum := byteChecksum fun key => ((crc32 key).getD 0).setWidth 64

def cksumContext : Context where
  data := []
  env := Field.ValueOp.numbers
  toUint64 := fun v => v.toNat

def cksumScratch : Checksum.Scratch := ⟨[], List.replicate 60 0xAB, by decide⟩

theorem byteChecksum_target (c : ByteContainer → BitVec 64) :
    Target (byteChecksum c) cksumHeader cksumField := by
  refine ⟨rfl, rfl, by decide, ?_, by simp [byteChecksum]⟩
  intro calculation hkind
  obtain rfl := Kind.calcBased.inj hkind
  simp [Avoids, byteChecksum]

/-- The packet with the check of its byte. -/
def checkedPhv : Phv := cksumPhv.putField 0 1 (cksumField.put 0xD4C1)

theorem crc16Checksum_verified :
    crc16Checksum.update cksumContext cksumScratch cksumPhv = .ok checkedPhv ∧
      crc16Checksum.verify cksumContext cksumScratch checkedPhv = .ok true := by
  have hupdate : crc16Checksum.update cksumContext cksumScratch cksumPhv = .ok checkedPhv := by
    decide +kernel
  have hhash : (NamedCalculation.output ⟨⟨[.field 0 0], false⟩, fun key =>
      ((crc16 key).getD 0).setWidth 64⟩ cksumPhv []) = .ok 0xD4C1 := by
    decide +kernel
  have hfits : crc16Checksum.Fits cksumContext cksumPhv cksumField := by
    intro calculation hash hkind hout
    obtain rfl := Kind.calcBased.inj hkind
    obtain rfl := Except.ok.inj (hhash.symm.trans hout)
    simp [Takes, cksumField]
  have htarget : Target crc16Checksum cksumHeader cksumField := byteChecksum_target _
  exact ⟨hupdate, (verify_update_iff rfl rfl htarget (fun _ _ _ => rfl) (fun _ _ => rfl)
    hupdate).mpr (.inr (.inr hfits))⟩

/-- A check of 32 bits does not fit in the field. -/
theorem crc32Checksum_not_verified :
    Target crc32Checksum cksumHeader cksumField ∧
      (crc32Checksum.update cksumContext cksumScratch cksumPhv >>=
        crc32Checksum.verify cksumContext cksumScratch) = .ok false :=
  ⟨byteChecksum_target _, by decide +kernel⟩

end Checksums

end P4Bricks
