import P4Bricks.MatchKeys.FieldValues
import P4Bricks.MatchKeys.Padding
/-!
# Keys that match field by field

A packet key has the bytes of the fields in the order in which an entry has those of its
parameters. So the comparison of the flat bytes, in each of the lookup structures that has one,
is the comparison of each field with its own parameter (`packet_matches_iff`).
-/

namespace P4Bricks

namespace MatchKeys

open Lookup MatchUnit

namespace MatchKeyBuilder

/-! ## Flat bytes -/

section
variable {key : ByteContainer} {n first : ℕ}

/-- The comparison of masked bytes, as one of byte strings. -/
theorem maskedEq_iff {k : TernaryMatchKey} (hkey : key.length = n) (hdata : k.data.length = n)
    (hmask : k.mask.length = n) :
    maskedEq key k first n = true ↔
      applyMask (key.drop first) (k.mask.drop first) = k.data.drop first := by
  unfold maskedEq
  rw [List.all_eq_true]
  constructor
  · intro hall
    refine List.ext_getElem (by simp [applyMask, hkey, hdata, hmask]) fun j hj hj' => ?_
    have hlt : first + j < n := by
      rw [List.length_drop, hdata] at hj'
      omega
    have hbyte := hall (first + j) (List.mem_range'_1.mpr ⟨by omega, by omega⟩)
    have hbyte' := eq_of_beq hbyte
    rw [List.getD_eq_getElem _ _ (by omega), List.getD_eq_getElem _ _ (by omega),
      List.getD_eq_getElem _ _ (by omega)] at hbyte'
    simp only [applyMask, List.getElem_zipWith, List.getElem_drop]
    exact hbyte'.symm
  · intro heq i hi
    obtain ⟨hge, hlt⟩ := List.mem_range'_1.mp hi
    obtain ⟨j, rfl⟩ := Nat.exists_eq_add_of_le hge
    have hj : j < (k.data.drop first).length := by
      rw [List.length_drop, hdata]
      omega
    have hbyte := List.getElem_of_eq heq.symm hj
    simp only [applyMask, List.getElem_zipWith, List.getElem_drop] at hbyte
    rw [beq_iff_eq, List.getD_eq_getElem _ _ (by omega), List.getD_eq_getElem _ _ (by omega),
      List.getD_eq_getElem _ _ (by omega)]
    exact hbyte

/-- The loop over the ranges, where each key has a chunk for each of them. -/
theorem inRanges_flatMap {w : ℕ → ℕ} {g d m : ℕ → ByteContainer} {rs : List ℕ}
    {k : RangeMatchKey} {front dataFront maskFront rest dataRest maskRest : ByteContainer}
    (hkey : key = front ++ rs.flatMap g ++ rest)
    (hdata : k.data = dataFront ++ rs.flatMap d ++ dataRest)
    (hmask : k.mask = maskFront ++ rs.flatMap m ++ maskRest)
    (hfront : dataFront.length = front.length) (hfront' : maskFront.length = front.length)
    (hlen : ∀ i ∈ rs, (g i).length = w i ∧ (d i).length = w i ∧ (m i).length = w i) :
    inRanges key k front.length (rs.map w) =
      if ∀ i ∈ rs, ¬ g i < d i ∧ ¬ m i < g i then some (front.length + (rs.map w).sum)
      else none := by
  -- The chunks already compared are the front, of the same length in key, data and mask.
  induction rs generalizing front dataFront maskFront with
  | nil => simp [inRanges]
  | cons i rs ih =>
    obtain ⟨⟨hg, hd, hm⟩, hrest⟩ := List.forall_mem_cons.mp hlen
    rw [List.flatMap_cons, ← List.append_assoc] at hkey hdata hmask
    have hslice : ∀ {a b c e : ByteContainer} {len : ℕ}, b.length = len →
        ((a ++ b ++ c ++ e).drop a.length).take len = b := by
      rintro a b c e len rfl
      rw [List.append_assoc, List.append_assoc, List.drop_left, List.take_left]
    have hk : (key.drop front.length).take (w i) = g i := by
      rw [hkey]
      exact hslice hg
    have hkd : (k.data.drop front.length).take (w i) = d i := by
      rw [hdata, ← hfront]
      exact hslice hd
    have hkm : (k.mask.drop front.length).take (w i) = m i := by
      rw [hmask, ← hfront']
      exact hslice hm
    have hnext := ih hkey hdata hmask (by simp [hfront, hg, hd]) (by simp [hfront', hg, hm]) hrest
    rw [List.length_append, hg] at hnext
    rw [List.map_cons, inRanges, memLt, memLt, hk, hkd, hkm, hnext, List.sum_cons]
    simp only [List.forall_mem_cons, decide_eq_true_eq, Nat.add_assoc]
    by_cases hlow : g i < d i
    · simp [hlow]
    · by_cases hhigh : m i < g i
      · simp [hlow, hhigh]
      · simp [hlow, hhigh]

variable {k : RangeMatchKey} {offset : ℕ}

theorem rangeCmp_of_some (h : inRanges key k 0 k.rangeWidths = some offset) :
    RangeMatchKey.cmp n key k = maskedEq key k.toTernaryMatchKey offset n := by
  rw [RangeMatchKey.cmp, h]

theorem rangeCmp_of_none (h : inRanges key k 0 k.rangeWidths = none) :
    RangeMatchKey.cmp n key k = false := by
  rw [RangeMatchKey.cmp, h]

end

/-! ## Whole keys -/

/-- **The comparison** of a packet key with the key of an entry, in the lookup structure of a unit
of the kind. -/
def KeyMatches (kind : MatchUnitType) (nbytesKey : ℕ) (key : ByteContainer) :
    UnitKey kind → Prop :=
  match kind with
  | .exact => fun entry => key = entry.data
  | .lpm => fun entry =>
    (bytesBits key).take entry.prefixLength = (bytesBits entry.data).take entry.prefixLength
  | .ternary => fun entry => TernaryMatchKey.cmp nbytesKey key entry = true
  | .range => fun entry => RangeMatchKey.cmp nbytesKey key entry = true

section
variable {kind : MatchUnitType} {kb : MatchKeyBuilder} {fields : List KeyField}
  {params : List MatchKeyParam} {phv : Phv} {priority : ℤ} {i : ℕ}

/-- The fields of a packet for the fields of a key. -/
def CarriesAll (phv : Phv) (fields : List KeyField) : Prop := ∀ x ∈ fields, Carries phv x

theorem nbytesKey_ofFields (fields : List KeyField) :
    (ofFields fields).nbytesKey = (fields.map KeyField.nbytes).sum := by
  rw [ofFields, foldl_push, build]
  split_ifs <;> simp

/-- **The key of a packet**: the chunks of its fields, in the sorted order. -/
theorem Sane.packetKey_eq (h : Sane kb fields params) (hphv : CarriesAll phv fields) :
    kb.packetKey phv = kb.invMapping.flatMap fun i => packetChunk phv (fieldAt fields i) := by
  have hkey : kb.keyInput.flatMap (fieldKey phv) =
      kb.invMapping.flatMap fun i => fieldKey phv (fieldAt fields i).input := by
    rw [h.built.keyInput_eq, List.flatMap_map]
  have hbig := h.applyBigMask_eq (g := fun i => fieldKey phv (fieldAt fields i).input) fun i hi =>
    ((hphv _ (fieldAt_mem (h.built.mem_invMapping.mp hi))).fieldKey (h.at hi).1).1
  rw [← hkey] at hbig
  exact hbig

theorem Sane.length_packetChunk (h : Sane kb fields params) (hphv : CarriesAll phv fields)
    (hi : i ∈ kb.invMapping) :
    (packetChunk phv (fieldAt fields i)).length = (fieldAt fields i).nbytes :=
  (hphv _ (fieldAt_mem (h.built.mem_invMapping.mp hi))).length_packetChunk (h.at hi).1

/-- The values of the parameters are within the widths of their fields. -/
def WithinAll (fields : List KeyField) (params : List MatchKeyParam) : Prop :=
  ∀ i < fields.length, Within (fieldAt fields i) (paramAt params i)

/-- **Every field satisfies its own parameter.** -/
def AllSatisfied (phv : Phv) (fields : List KeyField) (params : List MatchKeyParam) : Prop :=
  ∀ i < fields.length, Satisfied (fieldValue phv (fieldAt fields i)) (fieldAt fields i)
    (paramAt params i)

/-- The ranges of a key have no masks. -/
def RangesUnmasked (fields : List KeyField) : Prop :=
  ∀ x ∈ fields, x.input.mtype = .range → x.isMasked = false

instance (fields : List KeyField) : Decidable (RangesUnmasked fields) :=
  inferInstanceAs (Decidable (∀ x ∈ fields, x.input.mtype = .range → x.isMasked = false))

/-- Keys without prefixes, whose ranges have no masks. -/
structure Plain (fields : List KeyField) : Prop where
  noLpm : ∀ x ∈ fields, x.input.mtype ≠ .lpm
  unmasked : RangesUnmasked fields

/-- The field and its parameter as the comparison sees them: the bits of the parameter above the
width are cut, and a prefix is counted from the first bit of the first byte. -/
def Compared (phv : Phv) (x : KeyField) (param : MatchKeyParam) : Prop :=
  SatisfiedIn (8 * x.nbytes) (fieldValue phv x) x (cutParam x param)

def AllCompared (phv : Phv) (fields : List KeyField) (params : List MatchKeyParam) : Prop :=
  ∀ i < fields.length, Compared phv (fieldAt fields i) (paramAt params i)

/-- Without prefixes, and with values within the widths, it sees all there is. -/
theorem allCompared_iff (hnone : ∀ x ∈ fields, x.input.mtype ≠ .lpm)
    (hsane : ∀ i < fields.length,
      paramSane (fieldAt fields i).input (paramAt params i) = true)
    (hin : WithinAll fields params) :
    AllCompared phv fields params ↔ AllSatisfied phv fields params := by
  refine forall₂_congr fun i hi => ?_
  rw [Compared, (hin i hi).cutParam_eq (hsane i hi)]
  exact satisfiedIn_congr (hnone _ (fieldAt_mem hi))

/-- The places of the sorted fields are those of the program. -/
theorem Built.forall_invMapping_iff (hb : kb.Built fields) {p : ℕ → Prop} :
    (∀ i ∈ kb.invMapping, p i) ↔ ∀ i < fields.length, p i :=
  forall_congr' fun _ => imp_congr_left hb.mem_invMapping

theorem Sane.flatMap_eq_iff (h : Sane kb fields params) (hphv : CarriesAll phv fields) {is : List ℕ}
    (his : ∀ i ∈ is, i ∈ kb.invMapping)
    (htypes : ∀ i ∈ is, (fieldAt fields i).input.mtype = .valid ∨
      (fieldAt fields i).input.mtype = .exact) :
    (is.flatMap fun i => packetChunk phv (fieldAt fields i)) =
        (is.flatMap fun i => stored false (fieldAt fields i) (paramAt params i)) ↔
      ∀ i ∈ is, Compared phv (fieldAt fields i) (paramAt params i) := by
  have hlen : ∀ i ∈ is, (packetChunk phv (fieldAt fields i)).length =
      (stored false (fieldAt fields i) (paramAt params i)).length := by
    intro i hi
    rw [h.length_packetChunk hphv (his i hi), h.length_stored false (his i hi)]
  refine (Chunks.flatMap_inj_iff hlen).trans (forall₂_congr fun i hi => ?_)
  have hmem := fieldAt_mem (h.built.mem_invMapping.mp (his i hi))
  obtain ⟨hx, hsane⟩ := h.at (his i hi)
  exact packetChunk_eq_stored_iff (hphv _ hmem) hx hsane (htypes i hi)

theorem Sane.exact_iff (h : Sane kb fields params) (hphv : CarriesAll phv fields)
    (htypes : ∀ x ∈ fields, x.input.mtype = .valid ∨ x.input.mtype = .exact) :
    kb.packetKey phv = storedData false kb fields params ↔ AllCompared phv fields params := by
  rw [h.packetKey_eq hphv, storedData, AllCompared, ← h.built.forall_invMapping_iff]
  exact h.flatMap_eq_iff hphv (fun i hi => hi) fun i hi =>
    htypes _ (fieldAt_mem (h.built.mem_invMapping.mp hi))

/-- What a field that is matched whole adds to the prefix of an entry. -/
theorem Sane.paramPrefix_eq (h : Sane kb fields params) (hi : i ∈ kb.invMapping)
    (hwhole : (fieldAt fields i).input.mtype = .valid ∨ (fieldAt fields i).input.mtype = .exact) :
    paramPrefix (paramAt params i) = 8 * ((fieldAt fields i).nbytes : ℤ) := by
  rw [paramPrefix, h.type_eq hi]
  rcases hwhole with hv | he
  · rw [hv, nbytes_of_valid (h.at hi).1 hv]
    rfl
  · rw [he, ← h.length_key hi]
    exact Int.mul_comm ..

/-- **The sorted fields of a unit for prefixes**: those that are matched whole, and then the field
for the prefix, if there is one. -/
structure PrefixSplit (kb : MatchKeyBuilder) (fields : List KeyField) (os ls : List ℕ) : Prop where
  split : kb.invMapping = os ++ ls
  whole : ∀ i ∈ os, (fieldAt fields i).input.mtype = .valid ∨ (fieldAt fields i).input.mtype = .exact
  lpm : ∀ i ∈ ls, (fieldAt fields i).input.mtype = .lpm
  one : ls = [] ∨ ∃ j, ls = [j]

theorem Built.exists_prefixSplit (hb : kb.Built fields) (hfits : Fits .lpm fields) :
    ∃ os ls, PrefixSplit kb fields os ls := by
  obtain ⟨os, ls, hsplit, hos, hls⟩ := hb.exists_split (MatchType.rank .exact)
  have htypes : ∀ i ∈ kb.invMapping, (fieldAt fields i).input.mtype = .valid ∨
      (fieldAt fields i).input.mtype = .exact ∨ (fieldAt fields i).input.mtype = .lpm := fun i hi =>
    hfits.types _ (fieldAt_mem (hb.mem_invMapping.mp hi))
  have hosmem : ∀ i ∈ os, i ∈ kb.invMapping := fun i hi => hsplit ▸ List.mem_append_left _ hi
  have hlsmem : ∀ i ∈ ls, i ∈ kb.invMapping := fun i hi => hsplit ▸ List.mem_append_right _ hi
  have hlpm : ∀ i ∈ ls, (fieldAt fields i).input.mtype = .lpm := by
    intro i hi
    have hrank := hls i hi
    rcases htypes i (hlsmem i hi) with hm | hm | hm
    · rw [hm] at hrank
      exact absurd hrank (by decide)
    · rw [hm] at hrank
      exact absurd hrank (by decide)
    · exact hm
  refine ⟨os, ls, hsplit, fun i hi => ?_, hlpm, ?_⟩
  · have hrank := hos i hi
    rcases htypes i (hosmem i hi) with hm | hm | hm
    · exact .inl hm
    · exact .inr hm
    · rw [hm] at hrank
      exact absurd hrank (by decide)
  · have hnodup : ls.Nodup := (List.nodup_append.mp (hsplit ▸ hb.nodup)).2.1
    rcases ls with _ | ⟨j, ls⟩
    · exact .inl rfl
    · -- there is no second field for the prefix
      refine .inr ⟨j, congrArg (j :: ·) (List.eq_nil_iff_forall_not_mem.mpr fun k hk => ?_)⟩
      have hjlt := hb.mem_invMapping.mp (hlsmem j List.mem_cons_self)
      have hklt := hb.mem_invMapping.mp (hlsmem k (List.mem_cons_of_mem _ hk))
      have heq := hfits.oneLpm j hjlt k hklt (hlpm j List.mem_cons_self)
        (hlpm k (List.mem_cons_of_mem _ hk))
      exact (List.nodup_cons.mp hnodup).1 (heq ▸ hk)

/-- The prefix length of an entry, from that of its parameter. -/
theorem Sane.prefixLength_eq (h : Sane kb fields params) {os ls : List ℕ}
    (hs : PrefixSplit kb fields os ls) :
    ((kb.invMapping.map fun i => paramPrefix (paramAt params i)).sum).toNat =
      8 * (os.map fun i => (fieldAt fields i).nbytes).sum +
        (ls.map fun j => (paramAt params j).prefixLength.toNat).sum := by
  have hosmem : ∀ i ∈ os, i ∈ kb.invMapping := fun i hi => hs.split ▸ List.mem_append_left _ hi
  have hlsmem : ∀ i ∈ ls, i ∈ kb.invMapping := fun i hi => hs.split ▸ List.mem_append_right _ hi
  have hfront : ∀ is : List ℕ, (∀ i ∈ is, i ∈ os) → (is.map fun i => paramPrefix (paramAt params i)).sum =
      8 * ((is.map fun i => (fieldAt fields i).nbytes).sum : ℕ) := by
    intro is his
    induction is with
    | nil => rfl
    | cons i is ih =>
      obtain ⟨hi, hrest⟩ := List.forall_mem_cons.mp his
      rw [List.map_cons, List.sum_cons, h.paramPrefix_eq (hosmem i hi) (hs.whole i hi), ih hrest,
        List.map_cons, List.sum_cons]
      push_cast
      omega
  rw [hs.split, List.map_append, List.sum_append, hfront os fun i hi => hi]
  rcases hs.one with rfl | ⟨j, rfl⟩
  · simp only [List.map_nil, List.sum_nil]
    omega
  · have hj := hlsmem j List.mem_cons_self
    have hjlpm := hs.lpm j List.mem_cons_self
    obtain ⟨hpos, -⟩ := (paramSane_iff.mp (h.at hj).2).2.2.1 ((h.type_eq hj).trans hjlpm)
    have hprefix : paramPrefix (paramAt params j) = (paramAt params j).prefixLength := by
      rw [paramPrefix, h.type_eq hj, hjlpm]
    simp only [List.map_singleton, List.sum_singleton, hprefix]
    omega

/-- **The prefix of an entry**: the field for the prefix is the last one, and the others are in it
as a whole. -/
theorem Sane.lpm_iff (h : Sane kb fields params) (hphv : CarriesAll phv fields)
    (hfits : Fits .lpm fields) :
    (bytesBits (kb.packetKey phv)).take
          ((kb.invMapping.map fun i => paramPrefix (paramAt params i)).sum).toNat =
        (bytesBits (storedData false kb fields params)).take
          ((kb.invMapping.map fun i => paramPrefix (paramAt params i)).sum).toNat ↔
      AllCompared phv fields params := by
  obtain ⟨os, ls, hs⟩ := h.built.exists_prefixSplit hfits
  have hosmem : ∀ i ∈ os, i ∈ kb.invMapping := fun i hi => hs.split ▸ List.mem_append_left _ hi
  have hlsmem : ∀ i ∈ ls, i ∈ kb.invMapping := fun i hi => hs.split ▸ List.mem_append_right _ hi
  have hchunk : (os.flatMap fun i => packetChunk phv (fieldAt fields i)).length =
      (os.map fun i => (fieldAt fields i).nbytes).sum :=
    Chunks.length_flatMap fun i hi => h.length_packetChunk hphv (hosmem i hi)
  have hstored : (os.flatMap fun i => stored false (fieldAt fields i) (paramAt params i)).length =
      (os.map fun i => (fieldAt fields i).nbytes).sum :=
    Chunks.length_flatMap fun i hi => h.length_stored false (hosmem i hi)
  have hfront := h.flatMap_eq_iff hphv hosmem hs.whole
  rw [h.prefixLength_eq hs, h.packetKey_eq hphv, storedData, AllCompared,
    ← h.built.forall_invMapping_iff, hs.split, List.flatMap_append, List.flatMap_append,
    List.forall_mem_append, ← hfront, ← hchunk,
    take_bytesBits_append_eq_iff (hchunk.trans hstored.symm)]
  refine and_congr_right fun _ => ?_
  rcases hs.one with rfl | ⟨j, rfl⟩
  · exact iff_of_true rfl (by simp)
  · have hj := hlsmem j List.mem_cons_self
    have hmem := fieldAt_mem (h.built.mem_invMapping.mp hj)
    obtain ⟨hx, hsane⟩ := h.at hj
    rw [List.map_singleton, List.sum_singleton, List.flatMap_singleton, List.flatMap_singleton,
      List.forall_mem_singleton]
    exact take_packetChunk_eq_iff (hphv _ hmem) hx hsane (hs.lpm j List.mem_cons_self)

/-- The masked bytes of some of the fields. -/
theorem Sane.applyMask_flatMap_eq_iff (h : Sane kb fields params) (hphv : CarriesAll phv fields)
    {is : List ℕ} (his : ∀ i ∈ is, i ∈ kb.invMapping)
    (hne : ∀ i ∈ is, (fieldAt fields i).input.mtype ≠ .range) :
    applyMask (is.flatMap fun i => packetChunk phv (fieldAt fields i))
        (is.flatMap fun i => paramMask (paramAt params i)) =
        (is.flatMap fun i => stored true (fieldAt fields i) (paramAt params i)) ↔
      ∀ i ∈ is, Compared phv (fieldAt fields i) (paramAt params i) := by
  have hchunk : ∀ i ∈ is, (packetChunk phv (fieldAt fields i)).length =
      (paramMask (paramAt params i)).length := by
    intro i hi
    rw [h.length_packetChunk hphv (his i hi), h.length_paramMask (his i hi)]
  have hmasked : ∀ i ∈ is, (applyMask (packetChunk phv (fieldAt fields i))
      (paramMask (paramAt params i))).length =
        (stored true (fieldAt fields i) (paramAt params i)).length := by
    intro i hi
    rw [length_applyMask (hchunk i hi).symm, h.length_packetChunk hphv (his i hi),
      h.length_stored true (his i hi)]
  have hzip := Chunks.zipWith_flatMap (· &&& ·) hchunk
  change List.zipWith (· &&& ·) _ _ = _ ↔ _
  rw [hzip]
  refine (Chunks.flatMap_inj_iff hmasked).trans (forall₂_congr fun i hi => ?_)
  have hmem := fieldAt_mem (h.built.mem_invMapping.mp (his i hi))
  obtain ⟨hx, hsane⟩ := h.at (his i hi)
  exact applyMask_packetChunk_eq_iff (hphv _ hmem) hx hsane (hne i hi)

theorem Sane.length_packetKey (h : Sane kb fields params) (hphv : CarriesAll phv fields)
    (hn : kb.nbytesKey = (fields.map KeyField.nbytes).sum) :
    (kb.packetKey phv).length = kb.nbytesKey := by
  rw [h.packetKey_eq hphv, Chunks.length_flatMap fun i hi => h.length_packetChunk hphv hi, hn,
    sum_nbytes h.built.perm]

theorem Sane.length_storedData (h : Sane kb fields params)
    (hn : kb.nbytesKey = (fields.map KeyField.nbytes).sum) (ternary : Bool) :
    (storedData ternary kb fields params).length = kb.nbytesKey := by
  rw [storedData, Chunks.length_flatMap fun i hi => h.length_stored ternary hi, hn,
    sum_nbytes h.built.perm]

theorem Sane.length_concatMask (h : Sane kb fields params)
    (hn : kb.nbytesKey = (fields.map KeyField.nbytes).sum) :
    (kb.concatMask params).length = kb.nbytesKey := by
  rw [h.built.concatMask_eq, Chunks.length_flatMap fun i hi => h.length_paramMask hi, hn,
    sum_nbytes h.built.perm]

theorem Sane.ternary_iff (h : Sane kb fields params) (hphv : CarriesAll phv fields)
    (hn : kb.nbytesKey = (fields.map KeyField.nbytes).sum)
    (htypes : ∀ x ∈ fields, x.input.mtype ≠ .range) :
    TernaryMatchKey.cmp kb.nbytesKey (kb.packetKey phv)
        { data := storedData true kb fields params, mask := kb.concatMask params,
          priority := priority } = true ↔ AllCompared phv fields params := by
  rw [TernaryMatchKey.cmp, maskedEq_iff (h.length_packetKey hphv hn) (h.length_storedData hn true)
    (h.length_concatMask hn), List.drop_zero, List.drop_zero, List.drop_zero, h.packetKey_eq hphv,
    h.built.concatMask_eq, storedData, AllCompared, ← h.built.forall_invMapping_iff]
  exact h.applyMask_flatMap_eq_iff hphv (fun i hi => hi) fun i hi =>
    htypes _ (fieldAt_mem (h.built.mem_invMapping.mp hi))

/-- The ranges come first, and then the fields that are compared under masks. -/
theorem Sane.range_iff (h : Sane kb fields params) (hphv : CarriesAll phv fields)
    (hplain : RangesUnmasked fields) (hn : kb.nbytesKey = (fields.map KeyField.nbytes).sum) :
    RangeMatchKey.cmp kb.nbytesKey (kb.packetKey phv)
        { data := storedData true kb fields params, mask := kb.concatMask params,
          priority := priority, rangeWidths := kb.rangeWidths params } = true ↔
      AllCompared phv fields params := by
  obtain ⟨rs, os, hsplit, hrs, hos⟩ := h.built.exists_ranges
  have hrsmem : ∀ i ∈ rs, i ∈ kb.invMapping := fun i hi => hsplit ▸ List.mem_append_left _ hi
  have hosmem : ∀ i ∈ os, i ∈ kb.invMapping := fun i hi => hsplit ▸ List.mem_append_right _ hi
  let chunk : ℕ → ByteContainer := fun i => packetChunk phv (fieldAt fields i)
  let data : ℕ → ByteContainer := fun i => stored true (fieldAt fields i) (paramAt params i)
  let mask : ℕ → ByteContainer := fun i => paramMask (paramAt params i)
  let width : ℕ → ℕ := fun i => (fieldAt fields i).nbytes
  have hkey : kb.packetKey phv = rs.flatMap chunk ++ os.flatMap chunk := by
    rw [h.packetKey_eq hphv, hsplit, List.flatMap_append]
  have hdata : storedData true kb fields params = rs.flatMap data ++ os.flatMap data := by
    rw [storedData, hsplit, List.flatMap_append]
  have hmask : kb.concatMask params = rs.flatMap mask ++ os.flatMap mask := by
    rw [h.built.concatMask_eq, hsplit, List.flatMap_append]
  have hchunkw : (rs.flatMap chunk).length = (rs.map width).sum :=
    Chunks.length_flatMap fun i hi => h.length_packetChunk hphv (hrsmem i hi)
  have hdataw : (rs.flatMap data).length = (rs.map width).sum :=
    Chunks.length_flatMap fun i hi => h.length_stored true (hrsmem i hi)
  have hmaskw : (rs.flatMap mask).length = (rs.map width).sum :=
    Chunks.length_flatMap fun i hi => h.length_paramMask (hrsmem i hi)
  -- the two parts of what is to be shown
  have hrsat : (∀ i ∈ rs, ¬ chunk i < data i ∧ ¬ mask i < chunk i) ↔
      ∀ i ∈ rs, Compared phv (fieldAt fields i) (paramAt params i) := by
    refine forall₂_congr fun i hi => ?_
    have hmem := fieldAt_mem (h.built.mem_invMapping.mp (hrsmem i hi))
    obtain ⟨hx, hsane⟩ := h.at (hrsmem i hi)
    exact not_lt_packetChunk_iff (hphv _ hmem) hx hsane (hrs i hi) (hplain _ hmem (hrs i hi))
  have hosat := h.applyMask_flatMap_eq_iff hphv hosmem hos
  rw [AllCompared, ← h.built.forall_invMapping_iff, hsplit, List.forall_mem_append, ← hrsat, ← hosat,
    h.rangeWidths_eq hsplit hrs hos]
  let k : RangeMatchKey :=
    { data := storedData true kb fields params, mask := kb.concatMask params
      priority := priority, rangeWidths := rs.map width }
  have hranges := @inRanges_flatMap (kb.packetKey phv) width chunk data mask rs k [] [] []
    (os.flatMap chunk) (os.flatMap data) (os.flatMap mask) hkey hdata hmask rfl rfl fun i hi =>
      ⟨h.length_packetChunk hphv (hrsmem i hi), h.length_stored true (hrsmem i hi),
        h.length_paramMask (hrsmem i hi)⟩
  rw [List.length_nil, Nat.zero_add] at hranges
  by_cases hall : ∀ i ∈ rs, ¬ chunk i < data i ∧ ¬ mask i < chunk i
  · rw [if_pos hall] at hranges
    have hrest := @maskedEq_iff (kb.packetKey phv) kb.nbytesKey (rs.map width).sum k.toTernaryMatchKey
      (h.length_packetKey hphv hn) (h.length_storedData hn true) (h.length_concatMask hn)
    rw [rangeCmp_of_some hranges, hrest, and_iff_right hall]
    change applyMask ((kb.packetKey phv).drop _) ((kb.concatMask params).drop _) =
      (storedData true kb fields params).drop _ ↔ _
    rw [hkey, hdata, hmask, List.drop_left' hchunkw, List.drop_left' hdataw, List.drop_left' hmaskw]
  · rw [if_neg hall] at hranges
    rw [rangeCmp_of_none hranges]
    exact iff_of_false Bool.false_ne_true fun hboth => hall hboth.1

/-- **The keys match field by field**, in each of the lookup structures. -/
theorem keyMatches_iff (hfits : Fits kind fields) (hplain : RangesUnmasked fields)
    (hcheck : (ofFields fields).matchParamsSanityCheck params = true)
    (hphv : CarriesAll phv fields) (priority : ℤ) :
    KeyMatches kind (ofFields fields).nbytesKey ((ofFields fields).packetKey phv)
        (((ofFields fields).toKeyBuilder (UnitKey kind)).matchParamsToEntry params priority) ↔
      AllCompared phv fields params := by
  have h : Sane (ofFields fields) fields params := ⟨built_ofFields hfits.sound, hfits.sound, hcheck⟩
  have hn := nbytesKey_ofFields fields
  cases kind with
  | exact =>
    have hentry : ((ofFields fields).toKeyBuilder (UnitKey .exact)).matchParamsToEntry params priority =
        ⟨storedData false (ofFields fields) fields params⟩ := toEntry_exact h priority
    rw [hentry]
    exact h.exact_iff hphv hfits.types
  | lpm =>
    have hentry : ((ofFields fields).toKeyBuilder (UnitKey .lpm)).matchParamsToEntry params priority =
        _ := toEntry_lpm h priority
    rw [hentry]
    exact h.lpm_iff hphv hfits
  | ternary =>
    have hentry : ((ofFields fields).toKeyBuilder (UnitKey .ternary)).matchParamsToEntry params
        priority = _ := toEntry_ternary h priority hfits.types
    rw [hentry]
    exact h.ternary_iff hphv hn hfits.types
  | range =>
    have hentry : ((ofFields fields).toKeyBuilder (UnitKey .range)).matchParamsToEntry params
        priority = _ := toEntry_range h priority
    rw [hentry]
    exact h.range_iff hphv hplain hn

/-! ## Units of one entry -/

/-- A list with one entry finds it where the keys match. -/
theorem isSome_lookup_iff {K : Type} [EntryKey K] {m : EntryMap K} {size j : ℕ} {live : ℕ → Option K}
    {entry : K} (h : LiveLookup.Follows m size live) (hj : live j = some entry)
    (honly : ∀ i k, live i = some k → k = entry) (key : ByteContainer) :
    (LookupStructure.lookup m key).1.isSome ↔
      EntryKey.cmp m.nbytesKey key entry = true ∧ EntryKey.priority entry < intMax := by
  have hscan := (Holds.lookup h key).1
  change (m.entryList.lookup key (EntryKey.cmp m.nbytesKey key)).1.isSome ↔ _
  rw [hscan, ← not_iff_not, Bool.not_eq_true, Option.isSome_eq_false_iff,
    Option.isNone_iff_eq_none, (h.scan_spec _).2]
  constructor
  · rintro hnone ⟨hcmp, hlt⟩
    exact hnone j entry ⟨hj, hcmp, hlt⟩
  · rintro hno i k ⟨hlive, hcmp, hlt⟩
    obtain rfl := honly i k hlive
    exact hno ⟨hcmp, hlt⟩

/-- The entry that was added to a new unit is live there. -/
theorem exists_live_of_addEntry_newUnit {h : EntryHandle}
    {u' : MatchUnit (UnitLookup kind) (UnitKey kind) Unit}
    (hadd : (newUnit kind Unit kb 1 false).addEntry (kb.toKeyBuilder (UnitKey kind)) params () priority
      0 = (.ok h, u')) :
    ∃ j, u'.live j = some ((kb.toKeyBuilder (UnitKey kind)).matchParamsToEntry params priority) := by
  obtain ⟨-, -, -, -, rfl⟩ := addEntry_eq_ok hadd
  exact ⟨_, live_eq_some.mpr ⟨Finset.mem_insert_self .., by simp only [Function.update_self]⟩⟩

/-- **A unit finds its only entry** where the keys match. A ternary entry of the largest priority
there is is never found. -/
theorem matches_iff_keyMatches (hkind : kind ≠ .lpm)
    (hcheck : kb.matchParamsSanityCheck params = true) (key : ByteContainer) :
    Matches kind kb params priority key ↔
      KeyMatches kind kb.nbytesKey key
          ((kb.toKeyBuilder (UnitKey kind)).matchParamsToEntry params priority) ∧
        (kind = .exact ∨ priority < intMax) := by
  obtain ⟨h, u', hadd⟩ : ∃ h u', (newUnit kind Unit kb 1 false).addEntry
      (kb.toKeyBuilder (UnitKey kind)) params () priority 0 = (.ok h, u') :=
    exists_addEntry_newUnit hcheck
  have hsound : u'.Sound := by
    have hs := (sound_newUnit kind Unit kb 1 false).apply (kb.toKeyBuilder (UnitKey kind))
      (.addEntry params () priority 0)
    rwa [MatchUnit.apply, hadd] at hs
  have hlookup : (u'.lookupKey key).1.isSome =
      (LookupStructure.lookup u'.lookupStructure key).1.isSome := by
    rw [lookupKey, Option.isSome_map]
  obtain ⟨j, hj⟩ := exists_live_of_addEntry_newUnit hadd
  have hwidth : u'.lookupStructure = LookupStructure.addEntry
      (createLookup kind 1 kb.nbytesKey false)
      ((kb.toKeyBuilder (UnitKey kind)).matchParamsToEntry params priority)
      (firstFree (newUnit kind Unit kb 1 false).handles) := by
    obtain ⟨-, -, -, -, rfl⟩ := addEntry_eq_ok hadd
    rfl
  rw [Matches, hadd, hlookup]
  -- An exact unit asks its map; the others scan a list that holds the one entry.
  cases kind with
  | exact =>
    rw [hwidth, and_iff_left (.inl rfl)]
    let entry : ExactMatchKey := (kb.toKeyBuilder (UnitKey .exact)).matchParamsToEntry params priority
    change (Function.update (fun _ => none) entry.data (some _) key).isSome = true ↔ key = entry.data
    by_cases heq : key = entry.data
    · rw [heq, Function.update_self]
      exact iff_of_true rfl rfl
    · rw [Function.update_of_ne heq]
      exact iff_of_false Bool.false_ne_true heq
  | lpm => exact absurd rfl hkind
  | ternary =>
    rw [isSome_lookup_iff hsound.follows hj fun i k hi => live_of_addEntry_newUnit hadd hi, hwidth,
      or_iff_right (by decide)]
    exact Iff.rfl
  | range =>
    rw [isSome_lookup_iff hsound.follows hj fun i k hi => live_of_addEntry_newUnit hadd hi, hwidth,
      or_iff_right (by decide)]
    exact Iff.rfl

/-- **A packet matches an entry** exactly when every field satisfies its own parameter: in the
comparison of the keys, and in a unit of the one entry. -/
theorem packet_matches_iff (hkind : kind ≠ .lpm) (hfits : Fits kind fields) (hplain : Plain fields)
    (hcheck : (ofFields fields).matchParamsSanityCheck params = true)
    (hin : WithinAll fields params) (hphv : CarriesAll phv fields) :
    (KeyMatches kind (ofFields fields).nbytesKey ((ofFields fields).packetKey phv)
        (((ofFields fields).toKeyBuilder (UnitKey kind)).matchParamsToEntry params priority) ↔
      AllSatisfied phv fields params) ∧
    (priority < intMax →
      (Matches kind (ofFields fields) params priority ((ofFields fields).packetKey phv) ↔
        AllSatisfied phv fields params)) := by
  have hsane := ((built_ofFields hfits.sound).matchParamsSanityCheck_iff.mp hcheck).2
  have hkeys := (keyMatches_iff hfits hplain.unmasked hcheck hphv priority).trans
    (allCompared_iff hplain.noLpm hsane hin)
  refine ⟨hkeys, fun hpriority => ?_⟩
  rw [matches_iff_keyMatches hkind hcheck, hkeys]
  exact and_iff_left (.inr hpriority)

/-- A header of two fields, and one that is not valid. -/
def twoHeaders : Phv :=
  ⟨[⟨0, [{ value := 0xabc, nbits := 12, bytes := [0x0a, 0xbc] },
        { value := 0x25, nbits := 8, bytes := [0x25] }], true, false, 3, none⟩,
    ⟨1, [{ value := 0x1ff, nbits := 9, bytes := [0x01, 0xff] }], false, false, 2, none⟩], [], [], []⟩

/-- Fields of four types, of which the sorted order is the reverse. -/
def mixedFields : List KeyField :=
  [.field 0 0 12 .ternary, .masked 0 1 8 [0x0f] .exact, .validHeader 1, .field 1 0 9 .range]

def mixedParams : List MatchKeyParam :=
  [⟨.ternary, [0x0a, 0x00], [0x0f, 0x00], 0⟩, ⟨.exact, [0x15], [], 0⟩, ⟨.valid, [0x00], [], 0⟩,
    ⟨.range, [0x00, 0x00], [0x00, 0x05], 0⟩]

theorem twoHeaders_matches :
    KeyMatches .range (ofFields mixedFields).nbytesKey ((ofFields mixedFields).packetKey twoHeaders)
        (((ofFields mixedFields).toKeyBuilder RangeMatchKey).matchParamsToEntry mixedParams 3) ∧
      Matches .range (ofFields mixedFields) mixedParams 3
        ((ofFields mixedFields).packetKey twoHeaders) := by
  have hfits : Fits .range mixedFields := ⟨by decide, fun x _ => trivial, by decide⟩
  have hplain : Plain mixedFields := ⟨by decide, by decide⟩
  have hin : WithinAll mixedFields mixedParams := by
    unfold WithinAll Within
    decide
  have hphv : CarriesAll twoHeaders mixedFields := by
    simp only [CarriesAll, mixedFields, List.forall_mem_cons]
    exact ⟨⟨_, rfl, fun _ => ⟨_, rfl, rfl, rfl⟩⟩, ⟨_, rfl, fun _ => ⟨_, rfl, rfl, rfl⟩⟩,
      ⟨_, rfl, fun hne => absurd rfl hne⟩, ⟨_, rfl, fun _ => ⟨_, rfl, rfl, rfl⟩⟩,
      fun x hx => absurd hx List.not_mem_nil⟩
  have hall : AllSatisfied twoHeaders mixedFields mixedParams := by
    intro i hi
    have hi' : i < 4 := hi
    rcases i with _ | _ | _ | _ | i
    · exact (rfl : 0xabc &&& 0xffff &&& 0x0f00 = 0xa00 &&& 0xffff &&& 0x0f00)
    · exact (rfl : 0x25 &&& 0x0f = 0x15 &&& 0x0f)
    · exact (rfl : 0 &&& 0xff = 0 &&& 0xff)
    · exact (by decide : 0 ≤ 0 ∧ 0 ≤ 5)
    · omega
  obtain ⟨hkeys, hunit⟩ := packet_matches_iff (priority := 3) (by decide) hfits hplain (by decide)
    hin hphv
  exact ⟨hkeys.mpr hall, (hunit (by decide)).mpr hall⟩

/-- **The parameter is masked as well**: `0x25` has the four bits of `0x15` that are matched, which
are not `0x15`. -/
theorem masked_parameter_matches :
    Fits .exact [.masked 0 1 8 [0x0f] .exact] ∧ Plain [.masked 0 1 8 [0x0f] .exact] ∧
      (ofFields [.masked 0 1 8 [0x0f] .exact]).matchParamsSanityCheck [⟨.exact, [0x15], [], 0⟩] =
        true ∧
      WithinAll [.masked 0 1 8 [0x0f] .exact] [⟨.exact, [0x15], [], 0⟩] ∧
      CarriesAll twoHeaders [.masked 0 1 8 [0x0f] .exact] ∧
      KeyMatches .exact (ofFields [.masked 0 1 8 [0x0f] .exact]).nbytesKey
        ((ofFields [.masked 0 1 8 [0x0f] .exact]).packetKey twoHeaders)
        (((ofFields [.masked 0 1 8 [0x0f] .exact]).toKeyBuilder ExactMatchKey).matchParamsToEntry
          [⟨.exact, [0x15], [], 0⟩] 0) ∧
      fieldValue twoHeaders (.masked 0 1 8 [0x0f] .exact) &&& bytesVal [0x0f] ≠ bytesVal [0x15] := by
  refine ⟨⟨by decide, by decide, by decide⟩, ⟨by decide, by decide⟩, by decide, ?_, ?_, ?_, by decide⟩
  · unfold WithinAll Within
    decide
  · rintro x hx
    obtain rfl := List.mem_singleton.mp hx
    exact ⟨_, rfl, fun _ => ⟨_, rfl, rfl, rfl⟩⟩
  · unfold KeyMatches
    decide

end

end MatchKeyBuilder

end MatchKeys

end P4Bricks
