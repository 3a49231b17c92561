import P4Bricks.MatchKeys.Layout
/-!
# The keys of entries

An entry has the bytes of its parameters in the sorted order of the fields, each cut to
the width of its field and masked: by the mask of the parameter, where the unit is one
for ternary keys, and by the mask of the field. So two lists of parameters make one
entry if they do so field by field.
-/

namespace P4Bricks

namespace MatchKeys

open Lookup

namespace MatchKeyBuilder

/-- The bytes, less the bits above the width. -/
def cutTop (nbits : ℕ) (bytes : ByteContainer) : ByteContainer :=
  bytes.modify 0 (· &&& getByte0Mask nbits)

/-- A parameter of a list. -/
def paramAt (params : List MatchKeyParam) (i : ℕ) : MatchKeyParam := params.getD i default

/-- **What an entry has for a field.** In a unit for ternary keys the bytes are masked by
the parameter, but for the start of a range. -/
def stored (ternary : Bool) (x : KeyField) (param : MatchKeyParam) : ByteContainer :=
  let bytes := cutTop x.input.nbits param.key
  applyMask (if ternary ∧ param.type ≠ .range then applyMask bytes (paramMask param) else bytes)
    x.mask

/-! ## Masks -/

/-- Bits are cut off, and no byte. -/
@[simp] theorem length_cutTop (nbits : ℕ) (bytes : ByteContainer) :
    (cutTop nbits bytes).length = bytes.length := List.length_modify ..

/-- A mask of the same length leaves the length. -/
theorem length_applyMask {bytes mask : ByteContainer} (h : mask.length = bytes.length) :
    (applyMask bytes mask).length = bytes.length := by
  simp [applyMask, h]

/-- A mask is applied byte by byte. -/
theorem applyMask_cons (b m : UInt8) (bytes mask : ByteContainer) :
    applyMask (b :: bytes) (m :: mask) = (b &&& m) :: applyMask bytes mask := rfl

/-- A mask that takes everything. -/
theorem applyMask_ones (bytes : ByteContainer) :
    applyMask bytes (List.replicate bytes.length 0xff) = bytes := by
  induction bytes with
  | nil => rfl
  | cons b bytes ih =>
    have hb : b &&& 0xff = b := by
      have h255 : (0xff : UInt8) = -1 := rfl
      rw [h255, UInt8.and_neg_one]
    rw [List.length_cons, List.replicate_succ, applyMask_cons, ih, hb]

/-- Masking twice is masking once. -/
theorem applyMask_applyMask (bytes mask : ByteContainer) :
    applyMask (applyMask bytes mask) mask = applyMask bytes mask := by
  induction bytes generalizing mask with
  | nil => rfl
  | cons b bytes ih =>
    rcases mask with - | ⟨m, mask⟩
    · rfl
    · rw [applyMask_cons, applyMask_cons, ih, UInt8.and_assoc, UInt8.and_self]

/-- Masks may be applied in either order. -/
theorem applyMask_comm (bytes mask mask' : ByteContainer) :
    applyMask (applyMask bytes mask) mask' = applyMask (applyMask bytes mask') mask := by
  induction bytes generalizing mask mask' with
  | nil => rfl
  | cons b bytes ih =>
    rcases mask with - | ⟨m, mask⟩
    · simp [applyMask]
    · rcases mask' with - | ⟨m', mask'⟩
      · simp [applyMask]
      · rw [applyMask_cons, applyMask_cons, applyMask_cons, applyMask_cons, ih, UInt8.and_assoc,
          UInt8.and_assoc, UInt8.and_comm m]

/-- Only the first byte is cut. -/
theorem cutTop_cons (nbits : ℕ) (b : UInt8) (bytes : ByteContainer) :
    cutTop nbits (b :: bytes) = (b &&& getByte0Mask nbits) :: bytes := rfl

/-- The bits above the width are cut before masking or after it. -/
theorem cutTop_applyMask (nbits : ℕ) (bytes mask : ByteContainer) :
    cutTop nbits (applyMask bytes mask) = applyMask (cutTop nbits bytes) mask := by
  rcases bytes with - | ⟨b, bytes⟩
  · rfl
  · rcases mask with - | ⟨m, mask⟩
    · rfl
    · rw [applyMask_cons, cutTop_cons, cutTop_cons, applyMask_cons, UInt8.and_assoc,
        UInt8.and_assoc, UInt8.and_comm m]

/-- What was cut once is not cut any more. -/
theorem cutTop_cutTop (nbits : ℕ) (bytes : ByteContainer) :
    cutTop nbits (cutTop nbits bytes) = cutTop nbits bytes := by
  rcases bytes with - | ⟨b, bytes⟩
  · rfl
  · rw [cutTop_cons, cutTop_cons, UInt8.and_assoc, UInt8.and_self]

/-! ## Sane parameters -/

section
variable {fields : List KeyField} {kb : MatchKeyBuilder} {params params' : List MatchKeyParam}
  {f : KeyF} {x : KeyField} {param : MatchKeyParam} {i : ℕ}

/-- **What the check asks of a parameter**: its type, as many bytes as the field, and a
prefix or a mask that fits it. -/
theorem paramSane_iff : paramSane f param = true ↔
    param.type = f.mtype ∧ param.key.length = nbitsToNbytes f.nbits ∧
      (param.type = .lpm → 0 ≤ param.prefixLength ∧ param.prefixLength ≤ f.nbits) ∧
      (param.type = .ternary → param.mask.length = nbitsToNbytes f.nbits) ∧
      (param.type = .range → param.mask.length = nbitsToNbytes f.nbits ∧
        ¬param.mask < param.key) := by
  unfold paramSane
  rcases htype : param.type <;> simp [and_assoc]

/-- Every field has a place in the sorted key, -/
theorem Built.mem_invMapping (hb : kb.Built fields) : i ∈ kb.invMapping ↔ i < fields.length :=
  hb.perm.mem_iff.trans List.mem_range

/-- and only one. -/
theorem Built.nodup (hb : kb.Built fields) : kb.invMapping.Nodup :=
  hb.perm.nodup_iff.mpr List.nodup_range

/-- The parameters are sorted as the fields are. -/
theorem Built.sortedParams_eq (hb : kb.Built fields) : kb.sortedParams params =
    kb.invMapping.map fun i => ((fieldAt fields i).input, paramAt params i) := by
  rw [sortedParams, hb.keyInput_eq, List.zip_map']
  rfl

/-- **The check** is one of each field. -/
theorem Built.matchParamsSanityCheck_iff (hb : kb.Built fields) :
    kb.matchParamsSanityCheck params = true ↔ params.length = fields.length ∧
      ∀ i < fields.length, paramSane (fieldAt fields i).input (paramAt params i) = true := by
  have hlen : kb.keyInput.length = fields.length := by
    rw [hb.keyInput_eq, List.length_map, hb.perm.length_eq, List.length_range]
  rw [matchParamsSanityCheck, hb.sortedParams_eq, hlen]
  simp [hb.mem_invMapping]

/-- A validity bit takes a byte. -/
theorem nbytes_of_valid (hx : x.Sound) (hv : x.input.mtype = .valid) : x.nbytes = 1 := by
  cases x with
  | field => exact absurd hv hx.2
  | masked => exact absurd hv hx.2.2
  | validHeader => simp [KeyField.nbytes, KeyField.input, nbitsToNbytes]

/-- The mask of a prefix is as long as its field. -/
theorem length_createMaskFromPrefLen {p size : ℕ} (h : p ≤ 8 * size) :
    (createMaskFromPrefLen p size).length = size := by
  unfold createMaskFromPrefLen
  dsimp only
  split_ifs
  · simp
    omega
  · simp
    omega

/-- A prefix that was checked ends in its field. -/
theorem prefix_le (hsane : paramSane x.input param = true) (htype : param.type = .lpm) :
    param.prefixLength.toNat ≤ 8 * param.key.length := by
  obtain ⟨-, hlen, hlpm, -, -⟩ := paramSane_iff.mp hsane
  obtain ⟨hpos, hle⟩ := hlpm htype
  rw [hlen, nbitsToNbytes]
  omega

/-- The mask of a parameter has the size of its field. -/
theorem length_paramMask (hx : x.Sound) (hsane : paramSane x.input param = true) :
    (paramMask param).length = x.nbytes := by
  obtain ⟨htype, hlen, -, hternary, hrange⟩ := paramSane_iff.mp hsane
  unfold paramMask
  split
  · next hv => exact (nbytes_of_valid hx (htype ▸ hv)).symm
  · exact (List.length_replicate).trans hlen
  · next hl => exact (length_createMaskFromPrefLen (prefix_le hsane hl)).trans hlen
  · next hr => exact (hrange hr).1
  · next ht => exact hternary ht

/-- What is stored of a parameter is as long as its field. -/
theorem length_stored (hx : x.Sound) (hsane : paramSane x.input param = true) (ternary : Bool) :
    (stored ternary x param).length = x.nbytes := by
  have hkey : param.key.length = x.nbytes := (paramSane_iff.mp hsane).2.1
  have hmask := length_paramMask hx hsane
  have hcut : (cutTop x.input.nbits param.key).length = x.nbytes := by rw [length_cutTop, hkey]
  unfold stored
  dsimp only
  split_ifs
  · have hboth : (applyMask (cutTop x.input.nbits param.key) (paramMask param)).length = x.nbytes := by
      rw [length_applyMask (hmask.trans hcut.symm), hcut]
    rw [length_applyMask (hx.length_mask.trans hboth.symm), hboth]
  · rw [length_applyMask (hx.length_mask.trans hcut.symm), hcut]

/-! ## Putting an entry together -/

/-- Parameters that pass the check, for a builder of sound fields. -/
structure Sane (kb : MatchKeyBuilder) (fields : List KeyField) (params : List MatchKeyParam) : Prop
    where
  built : kb.Built fields
  sound : ∀ x ∈ fields, x.Sound
  check : kb.matchParamsSanityCheck params = true

/-- What the check says of all parameters, for one, -/
theorem Sane.at (h : Sane kb fields params) (hi : i ∈ kb.invMapping) :
    (fieldAt fields i).Sound ∧ paramSane (fieldAt fields i).input (paramAt params i) = true := by
  have hlt := h.built.mem_invMapping.mp hi
  exact ⟨h.sound _ (fieldAt_mem hlt), (h.built.matchParamsSanityCheck_iff.mp h.check).2 i hlt⟩

/-- of which the type is that of its field, -/
theorem Sane.type_eq (h : Sane kb fields params) (hi : i ∈ kb.invMapping) :
    (paramAt params i).type = (fieldAt fields i).input.mtype :=
  (paramSane_iff.mp (h.at hi).2).1

/-- the key is as long as the field, -/
theorem Sane.length_key (h : Sane kb fields params) (hi : i ∈ kb.invMapping) :
    (paramAt params i).key.length = (fieldAt fields i).nbytes :=
  (paramSane_iff.mp (h.at hi).2).2.1

/-- the mask too, -/
theorem Sane.length_paramMask (h : Sane kb fields params) (hi : i ∈ kb.invMapping) :
    (paramMask (paramAt params i)).length = (fieldAt fields i).nbytes :=
  MatchKeyBuilder.length_paramMask (h.at hi).1 (h.at hi).2

/-- and so is what is stored. -/
theorem Sane.length_stored (h : Sane kb fields params) (ternary : Bool) (hi : i ∈ kb.invMapping) :
    (stored ternary (fieldAt fields i) (paramAt params i)).length = (fieldAt fields i).nbytes :=
  MatchKeyBuilder.length_stored (h.at hi).1 (h.at hi).2 ternary

/-- The first element of the second of two lists is modified. -/
theorem modify_length_append {α : Type} (l l' : List α) (g : α → α) :
    (l ++ l').modify l.length g = l ++ l'.modify 0 g := by
  induction l with
  | nil => rfl
  | cons a l ih => exact congrArg (a :: ·) ih

/-- The first byte of each parameter is cut where it was appended. -/
theorem foldl_concatData (l : List (KeyF × MatchKeyParam)) (data : ByteContainer) :
    (l.foldl (fun (acc : ByteContainer × ℕ) fp =>
      ((acc.1 ++ fp.2.key).modify acc.2 (· &&& getByte0Mask fp.1.nbits), acc.2 + fp.2.key.length))
      (data, data.length)).1 = data ++ l.flatMap fun fp => cutTop fp.1.nbits fp.2.key := by
  induction l generalizing data with
  | nil => simp
  | cons fp l ih =>
    have hmodify : (data ++ fp.2.key).modify data.length (· &&& getByte0Mask fp.1.nbits) =
        data ++ cutTop fp.1.nbits fp.2.key := modify_length_append ..
    have hlen : data.length + fp.2.key.length = (data ++ cutTop fp.1.nbits fp.2.key).length := by
      simp
    rw [List.foldl_cons]
    dsimp only
    rw [hmodify, hlen, ih, List.flatMap_cons, List.append_assoc]

/-- The data of an entry are the keys of its parameters in the sorted order, each cut to
its width. -/
theorem Built.concatData_eq (hb : kb.Built fields) : kb.concatData params =
    kb.invMapping.flatMap fun i => cutTop (fieldAt fields i).input.nbits (paramAt params i).key := by
  have hfold := foldl_concatData (kb.sortedParams params) []
  rw [List.nil_append, hb.sortedParams_eq, List.flatMap_map] at hfold
  rw [concatData, hb.sortedParams_eq]
  exact hfold

/-- And its mask is that of the parameters. -/
theorem Built.concatMask_eq (hb : kb.Built fields) : kb.concatMask params =
    kb.invMapping.flatMap fun i => paramMask (paramAt params i) := by
  rw [concatMask, hb.sortedParams_eq, List.flatMap_map]

/-- **The big mask** masks each field by its own. -/
theorem Sane.applyBigMask_eq (h : Sane kb fields params) {g : ℕ → ByteContainer}
    (hlen : ∀ i ∈ kb.invMapping, (g i).length = (fieldAt fields i).nbytes) :
    kb.applyBigMask (kb.invMapping.flatMap g) =
      kb.invMapping.flatMap fun i => applyMask (g i) (fieldAt fields i).mask := by
  unfold applyBigMask
  rw [h.built.hasBigMask_eq]
  split_ifs with hbig
  · rw [h.built.bigMask_eq, applyMask, Chunks.zipWith_flatMap]
    · rfl
    · exact fun i hi => (hlen i hi).trans ((h.at hi).1.length_mask).symm
  · refine List.flatMap_congr fun i hi => ?_
    have hall : fields.any KeyField.isMasked = false := by simpa using hbig
    have hx := List.any_eq_false.mp hall _ (fieldAt_mem (h.built.mem_invMapping.mp hi))
    rw [KeyField.mask_of_not_isMasked (by simpa using hx), ← hlen i hi, applyMask_ones]

/-! ## The four kinds -/

/-- What an entry has for its fields, one after the other. -/
def storedData (ternary : Bool) (kb : MatchKeyBuilder) (fields : List KeyField)
    (params : List MatchKeyParam) : ByteContainer :=
  kb.invMapping.flatMap fun i => stored ternary (fieldAt fields i) (paramAt params i)

/-- The masks of the layout are put on the data chunk by chunk. -/
theorem Sane.applyBigMask_concatData (h : Sane kb fields params) :
    kb.applyBigMask (kb.concatData params) = storedData false kb fields params := by
  rw [h.built.concatData_eq, h.applyBigMask_eq]
  · refine List.flatMap_congr fun i _ => ?_
    rw [stored, if_neg (by simp)]
  · exact fun i hi => (length_cutTop ..).trans (h.length_key hi)

/-- An exact entry has the data only. -/
theorem toEntry_exact (h : Sane kb fields params) (priority : ℤ) :
    (kb.toKeyBuilder ExactMatchKey).matchParamsToEntry params priority =
      ⟨storedData false kb fields params⟩ :=
  congrArg ExactMatchKey.mk h.applyBigMask_concatData

/-- The prefix of an entry is as long as those of its parameters together. -/
theorem toEntry_lpm (h : Sane kb fields params) (priority : ℤ) :
    (kb.toKeyBuilder LPMMatchKey).matchParamsToEntry params priority =
      ⟨storedData false kb fields params,
        ((kb.invMapping.map fun i => paramPrefix (paramAt params i)).sum).toNat⟩ := by
  have hlength : (kb.sortedParams params).map (fun fp => paramPrefix fp.2) =
      kb.invMapping.map fun i => paramPrefix (paramAt params i) := by
    rw [h.built.sortedParams_eq, List.map_map]
    rfl
  change LPMMatchKey.mk (kb.applyBigMask (kb.concatData params))
    ((kb.sortedParams params).map fun fp => paramPrefix fp.2).sum.toNat = _
  rw [h.applyBigMask_concatData, hlength]

/-- The bytes that the masks of the parameters leave. -/
theorem Sane.formatTernaryKey_eq (h : Sane kb fields params) {is : List ℕ}
    (his : ∀ i ∈ is, i ∈ kb.invMapping) :
    formatTernaryKey
        (is.flatMap fun i => cutTop (fieldAt fields i).input.nbits (paramAt params i).key)
        (is.flatMap fun i => paramMask (paramAt params i)) =
      is.flatMap fun i => applyMask
        (cutTop (fieldAt fields i).input.nbits (paramAt params i).key)
        (paramMask (paramAt params i)) := by
  rw [formatTernaryKey, applyMask, Chunks.zipWith_flatMap]
  · rfl
  · intro i hi
    rw [length_cutTop, h.length_key (his i hi), h.length_paramMask (his i hi)]

/-- A ternary entry has its masks put on its data. -/
theorem toEntry_ternary (h : Sane kb fields params) (priority : ℤ)
    (hfits : ∀ x ∈ fields, x.input.mtype ≠ .range) :
    (kb.toKeyBuilder TernaryMatchKey).matchParamsToEntry params priority =
      { data := storedData true kb fields params
        mask := kb.concatMask params
        priority := priority } := by
  have hformat := h.formatTernaryKey_eq fun _ (hi : _ ∈ kb.invMapping) => hi
  rw [← h.built.concatData_eq, ← h.built.concatMask_eq] at hformat
  have hdata : kb.applyBigMask (formatTernaryKey (kb.concatData params) (kb.concatMask params)) =
      storedData true kb fields params := by
    rw [hformat, h.applyBigMask_eq]
    · refine List.flatMap_congr fun i hi => ?_
      have hne : (paramAt params i).type ≠ .range := by
        rw [h.type_eq hi]
        exact hfits _ (fieldAt_mem (h.built.mem_invMapping.mp hi))
      rw [stored, if_pos ⟨rfl, hne⟩]
    · intro i hi
      have hkey := (length_cutTop (fieldAt fields i).input.nbits _).trans (h.length_key hi)
      rw [length_applyMask ((h.length_paramMask hi).trans hkey.symm), hkey]
  change TernaryMatchKey.mk (kb.applyBigMask (formatTernaryKey (kb.concatData params)
    (kb.concatMask params))) (kb.concatMask params) priority = _
  rw [hdata]

/-- The sorted fields, cut behind those of the least ranks. -/
theorem Built.exists_split (hb : kb.Built fields) (rank : ℕ) :
    ∃ low high, kb.invMapping = low ++ high ∧
      (∀ i ∈ low, (fieldAt fields i).input.mtype.rank ≤ rank) ∧
      ∀ i ∈ high, rank < (fieldAt fields i).input.mtype.rank := by
  have hall : ∀ is : List ℕ, is.Pairwise (fun i j =>
      (fieldAt fields i).input.mtype.rank ≤ (fieldAt fields j).input.mtype.rank) →
      ∃ low high, is = low ++ high ∧ (∀ i ∈ low, (fieldAt fields i).input.mtype.rank ≤ rank) ∧
        ∀ i ∈ high, rank < (fieldAt fields i).input.mtype.rank := by
    intro is hsorted
    induction is with
    | nil => exact ⟨[], [], rfl, by simp, by simp⟩
    | cons i is ih =>
      obtain ⟨hi, hrest⟩ := List.pairwise_cons.mp hsorted
      by_cases hle : (fieldAt fields i).input.mtype.rank ≤ rank
      · obtain ⟨low, high, rfl, hlow, hhigh⟩ := ih hrest
        exact ⟨i :: low, high, rfl, List.forall_mem_cons.mpr ⟨hle, hlow⟩, hhigh⟩
      · -- nothing behind a field has a lower rank
        have hlt := not_le.mp hle
        exact ⟨[], i :: is, rfl, by simp,
          List.forall_mem_cons.mpr ⟨hlt, fun j hj => hlt.trans_le (hi j hj)⟩⟩
  exact hall _ hb.sorted

/-- Ranges come first. -/
theorem Built.exists_ranges (hb : kb.Built fields) :
    ∃ rs os, kb.invMapping = rs ++ os ∧
      (∀ i ∈ rs, (fieldAt fields i).input.mtype = .range) ∧
      ∀ i ∈ os, (fieldAt fields i).input.mtype ≠ .range := by
  have hrank : ∀ t : MatchType, t.rank ≤ 0 ↔ t = .range := by
    intro t
    cases t <;> simp [MatchType.rank]
  obtain ⟨rs, os, hsplit, hrs, hos⟩ := hb.exists_split 0
  refine ⟨rs, os, hsplit, fun i hi => (hrank _).mp (hrs i hi), fun i hi heq => ?_⟩
  exact absurd ((hrank _).mpr heq) (not_le.mpr (hos i hi))

/-- The ranges come first in the sorted key, and their widths are those of their fields. -/
theorem Sane.rangeWidths_eq (h : Sane kb fields params) {rs os : List ℕ}
    (hsplit : kb.invMapping = rs ++ os)
    (hrs : ∀ i ∈ rs, (fieldAt fields i).input.mtype = .range)
    (hos : ∀ i ∈ os, (fieldAt fields i).input.mtype ≠ .range) :
    kb.rangeWidths params = rs.map fun i => (fieldAt fields i).nbytes := by
  have hmem : ∀ i ∈ rs ++ os, i ∈ kb.invMapping := fun i hi => hsplit ▸ hi
  have hnone : os.filterMap (fun i => if (paramAt params i).type = .range
      then some (paramAt params i).key.length else none) = [] := by
    refine List.filterMap_eq_nil_iff.mpr fun i hi => ?_
    rw [h.type_eq (hmem i (List.mem_append_right _ hi)), if_neg (hos i hi)]
  have hsome : rs.filterMap (fun i => if (paramAt params i).type = .range
      then some (paramAt params i).key.length else none) =
      rs.map fun i => (fieldAt fields i).nbytes := by
    rw [← List.filterMap_eq_map]
    refine List.filterMap_congr fun i hi => ?_
    have hi' := hmem i (List.mem_append_left _ hi)
    rw [h.type_eq hi', if_pos (hrs i hi), h.length_key hi']
    rfl
  rw [rangeWidths, h.built.sortedParams_eq, List.filterMap_map, hsplit]
  change (rs ++ os).filterMap (fun i => if (paramAt params i).type = .range
    then some (paramAt params i).key.length else none) = _
  rw [List.filterMap_append, hnone, hsome, List.append_nil]

/-- A range entry has the data and masks of a ternary one, and the widths of its ranges. -/
theorem toEntry_range (h : Sane kb fields params) (priority : ℤ) :
    (kb.toKeyBuilder RangeMatchKey).matchParamsToEntry params priority =
      { data := storedData true kb fields params
        mask := kb.concatMask params
        priority := priority
        rangeWidths := kb.rangeWidths params } := by
  obtain ⟨rs, os, hsplit, hrs, hos⟩ := h.built.exists_ranges
  have hmem : ∀ i ∈ rs ++ os, i ∈ kb.invMapping := fun i hi => hsplit ▸ hi
  let cut : ℕ → ByteContainer := fun i =>
    cutTop (fieldAt fields i).input.nbits (paramAt params i).key
  let w := (kb.rangeWidths params).sum
  have hcut : ∀ i ∈ kb.invMapping, (cut i).length = (fieldAt fields i).nbytes := fun i hi =>
    (length_cutTop ..).trans (h.length_key hi)
  have hdata : kb.concatData params = rs.flatMap cut ++ os.flatMap cut := by
    rw [h.built.concatData_eq, hsplit, List.flatMap_append]
  have hmask : kb.concatMask params = rs.flatMap (fun i => paramMask (paramAt params i)) ++
      os.flatMap fun i => paramMask (paramAt params i) := by
    rw [h.built.concatMask_eq, hsplit, List.flatMap_append]
  have hw : (rs.flatMap cut).length = w := by
    rw [Chunks.length_flatMap fun i hi => hcut i (hmem i (List.mem_append_left _ hi))]
    exact congrArg List.sum (h.rangeWidths_eq hsplit hrs hos).symm
  have hw' : (rs.flatMap fun i => paramMask (paramAt params i)).length = w := by
    rw [Chunks.length_flatMap fun i hi => h.length_paramMask (hmem i (List.mem_append_left _ hi))]
    exact congrArg List.sum (h.rangeWidths_eq hsplit hrs hos).symm
  -- the ranges are left as they are, and the rest is masked
  have hformat : (kb.concatData params).take w ++
      formatTernaryKey ((kb.concatData params).drop w) ((kb.concatMask params).drop w) =
        kb.invMapping.flatMap fun i => if (paramAt params i).type ≠ .range then
          applyMask (cut i) (paramMask (paramAt params i)) else cut i := by
    rw [hdata, hmask, List.take_left' hw, List.drop_left' hw, List.drop_left' hw',
      h.formatTernaryKey_eq fun i hi => hmem i (List.mem_append_right _ hi), hsplit,
      List.flatMap_append]
    congr 1
    · refine List.flatMap_congr fun i hi => ?_
      rw [if_neg]
      rw [h.type_eq (hmem i (List.mem_append_left _ hi))]
      exact not_not.mpr (hrs i hi)
    · refine List.flatMap_congr fun i hi => ?_
      rw [if_pos]
      rw [h.type_eq (hmem i (List.mem_append_right _ hi))]
      exact hos i hi
  have hstored : kb.applyBigMask ((kb.concatData params).take w ++
      formatTernaryKey ((kb.concatData params).drop w) ((kb.concatMask params).drop w)) =
        storedData true kb fields params := by
    rw [hformat, h.applyBigMask_eq]
    · refine List.flatMap_congr fun i _ => ?_
      simp only [stored, true_and]
      rfl
    · intro i hi
      have hmask' := (h.length_paramMask hi).trans (hcut i hi).symm
      split_ifs
      · rw [length_applyMask hmask', hcut i hi]
      · exact hcut i hi
  change RangeMatchKey.mk ⟨kb.applyBigMask ((kb.concatData params).take w ++
    formatTernaryKey ((kb.concatData params).drop w) ((kb.concatMask params).drop w)),
    kb.concatMask params, priority⟩ (kb.rangeWidths params) = _
  rw [hstored]

end

end MatchKeyBuilder

end MatchKeys

end P4Bricks
