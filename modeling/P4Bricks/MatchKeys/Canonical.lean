import Mathlib.Algebra.Order.BigOperators.Group.List
import P4Bricks.MatchKeys.Units
/-!
# What an entry gives back

`entry_to_match_params` cuts the bytes of an entry into the parameters of its fields
again. They are the ones the entry was made of in a canonical form
(`entryToMatchParams_eq`): what the entry has for the field, with the mask or the prefix
length that was given. In this form they pass the check, and make the entry once more.
-/

namespace P4Bricks

namespace MatchKeys

open Lookup MatchUnit

namespace MatchKeyBuilder

/-! ## The canonical form -/

/-- **A parameter in canonical form**: the bits above the width are cleared, ternary data
and all else that the unit masks is masked, and the mask, the end of a range and the
prefix length are as they were. -/
def canonicalParam (kind : MatchUnitType) (x : KeyField) (param : MatchKeyParam) :
    MatchKeyParam where
  type := param.type
  key := stored kind.isTernary x param
  mask := if param.type = .ternary ∨ param.type = .range then param.mask else []
  prefixLength := if param.type = .lpm then param.prefixLength else 0

def canonicalParams (kind : MatchUnitType) (fields : List KeyField) (params : List MatchKeyParam) :
    List MatchKeyParam :=
  (List.range fields.length).map fun i => canonicalParam kind (fieldAt fields i) (paramAt params i)

/-- What a unit keeps of a priority. -/
def canonicalPriority (kind : MatchUnitType) (priority : ℤ) : ℤ :=
  if kind.isTernary then priority else -1

section
variable {kind : MatchUnitType} {kb : MatchKeyBuilder} {fields : List KeyField}
  {params : List MatchKeyParam} {param : MatchKeyParam} {x : KeyField} {i : ℕ} {priority : ℤ}

theorem paramAt_canonicalParams (hi : i < fields.length) :
    paramAt (canonicalParams kind fields params) i =
      canonicalParam kind (fieldAt fields i) (paramAt params i) := by
  have hlt : i < (List.range fields.length).length := by simpa using hi
  unfold paramAt canonicalParams
  rw [getD_map_of_lt _ hlt 0]
  simp [paramAt, List.getD_eq_getElem?_getD, hi]

/-! ## Cutting -/

theorem Built.keyInput_getD (hb : kb.Built fields) (hi : i < fields.length) :
    kb.keyInput.getD (kb.keyMapping.getD i 0) default = (fieldAt fields i).input := by
  have hplace : kb.invMapping.idxOf i < kb.invMapping.length :=
    List.idxOf_lt_length_of_mem (hb.mem_invMapping.mpr hi)
  rw [hb.keyMapping_eq i hi, hb.keyInput_eq, getD_map_of_lt _ hplace 0]
  simp [List.getD_eq_getElem?_getD, hplace]

/-- The parameters of a key that has been put together field by field. -/
theorem Built.cutParams_eq (hb : kb.Built fields) {g m : ℕ → ByteContainer}
    (hg : ∀ i ∈ kb.invMapping, (g i).length = (fieldAt fields i).nbytes)
    (hm : ∀ i ∈ kb.invMapping, (m i).length = (fieldAt fields i).nbytes)
    (cut : KeyF → ByteContainer → ByteContainer → MatchKeyParam) :
    kb.cutParams (kb.invMapping.flatMap g) (kb.invMapping.flatMap m) cut =
      (List.range fields.length).map fun i => cut (fieldAt fields i).input (g i) (m i) := by
  unfold cutParams
  rw [hb.length_keyMapping]
  refine List.map_congr_left fun i hi => ?_
  have hlt := List.mem_range.mp hi
  have hmem := hb.mem_invMapping.mpr hlt
  have hdata := Chunks.slice_flatMap hg hmem
  have hmask := Chunks.slice_flatMap hm hmem
  dsimp only
  rw [hb.keyInput_getD hlt, hb.keyOffsets_eq i hlt]
  exact congrArg₂ (cut (fieldAt fields i).input) hdata hmask

/-! ## Prefix lengths and masks -/

/-- A byte with `r` of its first bits set. -/
theorem prefLenFromByte_shift : ∀ r < 8,
    prefLenFromByte (UInt8.ofNat (0xff <<< (8 - r))) = r := by decide

/-- **Prefix lengths come back** from the masks that are made of them. -/
theorem prefLenFromMask_createMaskFromPrefLen {p size : ℕ} (h : p ≤ 8 * size) :
    prefLenFromMask (createMaskFromPrefLen p size) = p := by
  have hones : prefLenFromByte 0xff = 8 := by decide
  have hzero : prefLenFromByte 0 = 0 := by decide
  unfold prefLenFromMask createMaskFromPrefLen
  dsimp only
  split_ifs with hr
  · -- the byte behind the full ones is the first of the zeros
    obtain ⟨k, hk⟩ : ∃ k, size - p / 8 = k + 1 := ⟨size - p / 8 - 1, by omega⟩
    have hset : (List.replicate (p / 8) (0xff : UInt8) ++ List.replicate (size - p / 8) 0).set (p / 8)
        (.ofNat (0xff <<< (8 - p % 8))) =
        List.replicate (p / 8) 0xff ++ .ofNat (0xff <<< (8 - p % 8)) :: List.replicate k 0 := by
      rw [List.set_append_right _ _ (by simp), hk]
      simp [List.replicate_succ]
    have hbyte := prefLenFromByte_shift (p % 8) (by omega)
    rw [hset, List.map_append, List.map_cons, List.sum_append, List.sum_cons, hbyte]
    simp only [List.map_replicate, List.sum_replicate_nat, hones, hzero]
    omega
  · rw [List.map_append, List.sum_append]
    simp only [List.map_replicate, List.sum_replicate_nat, hones, hzero]
    omega

/-- What the loop takes off the prefix length of an entry. -/
theorem foldl_pref (l : List MatchKeyParam) (start : ℤ) :
    l.foldl (fun (pref : ℤ) param => if param.type = .lpm then pref else pref - param.key.length * 8)
      start = start - (l.map fun param => if param.type = .lpm then 0
        else (param.key.length : ℤ) * 8).sum := by
  induction l generalizing start with
  | nil => simp
  | cons param l ih =>
    rw [List.foldl_cons, ih, List.map_cons, List.sum_cons]
    split_ifs <;> omega

/-- The place that a loop remembers of the only element of a kind. -/
theorem foldl_place {α : Type} {P : α → Prop} [DecidablePred P] {l : List (α × ℕ)} {d k : ℕ}
    (huniq : ∀ x ∈ l, P x.1 → x.2 = k) (h : d = k ∨ ∃ x ∈ l, P x.1) :
    l.foldl (fun idx x => if P x.1 then x.2 else idx) d = k := by
  induction l generalizing d with
  | nil => exact h.resolve_right (by simp)
  | cons x l ih =>
    obtain ⟨hx, hrest⟩ := List.forall_mem_cons.mp huniq
    rw [List.foldl_cons]
    by_cases hp : P x.1
    · rw [if_pos hp]
      exact ih hrest (.inl (hx hp))
    · rw [if_neg hp]
      refine ih hrest (h.imp_right ?_)
      rintro ⟨y, hy, hpy⟩
      rcases List.mem_cons.mp hy with rfl | hy
      · exact absurd hpy hp
      · exact ⟨y, hy, hpy⟩

/-! ## The prefix length of an entry -/

/-- What the fields that are matched whole add to it. -/
def wholeBits (param : MatchKeyParam) : ℤ := if param.type = .lpm then 0 else param.key.length * 8

/-- And what the longest prefix adds. -/
def prefixBits (param : MatchKeyParam) : ℤ := if param.type = .lpm then param.prefixLength else 0

theorem paramPrefix_eq (hx : x.Sound) (hsane : paramSane x.input param = true)
    (hlpm : x.input.mtype = .valid ∨ x.input.mtype = .exact ∨ x.input.mtype = .lpm) :
    paramPrefix param = wholeBits param + prefixBits param := by
  obtain ⟨htype, hlen, -, -, -⟩ := paramSane_iff.mp hsane
  unfold paramPrefix wholeBits prefixBits
  rcases hlpm with hm | hm | hm <;> rw [htype, hm]
  · have hone : param.key.length = 1 := hlen.trans (nbytes_of_valid hx hm)
    simp [hone]
  · simp
  · simp

theorem prefixBits_nonneg (hsane : paramSane x.input param = true) : 0 ≤ prefixBits param := by
  obtain ⟨-, -, hlpm, -, -⟩ := paramSane_iff.mp hsane
  unfold prefixBits
  split_ifs with htype
  · exact (hlpm htype).1
  · exact le_rfl

theorem wholeBits_nonneg (param : MatchKeyParam) : 0 ≤ wholeBits param := by
  unfold wholeBits
  split_ifs
  · exact le_rfl
  · omega

theorem sum_map_nonneg {α : Type} {f : α → ℤ} {l : List α} (h : ∀ a ∈ l, 0 ≤ f a) :
    0 ≤ (l.map f).sum := by
  refine List.sum_nonneg fun b hb => ?_
  obtain ⟨a, ha, rfl⟩ := List.mem_map.mp hb
  exact h a ha

/-- **The prefix length of an LPM entry**: the bits of the fields that are matched whole,
and those of the longest prefix. -/
theorem Sane.toEntry_prefix (hfits : Fits .lpm fields) (h : Sane kb fields params) :
    ((kb.invMapping.map fun i => paramPrefix (paramAt params i)).sum.toNat : ℤ) =
      ((List.range fields.length).map fun i => wholeBits (paramAt params i)).sum +
        ((List.range fields.length).map fun i => prefixBits (paramAt params i)).sum := by
  have hsplit : kb.invMapping.map (fun i => paramPrefix (paramAt params i)) =
      kb.invMapping.map fun i => wholeBits (paramAt params i) + prefixBits (paramAt params i) := by
    refine List.map_congr_left fun i hi => ?_
    exact paramPrefix_eq (h.at hi).1 (h.at hi).2
      (hfits.types _ (fieldAt_mem (h.built.mem_invMapping.mp hi)))
  have hwhole : 0 ≤ (kb.invMapping.map fun i => wholeBits (paramAt params i)).sum :=
    sum_map_nonneg fun i _ => wholeBits_nonneg _
  have hlength : 0 ≤ (kb.invMapping.map fun i => prefixBits (paramAt params i)).sum :=
    sum_map_nonneg fun i hi => prefixBits_nonneg (h.at hi).2
  rw [hsplit, List.sum_map_add, Int.toNat_of_nonneg (by omega), (h.built.perm.map _).sum_eq,
    (h.built.perm.map _).sum_eq]

/-- Only one field has a longest prefix. -/
theorem sum_prefixBits (hi : i < fields.length)
    (hother : ∀ j < fields.length, (paramAt params j).type = .lpm → j = i) :
    ((List.range fields.length).map fun j => prefixBits (paramAt params j)).sum =
      prefixBits (paramAt params i) := by
  rw [List.sum_map_eq_nsmul_single i]
  · rw [List.count_eq_one_of_mem List.nodup_range (List.mem_range.mpr hi), one_nsmul]
  · intro j hji hj
    unfold prefixBits
    rw [if_neg]
    exact fun htype => hji (hother j (List.mem_range.mp hj) htype)

/-! ## Entries and back -/

theorem Sane.lt_mem (h : Sane kb fields params) (hi : i < fields.length) : i ∈ kb.invMapping :=
  h.built.mem_invMapping.mpr hi

/-- The bytes of an entry, cut without its mask. -/
theorem Sane.cutParams_plain (h : Sane kb fields params) (ternary : Bool) :
    kb.cutParams (storedData ternary kb fields params) [] (fun f bytes _ => ⟨f.mtype, bytes, [], 0⟩) =
      (List.range fields.length).map fun i =>
        ⟨(paramAt params i).type, stored ternary (fieldAt fields i) (paramAt params i), [], 0⟩ := by
  have hcut := h.built.cutParams_eq (fun i hi => h.length_stored ternary hi)
    (fun i hi => h.length_stored ternary hi) fun f bytes _ => ⟨f.mtype, bytes, [], 0⟩
  refine hcut.trans (List.map_congr_left fun i hi => ?_)
  rw [h.type_eq (h.lt_mem (List.mem_range.mp hi))]

/-- A parameter of a ternary or range entry comes back. -/
theorem Sane.cutTernary_eq (h : Sane kb fields params) (hi : i ∈ kb.invMapping)
    (hkind : kind.isTernary = true) :
    cutTernary (fieldAt fields i).input (stored true (fieldAt fields i) (paramAt params i))
        (paramMask (paramAt params i)) =
      canonicalParam kind (fieldAt fields i) (paramAt params i) := by
  have htype := h.type_eq hi
  unfold cutTernary canonicalParam
  rw [hkind, ← htype]
  rcases hm : (paramAt params i).type with - | - | - | - | -
  · simp [paramMask, hm]
  · simp
  · simp
  · -- the prefix length went through a mask
    obtain ⟨hpos, -⟩ := (paramSane_iff.mp (h.at hi).2).2.2.1 hm
    have hback := prefLenFromMask_createMaskFromPrefLen (prefix_le (h.at hi).2 hm)
    simp only [paramMask, hm, hback, Int.toNat_of_nonneg hpos]
    simp
  · simp [paramMask, hm]

theorem Sane.cutParams_ternary (h : Sane kb fields params) (hkind : kind.isTernary = true) :
    kb.cutParams (storedData true kb fields params) (kb.concatMask params) cutTernary =
      canonicalParams kind fields params := by
  rw [h.built.concatMask_eq]
  refine (h.built.cutParams_eq (fun i hi => h.length_stored true hi)
    (fun i hi => h.length_paramMask hi) cutTernary).trans (List.map_congr_left fun i hi => ?_)
  exact h.cutTernary_eq (h.lt_mem (List.mem_range.mp hi)) hkind

/-- No parameter of a unit for exact keys or prefixes has a mask. -/
theorem canonicalParam_plain (hkind : kind.isTernary = false)
    (hne : param.type ≠ .ternary ∧ param.type ≠ .range) :
    canonicalParam kind x param = ⟨param.type, stored false x param, [], prefixBits param⟩ := by
  unfold canonicalParam prefixBits
  rw [hkind, if_neg (not_or.mpr hne)]

/-- The place of the longest prefix among the parameters. -/
theorem foldl_lpmIdx {l : List MatchKeyParam} (hi : i < l.length)
    (huniq : ∀ j (hj : j < l.length), (l[j]).type = .lpm → j = i)
    (h : i = 0 ∨ (l[i]).type = .lpm) :
    l.zipIdx.foldl (fun idx x => if x.1.type = .lpm then x.2 else idx) 0 = i := by
  refine foldl_place (P := fun param : MatchKeyParam => param.type = .lpm) ?_ ?_
  · rintro ⟨param, j⟩ hx htype
    obtain ⟨hj, hparam⟩ := List.mem_zipIdx' hx
    exact huniq j hj (hparam ▸ htype)
  · refine h.imp Eq.symm fun htype => ⟨(l[i], i), ?_, htype⟩
    exact List.mk_mem_zipIdx_iff_getElem?.mpr (List.getElem?_eq_getElem hi)

/-- A parameter as it is cut out of an entry for prefixes, its prefix length not yet put back. -/
def bareParam (x : KeyField) (param : MatchKeyParam) : MatchKeyParam :=
  ⟨param.type, stored false x param, [], 0⟩

/-- The parameters that are cut out of an entry. -/
def bareParams (fields : List KeyField) (params : List MatchKeyParam) : List MatchKeyParam :=
  (List.range fields.length).map fun i => bareParam (fieldAt fields i) (paramAt params i)

theorem length_bareParams : (bareParams fields params).length = fields.length := by
  simp [bareParams]

theorem getElem_bareParams {j : ℕ} (hj : j < (bareParams fields params).length) :
    (bareParams fields params)[j] = bareParam (fieldAt fields j) (paramAt params j) := by
  simp [bareParams]

/-- What is left of the prefix length when the other fields are taken off. -/
theorem Sane.foldl_prefix (hfits : Fits .lpm fields) (h : Sane kb fields params) :
    (bareParams fields params).foldl (fun (pref : ℤ) param =>
        if param.type = .lpm then pref else pref - param.key.length * 8)
      ((kb.invMapping.map fun i => paramPrefix (paramAt params i)).sum.toNat : ℤ) =
      ((List.range fields.length).map fun i => prefixBits (paramAt params i)).sum := by
  have hwhole : (bareParams fields params).map (fun param => if param.type = .lpm then (0 : ℤ)
      else (param.key.length : ℤ) * 8) =
      (List.range fields.length).map fun i => wholeBits (paramAt params i) := by
    rw [bareParams, List.map_map]
    refine List.map_congr_left fun i hi => ?_
    have hmem := h.lt_mem (List.mem_range.mp hi)
    have hkey := (h.length_stored false hmem).trans (h.length_key hmem).symm
    simp only [Function.comp_apply, wholeBits, bareParam, hkey]
  have hlength := h.toEntry_prefix hfits
  rw [foldl_pref, hwhole]
  omega

/-- It may be put at any place if it is that of the parameter there, and the others have none. -/
theorem Sane.modify_bareParams (hfits : Fits .lpm fields) (h : Sane kb fields params) {d : ℕ}
    {pref : ℤ} (hd : ∀ i < fields.length, prefixBits (paramAt params i) =
      if d = i then pref else 0) :
    (bareParams fields params).modify d (fun param => { param with prefixLength := pref }) =
      canonicalParams .lpm fields params := by
  have hplain : ∀ i < fields.length, canonicalParam .lpm (fieldAt fields i) (paramAt params i) =
      { bareParam (fieldAt fields i) (paramAt params i) with
        prefixLength := prefixBits (paramAt params i) } := by
    intro i hi
    refine canonicalParam_plain rfl ?_
    have htype := hfits.types _ (fieldAt_mem hi)
    rw [h.type_eq (h.lt_mem hi)]
    rcases htype with hm | hm | hm <;> simp [hm]
  refine List.ext_getElem (by simp [bareParams, canonicalParams]) fun i hi _ => ?_
  have hlt : i < fields.length := by simpa [length_bareParams] using hi
  rw [List.getElem_modify, getElem_bareParams]
  simp only [canonicalParams, List.getElem_map, List.getElem_range]
  rw [hplain i hlt, hd i hlt]
  split_ifs
  · rfl
  · rfl

/-- **The prefix length is put back** where it came from. -/
theorem Sane.entryToMatchParams_lpm (hfits : Fits .lpm fields) (h : Sane kb fields params) :
    MatchKey.entryToMatchParams kb (LPMMatchKey.mk (storedData false kb fields params)
      ((kb.invMapping.map fun i => paramPrefix (paramAt params i)).sum.toNat)) =
      canonicalParams .lpm fields params := by
  let ps := bareParams fields params
  let N := (kb.invMapping.map fun i => paramPrefix (paramAt params i)).sum.toNat
  change (kb.cutParams (storedData false kb fields params) []
    fun f bytes _ => ⟨f.mtype, bytes, [], 0⟩).modify _ _ = _
  rw [h.cutParams_plain false]
  change ps.modify (ps.zipIdx.foldl (fun idx x => if x.1.type = .lpm then x.2 else idx) 0)
    (fun param => { param with prefixLength := ps.foldl (fun (pref : ℤ) param =>
      if param.type = .lpm then pref else pref - param.key.length * 8) N }) = _
  rw [h.foldl_prefix hfits]
  by_cases hlpm : ∃ i < fields.length, (paramAt params i).type = .lpm
  · obtain ⟨i, hi, htype⟩ := hlpm
    have hother : ∀ j < fields.length, (paramAt params j).type = .lpm → j = i := by
      intro j hj htj
      rw [h.type_eq (h.lt_mem hi)] at htype
      rw [h.type_eq (h.lt_mem hj)] at htj
      exact hfits.oneLpm j hj i hi htj htype
    rw [foldl_lpmIdx (i := i) (length_bareParams ▸ hi), sum_prefixBits hi hother]
    · refine h.modify_bareParams hfits fun j hj => ?_
      by_cases hij : i = j
      · rw [if_pos hij, hij]
      · rw [if_neg hij]
        exact if_neg fun htj => hij (hother j hj htj).symm
    · intro j hj htj
      rw [getElem_bareParams] at htj
      exact hother j (length_bareParams ▸ hj) htj
    · right
      rw [getElem_bareParams]
      exact htype
  · -- every field is matched whole, so that nothing is left
    have hzero : ∀ i < fields.length, prefixBits (paramAt params i) = 0 := fun i hi =>
      if_neg fun htype => hlpm ⟨i, hi, htype⟩
    have hsum : ((List.range fields.length).map fun i => prefixBits (paramAt params i)).sum = 0 := by
      refine List.sum_eq_zero fun b hb => ?_
      obtain ⟨i, hi, rfl⟩ := List.mem_map.mp hb
      exact hzero i (List.mem_range.mp hi)
    rw [hsum]
    refine h.modify_bareParams hfits fun i hi => ?_
    rw [hzero i hi, ite_self]

/-- **What an entry gives back** is the canonical form of what it was made of. -/
theorem Sane.entryToMatchParams_eq (hfits : Fits kind fields) (h : Sane kb fields params) :
    (kb.toKeyBuilder (UnitKey kind)).entryToMatchParams
        ((kb.toKeyBuilder (UnitKey kind)).matchParamsToEntry params priority) =
      canonicalParams kind fields params := by
  cases kind with
  | exact =>
    have hentry : (kb.toKeyBuilder (UnitKey .exact)).matchParamsToEntry params priority = _ :=
      toEntry_exact h priority
    rw [hentry]
    refine (h.cutParams_plain false).trans (List.map_congr_left fun i hi => ?_)
    have hmem := h.lt_mem (List.mem_range.mp hi)
    have hexact := hfits.types _ (fieldAt_mem (List.mem_range.mp hi))
    rw [← h.type_eq hmem] at hexact
    rcases hexact with hm | hm <;> simp [canonicalParam, hm, MatchUnitType.isTernary]
  | lpm =>
    have hentry : (kb.toKeyBuilder (UnitKey .lpm)).matchParamsToEntry params priority = _ :=
      toEntry_lpm h priority
    rw [hentry]
    exact h.entryToMatchParams_lpm hfits
  | ternary =>
    have hentry : (kb.toKeyBuilder (UnitKey .ternary)).matchParamsToEntry params priority = _ :=
      toEntry_ternary h priority hfits.types
    rw [hentry]
    exact h.cutParams_ternary rfl
  | range =>
    have hentry : (kb.toKeyBuilder (UnitKey .range)).matchParamsToEntry params priority = _ :=
      toEntry_range h priority
    rw [hentry]
    exact h.cutParams_ternary rfl

/-! ## And in again -/

/-- Nothing is left to clear or to mask. -/
theorem stored_canonicalParam (kind : MatchUnitType) (x : KeyField) (param : MatchKeyParam)
    (hmask : paramMask (canonicalParam kind x param) = paramMask param) :
    stored kind.isTernary x (canonicalParam kind x param) = stored kind.isTernary x param := by
  have htype : (canonicalParam kind x param).type = param.type := rfl
  have hkey : (canonicalParam kind x param).key = stored kind.isTernary x param := rfl
  conv_lhs => unfold stored
  dsimp only
  rw [hmask, htype, hkey]
  unfold stored
  dsimp only
  split_ifs
  · rw [cutTop_applyMask, cutTop_applyMask, cutTop_cutTop, applyMask_comm _ x.mask,
      applyMask_applyMask, applyMask_applyMask]
  · rw [cutTop_applyMask, cutTop_cutTop, applyMask_applyMask]

theorem Sane.paramMask_canonicalParam (h : Sane kb fields params) (hi : i ∈ kb.invMapping) :
    paramMask (canonicalParam kind (fieldAt fields i) (paramAt params i)) =
      paramMask (paramAt params i) := by
  have hlen : (stored kind.isTernary (fieldAt fields i) (paramAt params i)).length =
      (paramAt params i).key.length := (h.length_stored _ hi).trans (h.length_key hi).symm
  unfold paramMask canonicalParam
  rcases (paramAt params i).type with - | - | - | - | - <;> simp [hlen]

theorem Sane.paramPrefix_canonicalParam (h : Sane kb fields params) (hi : i ∈ kb.invMapping) :
    paramPrefix (canonicalParam kind (fieldAt fields i) (paramAt params i)) =
      paramPrefix (paramAt params i) := by
  have hlen : (stored kind.isTernary (fieldAt fields i) (paramAt params i)).length =
      (paramAt params i).key.length := (h.length_stored _ hi).trans (h.length_key hi).symm
  unfold paramPrefix canonicalParam
  rcases (paramAt params i).type with - | - | - | - | - <;> simp [hlen]

/-- Masked bytes come no later in the order. -/
theorem lt_of_lt_applyMask {bytes mask l : ByteContainer} (h : l < applyMask bytes mask) :
    l < bytes := by
  induction bytes generalizing mask l with
  | nil => simp [applyMask] at h
  | cons b bytes ih =>
    rcases mask with - | ⟨m, mask⟩
    · simp [applyMask] at h
    · rcases l with - | ⟨a, l⟩
      · exact List.nil_lt_cons ..
      · have hle : b &&& m ≤ b := UInt8.and_le_left
        rw [applyMask_cons, List.cons_lt_cons_iff] at h
        rw [List.cons_lt_cons_iff]
        rcases h with hlt | ⟨rfl, hlt⟩
        · exact .inl (UInt8.lt_of_lt_of_le hlt hle)
        · rcases UInt8.lt_or_eq_of_le hle with hlt' | heq
          · exact .inl hlt'
          · exact .inr ⟨heq, ih hlt⟩

theorem lt_of_lt_cutTop {nbits : ℕ} {bytes l : ByteContainer} (h : l < cutTop nbits bytes) :
    l < bytes := by
  rcases bytes with - | ⟨b, bytes⟩
  · exact h
  · have hcut : cutTop nbits (b :: bytes) =
        applyMask (b :: bytes) (getByte0Mask nbits :: List.replicate bytes.length 0xff) := by
      rw [cutTop_cons, applyMask_cons, applyMask_ones]
    rw [hcut] at h
    exact lt_of_lt_applyMask h

/-- A parameter in canonical form passes its check. -/
theorem Sane.paramSane_canonicalParam (h : Sane kb fields params) (hi : i ∈ kb.invMapping) :
    paramSane (fieldAt fields i).input
      (canonicalParam kind (fieldAt fields i) (paramAt params i)) = true := by
  obtain ⟨htype, -, hlpm, hternary, hrange⟩ := paramSane_iff.mp (h.at hi).2
  refine paramSane_iff.mpr ⟨htype, h.length_stored _ hi, fun ht => ?_, fun ht => ?_, fun ht => ?_⟩
  · have ht' : (paramAt params i).type = .lpm := ht
    simpa [canonicalParam, ht'] using hlpm ht'
  · have ht' : (paramAt params i).type = .ternary := ht
    simpa [canonicalParam, ht'] using hternary ht'
  · have ht' : (paramAt params i).type = .range := ht
    obtain ⟨hlen, hle⟩ := hrange ht'
    have hmask : (canonicalParam kind (fieldAt fields i) (paramAt params i)).mask =
        (paramAt params i).mask := by simp [canonicalParam, ht']
    rw [hmask]
    refine ⟨hlen, fun hlt => hle ?_⟩
    have hkey : (canonicalParam kind (fieldAt fields i) (paramAt params i)).key =
        applyMask (cutTop (fieldAt fields i).input.nbits (paramAt params i).key)
          (fieldAt fields i).mask := by
      simp [canonicalParam, stored, ht']
    rw [hkey] at hlt
    exact lt_of_lt_cutTop (lt_of_lt_applyMask hlt)

/-- **The canonical form passes the check.** -/
theorem Sane.canonical (h : Sane kb fields params) : Sane kb fields (canonicalParams kind fields params) := by
  refine ⟨h.built, h.sound, h.built.matchParamsSanityCheck_iff.mpr ⟨by simp [canonicalParams], ?_⟩⟩
  intro i hi
  rw [paramAt_canonicalParams hi]
  exact h.paramSane_canonicalParam (h.lt_mem hi)

/-- **It makes the same entry.** -/
theorem Sane.toEntry_canonical (hfits : Fits kind fields) (h : Sane kb fields params) :
    (kb.toKeyBuilder (UnitKey kind)).matchParamsToEntry (canonicalParams kind fields params)
        (canonicalPriority kind priority) =
      (kb.toKeyBuilder (UnitKey kind)).matchParamsToEntry params priority := by
  have hpriority : (kb.toKeyBuilder (UnitKey kind)).matchParamsToEntry params
      (canonicalPriority kind priority) =
        (kb.toKeyBuilder (UnitKey kind)).matchParamsToEntry params priority := by
    cases kind <;> rfl
  rw [← hpriority]
  refine Sane.toEntry_congr hfits h.canonical h (fun i hi => ?_) (fun i hi => ?_) fun i hi => ?_
  · rw [paramAt_canonicalParams (h.built.mem_invMapping.mp hi)]
    exact stored_canonicalParam kind _ _ (h.paramMask_canonicalParam hi)
  · rw [paramAt_canonicalParams (h.built.mem_invMapping.mp hi)]
    exact h.paramMask_canonicalParam hi
  · rw [paramAt_canonicalParams (h.built.mem_invMapping.mp hi)]
    exact h.paramPrefix_canonicalParam hi

theorem getPriority_toEntry (kb : MatchKeyBuilder) (params : List MatchKeyParam) (priority : ℤ) :
    (kb.toKeyBuilder (UnitKey kind)).getPriority
        ((kb.toKeyBuilder (UnitKey kind)).matchParamsToEntry params priority) =
      canonicalPriority kind priority := by
  cases kind <;> rfl

end

end MatchKeyBuilder

end MatchKeys

end P4Bricks
