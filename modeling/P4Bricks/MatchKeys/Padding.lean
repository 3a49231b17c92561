import P4Bricks.MatchKeys.Units
/-!
# Bits above the width of a field

The bytes of a parameter may have bits above the width of its field. Those of its value
are cut. Those of a ternary mask and of the end of a range are not: two such masks, that
agree within the width, make keys that are not the same (`interchangeable_iff`), and an
end with such a bit is above every value of the field.
-/

namespace P4Bricks

namespace MatchKeys

open Lookup MatchUnit

namespace MatchKeyBuilder

/-- **Parameters that differ in bits above the width only.** -/
structure SameBits (nbits : ℕ) (param param' : MatchKeyParam) : Prop where
  type_eq : param.type = param'.type
  prefixLength_eq : param.prefixLength = param'.prefixLength
  key_eq : cutTop nbits param.key = cutTop nbits param'.key
  mask_eq : cutTop nbits param.mask = cutTop nbits param'.mask

/-- Lists of these. -/
def SameParams (fields : List KeyField) (params params' : List MatchKeyParam) : Prop :=
  ∀ i < fields.length,
    SameBits (fieldAt fields i).input.nbits (paramAt params i) (paramAt params' i)

section
variable (kind : MatchUnitType) (kb : MatchKeyBuilder)

/-- In a unit without other entries, a packet key finds the entry of the parameters. -/
def Matches (params : List MatchKeyParam) (priority : ℤ) (key : ByteContainer) : Prop :=
  ((((newUnit kind Unit kb 1 false).addEntry (kb.toKeyBuilder (UnitKey kind)) params () priority
    0).2.lookupKey key).1).isSome

/-- When an entry has been added for the one list of parameters, an entry for the other
is refused as a duplicate, and the other leads to the handle of the first. -/
def Duplicates {V : Type} (u : MatchUnit (UnitLookup kind) (UnitKey kind) V)
    (params params' : List MatchKeyParam) (priority : ℤ) : Prop :=
  ∀ value now h u', u.addEntry (kb.toKeyBuilder (UnitKey kind)) params value priority now = (.ok h, u') →
    (∀ value' now', (u'.addEntry (kb.toKeyBuilder (UnitKey kind)) params' value' priority now').1 =
      .error .duplicateEntry) ∧
    u'.retrieveHandle (kb.toKeyBuilder (UnitKey kind)) params' priority = .ok h

/-- **Parameters that may be taken for each other**: in every state that a unit reaches,
and with the same packets. -/
structure Interchangeable (params params' : List MatchKeyParam) : Prop where
  sameKeys : ∀ priority key, Matches kind kb params priority key ↔ Matches kind kb params' priority key
  duplicates : ∀ (V : Type) [Inhabited V] (size : ℕ) (enableCache : Bool)
    (ops : List (MatchUnit.Op (List MatchKeyParam) V)) (priority : ℤ),
      Duplicates kind kb ((newUnit kind V kb size enableCache).run (kb.toKeyBuilder (UnitKey kind)) ops)
        params params' priority ∧
      Duplicates kind kb ((newUnit kind V kb size enableCache).run (kb.toKeyBuilder (UnitKey kind)) ops)
        params' params priority

end

/-! ## What is stored of them -/

section
variable {kind : MatchUnitType} {kb : MatchKeyBuilder} {fields : List KeyField} {nbits : ℕ}
  {param param' : MatchKeyParam} {params params' : List MatchKeyParam} {x : KeyField} {priority : ℤ}

theorem SameBits.length_key (h : SameBits nbits param param') :
    param.key.length = param'.key.length := by
  have hlen := congrArg List.length h.key_eq
  rwa [length_cutTop, length_cutTop] at hlen

/-- Of a mask, bytes that are cut take what is within the width. -/
theorem applyMask_cutTop (nbits : ℕ) (bytes mask : ByteContainer) :
    applyMask (cutTop nbits bytes) mask = applyMask (cutTop nbits bytes) (cutTop nbits mask) := by
  rcases bytes with - | ⟨b, bytes⟩
  · rfl
  · rcases mask with - | ⟨m, mask⟩
    · rfl
    · have hbyte : ∀ b m c : UInt8, b &&& c &&& m = b &&& c &&& (m &&& c) := by
        intro b m c
        rw [UInt8.and_comm m c, ← UInt8.and_assoc, UInt8.and_assoc b c c, UInt8.and_self]
      rw [cutTop_cons, cutTop_cons, applyMask_cons, applyMask_cons, hbyte]

/-- The masks that the unit makes itself are the same, and those that are given agree
within the width. -/
theorem SameBits.paramMask_eq (h : SameBits nbits param param')
    (hgiven : param.type = .ternary ∨ param.type = .range → param.mask = param'.mask) :
    paramMask param = paramMask param' := by
  unfold paramMask
  rw [← h.type_eq]
  rcases htype : param.type with - | - | - | - | -
  · exact hgiven (.inr htype)
  · rfl
  · exact congrArg (List.replicate · 0xff) h.length_key
  · exact congrArg₂ createMaskFromPrefLen (congrArg Int.toNat h.prefixLength_eq) h.length_key
  · exact hgiven (.inl htype)

theorem SameBits.cutTop_paramMask (h : SameBits nbits param param') :
    cutTop nbits (paramMask param) = cutTop nbits (paramMask param') := by
  by_cases hgiven : param.type = .ternary ∨ param.type = .range
  · have hmask : ∀ p : MatchKeyParam, p.type = .ternary ∨ p.type = .range → paramMask p = p.mask := by
      rintro p (hp | hp) <;> rw [paramMask, hp]
    rw [hmask param hgiven, hmask param' (h.type_eq ▸ hgiven), h.mask_eq]
  · rw [h.paramMask_eq fun hg => absurd hg hgiven]

/-- **The data is the same.** -/
theorem SameBits.stored_eq (h : SameBits x.input.nbits param param') (ternary : Bool) :
    stored ternary x param = stored ternary x param' := by
  unfold stored
  dsimp only
  rw [← h.type_eq]
  split_ifs
  · rw [applyMask_cutTop, h.key_eq, h.cutTop_paramMask, ← applyMask_cutTop]
  · rw [h.key_eq]

theorem SameBits.paramPrefix_eq (h : SameBits nbits param param') :
    paramPrefix param = paramPrefix param' := by
  unfold paramPrefix
  rw [← h.type_eq, h.length_key, h.prefixLength_eq]

/-- Masks that are the same make the same entries. -/
theorem SameParams.toEntry_eq (hfits : Fits kind fields) (h : Sane kb fields params)
    (h' : Sane kb fields params') (hsame : SameParams fields params params')
    (hmasks : ∀ i < fields.length, (fieldAt fields i).input.mtype = .ternary ∨
      (fieldAt fields i).input.mtype = .range → (paramAt params i).mask = (paramAt params' i).mask) :
    (kb.toKeyBuilder (UnitKey kind)).matchParamsToEntry params priority =
      (kb.toKeyBuilder (UnitKey kind)).matchParamsToEntry params' priority := by
  refine Sane.toEntry_congr hfits h h' (fun i hi => ?_) (fun i hi => ?_) fun i hi => ?_
  · exact (hsame i (h.built.mem_invMapping.mp hi)).stored_eq _
  · have hlt := h.built.mem_invMapping.mp hi
    refine (hsame i hlt).paramMask_eq fun hgiven => hmasks i hlt ?_
    rwa [h.type_eq hi] at hgiven
  · exact (hsame i (h.built.mem_invMapping.mp hi)).paramPrefix_eq

/-! ## Units -/

/-- An addition looks at the key of the entry only. -/
theorem addEntry_congr {σ P P' K V : Type*} [LookupStructure σ K] {kb : KeyBuilder P K}
    {kb' : KeyBuilder P' K} {u : MatchUnit σ K V} {p : P} {p' : P'} {priority : ℤ}
    (h : kb.buildEntryFromMatchKey p priority = kb'.buildEntryFromMatchKey p' priority) (value : V)
    (now : ℕ) : u.addEntry kb p value priority now = u.addEntry kb' p' value priority now := by
  unfold addEntry addEntry_
  rw [h]

/-- What was added is refused from then on, and found. -/
theorem duplicate_of_addEntry {σ P K V : Type*} [LookupStructure σ K] [LiveLookup σ K]
    [FindLookup σ K] {kb : KeyBuilder P K} {u u' : MatchUnit σ K V} {p p' : P} {priority : ℤ}
    {value : V} {now : ℕ} {h : EntryHandle} (hs : u.Sound)
    (hadd : u.addEntry kb p value priority now = (.ok h, u'))
    (hp' : kb.buildEntryFromMatchKey p' priority = kb.buildEntryFromMatchKey p priority) :
    (∀ value' now', (u'.addEntry kb p' value' priority now').1 = .error .duplicateEntry) ∧
      u'.retrieveHandle kb p' priority = .ok h := by
  obtain ⟨hsane, hnew, hroom, rfl, rfl⟩ := addEntry_eq_ok hadd
  have hbuild : kb.buildEntryFromMatchKey p priority = .ok (kb.matchParamsToEntry p priority) := by
    rw [KeyBuilder.buildEntryFromMatchKey, if_pos hsane]
  have hfree := firstFree_notMem u.handles
  have hcard := firstFree_le_card u.handles
  have hnum := hs.numEntries_eq
  have hfound := FindLookup.retrieve_add hs.follows (by omega) (by simp [live, hfree])
    (fun j hj => isSome_live.mpr (mem_of_lt_firstFree hj)) hnew
  have hexists := FindLookup.entryExists_eq
    (LookupStructure.addEntry u.lookupStructure (kb.matchParamsToEntry p priority)
      (firstFree u.handles)) (kb.matchParamsToEntry p priority)
  rw [hfound] at hexists
  refine ⟨fun value' now' => ?_, ?_⟩
  · unfold addEntry addEntry_
    rw [hp', hbuild]
    simp [hexists]
  · unfold retrieveHandle
    rw [hp', hbuild]
    simp [hfound]

/-- An entry that is refused as a duplicate is there. -/
theorem entryExists_of_duplicate {σ P K V : Type*} [LookupStructure σ K] {kb : KeyBuilder P K}
    {u : MatchUnit σ K V} {p : P} {priority : ℤ} {value : V} {now : ℕ}
    (hdup : (u.addEntry kb p value priority now).1 = .error .duplicateEntry) :
    LookupStructure.entryExists u.lookupStructure (kb.matchParamsToEntry p priority) = true := by
  by_contra hnew
  unfold addEntry addEntry_ KeyBuilder.buildEntryFromMatchKey getAndSetHandle at hdup
  by_cases hsane : kb.matchParamsSanityCheck p = true
  · by_cases hfull : u.size ≤ u.numEntries
    · simp [hsane, hnew, hfull] at hdup
    · simp [hsane, hnew, hfull] at hdup
  · simp [hsane] at hdup

theorem sound_newUnit (kind : MatchUnitType) (V : Type) [Inhabited V] (kb : MatchKeyBuilder)
    (size : ℕ) (enableCache : Bool) : (newUnit kind V kb size enableCache).Sound :=
  sound_create (follows_createLookup kind size kb.nbytesKey enableCache)

/-- The first entry is added. -/
theorem exists_addEntry_newUnit (hcheck : kb.matchParamsSanityCheck params = true) :
    ∃ h u', (newUnit kind Unit kb 1 false).addEntry (kb.toKeyBuilder (UnitKey kind)) params ()
      priority 0 = (.ok h, u') := by
  have hnew : LookupStructure.entryExists (createLookup kind 1 kb.nbytesKey false)
      ((kb.toKeyBuilder (UnitKey kind)).matchParamsToEntry params priority) = false := by
    rw [FindLookup.entryExists_eq, Option.isSome_eq_false_iff, Option.isNone_iff_eq_none]
    by_contra hsome
    obtain ⟨i, hi⟩ := Option.ne_none_iff_exists'.mp hsome
    have hlive := ReachLookup.isSome_of_retrieve
      (follows_createLookup kind 1 kb.nbytesKey false) hi
    cases hlive
  have hsane : (kb.toKeyBuilder (UnitKey kind)).matchParamsSanityCheck params = true := hcheck
  unfold addEntry addEntry_ KeyBuilder.buildEntryFromMatchKey getAndSetHandle
  simp [hsane, newUnit, MatchUnit.create, hnew]

/-- The only entry of a unit. -/
theorem live_of_addEntry_newUnit {h : EntryHandle}
    {u' : MatchUnit (UnitLookup kind) (UnitKey kind) Unit} {i : ℕ} {key : UnitKey kind}
    (hadd : (newUnit kind Unit kb 1 false).addEntry (kb.toKeyBuilder (UnitKey kind)) params () priority
      0 = (.ok h, u'))
    (hi : u'.live i = some key) :
    key = (kb.toKeyBuilder (UnitKey kind)).matchParamsToEntry params priority := by
  obtain ⟨-, -, -, -, rfl⟩ := addEntry_eq_ok hadd
  obtain ⟨hmem, rfl⟩ := live_eq_some.mp hi
  rcases Finset.mem_insert.mp hmem with rfl | hnone
  · simp only [Function.update_self]
  · exact absurd hnone (Finset.notMem_empty i)

/-- Masks of the parameters, one after the other, are the same if each is. -/
theorem Sane.mask_eq_of_concatMask (h : Sane kb fields params) (h' : Sane kb fields params')
    (heq : kb.concatMask params = kb.concatMask params') {i : ℕ} (hi : i < fields.length)
    (hgiven : (fieldAt fields i).input.mtype = .ternary ∨ (fieldAt fields i).input.mtype = .range) :
    (paramAt params i).mask = (paramAt params' i).mask := by
  have hmem := h.built.mem_invMapping.mpr hi
  have hmask : ∀ p : MatchKeyParam, p.type = (fieldAt fields i).input.mtype → paramMask p = p.mask := by
    intro p hp
    rcases hgiven with hg | hg <;> rw [paramMask, hp, hg]
  rw [h.built.concatMask_eq, h.built.concatMask_eq, Chunks.flatMap_inj_iff] at heq
  · rw [← hmask _ (h.type_eq hmem), ← hmask _ (h'.type_eq hmem), heq i hmem]
  · intro j hj
    rw [h.length_paramMask hj, h'.length_paramMask hj]

/-- **Parameters that differ above the width only** may be taken for each other exactly
when their ternary masks and the ends of their ranges do not differ. -/
theorem interchangeable_iff (hfits : Fits kind fields)
    (hcheck : (ofFields fields).matchParamsSanityCheck params = true)
    (hcheck' : (ofFields fields).matchParamsSanityCheck params' = true)
    (hsame : SameParams fields params params') :
    Interchangeable kind (ofFields fields) params params' ↔
      ∀ i < fields.length, (fieldAt fields i).input.mtype = .ternary ∨
        (fieldAt fields i).input.mtype = .range → (paramAt params i).mask = (paramAt params' i).mask := by
  have h : Sane (ofFields fields) fields params := ⟨built_ofFields hfits.sound, hfits.sound, hcheck⟩
  have h' : Sane (ofFields fields) fields params' := ⟨built_ofFields hfits.sound, hfits.sound, hcheck'⟩
  constructor
  · intro hinter
    -- one after the other in a new unit of the kind
    obtain ⟨handle, u', hadd⟩ : ∃ handle u', (newUnit kind Unit (ofFields fields) 1 false).addEntry
        ((ofFields fields).toKeyBuilder (UnitKey kind)) params () 0 0 = (.ok handle, u') :=
      exists_addEntry_newUnit hcheck
    have hdup := ((hinter.duplicates Unit 1 false [] 0).1 () 0 handle u' hadd).1 () 0
    have hexists := entryExists_of_duplicate hdup
    rw [FindLookup.entryExists_eq] at hexists
    obtain ⟨j, hj⟩ := Option.isSome_iff_exists.mp hexists
    have hsound : u'.Sound := by
      have hs := (sound_newUnit kind Unit (ofFields fields) 1 false).apply
        ((ofFields fields).toKeyBuilder (UnitKey kind)) (.addEntry params () 0 0)
      rwa [MatchUnit.apply, hadd] at hs
    intro i hi hgiven
    have htype := hfits.types _ (fieldAt_mem hi)
    cases kind with
    | exact =>
      rcases hgiven with hg | hg <;> rw [hg] at htype <;> simp at htype
    | lpm =>
      rcases hgiven with hg | hg <;> rw [hg] at htype <;> simp at htype
    | ternary =>
      obtain ⟨key, hlive, hkey⟩ := EntryMap.same_of_retrieve hsound.follows hj
      obtain rfl := live_of_addEntry_newUnit hadd hlive
      have hmask : (ofFields fields).concatMask params = (ofFields fields).concatMask params' :=
        eq_of_beq (Bool.and_eq_true_iff.mp hkey).2
      exact h.mask_eq_of_concatMask h' hmask hi hgiven
    | range =>
      obtain ⟨key, hlive, hkey⟩ := EntryMap.same_of_retrieve hsound.follows hj
      obtain rfl := live_of_addEntry_newUnit hadd hlive
      have hmask : (ofFields fields).concatMask params = (ofFields fields).concatMask params' :=
        eq_of_beq (Bool.and_eq_true_iff.mp (Bool.and_eq_true_iff.mp hkey).1).2
      exact h.mask_eq_of_concatMask h' hmask hi hgiven
  · intro hmasks
    have hbuild : ∀ priority, ((ofFields fields).toKeyBuilder (UnitKey kind)).buildEntryFromMatchKey
        params priority =
        ((ofFields fields).toKeyBuilder (UnitKey kind)).buildEntryFromMatchKey params' priority := by
      intro priority
      have heq : ((ofFields fields).toKeyBuilder (UnitKey kind)).matchParamsToEntry params priority =
          ((ofFields fields).toKeyBuilder (UnitKey kind)).matchParamsToEntry params' priority :=
        hsame.toEntry_eq hfits h h' hmasks
      have hsane : ((ofFields fields).toKeyBuilder (UnitKey kind)).matchParamsSanityCheck params =
        true := hcheck
      have hsane' : ((ofFields fields).toKeyBuilder (UnitKey kind)).matchParamsSanityCheck params' =
        true := hcheck'
      rw [KeyBuilder.buildEntryFromMatchKey, KeyBuilder.buildEntryFromMatchKey, if_pos hsane,
        if_pos hsane', heq]
    refine ⟨fun priority key => ?_, fun V _ size enableCache ops priority => ?_⟩
    · rw [Matches, Matches, addEntry_congr (hbuild priority)]
    · have hs := (sound_newUnit kind V (ofFields fields) size enableCache).run
        ((ofFields fields).toKeyBuilder (UnitKey kind)) ops
      exact ⟨fun value now handle u' hadd => duplicate_of_addEntry hs hadd (hbuild priority).symm,
        fun value now handle u' hadd => duplicate_of_addEntry hs hadd (hbuild priority)⟩

/-- Four bits of a value that differ above a field of twelve. -/
theorem vlan_interchangeable :
    Interchangeable .exact (ofFields [.field 0 0 12 .exact]) [⟨.exact, [0xf0, 1], [], 0⟩]
      [⟨.exact, [0x00, 1], [], 0⟩] := by
  have hfits : Fits .exact [.field 0 0 12 .exact] := ⟨by decide, by simp [KeyField.input], by decide⟩
  refine (interchangeable_iff hfits (by decide) (by decide) fun i hi => ?_).mpr fun i hi hgiven => ?_
  · obtain rfl : i = 0 := by simpa using hi
    exact ⟨rfl, rfl, by decide, rfl⟩
  · obtain rfl : i = 0 := by simpa using hi
    rfl

/-- **The end of a range is not cut**: `0xf5` for a field of four bits is above `7`, which
the range up to `5` does not have. -/
theorem range_not_interchangeable :
    Fits .range [.field 0 0 4 .range] ∧
      (ofFields [.field 0 0 4 .range]).matchParamsSanityCheck [⟨.range, [2], [0x05], 0⟩] = true ∧
      (ofFields [.field 0 0 4 .range]).matchParamsSanityCheck [⟨.range, [2], [0xf5], 0⟩] = true ∧
      SameParams [.field 0 0 4 .range] [⟨.range, [2], [0x05], 0⟩] [⟨.range, [2], [0xf5], 0⟩] ∧
      ¬Matches .range (ofFields [.field 0 0 4 .range]) [⟨.range, [2], [0x05], 0⟩] 1 [7] ∧
      Matches .range (ofFields [.field 0 0 4 .range]) [⟨.range, [2], [0xf5], 0⟩] 1 [7] ∧
      ¬Interchangeable .range (ofFields [.field 0 0 4 .range]) [⟨.range, [2], [0x05], 0⟩]
        [⟨.range, [2], [0xf5], 0⟩] := by
  have hnot : ¬Matches .range (ofFields [.field 0 0 4 .range]) [⟨.range, [2], [0x05], 0⟩] 1 [7] := by
    unfold Matches
    decide
  have hmatches : Matches .range (ofFields [.field 0 0 4 .range]) [⟨.range, [2], [0xf5], 0⟩] 1 [7] := by
    unfold Matches
    decide
  refine ⟨⟨by decide, by simp, by decide⟩, by decide, by decide, fun i hi => ?_, hnot, hmatches,
    fun h => hnot ((h.sameKeys 1 [7]).mpr hmatches)⟩
  obtain rfl : i = 0 := by simpa using hi
  exact ⟨rfl, rfl, rfl, by decide⟩

end

end MatchKeyBuilder

end MatchKeys

end P4Bricks
