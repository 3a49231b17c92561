import P4Bricks.MatchKeys.Canonical
import P4Bricks.MatchKeys.Padding
import P4Bricks.MatchUnit.Issued
/-!
# Entries read back

A client reads an entry by its handle, and finds the handle by what it read. In each run
whose steps keep handles and keys in order, both work for every handle that was issued
(`returned_of_orderly`). The trie of a unit for prefixes may lose entries when others are
deleted, and their keys then lead nowhere.
-/

namespace P4Bricks

namespace MatchKeys

open Lookup MatchUnit

namespace MatchKeyBuilder

section
variable {kind : MatchUnitType} {fields : List KeyField} {V : Type}

/-- `get_entry`. In a unit for prefixes there is no parameter to put the prefix length in if
the key has no fields, and `at` throws. -/
def returnedEntry (kind : MatchUnitType) (kb : MatchKeyBuilder)
    (u : MatchUnit (UnitLookup kind) (UnitKey kind) V) (h : EntryHandle) :
    Option (Result (List MatchKeyParam × V × ℤ)) :=
  match u.checkHandle h with
  | .error e => some (.error e)
  | .ok _ =>
    if kind = .lpm ∧ kb.keyMapping.length = 0 then none
    else some (u.getEntry (kb.toKeyBuilder (UnitKey kind)) h)

/-- **The entry of a handle comes back in canonical form, and leads back to the handle.** -/
structure Returned (kind : MatchUnitType) (fields : List KeyField)
    (u : MatchUnit (UnitLookup kind) (UnitKey kind) V) (h : EntryHandle)
    (params : List MatchKeyParam) (value : V) (priority : ℤ) : Prop where
  entry_eq : returnedEntry kind (ofFields fields) u h =
    some (.ok (canonicalParams kind fields params, value, canonicalPriority kind priority))
  handle_eq : u.retrieveHandle ((ofFields fields).toKeyBuilder (UnitKey kind))
    (canonicalParams kind fields params) (canonicalPriority kind priority) = .ok h

theorem returned_of_names {u : MatchUnit (UnitLookup kind) (UnitKey kind) V} {h : EntryHandle}
    {params : List MatchKeyParam} {value : V} {priority : ℤ} {i : ℕ} (hfits : Fits kind fields)
    (hfields : kind = .lpm → fields ≠ [])
    (hcheck : (ofFields fields).matchParamsSanityCheck params = true)
    (hn : Names u h i (((ofFields fields).toKeyBuilder (UnitKey kind)).matchParamsToEntry params
      priority) value)
    (hc : Complete u.lookupStructure u.live) : Returned kind fields u h params value priority := by
  have hsane : Sane (ofFields fields) fields params :=
    ⟨built_ofFields hfits.sound, hfits.sound, hcheck⟩
  constructor
  · have hsome : ¬(kind = .lpm ∧ (ofFields fields).keyMapping.length = 0) := by
      rintro ⟨hkind, hnone⟩
      rw [hsane.built.length_keyMapping] at hnone
      exact hfields hkind (List.eq_nil_of_length_eq_zero hnone)
    have hentry := (hn.serves ((ofFields fields).toKeyBuilder (UnitKey kind))).getEntry_eq
    rw [hsane.entryToMatchParams_eq hfits, getPriority_toEntry] at hentry
    unfold returnedEntry
    rw [hn.checked]
    exact (if_neg hsome).trans (congrArg some hentry)
  · refine hn.retrieveHandle_eq hc ?_
    have hcanonical : ((ofFields fields).toKeyBuilder (UnitKey kind)).matchParamsSanityCheck
        (canonicalParams kind fields params) = true := hsane.canonical.check
    rw [KeyBuilder.buildEntryFromMatchKey, if_pos hcanonical, hsane.toEntry_canonical hfits]

variable [Inhabited V]

theorem check_of_issued {u : MatchUnit (UnitLookup kind) (UnitKey kind) V} {kb : MatchKeyBuilder}
    {ops : List (Op (List MatchKeyParam) V)} {h : EntryHandle} {params : List MatchKeyParam} {value : V}
    {priority : ℤ} (hi : Issued (kb.toKeyBuilder (UnitKey kind)) u ops h params value priority) :
    kb.matchParamsSanityCheck params = true := by
  obtain ⟨before, added, now, after, rfl, hadd, -, -⟩ := hi
  exact (addEntry_eq_ok (Prod.ext hadd rfl)).1

/-- **Entries read back.** In every run of a new unit whose steps are orderly, for every
handle that was issued and is still live: its entry comes back in canonical form with the
value last written, and leads back to the handle. The handles that the unit takes are all
among these. -/
theorem returned_of_orderly (hfits : Fits kind fields) (hfields : kind = .lpm → fields ≠ [])
    (size : ℕ) (enableCache : Bool) (ops : List (Op (List MatchKeyParam) V))
    (hops : Runs.Always
      (fun u op => some (u.apply ((ofFields fields).toKeyBuilder (UnitKey kind)) op))
      (Orderly ((ofFields fields).toKeyBuilder (UnitKey kind)))
      (newUnit kind V (ofFields fields) size enableCache) ops) (h : EntryHandle) :
    (∀ params value priority, Issued ((ofFields fields).toKeyBuilder (UnitKey kind))
        (newUnit kind V (ofFields fields) size enableCache) ops h params value priority →
      Returned kind fields ((newUnit kind V (ofFields fields) size enableCache).run
        ((ofFields fields).toKeyBuilder (UnitKey kind)) ops) h params value priority) ∧
    ∀ i, ((newUnit kind V (ofFields fields) size enableCache).run
        ((ofFields fields).toKeyBuilder (UnitKey kind)) ops).checkHandle h = .ok i →
      ∃ params value priority, Issued ((ofFields fields).toKeyBuilder (UnitKey kind))
        (newUnit kind V (ofFields fields) size enableCache) ops h params value priority := by
  refine ⟨fun params value priority hi => ?_, fun i hc => exists_issued size _ hops hc⟩
  obtain ⟨i, hn⟩ := hi.names hops
  refine returned_of_names hfits hfields (check_of_issued hi) hn ?_
  refine complete_run (sound_newUnit kind V (ofFields fields) size enableCache) ?_ hops
  -- a new unit has no entries
  intro i key hlive
  cases hlive

/-- A key of an exact field of twelve bits and a prefix of ten. -/
def hostFields : List KeyField := [.field 0 0 10 .lpm, .field 0 1 12 .exact]

/-- An entry whose parameters have bits above the widths, and its new value. -/
def hostOps : List (Op (List MatchKeyParam) ℕ) :=
  [.addEntry [⟨.lpm, [0xff, 0x80], [], 9⟩, ⟨.exact, [0xf1, 0x23], [], 0⟩] 7 3 0, .modifyEntry 0 8]

theorem host_returned : Returned .lpm hostFields
    ((newUnit .lpm ℕ (ofFields hostFields) 4 false).run
      ((ofFields hostFields).toKeyBuilder (UnitKey .lpm)) hostOps) 0
    [⟨.lpm, [0xff, 0x80], [], 9⟩, ⟨.exact, [0xf1, 0x23], [], 0⟩] 8 3 := by
  have hfits : Fits .lpm hostFields := ⟨by decide, by simp [hostFields, KeyField.input], by decide⟩
  refine (returned_of_orderly hfits (by decide) 4 false hostOps ?_ 0).1 _ _ _ ?_
  · refine ⟨fun h u' _ => ⟨by decide, by decide⟩, fun u hu => ⟨trivial, fun u' _ => trivial⟩⟩
  · exact ⟨[], 7, 0, [.modifyEntry 0 8], rfl, rfl, by simp, rfl⟩

/-- And what it comes back as. -/
example : canonicalParams .lpm hostFields
    [⟨.lpm, [0xff, 0x80], [], 9⟩, ⟨.exact, [0xf1, 0x23], [], 0⟩] =
      [⟨.lpm, [0x03, 0x80], [], 9⟩, ⟨.exact, [0x01, 0x23], [], 0⟩] := by decide

/-! ## Prefixes that are lost -/

/-- A key of one prefix of sixteen bits. -/
def fanFields : List KeyField := [.field 0 0 16 .lpm]

def fanParams (b : UInt8) (prefixLength : ℕ) : List MatchKeyParam := [⟨.lpm, [1, b], [], prefixLength⟩]

/-- An entry for the prefix `[1]`, and one for each of the keys `[1, b]` with `b < n`. -/
def fanOps (n : ℕ) : List (Op (List MatchKeyParam) ℕ) :=
  .addEntry (fanParams 0 8) 0 0 0 ::
    (List.range n).map fun b => .addEntry (fanParams (.ofNat b) 16) 0 0 0

theorem fanOps_succ (n : ℕ) :
    fanOps (n + 1) = fanOps n ++ [.addEntry (fanParams (.ofNat n) 16) 0 0 0] := by
  simp [fanOps, List.range_succ]

theorem ofFields_fanFields : ofFields fanFields =
    { keyInput := [⟨0, 0, .lpm, 16⟩]
      nbytesKey := 2
      bigMask := [0xff, 0xff]
      keyMapping := [0]
      invMapping := [0]
      keyOffsets := [0]
      built := true
      masks := [[0xff, 0xff]] } := by decide

/-- The key of the parameters, which nothing is cut from. -/
theorem build_fanParams (b : UInt8) {p : ℕ} (hp : p ≤ 16) (priority : ℤ) :
    ((ofFields fanFields).toKeyBuilder (UnitKey .lpm)).buildEntryFromMatchKey (fanParams b p) priority =
      prefixKeyBuilder.buildEntryFromMatchKey ⟨[1, b], p⟩ priority := by
  have hsane : ((ofFields fanFields).toKeyBuilder (UnitKey .lpm)).matchParamsSanityCheck
      (fanParams b p) = true := by
    have hcheck : (ofFields fanFields).matchParamsSanityCheck (fanParams b p) = true := by
      simp [ofFields_fanFields, matchParamsSanityCheck, sortedParams, fanParams, paramSane,
        nbitsToNbytes, hp]
    exact hcheck
  have hdata : (ofFields fanFields).applyBigMask ((ofFields fanFields).concatData (fanParams b p)) =
      [1, b] := by
    have hmask : (1 : UInt8) &&& getByte0Mask 16 = 1 := by decide
    simp [ofFields_fanFields, concatData, sortedParams, fanParams, applyBigMask, hmask]
  have hlength : (((ofFields fanFields).sortedParams (fanParams b p)).map fun fp =>
      paramPrefix fp.2).sum.toNat = p := by
    simp [ofFields_fanFields, sortedParams, fanParams, paramPrefix]
  rw [KeyBuilder.buildEntryFromMatchKey, if_pos hsane]
  exact congrArg₂ (fun data prefixLength => Except.ok (LPMMatchKey.mk data prefixLength)) hdata hlength

/-- The unit of `fanned`, in the parameters of a client. -/
theorem run_fanOps (n : ℕ) : (newUnit .lpm ℕ (ofFields fanFields) 300 false).run
    ((ofFields fanFields).toKeyBuilder (UnitKey .lpm)) (fanOps n) = fanned n := by
  induction n with
  | zero =>
    have hadd := addEntry_congr (u := newUnit .lpm ℕ (ofFields fanFields) 300 false)
      (build_fanParams 0 (p := 8) (by decide) 0) 0 0
    exact congrArg Prod.snd hadd
  | succ n ih =>
    have hadd := addEntry_congr (u := fanned n) (build_fanParams (.ofNat n) le_rfl 0) 0 0
    rw [fanOps_succ, fanned_succ, run_append, ih]
    exact congrArg Prod.snd hadd

/-- Then the first entry is deleted. -/
theorem run_fanOps_delete (n : ℕ) : (newUnit .lpm ℕ (ofFields fanFields) 300 false).run
    ((ofFields fanFields).toKeyBuilder (UnitKey .lpm)) (fanOps n ++ [.deleteEntry 0]) =
      ((fanned n).deleteEntry 0).2 := by
  rw [run_append, run_fanOps]
  rfl

/-- The last of 256 additions. -/
theorem addEntry_fanned : ((fanned 255).addEntry prefixKeyBuilder ⟨[1, 255], 16⟩ 0 0 0).1 = .ok 256 := by
  have hfan := fan_fanned (n := 255) (by decide)
  have hnext : Fan ((fanned 255).addEntry prefixKeyBuilder ⟨[1, 255], 16⟩ 0 0 0).2 256 :=
    hfan.addEntry (by decide)
  rcases hadd : (fanned 255).addEntry prefixKeyBuilder ⟨[1, 255], 16⟩ 0 0 0 with ⟨e | h, u'⟩
  · -- a refused addition would not have been counted
    have hnum := hnext.numEntries_eq
    rw [hadd, addEntry_eq_error hadd, hfan.numEntries_eq] at hnum
    omega
  · obtain ⟨-, -, -, rfl, -⟩ := addEntry_eq_ok hadd
    rw [hfan.version_eq, hfan.handles_eq, firstFree_range]
    rfl

/-- After the deletion every version is still small. -/
theorem version_deleted {u : MatchUnit LPMTrieStructure LPMMatchKey ℕ} (h : Fan u 256) (i : ℕ) :
    ((u.deleteEntry 0).2.entries i).version < 256 := by
  have hc : u.checkHandle 0 = .ok 0 := by
    rw [checkHandle_eq_ok, h.handles_eq, h.version_eq]
    decide
  have hversion := h.version_eq
  rw [deleteEntry_of_ok hc]
  by_cases hi : i = 0
  · subst hi
    simp [hversion]
  · simp [hi, hversion]

/-- What the entry of `[1, 255]` comes back as leads nowhere if the trie does not. -/
theorem retrieveHandle_lost {u : MatchUnit LPMTrieStructure LPMMatchKey ℕ}
    (hnone : LookupStructure.retrieveHandle u.lookupStructure ⟨[1, 255], 16⟩ = none) :
    u.retrieveHandle ((ofFields fanFields).toKeyBuilder (UnitKey .lpm))
        (canonicalParams .lpm fanFields (fanParams 255 16)) (canonicalPriority .lpm 0) =
      .error .badMatchKey := by
  have hcanonical : canonicalParams .lpm fanFields (fanParams 255 16) = fanParams 255 16 := by decide
  rw [hcanonical]
  exact retrieveHandle_of_none (build_fanParams 255 le_rfl _) hnone

/-- **Deleting one of 257 entries loses the others**: the entry of `[1, 255]` is live, and
nothing leads from what it comes back as to its handle. -/
theorem fan_not_returned :
    Fits .lpm fanFields ∧
      Issued ((ofFields fanFields).toKeyBuilder (UnitKey .lpm))
        (newUnit .lpm ℕ (ofFields fanFields) 300 false) (fanOps 256 ++ [.deleteEntry 0]) 256
        (fanParams 255 16) 0 0 ∧
      (∀ i, (((newUnit .lpm ℕ (ofFields fanFields) 300 false).run
        ((ofFields fanFields).toKeyBuilder (UnitKey .lpm))
        (fanOps 256 ++ [.deleteEntry 0])).entries i).version < 256) ∧
      ((newUnit .lpm ℕ (ofFields fanFields) 300 false).run
        ((ofFields fanFields).toKeyBuilder (UnitKey .lpm))
        (fanOps 256 ++ [.deleteEntry 0])).retrieveHandle
          ((ofFields fanFields).toKeyBuilder (UnitKey .lpm))
          (canonicalParams .lpm fanFields (fanParams 255 16)) (canonicalPriority .lpm 0) =
        .error .badMatchKey ∧
      ¬Returned .lpm fanFields ((newUnit .lpm ℕ (ofFields fanFields) 300 false).run
        ((ofFields fanFields).toKeyBuilder (UnitKey .lpm))
        (fanOps 256 ++ [.deleteEntry 0])) 256 (fanParams 255 16) 0 0 := by
  have hfan := fan_fanned (n := 256) (by decide)
  have hrun := run_fanOps_delete 256
  obtain ⟨-, -, hnone, -⟩ := hfan.deleteEntry (sound_fanned 256)
  have hlost := retrieveHandle_lost hnone
  have hsmall := version_deleted hfan
  -- From here on nothing looks into the unit.
  generalize fanned 256 = u at hrun hlost hsmall
  rw [hrun]
  refine ⟨⟨by decide, by simp [fanFields, KeyField.input], by decide⟩, ?_,
    hsmall, hlost, fun h => ?_⟩
  · have hlast : fanOps 256 = fanOps 255 ++ [.addEntry (fanParams 255 16) 0 0 0] := fanOps_succ 255
    refine ⟨fanOps 255, 0, 0, [.deleteEntry 0], ?_, ?_, by simp, rfl⟩
    · rw [hlast, List.append_assoc, List.singleton_append]
    · rw [run_fanOps, addEntry_congr (build_fanParams 255 le_rfl 0), addEntry_fanned]
  · have hfound := h.handle_eq
    rw [hlost] at hfound
    cases hfound

end

end MatchKeyBuilder

end MatchKeys

end P4Bricks
