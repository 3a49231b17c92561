import P4Bricks.Lookup.Reach
import P4Bricks.MatchKeys.Entries
import P4Bricks.MatchUnit.Liveness
/-!
# Units of each kind

The four kinds of match units over the key builder: the keys of their entries, the
lookup structures that `LookupStructureFactory` makes for them, and the layouts they
are for.
-/

namespace P4Bricks

namespace MatchKeys

open Lookup MatchUnit

/-- The keys of the entries of a unit. -/
abbrev UnitKey : MatchUnitType → Type
  | .exact => ExactMatchKey
  | .lpm => LPMMatchKey
  | .ternary => TernaryMatchKey
  | .range => RangeMatchKey

/-- The lookup structure of a unit. -/
abbrev UnitLookup : MatchUnitType → Type
  | .exact => ExactMap
  | .lpm => LPMTrieStructure
  | .ternary => TernaryMap
  | .range => RangeMap

instance : (kind : MatchUnitType) → MatchKey (UnitKey kind)
  | .exact => inferInstanceAs (MatchKey ExactMatchKey)
  | .lpm => inferInstanceAs (MatchKey LPMMatchKey)
  | .ternary => inferInstanceAs (MatchKey TernaryMatchKey)
  | .range => inferInstanceAs (MatchKey RangeMatchKey)

instance : (kind : MatchUnitType) → Inhabited (UnitKey kind)
  | .exact => inferInstanceAs (Inhabited ExactMatchKey)
  | .lpm => inferInstanceAs (Inhabited LPMMatchKey)
  | .ternary => inferInstanceAs (Inhabited TernaryMatchKey)
  | .range => inferInstanceAs (Inhabited RangeMatchKey)

instance : (kind : MatchUnitType) → LookupStructure (UnitLookup kind) (UnitKey kind)
  | .exact => inferInstanceAs (LookupStructure ExactMap ExactMatchKey)
  | .lpm => inferInstanceAs (LookupStructure LPMTrieStructure LPMMatchKey)
  | .ternary => inferInstanceAs (LookupStructure TernaryMap TernaryMatchKey)
  | .range => inferInstanceAs (LookupStructure RangeMap RangeMatchKey)

instance : (kind : MatchUnitType) → LiveLookup (UnitLookup kind) (UnitKey kind)
  | .exact => inferInstanceAs (LiveLookup ExactMap ExactMatchKey)
  | .lpm => inferInstanceAs (LiveLookup LPMTrieStructure LPMMatchKey)
  | .ternary => inferInstanceAs (LiveLookup TernaryMap TernaryMatchKey)
  | .range => inferInstanceAs (LiveLookup RangeMap RangeMatchKey)

instance : (kind : MatchUnitType) → ReachLookup (UnitLookup kind) (UnitKey kind)
  | .exact => inferInstanceAs (ReachLookup ExactMap ExactMatchKey)
  | .lpm => inferInstanceAs (ReachLookup LPMTrieStructure LPMMatchKey)
  | .ternary => inferInstanceAs (ReachLookup TernaryMap TernaryMatchKey)
  | .range => inferInstanceAs (ReachLookup RangeMap RangeMatchKey)

instance : (kind : MatchUnitType) → FindLookup (UnitLookup kind) (UnitKey kind)
  | .exact => inferInstanceAs (FindLookup ExactMap ExactMatchKey)
  | .lpm => inferInstanceAs (FindLookup LPMTrieStructure LPMMatchKey)
  | .ternary => inferInstanceAs (FindLookup TernaryMap TernaryMatchKey)
  | .range => inferInstanceAs (FindLookup RangeMap RangeMatchKey)

section
variable (kind : MatchUnitType)

/-- `LookupStructureFactory::create`. -/
def createLookup (size nbytesKey : ℕ) (enableCache : Bool) : UnitLookup kind :=
  match kind with
  | .exact => ExactMap.create
  | .lpm => LPMTrieStructure.create nbytesKey
  | .ternary => EntryMap.create size nbytesKey enableCache
  | .range => EntryMap.create size nbytesKey enableCache

/-- A unit of the kind, for keys of these fields. -/
def newUnit (V : Type) [Inhabited V] (kb : MatchKeyBuilder) (size : ℕ) (enableCache : Bool) :
    MatchUnit (UnitLookup kind) (UnitKey kind) V :=
  MatchUnit.create size (createLookup kind size kb.nbytesKey enableCache)

end

theorem follows_createLookup (kind : MatchUnitType) (size nbytesKey : ℕ) (enableCache : Bool) :
    LiveLookup.Follows (createLookup kind size nbytesKey enableCache) size
      fun _ => (none : Option (UnitKey kind)) := by
  cases kind with
  | exact => exact fun _ _ h => nomatch h
  | lpm => exact LPMTrieStructure.follows_create nbytesKey
  | ternary => exact holds_empty rfl rfl rfl
  | range => exact holds_empty rfl rfl rfl

/-- The data of the entries of a unit is masked by the masks of the parameters. -/
def MatchUnitType.isTernary : MatchUnitType → Bool
  | .exact | .lpm => false
  | .ternary | .range => true

/-- **The layouts** that the units of a kind are for. No key has two fields for the
longest prefix. -/
structure Fits (kind : MatchUnitType) (fields : List KeyField) : Prop where
  sound : ∀ x ∈ fields, x.Sound
  types : ∀ x ∈ fields,
    match kind with
    | .exact => x.input.mtype = .valid ∨ x.input.mtype = .exact
    | .lpm => x.input.mtype = .valid ∨ x.input.mtype = .exact ∨ x.input.mtype = .lpm
    | .ternary => x.input.mtype ≠ .range
    | .range => True
  oneLpm : ∀ i < fields.length, ∀ j < fields.length,
    (MatchKeyBuilder.fieldAt fields i).input.mtype = .lpm →
      (MatchKeyBuilder.fieldAt fields j).input.mtype = .lpm → i = j

namespace MatchKeyBuilder

variable {kind : MatchUnitType} {fields : List KeyField} {params params' : List MatchKeyParam}
  {kb : MatchKeyBuilder} {priority : ℤ}

/-- **Entries are equal** if they have the same for each field. -/
theorem Sane.toEntry_congr (hfits : Fits kind fields) (h : Sane kb fields params)
    (h' : Sane kb fields params')
    (hstored : ∀ i ∈ kb.invMapping, stored kind.isTernary (fieldAt fields i) (paramAt params i) =
      stored kind.isTernary (fieldAt fields i) (paramAt params' i))
    (hmask : ∀ i ∈ kb.invMapping, paramMask (paramAt params i) = paramMask (paramAt params' i))
    (hlength : ∀ i ∈ kb.invMapping,
      paramPrefix (paramAt params i) = paramPrefix (paramAt params' i)) :
    (kb.toKeyBuilder (UnitKey kind)).matchParamsToEntry params priority =
      (kb.toKeyBuilder (UnitKey kind)).matchParamsToEntry params' priority := by
  have hdata : storedData kind.isTernary kb fields params =
      storedData kind.isTernary kb fields params' := List.flatMap_congr hstored
  have hmasks : kb.concatMask params = kb.concatMask params' := by
    rw [h.built.concatMask_eq, h.built.concatMask_eq]
    exact List.flatMap_congr hmask
  cases kind with
  | exact =>
    refine (toEntry_exact h priority).trans (Eq.trans ?_ (toEntry_exact h' priority).symm)
    exact congrArg ExactMatchKey.mk hdata
  | lpm =>
    refine (toEntry_lpm h priority).trans (Eq.trans ?_ (toEntry_lpm h' priority).symm)
    rw [List.map_congr_left hlength]
    exact congrArg (LPMMatchKey.mk · _) hdata
  | ternary =>
    refine (toEntry_ternary h priority hfits.types).trans
      (Eq.trans ?_ (toEntry_ternary h' priority hfits.types).symm)
    rw [hmasks]
    exact congrArg (TernaryMatchKey.mk · _ _) hdata
  | range =>
    obtain ⟨rs, os, hsplit, hrs, hos⟩ := h.built.exists_ranges
    refine (toEntry_range h priority).trans (Eq.trans ?_ (toEntry_range h' priority).symm)
    rw [hmasks, h.rangeWidths_eq hsplit hrs hos, h'.rangeWidths_eq hsplit hrs hos]
    exact congrArg (fun data => RangeMatchKey.mk ⟨data, _, _⟩ _) hdata

end MatchKeyBuilder

end MatchKeys

end P4Bricks
