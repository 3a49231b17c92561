import Mathlib.Data.List.Sort
import P4Bricks.Common.Chunks
import P4Bricks.Lookup.Model
import P4Bricks.MatchUnit.Model
import P4Bricks.Phv.Model
/-!
# Match keys

`MatchKeyBuilder` of `match_units.cpp`. The fields of a key are pushed in the
order of the program and sorted by their match types when the builder is built.
Packet keys and the keys of entries have the bytes of the fields in the sorted
order, each field in whole bytes; match parameters are in the order of the program.

The names of the fields, which are for debugging only, are left out.
-/

namespace P4Bricks

namespace MatchKeys

open Lookup

/-- `MatchKeyParam::Type`, in the order that the implementation has the fields in. -/
inductive MatchType where
  | range
  | valid
  | exact
  | lpm
  | ternary
  deriving DecidableEq, Repr

/-- The place of a type in the order. -/
def MatchType.rank : MatchType → ℕ
  | range => 0
  | valid => 1
  | exact => 2
  | lpm => 3
  | ternary => 4

/-- `MatchKeyParam`. The key is the start of a range, and the mask its end. -/
structure MatchKeyParam where
  type : MatchType
  key : ByteContainer
  mask : ByteContainer := []
  prefixLength : ℤ := 0
  deriving DecidableEq, Repr

instance : Inhabited MatchKeyParam := ⟨⟨.exact, [], [], 0⟩⟩

/-- `MatchKeyBuilder::KeyF`. -/
structure KeyF where
  header : ℕ
  fOffset : ℕ
  mtype : MatchType
  nbits : ℕ
  deriving DecidableEq, Repr

instance : Inhabited KeyF := ⟨⟨0, 0, .exact, 0⟩⟩

def nbitsToNbytes (nbits : ℕ) : ℕ := (nbits + 7) / 8

/-- `MatchKeyBuilder`. -/
structure MatchKeyBuilder where
  keyInput : List KeyF := []
  nbytesKey : ℕ := 0
  hasBigMask : Bool := false
  bigMask : ByteContainer := []
  /-- The place of a field of the program among the sorted ones. -/
  keyMapping : List ℕ := []
  /-- The place in the program of a sorted field. -/
  invMapping : List ℕ := []
  keyOffsets : List ℕ := []
  built : Bool := false
  masks : List ByteContainer := []
  deriving DecidableEq, Repr

namespace MatchKeyBuilder

/-! ## Building -/

/-- `push_back`. -/
def pushBack (kb : MatchKeyBuilder) (input : KeyF) (mask : ByteContainer) : MatchKeyBuilder :=
  { kb with
    keyInput := kb.keyInput ++ [input]
    nbytesKey := kb.nbytesKey + nbitsToNbytes input.nbits
    masks := kb.masks ++ [mask] }

/-- `push_back_field`. -/
def pushBackField (kb : MatchKeyBuilder) (header fOffset nbits : ℕ) (mtype : MatchType) :
    MatchKeyBuilder :=
  kb.pushBack ⟨header, fOffset, mtype, nbits⟩ (List.replicate (nbitsToNbytes nbits) 0xff)

/-- `push_back_field`, with a mask. -/
def pushBackFieldMasked (kb : MatchKeyBuilder) (header fOffset nbits : ℕ) (mask : ByteContainer)
    (mtype : MatchType) : MatchKeyBuilder :=
  { kb.pushBack ⟨header, fOffset, mtype, nbits⟩ mask with hasBigMask := true }

/-- `push_back_valid_header`. -/
def pushBackValidHeader (kb : MatchKeyBuilder) (header : ℕ) : MatchKeyBuilder :=
  kb.pushBack ⟨header, 0, .valid, 8⟩ [0xff]

/-- `sort_fn`, and equality. -/
def Before (input : List KeyF) (i₁ i₂ : ℕ) : Prop :=
  let t₁ := (input.getD i₁ default).mtype.rank
  let t₂ := (input.getD i₂ default).mtype.rank
  if t₁ = t₂ then i₁ ≤ i₂ else t₁ < t₂

instance (input : List KeyF) : DecidableRel (Before input) := fun i₁ i₂ => by
  unfold Before
  infer_instance

/-- `build`. -/
def build (kb : MatchKeyBuilder) : MatchKeyBuilder :=
  if kb.built then kb
  else
    let n := kb.keyInput.length
    let invMapping := (List.range n).insertionSort (Before kb.keyInput)
    let newInput := invMapping.map fun idx => kb.keyInput.getD idx default
    let keyMapping := invMapping.foldl (fun mapping idx => mapping.set (invMapping.getD idx 0) idx)
      (List.replicate n 0)
    let offsets := (newInput.foldl
      (fun (acc : List ℕ × ℕ) f => (acc.1 ++ [acc.2], acc.2 + nbitsToNbytes f.nbits)) ([], 0)).1
    let keyOffsets := keyMapping.map fun idx => offsets.getD idx 0
    { kb with
      keyInput := newInput
      keyMapping := keyMapping
      invMapping := invMapping
      keyOffsets := keyOffsets
      bigMask := (List.range n).foldl
        (fun bytes i => Chunks.overwrite bytes (keyOffsets.getD i 0) (kb.masks.getD i []))
        (List.replicate kb.nbytesKey 0)
      built := true }

/-- `ByteContainer::apply_mask`, of a mask of the same size. -/
def applyMask (bytes mask : ByteContainer) : ByteContainer := List.zipWith (· &&& ·) bytes mask

/-- `apply_big_mask`. -/
def applyBigMask (kb : MatchKeyBuilder) (key : ByteContainer) : ByteContainer :=
  if kb.hasBigMask then applyMask key kb.bigMask else key

/-! ## Packet keys -/

/-- What `operator()` appends for a field. -/
def fieldKey (phv : Phv) (f : KeyF) : ByteContainer :=
  match phv.headers[f.header]? with
  | none => []
  | some header =>
    if f.mtype = .valid then [if header.isValid then 1 else 0]
    else
      match header.getField f.fOffset with
      | none => []
      | some field =>
        if header.isValid || field.hidden then field.bytes
        else List.replicate field.nbytes 0

/-- `operator()`: the key of a packet. -/
def packetKey (kb : MatchKeyBuilder) (phv : Phv) : ByteContainer :=
  let key := kb.keyInput.flatMap (fieldKey phv)
  if kb.hasBigMask then applyMask key kb.bigMask else key

/-! ## Entries -/

/-- `get_byte0_mask`. -/
def getByte0Mask (bitwidth : ℕ) : UInt8 :=
  if bitwidth % 8 = 0 then 0xff else .ofNat ((1 <<< (bitwidth % 8)) - 1)

/-- `create_mask_from_pref_len`. -/
def createMaskFromPrefLen (prefixLength size : ℕ) : ByteContainer :=
  let mask := List.replicate (prefixLength / 8) 0xff ++ List.replicate (size - prefixLength / 8) 0
  if prefixLength % 8 ≠ 0 then
    mask.set (prefixLength / 8) (.ofNat (0xff <<< (8 - prefixLength % 8)))
  else mask

/-- What `pref_len_from_mask` counts in a byte: the bits that are set, in pairs and then
in fours. -/
def prefLenFromByte (c : UInt8) : ℕ :=
  if c = 0xff then 8
  else
    let c₁ : UInt8 := c - ((c >>> (1 : UInt8)) &&& (0x55 : UInt8))
    let c₂ : UInt8 := (c₁ &&& (0x33 : UInt8)) + ((c₁ >>> (2 : UInt8)) &&& (0x33 : UInt8))
    ((c₂ + (c₂ >>> (4 : UInt8))) &&& (0x0f : UInt8)).toNat

/-- `pref_len_from_mask`. -/
def prefLenFromMask (mask : ByteContainer) : ℕ := (mask.map prefLenFromByte).sum

/-- `format_ternary_key`. -/
def formatTernaryKey (key mask : ByteContainer) : ByteContainer := applyMask key mask

/-- The parameters in the sorted order, with their fields. -/
def sortedParams (kb : MatchKeyBuilder) (params : List MatchKeyParam) : List (KeyF × MatchKeyParam) :=
  kb.keyInput.zip (kb.invMapping.map fun i => params.getD i default)

/-- The loop over the parameters that puts the data together: each one is appended and
the first of its bytes cut to the width of the field. -/
def concatData (kb : MatchKeyBuilder) (params : List MatchKeyParam) : ByteContainer :=
  ((kb.sortedParams params).foldl (fun (acc : ByteContainer × ℕ) fp =>
    ((acc.1 ++ fp.2.key).modify acc.2 (· &&& getByte0Mask fp.1.nbits), acc.2 + fp.2.key.length))
    ([], 0)).1

/-- What `match_params_to_entry_ternary_and_range` appends to the mask. -/
def paramMask (param : MatchKeyParam) : ByteContainer :=
  match param.type with
  | .valid => [0xff]
  | .exact => List.replicate param.key.length 0xff
  | .lpm => createMaskFromPrefLen param.prefixLength.toNat param.key.length
  | .range | .ternary => param.mask

def concatMask (kb : MatchKeyBuilder) (params : List MatchKeyParam) : ByteContainer :=
  (kb.sortedParams params).flatMap fun fp => paramMask fp.2

/-- What `match_params_to_entry` adds to the prefix length of an LPM entry. -/
def paramPrefix (param : MatchKeyParam) : ℤ :=
  match param.type with
  | .valid => 8
  | .exact => param.key.length * 8
  | .lpm => param.prefixLength
  | .range | .ternary => 0

/-- `range_widths`. -/
def rangeWidths (kb : MatchKeyBuilder) (params : List MatchKeyParam) : List ℕ :=
  (kb.sortedParams params).filterMap fun fp =>
    if fp.2.type = .range then some fp.2.key.length else none

/-- The parameters that the loops of `entry_to_match_params` build, from the field and
the bytes of the data and of the mask. -/
def cutParams (kb : MatchKeyBuilder) (data mask : ByteContainer)
    (cut : KeyF → ByteContainer → ByteContainer → MatchKeyParam) : List MatchKeyParam :=
  (List.range kb.keyMapping.length).map fun i =>
    let f := kb.keyInput.getD (kb.keyMapping.getD i 0) default
    let byteOffset := kb.keyOffsets.getD i 0
    let nbytes := nbitsToNbytes f.nbits
    cut f ((data.drop byteOffset).take nbytes) ((mask.drop byteOffset).take nbytes)

/-- A parameter of a ternary or range entry. -/
def cutTernary (f : KeyF) (bytes mask : ByteContainer) : MatchKeyParam :=
  match f.mtype with
  | .valid | .exact => ⟨f.mtype, bytes, [], 0⟩
  | .range | .ternary => ⟨f.mtype, bytes, mask, 0⟩
  | .lpm => ⟨f.mtype, bytes, [], prefLenFromMask mask⟩

end MatchKeyBuilder

/-! ## Kinds of keys -/

/-- `MatchUnitType`. -/
inductive MatchUnitType where
  | exact
  | lpm
  | ternary
  | range
  deriving DecidableEq, Repr

/-- **What a unit picks by the type of its keys**: the overloads of
`MatchKeyBuilderHelper`, of `get_priority` and of `set_priority`. -/
class MatchKey (K : Type) where
  unitType : MatchUnitType
  matchParamsToEntry : MatchKeyBuilder → List MatchKeyParam → K
  entryToMatchParams : MatchKeyBuilder → K → List MatchKeyParam
  mapData : (ByteContainer → ByteContainer) → K → K
  setPriority : K → ℤ → K
  getPriority : K → ℤ

instance : MatchKey ExactMatchKey where
  unitType := .exact
  matchParamsToEntry kb params := ⟨kb.concatData params⟩
  entryToMatchParams kb key := kb.cutParams key.data [] fun f bytes _ => ⟨f.mtype, bytes, [], 0⟩
  mapData f key := ⟨f key.data⟩
  setPriority key _ := key
  getPriority _ := -1

instance : MatchKey LPMMatchKey where
  unitType := .lpm
  matchParamsToEntry kb params :=
    ⟨kb.concatData params,
      ((kb.sortedParams params).map fun fp => MatchKeyBuilder.paramPrefix fp.2).sum.toNat⟩
  entryToMatchParams kb key :=
    let params := kb.cutParams key.data [] fun f bytes _ => ⟨f.mtype, bytes, [], 0⟩
    let pref : ℤ := params.foldl
      (fun pref param => if param.type = .lpm then pref else pref - param.key.length * 8)
      key.prefixLength
    let lpmIdx := params.zipIdx.foldl (fun idx x => if x.1.type = .lpm then x.2 else idx) 0
    params.modify lpmIdx fun param => { param with prefixLength := pref }
  mapData f key := ⟨f key.data, key.prefixLength⟩
  setPriority key _ := key
  getPriority _ := -1

instance : MatchKey TernaryMatchKey where
  unitType := .ternary
  matchParamsToEntry kb params :=
    { data := MatchKeyBuilder.formatTernaryKey (kb.concatData params) (kb.concatMask params)
      mask := kb.concatMask params }
  entryToMatchParams kb key := kb.cutParams key.data key.mask MatchKeyBuilder.cutTernary
  mapData f key := { key with data := f key.data }
  setPriority key priority := { key with priority := priority }
  getPriority key := key.priority

instance : MatchKey RangeMatchKey where
  unitType := .range
  matchParamsToEntry kb params :=
    let data := kb.concatData params
    let mask := kb.concatMask params
    let w := (kb.rangeWidths params).sum
    { data := data.take w ++ MatchKeyBuilder.formatTernaryKey (data.drop w) (mask.drop w)
      mask := mask
      rangeWidths := kb.rangeWidths params }
  entryToMatchParams kb key := kb.cutParams key.data key.mask MatchKeyBuilder.cutTernary
  mapData f key := { key with data := f key.data }
  setPriority key priority := { key with priority := priority }
  getPriority key := key.priority

namespace MatchKeyBuilder

/-- One round of `match_params_sanity_check`. A prefix length below zero is a large
`size_t`. -/
def paramSane (f : KeyF) (param : MatchKeyParam) : Bool :=
  let nbytes := nbitsToNbytes f.nbits
  param.type = f.mtype && param.key.length = nbytes &&
    match param.type with
    | .valid | .exact => true
    | .lpm => 0 ≤ param.prefixLength && param.prefixLength ≤ f.nbits
    | .ternary => param.mask.length = nbytes
    | .range => param.mask.length = nbytes && !decide (param.mask < param.key)

/-- `match_params_sanity_check`. -/
def matchParamsSanityCheck (kb : MatchKeyBuilder) (params : List MatchKeyParam) : Bool :=
  params.length = kb.keyInput.length && (kb.sortedParams params).all fun fp => paramSane fp.1 fp.2

/-- The builder as a unit uses it. -/
def toKeyBuilder (kb : MatchKeyBuilder) (K : Type) [MatchKey K] :
    MatchUnit.KeyBuilder (List MatchKeyParam) K where
  matchParamsSanityCheck := kb.matchParamsSanityCheck
  matchParamsToEntry params priority :=
    MatchKey.setPriority
      (MatchKey.mapData kb.applyBigMask (MatchKey.matchParamsToEntry kb params)) priority
  entryToMatchParams := MatchKey.entryToMatchParams kb
  getPriority := MatchKey.getPriority

end MatchKeyBuilder

end MatchKeys

end P4Bricks
