import P4Bricks.Common.Images
import P4Bricks.Parser.Model
/-!
# Parse value sets

`ParseVSet` and what stands behind it in `parser.cpp`. A value set keeps its
values once as they are given, packed without padding, and once more for each
case of a parse state that uses it: there every value is laid out as the key
of the state is, each field in whole bytes, and masked by the mask of the
case. Each of these copies is changed by itself when a value is added or
removed. The cases of all states are there before the first value is.
-/

namespace P4Bricks

namespace Parsing

/-! ## One copy of the values -/

/-- The fields of a packed value, each in bytes of its own: the loop of
`do_padding`. -/
def padFields : ByteContainer → ℕ → List ℕ → Except Stop ByteContainer
  | _, _, [] => .ok []
  | src, offset, w :: bitwidths => do
    let field ← genericExtract src offset w
    let rest ← padFields (src.drop ((offset + w) / 8)) ((offset + w) % 8) bitwidths
    .ok (field ++ rest)

/-- `transform_imp`: `mask_v` where there is a mask. A mask that is shorter
than the value is read past its end. -/
def VSetShadow.transformInput (vs : VSetShadow) (v : ByteContainer) : Except Stop ByteContainer :=
  match vs.mask with
  | none => .ok v
  | some mask =>
    if v.length ≤ mask.length then .ok (List.zipWith (· &&& ·) v mask) else .error .abort

/-- `ParseVSetCommon`, with its template parameter `with_padding`. -/
structure VSetCommon extends VSetShadow where
  withPadding : Bool
  bitwidths : List ℕ

namespace VSetCommon

/-- `do_padding`. The value of a key of one field is not touched. -/
def doPadding (m : VSetCommon) (v : ByteContainer) : Except Stop ByteContainer :=
  if !m.withPadding || m.bitwidths.length == 1 then .ok v
  else if v.length = (m.bitwidths.sum + 7) / 8 then
    padFields v (8 * v.length - m.bitwidths.sum) m.bitwidths
  else .error .abort

/-- What `add` and `remove` look for in place of `v`. -/
def stored (m : VSetCommon) (v : ByteContainer) : Except Stop ByteContainer := do
  let padded ← m.doPadding v
  let newV ← m.transformInput padded
  if newV.length = m.width then .ok newV else .error .abort

/-- `add`, `remove` and `clear`. -/
def apply (m : VSetCommon) : SetOp ByteContainer → Except Stop VSetCommon
  | .add v => do
    let newV ← m.stored v
    .ok { m with set := m.set.insert newV }
  | .remove v => do
    let newV ← m.stored v
    .ok { m with set := m.set.filter (· != newV) }
  | .clear => .ok { m with set := [] }

end VSetCommon

/-- `ParseVSetBase`: no padding and no mask. -/
def VSetCommon.base (compressedBitwidth : ℕ) : VSetCommon where
  set := []
  mask := none
  width := (compressedBitwidth + 7) / 8
  withPadding := false
  bitwidths := []

/-- What a case gives to its copy: the widths of the fields of the key, as
`get_bitwidths` of the key builder has them, and the mask. -/
structure VSetCase where
  bitwidths : List ℕ
  mask : Option ByteContainer

/-- The bytes of a key. -/
def VSetCase.width (c : VSetCase) : ℕ := (c.bitwidths.map fun w => (w + 7) / 8).sum

/-- `ParseVSetNoMask` and `ParseVSetMask`. -/
def VSetCase.shadow (c : VSetCase) : Except Stop VSetCommon :=
  if c.bitwidths = [] then .error .abort
  else .ok ⟨⟨[], c.mask, c.width⟩, true, c.bitwidths⟩

/-! ## The value set -/

/-- `ParseVSet`: the first of the source's shadows is `base`. -/
structure ParseVSet where
  compressedBitwidth : ℕ
  base : VSetCommon
  shadows : List VSetCommon

namespace ParseVSet

/-- A value set with the cases that use it. -/
def configure (compressedBitwidth : ℕ) (cases : List VSetCase) : Except Stop ParseVSet := do
  let shadows ← cases.mapM VSetCase.shadow
  .ok ⟨compressedBitwidth, .base compressedBitwidth, shadows⟩

/-- `add`, `remove` and `clear`: each copy in turn. -/
def apply (vs : ParseVSet) (op : SetOp ByteContainer) : Except Stop ParseVSet := do
  let base ← vs.base.apply op
  let shadows ← vs.shadows.mapM (·.apply op)
  .ok { vs with base := base, shadows := shadows }

/-- One operation after the other. -/
def applyAll (vs : ParseVSet) (ops : List (SetOp ByteContainer)) : Except Stop ParseVSet :=
  ops.foldlM apply vs

def contains (vs : ParseVSet) (v : ByteContainer) : Except Stop Bool := vs.base.contains v

end ParseVSet

/-! ## Keys -/

/-- `ParseSwitchKeyBuilder::operator()`. -/
def buildKey (phv : Phv) (data : ByteContainer) (entries : List KeyEntry) :
    Except Stop ByteContainer :=
  entries.foldlM (KeyEntry.append phv data) []

end Parsing

end P4Bricks
