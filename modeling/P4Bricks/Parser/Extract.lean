import P4Bricks.Common.BitAt
import P4Bricks.Expressions.Model
/-!
# Extraction

`extract.h` and the extracting half of `fields.cpp` and `headers.cpp`: how
the bits of a header are copied from the packet into its fields.

The packet is the list of its bytes from the place the source's `data`
pointer points at, so that a read at an index outside of the list is a read
outside of the packet. It stops the program here with `Stop.beyond`: what
the source reads there is not the packet's, and no result built from it
would say anything.
-/

namespace P4Bricks

namespace Parsing

/-- `ErrorCodeMap::Core`. -/
inductive Core where
  | noError | packetTooShort | noMatch | stackOutOfBounds | headerTooShort | parserTimeout
  deriving DecidableEq, Repr

/-- Why an operation does not return. -/
inductive Stop where
  /-- `parser_exception_core`. -/
  | core (e : Core)
  /-- `parser_exception_arch`. -/
  | arch (code : ℤ)
  /-- A byte outside of the packet's data was read. -/
  | beyond
  /-- A length from -14 to -1 was computed for a field of variable length. The source
  goes on with a field of fewer than no bits, and a mask that is an undefined shift. -/
  | negativeLength
  /-- An assertion, an exception that is not a parser's, a reference to what
  does not exist, or a write outside of the destination. -/
  | abort
  deriving DecidableEq, Repr

/-- A value that has to be there. -/
def required {α : Type*} : Option α → Except Stop α
  | none => .error .abort
  | some a => .ok a

theorem required_eq_ok {α : Type*} {o : Option α} {a : α} (h : required o = .ok a) : o = some a := by
  cases o with
  | none => cases h
  | some b => rw [Except.ok.inj h]

/-! ## Bytes -/

/-- `data[i]`. -/
def readByte (data : ByteContainer) (i : ℕ) : Except Stop UInt8 :=
  match data[i]? with
  | none => .error .beyond
  | some b => .ok b

/-- The `n` bytes `f 0, …, f (n - 1)`, in this order. -/
def readBytes (f : ℕ → Except Stop UInt8) : ℕ → Except Stop ByteContainer
  | 0 => .ok []
  | n + 1 => do
    let bytes ← readBytes f n
    let b ← f n
    .ok (bytes ++ [b])

/-- `dst[0] &= (0xFF >> n)`. -/
def maskFirst (n : ℕ) : ByteContainer → ByteContainer
  | [] => []
  | b :: bytes => (b &&& shr 0xFF n) :: bytes

/-- The last byte, when the bits move left: `more` says that some of its bits
are in the byte after. -/
def readLast (data : ByteContainer) (i offset : ℕ) (more : Bool) : Except Stop UInt8 :=
  if more then do .ok (shl (← readByte data i) offset ||| shr (← readByte data (i + 1)) (8 - offset))
  else do .ok (shl (← readByte data i) offset)

/-- `generic_extract`: the bytes it leaves in `dst`, which has room for
`(bitwidth + 7) / 8` of them.

When the bits have to move left, the first byte is masked before the last one
is written, so that a result of one byte is not masked. A result of no byte
is written to all the same. -/
def genericExtract (data : ByteContainer) (bitOffset bitwidth : ℕ) : Except Stop ByteContainer :=
  let nbytes := (bitwidth + 7) / 8
  if bitOffset = 0 ∧ bitwidth % 8 = 0 then readBytes (readByte data) nbytes
  else
    let dstOffset := 8 * nbytes - bitwidth
    if bitOffset = dstOffset then do
      let bytes ← readBytes (readByte data) nbytes
      .ok (maskFirst dstOffset bytes)
    else if dstOffset < bitOffset then do
      let offset := bitOffset - dstOffset
      let bytes ← readBytes (fun i => do
        .ok (shl (← readByte data i) offset ||| shr (← readByte data (i + 1)) (8 - offset)))
        (nbytes - 1)
      let last ← readLast data (nbytes - 1) offset (decide (bitOffset + bitwidth > 8 * nbytes))
      if nbytes = 0 then .error .abort else .ok (maskFirst dstOffset bytes ++ [last])
    else do
      let offset := dstOffset - bitOffset
      let first ← readByte data 0
      let bytes ← readBytes (fun i => do
        .ok (shl (← readByte data i) (8 - offset) ||| shr (← readByte data (i + 1)) offset))
        (nbytes - 1)
      .ok ((shr first offset &&& shr 0xFF dstOffset) :: bytes)

end Parsing

/-! ## Fields -/

namespace Field

open Parsing

/-- `Field::extract`. -/
def extract (f : Field) (data : ByteContainer) (hdrOffset : ℕ) : Except Stop Field := do
  let bytes ← genericExtract data hdrOffset f.nbits
  let f := { f with bytes := bytes }
  .ok (if f.arith then f.syncValue else f)

/-- `Field::extract_VL`. The mask is computed as an `int`, which has too few
bits for most lengths: the shift then is by the count modulo 32, as the
machine does it. Below -14 the new size of the bytes is not one
(`std::length_error`). -/
def extractVL (f : Field) (data : ByteContainer) (hdrOffset : ℕ) (computedNbits : ℤ) :
    Except Stop Field :=
  if computedNbits < -14 then .error .abort
  else if computedNbits < 0 then .error .negativeLength
  else
    extract { f with
      nbits := computedNbits.toNat
      vlMask := some (((1 : Int32) <<< Int32.ofInt computedNbits).toInt - 1) } data hdrOffset

/-- The field that `assign_VL` sets: it has the width of the other one. -/
def resizedTo (f src : Field) : Field :=
  { f with nbits := src.nbits, bytes := List.replicate src.nbytes 0, vlMask := some src.mask }

/-- `Field::assign_VL`, without the new size of its header. The bytes that
`resize` leaves are cleared by `set`. -/
def assignVL (f src : Field) : Option Field := (f.resizedTo src).set src.value

end Field

/-! ## Headers -/

namespace Header

open Parsing

def isVLHeader (h : Header) : Bool := h.fields.any Field.isVL

/-- The copying of one field: `fields` are the fields of the header as they
are by now. -/
def extractField (vlFn : List Field → Except Stop ℤ) (f : Field) (data : ByteContainer)
    (hdrOffset : ℕ) (fields : List Field) : Except Stop Field :=
  if f.isVL then do f.extractVL data hdrOffset (← vlFn fields) else f.extract data hdrOffset

/-- The loop over the fields in `extract` and `extract_VL_common`: `done` are
the fields already copied, and the length of the variable one may be computed
from them. -/
def extractFields (vlFn : List Field → Except Stop ℤ) :
    ByteContainer → ℕ → List Field → List Field → Except Stop (List Field)
  | _, _, done, [] => .ok done
  | data, hdrOffset, done, f :: todo =>
    if f.hidden then .ok (done ++ f :: todo)
    else do
      let f' ← extractField vlFn f data hdrOffset (done ++ f :: todo)
      extractFields vlFn (data.drop ((hdrOffset + f'.nbits) / 8)) ((hdrOffset + f'.nbits) % 8)
        (done ++ [f']) todo

/-- The bits of the fields on the wire. -/
def nbits (h : Header) : ℕ := (h.packetFields.map Field.nbits).sum

/-- `recompute_nbytes_packet`, as `extract_VL_common` does it too. -/
def recomputeNbytesPacket (h : Header) : Except Stop Header :=
  if h.nbits % 8 = 0 then .ok { h with nbytesPacket := h.nbits / 8 } else .error .abort

/-- `Header::extract` of a header of fixed width, without `mark_valid`. -/
def extractFixed (h : Header) (data : ByteContainer) : Except Stop Header := do
  let fields ← extractFields (fun _ => .error .abort) data 0 [] h.fields
  .ok { h with fields := fields }

/-- `extract_VL_common`, without `mark_valid`. -/
def extractVLCommon (vlFn : List Field → Except Stop ℤ) (h : Header) (data : ByteContainer) :
    Except Stop Header := do
  let fields ← extractFields vlFn data 0 [] h.fields
  recomputeNbytesPacket { h with fields := fields }

end Header

end P4Bricks
