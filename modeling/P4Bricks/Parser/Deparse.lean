import P4Bricks.Parser.Model
/-!
# The deparser

The writing half of `extract.h`, `fields.cpp` and `headers.cpp`, the packet
buffer and `deparser.cpp`, and `Parser::parse` as a whole. The destination of
a write is the list of bytes from the place the source's `dst` pointer points
at. What it held before is part of it: the buffer gives back the bytes that
were parsed, and every write of a field keeps some bits.
-/

namespace P4Bricks

namespace Parsing

/-! ## Bytes -/

/-- Write `n` bytes to the front of the destination. -/
def writeBytes (dst : ByteContainer) (n : ℕ) (f : ℕ → UInt8) : Except Stop ByteContainer :=
  if n ≤ dst.length then .ok ((List.range n).map f ++ dst.drop n) else .error .abort

/-- `generic_deparse`. The container it reads has the bytes of its field. -/
def genericDeparse (data : ByteContainer) (bitwidth : ℕ) (dst : ByteContainer) (hdrOffset : ℕ) :
    Except Stop ByteContainer :=
  let nbytes := (bitwidth + 7) / 8
  let udata := fun i => data.getD i 0
  if bitwidth = 0 then .ok dst
  else if data.length < nbytes then .error .abort
  else if hdrOffset = 0 ∧ bitwidth % 8 = 0 then writeBytes dst nbytes udata
  else
    let fieldOffset := 8 * nbytes - bitwidth
    let hdrBytes := (hdrOffset + bitwidth + 7) / 8
    let first := dst.getD 0 0 &&& ~~~shr 0xFF hdrOffset
    if fieldOffset = hdrOffset then
      writeBytes dst hdrBytes fun i => if i = 0 then first ||| udata 0 else udata i
    else if hdrOffset < fieldOffset then
      let offset := fieldOffset - hdrOffset
      writeBytes dst hdrBytes fun i =>
        (if i = 0 then first else 0) |||
          if i + 1 < hdrBytes then shl (udata i) offset ||| shr (udata (i + 1)) (8 - offset)
          else shl (udata i) offset
    else
      let offset := hdrOffset - fieldOffset
      if nbytes = 1 then
        writeBytes dst 2 fun i =>
          if i = 0 then first ||| shr (udata 0) offset else shl (udata 0) (8 - offset)
      else
        let tailOffset := 8 * hdrBytes - (hdrOffset + bitwidth)
        writeBytes dst hdrBytes fun i =>
          if i = 0 then first ||| shr (udata 0) offset
          else if i + 1 < hdrBytes then shl (udata (i - 1)) (8 - offset) ||| shr (udata i) offset
          else (dst.getD i 0 &&& UInt8.ofNat (2 ^ tailOffset - 1)) ||| shl (udata (i - 1)) (8 - offset)

end Parsing

open Parsing

/-- `Field::deparse`. -/
def Field.deparse (f : Field) (dst : ByteContainer) (hdrOffset : ℕ) : Except Stop ByteContainer :=
  genericDeparse f.bytes f.nbits dst hdrOffset

/-- The loop of `Header::deparse`: the bytes passed over are not written
again. -/
def Header.deparseFields : ByteContainer → ℕ → List Field → Except Stop ByteContainer
  | dst, _, [] => .ok dst
  | dst, hdrOffset, f :: fields =>
    if f.hidden then .ok dst
    else do
      let dst ← f.deparse dst hdrOffset
      let rest ← deparseFields (dst.drop ((hdrOffset + f.nbits) / 8))
        ((hdrOffset + f.nbits) % 8) fields
      .ok (dst.take ((hdrOffset + f.nbits) / 8) ++ rest)

/-- `Header::deparse`. -/
def Header.deparse (h : Header) (dst : ByteContainer) : Except Stop ByteContainer :=
  Header.deparseFields dst 0 h.fields

namespace Parsing

/-! ## The packet buffer -/

/-- `PacketBuffer`: the data, and the bytes of the buffer in front of it. -/
structure PacketBuffer where
  room : ByteContainer
  data : ByteContainer
  deriving DecidableEq, Repr

namespace PacketBuffer

def push (b : PacketBuffer) (bytes : ℕ) : Except Stop PacketBuffer :=
  if bytes ≤ b.room.length then
    .ok ⟨b.room.take (b.room.length - bytes), b.room.drop (b.room.length - bytes) ++ b.data⟩
  else .error .abort

def pop (b : PacketBuffer) (bytes : ℕ) : Except Stop PacketBuffer :=
  if bytes ≤ b.data.length then .ok ⟨b.room ++ b.data.take bytes, b.data.drop bytes⟩
  else .error .abort

end PacketBuffer

/-! ## Deparsing -/

/-- `Deparser`: the headers, and the checksums it updates first. -/
structure Deparser where
  headers : List ℕ
  checksums : List (Phv → ByteContainer → Phv)

namespace Deparser

/-- `update_checksums`. -/
def updateChecksums (d : Deparser) (phv : Phv) (payload : ByteContainer) : Phv :=
  d.checksums.foldl (fun phv update => update phv payload) phv

/-- `get_headers_size`. -/
def getHeadersSize (phv : Phv) : List ℕ → Except Stop ℕ
  | [] => .ok 0
  | h :: headers => do
    let hdr ← required phv.headers[h]?
    let rest ← getHeadersSize phv headers
    .ok (if hdr.isValid then hdr.nbytesPacket + rest else rest)

/-- The loop of `deparse`. -/
def deparseHeaders (phv : Phv) : List ℕ → ByteContainer → Except Stop ByteContainer
  | [], dst => .ok dst
  | h :: headers, dst => do
    let hdr ← required phv.headers[h]?
    if hdr.isValid then do
      let dst ← hdr.deparse dst
      let rest ← deparseHeaders phv headers (dst.drop hdr.nbytesPacket)
      .ok (dst.take hdr.nbytesPacket ++ rest)
    else deparseHeaders phv headers dst

/-- `Deparser::deparse`. -/
def deparse (d : Deparser) (phv : Phv) (buffer : PacketBuffer) : Except Stop PacketBuffer := do
  let phv := d.updateChecksums phv buffer.data
  let size ← getHeadersSize phv d.headers
  let buffer ← buffer.push size
  let data ← deparseHeaders phv d.headers buffer.data
  .ok { buffer with data := data }

end Deparser

end Parsing

end P4Bricks
