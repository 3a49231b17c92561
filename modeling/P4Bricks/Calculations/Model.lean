import P4Bricks.Parser.Deparse
/-!
# The input of a calculation

`BufBuilder`: the list of fields, constants and headers of a calculation, and the visitor
that deparses them one after the other into the buffer which is hashed. The visitor grows
the buffer to the bytes of the bits it has by now, and each entry is written from the
byte on in which the bits before it end.
-/

namespace P4Bricks

namespace Calculations

open Parsing

/-- `boost::variant<field_t, constant_t, header_t>`. -/
inductive Entry where
  | field (header fieldOffset : ℕ)
  | constant (v : ByteContainer) (nbits : ℕ)
  | header (header : ℕ)
  deriving DecidableEq, Repr

structure BufBuilder where
  entries : List Entry
  withPayload : Bool
  deriving DecidableEq, Repr

/-- `ByteContainer::resize`, with zeros behind what is there. -/
def resize (bytes : ByteContainer) (n : ℕ) : ByteContainer :=
  bytes.take n ++ List.replicate (n - bytes.length) 0

/-- The visitor `BufBuilder::Deparse`. -/
structure Deparse where
  buf : ByteContainer := []
  nbits : ℕ := 0
  deriving DecidableEq, Repr

namespace Deparse

def getOffset (s : Deparse) : ℕ := s.nbits % 8

/-- `extend`, and what its caller writes where the pointer points at. -/
def extend (s : Deparse) (moreBits : ℕ) (write : ByteContainer → Except Stop ByteContainer) :
    Except Stop Deparse := do
  let buf := resize s.buf ((s.nbits + moreBits + 7) / 8)
  let dst ← write (buf.drop (s.nbits / 8))
  .ok ⟨buf.take (s.nbits / 8) ++ dst, s.nbits + moreBits⟩

/-- The three operators of the visitor. -/
def visit (phv : Phv) (s : Deparse) : Entry → Except Stop Deparse
  | .field h fieldOffset => do
    let header ← required phv.headers[h]?
    if header.isValid then do
      let field ← required (header.getField fieldOffset)
      s.extend field.nbits fun dst => field.deparse dst s.getOffset
    else .ok s
  | .constant v nbits => s.extend nbits fun dst => genericDeparse v nbits dst s.getOffset
  | .header h =>
    if s.getOffset ≠ 0 then .error .abort
    else do
      let header ← required phv.headers[h]?
      if header.isValid then s.extend (header.nbytesPacket * 8) header.deparse else .ok s

end Deparse

/-- `BufBuilder::operator()`: `data` is what the packet still has. -/
def BufBuilder.build (b : BufBuilder) (phv : Phv) (data : ByteContainer) :
    Except Stop ByteContainer := do
  let s ← b.entries.foldlM (Deparse.visit phv) {}
  .ok (if b.withPayload then s.buf ++ data else s.buf)

end Calculations

end P4Bricks
