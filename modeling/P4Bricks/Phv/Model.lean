import Mathlib.Data.Int.Bitwise
import P4Bricks.Common.Bits
/-!
# The packet header vector

`data.h`, `fields.h`, `headers.cpp`, `header_unions.h`, `stacks.cpp` and
`phv.h`. A header, a stack or a union is referred to by its index in the
vector of its kind, as the source's references are. A stack or a union holds
the indices of its elements.

A field keeps its value twice: as bytes, right-aligned and big-endian, which
the parser fills and the deparser reads, and as a number, which arithmetic
uses and which is kept only when `arith` is set.
-/

namespace P4Bricks

/-- `Data`: a number, and whether arithmetic may use it. -/
structure Data where
  value : ℤ
  arith : Bool := true
  deriving DecidableEq, Repr

/-! ## Fields -/

/-- `Field`. -/
structure Field extends Data where
  nbits : ℕ
  bytes : ByteContainer
  isSigned : Bool := false
  isSaturating : Bool := false
  hidden : Bool := false
  /-- The stored mask of a field of variable length: it is set with the length,
  which need not make it `2 ^ nbits - 1`. -/
  vlMask : Option ℤ := none
  deriving DecidableEq, Repr

namespace Field

def isVL (f : Field) : Bool := f.vlMask.isSome

def nbytes (f : Field) : ℕ := (f.nbits + 7) / 8

def mask (f : Field) : ℤ := f.vlMask.getD (2 ^ f.nbits - 1)

def max (f : Field) : ℤ := if f.isSigned then 2 ^ (f.nbits - 1) - 1 else f.mask

def min (f : Field) : ℤ := if f.isSigned then -2 ^ (f.nbits - 1) else 0

/-- A new field of `nbits` bits. -/
def create (nbits : ℕ) (hidden : Bool) : Field where
  value := 0
  nbits := nbits
  bytes := List.replicate ((nbits + 7) / 8) 0
  hidden := hidden

/-- The clamping at the start of `export_bytes`. -/
def saturate (f : Field) (v : ℤ) : ℤ :=
  if f.isSaturating then if v < f.min then f.min else if v > f.max then f.max else v else v

/-- The value `export_bytes` leaves in the field. -/
def wrap (f : Field) (v : ℤ) : ℤ :=
  let v := f.saturate v
  if f.isSigned then
    if v < f.min ∨ v > f.mask then
      let w := v % 2 ^ f.nbits
      if w > f.max then w - (f.mask + 1) else w
    else v
  else if f.isVL then Int.land v f.mask
  else v % 2 ^ f.nbits

/-- The number whose bytes `export_bytes` writes: `mpz_export` does not look at
the sign. -/
def written (f : Field) (v : ℤ) : ℕ := (if 0 ≤ v then v else v - f.min - f.min).natAbs

/-- The bytes behind those of the number: a field of variable length that was
emptied keeps as many as it had. -/
def spare (f : Field) : ℕ := if f.isVL then f.bytes.length - f.nbytes else 0

theorem spare_of_fixed {f : Field} (h : ¬f.isVL) : f.spare = 0 := if_neg h

/-- The field after `export_bytes`: its value is in range, and its bytes are
cleared and written. -/
def exported (f : Field) : Field :=
  let v := f.wrap f.value
  { f with
    value := v
    bytes := natBytes f.nbytes (f.written v) ++ List.replicate f.spare 0 }

/-- `export_bytes`. A number that has more bytes than the field does not
return: `mpz_export` divides by the size it is given, which is zero in a field
of no bits, and writes beyond the bytes of another one. -/
def exportBytes (f : Field) : Option Field :=
  if f.written (f.wrap f.value) < 256 ^ f.nbytes then some f.exported else none

/-- The field after `set`. -/
def put (f : Field) (v : ℤ) : Field := exported { f with value := v }

/-- `set`. -/
def set (f : Field) (v : ℤ) : Option Field := exportBytes { f with value := v }

theorem eq_put_of_set {f g : Field} {v : ℤ} (h : f.set v = some g) : g = f.put v := by
  unfold set exportBytes at h
  split at h
  · exact (Option.some.inj h).symm
  · cases h

/-- `sync_value`: read the number back from the bytes. -/
def syncValue (f : Field) : Field :=
  let v : ℤ := bytesVal f.bytes
  { f with
    value := if f.isSigned ∧ v.toNat.testBit (f.nbits - 1) then v - 2 ^ (f.nbits - 1) + f.min else v }

end Field

/-! ## Headers, stacks and unions -/

/-- `Header`. The last field is the hidden `$valid$`. -/
structure Header where
  headerType : ℕ
  fields : List Field
  valid : Bool
  metadata : Bool
  nbytesPacket : ℕ
  /-- The union this header is in, and its place there. -/
  unionMembership : Option (ℕ × ℕ)
  deriving DecidableEq, Repr

namespace Header

def isValid (h : Header) : Bool := h.metadata || h.valid

def getField (h : Header) (offset : ℕ) : Option Field := h.fields[offset]?

/-- The fields that are on the wire: all hidden fields are at the end. -/
def packetFields (h : Header) : List Field := h.fields.takeWhile fun f => !f.hidden

/-- The offset of `$valid$`. -/
def validOffset (h : Header) : ℕ := h.fields.length - 1

/-- Set the flag and the hidden field, in which both values have room. -/
def setValid (h : Header) (b : Bool) : Header :=
  { h with
    valid := b
    fields := h.fields.modify h.validOffset fun f => f.put (if b then 1 else 0) }

/-- `fields == other.fields`. Comparing a field without `arith` is an
assertion failure. -/
def fieldsEq : List Field → List Field → Option Bool
  | [], [] => some true
  | f :: fs, g :: gs =>
    if f.arith && g.arith then
      if f.value = g.value then fieldsEq fs gs else some false
    else none
  | _, _ => some false

def cmp (h other : Header) : Option Bool :=
  if h.headerType = other.headerType ∧ h.isValid ∧ other.isValid then
    fieldsEq h.fields other.fields
  else some false

end Header

/-- `Stack<T>`: the indices of its elements, and the first empty place. -/
structure Stack where
  elements : List ℕ
  next : ℕ
  deriving DecidableEq, Repr

namespace Stack

def getCount (s : Stack) : ℕ := s.next

def isFull (s : Stack) : Bool := s.elements.length ≤ s.next

def getLast (s : Stack) : Option ℕ := if 0 < s.next then s.elements[s.next - 1]? else none

def getNext (s : Stack) : Option ℕ := s.elements[s.next]?

def elementAt (s : Stack) (idx : ℕ) : Option ℕ := s.elements[idx]?

end Stack

/-- `HeaderUnion`. -/
structure HeaderUnion where
  headers : List ℕ
  valid : Bool
  validHeaderIdx : ℕ
  deriving DecidableEq, Repr

/-- `PHV`. -/
structure Phv where
  headers : List Header
  headerStacks : List Stack
  headerUnions : List HeaderUnion
  headerUnionStacks : List Stack
  deriving DecidableEq, Repr

namespace Phv

def modifyHeader (phv : Phv) (h : ℕ) (f : Header → Header) : Phv :=
  { phv with headers := phv.headers.modify h f }

def modifyUnion (phv : Phv) (u : ℕ) (f : HeaderUnion → HeaderUnion) : Phv :=
  { phv with headerUnions := phv.headerUnions.modify u f }

def getField (phv : Phv) (h offset : ℕ) : Option Field :=
  phv.headers[h]?.bind fun hdr => hdr.getField offset

/-- `HeaderUnion::cmp`. -/
def cmpUnion (phv : Phv) (u v : HeaderUnion) : Option Bool :=
  if u.valid ∧ v.valid ∧ u.validHeaderIdx = v.validHeaderIdx then do
    let h ← phv.headers[← u.headers[u.validHeaderIdx]?]?
    let h' ← phv.headers[← v.headers[v.validHeaderIdx]?]?
    h.cmp h'
  else some false

/-- `Header::mark_invalid`: a header that was the valid one of its union
leaves the union without. -/
def markInvalid (phv : Phv) (h : ℕ) : Phv :=
  let phv' := phv.modifyHeader h (·.setValid false)
  match phv.headers[h]?.bind Header.unionMembership with
  | none => phv'
  | some (u, idx) =>
    phv'.modifyUnion u fun un =>
      if un.valid ∧ un.validHeaderIdx = idx then { un with valid := false } else un

/-- `HeaderUnion::make_header_valid`: the header that was valid no longer
is. -/
def makeHeaderValid (phv : Phv) (u idx : ℕ) : Phv :=
  match phv.headerUnions[u]? with
  | none => phv
  | some un =>
    let phv' :=
      if un.valid ∧ un.validHeaderIdx ≠ idx then
        match un.headers[un.validHeaderIdx]? with
        | none => phv
        | some h => phv.markInvalid h
      else phv
    phv'.modifyUnion u fun un => { un with valid := true, validHeaderIdx := idx }

/-- `Header::mark_valid`. -/
def markValid (phv : Phv) (h : ℕ) : Phv :=
  let phv' := phv.modifyHeader h (·.setValid true)
  match phv.headers[h]?.bind Header.unionMembership with
  | none => phv'
  | some (u, idx) => phv'.makeHeaderValid u idx

end Phv

end P4Bricks
