import P4Bricks.Parser.Extract
/-!
# Operations on the header vector

`headers.cpp`, `header_unions.h`, `stacks.cpp`, `phv.cpp` and
`core/primitives.cpp`: what changes a header vector besides the copying of
packet bytes. An operation that asserts, or that follows a reference to what
is not there, stops with `Stop.abort`.
-/

namespace P4Bricks

open Parsing

/-! ## Fields -/

namespace Field

/-- `swap_values`: the length changes hands in a field of variable length
only. The two are fields of one header type, so that both are or neither is. -/
def swapValues (f other : Field) : Except Stop (Field × Field) :=
  if f.isVL then
    if other.isVL ∧ f.isSigned = other.isSigned ∧ f.isSaturating = other.isSaturating then
      .ok ({ f with
              value := other.value, bytes := other.bytes, nbits := other.nbits
              vlMask := other.vlMask },
            { other with
              value := f.value, bytes := f.bytes, nbits := f.nbits, vlMask := f.vlMask })
    else .error .abort
  else
    .ok ({ f with value := other.value, bytes := other.bytes },
      { other with value := f.value, bytes := f.bytes })

/-- `copy_value`. -/
def copyValue (f src : Field) : Field :=
  { f with
    value := src.value
    bytes := src.bytes
    nbits := if f.isVL then src.nbits else f.nbits
    vlMask := f.vlMask.map fun _ => src.mask }

/-- `reset_VL`: the bytes are left, and the mask is that of one bit. -/
def resetVL (f : Field) : Field := { f with nbits := 0, vlMask := some 1 }

end Field

/-! ## Headers -/

namespace Header

/-- `reset`: every field has room for zero. -/
def reset (h : Header) : Header := { h with fields := h.fields.map (·.put 0) }

/-- `reset_VL_header`: the header loses the bytes of its variable field. -/
def resetVLHeader (h : Header) : Header :=
  match h.fields.find? Field.isVL with
  | none => h
  | some f =>
    { h with
      nbytesPacket := h.nbytesPacket - f.nbytes
      fields := h.fields.map fun f => if f.isVL then f.resetVL else f }

/-- The loop of `swap_values`, over as many fields as the first has. -/
def swapFields : List Field → List Field → Except Stop (List Field × List Field)
  | [], others => .ok ([], others)
  | _ :: _, [] => .error .abort
  | f :: fields, g :: others => do
    let (f, g) ← f.swapValues g
    let (fields, others) ← swapFields fields others
    .ok (f :: fields, g :: others)

/-- `swap_values`. -/
def swapValues (h other : Header) : Except Stop (Header × Header) := do
  let (fields, others) ← swapFields h.fields other.fields
  .ok ({ h with fields := fields, valid := other.valid, nbytesPacket := other.nbytesPacket },
    { other with fields := others, valid := h.valid, nbytesPacket := h.nbytesPacket })

/-- The loop of `copy_fields`. -/
def copyFieldsFrom : List Field → List Field → Except Stop (List Field)
  | [], _ => .ok []
  | _ :: _, [] => .error .abort
  | f :: fields, g :: src => do
    let fields ← copyFieldsFrom fields src
    .ok (f.copyValue g :: fields)

/-- `copy_fields`. -/
def copyFields (h src : Header) : Except Stop Header := do
  let fields ← copyFieldsFrom h.fields src.fields
  .ok { h with fields := fields, nbytesPacket := src.nbytesPacket }

/-- The body of the loop of `PHV::copy_headers`. -/
def copyFrom (h src : Header) : Except Stop Header :=
  if src.valid || src.metadata then
    { h with valid := src.valid, metadata := src.metadata }.copyFields src
  else .ok { h with valid := src.valid, metadata := src.metadata }

/-- The loop of `assign_header`. -/
def assignFields : List Field → List Field → Except Stop (List Field)
  | [], _ => .ok []
  | _ :: _, [] => .error .abort
  | f :: fields, g :: src => do
    let f ← required (if f.isVL then f.assignVL g else f.set g.value)
    let fields ← assignFields fields src
    .ok (f :: fields)

/-- The assignments of `assign_header`: one to a field of variable length has
the header measured again. -/
def assignFrom (h src : Header) : Except Stop Header :=
  if h.headerType ≠ src.headerType then .error .abort
  else do
    let fields ← assignFields h.fields src.fields
    let h := { h with fields := fields }
    if h.isVLHeader then h.recomputeNbytesPacket else .ok h

end Header

/-! ## Header vectors -/

namespace Phv

/-- `h.swap_values(other)`. -/
def swapHeaders (phv : Phv) (h other : ℕ) : Except Stop Phv := do
  let hdr ← required phv.headers[h]?
  let hdr' ← required phv.headers[other]?
  let (hdr, hdr') ← hdr.swapValues hdr'
  .ok { phv with headers := (phv.headers.set h hdr).set other hdr' }

/-- The loop of `HeaderUnion::swap_values`. -/
def swapMembers (phv : Phv) : List ℕ → List ℕ → Except Stop Phv
  | [], _ => .ok phv
  | _ :: _, [] => .error .abort
  | h :: headers, h' :: headers' => do (← phv.swapHeaders h h').swapMembers headers headers'

/-- `u.swap_values(other)` for unions. -/
def swapUnions (phv : Phv) (u other : ℕ) : Except Stop Phv := do
  let un ← required phv.headerUnions[u]?
  let un' ← required phv.headerUnions[other]?
  if un.headers.length ≠ un'.headers.length then .error .abort
  else
    swapMembers
      { phv with
        headerUnions :=
          (phv.headerUnions.set u
            { un with valid := un'.valid, validHeaderIdx := un'.validHeaderIdx }).set other
            { un' with valid := un.valid, validHeaderIdx := un.validHeaderIdx } }
      un.headers un'.headers

/-- `reset`. -/
def reset (phv : Phv) : Phv :=
  (List.range phv.headers.length).foldl
    (fun phv h => (phv.markInvalid h).modifyHeader h Header.resetVLHeader) phv

/-- `reset_header_stacks`. -/
def resetHeaderStacks (phv : Phv) : Phv :=
  { phv with
    headerStacks := phv.headerStacks.map fun st => { st with next := 0 }
    headerUnionStacks := phv.headerUnionStacks.map fun st => { st with next := 0 } }

/-- `reset_metadata`. -/
def resetMetadata (phv : Phv) : Phv :=
  { phv with headers := phv.headers.map fun h => if h.metadata then h.reset else h }

/-- The loop of `copy_headers`. -/
def copyHeaderList : List Header → List Header → Except Stop (List Header)
  | [], _ => .ok []
  | _ :: _, [] => .error .abort
  | h :: headers, g :: src => do
    let h ← h.copyFrom g
    let headers ← copyHeaderList headers src
    .ok (h :: headers)

/-- `copy_headers`. -/
def copyHeaders (phv src : Phv) : Except Stop Phv := do
  let headers ← copyHeaderList phv.headers src.headers
  .ok { phv with headers := headers }

/-! ## Primitives -/

/-- `assign_header`: what is assigned is read after `mark_valid`, which may
have made the source invalid. -/
def assignHeader (phv : Phv) (dst src : ℕ) : Except Stop Phv := do
  let hdr ← required phv.headers[src]?
  let _ ← required phv.headers[dst]?
  if !hdr.isValid then .ok (phv.markInvalid dst)
  else do
    let phv := phv.markValid dst
    let hdr ← required phv.headers[src]?
    let hdr' ← required phv.headers[dst]?
    let hdr' ← hdr'.assignFrom hdr
    .ok (phv.modifyHeader dst fun _ => hdr')

/-- The loop of `assign_union`. -/
def assignMembers (phv : Phv) : List ℕ → List ℕ → Except Stop Phv
  | [], _ => .ok phv
  | _ :: _, [] => .error .abort
  | h :: headers, h' :: headers' => do (← phv.assignHeader h h').assignMembers headers headers'

/-- `assign_union`. -/
def assignUnion (phv : Phv) (dst src : ℕ) : Except Stop Phv := do
  let un ← required phv.headerUnions[dst]?
  let un' ← required phv.headerUnions[src]?
  if un.headers.length ≠ un'.headers.length then .error .abort
  else phv.assignMembers un.headers un'.headers

/-- `add_header`. -/
def addHeader (phv : Phv) (h : ℕ) : Except Stop Phv := do
  let hdr ← required phv.headers[h]?
  if hdr.isValid then .ok phv else .ok ((phv.modifyHeader h Header.reset).markValid h)

/-- `remove_header`. -/
def removeHeader (phv : Phv) (h : ℕ) : Except Stop Phv := do
  let hdr ← required phv.headers[h]?
  if hdr.isValid then .ok (phv.markInvalid h) else .ok phv

end Phv

/-! ## Stacks -/

namespace Stack

/-- `T` in `Stack<T>`. -/
inductive Kind where
  | header
  | headerUnion
  deriving DecidableEq, Repr

namespace Kind

/-- The stacks of a kind. -/
def stacksOf : Kind → Phv → List Stack
  | header, phv => phv.headerStacks
  | headerUnion, phv => phv.headerUnionStacks

/-- `next = n`. -/
def setNext (phv : Phv) (s n : ℕ) : Kind → Phv
  | header => { phv with headerStacks := phv.headerStacks.modify s fun st => { st with next := n } }
  | headerUnion =>
    { phv with headerUnionStacks := phv.headerUnionStacks.modify s fun st => { st with next := n } }

/-- `swap_values`. -/
def swapValues (phv : Phv) (e other : ℕ) : Kind → Except Stop Phv
  | header => phv.swapHeaders e other
  | headerUnion => phv.swapUnions e other

/-- `mark_valid`: that of a union does nothing, on purpose. -/
def markValid (phv : Phv) (e : ℕ) : Kind → Phv
  | header => phv.markValid e
  | headerUnion => phv

/-- `mark_invalid`. -/
def markInvalid (phv : Phv) (e : ℕ) : Kind → Phv
  | header => phv.markInvalid e
  | headerUnion => phv

end Kind

variable (k : Kind) (elements : List ℕ)

/-- `elements[i].get().swap_values(&elements[j].get())`. -/
def swapAt (i j : ℕ) (phv : Phv) : Except Stop Phv := do
  let e ← required elements[i]?
  let e' ← required elements[j]?
  k.swapValues phv e e'

/-- The loop of `pop_front`: element `i` is exchanged with element `i + num`,
for `i` from `0` on. -/
def shiftUp (num : ℕ) : ℕ → Phv → Except Stop Phv
  | 0, phv => .ok phv
  | i + 1, phv => do
    let phv ← shiftUp num i phv
    swapAt k elements i (i + num) phv

/-- The loop of `push_front`: element `i` is exchanged with element `i - num`,
for `i` down to `num`. -/
def shiftDown (num : ℕ) : ℕ → Phv → Except Stop Phv
  | 0, phv => .ok phv
  | i + 1, phv =>
    if i + 1 > num - 1 then do
      let phv ← swapAt k elements (i + 1) (i + 1 - num) phv
      shiftDown num i phv
    else .ok phv

/-- `for (i = first; i < first + n; i++) mark(elements[i])`. -/
def markFrom (mark : Phv → ℕ → Phv) (first : ℕ) : ℕ → Phv → Except Stop Phv
  | 0, phv => .ok phv
  | n + 1, phv => do
    let phv ← markFrom mark first n phv
    let e ← required elements[first + n]?
    .ok (mark phv e)

/-- The operations on a stack return how many elements came or went. -/
abbrev Result := Except Stop (Phv × ℕ)

variable (phv : Phv) (s : ℕ)

/-- `pop_front()`. -/
def popFront : Result := do
  let st ← required (k.stacksOf phv)[s]?
  if st.next = 0 then .ok (phv, 0)
  else do
    let next := st.next - 1
    let phv ← shiftUp k st.elements 1 next (k.setNext phv s next)
    let e ← required st.elements[next]?
    .ok (k.markInvalid phv e, 1)

/-- `pop_front(num)`. -/
def popFrontN (num : ℕ) : Result := do
  let st ← required (k.stacksOf phv)[s]?
  if num = 0 then .ok (phv, 0)
  else do
    let popped := min st.next num
    let next := st.next - popped
    let phv ← shiftUp k st.elements num next (k.setNext phv s next)
    let phv ← markFrom st.elements (fun phv e => k.markInvalid phv e) next popped phv
    .ok (phv, popped)

/-- `push_front()`: with no element at all, `next - 1` is the largest
`size_t`. -/
def pushFront : Result := do
  let st ← required (k.stacksOf phv)[s]?
  let next := if st.next < st.elements.length then st.next + 1 else st.next
  let phv ← shiftDown k st.elements 1 ((next + 2 ^ 64 - 1) % 2 ^ 64) (k.setNext phv s next)
  let e ← required st.elements[0]?
  .ok (k.markValid phv e, 1)

/-- `push_front(num)`: the sum is one of two `size_t`. -/
def pushFrontN (num : ℕ) : Result := do
  let st ← required (k.stacksOf phv)[s]?
  if num = 0 then .ok (phv, 0)
  else do
    let next := min st.elements.length ((st.next + num) % 2 ^ 64)
    let phv ← shiftDown k st.elements num ((next + 2 ^ 64 - 1) % 2 ^ 64) (k.setNext phv s next)
    let pushed := min st.elements.length num
    let phv ← markFrom st.elements (fun phv e => k.markValid phv e) 0 pushed phv
    .ok (phv, pushed)

/-- `pop_back()`. -/
def popBack : Result := do
  let st ← required (k.stacksOf phv)[s]?
  if st.next = 0 then .ok (phv, 0)
  else do
    let e ← required st.elements[st.next - 1]?
    .ok (k.markInvalid (k.setNext phv s (st.next - 1)) e, 1)

/-- `push_back()`. -/
def pushBack : Result := do
  let st ← required (k.stacksOf phv)[s]?
  if st.next = st.elements.length then .ok (phv, 0)
  else do
    let e ← required st.elements[st.next]?
    .ok (k.setNext (k.markValid phv e) s (st.next + 1), 1)

end Stack

end P4Bricks
