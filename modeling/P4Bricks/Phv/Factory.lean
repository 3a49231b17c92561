import P4Bricks.Phv.Primitives
/-!
# New header vectors

`PHVFactory::create`, over the descriptions that the program's JSON is read
into, and the layout of a header vector: what no operation changes. The names
of headers and fields are not kept here.
-/

namespace P4Bricks

/-! ## Header types -/

/-- `HeaderType::FInfo`. -/
structure FInfo where
  bitwidth : ℕ
  isSigned : Bool := false
  isSaturating : Bool := false
  isVL : Bool := false
  isHidden : Bool := false
  deriving DecidableEq, Repr

/-- `HeaderType`: the fields it was given. One of them at most is of variable
length, which has no bit to begin with, and a header starts and ends on a
byte; the constructors of the type and of its headers assert so. -/
structure HeaderType where
  id : ℕ
  fieldsInfo : List FInfo
  notHidden : ∀ fi ∈ fieldsInfo, fi.isHidden = false
  oneVL : fieldsInfo.Pairwise fun fi fi' => fi.isVL → ¬fi'.isVL
  vlEmpty : ∀ fi ∈ fieldsInfo, fi.isVL → fi.bitwidth = 0 ∧ fi.isSigned = false
  wholeBytes : (fieldsInfo.map FInfo.bitwidth).sum % 8 = 0
  deriving DecidableEq

/-- A type with one field of `n` bytes. -/
def bytesType (id n : ℕ) : HeaderType where
  id := id
  fieldsInfo := [{ bitwidth := 8 * n }]
  notHidden := by simp
  oneVL := by simp
  vlEmpty := by simp
  wholeBytes := by simp

/-- `PHVFactory::HeaderDesc`. -/
structure HeaderDesc where
  headerType : HeaderType
  arithOffsets : List ℕ
  metadata : Bool
  deriving DecidableEq

/-- `Field::Field`. -/
def Field.ofInfo (arith : Bool) (fi : FInfo) : Field where
  value := 0
  arith := arith
  nbits := fi.bitwidth
  bytes := List.replicate ((fi.bitwidth + 7) / 8) 0
  isSigned := fi.isSigned
  isSaturating := fi.isSaturating
  hidden := fi.isHidden
  vlMask := if fi.isVL then some (2 ^ fi.bitwidth - 1) else none

namespace HeaderType

/-- The `$valid$` field, which the constructor puts at the end. -/
def hiddenInfo : FInfo := ⟨1, false, false, false, true⟩

/-- `fields_info`, with the hidden field. -/
def allFields (t : HeaderType) : List FInfo := t.fieldsInfo ++ [hiddenInfo]

end HeaderType

/-- `Header::Header`. -/
def HeaderDesc.create (desc : HeaderDesc) : Header where
  headerType := desc.headerType.id
  fields := desc.headerType.allFields.mapIdx fun i fi => .ofInfo (decide (i ∈ desc.arithOffsets)) fi
  valid := false
  metadata := desc.metadata
  nbytesPacket := ((desc.headerType.fieldsInfo.map FInfo.bitwidth).sum) / 8
  unionMembership := none

/-! ## Header vectors -/

namespace Phv

/-- The calls of `set_union_membership`, from place `idx` on. -/
def setMemberships (phv : Phv) (u : ℕ) : ℕ → List ℕ → Phv
  | _, [] => phv
  | idx, h :: headers =>
    (phv.modifyHeader h fun hdr => { hdr with unionMembership := some (u, idx) }).setMemberships u
      (idx + 1) headers

/-- `push_back_header_union`. -/
def pushBackHeaderUnion (phv : Phv) (headers : List ℕ) : Phv :=
  setMemberships { phv with headerUnions := phv.headerUnions ++ [⟨headers, false, 0⟩] }
    phv.headerUnions.length 0 headers

end Phv

/-- `PHVFactory`. -/
structure PhvFactory where
  headerDescs : List HeaderDesc
  headerStackDescs : List (List ℕ)
  headerUnionDescs : List (List ℕ)
  headerUnionStackDescs : List (List ℕ)
  deriving DecidableEq

namespace PhvFactory

variable (F : PhvFactory)

/-- The header vector before the unions are made. -/
def createHeaders : Phv where
  headers := F.headerDescs.map HeaderDesc.create
  headerStacks := F.headerStackDescs.map fun headers => ⟨headers, 0⟩
  headerUnions := []
  headerUnionStacks := F.headerUnionStackDescs.map fun unions => ⟨unions, 0⟩

/-- `create`. -/
def create : Phv := F.headerUnionDescs.foldl Phv.pushBackHeaderUnion F.createHeaders

/-- **What a program says of its unions and stacks.** The members of a union
and the elements of a stack are there, and each is an instance of its own; a
stack of headers has elements of one type; neither these nor members of
unions are metadata, and an element of a stack is not a member of a union.
The unions of a stack have members of the same types. -/
structure WellFormed : Prop where
  members : ∀ h ∈ F.headerUnionDescs.flatten, ∃ desc, F.headerDescs[h]? = some desc ∧
    desc.metadata = false
  members_nodup : F.headerUnionDescs.flatten.Nodup
  stack_nodup : ∀ st ∈ F.headerStackDescs, st.Nodup
  stack_headers : ∀ st ∈ F.headerStackDescs, ∃ t, ∀ h ∈ st, h ∉ F.headerUnionDescs.flatten ∧
    ∃ desc, F.headerDescs[h]? = some desc ∧ desc.metadata = false ∧ desc.headerType = t
  union_stack_nodup : ∀ st ∈ F.headerUnionStackDescs, st.Nodup
  union_stack_unions : ∀ st ∈ F.headerUnionStackDescs, ∃ ts, ∀ u ∈ st, ∃ headers,
    F.headerUnionDescs[u]? = some headers ∧
      headers.map (fun h => (F.headerDescs[h]?).map HeaderDesc.headerType) = ts

end PhvFactory

end P4Bricks
