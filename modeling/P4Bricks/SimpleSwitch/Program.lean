import P4Bricks.SimpleSwitch.Packet
/-!
# The program a simple switch runs

What `simple_switch.cpp` and `primitives.cpp` use of a P4 program: its parser, its
deparser, its field lists and the fields the target knows by name. A pipeline is
the list of the primitives it executes, whatever its tables decided; that of a
packet marked for exit ends early. `none` is a call that does not return: an
assertion fails, or an exception ends the process.
-/

namespace P4Bricks

open Parsing

/-! ## The whole of a parser's run -/

/-- The loop of `Parser::parse`, of which so many steps are taken: the steps
after its end change nothing. An exception of a parser ends it, and what was
extracted stays. -/
def Parsing.Parser.finish (p : Parser) (ctx : Context) (pkt : Parsing.Packet) :
    ℕ → Config → Option Config
  | 0, c =>
    match c.control with
    | .done => some c
    | _ => none
  | n + 1, c =>
    match p.step ctx pkt c with
    | .ok c' => finish p ctx pkt n c'
    | .error (.core _) | .error (.arch _) => some c
    | .error .beyond | .error .abort | .error .negativeLength => none

namespace SimpleSwitch

/-! ## Fields -/

/-- A field: a header, and an offset in it. -/
abbrev FieldRef := ℕ × ℕ

/-- The fields the target knows by name. A program has those it must have;
`none` is a field that it does not have. -/
structure Fields where
  ingressPort : FieldRef
  packetLength : FieldRef
  instanceType : FieldRef
  egressSpec : FieldRef
  cloneSpec : FieldRef
  egressPort : FieldRef
  ingressGlobalTimestamp : Option FieldRef := none
  lfFieldList : Option FieldRef := none
  mcastGrp : Option FieldRef := none
  resubmitFlag : Option FieldRef := none
  egressRid : Option FieldRef := none
  recirculateFlag : Option FieldRef := none
  enqTimestamp : Option FieldRef := none
  enqQdepth : Option FieldRef := none
  deqTimedelta : Option FieldRef := none
  deqQdepth : Option FieldRef := none

/-- `PktInstanceType`. -/
inductive PktInstanceType where
  | normal
  | ingressClone
  | egressClone
  | coalesced
  | recirc
  | replication
  | resubmit
  deriving DecidableEq, Repr

def PktInstanceType.code : PktInstanceType → ℤ
  | normal => 0
  | ingressClone => 1
  | egressClone => 2
  | coalesced => 3
  | recirc => 4
  | replication => 5
  | resubmit => 6

/-- `get_field(dst).set(v)`. -/
def setField (phv : Phv) (dst : FieldRef) (v : ℤ) : Option Phv :=
  ((Phv.Op.set dst v).run phv).toOption

/-- `if (has_field(dst)) get_field(dst).set(v)`. -/
def setIfHas (phv : Phv) (dst : Option FieldRef) (v : ℤ) : Option Phv :=
  match dst with
  | none => some phv
  | some dst => setField phv dst v

/-- The number a field holds, of which only one with `arith` can be read. -/
def getValue (phv : Phv) (src : FieldRef) : Option ℤ := do
  let f ← phv.getField src.1 src.2
  if f.arith then some f.value else none

/-- `FieldList::field_list_member_t`. -/
inductive FieldListMember where
  | field (header offset : ℕ)
  | constant (value : ByteContainer) (bitwidth : ℕ)
  deriving DecidableEq, Repr

/-- `FieldList::copy_fields_between_phvs`. -/
def copyFieldsBetweenPhvs (dst src : Phv) : List FieldListMember → Option Phv
  | [] => some dst
  | .field header offset :: members => do
    let f ← src.getField header offset
    let dst ← setField dst (header, offset) f.value
    copyFieldsBetweenPhvs dst src members
  | .constant .. :: members => copyFieldsBetweenPhvs dst src members

/-! ## Primitives -/

/-- What a pipeline executes on a packet. `other` is a primitive that works on
the header vector alone. -/
inductive Primitive where
  | addHeader (h : ℕ)
  | removeHeader (h : ℕ)
  | truncate (truncatedLength : ℕ)
  | other (op : Phv.Op)

def Primitive.run (p : Packet) : Primitive → Option Packet
  | .addHeader h => do
    let hdr ← p.phv.headers[h]?
    let phv ← (p.phv.addHeader h).toOption
    some (if hdr.isValid then p
      else { p with phv := phv, register := p.register + UInt64.ofNat hdr.nbytesPacket })
  | .removeHeader h => do
    let hdr ← p.phv.headers[h]?
    let phv ← (p.phv.removeHeader h).toOption
    some (if hdr.isValid
      then { p with phv := phv, register := p.register - UInt64.ofNat hdr.nbytesPacket } else p)
  | .truncate length => some (p.truncate length)
  | .other op => do
    let phv ← (op.run p.phv).toOption
    some (p.withPhv phv)

/-- `Pipeline::apply`. -/
def applyAll (p : Packet) : List Primitive → Option Packet
  | [] => some p
  | op :: ops => do applyAll (← op.run p) ops

/-! ## Programs -/

/-- A program. The actions its parser calls and the checksums its deparser
updates change header vectors as primitives do. -/
structure Program where
  factory : PhvFactory
  fields : Fields
  fieldLists : ℤ → Option (List FieldListMember)
  parser : Parser
  deparser : Deparser
  ctx : Context
  /-- The conversion of a number to one of microseconds. -/
  toRep : ℤ → ℤ
  wellFormed : factory.WellFormed
  calls : ∀ st ∈ parser.states, ∀ action, ParserOp.methodCall action ∈ st.parserOps →
    ∀ phv registers phv' registers', factory.Reaches phv →
      action.execute phv registers = some (phv', registers') → factory.Reaches phv'
  updates : ∀ update ∈ deparser.checksums, ∀ phv payload, factory.Reaches phv →
    factory.Reaches (update phv payload)

namespace Program

variable (o : Program)

def getInt (phv : Phv) (src : FieldRef) : Option ℤ := (getValue phv src).map o.ctx.toInt

def getUint (phv : Phv) (src : FieldRef) : Option ℕ := (getValue phv src).map o.ctx.toUint

/-- A field that is read if there is one, and zero otherwise. -/
def getIntIfHas (phv : Phv) (src : Option FieldRef) : Option ℤ :=
  match src with
  | none => some 0
  | some src => o.getInt phv src

def getUintIfHas (phv : Phv) (src : Option FieldRef) : Option ℕ :=
  match src with
  | none => some 0
  | some src => o.getUint phv src

/-- `Parser::parse`. -/
def parse (n : ℕ) (registers : Registers) (p : Packet) : Option Packet := do
  let c ← (o.parser.start p.phv registers).toOption
  let c ← o.parser.finish o.ctx ⟨p.buffer.data, p.ingressLength⟩ n c
  let buffer ← (p.buffer.pop c.bytesParsed).toOption
  some { p with phv := c.phv, buffer := buffer }

/-- `Deparser::deparse`: the checksums are updated in the packet's own header
vector. -/
def deparse (p : Packet) : Option Packet := do
  let buffer ← (o.deparser.deparse p.phv p.buffer).toOption
  some { p with phv := o.deparser.updateChecksums p.phv p.buffer.data, buffer := buffer }

/-- The fields of the list with this id are copied, and the copy is told what it
is. -/
def carry (dst src : Phv) (fieldListId : ℤ) (copyType : PktInstanceType) : Option Phv := do
  let members ← o.fieldLists fieldListId
  let dst ← copyFieldsBetweenPhvs dst src members
  setField dst o.fields.instanceType copyType.code

/-- Whether all of the queueing metadata are there. -/
def hasQueueingMetadata : Bool :=
  o.fields.enqTimestamp.isSome && o.fields.enqQdepth.isSome && o.fields.deqTimedelta.isSome &&
    o.fields.deqQdepth.isSome

end Program

end SimpleSwitch

end P4Bricks
