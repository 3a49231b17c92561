import P4Bricks.Parser.Extract
/-!
# The parser

`parser.cpp`, over the header vector. A parse state runs its ops in order,
builds a key from its terms and looks the key up in its cases, which gives
the next state. `Parser.step` is one op, one term of a key or one lookup, so
that a run of `Parser::parse` is a sequence of steps. A step that throws
leaves everything as it was before it: each op makes its checks first.
-/

namespace P4Bricks

/-! ## Headers that keep their size -/

/-- What the constructors of a header and its type assert and arrange: the
fields on the wire fill `nbytes_packet` bytes, one of them at most is of
variable length, and the hidden fields come last, `$valid$` at the end. -/
structure Header.Sized (h : Header) : Prop where
  bytes : h.nbits = 8 * h.nbytesPacket
  oneVL : h.fields.Pairwise fun f g => f.isVL → ¬g.isVL
  hiddenLast : h.fields.Pairwise fun f g => f.hidden → g.hidden
  hiddenFixed : ∀ f ∈ h.fields, f.hidden → ¬f.isVL
  validHidden : ∀ f, h.fields[h.validOffset]? = some f → f.hidden

def Phv.Sized (phv : Phv) : Prop := ∀ h ∈ phv.headers, h.Sized

namespace Parsing

open Expressions

/-- The register arrays. -/
abbrev Registers := ℕ → ℕ → Option Data

/-- What parsing reads besides the packet and its state: the length
expressions of the headers, what earlier evaluations left in the registers of
the expression machine, and the conversions of a big number to the machine's
integers. -/
structure Context where
  vlExpr : ℕ → Option Expression
  temps : List ℤ
  toUint : ℤ → ℕ
  toSize : ℤ → ℕ
  toInt : ℤ → ℤ

/-- A packet as the parser sees it: the bytes in its buffer, and the length
that was recorded when the packet was made. -/
structure Packet where
  data : ByteContainer
  ingressLength : Int32

/-- What the ops of a parser change. -/
structure State where
  phv : Phv
  registers : Registers
  bytesParsed : ℕ

variable (ctx : Context)

/-- `ArithExpression::eval`. -/
def evalArith (e : Expression) (phv : Phv) (registers : Registers) : Except Stop ℤ :=
  required (e.evalArith ⟨phv, [], registers, ctx.toUint, ctx.toSize⟩ ctx.temps)

/-- `BoolExpression::eval`. -/
def evalBool (e : Expression) (phv : Phv) (registers : Registers) : Except Stop Bool :=
  required (e.evalBool ⟨phv, [], registers, ctx.toUint, ctx.toSize⟩ ctx.temps)

/-! ## The length checks -/

/-- `pkt.get_ingress_length() - bytes_parsed`, a `size_t`. -/
def available (pkt : Packet) (bytesParsed : ℕ) : ℕ :=
  ((pkt.ingressLength.toInt - bytesParsed) % 2 ^ 64).toNat

/-- An `int` as a `size_t`. -/
def sizeOfInt (v : ℤ) : ℕ := if 0 ≤ v then v.toNat else (2 ^ 64 + v).toNat

/-- The check all ops make: enough of the packet is left for `n` bytes. -/
def checkEnough (pkt : Packet) (bytesParsed n : ℕ) : Except Stop Unit :=
  if available pkt bytesParsed < n then .error (.core .packetTooShort) else .ok ()

/-- `*bytes_parsed += n`. -/
def State.advance (s : State) (n : ℕ) : State :=
  { s with bytesParsed := (s.bytesParsed + n) % 2 ^ 64 }

/-! ## Looking ahead -/

/-- `ParserLookAhead`. -/
structure ParserLookAhead where
  byteOffset : ℕ
  bitOffset : ℕ
  bitwidth : ℕ
  nbytes : ℕ
  deriving DecidableEq, Repr

/-- `ParserLookAhead::make`. -/
def ParserLookAhead.make (offset bitwidth : ℕ) : ParserLookAhead :=
  ⟨offset / 8, offset % 8, bitwidth, (bitwidth + 7) / 8⟩

/-- `ParserLookAhead::peek`. The address of the first new byte of `res` is
taken before there is one to copy, and `[]` asserts that there is. -/
def ParserLookAhead.peek (l : ParserLookAhead) (data res : ByteContainer) :
    Except Stop ByteContainer :=
  if l.nbytes = 0 then .error .abort
  else do
    let bytes ← genericExtract (data.drop l.byteOffset) l.bitOffset l.bitwidth
    .ok (res ++ bytes)

/-! ## Extracting headers -/

/-- The length a header computes for its variable field: the expression sees
the fields that were copied before. -/
def vlLength (phv : Phv) (registers : Registers) (h : ℕ) (fields : List Field) :
    Except Stop ℤ := do
  let e ← required (ctx.vlExpr h)
  let v ← evalArith ctx e (phv.modifyHeader h fun hdr => { hdr with fields := fields }) registers
  .ok (ctx.toInt v)

/-- `Header::extract`, without `mark_valid`. -/
def extractFieldsOf (phv : Phv) (registers : Registers) (h : ℕ) (hdr : Header)
    (data : ByteContainer) : Except Stop Header :=
  if hdr.isVLHeader then hdr.extractVLCommon (vlLength ctx phv registers h) data
  else hdr.extractFixed data

/-- `Header::extract`. -/
def extractHeader (phv : Phv) (registers : Registers) (h : ℕ) (data : ByteContainer) :
    Except Stop Phv := do
  let hdr ← required phv.headers[h]?
  let hdr' ← extractFieldsOf ctx phv registers h hdr data
  .ok ((phv.modifyHeader h fun _ => hdr').markValid h)

/-- `Header::extract_VL` with a length that is given. -/
def extractHeaderVL (phv : Phv) (h : ℕ) (data : ByteContainer) (nbits : ℤ) :
    Except Stop Phv := do
  let hdr ← required phv.headers[h]?
  let hdr' ← hdr.extractVLCommon (fun _ => .ok nbits) data
  .ok ((phv.modifyHeader h fun _ => hdr').markValid h)

/-- `hdr.get_nbytes_packet()`. -/
def nbytesPacket (phv : Phv) (h : ℕ) : Except Stop ℕ := do
  let hdr ← required phv.headers[h]?
  .ok hdr.nbytesPacket

/-- The check, the extraction and the advance of the ops that extract a header
of its own length. -/
def extractChecked (pkt : Packet) (s : State) (h : ℕ) : Except Stop State := do
  checkEnough pkt s.bytesParsed (← nbytesPacket s.phv h)
  let phv ← extractHeader ctx s.phv s.registers h (pkt.data.drop s.bytesParsed)
  .ok ({ s with phv := phv }.advance (← nbytesPacket phv h))

/-- `stack.push_back()` for a header stack. -/
def pushBackHeader (phv : Phv) (stack : ℕ) : Phv :=
  match phv.headerStacks[stack]?.bind Stack.getNext with
  | none => phv
  | some h =>
    { phv.markValid h with
      headerStacks := phv.headerStacks.modify stack fun st => { st with next := st.next + 1 } }

/-- `union_stack.push_back()`: `mark_valid` of a union does nothing. -/
def pushBackUnion (phv : Phv) (stack : ℕ) : Phv :=
  { phv with
    headerUnionStacks := phv.headerUnionStacks.modify stack fun st =>
      if st.next = st.elements.length then st else { st with next := st.next + 1 } }

/-! ## Ops -/

/-- An action a parser calls: it works on the header vector and the registers,
and keeps the sizes of the headers. -/
structure ActionFn where
  execute : Phv → Registers → Option (Phv × Registers)
  sized : ∀ {phv registers phv' registers'},
    execute phv registers = some (phv', registers') → phv.Sized → phv'.Sized

/-- `ParserOp` and its subclasses. A field is a header and an offset. -/
inductive ParserOp where
  | extract (header : ℕ)
  | extractVL (header : ℕ) (fieldLengthExpr : Expression) (maxHeaderBytes : ℕ)
  | extractStack (headerStack : ℕ)
  | extractUnionStack (headerUnionStack headerOffset : ℕ)
  | setField (dst src : ℕ × ℕ)
  | setData (dst : ℕ × ℕ) (src : Data)
  | setLookahead (dst : ℕ × ℕ) (src : ParserLookAhead)
  | setExpression (dst : ℕ × ℕ) (src : Expression)
  | verify (condition errorExpr : Expression)
  | methodCall (action : ActionFn)
  | shift (shiftBytes : ℕ)

/-- Replace a field. -/
def putField (phv : Phv) (dst : ℕ × ℕ) (f : Field) : Phv :=
  phv.modifyHeader dst.1 fun hdr => { hdr with fields := hdr.fields.modify dst.2 fun _ => f }

/-- `core::assign_VL`: the header of the field gets a new size. -/
def assignVL (phv : Phv) (dst : ℕ × ℕ) (f src : Field) : Except Stop Phv := do
  let phv' := putField phv dst (← required (f.assignVL src))
  let hdr ← required phv'.headers[dst.1]?
  let hdr' ← hdr.recomputeNbytesPacket
  .ok (phv'.modifyHeader dst.1 fun _ => hdr')

namespace ParserOp

/-- `ParserOpExtractVL::operator()`. -/
def runExtractVL (pkt : Packet) (s : State) (header : ℕ) (fieldLengthExpr : Expression)
    (maxHeaderBytes : ℕ) : Except Stop State := do
  let hdr ← required s.phv.headers[header]?
  if !hdr.isVLHeader then .error .abort
  else do
    let nbits := ctx.toInt (← evalArith ctx fieldLengthExpr s.phv s.registers)
    if nbits % 8 ≠ 0 then .error .abort
    else do
      let bytesToExtract := sizeOfInt (hdr.nbytesPacket + nbits / 8)
      checkEnough pkt s.bytesParsed bytesToExtract
      if maxHeaderBytes ≠ 0 ∧ maxHeaderBytes < bytesToExtract then
        .error (.core .headerTooShort)
      else do
        let phv ← extractHeaderVL s.phv header (pkt.data.drop s.bytesParsed) nbits
        .ok ({ s with phv := phv }.advance (← nbytesPacket phv header))

/-- `ParserOpExtractStack::operator()`. -/
def runExtractStack (pkt : Packet) (s : State) (headerStack : ℕ) : Except Stop State := do
  let st ← required s.phv.headerStacks[headerStack]?
  if st.isFull then .error (.core .stackOutOfBounds)
  else do
    let h ← required st.getNext
    let s' ← extractChecked ctx pkt s h
    .ok { s' with phv := pushBackHeader s'.phv headerStack }

/-- `ParserOpExtractUnionStack::operator()`. -/
def runExtractUnionStack (pkt : Packet) (s : State) (headerUnionStack headerOffset : ℕ) :
    Except Stop State := do
  let st ← required s.phv.headerUnionStacks[headerUnionStack]?
  if st.isFull then .error (.core .stackOutOfBounds)
  else do
    let u ← required st.getNext
    let un ← required s.phv.headerUnions[u]?
    let h ← required un.headers[headerOffset]?
    let s' ← extractChecked ctx pkt s h
    .ok { s' with phv := pushBackUnion s'.phv headerUnionStack }

/-- `ParserOpSet<field_t>::operator()`. -/
def runSetField (s : State) (dst src : ℕ × ℕ) : Except Stop State := do
  let f ← required (s.phv.getField dst.1 dst.2)
  let g ← required (s.phv.getField src.1 src.2)
  if f.isVL then
    if g.isVL then do .ok { s with phv := ← assignVL s.phv dst f g } else .error .abort
  else do .ok { s with phv := putField s.phv dst (← required (f.set g.value)) }

/-- `ParserOpSet<ParserLookAhead>::operator()`. -/
def runSetLookahead (pkt : Packet) (s : State) (dst : ℕ × ℕ) (src : ParserLookAhead) :
    Except Stop State := do
  checkEnough pkt s.bytesParsed src.nbytes
  let f ← required (s.phv.getField dst.1 dst.2)
  let data := pkt.data.drop s.bytesParsed
  if src.bitwidth = f.nbits then do
    let f' ← f.extract (data.drop src.byteOffset) src.bitOffset
    .ok { s with phv := putField s.phv dst f' }
  else do
    let bc ← src.peek data []
    .ok { s with phv := putField s.phv dst (← required (f.set (bytesVal bc))) }

/-- `ParserOpSet<ArithExpression>::operator()`. -/
def runSetExpression (s : State) (dst : ℕ × ℕ) (src : Expression) : Except Stop State := do
  let f ← required (s.phv.getField dst.1 dst.2)
  let v ← evalArith ctx src s.phv s.registers
  .ok { s with phv := putField s.phv dst (← required (f.set v)) }

/-- `ParserOpVerify::operator()`. -/
def runVerify (s : State) (condition errorExpr : Expression) : Except Stop State := do
  if ← evalBool ctx condition s.phv s.registers then .ok s
  else do
    let v ← evalArith ctx errorExpr s.phv s.registers
    .error (.arch (ctx.toInt v))

/-- `ParserOp::operator()`. -/
def run (pkt : Packet) (s : State) : ParserOp → Except Stop State
  | .extract header => extractChecked ctx pkt s header
  | .extractVL header e maxBytes => runExtractVL ctx pkt s header e maxBytes
  | .extractStack headerStack => runExtractStack ctx pkt s headerStack
  | .extractUnionStack headerUnionStack headerOffset =>
    runExtractUnionStack ctx pkt s headerUnionStack headerOffset
  | .setField dst src => runSetField s dst src
  | .setData dst src => do
    let f ← required (s.phv.getField dst.1 dst.2)
    .ok { s with phv := putField s.phv dst (← required (f.set src.value)) }
  | .setLookahead dst src => runSetLookahead pkt s dst src
  | .setExpression dst src => runSetExpression ctx s dst src
  | .verify condition errorExpr => runVerify ctx s condition errorExpr
  | .methodCall action => do
    let (phv, registers) ← required (action.execute s.phv s.registers)
    .ok { s with phv := phv, registers := registers }
  | .shift shiftBytes => do
    checkEnough pkt s.bytesParsed shiftBytes
    .ok (s.advance shiftBytes)

end ParserOp

/-! ## Keys and cases -/

/-- `ParseSwitchKeyBuilder::Entry`. -/
inductive KeyEntry where
  | field (header offset : ℕ)
  | stackField (headerStack offset : ℕ)
  | unionStackField (headerUnionStack headerOffset offset : ℕ)
  | lookahead (l : ParserLookAhead)

/-- The bytes of a field, for a key. -/
def fieldBytes (phv : Phv) (header offset : ℕ) : Except Stop ByteContainer := do
  let f ← required (phv.getField header offset)
  .ok f.bytes

/-- One round of `ParseSwitchKeyBuilder::operator()`. -/
def KeyEntry.append (phv : Phv) (data key : ByteContainer) : KeyEntry → Except Stop ByteContainer
  | .field header offset => do .ok (key ++ (← fieldBytes phv header offset))
  | .stackField headerStack offset => do
    let st ← required phv.headerStacks[headerStack]?
    let h ← required st.getLast
    .ok (key ++ (← fieldBytes phv h offset))
  | .unionStackField headerUnionStack headerOffset offset => do
    let st ← required phv.headerUnionStacks[headerUnionStack]?
    let u ← required st.getLast
    let un ← required phv.headerUnions[u]?
    let h ← required un.headers[headerOffset]?
    .ok (key ++ (← fieldBytes phv h offset))
  | .lookahead l => l.peek data key

/-- The shadow of a value set that a case holds: the values in it, padded to
the key's layout and masked. -/
structure VSetShadow where
  set : List ByteContainer
  mask : Option ByteContainer
  width : ℕ

/-- `ParseVSetCommon::contains`. -/
def VSetShadow.contains (vs : VSetShadow) (v : ByteContainer) : Except Stop Bool :=
  match vs.mask with
  | none => if v.length = vs.width then .ok (vs.set.contains v) else .error .abort
  | some mask =>
    if v.length ≤ mask.length ∧ v.length = vs.width then
      .ok (vs.set.contains (List.zipWith (· &&& ·) v mask))
    else .error .abort

/-- The loop of `ParseSwitchCaseWithMask::match`. -/
def matchMasked : (key mask input : ByteContainer) → Except Stop Bool
  | [], _, _ => .ok true
  | k :: key, m :: mask, b :: input =>
    if k = b &&& m then matchMasked key mask input else .ok false
  | _, _, _ => .error .abort

/-- `ParseSwitchCaseIface` and its subclasses: no next state ends the
parsing. -/
inductive SwitchCase where
  | exact (key : ByteContainer) (next : Option ℕ)
  | withMask (key mask : ByteContainer) (next : Option ℕ)
  | vset (shadow : VSetShadow) (next : Option ℕ)

namespace SwitchCase

def next : SwitchCase → Option ℕ
  | .exact _ n | .withMask _ _ n | .vset _ n => n

/-- `match`. -/
def isMatch (input : ByteContainer) : SwitchCase → Except Stop Bool
  | .exact key _ => .ok (key == input)
  | .withMask key mask _ => matchMasked key mask input
  | .vset shadow _ => shadow.contains input

end SwitchCase

/-- Try the matches in order. -/
def findCase (key : ByteContainer) (default : Option ℕ) :
    List SwitchCase → Except Stop (Option ℕ)
  | [] => .ok default
  | c :: cases => do
    if ← c.isMatch key then .ok c.next else findCase key default cases

/-! ## Parse states and runs -/

/-- `ParseState`. It has a switch when it has a key builder. -/
structure ParseState where
  parserOps : List ParserOp
  keyBuilder : Option (List KeyEntry)
  parserSwitch : List SwitchCase
  defaultNextState : Option ℕ

/-- `Parser`. -/
structure Parser where
  states : List ParseState
  initState : Option ℕ

/-- Where a run is: in the ops of a state, in its key, or at the end. -/
inductive Control where
  | ops (st : ParseState) (todo : List ParserOp)
  | key (st : ParseState) (todo : List KeyEntry) (key : ByteContainer)
  | done

structure Config extends State where
  control : Control

namespace Parser

variable (p : Parser)

/-- Go to a state. -/
def enter (next : Option ℕ) : Except Stop Control :=
  match next with
  | none => .ok .done
  | some i => do
    let st ← required p.states[i]?
    .ok (.ops st st.parserOps)

/-- One step of the loop in `Parser::parse`. -/
def step (pkt : Packet) (c : Config) : Except Stop Config :=
  match c.control with
  | .ops st (op :: todo) => do
    let s ← op.run ctx pkt c.toState
    .ok ⟨s, .ops st todo⟩
  | .ops st [] =>
    match st.keyBuilder with
    | none => do .ok { c with control := ← p.enter st.defaultNextState }
    | some entries => .ok { c with control := .key st entries [] }
  | .key st (e :: todo) key => do
    let key ← e.append c.phv (pkt.data.drop c.bytesParsed) key
    .ok { c with control := .key st todo key }
  | .key st [] key => do
    let next ← findCase key st.defaultNextState st.parserSwitch
    .ok { c with control := ← p.enter next }
  | .done => .ok c

/-- The start of `Parser::parse`. -/
def start (phv : Phv) (registers : Registers) : Except Stop Config := do
  .ok ⟨⟨phv, registers, 0⟩, ← p.enter p.initState⟩

end Parser

end Parsing

end P4Bricks
