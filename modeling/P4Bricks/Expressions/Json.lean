import P4Bricks.Expressions.Arith
/-!
# Expressions in the program's JSON

`P4Objects::build_expression`. A JSON value is walked once, and each part appends its ops. On
the way a type is handed up, which picks the op of an equality, and arithmetic is enabled for
the fields that are loaded. A name stands for what it refers to, and a string of hex digits for
its number.
-/

namespace P4Bricks

namespace Expressions

/-- The names of the operators. -/
inductive ExprOp where
  | ternary
  | eq | neq
  | accessField
  | accessUnionHeader
  | add | sub | mod | div | mul | shiftLeft | shiftRight
  | gt | lt | get | let
  | and | or | not
  | bitAnd | bitOr | bitXor | bitNeg
  | valid | validUnion
  | twoCompMod | d2b | b2d
  | dereferenceStack | dereferenceHeaderStack | dereferenceUnionStack
  | lastStackIndex | sizeStack
  deriving DecidableEq, Repr

/-- The JSON values that occur in an expression. An attribute that is missing is null. -/
inductive JsonExpr where
  | null
  | int (value : ℕ)
  | header (header : ℕ)
  | field (header offset : ℕ)
  | bool (value : Bool)
  | hexstr (d : Data)
  | loc (offset : ℕ)
  | register (array : ℕ) (index : JsonExpr)
  | headerStack (stack : ℕ)
  | stackField (stack offset : ℕ)
  | headerUnion (union : ℕ)
  | headerUnionStack (stack : ℕ)
  | expression (op : ExprOp) (left right cond : JsonExpr)
  deriving Repr

/-- `P4Objects::ExprType`. -/
inductive ExprType where
  | unknown | data | header | headerStack | bool | union | unionStack
  deriving DecidableEq, Repr

/-- How a load stops. -/
inductive BuildError where
  | assertion
  | exception
  deriving DecidableEq, Repr

/-- `ExprOpcodesMap::get_opcode`, as the op that `push_back_op` appends. -/
def getOpcode : ExprOp → Op
  | .ternary => .ternaryOp
  | .eq => .cmpData .eq
  | .neq => .cmpData .neq
  | .accessField => .accessField 0
  | .accessUnionHeader => .accessUnionHeader 0
  | .add => .arith .add 0
  | .sub => .arith .sub 0
  | .mod => .arith .mod 0
  | .div => .arith .div 0
  | .mul => .arith .mul 0
  | .shiftLeft => .arith .shiftLeft 0
  | .shiftRight => .arith .shiftRight 0
  | .gt => .cmpData .gt
  | .lt => .cmpData .lt
  | .get => .cmpData .get
  | .let => .cmpData .let
  | .and => .boolOp .and
  | .or => .boolOp .or
  | .not => .not
  | .bitAnd => .arith .bitAnd 0
  | .bitOr => .arith .bitOr 0
  | .bitXor => .arith .bitXor 0
  | .bitNeg => .bitNeg 0
  | .valid => .validHeader
  | .validUnion => .validUnion
  | .twoCompMod => .arith .twoCompMod 0
  | .d2b => .dataToBool
  | .b2d => .boolToData 0
  | .dereferenceStack => .dereferenceHeaderStack
  | .dereferenceHeaderStack => .dereferenceHeaderStack
  | .dereferenceUnionStack => .dereferenceUnionStack
  | .lastStackIndex => .lastStackIndex 0
  | .sizeStack => .sizeStack 0

/-- `get_opcode_type`. -/
def getOpcodeType : Op → Except BuildError ExprType
  | .loadField _ _ => .ok .data
  | .loadConst _ => .ok .data
  | .loadLocal _ => .ok .data
  | .loadRegisterRef _ _ => .ok .data
  | .loadRegisterGen _ => .ok .data
  | .loadLastHeaderStackField _ _ => .ok .data
  | .arith _ _ => .ok .data
  | .bitNeg _ => .ok .data
  | .boolToData _ => .ok .data
  | .lastStackIndex _ => .ok .data
  | .sizeStack _ => .ok .data
  | .accessField _ => .ok .data
  | .loadBool _ => .ok .bool
  | .cmpData _ => .ok .bool
  | .cmpHeader _ => .ok .bool
  | .cmpUnion _ => .ok .bool
  | .boolOp _ => .ok .bool
  | .not => .ok .bool
  | .validHeader => .ok .bool
  | .validUnion => .ok .bool
  | .dataToBool => .ok .bool
  | .loadHeader _ => .ok .header
  | .dereferenceHeaderStack => .ok .header
  | .accessUnionHeader _ => .ok .header
  | .loadStack .header _ => .ok .headerStack
  | .loadUnion _ => .ok .union
  | .dereferenceUnionStack => .ok .union
  | .loadStack .union _ => .ok .unionStack
  | .ternaryOp => .ok .unknown
  | .skip _ => .error .assertion

/-- `get_eq_opcode`. -/
def getEqOpcode : ExprType → Except BuildError Op
  | .data => .ok (.cmpData .eq)
  | .header => .ok (.cmpHeader false)
  | .bool => .ok (.boolOp .eq)
  | .union => .ok (.cmpUnion false)
  | _ => .error .assertion

/-- `get_neq_opcode`. -/
def getNeqOpcode : ExprType → Except BuildError Op
  | .data => .ok (.cmpData .neq)
  | .header => .ok (.cmpHeader true)
  | .bool => .ok (.boolOp .neq)
  | .union => .ok (.cmpUnion true)
  | _ => .error .assertion

/-- `json.isNull()`. -/
def JsonExpr.isNull : JsonExpr → Bool
  | .null => true
  | _ => false

/-- `asInt`, of the `right` of an access. -/
def JsonExpr.asInt : JsonExpr → Except BuildError ℕ
  | .int value => .ok value
  | _ => .error .exception

/-- An equality, with both operands built. -/
def pushEquality (opcode : ExprType → Except BuildError Op) (e : Expression)
    (typeL typeR : ExprType) (a : ArithOffsets) :
    Except BuildError (Expression × ExprType × ArithOffsets) :=
  if typeL ≠ typeR then .error .assertion
  else if typeL = .unknown then .error .assertion
  else (opcode typeL).map fun op => (e.pushBackOp op, .bool, a)

/-- `build_expression`: the expression with the ops appended, the type, and the fields that
have arithmetic by then. `toUint` is the conversion to `unsigned int` of an index that is a
constant. Members of a value that has none, such as a number, are an exception. -/
def buildExpression (toUint : ℤ → ℕ) (L : Layout) :
    JsonExpr → Expression → ArithOffsets →
      Except BuildError (Expression × ExprType × ArithOffsets)
  | .null, e, a => .ok (e, .unknown, a)
  | .int _, _, _ => .error .exception
  | .expression .ternary left right cond, e, a => do
    let (e, _, a) ← buildExpression toUint L cond e a
    let (e₁, typeL, a) ← buildExpression toUint L left {} a
    let (e₂, typeR, a) ← buildExpression toUint L right {} a
    if typeL ≠ typeR then .error .assertion
    else .ok (e.pushBackTernaryOp e₁ e₂, typeL, a)
  | .expression .eq left right _, e, a => do
    let (e, typeL, a) ← buildExpression toUint L left e a
    let (e, typeR, a) ← buildExpression toUint L right e a
    pushEquality getEqOpcode e typeL typeR a
  | .expression .neq left right _, e, a => do
    let (e, typeL, a) ← buildExpression toUint L left e a
    let (e, typeR, a) ← buildExpression toUint L right e a
    pushEquality getNeqOpcode e typeL typeR a
  | .expression .accessField left right _, e, a => do
    let (e, _, a) ← buildExpression toUint L left e a
    let offset ← right.asInt
    -- The type stays unknown.
    .ok (e.pushBackOp (.accessField offset), .unknown, a)
  | .expression op left right _, e, a => do
    -- A sign is an operator with zero on the left.
    let (e, _, a) ← if (op = .add ∨ op = .sub) ∧ left.isNull then
        .ok (e.pushBackLoadConst { value := 0 }, .unknown, a)
      else buildExpression toUint L left e a
    let (e, _, a) ← buildExpression toUint L right e a
    (getOpcodeType (getOpcode op)).map fun type => (e.pushBackOp (getOpcode op), type, a)
  | .header header, e, a =>
    .ok (e.pushBackOp (.loadHeader header), .header, a.enableArith L header)
  | .field header offset, e, a =>
    .ok (e.pushBackOp (.loadField header offset), .data, a.enableArithField L header offset)
  | .bool value, e, a => .ok (e.pushBackOp (.loadBool value), .bool, a)
  | .hexstr d, e, a => .ok (e.pushBackLoadConst d, .data, a)
  | .loc offset, e, a => .ok (e.pushBackOp (.loadLocal offset), .data, a)
  | .register array (.hexstr d), e, a =>
    .ok (e.pushBackOp (.loadRegisterRef array (toUint d.value)), .data, a)
  | .register array index, e, a => do
    let (e, _, a) ← buildExpression toUint L index e a
    .ok (e.pushBackOp (.loadRegisterGen array), .data, a)
  | .headerStack stack, e, a =>
    .ok (e.pushBackOp (.loadStack .header stack), .headerStack, a.enableAllStack L stack)
  | .stackField stack offset, e, a =>
    .ok (e.pushBackOp (.loadLastHeaderStackField stack offset), .data,
      a.enableStackField L stack offset)
  -- Nothing is enabled for a union.
  | .headerUnion union, e, a => .ok (e.pushBackOp (.loadUnion union), .union, a)
  | .headerUnionStack stack, e, a =>
    .ok (e.pushBackOp (.loadStack .union stack), .unionStack, a.enableAllUnionStack L stack)

end Expressions

end P4Bricks
