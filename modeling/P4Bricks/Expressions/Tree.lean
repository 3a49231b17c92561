import P4Bricks.Expressions.Model
/-!
# Typed expression trees

What the flat programs of `expressions.cpp` stand for. A tree is typed by
construction: its operators are families over the types of their operands,
and a ternary may stand at any type. `denote` is its value in an environment,
and `emit` the calls of `push_back_*` that append it in post-order.
-/

namespace P4Bricks

namespace Expressions

/-- The types of operands: one per stack of the machine, with the two kinds
of stacks told apart. -/
inductive Ty where
  | data
  | bool
  | header
  | stack (kind : StackKind)
  | union
  deriving DecidableEq, Repr

/-- The values of a type. A header, a stack or a union is a reference. -/
abbrev Val : Ty → Type
  | .data => Data
  | .bool => Bool
  | _ => ℕ

/-- The loads. -/
inductive Leaf : Ty → Type where
  | field (header offset : ℕ) : Leaf .data
  | lastHeaderStackField (stack offset : ℕ) : Leaf .data
  | const (d : Data) : Leaf .data
  | loc (offset : ℕ) : Leaf .data
  | registerRef (array idx : ℕ) : Leaf .data
  | bool (value : Bool) : Leaf .bool
  | header (header : ℕ) : Leaf .header
  | stack (kind : StackKind) (stack : ℕ) : Leaf (.stack kind)
  | union (union : ℕ) : Leaf .union

/-- The operators with one operand, from its type to that of the result. -/
inductive Unary : Ty → Ty → Type where
  | registerGen (array : ℕ) : Unary .data .data
  | accessField (offset : ℕ) : Unary .header .data
  | accessUnionHeader (offset : ℕ) : Unary .union .header
  | bitNeg : Unary .data .data
  | not : Unary .bool .bool
  | validHeader : Unary .header .bool
  | validUnion : Unary .union .bool
  | dataToBool : Unary .data .bool
  | boolToData : Unary .bool .data
  | lastStackIndex (kind : StackKind) : Unary (.stack kind) .data
  | sizeStack (kind : StackKind) : Unary (.stack kind) .data

/-- The operators with two operands. -/
inductive Binary : Ty → Ty → Ty → Type where
  | arith (op : ArithOp) : Binary .data .data .data
  | cmpData (op : CmpOp) : Binary .data .data .bool
  | cmpHeader (neq : Bool) : Binary .header .header .bool
  | cmpUnion (neq : Bool) : Binary .union .union .bool
  | boolOp (op : BoolOp) : Binary .bool .bool .bool
  | dereferenceHeaderStack : Binary (.stack .header) .data .header
  | dereferenceUnionStack : Binary (.stack .union) .data .union

/-- A well-typed expression. -/
inductive Expr : Ty → Type where
  | leaf {t : Ty} (o : Leaf t) : Expr t
  | unary {s t : Ty} (o : Unary s t) (e : Expr s) : Expr t
  | binary {s₁ s₂ t : Ty} (o : Binary s₁ s₂ t) (l : Expr s₁) (r : Expr s₂) : Expr t
  | ternary {t : Ty} (c : Expr .bool) (l r : Expr t) : Expr t

/-! ## Meaning -/

section Denote

variable (env : Env)

def Leaf.denote {t : Ty} : Leaf t → Option (Val t)
  | .field h f => env.loadField h f
  | .lastHeaderStackField s f => env.loadLastHeaderStackField s f
  | .const d => some d
  | .loc l => env.locals[l]?
  | .registerRef r i => env.registers r i
  | .bool b => some b
  | .header h => env.loadHeader h
  | .stack k s => env.loadStack k s
  | .union u => env.loadUnion u

def Unary.denote {s t : Ty} : Unary s t → Val s → Option (Val t)
  | .registerGen r, d => (env.getSize d).bind (env.registers r)
  | .accessField f, h => env.loadField h f
  | .accessUnionHeader f, u => env.accessUnionHeader f u
  | .bitNeg, d => (negBits d).map fun v => { value := v }
  | .not, b => some !b
  | .validHeader, h => env.validHeader h
  | .validUnion, u => env.validUnion u
  | .dataToBool, d => some (d.value != 0)
  | .boolToData, b => some { value := b.toInt }
  | .lastStackIndex k, s => (env.getStack k s).map fun st => { value := lastIndex st }
  | .sizeStack k, s => (env.getStack k s).map fun st => { value := st.getCount }

def Binary.denote {s₁ s₂ t : Ty} : Binary s₁ s₂ t → Val s₁ → Val s₂ → Option (Val t)
  | .arith op, l, r => (op.eval env l r).map fun v => { value := v }
  | .cmpData op, l, r => op.eval l r
  | .cmpHeader neq, l, r => env.cmpHeader neq l r
  | .cmpUnion neq, l, r => env.cmpUnion neq l r
  | .boolOp op, l, r => some (op.eval l r)
  | .dereferenceHeaderStack, s, d => env.dereference .header s d
  | .dereferenceUnionStack, s, d => env.dereference .union s d

/-- The value of a tree. Only the branch a ternary takes is evaluated. -/
def Expr.denote {t : Ty} : Expr t → Option (Val t)
  | .leaf o => o.denote env
  | .unary o e => e.denote.bind (o.denote env)
  | .binary o l r => l.denote.bind fun v => r.denote.bind (o.denote env v)
  | .ternary c l r => c.denote.bind fun b => if b then l.denote else r.denote

end Denote

/-! ## The calls that append a tree -/

/-- The op of a load, with a constant's place in the pool. -/
def Leaf.op {t : Ty} (offset : ℕ) : Leaf t → Op
  | .field h f => .loadField h f
  | .lastHeaderStackField s f => .loadLastHeaderStackField s f
  | .const _ => .loadConst offset
  | .loc l => .loadLocal l
  | .registerRef r i => .loadRegisterRef r i
  | .bool b => .loadBool b
  | .header h => .loadHeader h
  | .stack k s => .loadStack k s
  | .union u => .loadUnion u

/-- The op of an operator, with the register it writes if it writes one. -/
def Unary.op {s t : Ty} (dest : ℕ) : Unary s t → Op
  | .registerGen r => .loadRegisterGen r
  | .accessField f => .accessField f
  | .accessUnionHeader f => .accessUnionHeader f
  | .bitNeg => .bitNeg dest
  | .not => .not
  | .validHeader => .validHeader
  | .validUnion => .validUnion
  | .dataToBool => .dataToBool
  | .boolToData => .boolToData dest
  | .lastStackIndex _ => .lastStackIndex dest
  | .sizeStack _ => .sizeStack dest

def Binary.op {s₁ s₂ t : Ty} (dest : ℕ) : Binary s₁ s₂ t → Op
  | .arith op => .arith op dest
  | .cmpData op => .cmpData op
  | .cmpHeader neq => .cmpHeader neq
  | .cmpUnion neq => .cmpUnion neq
  | .boolOp op => .boolOp op
  | .dereferenceHeaderStack => .dereferenceHeaderStack
  | .dereferenceUnionStack => .dereferenceUnionStack

/-- The call that appends a load. -/
def Leaf.emit {t : Ty} (o : Leaf t) (e : Expression) : Expression :=
  match o with
  | .const d => e.pushBackLoadConst d
  | o => e.pushBackOp (o.op 0)

/-- Append a tree in post-order. The branches of a ternary are expressions of
their own. -/
def Expr.emit {t : Ty} : Expr t → Expression → Expression
  | .leaf o, e => o.emit e
  | .unary o x, e => (x.emit e).pushBackOp (o.op 0)
  | .binary o l r, e => (r.emit (l.emit e)).pushBackOp (o.op 0)
  | .ternary c l r, e => (c.emit e).pushBackTernaryOp (l.emit {}) (r.emit {})

end Expressions

end P4Bricks
