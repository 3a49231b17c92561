import Mathlib.Data.Int.Bitwise
import P4Bricks.Phv.Model
/-!
# Expressions

`expressions.cpp`. An expression is a flat vector of stack-machine ops with a
pool of constants. Arithmetic results live in a shared vector of temporary
registers, and the data stack holds pointers: to a register, or to a constant,
a local, a field or a register cell, none of which changes during an
evaluation. `build` simulates the stack once to give each op the register it
writes. A ternary is spliced in line, its two branches compiled on their own
first, with `SKIP` ops around them.

The machine is untyped, and an op applied where an operand is missing, an
access out of bounds or a failed assertion is `none`.
-/

namespace P4Bricks

namespace Expressions

/-! ## Arithmetic on `Data` -/

/-- The ops that pop two numbers and write a register. -/
inductive ArithOp where
  | add | sub | mod | div | mul | shiftLeft | shiftRight | bitAnd | bitOr | bitXor | twoCompMod
  deriving DecidableEq, Repr

/-- The ops that pop two numbers and push a truth value. -/
inductive CmpOp where
  | eq | neq | gt | lt | get | let
  deriving DecidableEq, Repr

/-- The ops that pop two truth values and push one. -/
inductive BoolOp where
  | eq | neq | and | or
  deriving DecidableEq, Repr

/-- What an evaluation reads besides the ops: the header vector, the action's
arguments, the register arrays, and how a big number is converted to the
machine integers `unsigned int` and `size_t`. -/
structure Env where
  phv : Phv
  locals : List Data
  registers : ℕ → ℕ → Option Data
  toUint : ℤ → ℕ
  toSize : ℤ → ℕ

/-- `Data::two_comp_mod`: the width is an `unsigned int`, so that of a zero
width is a shift by `2 ^ 32 - 1`. -/
def twoCompMod (v : ℤ) (uwidth : ℕ) : ℤ :=
  let half := 2 ^ ((uwidth + (2 ^ 32 - 1)) % 2 ^ 32)
  if v < -half ∨ v > half - 1 then
    let w := v % 2 ^ uwidth
    if w > half - 1 then w - 2 ^ uwidth else w
  else v

/-- `data_temps[dest].op(*ld, *rd)`, with the assertions of `data.h`. -/
def ArithOp.eval (env : Env) (op : ArithOp) (l r : Data) : Option ℤ :=
  match op with
  | .twoCompMod => if r.arith then some (Expressions.twoCompMod l.value (env.toUint r.value)) else none
  | op =>
    if l.arith && r.arith then
      match op with
      | .add => some (l.value + r.value)
      | .sub => some (l.value - r.value)
      | .mod => if 0 ≤ l.value ∧ 0 < r.value then some (l.value % r.value) else none
      | .div => if 0 ≤ l.value ∧ 0 < r.value then some (l.value / r.value) else none
      | .mul => some (l.value * r.value)
      | .shiftLeft => if 0 ≤ r.value then some (l.value * 2 ^ env.toUint r.value) else none
      | .shiftRight => if 0 ≤ r.value then some (l.value / 2 ^ env.toUint r.value) else none
      | .bitAnd => some (l.value.land r.value)
      | .bitOr => some (l.value.lor r.value)
      | .bitXor => some (l.value.xor r.value)
      | .twoCompMod => none
    else none

/-- `data_temps[dest].bit_neg(*rd)`. -/
def negBits (d : Data) : Option ℤ := if d.arith then some d.value.not else none

/-- The comparisons of `data.h`. -/
def CmpOp.eval (op : CmpOp) (l r : Data) : Option Bool :=
  if l.arith && r.arith then
    some <| match op with
      | .eq => l.value == r.value
      | .neq => l.value != r.value
      | .gt => l.value > r.value
      | .lt => l.value < r.value
      | .get => l.value ≥ r.value
      | .let => l.value ≤ r.value
  else none

def BoolOp.eval (op : BoolOp) (l r : Bool) : Bool :=
  match op with
  | .eq => l == r
  | .neq => l != r
  | .and => l && r
  | .or => l || r

/-- `rd->get<size_t>()`. -/
def Env.getSize (env : Env) (d : Data) : Option ℕ :=
  if d.arith then some (env.toSize d.value) else none

/-- `get_count() - 1`, in `size_t`. -/
def lastIndex (s : Stack) : ℤ := ((s.getCount + (2 ^ 64 - 1)) % 2 ^ 64 : ℕ)

/-! ## Ops -/

/-- A stack is one of headers or one of unions. Both are `StackIface`. -/
inductive StackKind where
  | header
  | union
  deriving DecidableEq, Repr

/-- `Op`: an opcode and the member of its union it uses. `dest` is
`data_dest_index`. -/
inductive Op where
  | loadField (header offset : ℕ)
  | loadHeader (header : ℕ)
  | loadStack (kind : StackKind) (stack : ℕ)
  | loadLastHeaderStackField (stack offset : ℕ)
  | loadUnion (union : ℕ)
  | loadBool (value : Bool)
  | loadConst (offset : ℕ)
  | loadLocal (offset : ℕ)
  | loadRegisterRef (array idx : ℕ)
  | loadRegisterGen (array : ℕ)
  | accessField (offset : ℕ)
  | accessUnionHeader (offset : ℕ)
  | arith (op : ArithOp) (dest : ℕ)
  | bitNeg (dest : ℕ)
  | cmpData (op : CmpOp)
  | cmpHeader (neq : Bool)
  | cmpUnion (neq : Bool)
  | boolOp (op : BoolOp)
  | not
  | validHeader
  | validUnion
  | ternaryOp
  | skip (num : ℕ)
  | dataToBool
  | boolToData (dest : ℕ)
  | dereferenceHeaderStack
  | dereferenceUnionStack
  | lastStackIndex (dest : ℕ)
  | sizeStack (dest : ℕ)
  deriving DecidableEq, Repr

/-- `Expression`. -/
structure Expression where
  ops : List Op := []
  constValues : List Data := []
  dataRegistersCnt : ℕ := 0
  deriving DecidableEq, Repr

namespace Expression

/-! ## Appending -/

/-- `push_back_op` and the loads that need no pool. -/
def pushBackOp (e : Expression) (op : Op) : Expression := { e with ops := e.ops ++ [op] }

def pushBackLoadConst (e : Expression) (d : Data) : Expression :=
  { e with
    constValues := e.constValues ++ [d]
    ops := e.ops ++ [.loadConst e.constValues.length] }

/-- Move a constant's place in the pool. -/
def relocate (offset : ℕ) : Op → Op
  | .loadConst c => .loadConst (c + offset)
  | op => op

def appendExpression (e e' : Expression) : Expression :=
  { e with
    ops := e.ops ++ e'.ops.map (relocate e.constValues.length)
    constValues := e.constValues ++ e'.constValues }

def pushBackTernaryOp (e e₁ e₂ : Expression) : Expression :=
  let e := e.pushBackOp .ternaryOp
  let e := e.pushBackOp (.skip (e₁.ops.length + 1))
  let e := e.appendExpression e₁
  let e := e.pushBackOp (.skip e₂.ops.length)
  e.appendExpression e₂

end Expression

/-! ## Register assignment -/

/-- The variables of `assign_dest_registers`: the registers needed so far,
those in use, and how many each operand on the data stack holds. -/
structure Alloc where
  cnt : ℕ := 0
  curr : ℕ := 0
  newRegisters : List ℕ := []

namespace Alloc

/-- `registers_curr -= new_registers.top(); new_registers.pop();` -/
def pop (a : Alloc) : Alloc :=
  { a with curr := a.curr - a.newRegisters.headD 0, newRegisters := a.newRegisters.tail }

/-- `new_registers.push(n); registers_curr += n;` -/
def push (a : Alloc) (n : ℕ) : Alloc :=
  { a with curr := a.curr + n, newRegisters := n :: a.newRegisters }

/-- `registers_cnt = std::max(registers_cnt, registers_curr);` -/
def bump (a : Alloc) : Alloc := { a with cnt := max a.cnt a.curr }

end Alloc

/-- One iteration of `assign_dest_registers`. -/
def assignOp (a : Alloc) : Op → Op × Alloc
  | .arith op _ => (.arith op a.pop.pop.curr, (a.pop.pop.push 1).bump)
  | .bitNeg _ => (.bitNeg a.pop.curr, (a.pop.push 1).bump)
  | .boolToData _ => (.boolToData a.curr, (a.push 1).bump)
  | .lastStackIndex _ => (.lastStackIndex a.curr, (a.push 1).bump)
  | .sizeStack _ => (.sizeStack a.curr, (a.push 1).bump)
  | .cmpData op => (.cmpData op, a.pop.pop.bump)
  | .dataToBool => (.dataToBool, a.pop.bump)
  | .dereferenceHeaderStack => (.dereferenceHeaderStack, a.pop.bump)
  | .dereferenceUnionStack => (.dereferenceUnionStack, a.pop.bump)
  | .loadConst c => (.loadConst c, (a.push 0).bump)
  | .loadLocal l => (.loadLocal l, (a.push 0).bump)
  | .loadField h f => (.loadField h f, (a.push 0).bump)
  | .loadLastHeaderStackField s f => (.loadLastHeaderStackField s f, (a.push 0).bump)
  | .loadRegisterRef r i => (.loadRegisterRef r i, (a.push 0).bump)
  | .accessField f => (.accessField f, (a.push 0).bump)
  | .loadRegisterGen r => (.loadRegisterGen r, (a.pop.push 0).bump)
  | op => (op, a.bump)

def assignDestRegisters : Alloc → List Op → List Op × Alloc
  | a, [] => ([], a)
  | a, op :: ops =>
    let (op', a') := assignOp a op
    let (ops', a'') := assignDestRegisters a' ops
    (op' :: ops', a'')

def Expression.build (e : Expression) : Expression :=
  let (ops, a) := assignDestRegisters {} e.ops
  { e with ops := ops, dataRegistersCnt := a.cnt }

/-- The register an op writes. -/
def Op.dest? : Op → Option ℕ
  | .arith _ dest | .bitNeg dest | .boolToData dest | .lastStackIndex dest | .sizeStack dest =>
    some dest
  | _ => none

/-! ## Evaluation -/

/-- A `const Data *` on the data stack. -/
inductive DataRef where
  | temp (idx : ℕ)
  | object (d : Data)
  deriving DecidableEq, Repr

/-- The machine. Stack tops come first. -/
structure Machine where
  dataTemps : List ℤ
  boolStack : List Bool := []
  dataStack : List DataRef := []
  headerStack : List ℕ := []
  stackStack : List (StackKind × ℕ) := []
  unionStack : List ℕ := []
  deriving Repr

namespace Machine

/-- `*ref`. The registers are plain `Data`, always arithmetic. -/
def deref (m : Machine) : DataRef → Option Data
  | .temp idx => m.dataTemps[idx]?.map fun v => { value := v }
  | .object d => some d

def pushData (m : Machine) (ref : DataRef) : Machine := { m with dataStack := ref :: m.dataStack }

def pushBool (m : Machine) (b : Bool) : Machine := { m with boolStack := b :: m.boolStack }

def pushHeader (m : Machine) (h : ℕ) : Machine := { m with headerStack := h :: m.headerStack }

def pushStack (m : Machine) (k : StackKind) (s : ℕ) : Machine :=
  { m with stackStack := (k, s) :: m.stackStack }

def pushUnion (m : Machine) (u : ℕ) : Machine := { m with unionStack := u :: m.unionStack }

def popData (m : Machine) : Option (Data × Machine) :=
  match m.dataStack with
  | [] => none
  | ref :: rest => (m.deref ref).map fun d => (d, { m with dataStack := rest })

def popBool (m : Machine) : Option (Bool × Machine) :=
  match m.boolStack with
  | [] => none
  | b :: rest => some (b, { m with boolStack := rest })

def popHeader (m : Machine) : Option (ℕ × Machine) :=
  match m.headerStack with
  | [] => none
  | h :: rest => some (h, { m with headerStack := rest })

def popStack (m : Machine) : Option ((StackKind × ℕ) × Machine) :=
  match m.stackStack with
  | [] => none
  | s :: rest => some (s, { m with stackStack := rest })

def popUnion (m : Machine) : Option (ℕ × Machine) :=
  match m.unionStack with
  | [] => none
  | u :: rest => some (u, { m with unionStack := rest })

/-- Write a register and push a pointer to it. -/
def store (m : Machine) (dest : ℕ) (v : ℤ) : Option Machine :=
  if dest < m.dataTemps.length then
    some { m with
      dataTemps := m.dataTemps.set dest v
      dataStack := .temp dest :: m.dataStack }
  else none

end Machine

/-! ### What the ops read from the header vector -/

namespace Env

variable (env : Env)

def loadField (header offset : ℕ) : Option Data := (env.phv.getField header offset).map Field.toData

def getStack : StackKind → ℕ → Option Stack
  | .header, s => env.phv.headerStacks[s]?
  | .union, s => env.phv.headerUnionStacks[s]?

/-- A reference to a header that is there. -/
def loadHeader (h : ℕ) : Option ℕ := env.phv.headers[h]?.map fun _ => h

def loadUnion (u : ℕ) : Option ℕ := env.phv.headerUnions[u]?.map fun _ => u

def loadStack (k : StackKind) (s : ℕ) : Option ℕ := (env.getStack k s).map fun _ => s

def loadLastHeaderStackField (stack offset : ℕ) : Option Data := do
  let s ← env.phv.headerStacks[stack]?
  env.loadField (← s.getLast) offset

def accessUnionHeader (offset u : ℕ) : Option ℕ :=
  env.phv.headerUnions[u]?.bind fun un => un.headers[offset]?

def cmpHeader (neq : Bool) (l r : ℕ) : Option Bool := do
  let lh ← env.phv.headers[l]?
  let rh ← env.phv.headers[r]?
  (lh.cmp rh).map (· ^^ neq)

def cmpUnion (neq : Bool) (l r : ℕ) : Option Bool := do
  let lu ← env.phv.headerUnions[l]?
  let ru ← env.phv.headerUnions[r]?
  (env.phv.cmpUnion lu ru).map (· ^^ neq)

def validHeader (h : ℕ) : Option Bool := env.phv.headers[h]?.map Header.isValid

def validUnion (u : ℕ) : Option Bool := env.phv.headerUnions[u]?.map HeaderUnion.valid

/-- The element of a stack an index selects. -/
def dereference (k : StackKind) (s : ℕ) (idx : Data) : Option ℕ := do
  let st ← env.getStack k s
  st.elementAt (← env.getSize idx)

end Env

/-- One op. The second component is what it adds to the loop index. -/
def step (env : Env) (consts : List Data) (m : Machine) : Op → Option (Machine × ℕ)
  | .loadField h f => (env.loadField h f).map fun d => (m.pushData (.object d), 0)
  | .loadHeader h => (env.loadHeader h).map fun h => (m.pushHeader h, 0)
  | .loadStack k s => (env.loadStack k s).map fun s => (m.pushStack k s, 0)
  | .loadLastHeaderStackField s f =>
    (env.loadLastHeaderStackField s f).map fun d => (m.pushData (.object d), 0)
  | .loadUnion u => (env.loadUnion u).map fun u => (m.pushUnion u, 0)
  | .loadBool b => some (m.pushBool b, 0)
  | .loadConst c => consts[c]?.map fun d => (m.pushData (.object d), 0)
  | .loadLocal l => env.locals[l]?.map fun d => (m.pushData (.object d), 0)
  | .loadRegisterRef r i => (env.registers r i).map fun d => (m.pushData (.object d), 0)
  | .loadRegisterGen r => do
    let (d, m) ← m.popData
    let cell ← env.registers r (← env.getSize d)
    some (m.pushData (.object cell), 0)
  | .accessField f => do
    let (h, m) ← m.popHeader
    let d ← env.loadField h f
    some (m.pushData (.object d), 0)
  | .accessUnionHeader f => do
    let (u, m) ← m.popUnion
    let h ← env.accessUnionHeader f u
    some (m.pushHeader h, 0)
  | .arith op dest => do
    let (r, m) ← m.popData
    let (l, m) ← m.popData
    let v ← op.eval env l r
    (m.store dest v).map (·, 0)
  | .bitNeg dest => do
    let (r, m) ← m.popData
    let v ← negBits r
    (m.store dest v).map (·, 0)
  | .cmpData op => do
    let (r, m) ← m.popData
    let (l, m) ← m.popData
    let b ← op.eval l r
    some (m.pushBool b, 0)
  | .cmpHeader neq => do
    let (r, m) ← m.popHeader
    let (l, m) ← m.popHeader
    let b ← env.cmpHeader neq l r
    some (m.pushBool b, 0)
  | .cmpUnion neq => do
    let (r, m) ← m.popUnion
    let (l, m) ← m.popUnion
    let b ← env.cmpUnion neq l r
    some (m.pushBool b, 0)
  | .boolOp op => do
    let (r, m) ← m.popBool
    let (l, m) ← m.popBool
    some (m.pushBool (op.eval l r), 0)
  | .not => do
    let (r, m) ← m.popBool
    some (m.pushBool !r, 0)
  | .validHeader => do
    let (h, m) ← m.popHeader
    let b ← env.validHeader h
    some (m.pushBool b, 0)
  | .validUnion => do
    let (u, m) ← m.popUnion
    let b ← env.validUnion u
    some (m.pushBool b, 0)
  | .ternaryOp => do
    let (b, m) ← m.popBool
    some (m, if b then 1 else 0)
  | .skip num => some (m, num)
  | .dataToBool => do
    let (r, m) ← m.popData
    some (m.pushBool (r.value != 0), 0)
  | .boolToData dest => do
    let (b, m) ← m.popBool
    (m.store dest b.toInt).map (·, 0)
  | .dereferenceHeaderStack => do
    let (r, m) ← m.popData
    let ((k, s), m) ← m.popStack
    let h ← if k = .header then env.dereference k s r else none
    some (m.pushHeader h, 0)
  | .dereferenceUnionStack => do
    let (r, m) ← m.popData
    let ((k, s), m) ← m.popStack
    let u ← if k = .union then env.dereference k s r else none
    some (m.pushUnion u, 0)
  | .lastStackIndex dest => do
    let ((k, s), m) ← m.popStack
    let st ← env.getStack k s
    (m.store dest (lastIndex st)).map (·, 0)
  | .sizeStack dest => do
    let ((k, s), m) ← m.popStack
    let st ← env.getStack k s
    (m.store dest st.getCount).map (·, 0)

/-- The loop of `eval_`. The first argument is how many ops are still to be
skipped. -/
def exec (env : Env) (consts : List Data) : ℕ → List Op → Machine → Option Machine
  | _, [], m => some m
  | n + 1, _ :: ops, m => exec env consts n ops m
  | 0, op :: ops, m =>
    match step env consts m op with
    | none => none
    | some (m', n) => exec env consts n ops m'

namespace Expression

/-- The machine an evaluation starts with: the registers hold whatever the
last evaluation on this thread left, and there are enough of them. -/
def start (e : Expression) (temps : List ℤ) : Machine :=
  { dataTemps := temps ++ List.replicate (e.dataRegistersCnt - temps.length) 0 }

/-- `eval_bool`. -/
def evalBool (e : Expression) (env : Env) (temps : List ℤ) : Option Bool :=
  if e.ops.isEmpty then some false
  else do
    let m ← exec env e.constValues 0 e.ops (e.start temps)
    m.boolStack.head?

/-- `eval_arith`: the result is a copy of the value. -/
def evalArith (e : Expression) (env : Env) (temps : List ℤ) : Option ℤ :=
  if e.ops.isEmpty then some 0
  else do
    let m ← exec env e.constValues 0 e.ops (e.start temps)
    let d ← m.deref (← m.dataStack.head?)
    some d.value

end Expression

end Expressions

end P4Bricks
