import P4Bricks.Parser.Model
import P4Bricks.Phv.Factory
/-!
# What happens to a header vector

One operation after the other: the ops of a parser, header primitives, the
operations on stacks and unions, and the resets. An action that a parser
calls is a sequence of primitives and not an operation of its own.
-/

namespace P4Bricks

open Parsing

/-! ## Operations on one stack -/

/-- A member function of `StackIface` that changes the stack. -/
inductive Stack.Op where
  | popFront
  | popFrontN (num : UInt64)
  | pushFront
  | pushFrontN (num : UInt64)
  | popBack
  | pushBack
  deriving DecidableEq, Repr

def Stack.Op.run (k : Kind) (phv : Phv) (s : ℕ) : Op → Stack.Result
  | .popFront => Stack.popFront k phv s
  | .popFrontN num => Stack.popFrontN k phv s num.toNat
  | .pushFront => Stack.pushFront k phv s
  | .pushFrontN num => Stack.pushFrontN k phv s num.toNat
  | .popBack => Stack.popBack k phv s
  | .pushBack => Stack.pushBack k phv s

/-! ## Operations on the header vector -/

namespace Phv

/-- One operation. A field is a header and an offset; a primitive that
computes a value for one is `set` with that value. -/
inductive Op where
  | parse (ctx : Context) (pkt : Packet) (registers : Registers) (bytesParsed : ℕ) (op : ParserOp)
  | set (dst : ℕ × ℕ) (v : ℤ)
  | assignVL (dst src : ℕ × ℕ)
  | markValid (header : ℕ)
  | markInvalid (header : ℕ)
  | addHeader (header : ℕ)
  | removeHeader (header : ℕ)
  | assignHeader (dst src : ℕ)
  | assignUnion (dst src : ℕ)
  | stack (k : Stack.Kind) (stack : ℕ) (op : Stack.Op)
  | reset
  | resetHeaderStacks
  | resetMetadata

/-- The `assign_VL` primitive. -/
def runAssignVL (phv : Phv) (dst src : ℕ × ℕ) : Except Stop Phv := do
  let f ← required (phv.getField dst.1 dst.2)
  let g ← required (phv.getField src.1 src.2)
  if f.isVL then Parsing.assignVL phv dst f g else .error .abort

def Op.run (phv : Phv) : Op → Except Stop Phv
  | .parse _ _ _ _ (.methodCall _) => .error .abort
  | .parse ctx pkt registers bytesParsed op => do
    let s ← op.run ctx pkt ⟨phv, registers, bytesParsed⟩
    .ok s.phv
  | .set dst v => do
    let f ← required (phv.getField dst.1 dst.2)
    .ok (putField phv dst (← required (f.set v)))
  | .assignVL dst src => phv.runAssignVL dst src
  | .markValid h => .ok (phv.markValid h)
  | .markInvalid h => .ok (phv.markInvalid h)
  | .addHeader h => phv.addHeader h
  | .removeHeader h => phv.removeHeader h
  | .assignHeader dst src => phv.assignHeader dst src
  | .assignUnion dst src => phv.assignUnion dst src
  | .stack k s op => do
    let (phv, _) ← op.run k phv s
    .ok phv
  | .reset => .ok phv.reset
  | .resetHeaderStacks => .ok phv.resetHeaderStacks
  | .resetMetadata => .ok phv.resetMetadata

def run (phv : Phv) : List Op → Except Stop Phv
  | [] => .ok phv
  | op :: ops => do (← op.run phv).run ops

end Phv

/-- The states of the header vectors of a program: whatever was done to one,
the copy of another one's headers included. -/
inductive PhvFactory.Reaches (F : PhvFactory) : Phv → Prop where
  | create : F.Reaches F.create
  | op {phv phv' : Phv} {op : Phv.Op} : F.Reaches phv → op.run phv = .ok phv' → F.Reaches phv'
  | copyHeaders {phv phv' src : Phv} : F.Reaches phv → F.Reaches src →
      phv.copyHeaders src = .ok phv' → F.Reaches phv'

end P4Bricks
