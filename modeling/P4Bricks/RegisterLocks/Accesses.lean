import P4Bricks.RegisterLocks.Model
/-!
# What an execution reaches

The register arrays that an execution reads or writes, in order. An expression reaches those
of the ops that its evaluation comes to. A primitive reaches what is behind its arguments:
it is handed nothing else. A parse state reaches what its operations reach, as long as none
of them throws. The number of primitives that an action gets to run is bounded, since they
may jump back: what is reached at all is reached within some bound.
-/

namespace P4Bricks

open Expressions Parsing

namespace RegisterLocks

/-! ## Expressions -/

/-- The arrays that the loop of `eval_` comes to. -/
def execAccesses (env : Env) (consts : List Data) : ℕ → List Op → Machine → List ℕ
  | _, [], _ => []
  | n + 1, _ :: ops, m => execAccesses env consts n ops m
  | 0, op :: ops, m =>
    (opArray op).toList ++
      match step env consts m op with
      | none => []
      | some (m', n) => execAccesses env consts n ops m'

def evalAccesses (e : Expression) (env : Env) (temps : List ℤ) : List ℕ :=
  execAccesses env e.constValues 0 e.ops (e.start temps)

variable (ctx : Context)

/-! ## Actions -/

/-- What `to` touches to convert an argument, and the array that it may hand out. -/
def ActionParam.accesses (s : ActionEngineState) (registers : Registers) :
    ActionParam → List ℕ
  | .registerRef array _ => [array]
  | .registerGen array idx =>
    evalAccesses idx ⟨s.phv, s.actionData, registers, ctx.toUint, ctx.toSize⟩ ctx.temps ++ [array]
  | .registerArray array => [array]
  | .expression _ e =>
    evalAccesses e ⟨s.phv, s.actionData, registers, ctx.toUint, ctx.toSize⟩ ctx.temps
  | _ => []

/-- A primitive sees these arrays and no others, and changes no others. -/
def ActionPrimitive.executeOn (primitive : ActionPrimitive) (args : List ActionParam)
    (arrays : List ℕ) (s : ActionEngineState) (registers : Registers) :
    Option (Phv × Registers × Option ℕ) :=
  (primitive.execute args s fun a i => if a ∈ arrays then registers a i else none).map
    fun (phv, registers', next) =>
      (phv, fun a => if a ∈ arrays then registers' a else registers a, next)

namespace ActionFn

/-- The arguments of a primitive: `&params[param_offset]`. -/
def args (fn : ActionFn) (call : ActionPrimitiveCall) : List ActionParam :=
  (fn.params.drop call.paramOffset).take call.primitive.numParams

/-- The loop of `ActionFnEntry::execute`: the arrays it reaches, and what it leaves. -/
def executeFrom (fn : ActionFn) (actionData : List Data) :
    ℕ → ℕ → Phv → Registers → List ℕ × Option (Phv × Registers)
  | 0, _, _, _ => ([], none)
  | fuel + 1, idx, phv, registers =>
    match fn.primitives[idx]? with
    | none => ([], some (phv, registers))
    | some call =>
      let s := ⟨phv, actionData, fn.constValues⟩
      let arrays := (fn.args call).flatMap (ActionParam.accesses ctx s registers)
      match call.primitive.executeOn (fn.args call) arrays s registers with
      | none => (arrays, none)
      | some (phv, registers, next) =>
        let r := executeFrom fn actionData fuel (next.getD (idx + 1)) phv registers
        (arrays ++ r.1, r.2)

end ActionFn

/-! ## Parse states -/

/-- The fields of a header as they are when the length of the variable one is computed. -/
def fieldsAtVL : ByteContainer → ℕ → List Field → List Field → Option (List Field)
  | _, _, _, [] => none
  | data, hdrOffset, done, f :: todo =>
    if f.hidden then none
    else if f.isVL then some (done ++ f :: todo)
    else
      match f.extract data hdrOffset with
      | .error _ => none
      | .ok f' =>
        fieldsAtVL (data.drop ((hdrOffset + f'.nbits) / 8)) ((hdrOffset + f'.nbits) % 8)
          (done ++ [f']) todo

/-- What `Header::extract` reaches: a header of variable length has its own expression. -/
def extractAccesses (pkt : Packet) (s : State) (h : ℕ) : List ℕ :=
  match s.phv.headers[h]?, ctx.vlExpr h with
  | some hdr, some e =>
    if available pkt s.bytesParsed < hdr.nbytesPacket then []
    else
      match fieldsAtVL (pkt.data.drop s.bytesParsed) 0 [] hdr.fields with
      | none => []
      | some fields =>
        evalAccesses e ⟨s.phv.modifyHeader h fun hdr => { hdr with fields := fields }, [],
          s.registers, ctx.toUint, ctx.toSize⟩ ctx.temps
  | _, _ => []

/-- What an op of a parser other than a method call reaches. -/
def opAccesses (pkt : Packet) (s : State) : ParserOp → List ℕ
  | .extract header => extractAccesses ctx pkt s header
  | .extractVL header e _ =>
    match s.phv.headers[header]? with
    | none => []
    | some hdr =>
      if hdr.isVLHeader then
        evalAccesses e ⟨s.phv, [], s.registers, ctx.toUint, ctx.toSize⟩ ctx.temps
      else []
  | .extractStack headerStack =>
    match s.phv.headerStacks[headerStack]?.bind Stack.getNext with
    | none => []
    | some h => extractAccesses ctx pkt s h
  | .extractUnionStack headerUnionStack headerOffset =>
    match (s.phv.headerUnionStacks[headerUnionStack]?.bind Stack.getNext).bind fun u =>
        s.phv.headerUnions[u]?.bind fun un => un.headers[headerOffset]? with
    | none => []
    | some h => extractAccesses ctx pkt s h
  | .setExpression dst e =>
    match s.phv.getField dst.1 dst.2 with
    | none => []
    | some _ => evalAccesses e ⟨s.phv, [], s.registers, ctx.toUint, ctx.toSize⟩ ctx.temps
  | .verify condition errorExpr =>
    evalAccesses condition ⟨s.phv, [], s.registers, ctx.toUint, ctx.toSize⟩ ctx.temps ++
      match evalBool ctx condition s.phv s.registers with
      | .ok false =>
        evalAccesses errorExpr ⟨s.phv, [], s.registers, ctx.toUint, ctx.toSize⟩ ctx.temps
      | _ => []
  | _ => []

namespace StateOp

def accesses (fuel : ℕ) (pkt : Packet) (s : State) : StateOp → List ℕ
  | .plain op => opAccesses ctx pkt s op
  | .methodCall fn => (fn.val.executeFrom ctx [] fuel 0 s.phv s.registers).1

def run (fuel : ℕ) (pkt : Packet) (s : State) : StateOp → Except Stop State
  | .plain op => op.run ctx pkt s
  | .methodCall fn => do
    let (phv, registers) ← required (fn.val.executeFrom ctx [] fuel 0 s.phv s.registers).2
    .ok { s with phv := phv, registers := registers }

end StateOp

/-- The part of `find_next_state` under the locks: what those ops reach that are picked. -/
def opsAccesses (pick : StateOp → Bool) (fuel : ℕ) (pkt : Packet) : State → List StateOp → List ℕ
  | _, [] => []
  | s, op :: ops =>
    (if pick op then op.accesses ctx fuel pkt s else []) ++
      match op.run ctx fuel pkt s with
      | .error _ => []
      | .ok s => opsAccesses pick fuel pkt s ops

/-! ## What is reached was mentioned -/

variable {ctx} {a : ℕ}

end RegisterLocks

end P4Bricks
