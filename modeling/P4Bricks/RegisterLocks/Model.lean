import Mathlib.Data.Finset.Lattice.Lemmas
import P4Bricks.Parser.Model
/-!
# Locks on register arrays

`RegisterSync` of `stateful.h`, and the two that own one: an action function (`actions.cpp`)
and a parse state (`parser.cpp`). Whoever adds a parameter or an operation also adds the
register arrays that it is about, and execution locks what was added. A register array is
its id here, and so is its mutex.
-/

namespace P4Bricks

open Expressions Parsing

namespace RegisterLocks

/-! ## What is locked -/

/-- `RegisterSync`. There is one mutex for each array. -/
structure RegisterSync where
  mutexes : List ℕ := []
  registerArrays : Finset ℕ := ∅
  mem_mutexes : ∀ a, a ∈ mutexes ↔ a ∈ registerArrays := by simp
  nodup : mutexes.Nodup := by simp

namespace RegisterSync

/-- `add_register_array`. -/
def addRegisterArray (rs : RegisterSync) (a : ℕ) : RegisterSync :=
  if h : a ∈ rs.registerArrays then rs
  else
    { mutexes := rs.mutexes ++ [a]
      registerArrays := insert a rs.registerArrays
      mem_mutexes := fun b => by simp [rs.mem_mutexes, or_comm]
      nodup := by
        have hnew : a ∉ rs.mutexes := fun hmem => h ((rs.mem_mutexes a).mp hmem)
        simpa [List.nodup_append] using ⟨rs.nodup, fun b hb heq => hnew (heq ▸ hb)⟩ }

/-- `merge_from`. -/
def mergeFrom (rs other : RegisterSync) : RegisterSync :=
  other.mutexes.foldl addRegisterArray rs

@[simp] theorem registerArrays_addRegisterArray (rs : RegisterSync) (a : ℕ) :
    (rs.addRegisterArray a).registerArrays = insert a rs.registerArrays := by
  unfold addRegisterArray
  split_ifs with h
  · exact (Finset.insert_eq_of_mem h).symm
  · rfl

end RegisterSync

/-- The array an op of an expression is about. -/
def opArray : Op → Option ℕ
  | .loadRegisterRef array _ => some array
  | .loadRegisterGen array => some array
  | _ => none

/-- The arrays in an expression, those of the branches of a ternary and of indices too: they
are all spliced in. -/
def exprArrays (e : Expression) : List ℕ := e.ops.filterMap opArray

/-- `Expression::grab_register_accesses`. -/
def grabRegisterAccesses (e : Expression) (rs : RegisterSync) : RegisterSync :=
  e.ops.foldl (fun rs op => (opArray op).elim rs rs.addRegisterArray) rs

@[simp] theorem registerArrays_grabRegisterAccesses (e : Expression) (rs : RegisterSync) :
    (grabRegisterAccesses e rs).registerArrays = rs.registerArrays ∪ (exprArrays e).toFinset := by
  obtain ⟨ops, constValues, cnt⟩ := e
  unfold grabRegisterAccesses exprArrays
  induction ops generalizing rs with
  | nil => simp
  | cons op ops ih =>
    rw [List.foldl_cons, ih]
    rcases hop : opArray op with _ | a
    · rw [List.filterMap_cons_none hop, Option.elim_none]
    · rw [List.filterMap_cons_some hop, Option.elim_some,
        RegisterSync.registerArrays_addRegisterArray, List.toFinset_cons, Finset.insert_union,
        Finset.union_insert]

/-! ## Action functions -/

/-- `ActionParam`. A pointer is the id of what it points to, or the expression itself. -/
inductive ActionParam where
  | const (offset : ℕ)
  | field (header offset : ℕ)
  | header (header : ℕ)
  | actionData (offset : ℕ)
  | registerRef (array idx : ℕ)
  | registerGen (array : ℕ) (idx : Expression)
  | headerStack (headerStack : ℕ)
  | lastHeaderStackField (headerStack offset : ℕ)
  | calculation (calculation : ℕ)
  | meterArray (meterArray : ℕ)
  | counterArray (counterArray : ℕ)
  | registerArray (registerArray : ℕ)
  | expression (offset : ℕ) (e : Expression)
  | externInstance (externInstance : ℕ)
  | string (str : String)
  | headerUnion (headerUnion : ℕ)
  | headerUnionStack (headerUnionStack : ℕ)

/-- The arrays in a parameter. -/
def ActionParam.arrays : ActionParam → List ℕ
  | .registerRef array _ => [array]
  | .registerGen array idx => exprArrays idx ++ [array]
  | .registerArray array => [array]
  | .expression _ e => exprArrays e
  | _ => []

/-- `ActionEngineState`, without the packet. -/
structure ActionEngineState where
  phv : Phv
  actionData : List Data
  constValues : List Data

/-- `ActionPrimitive_`, with any body. It finds the register arrays behind its arguments. It
may say which primitive is next. -/
structure ActionPrimitive where
  numParams : ℕ
  execute : List ActionParam → ActionEngineState → Registers → Option (Phv × Registers × Option ℕ)

structure ActionPrimitiveCall where
  primitive : ActionPrimitive
  paramOffset : ℕ

structure ActionFn where
  primitives : List ActionPrimitiveCall := []
  params : List ActionParam := []
  registerSync : RegisterSync := {}
  constValues : List Data := []

namespace ActionFn

/-- `params.push_back(param)`. -/
def pushParam (fn : ActionFn) (param : ActionParam) : ActionFn :=
  { fn with params := fn.params ++ [param] }

def parameterPushBackField (fn : ActionFn) (header offset : ℕ) : ActionFn :=
  fn.pushParam (.field header offset)

def parameterPushBackHeader (fn : ActionFn) (header : ℕ) : ActionFn :=
  fn.pushParam (.header header)

def parameterPushBackHeaderStack (fn : ActionFn) (headerStack : ℕ) : ActionFn :=
  fn.pushParam (.headerStack headerStack)

def parameterPushBackLastHeaderStackField (fn : ActionFn) (headerStack offset : ℕ) : ActionFn :=
  fn.pushParam (.lastHeaderStackField headerStack offset)

def parameterPushBackHeaderUnion (fn : ActionFn) (headerUnion : ℕ) : ActionFn :=
  fn.pushParam (.headerUnion headerUnion)

def parameterPushBackHeaderUnionStack (fn : ActionFn) (headerUnionStack : ℕ) : ActionFn :=
  fn.pushParam (.headerUnionStack headerUnionStack)

def parameterPushBackConst (fn : ActionFn) (data : Data) : ActionFn :=
  { fn with constValues := fn.constValues ++ [data] }.pushParam (.const fn.constValues.length)

def parameterPushBackActionData (fn : ActionFn) (offset : ℕ) : ActionFn :=
  fn.pushParam (.actionData offset)

def parameterPushBackRegisterRef (fn : ActionFn) (array idx : ℕ) : ActionFn :=
  let fn := fn.pushParam (.registerRef array idx)
  { fn with registerSync := fn.registerSync.addRegisterArray array }

def parameterPushBackRegisterGen (fn : ActionFn) (array : ℕ) (idx : Expression) : ActionFn :=
  let fn := { fn with registerSync := grabRegisterAccesses idx fn.registerSync }
  let fn := fn.pushParam (.registerGen array idx)
  { fn with registerSync := fn.registerSync.addRegisterArray array }

def parameterPushBackCalculation (fn : ActionFn) (calculation : ℕ) : ActionFn :=
  fn.pushParam (.calculation calculation)

def parameterPushBackMeterArray (fn : ActionFn) (meterArray : ℕ) : ActionFn :=
  fn.pushParam (.meterArray meterArray)

def parameterPushBackCounterArray (fn : ActionFn) (counterArray : ℕ) : ActionFn :=
  fn.pushParam (.counterArray counterArray)

def parameterPushBackRegisterArray (fn : ActionFn) (array : ℕ) : ActionFn :=
  let fn := fn.pushParam (.registerArray array)
  { fn with registerSync := fn.registerSync.addRegisterArray array }

/-- `parameter_push_back_expression`. The last two are the `nb_data_tmps` of all functions. -/
def parameterPushBackExpression (fn : ActionFn) (e : Expression) (nbDataTmps : ℕ) :
    Option (ActionFn × ℕ) :=
  let nbExpressionParams := 1 + fn.params.countP fun
    | .expression _ _ => true
    | _ => false
  if nbDataTmps < nbExpressionParams then none
  else
    let fn := { fn with registerSync := grabRegisterAccesses e fn.registerSync }
    some (fn.pushParam (.expression nbExpressionParams e),
      if nbExpressionParams = nbDataTmps then nbDataTmps + 1 else nbDataTmps)

def parameterPushBackExternInstance (fn : ActionFn) (externInstance : ℕ) : ActionFn :=
  fn.pushParam (.externInstance externInstance)

def parameterPushBackString (fn : ActionFn) (str : String) : ActionFn :=
  fn.pushParam (.string str)

def pushBackPrimitive (fn : ActionFn) (primitive : ActionPrimitive) : ActionFn :=
  let paramOffset := fn.primitives.getLast?.elim 0 fun call =>
    call.paramOffset + call.primitive.numParams
  { fn with primitives := fn.primitives ++ [⟨primitive, paramOffset⟩] }

/-- One call of the builder of an action function. -/
inductive PushBack where
  | field (header offset : ℕ)
  | header (header : ℕ)
  | headerStack (headerStack : ℕ)
  | lastHeaderStackField (headerStack offset : ℕ)
  | headerUnion (headerUnion : ℕ)
  | headerUnionStack (headerUnionStack : ℕ)
  | const (data : Data)
  | actionData (offset : ℕ)
  | registerRef (array idx : ℕ)
  | registerGen (array : ℕ) (idx : Expression)
  | calculation (calculation : ℕ)
  | meterArray (meterArray : ℕ)
  | counterArray (counterArray : ℕ)
  | registerArray (array : ℕ)
  | expression (e : Expression)
  | externInstance (externInstance : ℕ)
  | string (str : String)
  | primitive (primitive : ActionPrimitive)

/-- The function after a call, and `nb_data_tmps`. -/
def pushBack (s : ActionFn × ℕ) : PushBack → Option (ActionFn × ℕ)
  | .field header offset => some (s.1.parameterPushBackField header offset, s.2)
  | .header header => some (s.1.parameterPushBackHeader header, s.2)
  | .headerStack headerStack => some (s.1.parameterPushBackHeaderStack headerStack, s.2)
  | .lastHeaderStackField headerStack offset =>
    some (s.1.parameterPushBackLastHeaderStackField headerStack offset, s.2)
  | .headerUnion headerUnion => some (s.1.parameterPushBackHeaderUnion headerUnion, s.2)
  | .headerUnionStack headerUnionStack =>
    some (s.1.parameterPushBackHeaderUnionStack headerUnionStack, s.2)
  | .const data => some (s.1.parameterPushBackConst data, s.2)
  | .actionData offset => some (s.1.parameterPushBackActionData offset, s.2)
  | .registerRef array idx => some (s.1.parameterPushBackRegisterRef array idx, s.2)
  | .registerGen array idx => some (s.1.parameterPushBackRegisterGen array idx, s.2)
  | .calculation calculation => some (s.1.parameterPushBackCalculation calculation, s.2)
  | .meterArray meterArray => some (s.1.parameterPushBackMeterArray meterArray, s.2)
  | .counterArray counterArray => some (s.1.parameterPushBackCounterArray counterArray, s.2)
  | .registerArray array => some (s.1.parameterPushBackRegisterArray array, s.2)
  | .expression e => s.1.parameterPushBackExpression e s.2
  | .externInstance externInstance =>
    some (s.1.parameterPushBackExternInstance externInstance, s.2)
  | .string str => some (s.1.parameterPushBackString str, s.2)
  | .primitive primitive => some (s.1.pushBackPrimitive primitive, s.2)

/-- The function of a sequence of calls. -/
def build (nbDataTmps : ℕ) (calls : List PushBack) : Option (ActionFn × ℕ) :=
  calls.foldlM pushBack ({}, nbDataTmps)

end ActionFn

/-- An action function that was built. -/
def BuiltFn : Type :=
  { fn : ActionFn // ∃ nbDataTmps calls nbDataTmps',
    ActionFn.build nbDataTmps calls = some (fn, nbDataTmps') }

/-! ## Parse states -/

/-- `ParserOp`: a method call holds the action that it calls. -/
inductive StateOp where
  | plain (op : ParserOp)
  | methodCall (fn : BuiltFn)

structure ParseState where
  parserOps : List StateOp := []
  registerSync : RegisterSync := {}

namespace ParseState

/-- `parser_ops.emplace_back`. -/
def pushOp (st : ParseState) (op : StateOp) : ParseState :=
  { st with parserOps := st.parserOps ++ [op] }

def addExtract (st : ParseState) (header : ℕ) : ParseState :=
  st.pushOp (.plain (.extract header))

def addExtractVL (st : ParseState) (header : ℕ) (fieldLengthExpr : Expression)
    (maxHeaderBytes : ℕ) : ParseState :=
  st.pushOp (.plain (.extractVL header fieldLengthExpr maxHeaderBytes))

def addExtractToStack (st : ParseState) (headerStack : ℕ) : ParseState :=
  st.pushOp (.plain (.extractStack headerStack))

def addExtractToUnionStack (st : ParseState) (headerUnionStack headerOffset : ℕ) : ParseState :=
  st.pushOp (.plain (.extractUnionStack headerUnionStack headerOffset))

def addSetFromField (st : ParseState) (dst src : ℕ × ℕ) : ParseState :=
  st.pushOp (.plain (.setField dst src))

def addSetFromData (st : ParseState) (dst : ℕ × ℕ) (src : Data) : ParseState :=
  st.pushOp (.plain (.setData dst src))

def addSetFromLookahead (st : ParseState) (dst : ℕ × ℕ) (srcOffset srcBitwidth : ℕ) :
    ParseState :=
  st.pushOp (.plain (.setLookahead dst (.make srcOffset srcBitwidth)))

def addSetFromExpression (st : ParseState) (dst : ℕ × ℕ) (e : Expression) : ParseState :=
  { st with registerSync := grabRegisterAccesses e st.registerSync }.pushOp
    (.plain (.setExpression dst e))

def addVerify (st : ParseState) (condition errorExpr : Expression) : ParseState :=
  st.pushOp (.plain (.verify condition errorExpr))

/-- `add_method_call`. All parameters of the action are there by now. -/
def addMethodCall (st : ParseState) (fn : BuiltFn) : ParseState :=
  { st with registerSync := st.registerSync.mergeFrom fn.val.registerSync }.pushOp (.methodCall fn)

def addShift (st : ParseState) (shiftBytes : ℕ) : ParseState :=
  st.pushOp (.plain (.shift shiftBytes))

/-- One call of the builder of a parse state. -/
inductive Add where
  | extract (header : ℕ)
  | extractVL (header : ℕ) (fieldLengthExpr : Expression) (maxHeaderBytes : ℕ)
  | extractToStack (headerStack : ℕ)
  | extractToUnionStack (headerUnionStack headerOffset : ℕ)
  | setFromField (dst src : ℕ × ℕ)
  | setFromData (dst : ℕ × ℕ) (src : Data)
  | setFromLookahead (dst : ℕ × ℕ) (srcOffset srcBitwidth : ℕ)
  | setFromExpression (dst : ℕ × ℕ) (e : Expression)
  | verify (condition errorExpr : Expression)
  | methodCall (fn : BuiltFn)
  | shift (shiftBytes : ℕ)

def add (st : ParseState) : Add → ParseState
  | .extract header => st.addExtract header
  | .extractVL header fieldLengthExpr maxHeaderBytes =>
    st.addExtractVL header fieldLengthExpr maxHeaderBytes
  | .extractToStack headerStack => st.addExtractToStack headerStack
  | .extractToUnionStack headerUnionStack headerOffset =>
    st.addExtractToUnionStack headerUnionStack headerOffset
  | .setFromField dst src => st.addSetFromField dst src
  | .setFromData dst src => st.addSetFromData dst src
  | .setFromLookahead dst srcOffset srcBitwidth => st.addSetFromLookahead dst srcOffset srcBitwidth
  | .setFromExpression dst e => st.addSetFromExpression dst e
  | .verify condition errorExpr => st.addVerify condition errorExpr
  | .methodCall fn => st.addMethodCall fn
  | .shift shiftBytes => st.addShift shiftBytes

/-- The state of a sequence of calls. -/
def build (calls : List Add) : ParseState := calls.foldl add {}

end ParseState

end RegisterLocks

end P4Bricks
