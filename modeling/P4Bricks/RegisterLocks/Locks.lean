import P4Bricks.RegisterLocks.Accesses
/-!
# What is locked and what is reached

An action function has the arrays of all its parameters in its `register_sync`. A parse
state has those of the expressions that it sets fields from and of the actions that it
calls. The other expressions of a parse state are those of `extract_VL` and `verify`, and the
length expressions of the headers that it extracts. Their arrays were not added, so they are
locked only where one of the former mentions them too.
-/

namespace P4Bricks

open Expressions Parsing

namespace RegisterLocks

variable {a : ℕ}

/-! ## Action functions -/

/-- The arrays in the parameters of a function. -/
def ActionFn.arrays (fn : ActionFn) : List ℕ := fn.params.flatMap ActionParam.arrays

/-- The function has added what its parameters mention, and nothing else. -/
def ActionFn.Synced (fn : ActionFn) : Prop := fn.registerSync.registerArrays = fn.arrays.toFinset

namespace ActionFn.Synced

variable {fn : ActionFn}

theorem pushParam (h : fn.Synced) {rs : RegisterSync} {param : ActionParam}
    (hrs : rs.registerArrays = fn.registerSync.registerArrays ∪ param.arrays.toFinset) :
    ActionFn.Synced { fn.pushParam param with registerSync := rs } := by
  unfold ActionFn.Synced ActionFn.arrays ActionFn.pushParam
  rw [List.flatMap_append, List.toFinset_append, List.flatMap_singleton, hrs]
  exact congrArg (· ∪ param.arrays.toFinset) h

/-- A parameter that mentions no array. -/
theorem pushParam_of_nil (h : fn.Synced) {param : ActionParam} (hnil : param.arrays = []) :
    (fn.pushParam param).Synced := by
  refine h.pushParam ?_
  rw [hnil, List.toFinset_nil, Finset.union_empty]

/-- **One call of the builder.** -/
theorem pushBack (h : fn.Synced) {nb nb' : ℕ} {call : ActionFn.PushBack} {fn' : ActionFn}
    (hcall : ActionFn.pushBack (fn, nb) call = some (fn', nb')) : fn'.Synced := by
  cases call with
  | registerRef array idx =>
    obtain ⟨rfl, -⟩ := Prod.mk.inj (Option.some.inj hcall)
    refine h.pushParam ?_
    rw [RegisterSync.registerArrays_addRegisterArray]
    exact (Finset.insert_eq _ _).trans (Finset.union_comm _ _)
  | registerGen array idx =>
    obtain ⟨rfl, -⟩ := Prod.mk.inj (Option.some.inj hcall)
    refine h.pushParam ?_
    rw [RegisterSync.registerArrays_addRegisterArray]
    simp [ActionFn.pushParam, ActionParam.arrays]
  | registerArray array =>
    obtain ⟨rfl, -⟩ := Prod.mk.inj (Option.some.inj hcall)
    refine h.pushParam ?_
    rw [RegisterSync.registerArrays_addRegisterArray]
    exact (Finset.insert_eq _ _).trans (Finset.union_comm _ _)
  | expression e =>
    simp only [ActionFn.pushBack, ActionFn.parameterPushBackExpression] at hcall
    split at hcall
    · cases hcall
    · obtain ⟨rfl, -⟩ := Prod.mk.inj (Option.some.inj hcall)
      refine h.pushParam ?_
      rw [registerArrays_grabRegisterAccesses]
      rfl
  | const data =>
    obtain ⟨rfl, -⟩ := Prod.mk.inj (Option.some.inj hcall)
    exact h.pushParam_of_nil rfl
  | primitive primitive =>
    obtain ⟨rfl, -⟩ := Prod.mk.inj (Option.some.inj hcall)
    exact h
  | _ =>
    obtain ⟨rfl, -⟩ := Prod.mk.inj (Option.some.inj hcall)
    exact h.pushParam_of_nil rfl

end ActionFn.Synced

namespace ParseState

/-- The arrays that a call adds. -/
def Add.grabbed : Add → List ℕ
  | .setFromExpression _ e => exprArrays e
  | .methodCall fn => fn.val.arrays
  | _ => []

/-- The operation that a call makes. -/
def Add.op : Add → StateOp
  | .extract header => .plain (.extract header)
  | .extractVL header fieldLengthExpr maxHeaderBytes =>
    .plain (.extractVL header fieldLengthExpr maxHeaderBytes)
  | .extractToStack headerStack => .plain (.extractStack headerStack)
  | .extractToUnionStack headerUnionStack headerOffset =>
    .plain (.extractUnionStack headerUnionStack headerOffset)
  | .setFromField dst src => .plain (.setField dst src)
  | .setFromData dst src => .plain (.setData dst src)
  | .setFromLookahead dst srcOffset srcBitwidth =>
    .plain (.setLookahead dst (.make srcOffset srcBitwidth))
  | .setFromExpression dst e => .plain (.setExpression dst e)
  | .verify condition errorExpr => .plain (.verify condition errorExpr)
  | .methodCall fn => .methodCall fn
  | .shift shiftBytes => .plain (.shift shiftBytes)

/-- The ops that evaluate an expression nobody looked at, if they evaluate any. -/
def ungrabbed : StateOp → Bool
  | .plain (.setExpression _ _) => false
  | .methodCall _ => false
  | _ => true

/-- What an extraction or a verification reaches is mentioned by a call that sets a field
from an expression, or by one of a method. -/
def Covered (vlExpr : ℕ → Option Expression) (calls : List Add) : Prop :=
  ∀ (ctx : Context) (fuel : ℕ) (pkt : Packet) (s : State), ctx.vlExpr = vlExpr →
    ∀ a ∈ opsAccesses ctx ungrabbed fuel pkt s (calls.map Add.op), ∃ call ∈ calls, a ∈ call.grabbed

end ParseState

/-! ## Both -/

end RegisterLocks

end P4Bricks
