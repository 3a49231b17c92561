import P4Bricks.Expressions.Model
/-!
# What an expression reads

The fields an evaluation reads are known only when it gets there: a field of a
header that was selected on the way, or of the last header of a stack. Two
environments that agree on these fields, and on which headers and unions
compare as equal, give one result.
-/

namespace P4Bricks

namespace Expressions

/-- The field an op reads. -/
def Op.reads (env : Env) (m : Machine) : Op → Option (ℕ × ℕ)
  | .loadField h f => some (h, f)
  | .loadLastHeaderStackField s f =>
    (env.phv.headerStacks[s]?.bind Stack.getLast).map fun h => (h, f)
  | .accessField f => m.popHeader.map fun p => (p.1, f)
  | _ => none

/-- All the fields that are read are in `R`. -/
def ReadsWithin (R : ℕ → ℕ → Prop) (env : Env) (consts : List Data) :
    ℕ → List Op → Machine → Prop
  | _, [], _ => True
  | n + 1, _ :: ops, m => ReadsWithin R env consts n ops m
  | 0, op :: ops, m =>
    (∀ p, op.reads env m = some p → R p.1 p.2) ∧
      ∀ m' n, step env consts m op = some (m', n) → ReadsWithin R env consts n ops m'

namespace Expression

/-- The reads of a whole expression. -/
def ReadsWithin (e : Expression) (R : ℕ → ℕ → Prop) (env : Env) (temps : List ℤ) : Prop :=
  Expressions.ReadsWithin R env e.constValues 0 e.ops (e.start temps)

end Expression

/-- Where every field may be read, every expression reads within what may be read. -/
theorem readsWithin_of_forall {R : ℕ → ℕ → Prop} (hR : ∀ h o, R h o) {env : Env}
    {consts : List Data} {n : ℕ} {ops : List Op} {m : Machine} :
    ReadsWithin R env consts n ops m := by
  induction ops generalizing n m with
  | nil => cases n <;> trivial
  | cons op ops ih =>
    cases n with
    | zero => exact ⟨fun p _ => hR p.1 p.2, fun _ _ _ => ih⟩
    | succ n => exact ih

/-- Two environments that agree on the fields in `R`. -/
structure EnvAlike (R : ℕ → ℕ → Prop) (env env' : Env) : Prop where
  locals : env'.locals = env.locals
  registers : env'.registers = env.registers
  toUint : env'.toUint = env.toUint
  toSize : env'.toSize = env.toSize
  headerStacks : env'.phv.headerStacks = env.phv.headerStacks
  headerUnionStacks : env'.phv.headerUnionStacks = env.phv.headerUnionStacks
  loadField : ∀ h o, R h o → env'.loadField h o = env.loadField h o
  loadHeader : ∀ h, env'.loadHeader h = env.loadHeader h
  loadUnion : ∀ u, env'.loadUnion u = env.loadUnion u
  accessUnionHeader : ∀ o u, env'.accessUnionHeader o u = env.accessUnionHeader o u
  cmpHeader : ∀ neq l r, env'.cmpHeader neq l r = env.cmpHeader neq l r
  cmpUnion : ∀ neq l r, env'.cmpUnion neq l r = env.cmpUnion neq l r
  validHeader : ∀ h, env'.validHeader h = env.validHeader h
  validUnion : ∀ u, env'.validUnion u = env.validUnion u

section

variable {R : ℕ → ℕ → Prop} {env env' : Env} {consts : List Data} {m : Machine}

namespace EnvAlike

/-- Stacks are alike in two environments that are, -/
theorem getStack (he : EnvAlike R env env') (k : StackKind) (s : ℕ) :
    env'.getStack k s = env.getStack k s := by
  cases k with
  | header => rw [Env.getStack, Env.getStack, he.headerStacks]
  | union => rw [Env.getStack, Env.getStack, he.headerUnionStacks]

/-- and so is what is loaded of them, -/
theorem loadStack (he : EnvAlike R env env') (k : StackKind) (s : ℕ) :
    env'.loadStack k s = env.loadStack k s := by
  rw [Env.loadStack, Env.loadStack, he.getStack]

/-- the size of data, -/
theorem getSize (he : EnvAlike R env env') (d : Data) : env'.getSize d = env.getSize d := by
  rw [Env.getSize, Env.getSize, he.toSize]

/-- and what a dereference finds. -/
theorem dereference (he : EnvAlike R env env') (k : StackKind) (s : ℕ) (idx : Data) :
    env'.dereference k s idx = env.dereference k s idx := by
  simp only [Env.dereference, he.getStack, he.getSize]

/-- An arithmetic operation has the same result in both, -/
theorem evalArithOp (he : EnvAlike R env env') (op : ArithOp) (l r : Data) :
    op.eval env' l r = op.eval env l r := by
  unfold ArithOp.eval
  rw [he.toUint]

/-- and so has the last field of a stack, when it may be read. -/
theorem loadLastHeaderStackField (he : EnvAlike R env env') {s f : ℕ}
    (hr : ∀ p, (Op.loadLastHeaderStackField s f).reads env m = some p → R p.1 p.2) :
    env'.loadLastHeaderStackField s f = env.loadLastHeaderStackField s f := by
  simp only [Env.loadLastHeaderStackField, he.headerStacks]
  cases hs : env.phv.headerStacks[s]? with
  | none => rfl
  | some st =>
    cases hl : st.getLast with
    | none => simp [hl]
    | some h =>
      have hR := hr (h, f) (by simp [Op.reads, hs, hl])
      simp only [Option.bind_eq_bind, Option.bind_some, hl]
      exact he.loadField h f hR

/-- **One op does the same in both.** -/
theorem step (he : EnvAlike R env env') {op : Op}
    (hr : ∀ p, op.reads env m = some p → R p.1 p.2) :
    Expressions.step env' consts m op = Expressions.step env consts m op := by
  cases op with
  | loadField h f => simp only [Expressions.step, he.loadField h f (hr (h, f) rfl)]
  | loadLastHeaderStackField s f => simp only [Expressions.step, he.loadLastHeaderStackField hr]
  | accessField f =>
    simp only [Expressions.step]
    cases hp : m.popHeader with
    | none => rfl
    | some p =>
      have hR := hr (p.1, f) (by simp [Op.reads, hp])
      simp only [Option.bind_eq_bind, Option.bind_some, he.loadField p.1 f hR]
  | _ =>
    simp only [Expressions.step, he.locals, he.registers, he.loadHeader, he.loadUnion, he.loadStack,
      he.accessUnionHeader, he.cmpHeader, he.cmpUnion, he.validHeader, he.validUnion, he.getStack,
      he.getSize, he.dereference, he.evalArithOp]

/-- **And so does a run.** -/
theorem exec (he : EnvAlike R env env') {n : ℕ} {ops : List Op}
    (hr : ReadsWithin R env consts n ops m) :
    Expressions.exec env' consts n ops m = Expressions.exec env consts n ops m := by
  induction ops generalizing n m with
  | nil => cases n <;> rfl
  | cons op ops ih =>
    cases n with
    | succ n => exact ih hr
    | zero =>
      obtain ⟨hop, hrest⟩ := hr
      rw [Expressions.exec, Expressions.exec, he.step hop]
      cases hs : Expressions.step env consts m op with
      | none => rfl
      | some p =>
        obtain ⟨m', n⟩ := p
        exact ih (hrest m' n hs)

/-- Hence an arithmetic expression that reads within what may be read has one value -/
theorem evalArith (he : EnvAlike R env env') {e : Expression} {temps : List ℤ}
    (hr : e.ReadsWithin R env temps) : e.evalArith env' temps = e.evalArith env temps := by
  rw [Expression.evalArith, Expression.evalArith, he.exec hr]

/-- and a Boolean one has one answer. -/
theorem evalBool (he : EnvAlike R env env') {e : Expression} {temps : List ℤ}
    (hr : e.ReadsWithin R env temps) : e.evalBool env' temps = e.evalBool env temps := by
  rw [Expression.evalBool, Expression.evalBool, he.exec hr]

end EnvAlike

end

end Expressions

end P4Bricks
