import P4Bricks.Expressions.Tree
/-!
# Compiled expressions compute their trees

The induction is over trees, with the machine running the code of a subtree
in front of any other code. What carries it is a bound on registers: the code
of a subtree writes only registers from the number in use before it on, and
leaves its result below the number in use after it. A pending operand is
below the first bound, so nothing overwrites it.

After a ternary the allocator has counted the operands of both branches, and
ops that follow pop entries of the second branch where they mean those of
the operand before. The bound holds all the same: entries are only ever
popped from those the op's own operands left.
-/

namespace P4Bricks

namespace Expressions

/-! ## The code of a tree -/

/-- The constants of a tree, in the order they are appended. -/
def Leaf.pool {t : Ty} : Leaf t → List Data
  | .const d => [d]
  | _ => []

def Expr.pool {t : Ty} : Expr t → List Data
  | .leaf o => o.pool
  | .unary _ e => e.pool
  | .binary _ l r => l.pool ++ r.pool
  | .ternary c l r => c.pool ++ l.pool ++ r.pool

/-- The ops of a tree whose constants start at `offset` in the pool. -/
def Expr.code {t : Ty} : Expr t → ℕ → List Op
  | .leaf o, n => [o.op n]
  | .unary o e, n => e.code n ++ [o.op 0]
  | .binary o l r, n => l.code n ++ r.code (n + l.pool.length) ++ [o.op 0]
  | .ternary c l r, n =>
    let n₁ := n + c.pool.length
    let n₂ := n₁ + l.pool.length
    c.code n ++ (.ternaryOp :: .skip ((l.code n₁).length + 1) ::
      (l.code n₁ ++ .skip (r.code n₂).length :: r.code n₂))

theorem Leaf.relocate_op {t : Ty} (o : Leaf t) (n k : ℕ) :
    Expression.relocate k (o.op n) = o.op (n + k) := by
  cases o <;> rfl

theorem Unary.relocate_op {s t : Ty} (o : Unary s t) (d k : ℕ) :
    Expression.relocate k (o.op d) = o.op d := by
  cases o <;> rfl

theorem Binary.relocate_op {s₁ s₂ t : Ty} (o : Binary s₁ s₂ t) (d k : ℕ) :
    Expression.relocate k (o.op d) = o.op d := by
  cases o <;> rfl

/-- **Relocating code moves its constants and nothing else.** -/
theorem Expr.map_relocate_code {t : Ty} (e : Expr t) (n k : ℕ) :
    (e.code n).map (Expression.relocate k) = e.code (n + k) := by
  induction e generalizing n with
  | leaf o => simp only [code, List.map_cons, List.map_nil, o.relocate_op]
  | unary o e ih =>
    simp only [code, List.map_append, ih, List.map_cons, List.map_nil, o.relocate_op]
  | binary o l r ihl ihr =>
    simp only [code, List.map_append, ihl, ihr, List.map_cons, List.map_nil, o.relocate_op]
    rw [Nat.add_right_comm]
  | ternary c l r ihc ihl ihr =>
    have hn₁ : n + c.pool.length + k = n + k + c.pool.length := Nat.add_right_comm ..
    have hn₂ : n + c.pool.length + l.pool.length + k = n + k + c.pool.length + l.pool.length := by
      omega
    -- `SKIP` counts ops, and relocation keeps their number
    have hl := congrArg List.length (ihl (n + c.pool.length))
    have hr := congrArg List.length (ihr (n + c.pool.length + l.pool.length))
    rw [List.length_map, hn₁] at hl
    rw [List.length_map, hn₂] at hr
    simp only [code, List.map_append, List.map_cons, ihc, ihl, ihr, hn₁, hn₂, hl, hr]
    rfl

theorem Expr.length_code {t : Ty} (e : Expr t) (n : ℕ) : (e.code n).length = (e.code 0).length := by
  rw [← Nat.zero_add n, ← e.map_relocate_code, List.length_map]

/-- **Appending a tree appends its code and its constants.** -/
theorem Expr.emit_eq {t : Ty} (x : Expr t) (e : Expression) :
    x.emit e = { e with
      ops := e.ops ++ x.code e.constValues.length
      constValues := e.constValues ++ x.pool } := by
  induction x generalizing e with
  | leaf o => cases o <;> simp [emit, Leaf.emit, Expression.pushBackOp,
      Expression.pushBackLoadConst, code, pool, Leaf.pool, Leaf.op]
  | unary o x ih => simp [emit, ih, Expression.pushBackOp, code, pool]
  | binary o l r ihl ihr => simp [emit, ihl, ihr, Expression.pushBackOp, code, pool]
  | ternary c l r ihc ihl ihr =>
    simp only [emit, ihc, ihl, ihr, Expression.pushBackTernaryOp, Expression.pushBackOp,
      Expression.appendExpression, map_relocate_code, code, pool, List.nil_append, List.length_nil,
      Nat.zero_add, List.length_append, List.append_assoc, List.cons_append]
    rw [l.length_code (_ + _), r.length_code (_ + _)]
    simp only [Nat.add_assoc]

/-! ## Register assignment -/

/-- How many entries of the allocator an operand of this type leaves at
least. -/
def Ty.entries : Ty → ℕ
  | .data => 1
  | _ => 0

/-- The entries a unary op pushes. -/
def Unary.out {s t : Ty} : Unary s t → List ℕ
  | .registerGen _ | .accessField _ => [0]
  | .bitNeg | .boolToData | .lastStackIndex _ | .sizeStack _ => [1]
  | _ => []

def Binary.out {s₁ s₂ t : Ty} : Binary s₁ s₂ t → List ℕ
  | .arith _ => [1]
  | _ => []

def Leaf.out {t : Ty} : Leaf t → List ℕ
  | .field .. | .lastHeaderStackField .. | .const _ | .loc _ | .registerRef .. => [0]
  | _ => []

/-- The entries the code of a tree leaves on the allocator. -/
def Expr.regs {t : Ty} : Expr t → List ℕ
  | .leaf o => o.out
  | @Expr.unary s _ o e => o.out ++ e.regs.drop s.entries
  | @Expr.binary s₁ s₂ _ o l r =>
    o.out ++ (r.regs ++ l.regs).drop (s₁.entries + s₂.entries)
  | .ternary c l r => r.regs ++ l.regs ++ c.regs

/-- A tree leaves an entry for its result where that is a number. -/
theorem Expr.entries_le {t : Ty} (e : Expr t) : t.entries ≤ e.regs.length := by
  induction e with
  | leaf o => cases o <;> simp [regs, Leaf.out, Ty.entries]
  | unary o e ih => cases o <;> simp [regs, Unary.out, Ty.entries]
  | binary o l r ihl ihr => cases o <;> simp [regs, Binary.out, Ty.entries]
  | ternary c l r ihc ihl ihr =>
    rw [regs, List.length_append, List.length_append]
    omega

namespace Alloc

/-- Pop the entries of `n` operands. -/
def popN : ℕ → Alloc → Alloc
  | 0, a => a
  | n + 1, a => popN n a.pop

/-- Push the entry of a result, if it has one. -/
def pushOut (a : Alloc) : List ℕ → Alloc
  | [] => a
  | n :: _ => a.push n

/-- The allocator holds the entries `ns` above those of `a₀`. -/
structure Above (a₀ : Alloc) (ns : List ℕ) (a : Alloc) : Prop where
  newRegisters : a.newRegisters = ns ++ a₀.newRegisters
  curr : a.curr = a₀.curr + ns.sum

variable {a₀ a₁ a : Alloc} {ns ns' : List ℕ}

theorem Above.refl (a : Alloc) : Above a [] a := ⟨rfl, rfl⟩

theorem Above.trans (h : Above a₀ ns a₁) (h' : Above a₁ ns' a) : Above a₀ (ns' ++ ns) a := by
  constructor
  · rw [h'.newRegisters, h.newRegisters, List.append_assoc]
  · rw [h'.curr, h.curr, List.sum_append]
    omega

theorem Above.popN (h : Above a₀ ns a) {n : ℕ} (hn : n ≤ ns.length) :
    Above a₀ (ns.drop n) (a.popN n) := by
  induction n generalizing a ns with
  | zero => exact h
  | succ n ih =>
    obtain _ | ⟨k, ns⟩ := ns
    · simp at hn
    · refine ih (a := a.pop) ⟨?_, ?_⟩ (by simpa using hn)
      · simp [pop, h.newRegisters]
      · simp [pop, h.newRegisters, h.curr]
        omega

theorem Above.pushOut (h : Above a₀ ns a) {out : List ℕ} (hout : out.length ≤ 1) :
    Above a₀ (out ++ ns) (a.pushOut out) := by
  match out, hout with
  | [], _ => exact h
  | [n], _ =>
    constructor
    · simp [Alloc.pushOut, push, h.newRegisters]
    · simp [Alloc.pushOut, push, h.curr]
      omega

theorem Above.bump (h : Above a₀ ns a) : Above a₀ ns a.bump := ⟨h.newRegisters, h.curr⟩

@[simp] theorem popN_cnt (n : ℕ) (a : Alloc) : (a.popN n).cnt = a.cnt := by
  induction n generalizing a with
  | zero => rfl
  | succ n ih => exact ih a.pop

theorem pushOut_curr (a : Alloc) {out : List ℕ} (hout : out.length ≤ 1) :
    (a.pushOut out).curr = a.curr + out.sum := by
  match out, hout with
  | [], _ => rfl
  | [n], _ => rfl

@[simp] theorem pushOut_cnt (a : Alloc) (out : List ℕ) : (a.pushOut out).cnt = a.cnt := by
  cases out <;> rfl

end Alloc

theorem Leaf.assignOp_eq {t : Ty} (o : Leaf t) (a : Alloc) (n : ℕ) :
    assignOp a (o.op n) = (o.op n, (a.pushOut o.out).bump) := by
  cases o <;> rfl

/-- An op writes the register above what is left once its operands are
popped. -/
theorem Unary.assignOp_eq {s t : Ty} (o : Unary s t) (a : Alloc) (d : ℕ) :
    assignOp a (o.op d) =
      (o.op (a.popN s.entries).curr, ((a.popN s.entries).pushOut o.out).bump) := by
  cases o <;> rfl

theorem Binary.assignOp_eq {s₁ s₂ t : Ty} (o : Binary s₁ s₂ t) (a : Alloc) (d : ℕ) :
    assignOp a (o.op d) = (o.op (a.popN (s₁.entries + s₂.entries)).curr,
      ((a.popN (s₁.entries + s₂.entries)).pushOut o.out).bump) := by
  cases o <;> rfl

theorem assignDestRegisters_append (a : Alloc) (ops ops' : List Op) :
    assignDestRegisters a (ops ++ ops') =
      ((assignDestRegisters a ops).1 ++
        (assignDestRegisters (assignDestRegisters a ops).2 ops').1,
      (assignDestRegisters (assignDestRegisters a ops).2 ops').2) := by
  induction ops generalizing a with
  | nil => rfl
  | cons op ops ih => simp [assignDestRegisters, ih]

theorem length_assignDestRegisters (a : Alloc) (ops : List Op) :
    (assignDestRegisters a ops).1.length = ops.length := by
  induction ops generalizing a with
  | nil => rfl
  | cons op ops ih => simp [assignDestRegisters, ih]

theorem cnt_le_assignOp (a : Alloc) (op : Op) : a.cnt ≤ (assignOp a op).2.cnt := by
  cases op <;> exact le_max_left ..

/-- The count of registers only grows. -/
theorem cnt_le_assignDestRegisters (a : Alloc) (ops : List Op) :
    a.cnt ≤ (assignDestRegisters a ops).2.cnt := by
  induction ops generalizing a with
  | nil => exact le_rfl
  | cons op ops ih => exact (cnt_le_assignOp a op).trans (ih (assignOp a op).2)

/-- What the allocator does on the code of a tree: it ends with the tree's
entries on top, has counted all registers it gave out, and gave none out that
it did not count. -/
structure Assigned (a : Alloc) (regs : List ℕ) (r : List Op × Alloc) : Prop where
  above : Alloc.Above a regs r.2
  cnt_le : a.cnt ≤ r.2.cnt
  curr_le : r.2.curr ≤ r.2.cnt
  dest_lt : ∀ op ∈ r.1, ∀ d, op.dest? = some d → d < r.2.cnt

theorem Leaf.dest?_op {t : Ty} (o : Leaf t) (n : ℕ) : (o.op n).dest? = none := by
  cases o <;> rfl

theorem Unary.dest?_op {s t : Ty} (o : Unary s t) {dest d : ℕ} (h : (o.op dest).dest? = some d) :
    d = dest ∧ o.out = [1] := by
  cases o <;> simp_all [Unary.op, Op.dest?, Unary.out]

theorem Binary.dest?_op {s₁ s₂ t : Ty} (o : Binary s₁ s₂ t) {dest d : ℕ}
    (h : (o.op dest).dest? = some d) : d = dest ∧ o.out = [1] := by
  cases o <;> simp_all [Binary.op, Op.dest?, Binary.out]

theorem Unary.length_out {s t : Ty} (o : Unary s t) : o.out.length ≤ 1 := by
  cases o <;> simp [Unary.out]

theorem Binary.length_out {s₁ s₂ t : Ty} (o : Binary s₁ s₂ t) : o.out.length ≤ 1 := by
  cases o <;> simp [Binary.out]

theorem Leaf.length_out {t : Ty} (o : Leaf t) : o.out.length ≤ 1 := by
  cases o <;> simp [Leaf.out]

section Assigned

variable {a : Alloc} {ns ns' out : List ℕ} {ops ops' : List Op} {op op' : Op} {k : ℕ}

/-- One more op, popping entries the code before it left. -/
theorem assigned_operator (habove : Alloc.Above a ns (assignDestRegisters a ops).2)
    (hcnt : a.cnt ≤ (assignDestRegisters a ops).2.cnt)
    (hlt : ∀ x ∈ (assignDestRegisters a ops).1, ∀ d, x.dest? = some d →
      d < (assignDestRegisters a ops).2.cnt)
    (hk : k ≤ ns.length) (hout : out.length ≤ 1)
    (hop : assignOp (assignDestRegisters a ops).2 op =
      (op', (((assignDestRegisters a ops).2.popN k).pushOut out).bump))
    (hdest : ∀ d, op'.dest? = some d →
      d = ((assignDestRegisters a ops).2.popN k).curr ∧ out = [1]) :
    Assigned a (out ++ ns.drop k) (assignDestRegisters a (ops ++ [op])) := by
  have habove' := ((habove.popN hk).pushOut hout).bump
  rw [assignDestRegisters_append]
  simp only [assignDestRegisters, hop]
  refine ⟨habove', ?_, le_max_right .., ?_⟩
  · exact le_trans (by simpa using hcnt) (le_max_left ..)
  · intro x hx d hd
    rcases List.mem_append.mp hx with hx | hx
    · exact lt_of_lt_of_le (hlt x hx d hd) (le_trans (by simp) (le_max_left ..))
    · obtain rfl := List.mem_singleton.mp hx
      obtain ⟨rfl, rfl⟩ := hdest d hd
      exact lt_of_lt_of_le (Nat.lt_succ_self _) (le_max_right ..)

/-- Code after code. -/
theorem Assigned.append (h : Assigned a ns (assignDestRegisters a ops))
    (h' : Assigned (assignDestRegisters a ops).2 ns'
      (assignDestRegisters (assignDestRegisters a ops).2 ops')) :
    Assigned a (ns' ++ ns) (assignDestRegisters a (ops ++ ops')) := by
  rw [assignDestRegisters_append]
  refine ⟨h.above.trans h'.above, h.cnt_le.trans h'.cnt_le, h'.curr_le, ?_⟩
  intro x hx d hd
  rcases List.mem_append.mp hx with hx | hx
  · exact lt_of_lt_of_le (h.dest_lt x hx d hd) h'.cnt_le
  · exact h'.dest_lt x hx d hd

/-- `TERNARY_OP` and `SKIP` mean nothing to the allocator. -/
theorem Assigned.jump (h : Assigned a ns (assignDestRegisters a ops)) (op : Op)
    (hop : ∀ a, assignOp a op = (op, a.bump)) (hdest : op.dest? = none) :
    Assigned a ns (assignDestRegisters a (ops ++ [op])) :=
  assigned_operator (k := 0) h.above h.cnt_le h.dest_lt (Nat.zero_le _)
    (show ([] : List ℕ).length ≤ 1 from Nat.zero_le _) (hop _) fun d hd => by simp [hdest] at hd

end Assigned

/-- **The allocator covers the code of every tree.** -/
theorem Expr.assigned {t : Ty} (e : Expr t) (a : Alloc) (n : ℕ) :
    Assigned a e.regs (assignDestRegisters a (e.code n)) := by
  induction e generalizing a n with
  | leaf o =>
    have habove : Alloc.Above a [] (assignDestRegisters a []).2 := Alloc.Above.refl a
    have h := assigned_operator (k := 0) habove le_rfl (by simp [assignDestRegisters])
      le_rfl o.length_out (o.assignOp_eq a n) fun d hd => by simp [o.dest?_op] at hd
    simpa [regs, code] using h
  | unary o e ih =>
    have h := ih a n
    exact assigned_operator h.above h.cnt_le h.dest_lt e.entries_le o.length_out
      (o.assignOp_eq _ 0) fun d hd => o.dest?_op hd
  | binary o l r ihl ihr =>
    have h := (ihl a n).append (ihr _ (n + l.pool.length))
    refine assigned_operator h.above h.cnt_le h.dest_lt ?_ o.length_out
      (o.assignOp_eq _ 0) fun d hd => o.dest?_op hd
    have := l.entries_le
    have := r.entries_le
    rw [List.length_append]
    omega
  | ternary c l r ihc ihl ihr =>
    have hc := ((ihc a n).jump .ternaryOp (fun _ => rfl) rfl).jump
      (.skip ((l.code (n + c.pool.length)).length + 1)) (fun _ => rfl) rfl
    have hl := (hc.append (ihl _ (n + c.pool.length))).jump
      (.skip (r.code (n + c.pool.length + l.pool.length)).length) (fun _ => rfl) rfl
    have hr := hl.append (ihr _ (n + c.pool.length + l.pool.length))
    simpa [regs, code] using hr

/-! ## One op on the machine -/

/-- What the machine's stack of a type holds. -/
abbrev Slot : Ty → Type
  | .data => DataRef
  | .bool => Bool
  | _ => ℕ

namespace Machine

def withTemps (m : Machine) (temps : List ℤ) : Machine := { m with dataTemps := temps }

/-- Push on the stack of a type. -/
def push (m : Machine) : (t : Ty) → Slot t → Machine
  | .data, ref => m.pushData ref
  | .bool, b => m.pushBool b
  | .header, h => m.pushHeader h
  | .stack k, s => m.pushStack k s
  | .union, u => m.pushUnion u

@[simp] theorem push_dataTemps (m : Machine) {t : Ty} (slot : Slot t) :
    (m.push t slot).dataTemps = m.dataTemps := by
  cases t <;> rfl

theorem withTemps_push (m : Machine) {t : Ty} (slot : Slot t) (temps : List ℤ) :
    (m.push t slot).withTemps temps = (m.withTemps temps).push t slot := by
  cases t <;> rfl

end Machine

/-- The slot holds the value, in a register below `hi` if in a register. -/
def Reads (temps : List ℤ) (hi : ℕ) : (t : Ty) → Slot t → Val t → Prop
  | .data, .temp i, d => i < hi ∧ temps[i]? = some d.value ∧ d.arith = true
  | .data, .object d', d => d' = d
  | .bool, b', b => b' = b
  | .header, h', h => h' = h
  | .stack _, s', s => s' = s
  | .union, u', u => u' = u

/-- A value stays readable while the registers below its bound do not
change. -/
theorem Reads.mono {temps temps' : List ℤ} {hi hi' : ℕ} {t : Ty} {slot : Slot t} {v : Val t}
    (h : Reads temps hi t slot v) (hagree : ∀ i < hi, temps'[i]? = temps[i]?) (hle : hi ≤ hi') :
    Reads temps' hi' t slot v := by
  cases t with
  | data =>
    cases slot with
    | temp i => exact ⟨lt_of_lt_of_le h.1 hle, (hagree i h.1).trans h.2.1, h.2.2⟩
    | object d => exact h
  | bool => exact h
  | header => exact h
  | stack k => exact h
  | union => exact h

theorem Machine.deref_eq {m : Machine} {hi : ℕ} {ref : DataRef} {d : Data}
    (h : Reads m.dataTemps hi .data ref d) : m.deref ref = some d := by
  cases ref with
  | temp i =>
    obtain ⟨-, hget, harith⟩ := h
    simp [Machine.deref, hget, ← harith]
  | object d' => exact congrArg some h

theorem Machine.popData_pushData {m : Machine} {hi : ℕ} {ref : DataRef} {d : Data}
    (h : Reads m.dataTemps hi .data ref d) : (m.pushData ref).popData = some (d, m) := by
  have hd : (m.pushData ref).deref ref = some d := Machine.deref_eq h
  simp only [Machine.popData, Machine.pushData] at hd ⊢
  rw [hd]
  rfl

/-- The outcome of an op or of code: an error where the tree has no value,
else the value pushed, with the registers below `lo` as they were. -/
def Outcome (m : Machine) (lo hi : ℕ) (t : Ty) (run : Option Machine) (v : Option (Val t)) : Prop :=
  match v with
  | none => run = none
  | some v => ∃ temps slot, run = some ((m.withTemps temps).push t slot) ∧
      temps.length = m.dataTemps.length ∧ (∀ i < lo, temps[i]? = m.dataTemps[i]?) ∧
      Reads temps hi t slot v

/-- The slot of a value that is not in a register. -/
def Slot.ofVal : (t : Ty) → Val t → Slot t
  | .data, d => .object d
  | .bool, b => b
  | .header, h => h
  | .stack _, s => s
  | .union, u => u

theorem Slot.reads_ofVal (temps : List ℤ) (hi : ℕ) {t : Ty} (v : Val t) :
    Reads temps hi t (Slot.ofVal t v) v := by
  cases t <;> rfl

/-- Ops that push a reference or a truth value leave the registers alone. -/
theorem outcome_push (m : Machine) (lo hi : ℕ) {t : Ty} (v : Option (Val t)) :
    Outcome m lo hi t (v.map fun v => m.push t (Slot.ofVal t v)) v := by
  cases v with
  | none => rfl
  | some v => exact ⟨m.dataTemps, Slot.ofVal t v, rfl, rfl, fun _ _ => rfl, Slot.reads_ofVal ..⟩

/-- Ops that compute write one register, and no other. -/
theorem outcome_store {m : Machine} {dest : ℕ} (hdest : dest < m.dataTemps.length)
    (v : Option ℤ) :
    Outcome m dest (dest + 1) .data (v.bind (m.store dest)) (v.map fun v => { value := v }) := by
  cases v with
  | none => rfl
  | some v =>
    refine ⟨m.dataTemps.set dest v, .temp dest, ?_, List.length_set, fun i hi => ?_, ?_⟩
    · simp [Machine.store, hdest, Machine.push, Machine.pushData, Machine.withTemps]
    · exact List.getElem?_set_ne (by omega)
    · exact ⟨Nat.lt_succ_self _, by simp [hdest], rfl⟩

section Step

variable (env : Env) (consts : List Data) {m : Machine}

/-- A load pushes its value. -/
theorem Leaf.step_op {t : Ty} (o : Leaf t) {n : ℕ} (hpool : ∀ d ∈ o.pool, consts[n]? = some d) :
    step env consts m (o.op n) =
      ((o.denote env).map fun v => m.push t (Slot.ofVal t v)).map (·, 0) := by
  cases o with
  | const d => simp [step, Leaf.op, Leaf.denote, hpool d (by simp [Leaf.pool]), Machine.push,
      Slot.ofVal]
  | bool b => rfl
  | _ =>
    rw [Option.map_map]
    rfl

/-- **A unary op computes its operator.** -/
theorem Unary.step_op {s t : Ty} (o : Unary s t) {slot : Slot s} {v : Val s} {hi dest : ℕ}
    (hreads : Reads m.dataTemps hi s slot v) (hdest : o.out = [1] → dest < m.dataTemps.length) :
    ∃ run, Outcome m dest (dest + o.out.sum) t run (o.denote env v) ∧
      step env consts (m.push s slot) (o.op dest) = run.map (·, 0) := by
  have hpush := outcome_push m dest (dest + o.out.sum) (o.denote env v)
  cases o with
  | registerGen r =>
    refine ⟨_, hpush, ?_⟩
    simp only [step, Unary.op, Machine.push, Machine.popData_pushData hreads, Unary.denote]
    cases hs : env.getSize v with
    | none => simp [hs]
    | some i => cases hr : env.registers r i <;> simp [hs, hr, Slot.ofVal]
  | accessField f =>
    refine ⟨_, hpush, ?_⟩
    obtain rfl : slot = v := hreads
    cases h : env.loadField slot f <;>
      simp [step, Unary.op, Machine.push, Machine.popHeader, Machine.pushHeader, Unary.denote, h,
        Slot.ofVal]
  | accessUnionHeader f =>
    refine ⟨_, hpush, ?_⟩
    obtain rfl : slot = v := hreads
    cases h : env.accessUnionHeader f slot <;>
      simp [step, Unary.op, Machine.push, Machine.popUnion, Machine.pushUnion, Unary.denote, h,
        Slot.ofVal]
  -- Of the unary operators this one and the next three store a number in a register.
  | bitNeg =>
    refine ⟨_, outcome_store (hdest rfl) (negBits v), ?_⟩
    simp only [step, Unary.op, Machine.push, Machine.popData_pushData hreads]
    cases h : negBits v <;> simp [h]
  | not =>
    refine ⟨_, hpush, ?_⟩
    obtain rfl : slot = v := hreads
    rfl
  | validHeader =>
    refine ⟨_, hpush, ?_⟩
    obtain rfl : slot = v := hreads
    cases h : env.validHeader slot <;>
      simp [step, Unary.op, Machine.push, Machine.popHeader, Machine.pushHeader, Unary.denote, h,
        Slot.ofVal]
  | validUnion =>
    refine ⟨_, hpush, ?_⟩
    obtain rfl : slot = v := hreads
    cases h : env.validUnion slot <;>
      simp [step, Unary.op, Machine.push, Machine.popUnion, Machine.pushUnion, Unary.denote, h,
        Slot.ofVal]
  | dataToBool =>
    refine ⟨_, hpush, ?_⟩
    simp [step, Unary.op, Machine.push, Machine.popData_pushData hreads, Unary.denote, Slot.ofVal]
  | boolToData =>
    obtain rfl : slot = v := hreads
    exact ⟨_, outcome_store (hdest rfl) (some slot.toInt), rfl⟩
  | lastStackIndex k =>
    obtain rfl : slot = v := hreads
    have hstore := outcome_store (hdest rfl) ((env.getStack k slot).map lastIndex)
    refine ⟨_, by simpa [Unary.denote, Unary.out, Function.comp_def] using hstore, ?_⟩
    cases h : env.getStack k slot <;>
      simp [step, Unary.op, Machine.push, Machine.popStack, Machine.pushStack, h]
  | sizeStack k =>
    obtain rfl : slot = v := hreads
    have hstore := outcome_store (hdest rfl)
      ((env.getStack k slot).map fun st => (st.getCount : ℤ))
    refine ⟨_, by simpa [Unary.denote, Unary.out, Function.comp_def] using hstore, ?_⟩
    cases h : env.getStack k slot <;>
      simp [step, Unary.op, Machine.push, Machine.popStack, Machine.pushStack, h]

/-- **A binary op computes its operator.** -/
theorem Binary.step_op {s₁ s₂ t : Ty} (o : Binary s₁ s₂ t) {slot₁ : Slot s₁} {slot₂ : Slot s₂}
    {v₁ : Val s₁} {v₂ : Val s₂} {hi₁ hi₂ dest : ℕ} (h₁ : Reads m.dataTemps hi₁ s₁ slot₁ v₁)
    (h₂ : Reads m.dataTemps hi₂ s₂ slot₂ v₂) (hdest : o.out = [1] → dest < m.dataTemps.length) :
    ∃ run, Outcome m dest (dest + o.out.sum) t run (o.denote env v₁ v₂) ∧
      step env consts ((m.push s₁ slot₁).push s₂ slot₂) (o.op dest) = run.map (·, 0) := by
  have hpush := outcome_push m dest (dest + o.out.sum) (o.denote env v₁ v₂)
  cases o with
  | arith op =>
    refine ⟨_, outcome_store (hdest rfl) (op.eval env v₁ v₂), ?_⟩
    have hr : (((m.push .data slot₁).pushData slot₂)).popData = some (v₂, m.pushData slot₁) :=
      Machine.popData_pushData h₂
    simp only [step, Binary.op, Machine.push] at hr ⊢
    simp only [hr, Option.bind_eq_bind, Option.bind_some, Machine.popData_pushData h₁]
    cases op.eval env v₁ v₂ <;> simp
  | cmpData op =>
    refine ⟨_, hpush, ?_⟩
    have hr : (((m.push .data slot₁).pushData slot₂)).popData = some (v₂, m.pushData slot₁) :=
      Machine.popData_pushData h₂
    simp only [step, Binary.op, Machine.push, Binary.denote] at hr ⊢
    simp only [hr, Option.bind_eq_bind, Option.bind_some, Machine.popData_pushData h₁]
    cases op.eval v₁ v₂ <;> simp [Slot.ofVal]
  | cmpHeader neq =>
    refine ⟨_, hpush, ?_⟩
    obtain rfl : slot₁ = v₁ := h₁
    obtain rfl : slot₂ = v₂ := h₂
    cases h : env.cmpHeader neq slot₁ slot₂ <;>
      simp [step, Binary.op, Machine.push, Machine.popHeader, Machine.pushHeader, Binary.denote, h,
        Slot.ofVal]
  | cmpUnion neq =>
    refine ⟨_, hpush, ?_⟩
    obtain rfl : slot₁ = v₁ := h₁
    obtain rfl : slot₂ = v₂ := h₂
    cases h : env.cmpUnion neq slot₁ slot₂ <;>
      simp [step, Binary.op, Machine.push, Machine.popUnion, Machine.pushUnion, Binary.denote, h,
        Slot.ofVal]
  | boolOp op =>
    refine ⟨_, hpush, ?_⟩
    obtain rfl : slot₁ = v₁ := h₁
    obtain rfl : slot₂ = v₂ := h₂
    rfl
  | dereferenceHeaderStack =>
    refine ⟨_, hpush, ?_⟩
    obtain rfl : slot₁ = v₁ := h₁
    have hr : ((m.pushStack .header slot₁).pushData slot₂).popData =
      some (v₂, m.pushStack .header slot₁) := Machine.popData_pushData h₂
    simp only [step, Binary.op, Machine.push, hr, Binary.denote]
    cases h : env.dereference .header slot₁ v₂ <;>
      simp [Machine.popStack, Machine.pushStack, h, Slot.ofVal]
  | dereferenceUnionStack =>
    refine ⟨_, hpush, ?_⟩
    obtain rfl : slot₁ = v₁ := h₁
    have hr : ((m.pushStack .union slot₁).pushData slot₂).popData =
      some (v₂, m.pushStack .union slot₁) := Machine.popData_pushData h₂
    simp only [step, Binary.op, Machine.push, hr, Binary.denote]
    cases h : env.dereference .union slot₁ v₂ <;>
      simp [Machine.popStack, Machine.pushStack, h, Slot.ofVal]

end Step

/-! ## Code on the machine -/

section Exec

variable {env : Env} {consts : List Data} {m : Machine}

/-- A count of skipped ops that is the length of some code leads right past
it. -/
theorem exec_skip (ops rest : List Op) :
    exec env consts ops.length (ops ++ rest) m = exec env consts 0 rest m := by
  induction ops with
  | nil => rfl
  | cons op ops ih => exact ih

theorem exec_cons (op : Op) (rest : List Op) :
    exec env consts 0 (op :: rest) m =
      (step env consts m op).bind fun r => exec env consts r.2 rest r.1 := by
  rw [exec]
  cases step env consts m op <;> rfl

/-- An outcome on changed registers is one on the old, below the change. -/
theorem Outcome.widen {temps : List ℤ} {lo lo' hi : ℕ} {t : Ty} {run : Option Machine}
    {v : Option (Val t)} (h : Outcome (m.withTemps temps) lo' hi t run v)
    (hlen : temps.length = m.dataTemps.length) (hagree : ∀ i < lo, temps[i]? = m.dataTemps[i]?)
    (hle : lo ≤ lo') : Outcome m lo hi t run v := by
  cases v with
  | none => exact h
  | some v =>
    obtain ⟨temps', slot, hrun, hlen', hagree', hreads⟩ := h
    refine ⟨temps', slot, hrun, hlen'.trans hlen, fun i hi => ?_, hreads⟩
    exact (hagree' i (by omega)).trans (hagree i hi)

/-- Raising the bound on the result. -/
theorem Outcome.mono {lo hi hi' : ℕ} {t : Ty} {run : Option Machine} {v : Option (Val t)}
    (h : Outcome m lo hi t run v) (hle : hi ≤ hi') : Outcome m lo hi' t run v := by
  cases v with
  | none => exact h
  | some v =>
    obtain ⟨temps, slot, hrun, hlen, hagree, hreads⟩ := h
    exact ⟨temps, slot, hrun, hlen, hagree, hreads.mono (fun _ _ => rfl) hle⟩

/-- The code of a tree: the outcome of running it, whatever follows. -/
def Computes (env : Env) (consts : List Data) (m : Machine) (lo hi : ℕ) (ops : List Op) {t : Ty}
    (v : Option (Val t)) : Prop :=
  ∃ run, Outcome m lo hi t run v ∧
    ∀ rest, exec env consts 0 (ops ++ rest) m = run.bind (exec env consts 0 rest)

/-- An operator after the code of its operand. -/
theorem computes_unary {s t : Ty} (o : Unary s t) (e : Expr s) {a : Alloc} {n : ℕ}
    (hlen : (assignDestRegisters a ((Expr.unary o e).code n)).2.cnt ≤ m.dataTemps.length)
    (he : Computes env consts m a.curr (assignDestRegisters a (e.code n)).2.curr
      (assignDestRegisters a (e.code n)).1 (e.denote env)) :
    Computes env consts m a.curr (assignDestRegisters a ((Expr.unary o e).code n)).2.curr
      (assignDestRegisters a ((Expr.unary o e).code n)).1 ((Expr.unary o e).denote env) := by
  have habove := (e.assigned a n).above.popN e.entries_le
  rw [Expr.code, assignDestRegisters_append] at hlen ⊢
  simp only [assignDestRegisters, o.assignOp_eq, Alloc.bump] at hlen ⊢
  rw [Alloc.pushOut_curr _ o.length_out] at hlen ⊢
  set dest := ((assignDestRegisters a (e.code n)).2.popN s.entries).curr with hdest
  have hlo : a.curr ≤ dest := by
    rw [hdest, habove.curr]
    omega
  obtain ⟨run, hout, hexec⟩ := he
  simp only [Expr.denote]
  cases hv : e.denote env with
  | none =>
    rw [hv] at hout
    refine ⟨none, rfl, fun rest => ?_⟩
    rw [List.append_assoc, hexec, show run = none from hout]
    rfl
  | some v =>
    rw [hv] at hout
    obtain ⟨temps, slot, hrun, htemps, hagree, hreads⟩ := hout
    have hwrite : o.out = [1] → dest < (m.withTemps temps).dataTemps.length := by
      intro ho
      rw [ho] at hlen
      exact lt_of_lt_of_le (Nat.lt_succ_self _) (((le_max_right ..).trans hlen).trans htemps.ge)
    obtain ⟨run', hout', hstep⟩ :=
      o.step_op env consts (show Reads (m.withTemps temps).dataTemps _ s slot v from hreads) hwrite
    refine ⟨run', hout'.widen htemps hagree hlo, fun rest => ?_⟩
    rw [List.append_assoc, hexec, hrun, Option.bind_some, List.singleton_append, exec_cons, hstep]
    cases run' <;> rfl

/-- An operator after the code of its operands. The left operand is still
there when the code of the right one has run. -/
theorem computes_binary {s₁ s₂ t : Ty} (o : Binary s₁ s₂ t) (l : Expr s₁) (r : Expr s₂)
    {a : Alloc} {n : ℕ}
    (hlen : (assignDestRegisters a ((Expr.binary o l r).code n)).2.cnt ≤ m.dataTemps.length)
    (hl : Computes env consts m a.curr (assignDestRegisters a (l.code n)).2.curr
      (assignDestRegisters a (l.code n)).1 (l.denote env))
    (hr : ∀ m' : Machine, m'.dataTemps.length = m.dataTemps.length →
      let a' := (assignDestRegisters a (l.code n)).2
      Computes env consts m' a'.curr
        (assignDestRegisters a' (r.code (n + l.pool.length))).2.curr
        (assignDestRegisters a' (r.code (n + l.pool.length))).1 (r.denote env)) :
    Computes env consts m a.curr (assignDestRegisters a ((Expr.binary o l r).code n)).2.curr
      (assignDestRegisters a ((Expr.binary o l r).code n)).1 ((Expr.binary o l r).denote env) := by
  have hboth := (l.assigned a n).append (r.assigned _ (n + l.pool.length))
  have hk : s₁.entries + s₂.entries ≤ (r.regs ++ l.regs).length := by
    have := l.entries_le
    have := r.entries_le
    rw [List.length_append]
    omega
  have habove := hboth.above.popN hk
  have habove₂ := (r.assigned (assignDestRegisters a (l.code n)).2 (n + l.pool.length)).above
  rw [Expr.code, assignDestRegisters_append] at hlen ⊢
  simp only [assignDestRegisters, o.assignOp_eq, Alloc.bump] at hlen ⊢
  rw [Alloc.pushOut_curr _ o.length_out] at hlen ⊢
  set dest := ((assignDestRegisters a (l.code n ++ r.code (n + l.pool.length))).2.popN
    (s₁.entries + s₂.entries)).curr with hdest
  -- The registers of both operands are free again, so the result may go into one of them.
  have hlo : a.curr ≤ dest := by
    rw [hdest, habove.curr]
    omega
  obtain ⟨run, hout, hexec⟩ := hl
  rw [assignDestRegisters_append]
  simp only [Expr.denote, List.append_assoc]
  cases hv : l.denote env with
  -- The left operand has no value: the rest of the code is not reached.
  | none =>
    rw [hv] at hout
    refine ⟨none, rfl, fun rest => ?_⟩
    rw [List.append_assoc, hexec, show run = none from hout]
    rfl
  | some v =>
    rw [hv] at hout
    obtain ⟨temps, slot, hrun, htemps, hagree, hreads⟩ := hout
    obtain ⟨run₂, hout₂, hexec₂⟩ := hr ((m.withTemps temps).push s₁ slot)
      (by rw [Machine.push_dataTemps]; exact htemps)
    cases hw : r.denote env with
    | none =>
      rw [hw] at hout₂
      refine ⟨none, by rw [Option.bind_some, Option.bind_none]; rfl, fun rest => ?_⟩
      rw [List.append_assoc, hexec, hrun, Option.bind_some, List.append_assoc, hexec₂,
        show run₂ = none from hout₂]
      rfl
    | some w =>
      rw [hw] at hout₂
      obtain ⟨temps₂, slot₂, hrun₂, htemps₂, hagree₂, hreads₂⟩ := hout₂
      rw [Machine.push_dataTemps] at htemps₂ hagree₂
      rw [Machine.withTemps_push] at hrun₂
      have htemps₂' : temps₂.length = m.dataTemps.length := htemps₂.trans htemps
      -- The register of the result exists, as the count covers it.
      have hwrite : o.out = [1] → dest < (m.withTemps temps₂).dataTemps.length := by
        intro ho
        rw [ho] at hlen
        exact lt_of_lt_of_le (Nat.lt_succ_self _) (((le_max_right ..).trans hlen).trans htemps₂'.ge)
      obtain ⟨run₃, hout₃, hstep⟩ := o.step_op env consts
        (show Reads (m.withTemps temps₂).dataTemps _ s₁ slot v from hreads.mono hagree₂ le_rfl)
        (show Reads (m.withTemps temps₂).dataTemps _ s₂ slot₂ w from hreads₂) hwrite
      -- Registers below those of the operands keep what they held.
      refine ⟨run₃, hout₃.widen htemps₂' (fun i hi => ?_) hlo, fun rest => ?_⟩
      · have hl₁ := (l.assigned a n).above.curr
        exact (hagree₂ i (by omega)).trans (hagree i hi)
      · rw [List.append_assoc, hexec, hrun, Option.bind_some, List.append_assoc, hexec₂, hrun₂,
          Option.bind_some, List.singleton_append, exec_cons]
        simp only [Machine.withTemps] at hstep ⊢
        rw [hstep]
        cases run₃ <;> rfl

/-- A condition, and the code of both branches with the jumps around them.
Whichever branch runs, the other is passed over whole. -/
theorem computes_ternary {t : Ty} {c : Expr .bool} {l r : Expr t} {cops lops rops : List Op}
    {k j lo lo₁ lo₂ hi₁ hi₂ : ℕ}
    (hc : Computes env consts m lo lo₁ cops (c.denote env))
    (hk : k = lops.length + 1) (hj : j = rops.length)
    (hl : ∀ m' : Machine, m'.dataTemps.length = m.dataTemps.length →
      Computes env consts m' lo₁ hi₁ lops (l.denote env))
    (hr : ∀ m' : Machine, m'.dataTemps.length = m.dataTemps.length →
      Computes env consts m' lo₂ hi₂ rops (r.denote env))
    (h₁ : lo ≤ lo₁) (h₂ : lo ≤ lo₂) (hle : hi₁ ≤ hi₂) :
    Computes env consts m lo hi₂
      (cops ++ (.ternaryOp :: .skip k :: (lops ++ .skip j :: rops)))
      ((Expr.ternary c l r).denote env) := by
  obtain ⟨run, hout, hexec⟩ := hc
  simp only [Expr.denote]
  cases hb : c.denote env with
  | none =>
    rw [hb] at hout
    refine ⟨none, rfl, fun rest => ?_⟩
    rw [List.append_assoc, hexec, show run = none from hout]
    rfl
  | some b =>
    rw [hb] at hout
    obtain ⟨temps, slot, hrun, htemps, hagree, hreads⟩ := hout
    obtain rfl : slot = b := hreads
    -- the condition is popped, and the index moves on by one if it holds
    have hstep : step env consts ((m.withTemps temps).push .bool slot) .ternaryOp =
        some (m.withTemps temps, if slot then 1 else 0) := rfl
    cases slot with
    | true =>
      obtain ⟨run', hout', hexec'⟩ := hl (m.withTemps temps) htemps
      refine ⟨run', (hout'.widen htemps hagree h₁).mono hle, fun rest => ?_⟩
      rw [List.append_assoc, hexec, hrun, Option.bind_some, List.cons_append, exec_cons, hstep]
      simp only [Option.bind_some, if_true, List.cons_append, List.append_assoc, exec]
      rw [hexec']
      congr 1
      funext m'
      rw [exec_cons]
      simp only [step, Option.bind_some, hj]
      exact exec_skip rops rest
    | false =>
      obtain ⟨run', hout', hexec'⟩ := hr (m.withTemps temps) htemps
      refine ⟨run', hout'.widen htemps hagree h₂, fun rest => ?_⟩
      rw [List.append_assoc, hexec, hrun, Option.bind_some, List.cons_append, exec_cons, hstep]
      simp only [Option.bind_some, Bool.false_eq_true, if_false, List.cons_append]
      rw [exec_cons]
      simp only [step, Option.bind_some, hk]
      have hskip : exec env consts (lops ++ [Op.skip j]).length
          (lops ++ [Op.skip j] ++ (rops ++ rest)) (m.withTemps temps) =
            exec env consts 0 (rops ++ rest) (m.withTemps temps) := exec_skip _ _
      rw [List.length_append, List.length_singleton] at hskip
      simp only [List.append_assoc, List.singleton_append] at hskip ⊢
      exact hskip.trans (hexec' rest)

/-- **The code of a tree computes its value.** Whatever stands before the
tree's constants in the pool, whatever registers are in use, and whatever
code follows. -/
theorem Expr.computes {t : Ty} (e : Expr t) (a : Alloc) {pre post : List Data} {n : ℕ}
    (hn : pre.length = n) (hconsts : consts = pre ++ e.pool ++ post)
    (hlen : (assignDestRegisters a (e.code n)).2.cnt ≤ m.dataTemps.length) :
    Computes env consts m a.curr (assignDestRegisters a (e.code n)).2.curr
      (assignDestRegisters a (e.code n)).1 (e.denote env) := by
  induction e generalizing a pre post n m with
  | leaf o =>
    refine ⟨_, outcome_push m _ _ (o.denote env), fun rest => ?_⟩
    have hpool : ∀ d ∈ o.pool, consts[n]? = some d := by
      cases o with
      | const d => simp [hconsts, Expr.pool, Leaf.pool, ← hn]
      | _ => simp [Leaf.pool]
    simp only [Expr.code, assignDestRegisters, o.assignOp_eq, List.singleton_append, exec_cons,
      o.step_op env consts hpool]
    cases o.denote env <;> rfl
  | unary o e ih =>
    refine computes_unary o e hlen (ih a hn hconsts ?_)
    rw [code, assignDestRegisters_append] at hlen
    exact (cnt_le_assignDestRegisters ..).trans hlen
  | binary o l r ihl ihr =>
    -- The pools of the operands lie one behind the other.
    have hl : consts = pre ++ l.pool ++ (r.pool ++ post) := by simp [hconsts, pool]
    have hr : consts = (pre ++ l.pool) ++ r.pool ++ post := by simp [hconsts, pool]
    have hcnt := hlen
    rw [code, assignDestRegisters_append, assignDestRegisters_append] at hcnt
    have hcnt₂ := (cnt_le_assignDestRegisters ..).trans hcnt
    have hcnt₁ := (cnt_le_assignDestRegisters ..).trans hcnt₂
    refine computes_binary o l r hlen (ihl a hn hl hcnt₁) fun m' hm' => ?_
    exact ihr _ (by simp [hn]) hr (by rw [hm']; exact hcnt₂)
  | ternary c l r ihc ihl ihr =>
    have hc : consts = pre ++ c.pool ++ (l.pool ++ r.pool ++ post) := by simp [hconsts, pool]
    have hl : consts = (pre ++ c.pool) ++ l.pool ++ (r.pool ++ post) := by simp [hconsts, pool]
    have hr : consts = (pre ++ c.pool ++ l.pool) ++ r.pool ++ post := by simp [hconsts, pool]
    obtain ⟨n₁, hn₁⟩ : ∃ n₁, n₁ = n + c.pool.length := ⟨_, rfl⟩
    obtain ⟨n₂, hn₂⟩ : ∃ n₂, n₂ = n₁ + l.pool.length := ⟨_, rfl⟩
    obtain ⟨a₁, ha₁⟩ : ∃ a₁, a₁ = (assignDestRegisters a (c.code n)).2 := ⟨_, rfl⟩
    obtain ⟨a₂, ha₂⟩ : ∃ a₂, a₂ = (assignDestRegisters a₁.bump.bump (l.code n₁)).2 := ⟨_, rfl⟩
    -- Condition, jump, left branch, jump over the right one, right branch.
    have heq : assignDestRegisters a ((ternary c l r).code n) =
        ((assignDestRegisters a (c.code n)).1 ++ (.ternaryOp :: .skip ((l.code n₁).length + 1) ::
          ((assignDestRegisters a₁.bump.bump (l.code n₁)).1 ++ .skip (r.code n₂).length ::
            (assignDestRegisters a₂.bump (r.code n₂)).1)),
        (assignDestRegisters a₂.bump (r.code n₂)).2) := by
      subst ha₂ ha₁ hn₂ hn₁
      simp only [code, assignDestRegisters_append, assignDestRegisters, assignOp]
    rw [heq] at hlen ⊢
    -- Each part needs no more registers than the whole.
    have hcnt₂ : a₂.cnt ≤ m.dataTemps.length :=
      ((le_max_left ..).trans (cnt_le_assignDestRegisters a₂.bump (r.code n₂))).trans hlen
    have hcnt₁ : a₁.cnt ≤ m.dataTemps.length := by
      have hgrow := cnt_le_assignDestRegisters a₁.bump.bump (l.code n₁)
      rw [← ha₂] at hgrow
      exact (((le_max_left ..).trans (le_max_left ..)).trans hgrow).trans hcnt₂
    have hcurr₁ := (c.assigned a n).above.curr
    have hcurr₂ := (l.assigned a₁.bump.bump n₁).above.curr
    have hcurr₃ := (r.assigned a₂.bump n₂).above.curr
    rw [← ha₁] at hcurr₁
    rw [← ha₂] at hcurr₂
    have hbump : ∀ a : Alloc, a.bump.curr = a.curr := fun _ => rfl
    rw [hbump, hbump] at hcurr₂
    rw [hbump] at hcurr₃
    have hlc := ihc a hn hc (by rw [← ha₁]; exact hcnt₁)
    rw [← ha₁] at hlc
    refine computes_ternary hlc (by rw [length_assignDestRegisters])
      (by rw [length_assignDestRegisters])
      (fun m' hm' => ihl a₁.bump.bump (by simp [hn, hn₁]) hl (by rw [← ha₂, hm']; exact hcnt₂))
      (fun m' hm' => ihr a₂.bump (by simp [hn, hn₁, hn₂, Nat.add_assoc]) hr (by rw [hm']; exact hlen)) ?_ ?_ ?_
    · omega
    · rw [hbump]
      omega
    · rw [← ha₂]
      simp only [hcurr₃]
      omega

end Exec

/-! ## Whole expressions -/

/-- Starting on an empty machine, a built expression runs to the value of its
tree. -/
theorem computes_build {t : Ty} (e : Expr t) (env : Env) (temps : List ℤ) :
    ∃ run hi, Outcome ((e.emit {}).build.start temps) 0 hi t run (e.denote env) ∧
      exec env (e.emit {}).build.constValues 0 (e.emit {}).build.ops
        ((e.emit {}).build.start temps) = run := by
  have hpool : (e.emit {}).build.constValues = [] ++ e.pool ++ [] := by
    simp [Expression.build, e.emit_eq]
  have hops : (e.emit {}).build.ops = (assignDestRegisters {} (e.code 0)).1 := by
    simp [Expression.build, e.emit_eq]
  have hlen : (assignDestRegisters {} (e.code 0)).2.cnt ≤
      ((e.emit {}).build.start temps).dataTemps.length := by
    have hcnt : (e.emit {}).build.dataRegistersCnt = (assignDestRegisters {} (e.code 0)).2.cnt := by
      simp [Expression.build, e.emit_eq]
    simp only [Expression.start, hcnt, List.length_append, List.length_replicate]
    omega
  obtain ⟨run, hout, hexec⟩ := e.computes {} List.length_nil hpool hlen
  refine ⟨run, _, hout, ?_⟩
  have hrun := hexec []
  rw [List.append_nil] at hrun
  rw [hops, hrun]
  cases run <;> rfl

theorem ops_build_ne_nil {t : Ty} (e : Expr t) : (e.emit {}).build.ops.isEmpty = false := by
  have hlen : (e.emit {}).build.ops.length = (e.code 0).length := by
    simp [Expression.build, e.emit_eq, length_assignDestRegisters]
  have hcode : (e.code 0).length ≠ 0 := by cases e <;> simp [Expr.code]
  rw [List.isEmpty_eq_false_iff, ← List.length_pos_iff_ne_nil]
  omega

/-- **Compiled expressions compute their trees.** A well-typed tree appended
to a new expression and built evaluates, on any packet and whatever the
registers held before, to the tree's value, or fails where the tree has none;
and each register it writes is among those reserved for it. -/
theorem eval_build_eq_denote (env : Env) (temps : List ℤ) :
    (∀ e : Expr .bool, (e.emit {}).build.evalBool env temps = e.denote env) ∧
    (∀ e : Expr .data, (e.emit {}).build.evalArith env temps = (e.denote env).map Data.value) ∧
    ∀ (t : Ty) (e : Expr t), ∀ op ∈ (e.emit {}).build.ops, ∀ dest, op.dest? = some dest →
      dest < (e.emit {}).build.dataRegistersCnt := by
  refine ⟨fun e => ?_, fun e => ?_, fun t e op hop dest hdest => ?_⟩
  · obtain ⟨run, hi, hout, hexec⟩ := computes_build e env temps
    rw [Expression.evalBool, ops_build_ne_nil, hexec]
    cases hv : e.denote env with
    | none =>
      rw [hv] at hout
      rw [show run = none from hout]
      rfl
    | some b =>
      rw [hv] at hout
      obtain ⟨temps', slot, rfl, -, -, hreads⟩ := hout
      exact congrArg some hreads
  · obtain ⟨run, hi, hout, hexec⟩ := computes_build e env temps
    rw [Expression.evalArith, ops_build_ne_nil, hexec]
    cases hv : e.denote env with
    | none =>
      rw [hv] at hout
      rw [show run = none from hout]
      rfl
    | some d =>
      rw [hv] at hout
      obtain ⟨temps', ref, rfl, -, -, hreads⟩ := hout
      set m := ((e.emit {}).build.start temps).withTemps temps' with hm
      have hd : (m.push .data ref).deref ref = some d :=
        Machine.deref_eq (by rw [Machine.push_dataTemps]; exact hreads)
      simp only [Bool.false_eq_true, if_false, Option.bind_eq_bind, Option.bind_some]
      have hhead : (m.push .data ref).dataStack.head? = some ref := rfl
      rw [hhead, Option.bind_some, hd]
      rfl
  · have hassigned := e.assigned {} 0
    simp only [Expression.build, e.emit_eq, List.nil_append, List.length_nil] at hop ⊢
    exact hassigned.dest_lt op hop dest hdest

end Expressions

end P4Bricks
