import P4Bricks.Expressions.Json
import P4Bricks.Expressions.Correctness
import P4Bricks.Expressions.Enabled
/-!
# Building the expressions of the language

`Means` is the language: which JSON stands for which typed tree, with one constructor for each
kind of literal and one for each way to combine. A load is right when it hands up the tree's
type and appends the tree's own ops, and then the program computes the tree.

Three slips keep it from that. An `access_field` leaves the type unknown, which an equality does
not accept, nor a ternary whose other branch has one. The member of an `access_union_header`
is a number, which the operators of one operand walk as if it were an expression. And a union
that is named has no arithmetic enabled, so that it can be compared only with one whose valid
member is another.
-/

namespace P4Bricks

namespace Expressions

/-! ## The language -/

/-- The type that a load hands up for a tree. -/
def Ty.exprType : Ty → ExprType
  | .data => .data
  | .bool => .bool
  | .header => .header
  | .stack .header => .headerStack
  | .stack .union => .unionStack
  | .union => .union

/-- The comparison of a type that has one. -/
def Ty.comparison (neq : Bool) : (t : Ty) → Option (Binary t t .bool)
  | .data => some (.cmpData (if neq then .neq else .eq))
  | .bool => some (.boolOp (if neq then .neq else .eq))
  | .header => some (.cmpHeader neq)
  | .union => some (.cmpUnion neq)
  | .stack _ => none

/-- The operators of one operand. -/
inductive UnaryOf : ExprOp → {s t : Ty} → Unary s t → Prop where
  | bitNeg : UnaryOf .bitNeg .bitNeg
  | not : UnaryOf .not .not
  | valid : UnaryOf .valid .validHeader
  | validUnion : UnaryOf .validUnion .validUnion
  | d2b : UnaryOf .d2b .dataToBool
  | b2d : UnaryOf .b2d .boolToData
  | lastStackIndex (kind : StackKind) : UnaryOf .lastStackIndex (.lastStackIndex kind)
  | sizeStack (kind : StackKind) : UnaryOf .sizeStack (.sizeStack kind)

/-- The operators of two operands, the equalities apart. -/
inductive BinaryOf : ExprOp → {s₁ s₂ t : Ty} → Binary s₁ s₂ t → Prop where
  | add : BinaryOf .add (.arith .add)
  | sub : BinaryOf .sub (.arith .sub)
  | mod : BinaryOf .mod (.arith .mod)
  | div : BinaryOf .div (.arith .div)
  | mul : BinaryOf .mul (.arith .mul)
  | shiftLeft : BinaryOf .shiftLeft (.arith .shiftLeft)
  | shiftRight : BinaryOf .shiftRight (.arith .shiftRight)
  | bitAnd : BinaryOf .bitAnd (.arith .bitAnd)
  | bitOr : BinaryOf .bitOr (.arith .bitOr)
  | bitXor : BinaryOf .bitXor (.arith .bitXor)
  | twoCompMod : BinaryOf .twoCompMod (.arith .twoCompMod)
  | gt : BinaryOf .gt (.cmpData .gt)
  | lt : BinaryOf .lt (.cmpData .lt)
  | get : BinaryOf .get (.cmpData .get)
  | let : BinaryOf .let (.cmpData .let)
  | and : BinaryOf .and (.boolOp .and)
  | or : BinaryOf .or (.boolOp .or)
  | dereferenceStack : BinaryOf .dereferenceStack .dereferenceHeaderStack
  | dereferenceHeaderStack : BinaryOf .dereferenceHeaderStack .dereferenceHeaderStack
  | dereferenceUnionStack : BinaryOf .dereferenceUnionStack .dereferenceUnionStack

/-- The two operators that may be signs. -/
inductive SignOf : ExprOp → ArithOp → Prop where
  | plus : SignOf .add .add
  | minus : SignOf .sub .sub

/-- `Means toUint j e`: the JSON `j` is the well-typed expression `e`. -/
inductive Means (toUint : ℤ → ℕ) : {t : Ty} → JsonExpr → Expr t → Prop where
  | header (h : ℕ) : Means toUint (.header h) (.leaf (.header h))
  | field (h offset : ℕ) : Means toUint (.field h offset) (.leaf (.field h offset))
  | bool (b : Bool) : Means toUint (.bool b) (.leaf (.bool b))
  | hexstr (d : Data) : Means toUint (.hexstr d) (.leaf (.const d))
  | loc (offset : ℕ) : Means toUint (.loc offset) (.leaf (.loc offset))
  | headerStack (s : ℕ) : Means toUint (.headerStack s) (.leaf (.stack .header s))
  | stackField (s offset : ℕ) :
      Means toUint (.stackField s offset) (.leaf (.lastHeaderStackField s offset))
  | headerUnion (u : ℕ) : Means toUint (.headerUnion u) (.leaf (.union u))
  | headerUnionStack (s : ℕ) : Means toUint (.headerUnionStack s) (.leaf (.stack .union s))
  | cell (array : ℕ) (d : Data) :
      Means toUint (.register array (.hexstr d)) (.leaf (.registerRef array (toUint d.value)))
  | register {array : ℕ} {index : JsonExpr} {i : Expr .data} (hi : Means toUint index i)
      (hconst : ∀ d, index ≠ .hexstr d) :
      Means toUint (.register array index) (.unary (.registerGen array) i)
  | ternary {t : Ty} {l r c : JsonExpr} {x y : Expr t} {b : Expr .bool}
      (hc : Means toUint c b) (hl : Means toUint l x) (hr : Means toUint r y) :
      Means toUint (.expression .ternary l r c) (.ternary b x y)
  | eq {t : Ty} {l r c : JsonExpr} {x y : Expr t} {o : Binary t t .bool}
      (ho : t.comparison false = some o) (hl : Means toUint l x) (hr : Means toUint r y) :
      Means toUint (.expression .eq l r c) (.binary o x y)
  | neq {t : Ty} {l r c : JsonExpr} {x y : Expr t} {o : Binary t t .bool}
      (ho : t.comparison true = some o) (hl : Means toUint l x) (hr : Means toUint r y) :
      Means toUint (.expression .neq l r c) (.binary o x y)
  | accessField {offset : ℕ} {l c : JsonExpr} {x : Expr .header} (hl : Means toUint l x) :
      Means toUint (.expression .accessField l (.int offset) c) (.unary (.accessField offset) x)
  | accessUnionHeader {offset : ℕ} {l c : JsonExpr} {x : Expr .union} (hl : Means toUint l x) :
      Means toUint (.expression .accessUnionHeader l (.int offset) c)
        (.unary (.accessUnionHeader offset) x)
  | sign {op : ExprOp} {o : ArithOp} {r c : JsonExpr} {y : Expr .data} (ho : SignOf op o)
      (hr : Means toUint r y) :
      Means toUint (.expression op .null r c)
        (.binary (.arith o) (.leaf (.const { value := 0 })) y)
  | unary {op : ExprOp} {s t : Ty} {o : Unary s t} {r c : JsonExpr} {y : Expr s}
      (ho : UnaryOf op o) (hr : Means toUint r y) :
      Means toUint (.expression op .null r c) (.unary o y)
  | binary {op : ExprOp} {s₁ s₂ t : Ty} {o : Binary s₁ s₂ t} {l r c : JsonExpr} {x : Expr s₁}
      {y : Expr s₂} (ho : BinaryOf op o) (hl : Means toUint l x) (hr : Means toUint r y) :
      Means toUint (.expression op l r c) (.binary o x y)

/-! ## What the slips reach -/

/-- A field access, or a ternary whose branches are such. -/
def JsonExpr.bareAccess : JsonExpr → Bool
  | .expression .accessField _ _ _ => true
  | .expression .ternary left _ _ => left.bareAccess
  | _ => false

/-- No union member is accessed, no bare access is compared, and the branches of a ternary are
both bare accesses or neither is. -/
def JsonExpr.avoidsSlips : JsonExpr → Bool
  | .expression .accessUnionHeader _ _ _ => false
  | .expression .accessField left _ _ => left.avoidsSlips
  | .expression .ternary left right cond =>
    cond.avoidsSlips && left.avoidsSlips && right.avoidsSlips &&
      (left.bareAccess == right.bareAccess)
  | .expression .eq left right _ =>
    left.avoidsSlips && right.avoidsSlips && !left.bareAccess && !right.bareAccess
  | .expression .neq left right _ =>
    left.avoidsSlips && right.avoidsSlips && !left.bareAccess && !right.bareAccess
  | .expression _ left right _ => left.avoidsSlips && right.avoidsSlips
  | .register _ index => index.avoidsSlips
  | _ => true

/-- The type that a load hands up. -/
def JsonExpr.handedUp (j : JsonExpr) (t : Ty) : ExprType :=
  if j.bareAccess then .unknown else t.exprType

theorem Ty.exprType_ne_unknown (t : Ty) : t.exprType ≠ .unknown := by
  rcases t with _ | _ | _ | ⟨_ | _⟩ | _ <;> decide

theorem JsonExpr.handedUp_of_not {j : JsonExpr} (h : j.bareAccess = false) (t : Ty) :
    j.handedUp t = t.exprType := by
  simp [handedUp, h]

theorem JsonExpr.handedUp_eq_iff {j j' : JsonExpr} {t : Ty} :
    j.handedUp t = j'.handedUp t ↔ j.bareAccess = j'.bareAccess := by
  have ht := t.exprType_ne_unknown
  cases hj : j.bareAccess <;> cases hj' : j'.bareAccess <;> simp [handedUp, hj, hj', ht, ht.symm]

/-! ## One walk -/

/-- An operator that the walk has no branch for. -/
def ExprOp.Plain (op : ExprOp) : Prop :=
  op ≠ .ternary ∧ op ≠ .eq ∧ op ≠ .neq ∧ op ≠ .accessField

/-- What the walk looks up for an operator that has no branch: its op, and the type of that. -/
structure Opcode (op : ExprOp) (code : Op) (t : Ty) : Prop where
  plain : op.Plain
  notMember : op ≠ .accessUnionHeader
  opcode : getOpcode op = code
  type : getOpcodeType code = .ok t.exprType

theorem UnaryOf.opcode {op : ExprOp} {s t : Ty} {o : Unary s t} (h : UnaryOf op o) :
    Opcode op (o.op 0) t := by
  cases h <;> exact ⟨by simp [ExprOp.Plain], by simp, rfl, rfl⟩

theorem BinaryOf.opcode {op : ExprOp} {s₁ s₂ t : Ty} {o : Binary s₁ s₂ t} (h : BinaryOf op o) :
    Opcode op (o.op 0) t := by
  cases h <;> exact ⟨by simp [ExprOp.Plain], by simp, rfl, rfl⟩

theorem SignOf.opcode {op : ExprOp} {o : ArithOp} (h : SignOf op o) :
    Opcode op ((Binary.arith o).op 0) .data := by
  cases h <;> exact ⟨by simp [ExprOp.Plain], by simp, rfl, rfl⟩

theorem SignOf.is_sign {op : ExprOp} {o : ArithOp} (h : SignOf op o) : op = .add ∨ op = .sub := by
  cases h <;> simp

/-- No operator of one operand is also a sign. -/
theorem UnaryOf.not_sign {op : ExprOp} {s t : Ty} {o : Unary s t} (h : UnaryOf op o) :
    ¬ (op = .add ∨ op = .sub) := by
  cases h <;> simp

theorem Ty.getEqOpcode_of_comparison {t : Ty} {o : Binary t t .bool}
    (h : t.comparison false = some o) : getEqOpcode t.exprType = .ok (o.op 0) := by
  cases t <;> cases h <;> rfl

theorem Ty.getNeqOpcode_of_comparison {t : Ty} {o : Binary t t .bool}
    (h : t.comparison true = some o) : getNeqOpcode t.exprType = .ok (o.op 0) := by
  cases t <;> cases h <;> rfl

/-- No member of the language is null. -/
theorem Means.isNull {toUint : ℤ → ℕ} {t : Ty} {j : JsonExpr} {e : Expr t}
    (h : Means toUint j e) : j.isNull = false := by
  cases h <;> rfl

section Walk

variable {toUint : ℤ → ℕ} {L : Layout} {op : ExprOp} {left right cond : JsonExpr}

/-- The walk of the left operand, which for a sign is a constant. -/
def buildLeft (toUint : ℤ → ℕ) (L : Layout) (op : ExprOp) (left : JsonExpr) (e : Expression)
    (a : ArithOffsets) : Except BuildError (Expression × ExprType × ArithOffsets) :=
  if (op = .add ∨ op = .sub) ∧ left.isNull then
    .ok (e.pushBackLoadConst { value := 0 }, .unknown, a)
  else buildExpression toUint L left e a

theorem buildLeft_of_not_sign (h : ¬ ((op = .add ∨ op = .sub) ∧ left.isNull = true))
    (e : Expression) (a : ArithOffsets) :
    buildLeft toUint L op left e a = buildExpression toUint L left e a :=
  if_neg h

theorem Means.buildLeft_eq {t : Ty} {e : Expr t} (h : Means toUint left e) (op : ExprOp)
    (x : Expression) (a : ArithOffsets) :
    buildLeft toUint L op left x a = buildExpression toUint L left x a := by
  refine buildLeft_of_not_sign (fun hs => ?_) x a
  rw [h.isNull] at hs
  exact Bool.false_ne_true hs.2

theorem buildExpression_operator (hop : op.Plain) (e : Expression) (a : ArithOffsets) :
    buildExpression toUint L (.expression op left right cond) e a =
      (buildLeft toUint L op left e a).bind fun b =>
        (buildExpression toUint L right b.1 b.2.2).bind fun c =>
          (getOpcodeType (getOpcode op)).map fun type =>
            (c.1.pushBackOp (getOpcode op), type, c.2.2) := by
  obtain ⟨hternary, heq, hneq, haccess⟩ := hop
  rw [buildExpression, buildLeft]
  · split <;> rfl
  all_goals assumption

/-- Both operands built, the op of the operator follows them. -/
theorem Opcode.build {code : Op} {t : Ty} (h : Opcode op code t) {e e₁ e₂ : Expression}
    {typeL typeR : ExprType} {a a₁ a₂ : ArithOffsets}
    (hl : buildLeft toUint L op left e a = .ok (e₁, typeL, a₁))
    (hr : buildExpression toUint L right e₁ a₁ = .ok (e₂, typeR, a₂)) :
    buildExpression toUint L (.expression op left right cond) e a =
      .ok (e₂.pushBackOp code, t.exprType, a₂) := by
  rw [buildExpression_operator h.plain, hl]
  simp only [Except.bind, hr, h.opcode, h.type, Except.map]

theorem Opcode.avoidsSlips {code : Op} {t : Ty} (h : Opcode op code t) :
    (JsonExpr.expression op left right cond).avoidsSlips =
      (left.avoidsSlips && right.avoidsSlips) := by
  obtain ⟨⟨hternary, heq, hneq, haccess⟩, hmember, -, -⟩ := h
  cases op with
  | ternary => exact absurd rfl hternary
  | eq => exact absurd rfl heq
  | neq => exact absurd rfl hneq
  | accessField => exact absurd rfl haccess
  | accessUnionHeader => exact absurd rfl hmember
  | _ => rfl

theorem Opcode.bareAccess {code : Op} {t : Ty} (h : Opcode op code t) :
    (JsonExpr.expression op left right cond).bareAccess = false := by
  obtain ⟨⟨hternary, -, -, haccess⟩, -, -, -⟩ := h
  cases op with
  | ternary => exact absurd rfl hternary
  | accessField => exact absurd rfl haccess
  | _ => rfl

/-- An equality of two operands whose types came up known. -/
theorem pushEquality_ok {opcode : ExprType → Except BuildError Op} {t : Ty} {code : Op}
    (h : opcode t.exprType = .ok code) (e : Expression) (a : ArithOffsets) :
    pushEquality opcode e t.exprType t.exprType a = .ok (e.pushBackOp code, .bool, a) := by
  rw [pushEquality, if_neg (by simp), if_neg t.exprType_ne_unknown, h]
  rfl

/-- An equality with a bare access on a side is refused. -/
theorem pushEquality_bare (opcode : ExprType → Except BuildError Op) {l r : JsonExpr} {t : Ty}
    (h : l.bareAccess = true ∨ r.bareAccess = true) (e : Expression) (a : ArithOffsets) :
    pushEquality opcode e (l.handedUp t) (r.handedUp t) a = .error .assertion := by
  rw [pushEquality]
  by_cases hsame : l.bareAccess = r.bareAccess
  · have hl : l.handedUp t = .unknown := by
      simp only [JsonExpr.handedUp]
      rcases h with h | h
      · rw [if_pos h]
      · rw [if_pos (hsame.trans h)]
    rw [if_neg (by simpa using JsonExpr.handedUp_eq_iff.mpr hsame), if_pos hl]
  · rw [if_pos (mt JsonExpr.handedUp_eq_iff.mp hsame)]

end Walk

/-! ## Whole expressions -/

section Whole

variable {toUint : ℤ → ℕ} {L : Layout} {t : Ty} {j : JsonExpr} {e : Expr t}

/-- **An expression that avoids the slips is built.** Its ops are the tree's, and so are the
fields that it enables. -/
theorem Means.build_ok (h : Means toUint j e) (hj : j.avoidsSlips = true) (x : Expression)
    (a : ArithOffsets) :
    buildExpression toUint L j x a = .ok (e.emit x, j.handedUp t, e.enable L a) := by
  induction h generalizing x a with
  | register hi hconst ih =>
    rw [buildExpression, ih hj]
    · rfl
    · intro d hd
      exact hconst d hd
  | ternary hc hl hr ihc ihl ihr =>
    simp only [JsonExpr.avoidsSlips, Bool.and_eq_true, beq_iff_eq] at hj
    obtain ⟨⟨⟨hjc, hjl⟩, hjr⟩, hsame⟩ := hj
    rw [buildExpression, ihc hjc]
    simp only [bind, Except.bind, ihl hjl, ihr hjr]
    rw [if_neg (by simpa using JsonExpr.handedUp_eq_iff.mpr hsame)]
    rfl
  | eq ho hl hr ihl ihr =>
    simp only [JsonExpr.avoidsSlips, Bool.and_eq_true, Bool.not_eq_true'] at hj
    obtain ⟨⟨⟨hjl, hjr⟩, hbl⟩, hbr⟩ := hj
    rw [buildExpression, ihl hjl]
    simp only [bind, Except.bind, ihr hjr, JsonExpr.handedUp_of_not hbl,
      JsonExpr.handedUp_of_not hbr]
    exact pushEquality_ok (Ty.getEqOpcode_of_comparison ho) _ _
  | neq ho hl hr ihl ihr =>
    simp only [JsonExpr.avoidsSlips, Bool.and_eq_true, Bool.not_eq_true'] at hj
    obtain ⟨⟨⟨hjl, hjr⟩, hbl⟩, hbr⟩ := hj
    rw [buildExpression, ihl hjl]
    simp only [bind, Except.bind, ihr hjr, JsonExpr.handedUp_of_not hbl,
      JsonExpr.handedUp_of_not hbr]
    exact pushEquality_ok (Ty.getNeqOpcode_of_comparison ho) _ _
  | accessField hl ih =>
    rw [buildExpression, ih hj]
    rfl
  | accessUnionHeader => exact absurd hj (by simp [JsonExpr.avoidsSlips])
  | sign ho hr ih =>
    rw [ho.opcode.avoidsSlips, Bool.and_eq_true] at hj
    have hsign : buildLeft toUint L _ .null x a =
        .ok (x.pushBackLoadConst { value := 0 }, .unknown, a) := if_pos ⟨ho.is_sign, rfl⟩
    rw [ho.opcode.build hsign (ih hj.2 _ _), JsonExpr.handedUp_of_not ho.opcode.bareAccess]
    rfl
  | unary ho hr ih =>
    rw [ho.opcode.avoidsSlips, Bool.and_eq_true] at hj
    -- A missing operand appends nothing.
    have hleft : buildLeft toUint L _ .null x a = .ok (x, .unknown, a) :=
      buildLeft_of_not_sign (fun hs => ho.not_sign hs.1) x a
    rw [ho.opcode.build hleft (ih hj.2 _ _), JsonExpr.handedUp_of_not ho.opcode.bareAccess]
    rfl
  | binary ho hl hr ihl ihr =>
    rw [ho.opcode.avoidsSlips, Bool.and_eq_true] at hj
    rw [ho.opcode.build ((hl.buildLeft_eq _ x a).trans (ihl hj.1 x a)) (ihr hj.2 _ _),
      JsonExpr.handedUp_of_not ho.opcode.bareAccess]
    rfl
  | _ => rfl

/-- Two operands built in turn: if one cannot be, or what follows them stops, the walk stops. -/
theorem Means.operands_error {s₁ s₂ : Ty} {l r : JsonExpr} {y : Expr s₁} {z : Expr s₂}
    (hl : Means toUint l y) (hr : Means toUint r z)
    (ihl : l.avoidsSlips = false → ∀ x a, ∃ err, buildExpression toUint L l x a = .error err)
    (ihr : r.avoidsSlips = false → ∀ x a, ∃ err, buildExpression toUint L r x a = .error err)
    {k : Expression → ExprType → ExprType → ArithOffsets →
      Except BuildError (Expression × ExprType × ArithOffsets)}
    (hk : l.avoidsSlips = true → r.avoidsSlips = true →
      ∀ x a, ∃ err, k x (l.handedUp s₁) (r.handedUp s₂) a = .error err)
    (x : Expression) (a : ArithOffsets) :
    ∃ err, ((buildExpression toUint L l x a).bind fun b =>
      (buildExpression toUint L r b.1 b.2.2).bind fun c => k c.1 b.2.1 c.2.1 c.2.2) =
        .error err := by
  by_cases hjl : l.avoidsSlips = true
  · rw [hl.build_ok hjl]
    simp only [Except.bind]
    by_cases hjr : r.avoidsSlips = true
    · rw [hr.build_ok hjr]
      exact hk hjl hjr _ _
    · obtain ⟨err, herr⟩ := ihr (Bool.eq_false_of_not_eq_true hjr) (y.emit x) (y.enable L a)
      exact ⟨err, by rw [herr]⟩
  · obtain ⟨err, herr⟩ := ihl (Bool.eq_false_of_not_eq_true hjl) x a
    exact ⟨err, by rw [herr]; rfl⟩

/-- A bare access on a side of an equality, when both sides can be built. -/
theorem bareAccess_of_equality {l r : JsonExpr}
    (hj : (l.avoidsSlips && r.avoidsSlips && !l.bareAccess && !r.bareAccess) = false)
    (hl : l.avoidsSlips = true) (hr : r.avoidsSlips = true) :
    l.bareAccess = true ∨ r.bareAccess = true := by
  cases hbl : l.bareAccess with
  | true => exact .inl rfl
  | false => exact .inr (by simpa [hl, hr, hbl] using hj)

/-- **An expression that meets a slip is not built.** -/
theorem Means.build_error (h : Means toUint j e) (hj : j.avoidsSlips = false) (x : Expression)
    (a : ArithOffsets) : ∃ err, buildExpression toUint L j x a = .error err := by
  induction h generalizing x a with
  | register hi hconst ih =>
    obtain ⟨err, herr⟩ := ih hj x a
    refine ⟨err, ?_⟩
    rw [buildExpression, herr]
    · rfl
    · intro d hd
      exact hconst d hd
  | @ternary t l r c _ _ _ hc hl hr ihc ihl ihr =>
    -- The parts are built in turn, and the first that cannot be stops the rest.
    rw [buildExpression]
    by_cases hjc : c.avoidsSlips = true
    · rw [hc.build_ok hjc]
      simp only [bind, Except.bind]
      by_cases hjl : l.avoidsSlips = true
      · rw [hl.build_ok hjl]
        simp only
        by_cases hjr : r.avoidsSlips = true
        · rw [hr.build_ok hjr]
          simp only [JsonExpr.avoidsSlips, hjc, hjl, hjr, Bool.true_and, beq_eq_false_iff_ne] at hj
          exact ⟨_, if_pos (mt JsonExpr.handedUp_eq_iff.mp hj)⟩
        · obtain ⟨err, herr⟩ := ihr (Bool.eq_false_of_not_eq_true hjr) {} _
          exact ⟨err, by rw [herr]⟩
      · obtain ⟨err, herr⟩ := ihl (Bool.eq_false_of_not_eq_true hjl) {} _
        exact ⟨err, by rw [herr]⟩
    · obtain ⟨err, herr⟩ := ihc (Bool.eq_false_of_not_eq_true hjc) x a
      exact ⟨err, by rw [herr]; rfl⟩
  | eq ho hl hr ihl ihr =>
    rw [buildExpression]
    exact hl.operands_error hr ihl ihr
      (fun hjl hjr x a => ⟨_, pushEquality_bare _ (bareAccess_of_equality hj hjl hjr) x a⟩) x a
  | neq ho hl hr ihl ihr =>
    rw [buildExpression]
    exact hl.operands_error hr ihl ihr
      (fun hjl hjr x a => ⟨_, pushEquality_bare _ (bareAccess_of_equality hj hjl hjr) x a⟩) x a
  | accessField hl ih =>
    obtain ⟨err, herr⟩ := ih hj x a
    refine ⟨err, ?_⟩
    rw [buildExpression, herr]
    rfl
  | @accessUnionHeader offset l c y hl ih =>
    rw [buildExpression_operator (by simp [ExprOp.Plain]), hl.buildLeft_eq]
    by_cases hjl : l.avoidsSlips = true
    · -- The offset is walked as if it were an operand.
      rw [hl.build_ok hjl]
      exact ⟨.exception, rfl⟩
    · obtain ⟨err, herr⟩ := ih (Bool.eq_false_of_not_eq_true hjl) x a
      exact ⟨err, by rw [herr]; rfl⟩
  | sign ho hr ih =>
    rw [ho.opcode.avoidsSlips] at hj
    rw [buildExpression_operator ho.opcode.plain, buildLeft, if_pos ⟨ho.is_sign, rfl⟩]
    obtain ⟨err, herr⟩ := ih hj (x.pushBackLoadConst { value := 0 }) a
    exact ⟨err, by simp only [Except.bind, herr]⟩
  | unary ho hr ih =>
    rw [ho.opcode.avoidsSlips] at hj
    rw [buildExpression_operator ho.opcode.plain,
      buildLeft_of_not_sign (fun hs => ho.not_sign hs.1)]
    obtain ⟨err, herr⟩ := ih hj x a
    exact ⟨err, by simp only [buildExpression, Except.bind, herr]⟩
  | @binary op _ _ _ _ _ _ _ _ _ ho hl hr ihl ihr =>
    rw [ho.opcode.avoidsSlips] at hj
    rw [buildExpression_operator ho.opcode.plain, hl.buildLeft_eq]
    refine hl.operands_error hr ihl ihr (k := fun z _ _ a =>
      (getOpcodeType (getOpcode op)).map fun type => (z.pushBackOp (getOpcode op), type, a)) ?_ x a
    intro hjl hjr
    simp [hjl, hjr] at hj
  | _ => exact absurd hj (by simp [JsonExpr.avoidsSlips])

/-- Trees of expressions that avoid the slips have no access to a member of a union. -/
theorem Means.memberFree (h : Means toUint j e) (hj : j.avoidsSlips = true) :
    e.memberFree = true := by
  induction h with
  | register hi hconst ih => exact ih hj
  | ternary hc hl hr ihc ihl ihr =>
    simp only [JsonExpr.avoidsSlips, Bool.and_eq_true] at hj
    simp [Expr.memberFree, ihc hj.1.1.1, ihl hj.1.1.2, ihr hj.1.2]
  | eq ho hl hr ihl ihr =>
    simp only [JsonExpr.avoidsSlips, Bool.and_eq_true] at hj
    simp [Expr.memberFree, ihl hj.1.1.1, ihr hj.1.1.2]
  | neq ho hl hr ihl ihr =>
    simp only [JsonExpr.avoidsSlips, Bool.and_eq_true] at hj
    simp [Expr.memberFree, ihl hj.1.1.1, ihr hj.1.1.2]
  | accessField hl ih => exact ih hj
  | accessUnionHeader hl ih => cases hj
  | sign ho hr ih =>
    rw [ho.opcode.avoidsSlips, Bool.and_eq_true] at hj
    simp [Expr.memberFree, ih hj.2]
  | unary ho hr ih =>
    rw [ho.opcode.avoidsSlips, Bool.and_eq_true] at hj
    have hr := ih hj.2
    cases ho <;> exact hr
  | binary ho hl hr ihl ihr =>
    rw [ho.opcode.avoidsSlips, Bool.and_eq_true] at hj
    simp [Expr.memberFree, ihl hj.1, ihr hj.2]
  | _ => rfl

/-- A right load of `e` from `j`, with the program `x`. The JSON is accepted with the type of the
tree, the ops are the tree's, so each equality compares as its operands' type does, and what is
built from them evaluates to the tree's value on the packet, whatever the registers held. The
value is the one with arithmetic in all fields: how a load sees to that is its own affair. -/
structure Loads (toUint : ℤ → ℕ) (L : Layout) (a : ArithOffsets) (env : Env) {t : Ty}
    (j : JsonExpr) (e : Expr t) (x : Expression) : Prop where
  accepted : ∃ a', buildExpression toUint L j {} a = .ok (x, t.exprType, a')
  ops : x = e.emit {}
  value : ∀ temps, ∃ run hi, Outcome (x.build.start temps) 0 hi t run (e.denote env.withArith) ∧
    exec env x.build.constValues 0 x.build.ops (x.build.start temps) = run

variable {a : ArithOffsets} {env : Env}

theorem Loads.not_error {x : Expression} {err : BuildError} (h : Loads toUint L a env j e x) :
    buildExpression toUint L j {} a ≠ .error err := by
  obtain ⟨a', haccepted⟩ := h.accepted
  rw [haccepted]
  simp

/-- What an evaluation that stops comes from. -/
theorem Loads.denote_eq_none {x : Expression} (h : Loads toUint L a env j e x)
    (hstops : e.denote env = none) : e.denote env.withArith = none := by
  obtain ⟨run, hi, hout, hexec⟩ := h.value []
  obtain ⟨run', hi', hout', hexec'⟩ := computes_build e env []
  obtain rfl := h.ops
  obtain rfl : run = run' := hexec.symm.trans hexec'
  rw [hstops] at hout'
  obtain rfl : run = none := hout'
  cases hv : e.denote env.withArith with
  | none => rfl
  | some v =>
    rw [hv] at hout
    obtain ⟨temps, slot, hrun, -⟩ := hout
    cases hrun

/-- **Exactly the expressions that avoid the slips load right.** The whole of one is not a bare
access either: its type would come up unknown. On a packet with the fields that the load has
enabled, the evaluation compares no two unions that it cannot compare, unless there is no value
at all. -/
theorem loads_iff (h : Means toUint j e)
    (hmade : ∀ x type a', buildExpression toUint L j {} a = .ok (x, type, a') →
      Made L a' env.phv) :
    (∃ x, Loads toUint L a env j e x) ↔
      (j.avoidsSlips = true ∧ j.bareAccess = false) ∧
        (e.Comparable env ∨ e.denote env.withArith = none) := by
  constructor
  · rintro ⟨x, hx⟩
    have havoids : j.avoidsSlips = true := by
      by_contra hj
      obtain ⟨err, herr⟩ := h.build_error (Bool.eq_false_of_not_eq_true hj) {} a
      exact hx.not_error herr
    have hbuilt := h.build_ok (L := L) havoids {} a
    refine ⟨⟨havoids, ?_⟩, ?_⟩
    · obtain ⟨a', haccepted⟩ := hx.accepted
      rw [hbuilt] at haccepted
      have htype : j.handedUp t = t.exprType :=
        (Prod.mk.inj (Prod.mk.inj (Except.ok.inj haccepted)).2).1
      by_contra hbare
      rw [JsonExpr.handedUp, if_pos (Bool.eq_true_of_not_eq_false hbare)] at htype
      exact t.exprType_ne_unknown htype.symm
    · -- Where two unions can not be compared the evaluation aborts, so there is no value it could
      -- differ from.
      by_cases hc : e.Comparable env
      · exact .inl hc
      · exact .inr (hx.denote_eq_none
          (e.denote_of_not_comparable (hmade _ _ _ hbuilt) (h.memberFree havoids) hc))
  · rintro ⟨⟨havoids, hbare⟩, hvalue⟩
    have hbuilt := h.build_ok (L := L) havoids {} a
    refine ⟨e.emit {}, ⟨_, by rw [hbuilt, JsonExpr.handedUp_of_not hbare]⟩, rfl, fun temps => ?_⟩
    have hm := hmade _ _ _ hbuilt
    have hsame : e.denote env.withArith = e.denote env := by
      by_cases hc : e.Comparable env
      · exact (e.denote_withArith hm (h.memberFree havoids) hc).symm
      · rw [hvalue.resolve_left hc,
          e.denote_of_not_comparable hm (h.memberFree havoids) hc]
    rw [hsame]
    exact computes_build e env temps

end Whole

/-! ## Packets with stacks and unions -/

/-- A header of one byte. -/
def byteHeader (v : ℕ) : Header where
  headerType := 0
  fields := [{ value := v, arith := false, nbits := 8, bytes := [UInt8.ofNat v] },
    { value := 1, arith := false, nbits := 1, bytes := [1], hidden := true }]
  valid := true
  metadata := false
  nbytesPacket := 1
  unionMembership := none

/-- A stack of two headers, and a stack of two unions with two more. -/
def stacksPhv : Phv where
  headers := [byteHeader 0, byteHeader 7, byteHeader 5, byteHeader 5]
  headerStacks := [⟨[0, 1], 2⟩]
  headerUnions := [⟨[2], true, 0⟩, ⟨[3], true, 0⟩]
  headerUnionStacks := [⟨[0, 1], 2⟩]

def stacksLayout : Layout where
  headerStacks := [[0, 1]]
  headerUnions := [[2], [3]]
  headerUnionStacks := [[0, 1]]
  stackOf := fun h => if h < 2 then some 0 else none
  unionPos := fun h => if h = 2 then some (0, 0) else if h = 3 then some (1, 0) else none
  unionStackOf := fun u => if u < 2 then some 0 else none
  stackOf_mem := by
    intro h s hs
    split_ifs at hs with hlt
    cases hs
    exact ⟨[0, 1], rfl, by simp; omega⟩
  unionPos_get := by
    intro h u i hu
    split_ifs at hu with h2 h3
    · cases hu
      exact ⟨[2], rfl, by rw [h2]; rfl⟩
    · cases hu
      exact ⟨[3], rfl, by rw [h3]; rfl⟩
  unionStackOf_mem := by
    intro u s hs
    split_ifs at hs with hlt
    cases hs
    exact ⟨[0, 1], rfl, by simp; omega⟩

/-- The environment of a header vector, without locals or registers. -/
def packetEnv (phv : Phv) : Env := ⟨phv, [], fun _ _ => none, Int.toNat, Int.toNat⟩

/-- The truth of a field of a stack's element loads, and that two unions of a stack are equal. -/
theorem loads_element :
    ∃ x, Loads Int.toNat stacksLayout .none (packetEnv stacksPhv.withArith)
      (.expression .and
        (.expression .d2b .null
          (.expression .accessField
            (.expression .dereferenceHeaderStack (.headerStack 0) (.hexstr { value := 1 }) .null)
            (.int 0) .null) .null)
        (.expression .eq
          (.expression .dereferenceUnionStack (.headerUnionStack 0) (.hexstr { value := 0 }) .null)
          (.expression .dereferenceUnionStack (.headerUnionStack 0) (.hexstr { value := 1 }) .null)
          .null) .null)
      (.binary (.boolOp .and)
        (.unary .dataToBool (.unary (.accessField 0)
          (.binary .dereferenceHeaderStack (.leaf (.stack .header 0))
            (.leaf (.const { value := 1 })))))
        (.binary (.cmpUnion false)
          (.binary .dereferenceUnionStack (.leaf (.stack .union 0)) (.leaf (.const { value := 0 })))
          (.binary .dereferenceUnionStack (.leaf (.stack .union 0))
            (.leaf (.const { value := 1 }))))) x := by
  have hmade : ∀ a, Made stacksLayout a (packetEnv stacksPhv.withArith).phv := fun a =>
    .withArith rfl rfl rfl a
  exact (loads_iff (.binary .and
    (.unary .d2b (.accessField (.binary .dereferenceHeaderStack (.headerStack 0) (.hexstr _))))
    (.eq rfl (.binary .dereferenceUnionStack (.headerUnionStack 0) (.hexstr _))
      (.binary .dereferenceUnionStack (.headerUnionStack 0) (.hexstr _))))
    fun _ _ a _ => hmade a).mpr
    ⟨⟨rfl, rfl⟩, .inl (Expr.comparable_of_unionFree (hmade (Expr.enable _ _ .none)) rfl rfl)⟩

/-- A field access compared with a constant is not accepted, nor is the validity of the member of
a union. And two unions that are named are accepted, but not compared: there is a value, and the
evaluation stops. -/
theorem not_loads_access :
    (∃ (j : JsonExpr) (e : Expr .bool),
      j = .expression .eq (.expression .accessField (.header 0) (.int 0) .null)
        (.hexstr { value := 5 }) .null ∧
      Means Int.toNat j e ∧ ∀ L a, buildExpression Int.toNat L j {} a = .error .assertion ∧
        ∀ env, ¬ ∃ x, Loads Int.toNat L a env j e x) ∧
    (∃ (j : JsonExpr) (e : Expr .bool),
      j = .expression .valid .null
        (.expression .accessUnionHeader (.headerUnion 0) (.int 0) .null) .null ∧
      Means Int.toNat j e ∧ ∀ L a, buildExpression Int.toNat L j {} a = .error .exception ∧
        ∀ env, ¬ ∃ x, Loads Int.toNat L a env j e x) ∧
    ∃ (j : JsonExpr) (e : Expr .bool) (x : Expression),
      j = .expression .eq (.headerUnion 0) (.headerUnion 1) .null ∧ Means Int.toNat j e ∧
      buildExpression Int.toNat stacksLayout j {} .none = .ok (x, .bool, .none) ∧
      Made stacksLayout .none stacksPhv ∧
      e.denote (packetEnv stacksPhv).withArith = some true ∧
      x.build.evalBool (packetEnv stacksPhv) [] = none ∧
      ¬ ∃ x, Loads Int.toNat stacksLayout .none (packetEnv stacksPhv) j e x := by
  refine ⟨⟨_, _, rfl, .eq rfl (.accessField (.header 0)) (.hexstr _), fun L a => ⟨rfl, ?_⟩⟩,
    ⟨_, _, rfl, .unary .valid (.accessUnionHeader (.headerUnion 0)), fun L a => ⟨rfl, ?_⟩⟩,
    ⟨_, _, _, rfl, .eq rfl (.headerUnion 0) (.headerUnion 1), rfl, ⟨rfl, rfl, rfl, nofun⟩, rfl, rfl,
      ?_⟩⟩
  · rintro env ⟨x, hx⟩
    exact hx.not_error rfl
  · rintro env ⟨x, hx⟩
    exact hx.not_error rfl
  · rintro ⟨x, hx⟩
    exact absurd (hx.denote_eq_none rfl) (by decide)

end Expressions

end P4Bricks
