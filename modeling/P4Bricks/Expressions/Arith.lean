import P4Bricks.Expressions.Tree
/-!
# The fields that have arithmetic

`PHVFactory` keeps for each header the offsets of the fields with arithmetic, none at first.
`P4Objects::build_expression` enables those that an expression loads: of a header that is in
a stack, or in a union of a stack, the same ones in all the headers of the stack, since which
of them is meant may be known only when the expression is evaluated. For the literal of a
union it enables nothing.
-/

namespace P4Bricks

namespace Expressions

/-- The stacks and unions of a program, and where `P4Objects` has noted a header or a union to
be: `header_id_to_stack_id`, `header_id_to_union_pos` and `union_id_to_union_stack_id`. -/
structure Layout where
  headerStacks : List (List ℕ)
  headerUnions : List (List ℕ)
  headerUnionStacks : List (List ℕ)
  stackOf : ℕ → Option ℕ
  unionPos : ℕ → Option (ℕ × ℕ)
  unionStackOf : ℕ → Option ℕ
  stackOf_mem : ∀ h s, stackOf h = some s → ∃ hs, headerStacks[s]? = some hs ∧ h ∈ hs
  unionPos_get : ∀ h u i, unionPos h = some (u, i) →
    ∃ hs, headerUnions[u]? = some hs ∧ hs[i]? = some h
  unionStackOf_mem : ∀ u s, unionStackOf u = some s →
    ∃ us, headerUnionStacks[s]? = some us ∧ u ∈ us

/-- `arith_offsets` of every header: whether the field of a header at an offset is in them. -/
abbrev ArithOffsets := ℕ → ℕ → Bool

namespace ArithOffsets

/-- `disable_all_field_arith` on every header, as `init_headers` leaves them. -/
def none : ArithOffsets := fun _ _ => false

/-- `enable_field_arith`. -/
def enableField (a : ArithOffsets) (header offset : ℕ) : ArithOffsets := fun h f =>
  a h f || h == header && f == offset

/-- `enable_all_field_arith`. -/
def enableAll (a : ArithOffsets) (header : ℕ) : ArithOffsets := fun h f => a h f || h == header

variable (L : Layout)

/-- `enable_stack_field_arith`. -/
def enableStackField (a : ArithOffsets) (stack offset : ℕ) : ArithOffsets :=
  (L.headerStacks[stack]?.getD []).foldl (fun a h => a.enableField h offset) a

/-- `enable_all_stack_field_arith`. -/
def enableAllStack (a : ArithOffsets) (stack : ℕ) : ArithOffsets :=
  (L.headerStacks[stack]?.getD []).foldl enableAll a

/-- What is done with the header at a place in every union of a stack. -/
def eachMember (enable : ArithOffsets → ℕ → ArithOffsets) (a : ArithOffsets)
    (unionStack headerOffset : ℕ) : ArithOffsets :=
  (L.headerUnionStacks[unionStack]?.getD []).foldl
    (fun a u => ((L.headerUnions[u]?.getD [])[headerOffset]?).elim a (enable a)) a

/-- `enable_union_stack_field_arith`. -/
def enableUnionStackField (a : ArithOffsets) (unionStack headerOffset offset : ℕ) :
    ArithOffsets :=
  eachMember L (fun a h => a.enableField h offset) a unionStack headerOffset

/-- `enable_all_union_stack_field_arith`, of the headers at a place. -/
def enableAllUnionStackAt (a : ArithOffsets) (unionStack headerOffset : ℕ) : ArithOffsets :=
  eachMember L enableAll a unionStack headerOffset

/-- `enable_all_union_stack_field_arith`, of all headers. -/
def enableAllUnionStack (a : ArithOffsets) (unionStack : ℕ) : ArithOffsets :=
  (L.headerUnionStacks[unionStack]?.getD []).foldl
    (fun a u => (L.headerUnions[u]?.getD []).foldl enableAll a) a

/-- Where `P4Objects::enable_arith` finds a header: at a place in the unions of a stack, in a
stack, or by itself. -/
def unionStackPos (header : ℕ) : Option (ℕ × ℕ) := do
  let (u, i) ← L.unionPos header
  let s ← L.unionStackOf u
  some (s, i)

/-- `P4Objects::enable_arith` of a field. -/
def enableArithField (a : ArithOffsets) (header offset : ℕ) : ArithOffsets :=
  match unionStackPos L header, L.stackOf header with
  | some (s, i), _ => a.enableUnionStackField L s i offset
  | .none, some s => a.enableStackField L s offset
  | .none, .none => a.enableField header offset

/-- `P4Objects::enable_arith` of a header. -/
def enableArith (a : ArithOffsets) (header : ℕ) : ArithOffsets :=
  match unionStackPos L header, L.stackOf header with
  | some (s, i), _ => a.enableAllUnionStackAt L s i
  | .none, some s => a.enableAllStack L s
  | .none, .none => a.enableAll header

end ArithOffsets

/-! ## What a tree enables -/

variable (L : Layout)

/-- What `build_expression` enables for a literal. -/
def Leaf.enable {t : Ty} (a : ArithOffsets) : Leaf t → ArithOffsets
  | .field h f => a.enableArithField L h f
  | .lastHeaderStackField s f => a.enableStackField L s f
  | .header h => a.enableArith L h
  | .stack .header s => a.enableAllStack L s
  | .stack .union s => a.enableAllUnionStack L s
  | _ => a

/-- What it enables on its way through a tree. -/
def Expr.enable {t : Ty} : Expr t → ArithOffsets → ArithOffsets
  | .leaf o, a => o.enable L a
  | .unary _ x, a => x.enable a
  | .binary _ l r, a => r.enable (l.enable a)
  | .ternary c l r, a => r.enable (l.enable (c.enable a))

/-! ## Nothing is disabled on the way -/

namespace ArithOffsets

variable {L} {α : Type*} {a : ArithOffsets} {h f : ℕ}

/-- What never disables anything does not when it is folded over a list. -/
theorem le_foldl {g : ArithOffsets → α → ArithOffsets} (hg : ∀ a x, a ≤ g a x) (l : List α)
    (a : ArithOffsets) : a ≤ l.foldl g a := by
  induction l generalizing a with
  | nil => exact le_rfl
  | cons x l ih => exact (hg a x).trans (ih (g a x))

/-- What one element of a list enables, the list does. -/
theorem foldl_of_mem {g : ArithOffsets → α → ArithOffsets} (hg : ∀ a x, a ≤ g a x) {l : List α}
    {x : α} (hx : x ∈ l) (henable : ∀ a, g a x h f = true) (a : ArithOffsets) :
    l.foldl g a h f = true := by
  induction l generalizing a with
  | nil => cases hx
  | cons y l ih =>
    rcases List.mem_cons.mp hx with rfl | hx
    · exact le_foldl hg l (g a x) h f (henable a)
    · exact ih hx (g a y)

/-- Enabling a field disables none, -/
theorem le_enableField (a : ArithOffsets) (header offset : ℕ) : a ≤ a.enableField header offset := by
  intro h f ha
  rw [enableField, ha, Bool.true_or]

/-- nor does enabling all fields of a header. -/
theorem le_enableAll (a : ArithOffsets) (header : ℕ) : a ≤ a.enableAll header := by
  intro h f ha
  rw [enableAll, ha, Bool.true_or]

/-- The field that is enabled is enabled, -/
theorem enableField_self (a : ArithOffsets) (header offset : ℕ) :
    a.enableField header offset header offset = true := by
  simp [enableField]

/-- and so is every field of a header whose fields are. -/
theorem enableAll_self (a : ArithOffsets) (header offset : ℕ) :
    a.enableAll header header offset = true := by
  simp [enableAll]

/-- Nothing is disabled where there may be no header to enable, -/
theorem le_elim {enable : ArithOffsets → ℕ → ArithOffsets} (henable : ∀ a h, a ≤ enable a h)
    (a : ArithOffsets) (o : Option ℕ) : a ≤ o.elim a (enable a) := by
  cases o with
  | none => exact le_rfl
  | some header => exact henable a header

/-- in the members of a union, -/
theorem le_eachMember {enable : ArithOffsets → ℕ → ArithOffsets}
    (henable : ∀ a h, a ≤ enable a h) (a : ArithOffsets) (s i : ℕ) :
    a ≤ eachMember L enable a s i :=
  le_foldl (fun a _ => le_elim henable a _) _ a

/-- for a field, whose stack or union may be enabled with it, -/
theorem le_enableArithField (a : ArithOffsets) (header offset : ℕ) :
    a ≤ a.enableArithField L header offset := by
  unfold enableArithField
  split
  · exact le_eachMember (fun a h => a.le_enableField h offset) a _ _
  · exact le_foldl (fun a h => a.le_enableField h offset) _ a
  · exact a.le_enableField header offset

/-- and for a whole header. -/
theorem le_enableArith (a : ArithOffsets) (header : ℕ) : a ≤ a.enableArith L header := by
  unfold enableArith
  split
  · exact le_eachMember le_enableAll a _ _
  · exact le_foldl le_enableAll _ a
  · exact a.le_enableAll header

/-- The header of a place in a union of a stack is one of those that are enabled. -/
theorem eachMember_self {enable : ArithOffsets → ℕ → ArithOffsets}
    (henable : ∀ a h, a ≤ enable a h) {s i header offset : ℕ}
    (hpos : unionStackPos L header = some (s, i))
    (hself : ∀ a, enable a header header offset = true) (a : ArithOffsets) :
    eachMember L enable a s i header offset = true := by
  obtain ⟨⟨u, i'⟩, hu, hpos⟩ := Option.bind_eq_some_iff.mp hpos
  obtain ⟨s', hs, hpos⟩ := Option.bind_eq_some_iff.mp hpos
  cases hpos
  obtain ⟨hs', hunion, hget⟩ := L.unionPos_get header u i hu
  obtain ⟨us, hstack, hmem⟩ := L.unionStackOf_mem u s hs
  refine foldl_of_mem (fun a _ => le_elim henable a _) (x := u) ?_ (fun a => ?_) a
  · rw [hstack]
    exact hmem
  · rw [hunion, Option.getD_some, hget]
    exact hself a

/-- Enabling a stack enables each of its headers, -/
theorem enableAllStack_mem {s : ℕ} {hs : List ℕ} (hstack : L.headerStacks[s]? = some hs)
    (hmem : h ∈ hs) (a : ArithOffsets) (f : ℕ) : a.enableAllStack L s h f = true := by
  refine foldl_of_mem le_enableAll (x := h) ?_ (fun a => a.enableAll_self h f) a
  rw [hstack]
  exact hmem

/-- or the one field in each of them, -/
theorem enableStackField_mem {s : ℕ} {hs : List ℕ} (hstack : L.headerStacks[s]? = some hs)
    (hmem : h ∈ hs) (a : ArithOffsets) (f : ℕ) : a.enableStackField L s f h f = true := by
  refine foldl_of_mem (fun a h => a.le_enableField h f) (x := h) ?_
    (fun a => a.enableField_self h f) a
  rw [hstack]
  exact hmem

/-- **The field that is named is enabled.** -/
theorem enableArithField_self (a : ArithOffsets) (header offset : ℕ) :
    a.enableArithField L header offset header offset = true := by
  rcases hpos : unionStackPos L header with - | ⟨s, i⟩
  · rcases hstack : L.stackOf header with - | s
    · simp only [enableArithField, hpos, hstack]
      exact a.enableField_self header offset
    · simp only [enableArithField, hpos, hstack]
      obtain ⟨hs, hget, hmem⟩ := L.stackOf_mem header s hstack
      exact enableStackField_mem hget hmem a offset
  · simp only [enableArithField, hpos]
    exact eachMember_self (fun a h => a.le_enableField h offset) hpos (fun a => a.enableField_self header offset) a

/-- **All fields of the header that is named are enabled.** -/
theorem enableArith_self (a : ArithOffsets) (header offset : ℕ) :
    a.enableArith L header header offset = true := by
  rcases hpos : unionStackPos L header with - | ⟨s, i⟩
  · rcases hstack : L.stackOf header with - | s
    · simp only [enableArith, hpos, hstack]
      exact a.enableAll_self header offset
    · simp only [enableArith, hpos, hstack]
      obtain ⟨hs, hget, hmem⟩ := L.stackOf_mem header s hstack
      exact enableAllStack_mem hget hmem a offset
  · simp only [enableArith, hpos]
    exact eachMember_self le_enableAll hpos (fun a => a.enableAll_self header offset) a

/-- and a stack of unions each header of each union. -/
theorem enableAllUnionStack_mem {s u : ℕ} {us hs : List ℕ}
    (hstack : L.headerUnionStacks[s]? = some us) (hu : u ∈ us)
    (hunion : L.headerUnions[u]? = some hs) (hmem : h ∈ hs) (a : ArithOffsets) (f : ℕ) :
    a.enableAllUnionStack L s h f = true := by
  refine foldl_of_mem (fun a u => le_foldl le_enableAll _ a) (x := u) ?_ (fun a => ?_) a
  · rw [hstack]
    exact hu
  · refine foldl_of_mem le_enableAll (x := h) ?_ (fun a => a.enableAll_self h f) a
    rw [hunion]
    exact hmem

end ArithOffsets

variable {L}

/-- A leaf of an expression disables nothing, -/
theorem Leaf.le_enable {t : Ty} (o : Leaf t) (a : ArithOffsets) : a ≤ o.enable L a := by
  cases o with
  | field h f => exact a.le_enableArithField h f
  | lastHeaderStackField s f =>
    exact ArithOffsets.le_foldl (fun a h => a.le_enableField h f) _ a
  | header h => exact a.le_enableArith h
  | stack kind s =>
    cases kind with
    | header => exact ArithOffsets.le_foldl ArithOffsets.le_enableAll _ a
    | union =>
      exact ArithOffsets.le_foldl
        (fun a u => ArithOffsets.le_foldl ArithOffsets.le_enableAll _ a) _ a
  | _ => exact le_rfl

/-- and neither does a whole expression. -/
theorem Expr.le_enable {t : Ty} (e : Expr t) (a : ArithOffsets) : a ≤ e.enable L a := by
  induction e generalizing a with
  | leaf o => exact o.le_enable a
  | unary o x ih => exact ih a
  | binary o l r ihl ihr => exact (ihl a).trans (ihr _)
  | ternary c l r ihc ihl ihr => exact ((ihc a).trans (ihl _)).trans (ihr _)

end Expressions

end P4Bricks
