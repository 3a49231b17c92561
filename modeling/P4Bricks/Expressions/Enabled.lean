import P4Bricks.Expressions.Arith
/-!
# Expressions and the arithmetic they enable

The value of an expression is what it evaluates to where every field has arithmetic. On a
header vector with the fields that the load has enabled it evaluates to the same, unless it
comes to compare two unions, of which nothing is enabled where they are named.
-/

namespace P4Bricks

/-! ## Header vectors with all arithmetic -/

/-- The field, with arithmetic. -/
def Field.withArith (f : Field) : Field := { f with arith := true }

/-- The header, every field of it with arithmetic. -/
def Header.withArith (h : Header) : Header := { h with fields := h.fields.map Field.withArith }

/-- A header vector as it is after `PHVFactory::enable_all_arith`. -/
def Phv.withArith (phv : Phv) : Phv := { phv with headers := phv.headers.map Header.withArith }

namespace Header

/-- Up to the first fields that differ, both have arithmetic. -/
def fieldsComparable : List Field → List Field → Bool
  | f :: fs, g :: gs => f.arith && g.arith && (f.value != g.value || fieldsComparable fs gs)
  | _, _ => true

/-- A comparison of the headers looks at no field without arithmetic. -/
def Comparable (h other : Header) : Prop :=
  h.headerType = other.headerType → h.isValid → other.isValid →
    fieldsComparable h.fields other.fields = true

variable {h other : Header} {fs gs : List Field}

/-- Fields that can be compared are compared by their values, -/
theorem fieldsEq_of_comparable (hc : fieldsComparable fs gs = true) :
    fieldsEq fs gs = fieldsEq (fs.map Field.withArith) (gs.map Field.withArith) := by
  induction fs generalizing gs with
  | nil => cases gs <;> rfl
  | cons f fs ih =>
    cases gs with
    | nil => rfl
    | cons g gs =>
      simp only [fieldsComparable, Bool.and_eq_true, Bool.or_eq_true, bne_iff_ne] at hc
      obtain ⟨⟨hf, hg⟩, hrest⟩ := hc
      simp only [List.map_cons, fieldsEq, Field.withArith, hf, hg, Bool.and_self, if_true]
      split_ifs with heq
      · exact ih (hrest.resolve_left fun hne => hne heq)
      · rfl

/-- and others make the comparison abort. -/
theorem fieldsEq_of_not_comparable (hc : fieldsComparable fs gs = false) :
    fieldsEq fs gs = none := by
  induction fs generalizing gs with
  | nil => cases gs <;> cases hc
  | cons f fs ih =>
    cases gs with
    | nil => cases hc
    | cons g gs =>
      simp only [fieldsComparable, Bool.and_eq_false_iff, Bool.or_eq_false_iff, bne_eq_false_iff_eq] at hc
      rw [fieldsEq]
      rcases hc with hc | ⟨heq, hrest⟩
      · rw [if_neg (by rcases hc with hc | hc <;> simp [hc])]
      · split_ifs
        · exact ih hrest
        · rfl

/-- Fields with arithmetic enabled can be compared. -/
theorem fieldsComparable_of_arith (hf : ∀ f ∈ fs, f.arith = true) (hg : ∀ g ∈ gs, g.arith = true) :
    fieldsComparable fs gs = true := by
  induction fs generalizing gs with
  | nil => rfl
  | cons f fs ih =>
    cases gs with
    | nil => rfl
    | cons g gs =>
      have hrest := ih (fun f' hf' => hf f' (List.mem_cons_of_mem f hf'))
        fun g' hg' => hg g' (List.mem_cons_of_mem g hg')
      simp [fieldsComparable, hf f List.mem_cons_self, hg g List.mem_cons_self, hrest]

end Header

namespace Expressions

/-- The environment where every field has arithmetic. -/
def Env.withArith (env : Env) : Env := { env with phv := env.phv.withArith }

/-- A header vector of the factory, with these fields enabled at least. -/
structure Made (L : Layout) (a : ArithOffsets) (phv : Phv) : Prop where
  headerStacks : L.headerStacks = phv.headerStacks.map Stack.elements
  headerUnions : L.headerUnions = phv.headerUnions.map HeaderUnion.headers
  headerUnionStacks : L.headerUnionStacks = phv.headerUnionStacks.map Stack.elements
  arith : ∀ h f fld, a h f = true → phv.getField h f = some fld → fld.arith = true

/-- A vector made with more enabled is one made with less. -/
theorem Made.mono {L : Layout} {a a' : ArithOffsets} {phv : Phv} (hle : a ≤ a')
    (hm : Made L a' phv) : Made L a phv :=
  { hm with arith := fun h f fld ha => hm.arith h f fld (hle h f ha) }

theorem headers_withArith (phv : Phv) (h : ℕ) :
    phv.withArith.headers[h]? = phv.headers[h]?.map Header.withArith :=
  List.getElem?_map

theorem getField_withArith (phv : Phv) (h f : ℕ) :
    phv.withArith.getField h f = (phv.getField h f).map Field.withArith := by
  rw [Phv.getField, Phv.getField, headers_withArith]
  cases phv.headers[h]? with
  | none => rfl
  | some hdr => exact List.getElem?_map

/-- With all arithmetic any fields are enabled. -/
theorem Made.withArith {L : Layout} {phv : Phv}
    (hstacks : L.headerStacks = phv.headerStacks.map Stack.elements)
    (hunions : L.headerUnions = phv.headerUnions.map HeaderUnion.headers)
    (hunionStacks : L.headerUnionStacks = phv.headerUnionStacks.map Stack.elements)
    (a : ArithOffsets) : Made L a phv.withArith := by
  refine ⟨hstacks, hunions, hunionStacks, fun h f fld _ hfld => ?_⟩
  rw [getField_withArith] at hfld
  obtain ⟨fld', -, rfl⟩ := Option.map_eq_some_iff.mp hfld
  rfl

/-- All fields of the header have arithmetic. -/
def Phv.AllArith (phv : Phv) (h : ℕ) : Prop :=
  ∀ f fld, phv.getField h f = some fld → fld.arith = true

/-- Whatever is read of the value has arithmetic. -/
def Ready (phv : Phv) : (t : Ty) → Val t → Prop
  | .data, _ => True
  | .bool, _ => True
  | .header, h => Phv.AllArith phv h
  | .stack .header, s => ∀ st, phv.headerStacks[s]? = some st → ∀ h ∈ st.elements, Phv.AllArith phv h
  | .stack .union, s => ∀ st, phv.headerUnionStacks[s]? = some st → ∀ u ∈ st.elements, ∀ un,
      phv.headerUnions[u]? = some un → ∀ h ∈ un.headers, Phv.AllArith phv h
  | .union, u => ∀ un, phv.headerUnions[u]? = some un → ∀ h ∈ un.headers, Phv.AllArith phv h

/-- A comparison of the unions looks at no field without arithmetic. -/
def Phv.ComparableUnions (phv : Phv) (u v : ℕ) : Prop :=
  ∀ un un' i j h h', phv.headerUnions[u]? = some un → phv.headerUnions[v]? = some un' →
    un.valid → un'.valid → un.validHeaderIdx = un'.validHeaderIdx →
    un.headers[un.validHeaderIdx]? = some i → un'.headers[un'.validHeaderIdx]? = some j →
    phv.headers[i]? = some h → phv.headers[j]? = some h' → h.Comparable h'

def Binary.Comparable (env : Env) {s₁ s₂ t : Ty} : Binary s₁ s₂ t → Val s₁ → Val s₂ → Prop
  | .cmpUnion _, u, v => Phv.ComparableUnions env.phv u v
  | _, _, _ => True

/-- Whenever the evaluation comes to compare two unions, the comparison looks at no field
without arithmetic. -/
def Expr.Comparable (env : Env) : {t : Ty} → Expr t → Prop
  | _, .leaf _ => True
  | _, .unary _ x => x.Comparable env
  | _, .binary o l r =>
    l.Comparable env ∧ r.Comparable env ∧
      ∀ v w, l.denote env.withArith = some v → r.denote env.withArith = some w →
        o.Comparable env v w
  | _, .ternary c l r =>
    c.Comparable env ∧
      ∀ b, c.denote env.withArith = some b → if b then l.Comparable env else r.Comparable env

/-- No member of a union is accessed. -/
def Expr.memberFree : {t : Ty} → Expr t → Bool
  | _, .leaf _ => true
  | _, .unary (.accessUnionHeader _) _ => false
  | _, .unary _ x => x.memberFree
  | _, .binary _ l r => l.memberFree && r.memberFree
  | _, .ternary c l r => c.memberFree && l.memberFree && r.memberFree

/-- No union is named. -/
def Expr.unionFree : {t : Ty} → Expr t → Bool
  | _, .leaf (.union _) => false
  | _, .leaf _ => true
  | _, .unary _ x => x.unionFree
  | _, .binary _ l r => l.unionFree && r.unionFree
  | _, .ternary c l r => c.unionFree && l.unionFree && r.unionFree

/-! ## Reading with all arithmetic -/

section Reading

variable {L : Layout} {a a' : ArithOffsets} {env : Env} {h f u v : ℕ}

/-- A field whose arithmetic is enabled is loaded as if all were, -/
theorem loadField_withArith (ha : ∀ fld, env.phv.getField h f = some fld → fld.arith = true) :
    env.loadField h f = env.withArith.loadField h f := by
  rw [Env.loadField, Env.loadField]
  change _ = Option.map _ (env.phv.withArith.getField h f)
  rw [getField_withArith]
  cases hfld : env.phv.getField h f with
  | none => rfl
  | some fld =>
    have hfield := ha fld hfld
    simp [Field.withArith, ← hfield]

/-- a header is anyway, -/
theorem loadHeader_withArith (env : Env) (h : ℕ) :
    env.withArith.loadHeader h = env.loadHeader h := by
  rw [Env.loadHeader, Env.loadHeader]
  change Option.map _ env.phv.withArith.headers[h]? = _
  rw [headers_withArith, Option.map_map]
  rfl

/-- and so is its flag. -/
theorem validHeader_withArith (env : Env) (h : ℕ) :
    env.withArith.validHeader h = env.validHeader h := by
  rw [Env.validHeader, Env.validHeader]
  change Option.map _ env.phv.withArith.headers[h]? = _
  rw [headers_withArith, Option.map_map]
  rfl

@[simp] theorem getStack_withArith (env : Env) (k : StackKind) (s : ℕ) :
    env.withArith.getStack k s = env.getStack k s := by
  cases k <;> rfl

/-- Two headers that can be compared. -/
theorem cmp_withArith {h h' : Header} (hc : h.Comparable h') :
    h.cmp h' = h.withArith.cmp h'.withArith := by
  rw [Header.cmp, Header.cmp]
  change _ = if h.headerType = h'.headerType ∧ h.isValid ∧ h'.isValid then
    Header.fieldsEq (h.fields.map Field.withArith) (h'.fields.map Field.withArith) else some false
  split_ifs with hcond
  · exact Header.fieldsEq_of_comparable (hc hcond.1 hcond.2.1 hcond.2.2)
  · rfl

/-- Two headers with all fields enabled can be compared, -/
theorem comparable_of_allArith {i j : ℕ} {h h' : Header} (hi : Phv.AllArith env.phv i)
    (hj : Phv.AllArith env.phv j) (hh : env.phv.headers[i]? = some h)
    (hh' : env.phv.headers[j]? = some h') : h.Comparable h' := by
  have hmem : ∀ {i : ℕ} {h : Header}, Phv.AllArith env.phv i → env.phv.headers[i]? = some h →
      ∀ fld ∈ h.fields, fld.arith = true := by
    intro i h hi hh fld hfld
    obtain ⟨f, hf⟩ := List.mem_iff_getElem?.mp hfld
    exact hi f fld (by rw [Phv.getField, hh]; exact hf)
  intro _ _ _
  exact Header.fieldsComparable_of_arith (hmem hi hh) (hmem hj hh')

/-- so that they compare as if all fields were, -/
theorem cmpHeader_withArith {i j : ℕ} (hi : Phv.AllArith env.phv i)
    (hj : Phv.AllArith env.phv j) (neq : Bool) :
    env.cmpHeader neq i j = env.withArith.cmpHeader neq i j := by
  rw [Env.cmpHeader, Env.cmpHeader]
  change _ = (env.phv.withArith.headers[i]?).bind fun lh =>
    (env.phv.withArith.headers[j]?).bind fun rh => (lh.cmp rh).map _
  rw [headers_withArith, headers_withArith]
  rcases hh : env.phv.headers[i]? with - | h
  · rfl
  rcases hh' : env.phv.headers[j]? with - | h'
  · rfl
  have hcmp := cmp_withArith (comparable_of_allArith hi hj hh hh')
  simp only [Option.bind_eq_bind, Option.bind_some, Option.map_some, hcmp]

/-- and so do unions whose valid members can be compared. -/
theorem cmpUnion_withArith (hc : Phv.ComparableUnions env.phv u v) (neq : Bool) :
    env.cmpUnion neq u v = env.withArith.cmpUnion neq u v := by
  rw [Env.cmpUnion, Env.cmpUnion]
  change _ = (env.phv.headerUnions[u]?).bind fun lu =>
    (env.phv.headerUnions[v]?).bind fun ru => (env.phv.withArith.cmpUnion lu ru).map _
  rcases hu : env.phv.headerUnions[u]? with - | un
  · rfl
  rcases hv : env.phv.headerUnions[v]? with - | un'
  · rfl
  simp only [Option.bind_eq_bind, Option.bind_some]
  rw [Phv.cmpUnion, Phv.cmpUnion]
  split_ifs with hboth
  · obtain ⟨hvalid, hvalid', hidx⟩ := hboth
    rcases hi : un.headers[un.validHeaderIdx]? with - | i
    · rfl
    rcases hj : un'.headers[un'.validHeaderIdx]? with - | j
    · rcases env.phv.headers[i]? with - | h <;> simp [headers_withArith]
    simp only [Option.bind_eq_bind, Option.bind_some]
    rw [headers_withArith, headers_withArith]
    rcases hh : env.phv.headers[i]? with - | h
    · rfl
    rcases hh' : env.phv.headers[j]? with - | h'
    · rfl
    have hcmp := cmp_withArith (hc un un' i j h h' hu hv hvalid hvalid' hidx hi hj hh hh')
    simp only [Option.bind_some, Option.map_some, hcmp]
  · rfl

/-- **A comparison that looks at a field without arithmetic** is an assertion failure. -/
theorem cmpUnion_of_not_comparable (hc : ¬ Phv.ComparableUnions env.phv u v) (neq : Bool) :
    env.cmpUnion neq u v = none := by
  simp only [Phv.ComparableUnions, Header.Comparable, not_forall] at hc
  obtain ⟨un, un', i, j, h, h', hu, hv, hvalid, hvalid', hidx, hi, hj, hh, hh', htype, hhv, hhv',
    hfields⟩ := hc
  have hcmp : h.cmp h' = none := by
    rw [Header.cmp, if_pos ⟨htype, hhv, hhv'⟩]
    exact Header.fieldsEq_of_not_comparable (Bool.eq_false_of_not_eq_true hfields)
  have hunion : env.phv.cmpUnion un un' = none := by
    rw [Phv.cmpUnion, if_pos ⟨hvalid, hvalid', hidx⟩]
    simp [hi, hj, hh, hh', hcmp]
  simp [Env.cmpUnion, hu, hv, hunion]

/-! ### What a load has made ready -/

/-- The vector made has the stacks of the layout, -/
theorem Made.headerStack (hm : Made L a env.phv) {s : ℕ} {st : Stack}
    (hst : env.phv.headerStacks[s]? = some st) : L.headerStacks[s]? = some st.elements := by
  rw [hm.headerStacks, List.getElem?_map, hst]
  rfl

/-- its unions, -/
theorem Made.headerUnion (hm : Made L a env.phv) {un : HeaderUnion}
    (hu : env.phv.headerUnions[u]? = some un) : L.headerUnions[u]? = some un.headers := by
  rw [hm.headerUnions, List.getElem?_map, hu]
  rfl

/-- and its stacks of unions. -/
theorem Made.headerUnionStack (hm : Made L a env.phv) {s : ℕ} {st : Stack}
    (hst : env.phv.headerUnionStacks[s]? = some st) :
    L.headerUnionStacks[s]? = some st.elements := by
  rw [hm.headerUnionStacks, List.getElem?_map, hst]
  rfl

/-- A dereference finds an element of its stack. -/
theorem mem_of_dereference {k : StackKind} {s h : ℕ} {d : Data}
    (hd : env.dereference k s d = some h) :
    ∃ st, env.getStack k s = some st ∧ h ∈ st.elements := by
  obtain ⟨st, hst, hd⟩ := Option.bind_eq_some_iff.mp hd
  obtain ⟨i, -, hget⟩ := Option.bind_eq_some_iff.mp hd
  exact ⟨st, hst, List.mem_of_getElem? hget⟩

/-- **What a load makes ready**: the value of a tree, unless it may be a union that is
named. -/
theorem Expr.ready {t : Ty} {e : Expr t} (hm : Made L (e.enable L a) env.phv)
    (hmember : e.memberFree = true) (hunion : t = .union → e.unionFree = true) {v : Val t}
    (hv : e.denote env.withArith = some v) : Ready env.phv t v := by
  -- The tree enables its operands from left to right, so what is made of the whole is more than
  -- what the left operand asks.
  induction e generalizing a with
  | leaf o =>
    cases o with
    -- A header literal enables its own fields.
    | header h =>
      rw [Expr.denote, Leaf.denote, loadHeader_withArith] at hv
      obtain ⟨hdr, -, rfl⟩ := Option.map_eq_some_iff.mp hv
      exact fun f fld => hm.arith _ f fld (a.enableArith_self _ f)
    | stack kind s =>
      obtain ⟨st, hst, rfl⟩ := Option.map_eq_some_iff.mp hv
      cases kind with
      | header =>
        intro st hst h hh f fld
        exact hm.arith h f fld (ArithOffsets.enableAllStack_mem (hm.headerStack hst) hh a f)
      | union =>
        intro st hst u hu un hun h hh f fld
        exact hm.arith h f fld (ArithOffsets.enableAllUnionStack_mem (hm.headerUnionStack hst) hu
          (hm.headerUnion hun) hh a f)
    -- Nothing is enabled for the literal of a union.
    | union u => exact absurd (hunion rfl) (by simp [unionFree])
    | _ => trivial
  | unary o x ih =>
    cases o with
    | accessUnionHeader f => cases hmember
    | _ => trivial
  | binary o l r ihl ihr =>
    rw [memberFree, Bool.and_eq_true] at hmember
    obtain ⟨w, hw, hv⟩ := Option.bind_eq_some_iff.mp hv
    obtain ⟨d, -, hv⟩ := Option.bind_eq_some_iff.mp hv
    have hl : Made L (l.enable L a) env.phv := hm.mono (r.le_enable _)
    cases o with
    | dereferenceHeaderStack =>
      obtain ⟨st, hst, hh⟩ := mem_of_dereference hv
      exact ihl hl hmember.1 nofun hw st hst v hh
    | dereferenceUnionStack =>
      obtain ⟨st, hst, hu⟩ := mem_of_dereference hv
      exact ihl hl hmember.1 nofun hw st hst v hu
    | _ => trivial
  | @ternary t c l r ihc ihl ihr =>
    simp only [memberFree, Bool.and_eq_true] at hmember
    obtain ⟨b, -, hv⟩ := Option.bind_eq_some_iff.mp hv
    have hfree : t = .union → l.unionFree = true ∧ r.unionFree = true := fun ht => by
      have hboth := hunion ht
      simp only [unionFree, Bool.and_eq_true] at hboth
      exact ⟨hboth.1.2, hboth.2⟩
    cases b with
    | true =>
      exact ihl (hm.mono (r.le_enable _)) hmember.1.2 (fun ht => (hfree ht).1) hv
    | false => exact ihr hm hmember.2 (fun ht => (hfree ht).2) hv

end Reading

/-! ## The value of an expression -/

section Value

variable {L : Layout} {a : ArithOffsets} {env : Env}

/-- A unary operation on what is ready means what it would with all enabled, -/
theorem Unary.denote_withArith {s t : Ty} (o : Unary s t) {v : Val s}
    (hv : s ≠ .union → Ready env.phv s v) : o.denote env v = o.denote env.withArith v := by
  cases o with
  | accessField f => exact loadField_withArith fun fld => hv nofun f fld
  | validHeader => exact (validHeader_withArith env v).symm
  | lastStackIndex k => rw [Unary.denote, Unary.denote, getStack_withArith]
  | sizeStack k => rw [Unary.denote, Unary.denote, getStack_withArith]
  | _ => rfl

/-- a dereference does always, -/
theorem dereference_withArith (env : Env) (k : StackKind) (s : ℕ) (d : Data) :
    env.withArith.dereference k s d = env.dereference k s d := by
  rw [Env.dereference, Env.dereference, getStack_withArith]
  rfl

/-- and a binary operation when the unions it compares can be compared. -/
theorem Binary.denote_withArith {s₁ s₂ t : Ty} (o : Binary s₁ s₂ t) {v : Val s₁} {w : Val s₂}
    (hv : s₁ ≠ .union → Ready env.phv s₁ v) (hw : s₂ ≠ .union → Ready env.phv s₂ w)
    (hc : o.Comparable env v w) : o.denote env v w = o.denote env.withArith v w := by
  cases o with
  | cmpHeader neq => exact cmpHeader_withArith (hv nofun) (hw nofun) neq
  | cmpUnion neq => exact cmpUnion_withArith hc neq
  | dereferenceHeaderStack => exact (dereference_withArith env .header v w).symm
  | dereferenceUnionStack => exact (dereference_withArith env .union v w).symm
  | _ => rfl

/-- A comparison that looks at a field without arithmetic has no value. -/
theorem Binary.denote_of_not_comparable {s₁ s₂ t : Ty} {o : Binary s₁ s₂ t} {v : Val s₁}
    {w : Val s₂} (hc : ¬ o.Comparable env v w) : o.denote env v w = none := by
  cases o with
  | cmpUnion neq => exact cmpUnion_of_not_comparable hc neq
  | _ => exact absurd trivial hc

/-- A leaf enables what it reads. -/
theorem Leaf.denote_withArith {t : Ty} (o : Leaf t) (hm : Made L (o.enable L a) env.phv) :
    o.denote env = o.denote env.withArith := by
  cases o with
  | field h f =>
    exact loadField_withArith fun fld => hm.arith h f fld (a.enableArithField_self h f)
  | lastHeaderStackField s f =>
    rw [Leaf.denote, Leaf.denote, Env.loadLastHeaderStackField, Env.loadLastHeaderStackField]
    change _ = (env.phv.headerStacks[s]?).bind fun st =>
      st.getLast.bind fun h => env.withArith.loadField h f
    rcases hst : env.phv.headerStacks[s]? with - | st
    · rfl
    rcases hlast : st.getLast with - | h
    · simp [hlast]
    have hmem : h ∈ st.elements := by
      rw [Stack.getLast] at hlast
      split_ifs at hlast
      exact List.mem_of_getElem? hlast
    simp only [Option.bind_eq_bind, Option.bind_some, hlast]
    exact loadField_withArith fun fld =>
      hm.arith h f fld (ArithOffsets.enableStackField_mem (hm.headerStack hst) hmem a f)
  | header h => exact (loadHeader_withArith env h).symm
  | stack k s => rw [Leaf.denote, Leaf.denote, Env.loadStack, Env.loadStack, getStack_withArith]
  | _ => rfl

/-- An operand of an expression without members of unions has none. -/
theorem Expr.memberFree_unary {s t : Ty} {o : Unary s t} {x : Expr s}
    (h : (Expr.unary o x).memberFree = true) : x.memberFree = true := by
  cases o with
  | accessUnionHeader f => cases h
  | _ => exact h

/-- **An expression evaluates to its value** where it compares no unions without
arithmetic. -/
theorem Expr.denote_withArith {t : Ty} {e : Expr t} (hm : Made L (e.enable L a) env.phv)
    (hmember : e.memberFree = true) (hc : e.Comparable env) :
    e.denote env = e.denote env.withArith := by
  induction e generalizing a with
  | leaf o => exact o.denote_withArith hm
  | unary o x ih =>
    have hx := Expr.memberFree_unary hmember
    rw [Expr.denote, Expr.denote, ih hm hx hc]
    exact Option.bind_congr fun v hv =>
      o.denote_withArith fun hne => Expr.ready (e := x) hm hx (absurd · hne) hv
  | binary o l r ihl ihr =>
    rw [memberFree, Bool.and_eq_true] at hmember
    obtain ⟨hcl, hcr, hco⟩ := hc
    have hml : Made L (l.enable L a) env.phv := hm.mono (r.le_enable _)
    rw [Expr.denote, Expr.denote, ihl hml hmember.1 hcl, ihr hm hmember.2 hcr]
    exact Option.bind_congr fun v hv => Option.bind_congr fun w hw =>
      o.denote_withArith (fun hne => Expr.ready hml hmember.1 (absurd · hne) hv)
        (fun hne => Expr.ready (e := r) hm hmember.2 (absurd · hne) hw) (hco v w hv hw)
  | ternary c l r ihc ihl ihr =>
    simp only [memberFree, Bool.and_eq_true] at hmember
    obtain ⟨hcc, hcb⟩ := hc
    have hml : Made L (l.enable L (c.enable L a)) env.phv := hm.mono (r.le_enable _)
    rw [Expr.denote, Expr.denote, ihc (hml.mono (l.le_enable _)) hmember.1.1 hcc]
    refine Option.bind_congr fun b hb => ?_
    have hbranch := hcb b hb
    cases b with
    | true => exact ihl hml hmember.1.2 hbranch
    | false => exact ihr hm hmember.2 hbranch

/-- **An evaluation that compares unions without arithmetic** stops. -/
theorem Expr.denote_of_not_comparable {t : Ty} {e : Expr t}
    (hm : Made L (e.enable L a) env.phv) (hmember : e.memberFree = true)
    (hc : ¬ e.Comparable env) : e.denote env = none := by
  induction e generalizing a with
  | leaf o => exact absurd trivial hc
  | unary o x ih => rw [Expr.denote, ih hm (Expr.memberFree_unary hmember) hc, Option.bind_none]
  | binary o l r ihl ihr =>
    rw [memberFree, Bool.and_eq_true] at hmember
    have hml : Made L (l.enable L a) env.phv := hm.mono (r.le_enable _)
    rw [Expr.denote]
    by_cases hcl : l.Comparable env
    · by_cases hcr : r.Comparable env
      · rw [Expr.denote_withArith hml hmember.1 hcl, Expr.denote_withArith (e := r) hm hmember.2 hcr]
        simp only [Expr.Comparable, hcl, hcr, true_and, not_forall] at hc
        obtain ⟨v, w, hv, hw, hco⟩ := hc
        rw [hv, hw]
        exact Binary.denote_of_not_comparable hco
      · rw [ihr hm hmember.2 hcr]
        exact Option.bind_fun_none _
    · rw [ihl hml hmember.1 hcl, Option.bind_none]
  | ternary c l r ihc ihl ihr =>
    simp only [memberFree, Bool.and_eq_true] at hmember
    have hml : Made L (l.enable L (c.enable L a)) env.phv := hm.mono (r.le_enable _)
    have hmc : Made L (c.enable L a) env.phv := hml.mono (l.le_enable _)
    rw [Expr.denote]
    by_cases hcc : c.Comparable env
    · rw [Expr.denote_withArith hmc hmember.1.1 hcc]
      simp only [Expr.Comparable, hcc, true_and, not_forall] at hc
      obtain ⟨b, hb, hbranch⟩ := hc
      rw [hb, Option.bind_some]
      cases b with
      | true => exact ihl hml hmember.1.2 hbranch
      | false => exact ihr hm hmember.2 hbranch
    · rw [ihc hmc hmember.1.1 hcc, Option.bind_none]

/-- **Where no union is named**, all unions that are compared come from stacks, whose
fields have arithmetic. -/
theorem Expr.comparable_of_unionFree {t : Ty} {e : Expr t}
    (hm : Made L (e.enable L a) env.phv) (hmember : e.memberFree = true)
    (hunion : e.unionFree = true) : e.Comparable env := by
  induction e generalizing a with
  | leaf o => trivial
  | unary o x ih => exact ih hm (Expr.memberFree_unary hmember) hunion
  | binary o l r ihl ihr =>
    rw [memberFree, Bool.and_eq_true] at hmember
    rw [unionFree, Bool.and_eq_true] at hunion
    have hml : Made L (l.enable L a) env.phv := hm.mono (r.le_enable _)
    refine ⟨ihl hml hmember.1 hunion.1, ihr hm hmember.2 hunion.2, fun v w hv hw => ?_⟩
    cases o with
    | cmpUnion neq =>
      have hu := Expr.ready hml hmember.1 (fun _ => hunion.1) hv
      have hu' := Expr.ready (e := r) hm hmember.2 (fun _ => hunion.2) hw
      intro un un' i j h h' hun hun' _ _ _ hi hj hh hh'
      exact comparable_of_allArith (hu un hun i (List.mem_of_getElem? hi))
        (hu' un' hun' j (List.mem_of_getElem? hj)) hh hh'
    | _ => trivial
  | ternary c l r ihc ihl ihr =>
    simp only [memberFree, Bool.and_eq_true] at hmember
    simp only [unionFree, Bool.and_eq_true] at hunion
    have hml : Made L (l.enable L (c.enable L a)) env.phv := hm.mono (r.le_enable _)
    refine ⟨ihc (hml.mono (l.le_enable _)) hmember.1.1 hunion.1.1, fun b _ => ?_⟩
    cases b with
    | true => exact ihl hml hmember.1.2 hunion.1.2
    | false => exact ihr hm hmember.2 hunion.2

end Value

end Expressions

end P4Bricks
