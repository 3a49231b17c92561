import P4Bricks.Common.Outcomes
import P4Bricks.Linker.HeaderTypes
/-!
# Programs that are linked

What the linker sees of a program, and the order in which it takes the states of
its parser: `p4objects_linker_ext.cpp`. A state is taken once all states that
lead to it have been, and the first one at once.
-/

namespace P4Bricks

namespace Linker

/-- How a call of the linker ends without a result. -/
inductive Stop where
  /-- A null pointer is followed, or the end of a map. -/
  | nullDeref
  /-- It needs more steps than were given. -/
  | outOfFuel
  deriving DecidableEq, Repr

/-- What is pointed to, if the pointer is not null. -/
def deref {α : Type} : Option α → Except Stop α
  | some a => .ok a
  | none => .error .nullDeref

/-- What an entry of a map with one key written is. -/
theorem lookup_insert_cases {α : Type} {map : NameMap α} {name n : String} {a b : α}
    (h : (map.insert name a).lookup n = some b) : (n = name ∧ b = a) ∨ (n ≠ name ∧ map.lookup n = some b) := by
  by_cases hn : n = name
  · subst hn
    rw [AList.lookup_insert] at h
    exact .inl ⟨rfl, (Option.some.inj h).symm⟩
  · rw [AList.lookup_insert_ne hn] at h
    exact .inr ⟨hn, h⟩

theorem deref_eq_ok {α : Type} {x : Option α} {a : α} (h : deref x = .ok a) : x = some a := by
  cases x with
  | none => cases h
  | some b =>
    obtain rfl := Except.ok.inj h
    rfl

/-! ## Parse states -/

/-- A `ParserOp`. The linker has dropped all but `ParserOpExtract`. -/
inductive ParserOp where
  | extract (header : ℤ)
  | unsupported
  deriving DecidableEq, Repr

/-- `ParseSwitchKeyBuilder::Entry`. -/
inductive Entry where
  | field (header offset : ℤ)
  | lookahead (offset bitwidth : ℤ)
  | stackField (headerStack offset : ℤ)
  | unionStackField (headerUnionStack headerOffset offset : ℤ)
  deriving DecidableEq, Repr

/-- `ParseSwitchKeyBuilder`. -/
structure ParseSwitchKeyBuilder where
  entries : List Entry := []
  bitwidths : List ℤ := []
  deriving DecidableEq, Repr

/-- A `ParseSwitchCaseIface`. States are pointed to by values of `Ref`; there is no
next state at the end of parsing. -/
inductive ParseSwitchCase (Ref : Type) where
  | exact (key : List UInt8) (nextState : Option Ref)
  | withMask (key mask : List UInt8) (nextState : Option Ref)
  | vset (name : String) (mask : Option (List UInt8)) (nextState : Option Ref)
  deriving DecidableEq, Repr

/-- `ParseState`. -/
structure ParseState (Ref : Type) where
  name : String
  id : ℤ
  parserOps : List ParserOp := []
  hasSwitch : Bool := false
  keyBuilder : ParseSwitchKeyBuilder := {}
  parserSwitch : List (ParseSwitchCase Ref) := []
  defaultNextState : Option Ref := none
  deriving DecidableEq, Repr

namespace ParseState

variable {Ref : Type}

/-- `ParseState::add_extract`. -/
def addExtract (st : ParseState Ref) (header : ℤ) : ParseState Ref :=
  { st with parserOps := st.parserOps ++ [.extract header] }

/-- `ParseState::set_key_builder`. -/
def setKeyBuilder (st : ParseState Ref) (builder : ParseSwitchKeyBuilder) : ParseState Ref :=
  { st with hasSwitch := true, keyBuilder := builder }

/-- `ParseState::add_switch_case`. -/
def addSwitchCase (st : ParseState Ref) (key : List UInt8) (nextState : Ref) : ParseState Ref :=
  { st with parserSwitch := st.parserSwitch ++ [.exact key (some nextState)] }

/-- The state with its pointers changed. -/
def mapRef {Ref' : Type} (f : Ref → Ref') (st : ParseState Ref) : ParseState Ref' :=
  { name := st.name
    id := st.id
    parserOps := st.parserOps
    hasSwitch := st.hasSwitch
    keyBuilder := st.keyBuilder
    parserSwitch := st.parserSwitch.map fun
      | .exact key next => .exact key (next.map f)
      | .withMask key mask next => .withMask key mask (next.map f)
      | .vset name mask next => .vset name mask (next.map f)
    defaultNextState := st.defaultNextState.map f }

end ParseState

/-! ## Programs -/

/-- What `header_ids_map` and `header_to_type_map` have under the name of a header.
The type is known by its name. -/
structure HeaderDecl where
  id : ℤ
  typeName : String
  deriving DecidableEq, Repr

/-- `P4Objects`, as the linker sees it. States are pointed to by their place in
`parseStates`. -/
structure P4Objects where
  headerTypes : NameMap HeaderType
  headers : NameMap HeaderDecl
  parseStates : List (ParseState ℕ)
  initState : ℕ

namespace P4Objects

/-- Nothing of anything. -/
def empty : P4Objects := ⟨∅, ∅, [], 0⟩

variable (p : P4Objects)

/-- The name and the declaration of the header of this id: what
`init_header_id_to_header_type_map` saw last. -/
def header? (id : ℤ) : Option (String × HeaderDecl) :=
  (p.headers.entries.reverse.find? fun e => e.2.id = id).map fun e => (e.1, e.2)

/-- `P4ObjectsLinkerExt::get_header_type_of_header_id`, whose type is known by its
name: `none` for a null pointer. -/
def typeOfHeaderId (id : ℤ) : Option String :=
  (p.header? id).bind fun h => if h.2.typeName ∈ p.headerTypes then some h.2.typeName else none

theorem lookup_of_typeOfHeaderId {id : ℤ} {n : String} (h : p.typeOfHeaderId id = some n) :
    ∃ t, p.headerTypes.lookup n = some t := by
  obtain ⟨x, -, hx⟩ := Option.bind_eq_some_iff.mp h
  split_ifs at hx with hmem
  obtain rfl := Option.some.inj hx
  exact Option.isSome_iff_exists.mp (AList.lookup_isSome.mpr hmem)

/-- `P4ObjectsLinkerExt::get_header_name`. -/
def headerName (id : ℤ) : Except Stop String := (deref (p.header? id)).map Prod.fst

/-! ## The order of the states -/

/-- The names of the states that a state leads to, other than by a set of values or
by default. -/
def neighbours : List (ParseSwitchCase ℕ) → Except Stop (List String)
  | [] => .ok []
  | .vset _ _ _ :: cases => neighbours cases
  | .exact _ next :: cases | .withMask _ _ next :: cases => do
    let i ← deref next
    let st ← deref p.parseStates[i]?
    let names ← neighbours cases
    .ok (st.name :: names)

/-- What `bfs_topological_ordering_of_parser_states` works with. -/
structure Graph where
  nameDegree : String → ℕ := fun _ => 0
  nameParseState : NameMap ℕ := ∅
  adjacency : NameMap (List String) := ∅

/-- One state more in the maps. Of states with one name the first stays. -/
def addState (g : Graph) (i : ℕ) (st : ParseState ℕ) : Except Stop Graph := do
  let names ← p.neighbours st.parserSwitch
  .ok
    { nameDegree := names.foldl (fun d s => Function.update d s ((d s + 1) % 2 ^ 32)) g.nameDegree
      nameParseState :=
        if st.name ∈ g.nameParseState then g.nameParseState else g.nameParseState.insert st.name i
      adjacency :=
        if st.name ∈ g.adjacency then g.adjacency else g.adjacency.insert st.name names }

/-- The maps of the first loop. -/
def graph : Except Stop Graph :=
  p.parseStates.zipIdx.foldlM (fun g st => p.addState g st.2 st.1) {}

/-- What is left to take: the queue, and the degrees, which are `unsigned`. -/
abbrev Search := List String × (String → ℕ)

/-- A neighbour of the state that was taken. -/
def visit (search : Search) (name : String) : Search :=
  let d := (search.2 name + (2 ^ 32 - 1)) % 2 ^ 32
  (if d = 0 then search.1 ++ [name] else search.1, Function.update search.2 name d)

/-- The second loop, of at most as many rounds as are given. -/
def topologicalOrder (g : Graph) : ℕ → Search → Except Stop (List String)
  | _, ([], _) => .ok []
  | 0, _ => .error .outOfFuel
  | fuel + 1, (current :: queue, degree) => do
    let names := (g.adjacency.lookup current).getD []
    let order ← topologicalOrder g fuel (names.foldl visit (queue, degree))
    .ok (current :: order)

/-- `bfs_topological_ordering_of_parser_states`: the places of the states, in
order. -/
def orderedParseStates (fuel : ℕ) : Except Stop (List ℕ) := do
  let g ← p.graph
  let init ← deref p.parseStates[p.initState]?
  let order ← topologicalOrder g fuel ([init.name], g.nameDegree)
  order.mapM fun name => deref (g.nameParseState.lookup name)

end P4Objects

end Linker

end P4Bricks
