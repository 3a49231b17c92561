import P4Bricks.Common.Handles
import P4Bricks.Linker.Programs
import Mathlib.Data.Finset.Image
/-!
# Linking parsers

`link_parsers.cpp`, with `HeaderUIDTable` of `link_headers.cpp` and
`Linker::add_p4objects`. Each state of the running parser is linked to the first
state of the new one that can be linked to it, or copied; the states of the new
parser that are left get states of their own. The transitions are put together
afterwards, from the first states on.

Most calls return a code that their callers do not look at, and a call that
returns a failure may have changed the tables before.
-/

namespace P4Bricks

namespace Linker

/-! ## Headers -/

/-- `HeaderUIDTable`. `linkerUids` are the keys of the reverse map of the table. -/
structure HeaderUidTable where
  linkTable : UidTable ℤ
  linkerUids : Finset ℤ
  linkerHeaderIdsMap : NameMap ℤ
  linkerHeaderIdTypeNameMap : ℤ → Option String

namespace HeaderUidTable

def empty : HeaderUidTable := ⟨.empty, ∅, ∅, fun _ => none⟩

/-- `header_ids_link_table.insert_p4objects_link`. -/
def insertLink (table : HeaderUidTable) (p4Name : String) (headerId linkId : ℤ) :
    TableRetCode × HeaderUidTable :=
  match table.linkTable.insertP4objectsLink p4Name headerId linkId .headerLinked with
  | (.success, linkTable) =>
    (.success, { table with linkTable := linkTable, linkerUids := insert linkId table.linkerUids })
  | (code, linkTable) => (code, { table with linkTable := linkTable })

/-- `HeaderUIDTable::link_header_ids`. -/
def linkHeaderIds (table : HeaderUidTable) (p4Name : String) (headerId rpHeaderId : ℤ) :
    ObjectLinkStateCode × HeaderUidTable :=
  match table.insertLink p4Name headerId rpHeaderId with
  | (.success, table) => (.headerLinked, table)
  | (_, table) => (.headerLinkFailed, table)

/-- `HeaderUIDTable::get_new_header_id`: the least id from 0 on that is not used. -/
def getNewHeaderId (ids : Finset ℤ) : ℤ :=
  firstFree ((ids.filter fun id => 0 ≤ id).image Int.toNat)

/-- `HeaderUIDTable::link_new_header_id`, with the hint it leaves to its caller. The
hint is changed before the table is asked. -/
def linkNewHeaderId (types : HeaderTypeUidTable) (table : HeaderUidTable)
    (p4Name headerName : String) (headerId : ℤ) (headerTypeName : String) (hint : ℤ) :
    ObjectLinkStateCode × ℤ × HeaderUidTable :=
  let hint := if hint ∈ table.linkerUids then getNewHeaderId table.linkerUids else hint
  match table.insertLink p4Name headerId hint with
  | (.success, table) =>
    let linkedTypeName := (types.getLinkerHeaderType p4Name headerTypeName).getD ""
    (.headerLinked, hint,
      { table with
        linkerHeaderIdsMap := table.linkerHeaderIdsMap.insert (p4Name ++ "." ++ headerName) hint
        linkerHeaderIdTypeNameMap :=
          Function.update table.linkerHeaderIdTypeNameMap hint (some linkedTypeName) })
  | (_, table) => (.headerLinkFailed, hint, table)

end HeaderUidTable

/-- `HeaderTypeUIDTable::get_header_type_mapping`. -/
def HeaderTypeUidTable.getHeaderTypeMapping (table : HeaderTypeUidTable)
    (p4Name headerTypeN rpHeaderTypeN : String) : ObjectLinkStateCode :=
  match table.linkTable.getP4objectsLinkState p4Name headerTypeN rpHeaderTypeN with
  | .ok linkState => linkState
  | .error _ => .headerTypeDefMatchFailed

/-! ## One state -/

/-- `UIDTableLinkOPCode`. -/
inductive UidTableLinkOPCode where
  | mapExistingId
  | insertNewId
  | noOps
  deriving DecidableEq, Repr

/-- `ParseStateExt`: a state of the merged parser, whose transitions are by name
until the parser is finished. -/
structure ParseStateExt where
  uidTableLinkOpcode : UidTableLinkOPCode
  newParseState : ParseState String
  switchCaseMerged : Bool := false
  headerIdMap : AList fun _ : ℤ => ℤ := ∅

def ParseStateExt.new (name : String) (id : ℤ) (opcode : UidTableLinkOPCode) : ParseStateExt where
  uidTableLinkOpcode := opcode
  newParseState := { name := name, id := id }

/-- What `LinkParsers` works with while it links the parser of `prog` to that of
`rp`, the running program, if there is one. -/
structure Env where
  types : HeaderTypeUidTable
  p4Name : String
  prog : P4Objects
  rp : P4Objects

namespace LinkParsers

variable (env : Env)

/-- `LinkParsers::link_extract_parser_op_regular`. -/
def linkExtractParserOpRegular (headerId rpHeaderId : ℤ) (ext : ParseStateExt) :
    Except Stop (ObjectLinkStateCode × ParseStateExt) := do
  let headerType ← deref (env.prog.typeOfHeaderId headerId)
  let rpHeaderType ← deref (env.rp.typeOfHeaderId rpHeaderId)
  let ret := env.types.getHeaderTypeMapping env.p4Name headerType rpHeaderType
  if ret = .headerTypeDefMatch then
    .ok (ret,
      { ext with
        headerIdMap := ext.headerIdMap.insert headerId rpHeaderId
        newParseState := ext.newParseState.addExtract rpHeaderId })
  else
    .ok (ret, ext)

/-- The inner loop of `LinkParsers::merge_parser_ops`: one op against the ops that
are left of the running parser. `none` stands for the return inside the loop. -/
def mergeParserOp (op : ParserOp) :
    List ParserOp → ObjectLinkStateCode × ParseStateExt →
      Except Stop (Option ObjectLinkStateCode × ParseStateExt)
  | [], (code, ext) => .ok (some code, ext)
  | rpOp :: rpOps, (code, ext) =>
    match op, rpOp with
    | .extract headerId, .extract rpHeaderId => do
      let (ret, ext) ← linkExtractParserOpRegular env headerId rpHeaderId ext
      if ret = .headerTypeDefMatch then mergeParserOp op rpOps (ret, ext)
      else .ok (none, ext)
    | _, _ => mergeParserOp op rpOps (code, ext)

/-- `LinkParsers::merge_parser_ops`. The iterator of the inner loop is not set back:
after the first op nothing is left for the others. -/
def mergeParserOps :
    List ParserOp → List ParserOp → ObjectLinkStateCode × ParseStateExt →
      Except Stop (ObjectLinkStateCode × ParseStateExt)
  | [], _, res => .ok res
  | op :: ops, rpOps, (code, ext) => do
    let (code, ext) ← mergeParserOp env op rpOps (code, ext)
    match code with
    | none => .ok (.stateHeaderOpsLinkFailed, ext)
    | some code => mergeParserOps ops [] (code, ext)

/-- The loop of `link_parse_switch_key` over two keys of one length. A pair of fields
that differ is left out. `none` when the keys cannot be linked. -/
def linkKeyEntries :
    List (Entry × ℤ) → List (Entry × ℤ) → Option (List (Entry × ℤ))
  | [], [] => some []
  | (.field _ offset, bw) :: es, (.field rpHeader rpOffset, rpBw) :: rpEs =>
    (linkKeyEntries es rpEs).map fun merged =>
      if bw = rpBw ∧ offset = rpOffset then (.field rpHeader rpOffset, rpBw) :: merged else merged
  | _, _ => none

/-- The loop of `link_parse_switch_key` when the running state has no key: the fields
of the new one, with the header ids of the running parser. -/
def mapKeyEntries (headerIdMap : AList fun _ : ℤ => ℤ) :
    List Entry → Except Stop (Option (List Entry))
  | [] => .ok (some [])
  | .field header offset :: es => do
    let rid ← deref (headerIdMap.lookup header)
    let rest ← mapKeyEntries headerIdMap es
    .ok (rest.map fun es => .field rid offset :: es)
  | _ :: _ => .ok none

/-- `LinkParsers::link_parse_switch_key`: the merged key, `none` for
`STATE_PARSE_SWITCH_KEY_MATCH_FAILED`. -/
def linkParseSwitchKey (key rpKey : ParseSwitchKeyBuilder) (ext : ParseStateExt) :
    Except Stop (Option ParseSwitchKeyBuilder) :=
  if key.entries = [] then
    .ok (some (if rpKey.entries = [] then key else rpKey))
  else if rpKey.entries = [] then do
    let entries ← mapKeyEntries ext.headerIdMap key.entries
    .ok (entries.map fun entries => { key with entries := entries })
  else if key.entries.length ≠ rpKey.entries.length then
    .ok none
  else
    .ok ((linkKeyEntries (key.entries.zip key.bitwidths) (rpKey.entries.zip rpKey.bitwidths)).map
      fun merged => ⟨merged.map Prod.fst, merged.map Prod.snd⟩)

/-- `LinkParsers::can_link_parser_states`: the linked state and the table of headers,
`none` when the states cannot be linked. -/
def canLinkParserStates (parseState rpParseState : ParseState ℕ) (ext : ParseStateExt)
    (headers : HeaderUidTable) : Except Stop (Option (ParseStateExt × HeaderUidTable)) := do
  let (code, ext) ← mergeParserOps env parseState.parserOps rpParseState.parserOps
    (.stateHeaderOpsLinked, ext)
  if code = .stateHeaderOpsLinkFailed then
    .ok none
  else
    let key ← linkParseSwitchKey parseState.keyBuilder rpParseState.keyBuilder ext
    match key with
    | none => .ok none
    | some key =>
      let ext := { ext with newParseState := ext.newParseState.setKeyBuilder key }
      .ok (some (ext, ext.headerIdMap.entries.foldl
        (fun table kv => (table.linkHeaderIds env.p4Name kv.1 kv.2).2) headers))

/-- `LinkParsers::add_extract_parser_op_regular`. What `link_new_header_id` returns
is not looked at. -/
def addExtractParserOpRegular (headerId : ℤ) (ext : ParseStateExt) (headers : HeaderUidTable) :
    Except Stop (ParseStateExt × HeaderUidTable) :=
  if ext.uidTableLinkOpcode = .insertNewId then do
    let headerName ← env.prog.headerName headerId
    let headerType ← deref (env.prog.typeOfHeaderId headerId)
    let (_, newHeaderId, headers) :=
      headers.linkNewHeaderId env.types env.p4Name headerName headerId headerType headerId
    .ok ({ ext with newParseState := ext.newParseState.addExtract newHeaderId }, headers)
  else
    .ok ({ ext with newParseState := ext.newParseState.addExtract headerId }, headers)

/-- `LinkParsers::add_parser_ops`. The loop returns after the first op. -/
def addParserOps (ops : List ParserOp) (ext : ParseStateExt) (headers : HeaderUidTable) :
    Except Stop (ParseStateExt × HeaderUidTable) :=
  match ops with
  | .extract headerId :: _ => addExtractParserOpRegular env headerId ext headers
  | _ => .ok (ext, headers)

/-- `LinkParsers::add_parser_state`. -/
def addParserState (ps : ParseState ℕ) (ext : ParseStateExt) (headers : HeaderUidTable) :
    Except Stop (ParseStateExt × HeaderUidTable) := do
  let (ext, headers) ← addParserOps env ps.parserOps ext headers
  .ok ({ ext with newParseState := ext.newParseState.setKeyBuilder ps.keyBuilder }, headers)

/-! ## All states -/

/-- What the mapping of the states changes. `parseStateLinked` has, for each state
of the new parser, the state that it is linked to: the code keeps only whether
there is one. -/
structure Mapping where
  headers : HeaderUidTable
  linkTable : UidTable String
  stateId : ℤ
  linkedParseState : NameMap ParseStateExt := ∅
  parseStateLinked : List (Option String) := []

/-- The search for a state of the new parser, from the `i`-th one on, that can be
linked to a state of the running one. -/
def findLink (rpParseState : ParseState ℕ) :
    ℕ → List (ParseState ℕ × Option String) → HeaderUidTable →
      Except Stop (Option (ℕ × ParseState ℕ × ParseStateExt × HeaderUidTable))
  | _, [], _ => .ok none
  | i, (_, some _) :: states, headers => findLink rpParseState (i + 1) states headers
  | i, (parseState, none) :: states, headers => do
    let ext := ParseStateExt.new rpParseState.name rpParseState.id .mapExistingId
    let res ← canLinkParserStates env parseState rpParseState ext headers
    match res with
    | some (ext, headers) => .ok (some (i, parseState, ext, headers))
    | none => findLink rpParseState (i + 1) states headers

/-- `LinkParsers::set_parse_states_link_code`. -/
def setParseStatesLinkCode (linkTable : UidTable String) (stateName linkStateName : String) :
    UidTable String :=
  (linkTable.insertP4objectsLink env.p4Name stateName linkStateName .stateMatched).2

/-- One round of the first loop of `map_ordered_parser_states`. -/
def mapRpState (states : List (ParseState ℕ)) (m : Mapping) (rpParseState : ParseState ℕ) :
    Except Stop Mapping := do
  let found ← findLink env rpParseState 0 (states.zip m.parseStateLinked) m.headers
  match found with
  | some (i, parseState, ext, headers) =>
    .ok { m with
      headers := headers
      linkTable := setParseStatesLinkCode env m.linkTable parseState.name rpParseState.name
      linkedParseState := m.linkedParseState.insert rpParseState.name ext
      parseStateLinked := m.parseStateLinked.set i (some rpParseState.name) }
  | none => do
    let ext := ParseStateExt.new rpParseState.name rpParseState.id .noOps
    let (ext, headers) ← addParserState env rpParseState ext m.headers
    .ok { m with
      headers := headers
      linkedParseState := m.linkedParseState.insert rpParseState.name ext }

/-- `LinkParsers::add_parse_state_link`. -/
def addParseStateLink (linkTable : UidTable String) (stateName : String) : UidTable String :=
  match linkTable.linkerToP4s stateName with
  | some _ => linkTable
  | none => setParseStatesLinkCode env linkTable stateName (env.p4Name ++ "." ++ stateName)

/-- One round of the second loop of `map_ordered_parser_states`. -/
def mapNewState (m : Mapping) (parseState : ParseState ℕ × ℕ) : Except Stop Mapping :=
  match m.parseStateLinked[parseState.2]? with
  | some none => do
    let name := env.p4Name ++ "." ++ parseState.1.name
    let ext := ParseStateExt.new name (m.stateId + 1) .insertNewId
    let (ext, headers) ← addParserState env parseState.1 ext m.headers
    .ok { m with
      headers := headers
      linkTable := addParseStateLink env m.linkTable parseState.1.name
      stateId := m.stateId + 1
      linkedParseState := m.linkedParseState.insert name ext
      parseStateLinked := m.parseStateLinked.set parseState.2 (some name) }
  | _ => .ok m

/-- `LinkParsers::map_ordered_parser_states`. -/
def mapOrderedParserStates (states rpStates : List (ParseState ℕ)) (headers : HeaderUidTable)
    (linkTable : UidTable String) (stateId : ℤ) : Except Stop Mapping := do
  let m : Mapping :=
    { headers := headers
      linkTable := linkTable
      stateId := stateId
      parseStateLinked := states.map fun _ => none }
  let m ← rpStates.foldlM (mapRpState env states) m
  states.zipIdx.foldlM (mapNewState env) m

/-! ## Transitions -/

/-- `LinkParsers::get_switch_case_hexstr_key_state_map`: of cases with one key the
first is kept. -/
def switchCaseHexstrKeyStateMap (cases : List (ParseSwitchCase ℕ)) :
    AList fun _ : List UInt8 => Option ℕ :=
  cases.foldl (fun map c =>
    match c with
    | .exact key next => if key ∈ map then map else map.insert key next
    | _ => map) ∅

/-- `LinkParsers::get_parse_states_link_code` is `STATE_MATCHED`. -/
def statesMatched (linkTable : UidTable String) (stateName rpStateName : String) : Bool :=
  match linkTable.getP4objectsLinkState env.p4Name stateName rpStateName with
  | .ok code => code = .stateMatched
  | .error _ => false

/-- `LinkParsers::get_parse_state_link`, if it returns `STATE_MATCHED`. -/
def parseStateLink (linkTable : UidTable String) (stateName : String) : Option String :=
  match linkTable.getP4objectLink env.p4Name stateName with
  | .ok out => if out.linkState = .stateMatched then some out.value else none
  | .error _ => none

/-- `new_parse_state->add_switch_case`, for the state of the given name. -/
def addCase (linked : NameMap ParseStateExt) (name : String) (key : List UInt8)
    (next : String) : NameMap ParseStateExt :=
  match linked.lookup name with
  | some ext =>
    linked.insert name { ext with newParseState := ext.newParseState.addSwitchCase key next }
  | none => linked

/-- The states that the merge is called with, and the name of the merged one. -/
structure Triple where
  parseState : Option ℕ
  rpParseState : Option ℕ
  name : String

/-- A case of the switch, with what is merged behind it. -/
structure CaseTarget where
  key : List UInt8
  target : Triple

/-- What a case of the new state leads to, and the cases of the running one that are
then left. `none` for `PARSER_LINKING_FAILED`. -/
def caseTarget (linkTable : UidTable String) (c : ParseSwitchCase ℕ)
    (rpCases : AList fun _ : List UInt8 => Option ℕ) :
    Except Stop (Option (CaseTarget × AList fun _ : List UInt8 => Option ℕ)) :=
  match c with
  | .exact key next =>
    match rpCases.lookup key with
    | some rpNext => do
      let st ← deref (next.bind (env.prog.parseStates[·]?))
      let rpSt ← deref (rpNext.bind (env.rp.parseStates[·]?))
      if statesMatched env linkTable st.name rpSt.name then
        .ok (some (⟨key, ⟨next, rpNext, rpSt.name⟩⟩, rpCases.erase key))
      else .ok none
    | none => do
      let st ← deref (next.bind (env.prog.parseStates[·]?))
      match parseStateLink env linkTable st.name with
      | some name => .ok (some (⟨key, ⟨next, none, name⟩⟩, rpCases))
      | none => .ok none
  | _ => .ok none

/-- What a case of the running state that is left leads to. -/
def rpCaseTarget (key : List UInt8) (rpNext : Option ℕ) : Except Stop CaseTarget := do
  let rpSt ← deref (rpNext.bind (env.rp.parseStates[·]?))
  .ok ⟨key, ⟨none, rpNext, rpSt.name⟩⟩

mutual

/-- `LinkParsers::merge_parser_states_switch_cases`, of at most as many calls as are
given. -/
def mergeSwitchCases (linkTable : UidTable String) (fuel : ℕ) (t : Triple)
    (linked : NameMap ParseStateExt) :
    Except Stop (ObjectLinkStateCode × NameMap ParseStateExt) :=
  match fuel with
  | 0 => .error .outOfFuel
  | fuel + 1 => do
    let ext ← deref (linked.lookup t.name)
    if ext.switchCaseMerged then
      .ok (.stateLinked, linked)
    else
      let cases := ((t.parseState.bind (env.prog.parseStates[·]?)).map ParseState.parserSwitch).getD []
      let rpCases := switchCaseHexstrKeyStateMap
        (((t.rpParseState.bind (env.rp.parseStates[·]?)).map ParseState.parserSwitch).getD [])
      mergeCases linkTable fuel t.name cases rpCases linked

/-- The loops over the cases of the new state, and over what is then left of those
of the running one. -/
def mergeCases (linkTable : UidTable String) (fuel : ℕ) (name : String)
    (cases : List (ParseSwitchCase ℕ)) (rpCases : AList fun _ : List UInt8 => Option ℕ)
    (linked : NameMap ParseStateExt) :
    Except Stop (ObjectLinkStateCode × NameMap ParseStateExt) :=
  match fuel with
  | 0 => .error .outOfFuel
  | fuel + 1 =>
    match cases, rpCases.entries with
    | c :: cases, _ => do
      let found ← caseTarget env linkTable c rpCases
      match found with
      | none => .ok (.parserLinkingFailed, linked)
      | some (ct, rpCases) => do
        let (code, linked) ← mergeSwitchCases linkTable fuel ct.target linked
        let linked := addCase linked name ct.key ct.target.name
        if code = .stateLinked then mergeCases linkTable fuel name cases rpCases linked
        else .ok (code, linked)
    | [], ⟨key, rpNext⟩ :: _ => do
      let ct ← rpCaseTarget env key rpNext
      let (code, linked) ← mergeSwitchCases linkTable fuel ct.target linked
      let linked := addCase linked name ct.key ct.target.name
      if code = .stateLinked then mergeCases linkTable fuel name [] (rpCases.erase key) linked
      else .ok (code, linked)
    | [], [] =>
      match linked.lookup name with
      | some ext => .ok (.stateLinked, linked.insert name { ext with switchCaseMerged := true })
      | none => .ok (.stateLinked, linked)

end

end LinkParsers

/-! ## The linker -/

/-- `Linker`: its tables, and the merged program, which is running. -/
structure State where
  headerTypes : HeaderTypeUidTable
  headers : HeaderUidTable
  parseStates : UidTable String
  stateId : ℤ
  p4objects : Option P4Objects

def State.empty : State := ⟨.empty, .empty, .empty, 0, none⟩

/-- The states of the merged parser, which point to each other by their places. -/
def mergedStates (linked : NameMap ParseStateExt) : List (ParseState ℕ) :=
  linked.entries.map fun e => e.2.newParseState.mapRef fun name => linked.keys.idxOf name

/-- What `get_linked_header_ids_map` and `get_linked_headers_name_type_map` give. -/
def mergedHeaders (headers : HeaderUidTable) : NameMap HeaderDecl :=
  (headers.linkerHeaderIdsMap.entries.map fun e =>
    (⟨e.1, ⟨e.2, (headers.linkerHeaderIdTypeNameMap e.2).getD ""⟩⟩ :
      Sigma fun _ : String => HeaderDecl)).toAList

/-- What adding a program returns: the code of `link_parser`, which the caller does
not look at, the linker, and the merged state of each state of the program. -/
structure Added where
  code : ObjectLinkStateCode
  linker : State
  order : List ℕ
  parseStateLinked : List (Option String)

/-- `Linker::add_p4objects`, with `LinkParsers::link_parser`. -/
def addP4objects (fuel : ℕ) (l : State) (p4Name : String) (prog : P4Objects) :
    Except Stop Added := do
  let order ← prog.orderedParseStates fuel
  let types := l.headerTypes.initTypeMapping p4Name (prog.headerTypes.entries.map fun e => (e.1, e.2))
  let states ← order.mapM fun i => deref prog.parseStates[i]?
  let rp := l.p4objects.getD .empty
  let rpOrder ← if l.p4objects.isSome then rp.orderedParseStates fuel else .ok []
  let rpStates ← rpOrder.mapM fun i => deref rp.parseStates[i]?
  let env : Env := ⟨types, p4Name, prog, rp⟩
  let m ← LinkParsers.mapOrderedParserStates env states rpStates l.headers l.parseStates l.stateId
  let first ← deref states.head?
  let initName ←
    if l.p4objects.isSome then (deref rpStates.head?).map ParseState.name
    else .ok (p4Name ++ "." ++ first.name)
  let (code, linked) ← LinkParsers.mergeSwitchCases env m.linkTable fuel
    ⟨order.head?, rpOrder.head?, initName⟩ m.linkedParseState
  let _ ← deref (linked.lookup initName)
  let merged : P4Objects :=
    { headerTypes := types.linkerHeaderTypes
      headers := mergedHeaders m.headers
      parseStates := mergedStates linked
      initState := linked.keys.idxOf initName }
  let _ ← merged.orderedParseStates fuel
  .ok
    { code := code
      linker := ⟨types, m.headers, m.linkTable, m.stateId, some merged⟩
      order := order
      parseStateLinked := m.parseStateLinked }

end Linker

end P4Bricks
