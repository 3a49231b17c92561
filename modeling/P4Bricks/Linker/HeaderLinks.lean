import P4Bricks.Common.Pointwise
import P4Bricks.Linker.Parsers
/-!
# How headers are linked

What the calls that link one header do to the table of headers, and what linking or
copying one state does to the table and to the state that is made.
-/

namespace P4Bricks

namespace Linker

/-! ## The table of headers -/

/-- A header and its program can be read off the text in the forward map: there is
no dot in a number. -/
theorem fqn_int_inj {p p' : String} {h h' : ℤ} :
    UidTable.fqn p h = UidTable.fqn p' h' ↔ p = p' ∧ h = h' := by
  refine ⟨fun heq => ?_, by rintro ⟨rfl, rfl⟩; rfl⟩
  have hdigits : ∀ a : ℤ, ∀ c ∈ a.repr.toList.reverse, c ≠ '.' := by
    intro a c hc hdot
    rw [List.mem_reverse] at hc
    subst hdot
    have hdigit : ∀ n : ℕ, '.' ∉ n.repr.toList := fun n hn =>
      absurd (isDigit_of_mem_repr hn) (by decide)
    cases a with
    | ofNat n => exact hdigit n hc
    | negSucc n =>
      rw [Int.repr, String.toList_append, List.mem_append] at hc
      rcases hc with hc | hc
      · exact absurd hc (by decide)
      · exact hdigit _ hc
  have htext := congrArg (fun s : String => s.toList.reverse) heq
  have hdot : ".".toList = ['.'] := rfl
  simp only [UidTable.fqn, String.toList_append, hdot, List.reverse_append, List.reverse_singleton,
    List.singleton_append] at htext
  obtain ⟨hnum, -, hname⟩ := append_cons_inj (p := (· ≠ '.')) (hdigits h) (hdigits h')
    (not_not.mpr rfl) (not_not.mpr rfl) htext
  exact ⟨String.toList_inj.mp (List.reverse_injective hname),
    Int.repr_injective (String.toList_inj.mp (List.reverse_injective hnum))⟩

namespace HeaderUidTable

variable {table table' : HeaderUidTable} {p q : String} {h id : ℤ}

/-- The linker header that a header of a program stands for. -/
def linkOf (table : HeaderUidTable) (p4Name : String) (headerId : ℤ) : Option ℤ :=
  (table.linkTable.fqnToLinker (UidTable.fqn p4Name headerId)).map LinkValueState.value

/-- What the tables of headers keep, whoever calls. -/
structure Inv (table : HeaderUidTable) : Prop where
  inserts : ∃ ks, table.linkTable = .inserted ks
  used : ∀ p h id, table.linkOf p h = some id → id ∈ table.linkerUids
  backed : ∀ id ∈ table.linkerUids, ∃ p h, table.linkOf p h = some id ∧
    table.linkTable.back p h id ≠ none
  named : ∀ id ∈ table.linkerUids, (table.linkerHeaderIdTypeNameMap id).isSome

theorem inv_empty : empty.Inv where
  inserts := ⟨[], rfl⟩
  used _ _ _ h := by cases h
  backed _ h := absurd h (Finset.notMem_empty _)
  named _ h := absurd h (Finset.notMem_empty _)

/-- **An insert** links a header that is not linked, and changes nothing for one that
is. -/
theorem insertLink_spec (hi : ∃ ks, table.linkTable = .inserted ks) (p : String) (h id : ℤ) :
    (table.linkOf p h ≠ none ∧ ∃ code, code ≠ .success ∧ table.insertLink p h id = (code, table)) ∨
    (table.linkOf p h = none ∧ ∃ linkTable, table.insertLink p h id = (.success,
        { table with linkTable := linkTable, linkerUids := insert id table.linkerUids }) ∧
      (∃ ks, linkTable = .inserted ks) ∧
      (∀ q h', (linkTable.fqnToLinker (UidTable.fqn q h')).map LinkValueState.value =
        if q = p ∧ h' = h then some id else table.linkOf q h') ∧
      (∀ q h' id', table.linkTable.back q h' id' ≠ none → linkTable.back q h' id' ≠ none) ∧
      linkTable.back p h id ≠ none) := by
  obtain ⟨ks, hks⟩ := hi
  let k : UidTable.Link ℤ := ⟨p, h, id, .headerLinked⟩
  rcases hstep : table.linkTable.step (.insert k) with ⟨code, t'⟩
  have hcall : table.linkTable.insertP4objectsLink p h id .headerLinked = (code, t') := hstep
  -- The name is taken as soon as there is a record.
  have htaken : table.linkTable.fqnToLinker (UidTable.fqn p h) ≠ none → table.linkOf p h ≠ none := by
    intro hne
    rw [linkOf]
    simpa using hne
  rcases UidTable.insert_cases hstep with ⟨hname, rfl, rfl⟩ | ⟨hback, rfl, rfl⟩ |
    ⟨hfree, -, rfl, hfwd, hback⟩
  · refine .inl ⟨htaken hname, .p4ObjectExist, by decide, ?_⟩
    simp only [insertLink, hcall]
  · rw [hks] at hback
    have hname := UidTable.fqn_of_back ks hback
    rw [← hks] at hname
    refine .inl ⟨htaken hname, .linkObjectP4NameExist, by decide, ?_⟩
    simp only [insertLink, hcall]
  · refine .inr ⟨?_, t', by simp only [insertLink, hcall], ?_, ?_, ?_, ?_⟩
    · rw [linkOf]
      exact Option.map_eq_none_iff.mpr hfree
    · refine ⟨ks ++ [k], ?_⟩
      rw [UidTable.inserted_concat, ← hks, hstep]
    · intro q h'
      rw [hfwd, Function.update_apply]
      simp only [fqn_int_inj, k]
      split_ifs
      · rfl
      · rfl
    · intro q h' id' hne
      rw [hback]
      split_ifs
      · simp
      · exact hne
    · rw [hback, if_pos ⟨rfl, rfl, rfl⟩]
      simp

/-- The next free id is not used. -/
theorem getNewHeaderId_notMem (ids : Finset ℤ) : getNewHeaderId ids ∉ ids := by
  intro hmem
  refine firstFree_notMem ((ids.filter fun id => 0 ≤ id).image Int.toNat) ?_
  refine Finset.mem_image.mpr ⟨_, Finset.mem_filter.mpr ⟨hmem, Int.natCast_nonneg _⟩, ?_⟩
  rw [getNewHeaderId, Int.toNat_natCast]

/-- What a call does that links a header of program `p`. -/
structure Links (table table' : HeaderUidTable) (p : String) (h id : ℤ) : Prop where
  linkOf : ∀ q h', table'.linkOf q h' = if q = p ∧ h' = h then some id else table.linkOf q h'
  uids : table'.linkerUids = insert id table.linkerUids
  names : ∀ id' ∈ table.linkerUids,
    table'.linkerHeaderIdTypeNameMap id' = table.linkerHeaderIdTypeNameMap id'

/-- What a link that was inserted keeps, when `names` has a type for it. -/
theorem Inv.inserted (hi : table.Inv) (hfree : table.linkOf p h = none) {linkTable : UidTable ℤ}
    (hks : ∃ ks, linkTable = .inserted ks)
    (hlink : ∀ q h', (linkTable.fqnToLinker (UidTable.fqn q h')).map LinkValueState.value =
      if q = p ∧ h' = h then some id else table.linkOf q h')
    (hback : ∀ q h' id', table.linkTable.back q h' id' ≠ none → linkTable.back q h' id' ≠ none)
    (hnew : linkTable.back p h id ≠ none) {ids : NameMap ℤ} {names : ℤ → Option String}
    (hname : (names id).isSome)
    (hnames : ∀ id' ∈ table.linkerUids, names id' = table.linkerHeaderIdTypeNameMap id') :
    Inv ⟨linkTable, insert id table.linkerUids, ids, names⟩ ∧
      Links table ⟨linkTable, insert id table.linkerUids, ids, names⟩ p h id := by
  refine ⟨⟨hks, ?_, ?_, ?_⟩, ⟨hlink, rfl, hnames⟩⟩
  · intro q h' id' hl
    rw [linkOf, hlink] at hl
    split_ifs at hl
    · obtain rfl := Option.some.inj hl
      exact Finset.mem_insert_self _ _
    · exact Finset.mem_insert_of_mem (hi.used q h' id' hl)
  · intro id' hid'
    rcases Finset.mem_insert.mp hid' with rfl | hid'
    · refine ⟨p, h, ?_, hnew⟩
      rw [linkOf, hlink, if_pos ⟨rfl, rfl⟩]
    · obtain ⟨q, h', hl, hne⟩ := hi.backed id' hid'
      refine ⟨q, h', ?_, hback q h' id' hne⟩
      rw [linkOf, hlink, if_neg, hl]
      rintro ⟨rfl, rfl⟩
      rw [hfree] at hl
      cases hl
  · intro id' hid'
    rcases Finset.mem_insert.mp hid' with rfl | hid'
    · exact hname
    · have hold := hi.named id' hid'
      rwa [← hnames id' hid'] at hold

/-- **A header of the new program is linked** to one of the running one. -/
theorem linkHeaderIds_spec (hi : table.Inv) (hfree : table.linkOf p h = none)
    (hid : id ∈ table.linkerUids) :
    (table.linkHeaderIds p h id).2.Inv ∧ Links table (table.linkHeaderIds p h id).2 p h id := by
  rcases insertLink_spec hi.inserts p h id with
    ⟨hne, -⟩ | ⟨-, t', hcall, hks, hlink, hback, hnew⟩
  · exact absurd hfree hne
  · rw [linkHeaderIds, hcall]
    exact hi.inserted hfree hks hlink hback hnew (hi.named id hid) fun _ _ => rfl

/-- **A header gets an id of its own.** -/
theorem linkNewHeaderId_spec (types : HeaderTypeUidTable) (headerName typeName : String)
    (hi : table.Inv) (hfree : table.linkOf p h = none) :
    ∃ id table', table.linkNewHeaderId types p headerName h typeName h =
        (.headerLinked, id, table') ∧
      id ∉ table.linkerUids ∧ table'.Inv ∧ Links table table' p h id ∧
      table'.linkerHeaderIdTypeNameMap id =
        some ((types.getLinkerHeaderType p typeName).getD "") := by
  rw [linkNewHeaderId]
  generalize hhint : (if h ∈ table.linkerUids then getNewHeaderId table.linkerUids else h) = id
  have hfresh : id ∉ table.linkerUids := by
    rw [← hhint]
    split_ifs with hmem
    · exact getNewHeaderId_notMem _
    · exact hmem
  rcases insertLink_spec hi.inserts p h id with
    ⟨hne, -⟩ | ⟨-, t', hcall, hks, hlink, hback, hnew⟩
  · exact absurd hfree hne
  · simp only [hcall]
    have hname := Function.update_self id
      (some ((types.getLinkerHeaderType p typeName).getD "")) table.linkerHeaderIdTypeNameMap
    have hnames : ∀ id' ∈ table.linkerUids, Function.update table.linkerHeaderIdTypeNameMap id
        (some ((types.getLinkerHeaderType p typeName).getD "")) id' =
          table.linkerHeaderIdTypeNameMap id' := by
      intro id' hid'
      rw [Function.update_of_ne]
      rintro rfl
      exact hfresh hid'
    obtain ⟨hinv, hlinks⟩ := hi.inserted hfree hks hlink hback hnew
      (Option.isSome_of_eq_some hname) hnames
    exact ⟨id, _, rfl, hfresh, hinv, hlinks, hname⟩

end HeaderUidTable

/-! ## One state -/

namespace ParseState

variable {Ref : Type}

/-- The header that the first op of a state extracts: the others are not taken over. -/
def firstHeader (st : ParseState Ref) : Option ℤ :=
  match st.parserOps with
  | .extract headerId :: _ => some headerId
  | _ => none

/-- What is left of the ops of a state in the merged parser. -/
def OneOp (st : ParseState Ref) : Prop := st.parserOps = [] ∨ ∃ id, st.parserOps = [.extract id]

end ParseState

namespace LinkParsers

variable {env : Env} {st rpSt : ParseState ℕ} {ext ext' : ParseStateExt}
variable {headers headers' : HeaderUidTable} {code : ObjectLinkStateCode}

theorem mergeParserOps_nil (ops : List ParserOp) (res : ObjectLinkStateCode × ParseStateExt) :
    mergeParserOps env ops [] res = .ok res := by
  induction ops generalizing res with
  | nil => rfl
  | cons op ops ih => exact ih res

/-- The ops of a state and the one of the running state. -/
theorem mergeParserOps_spec (hone : rpSt.OneOp)
    (h : mergeParserOps env st.parserOps rpSt.parserOps (.stateHeaderOpsLinked, ext) =
      .ok (code, ext')) (hcode : code ≠ .stateHeaderOpsLinkFailed) :
    ext' = ext ∨ ∃ headerId id t rt, st.firstHeader = some headerId ∧
      rpSt.parserOps = [.extract id] ∧ env.prog.typeOfHeaderId headerId = some t ∧
      env.rp.typeOfHeaderId id = some rt ∧
      env.types.getHeaderTypeMapping env.p4Name t rt = .headerTypeDefMatch ∧
      ext' = { ext with
        headerIdMap := ext.headerIdMap.insert headerId id
        newParseState := ext.newParseState.addExtract id } := by
  rcases hone with hrp | ⟨id, hrp⟩
  · rw [hrp, mergeParserOps_nil] at h
    exact .inl (Prod.mk.inj (Except.ok.inj h)).2.symm
  · rw [hrp] at h
    rcases hops : st.parserOps with - | ⟨op, ops⟩
    · rw [hops] at h
      exact .inl (Prod.mk.inj (Except.ok.inj h)).2.symm
    · rw [hops, mergeParserOps] at h
      obtain ⟨⟨found, ext₁⟩, hop, h⟩ := bind_eq_ok h
      cases op with
      -- An op that is no extraction is skipped, and the running state has no second op.
      | unsupported =>
        obtain ⟨rfl, rfl⟩ := Prod.mk.inj (Except.ok.inj hop)
        dsimp only at h
        rw [mergeParserOps_nil] at h
        exact .inl (Prod.mk.inj (Except.ok.inj h)).2.symm
      | extract headerId =>
        obtain ⟨⟨ret, ext₂⟩, hlink, hop⟩ := bind_eq_ok hop
        obtain ⟨t, ht, hlink⟩ := bind_eq_ok hlink
        obtain ⟨rt, hrt, hlink⟩ := bind_eq_ok hlink
        dsimp only at h hop hlink
        -- The ops are merged if the types of the two headers are mapped; else the link fails.
        split_ifs at hlink with hmap
        · obtain ⟨rfl, rfl⟩ := Prod.mk.inj (Except.ok.inj hlink)
          rw [if_pos hmap] at hop
          obtain ⟨rfl, rfl⟩ := Prod.mk.inj (Except.ok.inj hop)
          dsimp only at h
          rw [mergeParserOps_nil] at h
          refine .inr ⟨headerId, id, t, rt, ?_, hrp, deref_eq_ok ht, deref_eq_ok hrt, hmap,
            (Prod.mk.inj (Except.ok.inj h)).2.symm⟩
          rw [ParseState.firstHeader, hops]
        · obtain ⟨rfl, rfl⟩ := Prod.mk.inj (Except.ok.inj hlink)
          rw [if_neg hmap] at hop
          obtain ⟨rfl, rfl⟩ := Prod.mk.inj (Except.ok.inj hop)
          exact absurd (Prod.mk.inj (Except.ok.inj h)).1.symm hcode

/-- **A state is linked**: it extracts the header of the running state or none, and
the first header of the new one is linked in the former case. -/
theorem canLinkParserStates_spec (hone : rpSt.OneOp) {name : String} {id : ℤ}
    {opcode : UidTableLinkOPCode}
    (h : canLinkParserStates env st rpSt (.new name id opcode) headers = .ok (some (ext, headers'))) :
    ext.newParseState.name = name ∧
      ((ext.newParseState.parserOps = [] ∧ headers' = headers) ∨
        ∃ headerId rpHeaderId t rt, st.firstHeader = some headerId ∧
          rpSt.parserOps = [.extract rpHeaderId] ∧
          ext.newParseState.parserOps = [.extract rpHeaderId] ∧
          env.prog.typeOfHeaderId headerId = some t ∧ env.rp.typeOfHeaderId rpHeaderId = some rt ∧
          env.types.getHeaderTypeMapping env.p4Name t rt = .headerTypeDefMatch ∧
          headers' = (headers.linkHeaderIds env.p4Name headerId rpHeaderId).2) := by
  rw [canLinkParserStates] at h
  obtain ⟨⟨code, ext₁⟩, hops, h⟩ := bind_eq_ok h
  dsimp only at h
  split_ifs at h with hcode
  · cases h
  obtain ⟨key, -, h⟩ := bind_eq_ok h
  cases key with
  | none => cases h
  | some key =>
    obtain ⟨rfl, rfl⟩ := Prod.mk.inj (Option.some.inj (Except.ok.inj h))
    rcases mergeParserOps_spec hone hops hcode with
      rfl | ⟨headerId, rpHeaderId, t, rt, hfirst, hrp, ht, hrt, hmap, rfl⟩
    · exact ⟨rfl, .inl ⟨rfl, rfl⟩⟩
    · exact ⟨rfl, .inr ⟨headerId, rpHeaderId, t, rt, hfirst, hrp, rfl, ht, hrt, hmap, rfl⟩⟩

/-- **A running state is copied**, its op with it. -/
theorem addParserState_running (hone : rpSt.OneOp) {name : String} {id : ℤ}
    (h : addParserState env rpSt (.new name id .noOps) headers = .ok (ext, headers')) :
    ext.newParseState.name = name ∧ ext.newParseState.parserOps = rpSt.parserOps ∧
      headers' = headers := by
  rw [addParserState] at h
  obtain ⟨⟨ext₁, headers₁⟩, hops, h⟩ := bind_eq_ok h
  obtain ⟨rfl, rfl⟩ := Prod.mk.inj (Except.ok.inj h)
  rcases hone with hrp | ⟨rid, hrp⟩
  · rw [hrp] at hops ⊢
    obtain ⟨rfl, rfl⟩ := Prod.mk.inj (Except.ok.inj hops)
    exact ⟨rfl, rfl, rfl⟩
  · rw [hrp] at hops ⊢
    obtain ⟨rfl, rfl⟩ := Prod.mk.inj (Except.ok.inj hops)
    exact ⟨rfl, rfl, rfl⟩

/-- **A new state is copied**, and the first header that it extracts gets an id. -/
theorem addParserState_new {name : String} {id : ℤ}
    (h : addParserState env st (.new name id .insertNewId) headers = .ok (ext, headers')) :
    ext.newParseState.name = name ∧
      ((st.firstHeader = none ∧ ext.newParseState.parserOps = [] ∧ headers' = headers) ∨
        ∃ headerId headerName t, st.firstHeader = some headerId ∧
          env.prog.typeOfHeaderId headerId = some t ∧
          ext.newParseState.parserOps = [.extract
            (headers.linkNewHeaderId env.types env.p4Name headerName headerId t headerId).2.1] ∧
          headers' =
            (headers.linkNewHeaderId env.types env.p4Name headerName headerId t headerId).2.2) := by
  rw [addParserState] at h
  obtain ⟨⟨ext₁, headers₁⟩, hops, h⟩ := bind_eq_ok h
  obtain ⟨rfl, rfl⟩ := Prod.mk.inj (Except.ok.inj h)
  rw [ParseState.firstHeader]
  rcases hst : st.parserOps with - | ⟨_ | _, ops⟩
  · rw [hst] at hops
    obtain ⟨rfl, rfl⟩ := Prod.mk.inj (Except.ok.inj hops)
    exact ⟨rfl, .inl ⟨rfl, rfl, rfl⟩⟩
  · next headerId =>
    rw [hst, addParserOps, addExtractParserOpRegular] at hops
    obtain ⟨headerName, -, hops⟩ := bind_eq_ok hops
    obtain ⟨t, ht, hops⟩ := bind_eq_ok hops
    obtain ⟨rfl, rfl⟩ := Prod.mk.inj (Except.ok.inj hops)
    exact ⟨rfl, .inr ⟨headerId, headerName, t, rfl, deref_eq_ok ht, rfl, rfl⟩⟩
  · rw [hst] at hops
    obtain ⟨rfl, rfl⟩ := Prod.mk.inj (Except.ok.inj hops)
    exact ⟨rfl, .inl ⟨rfl, rfl, rfl⟩⟩

end LinkParsers

end Linker

end P4Bricks
