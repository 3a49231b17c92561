import P4Bricks.Linker.CopiedStates
/-!
# Linked states

When a state of the new parser and one of the running parser are taken for one.
The ops are compared as far as the first one of the new state goes: all that the
running state extracts must have the type of its header. A key is no obstacle when
the other one is empty, and of two keys the fields that differ are left out. So the
states may be linked and do different things (`linkedRightly_iff`).
-/

namespace P4Bricks

namespace Linker

namespace LinkParsers

variable {env : Env} {st rpSt : ParseState ℕ} {opcode : UidTableLinkOPCode} {name : String}
  {id : ℤ} {headers : HeaderUidTable}

/-! ## Ops -/

/-- The headers that ops extract. -/
def extracts (ops : List ParserOp) : List ℤ :=
  ops.filterMap fun op =>
    match op with
    | .extract header => some header
    | .unsupported => none

/-- A header of the new program has the linker type of one of the running program. -/
def SameType (env : Env) (h rpHeader : ℤ) : Prop :=
  ∃ t rt, env.prog.typeOfHeaderId h = some t ∧ env.rp.typeOfHeaderId rpHeader = some rt ∧
    env.types.getHeaderTypeMapping env.p4Name t rt = .headerTypeDefMatch

/-- The test of the ops: the header that the new state extracts first has the type of
all that the running state extracts. -/
def OpsPass (env : Env) (st rpSt : ParseState ℕ) : Prop :=
  ∀ h ∈ st.firstHeader, ∀ rpHeader ∈ extracts rpSt.parserOps, SameType env h rpHeader

/-- The headers that the linked state extracts. -/
def linkedExtracts (st rpSt : ParseState ℕ) : List ℤ :=
  if st.firstHeader.isSome then extracts rpSt.parserOps else []

/-- The linked state after an extraction of a running header for `h`. -/
def extractFor (h : ℤ) (ext : ParseStateExt) (rpHeader : ℤ) : ParseStateExt :=
  { ext with
    headerIdMap := ext.headerIdMap.insert h rpHeader
    newParseState := ext.newParseState.addExtract rpHeader }

theorem linkExtractParserOpRegular_pass {h rpHeader : ℤ} {ext : ParseStateExt}
    (hsame : SameType env h rpHeader) :
    linkExtractParserOpRegular env h rpHeader ext =
      .ok (.headerTypeDefMatch, extractFor h ext rpHeader) := by
  obtain ⟨t, rt, ht, hrt, hmap⟩ := hsame
  simp only [linkExtractParserOpRegular, ht, hrt, deref, ok_bind, hmap, if_true]
  rfl

/-- The ops of the running state pass one after the other. -/
theorem mergeParserOp_pass {h : ℤ} {rpOps : List ParserOp}
    (hpass : ∀ rpHeader ∈ extracts rpOps, SameType env h rpHeader) (code : ObjectLinkStateCode)
    (ext : ParseStateExt) :
    mergeParserOp env (.extract h) rpOps (code, ext) =
      .ok (some (if extracts rpOps = [] then code else .headerTypeDefMatch),
        (extracts rpOps).foldl (extractFor h) ext) := by
  induction rpOps generalizing code ext with
  | nil => rfl
  | cons rpOp rpOps ih =>
    cases rpOp with
    | unsupported => exact ih hpass code ext
    | extract rpHeader =>
      obtain ⟨hhead, hrest⟩ := List.forall_mem_cons.mp hpass
      rw [mergeParserOp, linkExtractParserOpRegular_pass hhead, ok_bind]
      dsimp only
      rw [if_pos rfl, ih hrest]
      simp [extracts]

/-- An op that is not passed ends the comparison. -/
theorem mergeParserOp_fail {h : ℤ} {rpOps : List ParserOp} {code code' : ObjectLinkStateCode}
    {ext ext' : ParseStateExt}
    (hres : mergeParserOp env (.extract h) rpOps (code, ext) = .ok (some code', ext')) :
    ∀ rpHeader ∈ extracts rpOps, SameType env h rpHeader := by
  induction rpOps generalizing code ext with
  | nil => simp [extracts]
  | cons rpOp rpOps ih =>
    cases rpOp with
    | unsupported => exact ih hres
    | extract rpHeader =>
      obtain ⟨⟨ret, ext₁⟩, hlink, hres⟩ := bind_eq_ok hres
      obtain ⟨t, ht, hlink⟩ := bind_eq_ok hlink
      obtain ⟨rt, hrt, hlink⟩ := bind_eq_ok hlink
      dsimp only at hres hlink
      split_ifs at hlink with hmap
      · obtain ⟨rfl, rfl⟩ := Prod.mk.inj (Except.ok.inj hlink)
        rw [if_pos hmap] at hres
        exact List.forall_mem_cons.mpr ⟨⟨t, rt, deref_eq_ok ht, deref_eq_ok hrt, hmap⟩, ih hres⟩
      · obtain ⟨rfl, rfl⟩ := Prod.mk.inj (Except.ok.inj hlink)
        rw [if_neg hmap] at hres
        cases hres

/-- Two states whose ops pass. -/
theorem mergeParserOps_pass (hpass : OpsPass env st rpSt) (ext : ParseStateExt) :
    ∃ code, code ≠ .stateHeaderOpsLinkFailed ∧
      mergeParserOps env st.parserOps rpSt.parserOps (.stateHeaderOpsLinked, ext) =
        .ok (code, match st.firstHeader with
          | some h => (extracts rpSt.parserOps).foldl (extractFor h) ext
          | none => ext) := by
  rcases hops : st.parserOps with - | ⟨_ | _, ops⟩
  · have hfirst : st.firstHeader = none := by rw [ParseState.firstHeader, hops]
    rw [hfirst]
    exact ⟨_, by decide, rfl⟩
  · next h =>
    have hfirst : st.firstHeader = some h := by rw [ParseState.firstHeader, hops]
    rw [mergeParserOps, mergeParserOp_pass (hpass h hfirst), ok_bind, hfirst]
    dsimp only
    rw [mergeParserOps_nil]
    refine ⟨_, ?_, rfl⟩
    split_ifs <;> decide
  · have hfirst : st.firstHeader = none := by rw [ParseState.firstHeader, hops]
    have hskip : ∀ rpOps res, mergeParserOp env .unsupported rpOps res = .ok (some res.1, res.2) := by
      intro rpOps res
      induction rpOps with
      | nil => rfl
      | cons rpOp rpOps ih => exact ih
    rw [mergeParserOps, hskip, ok_bind, hfirst]
    dsimp only
    rw [mergeParserOps_nil]
    exact ⟨_, by decide, rfl⟩

/-- Two states whose ops do not. -/
theorem opsPass_of_mergeParserOps {ext ext' : ParseStateExt} {code : ObjectLinkStateCode}
    (hres : mergeParserOps env st.parserOps rpSt.parserOps (.stateHeaderOpsLinked, ext) =
      .ok (code, ext')) (hcode : code ≠ .stateHeaderOpsLinkFailed) : OpsPass env st rpSt := by
  intro h hfirst
  rw [ParseState.firstHeader] at hfirst
  rcases hops : st.parserOps with - | ⟨_ | _, ops⟩
  · rw [hops] at hfirst
    cases hfirst
  · rw [hops] at hfirst hres
    obtain rfl := Option.some.inj hfirst
    obtain ⟨⟨found, ext₁⟩, hop, hres⟩ := bind_eq_ok hres
    cases found with
    | none => exact absurd (Prod.mk.inj (Except.ok.inj hres)).1.symm hcode
    | some code₁ => exact mergeParserOp_fail hop
  · rw [hops] at hfirst
    cases hfirst

/-- The linked state, before it gets a key. -/
def linkedExt (st rpSt : ParseState ℕ) (ext : ParseStateExt) : ParseStateExt :=
  match st.firstHeader with
  | some h => (extracts rpSt.parserOps).foldl (extractFor h) ext
  | none => ext

/-- What a header of the new program is linked to when the states are linked. -/
def linkAfter (env : Env) (st rpSt : ParseState ℕ) (headers : HeaderUidTable) (h : ℤ) : Option ℤ :=
  (headers.linkOf env.p4Name h).or
    (if st.firstHeader = some h then (extracts rpSt.parserOps).getLast? else none)

/-- Each extraction goes on from the others, and the last one stays in the map. -/
theorem foldl_extractFor (h : ℤ) (hs : List ℤ) (ext : ParseStateExt) :
    (hs.foldl (extractFor h) ext).newParseState =
        { ext.newParseState with
          parserOps := ext.newParseState.parserOps ++ hs.map ParserOp.extract } ∧
      (hs.foldl (extractFor h) ext).headerIdMap =
        (hs.getLast?.map (ext.headerIdMap.insert h ·)).getD ext.headerIdMap := by
  induction hs generalizing ext with
  | nil => simp
  | cons rpHeader hs ih =>
    obtain ⟨hstate, hmap⟩ := ih (extractFor h ext rpHeader)
    rw [List.foldl_cons, hstate, hmap]
    refine ⟨by simp [extractFor, ParseState.addExtract], ?_⟩
    rcases hlast : hs.getLast? with - | last
    · obtain rfl := List.getLast?_eq_none_iff.mp hlast
      rfl
    · rw [List.getLast?_cons, hlast]
      simp [extractFor, AList.insert_insert]

theorem linkedExt_newParseState (st rpSt : ParseState ℕ) (ext : ParseStateExt) :
    (linkedExt st rpSt ext).newParseState =
      { ext.newParseState with
        parserOps := ext.newParseState.parserOps ++
          (linkedExtracts st rpSt).map ParserOp.extract } := by
  unfold linkedExt linkedExtracts
  rcases st.firstHeader with - | h
  · simp
  · exact (foldl_extractFor h _ ext).1

/-- At most one header gets a link in a state. -/
theorem linkedExt_entries (st rpSt : ParseState ℕ) :
    (linkedExt st rpSt (.new name id opcode)).headerIdMap.entries =
      ((st.firstHeader.bind fun h => (extracts rpSt.parserOps).getLast?.map fun l =>
        (⟨h, l⟩ : Sigma fun _ : ℤ => ℤ)).toList) := by
  unfold linkedExt
  rcases st.firstHeader with - | h
  · rfl
  · rw [(foldl_extractFor h _ _).2]
    rcases (extracts rpSt.parserOps).getLast? with - | l
    · rfl
    · rfl

/-- The links after the links of the state were made. -/
theorem linkOf_linked (hs : headers.Sound) (h : ℤ) :
    ((linkedExt st rpSt (.new name id opcode)).headerIdMap.entries.foldl
      (fun table kv => (table.linkHeaderIds env.p4Name kv.1 kv.2).2) headers).linkOf env.p4Name h =
        linkAfter env st rpSt headers h := by
  rw [linkedExt_entries, linkAfter]
  rcases st.firstHeader with - | h'
  · simp
  · rcases (extracts rpSt.parserOps).getLast? with - | l
    · simp
    · simp only [Option.bind_some, Option.map_some, Option.toList_some, List.foldl_cons,
        List.foldl_nil, hs.linkOf_linkHeaderIds, Option.some_inj, eq_comm]

/-! ## Keys -/

def IsField (e : Entry) : Prop := ∃ h offset, e = .field h offset

/-- The test of the keys. -/
def KeysPass (st rpSt : ParseState ℕ) : Prop :=
  st.keyBuilder.entries = [] ∨
  (rpSt.keyBuilder.entries = [] ∧ ∀ e ∈ st.keyBuilder.entries, ∃ h offset,
    e = .field h offset ∧ st.firstHeader = some h ∧ extracts rpSt.parserOps ≠ []) ∨
  (st.keyBuilder.entries.length = rpSt.keyBuilder.entries.length ∧
    (∀ e ∈ st.keyBuilder.entries, IsField e) ∧ ∀ e ∈ rpSt.keyBuilder.entries, IsField e)

/-- Every entry of a key has its width. -/
def EvenKey (key : ParseSwitchKeyBuilder) : Prop :=
  key.entries.length = key.bitwidths.length

/-- Two fields of one place and width, of headers that are linked. -/
def FieldsAlike (link : ℤ → Option ℤ) (e rpE : Entry × ℤ) : Prop :=
  ∃ h rpHeader offset, e.1 = .field h offset ∧ rpE.1 = .field rpHeader offset ∧ e.2 = rpE.2 ∧
    link h = some rpHeader

/-- Which header ids a linked state maps. -/
theorem linkedExt_lookup (h : ℤ) :
    ((linkedExt st rpSt (.new name id opcode)).headerIdMap.lookup h).isSome ↔
      st.firstHeader = some h ∧ extracts rpSt.parserOps ≠ [] := by
  rw [Option.isSome_iff_exists]
  simp only [← Option.mem_def, AList.mem_lookup_iff, linkedExt_entries]
  rcases st.firstHeader with - | h'
  · simp
  · rcases hlast : (extracts rpSt.parserOps).getLast? with - | l
    · simp [List.getLast?_eq_none_iff.mp hlast]
    · have hne : extracts rpSt.parserOps ≠ [] := by
        intro hnil
        rw [hnil] at hlast
        cases hlast
      simp [hne, eq_comm]

/-- A key without counterpart passes where all its fields are of mapped headers. -/
theorem mapKeyEntries_iff (map : AList fun _ : ℤ => ℤ) (es : List Entry) :
    (∃ es', mapKeyEntries map es = .ok (some es')) ↔
      ∀ e ∈ es, ∃ h offset, e = .field h offset ∧ (map.lookup h).isSome := by
  induction es with
  | nil => simp [mapKeyEntries]
  | cons e es ih =>
    rw [List.forall_mem_cons, ← ih]
    cases e with
    | field h offset =>
      rcases hl : map.lookup h with - | rid
      · refine iff_of_false ?_ ?_
        · rintro ⟨es', hes⟩
          rw [mapKeyEntries, hl] at hes
          cases hes
        · rintro ⟨⟨h', offset', heq, hsome⟩, -⟩
          obtain ⟨rfl, -⟩ := Entry.field.inj heq
          rw [hl] at hsome
          cases hsome
      · have hhead : ∃ h' offset', Entry.field h offset = .field h' offset' ∧
            (map.lookup h').isSome := ⟨h, offset, rfl, by rw [hl]; rfl⟩
        rw [and_iff_right hhead]
        constructor
        · rintro ⟨es', hes⟩
          obtain ⟨_, -, hes⟩ := bind_eq_ok hes
          obtain ⟨rest, hrest, hes⟩ := bind_eq_ok hes
          obtain ⟨rest', rfl, -⟩ := Option.map_eq_some_iff.mp (Except.ok.inj hes)
          exact ⟨rest', hrest⟩
        · rintro ⟨rest, hrest⟩
          exact ⟨_, by rw [mapKeyEntries, hl, deref, ok_bind, hrest, ok_bind]; rfl⟩
    | _ => exact iff_of_false (fun ⟨es', hes⟩ => by cases hes) (fun ⟨⟨h, o, heq, _⟩, _⟩ => by cases heq)

/-- Two keys pass where they have as many entries, all of them fields. -/
theorem linkKeyEntries_iff (es rpEs : List (Entry × ℤ)) :
    (∃ merged, linkKeyEntries es rpEs = some merged) ↔
      es.length = rpEs.length ∧ (∀ e ∈ es, IsField e.1) ∧ ∀ e ∈ rpEs, IsField e.1 := by
  induction es generalizing rpEs with
  | nil =>
    cases rpEs with
    | nil => simp [linkKeyEntries]
    | cons rpE rpEs => simp [linkKeyEntries]
  | cons e es ih =>
    obtain ⟨e, bw⟩ := e
    cases rpEs with
    | nil => simp [linkKeyEntries]
    | cons rpE rpEs =>
      obtain ⟨rpE, rpBw⟩ := rpE
      rw [List.forall_mem_cons, List.forall_mem_cons, List.length_cons, List.length_cons,
        Nat.succ_inj]
      by_cases hfields : IsField e ∧ IsField rpE
      · obtain ⟨⟨h, offset, rfl⟩, rpHeader, rpOffset, rfl⟩ := hfields
        have hfield : ∀ h offset, IsField (.field h offset) := fun h offset => ⟨h, offset, rfl⟩
        rw [and_iff_right (hfield h offset), and_iff_right (hfield rpHeader rpOffset), ← ih]
        constructor
        · rintro ⟨merged, hm⟩
          obtain ⟨rest, hrest, -⟩ := Option.map_eq_some_iff.mp hm
          exact ⟨rest, hrest⟩
        · rintro ⟨rest, hrest⟩
          exact ⟨_, by rw [linkKeyEntries, hrest]; rfl⟩
      · have hnone : linkKeyEntries ((e, bw) :: es) ((rpE, rpBw) :: rpEs) = none := by
          cases e <;> cases rpE <;> first | rfl | simp [IsField] at hfields
        rw [hnone]
        refine iff_of_false (by simp) ?_
        rintro ⟨-, ⟨he, -⟩, hrpE, -⟩
        exact hfields ⟨he, hrpE⟩

/-- Nothing is left out of two keys that are alike. -/
theorem linkKeyEntries_alike {link : ℤ → Option ℤ} {es rpEs : List (Entry × ℤ)}
    (h : es.Forall₂ (FieldsAlike link) rpEs) : linkKeyEntries es rpEs = some rpEs := by
  induction h with
  | nil => rfl
  | @cons e rpE es rpEs hfields _ ih =>
    obtain ⟨e, bw⟩ := e
    obtain ⟨rpE, rpBw⟩ := rpE
    obtain ⟨h, rpHeader, offset, rfl, rfl, rfl, -⟩ := hfields
    rw [linkKeyEntries, ih, Option.map_some, if_pos ⟨rfl, rfl⟩]

/-- The entries of a key with their widths. -/
def keyFields (key : ParseSwitchKeyBuilder) : List (Entry × ℤ) := key.entries.zip key.bitwidths

theorem EvenKey.length_keyFields {key : ParseSwitchKeyBuilder} (h : EvenKey key) :
    (keyFields key).length = key.entries.length := by
  rw [keyFields, List.length_zip, ← h, Nat.min_self]

/-- A key is made up of its entries and their widths. -/
theorem EvenKey.unzip {key : ParseSwitchKeyBuilder} (h : EvenKey key) :
    (⟨(keyFields key).map Prod.fst, (keyFields key).map Prod.snd⟩ : ParseSwitchKeyBuilder) = key := by
  rw [keyFields, List.map_fst_zip h.le, List.map_snd_zip h.ge]

theorem EvenKey.forall_fields {key : ParseSwitchKeyBuilder} (h : EvenKey key) :
    (∀ e ∈ keyFields key, IsField e.1) ↔ ∀ e ∈ key.entries, IsField e := by
  have hmap : key.entries = (keyFields key).map Prod.fst := by
    rw [keyFields, List.map_fst_zip h.le]
  conv_rhs => rw [hmap]
  rw [List.forall_mem_map]

/-- **The keys are linked** where they pass. -/
theorem linkParseSwitchKey_iff (hst : EvenKey st.keyBuilder) (hrp : EvenKey rpSt.keyBuilder) :
    (∃ key, linkParseSwitchKey st.keyBuilder rpSt.keyBuilder
      (linkedExt st rpSt (.new name id opcode)) = .ok (some key)) ↔ KeysPass st rpSt := by
  rw [linkParseSwitchKey, KeysPass]
  -- The three cases of the code: a new state without a key, a running state without one, two
  -- keys.
  by_cases hempty : st.keyBuilder.entries = []
  · rw [if_pos hempty]
    exact iff_of_true ⟨_, rfl⟩ (.inl hempty)
  rw [if_neg hempty, or_iff_right hempty]
  by_cases hrpEmpty : rpSt.keyBuilder.entries = []
  · have hlen : st.keyBuilder.entries.length ≠ rpSt.keyBuilder.entries.length := by
      rw [hrpEmpty]
      exact fun h => hempty (List.length_eq_zero_iff.mp h)
    have hkey := mapKeyEntries_iff (linkedExt st rpSt (.new name id opcode)).headerIdMap
      st.keyBuilder.entries
    rw [if_pos hrpEmpty, and_iff_right hrpEmpty, or_iff_left fun h => hlen h.1]
    simp only [linkedExt_lookup] at hkey
    rw [← hkey]
    constructor
    · rintro ⟨key, hres⟩
      obtain ⟨es, hes, hres⟩ := bind_eq_ok hres
      obtain ⟨es', rfl, -⟩ := Option.map_eq_some_iff.mp (Except.ok.inj hres)
      exact ⟨es', hes⟩
    · rintro ⟨es', hes⟩
      exact ⟨_, by rw [hes, ok_bind]; rfl⟩
  · rw [if_neg hrpEmpty, or_iff_right fun h => hrpEmpty h.1]
    by_cases hlen : st.keyBuilder.entries.length = rpSt.keyBuilder.entries.length
    · rw [if_neg (not_not.mpr hlen), and_iff_right hlen, ← hst.forall_fields, ← hrp.forall_fields]
      have hkey := linkKeyEntries_iff (keyFields st.keyBuilder) (keyFields rpSt.keyBuilder)
      rw [hst.length_keyFields, hrp.length_keyFields, and_iff_right hlen] at hkey
      rw [← hkey]
      constructor
      · rintro ⟨key, hres⟩
        obtain ⟨merged, hmerged, -⟩ := Option.map_eq_some_iff.mp (Except.ok.inj hres)
        exact ⟨merged, hmerged⟩
      · rintro ⟨merged, hmerged⟩
        exact ⟨_, congrArg Except.ok (Option.map_eq_some_iff.mpr ⟨merged, hmerged, rfl⟩)⟩
    · rw [if_pos hlen]
      exact iff_of_false (by simp) fun h => hlen h.1

/-- Two keys that are alike are linked to that of the running state. -/
theorem linkParseSwitchKey_alike {link : ℤ → Option ℤ} (hst : EvenKey st.keyBuilder)
    (hrp : EvenKey rpSt.keyBuilder)
    (halike : (keyFields st.keyBuilder).Forall₂ (FieldsAlike link) (keyFields rpSt.keyBuilder))
    (ext : ParseStateExt) :
    linkParseSwitchKey st.keyBuilder rpSt.keyBuilder ext = .ok (some rpSt.keyBuilder) := by
  have hlen := halike.length_eq
  rw [hst.length_keyFields, hrp.length_keyFields] at hlen
  rw [linkParseSwitchKey]
  by_cases hempty : st.keyBuilder.entries = []
  · have hrpEmpty : rpSt.keyBuilder.entries = [] := by
      rw [hempty] at hlen
      exact List.length_eq_zero_iff.mp hlen.symm
    have hsame : st.keyBuilder = rpSt.keyBuilder := by
      have hbits := hst.symm.trans (hlen.trans hrp)
      rw [← hrp, hrpEmpty] at hbits
      rw [← hst.unzip, ← hrp.unzip, keyFields, keyFields, hempty, hrpEmpty]
      rfl
    rw [if_pos hempty, if_pos hrpEmpty, hsame]
  · have hrpEmpty : rpSt.keyBuilder.entries ≠ [] := by
      intro hnil
      rw [hnil] at hlen
      exact hempty (List.length_eq_zero_iff.mp hlen)
    have hmerged : linkKeyEntries (st.keyBuilder.entries.zip st.keyBuilder.bitwidths)
        (rpSt.keyBuilder.entries.zip rpSt.keyBuilder.bitwidths) = _ := linkKeyEntries_alike halike
    rw [if_neg hempty, if_neg hrpEmpty, if_neg (not_not.mpr hlen), hmerged]
    exact congrArg (Except.ok ∘ some) hrp.unzip

/-! ## Both tests -/

/-- What linking two states leaves of the table of headers. -/
def linkedTable (env : Env) (st rpSt : ParseState ℕ) (name : String) (id : ℤ)
    (headers : HeaderUidTable) : HeaderUidTable :=
  (linkedExt st rpSt (.new name id .mapExistingId)).headerIdMap.entries.foldl
    (fun table kv => (table.linkHeaderIds env.p4Name kv.1 kv.2).2) headers

/-- **States are linked** exactly where both tests pass. -/
theorem canLinkParserStates_iff {ext : ParseStateExt} {headers' : HeaderUidTable} :
    canLinkParserStates env st rpSt (.new name id .mapExistingId) headers =
        .ok (some (ext, headers')) ↔
      OpsPass env st rpSt ∧ ∃ key,
        linkParseSwitchKey st.keyBuilder rpSt.keyBuilder
          (linkedExt st rpSt (.new name id .mapExistingId)) = .ok (some key) ∧
        ext = { linkedExt st rpSt (.new name id .mapExistingId) with
          newParseState := (linkedExt st rpSt (.new name id
            .mapExistingId)).newParseState.setKeyBuilder key } ∧
        headers' = linkedTable env st rpSt name id headers := by
  have hpass : OpsPass env st rpSt → ∃ code, code ≠ .stateHeaderOpsLinkFailed ∧
      mergeParserOps env st.parserOps rpSt.parserOps
        (.stateHeaderOpsLinked, .new name id .mapExistingId) =
          .ok (code, linkedExt st rpSt (.new name id .mapExistingId)) := fun h =>
    mergeParserOps_pass h _
  constructor
  · intro hres
    obtain ⟨⟨code, ext₁⟩, hops, hrest⟩ := bind_eq_ok hres
    dsimp only at hrest
    split_ifs at hrest with hcode
    · cases hrest
    have hp := opsPass_of_mergeParserOps hops hcode
    obtain ⟨code', -, hops'⟩ := hpass hp
    obtain ⟨-, rfl⟩ := Prod.mk.inj (Except.ok.inj (hops.symm.trans hops'))
    obtain ⟨key, hkey, hrest⟩ := bind_eq_ok hrest
    cases key with
    | none => cases hrest
    | some key =>
      obtain ⟨rfl, rfl⟩ := Prod.mk.inj (Option.some.inj (Except.ok.inj hrest))
      exact ⟨hp, key, hkey, rfl, rfl⟩
  · rintro ⟨hp, key, hkey, rfl, rfl⟩
    obtain ⟨code, hcode, hops⟩ := hpass hp
    rw [canLinkParserStates, hops, ok_bind]
    dsimp only
    rw [if_neg hcode, hkey, ok_bind]
    rfl

/-- Linked states do the same: the same extractions, of headers of the same type, and
the same key; and the linked state does it too, over the running headers. -/
def LinkedRightly (env : Env) (st rpSt : ParseState ℕ) (name : String) (id : ℤ)
    (headers : HeaderUidTable) : Prop :=
  ∀ ext headers', canLinkParserStates env st rpSt (.new name id .mapExistingId) headers =
      .ok (some (ext, headers')) →
    st.parserOps.Forall₂ (fun op rpOp => ∃ h rpHeader, op = .extract h ∧ rpOp = .extract rpHeader ∧
      SameType env h rpHeader) rpSt.parserOps ∧
    (keyFields st.keyBuilder).Forall₂ (FieldsAlike (headers'.linkOf env.p4Name))
      (keyFields rpSt.keyBuilder) ∧
    ext.newParseState.parserOps = rpSt.parserOps ∧ ext.newParseState.keyBuilder = rpSt.keyBuilder

/-- What the tests do not look at: that there are as many ops, all of them extractions,
and the types of those behind the first; and that there are as many fields in the keys,
of the same places and widths in headers that are linked. -/
structure Alike (env : Env) (st rpSt : ParseState ℕ) (headers : HeaderUidTable) : Prop where
  length_eq : st.parserOps.length = rpSt.parserOps.length
  extract : ∀ op ∈ st.parserOps ++ rpSt.parserOps, ∃ h, op = .extract h
  later : ∀ (i : ℕ) h rpHeader, 0 < i → st.parserOps[i]? = some (.extract h) →
    rpSt.parserOps[i]? = some (.extract rpHeader) → SameType env h rpHeader
  keyLength_eq : st.keyBuilder.entries.length = rpSt.keyBuilder.entries.length
  field : ∀ (i : ℕ) h offset bw rpHeader rpOffset rpBw,
    (keyFields st.keyBuilder)[i]? = some (Entry.field h offset, bw) →
    (keyFields rpSt.keyBuilder)[i]? = some (Entry.field rpHeader rpOffset, rpBw) →
      offset = rpOffset ∧ bw = rpBw ∧ linkAfter env st rpSt headers h = some rpHeader

/-- Where the keys pass and are of one length, all entries are fields. -/
theorem KeysPass.isField (h : KeysPass st rpSt)
    (hlen : st.keyBuilder.entries.length = rpSt.keyBuilder.entries.length) :
    (∀ e ∈ st.keyBuilder.entries, IsField e) ∧ ∀ e ∈ rpSt.keyBuilder.entries, IsField e := by
  have hempty : st.keyBuilder.entries = [] ↔ rpSt.keyBuilder.entries = [] := by
    rw [← List.length_eq_zero_iff, hlen, List.length_eq_zero_iff]
  rcases h with hst | ⟨hrp, -⟩ | ⟨-, hall⟩
  · rw [hst, hempty.mp hst]
    simp
  · rw [hrp, hempty.mpr hrp]
    simp
  · exact hall

/-- The ops of states that pass and are alike correspond. -/
theorem Alike.ops (h : Alike env st rpSt headers) (hpass : OpsPass env st rpSt) :
    st.parserOps.Forall₂ (fun op rpOp => ∃ h rpHeader, op = .extract h ∧ rpOp = .extract rpHeader ∧
      SameType env h rpHeader) rpSt.parserOps := by
  refine List.forall₂_iff_get.mpr ⟨h.length_eq, fun i hi hi' => ?_⟩
  have hget := List.getElem?_eq_getElem hi
  have hget' := List.getElem?_eq_getElem hi'
  obtain ⟨x, hx⟩ := h.extract _ (List.mem_append_left _ (List.mem_of_getElem? hget))
  obtain ⟨y, hy⟩ := h.extract _ (List.mem_append_right _ (List.mem_of_getElem? hget'))
  rw [hx] at hget
  rw [hy] at hget'
  refine ⟨x, y, hx, hy, ?_⟩
  rcases Nat.eq_zero_or_pos i with rfl | hpos
  · have hfirst : st.firstHeader = some x := by
      rw [ParseState.firstHeader]
      rcases hops : st.parserOps with - | ⟨op, ops⟩
      · rw [hops] at hget
        cases hget
      · rw [hops] at hget
        obtain rfl : op = .extract x := Option.some.inj hget
        rfl
    exact hpass x hfirst y (List.mem_filterMap.mpr ⟨_, List.mem_of_getElem? hget', rfl⟩)
  · exact h.later i x y hpos hget hget'

/-- The keys of states that pass and are alike correspond. -/
theorem Alike.keys (h : Alike env st rpSt headers) (hst : EvenKey st.keyBuilder)
    (hrp : EvenKey rpSt.keyBuilder) (hpass : KeysPass st rpSt) :
    (keyFields st.keyBuilder).Forall₂ (FieldsAlike (linkAfter env st rpSt headers))
      (keyFields rpSt.keyBuilder) := by
  obtain ⟨hall, hall'⟩ := hpass.isField h.keyLength_eq
  have hlen := hst.length_keyFields.trans (h.keyLength_eq.trans hrp.length_keyFields.symm)
  refine List.forall₂_iff_get.mpr ⟨hlen, fun i hi hi' => ?_⟩
  have hget := List.getElem?_eq_getElem hi
  have hget' := List.getElem?_eq_getElem hi'
  obtain ⟨x, offset, hx⟩ := hst.forall_fields.mpr hall _ (List.mem_of_getElem? hget)
  obtain ⟨y, rpOffset, hy⟩ := hrp.forall_fields.mpr hall' _ (List.mem_of_getElem? hget')
  have he : (keyFields st.keyBuilder)[i] = (.field x offset, (keyFields st.keyBuilder)[i].2) :=
    Prod.ext hx rfl
  have he' : (keyFields rpSt.keyBuilder)[i] =
      (.field y rpOffset, (keyFields rpSt.keyBuilder)[i].2) := Prod.ext hy rfl
  rw [he] at hget
  rw [he'] at hget'
  obtain ⟨rfl, hbw, hlink⟩ := h.field i x offset _ y rpOffset _ hget hget'
  exact ⟨x, y, offset, hx, hy, hbw, hlink⟩

/-- Ops that correspond are all extracted by the linked state. -/
theorem linkedExtracts_alike {env : Env}
    (h : st.parserOps.Forall₂ (fun op rpOp => ∃ h rpHeader, op = .extract h ∧
      rpOp = .extract rpHeader ∧ SameType env h rpHeader) rpSt.parserOps) :
    (linkedExtracts st rpSt).map ParserOp.extract = rpSt.parserOps := by
  have hall : ∀ {ops rpOps : List ParserOp}, ops.Forall₂ (fun op rpOp => ∃ h rpHeader,
      op = .extract h ∧ rpOp = .extract rpHeader ∧ SameType env h rpHeader) rpOps →
      (extracts rpOps).map ParserOp.extract = rpOps := by
    intro ops rpOps h
    induction h with
    | nil => rfl
    | cons hop _ ih =>
      obtain ⟨x, y, rfl, rfl, -⟩ := hop
      exact congrArg (ParserOp.extract y :: ·) ih
  rw [linkedExtracts, ParseState.firstHeader]
  rcases hops : st.parserOps with - | ⟨op, ops⟩
  · rw [hops] at h
    rw [List.forall₂_nil_left_iff.mp h]
    rfl
  · rw [hops] at h
    have hext := hall h
    obtain ⟨rpOp, rpOps, ⟨x, y, rfl, -, -⟩, -, -⟩ := List.forall₂_cons_left_iff.mp h
    exact hext

/-- **States are linked rightly** exactly where the tests, if they pass, are passed by
states that are alike. -/
theorem linkedRightly_iff (hr : headers.Reached) (hst : EvenKey st.keyBuilder)
    (hrp : EvenKey rpSt.keyBuilder) :
    LinkedRightly env st rpSt name id headers ↔
      (OpsPass env st rpSt → KeysPass st rpSt → Alike env st rpSt headers) := by
  have hlink : (linkedTable env st rpSt name id headers).linkOf env.p4Name =
      linkAfter env st rpSt headers := funext fun h => linkOf_linked hr.sound h
  constructor
  · -- What the tests pass is linked, so the new state extracts and reads what the two states do.
    intro h hops hkeys
    obtain ⟨key, hkey⟩ := (linkParseSwitchKey_iff hst hrp).mpr hkeys
    obtain ⟨hopsAlike, hfields, -, -⟩ :=
      h _ _ (canLinkParserStates_iff.mpr ⟨hops, key, hkey, rfl, rfl⟩)
    rw [hlink] at hfields
    refine ⟨hopsAlike.length_eq, fun op hop => ?_, fun i x y _ hx hy => ?_, ?_, ?_⟩
    · rcases List.mem_append.mp hop with hop | hop
      · obtain ⟨i, hi⟩ := List.getElem?_of_mem hop
        obtain ⟨-, -, x, -, hx, -, -⟩ := forall₂_getElem? hopsAlike hi
        exact ⟨x, hx⟩
      · obtain ⟨i, hi⟩ := List.getElem?_of_mem hop
        obtain ⟨-, -, -, y, -, hy, -⟩ := forall₂_getElem? hopsAlike.flip hi
        exact ⟨y, hy⟩
    · obtain ⟨rpOp, hrpOp, x', y', hx', hy', hsame⟩ := forall₂_getElem? hopsAlike hx
      obtain rfl := Option.some.inj (hy.symm.trans hrpOp)
      obtain rfl := ParserOp.extract.inj hx'
      obtain rfl := ParserOp.extract.inj hy'
      exact hsame
    · rw [← hst.length_keyFields, ← hrp.length_keyFields]
      exact hfields.length_eq
    · intro i x offset bw y rpOffset rpBw hx hy
      obtain ⟨rpE, hrpE, x', y', offset', hx', hy', hbw, hxy⟩ := forall₂_getElem? hfields hx
      obtain rfl := Option.some.inj (hy.symm.trans hrpE)
      obtain ⟨rfl, rfl⟩ := Entry.field.inj hx'
      obtain ⟨rfl, rfl⟩ := Entry.field.inj hy'
      exact ⟨rfl, hbw, hxy⟩
  · -- A link was made, so the tests were passed and the states are alike.
    intro h ext headers' hres
    obtain ⟨hops, key, hkey, rfl, rfl⟩ := canLinkParserStates_iff.mp hres
    have hkeys := (linkParseSwitchKey_iff hst hrp).mp ⟨key, hkey⟩
    have halike := h hops hkeys
    have hopsAlike := halike.ops hops
    have hfields := halike.keys hst hrp hkeys
    rw [hlink]
    refine ⟨hopsAlike, hfields, ?_, ?_⟩
    · rw [linkedExt_newParseState]
      exact linkedExtracts_alike hopsAlike
    · have hrpKey := linkParseSwitchKey_alike hst hrp hfields
        (linkedExt st rpSt (.new name id .mapExistingId))
      exact (Option.some.inj (Except.ok.inj (hkey.symm.trans hrpKey)))

/-- A table of types that has `tag_t` for the type of the same name. -/
def tagTypes : HeaderTypeUidTable :=
  { HeaderTypeUidTable.empty with
    linkTable := (UidTable.empty.insertP4objectsLink "tagger" "tag_t" "tag_t" .headerTypeDefMatch).2 }

/-- A running program whose tag is header 0. -/
def tagRunning : P4Objects :=
  { tagOnly with headers := [⟨"tag", ⟨0, "tag_t"⟩⟩].toAList }

def tagEnv : Env := ⟨tagTypes, "tagger", tagOnly, tagRunning⟩

/-- The running state that extracts the tag and selects as `parseTag` does. -/
def runningTag : ParseState ℕ where
  name := "tag"
  id := 0
  parserOps := [.extract 0]
  hasSwitch := true
  keyBuilder := ⟨[.field 0 3], [16]⟩

theorem parseTag_linkedRightly :
    (∃ ext headers', canLinkParserStates tagEnv parseTag runningTag
      (.new "tag" 0 .mapExistingId) .empty = .ok (some (ext, headers'))) ∧
      LinkedRightly tagEnv parseTag runningTag "tag" 0 .empty := by
  have hst : EvenKey parseTag.keyBuilder := rfl
  have hrp : EvenKey runningTag.keyBuilder := rfl
  refine ⟨⟨_, _, rfl⟩, (linkedRightly_iff .empty hst hrp).mpr fun _ _ => ⟨rfl, ?_, ?_, rfl, ?_⟩⟩
  · simp [parseTag, runningTag]
  · intro i h rpHeader hi hst
    rcases i with - | i
    · omega
    · cases hst
  · intro i h offset bw rpHeader rpOffset rpBw he hrpE
    rcases i with - | i
    · obtain ⟨hfield, rfl⟩ := Prod.mk.inj (Option.some.inj he)
      obtain ⟨hrpField, rfl⟩ := Prod.mk.inj (Option.some.inj hrpE)
      obtain ⟨rfl, rfl⟩ := Entry.field.inj hfield
      obtain ⟨rfl, rfl⟩ := Entry.field.inj hrpField
      exact ⟨rfl, rfl, rfl⟩
    · cases he

/-- A state that selects on the first byte of a header extracted before. -/
def selectFirst : ParseState ℕ where
  name := "select_first"
  id := 1
  hasSwitch := true
  keyBuilder := ⟨[.field 3 0], [8]⟩

/-- A running state that selects on the second one. -/
def selectSecond : ParseState ℕ where
  name := "select_second"
  id := 1
  hasSwitch := true
  keyBuilder := ⟨[.field 0 1], [8]⟩

/-- The states are linked, and the linked state selects on nothing. -/
theorem selectFirst_not_linkedRightly :
    EvenKey selectFirst.keyBuilder ∧ EvenKey selectSecond.keyBuilder ∧
      ¬LinkedRightly tagEnv selectFirst selectSecond "select_second" 1 .empty := by
  refine ⟨rfl, rfl, fun h => ?_⟩
  obtain ⟨-, hfields, -, -⟩ := h _ _ rfl
  obtain ⟨⟨_, _, offset, he, hrpE, -, -⟩, -⟩ := List.forall₂_cons.mp hfields
  have hfirst := (Entry.field.inj he).2
  have hsecond := (Entry.field.inj hrpE).2
  omega

end LinkParsers

end Linker

end P4Bricks
