import P4Bricks.Linker.HeaderLinks
/-!
# Copied states

What a state of the merged parser has of the one state it is made from. A copy takes
over the first extraction alone, and the key as it is: the ids in it are those of
the program, whatever ids the headers were given (`copied_iff`). A header that is
already linked gets another id, which is extracted, while the link stays.
-/

namespace P4Bricks

namespace Linker

namespace HeaderUidTable

/-! ## Tables that calls have made -/

/-- A table of headers as the linker may have it. -/
inductive Reached : HeaderUidTable → Prop
  | empty : Reached .empty
  | linkHeaderIds {table : HeaderUidTable} (p4Name : String) (headerId rpHeaderId : ℤ) :
      Reached table → Reached (table.linkHeaderIds p4Name headerId rpHeaderId).2
  | linkNewHeaderId {table : HeaderUidTable} (types : HeaderTypeUidTable)
      (p4Name headerName : String) (headerId : ℤ) (headerTypeName : String) (hint : ℤ) :
      Reached table →
        Reached (table.linkNewHeaderId types p4Name headerName headerId headerTypeName hint).2.2

/-- What every such table keeps: only ids in use are linked to. -/
structure Sound (table : HeaderUidTable) : Prop where
  inserts : ∃ ks, table.linkTable = .inserted ks
  used : ∀ p h id, table.linkOf p h = some id → id ∈ table.linkerUids

variable {table : HeaderUidTable} {p : String} {h id : ℤ}

theorem Sound.insertLink (hs : table.Sound) (p : String) (h id : ℤ) :
    (table.insertLink p h id).2.Sound := by
  rcases insertLink_spec hs.inserts p h id with
    ⟨-, code, -, hcall⟩ | ⟨-, t', hcall, hks, hlink, -, -⟩
  · rw [hcall]
    exact hs
  · rw [hcall]
    refine ⟨hks, fun q h' id' hl => ?_⟩
    rw [linkOf, hlink] at hl
    split_ifs at hl
    · rw [← Option.some.inj hl]
      exact Finset.mem_insert_self _ _
    · exact Finset.mem_insert_of_mem (hs.used q h' id' hl)

/-- `link_header_ids` changes what the insert changes. -/
theorem linkHeaderIds_snd (table : HeaderUidTable) (p : String) (h id : ℤ) :
    (table.linkHeaderIds p h id).2 = (table.insertLink p h id).2 := by
  rw [linkHeaderIds]
  split
  · next heq => rw [heq]
  · next heq => rw [heq]

theorem Sound.linkHeaderIds (hs : table.Sound) (p : String) (h id : ℤ) :
    (table.linkHeaderIds p h id).2.Sound := by
  rw [linkHeaderIds_snd]
  exact hs.insertLink p h id

theorem Sound.linkNewHeaderId (hs : table.Sound) (types : HeaderTypeUidTable)
    (p headerName : String) (h : ℤ) (typeName : String) (hint : ℤ) :
    (table.linkNewHeaderId types p headerName h typeName hint).2.2.Sound := by
  rw [HeaderUidTable.linkNewHeaderId]
  generalize (if hint ∈ table.linkerUids then getNewHeaderId table.linkerUids else hint) = id
  have hs' := hs.insertLink p h id
  dsimp only
  split
  · next heq =>
    rw [heq] at hs'
    exact ⟨hs'.inserts, hs'.used⟩
  · next heq => rwa [heq] at hs'

theorem Reached.sound (hr : table.Reached) : table.Sound := by
  induction hr with
  | empty => exact ⟨⟨[], rfl⟩, fun p h id hl => by cases hl⟩
  | linkHeaderIds p h id _ ih => exact ih.linkHeaderIds p h id
  | linkNewHeaderId types p n h t hint _ ih => exact ih.linkNewHeaderId types p n h t hint

/-- What a header is linked to after a call of `link_header_ids`. -/
theorem Sound.linkOf_linkHeaderIds (hs : table.Sound) (p : String) (h id h' : ℤ) :
    (table.linkHeaderIds p h id).2.linkOf p h' =
      (table.linkOf p h').or (if h' = h then some id else none) := by
  rw [linkHeaderIds_snd]
  rcases insertLink_spec hs.inserts p h id with
    ⟨hne, code, -, hcall⟩ | ⟨hfree, t', hcall, -, hlink, -, -⟩
  · rw [hcall]
    obtain ⟨x, hx⟩ := Option.ne_none_iff_exists'.mp hne
    by_cases hh : h' = h
    · rw [hh, hx]
      rfl
    · rw [if_neg hh, Option.or_none]
  · rw [hcall]
    have hnew := hlink p h'
    simp only [true_and] at hnew
    rw [linkOf]
    dsimp only
    rw [hnew]
    by_cases hh : h' = h
    · rw [if_pos hh, if_pos hh, hh, hfree]
      rfl
    · rw [if_neg hh, if_neg hh, Option.or_none]

/-- A header that is linked keeps its link when it is to get an id of its own, and the
id it gets is another one. -/
theorem Sound.linkNewHeaderId_linked (hs : table.Sound) (types : HeaderTypeUidTable)
    (headerName typeName : String) (hl : table.linkOf p h = some id) :
    (table.linkNewHeaderId types p headerName h typeName h).2.2.linkOf p h = some id ∧
      (table.linkNewHeaderId types p headerName h typeName h).2.1 ≠ id := by
  have hused := hs.used p h id hl
  have hfresh : (if h ∈ table.linkerUids then getNewHeaderId table.linkerUids else h) ∉
      table.linkerUids := by
    split_ifs with hmem
    · exact getNewHeaderId_notMem _
    · exact hmem
  rw [HeaderUidTable.linkNewHeaderId]
  generalize (if h ∈ table.linkerUids then getNewHeaderId table.linkerUids else h) = hint at hfresh
  rcases insertLink_spec hs.inserts p h hint with ⟨-, code, hcode, hcall⟩ | ⟨hfree, -⟩
  · dsimp only
    rw [hcall]
    split
    · simp_all
    · next heq =>
      obtain ⟨rfl, rfl⟩ := Prod.mk.inj heq
      refine ⟨hl, ?_⟩
      rintro rfl
      exact hfresh hused
  · rw [hl] at hfree
    cases hfree

/-- A header that is not linked is linked to the id that it gets: its own where the
linker does not use it. -/
theorem Sound.linkNewHeaderId_free (hs : table.Sound) (types : HeaderTypeUidTable)
    (headerName typeName : String) (hfree : table.linkOf p h = none) :
    ∃ hint, (table.linkNewHeaderId types p headerName h typeName h).2.1 = hint ∧
      (hint = h ↔ h ∉ table.linkerUids) ∧
      ∀ h', (table.linkNewHeaderId types p headerName h typeName h).2.2.linkOf p h' =
        if h' = h then some hint else table.linkOf p h' := by
  have hown : (if h ∈ table.linkerUids then getNewHeaderId table.linkerUids else h) = h ↔
      h ∉ table.linkerUids := by
    split_ifs with hmem
    · refine iff_of_false (fun heq => ?_) (not_not.mpr hmem)
      exact getNewHeaderId_notMem table.linkerUids (heq ▸ hmem)
    · exact iff_of_true rfl hmem
  rw [HeaderUidTable.linkNewHeaderId]
  generalize (if h ∈ table.linkerUids then getNewHeaderId table.linkerUids else h) = hint at hown
  rcases insertLink_spec hs.inserts p h hint with ⟨hne, -⟩ | ⟨-, t', hcall, -, hlink, -, -⟩
  · exact absurd hfree hne
  · dsimp only
    rw [hcall]
    refine ⟨hint, rfl, hown, fun h' => ?_⟩
    have hnew := hlink p h'
    simp only [true_and] at hnew
    exact hnew

end HeaderUidTable

/-! ## Copied states -/

/-- An entry of a key with the header that it reads changed. -/
def Entry.mapHeader (f : ℤ → Option ℤ) : Entry → Option Entry
  | .field header offset => (f header).map fun header => .field header offset
  | entry => some entry

namespace LinkParsers

variable {env : Env} {ps : ParseState ℕ} {opcode : UidTableLinkOPCode} {name : String}
  {id : ℤ} {headers : HeaderUidTable}

/-- The linker's header of a header: of a header of the running program, the header
itself. -/
def linkedHeader (env : Env) (opcode : UidTableLinkOPCode) (headers : HeaderUidTable) (header : ℤ) :
    Option ℤ :=
  if opcode = .insertNewId then headers.linkOf env.p4Name header else some header

/-- The copy extracts what the original does and builds its key, over the linked
headers. -/
def Copied (env : Env) (ps : ParseState ℕ) (opcode : UidTableLinkOPCode) (name : String) (id : ℤ)
    (headers : HeaderUidTable) : Prop :=
  ∃ ext headers', addParserState env ps (.new name id opcode) headers = .ok (ext, headers') ∧
    ps.parserOps.Forall₂ (fun op op' => ∃ h h', op = .extract h ∧
      linkedHeader env opcode headers' h = some h' ∧ op' = .extract h')
        ext.newParseState.parserOps ∧
    ps.keyBuilder.entries.Forall₂
      (fun e e' => e.mapHeader (linkedHeader env opcode headers') = some e')
        ext.newParseState.keyBuilder.entries ∧
    ext.newParseState.keyBuilder.bitwidths = ps.keyBuilder.bitwidths

/-- What it takes: one extraction at most; and in a new state, of a header that is not
linked yet, while each header in the key is linked under its own id, or gets it here. -/
structure Copyable (env : Env) (ps : ParseState ℕ) (opcode : UidTableLinkOPCode)
    (headers : HeaderUidTable) : Prop where
  length_le : ps.parserOps.length ≤ 1
  unlinked : opcode = .insertNewId → ∀ h ∈ ps.firstHeader, headers.linkOf env.p4Name h = none
  key : opcode = .insertNewId → ∀ h offset, .field h offset ∈ ps.keyBuilder.entries →
    if ps.firstHeader = some h then h ∉ headers.linkerUids else headers.linkOf env.p4Name h = some h

/-- A key over the linked headers is the key itself where each header is linked under
its own id. -/
theorem forall₂_mapHeader_self {f : ℤ → Option ℤ} {entries : List Entry} :
    entries.Forall₂ (fun e e' => e.mapHeader f = some e') entries ↔
      ∀ h offset, .field h offset ∈ entries → f h = some h := by
  rw [List.forall₂_same]
  refine ⟨fun hall h offset he => ?_, fun hall e he => ?_⟩
  · obtain ⟨h', hh', heq⟩ := Option.map_eq_some_iff.mp (hall _ he)
    rw [hh', (Entry.field.inj heq).1]
  · cases e with
    | field h offset => exact Option.map_eq_some_iff.mpr ⟨h, hall h offset he, rfl⟩
    | _ => rfl

/-- A copy of a running state, whose ids are the linker's. -/
theorem copied_iff_running (hne : opcode ≠ .insertNewId)
    (hops : ∀ op ∈ ps.parserOps, ∃ h, op = .extract h) :
    Copied env ps opcode name id headers ↔ ps.parserOps.length ≤ 1 := by
  have hlinked : ∀ headers', linkedHeader env opcode headers' = some := by
    intro headers'
    funext h
    rw [linkedHeader, if_neg hne]
  have hkey : ps.keyBuilder.entries.Forall₂ (fun e e' => e.mapHeader some = some e')
      ps.keyBuilder.entries := forall₂_mapHeader_self.mpr fun _ _ _ => rfl
  unfold Copied
  simp only [hlinked]
  rcases hst : ps.parserOps with - | ⟨op, ops⟩
  · refine iff_of_true ?_ (Nat.zero_le 1)
    exact ⟨_, _, by rw [addParserState, hst]; rfl, .nil, hkey, rfl⟩
  · obtain ⟨h, rfl⟩ := hops op (hst ▸ List.mem_cons_self)
    have hcall : addParserState env ps (.new name id opcode) headers =
        .ok ({ ParseStateExt.new name id opcode with
          newParseState := ((ParseStateExt.new name id opcode).newParseState.addExtract
            h).setKeyBuilder ps.keyBuilder }, headers) := by
      have hop : (ParseStateExt.new name id opcode).uidTableLinkOpcode ≠ .insertNewId := hne
      rw [addParserState, hst, addParserOps, addExtractParserOpRegular, if_neg hop]
      rfl
    constructor
    · rintro ⟨ext, headers', hres, hext, -, -⟩
      obtain ⟨rfl, -⟩ := Prod.mk.inj (Except.ok.inj (hcall.symm.trans hres))
      exact hext.length_eq.le
    · intro hlen
      obtain rfl : ops = [] := List.length_eq_zero_iff.mp (by simpa using hlen)
      exact ⟨_, _, hcall, .cons ⟨h, h, rfl, rfl, rfl⟩ .nil, hkey, rfl⟩

theorem linkedHeader_new (headers' : HeaderUidTable) :
    linkedHeader env .insertNewId headers' = headers'.linkOf env.p4Name :=
  funext fun h => by rw [linkedHeader, if_pos rfl]

/-- A new state that extracts nothing keeps its key, over the headers that are linked. -/
theorem copied_iff_nothing (hst : ps.parserOps = []) :
    Copied env ps .insertNewId name id headers ↔ Copyable env ps .insertNewId headers := by
  have hcall : addParserState env ps (.new name id .insertNewId) headers =
      .ok ({ ParseStateExt.new name id .insertNewId with
        newParseState := (ParseStateExt.new name id .insertNewId).newParseState.setKeyBuilder
          ps.keyBuilder }, headers) := by
    rw [addParserState, hst]
    rfl
  have hfirst : ps.firstHeader = none := by rw [ParseState.firstHeader, hst]
  unfold Copied
  simp only [linkedHeader_new, hst]
  constructor
  · rintro ⟨ext, headers', hres, -, hkey, -⟩
    obtain ⟨rfl, rfl⟩ := Prod.mk.inj (Except.ok.inj (hcall.symm.trans hres))
    refine ⟨by simp [hst], fun _ h hh => ?_, fun _ h offset he => ?_⟩
    · rw [hfirst] at hh
      cases hh
    · rw [hfirst, if_neg (by simp)]
      exact forall₂_mapHeader_self.mp hkey h offset he
  · intro hc
    refine ⟨_, _, hcall, .nil, forall₂_mapHeader_self.mpr fun h offset he => ?_, rfl⟩
    have hown := hc.key rfl h offset he
    rwa [hfirst, if_neg (by simp)] at hown

/-- The call for a new state that extracts: the id of the first header is what the
linker gives to it. -/
theorem addParserState_extract (name : String) (id : ℤ) (headers : HeaderUidTable) {h : ℤ}
    {ops : List ParserOp} (hst : ps.parserOps = .extract h :: ops)
    (htype : (env.prog.typeOfHeaderId h).isSome) :
    ∃ n t, addParserState env ps (.new name id .insertNewId) headers =
      .ok ({ ParseStateExt.new name id .insertNewId with
        newParseState := ((ParseStateExt.new name id .insertNewId).newParseState.addExtract
          (headers.linkNewHeaderId env.types env.p4Name n h t h).2.1).setKeyBuilder
            ps.keyBuilder },
        (headers.linkNewHeaderId env.types env.p4Name n h t h).2.2) := by
  obtain ⟨t, ht⟩ := Option.isSome_iff_exists.mp htype
  obtain ⟨⟨n, decl⟩, hn, -⟩ := Option.bind_eq_some_iff.mp ht
  have hop : (ParseStateExt.new name id .insertNewId).uidTableLinkOpcode = .insertNewId := rfl
  refine ⟨n, t, ?_⟩
  rw [addParserState, hst, addParserOps, addExtractParserOpRegular, if_pos hop,
    P4Objects.headerName, hn, ht]
  rfl

/-- A header that is not linked is linked to the id that is extracted. -/
theorem copied_iff_free {h : ℤ} {ops : List ParserOp} (hs : headers.Sound)
    (hst : ps.parserOps = .extract h :: ops) (htype : (env.prog.typeOfHeaderId h).isSome)
    (hl : headers.linkOf env.p4Name h = none) :
    Copied env ps .insertNewId name id headers ↔ Copyable env ps .insertNewId headers := by
  have hfirst : ps.firstHeader = some h := by rw [ParseState.firstHeader, hst]
  obtain ⟨n, t, hcall⟩ := addParserState_extract name id headers hst htype
  obtain ⟨hint, hhint, hown, hlink⟩ := hs.linkNewHeaderId_free env.types n t hl
  rw [hhint] at hcall
  have hkey : ps.keyBuilder.entries.Forall₂ (fun e e' => e.mapHeader
        ((headers.linkNewHeaderId env.types env.p4Name n h t h).2.2.linkOf env.p4Name) =
          some e') ps.keyBuilder.entries ↔
      ∀ h' offset, .field h' offset ∈ ps.keyBuilder.entries →
        if ps.firstHeader = some h' then h' ∉ headers.linkerUids
        else headers.linkOf env.p4Name h' = some h' := by
    rw [forall₂_mapHeader_self]
    refine forall₃_congr fun h' offset _ => ?_
    rw [hlink, hfirst]
    by_cases hh : h' = h
    · subst hh
      rw [if_pos rfl, if_pos rfl, Option.some_inj, hown]
    · rw [if_neg hh, if_neg fun heq => hh (Option.some.inj heq).symm]
  unfold Copied
  simp only [linkedHeader_new, hst]
  constructor
  · rintro ⟨ext, headers', hres, hext, hentries, -⟩
    obtain ⟨rfl, rfl⟩ := Prod.mk.inj (Except.ok.inj (hcall.symm.trans hres))
    refine ⟨hst ▸ hext.length_eq.le, fun _ h' hh' => ?_, fun _ => hkey.mp hentries⟩
    rw [hfirst] at hh'
    rw [← Option.some.inj hh', hl]
  · intro hc
    have hlen := hc.length_le
    rw [hst] at hlen
    obtain rfl : ops = [] := List.length_eq_zero_iff.mp (by simpa using hlen)
    refine ⟨_, _, hcall, .cons ⟨h, hint, rfl, ?_, rfl⟩ .nil, hkey.mpr (hc.key rfl), rfl⟩
    rw [hlink, if_pos rfl]

/-- One that is linked keeps its link, and another id is extracted. -/
theorem not_copied_of_linked {h linkId : ℤ} {ops : List ParserOp} (hs : headers.Sound)
    (hst : ps.parserOps = .extract h :: ops) (htype : (env.prog.typeOfHeaderId h).isSome)
    (hl : headers.linkOf env.p4Name h = some linkId) :
    ¬Copied env ps .insertNewId name id headers := by
  obtain ⟨n, t, hcall⟩ := addParserState_extract name id headers hst htype
  obtain ⟨hkeeps, hother⟩ := hs.linkNewHeaderId_linked env.types n t hl
  rintro ⟨ext, headers', hres, hext, -, -⟩
  obtain ⟨rfl, rfl⟩ := Prod.mk.inj (Except.ok.inj (hcall.symm.trans hres))
  rw [hst] at hext
  obtain ⟨⟨h₁, h₂, heq, hlink, hop⟩, -⟩ := List.forall₂_cons.mp hext
  obtain rfl := ParserOp.extract.inj heq
  rw [linkedHeader_new, hkeeps] at hlink
  exact hother ((ParserOp.extract.inj hop).trans (Option.some.inj hlink).symm)

/-- **A copy of a state** extracts what it does and builds its key exactly where it can
be copied. -/
theorem copied_iff (hr : headers.Reached) (hops : ∀ op ∈ ps.parserOps, ∃ h, op = .extract h)
    (htypes : opcode = .insertNewId →
      ∀ h, .extract h ∈ ps.parserOps → (env.prog.typeOfHeaderId h).isSome) :
    Copied env ps opcode name id headers ↔ Copyable env ps opcode headers := by
  by_cases hne : opcode ≠ .insertNewId
  · rw [copied_iff_running hne hops]
    exact ⟨fun hlen => ⟨hlen, fun h => absurd h hne, fun h => absurd h hne⟩, Copyable.length_le⟩
  obtain rfl := not_not.mp hne
  rcases hst : ps.parserOps with - | ⟨op, ops⟩
  · exact copied_iff_nothing hst
  · obtain ⟨h, rfl⟩ := hops op (hst ▸ List.mem_cons_self)
    have htype := htypes rfl h (hst ▸ List.mem_cons_self)
    rcases hl : headers.linkOf env.p4Name h with - | linkId
    · exact copied_iff_free hr.sound hst htype hl
    · refine iff_of_false (not_copied_of_linked hr.sound hst htype hl) fun hc => ?_
      have hnone := hc.unlinked rfl h (by rw [ParseState.firstHeader, hst]; rfl)
      rw [hl] at hnone
      cases hnone

/-- A program with one header, of type `tag_t`. -/
def tagOnly : P4Objects :=
  { P4Objects.empty with
    headerTypes := [⟨"tag_t", HeaderType.new "tag_t" 0⟩].toAList
    headers := [⟨"tag", ⟨3, "tag_t"⟩⟩].toAList }

/-- A state that extracts the tag and selects on its last field. -/
def parseTag : ParseState ℕ where
  name := "parse_tag"
  id := 0
  parserOps := [.extract 3]
  hasSwitch := true
  keyBuilder := ⟨[.field 3 3], [16]⟩

theorem parseTag_copied :
    Copied ⟨.empty, "tagger", tagOnly, .empty⟩ parseTag .insertNewId "tagger.parse_tag" 1
      .empty := by
  refine (copied_iff .empty (by simp [parseTag]) fun _ h hop => ?_).mpr ⟨le_rfl, ?_, ?_⟩
  · obtain rfl := ParserOp.extract.inj (List.mem_singleton.mp hop)
    decide
  · intro _ h _
    rfl
  · intro _ h offset he
    obtain ⟨rfl, -⟩ := Entry.field.inj (List.mem_singleton.mp he)
    exact Finset.notMem_empty _

/-- A running state that extracts two headers. -/
def parseTags : ParseState ℕ where
  name := "parse_tags"
  id := 0
  parserOps := [.extract 3, .extract 4]

/-- The copy extracts the first of them. -/
theorem parseTags_not_copied :
    (∀ op ∈ parseTags.parserOps, ∃ h, op = .extract h) ∧
      ¬Copied ⟨.empty, "tagger", tagOnly, tagOnly⟩ parseTags .noOps "parse_tags" 0 .empty := by
  have hops : ∀ op ∈ parseTags.parserOps, ∃ h, op = .extract h := by simp [parseTags]
  exact ⟨hops, fun h => absurd ((copied_iff_running (by decide) hops).mp h) (by decide)⟩

end LinkParsers

end Linker

end P4Bricks
