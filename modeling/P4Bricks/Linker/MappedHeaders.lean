import P4Bricks.Linker.HeaderLinks
/-!
# The headers of a program that is added

An invariant of the two loops of `map_ordered_parser_states`. It holds as long as
no header is extracted first by two of the new states, and no running state that
extracts a header comes twice.
-/

namespace P4Bricks

namespace Linker

/-- The widths of the fields, which of them is of variable length, and how long the
header may be. -/
def HeaderType.layout (t : HeaderType) : List (ℤ × Bool) × ℤ :=
  (t.fieldsInfo.map fun f => (f.bitwidth, f.isVL), t.vlMaxHeaderBytes)

/-- The linker header `id` has a type, and it is laid out as that of header `h` of
the program. -/
def LaidOut (types : HeaderTypeUidTable) (headers : HeaderUidTable) (prog : P4Objects)
    (h id : ℤ) : Prop :=
  ∃ n t uid T, prog.typeOfHeaderId h = some n ∧ prog.headerTypes.lookup n = some t ∧
    headers.linkerHeaderIdTypeNameMap id = some uid ∧
    types.linkerHeaderTypes.lookup uid = some T ∧ t.layout = T.layout

namespace LinkParsers

/-- Of two running states with one name neither extracts a header, and no two extract
one header. -/
def Apart (a b : ParseState ℕ) : Prop :=
  (a.name = b.name → a.parserOps = [] ∧ b.parserOps = []) ∧
    ∀ id, a.parserOps = [.extract id] → b.parserOps ≠ [.extract id]

variable {env : Env} {states rpStates rest : List (ParseState ℕ)} {headers₀ headers' : HeaderUidTable}
variable {m m' : Mapping}

/-- What the loops keep. The table starts as `headers₀`. -/
structure Mapped (env : Env) (states rpStates : List (ParseState ℕ)) (headers₀ : HeaderUidTable)
    (m : Mapping) : Prop where
  table : m.headers.Inv
  kept : ∀ id ∈ headers₀.linkerUids, id ∈ m.headers.linkerUids ∧
    m.headers.linkerHeaderIdTypeNameMap id = headers₀.linkerHeaderIdTypeNameMap id
  others : ∀ q h, q ≠ env.p4Name → m.headers.linkOf q h = headers₀.linkOf q h
  /-- Only the headers of states that are done are linked. -/
  own : ∀ h id, m.headers.linkOf env.p4Name h = some id → ∃ (k : ℕ) (st : ParseState ℕ) (name : String),
    states[k]? = some st ∧ st.firstHeader = some h ∧ m.parseStateLinked[k]? = some (some name)
  oneHeader : ∀ h h' id, m.headers.linkOf env.p4Name h = some id →
    m.headers.linkOf env.p4Name h' = some id → h = h'
  typed : ∀ h id, m.headers.linkOf env.p4Name h = some id → LaidOut env.types m.headers env.prog h id
  entry : ∀ name ext, m.linkedParseState.lookup name = some ext → ext.newParseState.name = name ∧
    (ext.newParseState.parserOps = [] ∨
      ∃ id ∈ m.headers.linkerUids, ext.newParseState.parserOps = [.extract id])
  distinct : ∀ name name' ext ext' id, m.linkedParseState.lookup name = some ext →
    m.linkedParseState.lookup name' = some ext' → ext.newParseState.parserOps = [.extract id] →
    ext'.newParseState.parserOps = [.extract id] → name = name'
  /-- A merged state is a running one, or made for a new one. -/
  origin : ∀ name ext, m.linkedParseState.lookup name = some ext →
    (∃ rpSt ∈ rpStates, name = rpSt.name ∧
      (ext.newParseState.parserOps = [] ∨ ext.newParseState.parserOps = rpSt.parserOps)) ∨
    ∃ (k : ℕ) (st : ParseState ℕ), states[k]? = some st ∧ name = env.p4Name ++ "." ++ st.name ∧
      m.parseStateLinked[k]? = some (some name)
  linkedName : ∀ (k : ℕ) name, m.parseStateLinked[k]? = some (some name) →
    (∃ rpSt ∈ rpStates, name = rpSt.name) ∨
      ∃ st, states[k]? = some st ∧ name = env.p4Name ++ "." ++ st.name
  stands : ∀ (k : ℕ) (st : ParseState ℕ) name ext h id, states[k]? = some st →
    m.parseStateLinked[k]? = some (some name) → m.linkedParseState.lookup name = some ext →
    ext.newParseState.parserOps = [.extract id] → st.firstHeader = some h →
    m.headers.linkOf env.p4Name h = some id

namespace Mapped

variable {name : String} {ext : ParseStateExt} {linkTable : UidTable String} {stateId : ℤ}
variable {linked : List (Option String)} {h id : ℤ}

/-- A state that extracts nothing is put among the merged ones. -/
theorem put_none (hm : Mapped env states rpStates headers₀ m) (hname : ext.newParseState.name = name)
    (hops : ext.newParseState.parserOps = [])
    (hlinked : ∀ (k : ℕ) n, m.parseStateLinked[k]? = some (some n) → linked[k]? = some (some n))
    (hnew : ∀ (k : ℕ) n, linked[k]? = some (some n) → m.parseStateLinked[k]? = some (some n) ∨
      (n = name ∧ ((∃ rpSt ∈ rpStates, name = rpSt.name) ∨
        ∃ st, states[k]? = some st ∧ name = env.p4Name ++ "." ++ st.name)))
    (horigin : (∃ rpSt ∈ rpStates, name = rpSt.name) ∨
      ∃ (k : ℕ) (st : ParseState ℕ), states[k]? = some st ∧ name = env.p4Name ++ "." ++ st.name ∧
        linked[k]? = some (some name)) :
    Mapped env states rpStates headers₀
      ⟨m.headers, linkTable, stateId, m.linkedParseState.insert name ext, linked⟩ where
  table := hm.table
  kept := hm.kept
  others := hm.others
  own h id hl := by
    obtain ⟨k, st, n, hst, hfirst, hk⟩ := hm.own h id hl
    exact ⟨k, st, n, hst, hfirst, hlinked k n hk⟩
  oneHeader := hm.oneHeader
  typed := hm.typed
  entry n e he := by
    rcases lookup_insert_cases he with ⟨rfl, rfl⟩ | ⟨-, hold⟩
    · exact ⟨hname, .inl hops⟩
    · exact hm.entry n e hold
  distinct n n' e e' id he he' hid hid' := by
    -- The new entry extracts no header, so it can not clash with another one.
    rcases lookup_insert_cases he with ⟨rfl, rfl⟩ | ⟨-, hold⟩
    · rw [hops] at hid
      cases hid
    · rcases lookup_insert_cases he' with ⟨rfl, rfl⟩ | ⟨-, hold'⟩
      · rw [hops] at hid'
        cases hid'
      · exact hm.distinct n n' e e' id hold hold' hid hid'
  origin n e he := by
    rcases lookup_insert_cases he with ⟨rfl, rfl⟩ | ⟨-, hold⟩
    · exact horigin.imp_left fun hrp => by
        obtain ⟨rpSt, hmem, hn⟩ := hrp
        exact ⟨rpSt, hmem, hn, .inl hops⟩
    · refine (hm.origin n e hold).imp_right fun hst => ?_
      obtain ⟨k, st, hst, hn, hk⟩ := hst
      exact ⟨k, st, hst, hn, hlinked k n hk⟩
  linkedName k n hk := by
    rcases hnew k n hk with hk | ⟨rfl, hname⟩
    · exact hm.linkedName k n hk
    · exact hname
  stands k st n e h id hst hk he hid hfirst := by
    rcases lookup_insert_cases he with ⟨rfl, rfl⟩ | ⟨hne, hold⟩
    · rw [hops] at hid
      cases hid
    · rcases hnew k n hk with hk | ⟨rfl, -⟩
      · exact hm.stands k st n e h id hst hk hold hid hfirst
      · exact absurd rfl hne

/-- A state that extracts a header in use is put among the merged ones. -/
theorem entry_insert (hm : Mapped env states rpStates headers₀ m)
    (hname : ext.newParseState.name = name)
    (hops : ext.newParseState.parserOps = [.extract id]) {uids : Finset ℤ} (hid : id ∈ uids)
    (huids : ∀ i, i ∈ m.headers.linkerUids → i ∈ uids) {n : String} {e : ParseStateExt}
    (he : (m.linkedParseState.insert name ext).lookup n = some e) :
    e.newParseState.name = n ∧ (e.newParseState.parserOps = [] ∨
      ∃ i ∈ uids, e.newParseState.parserOps = [.extract i]) := by
  rcases lookup_insert_cases he with ⟨rfl, rfl⟩ | ⟨-, hold⟩
  · exact ⟨hname, .inr ⟨id, hid, hops⟩⟩
  · refine (hm.entry n e hold).imp_right fun h => h.imp_right fun hi => ?_
    obtain ⟨i, hi, hops⟩ := hi
    exact ⟨i, huids i hi, hops⟩

/-- The merged states extract different headers if no other one extracts this one. -/
theorem distinct_insert (hm : Mapped env states rpStates headers₀ m)
    (hops : ext.newParseState.parserOps = [.extract id])
    (hfresh : ∀ n e, m.linkedParseState.lookup n = some e →
      e.newParseState.parserOps ≠ [.extract id]) {n n' : String} {e e' : ParseStateExt} {i : ℤ}
    (he : (m.linkedParseState.insert name ext).lookup n = some e)
    (he' : (m.linkedParseState.insert name ext).lookup n' = some e')
    (hi : e.newParseState.parserOps = [.extract i])
    (hi' : e'.newParseState.parserOps = [.extract i]) : n = n' := by
  rcases lookup_insert_cases he with ⟨rfl, rfl⟩ | ⟨-, hold⟩
  · rcases lookup_insert_cases he' with ⟨rfl, rfl⟩ | ⟨-, hold'⟩
    · rfl
    · rw [hops] at hi
      cases hi
      exact absurd hi' (hfresh n' e' hold')
  · rcases lookup_insert_cases he' with ⟨rfl, rfl⟩ | ⟨-, hold'⟩
    · rw [hops] at hi'
      cases hi'
      exact absurd hi (hfresh n e hold)
    · exact hm.distinct n n' e e' i hold hold' hi hi'

/-- A running state that extracts a header is copied. -/
theorem put_copy (hm : Mapped env states rpStates headers₀ m) (hname : ext.newParseState.name = name)
    (hops : ext.newParseState.parserOps = [.extract id]) (hid : id ∈ m.headers.linkerUids)
    (hfresh : ∀ n e, m.linkedParseState.lookup n = some e →
      e.newParseState.parserOps ≠ [.extract id])
    (hpending : ∀ k : ℕ, m.parseStateLinked[k]? ≠ some (some name))
    (horigin : ∃ rpSt ∈ rpStates, name = rpSt.name ∧ rpSt.parserOps = [.extract id]) :
    Mapped env states rpStates headers₀
      ⟨m.headers, linkTable, stateId, m.linkedParseState.insert name ext, m.parseStateLinked⟩ where
  table := hm.table
  kept := hm.kept
  others := hm.others
  own := hm.own
  oneHeader := hm.oneHeader
  typed := hm.typed
  entry _ _ := hm.entry_insert hname hops hid fun _ hi => hi
  distinct _ _ _ _ _ := hm.distinct_insert hops hfresh
  origin n e he := by
    rcases lookup_insert_cases he with ⟨rfl, rfl⟩ | ⟨-, hold⟩
    · obtain ⟨rpSt, hmem, hn, hrp⟩ := horigin
      exact .inl ⟨rpSt, hmem, hn, .inr (hops.trans hrp.symm)⟩
    · exact hm.origin n e hold
  linkedName := hm.linkedName
  stands k st n e h i hst hk he hi hfirst := by
    rcases lookup_insert_cases he with ⟨rfl, rfl⟩ | ⟨-, hold⟩
    · exact absurd hk (hpending k)
    · exact hm.stands k st n e h i hst hk hold hi hfirst

/-- After the link of a header the program has it and the links it had. -/
theorem linkOf_cases (hlinks : m.headers.Links headers' env.p4Name h id) {h' i : ℤ}
    (hl : headers'.linkOf env.p4Name h' = some i) :
    (h' = h ∧ i = id) ∨ (h' ≠ h ∧ m.headers.linkOf env.p4Name h' = some i) := by
  rw [hlinks.linkOf] at hl
  split_ifs at hl with heq
  · exact .inl ⟨heq.2, (Option.some.inj hl).symm⟩
  · exact .inr ⟨fun hh => heq ⟨rfl, hh⟩, hl⟩

/-- The states that were linked are linked still. -/
theorem linked_set {k j : ℕ} {n : String} (hk : m.parseStateLinked[k]? = some none)
    (hj : m.parseStateLinked[j]? = some (some n)) :
    (m.parseStateLinked.set k (some name))[j]? = some (some n) := by
  rw [List.getElem?_set_ne, hj]
  rintro rfl
  rw [hk] at hj
  cases hj

theorem linked_set_self {k : ℕ} (hk : m.parseStateLinked[k]? = some none) :
    (m.parseStateLinked.set k (some name))[k]? = some (some name) := by
  obtain ⟨hlt, -⟩ := List.getElem?_eq_some_iff.mp hk
  rw [List.getElem?_set_self hlt]

/-- Each header of the program that is linked has one header of the linker, of its layout. -/
theorem typed_link (hm : Mapped env states rpStates headers₀ m)
    (hlinks : m.headers.Links headers' env.p4Name h id)
    (hlaid : LaidOut env.types headers' env.prog h id) {h' i : ℤ}
    (hl : headers'.linkOf env.p4Name h' = some i) :
    LaidOut env.types headers' env.prog h' i := by
  rcases linkOf_cases hlinks hl with ⟨rfl, rfl⟩ | ⟨-, hl⟩
  · exact hlaid
  · obtain ⟨n, t, uid, T, hn, ht, huid, hT, heq⟩ := hm.typed h' i hl
    exact ⟨n, t, uid, T, hn, ht, (hlinks.names i (hm.table.used _ h' i hl)).trans huid, hT, heq⟩

/-- The state that is linked now extracts what its header is linked to, and no other
state is linked to it yet. -/
theorem stands_link (hm : Mapped env states rpStates headers₀ m) {k : ℕ} {st : ParseState ℕ}
    (hops : ext.newParseState.parserOps = [.extract id]) (hst : states[k]? = some st)
    (hfirst : st.firstHeader = some h) (hunlinked : m.headers.linkOf env.p4Name h = none)
    (hlinks : m.headers.Links headers' env.p4Name h id)
    (hpending : ∀ k : ℕ, m.parseStateLinked[k]? ≠ some (some name))
    {j : ℕ} {st' : ParseState ℕ} {n : String} {e : ParseStateExt} {h' i : ℤ}
    (hst' : states[j]? = some st')
    (hj : (m.parseStateLinked.set k (some name))[j]? = some (some n))
    (he : (m.linkedParseState.insert name ext).lookup n = some e)
    (hi : e.newParseState.parserOps = [.extract i]) (hfirst' : st'.firstHeader = some h') :
    headers'.linkOf env.p4Name h' = some i := by
  rw [List.getElem?_set] at hj
  split_ifs at hj with hjk
  · -- The state that is linked now.
    subst hjk
    obtain rfl := Option.some.inj (Option.some.inj hj)
    obtain rfl := Option.some.inj (hst.symm.trans hst')
    obtain rfl := Option.some.inj (hfirst.symm.trans hfirst')
    rw [AList.lookup_insert] at he
    obtain rfl := Option.some.inj he
    rw [hops] at hi
    cases hi
    rw [hlinks.linkOf, if_pos ⟨rfl, rfl⟩]
  · rcases lookup_insert_cases he with ⟨rfl, rfl⟩ | ⟨-, hold⟩
    · exact absurd hj (hpending j)
    · have hl := hm.stands j st' n e h' i hst' hj hold hi hfirst'
      rw [hlinks.linkOf]
      split_ifs with heq
      · -- Its header would be linked already.
        obtain ⟨-, rfl⟩ := heq
        rw [hunlinked] at hl
        cases hl
      · exact hl

/-- A new state is linked to a header, of the running program or new. -/
theorem put_link (hm : Mapped env states rpStates headers₀ m) {k : ℕ} {st : ParseState ℕ}
    (hname : ext.newParseState.name = name)
    (hops : ext.newParseState.parserOps = [.extract id]) (hst : states[k]? = some st)
    (hfirst : st.firstHeader = some h) (hunlinked : m.headers.linkOf env.p4Name h = none)
    (htable : headers'.Inv)
    (hlinks : m.headers.Links headers' env.p4Name h id)
    (hlaid : LaidOut env.types headers' env.prog h id)
    (hk : m.parseStateLinked[k]? = some none)
    (hfree : ∀ h', m.headers.linkOf env.p4Name h' ≠ some id)
    (hfresh : ∀ n e, m.linkedParseState.lookup n = some e →
      e.newParseState.parserOps ≠ [.extract id])
    (hpending : ∀ k : ℕ, m.parseStateLinked[k]? ≠ some (some name))
    (horigin : (∃ rpSt ∈ rpStates, name = rpSt.name ∧ rpSt.parserOps = [.extract id]) ∨
      name = env.p4Name ++ "." ++ st.name) :
    Mapped env states rpStates headers₀
      ⟨headers', linkTable, stateId, m.linkedParseState.insert name ext,
        m.parseStateLinked.set k (some name)⟩ where
  table := htable
  kept i hi := by
    obtain ⟨hmem, hn⟩ := hm.kept i hi
    refine ⟨?_, (hlinks.names i hmem).trans hn⟩
    rw [hlinks.uids]
    exact Finset.mem_insert_of_mem hmem
  others q h' hq := by
    rw [hlinks.linkOf, if_neg fun heq => hq heq.1]
    exact hm.others q h' hq
  own h' i hl := by
    -- A link is the one just made, to the state it was made for, or it was there before.
    rcases linkOf_cases hlinks hl with ⟨rfl, rfl⟩ | ⟨-, hl⟩
    · exact ⟨k, st, name, hst, hfirst, linked_set_self hk⟩
    · obtain ⟨j, st', n, hst', hfirst', hj⟩ := hm.own h' i hl
      exact ⟨j, st', n, hst', hfirst', linked_set hk hj⟩
  oneHeader h₁ h₂ i hl₁ hl₂ := by
    rcases linkOf_cases hlinks hl₁ with ⟨rfl, rfl⟩ | ⟨-, hl₁⟩
    · rcases linkOf_cases hlinks hl₂ with ⟨rfl, -⟩ | ⟨-, hl₂⟩
      · rfl
      · exact absurd hl₂ (hfree h₂)
    · -- The header of the new link was free, so no other link leads to it.
      rcases linkOf_cases hlinks hl₂ with ⟨rfl, rfl⟩ | ⟨-, hl₂⟩
      · exact absurd hl₁ (hfree h₁)
      · exact hm.oneHeader h₁ h₂ i hl₁ hl₂
  typed _ _ := hm.typed_link hlinks hlaid
  entry _ _ := by
    refine hm.entry_insert hname hops ?_ fun i hi => ?_
    · rw [hlinks.uids]
      exact Finset.mem_insert_self _ _
    · rw [hlinks.uids]
      exact Finset.mem_insert_of_mem hi
  distinct _ _ _ _ _ := hm.distinct_insert hops hfresh
  origin n e he := by
    rcases lookup_insert_cases he with ⟨rfl, rfl⟩ | ⟨-, hold⟩
    · rcases horigin with ⟨rpSt, hmem, hn, hrp⟩ | hn
      · exact .inl ⟨rpSt, hmem, hn, .inr (hops.trans hrp.symm)⟩
      · exact .inr ⟨k, st, hst, hn, linked_set_self hk⟩
    · refine (hm.origin n e hold).imp_right fun hold => ?_
      obtain ⟨j, st', hst', hn, hj⟩ := hold
      exact ⟨j, st', hst', hn, linked_set hk hj⟩
  linkedName j n hj := by
    rw [List.getElem?_set] at hj
    split_ifs at hj with hjk
    · subst hjk
      obtain rfl := Option.some.inj (Option.some.inj hj)
      refine horigin.imp (fun hrp => ?_) fun hn => ⟨st, hst, hn⟩
      obtain ⟨rpSt, hmem, hn, -⟩ := hrp
      exact ⟨rpSt, hmem, hn⟩
    · exact hm.linkedName j n hj
  stands _ _ _ _ _ _ := hm.stands_link hops hst hfirst hunlinked hlinks hpending

/-- A new state that extracts nothing is linked or copied. -/
theorem link_none (hm : Mapped env states rpStates headers₀ m) {k : ℕ} {st : ParseState ℕ}
    (hname : ext.newParseState.name = name) (hops : ext.newParseState.parserOps = [])
    (hst : states[k]? = some st) (hk : m.parseStateLinked[k]? = some none)
    (horigin : (∃ rpSt ∈ rpStates, name = rpSt.name) ∨ name = env.p4Name ++ "." ++ st.name) :
    Mapped env states rpStates headers₀
      ⟨m.headers, linkTable, stateId, m.linkedParseState.insert name ext,
        m.parseStateLinked.set k (some name)⟩ := by
  obtain ⟨hlt, -⟩ := List.getElem?_eq_some_iff.mp hk
  refine hm.put_none hname hops ?_ ?_ ?_
  · intro j n hj
    rw [List.getElem?_set_ne, hj]
    rintro rfl
    rw [hk] at hj
    cases hj
  · intro j n hj
    rw [List.getElem?_set] at hj
    split_ifs at hj with hjk
    · subst hjk
      obtain rfl := Option.some.inj (Option.some.inj hj)
      exact .inr ⟨rfl, horigin.imp_right fun hn => ⟨st, hst, hn⟩⟩
    · exact .inl hj
  · exact horigin.imp_right fun hn => ⟨k, st, hst, hn, List.getElem?_set_self hlt⟩

end Mapped

/-! ## The loops -/

/-- What the two parsers need for their headers to be linked well. -/
structure Ready (env : Env) (states rpStates : List (ParseState ℕ)) (headers₀ : HeaderUidTable) :
    Prop where
  /-- A state that comes twice extracts nothing. -/
  nameOnce : ∀ (k k' : ℕ) (st st' : ParseState ℕ), states[k]? = some st → states[k']? = some st' →
    st.name = st'.name → k = k' ∨ st.firstHeader = none
  /-- No header is extracted first by two states. -/
  headerOnce : ∀ (k k' : ℕ) (st st' : ParseState ℕ) h, states[k]? = some st →
    states[k']? = some st' → st.firstHeader = some h → st'.firstHeader = some h → k = k'
  running : ∀ rpSt ∈ rpStates, rpSt.parserOps = [] ∨
    ∃ id ∈ headers₀.linkerUids, rpSt.parserOps = [.extract id]
  apart : rpStates.Pairwise Apart
  newNames : ∀ rpSt ∈ rpStates, ∀ st ∈ states, rpSt.name ≠ env.p4Name ++ "." ++ st.name
  running_type : ∀ id ∈ headers₀.linkerUids, ∀ rt, env.rp.typeOfHeaderId id = some rt →
    headers₀.linkerHeaderIdTypeNameMap id = some rt
  type_link : ∀ n t uid, env.prog.headerTypes.lookup n = some t →
    env.types.getHeaderTypeMapping env.p4Name n uid = .headerTypeDefMatch →
    ∃ T, env.types.linkerHeaderTypes.lookup uid = some T ∧ t.layout = T.layout
  new_type : ∀ n t, env.prog.headerTypes.lookup n = some t →
    ∃ uid T, env.types.getLinkerHeaderType env.p4Name n = some uid ∧
      env.types.linkerHeaderTypes.lookup uid = some T ∧ t.layout = T.layout

theorem findLink_spec {rpSt st : ParseState ℕ} {l : List (ParseState ℕ × Option String)} {i j : ℕ}
    {headers : HeaderUidTable} {ext : ParseStateExt}
    (h : findLink env rpSt i l headers = .ok (some (j, st, ext, headers'))) :
    ∃ d, j = i + d ∧ l[d]? = some (st, none) ∧
      canLinkParserStates env st rpSt (.new rpSt.name rpSt.id .mapExistingId) headers =
        .ok (some (ext, headers')) := by
  induction l generalizing i with
  | nil => cases h
  | cons x l ih =>
    obtain ⟨st', _ | name⟩ := x
    · rw [findLink] at h
      obtain ⟨res, hres, h⟩ := bind_eq_ok h
      cases res with
      | none =>
        obtain ⟨d, rfl, hd, hcan⟩ := ih h
        exact ⟨d + 1, by omega, hd, hcan⟩
      | some res =>
        cases h
        exact ⟨0, rfl, rfl, hres⟩
    · obtain ⟨d, rfl, hd, hcan⟩ := ih h
      exact ⟨d + 1, by omega, hd, hcan⟩

/-- A header of a state that is not done is not linked. -/
theorem Mapped.unlinked (hm : Mapped env states rpStates headers₀ m)
    (hr : Ready env states rpStates headers₀) {k : ℕ} {st : ParseState ℕ} {h : ℤ}
    (hst : states[k]? = some st) (hk : m.parseStateLinked[k]? = some none)
    (hfirst : st.firstHeader = some h) : m.headers.linkOf env.p4Name h = none := by
  rcases hl : m.headers.linkOf env.p4Name h with - | id
  · rfl
  · obtain ⟨j, st', name, hst', hfirst', hj⟩ := hm.own h id hl
    obtain rfl := hr.headerOnce k j st st' h hst hst' hfirst hfirst'
    rw [hk] at hj
    cases hj

/-- What is known of the running states that are still to be taken. -/
def Pending (env : Env) (m : Mapping) (rpSt : ParseState ℕ) : Prop :=
  ∀ id, rpSt.parserOps = [.extract id] →
    (∀ k : ℕ, m.parseStateLinked[k]? ≠ some (some rpSt.name)) ∧
      (∀ h, m.headers.linkOf env.p4Name h ≠ some id) ∧
      ∀ n e, m.linkedParseState.lookup n = some e → e.newParseState.parserOps ≠ [.extract id]

/-- It stays known while one of them is taken. -/
theorem Pending.step {a b : ParseState ℕ} {ext : ParseStateExt} {linkTable : UidTable String}
    {stateId : ℤ} {linked : List (Option String)} (hb : Pending env m b) (hapart : Apart a b)
    (hops : ext.newParseState.parserOps = [] ∨ ext.newParseState.parserOps = a.parserOps)
    (hlinked : ∀ (k : ℕ) n, linked[k]? = some (some n) →
      m.parseStateLinked[k]? = some (some n) ∨ n = a.name)
    (hlinks : ∀ h id, headers'.linkOf env.p4Name h = some id →
      m.headers.linkOf env.p4Name h = some id ∨ a.parserOps = [.extract id]) :
    Pending env ⟨headers', linkTable, stateId, m.linkedParseState.insert a.name ext, linked⟩ b := by
  intro id hid
  obtain ⟨hstate, hlink, hentry⟩ := hb id hid
  refine ⟨fun k hk => ?_, fun h hl => ?_, fun n e he hops' => ?_⟩
  · rcases hlinked k b.name hk with hk | hname
    · exact hstate k hk
    · obtain ⟨-, hnone⟩ := hapart.1 hname.symm
      rw [hid] at hnone
      cases hnone
  · rcases hlinks h id hl with hl | ha
    · exact hlink h hl
    · exact hapart.2 id ha hid
  · rcases lookup_insert_cases he with ⟨-, rfl⟩ | ⟨-, he⟩
    · rcases hops with hops | hops
      · rw [hops] at hops'
        cases hops'
      · exact hapart.2 id (hops.symm.trans hops') hid
    · exact hentry n e he hops'

/-- **A running state is taken.** -/
theorem mapRpState_step (hr : Ready env states rpStates headers₀) {rpSt : ParseState ℕ}
    (hmem : rpSt ∈ rpStates) (hapart : ∀ b ∈ rest, Apart rpSt b)
    (hm : Mapped env states rpStates headers₀ m) (hpending : ∀ a ∈ rpSt :: rest, Pending env m a)
    (h : mapRpState env states m rpSt = .ok m') :
    Mapped env states rpStates headers₀ m' ∧ ∀ a ∈ rest, Pending env m' a := by
  have hone : rpSt.OneOp := (hr.running rpSt hmem).imp_right fun hid => by
    obtain ⟨id, -, hops⟩ := hid
    exact ⟨id, hops⟩
  have hrest : ∀ b ∈ rest, Pending env m b ∧ Apart rpSt b := fun b hb =>
    ⟨hpending b (List.mem_cons_of_mem _ hb), hapart b hb⟩
  rw [mapRpState] at h
  obtain ⟨found, hfound, h⟩ := bind_eq_ok h
  rcases found with - | ⟨i, st, ext, headers'⟩
  · -- The state is copied.
    obtain ⟨⟨ext, headers'⟩, hadd, h⟩ := bind_eq_ok h
    obtain ⟨hname, hops, rfl⟩ := addParserState_running hone hadd
    obtain rfl := Except.ok.inj h
    refine ⟨?_, fun b hb => (hrest b hb).1.step (hrest b hb).2 (.inr hops) (fun k n hk => .inl hk)
      fun h id hl => .inl hl⟩
    rcases hr.running rpSt hmem with hnil | ⟨id, hid, hrp⟩
    · exact hm.put_none hname (hops.trans hnil) (fun k n hk => hk) (fun k n hk => .inl hk)
        (.inl ⟨rpSt, hmem, rfl⟩)
    · obtain ⟨hstate, hlink, hentry⟩ := hpending rpSt List.mem_cons_self id hrp
      exact hm.put_copy hname (hops.trans hrp) (hm.kept id hid).1 hentry hstate
        ⟨rpSt, hmem, rfl, hrp⟩
  · -- A new state is linked to it.
    obtain rfl := Except.ok.inj h
    obtain ⟨d, hi, hd, hcan⟩ := findLink_spec hfound
    obtain rfl : i = d := by omega
    obtain ⟨hst, hk⟩ := List.getElem?_zip_eq_some.mp hd
    have hlinked : ∀ (k : ℕ) n,
        (m.parseStateLinked.set i (some rpSt.name))[k]? = some (some n) →
        m.parseStateLinked[k]? = some (some n) ∨ n = rpSt.name := by
      intro k n hk'
      rw [List.getElem?_set] at hk'
      split_ifs at hk' with heq
      · exact .inr (Option.some.inj (Option.some.inj hk')).symm
      · exact .inl hk'
    obtain ⟨hname, ⟨hops, rfl⟩ | ⟨headerId, id, t, rt, hfirst, hrp, hops, ht, hrt, hmap, rfl⟩⟩ :=
      canLinkParserStates_spec hone hcan
    · exact ⟨hm.link_none hname hops hst hk (.inl ⟨rpSt, hmem, rfl⟩),
        fun b hb => (hrest b hb).1.step (hrest b hb).2 (.inl hops) hlinked fun h id hl => .inl hl⟩
    · obtain ⟨hstate, hlink, hentry⟩ := hpending rpSt List.mem_cons_self id hrp
      have hid : id ∈ headers₀.linkerUids := by
        rcases hr.running rpSt hmem with hnil | ⟨id', hid', hrp'⟩
        · rw [hrp] at hnil
          cases hnil
        · rw [hrp] at hrp'
          cases hrp'
          exact hid'
      obtain ⟨hid', hnames⟩ := hm.kept id hid
      have hunlinked := hm.unlinked hr hst hk hfirst
      obtain ⟨htable, hlinks⟩ := HeaderUidTable.linkHeaderIds_spec hm.table hunlinked hid'
      obtain ⟨ty, hty⟩ := env.prog.lookup_of_typeOfHeaderId ht
      obtain ⟨T, hT, hlayout⟩ := hr.type_link t ty rt hty hmap
      have hlaid : LaidOut env.types (m.headers.linkHeaderIds env.p4Name headerId id).2 env.prog
          headerId id :=
        ⟨t, ty, rt, T, ht, hty,
          (hlinks.names id hid').trans (hnames.trans (hr.running_type id hid rt hrt)), hT, hlayout⟩
      refine ⟨hm.put_link hname hops hst hfirst hunlinked htable hlinks hlaid hk hlink hentry hstate
        (.inl ⟨rpSt, hmem, rfl, hrp⟩), fun b hb => (hrest b hb).1.step (hrest b hb).2
          (.inr (hops.trans hrp.symm)) hlinked fun h' id' hl => ?_⟩
      rw [hlinks.linkOf] at hl
      split_ifs at hl
      · obtain rfl := Option.some.inj hl
        exact .inr hrp
      · exact .inl hl

/-- **A new state that is left is copied.** -/
theorem mapNewState_step (hr : Ready env states rpStates headers₀) {x : ParseState ℕ × ℕ}
    (hx : states[x.2]? = some x.1) (hm : Mapped env states rpStates headers₀ m)
    (h : mapNewState env m x = .ok m') : Mapped env states rpStates headers₀ m' := by
  obtain ⟨st, k⟩ := x
  rw [mapNewState] at h
  split at h
  · next hk =>
    obtain ⟨⟨ext, headers'⟩, hadd, h⟩ := bind_eq_ok h
    obtain rfl := Except.ok.inj h
    obtain ⟨hname, ⟨-, hops, rfl⟩ | ⟨headerId, headerName, t, hfirst, ht, hops, rfl⟩⟩ :=
      addParserState_new hadd
    · exact hm.link_none hname hops hx hk (.inr rfl)
    · have hunlinked := hm.unlinked hr hx hk hfirst
      obtain ⟨id, headers', hcall, hid, htable, hlinks, huid⟩ :=
        HeaderUidTable.linkNewHeaderId_spec env.types headerName t hm.table hunlinked
      rw [hcall] at hops ⊢
      obtain ⟨ty, hty⟩ := env.prog.lookup_of_typeOfHeaderId ht
      obtain ⟨uid, T, hget, hT, hlayout⟩ := hr.new_type t ty hty
      have hlaid : LaidOut env.types headers' env.prog headerId id := by
        refine ⟨t, ty, uid, T, ht, hty, ?_, hT, hlayout⟩
        rw [huid, hget, Option.getD_some]
      refine hm.put_link hname hops hx hfirst hunlinked htable hlinks hlaid hk ?_ ?_ ?_ (.inr rfl)
      · intro h' hl
        exact hid (hm.table.used _ h' id hl)
      · intro n e he hops'
        rcases (hm.entry n e he).2 with hnil | ⟨i, hi, hops''⟩
        · rw [hnil] at hops'
          cases hops'
        · rw [hops''] at hops'
          cases hops'
          exact hid hi
      · -- The name is new: it is no running state's, and no state of that name is done.
        intro j hj
        rcases hm.linkedName j _ hj with ⟨rpSt, hmem, hn⟩ | ⟨st', hst', hn⟩
        · exact hr.newNames rpSt hmem st (List.mem_of_getElem? hx) hn.symm
        · rcases hr.nameOnce k j st st' hx hst' ((String.append_right_inj _).mp hn) with rfl | hnone
          · rw [hk] at hj
            cases hj
          · rw [hfirst] at hnone
            cases hnone
  · obtain rfl := Except.ok.inj h
    exact hm

/-- **The states are mapped.** -/
theorem mapOrderedParserStates_spec (hr : Ready env states rpStates headers₀)
    (htable : headers₀.Inv) (hfresh : ∀ h, headers₀.linkOf env.p4Name h = none)
    {linkTable : UidTable String} {stateId : ℤ}
    (h : mapOrderedParserStates env states rpStates headers₀ linkTable stateId = .ok m) :
    Mapped env states rpStates headers₀ m := by
  rw [mapOrderedParserStates] at h
  obtain ⟨m₁, hm₁, h⟩ := bind_eq_ok h
  have hlinkNone : ∀ h' id, headers₀.linkOf env.p4Name h' ≠ some id := by
    intro h' id hl
    rw [hfresh] at hl
    cases hl
  have hnotLinked : ∀ (k : ℕ) name, (states.map fun _ => (none : Option String))[k]? ≠
      some (some name) := by
    intro k name hk
    rw [List.getElem?_map] at hk
    obtain ⟨-, -, hk⟩ := Option.map_eq_some_iff.mp hk
    cases hk
  -- The states of the running program come first. What is still to be visited is pending: nothing
  -- is linked to the headers it extracts.
  have hmapped₁ := foldlM_invariant
    (fun rest m => Mapped env states rpStates headers₀ m ∧ rest <:+ rpStates ∧
      ∀ a ∈ rest, Pending env m a) ?_ ?_ hm₁
  · obtain ⟨hmapped₁, -, -⟩ := hmapped₁
    -- Then the states of the new program, each by its place in the order.
    refine (foldlM_invariant (fun rest m => Mapped env states rpStates headers₀ m ∧
      rest ⊆ states.zipIdx) ?_ ⟨hmapped₁, fun x hx => hx⟩ h).1
    rintro ⟨st, k⟩ rest m m' ⟨hm, hsub⟩ hstep
    have hst := List.mem_zipIdx_iff_getElem?.mp (hsub List.mem_cons_self)
    exact ⟨mapNewState_step hr hst hm hstep, fun y hy => hsub (List.mem_cons_of_mem _ hy)⟩
  · rintro a rest m m' ⟨hm, hsuffix, hpending⟩ hstep
    have hpair := hr.apart.sublist hsuffix.sublist
    obtain ⟨hm', hpending'⟩ := mapRpState_step hr (hsuffix.subset List.mem_cons_self)
      (List.pairwise_cons.mp hpair).1 hm hpending hstep
    exact ⟨hm', (List.suffix_cons a rest).trans hsuffix, hpending'⟩
  · refine ⟨⟨htable, fun id hid => ⟨hid, rfl⟩, fun q h' hq => rfl, ?_, ?_, ?_, ?_, ?_, ?_, ?_, ?_⟩,
      List.suffix_refl _, ?_⟩
    · intro h' id hl
      exact absurd hl (hlinkNone h' id)
    · intro h' h'' id hl
      exact absurd hl (hlinkNone h' id)
    · intro h' id hl
      exact absurd hl (hlinkNone h' id)
    · intro name ext he
      cases he
    · intro name name' ext ext' id he
      cases he
    · intro name ext he
      cases he
    · intro k name hk
      exact absurd hk (hnotLinked k name)
    · intro k st name ext h' id hst hk
      exact absurd hk (hnotLinked k name)
    · intro a ha id hid
      refine ⟨fun k => hnotLinked k _, fun h' => hlinkNone h' id, fun n e he => ?_⟩
      cases he

/-! ## The transitions -/

/-- Both have states of the same names, with the same ops. -/
def SameOps (linked linked' : NameMap ParseStateExt) : Prop :=
  ∀ n, (linked'.lookup n).map (fun e => (e.newParseState.name, e.newParseState.parserOps)) =
    (linked.lookup n).map fun e => (e.newParseState.name, e.newParseState.parserOps)

theorem SameOps.trans {l₁ l₂ l₃ : NameMap ParseStateExt} (h₁ : SameOps l₁ l₂)
    (h₂ : SameOps l₂ l₃) : SameOps l₁ l₃ := fun n => (h₂ n).trans (h₁ n)

/-- A state is replaced by one with its name and its ops. -/
theorem sameOps_insert {linked : NameMap ParseStateExt} {name : String} {e e' : ParseStateExt}
    (he : linked.lookup name = some e) (hname : e'.newParseState.name = e.newParseState.name)
    (hops : e'.newParseState.parserOps = e.newParseState.parserOps) :
    SameOps linked (linked.insert name e') := by
  intro n
  by_cases hn : n = name
  · subst hn
    rw [AList.lookup_insert, he, Option.map_some, Option.map_some, hname, hops]
  · rw [AList.lookup_insert_ne hn]

theorem sameOps_addCase (linked : NameMap ParseStateExt) (name : String) (key : List UInt8)
    (next : String) : SameOps linked (addCase linked name key next) := by
  rw [addCase]
  split
  · next ext he => exact sameOps_insert he rfl rfl
  · exact fun n => rfl

/-- The merge of the cases changes nothing else, however deep it goes. -/
theorem sameOps_merge (linkTable : UidTable String) (fuel : ℕ) :
    (∀ t linked code linked', mergeSwitchCases env linkTable fuel t linked = .ok (code, linked') →
      SameOps linked linked') ∧
    (∀ name cases rpCases linked code linked',
      mergeCases env linkTable fuel name cases rpCases linked = .ok (code, linked') →
      SameOps linked linked') := by
  -- The two functions call each other, so the induction is on the fuel they share.
  induction fuel with
  | zero =>
    constructor
    · intro t linked code linked' h
      cases h
    · intro name cases rpCases linked code linked' h
      cases h
  | succ fuel ih =>
    obtain ⟨ihMerge, ihCases⟩ := ih
    constructor
    · intro t linked code linked' h
      rw [mergeSwitchCases] at h
      obtain ⟨ext, -, h⟩ := bind_eq_ok h
      split at h
      · cases h
        exact fun n => rfl
      · exact ihCases _ _ _ _ _ _ h
    · intro name cases rpCases linked code linked' h
      rw [mergeCases.eq_def] at h
      dsimp only at h
      split at h
      · -- No new case is left: what is merged is the first case of the running program.
        obtain ⟨found, -, h⟩ := bind_eq_ok h
        rcases found with - | ⟨ct, rpCases'⟩
        · cases h
          exact fun n => rfl
        · obtain ⟨⟨code₁, linked₁⟩, hmerge, h⟩ := bind_eq_ok h
          have hthis := (ihMerge _ _ _ _ hmerge).trans (sameOps_addCase linked₁ name ct.key ct.target.name)
          dsimp only at h
          split_ifs at h
          · exact hthis.trans (ihCases _ _ _ _ _ _ h)
          · cases h
            exact hthis
      · -- The first new case is merged.
        obtain ⟨ct, -, h⟩ := bind_eq_ok h
        obtain ⟨⟨code₁, linked₁⟩, hmerge, h⟩ := bind_eq_ok h
        have hthis := (ihMerge _ _ _ _ hmerge).trans (sameOps_addCase linked₁ name ct.key ct.target.name)
        dsimp only at h
        split_ifs at h
        · exact hthis.trans (ihCases _ _ _ _ _ _ h)
        · cases h
          exact hthis
      · split at h
        · next ext he =>
          cases h
          exact sameOps_insert he rfl rfl
        · cases h
          exact fun n => rfl

/-- What the loops keep does not depend on the transitions. -/
theorem Mapped.congr_ops (hm : Mapped env states rpStates headers₀ m)
    {linked : NameMap ParseStateExt} (hsame : SameOps m.linkedParseState linked) :
    Mapped env states rpStates headers₀ { m with linkedParseState := linked } := by
  have hold : ∀ n e, linked.lookup n = some e → ∃ e₀, m.linkedParseState.lookup n = some e₀ ∧
      e.newParseState.name = e₀.newParseState.name ∧
      e.newParseState.parserOps = e₀.newParseState.parserOps := by
    intro n e he
    have hn := hsame n
    rw [he, Option.map_some] at hn
    obtain ⟨e₀, he₀, heq⟩ := Option.map_eq_some_iff.mp hn.symm
    obtain ⟨hname, hops⟩ := Prod.mk.inj heq
    exact ⟨e₀, he₀, hname.symm, hops.symm⟩
  refine { hm with entry := ?_, distinct := ?_, origin := ?_, stands := ?_ }
  · intro n e he
    obtain ⟨e₀, he₀, hname, hops⟩ := hold n e he
    rw [hname, hops]
    exact hm.entry n e₀ he₀
  · intro n n' e e' id he he' hid hid'
    obtain ⟨e₀, he₀, -, hops⟩ := hold n e he
    obtain ⟨e₀', he₀', -, hops'⟩ := hold n' e' he'
    exact hm.distinct n n' e₀ e₀' id he₀ he₀' (hops.symm.trans hid) (hops'.symm.trans hid')
  · intro n e he
    obtain ⟨e₀, he₀, -, hops⟩ := hold n e he
    rw [hops]
    exact hm.origin n e₀ he₀
  · intro k st n e h id hst hk he hid hfirst
    obtain ⟨e₀, he₀, -, hops⟩ := hold n e he
    exact hm.stands k st n e₀ h id hst hk he₀ (hops.symm.trans hid) hfirst

end LinkParsers

end Linker

end P4Bricks
