import P4Bricks.Common.Runs
import P4Bricks.Linker.MappedHeaders
/-!
# The headers of a merged parser

Every header that the merged parser extracts should be known to the table of
headers, have a type laid out as that of the program's header it stands for, stand
for one header of a program at most, and be the same wherever the program extracts
that header. `link_new_header_id` picks an id for a header each time it is
extracted. When the header has one already the new id is used all the same, without
being in the table.

All is well in the runs where a header is extracted first by one state of its
program, no running state that extracts comes twice in the order of the states,
types with one uid have one layout, and the names of the programs and of their types
and states do not clash.
-/

namespace P4Bricks

namespace Linker

/-! ## The order of the states -/

namespace P4Objects

variable {p : P4Objects}

/-- A state is found under its name. -/
theorem graph_spec {g : Graph} (h : p.graph = .ok g) {n : String} {i : ℕ}
    (hn : g.nameParseState.lookup n = some i) : ∃ st, p.parseStates[i]? = some st ∧ st.name = n := by
  refine foldlM_invariant (fun l g => l ⊆ p.parseStates.zipIdx ∧ ∀ n i,
    g.nameParseState.lookup n = some i → ∃ st, p.parseStates[i]? = some st ∧ st.name = n) ?_
    ⟨fun x hx => hx, fun n i hn => by cases hn⟩ h |>.2 n i hn
  rintro ⟨st, k⟩ l g g' ⟨hsub, hg⟩ hstep
  have hst := List.mem_zipIdx_iff_getElem?.mp (hsub List.mem_cons_self)
  refine ⟨fun x hx => hsub (List.mem_cons_of_mem _ hx), fun n i hn => ?_⟩
  obtain ⟨names, -, hstep⟩ := bind_eq_ok hstep
  obtain rfl := Except.ok.inj hstep
  dsimp only at hn
  split_ifs at hn
  · exact hg n i hn
  · rcases lookup_insert_cases hn with ⟨rfl, rfl⟩ | ⟨-, hn⟩
    · exact ⟨st, hst, rfl⟩
    · exact hg n i hn

/-- States in the order that have one name are one state. -/
theorem orderedParseStates_name {fuel : ℕ} {order : List ℕ}
    (h : p.orderedParseStates fuel = .ok order) {k k' i i' : ℕ} {st st' : ParseState ℕ}
    (hk : order[k]? = some i) (hk' : order[k']? = some i') (hst : p.parseStates[i]? = some st)
    (hst' : p.parseStates[i']? = some st') (hname : st.name = st'.name) : i = i' := by
  rw [orderedParseStates] at h
  obtain ⟨g, hg, h⟩ := bind_eq_ok h
  obtain ⟨init, -, h⟩ := bind_eq_ok h
  obtain ⟨names, -, h⟩ := bind_eq_ok h
  have hall := forall₂_of_mapM h
  have hfind : ∀ (k i : ℕ) (st : ParseState ℕ), order[k]? = some i → p.parseStates[i]? = some st →
      g.nameParseState.lookup st.name = some i := by
    intro k i st hk hst
    obtain ⟨name, -, hname⟩ := forall₂_getElem? hall.flip hk
    have hlookup := deref_eq_ok hname
    obtain ⟨st', hst', rfl⟩ := graph_spec hg hlookup
    obtain rfl := Option.some.inj (hst.symm.trans hst')
    exact hlookup
  have hi := hfind k i st hk hst
  have hi' := hfind k' i' st' hk' hst'
  rw [hname, hi'] at hi
  exact (Option.some.inj hi).symm

end P4Objects

/-! ## The table of types -/

namespace HeaderTypeUidTable

variable {table : HeaderTypeUidTable} {p4Name : String}

/-- What a program's types do to the table. -/
structure TypesMapped (table table' : HeaderTypeUidTable) (p4Name : String)
    (types : List (String × HeaderType)) : Prop where
  inserts : ∃ ks, table'.linkTable = .inserted ks
  kept : ∀ name r, table.linkTable.fqnToLinker name = some r →
    table'.linkTable.fqnToLinker name = some r
  linked : ∀ x ∈ types, table'.linkTable.fqnToLinker (UidTable.fqn p4Name x.1) =
    some ⟨"Linker", x.2.uidFromFieldSeq, .headerTypeDefMatch⟩
  typed : ∀ x ∈ types, ∃ T, table'.linkerHeaderTypes.lookup x.2.uidFromFieldSeq = some T ∧
    x.2.layout = T.layout
  typesKept : ∀ uid T, table.linkerHeaderTypes.lookup uid = some T →
    ∃ T', table'.linkerHeaderTypes.lookup uid = some T' ∧ T.layout = T'.layout

/-- A type whose name is free is mapped to its own uid. -/
theorem mapType_spec (hi : ∃ ks, table.linkTable = .inserted ks) {x : String × HeaderType}
    (hfree : table.linkTable.fqnToLinker (UidTable.fqn p4Name x.1) = none) :
    (∃ ks, (mapType p4Name table x).linkTable = .inserted ks) ∧
      (mapType p4Name table x).linkTable.fqnToLinker =
        Function.update table.linkTable.fqnToLinker (UidTable.fqn p4Name x.1)
          (some ⟨"Linker", x.2.uidFromFieldSeq, .headerTypeDefMatch⟩) ∧
      (mapType p4Name table x).linkerHeaderTypes =
        table.linkerHeaderTypes.insert x.2.uidFromFieldSeq
          (dcHeaderType x.2.uidFromFieldSeq table.headerTypeId x.2) := by
  obtain ⟨ks, hks⟩ := hi
  let k : UidTable.Link String := ⟨p4Name, x.1, x.2.uidFromFieldSeq, .headerTypeDefMatch⟩
  rcases hstep : table.linkTable.step (.insert k) with ⟨code, t'⟩
  have hcall : table.linkTable.insertP4objectsLink p4Name x.1 x.2.uidFromFieldSeq
      .headerTypeDefMatch = (code, t') := hstep
  rcases UidTable.insert_cases hstep with ⟨hname, -, -⟩ | ⟨hback, -, -⟩ | ⟨-, -, rfl, hfwd, -⟩
  · exact absurd hfree hname
  · rw [hks] at hback hfree
    exact absurd hfree (UidTable.fqn_of_back ks hback)
  · rw [mapType]
    simp only [hcall]
    refine ⟨⟨ks ++ [k], ?_⟩, hfwd, trivial⟩
    rw [UidTable.inserted_concat, ← hks, hstep]

theorem layout_dcHeaderType (name : String) (id : ℤ) (t : HeaderType) :
    (dcHeaderType name id t).layout = t.layout := rfl

/-- **The types of a program are mapped**, each to its own uid. -/
theorem initTypeMapping_spec {types : List (String × HeaderType)}
    (hi : ∃ ks, table.linkTable = .inserted ks) (hnodup : (types.map Prod.fst).Nodup)
    (hfree : ∀ x ∈ types, table.linkTable.fqnToLinker (UidTable.fqn p4Name x.1) = none)
    (hold : ∀ x ∈ types, ∀ T, table.linkerHeaderTypes.lookup x.2.uidFromFieldSeq = some T →
      x.2.layout = T.layout)
    (hnew : ∀ x ∈ types, ∀ y ∈ types, x.2.uidFromFieldSeq = y.2.uidFromFieldSeq →
      x.2.layout = y.2.layout) :
    TypesMapped table (table.initTypeMapping p4Name types) p4Name types := by
  induction types generalizing table with
  | nil =>
    refine ⟨hi, fun _ _ hr => hr, ?_, ?_, fun uid T hT => ⟨T, hT, rfl⟩⟩
    · intro x hx
      cases hx
    · intro x hx
      cases hx
  | cons x types ih =>
    obtain ⟨hi', hfwd, htypes⟩ := mapType_spec hi (hfree x List.mem_cons_self)
    obtain ⟨hx, hnodup⟩ := List.nodup_cons.mp hnodup
    -- What the table has after the first type is that type or was there before.
    have hlookup : ∀ uid T, (mapType p4Name table x).linkerHeaderTypes.lookup uid = some T →
        (uid = x.2.uidFromFieldSeq ∧ T.layout = x.2.layout) ∨
          table.linkerHeaderTypes.lookup uid = some T := by
      intro uid T hT
      rw [htypes] at hT
      rcases lookup_insert_cases hT with ⟨rfl, rfl⟩ | ⟨-, hT⟩
      · exact .inl ⟨rfl, layout_dcHeaderType _ _ _⟩
      · exact .inr hT
    have hrest := ih hi' hnodup ?_ ?_ fun y hy z hz => hnew y (List.mem_cons_of_mem _ hy) z
      (List.mem_cons_of_mem _ hz)
    · refine ⟨hrest.inserts, ?_, ?_, ?_, ?_⟩
      · intro name r hr
        refine hrest.kept name r ?_
        rw [hfwd, Function.update_of_ne, hr]
        rintro rfl
        rw [hfree x List.mem_cons_self] at hr
        cases hr
      · intro y hy
        rcases List.mem_cons.mp hy with rfl | hy
        · refine hrest.kept _ _ ?_
          rw [hfwd, Function.update_self]
        · exact hrest.linked y hy
      · intro y hy
        rcases List.mem_cons.mp hy with rfl | hy
        · obtain ⟨T, hT, hlayout⟩ := hrest.typesKept y.2.uidFromFieldSeq
            (dcHeaderType y.2.uidFromFieldSeq table.headerTypeId y.2) (by rw [htypes, AList.lookup_insert])
          exact ⟨T, hT, hlayout⟩
        · exact hrest.typed y hy
      · -- A type that was there is kept, or replaced by one of the same layout.
        intro uid T hT
        by_cases huid : uid = x.2.uidFromFieldSeq
        · subst huid
          obtain ⟨T', hT', hlayout⟩ := hrest.typesKept x.2.uidFromFieldSeq
            (dcHeaderType x.2.uidFromFieldSeq table.headerTypeId x.2) (by rw [htypes, AList.lookup_insert])
          exact ⟨T', hT', (hold x List.mem_cons_self T hT).symm.trans hlayout⟩
        · refine hrest.typesKept uid T ?_
          rw [htypes, AList.lookup_insert_ne huid, hT]
    · intro y hy
      rw [hfwd, Function.update_of_ne, hfree y (List.mem_cons_of_mem _ hy)]
      intro heq
      have hname := (String.append_right_inj _).mp heq
      exact hx (List.mem_map.mpr ⟨y, hy, hname⟩)
    · intro y hy T hT
      rcases hlookup _ T hT with ⟨huid, hlayout⟩ | hT
      · exact (hnew y (List.mem_cons_of_mem _ hy) x List.mem_cons_self huid).trans hlayout.symm
      · exact hold y (List.mem_cons_of_mem _ hy) T hT

end HeaderTypeUidTable

/-! ## Runs -/

/-- A program that was added, and the merged state that each of its states got. -/
structure Program where
  p4Name : String
  prog : P4Objects
  order : List ℕ
  parseStateLinked : List (Option String)

/-- The linker, and the programs that were added to it. -/
structure Linked where
  linker : State
  programs : List Program

/-- A call of `add_p4objects`. -/
structure Call where
  fuel : ℕ
  p4Name : String
  prog : P4Objects

namespace Call

variable {c : Call}

/-- The types of the program, in the order in which the map has them. -/
def typeList (c : Call) : List (String × HeaderType) :=
  c.prog.headerTypes.entries.map fun e => (e.1, e.2)

theorem mem_typeList {x : String × HeaderType} :
    x ∈ c.typeList ↔ c.prog.headerTypes.lookup x.1 = some x.2 := by
  rw [← Option.mem_def, AList.mem_lookup_iff, typeList, List.mem_map]
  constructor
  · rintro ⟨e, he, rfl⟩
    exact he
  · exact fun he => ⟨_, he, rfl⟩

end Call

namespace Linked

def empty : Linked := ⟨.empty, []⟩

/-- A program is added. A call that does not return is not survived. -/
def add (s : Linked) (c : Call) : Option Linked :=
  match addP4objects c.fuel s.linker c.p4Name c.prog with
  | .ok added => some
      { linker := added.linker
        programs := s.programs ++ [⟨c.p4Name, c.prog, added.order, added.parseStateLinked⟩] }
  | .error _ => none

/-- The program that is running. -/
def rp (s : Linked) : P4Objects := s.linker.p4objects.getD .empty

end Linked

namespace Program

variable (r : Program) (s : Linked)

/-- In the parser of the program a state extracts header `h` where the state that it
got in the merged parser extracts `id`. -/
def Extracts (h id : ℤ) : Prop :=
  ∃ (k i place : ℕ) (name : String) (st m : ParseState ℕ), r.order[k]? = some i ∧
    r.prog.parseStates[i]? = some st ∧ r.parseStateLinked[k]? = some (some name) ∧
    m ∈ s.rp.parseStates ∧ m.name = name ∧ st.parserOps[place]? = some (.extract h) ∧
    m.parserOps[place]? = some (.extract id)

/-- The merged header `id` stands for header `h` of the program: the table says so, or
it is extracted where `h` is. -/
def StandsFor (h id : ℤ) : Prop :=
  s.linker.headers.linkOf r.p4Name h = some id ∨ r.Extracts s h id

end Program

namespace Linked

variable (s : Linked)

/-- What the headers of the merged parser should be like. -/
structure Consistent : Prop where
  /-- What is extracted is registered. -/
  registered : ∀ m ∈ s.rp.parseStates, ∀ id, .extract id ∈ m.parserOps →
    (s.linker.headers.linkTable.linkerToP4s id).isSome
  /-- It has a type, with the layout of what it stands for. -/
  typed : ∀ m ∈ s.rp.parseStates, ∀ id, .extract id ∈ m.parserOps →
    ∃ uid T, s.linker.headers.linkerHeaderIdTypeNameMap id = some uid ∧
      s.linker.headerTypes.linkerHeaderTypes.lookup uid = some T ∧
      ∀ r ∈ s.programs, ∀ h, r.StandsFor s h id → ∃ n t, r.prog.typeOfHeaderId h = some n ∧
        r.prog.headerTypes.lookup n = some t ∧ t.layout = T.layout
  oneHeader : ∀ r ∈ s.programs, ∀ h h' id, r.StandsFor s h id → r.StandsFor s h' id → h = h'
  oneId : ∀ r ∈ s.programs, ∀ h id id', r.Extracts s h id → r.Extracts s h id' → id = id'

/-- The program can be added and no header goes wrong. -/
@[mk_iff] structure Linkable (c : Call) : Prop where
  /-- No header is extracted first by two of the states that are taken. -/
  headerOnce : ∀ order ∈ (c.prog.orderedParseStates c.fuel).toOption,
    (order.filterMap fun i => c.prog.parseStates[i]?.bind ParseState.firstHeader).Nodup
  /-- No running state that extracts is taken twice. -/
  stateOnce : ∀ order ∈ (s.rp.orderedParseStates c.fuel).toOption,
    (order.filter fun i => s.rp.parseStates[i]?.any fun m => !m.parserOps.isEmpty).Nodup
  /-- Types with one uid have one layout. -/
  oldLayout : ∀ x ∈ c.typeList,
    ∀ T ∈ s.linker.headerTypes.linkerHeaderTypes.lookup x.2.uidFromFieldSeq, x.2.layout = T.layout
  newLayout : ∀ x ∈ c.typeList, ∀ y ∈ c.typeList,
    x.2.uidFromFieldSeq = y.2.uidFromFieldSeq → x.2.layout = y.2.layout
  /-- The names are new. -/
  name : ∀ r ∈ s.programs, r.p4Name ≠ c.p4Name
  typeNames : ∀ x ∈ c.typeList,
    s.linker.headerTypes.linkTable.fqnToLinker (UidTable.fqn c.p4Name x.1) = none
  stateNames : ∀ r ∈ s.programs, ∀ st ∈ c.prog.parseStates,
    some (c.p4Name ++ "." ++ st.name) ∉ r.parseStateLinked

instance (c : Call) : Decidable (s.Linkable c) := decidable_of_iff _ (linkable_iff s c).symm

/-- What the calls keep, if they are made with programs that can be linked. -/
structure Inv : Prop where
  types : ∃ ks, s.linker.headerTypes.linkTable = .inserted ks
  table : s.linker.headers.Inv
  known : ∀ p h id, s.linker.headers.linkOf p h = some id → ∃ r ∈ s.programs, r.p4Name = p
  oneHeader : ∀ p h h' id, s.linker.headers.linkOf p h = some id →
    s.linker.headers.linkOf p h' = some id → h = h'
  laidOut : ∀ r ∈ s.programs, ∀ h id, s.linker.headers.linkOf r.p4Name h = some id →
    LaidOut s.linker.headerTypes s.linker.headers r.prog h id
  ops : ∀ m ∈ s.rp.parseStates, m.parserOps = [] ∨
    ∃ id ∈ s.linker.headers.linkerUids, m.parserOps = [.extract id]
  distinctNames : ∀ (i j : ℕ) (m m' : ParseState ℕ), s.rp.parseStates[i]? = some m →
    s.rp.parseStates[j]? = some m' → m.name = m'.name → i = j
  distinctIds : ∀ (i j : ℕ) (m m' : ParseState ℕ) id, s.rp.parseStates[i]? = some m →
    s.rp.parseStates[j]? = some m' → m.parserOps = [.extract id] →
    m'.parserOps = [.extract id] → i = j
  typeNames : ∀ id ∈ s.linker.headers.linkerUids, ∀ n, s.rp.typeOfHeaderId id = some n →
    s.linker.headers.linkerHeaderIdTypeNameMap id = some n
  stateNames : ∀ m ∈ s.rp.parseStates, ∃ r ∈ s.programs, some m.name ∈ r.parseStateLinked
  stands : ∀ r ∈ s.programs, ∀ (k i : ℕ) (st m : ParseState ℕ) name h id, r.order[k]? = some i →
    r.prog.parseStates[i]? = some st → r.parseStateLinked[k]? = some (some name) →
    m ∈ s.rp.parseStates → m.name = name → m.parserOps = [.extract id] →
    st.firstHeader = some h → s.linker.headers.linkOf r.p4Name h = some id

variable {s} {s' : Linked} {c : Call}

theorem inv_empty : empty.Inv where
  types := ⟨[], rfl⟩
  table := HeaderUidTable.inv_empty
  known _ _ _ h := by cases h
  oneHeader _ _ _ _ h := by cases h
  laidOut _ hr := by cases hr
  ops _ hm := by cases hm
  distinctNames _ _ _ _ hm := by cases hm
  distinctIds _ _ _ _ _ hm := by cases hm
  typeNames _ hid := absurd hid (Finset.notMem_empty _)
  stateNames _ hm := by cases hm
  stands _ hr := by cases hr

/-- What is extracted in one place is linked. -/
theorem Inv.linkOf_of_standsFor (hs : s.Inv) {r : Program} (hr : r ∈ s.programs) {h id : ℤ}
    (hstands : r.StandsFor s h id) : s.linker.headers.linkOf r.p4Name h = some id := by
  rcases hstands with hl | ⟨k, i, place, name, st, m, hk, hst, hlinked, hm, hname, hop, hop'⟩
  · exact hl
  · rcases hs.ops m hm with hnil | ⟨id', -, hone⟩
    · rw [hnil] at hop'
      cases hop'
    · rw [hone] at hop'
      rcases place with - | place
      · obtain rfl : id' = id := by simpa using hop'
        refine hs.stands r hr k i st m name h id' hk hst hlinked hm hname hone ?_
        rw [ParseState.firstHeader]
        rcases hops : st.parserOps with - | ⟨op, ops⟩
        · rw [hops] at hop
          cases hop
        · rw [hops] at hop
          obtain rfl := Option.some.inj hop
          rfl
      · simp at hop'

/-- The headers are right where the invariant holds. -/
theorem Inv.consistent (hs : s.Inv) : s.Consistent := by
  have hid : ∀ m ∈ s.rp.parseStates, ∀ id, .extract id ∈ m.parserOps →
      id ∈ s.linker.headers.linkerUids := by
    intro m hm id hop
    rcases hs.ops m hm with hnil | ⟨id', hid', hone⟩
    · rw [hnil] at hop
      cases hop
    · rw [hone, List.mem_singleton, ParserOp.extract.injEq] at hop
      exact hop ▸ hid'
  refine ⟨fun m hm id hop => ?_, fun m hm id hop => ?_, fun r hr h h' id hh hh' => ?_,
    fun r hr h id id' hh hh' => ?_⟩
  · obtain ⟨p, h, -, hback⟩ := hs.table.backed id (hid m hm id hop)
    rcases hrev : s.linker.headers.linkTable.linkerToP4s id with - | rs
    · rw [UidTable.back, hrev] at hback
      exact absurd rfl hback
    · rfl
  · obtain ⟨p, h, hl, -⟩ := hs.table.backed id (hid m hm id hop)
    obtain ⟨r, hr, rfl⟩ := hs.known p h id hl
    obtain ⟨n, t, uid, T, -, -, huid, hT, -⟩ := hs.laidOut r hr h id hl
    refine ⟨uid, T, huid, hT, fun r' hr' h' hh' => ?_⟩
    obtain ⟨n', t', uid', T', hn', ht', huid', hT', hlayout⟩ :=
      hs.laidOut r' hr' h' id (hs.linkOf_of_standsFor hr' hh')
    obtain rfl := Option.some.inj (huid.symm.trans huid')
    obtain rfl := Option.some.inj (hT.symm.trans hT')
    exact ⟨n', t', hn', ht', hlayout⟩
  · exact hs.oneHeader r.p4Name h h' id (hs.linkOf_of_standsFor hr hh)
      (hs.linkOf_of_standsFor hr hh')
  · have hl := hs.linkOf_of_standsFor hr (.inr hh)
    have hl' := hs.linkOf_of_standsFor hr (.inr hh')
    exact Option.some.inj (hl.symm.trans hl')

/-! ## One call -/

/-- The types of the program are mapped, each to a type of its layout. -/
theorem Linkable.typesMapped (hl : s.Linkable c) (hs : s.Inv) :
    HeaderTypeUidTable.TypesMapped s.linker.headerTypes
      (s.linker.headerTypes.initTypeMapping c.p4Name c.typeList) c.p4Name c.typeList := by
  refine HeaderTypeUidTable.initTypeMapping_spec hs.types ?_ ?_ ?_ ?_
  · rw [Call.typeList, List.map_map]
    exact c.prog.headerTypes.nodupKeys
  · exact hl.typeNames
  · exact hl.oldLayout
  · exact hl.newLayout

/-- The states of a list of places. -/
theorem getElem?_states {parseStates states : List (ParseState ℕ)} {order : List ℕ}
    (h : order.mapM (fun i => deref parseStates[i]?) = .ok states) {k : ℕ} {st : ParseState ℕ}
    (hk : states[k]? = some st) : ∃ i : ℕ, order[k]? = some i ∧ parseStates[i]? = some st := by
  obtain ⟨i, hi, hst⟩ := forall₂_getElem? (forall₂_of_mapM h).flip hk
  exact ⟨i, hi, deref_eq_ok hst⟩

/-- The states of a list of places are of the program. -/
theorem mem_states {parseStates states : List (ParseState ℕ)} {order : List ℕ}
    (h : order.mapM (fun i => deref parseStates[i]?) = .ok states) :
    ∀ st ∈ states, st ∈ parseStates := by
  intro st hmem
  obtain ⟨k, hk⟩ := List.getElem?_of_mem hmem
  obtain ⟨i, -, hst⟩ := getElem?_states h hk
  exact List.mem_of_getElem? hst

/-- What a call maps the states of its program in. -/
abbrev env (s : Linked) (c : Call) : Env :=
  ⟨s.linker.headerTypes.initTypeMapping c.p4Name c.typeList, c.p4Name, c.prog, s.rp⟩

/-- Two states of the program that extract the same header first are at one place. -/
theorem Linkable.place_of_header (hl : s.Linkable c) {order : List ℕ}
    {states : List (ParseState ℕ)} (horder : c.prog.orderedParseStates c.fuel = .ok order)
    (hstates : order.mapM (fun i => deref c.prog.parseStates[i]?) = .ok states) {k k' : ℕ}
    {st st' : ParseState ℕ} {h : ℤ} (hk : states[k]? = some st) (hk' : states[k']? = some st')
    (hfirst : st.firstHeader = some h) (hfirst' : st'.firstHeader = some h) : k = k' := by
  obtain ⟨i, hi, hst⟩ := getElem?_states hstates hk
  obtain ⟨i', hi', hst'⟩ := getElem?_states hstates hk'
  have honce := hl.headerOnce order (by rw [horder]; rfl)
  refine eq_of_nodup_filterMap honce hi hi' (b := h) ?_ ?_
  · rw [hst, Option.bind_some, hfirst]
  · rw [hst', Option.bind_some, hfirst']

/-- A running state that extracts something is at one place. -/
theorem Linkable.place_of_running (hl : s.Linkable c) {rpOrder : List ℕ}
    (hrpOrder : rpOrder = [] ∨ s.rp.orderedParseStates c.fuel = .ok rpOrder) {k k' i : ℕ}
    {m : ParseState ℕ} (hi : rpOrder[k]? = some i) (hi' : rpOrder[k']? = some i)
    (hm : s.rp.parseStates[i]? = some m) (hops : m.parserOps ≠ []) : k = k' := by
  rcases hrpOrder with rfl | hrpOrder
  · cases hi
  · have honce := hl.stateOnce rpOrder (by rw [hrpOrder]; rfl)
    rw [← List.filterMap_eq_filter] at honce
    have hsome : Option.guard (fun i => s.rp.parseStates[i]?.any fun m => !m.parserOps.isEmpty) i =
        some i := by
      rw [Option.guard_eq_some_iff]
      refine ⟨rfl, ?_⟩
      rw [hm, Option.any_some]
      simpa using hops
    exact eq_of_nodup_filterMap honce hi hi' hsome hsome

/-- **The two parsers are ready.** -/
theorem Linkable.ready (hl : s.Linkable c) (hs : s.Inv) {order rpOrder : List ℕ}
    {states rpStates : List (ParseState ℕ)} (horder : c.prog.orderedParseStates c.fuel = .ok order)
    (hstates : order.mapM (fun i => deref c.prog.parseStates[i]?) = .ok states)
    (hrpOrder : rpOrder = [] ∨ s.rp.orderedParseStates c.fuel = .ok rpOrder)
    (hrpStates : rpOrder.mapM (fun i => deref s.rp.parseStates[i]?) = .ok rpStates) :
    LinkParsers.Ready (s.env c) states rpStates s.linker.headers := by
  have htypes := hl.typesMapped hs
  have hrpMem := mem_states hrpStates
  refine ⟨?_, fun k k' st st' h => hl.place_of_header horder hstates,
    fun rpSt hmem => hs.ops rpSt (hrpMem rpSt hmem), ?_, ?_, hs.typeNames, ?_, ?_⟩
  · intro k k' st st' hk hk' hname
    obtain ⟨i, hi, hst⟩ := getElem?_states hstates hk
    obtain ⟨i', hi', hst'⟩ := getElem?_states hstates hk'
    obtain rfl := P4Objects.orderedParseStates_name horder hi hi' hst hst' hname
    obtain rfl := Option.some.inj (hst.symm.trans hst')
    rcases hfirst : st.firstHeader with - | h
    · exact .inr rfl
    · exact .inl (hl.place_of_header horder hstates hk hk' hfirst hfirst)
  · -- Two running states are the same one only if it extracts nothing.
    refine List.pairwise_iff_getElem.mpr fun k k' hk hk' hlt => ?_
    obtain ⟨i, hi, hst⟩ := getElem?_states hrpStates (List.getElem?_eq_getElem hk)
    obtain ⟨i', hi', hst'⟩ := getElem?_states hrpStates (List.getElem?_eq_getElem hk')
    have honce : i = i' → rpStates[k].parserOps ≠ [] → False := by
      rintro rfl hops
      exact hlt.ne (hl.place_of_running hrpOrder hi hi' hst hops)
    refine ⟨fun hname => ?_, fun id hid hid' => ?_⟩
    · have hii := hs.distinctNames i i' _ _ hst hst' hname
      have hnil := of_not_not (honce hii)
      subst hii
      have heq := Option.some.inj (hst.symm.trans hst')
      exact ⟨hnil, heq ▸ hnil⟩
    · refine honce (hs.distinctIds i i' _ _ id hst hst' hid hid') ?_
      rw [hid]
      exact List.cons_ne_nil _ _
  · intro rpSt hmem st hst hname
    obtain ⟨r, hr, hlinked⟩ := hs.stateNames rpSt (hrpMem rpSt hmem)
    refine hl.stateNames r hr st (mem_states hstates st hst) ?_
    rw [← hname]
    exact hlinked
  · intro n t uid ht hmap
    have hfwd := htypes.linked (n, t) (Call.mem_typeList.mpr ht)
    obtain ⟨T, hT, hlayout⟩ := htypes.typed (n, t) (Call.mem_typeList.mpr ht)
    refine ⟨T, ?_, hlayout⟩
    simp only [HeaderTypeUidTable.getHeaderTypeMapping, UidTable.getP4objectsLinkState, hfwd] at hmap
    split_ifs at hmap with huid
    rw [← not_not.mp huid]
    exact hT
  · intro n t ht
    have hfwd := htypes.linked (n, t) (Call.mem_typeList.mpr ht)
    obtain ⟨T, hT, hlayout⟩ := htypes.typed (n, t) (Call.mem_typeList.mpr ht)
    refine ⟨_, T, ?_, hT, hlayout⟩
    simp only [HeaderTypeUidTable.getLinkerHeaderType, UidTable.getP4objectLink, hfwd]

/-- What a call that returns has done. -/
theorem add_cases (h : s.add c = some s') :
    ∃ (order rpOrder : List ℕ) (states rpStates : List (ParseState ℕ)) (m : LinkParsers.Mapping)
      (linked : NameMap ParseStateExt) (i : ℕ),
      c.prog.orderedParseStates c.fuel = .ok order ∧
      order.mapM (fun i => deref c.prog.parseStates[i]?) = .ok states ∧
      (rpOrder = [] ∨ s.rp.orderedParseStates c.fuel = .ok rpOrder) ∧
      rpOrder.mapM (fun i => deref s.rp.parseStates[i]?) = .ok rpStates ∧
      LinkParsers.mapOrderedParserStates
        ⟨s.linker.headerTypes.initTypeMapping c.p4Name c.typeList, c.p4Name, c.prog, s.rp⟩
        states rpStates s.linker.headers s.linker.parseStates s.linker.stateId = .ok m ∧
      LinkParsers.SameOps m.linkedParseState linked ∧
      s' =
        { linker :=
            { headerTypes := s.linker.headerTypes.initTypeMapping c.p4Name c.typeList
              headers := m.headers
              parseStates := m.linkTable
              stateId := m.stateId
              p4objects := some
                { headerTypes :=
                    (s.linker.headerTypes.initTypeMapping c.p4Name c.typeList).linkerHeaderTypes
                  headers := mergedHeaders m.headers
                  parseStates := mergedStates linked
                  initState := i } }
          programs := s.programs ++ [⟨c.p4Name, c.prog, order, m.parseStateLinked⟩] } := by
  rw [add] at h
  split at h
  · next added hadded =>
    obtain rfl := Option.some.inj h
    -- The calls of the link in their order, each with what it leaves for the next one.
    rw [addP4objects] at hadded
    obtain ⟨order, horder, hadded⟩ := bind_eq_ok hadded
    obtain ⟨states, hstates, hadded⟩ := bind_eq_ok hadded
    obtain ⟨rpOrder, hrpOrder, hadded⟩ := ite_bind_eq_ok hadded
    obtain ⟨rpStates, hrpStates, hadded⟩ := bind_eq_ok hadded
    obtain ⟨m, hm, hadded⟩ := bind_eq_ok hadded
    obtain ⟨first, -, hadded⟩ := bind_eq_ok hadded
    obtain ⟨initName, -, hadded⟩ := ite_bind_eq_ok hadded
    obtain ⟨⟨code, linked⟩, hmerge, hadded⟩ := bind_eq_ok hadded
    obtain ⟨-, -, hadded⟩ := bind_eq_ok hadded
    obtain ⟨-, -, hadded⟩ := bind_eq_ok hadded
    obtain rfl := Except.ok.inj hadded
    refine ⟨order, rpOrder, states, rpStates, m, linked, linked.keys.idxOf initName, horder, hstates,
      ?_, hrpStates, hm, (LinkParsers.sameOps_merge _ _).1 _ _ _ _ hmerge, rfl⟩
    split_ifs at hrpOrder
    · exact .inr hrpOrder
    · exact .inl (Except.ok.inj hrpOrder).symm
  · cases h

theorem getElem?_mergedStates {linked : NameMap ParseStateExt} {i : ℕ} {m : ParseState ℕ}
    (h : (mergedStates linked)[i]? = some m) :
    ∃ e, linked.entries[i]? = some e ∧ linked.lookup e.1 = some e.2 ∧
      m.name = e.2.newParseState.name ∧ m.parserOps = e.2.newParseState.parserOps := by
  rw [mergedStates, List.getElem?_map] at h
  obtain ⟨e, he, rfl⟩ := Option.map_eq_some_iff.mp h
  exact ⟨e, he, AList.mem_lookup_iff.mpr (List.mem_of_getElem? he), rfl, rfl⟩

theorem mem_mergedStates {linked : NameMap ParseStateExt} {m : ParseState ℕ}
    (h : m ∈ mergedStates linked) : ∃ name e, linked.lookup name = some e ∧
      m.name = e.newParseState.name ∧ m.parserOps = e.newParseState.parserOps := by
  obtain ⟨i, hi⟩ := List.getElem?_of_mem h
  obtain ⟨e, -, he, hname, hops⟩ := getElem?_mergedStates hi
  exact ⟨e.1, e.2, he, hname, hops⟩

/-- States of one key are one state. -/
theorem eq_of_keys {linked : NameMap ParseStateExt} {i j : ℕ} {e e' : Sigma fun _ : String => ParseStateExt}
    (hi : linked.entries[i]? = some e) (hj : linked.entries[j]? = some e') (h : e.1 = e'.1) : i = j := by
  have hnodup : (linked.entries.map Sigma.fst).Nodup := linked.nodupKeys
  obtain ⟨hlt, -⟩ := List.getElem?_eq_some_iff.mp hi
  refine (List.getElem?_inj (by rwa [List.length_map]) hnodup).mp ?_
  rw [List.getElem?_map, List.getElem?_map, hi, hj, Option.map_some, Option.map_some, h]

/-- The merged program has the types of the table. -/
theorem typeOfHeaderId_merged {headers : HeaderUidTable} {types : NameMap HeaderType}
    {parseStates : List (ParseState ℕ)} {init : ℕ} {id : ℤ} {n : String}
    (hid : (headers.linkerHeaderIdTypeNameMap id).isSome)
    (h : P4Objects.typeOfHeaderId ⟨types, mergedHeaders headers, parseStates, init⟩ id = some n) :
    headers.linkerHeaderIdTypeNameMap id = some n := by
  obtain ⟨x, hx, h⟩ := Option.bind_eq_some_iff.mp h
  split_ifs at h
  obtain rfl := Option.some.inj h
  obtain ⟨⟨name, decl⟩, he, rfl⟩ := Option.map_eq_some_iff.mp hx
  have hmem := List.mem_reverse.mp (List.mem_of_find?_eq_some he)
  have hfound := List.find?_some he
  have hlookup := AList.mem_lookup_iff.mpr hmem
  rw [mergedHeaders, AList.lookup_to_alist] at hlookup
  obtain ⟨e', -, heq⟩ := List.mem_map.mp (List.of_mem_dlookup hlookup)
  obtain ⟨-, hdecl⟩ := Sigma.mk.inj heq
  obtain rfl := eq_of_heq hdecl
  obtain ⟨uid, huid⟩ := Option.isSome_iff_exists.mp hid
  obtain rfl : e'.2 = id := of_decide_eq_true hfound
  rw [huid, Option.getD_some]

section Mapped

variable {states rpStates : List (ParseState ℕ)} {m : LinkParsers.Mapping} {r : Program}

/-- A header of a program linked before is laid out as it was. -/
theorem Inv.laidOut_mapped (hs : s.Inv) (hl : s.Linkable c)
    (hm : LinkParsers.Mapped (s.env c) states rpStates s.linker.headers m) (hr : r ∈ s.programs)
    {h id : ℤ} (hlink : m.headers.linkOf r.p4Name h = some id) :
    LaidOut (s.env c).types m.headers r.prog h id := by
  have hold := (hm.others _ h (hl.name r hr)).symm.trans hlink
  obtain ⟨n, t, uid, T, hn, ht, huid, hT, hlayout⟩ := hs.laidOut r hr h id hold
  obtain ⟨T', hT', hlayout'⟩ := (hl.typesMapped hs).typesKept uid T hT
  exact ⟨n, t, uid, T', hn, ht, (hm.kept id (hs.table.used _ h id hold)).2.trans huid, hT',
    hlayout.trans hlayout'⟩

/-- Each merged state is one that the program or a program before is linked to. -/
theorem Inv.stateNames_mapped (hs : s.Inv)
    (hm : LinkParsers.Mapped (s.env c) states rpStates s.linker.headers m)
    (hrpMem : ∀ rpSt ∈ rpStates, rpSt ∈ s.rp.parseStates) {name : String} {e : ParseStateExt}
    (he : m.linkedParseState.lookup name = some e) :
    (∃ r ∈ s.programs, some name ∈ r.parseStateLinked) ∨ some name ∈ m.parseStateLinked := by
  rcases hm.origin name e he with ⟨rpSt, hmem, rfl, -⟩ | ⟨k, st', -, -, hk⟩
  · exact .inl (hs.stateNames rpSt (hrpMem rpSt hmem))
  · exact .inr (List.mem_of_getElem? hk)

/-- What a state of a program linked before got was a running state, and still is. -/
theorem Inv.stands_mapped (hs : s.Inv) (hl : s.Linkable c)
    (hm : LinkParsers.Mapped (s.env c) states rpStates s.linker.headers m)
    (hrpMem : ∀ rpSt ∈ rpStates, rpSt ∈ s.rp.parseStates)
    (hstates : ∀ st ∈ states, st ∈ c.prog.parseStates) (hr : r ∈ s.programs) {k i : ℕ}
    {st : ParseState ℕ} {name : String} {e : ParseStateExt} {h id : ℤ} (hk : r.order[k]? = some i)
    (hst : r.prog.parseStates[i]? = some st)
    (hlinked : r.parseStateLinked[k]? = some (some name))
    (he : m.linkedParseState.lookup name = some e)
    (hid : e.newParseState.parserOps = [.extract id]) (hfirst : st.firstHeader = some h) :
    m.headers.linkOf r.p4Name h = some id := by
  rcases hm.origin name e he with ⟨rpSt, hmem, hrp, hrpOps⟩ | ⟨j, stNew, hstNew, hnew, -⟩
  · have hrpId : rpSt.parserOps = [.extract id] := by
      rcases hrpOps with hnil | hrpOps
      · rw [hnil] at hid
        cases hid
      · rw [← hrpOps, hid]
    have hold := hs.stands r hr k i st rpSt name h id hk hst hlinked (hrpMem rpSt hmem) hrp.symm
      hrpId hfirst
    exact (hm.others _ h (hl.name r hr)).trans hold
  · -- The names of new states are in no program before.
    refine absurd (List.mem_of_getElem? hlinked) ?_
    rw [hnew]
    exact hl.stateNames r hr stNew (hstates stNew (List.mem_of_getElem? hstNew))

end Mapped

/-- **A call keeps the invariant**, if its program can be linked. -/
theorem Inv.add (hs : s.Inv) (hl : s.Linkable c) (h : s.add c = some s') : s'.Inv := by
  obtain ⟨order, rpOrder, states, rpStates, m, linked, init, horder, hstates, hrpOrder, hrpStates,
    hmap, hsame, rfl⟩ := add_cases h
  have hready := hl.ready hs horder hstates hrpOrder hrpStates
  have hfresh : ∀ h, s.linker.headers.linkOf c.p4Name h = none := by
    refine fun h => Option.eq_none_iff_forall_ne_some.mpr fun id hlink => ?_
    obtain ⟨r, hr, hname⟩ := hs.known c.p4Name h id hlink
    exact hl.name r hr hname
  have hm := (LinkParsers.mapOrderedParserStates_spec hready hs.table hfresh hmap).congr_ops hsame
  have hrpMem := mem_states hrpStates
  refine ⟨(hl.typesMapped hs).inserts, hm.table, ?_, ?_, ?_, ?_, ?_, ?_, ?_, ?_, ?_⟩
  · intro p h id hlink
    by_cases hp : p = c.p4Name
    · exact ⟨_, List.mem_append_right _ List.mem_cons_self, hp.symm⟩
    · obtain ⟨r, hr, hname⟩ := hs.known p h id ((hm.others p h hp).symm.trans hlink)
      exact ⟨r, List.mem_append_left _ hr, hname⟩
  · intro p h h' id hlink hlink'
    by_cases hp : p = c.p4Name
    · subst hp
      exact hm.oneHeader h h' id hlink hlink'
    · exact hs.oneHeader p h h' id ((hm.others p h hp).symm.trans hlink)
        ((hm.others p h' hp).symm.trans hlink')
  · intro r hr h id hlink
    rcases List.mem_append.mp hr with hr | hr
    · exact hs.laidOut_mapped hl hm hr hlink
    · obtain rfl := List.mem_singleton.mp hr
      exact hm.typed h id hlink
  · intro st hst
    obtain ⟨name, e, he, -, hops⟩ := mem_mergedStates hst
    rw [hops]
    exact (hm.entry name e he).2
  · intro i j st st' hi hj hname
    obtain ⟨e, hi, he, hn, -⟩ := getElem?_mergedStates hi
    obtain ⟨e', hj, he', hn', -⟩ := getElem?_mergedStates hj
    refine eq_of_keys hi hj ?_
    rw [← (hm.entry _ _ he).1, ← (hm.entry _ _ he').1, ← hn, ← hn', hname]
  · intro i j st st' id hi hj hid hid'
    obtain ⟨e, hi, he, -, hops⟩ := getElem?_mergedStates hi
    obtain ⟨e', hj, he', -, hops'⟩ := getElem?_mergedStates hj
    exact eq_of_keys hi hj
      (hm.distinct _ _ _ _ id he he' (hops.symm.trans hid) (hops'.symm.trans hid'))
  · intro id hid n hn
    exact typeOfHeaderId_merged (hm.table.named id hid) hn
  · intro st hst
    obtain ⟨name, e, he, hn, -⟩ := mem_mergedStates hst
    rw [hn, (hm.entry name e he).1]
    rcases hs.stateNames_mapped hm hrpMem he with ⟨r, hr, hlinked⟩ | hlinked
    · exact ⟨r, List.mem_append_left _ hr, hlinked⟩
    · exact ⟨_, List.mem_append_right _ List.mem_cons_self, hlinked⟩
  · intro r hr k i st st' name h id hk hst hlinked hst' hname hid hfirst
    obtain ⟨key, e, he, hn, hops⟩ := mem_mergedStates hst'
    obtain rfl : key = name := (hm.entry key e he).1.symm.trans (hn.symm.trans hname)
    rw [hops] at hid
    rcases List.mem_append.mp hr with hr | hr
    · exact hs.stands_mapped hl hm hrpMem (mem_states hstates) hr hk hst hlinked he hid hfirst
    · obtain rfl := List.mem_singleton.mp hr
      obtain ⟨st₀, hst₀, hi⟩ := forall₂_getElem? (forall₂_of_mapM hstates) hk
      obtain rfl := Option.some.inj (hst.symm.trans (deref_eq_ok hi))
      exact hm.stands k st key e h id hst₀ hlinked he hid hfirst

/-- **The headers of every merged parser.** In every run from the linker as it is
made, whose programs can all be linked, the headers of the merged parser are right. -/
theorem consistent_of_run {calls : List Call} (hlinkable : Runs.Always add Linkable empty calls)
    (hrun : Runs.run add empty calls = some s) : s.Consistent :=
  (hlinkable.invariant (fun _ _ _ hs hl h => hs.add hl h) inv_empty hrun).consistent

/-! ## Two programs, and one that goes wrong -/

/-- A type whose fields have these widths. -/
def fields (ws : List ℤ) : HeaderType := HeaderTypeUidTable.plainType "" (ws.map fun w => ("f", w))

/-- An Ethernet header, and behind it an IPv4 header if there is one. -/
def routerProg : P4Objects where
  headerTypes := [⟨"ethernet_t", fields [48, 48, 16]⟩, ⟨"ipv4_t", fields [8, 24, 32, 32]⟩].toAList
  headers := [⟨"ethernet", ⟨0, "ethernet_t"⟩⟩, ⟨"ipv4", ⟨1, "ipv4_t"⟩⟩].toAList
  parseStates :=
    [{ name := "start", id := 0, parserOps := [.extract 0], hasSwitch := true,
        keyBuilder := ⟨[.field 0 2], [16]⟩, parserSwitch := [.exact [8, 0] (some 1)] },
      { name := "parse_ipv4", id := 1, parserOps := [.extract 1] }]
  initState := 0

/-- An Ethernet header, by other names, and a tag. -/
def tagProg : P4Objects where
  headerTypes := [⟨"eth_t", fields [48, 48, 16]⟩, ⟨"tag_t", fields [3, 1, 12, 16]⟩].toAList
  headers := [⟨"tag", ⟨0, "tag_t"⟩⟩, ⟨"eth", ⟨1, "eth_t"⟩⟩].toAList
  parseStates :=
    [{ name := "start", id := 0, parserOps := [.extract 1], hasSwitch := true,
        keyBuilder := ⟨[.field 1 2], [16]⟩, parserSwitch := [.exact [129, 0] (some 1)] },
      { name := "parse_tag", id := 1, parserOps := [.extract 0] }]
  initState := 0

theorem consistent_router_tag :
    ∃ s, Runs.run add empty [⟨20, "router", routerProg⟩, ⟨20, "tagger", tagProg⟩] = some s ∧
      s.Consistent := by
  obtain ⟨s, hs⟩ := Option.isSome_iff_exists.mp (by decide +kernel : (Runs.run add empty
    [⟨20, "router", routerProg⟩, ⟨20, "tagger", tagProg⟩]).isSome)
  exact ⟨s, hs, consistent_of_run (by decide +kernel) hs⟩

/-- Two tags, which are extracted to one header, in two states. -/
def twoTagsProg : P4Objects where
  headerTypes := [⟨"tag_t", fields [3, 1, 12, 16]⟩].toAList
  headers := [⟨"tag", ⟨3, "tag_t"⟩⟩].toAList
  parseStates :=
    [{ name := "start", id := 0, parserOps := [.extract 3], hasSwitch := true,
        keyBuilder := ⟨[.field 3 3], [16]⟩, parserSwitch := [.exact [129, 0] (some 1)] },
      { name := "again", id := 1, parserOps := [.extract 3] }]
  initState := 0

/-- **A header that is extracted in two states.** The second one extracts header 0,
which the table does not know. -/
theorem extracted_twice :
    ∃ s, Runs.run add empty [⟨20, "tags", twoTagsProg⟩] = some s ∧
      (∃ m ∈ s.rp.parseStates, .extract 0 ∈ m.parserOps) ∧
      s.linker.headers.linkTable.linkerToP4s 0 = none ∧
      (∃ r ∈ s.programs, r.Extracts s 3 3 ∧ r.Extracts s 3 0) ∧ ¬ s.Consistent := by
  -- The state after the run is not spelled out: these facts about it are computed.
  have hfacts : (Runs.run add empty [⟨20, "tags", twoTagsProg⟩]).any fun s =>
      (s.linker.headers.linkTable.linkerToP4s 0).isNone ∧
        (∃ m ∈ s.rp.parseStates, m.name = "tags.start" ∧ m.parserOps = [.extract 3]) ∧
        (∃ m ∈ s.rp.parseStates, m.name = "tags.again" ∧ m.parserOps = [.extract 0]) ∧
        ∃ r ∈ s.programs, r.order = [0, 1] ∧ r.prog.parseStates = twoTagsProg.parseStates ∧
          r.parseStateLinked = [some "tags.start", some "tags.again"] := by decide +kernel
  obtain ⟨s, hs, hfacts⟩ := (Option.any_eq_true _ _).mp hfacts
  obtain ⟨hnone, hmerged, hagain, hprog⟩ := of_decide_eq_true hfacts
  rw [Option.isNone_iff_eq_none] at hnone
  obtain ⟨m, hm, hname, hops⟩ := hmerged
  obtain ⟨m', hm', hname', hops'⟩ := hagain
  obtain ⟨r, hr, horder, hstates, hlinked⟩ := hprog
  have hextract : .extract 0 ∈ m'.parserOps := by
    rw [hops']
    exact List.mem_singleton_self _
  refine ⟨s, hs, ⟨m', hm', hextract⟩, hnone, ⟨r, hr, ?_, ?_⟩,
    fun hc => ?_⟩
  · refine ⟨0, 0, 0, "tags.start", twoTagsProg.parseStates[0]?.get rfl, m, ?_, ?_, ?_, hm, hname,
      ?_, ?_⟩
    · rw [horder]
      rfl
    · rw [hstates]
      rfl
    · rw [hlinked]
      rfl
    · rfl
    · rw [hops]
      rfl
  · refine ⟨1, 1, 0, "tags.again", twoTagsProg.parseStates[1]?.get rfl, m', ?_, ?_, ?_, hm', hname',
      ?_, ?_⟩
    · rw [horder]
      rfl
    · rw [hstates]
      rfl
    · rw [hlinked]
      rfl
    · rfl
    · rw [hops']
      rfl
  · have hreg := hc.registered m' hm' 0 hextract
    rw [hnone] at hreg
    cases hreg

end Linked

end Linker

end P4Bricks
