import P4Bricks.Linker.LinkedStates
import P4Bricks.Linker.SwitchMerge
/-!
# Merged switches

When the merge of the transitions has succeeded, each merged state that is reached
chooses for a key what the states choose that its first call was made with. These
need not be all that are linked to it: a state that one program reaches on a way of
its own may be filled before the call comes that brings both.
-/

namespace P4Bricks

namespace Linker

namespace LinkParsers

section
variable (env : Env) (linkTable : UidTable String)

/-- A merged state leads to another one. -/
def MergedLeads (linked : NameMap ParseStateExt) (n n' : String) : Prop :=
  ∃ ext, linked.lookup n = some ext ∧
    ∃ c ∈ ext.newParseState.parserSwitch, c.keyedState = some n'

/-- The switch of a merged state chooses what the states choose that are linked to
it. -/
def SwitchRight (linked : NameMap ParseStateExt) (n : String) : Prop :=
  ∃ ext, linked.lookup n = some ext ∧ ∀ key T, selects ext.newParseState.parserSwitch key = some T ↔
    ∃ s u, counterpart env linkTable s = some n ∧ chooses env key s = some u ∧
      counterpart env linkTable u = some T

/-- The switches of all merged states that are reached from one. -/
def SwitchesRight (linked : NameMap ParseStateExt) (init : String) : Prop :=
  ∀ n, Relation.ReflTransGen (MergedLeads linked) init n → SwitchRight env linkTable linked n

/-- What the states linked to the merged one choose, a state chooses that the call is
made with. -/
def Complete (t : Triple) : Prop :=
  ∀ s key u T, counterpart env linkTable s = some t.name → chooses env key s = some u →
    counterpart env linkTable u = some T →
      ∃ s' u', t.Brings s' ∧ chooses env key s' = some u' ∧ counterpart env linkTable u' = some T

/-- All calls that fill a switch are complete. -/
def FirstCallsComplete (t : Triple) : Prop :=
  ∀ fuel done, fillingCalls env linkTable fuel t [] = some done →
    ∀ t' ∈ done, Complete env linkTable t'

end

section
variable {env : Env} {linkTable : UidTable String} {t : Triple} {linked linked' : NameMap ParseStateExt}
  {done : List Triple} {fuel : ℕ}

/-! ## When the switches are right -/

/-- The switch that a call has filled is right where the call is complete. -/
theorem Progress.switchRight_iff (hprog : env.prog.ExactGraph) (hrp : env.rp.ExactGraph)
    (hp : Progress env linkTable linked done []) (ht : t ∈ done)
    (hs : Triple.Sound env linkTable t) :
    SwitchRight env linkTable linked t.name ↔ Complete env linkTable t := by
  obtain ⟨ext, cts, hl, -, hbrought, hswitch⟩ := hp.filled t ht
  have hsel := selects_brought hprog hrp hbrought
  constructor
  · rintro ⟨ext', hl', hright⟩ s key u T hsn hu hT
    obtain rfl := Option.some.inj (hl.symm.trans hl')
    have hchosen := (hright key T).mpr ⟨s, u, hsn, hu, hT⟩
    rw [hswitch] at hchosen
    exact (hsel key T).mp hchosen
  · intro hc
    refine ⟨ext, hl, fun key T => ?_⟩
    rw [hswitch, hsel]
    constructor
    · rintro ⟨s, u, hb, hu, hT⟩
      exact ⟨s, u, hs.counterpart s hb, hu, hT⟩
    · rintro ⟨s, u, hsn, hu, hT⟩
      exact hc s key u T hsn hu hT

/-- What the switches lead to is what the calls go on with. -/
theorem Progress.mergedLeads_iff (hp : Progress env linkTable linked done []) (ht : t ∈ done)
    (n' : String) : MergedLeads linked t.name n' ↔
      ∃ t' ∈ nextTriples env linkTable t, t'.name = n' := by
  obtain ⟨ext, cts, hl, -, hbrought, hswitch⟩ := hp.filled t ht
  have hnext : nextTriples env linkTable t = cts.map CaseTarget.target := by
    rw [nextTriples, hbrought]
    rfl
  rw [hnext]
  constructor
  · rintro ⟨ext', hl', c, hc, hcn⟩
    obtain rfl := Option.some.inj (hl.symm.trans hl')
    rw [hswitch] at hc
    obtain ⟨ct, hct, rfl⟩ := List.mem_map.mp hc
    exact ⟨ct.target, List.mem_map_of_mem hct, Option.some.inj hcn⟩
  · rintro ⟨t', ht', rfl⟩
    obtain ⟨ct, hct, rfl⟩ := List.mem_map.mp ht'
    refine ⟨ext, hl, .exact ct.key (some ct.target.name), ?_, rfl⟩
    rw [hswitch]
    exact List.mem_map_of_mem hct

/-- **The merge from one call on**: when it succeeds, the switches are right exactly
where the calls that fill one are complete. -/
theorem switchesRight_of_merge (hprog : env.prog.ExactGraph) (hrp : env.rp.ExactGraph)
    (hinj : LinksInj env linkTable) (ht : Triple.Sound env linkTable t)
    (hfresh : ∀ n ext, linked.lookup n = some ext →
      ext.switchCaseMerged = false ∧ ext.newParseState.parserSwitch = [])
    (h : mergeSwitchCases env linkTable fuel t linked = .ok (.stateLinked, linked')) :
    SwitchesRight env linkTable linked' t.name ↔ FirstCallsComplete env linkTable t := by
  have hp : Progress env linkTable linked [] [] :=
    ⟨by simp, fun n ext hl _ _ => hfresh n ext hl, by simp⟩
  obtain ⟨done, hdone, hp', -⟩ :=
    callSpec hprog hrp hinj fuel t linked linked' [] [] h hp ht (by simp [Chain])
  have hsound : ∀ t' ∈ done, Triple.Sound env linkTable t' :=
    DepthFirst.visits_forall (fun _ _ _ hy => (nextTriples_sound hprog hrp hy).1) ht (by simp) hdone
  have hclosed : DepthFirst.Closed Triple.name (nextTriples env linkTable) done :=
    DepthFirst.visits_closed (by simp [DepthFirst.Closed]) hdone
  -- the merged states that are reached are those of the calls
  have hreached : ∀ n, Relation.ReflTransGen (MergedLeads linked') t.name n →
      ∃ t' ∈ done, t'.name = n := by
    intro n hn
    induction hn with
    | refl => exact List.mem_map.mp (DepthFirst.visits_finished hdone).2
    | tail _ hlead ih =>
      obtain ⟨t', ht', rfl⟩ := ih
      obtain ⟨t'', ht'', rfl⟩ := (hp'.mergedLeads_iff ht' _).mp hlead
      exact List.mem_map.mp (hclosed t' ht' t'' ht'')
  have hcalls : ∀ t' ∈ done, Relation.ReflTransGen (MergedLeads linked') t.name t'.name := by
    intro t' ht'
    rcases DepthFirst.visits_reach hdone t' ht' with hnil | hreach
    · cases hnil
    · refine Relation.ReflTransGen.mono ?_ _ _ hreach
      rintro _ n' ⟨x, hx, rfl, y, hy, rfl⟩
      exact (hp'.mergedLeads_iff hx _).mpr ⟨y, hy, rfl⟩
  constructor
  · intro hright fuel' done' hdone' t' ht'
    obtain rfl := DepthFirst.visits_unique hdone hdone'
    exact (hp'.switchRight_iff hprog hrp ht' (hsound t' ht')).mp (hright _ (hcalls t' ht'))
  · intro hcomplete n hn
    obtain ⟨t', ht', rfl⟩ := hreached n hn
    exact (hp'.switchRight_iff hprog hrp ht' (hsound t' ht')).mpr (hcomplete fuel done hdone t' ht')

/-! ## What the mapping leaves -/

/-- The merged state that a state of the new program has in the table. -/
def linkedState (env : Env) (linkTable : UidTable String) (n : String) : Option String :=
  (linkTable.fqnToLinker (UidTable.fqn env.p4Name n)).map LinkValueState.value

theorem fqn_string_inj (p : String) {n n' : String} (h : UidTable.fqn p n = UidTable.fqn p n') :
    n = n' := by
  have htext := congrArg String.toList h
  simp only [UidTable.fqn, String.toList_append, List.append_cancel_left_eq] at htext
  exact String.toList_inj.mp htext

/-- A link is put into the table, or nothing changes. -/
theorem linkedState_setParseStatesLinkCode (n name n' : String) :
    linkedState env (setParseStatesLinkCode env linkTable n name) n' =
        linkedState env linkTable n' ∨
      n' = n ∧ linkedState env (setParseStatesLinkCode env linkTable n name) n' = some name := by
  let k : UidTable.Link String := ⟨env.p4Name, n, name, .stateMatched⟩
  rcases hstep : linkTable.step (.insert k) with ⟨code, t'⟩
  have hset : setParseStatesLinkCode env linkTable n name = t' := congrArg Prod.snd hstep
  rw [hset]
  rcases UidTable.insert_cases hstep with ⟨-, -, rfl⟩ | ⟨-, -, rfl⟩ | ⟨-, -, -, hfwd, -⟩
  · exact .inl rfl
  · exact .inl rfl
  · by_cases hn : n' = n
    · subst hn
      refine .inr ⟨rfl, ?_⟩
      rw [linkedState, hfwd, Function.update_self]
      rfl
    · refine .inl ?_
      have hne : UidTable.fqn env.p4Name n' ≠ UidTable.fqn k.p4Name k.val := fun h =>
        hn (fqn_string_inj _ h)
      rw [linkedState, linkedState, hfwd, Function.update_of_ne hne]

/-- A state of the merged parser before the transitions are merged. -/
def Bare (ext : ParseStateExt) : Prop :=
  ext.switchCaseMerged = false ∧ ext.newParseState.parserSwitch = []

theorem bare_linkedExt (st rpSt : ParseState ℕ) {ext : ParseStateExt} (h : Bare ext) :
    Bare (linkedExt st rpSt ext) := by
  unfold linkedExt
  rcases st.firstHeader with - | header
  · exact h
  · generalize extracts rpSt.parserOps = hs
    induction hs generalizing ext with
    | nil => exact h
    | cons rpHeader hs ih =>
      have hnext : Bare (extractFor header ext rpHeader) := h
      exact ih hnext

theorem bare_canLinkParserStates {st rpSt : ParseState ℕ} {name : String} {id : ℤ}
    {headers headers' : HeaderUidTable} {ext : ParseStateExt}
    (h : canLinkParserStates env st rpSt (.new name id .mapExistingId) headers =
      .ok (some (ext, headers'))) : Bare ext := by
  obtain ⟨-, key, -, rfl, -⟩ := canLinkParserStates_iff.mp h
  have hnew : Bare (.new name id .mapExistingId) := ⟨rfl, rfl⟩
  exact bare_linkedExt st rpSt hnew

theorem bare_addParserState {ps : ParseState ℕ} {ext ext' : ParseStateExt}
    {headers headers' : HeaderUidTable} (hb : Bare ext)
    (h : addParserState env ps ext headers = .ok (ext', headers')) : Bare ext' := by
  obtain ⟨⟨ext₁, headers₁⟩, hops, h⟩ := bind_eq_ok h
  obtain ⟨rfl, -⟩ := Prod.mk.inj (Except.ok.inj h)
  have hb₁ : Bare ext₁ := by
    unfold addParserOps at hops
    split at hops
    · unfold addExtractParserOpRegular at hops
      split_ifs at hops
      · obtain ⟨headerName, -, hops⟩ := bind_eq_ok hops
        obtain ⟨headerType, -, hops⟩ := bind_eq_ok hops
        obtain ⟨rfl, -⟩ := Prod.mk.inj (Except.ok.inj hops)
        exact hb
      · obtain ⟨rfl, -⟩ := Prod.mk.inj (Except.ok.inj hops)
        exact hb
    · obtain ⟨rfl, -⟩ := Prod.mk.inj (Except.ok.inj hops)
      exact hb
  exact hb₁

/-- A state that was found is linked. -/
theorem findLink_some {rpSt : ParseState ℕ} {i : ℕ} {states : List (ParseState ℕ × Option String)}
    {headers headers' : HeaderUidTable} {i' : ℕ} {st : ParseState ℕ} {ext : ParseStateExt}
    (h : findLink env rpSt i states headers = .ok (some (i', st, ext, headers'))) : Bare ext := by
  induction states generalizing i with
  | nil => cases h
  | cons x states ih =>
    obtain ⟨st', linked⟩ := x
    rcases linked with - | name
    · obtain ⟨res, hres, h⟩ := bind_eq_ok h
      rcases res with - | ⟨ext₁, headers₁⟩
      · exact ih h
      · obtain ⟨-, -, rfl, rfl⟩ : i = i' ∧ st' = st ∧ ext₁ = ext ∧ headers₁ = headers' := by
          simpa using Option.some.inj (Except.ok.inj h)
        exact bare_canLinkParserStates hres
    · exact ih h

/-- What the mapping of the states keeps, while running states of the names `rest` are
left. -/
structure Linkings (env : Env) (rpNames rest : List String) (m : Mapping) : Prop where
  inj : ∀ n n' name, linkedState env m.linkTable n = some name →
    linkedState env m.linkTable n' = some name → n = n'
  origin : ∀ n name, linkedState env m.linkTable n = some name →
    name ∈ rpNames ∨ name = env.p4Name ++ "." ++ n
  left : ∀ n name, linkedState env m.linkTable n = some name → name ∉ rest
  bare : ∀ n ext, m.linkedParseState.lookup n = some ext → Bare ext

variable {states rpStates : List (ParseState ℕ)} {rpNames rest : List String} {m m' : Mapping}

/-- A link to a merged state that is not linked yet. -/
theorem Linkings.link (hm : Linkings env rpNames rest m) {n name : String} {linkTable : UidTable String}
    (hlink : ∀ n', linkedState env linkTable n' = linkedState env m.linkTable n' ∨
      n' = n ∧ linkedState env linkTable n' = some name)
    (hfree : ∀ n', linkedState env m.linkTable n' = some name → n' = n) :
    ∀ n' n'' M, linkedState env linkTable n' = some M → linkedState env linkTable n'' = some M →
      n' = n'' := by
  intro n' n'' M h h'
  rcases hlink n' with hold | ⟨rfl, hnew⟩ <;> rcases hlink n'' with hold' | ⟨rfl, hnew'⟩
  · exact hm.inj n' n'' M (hold.symm.trans h) (hold'.symm.trans h')
  · obtain rfl := Option.some.inj (hnew'.symm.trans h')
    exact hfree n' (hold.symm.trans h)
  · obtain rfl := Option.some.inj (hnew.symm.trans h)
    exact (hfree n'' (hold'.symm.trans h')).symm
  · rfl

/-- A state is put among the merged ones. -/
theorem bare_insert {merged : NameMap ParseStateExt} {name : String} {ext : ParseStateExt}
    (hall : ∀ n ext, merged.lookup n = some ext → Bare ext) (hb : Bare ext) :
    ∀ n ext', (merged.insert name ext).lookup n = some ext' → Bare ext' := by
  intro n ext' h
  rcases lookup_insert_cases h with ⟨-, rfl⟩ | ⟨-, h⟩
  · exact hb
  · exact hall n ext' h

/-- A running state is linked or copied. -/
theorem Linkings.mapRpState {rpSt : ParseState ℕ} (hm : Linkings env rpNames (rpSt.name :: rest) m)
    (hmem : rpSt.name ∈ rpNames) (hnotin : rpSt.name ∉ rest)
    (h : mapRpState env states m rpSt = .ok m') : Linkings env rpNames rest m' := by
  have hrest : ∀ n name, linkedState env m.linkTable n = some name → name ∉ rest := fun n name hn hr =>
    hm.left n name hn (List.mem_cons_of_mem _ hr)
  obtain ⟨found, hfound, h⟩ := bind_eq_ok h
  rcases found with - | ⟨i, st, ext, headers⟩
  · obtain ⟨⟨ext, headers⟩, hadd, h⟩ := bind_eq_ok h
    obtain rfl := Except.ok.inj h
    have hb := bare_addParserState ⟨rfl, rfl⟩ hadd
    exact ⟨hm.inj, hm.origin, hrest, bare_insert hm.bare hb⟩
  · obtain rfl := Except.ok.inj h
    have hlink : ∀ n', linkedState env (setParseStatesLinkCode env m.linkTable st.name rpSt.name) n' =
          linkedState env m.linkTable n' ∨
        n' = st.name ∧ linkedState env (setParseStatesLinkCode env m.linkTable st.name rpSt.name) n' =
          some rpSt.name :=
      fun n' => linkedState_setParseStatesLinkCode st.name rpSt.name n'
    have hfree : ∀ n', linkedState env m.linkTable n' = some rpSt.name → n' = st.name :=
      fun n' hn => absurd List.mem_cons_self (hm.left n' _ hn)
    refine ⟨hm.link hlink hfree, fun n name hn => ?_, fun n name hn => ?_,
      bare_insert hm.bare (findLink_some hfound)⟩
    · rcases hlink n with hold | ⟨rfl, hnew⟩
      · exact hm.origin n name (hold.symm.trans hn)
      · exact .inl (Option.some.inj (hnew.symm.trans hn) ▸ hmem)
    · rcases hlink n with hold | ⟨rfl, hnew⟩
      · exact hrest n name (hold.symm.trans hn)
      · exact Option.some.inj (hnew.symm.trans hn) ▸ hnotin

/-- A new state gets a state of its own. -/
theorem Linkings.mapNewState {st : ParseState ℕ × ℕ} (hm : Linkings env rpNames [] m)
    (hnames : env.p4Name ++ "." ++ st.1.name ∉ rpNames)
    (h : mapNewState env m st = .ok m') : Linkings env rpNames [] m' := by
  unfold LinkParsers.mapNewState at h
  split at h
  · obtain ⟨⟨ext, headers⟩, hadd, h⟩ := bind_eq_ok h
    obtain rfl := Except.ok.inj h
    have hb : Bare ext := bare_addParserState ⟨rfl, rfl⟩ hadd
    have hlink : ∀ n', linkedState env (addParseStateLink env m.linkTable st.1.name) n' =
          linkedState env m.linkTable n' ∨
        n' = st.1.name ∧ linkedState env (addParseStateLink env m.linkTable st.1.name) n' =
          some (env.p4Name ++ "." ++ st.1.name) := by
      intro n'
      unfold addParseStateLink
      split
      · exact .inl rfl
      · exact linkedState_setParseStatesLinkCode st.1.name _ n'
    have hfree : ∀ n', linkedState env m.linkTable n' = some (env.p4Name ++ "." ++ st.1.name) →
        n' = st.1.name := by
      intro n' hn
      rcases hm.origin n' _ hn with hrp | hown
      · exact absurd hrp hnames
      · exact (fqn_string_inj env.p4Name hown).symm
    refine ⟨hm.link hlink hfree, fun n name hn => ?_, fun n name hn => List.not_mem_nil,
      bare_insert hm.bare hb⟩
    rcases hlink n with hold | ⟨rfl, hnew⟩
    · exact hm.origin n name (hold.symm.trans hn)
    · exact .inr (Option.some.inj (hnew.symm.trans hn)).symm
  · obtain rfl := Except.ok.inj h
    exact hm

/-- **The mapping** links no two new states to one merged state, and the merged states
have no transitions yet. -/
theorem linkings_of_map {headers : HeaderUidTable} {linkTable₀ : UidTable String} {stateId : ℤ}
    (hnew : ∀ n : String, linkTable₀.fqnToLinker (UidTable.fqn env.p4Name n) = none)
    (hnodup : (rpStates.map (·.name)).Nodup)
    (hnames : ∀ st ∈ states, env.p4Name ++ "." ++ st.name ∉ rpStates.map (·.name))
    (h : mapOrderedParserStates env states rpStates headers linkTable₀ stateId = .ok m) :
    Linkings env (rpStates.map (·.name)) [] m := by
  obtain ⟨m₁, hrp, hstates⟩ := bind_eq_ok h
  have hempty : ∀ n, linkedState env linkTable₀ n = none := fun n => by
    rw [linkedState, hnew n]
    rfl
  have h₁ : Linkings env (rpStates.map (·.name)) [] m₁ := by
    refine (foldlM_invariant (fun left m => (left.map (·.name)).Nodup ∧
      left.map (·.name) ⊆ rpStates.map (·.name) ∧
      Linkings env (rpStates.map (·.name)) (left.map (·.name)) m) ?_
      ⟨hnodup, List.Subset.refl _, ?_⟩ hrp).2.2
    · rintro rpSt left m m' ⟨hnd, hsub, hm⟩ hstep
      obtain ⟨hnotin, hnd⟩ := List.nodup_cons.mp hnd
      obtain ⟨hmem, hsub⟩ := List.cons_subset.mp hsub
      exact ⟨hnd, hsub, hm.mapRpState hmem hnotin hstep⟩
    · refine ⟨fun n n' name hn => ?_, fun n name hn => ?_, fun n name hn => ?_, fun n ext hl => ?_⟩
      · cases (hempty n).symm.trans hn
      · cases (hempty n).symm.trans hn
      · cases (hempty n).symm.trans hn
      · cases hl
  refine (foldlM_invariant (fun left m => left ⊆ states.zipIdx ∧
    Linkings env (rpStates.map (·.name)) [] m) ?_ ⟨List.Subset.refl _, h₁⟩ hstates).2
  rintro st left m m' ⟨hsub, hm⟩ hstep
  obtain ⟨hmem, hsub⟩ := List.cons_subset.mp hsub
  have hst := List.mem_of_getElem? (List.mem_zipIdx_iff_getElem?.mp hmem)
  exact ⟨hsub, hm.mapNewState (hnames st.1 hst) hstep⟩

/-- Different states of the new program have different merged states. -/
theorem Linkings.linksInj (hprog : env.prog.ExactGraph) (hm : Linkings env rpNames rest m) :
    LinksInj env m.linkTable := by
  have hlinked : ∀ i name, counterpart env m.linkTable (.inl i) = some name →
      ∃ st, env.prog.parseStates[i]? = some st ∧ linkedState env m.linkTable st.name = some name := by
    intro i name h
    obtain ⟨st, hst, h⟩ := Option.bind_eq_some_iff.mp h
    refine ⟨st, hst, ?_⟩
    rw [parseStateLink, UidTable.getP4objectLink] at h
    rw [linkedState]
    rcases hr : m.linkTable.fqnToLinker (UidTable.fqn env.p4Name st.name) with - | r
    · rw [hr] at h
      cases h
    · rw [hr] at h
      dsimp only at h
      split_ifs at h
      · rw [Option.map_some, Option.some.inj h]
  intro i i' name h h'
  obtain ⟨st, hst, hl⟩ := hlinked i name h
  obtain ⟨st', hst', hl'⟩ := hlinked i' name h'
  have hname := hm.inj _ _ _ hl hl'
  have hnames : (env.prog.parseStates.map (·.name))[i]? = some st.name := by
    rw [List.getElem?_map, hst, Option.map_some]
  have hnames' : (env.prog.parseStates.map (·.name))[i']? = some st.name := by
    rw [List.getElem?_map, hst', Option.map_some, hname]
  obtain ⟨hi, hget⟩ := List.getElem?_eq_some_iff.mp hnames
  obtain ⟨hi', hget'⟩ := List.getElem?_eq_some_iff.mp hnames'
  exact hprog.nodup.getElem_inj_iff.mp (hget.trans hget'.symm)

/-- **The merge of two parsers.** When it succeeds from initial states that are linked to
each other, the switches of the merged states that are reached are right exactly where
each of them is filled by a call that is complete. -/
theorem switchesRight_iff {headers : HeaderUidTable} {linkTable₀ : UidTable String} {stateId : ℤ}
    (hprog : env.prog.ExactGraph) (hrp : env.rp.ExactGraph)
    (hnew : ∀ n : String, linkTable₀.fqnToLinker (UidTable.fqn env.p4Name n) = none)
    (hnodup : (rpStates.map (·.name)).Nodup)
    (hnames : ∀ st ∈ states, env.p4Name ++ "." ++ st.name ∉ rpStates.map (·.name))
    (hmap : mapOrderedParserStates env states rpStates headers linkTable₀ stateId = .ok m)
    (hinit : Triple.Sound env m.linkTable t)
    (hmerge : mergeSwitchCases env m.linkTable fuel t m.linkedParseState =
      .ok (.stateLinked, linked')) :
    SwitchesRight env m.linkTable linked' t.name ↔ FirstCallsComplete env m.linkTable t := by
  have hm := linkings_of_map hnew hnodup hnames hmap
  exact switchesRight_of_merge hprog hrp (hm.linksInj hprog) hinit hm.bare hmerge

end

/-! ## Two programs -/

/-- A call that is made with all states that are linked to its merged state. -/
theorem complete_of_brings {env : Env} {linkTable : UidTable String} {t : Triple}
    (h : ∀ s, counterpart env linkTable s = some t.name → t.Brings s) :
    Complete env linkTable t :=
  fun s _ u _ hs hu hT => ⟨s, u, h s hs, hu, hT⟩

/-- States that lead to later ones only. -/
theorem acyclic_of_lt {p : P4Objects} (h : ∀ i, ∀ j ∈ p.keyedStates i, i < j) (i : ℕ) :
    ¬Relation.TransGen (fun i j => j ∈ p.keyedStates i) i i := by
  have hlt : ∀ {i j}, Relation.TransGen (fun i j => j ∈ p.keyedStates i) i j → i < j := by
    intro i j hij
    induction hij with
    | single hj => exact h i _ hj
    | tail _ hj ih => exact ih.trans (h _ _ hj)
  exact fun hii => (hlt hii).false

/-- A state that extracts one header. -/
def extracting (name : String) (header : ℤ) (cases : List (ParseSwitchCase ℕ)) : ParseState ℕ where
  name := name
  id := header
  parserOps := [.extract header]
  hasSwitch := true
  parserSwitch := cases

/-- Types that are the same in both programs, but for `tcp_t`. -/
def routerTypes : HeaderTypeUidTable :=
  { HeaderTypeUidTable.empty with
    linkTable := ["eth_t", "vlan_t", "ipv4_t"].foldl (fun table t =>
      (table.insertP4objectsLink "acl" t t .headerTypeDefMatch).2) .empty }

def routerHeaders : P4Objects :=
  { P4Objects.empty with
    headerTypes := (["eth_t", "vlan_t", "ipv4_t", "tcp_t"].map fun t =>
      (⟨t, HeaderType.new t 0⟩ : Sigma fun _ : String => HeaderType)).toAList
    headers := [⟨"eth", ⟨0, "eth_t"⟩⟩, ⟨"vlan", ⟨1, "vlan_t"⟩⟩, ⟨"ipv4", ⟨2, "ipv4_t"⟩⟩,
      ⟨"tcp", ⟨3, "tcp_t"⟩⟩].toAList }

/-- The running program. -/
def runningRouter : P4Objects :=
  { routerHeaders with
    parseStates :=
      [extracting "start" 0 [.exact [8] (some 1)], extracting "ipv4" 2 [.exact [6] (some 2)],
        extracting "tcp" 3 []] }

/-- A program without TCP. -/
def plainAcl : P4Objects :=
  { routerHeaders with
    parseStates := [extracting "start" 0 [.exact [8] (some 1)], extracting "ipv4" 2 []] }

/-- A program that comes to IPv4 behind a tag, too. -/
def taggedAcl : P4Objects :=
  { routerHeaders with
    parseStates :=
      [extracting "start" 0 [.exact [129] (some 1), .exact [8] (some 2)],
        extracting "vlan" 1 [.exact [8] (some 2)], extracting "ipv4" 2 []] }

def aclEnv (prog : P4Objects) : Env := ⟨routerTypes, "acl", prog, runningRouter⟩

/-- The call for the initial states. -/
def initial : Triple := ⟨some 0, some 0, "start"⟩

/-- What the two parsers are merged into. -/
def mergedWith (prog : P4Objects) : Option (Mapping × ObjectLinkStateCode × NameMap ParseStateExt) := do
  let m ← (mapOrderedParserStates (aclEnv prog) prog.parseStates runningRouter.parseStates .empty
    .empty 0).toOption
  let res ← (mergeSwitchCases (aclEnv prog) m.linkTable 8 initial m.linkedParseState).toOption
  some (m, res)

theorem runningRouter_exactGraph : runningRouter.ExactGraph where
  nodup := by decide
  exact := by simp [runningRouter, extracting]
  acyclic := acyclic_of_lt fun i j hj => by
    rcases i with _ | _ | _ | i <;>
      simp [P4Objects.keyedStates, runningRouter, extracting, ParseSwitchCase.keyedState] at hj <;>
      omega

theorem plainAcl_exactGraph : plainAcl.ExactGraph where
  nodup := by decide
  exact := by simp [plainAcl, extracting]
  acyclic := acyclic_of_lt fun i j hj => by
    rcases i with _ | _ | i <;>
      simp [P4Objects.keyedStates, plainAcl, extracting, ParseSwitchCase.keyedState] at hj
    omega

theorem taggedAcl_exactGraph : taggedAcl.ExactGraph where
  nodup := by decide
  exact := by simp [taggedAcl, extracting]
  acyclic := acyclic_of_lt fun i j hj => by
    rcases i with _ | _ | _ | i <;>
      simp [P4Objects.keyedStates, taggedAcl, extracting, ParseSwitchCase.keyedState] at hj <;>
      omega

theorem mergedWith_eq_some {prog : P4Objects} {m : Mapping} {code : ObjectLinkStateCode}
    {linked : NameMap ParseStateExt} (h : mergedWith prog = some (m, code, linked)) :
    mapOrderedParserStates (aclEnv prog) prog.parseStates runningRouter.parseStates .empty .empty 0 =
        .ok m ∧
      mergeSwitchCases (aclEnv prog) m.linkTable 8 initial m.linkedParseState = .ok (code, linked) := by
  obtain ⟨m', hm, h⟩ := Option.bind_eq_some_iff.mp h
  obtain ⟨res, hres, h⟩ := Option.bind_eq_some_iff.mp h
  obtain ⟨rfl, rfl⟩ := Prod.mk.inj (Option.some.inj h)
  exact ⟨toOption_eq_some hm, toOption_eq_some hres⟩

theorem initial_sound {prog : P4Objects} {linkTable : UidTable String}
    (h : counterpart (aclEnv prog) linkTable (.inl 0) = some "start") :
    Triple.Sound (aclEnv prog) linkTable initial := by
  refine ⟨?_, .inl 0, rfl⟩
  rintro (i | j) hb
  · obtain rfl := Option.some.inj hb
    exact h
  · obtain rfl := Option.some.inj hb
    rfl

/-- Each merged state is reached on one way, and its first call brings what is linked
to it. -/
theorem plainAcl_switchesRight :
    ∃ m linked, mergedWith plainAcl = some (m, .stateLinked, linked) ∧
      SwitchesRight (aclEnv plainAcl) m.linkTable linked "start" := by
  have hfacts : (mergedWith plainAcl).any fun res =>
      res.2.1 = .stateLinked ∧
        counterpart (aclEnv plainAcl) res.1.linkTable (.inl 0) = some "start" ∧
        (fillingCalls (aclEnv plainAcl) res.1.linkTable 8 initial []).any fun done => ∀ t ∈ done,
          (∀ i < 2, counterpart (aclEnv plainAcl) res.1.linkTable (.inl i) = some t.name →
            t.parseState = some i) ∧
          ∀ j < 3, counterpart (aclEnv plainAcl) res.1.linkTable (.inr j) = some t.name →
            t.rpParseState = some j := by
    decide +kernel
  obtain ⟨⟨m, code, linked⟩, hmerged, hfacts⟩ := (Option.any_eq_true _ _).mp hfacts
  obtain ⟨rfl, hstart, hcalls⟩ := of_decide_eq_true hfacts
  obtain ⟨hmap, hmerge⟩ := mergedWith_eq_some hmerged
  obtain ⟨done, hdone, hcalls⟩ := (Option.any_eq_true _ _).mp hcalls
  refine ⟨m, linked, hmerged, (switchesRight_iff plainAcl_exactGraph runningRouter_exactGraph
    (fun _ => rfl) (by decide) (by decide) hmap (initial_sound hstart) hmerge).mpr ?_⟩
  intro fuel done' hdone' t ht
  obtain rfl := DepthFirst.visits_unique hdone hdone'
  obtain ⟨hprog, hrp⟩ := of_decide_eq_true hcalls t ht
  refine complete_of_brings ?_
  rintro (i | j) hs
  · have hi : i < 2 := by
      by_contra hge
      have hnone : plainAcl.parseStates[i]? = none :=
        List.getElem?_eq_none (Nat.le_of_not_lt hge)
      simp [counterpart, aclEnv, hnone] at hs
    exact hprog i hi hs
  · have hj : j < 3 := by
      by_contra hge
      have hnone : runningRouter.parseStates[j]? = none :=
        List.getElem?_eq_none (Nat.le_of_not_lt hge)
      simp [counterpart, aclEnv, hnone] at hs
    exact hrp j hj hs

/-- **A case that is lost.** IPv4 comes behind the tag first, from the new program
alone, and the running program's case for TCP is not put into the switch. -/
theorem taggedAcl_not_switchesRight :
    taggedAcl.ExactGraph ∧ runningRouter.ExactGraph ∧
      ∃ m linked, mergedWith taggedAcl = some (m, .stateLinked, linked) ∧
        Triple.Sound (aclEnv taggedAcl) m.linkTable initial ∧
        ¬SwitchesRight (aclEnv taggedAcl) m.linkTable linked "start" := by
  have hfacts : (mergedWith taggedAcl).any fun res =>
      res.2.1 = .stateLinked ∧
        counterpart (aclEnv taggedAcl) res.1.linkTable (.inl 0) =
          some "start" ∧
        (res.2.2.lookup "start").any (fun ext => ∃ c ∈ ext.newParseState.parserSwitch,
          c.keyedState = some "ipv4") ∧
        (res.2.2.lookup "ipv4").any (·.newParseState.parserSwitch = []) := by
    decide +kernel
  obtain ⟨⟨m, code, linked⟩, hmerged, hfacts⟩ := (Option.any_eq_true _ _).mp hfacts
  obtain ⟨rfl, hstart, hleads, hipv4⟩ := of_decide_eq_true hfacts
  obtain ⟨start, hlstart, hleads⟩ := (Option.any_eq_true _ _).mp hleads
  obtain ⟨ipv4, hlipv4, hipv4⟩ := (Option.any_eq_true _ _).mp hipv4
  refine ⟨taggedAcl_exactGraph, runningRouter_exactGraph, m, linked, hmerged, initial_sound hstart,
    fun hright => ?_⟩
  obtain ⟨ext, hext, hswitch⟩ := hright "ipv4" (.single ⟨start, hlstart, of_decide_eq_true hleads⟩)
  obtain rfl := Option.some.inj (hlipv4.symm.trans hext)
  have hchosen := (hswitch [6] "tcp").mpr ⟨.inr 1, .inr 2, rfl, rfl, rfl⟩
  rw [of_decide_eq_true hipv4] at hchosen
  cases hchosen

end LinkParsers

end Linker

end P4Bricks
