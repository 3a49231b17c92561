import P4Bricks.Linker.Parsers
import P4Bricks.Linker.StateOrder
/-!
# The cases of a merged state

What `merge_parser_states_switch_cases` puts into the switch of the state that it is
called for, and what it goes on with. It is called with a state of the new program,
one of the running program, or both, and takes the cases of these: those of the new
state, then the ones of the running state that are left. The states that are linked
to the merged one are not looked up, so a state that the call is without has no part
in it.
-/

namespace P4Bricks

namespace Linker

/-- The state that cases choose for a key. -/
def selects {Ref : Type} (cases : List (ParseSwitchCase Ref)) (key : List UInt8) : Option Ref :=
  cases.findSome? fun c =>
    match c with
    | .exact k next => if k = key then next else none
    | _ => none

@[simp] theorem selects_nil {Ref : Type} (key : List UInt8) :
    selects ([] : List (ParseSwitchCase Ref)) key = none := rfl

theorem selects_exact {Ref : Type} (k key : List UInt8) (r : Ref)
    (cases : List (ParseSwitchCase Ref)) :
    selects (.exact k (some r) :: cases) key = if k = key then some r else selects cases key := by
  rw [selects, List.findSome?_cons]
  by_cases hk : k = key
  · simp only [if_pos hk]
  · simp only [if_neg hk]
    rfl

namespace P4Objects

/-- The cases of a state, if there is one. -/
def casesAt (p : P4Objects) (i : Option ℕ) : List (ParseSwitchCase ℕ) :=
  ((i.bind (p.parseStates[·]?)).map ParseState.parserSwitch).getD []

/-- A parse graph without cycles all of whose cases are for exact values and lead to
states. -/
structure ExactGraph (p : P4Objects) : Prop where
  nodup : (p.parseStates.map (·.name)).Nodup
  exact : ∀ st ∈ p.parseStates, ∀ c ∈ st.parserSwitch,
    ∃ key j, c = .exact key (some j) ∧ j < p.parseStates.length
  acyclic : ∀ i, ¬Relation.TransGen (fun i j => j ∈ p.keyedStates i) i i

variable {p : P4Objects}

/-- Cases for exact values that lead to states of the program. -/
def Exact (p : P4Objects) (cases : List (ParseSwitchCase ℕ)) : Prop :=
  ∀ c ∈ cases, ∃ key j, c = .exact key (some j) ∧ j < p.parseStates.length

theorem ExactGraph.casesAt (hp : p.ExactGraph) (i : Option ℕ) : p.Exact (p.casesAt i) := by
  intro c hc
  rw [P4Objects.casesAt] at hc
  rcases hst : i.bind (p.parseStates[·]?) with - | st
  · rw [hst] at hc
    cases hc
  · rw [hst] at hc
    obtain ⟨i, -, hi⟩ := Option.bind_eq_some_iff.mp hst
    exact hp.exact st (List.mem_of_getElem? hi) c hc

/-- What cases lead to. -/
theorem mem_keyedStates_of_casesAt {i : Option ℕ} {key : List UInt8} {j : ℕ}
    (h : .exact key (some j) ∈ p.casesAt i) : ∃ k, i = some k ∧ j ∈ p.keyedStates k := by
  rw [P4Objects.casesAt] at h
  rcases hst : i.bind (p.parseStates[·]?) with - | st
  · rw [hst] at h
    cases h
  · rw [hst] at h
    obtain ⟨k, rfl, hk⟩ := Option.bind_eq_some_iff.mp hst
    refine ⟨k, rfl, ?_⟩
    rw [keyedStates_eq hk]
    exact List.mem_filterMap.mpr ⟨_, h, rfl⟩

/-- A state that is chosen has a case. -/
theorem Exact.mem_of_selects {cases : List (ParseSwitchCase ℕ)} (hc : p.Exact cases)
    {key : List UInt8} {j : ℕ} (h : selects cases key = some j) :
    .exact key (some j) ∈ cases := by
  induction cases with
  | nil => cases h
  | cons c cases ih =>
    obtain ⟨⟨k, j', rfl, -⟩, hrest⟩ := List.forall_mem_cons.mp hc
    rw [selects_exact] at h
    split_ifs at h with hk
    · rw [hk, Option.some.inj h]
      exact List.mem_cons_self
    · exact List.mem_cons_of_mem _ (ih hrest h)

end P4Objects

namespace LinkParsers

/-! ## The cases of the running state by key -/

/-- One round of the loop of `switchCaseHexstrKeyStateMap`. -/
def insertCase (map : AList fun _ : List UInt8 => Option ℕ) :
    ParseSwitchCase ℕ → AList fun _ : List UInt8 => Option ℕ
  | .exact key next => if key ∈ map then map else map.insert key next
  | _ => map

/-- The map has, for each key, the state that the cases choose. -/
theorem lookup_switchCaseHexstrKeyStateMap {p : P4Objects} {cases : List (ParseSwitchCase ℕ)}
    (hc : p.Exact cases) (key : List UInt8) :
    (switchCaseHexstrKeyStateMap cases).lookup key = (selects cases key).map some := by
  have hfold : ∀ m : AList fun _ : List UInt8 => Option ℕ,
      (cases.foldl insertCase m).lookup key = (m.lookup key).or ((selects cases key).map some) := by
    induction cases with
    | nil => simp
    | cons c cases ih =>
      intro m
      obtain ⟨⟨k, j, rfl, -⟩, hrest⟩ := List.forall_mem_cons.mp hc
      rw [List.foldl_cons, ih hrest, selects_exact]
      by_cases hk : k = key
      · subst hk
        rw [if_pos rfl]
        by_cases hmem : k ∈ m
        · obtain ⟨r, hr⟩ := Option.isSome_iff_exists.mp (AList.lookup_isSome.mpr hmem)
          simp [insertCase, hmem, hr]
        · have hnone := AList.lookup_eq_none.mpr hmem
          simp [insertCase, hmem, hnone]
      · rw [if_neg hk]
        by_cases hmem : k ∈ m
        · simp [insertCase, hmem]
        · simp [insertCase, hmem, AList.lookup_insert_ne (Ne.symm hk)]
  exact (hfold ∅).trans (by simp)

section
variable (env : Env) (linkTable : UidTable String)

/-! ## What a call takes -/

/-- The cases that a call puts into the switch of its state, with what it goes on
with. -/
def caseTargets : List (ParseSwitchCase ℕ) → (AList fun _ : List UInt8 => Option ℕ) →
    Option (List CaseTarget)
  | [], rpCases => rpCases.entries.mapM fun e => (rpCaseTarget env e.1 e.2).toOption
  | c :: cases, rpCases =>
    match caseTarget env linkTable c rpCases with
    | .ok (some (ct, rpCases)) => (caseTargets cases rpCases).map (ct :: ·)
    | _ => none

/-- The same for the states that the call is made with. -/
def brought (t : Triple) : Option (List CaseTarget) :=
  caseTargets env linkTable (env.prog.casesAt t.parseState)
    (switchCaseHexstrKeyStateMap (env.rp.casesAt t.rpParseState))

/-- What the call goes on with. -/
def nextTriples (t : Triple) : List Triple :=
  ((brought env linkTable t).getD []).map CaseTarget.target

/-- The cases in the switch of the merged state. -/
def mergedCases (cts : List CaseTarget) : List (ParseSwitchCase String) :=
  cts.map fun ct => .exact ct.key (some ct.target.name)

/-! ## States of either program -/

/-- The merged state of a state: of the new program on the left, of the running one on
the right. -/
def counterpart : ℕ ⊕ ℕ → Option String
  | .inl i => env.prog.parseStates[i]?.bind fun st => parseStateLink env linkTable st.name
  | .inr j => env.rp.parseStates[j]?.map (·.name)

/-- The state that a state chooses for a key. -/
def chooses (key : List UInt8) : ℕ ⊕ ℕ → Option (ℕ ⊕ ℕ)
  | .inl i => (selects (env.prog.casesAt (some i)) key).map .inl
  | .inr j => (selects (env.rp.casesAt (some j)) key).map .inr

/-- The states that a call is made with. -/
def Triple.Brings (t : Triple) : ℕ ⊕ ℕ → Prop
  | .inl i => t.parseState = some i
  | .inr j => t.rpParseState = some j

/-- A call that is made with states that are linked to its merged state. -/
structure Triple.Sound (t : Triple) : Prop where
  counterpart : ∀ s, t.Brings s → counterpart env linkTable s = some t.name
  nonempty : ∃ s, t.Brings s

end

section
variable {env : Env} {linkTable : UidTable String}

/-- The states that a state of the running program leads to, by key. -/
abbrev RpCases := AList fun _ : List UInt8 => Option ℕ

/-- A state that is matched is linked. -/
theorem parseStateLink_of_statesMatched {n rpName : String}
    (h : statesMatched env linkTable n rpName) : parseStateLink env linkTable n = some rpName := by
  rw [statesMatched, UidTable.getP4objectsLinkState] at h
  rw [parseStateLink, UidTable.getP4objectLink]
  rcases hr : linkTable.fqnToLinker (UidTable.fqn env.p4Name n) with - | r
  · rw [hr] at h
    cases h
  · rw [hr] at h
    dsimp only at h ⊢
    split_ifs at h with hne
    · obtain rfl := not_not.mp hne
      rw [if_pos (of_decide_eq_true h)]

/-- **A case of the new state**: it is put together with the case of the running state
for its key, or taken alone. -/
theorem caseTarget_cases {key : List UInt8} {j : ℕ} {rpCases rpCases' : RpCases} {ct : CaseTarget}
    (hrp : ∀ key rpNext, rpCases.lookup key = some rpNext → rpNext ≠ none)
    (h : caseTarget env linkTable (.exact key (some j)) rpCases = .ok (some (ct, rpCases'))) :
    ct.key = key ∧ counterpart env linkTable (.inl j) = some ct.target.name ∧
      ct.target.parseState = some j ∧
      ((∃ v, rpCases.lookup key = some (some v) ∧ rpCases' = rpCases.erase key ∧
          ct.target.rpParseState = some v ∧
          counterpart env linkTable (.inr v) = some ct.target.name) ∨
        (rpCases.lookup key = none ∧ rpCases' = rpCases ∧ ct.target.rpParseState = none)) := by
  rw [caseTarget] at h
  -- Without a case for the key the state must be linked by its name; with one, the two states
  -- must be linked to each other.
  rcases hl : rpCases.lookup key with - | rpNext
  · rw [hl] at h
    obtain ⟨st, hst, h⟩ := bind_eq_ok h
    rcases hlink : parseStateLink env linkTable st.name with - | name
    · rw [hlink] at h
      cases h
    · rw [hlink] at h
      obtain ⟨rfl, rfl⟩ := Prod.mk.inj (Option.some.inj (Except.ok.inj h))
      refine ⟨rfl, ?_, rfl, .inr ⟨rfl, rfl, rfl⟩⟩
      have hget : env.prog.parseStates[j]? = some st := deref_eq_ok hst
      rw [counterpart, hget]
      exact hlink
  · obtain ⟨v, rfl⟩ := Option.ne_none_iff_exists'.mp (hrp key rpNext hl)
    rw [hl] at h
    obtain ⟨st, hst, h⟩ := bind_eq_ok h
    obtain ⟨rpSt, hrpSt, h⟩ := bind_eq_ok h
    have hget : env.prog.parseStates[j]? = some st := deref_eq_ok hst
    have hrpGet : env.rp.parseStates[v]? = some rpSt := deref_eq_ok hrpSt
    split_ifs at h with hmatched
    · obtain ⟨rfl, rfl⟩ := Prod.mk.inj (Option.some.inj (Except.ok.inj h))
      refine ⟨rfl, ?_, rfl, .inl ⟨v, rfl, rfl, rfl, ?_⟩⟩
      · rw [counterpart, hget]
        exact parseStateLink_of_statesMatched hmatched
      · rw [counterpart, hrpGet]
        rfl
    · cases h

theorem mergedCases_cons (ct : CaseTarget) (cts : List CaseTarget) :
    mergedCases (ct :: cts) = .exact ct.key (some ct.target.name) :: mergedCases cts := rfl

/-- **The cases that are left** of the running state. -/
theorem rpCaseTargets_spec {es : List (Sigma fun _ : List UInt8 => Option ℕ)} {cts : List CaseTarget}
    (hes : ∀ e ∈ es, e.2 ≠ none)
    (h : es.mapM (fun e => (rpCaseTarget env e.1 e.2).toOption) = some cts) :
    (∀ key T, selects (mergedCases cts) key = some T ↔
      ∃ v, es.dlookup key = some (some v) ∧ counterpart env linkTable (.inr v) = some T) ∧
    ∀ ct ∈ cts, Triple.Sound env linkTable ct.target ∧ ct.target.parseState = none ∧
      ∃ v key, ct.target.rpParseState = some v ∧ ⟨key, some v⟩ ∈ es := by
  induction es generalizing cts with
  | nil =>
    obtain rfl := Option.some.inj h
    simp [mergedCases]
  | cons e es ih =>
    obtain ⟨hv, hrest⟩ := List.forall_mem_cons.mp hes
    obtain ⟨key, rpNext⟩ := e
    obtain ⟨v, rfl⟩ := Option.ne_none_iff_exists'.mp hv
    rw [List.mapM_cons] at h
    obtain ⟨ct, hct, h⟩ := Option.bind_eq_some_iff.mp h
    obtain ⟨cts, hcts, h⟩ := Option.bind_eq_some_iff.mp h
    obtain rfl := Option.some.inj h
    obtain ⟨rpSt, hrpSt, hct⟩ := bind_eq_ok (toOption_eq_some hct)
    obtain rfl := Except.ok.inj hct
    have hget : env.rp.parseStates[v]? = some rpSt := deref_eq_ok hrpSt
    have hname : counterpart env linkTable (.inr v) = some rpSt.name := by
      rw [counterpart, hget]
      rfl
    obtain ⟨hsel, hall⟩ := ih hrest hcts
    refine ⟨fun key' T => ?_, List.forall_mem_cons.mpr ⟨⟨⟨?_, .inr v, rfl⟩, rfl, v, key, rfl,
      List.mem_cons_self⟩, fun ct hct => ?_⟩⟩
    · -- The first case decides for its own key, the others for the rest.
      rw [mergedCases_cons, selects_exact]
      by_cases hk : key = key'
      · subst hk
        rw [if_pos rfl, List.dlookup_cons_eq]
        constructor
        · intro hT
          obtain rfl := Option.some.inj hT
          exact ⟨v, rfl, hname⟩
        · rintro ⟨v', hv', hT⟩
          obtain rfl := Option.some.inj (Option.some.inj hv')
          exact hname.symm.trans hT
      · rw [if_neg hk, hsel, List.dlookup_cons_ne _ _ (Ne.symm hk)]
    · rintro (i | j) hb
      · cases hb
      · obtain rfl := Option.some.inj hb
        exact hname
    · obtain ⟨hs, hnone, v', key', hv', hmem⟩ := hall ct hct
      exact ⟨hs, hnone, v', key', hv', List.mem_cons_of_mem _ hmem⟩

/-- Cases of a running state that all lead on. -/
def RpCases.Valid (rpCases : RpCases) : Prop :=
  ∀ key rpNext, rpCases.lookup key = some rpNext → rpNext ≠ none

theorem RpCases.Valid.erase {rpCases : RpCases} (h : rpCases.Valid) (key : List UInt8) :
    RpCases.Valid (rpCases.erase key) := by
  intro key' rpNext hl
  by_cases hk : key' = key
  · rw [hk, AList.lookup_erase] at hl
    cases hl
  · rw [AList.lookup_erase_ne hk] at hl
    exact h key' rpNext hl

theorem valid_switchCaseHexstrKeyStateMap {p : P4Objects} {cases : List (ParseSwitchCase ℕ)}
    (hc : p.Exact cases) : RpCases.Valid (switchCaseHexstrKeyStateMap cases) := by
  intro key rpNext hl
  rw [lookup_switchCaseHexstrKeyStateMap hc] at hl
  obtain ⟨v, -, rfl⟩ := Option.map_eq_some_iff.mp hl
  simp

/-- The case takes at most its own key from those of the running state. -/
theorem lookup_of_caseTarget {key : List UInt8} {j : ℕ} {rpCases rpCases' : RpCases}
    {ct : CaseTarget} (hv : rpCases.Valid)
    (h : caseTarget env linkTable (.exact key (some j)) rpCases = .ok (some (ct, rpCases'))) :
    RpCases.Valid rpCases' ∧ (∀ k, k ≠ key → rpCases'.lookup k = rpCases.lookup k) ∧
      ∀ k v, rpCases'.lookup k = some v → rpCases.lookup k = some v := by
  obtain ⟨-, -, -, ⟨-, -, rfl, -⟩ | ⟨-, rfl, -⟩⟩ := caseTarget_cases hv h
  · refine ⟨hv.erase _, fun k hk => AList.lookup_erase_ne hk, fun k v hl => ?_⟩
    by_cases hk : k = key
    · rw [hk, AList.lookup_erase] at hl
      cases hl
    · rwa [AList.lookup_erase_ne hk] at hl
  · exact ⟨hv, fun _ _ => rfl, fun _ _ => id⟩

/-- The states that it is put together of have one name, and the running one is that
of its key. -/
theorem caseTarget_sound {key : List UInt8} {j : ℕ} {rpCases rpCases' : RpCases}
    {ct : CaseTarget} (hv : rpCases.Valid)
    (h : caseTarget env linkTable (.exact key (some j)) rpCases = .ok (some (ct, rpCases'))) :
    Triple.Sound env linkTable ct.target ∧
      (∀ v, ct.target.rpParseState = some v → rpCases.lookup key = some (some v)) ∧
      ∀ v, rpCases.lookup key = some (some v) →
        counterpart env linkTable (.inl j) = counterpart env linkTable (.inr v) := by
  obtain ⟨-, hj, hnew, ⟨v', hl, -, hrp, hname⟩ | ⟨hnone, -, hrp⟩⟩ := caseTarget_cases hv h
  · refine ⟨⟨?_, .inl j, hnew⟩, fun v hv' => ?_, fun v hv' => ?_⟩
    · rintro (i | v) hb
      · obtain rfl := Option.some.inj (hnew.symm.trans hb)
        exact hj
      · obtain rfl := Option.some.inj (hrp.symm.trans hb)
        exact hname
    · obtain rfl := Option.some.inj (hrp.symm.trans hv')
      exact hl
    · obtain rfl := Option.some.inj (Option.some.inj (hv'.symm.trans hl))
      rw [hj, hname]
  · refine ⟨⟨?_, .inl j, hnew⟩, fun v hv' => ?_, fun v hv' => ?_⟩
    · rintro (i | v) hb
      · obtain rfl := Option.some.inj (hnew.symm.trans hb)
        exact hj
      · cases hrp.symm.trans hb
    · cases hrp.symm.trans hv'
    · rw [hnone] at hv'
      cases hv'

/-- **What a call takes**: for each key, the state that the new state chooses, or else
the one that the running state chooses; and if both choose one, these are linked. -/
theorem caseTargets_spec {p : P4Objects} {cases : List (ParseSwitchCase ℕ)} {rpCases : RpCases}
    {cts : List CaseTarget} (hc : p.Exact cases) (hv : rpCases.Valid)
    (h : caseTargets env linkTable cases rpCases = some cts) :
    (∀ key T, selects (mergedCases cts) key = some T ↔
      (∃ u, selects cases key = some u ∧ counterpart env linkTable (.inl u) = some T) ∨
      (selects cases key = none ∧
        ∃ v, rpCases.lookup key = some (some v) ∧ counterpart env linkTable (.inr v) = some T)) ∧
    (∀ key u v, selects cases key = some u → rpCases.lookup key = some (some v) →
      counterpart env linkTable (.inl u) = counterpart env linkTable (.inr v)) ∧
    ∀ ct ∈ cts, Triple.Sound env linkTable ct.target ∧
      (∀ u, ct.target.parseState = some u → ∃ key, .exact key (some u) ∈ cases) ∧
      ∀ v, ct.target.rpParseState = some v → ∃ key, rpCases.lookup key = some (some v) := by
  induction cases generalizing rpCases cts with
  -- No new case is left: what is taken are the cases of the running program alone.
  | nil =>
    have hes : ∀ e ∈ rpCases.entries, e.2 ≠ none := fun e he =>
      hv e.1 e.2 (AList.mem_lookup_iff.mpr he)
    obtain ⟨hsel, hall⟩ := @rpCaseTargets_spec env linkTable _ _ hes h
    refine ⟨fun key T => ?_, (fun key u v hu => nomatch hu), fun ct hct => ?_⟩
    · rw [hsel]
      simp [AList.lookup]
    · obtain ⟨hs, hnone, v, key, hv', hmem⟩ := hall ct hct
      refine ⟨hs, fun u hu => ?_, fun v' hv'' => ?_⟩
      · rw [hnone] at hu
        cases hu
      · obtain rfl := Option.some.inj (hv'.symm.trans hv'')
        exact ⟨key, AList.mem_lookup_iff.mpr hmem⟩
  -- The first new case takes its key out of the running ones; the others stand as they were.
  | cons c cases ih =>
    obtain ⟨⟨k, j, rfl, -⟩, hrest⟩ := List.forall_mem_cons.mp hc
    rw [caseTargets] at h
    split at h
    · next ct rpCases' hct =>
      obtain ⟨cts, hcts, rfl⟩ := Option.map_eq_some_iff.mp h
      obtain ⟨rfl, hj, hnew, -⟩ := caseTarget_cases hv hct
      obtain ⟨hsound, hown, hagreed⟩ := caseTarget_sound hv hct
      obtain ⟨hv', hother, hless⟩ := lookup_of_caseTarget hv hct
      obtain ⟨hsel, hagree, hall⟩ := ih hrest hv' hcts
      refine ⟨fun key T => ?_, fun key u v hu hrp => ?_, List.forall_mem_cons.mpr ⟨⟨hsound,
        fun u hu => ?_, fun v hrp => ⟨_, hown v hrp⟩⟩, fun ct' hct' => ?_⟩⟩
      · rw [mergedCases_cons, selects_exact, selects_exact]
        by_cases hk : ct.key = key
        · subst hk
          rw [if_pos rfl, if_pos rfl, ← hj]
          simp
        · rw [if_neg hk, if_neg hk, hsel, hother key (Ne.symm hk)]
      · rw [selects_exact] at hu
        by_cases hk : ct.key = key
        · subst hk
          rw [if_pos rfl] at hu
          obtain rfl := Option.some.inj hu
          exact hagreed v hrp
        · rw [if_neg hk] at hu
          exact hagree key u v hu ((hother key (Ne.symm hk)).trans hrp)
      · obtain rfl := Option.some.inj (hnew.symm.trans hu)
        exact ⟨_, List.mem_cons_self⟩
      · obtain ⟨hs, hleft, hright⟩ := hall ct' hct'
        refine ⟨hs, fun u hu => ?_, fun v hrp => ?_⟩
        · obtain ⟨key, hmem⟩ := hleft u hu
          exact ⟨key, List.mem_cons_of_mem _ hmem⟩
        · obtain ⟨key, hl⟩ := hright v hrp
          exact ⟨key, hless key _ hl⟩
    · cases h

/-- One state leads to another one of its program. -/
def LeadsTo (env : Env) : ℕ ⊕ ℕ → ℕ ⊕ ℕ → Prop
  | .inl i, .inl j => j ∈ env.prog.keyedStates i
  | .inr i, .inr j => j ∈ env.rp.keyedStates i
  | _, _ => False

/-- What the cases of a merged state choose is what the states choose that the call
was made with. -/
theorem selects_brought (hprog : env.prog.ExactGraph) (hrp : env.rp.ExactGraph) {t : Triple}
    {cts : List CaseTarget} (h : brought env linkTable t = some cts) (key : List UInt8)
    (T : String) :
    selects (mergedCases cts) key = some T ↔
      ∃ s u, t.Brings s ∧ chooses env key s = some u ∧ counterpart env linkTable u = some T := by
  have hlookup := lookup_switchCaseHexstrKeyStateMap (hrp.casesAt t.rpParseState)
  obtain ⟨hsel, hagree, -⟩ := caseTargets_spec (hprog.casesAt t.parseState)
    (valid_switchCaseHexstrKeyStateMap (hrp.casesAt t.rpParseState)) h
  have hrpSel : ∀ v, (switchCaseHexstrKeyStateMap (env.rp.casesAt t.rpParseState)).lookup key =
      some (some v) ↔ selects (env.rp.casesAt t.rpParseState) key = some v := by
    intro v
    rw [hlookup, Option.map_eq_some_iff]
    simp
  have hnone : ∀ p : P4Objects, selects (p.casesAt none) key = none := fun p => rfl
  rw [hsel]
  constructor
  · rintro (⟨u, hu, hT⟩ | ⟨-, v, hv, hT⟩)
    · rcases hx : t.parseState with - | i
      · rw [hx, hnone] at hu
        cases hu
      · rw [hx] at hu
        exact ⟨.inl i, .inl u, hx, by rw [chooses, hu]; rfl, hT⟩
    · rw [hrpSel] at hv
      rcases hy : t.rpParseState with - | i
      · rw [hy, hnone] at hv
        cases hv
      · rw [hy] at hv
        exact ⟨.inr i, .inr v, hy, by rw [chooses, hv]; rfl, hT⟩
  · rintro ⟨i | i, u, hb, hu, hT⟩
    · obtain ⟨u', hu', rfl⟩ := Option.map_eq_some_iff.mp hu
      have hx : t.parseState = some i := hb
      rw [hx]
      exact .inl ⟨u', hu', hT⟩
    · obtain ⟨v, hv, rfl⟩ := Option.map_eq_some_iff.mp hu
      have hy : t.rpParseState = some i := hb
      have hv' := (hrpSel v).mpr (hy ▸ hv)
      rcases hx : selects (env.prog.casesAt t.parseState) key with - | u'
      · exact .inr ⟨rfl, v, hv', hT⟩
      · -- both choose a state, and these are linked
        exact .inl ⟨u', rfl, (hagree key u' v hx hv').trans hT⟩

/-- What a call goes on with are sound calls, made with states that its own lead to. -/
theorem nextTriples_sound (hprog : env.prog.ExactGraph) (hrp : env.rp.ExactGraph) {t t' : Triple}
    (h : t' ∈ nextTriples env linkTable t) :
    Triple.Sound env linkTable t' ∧
      ∀ s', t'.Brings s' → ∃ s, t.Brings s ∧ LeadsTo env s s' := by
  rcases hcts : brought env linkTable t with - | cts
  · rw [nextTriples, hcts] at h
    cases h
  · rw [nextTriples, hcts] at h
    obtain ⟨ct, hct, rfl⟩ := List.mem_map.mp h
    have hlookup := lookup_switchCaseHexstrKeyStateMap (hrp.casesAt t.rpParseState)
    obtain ⟨-, -, hall⟩ := caseTargets_spec (hprog.casesAt t.parseState)
      (valid_switchCaseHexstrKeyStateMap (hrp.casesAt t.rpParseState)) hcts
    obtain ⟨hs, hleft, hright⟩ := hall ct hct
    refine ⟨hs, ?_⟩
    rintro (u | v) hb
    · obtain ⟨key, hmem⟩ := hleft u hb
      obtain ⟨i, hi, hlead⟩ := P4Objects.mem_keyedStates_of_casesAt hmem
      exact ⟨.inl i, hi, hlead⟩
    · obtain ⟨key, hl⟩ := hright v hb
      rw [hlookup] at hl
      obtain ⟨v', hv', heq⟩ := Option.map_eq_some_iff.mp hl
      obtain rfl := Option.some.inj heq
      obtain ⟨i, hi, hlead⟩ :=
        P4Objects.mem_keyedStates_of_casesAt ((hrp.casesAt t.rpParseState).mem_of_selects hv')
      exact ⟨.inr i, hi, hlead⟩

end

end LinkParsers

end Linker

end P4Bricks
