import P4Bricks.Common.DepthFirst
import P4Bricks.Linker.SwitchCases
/-!
# Merging the switches

`merge_parser_states_switch_cases` searches the merged states depth first, by name.
The switch of a merged state is filled by the first call for it, with the cases of
the states that this call is made with, and later calls leave it as it is. So a
switch is complete exactly where the first call brings all that the states linked to
the merged one choose (`switchesRight_iff`).
-/

namespace P4Bricks

namespace Linker

namespace LinkParsers

section
variable (env : Env) (linkTable : UidTable String)

/-- No two states of the new program are linked to one merged state. -/
def LinksInj : Prop :=
  ∀ i i' name, counterpart env linkTable (.inl i) = some name →
    counterpart env linkTable (.inl i') = some name → i = i'

/-- The calls that fill a switch, in the order in which they end, for a call and what
was filled before. -/
def fillingCalls (fuel : ℕ) (t : Triple) (done : List Triple) : Option (List Triple) :=
  DepthFirst.visits Triple.name (nextTriples env linkTable) fuel t done

/-- What the merge has done: the switches of the calls that filled one are as they are
to be, and the others are empty, but for those of the calls that are not finished. -/
structure Progress (linked : NameMap ParseStateExt) (done stack : List Triple) : Prop where
  filled : ∀ t ∈ done, ∃ ext cts, linked.lookup t.name = some ext ∧ ext.switchCaseMerged = true ∧
    brought env linkTable t = some cts ∧ ext.newParseState.parserSwitch = mergedCases cts
  fresh : ∀ n ext, linked.lookup n = some ext → n ∉ done.map Triple.name →
    n ∉ stack.map Triple.name →
      ext.switchCaseMerged = false ∧ ext.newParseState.parserSwitch = []
  unfinished : ∀ t ∈ stack, t.name ∉ done.map Triple.name

/-- The calls in progress are sound and lead to this one. -/
def Chain (stack : List Triple) (t : Triple) : Prop :=
  ∀ s ∈ stack, Triple.Sound env linkTable s ∧
    Relation.TransGen (fun t t' => t' ∈ nextTriples env linkTable t) s t

end

section
variable {env : Env} {linkTable : UidTable String} {t : Triple} {linked linked' : NameMap ParseStateExt}
  {done stack : List Triple} {fuel : ℕ} {name : String} {cases : List (ParseSwitchCase ℕ)}
  {rpCases : RpCases} {cts : List CaseTarget}

/-! ## No call meets itself -/

/-- A call is made with states that those of the calls before it lead to. -/
theorem brings_of_transGen (hprog : env.prog.ExactGraph) (hrp : env.rp.ExactGraph) {t t' : Triple}
    (h : Relation.TransGen (fun t t' => t' ∈ nextTriples env linkTable t) t t') {s' : ℕ ⊕ ℕ}
    (hs' : t'.Brings s') : ∃ s, t.Brings s ∧ Relation.TransGen (LeadsTo env) s s' := by
  induction h generalizing s' with
  | single hstep =>
    obtain ⟨s, hs, hlead⟩ := (nextTriples_sound hprog hrp hstep).2 s' hs'
    exact ⟨s, hs, .single hlead⟩
  | tail _ hstep ih =>
    obtain ⟨s₁, hs₁, hlead⟩ := (nextTriples_sound hprog hrp hstep).2 s' hs'
    obtain ⟨s, hs, hchain⟩ := ih hs₁
    exact ⟨s, hs, hchain.tail hlead⟩

/-- A state leads to states of its own program, and not to itself. -/
theorem transGen_leadsTo {s s' : ℕ ⊕ ℕ} (h : Relation.TransGen (LeadsTo env) s s') :
    (∃ i j, s = .inl i ∧ s' = .inl j ∧
      Relation.TransGen (fun i j => j ∈ env.prog.keyedStates i) i j) ∨
    ∃ i j, s = .inr i ∧ s' = .inr j ∧
      Relation.TransGen (fun i j => j ∈ env.rp.keyedStates i) i j := by
  induction h with
  | @single s' hlead =>
    rcases s with i | i <;> rcases s' with j | j
    · exact .inl ⟨i, j, rfl, rfl, .single hlead⟩
    · cases hlead
    · cases hlead
    · exact .inr ⟨i, j, rfl, rfl, .single hlead⟩
  | @tail s₁ s' _ hlead ih =>
    rcases ih with ⟨i, k, rfl, rfl, hchain⟩ | ⟨i, k, rfl, rfl, hchain⟩
    · rcases s' with j | j
      · exact .inl ⟨i, j, rfl, rfl, hchain.tail hlead⟩
      · cases hlead
    · rcases s' with j | j
      · cases hlead
      · exact .inr ⟨i, j, rfl, rfl, hchain.tail hlead⟩

/-- Running states are told apart by their names. -/
theorem counterpart_inr_inj (hrp : env.rp.ExactGraph) {j j' : ℕ}
    (h : counterpart env linkTable (.inr j) = some name)
    (h' : counterpart env linkTable (.inr j') = some name) : j = j' := by
  obtain ⟨st, hst, hname⟩ := Option.map_eq_some_iff.mp h
  obtain ⟨st', hst', hname'⟩ := Option.map_eq_some_iff.mp h'
  have hnames : (env.rp.parseStates.map (·.name))[j]? = some name := by
    rw [List.getElem?_map, hst, Option.map_some, hname]
  have hnames' : (env.rp.parseStates.map (·.name))[j']? = some name := by
    rw [List.getElem?_map, hst', Option.map_some, hname']
  obtain ⟨hj, hget⟩ := List.getElem?_eq_some_iff.mp hnames
  obtain ⟨hj', hget'⟩ := List.getElem?_eq_some_iff.mp hnames'
  exact hrp.nodup.getElem_inj_iff.mp (hget.trans hget'.symm)

/-- **No call meets itself**: what a call leads to is for another merged state. -/
theorem name_ne_of_transGen (hprog : env.prog.ExactGraph) (hrp : env.rp.ExactGraph)
    (hinj : LinksInj env linkTable) {t t' : Triple} (ht : Triple.Sound env linkTable t)
    (ht' : Triple.Sound env linkTable t')
    (h : Relation.TransGen (fun t t' => t' ∈ nextTriples env linkTable t) t t') :
    t.name ≠ t'.name := by
  intro hname
  obtain ⟨s', hs'⟩ := ht'.nonempty
  obtain ⟨s, hs, hchain⟩ := brings_of_transGen hprog hrp h hs'
  have hc := ht.counterpart s hs
  have hc' := ht'.counterpart s' hs'
  rw [← hname] at hc'
  rcases transGen_leadsTo hchain with ⟨i, j, rfl, rfl, hcycle⟩ | ⟨i, j, rfl, rfl, hcycle⟩
  · obtain rfl := hinj i j t.name hc hc'
    exact hprog.acyclic i hcycle
  · obtain rfl := counterpart_inr_inj hrp hc hc'
    exact hrp.acyclic i hcycle

/-! ## One call -/

/-- What a case does to the merged states. -/
theorem lookup_addCase (key : List UInt8) (next n : String) :
    (addCase linked name key next).lookup n =
      if n = name then (linked.lookup name).map fun ext =>
        { ext with newParseState := ext.newParseState.addSwitchCase key next }
      else linked.lookup n := by
  unfold addCase
  rcases hl : linked.lookup name with - | ext
  · split_ifs with hn
    · rw [hn, hl]
      rfl
    · rfl
  · split_ifs with hn
    · rw [hn, AList.lookup_insert]
      rfl
    · exact AList.lookup_insert_ne hn

/-- **The loops** of a call that succeeds: the cases are taken one after the other,
and in the end the state is marked. -/
theorem mergeCases_cases
    (h : mergeCases env linkTable (fuel + 1) name cases rpCases linked = .ok (.stateLinked, linked')) :
    (caseTargets env linkTable cases rpCases = some [] ∧
      linked' = match linked.lookup name with
        | some ext => linked.insert name { ext with switchCaseMerged := true }
        | none => linked) ∨
    ∃ ct cases' rpCases' linked₁,
      (∀ cts, caseTargets env linkTable cases' rpCases' = some cts →
        caseTargets env linkTable cases rpCases = some (ct :: cts)) ∧
      mergeSwitchCases env linkTable fuel ct.target linked = .ok (.stateLinked, linked₁) ∧
      mergeCases env linkTable fuel name cases' rpCases'
        (addCase linked₁ name ct.key ct.target.name) = .ok (.stateLinked, linked') := by
  rcases cases with - | ⟨c, cases⟩
  · rcases hes : rpCases.entries with - | ⟨⟨key, rpNext⟩, es⟩
    · refine .inl ⟨by rw [caseTargets, hes]; rfl, ?_⟩
      unfold mergeCases at h
      rw [hes] at h
      dsimp only at h
      rcases hl : linked.lookup name with - | ext
      · rw [hl] at h
        exact (Prod.mk.inj (Except.ok.inj h)).2.symm
      · rw [hl] at h
        exact (Prod.mk.inj (Except.ok.inj h)).2.symm
    · -- a case of the running state
      unfold mergeCases at h
      rw [hes] at h
      obtain ⟨ct, hct, h⟩ := bind_eq_ok h
      obtain ⟨⟨code, linked₁⟩, hrec, h⟩ := bind_eq_ok h
      dsimp only at h
      split_ifs at h with hcode
      · subst hcode
        refine .inr ⟨ct, [], rpCases.erase key, linked₁, fun cts hcts => ?_, hrec, h⟩
        have herase : (rpCases.erase key).entries = es := by
          change rpCases.entries.kerase key = es
          rw [hes]
          exact List.kerase_cons_eq rfl
        rw [caseTargets, herase] at hcts
        rw [caseTargets, hes, List.mapM_cons, hcts, hct]
        rfl
      · exact absurd (Prod.mk.inj (Except.ok.inj h)).1 hcode
  · unfold mergeCases at h
    obtain ⟨found, hct, h⟩ := bind_eq_ok h
    rcases found with - | ⟨ct, rpCases'⟩
    · cases h
    · obtain ⟨⟨code, linked₁⟩, hrec, h⟩ := bind_eq_ok h
      dsimp only at h
      split_ifs at h with hcode
      · subst hcode
        refine .inr ⟨ct, cases, rpCases', linked₁, fun cts hcts => ?_, hrec, h⟩
        rw [caseTargets, hct]
        dsimp only
        rw [hcts, Option.map_some]
      · exact absurd (Prod.mk.inj (Except.ok.inj h)).1 hcode

/-- A call that succeeds can take all its cases. -/
theorem caseTargets_of_mergeCases
    (h : mergeCases env linkTable fuel name cases rpCases linked = .ok (.stateLinked, linked')) :
    ∃ cts, caseTargets env linkTable cases rpCases = some cts := by
  induction fuel generalizing cases rpCases linked with
  | zero =>
    rw [mergeCases] at h
    cases h
  | succ fuel ih =>
    rcases mergeCases_cases h with ⟨hnil, -⟩ | ⟨ct, cases', rpCases', linked₁, hcons, -, hrest⟩
    · exact ⟨[], hnil⟩
    · obtain ⟨cts, hcts⟩ := ih hrest
      exact ⟨ct :: cts, hcons cts hcts⟩

/-- A state that the first call is for is not among the calls in progress. -/
theorem Chain.notMem (hprog : env.prog.ExactGraph) (hrp : env.rp.ExactGraph)
    (hinj : LinksInj env linkTable) (ht : Triple.Sound env linkTable t)
    (hchain : Chain env linkTable stack t) : t.name ∉ stack.map Triple.name := by
  intro hmem
  obtain ⟨s, hs, hname⟩ := List.mem_map.mp hmem
  obtain ⟨hsound, htrans⟩ := hchain s hs
  exact name_ne_of_transGen hprog hrp hinj hsound ht htrans hname

/-- The calls in progress go on. -/
theorem Chain.cons (ht : Triple.Sound env linkTable t) (hchain : Chain env linkTable stack t)
    {t' : Triple} (h : t' ∈ nextTriples env linkTable t) : Chain env linkTable (t :: stack) t' := by
  refine List.forall_mem_cons.mpr ⟨⟨ht, .single h⟩, fun s hs => ?_⟩
  obtain ⟨hsound, htrans⟩ := hchain s hs
  exact ⟨hsound, htrans.tail h⟩

/-- **What a call does.** It searches its state, and leaves those of the calls in
progress as they are. -/
def CallSpec (env : Env) (linkTable : UidTable String) (fuel : ℕ) : Prop :=
  ∀ t linked linked' done stack,
    mergeSwitchCases env linkTable fuel t linked = .ok (.stateLinked, linked') →
    Progress env linkTable linked done stack → Triple.Sound env linkTable t →
    Chain env linkTable stack t →
    ∃ done', fillingCalls env linkTable fuel t done = some done' ∧
      Progress env linkTable linked' done' stack ∧
      ∀ s ∈ stack, linked'.lookup s.name = linked.lookup s.name

/-- A state is marked. -/
theorem Progress.mark {cts : List CaseTarget} {ext : ParseStateExt}
    (hp : Progress env linkTable linked done (t :: stack))
    (hfresh : t.name ∉ stack.map Triple.name)
    (hl : linked.lookup t.name = some ext) (hbrought : brought env linkTable t = some cts)
    (hswitch : ext.newParseState.parserSwitch = mergedCases cts) :
    Progress env linkTable (linked.insert t.name { ext with switchCaseMerged := true })
        (done ++ [t]) stack ∧
      ∀ s ∈ stack, (linked.insert t.name { ext with switchCaseMerged := true }).lookup s.name =
        linked.lookup s.name := by
  have hdone := hp.unfinished t List.mem_cons_self
  have hstack : ∀ s ∈ stack, s.name ≠ t.name := by
    intro s hs hname
    exact hfresh (hname ▸ List.mem_map_of_mem hs)
  refine ⟨⟨fun s hs => ?_, fun n ext' hext hn hns => ?_, fun s hs => ?_⟩, fun s hs =>
    AList.lookup_insert_ne (hstack s hs)⟩
  · rcases List.mem_append.mp hs with hs | hs
    · have hne : s.name ≠ t.name := by
        intro hname
        exact hdone (hname ▸ List.mem_map_of_mem hs)
      rw [AList.lookup_insert_ne hne]
      exact hp.filled s hs
    · obtain rfl := List.mem_singleton.mp hs
      exact ⟨_, cts, AList.lookup_insert _, rfl, hbrought, hswitch⟩
  · rw [List.map_append, List.mem_append, not_or] at hn
    have hne : n ≠ t.name := by simpa using hn.2
    rw [AList.lookup_insert_ne hne] at hext
    refine hp.fresh n ext' hext hn.1 ?_
    rw [List.map_cons, List.mem_cons, not_or]
    exact ⟨hne, hns⟩
  · rw [List.map_append, List.mem_append, not_or]
    exact ⟨hp.unfinished s (List.mem_cons_of_mem _ hs), by simpa using hstack s hs⟩

/-- A case is added to the switch of a call in progress. -/
theorem Progress.addCase {key : List UInt8} {next : String}
    (hp : Progress env linkTable linked done (t :: stack)) :
    Progress env linkTable (LinkParsers.addCase linked t.name key next) done (t :: stack) := by
  refine ⟨fun s hs => ?_, fun n ext hext hn hns => ?_, hp.unfinished⟩
  · have hne : s.name ≠ t.name := by
      intro hname
      exact hp.unfinished t List.mem_cons_self (hname ▸ List.mem_map_of_mem hs)
    rw [lookup_addCase, if_neg hne]
    exact hp.filled s hs
  · have hne : n ≠ t.name := by
      rintro rfl
      exact hns (by simp)
    rw [lookup_addCase, if_neg hne] at hext
    exact hp.fresh n ext hext hn hns

/-- **What the loops do**, in a call that has put these cases into its switch. -/
theorem mergeCases_spec (hprog : env.prog.ExactGraph) (hrp : env.rp.ExactGraph)
    (hinj : LinksInj env linkTable) {pre : List CaseTarget} {ext : ParseStateExt}
    (hcall : ∀ n < fuel, CallSpec env linkTable n)
    (h : mergeCases env linkTable fuel t.name cases rpCases linked = .ok (.stateLinked, linked'))
    (hcts : caseTargets env linkTable cases rpCases = some cts)
    (hbrought : brought env linkTable t = some (pre ++ cts))
    (hp : Progress env linkTable linked done (t :: stack)) (ht : Triple.Sound env linkTable t)
    (hchain : Chain env linkTable stack t) (hl : linked.lookup t.name = some ext)
    (hopen : ext.switchCaseMerged = false)
    (hswitch : ext.newParseState.parserSwitch = mergedCases pre) :
    ∃ done', (cts.map CaseTarget.target).foldlM
        (fun done t => fillingCalls env linkTable fuel t done) done = some done' ∧
      Progress env linkTable linked' (done' ++ [t]) stack ∧
      ∀ s ∈ stack, linked'.lookup s.name = linked.lookup s.name := by
  have hfresh := hchain.notMem hprog hrp hinj ht
  induction fuel generalizing cases rpCases cts pre linked done ext with
  | zero =>
    rw [mergeCases] at h
    cases h
  | succ fuel ih =>
    rcases mergeCases_cases h with ⟨hnil, rfl⟩ | ⟨ct, cases', rpCases', linked₁, hcons, hrec, hrest⟩
    · -- No case is left: the switch of the state is as the triple says.
      obtain rfl := Option.some.inj (hcts.symm.trans hnil)
      rw [List.append_nil] at hbrought
      rw [hl]
      exact ⟨done, rfl, hp.mark hfresh hl hbrought hswitch⟩
    · obtain ⟨cts', hcts'⟩ := caseTargets_of_mergeCases hrest
      obtain rfl := Option.some.inj (hcts.symm.trans (hcons cts' hcts'))
      have hnext : ct.target ∈ nextTriples env linkTable t := by
        rw [nextTriples, hbrought]
        simp
      -- The call for the next state goes first, and leaves the states of the stack alone.
      obtain ⟨done₁, hdone₁, hp₁, hkept₁⟩ := hcall fuel (Nat.lt_succ_self fuel) ct.target linked
        linked₁ done (t :: stack) hrec hp (nextTriples_sound hprog hrp hnext).1
        (hchain.cons ht hnext)
      have hl₁ := (hkept₁ t List.mem_cons_self).trans hl
      have hl₂ : (LinkParsers.addCase linked₁ t.name ct.key ct.target.name).lookup t.name =
          some { ext with
            newParseState := ext.newParseState.addSwitchCase ct.key ct.target.name } := by
        rw [lookup_addCase, if_pos rfl, hl₁]
        rfl
      have hbrought' : brought env linkTable t = some ((pre ++ [ct]) ++ cts') := by
        simpa using hbrought
      have hswitch' : (ext.newParseState.addSwitchCase ct.key ct.target.name).parserSwitch =
          mergedCases (pre ++ [ct]) := by
        simp [ParseState.addSwitchCase, hswitch, mergedCases]
      obtain ⟨done', hdone', hp', hkept'⟩ := ih (fun n hn => hcall n (by omega)) hrest hcts'
        hbrought' hp₁.addCase hl₂ hopen hswitch'
      refine ⟨done', ?_, hp', fun s hs => ?_⟩
      · have hmono : ∀ (done : List Triple) (t : Triple) (done' : List Triple),
            fillingCalls env linkTable fuel t done = some done' →
            fillingCalls env linkTable (fuel + 1) t done = some done' := fun _ _ _ h =>
          DepthFirst.visits_succ h
        rw [List.map_cons]
        exact DepthFirst.foldlM_cons_eq_some.mpr
          ⟨done₁, hmono _ _ _ hdone₁, DepthFirst.foldlM_mono hmono hdone'⟩
      · -- The case is added to this state, which is not on the stack below itself.
        have hne : s.name ≠ t.name := by
          intro hname
          exact hfresh (hname ▸ List.mem_map_of_mem hs)
        rw [hkept' s hs, lookup_addCase, if_neg hne]
        exact hkept₁ s (List.mem_cons_of_mem _ hs)

/-- **Every call** searches its state. -/
theorem callSpec (hprog : env.prog.ExactGraph) (hrp : env.rp.ExactGraph)
    (hinj : LinksInj env linkTable) (fuel : ℕ) : CallSpec env linkTable fuel := by
  induction fuel using Nat.strong_induction_on with
  | _ fuel ih =>
    intro t linked linked' done stack h hp ht hchain
    have hfresh := hchain.notMem hprog hrp hinj ht
    cases fuel with
    | zero =>
      rw [mergeSwitchCases] at h
      cases h
    | succ fuel =>
      rw [mergeSwitchCases] at h
      obtain ⟨ext, hext, h⟩ := bind_eq_ok h
      have hl := deref_eq_ok hext
      by_cases hdone : t.name ∈ done.map Triple.name
      · -- the state was merged before
        obtain ⟨s, hs, hname⟩ := List.mem_map.mp hdone
        obtain ⟨ext', cts, hl', hmerged, -, -⟩ := hp.filled s hs
        rw [hname, hl] at hl'
        obtain rfl := Option.some.inj hl'
        rw [if_pos hmerged] at h
        obtain ⟨-, rfl⟩ := Prod.mk.inj (Except.ok.inj h)
        exact ⟨done, by rw [fillingCalls, DepthFirst.visits, if_pos hdone], hp, fun _ _ => rfl⟩
      · obtain ⟨hopen, hempty⟩ := hp.fresh t.name ext hl hdone hfresh
        rw [if_neg (by simp [hopen])] at h
        obtain ⟨cts, hcts⟩ := caseTargets_of_mergeCases h
        have hbrought : brought env linkTable t = some ([] ++ cts) := hcts
        have hp' : Progress env linkTable linked done (t :: stack) := by
          refine ⟨hp.filled, fun n ext' hext' hn hns => ?_,
            List.forall_mem_cons.mpr ⟨hdone, hp.unfinished⟩⟩
          exact hp.fresh n ext' hext' hn fun hmem => hns (by simp [hmem])
        obtain ⟨done', hfold, hres, hkept⟩ := mergeCases_spec hprog hrp hinj
          (fun n hn => ih n (by omega)) h hcts hbrought hp' ht hchain hl hopen hempty
        refine ⟨done' ++ [t], ?_, hres, hkept⟩
        have hnext : nextTriples env linkTable t = cts.map CaseTarget.target := by
          rw [nextTriples, hbrought]
          rfl
        rw [fillingCalls, DepthFirst.visits, if_neg hdone, hnext]
        exact Option.map_eq_some_iff.mpr ⟨done', hfold, rfl⟩

end

end LinkParsers

end Linker

end P4Bricks
