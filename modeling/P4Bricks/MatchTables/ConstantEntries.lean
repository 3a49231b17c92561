import P4Bricks.Common.Runs
import P4Bricks.MatchTables.NextNodes
import P4Bricks.MatchTables.StaleHandles
/-!
# Tables with constant entries

A program may give the entries of a direct table, after which the control plane can add,
delete and modify none. It may also fix the default entry of the table, or its action.
Each of these operations tests a flag of the table. The operations that clear the table go
past the flags, to the unit below.
-/

namespace P4Bricks

open Lookup MatchUnit

namespace MatchTables

variable {σ P K M C : Type}

/-! ## What a program declares -/

/-- The entries of a direct table: keys, with their priorities, actions and action data. -/
def MatchTable.entrySet (t : MatchTable σ K M) : Set (K × Option ActionFn × List ℤ) :=
  {e | ∃ i ∈ t.matchUnit.handles, e = ((t.matchUnit.entries i).key,
    (t.matchUnit.entries i).value.actionFn, (t.matchUnit.entries i).value.actionData)}

/-- The entries of an initializer. -/
def declaredEntries (kb : KeyBuilder P K) (entries : List (P × ActionFn × List ℤ × ℤ)) :
    Set (K × Option ActionFn × List ℤ) :=
  {e | ∃ entry ∈ entries,
    e = (kb.matchParamsToEntry entry.1 entry.2.2.2, some entry.2.1, entry.2.2.1)}

/-- The requests on a table with constant entries that would change what is constant. -/
def DirectRequest.Forbidden (cfg : DirectConfig P) : DirectRequest P → Prop
  | .addEntry .. => True
  | .deleteEntry _ => True
  | .modifyEntry .. => True
  | .setDefaultAction fn _ =>
    (∃ fn' data, cfg.defaultEntry = some (fn', data, true)) ∨
      ∃ fn', cfg.constDefaultAction = some fn' ∧ fn ≠ fn'

/-- The flags of the table are those of the program, and so is what is constant of the
default. -/
structure MatchTable.Guarded (cfg : DirectConfig P) (t : MatchTable σ K M) : Prop where
  immutable : t.immutableEntries = true
  constDefaultAction : t.constDefaultAction = cfg.constDefaultAction
  constDefaultEntry : ∀ fn data, cfg.defaultEntry = some (fn, data, true) →
    t.constDefaultEntry = true
  defaultEntry : ∀ fn data, cfg.defaultEntry = some (fn, data, true) →
    t.defaultEntry.actionFn = some fn ∧ t.defaultEntry.actionData = data
  defaultAction : ∀ fn, cfg.constDefaultAction = some fn →
    t.defaultEntry.actionFn = some fn ∨ cfg.defaultEntry = none ∧ t.defaultEntry = {}

/-! ## One request -/

section

variable [LookupStructure σ K] [Inhabited K] [Meter M C] {kb : KeyBuilder P K}
  {cfg : DirectConfig P} {t : MatchTable σ K M}

omit [Inhabited K] [Meter M C] in
/-- **A forbidden request** is refused. -/
theorem MatchTable.Guarded.refuses (h : t.Guarded cfg) {r : DirectRequest P}
    (hr : r.Forbidden cfg) :
    ∃ e, (t.step kb r : Option (Answer P C _)) = some (.error e, t) := by
  cases r with
  | addEntry matchKey fn data priority now =>
    refine ⟨.immutableTableEntries, ?_⟩
    simp only [MatchTable.step, MatchTable.addEntry, h.immutable, if_true]
    rfl
  | deleteEntry handle =>
    refine ⟨.immutableTableEntries, ?_⟩
    simp only [MatchTable.step, MatchTable.deleteEntry, h.immutable, if_true]
    rfl
  | modifyEntry handle fn data =>
    refine ⟨.immutableTableEntries, ?_⟩
    simp only [MatchTable.step, MatchTable.modifyEntry, h.immutable, if_true]
    rfl
  | setDefaultAction fn data =>
    simp only [MatchTable.step, MatchTable.setDefaultAction]
    by_cases hconst : t.constDefaultEntry = true
    · refine ⟨.defaultEntryIsConst, ?_⟩
      rw [if_pos hconst]
      rfl
    · rcases hr with ⟨fn', data', hdefault⟩ | ⟨fn', haction, hne⟩
      · exact absurd (h.constDefaultEntry fn' data' hdefault) hconst
      · refine ⟨.defaultActionIsConst, ?_⟩
        have hother : (t.constDefaultAction.isSome && t.constDefaultAction != some fn) = true := by
          rw [h.constDefaultAction, haction]
          simpa using fun heq => hne heq.symm
        rw [if_neg hconst, if_pos hother]
        rfl

omit [LookupStructure σ K] [Inhabited K] [Meter M C] in
/-- The default that is set has the action that is constant. -/
theorem MatchTable.Guarded.setDefaultAction (h : t.Guarded cfg) {t' : MatchTable σ K M}
    {fn : ActionFn} {data : List ℤ} {res} (hs : t.setDefaultAction fn data = some (res, t')) :
    t'.Guarded cfg ∧ t'.matchUnit = t.matchUnit := by
  rcases MatchTable.setDefaultAction_eq_some hs with
    ⟨-, -, rfl⟩ | ⟨nextNode, hconst, hother, -, -, rfl⟩
  · exact ⟨h, rfl⟩
  · refine ⟨⟨h.immutable, h.constDefaultAction, h.constDefaultEntry, fun fn' data' hdefault => ?_,
      fun fn' haction => Or.inl ?_⟩, rfl⟩
    · rw [h.constDefaultEntry fn' data' hdefault] at hconst
      cases hconst
    · rw [h.constDefaultAction, haction] at hother
      rcases hother with hnone | hsome
      · cases hnone
      · exact hsome.symm

/-- The same entries are in the same slots. -/
def SameEntries {V : Type} (u u' : MatchUnit σ K V) : Prop :=
  u'.handles = u.handles ∧ u'.entries = u.entries

omit [LookupStructure σ K] [Inhabited K] in
theorem sameEntries_common {V : Type} [Inhabited V] (t : MatchTableAbstract σ K V M)
    (r : CommonRequest C) : SameEntries t.matchUnit (t.step r : Answer P C _).2.matchUnit := by
  obtain ⟨entryMeta, directMeters, heq⟩ := t.step_eq (P := P) r
  rw [heq]
  exact ⟨rfl, rfl⟩

omit [Inhabited K] [Meter M C] in
theorem sameEntries_lookup {V : Type} (u : MatchUnit σ K V) (key : ByteContainer)
    (length now : ℕ) : SameEntries u (u.lookup key length now).2 := by
  unfold MatchUnit.lookup lookupKey
  rcases LookupStructure.lookup u.lookupStructure key with ⟨_ | i, ls⟩
  · exact ⟨rfl, rfl⟩
  · exact ⟨rfl, rfl⟩

/-- **One request on the table**: the guards stay, and the entries do unless it is the
reset. -/
theorem MatchTable.Guarded.step (h : t.Guarded cfg) {ap ap' : ActionProfile}
    {r : TableRequest P C} {res : Result (Reply P C)} {tbl' : Table σ K M}
    (hstep : Table.step kb ap (.direct t) r = some (res, tbl', ap')) :
    ∃ t' : MatchTable σ K M, tbl' = .direct t' ∧ t'.Guarded cfg ∧
      (r = .resetState → t'.matchUnit.handles = ∅) ∧
      (r ≠ .resetState → SameEntries t.matchUnit t'.matchUnit) := by
  cases r with
  | common r =>
    cases hstep
    exact ⟨_, rfl, ⟨h.immutable, h.constDefaultAction, h.constDefaultEntry, h.defaultEntry,
      h.defaultAction⟩, nofun, fun _ => sameEntries_common t.toMatchTableAbstract r⟩
  | direct r =>
    obtain ⟨⟨res', t'⟩, hr, heq⟩ := Option.map_eq_some_iff.mp hstep
    cases heq
    refine ⟨t', rfl, ?_⟩
    -- Each request that would change an entry is refused; the one for the default action is only
    -- refused where the action is constant.
    have hrefused (hf : r.Forbidden cfg) : t'.Guarded cfg ∧
        SameEntries t.matchUnit t'.matchUnit := by
      obtain ⟨e, hrefuse⟩ : ∃ e, (t.step kb r : Option (Answer P C _)) = some (.error e, t) :=
        h.refuses hf
      obtain ⟨-, rfl⟩ := Prod.mk.inj (Option.some.inj (hr.symm.trans hrefuse))
      exact ⟨h, rfl, rfl⟩
    have hkept : t'.Guarded cfg ∧ SameEntries t.matchUnit t'.matchUnit := by
      cases r with
      | setDefaultAction fn data =>
        obtain ⟨⟨_, _⟩, hs, heq⟩ := Option.map_eq_some_iff.mp hr
        cases heq
        obtain ⟨hguarded, hunit⟩ := h.setDefaultAction hs
        exact ⟨hguarded, congrArg MatchUnit.handles hunit, congrArg MatchUnit.entries hunit⟩
      | addEntry matchKey fn data priority now => exact hrefused trivial
      | deleteEntry handle => exact hrefused trivial
      | modifyEntry handle fn data => exact hrefused trivial
    exact ⟨hkept.1, nofun, fun _ => hkept.2⟩
  | indirect r =>
    cases hstep
    exact ⟨t, rfl, h, nofun, fun _ => ⟨rfl, rfl⟩⟩
  | getEntry handle now =>
    cases hstep
    exact ⟨t, rfl, h, nofun, fun _ => ⟨rfl, rfl⟩⟩
  | resetState =>
    cases hstep
    exact ⟨_, rfl, ⟨h.immutable, h.constDefaultAction, h.constDefaultEntry, h.defaultEntry,
      h.defaultAction⟩, fun _ => rfl, fun hr => absurd rfl hr⟩
  | lookup key length now hash =>
    cases hstep
    exact ⟨_, rfl, ⟨h.immutable, h.constDefaultAction, h.constDefaultEntry, h.defaultEntry,
      h.defaultAction⟩, nofun, fun _ => sameEntries_lookup t.matchUnit key length now⟩

end

/-! ## As it is loaded -/

section

variable [LookupStructure σ K] {kb : KeyBuilder P K} {cfg : DirectConfig P}
  {t t' : MatchTable σ K M}

/-- The defaults and the flags are the same. -/
structure MatchTable.SameDefaults (t t' : MatchTable σ K M) : Prop where
  defaultEntry : t'.defaultEntry = t.defaultEntry
  constDefaultAction : t'.constDefaultAction = t.constDefaultAction
  constDefaultEntry : t'.constDefaultEntry = t.constDefaultEntry

/-- **One entry of the initializer** is added to the entries. -/
theorem MatchTable.loadEntry_spec {now : ℕ} {entry : P × ActionFn × List ℤ × ℤ}
    (hload : t.loadEntry kb now entry = some t') :
    t.SameDefaults t' ∧ t'.entrySet = t.entrySet ∪ declaredEntries kb [entry] := by
  unfold MatchTable.loadEntry at hload
  split at hload
  case h_2 => cases hload
  case h_1 handle t₁ hadd =>
    obtain rfl := Option.some.inj hload
    rcases MatchTable.addEntry_eq_some hadd with ⟨e, herr, -⟩ | ⟨nextNode, -, -, hok, rfl⟩
    · cases herr
    generalize hunit : t.matchUnit.addEntry kb entry.1 ⟨some entry.2.1, entry.2.2.1, nextNode⟩
      entry.2.2.2 now = answer at hok ⊢
    obtain ⟨res, u⟩ := answer
    obtain rfl : Except.ok handle = res := hok
    obtain ⟨-, -, -, -, rfl⟩ := addEntry_eq_ok hunit
    refine ⟨⟨rfl, rfl, rfl⟩, ?_⟩
    have hfresh : firstFree t.matchUnit.handles ∉ t.matchUnit.handles := firstFree_notMem _
    ext e
    constructor
    · rintro ⟨i, hi, rfl⟩
      rcases Finset.mem_insert.mp hi with rfl | hi
      · refine Or.inr ⟨entry, List.mem_cons_self .., ?_⟩
        simp
      · have hne : i ≠ firstFree t.matchUnit.handles := fun heq => hfresh (heq ▸ hi)
        refine Or.inl ⟨i, hi, ?_⟩
        simp [hne]
    · rintro (⟨i, hi, rfl⟩ | ⟨entry', hentry', rfl⟩)
      · have hne : i ≠ firstFree t.matchUnit.handles := fun heq => hfresh (heq ▸ hi)
        refine ⟨i, Finset.mem_insert_of_mem hi, ?_⟩
        simp [hne]
      · obtain rfl := List.mem_singleton.mp hentry'
        refine ⟨_, Finset.mem_insert_self .., ?_⟩
        simp

theorem MatchTable.loadEntries_spec {now : ℕ} {entries : List (P × ActionFn × List ℤ × ℤ)}
    (hload : entries.foldlM (MatchTable.loadEntry kb now) t = some t') :
    t.SameDefaults t' ∧ t'.entrySet = t.entrySet ∪ declaredEntries kb entries := by
  induction entries generalizing t with
  | nil =>
    obtain rfl := Option.some.inj hload
    refine ⟨⟨rfl, rfl, rfl⟩, ?_⟩
    simp [declaredEntries]
  | cons entry entries ih =>
    obtain ⟨t₁, hone, hrest⟩ := Option.bind_eq_some_iff.mp hload
    obtain ⟨hsame, hset⟩ := MatchTable.loadEntry_spec hone
    obtain ⟨hsame', hset'⟩ := ih hrest
    refine ⟨⟨hsame'.defaultEntry.trans hsame.defaultEntry,
      hsame'.constDefaultAction.trans hsame.constDefaultAction,
      hsame'.constDefaultEntry.trans hsame.constDefaultEntry⟩, ?_⟩
    rw [hset', hset, Set.union_assoc]
    congr 1
    ext e
    simp [declaredEntries]

omit [LookupStructure σ K] in
/-- **The default entry** of a program. -/
theorem MatchTable.setDefaultEntry_spec {fn : ActionFn} {data : List ℤ} {isConst : Bool}
    (hset : t.setDefaultEntry fn data isConst = some t') :
    t'.matchUnit = t.matchUnit ∧ t'.constDefaultAction = t.constDefaultAction ∧
      t'.constDefaultEntry = isConst ∧ t'.defaultEntry.actionFn = some fn ∧
      t'.defaultEntry.actionData = data ∧ ∀ fn', t.constDefaultAction = some fn' → fn' = fn := by
  unfold MatchTable.setDefaultEntry at hset
  split at hset
  case h_2 => cases hset
  case h_1 u t₁ hs =>
    obtain rfl := Option.some.inj hset
    rcases MatchTable.setDefaultAction_eq_some hs with ⟨e, herr, -⟩ | ⟨nextNode, -, hother, -, -, rfl⟩
    · cases herr
    refine ⟨rfl, rfl, rfl, rfl, rfl, fun fn' haction => ?_⟩
    rw [haction] at hother
    rcases hother with hnone | hsome
    · cases hnone
    · exact Option.some.inj hsome

/-- **A table as it was loaded**, from its own part of the program. -/
def Table.DirectlyLoaded (kb : KeyBuilder P K) (cfg : DirectConfig P) [Inhabited K]
    (tbl : Table σ K M) : Prop :=
  ∃ (size : ℕ) (ls : σ) (withCounters withAgeing withMeters : Bool) (directMeters : ℕ → M)
    (now : ℕ) (t : MatchTable σ K M), tbl = .direct t ∧
      MatchTable.load kb now
        ⟨.create size ls withCounters withAgeing withMeters directMeters, {}, none, false, false⟩
        cfg = some t

omit [LookupStructure σ K] in
/-- Before the entries of the initializer. -/
theorem MatchTable.guarded_loadDefault {t₀ : MatchTable σ K M}
    (hnew : t₀.defaultEntry = {} ∧ t₀.constDefaultAction = cfg.constDefaultAction)
    (hload : cfg.defaultEntry.elim (some t₀) (fun e => t₀.setDefaultEntry e.1 e.2.1 e.2.2) =
      some t) :
    t.matchUnit = t₀.matchUnit ∧ MatchTable.Guarded cfg { t with immutableEntries := true } := by
  rcases hd : cfg.defaultEntry with _ | ⟨fn, data, isConst⟩
  · rw [hd] at hload
    obtain rfl := Option.some.inj hload
    refine ⟨rfl, rfl, hnew.2, fun fn data heq => ?_, fun fn data heq => ?_, fun fn _ => ?_⟩
    · rw [hd] at heq
      cases heq
    · rw [hd] at heq
      cases heq
    · exact Or.inr ⟨hd, hnew.1⟩
  · rw [hd] at hload
    obtain ⟨hunit, haction, hconst, hfn, hdata, hsame⟩ := MatchTable.setDefaultEntry_spec hload
    refine ⟨hunit, rfl, haction.trans hnew.2, fun fn' data' heq => ?_, fun fn' data' heq => ?_,
      fun fn' haction' => Or.inl ?_⟩
    · rw [hd] at heq
      cases heq
      exact hconst
    · rw [hd] at heq
      cases heq
      exact ⟨hfn, hdata⟩
    · obtain rfl := hsame fn' (hnew.2.trans haction')
      exact hfn

theorem Table.DirectlyLoaded.guarded [Inhabited K] {tbl : Table σ K M}
    (h : tbl.DirectlyLoaded kb cfg) {entries : List (P × ActionFn × List ℤ × ℤ)}
    (hentries : cfg.entries = some entries) :
    ∃ t, tbl = .direct t ∧ t.Guarded cfg ∧ t.entrySet = declaredEntries kb entries := by
  obtain ⟨size, ls, withCounters, withAgeing, withMeters, directMeters, now, t, rfl, hload⟩ := h
  obtain ⟨t₁, hdefault, hload⟩ := Option.bind_eq_some_iff.mp hload
  rw [hentries] at hload
  obtain ⟨t₂, hfold, heq⟩ := Option.bind_eq_some_iff.mp hload
  obtain rfl := Option.some.inj heq
  obtain ⟨hunit, hguarded⟩ := MatchTable.guarded_loadDefault ⟨rfl, rfl⟩ hdefault
  obtain ⟨hsame, hset⟩ := MatchTable.loadEntries_spec hfold
  refine ⟨_, rfl, ⟨rfl, ?_, fun fn data hd => ?_, fun fn data hd => ?_, fun fn ha => ?_⟩, ?_⟩
  · exact hsame.constDefaultAction.trans hguarded.constDefaultAction
  · exact hsame.constDefaultEntry.trans (hguarded.constDefaultEntry fn data hd)
  · have hdefault := hguarded.defaultEntry fn data hd
    rwa [← hsame.defaultEntry] at hdefault
  · have haction := hguarded.defaultAction fn ha
    rwa [← hsame.defaultEntry] at haction
  · -- The unit was new, so it had no entries.
    have hempty : t₁.entrySet = ∅ := by
      have hhandles : t₁.matchUnit.handles = ∅ := by
        rw [hunit]
        exact congrArg MatchUnit.handles (resolveNextNodes_matchUnit ..)
      ext e
      simp [MatchTable.entrySet, hhandles]
    rw [hempty, Set.empty_union] at hset
    exact hset

end

/-! ## Runs -/

/-- A control-plane request, or a packet. `mt_clear_entries` is one of them. -/
inductive ControlRequest (ι P C : Type) where
  | request (r : Request ι P C)
  | mtClearEntries (t : ι) (resetDefaultEntry : Bool)

/-- The requests that clear a table. -/
def ControlRequest.Clears {ι : Type} (t : ι) : ControlRequest ι P C → Prop
  | .request (.table t' .resetState) => t' = t
  | .request .resetState => True
  | .mtClearEntries t' resetDefaultEntry => t' = t ∧ resetDefaultEntry = false
  | _ => False

section

variable {ι : Type} {σ K : ι → Type} [DecidableEq ι] [∀ t, LookupStructure (σ t) (K t)]
  [∀ t, Inhabited (K t)] [Meter M C] {kb : (t : ι) → KeyBuilder P (K t)}
  {s s' : Runtime ι σ K M} {t : ι} {cfg : DirectConfig P}

/-- One request to the context. -/
def Runtime.control (kb : (t : ι) → KeyBuilder P (K t)) (s : Runtime ι σ K M) :
    ControlRequest ι P C → Option (Answer P C (Runtime ι σ K M))
  | .request r => s.step kb r
  | .mtClearEntries t resetDefaultEntry =>
    if resetDefaultEntry then some (.error .error, s) else s.step kb (.table t .resetState)

/-- The state after a request. -/
def Runtime.after (kb : (t : ι) → KeyBuilder P (K t)) (s : Runtime ι σ K M)
    (a : ControlRequest ι P C) : Option (Runtime ι σ K M) :=
  (s.control kb a).map Prod.snd

/-- The table is direct, and guarded. -/
def Table.Guarded {σ K : Type} (cfg : DirectConfig P) (tbl : Table σ K M) : Prop :=
  ∃ t, tbl = .direct t ∧ t.Guarded cfg

/-- The entries, if the table is direct. -/
def Table.entrySet {σ K : Type} : Table σ K M → Set (K × Option ActionFn × List ℤ)
  | .direct t => t.entrySet
  | .indirect _ => ∅

theorem entrySet_of_sameEntries {σ K : Type} {t t' : MatchTable σ K M}
    (h : SameEntries t.matchUnit t'.matchUnit) : t'.entrySet = t.entrySet := by
  unfold MatchTable.entrySet
  rw [h.1, h.2]

theorem entrySet_of_empty {σ K : Type} {t : MatchTable σ K M} (h : t.matchUnit.handles = ∅) :
    t.entrySet = ∅ := by
  ext e
  simp [MatchTable.entrySet, h]

/-- One request to the runtime. -/
theorem Runtime.guarded_step (h : (s.tables t).Guarded cfg) {r : Request ι P C}
    {res : Result (Reply P C)} (hstep : s.step kb r = some (res, s')) :
    (s'.tables t).Guarded cfg ∧
      ((ControlRequest.request r).Clears t → (s'.tables t).entrySet = ∅) ∧
      (¬ (ControlRequest.request r).Clears t →
        (s'.tables t).entrySet = (s.tables t).entrySet) := by
  obtain ⟨t₀, ht₀, hguarded⟩ := h
  by_cases htable : ∃ t' q, r = .table t' q
  · obtain ⟨t', q, rfl⟩ := htable
    obtain ⟨tbl, ap, htbl, rfl⟩ := Runtime.step_table_eq_some hstep
    by_cases ht : t = t'
    · subst ht
      rw [ht₀] at htbl
      obtain ⟨t₁, rfl, hguarded₁, hreset, hsame⟩ := hguarded.step htbl
      simp only [Function.update_self, ht₀]
      have hclears : (ControlRequest.request (.table t q)).Clears t ↔ q = .resetState := by
        cases q with
        | resetState => exact iff_of_true rfl rfl
        | _ => exact iff_of_false id nofun
      rw [hclears]
      exact ⟨⟨t₁, rfl, hguarded₁⟩, fun hq => entrySet_of_empty (hreset hq),
        fun hq => entrySet_of_sameEntries (hsame hq)⟩
    · have hclears : ¬ (ControlRequest.request (.table t' q)).Clears t := by
        cases q with
        | resetState => exact fun heq => ht heq.symm
        | _ => exact id
      simp only [Function.update_of_ne ht]
      exact ⟨⟨t₀, ht₀, hguarded⟩, fun hc => absurd hc hclears, fun _ => trivial⟩
  · by_cases hreset : r = .resetState
    · subst hreset
      cases hstep
      refine ⟨?_, fun _ => ?_, fun hc => absurd trivial hc⟩
      · simp only [ht₀]
        exact ⟨_, rfl, ⟨hguarded.immutable, hguarded.constDefaultAction,
          hguarded.constDefaultEntry, hguarded.defaultEntry, hguarded.defaultAction⟩⟩
      · simp only [ht₀]
        exact entrySet_of_empty rfl
    · have heq := Runtime.step_tables_eq hstep (fun t' q heq => htable ⟨t', q, heq⟩) hreset
      have hclears : ¬ (ControlRequest.request r).Clears t := by
        cases r with
        | table t' q => exact absurd ⟨t', q, rfl⟩ htable
        | resetState => exact absurd rfl hreset
        | _ => exact id
      rw [heq]
      exact ⟨⟨t₀, ht₀, hguarded⟩, fun hc => absurd hc hclears, fun _ => rfl⟩

/-- **One request to the context**: the guards stay, and so do the entries unless they are
cleared. -/
theorem Runtime.guarded_after (h : (s.tables t).Guarded cfg) {a : ControlRequest ι P C}
    (hstep : s.after kb a = some s') :
    (s'.tables t).Guarded cfg ∧ (a.Clears t → (s'.tables t).entrySet = ∅) ∧
      (¬ a.Clears t → (s'.tables t).entrySet = (s.tables t).entrySet) := by
  obtain ⟨⟨res, s₁⟩, hcontrol, rfl⟩ := Option.map_eq_some_iff.mp hstep
  cases a with
  | request r => exact Runtime.guarded_step h hcontrol
  | mtClearEntries t' resetDefaultEntry =>
    simp only [Runtime.control] at hcontrol
    split_ifs at hcontrol with hreset
    · cases hcontrol
      exact ⟨h, fun hc => absurd (hc.2.symm.trans hreset) Bool.false_ne_true, fun _ => rfl⟩
    · have hone := Runtime.guarded_step h hcontrol
      -- It is the reset of the table.
      exact ⟨hone.1, fun hc => hone.2.1 hc.1,
        fun hc => hone.2.2 fun heq => hc ⟨heq, Bool.eq_false_iff.mpr hreset⟩⟩

/-! ## What stays constant -/

/-- What the program declared constant is as declared, and requests that would change it are
refused. -/
structure Table.Honours {σ K : Type} [LookupStructure σ K] [Inhabited K] (C : Type) [Meter M C]
    (kb : KeyBuilder P K) (cfg : DirectConfig P) (tbl : Table σ K M) : Prop where
  entries : ∀ entries, cfg.entries = some entries → tbl.entrySet = declaredEntries kb entries
  defaultEntry : ∀ fn data, cfg.defaultEntry = some (fn, data, true) → ∃ t, tbl = .direct t ∧
    t.defaultEntry.actionFn = some fn ∧ t.defaultEntry.actionData = data
  defaultAction : ∀ fn, cfg.constDefaultAction = some fn → ∃ t, tbl = .direct t ∧
    (t.defaultEntry.actionFn = some fn ∨ cfg.defaultEntry = none ∧ t.defaultEntry = {})
  refuses : ∀ r : DirectRequest P, r.Forbidden cfg → ∃ e : MatchErrorCode,
    ∀ ap, tbl.step kb ap (.direct r : TableRequest P C) = some (.error e, tbl, ap)

theorem Table.honours_iff {σ K : Type} [LookupStructure σ K] [Inhabited K]
    {kb : KeyBuilder P K} {cfg : DirectConfig P} {tbl : Table σ K M} (h : tbl.Guarded cfg)
    {entries : List (P × ActionFn × List ℤ × ℤ)} (hentries : cfg.entries = some entries) :
    tbl.Honours C kb cfg ↔ tbl.entrySet = declaredEntries kb entries := by
  constructor
  · intro hh
    exact hh.entries entries hentries
  · intro hset
    obtain ⟨t, rfl, hguarded⟩ := h
    refine ⟨fun entries' heq => ?_, fun fn data hd => ⟨t, rfl, hguarded.defaultEntry fn data hd⟩,
      fun fn ha => ⟨t, rfl, hguarded.defaultAction fn ha⟩, fun r hr => ?_⟩
    · obtain rfl := Option.some.inj (hentries.symm.trans heq)
      exact hset
    · obtain ⟨e, he⟩ : ∃ e, (t.step kb r : Option (Answer P C _)) = some (.error e, t) :=
        hguarded.refuses hr
      refine ⟨e, fun ap => ?_⟩
      exact congrArg (Option.map (Answer.ofTable id fun t' => (Table.direct t', ap))) he

/-- The entries after a run of which no request clears them. -/
theorem Runtime.entrySet_run (h : (s.tables t).Guarded cfg) {as : List (ControlRequest ι P C)}
    (hrun : Runs.run (Runtime.after kb) s as = some s') :
    (s'.tables t).Guarded cfg ∧
      ((s.tables t).entrySet = ∅ → (s'.tables t).entrySet = ∅) ∧
      ((∀ a ∈ as, ¬ a.Clears t) → (s'.tables t).entrySet = (s.tables t).entrySet) := by
  induction as generalizing s with
  | nil =>
    obtain rfl := Option.some.inj hrun
    exact ⟨h, id, fun _ => rfl⟩
  | cons a as ih =>
    obtain ⟨s₁, hstep, hrest⟩ := Runs.run_cons hrun
    obtain ⟨hguarded, hclear, hkeep⟩ := Runtime.guarded_after h hstep
    obtain ⟨hguarded', hempty, hsame⟩ := ih hguarded hrest
    refine ⟨hguarded', fun hnone => hempty ?_, fun hnever => ?_⟩
    · by_cases hc : a.Clears t
      · exact hclear hc
      · exact (hkeep hc).trans hnone
    · have hfirst := hkeep (hnever a (List.mem_cons_self ..))
      exact (hsame fun a' ha' => hnever a' (List.mem_cons_of_mem _ ha')).trans hfirst

/-- **Constant entries.** Let a program give the entries of a table. In all states of a run
the table honours what is declared constant, and refuses the requests that would change it,
if and only if there are no such entries or the run never clears the table. -/
theorem Runtime.honours_run_iff (kb : (t : ι) → KeyBuilder P (K t)) (s s' : Runtime ι σ K M)
    (t : ι) (cfg : DirectConfig P) (entries : List (P × ActionFn × List ℤ × ℤ))
    (hentries : cfg.entries = some entries) (hload : (s.tables t).DirectlyLoaded (kb t) cfg)
    (as : List (ControlRequest ι P C)) (hrun : Runs.run (Runtime.after kb) s as = some s') :
    (∀ n s₁, Runs.run (Runtime.after kb) s (as.take n) = some s₁ →
        (s₁.tables t).Honours C (kb t) cfg) ↔
      entries = [] ∨ ∀ a ∈ as, ¬ a.Clears t := by
  obtain ⟨t₀, ht₀, hguarded, hset⟩ := hload.guarded hentries
  have hguarded₀ : (s.tables t).Guarded cfg := ⟨t₀, ht₀, hguarded⟩
  have hset₀ : (s.tables t).entrySet = declaredEntries (kb t) entries := by
    rw [ht₀]
    exact hset
  constructor
  · intro hall
    by_cases hnil : entries = []
    · exact Or.inl hnil
    · refine Or.inr fun a ha hclears => ?_
      -- Just after it, the table is empty.
      obtain ⟨before, later, rfl⟩ := List.append_of_mem ha
      have hcut : before ++ a :: later = (before ++ [a]) ++ later := by simp
      rw [hcut] at hrun hall
      obtain ⟨s₁, hfirst, -⟩ := Runs.run_append hrun
      obtain ⟨s₀, hbefore, hlast⟩ := Runs.run_append hfirst
      obtain ⟨s₂, hstep, heq⟩ := Runs.run_cons hlast
      obtain rfl := Option.some.inj heq
      have hempty : (s₂.tables t).entrySet = ∅ :=
        (Runtime.guarded_after (Runtime.entrySet_run hguarded₀ hbefore).1 hstep).2.1 hclears
      have htake : ((before ++ [a]) ++ later).take (before ++ [a]).length = before ++ [a] :=
        List.take_left
      have hhonours := hall (before ++ [a]).length s₂ (by rw [htake]; exact hfirst)
      have hdeclared := hhonours.entries entries hentries
      rw [hempty] at hdeclared
      obtain ⟨entry, hentry⟩ := List.exists_mem_of_ne_nil entries hnil
      have hmem : ((kb t).matchParamsToEntry entry.1 entry.2.2.2, some entry.2.1, entry.2.2.1) ∈
          declaredEntries (kb t) entries := ⟨entry, hentry, rfl⟩
      rw [← hdeclared] at hmem
      exact hmem
  · intro hcond n s₁ hprefix
    obtain ⟨hguarded₁, hempty, hkeep⟩ := Runtime.entrySet_run hguarded₀ hprefix
    refine (Table.honours_iff hguarded₁ hentries).mpr ?_
    rcases hcond with hnil | hnever
    · have hnone : declaredEntries (kb t) entries = ∅ := by
        subst hnil
        simp [declaredEntries]
      rw [hnone] at hset₀ ⊢
      exact hempty hset₀
    · exact (hkeep fun a ha => hnever a (List.mem_of_mem_take ha)).trans hset₀

end

/-! ## A constant entry that is cleared -/

/-- A program that gives key 7 its action, and fixes the default. -/
def pinnedConfig : DirectConfig ByteContainer where
  nextTables := { nextNodes := fun _ => some none }
  defaultEntry := some (⟨2, 0⟩, [], true)
  entries := some [([7], ⟨1, 1⟩, [5], 0)]

/-- The table before its part of the program is read. -/
def newTable : MatchTable ExactMap ExactMatchKey Unit :=
  ⟨.create 2 ExactMap.create false false false fun _ => (), {}, none, false, false⟩

/-- A direct table over exact keys as it is loaded. -/
def pinned : Runtime Unit (fun _ => ExactMap) (fun _ => ExactMatchKey) Unit where
  profile := .create false
  tables _ := .direct ((MatchTable.load byteKeyBuilder 0 newTable pinnedConfig).getD newTable)

theorem pinned_loaded : (pinned.tables ()).DirectlyLoaded byteKeyBuilder pinnedConfig :=
  ⟨2, ExactMap.create, false, false, false, fun _ => (), 0, _, rfl, rfl⟩

/-- Requests that are refused, and a packet, change nothing. -/
theorem pinned_honours : ∃ s',
    Runs.run (Runtime.after fun _ => byteKeyBuilder) pinned
      [.request (.table () (.direct (.addEntry [8] ⟨1, 1⟩ [5] 0 1))),
        .request (.table () (.lookup [7] 64 1 0)), .mtClearEntries () true] = some s' ∧
      ∀ n s₁, Runs.run (Runtime.after fun _ => byteKeyBuilder) pinned
        (([.request (.table () (.direct (.addEntry [8] ⟨1, 1⟩ [5] 0 1))),
          .request (.table () (.lookup [7] 64 1 0)), .mtClearEntries () true] :
            List (ControlRequest Unit ByteContainer Unit)).take n) = some s₁ →
        (s₁.tables ()).Honours Unit byteKeyBuilder pinnedConfig := by
  refine ⟨_, rfl, ?_⟩
  refine (Runtime.honours_run_iff (fun _ => byteKeyBuilder) pinned _ () pinnedConfig _ rfl
    pinned_loaded _ rfl).mpr (Or.inr ?_)
  simp [ControlRequest.Clears]

/-- `mt_clear_entries` succeeds, and the entry is gone. -/
theorem pinned_cleared :
    ¬ ∀ n s₁, Runs.run (Runtime.after fun _ => byteKeyBuilder) pinned
        (([.mtClearEntries () false] : List (ControlRequest Unit ByteContainer Unit)).take n) =
          some s₁ →
        (s₁.tables ()).Honours Unit byteKeyBuilder pinnedConfig := by
  intro hall
  have hset := (hall 1 _ rfl).entries _ rfl
  have hmem : (⟨[7]⟩, some ⟨1, 1⟩, [5]) ∈ declaredEntries byteKeyBuilder
      [([7], ⟨1, 1⟩, [5], 0)] := ⟨_, List.mem_cons_self .., rfl⟩
  rw [← hset] at hmem
  obtain ⟨i, hi, -⟩ := hmem
  exact Finset.notMem_empty i hi

end MatchTables

end P4Bricks
