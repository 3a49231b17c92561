import P4Bricks.MatchTables.Helpers.Effects
import P4Bricks.MatchUnit.HandleLife
/-!
# Stale handles

A handle names an entry of a table until the entry is deleted. After that,
and until an addition hands it out again, no request should act on it. The
operations of the match unit compare the version of the handle with that of
the slot, and a stale handle never passes (`Run.stale`). The operations on the
timeout, the counters and the meter of an entry only ask whether the slot is
live, and act on whatever entry has taken it: `rejected_iff` says exactly when
a request with a stale handle is refused and changes nothing.
-/

namespace P4Bricks

open Lookup MatchUnit

namespace MatchUnit

variable {σ P K V : Type*} {u u' : MatchUnit σ K V} {h : EntryHandle} {i : ℕ}

/-! ## Handles that come to pass -/

/-- No slot takes the handle. -/
def Stale (u : MatchUnit σ K V) (h : EntryHandle) : Prop := ∀ i, u.checkHandle h ≠ .ok i

theorem Stale.error (hs : u.Stale h) : ∃ e, u.checkHandle h = .error e := by
  cases hc : u.checkHandle h with
  | error e => exact ⟨e, rfl⟩
  | ok i => exact absurd hc (hs i)

theorem checkHandle_congr (hh : u'.handles = u.handles) (he : u'.entries = u.entries) :
    u'.checkHandle h = u.checkHandle h :=
  SlotEq.checkHandle_eq ⟨by rw [hh], by rw [he]⟩

theorem stale_of_handles_eq_empty (hh : u.handles = ∅) : u.Stale h := by
  intro i hc
  obtain ⟨-, hmem, -⟩ := checkHandle_eq_ok.mp hc
  rw [hh] at hmem
  exact absurd hmem (Finset.notMem_empty i)

theorem Stale.modifyEntry (hs : u.Stale h) (h' : EntryHandle) (value : V) :
    (u.modifyEntry h' value).2.Stale h := by
  cases hc : u.checkHandle h' with
  | error e => rwa [modifyEntry_of_error hc]
  | ok j =>
    intro i hi
    rw [modifyEntry_of_ok hc] at hi
    obtain ⟨hint, hmem, hver⟩ := checkHandle_eq_ok.mp hi
    refine hs i (checkHandle_eq_ok.mpr ⟨hint, hmem, ?_⟩)
    by_cases hij : i = j
    · subst hij
      simpa using hver
    · simpa [Function.update_of_ne hij] using hver

variable [LookupStructure σ K]

/-- An addition makes one handle pass, the one it returns. -/
theorem Stale.addEntry {kb : KeyBuilder P K} {matchKey : P} {value : V} {priority : ℤ} {now : ℕ}
    (hs : u.Stale h) (hne : (u.addEntry kb matchKey value priority now).1 ≠ .ok h) :
    (u.addEntry kb matchKey value priority now).2.Stale h := by
  rcases hadd : u.addEntry kb matchKey value priority now with ⟨e | h', u'⟩
  · rwa [addEntry_eq_error hadd]
  · rw [hadd] at hne
    obtain ⟨-, -, -, hh, rfl⟩ := addEntry_eq_ok hadd
    intro i hc
    obtain ⟨hint, hmem, hver⟩ := checkHandle_eq_ok.mp hc
    by_cases hi : i = firstFree u.handles
    · -- The slot just taken: its version fits the handle, so the handle is the new one.
      subst hi
      simp only [Function.update_self] at hver
      have hlt : firstFree u.handles < 2 ^ 24 := hint ▸ handleInternal_lt h
      refine hne (congrArg Except.ok (handle_eq ?_ ?_))
      · rw [hh, handleInternal_handleSet _ hlt, hint]
      · rw [hh, handleVersion_handleSet _ hlt, ← hver, Nat.mod_eq_of_lt (handleVersion_lt h)]
    · refine hs i (checkHandle_eq_ok.mpr ⟨hint, ?_, ?_⟩)
      · simpa [hi] using hmem
      · simpa [Function.update_of_ne hi] using hver

theorem Stale.deleteEntry (hs : u.Stale h) (h' : EntryHandle) : (u.deleteEntry h').2.Stale h := by
  cases hc : u.checkHandle h' with
  | error e => rwa [deleteEntry_of_error hc]
  | ok j =>
    intro i hi
    rw [deleteEntry_of_ok hc] at hi
    obtain ⟨hint, hmem, hver⟩ := checkHandle_eq_ok.mp hi
    obtain ⟨hij, hmem⟩ := Finset.mem_erase.mp hmem
    refine hs i (checkHandle_eq_ok.mpr ⟨hint, hmem, ?_⟩)
    simpa [Function.update_of_ne hij] using hver

/-- The handle of a deleted entry is stale. -/
theorem stale_deleteEntry (hok : (u.deleteEntry h).1 = .ok ()) : (u.deleteEntry h).2.Stale h := by
  cases hc : u.checkHandle h with
  | error e => simp [deleteEntry_of_error hc] at hok
  | ok j =>
    intro i hi
    rw [deleteEntry_of_ok hc] at hi
    obtain ⟨hint, hmem, -⟩ := checkHandle_eq_ok.mp hi
    obtain ⟨hij, -, -⟩ := checkHandle_eq_ok.mp hc
    exact (Finset.mem_erase.mp hmem).1 (hint.symm.trans hij)

theorem Stale.lookup (hs : u.Stale h) (key : ByteContainer) (length now : ℕ) :
    (u.lookup key length now).2.Stale h := by
  obtain ⟨hh, he, -, -⟩ := lookup_eq (u := u) key length now
  intro i hi
  rw [checkHandle_congr hh he] at hi
  exact hs i hi

end MatchUnit

namespace MatchTables

/-! ## Runs of the runtime -/

section

variable {σ P K V M C : Type} [LookupStructure σ K] [Inhabited K] {h : EntryHandle}

theorem UnitEffect.stale [Inhabited V] {kb : KeyBuilder P K} {u u' : MatchUnit σ K V}
    {res : Result (Reply P C)} (hu : UnitEffect kb u res u') (hs : u.Stale h)
    (hres : res ≠ .ok (.handle h)) : u'.Stale h := by
  cases hu with
  | touch entryMeta _ _ => exact hs
  | lookup key length now _ => exact hs.lookup key length now
  | add matchKey value priority now =>
    refine hs.addEntry fun heq => hres ?_
    rw [heq]
    rfl
  | delete h' _ => exact hs.deleteEntry h'
  | modify h' value _ => exact hs.modifyEntry h' value
  | reset _ => exact stale_of_handles_eq_empty rfl

/-- The handle is stale for the table. -/
def Table.Stale (h : EntryHandle) : Table σ K M → Prop
  | .direct t => t.matchUnit.Stale h
  | .indirect t => t.matchUnit.Stale h

theorem Table.Stale.resetState (tbl : Table σ K M) : tbl.resetState.Stale h := by
  cases tbl <;> exact stale_of_handles_eq_empty rfl

/-- The request deletes the entry of the handle: by name, or with all others. -/
def TableRequest.Deletes (h : EntryHandle) (r : TableRequest P C) : Prop :=
  r = .direct (.deleteEntry h) ∨ r = .indirect (.deleteEntry h) ∨ r = .resetState

variable [Meter M C] {kb : KeyBuilder P K} {ap ap' : ActionProfile} {r : TableRequest P C}
  {tbl tbl' : Table σ K M} {res : Result (Reply P C)}

theorem Table.Stale.step (hs : tbl.Stale h) (hstep : tbl.step kb ap r = some (res, tbl', ap'))
    (hres : res ≠ .ok (.handle h)) : tbl'.Stale h := by
  cases tbl with
  | direct t =>
    obtain ⟨t', rfl, -, hu⟩ := Table.step_direct hstep
    exact hu.stale hs hres
  | indirect t =>
    obtain ⟨t', rfl, hu, -⟩ := Table.step_indirect hstep
    exact hu.unitEffect.stale hs hres

/-- A deletion leaves the handle stale. -/
theorem Table.stale_of_deletes (hr : r.Deletes h)
    (hstep : tbl.step kb ap r = some (.ok .none, tbl', ap')) : tbl'.Stale h := by
  rcases hr with rfl | rfl | rfl
  · cases tbl with
    | indirect t => cases hstep
    | direct t =>
      simp only [Table.step, Answer.ofTable, Option.map_some, Option.some.injEq, Prod.mk.injEq,
        MatchTable.step, MatchTable.deleteEntry, Except.map_id, id_eq] at hstep
      obtain ⟨hres, rfl, -⟩ := hstep
      split_ifs at hres ⊢ with himm
      · cases hres
      · refine stale_deleteEntry ?_
        cases hd : (t.matchUnit.deleteEntry h).1 with
        | error e =>
          rw [hd] at hres
          cases hres
        | ok v => rfl
  · cases tbl with
    | direct t => cases hstep
    | indirect t =>
      simp only [Table.step, MatchTableIndirect.step, Option.map_map, Option.map_eq_some_iff] at hstep
      obtain ⟨⟨res, t', ap''⟩, hd, heq⟩ := hstep
      rcases deleteEntry_eq_some hd with ⟨e, -, rfl, -, -⟩ | ⟨i, hc, rfl, rfl, -⟩
      · cases heq
      · cases heq
        exact stale_deleteEntry (by rw [deleteEntry_of_ok hc])
  · have htbl : tbl' = tbl.resetState := by
      cases tbl <;> cases hstep <;> rfl
    rw [htbl]
    exact Table.Stale.resetState tbl

/-! ## Refusals -/

/-- The handle a request names. -/
def CommonRequest.handle? : CommonRequest C → Option EntryHandle
  | .setEntryTtl h _ _ => some h
  | .queryCounters h => some h
  | .writeCounters h _ _ => some h
  | .resetCounters => none
  | .setMeterRates h _ => some h
  | .getMeterRates h => some h

/-- The handle a request names. -/
def TableRequest.handle? : TableRequest P C → Option EntryHandle
  | .common r => r.handle?
  | .direct (.deleteEntry h) => some h
  | .direct (.modifyEntry h _ _) => some h
  | .indirect (.deleteEntry h) => some h
  | .indirect (.modifyEntry h _) => some h
  | .indirect (.modifyEntryWs h _) => some h
  | .getEntry h _ => some h
  | _ => none

/-- The feature is off or the slot of the handle is free, or the meter itself
refuses the rates and stays as it is. -/
def MatchTableAbstract.Refuses (t : MatchTableAbstract σ K V M) : CommonRequest C → Prop
  | .setEntryTtl h _ _ => t.withAgeing = false ∨ handleInternal h ∉ t.matchUnit.handles
  | .queryCounters h => t.withCounters = false ∨ handleInternal h ∉ t.matchUnit.handles
  | .writeCounters h _ _ => t.withCounters = false ∨ handleInternal h ∉ t.matchUnit.handles
  | .setMeterRates h configs =>
    t.withMeters = false ∨ handleInternal h ∉ t.matchUnit.handles ∨
      Meter.setRates (t.directMeters (handleInternal h)) configs =
        (false, t.directMeters (handleInternal h))
  | .getMeterRates h => t.withMeters = false ∨ handleInternal h ∉ t.matchUnit.handles
  | .resetCounters => t.withCounters = false

/-- Only the requests on what belongs to an entry may act on another's. A
modification looks up the next node of the action first, which throws if the
action is none of the table's. -/
def Table.Refuses : Table σ K M → TableRequest P C → Prop
  | .direct t, .common r => t.toMatchTableAbstract.Refuses r
  | .indirect t, .common r => t.toMatchTableAbstract.Refuses r
  | .direct t, .direct (.modifyEntry _ fn data) =>
    t.immutableEntries = true ∨ data.length ≠ fn.numParams ∨ (t.getNextNode fn.id).isSome = true
  | _, _ => True

omit [LookupStructure σ K] [Inhabited K] [Meter M C] in
theorem checkSlot_cases (t : MatchTableAbstract σ K V M) (enabled : Bool)
    (disabled : MatchErrorCode) (h : EntryHandle) :
    ((enabled = false ∨ handleInternal h ∉ t.matchUnit.handles) ∧
      ∃ e, t.checkSlot enabled disabled h = .error e) ∨
    (¬ (enabled = false ∨ handleInternal h ∉ t.matchUnit.handles) ∧
      t.checkSlot enabled disabled h = .ok (handleInternal h)) := by
  unfold MatchTableAbstract.checkSlot MatchUnit.validHandle
  cases enabled with
  | false => exact .inl ⟨.inl rfl, _, rfl⟩
  | true =>
    by_cases hmem : handleInternal h ∈ t.matchUnit.handles
    · exact .inr ⟨by simp [hmem], by simp [hmem]⟩
    · exact .inl ⟨.inr hmem, .invalidHandle, by simp [hmem]⟩

omit [LookupStructure σ K] [Inhabited K] in
/-- What a table answers alike for all classes is refused just then. -/
theorem MatchTableAbstract.step_error_iff (t : MatchTableAbstract σ K V M) (r : CommonRequest C) :
    (∃ e, (t.step r : Answer P C _) = (.error e, t)) ↔ t.Refuses r := by
  cases r with
  | setEntryTtl h ttlMs now =>
    simp only [step, Answer.ofTable, MatchTableAbstract.setEntryTtl, MatchUnit.setEntryTtl, Refuses]
    cases hage : t.withAgeing with
    | false => exact ⟨fun _ => .inl rfl, fun _ => ⟨.ageingDisabled, rfl⟩⟩
    | true =>
      by_cases hmem : handleInternal h ∈ t.matchUnit.handles
      · simp [hmem, Except.map]
      · refine ⟨fun _ => .inr hmem, fun _ => ⟨.invalidHandle, ?_⟩⟩
        simp [hmem, Except.map, ← hage]
  | queryCounters h =>
    simp only [step, queryCounters, Refuses]
    rcases checkSlot_cases t t.withCounters .countersDisabled h with ⟨hc, e, he⟩ | ⟨hc, he⟩
    · simp [hc, he, Except.map]
    · simp [hc, he, Except.map]
  | writeCounters h bytes packets =>
    simp only [step, Answer.ofTable, writeCounters, Refuses]
    rcases checkSlot_cases t t.withCounters .countersDisabled h with ⟨hc, e, he⟩ | ⟨hc, he⟩
    · simp [hc, he, Except.map]
    · simp [hc, he, Except.map]
  | resetCounters =>
    simp only [step, Answer.ofTable, resetCounters, Refuses]
    cases hw : t.withCounters <;> simp [Except.map]
  | setMeterRates h configs =>
    simp only [step, Answer.ofTable, setMeterRates, Refuses]
    -- Rates may be refused halfway, and then some are written: the table stays as it was only if
    -- the meter does.
    rcases checkSlot_cases t t.withMeters .metersDisabled h with ⟨hc, e, he⟩ | ⟨hc, he⟩
    · rw [he]
      exact ⟨fun _ => hc.imp_right .inl, fun _ => ⟨e, rfl⟩⟩
    · rw [he]
      simp only [← or_assoc, or_iff_right hc]
      rcases Meter.setRates (t.directMeters (handleInternal h)) configs with ⟨accepted, m⟩
      constructor
      · rintro ⟨e, heq⟩
        obtain ⟨hres, ht⟩ := Prod.mk.inj heq
        have hm : Function.update t.directMeters (handleInternal h) m = t.directMeters :=
          congrArg MatchTableAbstract.directMeters ht
        have hm := congrFun hm (handleInternal h)
        rw [Function.update_self] at hm
        cases accepted with
        | true => cases hres
        | false => rw [hm]
      · intro heq
        obtain ⟨rfl, rfl⟩ := Prod.mk.inj heq
        exact ⟨.error, by simp [Except.map]⟩
  | getMeterRates h =>
    simp only [step, getMeterRates, Refuses]
    rcases checkSlot_cases t t.withMeters .metersDisabled h with ⟨hc, e, he⟩ | ⟨hc, he⟩
    · simp [hc, he, Except.map]
    · simp [hc, he, Except.map]

omit [Inhabited K] in
/-- The operations of the unit refuse a stale handle. -/
theorem MatchUnit.Stale.refused {u : MatchUnit σ K V} (hs : u.Stale h) (kb : KeyBuilder P K) :
    ∃ e, u.getValue h = .error e ∧ u.getEntry kb h = .error e ∧ u.deleteEntry h = (.error e, u) ∧
      ∀ value, u.modifyEntry h value = (.error e, u) := by
  obtain ⟨e, hc⟩ := hs.error
  refine ⟨e, ?_, ?_, deleteEntry_of_error hc, fun value => modifyEntry_of_error hc value⟩
  · rw [getValue, hc]
    rfl
  · rw [getEntry, hc]
    rfl

omit [LookupStructure σ K] [Inhabited K] [Meter M C] in
/-- The modification of a direct entry is refused unless it throws before. -/
theorem MatchTable.modifyEntry_error_iff {t : MatchTable σ K M} {fn : ActionFn} {data : List ℤ}
    {e : MatchErrorCode} (hm : ∀ value, t.matchUnit.modifyEntry h value = (.error e, t.matchUnit)) :
    (∃ e', t.modifyEntry h fn data = some (.error e', t)) ↔
      t.immutableEntries = true ∨ data.length ≠ fn.numParams ∨
        (t.getNextNode fn.id).isSome = true := by
  unfold MatchTable.modifyEntry
  split_ifs with himm hdata
  · exact iff_of_true ⟨_, rfl⟩ (.inl himm)
  · exact iff_of_true ⟨_, rfl⟩ (.inr (.inl hdata))
  · rw [or_iff_right himm, or_iff_right hdata]
    cases t.getNextNode fn.id with
    | none => simp
    | some nextNode => simp [hm]

/-- A request with a stale handle that the unit answers is refused. -/
theorem Table.step_error_of_stale (hs : tbl.Stale h) (hh : r.handle? = some h)
    (hr : ∀ c, r ≠ .common c) (hrefuses : tbl.Refuses r) :
    ∃ e, tbl.step kb ap r = some (.error e, tbl, ap) := by
  cases tbl with
  | direct t =>
    -- The unit refuses the handle in each of its functions; the table passes that on.
    obtain ⟨e, hv, hg, hd, hm⟩ := MatchUnit.Stale.refused hs kb
    cases r with
    | common c => exact absurd rfl (hr c)
    | direct q =>
      cases q with
      | deleteEntry h' =>
        obtain rfl := Option.some.inj hh
        simp only [Table.step, MatchTable.step, Answer.ofTable, MatchTable.deleteEntry, hd]
        split_ifs <;> exact ⟨_, rfl⟩
      | modifyEntry h' fn data =>
        obtain rfl := Option.some.inj hh
        obtain ⟨e', he'⟩ := (MatchTable.modifyEntry_error_iff hm).mpr hrefuses
        exact ⟨e', by simp only [Table.step, MatchTable.step, he']; rfl⟩
      | addEntry matchKey fn data priority now => cases hh
      | setDefaultAction fn data => cases hh
    | indirect q => exact ⟨_, rfl⟩
    | getEntry h' now =>
      obtain rfl := Option.some.inj hh
      simp only [Table.step, hg]
      exact ⟨e, rfl⟩
    | resetState => cases hh
    | lookup key length now hash => cases hh
  | indirect t =>
    obtain ⟨e, hv, hg, hd, hm⟩ := MatchUnit.Stale.refused hs kb
    cases r with
    | common c => exact absurd rfl (hr c)
    | direct q => exact ⟨_, rfl⟩
    | indirect q =>
      cases q with
      | deleteEntry h' =>
        obtain rfl := Option.some.inj hh
        simp only [Table.step, MatchTableIndirect.step, MatchTableIndirect.deleteEntry, hv]
        exact ⟨e, rfl⟩
      | modifyEntry h' mbr =>
        obtain rfl := Option.some.inj hh
        simp only [Table.step, MatchTableIndirect.step, MatchTableIndirect.modifyEntry, hv]
        exact ⟨e, rfl⟩
      | modifyEntryWs h' grp =>
        obtain rfl := Option.some.inj hh
        simp only [Table.step, MatchTableIndirect.step, MatchTableIndirect.modifyEntryWs, hv]
        split_ifs <;> exact ⟨_, rfl⟩
      | addEntry matchKey mbr priority now => cases hh
      | setDefaultMember mbr => cases hh
      | addEntryWs matchKey grp priority now => cases hh
      | setDefaultGroup grp => cases hh
    | getEntry h' now =>
      obtain rfl := Option.some.inj hh
      simp only [Table.step, hg]
      exact ⟨e, rfl⟩
    | resetState => cases hh
    | lookup key length now hash => cases hh

theorem Table.step_error_iff (kb : KeyBuilder P K) (ap : ActionProfile) (hs : tbl.Stale h)
    (hh : r.handle? = some h) :
    (∃ e, tbl.step kb ap r = some (.error e, tbl, ap)) ↔ tbl.Refuses r := by
  -- What all classes of tables answer alike is settled already; the rest goes to the unit.
  by_cases hr : ∃ c, r = .common c
  · obtain ⟨c, rfl⟩ := hr
    cases tbl with
    | direct t =>
      rw [Table.Refuses, ← MatchTableAbstract.step_error_iff (P := P)]
      simp only [Table.step, Answer.ofTable, Except.map_id, id_eq, Option.some.injEq,
        Prod.mk.injEq, and_true, Table.direct.injEq]
      constructor
      · rintro ⟨e, he, ht⟩
        exact ⟨e, Prod.ext he (congrArg MatchTable.toMatchTableAbstract ht)⟩
      · rintro ⟨e, he⟩
        exact ⟨e, by rw [he], by rw [he]⟩
    | indirect t =>
      rw [Table.Refuses, ← MatchTableAbstract.step_error_iff (P := P)]
      simp only [Table.step, Answer.ofTable, Except.map_id, id_eq, Option.some.injEq,
        Prod.mk.injEq, and_true, Table.indirect.injEq]
      constructor
      · rintro ⟨e, he, ht⟩
        exact ⟨e, Prod.ext he (congrArg MatchTableIndirect.toMatchTableAbstract ht)⟩
      · rintro ⟨e, he⟩
        exact ⟨e, by rw [he], by rw [he]⟩
  · have hr := not_exists.mp hr
    refine ⟨?_, Table.step_error_of_stale hs hh hr⟩
    rintro ⟨e, he⟩
    cases tbl with
    | indirect t =>
      cases r with
      | common c => exact absurd rfl (hr c)
      | _ => exact trivial
    | direct t =>
      cases r with
      | common c => exact absurd rfl (hr c)
      | direct q =>
        cases q with
        | modifyEntry h' fn data =>
          obtain rfl := Option.some.inj hh
          obtain ⟨e', -, -, -, hm⟩ := MatchUnit.Stale.refused hs kb
          refine (MatchTable.modifyEntry_error_iff hm).mp ?_
          simp only [Table.step, MatchTable.step, Option.map_eq_some_iff] at he
          obtain ⟨-, ⟨⟨res, t'⟩, hmod, rfl⟩, heq⟩ := he
          simp only [Answer.ofTable, Prod.mk.injEq, Table.direct.injEq, id_eq] at heq
          obtain ⟨hres, rfl, -⟩ := heq
          cases res with
          | error e'' => exact ⟨e'', hmod⟩
          | ok v => cases hres
        | _ => exact trivial
      | _ => exact trivial

end

namespace Runtime

variable {ι P M C : Type} {σ K : ι → Type} [DecidableEq ι] [∀ t, LookupStructure (σ t) (K t)]
  [∀ t, Inhabited (K t)] [Meter M C] {kb : (t : ι) → KeyBuilder P (K t)} {h : EntryHandle} {t : ι}
  {s s' : Runtime ι σ K M}

/-- A request on the profile leaves the tables alone. -/
theorem step_tables_eq {r : Request ι P C} {res : Result (Reply P C)}
    (hstep : s.step kb r = some (res, s')) (hr : ∀ t q, r ≠ .table t q) (hreset : r ≠ .resetState) :
    s'.tables = s.tables := by
  cases r with
  | table t q => exact absurd rfl (hr t q)
  | resetState => exact absurd rfl hreset
  | _ =>
    obtain ⟨⟨_, _⟩, -, heq⟩ := Option.map_eq_some_iff.mp hstep
    cases heq
    rfl

theorem stale_step {r : Request ι P C} {res : Result (Reply P C)} (hs : (s.tables t).Stale h)
    (hstep : s.step kb r = some (res, s'))
    (hres : ∀ q, r = .table t q → res ≠ .ok (.handle h)) : (s'.tables t).Stale h := by
  by_cases hr : ∃ t' q, r = .table t' q
  · obtain ⟨t', q, rfl⟩ := hr
    obtain ⟨tbl, ap, htbl, rfl⟩ := step_table_eq_some hstep
    by_cases ht : t = t'
    · subst ht
      simp only [Function.update_self]
      exact hs.step htbl (hres q rfl)
    · simpa only [Function.update_of_ne ht] using hs
  · by_cases hreset : r = .resetState
    · subst hreset
      cases hstep
      exact Table.Stale.resetState _
    · rw [step_tables_eq hstep (fun t' q heq => hr ⟨t', q, heq⟩) hreset]
      exact hs

/-- **A stale handle stays stale** until an addition returns it. -/
theorem Run.stale {trace : List (Request ι P C × Result (Reply P C))} (hrun : Run kb s trace s')
    (hs : (s.tables t).Stale h) (hfresh : ∀ q, (.table t q, .ok (.handle h)) ∉ trace) :
    (s'.tables t).Stale h := by
  induction hrun with
  | nil s => exact hs
  | cons _ hstep hrun ih =>
    refine ih (stale_step hs hstep ?_) fun q hq => hfresh q (List.mem_cons_of_mem _ hq)
    rintro q rfl rfl
    exact hfresh q (List.mem_cons_self ..)

/-- The request deletes the entry of the handle in the table. -/
def Deletes (t : ι) (h : EntryHandle) (r : Request ι P C) : Prop :=
  (∃ q : TableRequest P C, q.Deletes h ∧ r = .table t q) ∨ r = .resetState

theorem stale_of_deletes {r : Request ι P C} (hr : Deletes t h r)
    (hstep : s.step kb r = some (.ok .none, s')) : (s'.tables t).Stale h := by
  rcases hr with ⟨q, hq, rfl⟩ | rfl
  · obtain ⟨tbl, ap, htbl, rfl⟩ := step_table_eq_some hstep
    simp only [Function.update_self]
    exact Table.stale_of_deletes hq htbl
  · cases hstep
    exact Table.Stale.resetState _

/-- **When stale handles are refused.** In any state, reachable or not, let the entry of a handle
be deleted and the handle not be handed out again. A request with it returns
an error and changes nothing, if and only if it is not one on the timeout, the
counters or the meter of an entry with the feature on and another entry in the
slot (but for rates the meter refuses itself). -/
theorem rejected_iff (s₁ s₂ s₃ : Runtime ι σ K M)
    (after : List (Request ι P C × Result (Reply P C))) (d : Request ι P C)
    (r : TableRequest P C) (hd : Deletes t h d) (hstep : s₁.step kb d = some (.ok .none, s₂))
    (hafter : Run kb s₂ after s₃) (hfresh : ∀ q, (.table t q, .ok (.handle h)) ∉ after)
    (hh : r.handle? = some h) :
    (∃ e, s₃.step kb (.table t r) = some (.error e, s₃)) ↔ (s₃.tables t).Refuses r := by
  have hs := hafter.stale (stale_of_deletes hd hstep) hfresh
  rw [← Table.step_error_iff (kb t) s₃.profile hs hh]
  constructor
  · rintro ⟨e, he⟩
    obtain ⟨tbl, ap, hstep, heq⟩ := step_table_eq_some he
    have hap : ap = s₃.profile := congrArg Runtime.profile heq.symm
    have htbl : tbl = s₃.tables t := by
      have := congrFun (congrArg Runtime.tables heq) t
      simpa using this.symm
    exact ⟨e, by rw [hstep, hap, htbl]⟩
  · rintro ⟨e, he⟩
    refine ⟨e, ?_⟩
    simp only [step, he, Option.map_some, Answer.ofTable, Function.update_eq_self]
    rfl

/-! ## A slot used twice -/

/-- One direct table with counters and ageing, over exact keys. -/
def counted : Runtime Unit (fun _ => ExactMap) (fun _ => ExactMatchKey) Unit where
  profile := .create false
  tables _ := .direct
    { matchUnit := MatchUnit.create 4 ExactMap.create, withCounters := true, withAgeing := true,
      withMeters := false, directMeters := fun _ => (), nextNodes := fun _ => some none }

/-- The entry of handle 0 is deleted and another takes its slot. With handle 0
one still reads and writes the counters of the other, and its timeout. -/
theorem counted_stale_accepted :
    ∃ s₁ s₂ s₃ s₄ : Runtime Unit (fun _ => ExactMap) (fun _ => ExactMatchKey) Unit,
      counted.step (fun _ => byteKeyBuilder) (.table () (.direct (.addEntry [7] ⟨1, 0⟩ [] 0 0))) =
        some (.ok (.handle 0), s₁) ∧
      s₁.step (fun _ => byteKeyBuilder) (.table () (.direct (.deleteEntry 0))) =
        some (.ok .none, s₂) ∧
      s₂.step (fun _ => byteKeyBuilder) (.table () (.direct (.addEntry [8] ⟨1, 0⟩ [] 0 0))) =
        some (.ok (.handle 0x1000000), s₃) ∧
      s₃.step (fun _ => byteKeyBuilder) (.table () (.common (.writeCounters 0 5 6))) =
        some (.ok .none, s₄) ∧
      (s₄.step (fun _ => byteKeyBuilder) (.table () (.common (.queryCounters 0x1000000)))).map
        Prod.fst = some (.ok (.counters 5 6)) ∧
      (s₃.step (fun _ => byteKeyBuilder) (.table () (.common (.setEntryTtl 0 9 0)))).map
        Prod.fst = some (.ok .none) :=
  ⟨_, _, _, _, rfl, rfl, rfl, rfl, rfl, rfl⟩

theorem counted_slot_reused :
    ∃ s₁ s₂ s₃ : Runtime Unit (fun _ => ExactMap) (fun _ => ExactMatchKey) Unit,
      counted.step (fun _ => byteKeyBuilder) (.table () (.direct (.addEntry [7] ⟨1, 0⟩ [] 0 0))) =
        some (.ok (.handle 0), s₁) ∧
      s₁.step (fun _ => byteKeyBuilder) (.table () (.direct (.deleteEntry 0))) =
        some (.ok .none, s₂) ∧
      s₂.step (fun _ => byteKeyBuilder) (.table () (.direct (.addEntry [8] ⟨1, 0⟩ [] 0 0))) =
        some (.ok (.handle 0x1000000), s₃) :=
  ⟨_, _, _, rfl, rfl, rfl⟩

/-- There the handle is stale, and a second deletion with it is refused. -/
theorem counted_stale_refused :
    ∃ s₁ s₂ s₃ : Runtime Unit (fun _ => ExactMap) (fun _ => ExactMatchKey) Unit,
      s₁.step (fun _ => byteKeyBuilder) (.table () (.direct (.deleteEntry 0))) =
        some (.ok .none, s₂) ∧
      Run (fun _ => byteKeyBuilder) s₂
        [(.table () (.direct (.addEntry [8] ⟨1, 0⟩ [] 0 0)), .ok (.handle 0x1000000))] s₃ ∧
      ∃ e, s₃.step (fun _ => byteKeyBuilder) (.table () (.direct (.deleteEntry 0))) =
        some (.error e, s₃) := by
  obtain ⟨s₁, s₂, s₃, -, hdel, hadd⟩ := counted_slot_reused
  have hrun : Run (fun _ => byteKeyBuilder) s₂
      [(.table () (.direct (.addEntry [8] ⟨1, 0⟩ [] 0 0)), .ok (.handle 0x1000000))] s₃ :=
    .cons trivial hadd (.nil s₃)
  refine ⟨s₁, s₂, s₃, hdel, hrun, ?_⟩
  refine (rejected_iff s₁ s₂ s₃ _ (.table () (.direct (.deleteEntry 0))) (.direct (.deleteEntry 0))
    (.inl ⟨_, .inl rfl, rfl⟩) hdel hrun ?_ rfl).mpr ?_
  · intro q hq
    cases List.mem_singleton.mp hq
  · cases s₃.tables () <;> exact trivial

end Runtime

end MatchTables

end P4Bricks
