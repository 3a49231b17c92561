import P4Bricks.Ageing.Notifications
import P4Bricks.Common.Pointwise
import P4Bricks.MatchTables.StaleHandles
/-!
# Sweep after sweep

What the monitor tells of a table, over a run in which entries come, go, are hit and expire
between the sweeps. The sets it tells are those of `news`, for the handles that had expired
in this table alone.
-/

namespace P4Bricks

open Lookup MatchUnit MatchTables

namespace Ageing

variable {ι P M C : Type} {σ K : ι → Type} [LinearOrder ι]

/-- What had expired in a table at each of the sweeps. -/
def expiries (t : ι) (sweeps : List (Sweep ι σ K M)) : List (Finset EntryHandle) :=
  sweeps.map fun sweep => expired sweep.now (sweep.tables t)

/-- What was told of a table by the sweep before the sweep `k`. -/
def toldBefore (t : ι) (sweeps : List (Sweep ι σ K M)) : ℕ → List EntryHandle
  | 0 => []
  | k + 1 => (sweeps[k]?.map fun sweep => told t sweep.messages).getD []

namespace System

variable {s s' : System ι σ K M} {t : ι}

/-- The state of the monitor is that of what was told, and nothing else was told. -/
structure Accounts (tables : Finset ι) (s : System ι σ K M) : Prop where
  inReach : ∀ t, TableInReach (s.runtime.tables t)
  quiet : Quiet s.monitor
  ageing : s.monitor.tablesWithAgeing = tables
  prev : ∀ t ∈ tables, s.monitor.prevSweepEntries t = lastNews ∅ (expiries t s.sweeps)
  tells : ∀ t ∈ tables,
    List.Forall₂ (fun sweep new => Tells t sweep.messages new) s.sweeps
      (news ∅ (expiries t s.sweeps))
  ids : ∀ sweep ∈ s.sweeps, ∀ message ∈ sweep.messages, message.tableId ∈ tables

variable [∀ t, LookupStructure (σ t) (K t)] [∀ t, Inhabited (K t)] [Meter M C]
  {kb : (t : ι) → KeyBuilder P (K t)} {tables : Finset ι}

omit [LinearOrder ι] in
/-- A request keeps timeouts in reach, in all tables. -/
theorem inReach_request [DecidableEq ι] {r r' : Runtime ι σ K M} {request : Request ι P C}
    {res : Result (Reply P C)} (h : ∀ t, TableInReach (r.tables t))
    (hstep : r.step kb request = some (res, r')) : ∀ t, TableInReach (r'.tables t) := by
  intro t
  by_cases htable : ∃ t' q, request = .table t' q
  · obtain ⟨t', q, rfl⟩ := htable
    obtain ⟨tbl, ap, htbl, rfl⟩ := Runtime.step_table_eq_some hstep
    by_cases ht : t = t'
    · subst ht
      simpa only [Function.update_self] using (h t).step htbl
    · simpa only [Function.update_of_ne ht] using h t
  · by_cases hreset : request = .resetState
    · subst hreset
      cases hstep
      -- The new units have no timeouts at all.
      rcases hkind : r.tables t with direct | indirect
      · simp only [hkind]
        exact fun _ _ => rfl
      · simp only [hkind]
        exact fun _ _ => rfl
    · rw [Runtime.step_tables_eq hstep (fun t' q heq => htable ⟨t', q, heq⟩) hreset]
      exact h t

omit [∀ t, LookupStructure (σ t) (K t)] [∀ t, Inhabited (K t)] in
/-- **One sweep** is accounted for. -/
theorem Accounts.sweep (h : Accounts tables s) {now : ℕ} {m : AgeingMonitor ι}
    {messages : List (Message ι)}
    (hsweep : (s.monitor.doSweep fun t => sweepEntries now (s.runtime.tables t)) =
      some (m, messages)) :
    Accounts tables
      { s with monitor := m, sweeps := s.sweeps ++ [⟨now, s.runtime.tables, messages⟩] } := by
  have hexact : ∀ t swept, sweepEntries now (s.runtime.tables t) = some swept →
      swept.Nodup ∧ swept.toFinset = expired now (s.runtime.tables t) :=
    fun t swept hswept => sweepEntries_table (h.inReach t) hswept
  obtain ⟨hquiet, htables, hprev, hids, htells⟩ :=
    sweepFrom_spec hexact (Finset.sort_nodup _ _) h.quiet hsweep
  have hmem : ∀ t, t ∈ s.monitor.tablesWithAgeing.sort (· ≤ ·) ↔ t ∈ tables := by
    intro t
    rw [Finset.mem_sort, h.ageing]
  have hexpiries : ∀ t, expiries t (s.sweeps ++ [⟨now, s.runtime.tables, messages⟩]) =
      expiries t s.sweeps ++ [expired now (s.runtime.tables t)] := by
    intro t
    unfold expiries
    rw [List.map_append, List.map_singleton]
  refine ⟨h.inReach, hquiet, htables.trans h.ageing, fun t ht => ?_, fun t ht => ?_,
    fun sweep hsweep => ?_⟩
  · rw [hexpiries, lastNews_concat, hprev, if_pos ((hmem t).mpr ht), h.prev t ht]
  · rw [hexpiries, news_concat, ← h.prev t ht]
    exact List.rel_append (h.tells t ht) (List.forall₂_cons.mpr
      ⟨htells t ((hmem t).mpr ht), .nil⟩)
  · intro message hmessage
    rcases List.mem_append.mp hsweep with hbefore | hthis
    · exact h.ids sweep hbefore message hmessage
    · obtain rfl := List.mem_singleton.mp hthis
      exact (hmem _).mp (hids message hmessage)

/-- **One action** is accounted for, unless it is the reset of all state. -/
theorem Accounts.step (h : Accounts tables s) {a : Action ι P C}
    (ha : a ≠ .request .resetState) (hstep : s.step kb a = some s') : Accounts tables s' := by
  cases a with
  | request r =>
    obtain ⟨⟨res, runtime⟩, hrequest, heq⟩ := Option.bind_eq_some_iff.mp hstep
    have hreset : r ≠ .resetState := by
      intro hr
      exact ha (congrArg Action.request hr)
    have hsame : s' = { s with runtime := runtime } := by
      have hs' := (Option.some.inj heq).symm
      cases r with
      | resetState => exact absurd rfl hreset
      | _ => exact hs'
    subst hsame
    exact ⟨inReach_request h.inReach hrequest, h.quiet, h.ageing, h.prev, h.tells, h.ids⟩
  | sweep now =>
    obtain ⟨⟨m, messages⟩, hsweep, heq⟩ := Option.bind_eq_some_iff.mp hstep
    obtain rfl := Option.some.inj heq
    exact h.sweep hsweep

/-- **A run** is accounted for. -/
theorem Accounts.run (h : Accounts tables s) {as : List (Action ι P C)}
    (has : ∀ a ∈ as, a ≠ .request .resetState) (hrun : Runs.run (System.step kb) s as = some s') :
    Accounts tables s' := by
  induction as generalizing s with
  | nil =>
    obtain rfl := Option.some.inj hrun
    exact h
  | cons a as ih =>
    obtain ⟨s₁, hstep, hrest⟩ := Runs.run_cons hrun
    have h₁ := h.step (has a (List.mem_cons_self ..)) hstep
    exact ih h₁ (fun a' ha' => has a' (List.mem_cons_of_mem _ ha')) hrest

end System

/-! ## From a program as it was loaded -/

/-- Before the first table is added. -/
def AgeingMonitor.create (deviceId cxtId : ℕ) : AgeingMonitor ι where
  deviceId := deviceId
  cxtId := cxtId

omit [LinearOrder ι] in
theorem addTables_spec [LinearOrder ι] (ageing : List ι) {m : AgeingMonitor ι} (hquiet : Quiet m)
    (hprev : ∀ t, m.prevSweepEntries t = ∅) :
    Quiet (ageing.foldl AgeingMonitor.addTable m) ∧
      (ageing.foldl AgeingMonitor.addTable m).tablesWithAgeing =
        m.tablesWithAgeing ∪ ageing.toFinset ∧
      ∀ t, (ageing.foldl AgeingMonitor.addTable m).prevSweepEntries t = ∅ := by
  induction ageing generalizing m with
  | nil =>
    rw [List.foldl_nil, List.toFinset_nil, Finset.union_empty]
    exact ⟨hquiet, rfl, hprev⟩
  | cons t ageing ih =>
    have hone : Quiet (m.addTable t) ∧
        (m.addTable t).tablesWithAgeing = insert t m.tablesWithAgeing ∧
        ∀ t', (m.addTable t).prevSweepEntries t' = ∅ := by
      unfold AgeingMonitor.addTable
      split_ifs with hmem
      · exact ⟨hquiet, (Finset.insert_eq_of_mem hmem).symm, hprev⟩
      · refine ⟨hquiet, rfl, fun t' => ?_⟩
        by_cases ht : t' = t
        · subst ht
          simp
        · simp [ht, hprev]
    obtain ⟨hquiet', htables, hprev'⟩ := ih hone.1 hone.2.2
    refine ⟨hquiet', ?_, hprev'⟩
    rw [List.foldl_cons, htables, hone.2.1, List.toFinset_cons, Finset.insert_union,
      Finset.union_insert]

variable [∀ t, LookupStructure (σ t) (K t)] [∀ t, LiveLookup (σ t) (K t)]
  [∀ t, Inhabited (K t)] [Meter M C] {kb : (t : ι) → KeyBuilder P (K t)}
  {s s' : System ι σ K M} {t : ι}

/-- A program as it was loaded, with ageing for these tables. No sweep was made. -/
structure System.Loaded (kb : (t : ι) → KeyBuilder P (K t)) (ageing : List ι)
    (s : System ι σ K M) : Prop where
  tables : ∀ t, ∃ cfg, (s.runtime.tables t).Loaded (kb t) cfg
  monitor : ∃ deviceId cxtId,
    s.monitor = ageing.foldl AgeingMonitor.addTable (.create deviceId cxtId)
  sweeps : s.sweeps = []

theorem System.Loaded.accounts {ageing : List ι} (h : System.Loaded kb ageing s) :
    System.Accounts ageing.toFinset s := by
  obtain ⟨deviceId, cxtId, hmonitor⟩ := h.monitor
  obtain ⟨hquiet, htables, hprev⟩ := addTables_spec ageing
    (show Quiet (AgeingMonitor.create deviceId cxtId : AgeingMonitor ι) from ⟨rfl, rfl⟩)
    fun _ => rfl
  rw [← hmonitor] at hquiet htables hprev
  refine ⟨fun t => ?_, hquiet, ?_, fun t _ => ?_, fun t _ => ?_, ?_⟩
  · obtain ⟨cfg, hcfg⟩ := h.tables t
    exact tableInReach_of_loaded hcfg
  · rw [htables]
    exact Finset.empty_union _
  · rw [hprev, h.sweeps]
    rfl
  · rw [h.sweeps]
    exact .nil
  · rw [h.sweeps]
    exact nofun

omit [∀ t, LookupStructure (σ t) (K t)] [∀ t, LiveLookup (σ t) (K t)] [∀ t, Inhabited (K t)] in
/-- What sweep after sweep tells, as sets. -/
theorem System.Accounts.told_news {tables : Finset ι} (h : System.Accounts tables s)
    (ht : t ∈ tables) :
    (s.sweeps.map fun sweep => (told t sweep.messages).toFinset) =
      news ∅ (expiries t s.sweeps) := by
  have heq : List.Forall₂ (fun sweep new => (told t sweep.messages).toFinset = new) s.sweeps
      (news ∅ (expiries t s.sweeps)) :=
    (h.tells t ht).imp fun _ _ htells => htells.toFinset
  have hmap := List.forall₂_map_left_iff.mpr heq
  exact List.forall₂_eq_eq_eq ▸ hmap

omit [∀ t, LookupStructure (σ t) (K t)] [∀ t, LiveLookup (σ t) (K t)] [∀ t, Inhabited (K t)] in
/-- **Each sweep** tells what had expired, without what was told before. -/
theorem System.Accounts.tells_at {tables : Finset ι} (h : System.Accounts tables s)
    (ht : t ∈ tables) {k : ℕ} {sweep : Sweep ι σ K M} (hk : s.sweeps[k]? = some sweep) :
    Tells t sweep.messages
      (expired sweep.now (sweep.tables t) \ (toldBefore t s.sweeps k).toFinset) := by
  obtain ⟨new, hnew, htells⟩ := forall₂_getElem? (h.tells t ht) hk
  have hexpired : ∀ (k : ℕ) (sweep : Sweep ι σ K M), s.sweeps[k]? = some sweep →
      (expiries t s.sweeps)[k]? = some (expired sweep.now (sweep.tables t)) := by
    intro k sweep hk
    unfold expiries
    rw [List.getElem?_map, hk, Option.map_some]
  rcases k with _ | k
  · have hfirst : (news ∅ (expiries t s.sweeps))[0]? = _ := news_zero (hexpired 0 sweep hk)
    obtain rfl := Option.some.inj (hnew.symm.trans hfirst)
    exact htells
  · -- There is a sweep before, and what it told is what the monitor kept.
    obtain ⟨before, hbefore⟩ : ∃ before, s.sweeps[k]? = some before := by
      have hlt := (List.getElem?_eq_some_iff.mp hk).1
      exact ⟨_, List.getElem?_eq_getElem (by omega)⟩
    have htold : (news ∅ (expiries t s.sweeps))[k]? =
        some (told t before.messages).toFinset := by
      rw [← h.told_news ht, List.getElem?_map, hbefore, Option.map_some]
    have hnext := news_succ htold (hexpired (k + 1) sweep hk)
    obtain rfl := Option.some.inj (hnew.symm.trans hnext)
    have hlast : toldBefore t s.sweeps (k + 1) = told t before.messages := by
      rw [toldBefore, hbefore, Option.map_some, Option.getD_some]
    rwa [hlast]

/-- **What is told.** After any run, each sweep has told of a table what had expired in it and
the sweep before had not told, each handle once, in one message if there is any. The sets are
those of this table's expiries alone. So nothing is told twice running, and what stays expired
is told at one of two sweeps. -/
theorem System.Loaded.tells_new (kb : (t : ι) → KeyBuilder P (K t)) (ageing : List ι)
    (s s' : System ι σ K M) (hload : System.Loaded kb ageing s) (as : List (Action ι P C))
    (has : ∀ a ∈ as, a ≠ .request .resetState)
    (hrun : Runs.run (System.step kb) s as = some s') (t : ι) (ht : t ∈ ageing) :
    (s'.sweeps.map fun sweep => (told t sweep.messages).toFinset) =
        news ∅ (expiries t s'.sweeps) ∧
      ∀ k sweep, s'.sweeps[k]? = some sweep →
        (told t sweep.messages).Nodup ∧
        (sweep.messages.filter fun message => message.tableId = t).length =
          (if told t sweep.messages = [] then 0 else 1) ∧
        (∀ handle, handle ∈ told t sweep.messages ↔
          handle ∈ expired sweep.now (sweep.tables t) ∧ handle ∉ toldBefore t s'.sweeps k) ∧
        (told t sweep.messages).Disjoint (toldBefore t s'.sweeps k) ∧
        ∀ next, s'.sweeps[k + 1]? = some next →
          ∀ handle ∈ expired next.now (next.tables t),
            handle ∈ told t sweep.messages ∨ handle ∈ told t next.messages := by
  have h : System.Accounts ageing.toFinset s' := hload.accounts.run has hrun
  have hmem : t ∈ ageing.toFinset := List.mem_toFinset.mpr ht
  have hiff : ∀ k (sweep : Sweep ι σ K M), s'.sweeps[k]? = some sweep → ∀ handle,
      handle ∈ told t sweep.messages ↔
        handle ∈ expired sweep.now (sweep.tables t) ∧ handle ∉ toldBefore t s'.sweeps k := by
    intro k sweep hk handle
    rw [← List.mem_toFinset, (h.tells_at hmem hk).toFinset, Finset.mem_sdiff, List.mem_toFinset]
  refine ⟨h.told_news hmem, fun k sweep hk => ?_⟩
  have htells := h.tells_at hmem hk
  refine ⟨htells.nodup, ?_, hiff k sweep hk, fun handle hnow hbefore => ?_,
    fun next hnext handle hexpired => ?_⟩
  · rw [htells.count, ← htells.toFinset]
    simp only [List.toFinset_eq_empty_iff]
  · exact ((hiff k sweep hk handle).mp hnow).2 hbefore
  · -- What the next sweep leaves out is what this one told.
    have hlast : toldBefore t s'.sweeps (k + 1) = told t sweep.messages := by
      rw [toldBefore, hk, Option.map_some, Option.getD_some]
    by_cases hthis : handle ∈ told t sweep.messages
    · exact Or.inl hthis
    · refine Or.inr ((hiff (k + 1) next hnext handle).mpr ⟨hexpired, ?_⟩)
      rwa [hlast]

/-! ## Two tables that expire together -/

/-- A direct table with ageing and room for two exact keys. -/
def agedTable : Table ExactMap ExactMatchKey Unit :=
  .direct ⟨(MatchTableAbstract.create 2 ExactMap.create false true false
    fun _ => ()).resolveNextNodes { nextNodes := fun _ => some none }, {}, none, false, false⟩

theorem agedTable_loaded :
    agedTable.Loaded byteKeyBuilder { nextNodes := fun _ => some none } :=
  .direct (fun _ _ h => nomatch h) false true false (fun _ => ()) 0 ⟨_, none, none, none⟩ rfl

/-- The system as it is loaded. -/
def aged : System Bool (fun _ => ExactMap) (fun _ => ExactMatchKey) Unit where
  runtime := ⟨.create false, fun _ => agedTable⟩
  monitor := [false, true].foldl AgeingMonitor.addTable (.create 0 0)

theorem aged_loaded : aged.Loaded (fun _ => byteKeyBuilder) [false, true] where
  tables _ := ⟨_, agedTable_loaded⟩
  monitor := ⟨0, 0, rfl⟩
  sweeps := rfl

/-- Each table has an entry, with the same handle, and with a timeout of its own. -/
def agedRequests : List (Action Bool ByteContainer Unit) :=
  [.request (.table false (.direct (.addEntry [7] ⟨1, 0⟩ [] 0 0))),
    .request (.table false (.common (.setEntryTtl 0 10 0))),
    .request (.table true (.direct (.addEntry [8] ⟨1, 0⟩ [] 0 0))),
    .request (.table true (.common (.setEntryTtl 0 15 0)))]

theorem sweepEntries_singleton {σ K V : Type} {u : MatchUnit σ K V} {i now : ℕ}
    (hu : u.handles = {i}) (hclock : (u.entryMeta i).ts ≤ now) :
    u.sweepEntries now =
      some (if Due u now i then [handleSet (u.entryMeta i).version i] else []) := by
  unfold MatchUnit.sweepEntries
  rw [hu, Finset.sort_singleton, List.foldlM_cons, if_neg (not_lt.mpr hclock)]
  by_cases hdue : Due u now i
  · rw [if_pos hdue]
    exact congrArg (· >>= _) (if_pos hdue)
  · rw [if_neg hdue]
    exact congrArg (· >>= _) (if_neg hdue)

/-- The system before the first sweep. -/
def agedBefore : System Bool (fun _ => ExactMap) (fun _ => ExactMatchKey) Unit :=
  (Runs.run (System.step fun _ => byteKeyBuilder) aged agedRequests).getD aged

theorem sweepEntries_agedBefore (now : ℕ) :
    sweepEntries now (agedBefore.runtime.tables false) =
        some (if 0 < 10 ∧ 10 ≤ now then [0] else []) ∧
      sweepEntries now (agedBefore.runtime.tables true) =
        some (if 0 < 15 ∧ 15 ≤ now then [0] else []) := by
  constructor
  · refine sweepEntries_singleton (i := 0) ?_ ?_
    · rfl
    · exact Nat.zero_le now
  · refine sweepEntries_singleton (i := 0) ?_ ?_
    · rfl
    · exact Nat.zero_le now

/-- A sweep of both tables. -/
def agedSweep (s : System Bool (fun _ => ExactMap) (fun _ => ExactMatchKey) Unit) (now : ℕ) :
    System Bool (fun _ => ExactMap) (fun _ => ExactMatchKey) Unit :=
  let first := s.monitor.sweepTable false (if 0 < 10 ∧ 10 ≤ now then [0] else [])
  let second := first.1.sweepTable true (if 0 < 15 ∧ 15 ≤ now then [0] else [])
  { s with
    monitor := second.1
    sweeps := s.sweeps ++ [⟨now, s.runtime.tables, first.2 ++ second.2⟩] }

/-- The sweeps at 12, 20 and 30: what one table tells does not silence the other. -/
theorem aged_tells_new : ∃ s',
    Runs.run (System.step fun _ => byteKeyBuilder) aged
      (agedRequests ++ [.sweep 12, .sweep 20, .sweep 30]) = some s' ∧
    (∀ t, (s'.sweeps.map fun sweep => told t sweep.messages) =
      if t then [[], [0], []] else [[0], [], [0]]) ∧
    ∀ t, (s'.sweeps.map fun sweep => (told t sweep.messages).toFinset) =
      news ∅ (expiries t s'.sweeps) := by
  have hsort : aged.monitor.tablesWithAgeing.sort (· ≤ ·) = [false, true] := by
    have htables : aged.monitor.tablesWithAgeing = [false, true].toFinset := by decide
    rw [htables]
    exact (List.toFinset_sort (· ≤ ·) (by decide)).mpr (by decide)
  have hsweep : ∀ s now, s.runtime = agedBefore.runtime →
      s.monitor.tablesWithAgeing = aged.monitor.tablesWithAgeing →
      System.step (fun _ => byteKeyBuilder) (C := Unit) s (.sweep now) =
        some (agedSweep s now) := by
    intro s now hruntime htables
    obtain ⟨hfalse, htrue⟩ := sweepEntries_agedBefore now
    simp only [System.step, AgeingMonitor.doSweep, htables, hsort, AgeingMonitor.sweepFrom,
      hruntime, hfalse, htrue]
    simp [agedSweep, hruntime]
  have hrun : Runs.run (System.step fun _ => byteKeyBuilder) aged
      (agedRequests ++ [.sweep 12, .sweep 20, .sweep 30]) =
        some (agedSweep (agedSweep (agedSweep agedBefore 12) 20) 30) := by
    have hrequests : agedRequests.foldlM (System.step fun _ => byteKeyBuilder) aged =
        some agedBefore := rfl
    unfold Runs.run
    rw [List.foldlM_append, hrequests]
    let s₁ := agedSweep agedBefore 12
    let s₂ := agedSweep s₁ 20
    exact Option.bind_eq_some_iff.mpr ⟨agedBefore, rfl, Option.bind_eq_some_iff.mpr
      ⟨s₁, hsweep agedBefore 12 rfl rfl, Option.bind_eq_some_iff.mpr
        ⟨s₂, hsweep s₁ 20 rfl rfl, Option.bind_eq_some_iff.mpr ⟨_, hsweep s₂ 30 rfl rfl, rfl⟩⟩⟩⟩
  refine ⟨_, hrun, ?_, fun t => ?_⟩
  · decide +kernel
  · have hmem : t ∈ [false, true] := by
      revert t
      decide
    have has : ∀ a ∈ agedRequests ++ [.sweep 12, .sweep 20, .sweep 30],
        a ≠ .request .resetState := by
      simp [agedRequests]
    exact (System.Loaded.tells_new (fun _ => byteKeyBuilder) [false, true] aged _ aged_loaded
      _ has hrun t hmem).1

end Ageing

end P4Bricks
