import Mathlib.Data.Finset.Sort
import P4Bricks.Common.Runs
import P4Bricks.MatchUnit.HandleLife
import P4Bricks.MatchUnit.Liveness
/-!
# Ageing

`set_entry_ttl` and `sweep_entries` of `match_units.cpp`. The timeout and the
time of the last hit are kept by slot. An observer keeps, for every handle the
unit gave out, the timeout set on it since its entry was added and the time it
was hit last; a sweep should report nothing this does not bear out.

It reports more in four cases, each of which one step brings about: a new entry
takes over the timeout of the one its slot held before (`EntryMeta::reset` puts
back the counter and the time only), the timeout is set through the handle of a
deleted entry (`set_entry_ttl` looks at the slot alone), the handle is too
narrow for the slot or its version, and a packet hits the entry long after its
ingress, whose time is what is recorded.
-/

namespace P4Bricks

namespace MatchUnit

open Lookup

variable {σ P K V : Type*}

/-- `sweep_entries`: `none` where the assertion on the clock fails. -/
def sweepEntries (u : MatchUnit σ K V) (now : ℕ) : Option (List EntryHandle) :=
  (u.handles.sort (· ≤ ·)).foldlM (fun entries i =>
    let entryMeta := u.entryMeta i
    if now < entryMeta.ts then none
    else if 0 < entryMeta.timeoutMs ∧ entryMeta.timeoutMs ≤ now - entryMeta.ts then
      some (entries ++ [handleSet entryMeta.version i])
    else some entries) []

namespace Ageing

/-- What the observer knows of a handle: the timeout set on it since its entry
was added, zero for none, and when the entry was last hit. -/
structure Record where
  ttlMs : ℕ := 0
  lastHit : Option ℕ := none
  deriving DecidableEq, Repr

/-- A unit, the reading of the clock in milliseconds, and the observer's records. -/
structure Watched (σ K V : Type*) where
  mu : MatchUnit σ K V
  clock : ℕ
  records : EntryHandle → Record

/-- The clock's next reading, a request, a packet with the time of its ingress,
a reset or a sweep. -/
inductive Op (P V : Type*) where
  | tick (now : ℕ)
  | addEntry (matchKey : P) (value : V) (priority : ℤ)
  | deleteEntry (handle : EntryHandle)
  | modifyEntry (handle : EntryHandle) (value : V)
  | setEntryTtl (handle : EntryHandle) (ttlMs : ℕ)
  | lookup (key : ByteContainer) (length ingressTs : ℕ)
  | resetState
  | sweepEntries

variable [LookupStructure σ K] [Inhabited K] [Inhabited V]

/-- A new unit at a reading of the clock. -/
def start (size : ℕ) (ls : σ) (now : ℕ) : Watched σ K V := ⟨create size ls, now, fun _ => {}⟩

/-- One step of the unit and its observer. -/
def step (kb : KeyBuilder P K) (w : Watched σ K V) : Op P V → Option (Watched σ K V)
  | .tick now => some { w with clock := now }
  | .addEntry matchKey value priority =>
    match w.mu.addEntry kb matchKey value priority w.clock with
    | (.error _, mu) => some { w with mu := mu }
    | (.ok h, mu) => some { w with mu := mu, records := Function.update w.records h {} }
  | .deleteEntry h => some { w with mu := (w.mu.deleteEntry h).2 }
  | .modifyEntry h value => some { w with mu := (w.mu.modifyEntry h value).2 }
  | .setEntryTtl h ttlMs =>
    match w.mu.setEntryTtl h ttlMs w.clock with
    | (.error _, mu) => some { w with mu := mu }
    | (.ok _, mu) =>
      some { w with
        mu := mu
        records := Function.update w.records h { w.records h with ttlMs := ttlMs } }
  | .lookup key length ingressTs =>
    match w.mu.lookup key length ingressTs with
    | (none, mu) => some { w with mu := mu }
    | (some (h, _), mu) =>
      some { w with
        mu := mu
        records := Function.update w.records h { w.records h with lastHit := some w.clock } }
  | .resetState => some { w with mu := w.mu.resetState }
  | .sweepEntries => (w.mu.sweepEntries w.clock).map fun _ => w

/-- The handle is that of a live entry, a timeout was set on it, and the entry
was not hit for as long. -/
structure Aged (w : Watched σ K V) (h : EntryHandle) : Prop where
  live : ∃ i, w.mu.checkHandle h = .ok i
  ttl_pos : 0 < (w.records h).ttlMs
  idle : ∀ t ∈ (w.records h).lastHit, t + (w.records h).ttlMs ≤ w.clock

/-- A sweep now reports aged entries only. -/
def Truthful (w : Watched σ K V) : Prop :=
  ∀ entries, w.mu.sweepEntries w.clock = some entries → ∀ h ∈ entries, Aged w h

/-- **The steps that keep sweeps truthful.** The clock does not go back. A new
entry takes a slot whose number and version fit its handle and which has no
timeout left; an addition that is refused takes none. A timeout is set on a handle of this version of its slot. A packet
that hits an entry with a timeout did not arrive before this reading of the
clock. -/
def Careful (kb : KeyBuilder P K) (w : Watched σ K V) : Op P V → Prop
  | .tick now => w.clock ≤ now
  | .addEntry matchKey value priority =>
    (w.mu.addEntry kb matchKey value priority w.clock).1.isOk →
    firstFree w.mu.handles < 2 ^ 24 ∧
      (w.mu.entries (firstFree w.mu.handles)).version < 256 ∧
      (w.mu.entryMeta (firstFree w.mu.handles)).timeoutMs = 0
  | .setEntryTtl h _ =>
    handleInternal h ∈ w.mu.handles →
      handleVersion h = (w.mu.entries (handleInternal h)).version
  | .lookup key _ ingressTs =>
    ∀ i ∈ (LookupStructure.lookup w.mu.lookupStructure key).1,
      (w.mu.entryMeta i).timeoutMs = 0 ∨ w.clock ≤ ingressTs
  | _ => True

instance (kb : KeyBuilder P K) (w : Watched σ K V) : ∀ op : Op P V, Decidable (Careful kb w op)
  | .tick _ => inferInstanceAs (Decidable (_ ≤ _))
  | .addEntry _ _ _ => inferInstanceAs (Decidable (_ → _ ∧ _ ∧ _))
  | .setEntryTtl _ _ => inferInstanceAs (Decidable (_ → _))
  | .lookup _ _ _ => inferInstanceAs (Decidable (∀ _ ∈ _, _))
  | .deleteEntry _ | .modifyEntry _ _ | .resetState | .sweepEntries => isTrue trivial

/-! ## What a lookup does -/

section

variable {u : MatchUnit σ K V} {key : ByteContainer} {ls : σ} {length now i : ℕ}

omit [Inhabited K] [Inhabited V] in
theorem lookup_miss (hl : LookupStructure.lookup u.lookupStructure key = (none, ls)) :
    u.lookup key length now = (none, { u with lookupStructure := ls }) := by
  simp [MatchUnit.lookup, lookupKey, hl]

omit [Inhabited K] [Inhabited V] in
/-- A hit of a slot that fits its handle writes to the slot's own meta data. -/
theorem lookup_hit (hl : LookupStructure.lookup u.lookupStructure key = (some i, ls))
    (hi : i < 2 ^ 24) :
    u.lookup key length now = (some (handleSet (u.entries i).version i, (u.entries i).value),
      { u with
        lookupStructure := ls
        entryMeta := Function.update u.entryMeta i
          { u.entryMeta i with
            ts := now
            bytes := (u.entryMeta i).bytes + length
            packets := (u.entryMeta i).packets + 1 } }) := by
  simp only [MatchUnit.lookup, lookupKey, hl, Option.map_some, handleInternal_handleSet _ hi]

end

/-! ## What a sweep reports -/

omit [LookupStructure σ K] [Inhabited K] [Inhabited V] in
theorem mem_sweepEntries {u : MatchUnit σ K V} {now : ℕ} {entries : List EntryHandle}
    (hsweep : u.sweepEntries now = some entries) {h : EntryHandle} (hh : h ∈ entries) :
    ∃ i ∈ u.handles, h = handleSet (u.entryMeta i).version i ∧ 0 < (u.entryMeta i).timeoutMs ∧
      (u.entryMeta i).ts + (u.entryMeta i).timeoutMs ≤ now := by
  -- Over the slots still to come: what is reported in the end was reported
  -- before, or one of them is due.
  suffices hfold : ∀ (is : List ℕ) (acc out : List EntryHandle),
      is.foldlM (fun entries i =>
        if now < (u.entryMeta i).ts then none
        else if 0 < (u.entryMeta i).timeoutMs ∧
            (u.entryMeta i).timeoutMs ≤ now - (u.entryMeta i).ts then
          some (entries ++ [handleSet (u.entryMeta i).version i])
        else some entries) acc = some out → h ∈ out →
      h ∈ acc ∨ ∃ i ∈ is, h = handleSet (u.entryMeta i).version i ∧
        0 < (u.entryMeta i).timeoutMs ∧
        (u.entryMeta i).ts + (u.entryMeta i).timeoutMs ≤ now by
    rcases hfold _ _ _ hsweep hh with hnil | ⟨i, hi, hdue⟩
    · exact absurd hnil List.not_mem_nil
    · exact ⟨i, (Finset.mem_sort (· ≤ ·)).mp hi, hdue⟩
  intro is
  induction is with
  | nil =>
    intro acc out hout hmem
    obtain rfl := Option.some.inj hout
    exact .inl hmem
  | cons i is ih =>
    intro acc out hout hmem
    rw [List.foldlM_cons] at hout
    obtain ⟨acc', hacc', hout⟩ := Option.bind_eq_some_iff.mp hout
    split_ifs at hacc' with hclock hdue
    · obtain rfl := Option.some.inj hacc'
      rcases ih _ _ hout hmem with hin | ⟨j, hj, hspec⟩
      · rcases List.mem_append.mp hin with hin | hin
        · exact .inl hin
        · obtain rfl := List.mem_singleton.mp hin
          exact .inr ⟨i, List.mem_cons_self .., rfl, hdue.1, by omega⟩
      · exact .inr ⟨j, List.mem_cons_of_mem _ hj, hspec⟩
    · obtain rfl := Option.some.inj hacc'
      rcases ih _ _ hout hmem with hin | ⟨j, hj, hspec⟩
      · exact .inl hin
      · exact .inr ⟨j, List.mem_cons_of_mem _ hj, hspec⟩

/-! ## The invariant -/

/-- What the slot of a live entry records is what the observer saw of its handle. -/
structure Tracked (w : Watched σ K V) (i : ℕ) : Prop where
  slot_lt : i < 2 ^ 24
  version_lt : (w.mu.entries i).version < 256
  version_eq : (w.mu.entryMeta i).version = (w.mu.entries i).version
  ttl_eq : (w.mu.entryMeta i).timeoutMs = (w.records (handleSet (w.mu.entries i).version i)).ttlMs
  hit_le : 0 < (w.mu.entryMeta i).timeoutMs →
    ∀ t ∈ (w.records (handleSet (w.mu.entries i).version i)).lastHit, t ≤ (w.mu.entryMeta i).ts

omit [LookupStructure σ K] [Inhabited K] [Inhabited V] in
/-- The handle of a tracked slot passes for it. -/
theorem Tracked.checkHandle {w : Watched σ K V} {i : ℕ} (ht : Tracked w i) (hi : i ∈ w.mu.handles) :
    w.mu.checkHandle (handleSet (w.mu.entries i).version i) = .ok i := by
  have hver := ht.version_lt
  rw [checkHandle_eq_ok, handleInternal_handleSet _ ht.slot_lt, handleVersion_handleSet _ ht.slot_lt]
  exact ⟨rfl, hi, by omega⟩

omit [LookupStructure σ K] [Inhabited K] [Inhabited V] in
/-- A step that leaves alone what is known of a slot and its handle. -/
theorem Tracked.of_eq {w w' : Watched σ K V} {i : ℕ} (ht : Tracked w i)
    (hversion : (w'.mu.entries i).version = (w.mu.entries i).version)
    (hmeta : w'.mu.entryMeta i = w.mu.entryMeta i)
    (hrecord : w'.records (handleSet (w.mu.entries i).version i) =
      w.records (handleSet (w.mu.entries i).version i)) : Tracked w' i := by
  obtain ⟨hslot, hlt, hver, httl, hhit⟩ := ht
  refine ⟨hslot, ?_, ?_, ?_, ?_⟩
  · rwa [hversion]
  · rw [hmeta, hver, hversion]
  · rw [hmeta, hversion, hrecord, httl]
  · rwa [hmeta, hversion, hrecord]

/-- Distinct slots have distinct handles. -/
theorem handleSet_ne {v v' i j : ℕ} (hi : i < 2 ^ 24) (hj : j < 2 ^ 24) (hij : i ≠ j) :
    handleSet v i ≠ handleSet v' j := by
  intro heq
  have hint := congrArg handleInternal heq
  rw [handleInternal_handleSet _ hi, handleInternal_handleSet _ hj] at hint
  exact hij hint

variable [LiveLookup σ K]

/-- **The invariant of careful runs.** -/
structure Inv (w : Watched σ K V) : Prop where
  sound : w.mu.Sound
  tracked : ∀ i ∈ w.mu.handles, Tracked w i
  hit_le_clock : ∀ h, ∀ t ∈ (w.records h).lastHit, t ≤ w.clock

omit [Inhabited K] [Inhabited V] in
/-- Under the invariant a sweep reports aged entries only. -/
theorem Inv.truthful {w : Watched σ K V} (hw : Inv w) : Truthful w := by
  intro entries hsweep h hh
  obtain ⟨i, hi, hset, hpos, hdue⟩ := mem_sweepEntries hsweep hh
  have ht := hw.tracked i hi
  rw [ht.version_eq] at hset
  subst hset
  refine ⟨⟨i, ht.checkHandle hi⟩, ?_, fun t hhit => ?_⟩
  · rwa [← ht.ttl_eq]
  · have hle := ht.hit_le hpos t hhit
    rw [← ht.ttl_eq]
    omega

theorem inv_start {size now : ℕ} {ls : σ}
    (hls : LiveLookup.Follows ls size fun _ => (none : Option K)) :
    Inv (start size ls now : Watched σ K V) := by
  refine ⟨sound_create hls, fun i hi => ?_, fun h t ht => ?_⟩
  · exact absurd hi (Finset.notMem_empty i)
  · cases ht

section

variable {kb : KeyBuilder P K} {w w' : Watched σ K V}

omit [Inhabited K] [Inhabited V] in
theorem Inv.addEntry {matchKey : P} {value : V} {priority : ℤ} {h : EntryHandle}
    {mu : MatchUnit σ K V} (hw : Inv w)
    (hslot : firstFree w.mu.handles < 2 ^ 24)
    (hver : (w.mu.entries (firstFree w.mu.handles)).version < 256)
    (hleft : (w.mu.entryMeta (firstFree w.mu.handles)).timeoutMs = 0)
    (hadd : w.mu.addEntry kb matchKey value priority w.clock = (.ok h, mu)) :
    Inv { w with mu := mu, records := Function.update w.records h {} } := by
  have hsound : mu.Sound := by
    have hs : (w.mu.addEntry kb matchKey value priority w.clock).2.Sound := hw.sound.addEntry
    rwa [hadd] at hs
  obtain ⟨-, -, -, hh, hmu⟩ := addEntry_eq_ok hadd
  have hint : handleInternal h = firstFree w.mu.handles := by
    rw [hh, handleInternal_handleSet _ hslot]
  have hhver : handleVersion h = (w.mu.entries (firstFree w.mu.handles)).version := by
    rw [hh, handleVersion_handleSet _ hslot]
    omega
  refine ⟨hsound, fun i hi => ?_, fun h' t ht => ?_⟩
  · rw [hint] at hmu
    subst hmu
    by_cases hnew : i = firstFree w.mu.handles
    · -- The new entry's slot: nothing was set on its handle, nothing is left in it.
      subst hnew
      refine ⟨hslot, ?_, ?_, ?_, ?_⟩
      · simpa using hver
      · simpa using hhver
      · simp [← hh, hleft]
      · simp [hleft]
    · have hold := hw.tracked i (by simpa [hnew] using hi)
      refine hold.of_eq ?_ ?_ ?_
      · simp [hnew]
      · simp [hnew]
      · have hne : handleSet (w.mu.entries i).version i ≠ h := by
          rw [hh]
          exact handleSet_ne hold.slot_lt hslot hnew
        exact Function.update_of_ne hne {} w.records
  · by_cases hne : h' = h
    · subst hne
      simp at ht
    · exact hw.hit_le_clock h' t (by simpa [hne] using ht)

omit [Inhabited K] [Inhabited V] in
theorem Inv.deleteEntry (hw : Inv w) (h : EntryHandle) :
    Inv { w with mu := (w.mu.deleteEntry h).2 } := by
  refine ⟨hw.sound.deleteEntry h, fun i hi => ?_, hw.hit_le_clock⟩
  cases hc : w.mu.checkHandle h with
  | error e =>
    simp only [deleteEntry_of_error hc] at hi ⊢
    exact hw.tracked i hi
  | ok j =>
    simp only [deleteEntry_of_ok hc] at hi ⊢
    obtain ⟨hij, hi⟩ := Finset.mem_erase.mp hi
    refine (hw.tracked i hi).of_eq ?_ rfl rfl
    simp [hij]

omit [Inhabited K] [Inhabited V] in
theorem Inv.modifyEntry (hw : Inv w) (h : EntryHandle) (value : V) :
    Inv { w with mu := (w.mu.modifyEntry h value).2 } := by
  refine ⟨hw.sound.modifyEntry h value, fun i hi => ?_, hw.hit_le_clock⟩
  cases hc : w.mu.checkHandle h with
  | error e =>
    simp only [modifyEntry_of_error hc] at hi ⊢
    exact hw.tracked i hi
  | ok j =>
    simp only [modifyEntry_of_ok hc] at hi ⊢
    refine (hw.tracked i hi).of_eq ?_ rfl rfl
    by_cases hij : i = j
    · subst hij
      simp
    · simp [hij]

omit [Inhabited K] [Inhabited V] in
theorem Inv.setEntryTtl {h : EntryHandle} (hw : Inv w) (ttlMs : ℕ)
    (hmem : handleInternal h ∈ w.mu.handles)
    (hver : handleVersion h = (w.mu.entries (handleInternal h)).version) :
    Inv { w with
      mu := { w.mu with
        entryMeta := Function.update w.mu.entryMeta (handleInternal h)
          { w.mu.entryMeta (handleInternal h) with timeoutMs := ttlMs, ts := w.clock } }
      records := Function.update w.records h { w.records h with ttlMs := ttlMs } } := by
  have hthis := hw.tracked _ hmem
  have hh : handleSet (w.mu.entries (handleInternal h)).version (handleInternal h) = h :=
    handle_eq_of_checkHandle (hthis.checkHandle hmem) (checkHandle_eq_ok.mpr ⟨rfl, hmem, hver⟩)
  refine ⟨hw.sound.touch _, fun i hi => ?_, fun h' t ht => ?_⟩
  · by_cases hi' : i = handleInternal h
    · subst hi'
      refine ⟨hthis.slot_lt, hthis.version_lt, ?_, ?_, fun _ t ht => ?_⟩
      · simpa using hthis.version_eq
      · simp [hh]
      · simp only [hh, Function.update_self] at ht ⊢
        exact hw.hit_le_clock h t ht
    · have hold := hw.tracked i hi
      refine hold.of_eq rfl (by simp [hi']) (Function.update_of_ne ?_ ..)
      rw [← hh]
      exact handleSet_ne hold.slot_lt hthis.slot_lt hi'
  · by_cases hne : h' = h
    · subst hne
      exact hw.hit_le_clock h' t (by simpa using ht)
    · exact hw.hit_le_clock h' t (by simpa [hne] using ht)

omit [Inhabited K] [Inhabited V] in
/-- A hit of the entry in slot `i`. -/
theorem Inv.hit {i : ℕ} (hw : Inv w) {ls : σ} {length ingressTs : ℕ}
    (hls : Sound { w.mu with lookupStructure := ls }) (hi : i ∈ w.mu.handles)
    (htime : (w.mu.entryMeta i).timeoutMs = 0 ∨ w.clock ≤ ingressTs) :
    Inv { w with
      mu := { w.mu with
        lookupStructure := ls
        entryMeta := Function.update w.mu.entryMeta i
          { w.mu.entryMeta i with
            ts := ingressTs
            bytes := (w.mu.entryMeta i).bytes + length
            packets := (w.mu.entryMeta i).packets + 1 } }
      records := Function.update w.records (handleSet (w.mu.entries i).version i)
        { w.records (handleSet (w.mu.entries i).version i) with lastHit := some w.clock } } := by
  have hthis := hw.tracked i hi
  refine ⟨hls.touch _, fun j hj => ?_, fun h t ht => ?_⟩
  · by_cases hji : j = i
    · subst hji
      refine ⟨hthis.slot_lt, hthis.version_lt, ?_, ?_, ?_⟩
      · simpa using hthis.version_eq
      · simpa using hthis.ttl_eq
      · simp only [Function.update_self, Option.mem_some_iff, forall_eq']
        omega
    · have hold := hw.tracked j hj
      have hne : handleSet (w.mu.entries j).version j ≠ handleSet (w.mu.entries i).version i :=
        handleSet_ne hold.slot_lt hthis.slot_lt hji
      refine hold.of_eq rfl ?_ ?_
      · exact Function.update_of_ne hji _ w.mu.entryMeta
      · simp only [ne_eq, hne, not_false_eq_true, Function.update_of_ne]
  · by_cases hne : h = handleSet (w.mu.entries i).version i
    · subst hne
      simp only [Function.update_self, Option.mem_some_iff] at ht
      exact ht.ge
    · exact hw.hit_le_clock h t (by simpa [hne] using ht)

/-- **One careful step keeps the invariant.** -/
theorem Inv.step {op : Op P V} (hw : Inv w) (hop : Careful kb w op)
    (hstep : Ageing.step kb w op = some w') : Inv w' := by
  cases op with
  | tick now =>
    obtain rfl := Option.some.inj hstep
    refine ⟨hw.sound, fun i hi => (hw.tracked i hi).of_eq rfl rfl rfl, fun h t ht => ?_⟩
    exact (hw.hit_le_clock h t ht).trans hop
  | addEntry matchKey value priority =>
    simp only [Ageing.step] at hstep
    -- A refused addition changes nothing.
    rcases hadd : w.mu.addEntry kb matchKey value priority w.clock with ⟨e | h, mu⟩
    · rw [hadd] at hstep
      obtain rfl := Option.some.inj hstep
      obtain rfl := addEntry_eq_error hadd
      exact hw
    · rw [hadd] at hstep
      obtain rfl := Option.some.inj hstep
      obtain ⟨hslot, hver, hleft⟩ := hop (by rw [hadd]; rfl)
      exact hw.addEntry hslot hver hleft hadd
  | deleteEntry h =>
    obtain rfl := Option.some.inj hstep
    exact hw.deleteEntry h
  | modifyEntry h value =>
    obtain rfl := Option.some.inj hstep
    exact hw.modifyEntry h value
  | setEntryTtl h ttlMs =>
    simp only [Ageing.step, MatchUnit.setEntryTtl] at hstep
    by_cases hmem : handleInternal h ∈ w.mu.handles
    · simp only [hmem, not_true_eq_false, if_false] at hstep
      obtain rfl := Option.some.inj hstep
      exact hw.setEntryTtl ttlMs hmem (hop hmem)
    · simp only [hmem, not_false_eq_true, if_true] at hstep
      obtain rfl := Option.some.inj hstep
      exact hw
  | lookup key length ingressTs =>
    -- A hit writes the time of the packet, which is careful when it is not before the last hit.
    have hsound := hw.sound.lookup key length ingressTs
    rcases hl : LookupStructure.lookup w.mu.lookupStructure key with ⟨_ | i, ls⟩
    · simp only [Ageing.step, lookup_miss hl] at hstep hsound
      obtain rfl := Option.some.inj hstep
      exact ⟨hsound, fun i hi => (hw.tracked i hi).of_eq rfl rfl rfl, hw.hit_le_clock⟩
    · have hi : i ∈ w.mu.handles :=
        isSome_live.mp (LiveLookup.isSome_of_lookup hw.sound.follows (congrArg Prod.fst hl))
      simp only [Ageing.step, lookup_hit hl (hw.tracked i hi).slot_lt] at hstep hsound
      obtain rfl := Option.some.inj hstep
      have hls : Sound { w.mu with lookupStructure := ls } := hsound.touch w.mu.entryMeta
      exact hw.hit hls hi (hop i (by rw [hl]; rfl))
  | resetState =>
    obtain rfl := Option.some.inj hstep
    exact ⟨hw.sound.resetState, fun i hi => absurd hi (Finset.notMem_empty i), hw.hit_le_clock⟩
  | sweepEntries =>
    obtain ⟨entries, -, rfl⟩ := Option.map_eq_some_iff.mp hstep
    exact hw

end

/-- **Sweeps of careful runs are truthful**: in every state a run of careful
steps reaches, `sweep_entries` reports live handles only, on which a timeout was
set since their entry was added and whose entry was not hit for as long. -/
theorem truthful_of_run (kb : KeyBuilder P K) (size now : ℕ) (ls : σ)
    (hls : LiveLookup.Follows ls size fun _ => (none : Option K)) (ops : List (Op P V))
    (hcareful : Runs.Always (step kb) (Careful kb) (start size ls now) ops) (w : Watched σ K V)
    (hrun : Runs.run (step kb) (start size ls now) ops = some w) : Truthful w := by
  have hinv : Inv w := by
    refine Runs.Always.invariant ?_ (inv_start hls) hcareful hrun
    exact fun _ _ _ hw hop hstep => hw.step hop hstep
  exact hinv.truthful

/-- An exact unit of one slot. -/
def oneSlot : Watched ExactMap ExactMatchKey ℕ := start 1 ExactMap.create 1000

/-- An entry with a timeout is replaced by one on which none is set. -/
def replaced : List (Op ByteContainer ℕ) :=
  [.addEntry [7] 1 0, .setEntryTtl 0 5, .deleteEntry 0, .addEntry [7] 2 0, .tick 1010]

/-- The next sweep ages the new entry by the timeout of the old one. -/
theorem replaced_not_truthful :
    ∃ w, Runs.run (step byteKeyBuilder) oneSlot replaced = some w ∧
      w.mu.sweepEntries w.clock = some [handleSet 1 0] ∧
      (w.records (handleSet 1 0)).ttlMs = 0 ∧ ¬ Truthful w := by
  have hfacts : (Runs.run (step byteKeyBuilder) oneSlot replaced).any fun w =>
      w.mu.sweepEntries w.clock = some [handleSet 1 0] ∧
        (w.records (handleSet 1 0)).ttlMs = 0 := by decide +kernel
  obtain ⟨w, hw, hfacts⟩ := (Option.any_eq_true _ _).mp hfacts
  obtain ⟨hsweep, httl⟩ := of_decide_eq_true hfacts
  refine ⟨w, hw, hsweep, httl, fun htruth => ?_⟩
  have haged := htruth _ hsweep _ (List.mem_singleton_self _)
  exact haged.ttl_pos.ne' httl

/-- With the timeout set on the new entry too, a sweep reports it five
milliseconds after its last packet. -/
theorem truthful_of_aged :
    ∃ w, Runs.run (step byteKeyBuilder) oneSlot
        [.addEntry [7] 1 0, .setEntryTtl 0 5, .tick 1003, .lookup [7] 64 1003, .tick 1008] = some w ∧
      w.mu.sweepEntries w.clock = some [0] ∧ Truthful w := by
  have hfacts : (Runs.run (step byteKeyBuilder) oneSlot
      [.addEntry [7] 1 0, .setEntryTtl 0 5, .tick 1003, .lookup [7] 64 1003, .tick 1008]).any
        fun w => w.mu.sweepEntries w.clock = some [0] := by decide +kernel
  obtain ⟨w, hw, hsweep⟩ := (Option.any_eq_true _ _).mp hfacts
  refine ⟨w, hw, of_decide_eq_true hsweep, ?_⟩
  exact truthful_of_run byteKeyBuilder 1 1000 ExactMap.create (fun _ _ h => by cases h) _
    (by decide +kernel) w hw

end Ageing

end MatchUnit

end P4Bricks
