import P4Bricks.MatchUnit.Records
/-!
# Handles that were issued

A client has a handle from the addition that returned it until it deletes the entry or
resets the unit. If the version and the slot of each addition fit its handle, the handles
that a unit takes are just these; and if the deletions spare the other entries, the key of
each of them leads to it.
-/

namespace P4Bricks

namespace MatchUnit

open Lookup

variable {σ P K V : Type*} [LookupStructure σ K] [LiveLookup σ K] [ReachLookup σ K] [Inhabited K]
  [Inhabited V] {kb : KeyBuilder P K} {u : MatchUnit σ K V} {ops : List (Op P V)} {h : EntryHandle}
  {matchKey : P} {value : V} {priority : ℤ} {i : ℕ}

/-- In a run from `u`, the handle was returned for these parameters, and neither was it
deleted nor the unit reset since. The value is the one that was written last. -/
def Issued (kb : KeyBuilder P K) (u : MatchUnit σ K V) (ops : List (Op P V)) (h : EntryHandle)
    (matchKey : P) (value : V) (priority : ℤ) : Prop :=
  ∃ before added now after, ops = before ++ .addEntry matchKey added priority now :: after ∧
    ((u.run kb before).addEntry kb matchKey added priority now).1 = .ok h ∧
    (∀ op ∈ after, op ≠ .deleteEntry h ∧ op ≠ .resetState) ∧ value = after.foldl (written h) added

/-- **A step that keeps handles and keys in order**: an addition takes a slot that fits
the handle, as its version does, and a deletion spares the other entries. -/
def Orderly (kb : KeyBuilder P K) (u : MatchUnit σ K V) : Op P V → Prop
  | .addEntry matchKey value priority now =>
    ∀ h u', u.addEntry kb matchKey value priority now = (.ok h, u') →
      (u.entries (firstFree u.handles)).version < 256 ∧ firstFree u.handles < 2 ^ 24
  | op => Spared u op

omit [Inhabited K] [Inhabited V] in
theorem Orderly.spared {op : Op P V} (ho : Orderly kb u op) : Spared u op := by
  cases op with
  | deleteEntry h => exact ho
  | _ => trivial

omit [LiveLookup σ K] [ReachLookup σ K] in
theorem run_append (kb : KeyBuilder P K) (u : MatchUnit σ K V) (ops ops' : List (Op P V)) :
    u.run kb (ops ++ ops') = (u.run kb ops).run kb ops' := List.foldl_append

omit [LiveLookup σ K] [ReachLookup σ K] in
/-- A run, in the sense of machines. -/
theorem machine_run (kb : KeyBuilder P K) (u : MatchUnit σ K V) (ops : List (Op P V)) :
    Runs.run (fun u op => some (u.apply kb op)) u ops = some (u.run kb ops) := by
  induction ops generalizing u with
  | nil => rfl
  | cons op ops ih => exact ih (u.apply kb op)

/-- **Every live entry stays within reach.** -/
theorem complete_run (hs : u.Sound) (hc : Complete u.lookupStructure u.live)
    (hops : Runs.Always (fun u op => some (u.apply kb op)) (Orderly kb) u ops) :
    Complete (u.run kb ops).lookupStructure (u.run kb ops).live := by
  have hstep : ∀ (u : MatchUnit σ K V) op u', (u.Sound ∧ Complete u.lookupStructure u.live) →
      Orderly kb u op → some (u.apply kb op) = some u' →
        u'.Sound ∧ Complete u'.lookupStructure u'.live := by
    rintro u op u' ⟨hs, hc⟩ ho hu'
    obtain rfl := Option.some.inj hu'
    exact ⟨hs.apply kb op, (hs.complete_apply_iff kb hc op).mpr ho.spared⟩
  exact (Runs.Always.invariant hstep ⟨hs, hc⟩ hops (machine_run kb u ops)).2

/-- **An issued handle names its entry.** -/
theorem Issued.names (hi : Issued kb u ops h matchKey value priority)
    (hops : Runs.Always (fun u op => some (u.apply kb op)) (Orderly kb) u ops) :
    ∃ i, Names (u.run kb ops) h i (kb.matchParamsToEntry matchKey priority) value := by
  obtain ⟨before, added, now, after, rfl, hadd, hafter, rfl⟩ := hi
  have hfits := (hops.of_append (machine_run kb u before)).1
  rcases hu' : (u.run kb before).addEntry kb matchKey added priority now with ⟨r, u'⟩
  rw [hu'] at hadd
  obtain rfl : r = .ok h := hadd
  have hchecked := (checkHandle_addEntry hu').mpr (hfits h u' hu')
  have hrun : u.run kb (before ++ .addEntry matchKey added priority now :: after) =
      u'.run kb after := by
    rw [run_append]
    exact congrArg (MatchUnit.run kb · after) (congrArg Prod.snd hu')
  obtain ⟨-, -, -, -, rfl⟩ := addEntry_eq_ok hu'
  rw [hrun]
  exact ⟨_, Names.run kb ⟨hchecked, by simp, by simp⟩ hafter⟩

omit [LiveLookup σ K] [ReachLookup σ K] [Inhabited K] [Inhabited V] in
/-- **The key of an entry leads to its handle.** -/
theorem Names.retrieveHandle_eq {key : K} (hn : Names u h i key value)
    (hc : Complete u.lookupStructure u.live) {matchKey : P} {priority : ℤ}
    (hbuild : kb.buildEntryFromMatchKey matchKey priority = .ok key) :
    u.retrieveHandle kb matchKey priority = .ok h := by
  obtain ⟨hi, hmem, hver⟩ := checkHandle_eq_ok.mp hn.checked
  have hfound := hc i key (live_eq_some.mpr ⟨hmem, hn.key_eq⟩)
  have hslot : i < 2 ^ 24 := hi ▸ handleInternal_lt h
  have hh : handleSet (u.entries i).version i = h := by
    refine handle_eq ((handleInternal_handleSet _ hslot).trans hi.symm) ?_
    rw [handleVersion_handleSet _ hslot, ← hver]
    exact Nat.mod_eq_of_lt (handleVersion_lt h)
  unfold retrieveHandle
  rw [hbuild]
  simp only [hfound, hh]

omit [LiveLookup σ K] [ReachLookup σ K] [Inhabited K] [Inhabited V] in
theorem retrieveHandle_of_none {key : K}
    (hbuild : kb.buildEntryFromMatchKey matchKey priority = .ok key)
    (hnone : LookupStructure.retrieveHandle u.lookupStructure key = none) :
    u.retrieveHandle kb matchKey priority = .error .badMatchKey := by
  unfold retrieveHandle
  rw [hbuild]
  simp only [hnone]

omit [LiveLookup σ K] [ReachLookup σ K] in
/-- One request more. -/
theorem Issued.snoc (hi : Issued kb u ops h matchKey value priority) {op : Op P V}
    (hdel : op ≠ .deleteEntry h) (hreset : op ≠ .resetState) :
    Issued kb u (ops ++ [op]) h matchKey (written h value op) priority := by
  obtain ⟨before, added, now, after, rfl, hadd, hafter, rfl⟩ := hi
  refine ⟨before, added, now, after ++ [op], by simp, hadd, fun op' hop' => ?_, by simp⟩
  rcases List.mem_append.mp hop' with hmem | hmem
  · exact hafter op' hmem
  · rw [List.mem_singleton.mp hmem]
    exact ⟨hdel, hreset⟩

/-- The addition that took the slot returned the handle. -/
theorem addEntry_of_taken {now : ℕ} {key : K}
    (ho : Orderly kb u (.addEntry matchKey value priority now))
    (ht : Taken u (u.apply kb (.addEntry matchKey value priority now)) i key value)
    (hc : (u.apply kb (.addEntry matchKey value priority now)).checkHandle h = .ok i) :
    (u.addEntry kb matchKey value priority now).1 = .ok h := by
  obtain ⟨hfree, rfl, hmem, -⟩ := ht
  rw [MatchUnit.apply] at hmem hc
  rcases hadd : u.addEntry kb matchKey value priority now with ⟨e | h', u'⟩
  · rw [hadd, addEntry_eq_error hadd] at hmem
    exact absurd hmem hfree
  · rw [hadd] at hc
    have hc' := (checkHandle_addEntry hadd).mpr (ho h' u' hadd)
    rw [handle_eq_of_checkHandle hc hc']

/-- **A handle that a unit takes was issued.** -/
theorem exists_issued (size : ℕ) (ls : σ)
    (hops : Runs.Always (fun u op => some (u.apply kb op)) (Orderly kb) (create size ls) ops)
    (hc : ((create size ls).run kb ops : MatchUnit σ K V).checkHandle h = .ok i) :
    ∃ matchKey value priority, Issued kb (create size ls) ops h matchKey value priority := by
  induction ops using List.reverseRecOn with
  | nil =>
    obtain ⟨-, hmem, -⟩ := checkHandle_eq_ok.mp hc
    exact absurd hmem (Finset.notMem_empty i)
  | append_singleton ops op ih =>
    let u : MatchUnit σ K V := (create size ls).run kb ops
    have hrun : (create size ls).run kb (ops ++ [op]) = u.apply kb op := run_append ..
    rw [hrun] at hc
    obtain ⟨hi, hmem, hver⟩ := checkHandle_eq_ok.mp hc
    have ho := (hops.of_append (machine_run kb _ ops)).1
    -- an issued handle stays one, for the slot is neither freed nor lost
    have hstays : u.checkHandle h = .ok i →
        ∃ matchKey value priority, Issued kb (create size ls) (ops ++ [op]) h matchKey value priority := by
      intro hu
      obtain ⟨matchKey, value, priority, hissued⟩ := ih hops.of_append_left hu
      refine ⟨matchKey, written h value op, priority, hissued.snoc ?_ ?_⟩
      · rintro rfl
        rw [MatchUnit.apply, deleteEntry_of_ok hu] at hmem
        exact Finset.notMem_erase i u.handles hmem
      · rintro rfl
        exact Finset.notMem_empty i hmem
    rcases slot_cases kb u op i with rfl | hs | ⟨matchKey, value, priority, now, rfl, ht⟩ |
        ⟨h', rfl, -, hfreed, -⟩ | ⟨h', value, rfl, hc', -, hentry⟩
    · exact absurd hmem (Finset.notMem_empty i)
    · have hsame : SlotEq u (u.apply kb op) (handleInternal h) := hi ▸ hs
      exact hstays (hsame.checkHandle_eq.symm.trans hc)
    · refine ⟨matchKey, value, priority, ops, value, now, [], rfl, ?_, by simp, rfl⟩
      exact addEntry_of_taken ho ht hc
    · exact absurd hmem hfreed
    · obtain ⟨-, hmem', -⟩ := checkHandle_eq_ok.mp hc'
      refine hstays (checkHandle_eq_ok.mpr ⟨hi, hmem', ?_⟩)
      rw [hver, hentry]

end MatchUnit

end P4Bricks
