import P4Bricks.MatchUnit.Helpers.Slots
/-!
# The life of a handle

A client that added an entry goes on naming it by the handle it got. The
handle has eight bits for the version of the slot and twenty-four for the
slot, while the unit counts deletions from a slot in a `uint32_t` and takes
any size: its constructor cuts the parameter of that name down, not the
field. A handle serves its entry until it is deleted, whatever else happens
to the unit, exactly when both fitted as it was made (`serves_iff`).
-/

namespace P4Bricks

namespace MatchUnit

open Lookup

variable {σ P K V : Type*} {u u' : MatchUnit σ K V} {h : EntryHandle} {i : ℕ} {key : K} {value : V}

/-! ## Serving an entry -/

/-- The value a request leaves in the entry of a handle. -/
def written (h : EntryHandle) (value : V) : Op P V → V
  | .modifyEntry h' value' => if h' = h then value' else value
  | _ => value

theorem written_of_ne {op : Op P V} (hne : ∀ v, op ≠ .modifyEntry h v) :
    written h value op = value := by
  cases op with
  | modifyEntry h' v =>
    have hh : h' ≠ h := fun heq => hne v (by rw [heq])
    simp [written, hh]
  | _ => rfl

/-- The handle passes for the slot, and the slot holds the entry. -/
structure Names (u : MatchUnit σ K V) (h : EntryHandle) (i : ℕ) (key : K) (value : V) : Prop where
  checked : u.checkHandle h = .ok i
  key_eq : (u.entries i).key = key
  value_eq : (u.entries i).value = value

section

variable [LookupStructure σ K]

/-- **Every operation with the handle succeeds, and on the entry of slot `i`.**
The two that write change this slot and nothing else. -/
structure Serves (kb : KeyBuilder P K) (u : MatchUnit σ K V) (h : EntryHandle) (i : ℕ) (key : K) (value : V) :
    Prop where
  getValue_eq : u.getValue h = .ok value
  getEntry_eq : u.getEntry kb h = .ok (kb.entryToMatchParams key, value, kb.getPriority key)
  modifyEntry_eq : ∀ v, u.modifyEntry h v =
    (.ok (), { u with entries := Function.update u.entries i { u.entries i with value := v } })
  deleteEntry_eq : u.deleteEntry h = (.ok (),
    { u with
      numEntries := u.numEntries - 1
      handles := u.handles.erase i
      entries := Function.update u.entries i
        { u.entries i with version := ((u.entries i).version + 1) % 2 ^ 32 }
      lookupStructure := LookupStructure.deleteEntry u.lookupStructure key })

theorem Names.serves (hn : Names u h i key value) (kb : KeyBuilder P K) :
    Serves kb u h i key value := by
  obtain ⟨hc, hkey, hvalue⟩ := hn
  refine ⟨?_, ?_, fun v => modifyEntry_of_ok hc v, ?_⟩
  · rw [getValue, hc, ← hvalue]
    rfl
  · rw [getEntry, hc, ← hvalue, ← hkey]
    rfl
  · rw [deleteEntry_of_ok hc, hkey]

/-- A handle that serves a live slot passes for it. -/
theorem Serves.checked {kb : KeyBuilder P K} (hs : Serves kb u h i key value)
    (hi : i ∈ u.handles) : u.checkHandle h = .ok i := by
  cases hc : u.checkHandle h with
  | error e =>
    have hg := hs.getValue_eq
    rw [getValue, hc] at hg
    cases hg
  | ok j =>
    -- Had it passed for another slot, the deletion would have left this one live.
    have hd := hs.deleteEntry_eq
    rw [deleteEntry_of_ok hc, Prod.mk.injEq] at hd
    have herase : u.handles.erase j = u.handles.erase i := congrArg MatchUnit.handles hd.2
    have hmem : i ∉ u.handles.erase j := herase ▸ Finset.notMem_erase i u.handles
    have hij : i = j := by
      by_contra hne
      exact hmem (Finset.mem_erase.mpr ⟨hne, hi⟩)
    rw [hij]

/-- A new handle passes for the slot it was made for exactly when slot and
version fit it. -/
theorem checkHandle_addEntry {kb : KeyBuilder P K} {matchKey : P} {priority : ℤ} {now : ℕ}
    (hadd : u.addEntry kb matchKey value priority now = (.ok h, u')) :
    u'.checkHandle h = .ok (firstFree u.handles) ↔
      (u.entries (firstFree u.handles)).version < 256 ∧ firstFree u.handles < 2 ^ 24 := by
  obtain ⟨-, -, -, hh, rfl⟩ := addEntry_eq_ok hadd
  rw [checkHandle_eq_ok]
  simp only [Finset.mem_insert_self, Function.update_self, true_and]
  constructor
  · rintro ⟨hi, hv⟩
    exact ⟨hv ▸ handleVersion_lt h, hi ▸ handleInternal_lt h⟩
  · rintro ⟨hv, hi⟩
    rw [hh, handleInternal_handleSet _ hi, handleVersion_handleSet _ hi]
    exact ⟨rfl, Nat.mod_eq_of_lt hv⟩

variable [Inhabited K] [Inhabited V]

/-! ## Runs -/

/-- One request, other than the handle's deletion or a reset, leaves the
handle naming its entry. -/
theorem Names.apply (kb : KeyBuilder P K) (hn : Names u h i key value) {op : Op P V}
    (hdel : op ≠ .deleteEntry h) (hreset : op ≠ .resetState) :
    Names (u.apply kb op) h i key (written h value op) := by
  obtain ⟨hc, hkey, hvalue⟩ := hn
  obtain ⟨hi, hmem, hver⟩ := checkHandle_eq_ok.mp hc
  by_cases hmod : ∃ v, op = .modifyEntry h v
  · obtain ⟨v, rfl⟩ := hmod
    rw [MatchUnit.apply, modifyEntry_of_ok hc]
    refine ⟨checkHandle_eq_ok.mpr ⟨hi, hmem, ?_⟩, ?_, ?_⟩
    · simpa using hver
    · simpa using hkey
    · simp [written]
  · rw [written_of_ne (not_exists.mp hmod)]
    rcases slot_cases kb u op i with rfl | hs | ⟨_, _, _, _, rfl, ht⟩ | ⟨h', rfl, hc', -⟩ |
        ⟨h', v, rfl, hc', -⟩
    · exact absurd rfl hreset
    · refine ⟨?_, hs.2 ▸ hkey, hs.2 ▸ hvalue⟩
      rw [SlotEq.checkHandle_eq (hi ▸ hs), hc]
    · exact absurd hmem ht.1
    · exact absurd (by rw [handle_eq_of_checkHandle hc' hc]) hdel
    · exact absurd ⟨v, by rw [handle_eq_of_checkHandle hc' hc]⟩ hmod

/-- A run that neither deletes the handle nor resets the unit. -/
theorem Names.run (kb : KeyBuilder P K) (hn : Names u h i key value) {ops : List (Op P V)}
    (hops : ∀ op ∈ ops, op ≠ .deleteEntry h ∧ op ≠ .resetState) :
    Names (u.run kb ops) h i key (ops.foldl (written h) value) := by
  induction ops generalizing u value with
  | nil => exact hn
  | cons op ops ih =>
    obtain ⟨hdel, hreset⟩ := hops op (List.mem_cons_self ..)
    exact ih (hn.apply kb hdel hreset) fun op' hop' => hops op' (List.mem_cons_of_mem _ hop')

/-- **When handles keep their word.** In any run, let an addition return `h`.
Then `h` serves the entry just added, with the value written to it last, after
every further run that neither deletes `h` nor resets the unit, if and only if
the version of the slot it took was below 256 and the slot below `2 ^ 24`. -/
theorem serves_iff (kb : KeyBuilder P K) (size : ℕ) (ls : σ) (before : List (Op P V))
    (matchKey : P) (value : V) (priority : ℤ) (now : ℕ) (h : EntryHandle) (u' : MatchUnit σ K V)
    (hadd : ((create size ls).run kb before).addEntry kb matchKey value priority now =
      (.ok h, u')) :
    (∀ after : List (Op P V), (∀ op ∈ after, op ≠ .deleteEntry h ∧ op ≠ .resetState) →
      Serves kb (u'.run kb after) h (firstFree ((create size ls).run kb before).handles)
        (kb.matchParamsToEntry matchKey priority) (after.foldl (written h) value)) ↔
    (((create size ls).run kb before).entries
        (firstFree ((create size ls).run kb before).handles)).version < 256 ∧
      firstFree ((create size ls).run kb before).handles < 2 ^ 24 := by
  rw [← checkHandle_addEntry hadd]
  obtain ⟨-, -, -, -, rfl⟩ := addEntry_eq_ok hadd
  constructor
  · intro hall
    exact (hall [] (by simp)).checked (Finset.mem_insert_self ..)
  · intro hc after hafter
    have hn : Names _ h (firstFree ((create size ls).run kb before).handles)
        (kb.matchParamsToEntry matchKey priority) value :=
      ⟨hc, by simp, by simp⟩
    exact (hn.run kb hafter).serves kb

/-! ## A slot used 256 times -/

/-- The builder of a key of one exact field, one byte wide. -/
def byteKeyBuilder : KeyBuilder ByteContainer ExactMatchKey where
  matchParamsSanityCheck k := k.length == 1
  matchParamsToEntry k _ := ⟨k⟩
  entryToMatchParams k := k.data
  getPriority _ := -1

/-- An entry is added and deleted again, `n` times. -/
def churn (n : ℕ) : List (Op ByteContainer ℕ) :=
  (List.range n).flatMap fun v => [.addEntry [7] 1 0 0, .deleteEntry (handleSet v 0)]

/-- An exact unit of one slot, after `n` rounds. -/
def churned (n : ℕ) : MatchUnit ExactMap ExactMatchKey ℕ :=
  (create 1 ExactMap.create).run byteKeyBuilder (churn n)

theorem churned_succ (n : ℕ) : churned (n + 1) =
    (churned n).run byteKeyBuilder [.addEntry [7] 1 0 0, .deleteEntry (handleSet n 0)] := by
  unfold churned churn
  rw [List.range_succ, List.flatMap_append, run, List.foldl_append]
  rfl

/-- The unit is empty, and its slot was freed `n` times. -/
structure Idle (u : MatchUnit ExactMap ExactMatchKey ℕ) (n : ℕ) : Prop where
  size_eq : u.size = 1
  numEntries_eq : u.numEntries = 0
  handles_eq : u.handles = ∅
  version_eq : (u.entries 0).version = n
  map_eq : u.lookupStructure.entriesMap [7] = none

/-- What an addition to the idle unit returns. -/
theorem Idle.addEntry {u : MatchUnit ExactMap ExactMatchKey ℕ} {n : ℕ} (hu : Idle u n) :
    u.addEntry byteKeyBuilder [7] 1 0 0 = (.ok (handleSet n 0),
      { u with
        numEntries := 1
        handles := {0}
        entries := Function.update u.entries 0 ⟨⟨[7]⟩, n, 1⟩
        entryMeta := Function.update u.entryMeta (handleInternal (handleSet n 0))
          { u.entryMeta (handleInternal (handleSet n 0)) with
            ts := 0, bytes := 0, packets := 0, version := handleVersion (handleSet n 0) }
        lookupStructure := ⟨Function.update u.lookupStructure.entriesMap [7] (some 0)⟩ }) := by
  obtain ⟨hsize, hnum, hhandles, hver, hmap⟩ := hu
  have hfree : firstFree (∅ : Finset ℕ) = 0 := by decide
  simp [MatchUnit.addEntry, addEntry_, KeyBuilder.buildEntryFromMatchKey, byteKeyBuilder,
    getAndSetHandle, LookupStructure.entryExists, LookupStructure.addEntry, hsize, hnum, hhandles,
    hver, hmap, hfree]

theorem idle_churned {n : ℕ} (hn : n ≤ 256) : Idle (churned n) n := by
  induction n with
  | zero => exact ⟨rfl, rfl, rfl, rfl, rfl⟩
  | succ n ih =>
    have hidle := ih (by omega)
    rw [churned_succ]
    simp only [run, List.foldl_cons, List.foldl_nil, apply]
    rw [hidle.addEntry, deleteEntry_of_ok (i := 0)]
    · refine ⟨hidle.size_eq, rfl, by simp, ?_, ?_⟩
      · simp only [Function.update_self]
        omega
      · simp [LookupStructure.deleteEntry]
    · refine checkHandle_eq_ok.mpr ⟨handleInternal_handleSet n (by decide), by simp, ?_⟩
      rw [handleVersion_handleSet n (by decide)]
      simp only [Function.update_self]
      omega

/-- After 256 rounds the slot's version no longer fits its handle: the entry
just added cannot be read, modified or deleted by the handle returned for it. -/
theorem churned_handle_expired :
    ∃ u', (churned 256).addEntry byteKeyBuilder [7] 1 0 0 = (.ok 0, u') ∧
      u'.getValue 0 = .error .expiredHandle ∧
      u'.getEntry byteKeyBuilder 0 = .error .expiredHandle ∧
      (u'.modifyEntry 0 2).1 = .error .expiredHandle ∧
      (u'.deleteEntry 0).1 = .error .expiredHandle := by
  obtain ⟨u', hadd, hc⟩ : ∃ u', (churned 256).addEntry byteKeyBuilder [7] 1 0 0 = (.ok 0, u') ∧
      u'.checkHandle 0 = .error .expiredHandle :=
    ⟨_, (idle_churned le_rfl).addEntry, by simp [checkHandle, handleInternal, handleVersion]⟩
  refine ⟨u', hadd, ?_, ?_, ?_, ?_⟩
  · rw [getValue, hc]
    rfl
  · rw [getEntry, hc]
    rfl
  · rw [modifyEntry_of_error hc]
  · rw [deleteEntry_of_error hc]

/-- One round earlier the handle still serves. -/
theorem churned_handle_serves :
    ∃ u', (churned 255).addEntry byteKeyBuilder [7] 1 0 0 = (.ok (handleSet 255 0), u') ∧
      ∀ after : List (Op ByteContainer ℕ),
        (∀ op ∈ after, op ≠ .deleteEntry (handleSet 255 0) ∧ op ≠ .resetState) →
        Serves byteKeyBuilder (u'.run byteKeyBuilder after) (handleSet 255 0)
          (firstFree (churned 255).handles) ⟨[7]⟩ (after.foldl (written (handleSet 255 0)) 1) := by
  have hidle := idle_churned (n := 255) (by decide)
  have hfree : firstFree (churned 255).handles = 0 := by
    rw [hidle.handles_eq]
    decide
  have hs := fun u' => serves_iff byteKeyBuilder 1 ExactMap.create (churn 255) [7] 1 0 0
    (handleSet 255 0) u'
  rw [← churned, hfree, hidle.version_eq] at hs
  refine ⟨_, hidle.addEntry, ?_⟩
  rw [hfree]
  exact (hs _ hidle.addEntry).mpr ⟨by omega, by decide⟩

end

end MatchUnit

end P4Bricks
