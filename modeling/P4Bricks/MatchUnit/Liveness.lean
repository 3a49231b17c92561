import P4Bricks.Lookup.Liveness
import P4Bricks.MatchUnit.Helpers.Slots
/-!
# Match units hit live entries

A unit and its lookup structure agree on which slots are live: `Sound` holds of
a new unit and is kept by every operation, so that a lookup never returns an
entry that was deleted.
-/

namespace P4Bricks

namespace MatchUnit

open Lookup

variable {σ P K V : Type*} {u u' : MatchUnit σ K V} {h : EntryHandle} {i : ℕ}

/-- The live keys of a unit, by slot. -/
def live (u : MatchUnit σ K V) (i : ℕ) : Option K :=
  if i ∈ u.handles then some (u.entries i).key else none

/-- A live entry is one whose handle is in use, under its key. -/
theorem live_eq_some {key : K} :
    u.live i = some key ↔ i ∈ u.handles ∧ (u.entries i).key = key := by
  unfold live
  by_cases hi : i ∈ u.handles
  · simp [hi]
  · simp [hi]

/-- An entry is live when its handle is in use. -/
theorem isSome_live : (u.live i).isSome ↔ i ∈ u.handles := by
  unfold live
  by_cases hi : i ∈ u.handles
  · simp [hi]
  · simp [hi]

/-- A slot that is taken or freed changes one live key. -/
theorem live_eq_update {o : Option K} (hi : u'.live i = o)
    (hother : ∀ j, j ≠ i → SlotEq u u' j) : u'.live = Function.update u.live i o := by
  funext j
  by_cases hj : j = i
  · subst hj
    rw [Function.update_self, hi]
  · rw [Function.update_of_ne hj]
    obtain ⟨hmem, hentry⟩ := hother j hj
    simp only [live, hmem, hentry]

/-- A new value in a slot leaves its key. -/
theorem live_modified (u : MatchUnit σ K V) (i : ℕ) (value : V) :
    live { u with entries := Function.update u.entries i { u.entries i with value := value } } =
      u.live := by
  funext j
  unfold live
  by_cases hj : j = i
  · subst hj
    simp
  · simp [hj]

variable [LookupStructure σ K] [LiveLookup σ K]

/-- **The lookup structure follows the slots**, and they are counted. -/
structure Sound (u : MatchUnit σ K V) : Prop where
  follows : LiveLookup.Follows u.lookupStructure u.size u.live
  numEntries_eq : u.numEntries = u.handles.card

/-- The times of the entries are not seen by the lookup structure, -/
theorem Sound.touch (hs : u.Sound) (entryMeta : ℕ → EntryMeta) :
    Sound { u with entryMeta := entryMeta } := ⟨hs.follows, hs.numEntries_eq⟩

/-- an addition to the unit is one to the structure or none, -/
theorem Sound.addEntry {kb : KeyBuilder P K} {matchKey : P} {value : V} {priority : ℤ} {now : ℕ}
    (hs : u.Sound) : (u.addEntry kb matchKey value priority now).2.Sound := by
  rcases hadd : u.addEntry kb matchKey value priority now with ⟨e | h, u'⟩
  · rwa [addEntry_eq_error hadd]
  · obtain ⟨-, hnew, hroom, -, rfl⟩ := addEntry_eq_ok hadd
    have hfree := firstFree_notMem u.handles
    have hcard := firstFree_le_card u.handles
    have hnum := hs.numEntries_eq
    refine ⟨?_, by simp [hfree, hnum]⟩
    simp only
    rw [live_eq_update (u := u) (o := some (kb.matchParamsToEntry matchKey priority))
      (i := firstFree u.handles)]
    · exact LiveLookup.follows_add hs.follows (by omega) (by simp [live, hfree])
        (fun j hj => isSome_live.mpr (mem_of_lt_firstFree hj)) hnew
    · exact live_eq_some.mpr ⟨Finset.mem_insert_self .., by simp⟩
    · exact fun j hj => ⟨by simp [hj], Function.update_of_ne hj ..⟩

/-- a deletion of a live entry is one from the structure, -/
theorem Sound.deleteEntry (hs : u.Sound) (h : EntryHandle) : (u.deleteEntry h).2.Sound := by
  cases hc : u.checkHandle h with
  | error e => rwa [deleteEntry_of_error hc]
  | ok i =>
    obtain ⟨-, hi, -⟩ := checkHandle_eq_ok.mp hc
    have hnum := hs.numEntries_eq
    rw [deleteEntry_of_ok hc]
    refine ⟨?_, by simp [Finset.card_erase_of_mem hi, hnum]⟩
    simp only
    rw [live_eq_update (u := u) (o := none) (i := i)]
    · exact LiveLookup.follows_delete hs.follows (live_eq_some.mpr ⟨hi, rfl⟩)
    · simp [live]
    · exact fun j hj => ⟨by simp [hj], Function.update_of_ne hj ..⟩

/-- a change of the value of an entry leaves its key, -/
theorem Sound.modifyEntry (hs : u.Sound) (h : EntryHandle) (value : V) :
    (u.modifyEntry h value).2.Sound := by
  cases hc : u.checkHandle h with
  | error e => rwa [modifyEntry_of_error hc]
  | ok i =>
    rw [modifyEntry_of_ok hc]
    refine ⟨?_, hs.numEntries_eq⟩
    rw [live_modified]
    exact hs.follows

omit [LiveLookup σ K] in
/-- a lookup leaves what the lookup of the structure leaves, -/
theorem lookup_lookupStructure (key : ByteContainer) (length now : ℕ) :
    (u.lookup key length now).2.lookupStructure =
      (LookupStructure.lookup u.lookupStructure key).2 := by
  unfold MatchUnit.lookup lookupKey
  rcases LookupStructure.lookup u.lookupStructure key with ⟨_ | i, ls⟩
  · rfl
  · rfl

/-- and so keeps the two together, -/
theorem Sound.lookup (hs : u.Sound) (key : ByteContainer) (length now : ℕ) :
    (u.lookup key length now).2.Sound := by
  obtain ⟨hh, he, hn, hsize⟩ := lookup_eq (u := u) key length now
  have hlive : (u.lookup key length now).2.live = u.live := by
    funext j
    rw [live, live, hh, he]
  refine ⟨?_, by rw [hn, hh, hs.numEntries_eq]⟩
  rw [hlive, hsize, lookup_lookupStructure]
  exact LiveLookup.follows_lookup hs.follows key

/-- **A hit is a live entry.** -/
theorem Sound.exists_of_lookup (hs : u.Sound) {key : ByteContainer} {length now : ℕ} {v : V}
    (hhit : (u.lookup key length now).1 = some (h, v)) :
    ∃ i ∈ u.handles, v = (u.entries i).value ∧ h = handleSet (u.entries i).version i := by
  unfold MatchUnit.lookup lookupKey at hhit
  revert hhit
  rcases hl : LookupStructure.lookup u.lookupStructure key with ⟨_ | i, ls⟩
  · intro hhit
    cases hhit
  · intro hhit
    have hi := isSome_live.mp (LiveLookup.isSome_of_lookup hs.follows (congrArg Prod.fst hl))
    cases hhit
    exact ⟨i, hi, rfl, rfl⟩

variable [Inhabited K] [Inhabited V]

/-- as a new unit has them, -/
theorem sound_create {size : ℕ} {ls : σ} (h : LiveLookup.Follows ls size fun _ => (none : Option K)) :
    Sound (create size ls : MatchUnit σ K V) := ⟨h, rfl⟩

/-- and one that was emptied. -/
theorem Sound.resetState (hs : u.Sound) : u.resetState.Sound :=
  sound_create (LiveLookup.follows_clear hs.follows)

/-- So every operation keeps the structure in step with the entries, -/
theorem Sound.apply (kb : KeyBuilder P K) (hs : u.Sound) (op : Op P V) : (u.apply kb op).Sound := by
  cases op with
  | addEntry matchKey value priority now => exact hs.addEntry
  | deleteEntry h => exact hs.deleteEntry h
  | modifyEntry h value => exact hs.modifyEntry h value
  | setEntryTtl h ttlMs now =>
    simp only [MatchUnit.apply, setEntryTtl]
    split
    · exact hs
    · exact hs.touch _
  | lookup key length now => exact hs.lookup key length now
  | resetState => exact hs.resetState

/-- and so does every run. -/
theorem Sound.run (kb : KeyBuilder P K) (hs : u.Sound) (ops : List (Op P V)) :
    (u.run kb ops).Sound := by
  induction ops generalizing u with
  | nil => exact hs
  | cons op ops ih => exact ih (hs.apply kb op)

end MatchUnit

end P4Bricks
