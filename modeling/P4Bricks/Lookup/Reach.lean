import P4Bricks.Lookup.Liveness
import P4Bricks.LpmTrie.Spares
/-!
# Lookup structures that reach every live entry

A lookup structure may fall short of its unit's live keys only where a deletion
from the prefix trie frees a node that other prefixes are in. `ReachLookup` says
which deletions do not, and that all else keeps every live key within reach.
-/

namespace P4Bricks

namespace Lookup

/-- The structure leads from every live key to its slot. -/
def Complete {σ K : Type*} [LookupStructure σ K] (s : σ) (live : ℕ → Option K) : Prop :=
  ∀ i key, live i = some key → LookupStructure.retrieveHandle s key = some i

/-- **A lookup structure that keeps live keys within reach**, as long as its
deletions spare the others. -/
class ReachLookup (σ K : Type*) [LookupStructure σ K] [LiveLookup σ K] where
  /-- Deleting the key leaves the others where they are. -/
  Spares : σ → K → Prop
  isSome_of_retrieve {s : σ} {size : ℕ} {live : ℕ → Option K}
    (h : LiveLookup.Follows s size live) {key : K} {i : ℕ}
    (hi : LookupStructure.retrieveHandle s key = some i) : (live i).isSome
  retrieve_live {s : σ} {size : ℕ} {live : ℕ → Option K} (h : LiveLookup.Follows s size live)
    {key key' : K} {i : ℕ} (hi : LookupStructure.retrieveHandle s key' = some i)
    (hlive : live i = some key) : LookupStructure.retrieveHandle s key = some i
  complete_lookup {s : σ} {size : ℕ} {live : ℕ → Option K} (h : LiveLookup.Follows s size live)
    (hc : Complete s live) (bytes : ByteContainer) :
    Complete (LookupStructure.lookup s bytes).2 live
  complete_add {s : σ} {size : ℕ} {live : ℕ → Option K} (h : LiveLookup.Follows s size live)
    (hc : Complete s live) {key : K} {i : ℕ} (hi : i < size) (hfree : live i = none)
    (hbelow : ∀ j < i, (live j).isSome) (hnew : LookupStructure.entryExists s key = false) :
    Complete (LookupStructure.addEntry s key i) (Function.update live i (some key))
  complete_delete {s : σ} {size : ℕ} {live : ℕ → Option K} (h : LiveLookup.Follows s size live)
    (hc : Complete s live) {key : K} {i : ℕ} (hi : live i = some key) :
    Complete (LookupStructure.deleteEntry s key) (Function.update live i none) ↔ Spares s key

/-- **A lookup structure that finds a key that was added.** -/
class FindLookup (σ K : Type*) [LookupStructure σ K] [LiveLookup σ K] where
  entryExists_eq (s : σ) (key : K) :
    LookupStructure.entryExists s key = (LookupStructure.retrieveHandle s key).isSome
  retrieve_add {s : σ} {size : ℕ} {live : ℕ → Option K} (h : LiveLookup.Follows s size live)
    {key : K} {i : ℕ} (hi : i < size) (hfree : live i = none) (hbelow : ∀ j < i, (live j).isSome)
    (hnew : LookupStructure.entryExists s key = false) :
    LookupStructure.retrieveHandle (LookupStructure.addEntry s key i) key = some i

/-! ## Exact keys -/

instance : FindLookup ExactMap ExactMatchKey where
  entryExists_eq _ _ := rfl
  retrieve_add := by
    intro m size live h key i _ _ _ _
    simp [LookupStructure.retrieveHandle, LookupStructure.addEntry]

instance : ReachLookup ExactMap ExactMatchKey where
  Spares _ _ := True
  isSome_of_retrieve h _ _ hi := by rw [h _ _ hi]; rfl
  retrieve_live := by
    intro m size live h key key' i hi hlive
    have hkey := h _ _ hi
    rw [hlive] at hkey
    obtain rfl := Option.some.inj hkey
    exact hi
  complete_lookup _ hc _ := hc
  complete_add := by
    intro m size live h hc key i _ hfree _ hnew j k hj
    by_cases hji : j = i
    · subst hji
      rw [Function.update_self] at hj
      obtain rfl := Option.some.inj hj
      simp [LookupStructure.retrieveHandle, LookupStructure.addEntry]
    · rw [Function.update_of_ne hji] at hj
      have hk : m.entriesMap k.data = some j := hc j k hj
      have hne : k.data ≠ key.data := by
        intro heq
        simp [LookupStructure.entryExists, ← heq, hk] at hnew
      simpa [LookupStructure.retrieveHandle, LookupStructure.addEntry, hne] using hk
  complete_delete := by
    intro m size live h hc key i hi
    refine iff_of_true (fun j k hj => ?_) trivial
    by_cases hji : j = i
    · subst hji
      simp at hj
    · rw [Function.update_of_ne hji] at hj
      have hk : m.entriesMap k.data = some j := hc j k hj
      have hown : m.entriesMap key.data = some i := hc i key hi
      have hne : k.data ≠ key.data := by
        intro heq
        rw [heq, hown] at hk
        exact hji (Option.some.inj hk).symm
      simpa [LookupStructure.retrieveHandle, LookupStructure.deleteEntry, hne] using hk

/-! ## Longest-prefix keys -/

theorem LPMTrieStructure.retrieveHandle_eq (m : LPMTrieStructure) (key : LPMMatchKey) :
    LookupStructure.retrieveHandle m key =
      m.trie.root.value (LpmTrie.place key.data key.prefixLength).1
        (LpmTrie.place key.data key.prefixLength).2 :=
  LpmTrie.retrieveValue_eq_value _ _ _

instance : FindLookup LPMTrieStructure LPMMatchKey where
  entryExists_eq _ _ := rfl
  retrieve_add := by
    intro m size live h key i _ _ _ _
    rw [LPMTrieStructure.retrieveHandle_eq]
    exact (LpmTrie.value_insert _ _ _ _ _ _).trans (if_pos rfl)

instance : ReachLookup LPMTrieStructure LPMMatchKey where
  Spares m key := m.trie.Spares key.data key.prefixLength
  isSome_of_retrieve := by
    intro m size live h key i hi
    rw [LPMTrieStructure.retrieveHandle_eq] at hi
    obtain ⟨key', hlive, -⟩ := h.place_eq _ _ i hi
    rw [hlive]
    rfl
  retrieve_live := by
    intro m size live h key key' i hi hlive
    rw [LPMTrieStructure.retrieveHandle_eq] at hi ⊢
    obtain ⟨k, hk, hplace⟩ := h.place_eq _ _ i hi
    rw [hlive] at hk
    obtain rfl := Option.some.inj hk
    rwa [hplace]
  complete_lookup _ hc _ := hc
  complete_add := by
    intro m size live h hc key i _ hfree _ hnew j k hj
    have hinsert := LpmTrie.value_insert m.trie.root key.data key.prefixLength i
      (LpmTrie.place k.data k.prefixLength).1 (LpmTrie.place k.data k.prefixLength).2
    rw [LPMTrieStructure.retrieveHandle_eq]
    refine hinsert.trans ?_
    by_cases hji : j = i
    · subst hji
      rw [Function.update_self] at hj
      obtain rfl := Option.some.inj hj
      rw [if_pos rfl]
    · rw [Function.update_of_ne hji] at hj
      have hk := hc j k hj
      rw [LPMTrieStructure.retrieveHandle_eq] at hk
      rw [if_neg, hk]
      -- The new key has no place yet, this one has.
      intro heq
      have hnone : (LookupStructure.retrieveHandle m key).isSome = false := hnew
      rw [LPMTrieStructure.retrieveHandle_eq, ← heq, hk] at hnone
      cases hnone
  complete_delete := by
    intro m size live h hc key i hi
    have hown := hc i key hi
    rw [LPMTrieStructure.retrieveHandle_eq] at hown
    constructor
    · intro hcomplete
      by_contra hnot
      obtain ⟨path, k, j, hne, hj, hlost⟩ := LpmTrie.exists_lost h.releaseMemory hown hnot
      obtain ⟨key', hlive, hplace⟩ := h.place_eq path k j hj
      have hji : j ≠ i := by
        rintro rfl
        rw [hi] at hlive
        obtain rfl := Option.some.inj hlive
        exact hne hplace.symm
      have hfound := hcomplete j key' (by rw [Function.update_of_ne hji, hlive])
      rw [LPMTrieStructure.retrieveHandle_eq, hplace] at hfound
      exact absurd (hlost.symm.trans hfound) (by simp)
    · intro hspares j k hj
      by_cases hji : j = i
      · subst hji
        simp at hj
      · rw [Function.update_of_ne hji] at hj
        have hk := hc j k hj
        rw [LPMTrieStructure.retrieveHandle_eq] at hk ⊢
        refine LpmTrie.keeps_delete h.releaseMemory hown hspares _ _ _ (fun heq => ?_) hk
        obtain ⟨h1, h2⟩ := Prod.ext_iff.mp heq
        rw [h1, h2, hown] at hk
        exact hji (Option.some.inj hk).symm

/-! ## Ternary and range keys -/

section

variable {K : Type*} [EntryKey K]

/-- The list holds exactly the live keys. -/
theorem EntryMap.complete {m : EntryMap K} {size : ℕ} {live : ℕ → Option K}
    (h : LiveLookup.Follows m size live) : Complete m live :=
  fun _ _ hi => Holds.findEntry_eq h hi

instance : FindLookup (EntryMap K) K where
  entryExists_eq _ _ := rfl
  retrieve_add h _ _ hi hfree hbelow hnew :=
    EntryMap.complete (LiveLookup.follows_add h hi hfree hbelow hnew) _ _ (Function.update_self ..)

/-- An entry that was found is the same as the one asked for. -/
theorem EntryMap.same_of_retrieve {m : EntryMap K} {size : ℕ} {live : ℕ → Option K}
    (h : LiveLookup.Follows m size live) {key : K} {i : ℕ}
    (hi : LookupStructure.retrieveHandle m key = some i) :
    ∃ k, live i = some k ∧ EntryKey.same k key := by
  obtain ⟨k, hk⟩ := Option.isSome_iff_exists.mp ((h.mem_slots i).mp (List.mem_of_find?_eq_some hi))
  have hfound := List.find?_some hi
  rw [h.entries i k hk, Bool.and_eq_true] at hfound
  exact ⟨k, hk, hfound.2⟩

instance : ReachLookup (EntryMap K) K where
  Spares _ _ := True
  isSome_of_retrieve := by
    intro m size live h key i hi
    have hmem := List.mem_of_find?_eq_some hi
    exact (h.mem_slots i).mp hmem
  retrieve_live h _ _ _ _ hlive := EntryMap.complete h _ _ hlive
  complete_lookup h _ bytes := EntryMap.complete (LiveLookup.follows_lookup h bytes)
  complete_add h _ _ _ hi hfree hbelow hnew :=
    EntryMap.complete (LiveLookup.follows_add h hi hfree hbelow hnew)
  complete_delete h _ _ _ hi :=
    iff_of_true (EntryMap.complete (LiveLookup.follows_delete h hi)) trivial

end

end Lookup

end P4Bricks
