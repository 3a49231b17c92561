import P4Bricks.Lookup.EntryListRun
import P4Bricks.LpmTrie.Helpers.Places
import P4Bricks.LpmTrie.Refinement
/-!
# Lookups return live handles

What a match unit needs of its lookup structure to be safe: a lookup returns
the handle of an entry the unit holds. `LiveLookup` states it as an invariant
between the structure and the unit's live keys, which each call of the unit
keeps. All four structures have it; for the trie even where a deletion has
freed more than it should, for that loses entries and brings none back.
-/

namespace P4Bricks

namespace Lookup

/-- **A lookup structure that follows the unit's live keys.** -/
class LiveLookup (σ K : Type*) [LookupStructure σ K] where
  /-- The structure answers for these keys, in slots below `size`. -/
  Follows : σ → ℕ → (ℕ → Option K) → Prop
  follows_lookup {s : σ} {size : ℕ} {live : ℕ → Option K} (h : Follows s size live)
    (key : ByteContainer) : Follows (LookupStructure.lookup s key).2 size live
  follows_add {s : σ} {size : ℕ} {live : ℕ → Option K} (h : Follows s size live) {key : K} {i : ℕ}
    (hi : i < size) (hfree : live i = none) (hbelow : ∀ j < i, (live j).isSome)
    (hnew : LookupStructure.entryExists s key = false) :
    Follows (LookupStructure.addEntry s key i) size (Function.update live i (some key))
  follows_delete {s : σ} {size : ℕ} {live : ℕ → Option K} (h : Follows s size live) {key : K}
    {i : ℕ} (hi : live i = some key) :
    Follows (LookupStructure.deleteEntry s key) size (Function.update live i none)
  follows_clear {s : σ} {size : ℕ} {live : ℕ → Option K} (h : Follows s size live) :
    Follows (LookupStructure.clear s) size fun _ => none
  isSome_of_lookup {s : σ} {size : ℕ} {live : ℕ → Option K} (h : Follows s size live)
    {key : ByteContainer} {i : ℕ} (hi : (LookupStructure.lookup s key).1 = some i) :
    (live i).isSome

/-! ## Exact keys -/

/-- The map leads to live handles, by their keys. -/
def ExactMap.Follows (m : ExactMap) (live : ℕ → Option ExactMatchKey) : Prop :=
  ∀ bytes i, m.entriesMap bytes = some i → live i = some ⟨bytes⟩

instance : LiveLookup ExactMap ExactMatchKey where
  Follows m _ live := m.Follows live
  follows_lookup h _ := h
  follows_add := by
    intro m size live h key i _ hfree _ _ bytes j hj
    by_cases hb : bytes = key.data
    · subst hb
      obtain rfl : i = j := by simpa [LookupStructure.addEntry] using hj
      rw [Function.update_self]
    · have hlive : live j = some ⟨bytes⟩ :=
        h bytes j (by simpa [LookupStructure.addEntry, hb] using hj)
      have hne : j ≠ i := by
        rintro rfl
        rw [hfree] at hlive
        cases hlive
      rw [Function.update_of_ne hne, hlive]
  follows_delete := by
    intro m size live h key i hi bytes j hj
    by_cases hb : bytes = key.data
    · simp [LookupStructure.deleteEntry, hb] at hj
    · have hlive : live j = some ⟨bytes⟩ :=
        h bytes j (by simpa [LookupStructure.deleteEntry, hb] using hj)
      have hne : j ≠ i := by
        rintro rfl
        rw [hi] at hlive
        exact hb (by rw [Option.some.inj hlive])
      rw [Function.update_of_ne hne, hlive]
  follows_clear _ := fun _ _ h => by cases h
  isSome_of_lookup h _ _ hi := by rw [h _ _ hi]; rfl

/-! ## Longest-prefix keys -/

/-- Each place of the trie that holds a handle is that of its key. -/
structure LPMTrieStructure.Follows (m : LPMTrieStructure) (live : ℕ → Option LPMMatchKey) :
    Prop where
  releaseMemory : m.trie.releaseMemory = true
  place_eq : ∀ path k i, m.trie.root.value path k = some i →
    ∃ key, live i = some key ∧ LpmTrie.place key.data key.prefixLength = (path, k)

theorem LPMTrieStructure.follows_create (w : ℕ) : (create w).Follows fun _ => none :=
  ⟨rfl, fun path k i h => by simp [create, LpmTrie.create] at h⟩

instance : LiveLookup LPMTrieStructure LPMMatchKey where
  Follows m _ live := m.Follows live
  follows_lookup h _ := h
  follows_add := by
    intro m size live h key i _ hfree _ _
    refine ⟨h.releaseMemory, fun path k j hj => ?_⟩
    have hvalue := LpmTrie.value_insert m.trie.root key.data key.prefixLength i path k
    have hj : (m.trie.root.insert key.data key.prefixLength i).value path k = some j := hj
    rw [hj] at hvalue
    split at hvalue
    · rename_i heq
      obtain rfl := Option.some.inj hvalue
      exact ⟨key, Function.update_self .., heq.symm⟩
    · obtain ⟨key', hlive, hplace⟩ := h.place_eq path k j hvalue.symm
      have hne : j ≠ i := by
        rintro rfl
        rw [hfree] at hlive
        cases hlive
      exact ⟨key', by rw [Function.update_of_ne hne, hlive], hplace⟩
  follows_delete := by
    intro m size live h key i hi
    refine ⟨?_, fun path k j hj => ?_⟩
    · rw [← h.releaseMemory]
      exact LpmTrie.apply_releaseMemory m.trie (.delete key.data key.prefixLength)
    · obtain ⟨hold, hplace⟩ := LpmTrie.value_delete h.releaseMemory key.data key.prefixLength hj
      obtain ⟨key', hlive, hplace'⟩ := h.place_eq path k j hold
      have hne : j ≠ i := by
        rintro rfl
        rw [hi] at hlive
        rw [Option.some.inj hlive, hplace'] at hplace
        exact hplace rfl
      exact ⟨key', by rw [Function.update_of_ne hne, hlive], hplace'⟩
  follows_clear _ := LPMTrieStructure.follows_create _
  isSome_of_lookup := by
    intro m size live h key i hi
    rcases LpmTrie.exists_value_of_lookup hi with hnone | ⟨path, k, hv⟩
    · cases hnone
    · obtain ⟨key, hlive, -⟩ := h.place_eq path k i hv
      rw [hlive]
      rfl

/-! ## Ternary and range keys -/

section

variable {K : Type*} [EntryKey K]

instance : LiveLookup (EntryMap K) K where
  Follows m size live := Holds m.entryList (EntryKey.cmp m.nbytesKey) size live
  follows_lookup h key := (h.lookup key).2
  follows_add h _ _ hi hfree hbelow hnew :=
    h.add hi hfree hbelow (by simpa [LookupStructure.entryExists] using hnew)
  follows_delete h _ _ hi := h.deleteEntry hi
  follows_clear h := holds_empty rfl h.size_eq rfl
  isSome_of_lookup := by
    intro m size live h key i hi
    have hscan : m.entryList.scan (EntryKey.cmp m.nbytesKey key) = some i := by
      rw [← (h.lookup key).1]
      exact hi
    obtain ⟨k, hc, -⟩ := ((h.scan_spec _).1 i).mp hscan
    rw [hc.1]
    rfl

end

end Lookup

end P4Bricks
