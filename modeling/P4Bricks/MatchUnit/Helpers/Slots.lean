import P4Bricks.MatchUnit.Model
/-!
# Handles and slots

How a handle packs a slot and a version, and what one request can do to one
slot. Every invariant of a unit's runs below is read off the second.
-/

namespace P4Bricks

namespace MatchUnit

open Lookup

/-! ## Packing -/

theorem handleInternal_eq (h : EntryHandle) : handleInternal h = h.toNat % 2 ^ 24 :=
  Nat.and_two_pow_sub_one_eq_mod h.toNat 24

theorem handleVersion_eq (h : EntryHandle) : handleVersion h = h.toNat / 2 ^ 24 :=
  Nat.shiftRight_eq_div_pow h.toNat 24

theorem handleVersion_lt (h : EntryHandle) : handleVersion h < 256 := by
  have hlt := h.toNat_lt
  rw [handleVersion_eq]
  omega

theorem handleInternal_lt (h : EntryHandle) : handleInternal h < 2 ^ 24 := by
  rw [handleInternal_eq]
  exact Nat.mod_lt _ (by decide)

/-- With a slot of at most 24 bits, slot and version share the handle. -/
theorem toNat_handleSet (v : ℕ) {i : ℕ} (hi : i < 2 ^ 24) :
    (handleSet v i).toNat = v % 256 * 2 ^ 24 + i := by
  have hv : v &&& 0xff = v % 2 ^ 8 := Nat.and_two_pow_sub_one_eq_mod v 8
  have hor : (v % 2 ^ 8) <<< 24 ||| i = (v % 2 ^ 8) <<< 24 + i :=
    (Nat.shiftLeft_add_eq_or_of_lt hi _).symm
  have hlt : v % 2 ^ 8 < 2 ^ 8 := Nat.mod_lt v (by decide)
  unfold handleSet
  rw [hv, hor, Nat.shiftLeft_eq, UInt32.toNat_ofNat_of_lt']
  · rfl
  · change _ < 2 ^ 32
    omega

theorem handleInternal_handleSet (v : ℕ) {i : ℕ} (hi : i < 2 ^ 24) :
    handleInternal (handleSet v i) = i := by
  rw [handleInternal_eq, toNat_handleSet v hi]
  omega

theorem handleVersion_handleSet (v : ℕ) {i : ℕ} (hi : i < 2 ^ 24) :
    handleVersion (handleSet v i) = v % 256 := by
  rw [handleVersion_eq, toNat_handleSet v hi]
  omega

/-- A handle is its slot and its version. -/
theorem handle_eq {h h' : EntryHandle} (hi : handleInternal h = handleInternal h')
    (hv : handleVersion h = handleVersion h') : h = h' := by
  rw [handleInternal_eq, handleInternal_eq] at hi
  rw [handleVersion_eq, handleVersion_eq] at hv
  rw [← UInt32.toNat_inj]
  omega

/-! ## What one request does to one slot -/

section

variable {σ P K V : Type*} {u u' : MatchUnit σ K V} {h : EntryHandle} {i : ℕ}

theorem checkHandle_eq_ok : u.checkHandle h = .ok i ↔
    handleInternal h = i ∧ i ∈ u.handles ∧ handleVersion h = (u.entries i).version := by
  unfold checkHandle
  constructor
  · intro hc
    by_cases hmem : handleInternal h ∈ u.handles
    · by_cases hver : handleVersion h = (u.entries (handleInternal h)).version
      · simp only [hmem, hver, not_true_eq_false, if_false, ne_eq, Except.ok.injEq] at hc
        subst hc
        exact ⟨rfl, hmem, hver⟩
      · simp [hmem, hver] at hc
    · simp [hmem] at hc
  · rintro ⟨rfl, hmem, hver⟩
    simp only [hmem, hver, not_true_eq_false, if_false, ne_eq]

/-- Two handles that pass for one slot are the same. -/
theorem handle_eq_of_checkHandle {h' : EntryHandle} (hc : u.checkHandle h = .ok i)
    (hc' : u.checkHandle h' = .ok i) : h = h' := by
  obtain ⟨hi, -, hv⟩ := checkHandle_eq_ok.mp hc
  obtain ⟨hi', -, hv'⟩ := checkHandle_eq_ok.mp hc'
  exact handle_eq (hi.trans hi'.symm) (hv.trans hv'.symm)

/-- The slot is as it was. -/
def SlotEq (u u' : MatchUnit σ K V) (i : ℕ) : Prop :=
  (i ∈ u'.handles ↔ i ∈ u.handles) ∧ u'.entries i = u.entries i

/-- `checkHandle` reads one slot. -/
theorem SlotEq.checkHandle_eq (hs : SlotEq u u' (handleInternal h)) :
    u'.checkHandle h = u.checkHandle h := by
  unfold checkHandle
  simp only [hs.1, hs.2]

variable [LookupStructure σ K]

/-- **A successful addition**: the key is new, the first free slot takes the
entry, and no other slot changes. -/
theorem addEntry_eq_ok {kb : KeyBuilder P K} {matchKey : P} {value : V} {priority : ℤ} {now : ℕ}
    (hadd : u.addEntry kb matchKey value priority now = (.ok h, u')) :
    kb.matchParamsSanityCheck matchKey = true ∧
      LookupStructure.entryExists u.lookupStructure (kb.matchParamsToEntry matchKey priority) = false ∧
      u.numEntries < u.size ∧
      h = handleSet (u.entries (firstFree u.handles)).version (firstFree u.handles) ∧
      u' = { u with
        numEntries := u.numEntries + 1
        handles := insert (firstFree u.handles) u.handles
        entries := Function.update u.entries (firstFree u.handles)
          ⟨kb.matchParamsToEntry matchKey priority, (u.entries (firstFree u.handles)).version, value⟩
        entryMeta := Function.update u.entryMeta (handleInternal h)
          { u.entryMeta (handleInternal h) with
            ts := now, bytes := 0, packets := 0, version := handleVersion h }
        lookupStructure := LookupStructure.addEntry u.lookupStructure
          (kb.matchParamsToEntry matchKey priority) (firstFree u.handles) } := by
  unfold addEntry addEntry_ KeyBuilder.buildEntryFromMatchKey getAndSetHandle at hadd
  by_cases hsane : kb.matchParamsSanityCheck matchKey = true
  · by_cases hex : LookupStructure.entryExists u.lookupStructure
        (kb.matchParamsToEntry matchKey priority) = true
    · simp [hsane, hex] at hadd
    · by_cases hfull : u.size ≤ u.numEntries
      · simp [hsane, hex, hfull] at hadd
      · simp only [hsane, hex, hfull, if_true, if_false, Bool.false_eq_true, Prod.mk.injEq,
          Except.ok.injEq] at hadd
        obtain ⟨rfl, rfl⟩ := hadd
        exact ⟨hsane, by simpa using hex, by omega, rfl, rfl⟩
  · simp [hsane] at hadd

/-- A refused addition changes nothing. -/
theorem addEntry_eq_error {kb : KeyBuilder P K} {matchKey : P} {value : V} {priority : ℤ}
    {now : ℕ} {e : MatchErrorCode}
    (hadd : u.addEntry kb matchKey value priority now = (.error e, u')) : u' = u := by
  unfold addEntry addEntry_ KeyBuilder.buildEntryFromMatchKey getAndSetHandle at hadd
  by_cases hsane : kb.matchParamsSanityCheck matchKey = true
  · by_cases hex : LookupStructure.entryExists u.lookupStructure
        (kb.matchParamsToEntry matchKey priority) = true
    · simp only [hsane, hex, if_true, Prod.mk.injEq] at hadd
      exact hadd.2.symm
    · by_cases hfull : u.size ≤ u.numEntries
      · simp only [hsane, hex, hfull, if_true, if_false, Bool.false_eq_true, Prod.mk.injEq] at hadd
        exact hadd.2.symm
      · simp [hsane, hex, hfull] at hadd
  · simp only [hsane, if_false, Bool.false_eq_true, Prod.mk.injEq] at hadd
    exact hadd.2.symm

theorem deleteEntry_of_ok (hc : u.checkHandle h = .ok i) :
    u.deleteEntry h = (.ok (),
      { u with
        numEntries := u.numEntries - 1
        handles := u.handles.erase i
        entries := Function.update u.entries i
          { u.entries i with version := ((u.entries i).version + 1) % 2 ^ 32 }
        lookupStructure :=
          LookupStructure.deleteEntry u.lookupStructure (u.entries i).key }) := by
  obtain ⟨-, hmem, -⟩ := checkHandle_eq_ok.mp hc
  simp [deleteEntry, hc, unsetHandle, hmem]

theorem deleteEntry_of_error {e : MatchErrorCode} (hc : u.checkHandle h = .error e) :
    u.deleteEntry h = (.error e, u) := by
  simp [deleteEntry, hc]

omit [LookupStructure σ K] in
theorem modifyEntry_of_ok (hc : u.checkHandle h = .ok i) (value : V) :
    u.modifyEntry h value = (.ok (),
      { u with entries := Function.update u.entries i { u.entries i with value := value } }) := by
  simp [modifyEntry, hc]

omit [LookupStructure σ K] in
theorem modifyEntry_of_error {e : MatchErrorCode} (hc : u.checkHandle h = .error e) (value : V) :
    u.modifyEntry h value = (.error e, u) := by
  simp [modifyEntry, hc]

/-- A lookup changes the lookup structure and the meta data only. -/
theorem lookup_eq (key : ByteContainer) (length now : ℕ) :
    (u.lookup key length now).2.handles = u.handles ∧
      (u.lookup key length now).2.entries = u.entries ∧
      (u.lookup key length now).2.numEntries = u.numEntries ∧
      (u.lookup key length now).2.size = u.size := by
  unfold lookup lookupKey
  rcases hl : LookupStructure.lookup u.lookupStructure key with ⟨_ | i, ls⟩
  · exact ⟨rfl, rfl, rfl, rfl⟩
  · exact ⟨rfl, rfl, rfl, rfl⟩

omit [LookupStructure σ K] in
theorem setEntryTtl_eq (ttlMs now : ℕ) :
    (u.setEntryTtl h ttlMs now).2.handles = u.handles ∧
      (u.setEntryTtl h ttlMs now).2.entries = u.entries ∧
      (u.setEntryTtl h ttlMs now).2.numEntries = u.numEntries ∧
      (u.setEntryTtl h ttlMs now).2.size = u.size := by
  unfold setEntryTtl
  by_cases hmem : handleInternal h ∈ u.handles
  · simp [hmem]
  · simp [hmem]

variable [Inhabited K] [Inhabited V]

/-- The slot is taken by a new entry, of the version it had. -/
def Taken (u u' : MatchUnit σ K V) (i : ℕ) (key : K) (value : V) : Prop :=
  i ∉ u.handles ∧ i = firstFree u.handles ∧ i ∈ u'.handles ∧
    u'.entries i = ⟨key, (u.entries i).version, value⟩

/-- The slot is freed, and its version counts it. -/
def Freed (u u' : MatchUnit σ K V) (i : ℕ) : Prop :=
  i ∉ u'.handles ∧
    u'.entries i = { u.entries i with version := ((u.entries i).version + 1) % 2 ^ 32 }

/-- **All that one request can do to one slot.** -/
theorem slot_cases (kb : KeyBuilder P K) (u : MatchUnit σ K V) (op : Op P V) (i : ℕ) :
    op = .resetState ∨ SlotEq u (u.apply kb op) i ∨
    (∃ matchKey value priority now, op = .addEntry matchKey value priority now ∧
      Taken u (u.apply kb op) i (kb.matchParamsToEntry matchKey priority) value) ∨
    (∃ h, op = .deleteEntry h ∧ u.checkHandle h = .ok i ∧ Freed u (u.apply kb op) i) ∨
    ∃ h value, op = .modifyEntry h value ∧ u.checkHandle h = .ok i ∧
      i ∈ (u.apply kb op).handles ∧
      (u.apply kb op).entries i = { u.entries i with value := value } := by
  cases op with
  | addEntry matchKey value priority now =>
    right
    simp only [apply]
    rcases hadd : u.addEntry kb matchKey value priority now with ⟨e | h, u'⟩
    · obtain rfl := addEntry_eq_error hadd
      exact .inl ⟨Iff.rfl, rfl⟩
    · obtain ⟨-, -, -, -, rfl⟩ := addEntry_eq_ok hadd
      -- The entry goes to the first free slot, and to no other.
      by_cases hi : i = firstFree u.handles
      · subst hi
        refine .inr (.inl ⟨matchKey, value, priority, now, rfl, firstFree_notMem _, rfl, ?_, ?_⟩)
        · exact Finset.mem_insert_self ..
        · exact Function.update_self ..
      · exact .inl ⟨by simp [hi], Function.update_of_ne hi ..⟩
  | deleteEntry h =>
    right
    simp only [apply]
    cases hc : u.checkHandle h with
    | error e =>
      rw [deleteEntry_of_error hc]
      exact .inl ⟨Iff.rfl, rfl⟩
    | ok j =>
      rw [deleteEntry_of_ok hc]
      by_cases hj : i = j
      · subst hj
        refine .inr (.inr (.inl ⟨h, rfl, hc, ?_, ?_⟩))
        · exact Finset.notMem_erase i u.handles
        · exact Function.update_self ..
      · exact .inl ⟨by simp [hj], Function.update_of_ne hj ..⟩
  | modifyEntry h value =>
    right
    simp only [apply]
    cases hc : u.checkHandle h with
    | error e =>
      rw [modifyEntry_of_error hc]
      exact .inl ⟨Iff.rfl, rfl⟩
    | ok j =>
      rw [modifyEntry_of_ok hc]
      by_cases hj : i = j
      · subst hj
        obtain ⟨-, hmem, -⟩ := checkHandle_eq_ok.mp hc
        exact .inr (.inr (.inr ⟨h, value, rfl, hc, hmem, Function.update_self ..⟩))
      · exact .inl ⟨Iff.rfl, Function.update_of_ne hj ..⟩
  | setEntryTtl h ttlMs now =>
    obtain ⟨hh, he, -, -⟩ := setEntryTtl_eq (u := u) (h := h) ttlMs now
    exact .inr (.inl ⟨by rw [apply, hh], by rw [apply, he]⟩)
  -- A hit writes the counters and the times of the entry only.
  | lookup key length now =>
    obtain ⟨hh, he, -, -⟩ := lookup_eq (u := u) key length now
    exact .inr (.inl ⟨by rw [apply, hh], by rw [apply, he]⟩)
  | resetState => exact .inl rfl

end

end MatchUnit

end P4Bricks
