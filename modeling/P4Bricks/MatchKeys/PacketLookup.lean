import P4Bricks.MatchKeys.Prefixes
import P4Bricks.MatchKeys.Returned
/-!
# What a packet finds

The key of a packet is put together, looked up in the structure of the unit's kind,
and the slot found is given back as a handle. In each run whose steps keep handles
and keys in order, what a packet finds is the best of the entries that were added
and whose fields it has: the only one of a unit for exact keys, the one with the
longest prefix, or the one of the smallest priority (`packet_lookup_iff`).
-/

namespace P4Bricks

namespace MatchKeys

open Lookup MatchUnit

/-! ## Slots -/

section
variable (kind : MatchUnitType)

/-- The structure is for keys of so many bytes. -/
def ForWidth (n : ℕ) : UnitLookup kind → Prop :=
  match kind with
  | .exact => fun _ => True
  | .lpm => fun m => m.trie.keyWidthBytes = n
  | .ternary => fun m => m.nbytesKey = n
  | .range => fun m => m.nbytesKey = n

/-- The key has so many bytes, and its prefix is not longer. -/
def OfWidth (n : ℕ) : UnitKey kind → Prop :=
  match kind with
  | .lpm => fun k => k.data.length = n ∧ k.prefixLength ≤ 8 * n
  | .exact | .ternary | .range => fun _ => True

/-- A ternary entry of the largest priority there is is never found. -/
def InUse : UnitKey kind → Prop :=
  match kind with
  | .exact => fun _ => True
  | .lpm => fun _ => True
  | .ternary => fun k => k.priority < intMax
  | .range => fun k => k.priority < intMax

/-- The entry of a slot is preferred to that of another one. -/
def Preferred : UnitKey kind → ℕ → UnitKey kind → ℕ → Prop :=
  match kind with
  | .exact => fun _ i _ j => i = j
  | .lpm => fun k _ k' _ => k'.prefixLength ≤ k.prefixLength
  | .ternary => fun k i k' j => k.priority < k'.priority ∨ k.priority = k'.priority ∧ i ≤ j
  | .range => fun k i k' j => k.priority < k'.priority ∨ k.priority = k'.priority ∧ i ≤ j

end

section
variable {kind : MatchUnitType} {n size i : ℕ} {live : ℕ → Option (UnitKey kind)}
  {m : UnitLookup kind} {key : ByteContainer}

open MatchKeyBuilder in
/-- The entry of a slot is one that the key of a packet finds, if there is no better. -/
def Hit (live : ℕ → Option (UnitKey kind)) (n : ℕ) (key : ByteContainer) (i : ℕ)
    (k : UnitKey kind) : Prop :=
  live i = some k ∧ KeyMatches kind n key k ∧ InUse kind k

/-- A list of entries finds the preferred candidate. -/
theorem EntryMap.lookup_eq_some_iff {K : Type} [EntryKey K] {m : EntryMap K} {live : ℕ → Option K}
    (h : LiveLookup.Follows m size live) :
    (LookupStructure.lookup m key).1 = some i ↔
      ∃ k, (live i = some k ∧ EntryKey.cmp m.nbytesKey key k = true ∧ EntryKey.priority k < intMax) ∧
        ∀ j k', (live j = some k' ∧ EntryKey.cmp m.nbytesKey key k' = true ∧
          EntryKey.priority k' < intMax) → EntryKey.priority k < EntryKey.priority k' ∨
            EntryKey.priority k = EntryKey.priority k' ∧ i ≤ j := by
  change (m.entryList.lookup key (EntryKey.cmp m.nbytesKey key)).1 = some i ↔ _
  rw [(Holds.lookup h key).1, (h.scan_spec _).1 i]
  rfl

/-- **The slot that a packet key finds** is that of the preferred candidate. -/
theorem lookup_slot_iff (h : LiveLookup.Follows m size live) (hc : Complete m live)
    (hm : ForWidth kind n m) (hlive : ∀ i k, live i = some k → OfWidth kind n k)
    (hkey : key.length = n) :
    (LookupStructure.lookup m key).1 = some i ↔
      ∃ k, Hit live n key i k ∧
        ∀ j k', Hit live n key j k' → Preferred kind k i k' j := by
  cases kind with
  | exact =>
    constructor
    · intro hi
      have hi' : live i = some ⟨key⟩ := h key i hi
      refine ⟨⟨key⟩, ⟨hi', rfl, trivial⟩, ?_⟩
      rintro j ⟨data⟩ ⟨hj, hdata, -⟩
      obtain rfl : key = data := hdata
      exact Option.some.inj (hi.symm.trans (hc j ⟨key⟩ hj))
    · rintro ⟨⟨data⟩, ⟨hi, hdata, -⟩, -⟩
      obtain rfl : key = data := hdata
      exact hc i ⟨key⟩ hi
  | lpm =>
    rw [Lookup.lookup_eq_some_iff h hc hlive hm hkey]
    refine exists_congr fun k => ⟨?_, ?_⟩
    · rintro ⟨hi, hcovers, hbest⟩
      exact ⟨⟨hi, hcovers, trivial⟩, fun j k' hj => hbest j k' hj.1 hj.2.1⟩
    · rintro ⟨⟨hi, hcovers, -⟩, hbest⟩
      exact ⟨hi, hcovers, fun j k' hj hcovers' => hbest j k' ⟨hj, hcovers', trivial⟩⟩
  | ternary =>
    obtain rfl : m.nbytesKey = n := hm
    exact EntryMap.lookup_eq_some_iff h
  | range =>
    obtain rfl : m.nbytesKey = n := hm
    exact EntryMap.lookup_eq_some_iff h

end

/-! ## Units -/

section
variable {σ P K V : Type*} [LookupStructure σ K] {kb : KeyBuilder P K} {u : MatchUnit σ K V}
  {h : EntryHandle} {i : ℕ}

theorem lookupKey_eq_some {key : ByteContainer} {value : V} :
    (u.lookupKey key).1 = some (h, value) ↔
      ∃ i, (LookupStructure.lookup u.lookupStructure key).1 = some i ∧
        handleSet (u.entries i).version i = h ∧ (u.entries i).value = value := by
  unfold lookupKey
  simp only [Option.map_eq_some_iff, Prod.mk.injEq]

omit [LookupStructure σ K] in
/-- The handle of a slot is the one that passes for it. -/
theorem handleSet_of_checkHandle (hc : u.checkHandle h = .ok i) :
    handleSet (u.entries i).version i = h := by
  obtain ⟨hi, -, hver⟩ := checkHandle_eq_ok.mp hc
  have hslot : i < 2 ^ 24 := hi ▸ handleInternal_lt h
  refine handle_eq ((handleInternal_handleSet _ hslot).trans hi.symm) ?_
  rw [handleVersion_handleSet _ hslot, ← hver]
  exact Nat.mod_eq_of_lt (handleVersion_lt h)

variable [Inhabited K] [Inhabited V]

/-- What every call of a lookup structure keeps, every request to its unit keeps. -/
theorem lookupStructure_apply {Q : σ → Prop}
    (hlookup : ∀ m key, Q m → Q (LookupStructure.lookup m key).2)
    (hadd : ∀ m key j, Q m → Q (LookupStructure.addEntry m key j))
    (hdelete : ∀ m key, Q m → Q (LookupStructure.deleteEntry m key))
    (hclear : ∀ m : σ, Q m → Q (LookupStructure.clear m)) (op : MatchUnit.Op P V)
    (hu : Q u.lookupStructure) : Q (u.apply kb op).lookupStructure := by
  cases op with
  | addEntry matchKey value priority now =>
    rw [MatchUnit.apply]
    rcases hres : u.addEntry kb matchKey value priority now with ⟨e | h, u'⟩
    · rwa [addEntry_eq_error hres]
    · obtain ⟨-, -, -, -, rfl⟩ := addEntry_eq_ok hres
      exact hadd _ _ _ hu
  | deleteEntry h =>
    rw [MatchUnit.apply]
    cases hc : u.checkHandle h with
    | error e => rwa [deleteEntry_of_error hc]
    | ok i =>
      rw [deleteEntry_of_ok hc]
      exact hdelete _ _ hu
  | modifyEntry h value =>
    rw [MatchUnit.apply]
    cases hc : u.checkHandle h with
    | error e => rwa [modifyEntry_of_error hc]
    | ok i =>
      rw [modifyEntry_of_ok hc]
      exact hu
  | setEntryTtl h ttlMs now =>
    simp only [MatchUnit.apply, setEntryTtl]
    split
    · exact hu
    · exact hu
  | lookup key length now =>
    rw [MatchUnit.apply, lookup_lookupStructure]
    exact hlookup _ _ hu
  | resetState => exact hclear _ hu

variable [LiveLookup σ K] [ReachLookup σ K]

/-- Every entry of a unit has a handle. -/
def Handled (u : MatchUnit σ K V) : Prop := ∀ i ∈ u.handles, ∃ h, u.checkHandle h = .ok i

theorem Handled.apply (hu : Handled u) {op : MatchUnit.Op P V} (ho : Orderly kb u op) :
    Handled (u.apply kb op) := by
  intro i hi
  rcases slot_cases kb u op i with rfl | hs | ⟨matchKey, value, priority, now, rfl, ht⟩ |
      ⟨h', rfl, -, hfreed, -⟩ | ⟨h', value, rfl, hc, -, hentry⟩
  · exact absurd hi (Finset.notMem_empty i)
  · obtain ⟨h, hc⟩ := hu i (hs.1.mp hi)
    have hslot : handleInternal h = i := (checkHandle_eq_ok.mp hc).1
    rw [← hslot] at hs
    exact ⟨h, hs.checkHandle_eq.trans hc⟩
  · obtain ⟨hfree, rfl, -⟩ := ht
    rw [MatchUnit.apply] at hi ⊢
    rcases hadd : u.addEntry kb matchKey value priority now with ⟨e | h, u'⟩
    · rw [hadd, addEntry_eq_error hadd] at hi
      exact absurd hi hfree
    · exact ⟨h, (checkHandle_addEntry hadd).mpr (ho h u' hadd)⟩
  · exact absurd hi hfreed
  · obtain ⟨hslot, -, hver⟩ := checkHandle_eq_ok.mp hc
    refine ⟨h', checkHandle_eq_ok.mpr ⟨hslot, hi, ?_⟩⟩
    rw [hver, hentry]

/-- **Every live entry was added**, in a run whose steps are orderly, and has the key and
the value of its handle. -/
theorem issued_of_live (size : ℕ) (ls : σ) {ops : List (MatchUnit.Op P V)}
    (hops : Runs.Always (fun u op => some (u.apply kb op)) (Orderly kb) (create size ls) ops)
    {k : K} (hlive : ((create size ls).run kb ops : MatchUnit σ K V).live i = some k) :
    ∃ h matchKey value priority, Issued kb (create size ls) ops h matchKey value priority ∧
      Names ((create size ls).run kb ops) h i k value ∧
        k = kb.matchParamsToEntry matchKey priority := by
  have hhandled : Handled ((create size ls).run kb ops : MatchUnit σ K V) := by
    have hstep : ∀ (u : MatchUnit σ K V) op u', Handled u → Orderly kb u op →
        some (u.apply kb op) = some u' → Handled u' := by
      intro u op u' hu ho hu'
      obtain rfl := Option.some.inj hu'
      exact hu.apply ho
    have hnew : Handled (create size ls : MatchUnit σ K V) := fun i hi =>
      absurd hi (Finset.notMem_empty i)
    exact Runs.Always.invariant hstep hnew hops (machine_run kb _ ops)
  obtain ⟨hmem, rfl⟩ := live_eq_some.mp hlive
  obtain ⟨h, hc⟩ := hhandled i hmem
  obtain ⟨matchKey, value, priority, hissued⟩ := exists_issued size ls hops hc
  obtain ⟨j, hn⟩ := hissued.names hops
  obtain rfl : j = i := Except.ok.inj (hn.checked.symm.trans hc)
  exact ⟨h, matchKey, value, priority, hissued, ⟨hc, rfl, hn.value_eq⟩, hn.key_eq⟩

end

/-! ## Packets -/

namespace MatchKeyBuilder

section
variable {kind : MatchUnitType} {fields : List KeyField} {params params' : List MatchKeyParam}
  {priority priority' : ℤ} {V : Type} [Inhabited V] {phv : Phv}

/-- **An entry that a packet may find**: it was added under the handle, neither deleted
nor reset since, and what is compared of it is the packet's. A ternary entry of the
largest priority there is is never found. -/
structure Found (kind : MatchUnitType) (fields : List KeyField)
    (u : MatchUnit (UnitLookup kind) (UnitKey kind) V) (ops : List (MatchUnit.Op (List MatchKeyParam) V))
    (phv : Phv) (h : EntryHandle) (params : List MatchKeyParam) (value : V) (priority : ℤ) : Prop where
  issued : Issued ((ofFields fields).toKeyBuilder (UnitKey kind)) u ops h params value priority
  compared : AllCompared phv fields params
  inUse : kind.isTernary = true → priority < intMax

/-- **The first entry is preferred to the second one**: there is no other in a unit for
exact keys, its prefix is not shorter, or its priority is smaller, or the same and the
slot of its handle not behind the other. -/
def PreferredEntry (kind : MatchUnitType) (fields : List KeyField) (h : EntryHandle)
    (params : List MatchKeyParam) (priority : ℤ) (h' : EntryHandle) (params' : List MatchKeyParam)
    (priority' : ℤ) : Prop :=
  match kind with
  | .exact => h = h'
  | .lpm => ∀ j < fields.length, (fieldAt fields j).input.mtype = .lpm →
    (paramAt params' j).prefixLength ≤ (paramAt params j).prefixLength
  | .ternary | .range =>
    priority < priority' ∨ priority = priority' ∧ handleInternal h ≤ handleInternal h'

/-- The priority that a ternary entry is looked up by is the one it was added with. -/
theorem inUse_toEntry_iff : InUse kind
      (((ofFields fields).toKeyBuilder (UnitKey kind)).matchParamsToEntry params priority) ↔
    (kind.isTernary = true → priority < intMax) := by
  cases kind with
  | exact => exact iff_of_true trivial nofun
  | lpm => exact iff_of_true trivial nofun
  | ternary => exact ⟨fun h _ => h, fun h => h rfl⟩
  | range => exact ⟨fun h _ => h, fun h => h rfl⟩

/-- The prefixes of entries compare as those of their parameters for the one field. -/
theorem Sane.prefixLength_le_iff {kb : MatchKeyBuilder} (hfits : Fits .lpm fields)
    (h : Sane kb fields params) (h' : Sane kb fields params') :
    ((kb.invMapping.map fun i => paramPrefix (paramAt params' i)).sum).toNat ≤
        ((kb.invMapping.map fun i => paramPrefix (paramAt params i)).sum).toNat ↔
      ∀ j < fields.length, (fieldAt fields j).input.mtype = .lpm →
        (paramAt params' j).prefixLength ≤ (paramAt params j).prefixLength := by
  obtain ⟨os, ls, hs⟩ := h.built.exists_prefixSplit hfits
  rw [h.prefixLength_eq hs, h'.prefixLength_eq hs, Nat.add_le_add_iff_left]
  -- a field for a prefix is not matched whole
  have hmem : ∀ {j}, j < fields.length → (fieldAt fields j).input.mtype = .lpm → j ∈ ls := by
    intro j hj hlpm
    have hmem := h.built.mem_invMapping.mpr hj
    rw [hs.split] at hmem
    rcases List.mem_append.mp hmem with hos | hls
    · rcases hs.whole j hos with hm | hm
      · rw [hlpm] at hm
        cases hm
      · rw [hlpm] at hm
        cases hm
    · exact hls
  rcases hs.one with rfl | ⟨l, rfl⟩
  · exact iff_of_true le_rfl fun j hj hlpm => absurd (hmem hj hlpm) List.not_mem_nil
  · have hl : l ∈ kb.invMapping := hs.split ▸ List.mem_append_right _ (List.mem_singleton_self l)
    have hlpm := hs.lpm l (List.mem_singleton_self l)
    have hpos : ∀ {params}, Sane kb fields params → 0 ≤ (paramAt params l).prefixLength :=
      fun h => ((paramSane_iff.mp (h.at hl).2).2.2.1 ((h.type_eq hl).trans hlpm)).1
    have hpos₁ := hpos h
    have hpos₂ := hpos h'
    simp only [List.map_singleton, List.sum_singleton]
    constructor
    · intro hle j hj hjlpm
      obtain rfl := List.mem_singleton.mp (hmem hj hjlpm)
      omega
    · intro hall
      have hle := hall l (h.built.mem_invMapping.mp hl) hlpm
      omega

variable {u : MatchUnit (UnitLookup kind) (UnitKey kind) V} {h h' : EntryHandle} {i j : ℕ}
  {value value' : V}

omit [Inhabited V] in
/-- The preference of slots is that of the entries in them. -/
theorem preferred_iff (hfits : Fits kind fields)
    (hcheck : (ofFields fields).matchParamsSanityCheck params = true)
    (hcheck' : (ofFields fields).matchParamsSanityCheck params' = true)
    (hi : u.checkHandle h = .ok i) (hj : u.checkHandle h' = .ok j) :
    Preferred kind
        (((ofFields fields).toKeyBuilder (UnitKey kind)).matchParamsToEntry params priority) i
        (((ofFields fields).toKeyBuilder (UnitKey kind)).matchParamsToEntry params' priority') j ↔
      PreferredEntry kind fields h params priority h' params' priority' := by
  have hslot : handleInternal h = i := (checkHandle_eq_ok.mp hi).1
  have hslot' : handleInternal h' = j := (checkHandle_eq_ok.mp hj).1
  -- By slots, and a handle that is valid is known by its slot.
  cases kind with
  | exact =>
    change i = j ↔ h = h'
    refine ⟨fun heq => ?_, fun heq => ?_⟩
    · subst heq
      exact handle_eq_of_checkHandle hi hj
    · rw [← hslot, ← hslot', heq]
  | lpm =>
    have hsane : Sane (ofFields fields) fields params :=
      ⟨built_ofFields hfits.sound, hfits.sound, hcheck⟩
    have hsane' : Sane (ofFields fields) fields params' :=
      ⟨built_ofFields hfits.sound, hfits.sound, hcheck'⟩
    have hentry := toEntry_lpm hsane priority
    have hentry' := toEntry_lpm hsane' priority'
    change (((ofFields fields).toKeyBuilder LPMMatchKey).matchParamsToEntry params' priority').prefixLength
      ≤ (((ofFields fields).toKeyBuilder LPMMatchKey).matchParamsToEntry params priority).prefixLength ↔ _
    rw [hentry, hentry']
    exact hsane.prefixLength_le_iff hfits hsane'
  | ternary =>
    change priority < priority' ∨ priority = priority' ∧ i ≤ j ↔ _
    rw [← hslot, ← hslot']
    exact Iff.rfl
  | range =>
    change priority < priority' ∨ priority = priority' ∧ i ≤ j ↔ _
    rw [← hslot, ← hslot']
    exact Iff.rfl

/-- The structure of a unit stays one for keys of its width. -/
theorem forWidth_run (kb : MatchKeyBuilder) (size : ℕ) (enableCache : Bool)
    (ops : List (MatchUnit.Op (List MatchKeyParam) V)) :
    ForWidth kind kb.nbytesKey ((newUnit kind V kb size enableCache).run
      (kb.toKeyBuilder (UnitKey kind)) ops).lookupStructure := by
  have hnew : ForWidth kind kb.nbytesKey (newUnit kind V kb size enableCache).lookupStructure := by
    cases kind with
    | exact => trivial
    | _ => rfl
  have hstep : ∀ (u : MatchUnit (UnitLookup kind) (UnitKey kind) V) op,
      ForWidth kind kb.nbytesKey u.lookupStructure →
        ForWidth kind kb.nbytesKey (u.apply (kb.toKeyBuilder (UnitKey kind)) op).lookupStructure := by
    intro u op hu
    refine lookupStructure_apply ?_ ?_ ?_ ?_ op hu
    · intro m key hm
      cases kind with
      | exact => trivial
      | _ => exact hm
    · intro m key i hm
      cases kind with
      | exact => trivial
      | lpm => exact (LpmTrie.apply_keyWidthBytes m.trie (.insert key.data key.prefixLength i)).trans hm
      | _ => exact hm
    · intro m key hm
      cases kind with
      | exact => trivial
      | lpm => exact (LpmTrie.apply_keyWidthBytes m.trie (.delete key.data key.prefixLength)).trans hm
      | _ => exact hm
    · intro m hm
      cases kind with
      | exact => trivial
      | _ => exact hm
  induction ops using List.reverseRecOn with
  | nil => exact hnew
  | append_singleton ops op ih =>
    rw [MatchUnit.run_append]
    exact hstep _ op ih

/-- The key of an entry has the width of its unit. -/
theorem ofWidth_toEntry (hfits : Fits kind fields)
    (hcheck : (ofFields fields).matchParamsSanityCheck params = true) :
    OfWidth kind (ofFields fields).nbytesKey
      (((ofFields fields).toKeyBuilder (UnitKey kind)).matchParamsToEntry params priority) := by
  cases kind with
  | exact => trivial
  | lpm =>
    have h : Sane (ofFields fields) fields params :=
      ⟨built_ofFields hfits.sound, hfits.sound, hcheck⟩
    obtain ⟨os, ls, hs⟩ := h.built.exists_prefixSplit hfits
    have hn := nbytesKey_ofFields fields
    have hbytes : (ofFields fields).nbytesKey = (os.map fun i => (fieldAt fields i).nbytes).sum +
        (ls.map fun i => (fieldAt fields i).nbytes).sum := by
      rw [hn, sum_nbytes h.built.perm, hs.split, List.map_append, List.sum_append]
    have hentry := toEntry_lpm h priority
    change (((ofFields fields).toKeyBuilder LPMMatchKey).matchParamsToEntry params priority).data.length
        = _ ∧ (((ofFields fields).toKeyBuilder LPMMatchKey).matchParamsToEntry params
          priority).prefixLength ≤ _
    rw [hentry]
    refine ⟨h.length_storedData hn false, ?_⟩
    change ((ofFields fields).invMapping.map fun i => paramPrefix (paramAt params i)).sum.toNat ≤ _
    rw [h.prefixLength_eq hs, hbytes]
    rcases hs.one with rfl | ⟨j, rfl⟩
    · simp
    · have hj : j ∈ (ofFields fields).invMapping :=
        hs.split ▸ List.mem_append_right _ (List.mem_singleton_self j)
      have hjlpm := hs.lpm j (List.mem_singleton_self j)
      have hle := prefix_le (h.at hj).2 ((h.type_eq hj).trans hjlpm)
      have hlength := h.length_key hj
      simp only [List.map_cons, List.map_nil, List.sum_singleton]
      omega
  | ternary => trivial
  | range => trivial

/-- The key of a packet has the width of the unit. -/
theorem length_packetKey (hsound : ∀ x ∈ fields, x.Sound) (hphv : CarriesAll phv fields) :
    ((ofFields fields).packetKey phv).length = (ofFields fields).nbytesKey := by
  have hb := built_ofFields hsound
  have hfield : ∀ {i}, i ∈ (ofFields fields).invMapping → fieldAt fields i ∈ fields :=
    fun hi => fieldAt_mem (hb.mem_invMapping.mp hi)
  have hkey : ((ofFields fields).keyInput.flatMap (fieldKey phv)).length =
      (ofFields fields).nbytesKey := by
    rw [hb.keyInput_eq, List.flatMap_map, nbytesKey_ofFields, sum_nbytes hb.perm]
    exact Chunks.length_flatMap fun i hi =>
      ((hphv _ (hfield hi)).fieldKey (hsound _ (hfield hi))).1
  have hmask : (ofFields fields).bigMask.length = (ofFields fields).nbytesKey := by
    rw [hb.bigMask_eq, nbytesKey_ofFields, sum_nbytes hb.perm]
    exact Chunks.length_flatMap fun i hi => (hsound _ (hfield hi)).length_mask
  rw [packetKey]
  split_ifs
  · rw [length_applyMask (hmask.trans hkey.symm), hkey]
  · exact hkey

/-! ### Runs -/

/-- A unit of the kind after some requests. -/
def unitAfter (kind : MatchUnitType) (V : Type) [Inhabited V] (fields : List KeyField) (size : ℕ)
    (enableCache : Bool) (ops : List (MatchUnit.Op (List MatchKeyParam) V)) :
    MatchUnit (UnitLookup kind) (UnitKey kind) V :=
  (newUnit kind V (ofFields fields) size enableCache).run
    ((ofFields fields).toKeyBuilder (UnitKey kind)) ops

section
variable {size : ℕ} {enableCache : Bool} {ops : List (MatchUnit.Op (List MatchKeyParam) V)}

/-- An entry that a packet may find is in its slot. -/
theorem Found.hit (hf : Found kind fields (newUnit kind V (ofFields fields) size enableCache) ops phv
      h params value priority) (hfits : Fits kind fields) (hplain : RangesUnmasked fields)
    (hphv : CarriesAll phv fields)
    (hops : Runs.Always
      (fun u op => some (u.apply ((ofFields fields).toKeyBuilder (UnitKey kind)) op))
      (Orderly ((ofFields fields).toKeyBuilder (UnitKey kind)))
      (newUnit kind V (ofFields fields) size enableCache) ops) :
    ∃ i, Names (unitAfter kind V fields size enableCache ops) h i
        (((ofFields fields).toKeyBuilder (UnitKey kind)).matchParamsToEntry params priority) value ∧
      Hit (unitAfter kind V fields size enableCache ops).live (ofFields fields).nbytesKey
        ((ofFields fields).packetKey phv) i
        (((ofFields fields).toKeyBuilder (UnitKey kind)).matchParamsToEntry params priority) := by
  have hcheck := check_of_issued hf.issued
  obtain ⟨i, hn⟩ := hf.issued.names hops
  refine ⟨i, hn, live_eq_some.mpr ⟨(checkHandle_eq_ok.mp hn.checked).2.1, hn.key_eq⟩, ?_, ?_⟩
  · exact (keyMatches_iff hfits hplain hcheck hphv priority).mpr hf.compared
  · exact inUse_toEntry_iff.mpr hf.inUse

/-- The entry of a slot that the key finds was added, and may be found. -/
theorem exists_found_of_hit {k : UnitKey kind}
    (hk : Hit (unitAfter kind V fields size enableCache ops).live (ofFields fields).nbytesKey
      ((ofFields fields).packetKey phv) i k) (hfits : Fits kind fields)
    (hplain : RangesUnmasked fields) (hphv : CarriesAll phv fields)
    (hops : Runs.Always
      (fun u op => some (u.apply ((ofFields fields).toKeyBuilder (UnitKey kind)) op))
      (Orderly ((ofFields fields).toKeyBuilder (UnitKey kind)))
      (newUnit kind V (ofFields fields) size enableCache) ops) :
    ∃ h params value priority,
      Found kind fields (newUnit kind V (ofFields fields) size enableCache) ops phv h params value
          priority ∧
        Names (unitAfter kind V fields size enableCache ops) h i k value ∧
          k = ((ofFields fields).toKeyBuilder (UnitKey kind)).matchParamsToEntry params priority := by
  obtain ⟨hlive, hmatches, huse⟩ := hk
  obtain ⟨h, params, value, priority, hissued, hn, rfl⟩ := issued_of_live size _ hops hlive
  have hcompared :=
    (keyMatches_iff hfits hplain (check_of_issued hissued) hphv priority).mp hmatches
  exact ⟨h, params, value, priority, ⟨hissued, hcompared, inUse_toEntry_iff.mp huse⟩, hn, rfl⟩

/-- **What a packet finds.** In every run of a new unit whose steps keep handles and keys in order,
a packet finds the preferred one of the entries that were added, are still there, and have what is
compared of them. -/
theorem packet_lookup_iff (hfits : Fits kind fields) (hplain : RangesUnmasked fields)
    (hphv : CarriesAll phv fields) (size : ℕ) (enableCache : Bool)
    (ops : List (MatchUnit.Op (List MatchKeyParam) V))
    (hops : Runs.Always
      (fun u op => some (u.apply ((ofFields fields).toKeyBuilder (UnitKey kind)) op))
      (Orderly ((ofFields fields).toKeyBuilder (UnitKey kind)))
      (newUnit kind V (ofFields fields) size enableCache) ops) :
    ((unitAfter kind V fields size enableCache ops).lookupKey
        ((ofFields fields).packetKey phv)).1 = some (h, value) ↔
      ∃ params priority, Found kind fields (newUnit kind V (ofFields fields) size enableCache) ops phv
          h params value priority ∧
        ∀ h' params' value' priority',
          Found kind fields (newUnit kind V (ofFields fields) size enableCache) ops phv
            h' params' value' priority' →
          PreferredEntry kind fields h params priority h' params' priority' := by
  have hsound : (unitAfter kind V fields size enableCache ops).Sound :=
    (sound_newUnit kind V (ofFields fields) size enableCache).run _ ops
  have hcomplete : Complete (unitAfter kind V fields size enableCache ops).lookupStructure
      (unitAfter kind V fields size enableCache ops).live := by
    refine complete_run (sound_newUnit kind V (ofFields fields) size enableCache) ?_ hops
    -- a new unit has no entries
    intro i key hlive
    cases hlive
  have hwidths : ∀ i k, (unitAfter kind V fields size enableCache ops).live i = some k →
      OfWidth kind (ofFields fields).nbytesKey k := by
    intro i k hlive
    obtain ⟨h, params, value, priority, hissued, -, rfl⟩ := issued_of_live size _ hops hlive
    exact ofWidth_toEntry hfits (check_of_issued hissued)
  have hslots := fun i => lookup_slot_iff (i := i) hsound.follows hcomplete
    (forWidth_run (ofFields fields) size enableCache ops) hwidths
    (length_packetKey hfits.sound hphv)
  rw [lookupKey_eq_some]
  constructor
  · rintro ⟨i, hi, rfl, rfl⟩
    obtain ⟨k, hk, hbest⟩ := (hslots i).mp hi
    obtain ⟨h, params, value, priority, hf, hn, rfl⟩ := exists_found_of_hit hk hfits hplain hphv hops
    rw [handleSet_of_checkHandle hn.checked, hn.value_eq]
    refine ⟨params, priority, hf, fun h' params' value' priority' hf' => ?_⟩
    obtain ⟨j, hn', hk'⟩ := hf'.hit hfits hplain hphv hops
    exact (preferred_iff hfits (check_of_issued hf.issued) (check_of_issued hf'.issued) hn.checked
      hn'.checked).mp (hbest j _ hk')
  · rintro ⟨params, priority, hf, hbest⟩
    obtain ⟨i, hn, hk⟩ := hf.hit hfits hplain hphv hops
    refine ⟨i, (hslots i).mpr ⟨_, hk, fun j k' hk' => ?_⟩, handleSet_of_checkHandle hn.checked,
      hn.value_eq⟩
    obtain ⟨h', params', value', priority', hf', hn', rfl⟩ := exists_found_of_hit hk' hfits hplain hphv hops
    exact (preferred_iff hfits (check_of_issued hf.issued) (check_of_issued hf'.issued) hn.checked
      hn'.checked).mpr (hbest h' params' value' priority' hf')

/-- Where prefixes are of whole bytes, every field of the packet satisfies its parameter in the
entry that is found. -/
theorem Found.satisfied (hf : Found kind fields (newUnit kind V (ofFields fields) size enableCache) ops
      phv h params value priority) (hfits : Fits kind fields) (hnarrow : Narrow phv fields)
    (hbytes : ∀ x ∈ fields, x.input.mtype = .lpm → x.padding = 0) :
    EntrySatisfied phv fields params := by
  have hsane := ((built_ofFields hfits.sound).matchParamsSanityCheck_iff.mp
    (check_of_issued hf.issued)).2
  exact (entrySatisfied_iff hsane hnarrow).mpr ⟨hf.compared, unseenAllAgree_of_bytes hbytes⟩

/-- A key of a prefix of eight bits and an exact field of twelve. -/
def routeFields : List KeyField := [.field 0 1 8 .lpm, .field 0 0 12 .exact]

def routeParams (b : UInt8) (prefixLength : ℤ) : List MatchKeyParam :=
  [⟨.lpm, [b], [], prefixLength⟩, ⟨.exact, [0x0a, 0xbc], [], 0⟩]

/-- Two prefixes that a packet with `0x25` has, the longer one first, and one that it has not. -/
def routeOps : List (MatchUnit.Op (List MatchKeyParam) ℕ) :=
  [.addEntry (routeParams 0x24 7) 5 0 0, .addEntry (routeParams 0x20 4) 6 0 0,
    .addEntry (routeParams 0x30 4) 7 0 0]

theorem twoHeaders_lookup : ∃ params priority,
    Found .lpm routeFields (newUnit .lpm ℕ (ofFields routeFields) 4 false) routeOps twoHeaders 0 params
        5 priority ∧
      ∀ h' params' value' priority',
        Found .lpm routeFields (newUnit .lpm ℕ (ofFields routeFields) 4 false) routeOps twoHeaders
          h' params' value' priority' →
        PreferredEntry .lpm routeFields 0 params priority h' params' priority' := by
  have hfits : Fits .lpm routeFields := ⟨by decide, by simp [routeFields, KeyField.input], by decide⟩
  have hphv : CarriesAll twoHeaders routeFields := by
    simp only [CarriesAll, routeFields, List.forall_mem_cons]
    exact ⟨⟨_, rfl, fun _ => ⟨_, rfl, rfl, rfl⟩⟩, ⟨_, rfl, fun _ => ⟨_, rfl, rfl, rfl⟩⟩,
      fun x hx => absurd hx List.not_mem_nil⟩
  have hops : Runs.Always
      (fun u op => some (u.apply ((ofFields routeFields).toKeyBuilder (UnitKey .lpm)) op))
      (Orderly ((ofFields routeFields).toKeyBuilder (UnitKey .lpm)))
      (newUnit .lpm ℕ (ofFields routeFields) 4 false) routeOps := by
    refine ⟨fun h u' _ => ⟨by decide, by decide⟩, fun u hu => ?_⟩
    obtain rfl := Option.some.inj hu
    refine ⟨fun h u' _ => ⟨by decide, by decide⟩, fun u hu => ?_⟩
    obtain rfl := Option.some.inj hu
    exact ⟨fun h u' _ => ⟨by decide, by decide⟩, fun u' _ => trivial⟩
  exact (packet_lookup_iff hfits (by decide) hphv 4 false routeOps hops).mp (by decide)

end

end

end MatchKeyBuilder

end MatchKeys

end P4Bricks
