import Mathlib.Data.Set.Card
import P4Bricks.Common.Runs
import P4Bricks.Lookup.Reach
import P4Bricks.MatchUnit.HandleLife
import P4Bricks.MatchUnit.Liveness
/-!
# Four records of one set

A unit counts its entries, keeps a set of their slots and a table of them, and
has a lookup structure lead to them. In every run they agree, and the count
keeps within the unit's size, exactly as long as each deletion spares the other
entries in the lookup structure (`consistent_iff_spared`). All but those from a
prefix trie do; the trie's one-byte counters let a node with 256 branches pass
for one with none.
-/

namespace P4Bricks

namespace MatchUnit

open Lookup

variable {σ P K V : Type*} [LookupStructure σ K] {u : MatchUnit σ K V}

/-- The slots the lookup structure leads to. -/
def reachable (s : σ) : Set ℕ := {i | ∃ key, LookupStructure.retrieveHandle s key = some i}

/-- **The four records agree**, and there are no more entries than the unit has
room for. -/
structure Consistent (u : MatchUnit σ K V) : Prop where
  numEntries_eq : u.numEntries = u.handles.card
  reachable_eq : u.numEntries = (reachable u.lookupStructure).ncard
  numEntries_le : u.numEntries ≤ u.size

section

variable [LiveLookup σ K] [ReachLookup σ K]

/-- A deletion that spares the other entries. -/
def Spared (u : MatchUnit σ K V) : Op P V → Prop
  | .deleteEntry h =>
    ∀ i, u.checkHandle h = .ok i → ReachLookup.Spares u.lookupStructure (u.entries i).key
  | _ => True

/-- What the slots and the lookup structure have in common. -/
theorem Sound.reachable_subset (hs : u.Sound) : reachable u.lookupStructure ⊆ u.handles := by
  rintro i ⟨key, hi⟩
  exact isSome_live.mp (ReachLookup.isSome_of_retrieve hs.follows hi)

/-- As many slots are reached as are in use if all of them are. -/
theorem Sound.ncard_reachable_iff (hs : u.Sound) :
    u.numEntries = (reachable u.lookupStructure).ncard ↔ Complete u.lookupStructure u.live := by
  rw [hs.numEntries_eq, ← Set.ncard_coe_finset]
  constructor
  · intro hcard i key hlive
    have heq := Set.eq_of_subset_of_ncard_le hs.reachable_subset hcard.le
    have hi : i ∈ reachable u.lookupStructure := by
      rw [heq]
      exact (live_eq_some.mp hlive).1
    obtain ⟨key', hi⟩ := hi
    exact ReachLookup.retrieve_live hs.follows hi hlive
  · intro hc
    have heq : reachable u.lookupStructure = u.handles := by
      refine Set.Subset.antisymm hs.reachable_subset fun i hi => ?_
      exact ⟨(u.entries i).key, hc i _ (live_eq_some.mpr ⟨hi, rfl⟩)⟩
    rw [heq]

theorem Sound.consistent_iff (hs : u.Sound) (hle : u.numEntries ≤ u.size) :
    u.Consistent ↔ Complete u.lookupStructure u.live :=
  ⟨fun h => hs.ncard_reachable_iff.mp h.reachable_eq,
    fun h => ⟨hs.numEntries_eq, hs.ncard_reachable_iff.mpr h, hle⟩⟩

/-! ## One request -/

variable [Inhabited K] [Inhabited V]

omit [LiveLookup σ K] [ReachLookup σ K] in
/-- The table does not overflow. -/
theorem numEntries_le_apply (kb : KeyBuilder P K) (hle : u.numEntries ≤ u.size) (op : Op P V) :
    (u.apply kb op).numEntries ≤ (u.apply kb op).size := by
  cases op with
  | addEntry matchKey value priority now =>
    simp only [MatchUnit.apply]
    rcases hadd : u.addEntry kb matchKey value priority now with ⟨e | h, u'⟩
    · rwa [addEntry_eq_error hadd]
    · obtain ⟨-, -, hroom, -, rfl⟩ := addEntry_eq_ok hadd
      exact hroom
  | deleteEntry h =>
    simp only [MatchUnit.apply]
    cases hc : u.checkHandle h with
    | error e => rwa [deleteEntry_of_error hc]
    | ok i =>
      rw [deleteEntry_of_ok hc]
      exact (Nat.sub_le _ 1).trans hle
  | modifyEntry h value =>
    simp only [MatchUnit.apply]
    cases hc : u.checkHandle h with
    | error e => rwa [modifyEntry_of_error hc]
    | ok i => rwa [modifyEntry_of_ok hc]
  | setEntryTtl h ttlMs now =>
    obtain ⟨-, -, hn, hsize⟩ := setEntryTtl_eq (u := u) (h := h) ttlMs now
    rwa [MatchUnit.apply, hn, hsize]
  | lookup key length now =>
    obtain ⟨-, -, hn, hsize⟩ := lookup_eq (u := u) key length now
    rwa [MatchUnit.apply, hn, hsize]
  | resetState => exact Nat.zero_le _

/-- **One request keeps every live entry within reach** exactly if it spares. -/
theorem Sound.complete_apply_iff (kb : KeyBuilder P K) (hs : u.Sound)
    (hc : Complete u.lookupStructure u.live) (op : Op P V) :
    Complete (u.apply kb op).lookupStructure (u.apply kb op).live ↔ Spared u op := by
  cases op with
  | addEntry matchKey value priority now =>
    refine iff_of_true ?_ trivial
    simp only [MatchUnit.apply]
    rcases hadd : u.addEntry kb matchKey value priority now with ⟨e | h, u'⟩
    · rwa [addEntry_eq_error hadd]
    · -- The new entry takes the first free handle, below which all are in use.
      obtain ⟨-, hnew, hroom, -, rfl⟩ := addEntry_eq_ok hadd
      have hfree := firstFree_notMem u.handles
      have hcard := firstFree_le_card u.handles
      have hnum := hs.numEntries_eq
      simp only
      rw [live_eq_update (u := u) (o := some (kb.matchParamsToEntry matchKey priority))
        (i := firstFree u.handles)]
      · exact ReachLookup.complete_add hs.follows hc (by omega) (by simp [live, hfree])
          (fun j hj => isSome_live.mpr (mem_of_lt_firstFree hj)) hnew
      · exact live_eq_some.mpr ⟨Finset.mem_insert_self .., by simp⟩
      · exact fun j hj => ⟨by simp [hj], Function.update_of_ne hj ..⟩
  | deleteEntry h =>
    simp only [MatchUnit.apply, Spared]
    cases hch : u.checkHandle h with
    | error e =>
      rw [deleteEntry_of_error hch]
      exact iff_of_true hc fun i hi => by cases hi
    -- Only a deletion can put a live entry out of reach.
    | ok i =>
      obtain ⟨-, hi, -⟩ := checkHandle_eq_ok.mp hch
      have hdelete := ReachLookup.complete_delete hs.follows hc (live_eq_some.mpr ⟨hi, rfl⟩)
      rw [deleteEntry_of_ok hch]
      simp only [Except.ok.injEq, forall_eq']
      rw [live_eq_update (u := u) (o := none) (i := i)]
      · exact hdelete
      · simp [live]
      · exact fun j hj => ⟨by simp [hj], Function.update_of_ne hj ..⟩
  | modifyEntry h value =>
    refine iff_of_true ?_ trivial
    simp only [MatchUnit.apply]
    cases hch : u.checkHandle h with
    | error e => rwa [modifyEntry_of_error hch]
    | ok i =>
      rw [modifyEntry_of_ok hch]
      rwa [live_modified]
  | setEntryTtl h ttlMs now =>
    refine iff_of_true ?_ trivial
    simp only [MatchUnit.apply, setEntryTtl]
    split
    · exact hc
    · exact hc
  | lookup key length now =>
    refine iff_of_true ?_ trivial
    obtain ⟨hh, he, -, -⟩ := lookup_eq (u := u) key length now
    have hlive : (u.lookup key length now).2.live = u.live := by
      funext j
      rw [live, live, hh, he]
    rw [MatchUnit.apply, hlive, lookup_lookupStructure]
    exact ReachLookup.complete_lookup hs.follows hc key
  | resetState =>
    refine iff_of_true (fun i key hi => ?_) trivial
    cases hi

/-! ## Runs -/

theorem consistent_iff_of_sound (kb : KeyBuilder P K) (hs : u.Sound) (hle : u.numEntries ≤ u.size)
    (hc : Complete u.lookupStructure u.live) (ops : List (Op P V)) :
    (∀ before, before <+: ops → (u.run kb before).Consistent) ↔
      Runs.Always (fun u op => some (u.apply kb op)) Spared u ops := by
  induction ops generalizing u with
  | nil =>
    refine iff_of_true (fun before hb => ?_) trivial
    obtain rfl := List.prefix_nil.mp hb
    exact (hs.consistent_iff hle).mpr hc
  | cons op ops ih =>
    have hs' := hs.apply kb op
    have hle' := numEntries_le_apply kb hle op
    have hstep := hs.complete_apply_iff kb hc op
    constructor
    · intro hall
      have hc' := (hs'.consistent_iff hle').mp (hall [op] ⟨ops, rfl⟩)
      refine ⟨hstep.mp hc', fun u' hu' => ?_⟩
      obtain rfl := Option.some.inj hu'
      refine (ih hs' hle' hc').mp fun before hb => ?_
      exact hall (op :: before) (List.cons_prefix_cons.mpr ⟨rfl, hb⟩)
    · rintro ⟨hop, hops⟩ before hb
      have hc' := hstep.mpr hop
      rcases List.prefix_cons_iff.mp hb with rfl | ⟨rest, rfl, hrest⟩
      · exact (hs.consistent_iff hle).mpr hc
      · exact (ih hs' hle' hc').mpr (hops _ rfl) rest hrest

/-- **When the records agree.** Along a run from a new unit they agree in every
state reached if and only if each deletion of the run spares the other entries;
and in every state reached an addition that fails changes nothing. -/
theorem consistent_iff_spared (kb : KeyBuilder P K) (size : ℕ) (ls : σ)
    (hls : LiveLookup.Follows ls size fun _ => (none : Option K)) (ops : List (Op P V)) :
    ((∀ before, before <+: ops → ((create size ls).run kb before).Consistent) ↔
      Runs.Always (fun u op => some (u.apply kb op)) Spared (create size ls) ops) ∧
    ∀ before, before <+: ops → ∀ matchKey value priority now e u',
      ((create size ls).run kb before).addEntry kb matchKey value priority now =
        (.error e, u') → u' = (create size ls).run kb before := by
  refine ⟨?_, fun before _ matchKey value priority now e u' hadd => addEntry_eq_error hadd⟩
  refine consistent_iff_of_sound kb (sound_create hls) (Nat.zero_le _) (fun i key hi => ?_) ops
  cases hi

end

/-! ## A full node freed -/

/-- The builder of a key of one longest-prefix field, two bytes wide. -/
def prefixKeyBuilder : KeyBuilder LPMMatchKey LPMMatchKey where
  matchParamsSanityCheck k := k.data.length == 2
  matchParamsToEntry k _ := k
  entryToMatchParams k := k
  getPriority _ := -1

/-- An entry for the prefix `[1]`, and one for each of the keys `[1, b]` with `b < n`. -/
def fanAdds (n : ℕ) : List (Op LPMMatchKey ℕ) :=
  .addEntry ⟨[1, 0], 8⟩ 0 0 0 ::
    (List.range n).map fun b => .addEntry ⟨[1, .ofNat b], 16⟩ 0 0 0

/-- A unit with room for 300 entries after these. -/
def fanned (n : ℕ) : MatchUnit LPMTrieStructure LPMMatchKey ℕ :=
  (create 300 (LPMTrieStructure.create 2)).run prefixKeyBuilder (fanAdds n)

theorem fanned_succ (n : ℕ) : fanned (n + 1) =
    ((fanned n).addEntry prefixKeyBuilder ⟨[1, .ofNat n], 16⟩ 0 0 0).2 := by
  unfold fanned fanAdds
  rw [List.range_succ, List.map_append, ← List.cons_append, run, List.foldl_append]
  rfl

/-- The node under byte `1` holds its own prefix and the branches below `n`. -/
structure FanNode (node : LpmTrie.Node) (n : ℕ) : Prop where
  branchNum_eq : node.branchNum = .ofNat n
  prefNum_eq : node.prefNum = 1
  prefix_eq : node.prefixes 0 = some 0
  fresh : ∀ b, n ≤ b → b < 256 → node.branches (.ofNat b) = none

/-- The unit after `n` of the longer keys. -/
structure Fan (u : MatchUnit LPMTrieStructure LPMMatchKey ℕ) (n : ℕ) : Prop where
  size_eq : u.size = 300
  numEntries_eq : u.numEntries = n + 1
  handles_eq : u.handles = Finset.range (n + 1)
  version_eq : ∀ i, (u.entries i).version = 0
  first_eq : (u.entries 0).key = ⟨[1, 0], 8⟩
  last_eq : ∀ b, n = b + 1 → (u.entries n).key = ⟨[1, .ofNat b], 16⟩
  releaseMemory : u.lookupStructure.trie.releaseMemory = true
  node : ∃ node, u.lookupStructure.trie.root.branches 1 = some node ∧ FanNode node n

theorem fan_zero : Fan (fanned 0) 0 := by
  refine ⟨rfl, rfl, by decide, fun i => ?_, rfl, fun b hb => by omega, rfl,
    LpmTrie.allocateNode.store 0 0, rfl, rfl, rfl, rfl, fun b _ _ => rfl⟩
  by_cases hi : i = 0
  · subst hi
    rfl
  · have hupdate : (fanned 0).entries i =
        Function.update (fun _ => (⟨default, 0, default⟩ : Entry LPMMatchKey ℕ)) 0
          ⟨⟨[1, 0], 8⟩, 0, 0⟩ i := rfl
    rw [hupdate, Function.update_of_ne hi]

/-- A branch more. -/
theorem FanNode.insert {node : LpmTrie.Node} {n : ℕ} (h : FanNode node n) (hn : n < 256) (v : ℕ) :
    FanNode (node.insert [.ofNat n] 8 v) (n + 1) := by
  have hfresh := h.fresh n le_rfl hn
  have hinsert : node.insert [.ofNat n] 8 v =
      { node.setNextNode (.ofNat n) (LpmTrie.allocateNode.insert [] 0 v) with
        branchNum := node.branchNum + 1 } := by
    simp [LpmTrie.Node.insert, LpmTrie.Node.getNextNode, LpmTrie.Node.setNextNode, hfresh]
  rw [hinsert]
  refine ⟨?_, h.prefNum_eq, h.prefix_eq, fun b hb hb' => ?_⟩
  · simp [h.branchNum_eq, UInt8.ofNat_add]
  · have hne : UInt8.ofNat b ≠ UInt8.ofNat n := by
      intro heq
      have hnat := congrArg UInt8.toNat heq
      rw [UInt8.toNat_ofNat_of_lt' hb', UInt8.toNat_ofNat_of_lt' hn] at hnat
      omega
    simpa [LpmTrie.Node.setNextNode, hne] using h.fresh b (by omega) hb'

theorem firstFree_range (n : ℕ) : firstFree (Finset.range n) = n := by
  have hnot := firstFree_notMem (Finset.range n)
  have hle := firstFree_le_card (Finset.range n)
  rw [Finset.mem_range] at hnot
  rw [Finset.card_range] at hle
  omega

/-- What an addition to the unit does. -/
theorem Fan.addEntry {u : MatchUnit LPMTrieStructure LPMMatchKey ℕ} {n : ℕ} (h : Fan u n)
    (hn : n < 256) :
    Fan (u.addEntry prefixKeyBuilder ⟨[1, .ofNat n], 16⟩ 0 0 0).2 (n + 1) := by
  obtain ⟨node, hnode, hfan⟩ := h.node
  have hfree : firstFree u.handles = n + 1 := by rw [h.handles_eq, firstFree_range]
  have hnew : LookupStructure.entryExists u.lookupStructure ⟨[1, .ofNat n], 16⟩ = false := by
    simp [LookupStructure.entryExists, LpmTrie.Trie.hasPrefix, LpmTrie.Trie.retrieveValue,
      LpmTrie.Node.retrieveValue, LpmTrie.Node.getNextNode, hnode, hfan.fresh n le_rfl hn]
  have hroom : ¬ 300 ≤ n + 1 := by omega
  rcases hadd : u.addEntry prefixKeyBuilder ⟨[1, .ofNat n], 16⟩ 0 0 0 with ⟨e | handle, u'⟩
  · simp [MatchUnit.addEntry, addEntry_, KeyBuilder.buildEntryFromMatchKey, prefixKeyBuilder,
      getAndSetHandle, hnew, h.size_eq, h.numEntries_eq, hroom] at hadd
  · obtain ⟨-, -, -, -, rfl⟩ := addEntry_eq_ok hadd
    rw [hfree]
    refine ⟨h.size_eq, ?_, ?_, fun i => ?_, ?_, fun b hb => ?_, h.releaseMemory,
      node.insert [.ofNat n] 8 (n + 1), ?_, hfan.insert hn _⟩
    · simp [h.numEntries_eq]
    · rw [h.handles_eq, Finset.range_add_one (n := n + 1)]
    · by_cases hi : i = n + 1
      · subst hi
        simp [h.version_eq]
      · simp [hi, h.version_eq]
    · simpa using h.first_eq
    · obtain rfl : n = b := by omega
      simp [prefixKeyBuilder]
    · simp [LookupStructure.addEntry, LpmTrie.Trie.insert, LpmTrie.Node.insert,
        LpmTrie.Node.getNextNode, LpmTrie.Node.setNextNode, hnode, prefixKeyBuilder]

theorem fan_fanned {n : ℕ} (hn : n ≤ 256) : Fan (fanned n) n := by
  induction n with
  | zero => exact fan_zero
  | succ n ih =>
    rw [fanned_succ]
    exact (ih (by omega)).addEntry (by omega)

theorem fanned_delete (n : ℕ) : (create 300 (LPMTrieStructure.create 2)).run prefixKeyBuilder
    (fanAdds n ++ [.deleteEntry 0]) = ((fanned n).deleteEntry 0).2 := by
  rw [run, List.foldl_append]
  rfl

theorem sound_fanned (n : ℕ) : (fanned n).Sound :=
  Sound.run prefixKeyBuilder (sound_create (LPMTrieStructure.follows_create 2)) (fanAdds n)

/-- With all 256 branches in its node, the deletion of the shorter prefix frees
them too. -/
theorem Fan.deleteEntry {u : MatchUnit LPMTrieStructure LPMMatchKey ℕ} (h : Fan u 256)
    (hs : u.Sound) :
    (u.deleteEntry 0).2.numEntries = 256 ∧
      (u.deleteEntry 0).2.live 256 = some ⟨[1, 255], 16⟩ ∧
      LookupStructure.retrieveHandle (u.deleteEntry 0).2.lookupStructure ⟨[1, 255], 16⟩ = none ∧
      ¬ (u.deleteEntry 0).2.Consistent := by
  obtain ⟨node, hnode, hfan⟩ := h.node
  have hc : u.checkHandle 0 = .ok 0 := by
    rw [checkHandle_eq_ok, h.handles_eq, h.version_eq]
    decide
  have hlive : (u.deleteEntry 0).2.live 256 = some ⟨[1, 255], 16⟩ := by
    rw [live_eq_some, deleteEntry_of_ok hc]
    refine ⟨by simp [h.handles_eq], ?_⟩
    simpa using h.last_eq 255 rfl
  have hlost : LookupStructure.retrieveHandle (u.deleteEntry 0).2.lookupStructure
      ⟨[1, 255], 16⟩ = none := by
    have hroot := LpmTrie.root_delete_of_reads_one h.releaseMemory hnode
      (by rw [hfan.branchNum_eq]; rfl) hfan.prefNum_eq hfan.prefix_eq
    rw [deleteEntry_of_ok hc, h.first_eq]
    simp [LookupStructure.retrieveHandle, LookupStructure.deleteEntry,
      LpmTrie.Trie.retrieveValue, hroot, LpmTrie.Node.retrieveValue, LpmTrie.Node.getNextNode,
      LpmTrie.Node.deleteBranch]
  refine ⟨?_, hlive, hlost, fun hcons => ?_⟩
  · rw [deleteEntry_of_ok hc]
    simp [h.numEntries_eq]
  · have hreach := (hs.deleteEntry 0).ncard_reachable_iff.mp hcons.reachable_eq 256 _ hlive
    rw [hlost] at hreach
    cases hreach

/-- **Deleting one of 257 entries loses the others.** The entry of `[1, 255]`
stays in its slot and is counted, and the trie does not lead to it. -/
theorem fanned_delete_not_consistent :
    ∃ u, u = (create 300 (LPMTrieStructure.create 2)).run prefixKeyBuilder
        (fanAdds 256 ++ [.deleteEntry 0]) ∧
      u.numEntries = 256 ∧ u.live 256 = some ⟨[1, 255], 16⟩ ∧
      LookupStructure.retrieveHandle u.lookupStructure ⟨[1, 255], 16⟩ = none ∧
      ¬ u.Consistent :=
  ⟨_, (fanned_delete 256).symm, (fan_fanned le_rfl).deleteEntry (sound_fanned 256)⟩

/-- In an exact unit every deletion spares the other entries. -/
theorem spared_exact (u : MatchUnit ExactMap ExactMatchKey V) (op : Op P V) : Spared u op := by
  cases op with
  | deleteEntry h => exact fun _ _ => trivial
  | _ => trivial

theorem consistent_churned :
    (churn 3).length = 6 ∧ ∀ before, before <+: churn 3 →
      ((create 1 ExactMap.create).run byteKeyBuilder before).Consistent :=
  ⟨rfl, (consistent_iff_spared byteKeyBuilder 1 ExactMap.create (fun _ _ h => by cases h)
    (churn 3)).1.mpr (Runs.Always.of_forall spared_exact _ _)⟩

end MatchUnit

end P4Bricks
