import P4Bricks.Lookup.Reach
/-!
# The longest prefix wins

A trie that holds just the live keys of its unit answers a lookup with the live key of the longest
prefix that the bytes have.
-/

namespace P4Bricks

namespace LpmTrie

/-- The place of a prefix has its bits. -/
theorem take_eq_of_place_eq {pfx pfx' : List UInt8} {len len' : ℕ} (hle : len ≤ 8 * pfx.length)
    (hle' : len' ≤ 8 * pfx'.length) (h : place pfx len = place pfx' len') :
    (bytesBits pfx).take len = (bytesBits pfx').take len' := by
  -- what both have in the last node
  have hlast : ∀ {p q : List UInt8} {n k : ℕ}, n < 8 → k < 8 → n ≤ 8 * p.length → k ≤ 8 * q.length →
      lastKey p n = lastKey q k → (bytesBits p).take n = (bytesBits q).take k := by
    intro p q n k hn hk hp hq heq
    rw [lastKey_eq hn hp, lastKey_eq hk hq] at heq
    refine prefixKey_inj ?_ ?_ heq
    · rw [List.length_take]
      omega
    · rw [List.length_take]
      omega
  have hshort : ∀ {p : List UInt8} {n : ℕ}, n ≤ 8 * p.length → n < 8 → place p n = ([], lastKey p n) := by
    intro p n hp hn
    rcases p with _ | ⟨b, p⟩
    · rfl
    · rw [place, if_neg (by omega)]
  induction pfx generalizing pfx' len len' with
  | nil =>
    obtain rfl : len = 0 := by simpa using hle
    rcases Nat.lt_or_ge len' 8 with hlt | hge
    · rw [hshort hle' hlt] at h
      exact hlast (by omega) hlt hle hle' (Prod.ext_iff.mp h).2
    · rcases pfx' with _ | ⟨b', pfx'⟩
      · simp at hle'
        omega
      · rw [place, place, if_pos hge] at h
        cases (Prod.ext_iff.mp h).1
  | cons b pfx ih =>
    rcases Nat.lt_or_ge len 8 with hlt | hge
    · rw [hshort hle hlt] at h
      rcases Nat.lt_or_ge len' 8 with hlt' | hge'
      · rw [hshort hle' hlt'] at h
        exact hlast hlt hlt' hle hle' (Prod.ext_iff.mp h).2
      · rcases pfx' with _ | ⟨b', pfx'⟩
        · simp at hle'
          omega
        · rw [place, if_pos hge'] at h
          cases (Prod.ext_iff.mp h).1
    · rw [place, if_pos hge] at h
      rcases Nat.lt_or_ge len' 8 with hlt' | hge'
      · rw [hshort hle' hlt'] at h
        cases (Prod.ext_iff.mp h).1
      · rcases pfx' with _ | ⟨b', pfx'⟩
        · simp at hle'
          omega
        · rw [place, if_pos hge'] at h
          obtain ⟨hpath, hkey⟩ := Prod.ext_iff.mp h
          obtain ⟨rfl, htail⟩ := List.cons_eq_cons.mp hpath
          rw [List.length_cons] at hle hle'
          have hrest := ih (by omega) (by omega) (Prod.ext htail hkey)
          rw [take_bytesBits_cons_of_ge hge, take_bytesBits_cons_of_ge hge', hrest]

end LpmTrie

namespace Lookup

/-- The bytes have the prefix of the key. -/
def LPMMatchKey.Covers (k : LPMMatchKey) (bytes : ByteContainer) : Prop :=
  (bytesBits bytes).take k.prefixLength = (bytesBits k.data).take k.prefixLength

/-- Keys of `w` bytes, with prefixes that are not longer. -/
def WidthEq (w : ℕ) (live : ℕ → Option LPMMatchKey) : Prop :=
  ∀ i k, live i = some k → k.data.length = w ∧ k.prefixLength ≤ 8 * w

section
variable {m : LPMTrieStructure} {size w i : ℕ} {live : ℕ → Option LPMMatchKey} {bytes : ByteContainer}

theorem get_of_live (hc : Complete m live) (hw : WidthEq w live) {k : LPMMatchKey}
    (hk : live i = some k) :
    m.trie.root.get ((bytesBits k.data).take k.prefixLength) = some i := by
  obtain ⟨hlen, hle⟩ := hw i k hk
  have hbound : k.prefixLength ≤ 8 * k.data.length := by omega
  have hget := LpmTrie.retrieveValue_eq_get hbound m.trie.root
  exact hget.symm.trans (hc i k hk)

/-- Each prefix of the bytes that leads to a handle is that of its key. -/
theorem exists_live_of_get (h : LiveLookup.Follows m size live) (hw : WidthEq w live)
    {p : List Bool} (hp : p <+: bytesBits bytes) (hget : m.trie.root.get p = some i) :
    ∃ k, live i = some k ∧ (bytesBits k.data).take k.prefixLength = p ∧ k.prefixLength = p.length := by
  have hcut : p = (bytesBits bytes).take p.length := List.prefix_iff_eq_take.mp hp
  have hle : p.length ≤ 8 * bytes.length := by
    have hlen := hp.length_le
    rwa [bytesBits_length] at hlen
  rw [hcut, ← LpmTrie.retrieveValue_eq_get hle, LpmTrie.retrieveValue_eq_value] at hget
  obtain ⟨k, hk, hplace⟩ := h.place_eq _ _ i hget
  obtain ⟨hlen, hlek⟩ := hw i k hk
  have hbits := LpmTrie.take_eq_of_place_eq (by omega) hle hplace
  refine ⟨k, hk, hbits.trans hcut.symm, ?_⟩
  have hlength := congrArg List.length (hbits.trans hcut.symm)
  rw [List.length_take, bytesBits_length] at hlength
  omega

/-- **The longest prefix wins.** -/
theorem lookup_eq_some_iff (h : LiveLookup.Follows m size live) (hc : Complete m live)
    (hw : WidthEq w live) (hm : m.trie.keyWidthBytes = w) (hbytes : bytes.length = w) :
    (LookupStructure.lookup m bytes).1 = some i ↔
      ∃ k, live i = some k ∧ k.Covers bytes ∧
        ∀ j k', live j = some k' → k'.Covers bytes → k'.prefixLength ≤ k.prefixLength := by
  -- The walk through the trie answers the longest stored string that the key starts with.
  have hlookup : (LookupStructure.lookup m bytes).1 = longestMatch m.trie.root.get (bytesBits bytes) := by
    change m.trie.root.lookup (bytes.take m.trie.keyWidthBytes) none = _
    rw [LpmTrie.lookup_eq_longestMatch, Option.or_none, hm, List.take_of_length_le hbytes.le]
  have hstarts : ∀ {k : LPMMatchKey}, k.Covers bytes →
      (bytesBits k.data).take k.prefixLength <+: bytesBits bytes := by
    intro k hk
    rw [← hk]
    exact List.take_prefix ..
  have hlength : ∀ {j : ℕ} {k : LPMMatchKey}, live j = some k →
      ((bytesBits k.data).take k.prefixLength).length = k.prefixLength := by
    intro j k hk
    obtain ⟨hlen, hle⟩ := hw j k hk
    rw [List.length_take, bytesBits_length]
    omega
  rw [hlookup, longestMatch_eq_some_iff]
  constructor
  · -- A stored string comes from a live entry, and a live entry is stored under its prefix.
    rintro ⟨p, hp, hget⟩
    obtain ⟨k, hk, hbits, hplen⟩ := exists_live_of_get h hw hp.covers hget
    refine ⟨k, hk, ?_, fun j k' hk' hcovers => ?_⟩
    · rw [LPMMatchKey.Covers, hbits, hplen]
      exact (List.prefix_iff_eq_take.mp hp.covers).symm
    · have hlongest := hp.longest _ (hstarts hcovers) (by rw [get_of_live hc hw hk']; rfl)
      rw [hlength hk'] at hlongest
      omega
  · rintro ⟨k, hk, hcovers, hmax⟩
    have hget := get_of_live hc hw hk
    refine ⟨_, ⟨hstarts hcovers, by rw [hget]; rfl, fun q hq hstored => ?_⟩, hget⟩
    obtain ⟨j, hj⟩ := Option.isSome_iff_exists.mp hstored
    obtain ⟨k', hk', hbits, hqlen⟩ := exists_live_of_get h hw hq hj
    have hcovers' : k'.Covers bytes := by
      rw [LPMMatchKey.Covers, hbits, hqlen]
      exact (List.prefix_iff_eq_take.mp hq).symm
    have hle := hmax j k' hk' hcovers'
    rw [hlength hk]
    omega

end

end Lookup

end P4Bricks
