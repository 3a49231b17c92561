import P4Bricks.LpmTrie.Model
import P4Bricks.Common.LongestPrefix
/-!
# What a trie stores

`Node.get` reads a node as a map from bit strings: whole bytes follow
branches, and what is left picks a prefix key. Insertion is an update of
that map and lookup its longest match, whatever the counters say; the
counters only matter to deletion.
-/

namespace P4Bricks

namespace LpmTrie

/-- The byte eight bits spell. -/
def byteOf (q : List Bool) : UInt8 := UInt8.ofNat (bitsVal q)

/-- The prefix key of a string shorter than a byte. -/
def prefixKey (q : List Bool) : ℕ := if q.length = 0 then 0 else bitsVal q + q.length <<< 8

/-- The value a node stores under a bit string. -/
def Node.get (n : Node) (q : List Bool) : Option ℕ :=
  if 8 ≤ q.length then
    match n.branches (byteOf (q.take 8)) with
    | none => none
    | some node => node.get (q.drop 8)
  else n.prefixes (prefixKey q)
termination_by q.length

@[simp] theorem byteOf_byteBits (b : UInt8) : byteOf (byteBits b) = b := by
  rw [byteOf, bitsVal_byteBits, UInt8.ofNat_toNat]

theorem byteBits_byteOf {q : List Bool} (h : q.length = 8) : byteBits (byteOf q) = q := by
  have hlt : bitsVal q < 256 := by have := bitsVal_lt q; rwa [h] at this
  rw [byteBits, byteOf, UInt8.toNat_ofNat_of_lt' hlt, ← h, natBits_bitsVal]

/-- A string is shorter than a byte or starts with one. -/
theorem lt_or_exists_eq_byteBits_append (q : List Bool) :
    q.length < 8 ∨ ∃ b q', q = byteBits b ++ q' := by
  rcases Nat.lt_or_ge q.length 8 with h | h
  · exact Or.inl h
  · refine Or.inr ⟨byteOf (q.take 8), q.drop 8, ?_⟩
    rw [byteBits_byteOf (by simpa using h), List.take_append_drop]

theorem byteBits_append_inj {a b : UInt8} {q r : List Bool}
    (h : byteBits a ++ q = byteBits b ++ r) : a = b ∧ q = r := by
  obtain ⟨hab, hqr⟩ := List.append_inj h (by simp)
  exact ⟨byteBits_inj hab, hqr⟩

/-- **A prefix key names one string.** The length sits above the byte,
and the value below it. -/
theorem prefixKey_inj {q r : List Bool} (hq : q.length < 8) (hr : r.length < 8)
    (h : prefixKey q = prefixKey r) : q = r := by
  have hbound : ∀ {s : List Bool}, s.length < 8 → bitsVal s < 256 := by
    intro s hs
    have hpow : 2 ^ s.length ≤ 2 ^ 8 := Nat.pow_le_pow_right (by omega) (by omega)
    exact lt_of_lt_of_le (bitsVal_lt s) hpow
  have hbq := hbound hq
  have hbr := hbound hr
  have hlen : q.length = r.length := by
    simp only [prefixKey, Nat.shiftLeft_eq] at h
    split at h <;> split at h <;> omega
  refine bitsVal_inj hlen ?_
  simp only [prefixKey, Nat.shiftLeft_eq, hlen] at h
  split at h
  · rename_i h0
    rw [List.length_eq_zero_iff.mp h0, List.length_eq_zero_iff.mp (hlen.trans h0)]
  · omega

theorem getPrefixKey_eq {i : ℕ} (hi : i ≤ 8) (b : UInt8) :
    getPrefixKey i b = prefixKey ((byteBits b).take i) := by
  have hlen : ((byteBits b).take i).length = i := by simpa using hi
  rw [getPrefixKey, prefixKey, hlen, bitsVal_take, bitsVal_byteBits, byteBits_length,
    Nat.shiftRight_eq_div_pow]
  by_cases h : i = 0 <;> simp [h]

/-- The key a call ends at is that of the rest of its prefix. -/
theorem lastKey_eq {pfx : List UInt8} {len : ℕ} (hlt : len < 8) (hle : len ≤ 8 * pfx.length) :
    lastKey pfx len = prefixKey ((bytesBits pfx).take len) := by
  obtain _ | ⟨b, pfx⟩ := pfx
  · obtain rfl : len = 0 := by simpa using hle
    rfl
  · rw [take_bytesBits_cons_of_le (by omega), ← getPrefixKey_eq (by omega), lastKey]
    split
    · rename_i h0
      rw [h0]; rfl
    · rfl

/-! ## Reading a node -/

theorem Node.get_of_lt (n : Node) {q : List Bool} (h : q.length < 8) :
    n.get q = n.prefixes (prefixKey q) := by
  rw [Node.get, if_neg (by omega)]

theorem Node.get_append (n : Node) (b : UInt8) (q : List Bool) :
    n.get (byteBits b ++ q) = (n.branches b).bind fun node => node.get q := by
  rw [Node.get, if_pos (by simp), List.take_left' (byteBits_length b),
    List.drop_left' (byteBits_length b), byteOf_byteBits]
  cases n.branches b <;> rfl

/-- The counters do not enter the contents. -/
theorem Node.get_congr {n m : Node} (hb : n.branches = m.branches)
    (hp : n.prefixes = m.prefixes) (q : List Bool) : n.get q = m.get q := by
  rw [Node.get, Node.get, hb, hp]

theorem get_branchNum (n : Node) (x : UInt8) (q : List Bool) :
    Node.get { n with branchNum := x } q = n.get q := by
  apply Node.get_congr <;> rfl

@[simp] theorem get_allocateNode (q : List Bool) : allocateNode.get q = none := by
  rw [Node.get]
  split <;> rfl

theorem get_setNextNode (n m : Node) (b : UInt8) (q : List Bool) :
    (n.setNextNode b m).get (byteBits b ++ q) = m.get q := by
  simp [Node.get_append, Node.setNextNode]

theorem get_setNextNode_of_ne (n m : Node) {a b : UInt8} (h : a ≠ b) (q : List Bool) :
    (n.setNextNode b m).get (byteBits a ++ q) = n.get (byteBits a ++ q) := by
  simp [Node.get_append, Node.setNextNode, h]

theorem get_setNextNode_of_lt (n m : Node) (b : UInt8) {q : List Bool} (h : q.length < 8) :
    (n.setNextNode b m).get q = n.get q := by
  rw [Node.get_of_lt _ h, Node.get_of_lt _ h]; rfl

theorem get_deleteBranch (n : Node) (b : UInt8) (q : List Bool) :
    (n.deleteBranch b).get (byteBits b ++ q) = none := by
  simp [Node.get_append, Node.deleteBranch]

theorem get_deleteBranch_of_ne (n : Node) {a b : UInt8} (h : a ≠ b) (q : List Bool) :
    (n.deleteBranch b).get (byteBits a ++ q) = n.get (byteBits a ++ q) := by
  simp [Node.get_append, Node.deleteBranch, h]

theorem get_deleteBranch_of_lt (n : Node) (b : UInt8) {q : List Bool} (h : q.length < 8) :
    (n.deleteBranch b).get q = n.get q := by
  rw [Node.get_of_lt _ h, Node.get_of_lt _ h]; rfl

/-! ## Insertion -/

theorem get_store {n : Node} {r : List Bool} (hr : r.length < 8) (value : ℕ) (q : List Bool) :
    (n.store (prefixKey r) value).get q = if q = r then some value else n.get q := by
  have hstore : (n.store (prefixKey r) value).branches = n.branches ∧
      (n.store (prefixKey r) value).prefixes =
        Function.update n.prefixes (prefixKey r) (some value) := by
    rw [Node.store]
    cases h : (n.insertPrefix (prefixKey r) value).2 <;> simp [Node.insertPrefix] at h ⊢ <;> simp [h]
  obtain hq | ⟨b, q, rfl⟩ := lt_or_exists_eq_byteBits_append q
  · rw [Node.get_of_lt _ hq, Node.get_of_lt _ hq, hstore.2]
    by_cases h : q = r
    · rw [h, Function.update_self, if_pos rfl]
    · rw [Function.update_of_ne (fun hk => h (prefixKey_inj hq hr hk)), if_neg h]
  · have hne : byteBits b ++ q ≠ r := by rintro rfl; simp at hr
    rw [if_neg hne, Node.get_append, Node.get_append, hstore.1]

/-- Updating the contents under one byte updates the contents. -/
theorem get_setNextNode_update {n m : Node} {b : UInt8} {r : List Bool} {v : Option ℕ}
    (hm : ∀ q, m.get q = if q = r then v else n.get (byteBits b ++ q)) (q : List Bool) :
    (n.setNextNode b m).get q = if q = byteBits b ++ r then v else n.get q := by
  obtain hq | ⟨a, q, rfl⟩ := lt_or_exists_eq_byteBits_append q
  · have hne : q ≠ byteBits b ++ r := by rintro rfl; simp at hq
    rw [get_setNextNode_of_lt _ _ _ hq, if_neg hne]
  · by_cases hab : a = b
    · subst hab
      rw [get_setNextNode, hm]
      simp
    · have hne : byteBits a ++ q ≠ byteBits b ++ r := fun h => hab (byteBits_append_inj h).1
      rw [get_setNextNode_of_ne _ _ hab, if_neg hne]

/-- **Insertion updates the contents at its prefix.** -/
theorem get_insert {pfx : List UInt8} {len : ℕ} (hle : len ≤ 8 * pfx.length) (value : ℕ)
    (n : Node) (q : List Bool) :
    (n.insert pfx len value).get q =
      if q = (bytesBits pfx).take len then some value else n.get q := by
  induction pfx generalizing n len q with
  | nil =>
    obtain rfl : len = 0 := by simpa using hle
    exact get_store (r := []) (by simp) value q
  | cons byte pfx ih =>
    rw [Node.insert]
    by_cases h8 : 8 ≤ len
    · have hle' : len - 8 ≤ 8 * pfx.length := by simp at hle; omega
      rw [if_pos h8, take_bytesBits_cons_of_ge h8]
      split
      · rename_i node hnode
        refine get_setNextNode_update (fun q => ?_) q
        rw [ih hle', Node.get_append, show n.branches byte = some node from hnode]
        rfl
      · rename_i hnode
        -- the fresh child stores nothing, as the absent branch did
        refine (get_branchNum _ _ q).trans (get_setNextNode_update (fun q => ?_) q)
        rw [ih hle', Node.get_append, show n.branches byte = none from hnode]
        simp
    · rw [if_neg h8, lastKey_eq (by omega) hle]
      exact get_store (by simp; omega) value q

/-! ## Retrieval and lookup -/

theorem retrieveValue_eq_get {pfx : List UInt8} {len : ℕ} (hle : len ≤ 8 * pfx.length)
    (n : Node) : n.retrieveValue pfx len = n.get ((bytesBits pfx).take len) := by
  induction pfx generalizing n len with
  | nil =>
    obtain rfl : len = 0 := by simpa using hle
    rw [Node.get_of_lt _ (by simp)]; rfl
  | cons byte pfx ih =>
    rw [Node.retrieveValue]
    by_cases h8 : 8 ≤ len
    · have hle' : len - 8 ≤ 8 * pfx.length := by simp at hle; omega
      rw [if_pos h8, take_bytesBits_cons_of_ge h8, Node.get_append, Node.getNextNode]
      cases n.branches byte with
      | none => rfl
      | some node => exact ih hle' node
    · rw [if_neg h8, lastKey_eq (by omega) hle, Node.get_of_lt _ (by simp; omega)]
      rfl

/-- Reading the contents past a byte, on the way to a longest match. -/
theorem longestMatch_of_take {m : List Bool → Option ℕ} {bits q : List Bool} :
    longestMatch m (bits ++ q) =
      (longestMatch (fun p => m (bits ++ p)) q).or
        ((List.range bits.length).reverse.findSome? fun i => m (bits.take i)) := by
  induction bits generalizing m with
  | nil => simp
  | cons a bits ih =>
    rw [List.cons_append, longestMatch, ih, Option.or_assoc, List.length_cons, List.range_succ_eq_map,
      List.reverse_cons, List.findSome?_append, ← List.map_reverse, List.findSome?_map]
    congr 2
    simp [List.findSome?]
    cases m [] <;> rfl

/-- **Lookup is the longest match of the contents**, over what was found
before. -/
theorem lookup_eq_longestMatch (n : Node) (key : List UInt8) (found : Option ℕ) :
    n.lookup key found = (longestMatch n.get (bytesBits key)).or found := by
  induction key generalizing n found with
  | nil =>
    rw [Node.lookup, bytesBits_nil, longestMatch, Node.get_of_lt _ (by simp)]
    rfl
  | cons byte key ih =>
    have hscan : (n.scanPrefixes byte).or (n.getPrefixPtr 0) =
        (List.range 8).reverse.findSome? fun i => n.get ((byteBits byte).take i) := by
      have hkey : ∀ i, i < 8 →
          n.getPrefixPtr (getPrefixKey i byte) = n.get ((byteBits byte).take i) := by
        intro i hi
        rw [getPrefixKey_eq (by omega), Node.get_of_lt _ (by simp; omega)]
        rfl
      have hzero : n.getPrefixPtr 0 = n.get ((byteBits byte).take 0) := hkey 0 (by omega)
      have hrange : (List.range 8).reverse = [7, 6, 5, 4, 3, 2, 1] ++ [0] := by decide
      rw [hrange, List.findSome?_append, Node.scanPrefixes, hzero]
      congr 1
      · simp only [List.findSome?, hkey 7 (by omega), hkey 6 (by omega), hkey 5 (by omega),
          hkey 4 (by omega), hkey 3 (by omega), hkey 2 (by omega), hkey 1 (by omega)]
      · simp only [List.findSome?]
        cases n.get ((byteBits byte).take 0) <;> rfl
    rw [Node.lookup, bytesBits_cons, longestMatch_of_take, byteBits_length, ← hscan,
      Option.or_assoc, Option.or_assoc]
    simp only [Node.get_append, Node.getNextNode]
    cases hb : n.branches byte with
    | none =>
      have hnone : longestMatch (fun p => (none : Option Node).bind fun node => node.get p)
          (bytesBits key) = none := longestMatch_eq_none_iff.mpr fun _ _ => rfl
      rw [hnone, Option.none_or]
    | some node => exact ih node _

/-! ## Descents -/

/-- The frames of a descent are linked: each parent holds the node below
it. -/
def Linked : Node → List Frame → Prop
  | _, [] => True
  | n, f :: frames => f.parent.branches f.childId = some n ∧ Linked f.parent frames

/-- Linking a node where it already hangs changes nothing. -/
theorem setNextNode_eq_self {n m : Node} {b : UInt8} (h : n.branches b = some m) :
    n.setNextNode b m = n := by
  obtain ⟨branches, prefixes, branchNum, prefNum⟩ := n
  simp only [Node.setNextNode, Node.mk.injEq, and_self, and_true]
  rw [← show branches b = some m from h, Function.update_eq_self]

end LpmTrie

end P4Bricks
