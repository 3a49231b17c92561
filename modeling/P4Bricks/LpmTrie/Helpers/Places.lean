import P4Bricks.LpmTrie.Helpers.Contents
/-!
# Places in the trie

Where a prefix is kept, as the code finds it: a path of bytes and a key in the
last node. Seen so, an insertion fills one place whatever the prefix length,
and a deletion empties one and fills none, even where its counters have led it
to free more than it should. A lookup only returns what some place holds.
-/

namespace P4Bricks

namespace LpmTrie

/-- What a place holds. -/
def Node.value : Node → List UInt8 → ℕ → Option ℕ
  | n, [], k => n.prefixes k
  | n, b :: path, k => (n.branches b).bind fun node => node.value path k

/-- The place of a prefix. -/
def place : List UInt8 → ℕ → List UInt8 × ℕ
  | [], len => ([], lastKey [] len)
  | b :: pfx, len =>
    if 8 ≤ len then (b :: (place pfx (len - 8)).1, (place pfx (len - 8)).2)
    else ([], lastKey (b :: pfx) len)

@[simp] theorem value_allocateNode (path : List UInt8) (k : ℕ) :
    allocateNode.value path k = none := by
  cases path <;> rfl

theorem value_setNextNode (n m : Node) (a b : UInt8) (path : List UInt8) (k : ℕ) :
    (n.setNextNode b m).value (a :: path) k =
      if a = b then m.value path k else n.value (a :: path) k := by
  by_cases hab : a = b
  · subst hab
    simp [Node.value, Node.setNextNode]
  · simp [Node.value, Node.setNextNode, hab]

theorem value_branchNum (n : Node) (x : UInt8) (path : List UInt8) (k : ℕ) :
    Node.value { n with branchNum := x } path k = n.value path k := by
  cases path <;> rfl

theorem value_prefNum (n : Node) (x : UInt8) (path : List UInt8) (k : ℕ) :
    Node.value { n with prefNum := x } path k = n.value path k := by
  cases path <;> rfl

theorem value_store (n : Node) (key v : ℕ) (path : List UInt8) (k : ℕ) :
    (n.store key v).value path k = if (path, k) = ([], key) then some v else n.value path k := by
  have hstore : (n.store key v).value path k = (n.insertPrefix key v).1.value path k := by
    unfold Node.store
    split
    rename_i n' present heq
    rw [heq]
    split
    · rfl
    · exact value_prefNum n' _ path k
  rw [hstore]
  cases path with
  | nil =>
    by_cases hk : k = key
    · subst hk
      simp [Node.value, Node.insertPrefix]
    · simp [Node.value, Node.insertPrefix, hk]
  | cons b path => simp [Node.value, Node.insertPrefix]

/-- **An insertion fills one place.** -/
theorem value_insert (n : Node) (pfx : List UInt8) (len v : ℕ) (path : List UInt8) (k : ℕ) :
    (n.insert pfx len v).value path k =
      if (path, k) = place pfx len then some v else n.value path k := by
  induction pfx generalizing n len path with
  | nil => exact value_store n _ v path k
  | cons b pfx ih =>
    unfold Node.insert place
    split
    · rename_i hlen
      have hchild : ∀ m : Node, ∀ path, (n.setNextNode b (m.insert pfx (len - 8) v)).value path k =
          if (path, k) = (b :: (place pfx (len - 8)).1, (place pfx (len - 8)).2) then some v
          else (n.setNextNode b m).value path k := by
        intro m path
        cases path with
        | nil => simp [Node.value, Node.setNextNode]
        | cons a path =>
          rw [value_setNextNode, value_setNextNode, ih]
          by_cases hab : a = b
          · subst hab
            simp [Prod.ext_iff]
          · simp [hab]
      cases hb : n.branches b with
      | some node =>
        have hset := hchild node path
        rw [setNextNode_eq_self hb] at hset
        simpa [Node.getNextNode, hb] using hset
      | none =>
        -- The child is new and empty, as the missing one was.
        have hnone : ∀ path, (n.setNextNode b allocateNode).value path k = n.value path k := by
          intro path
          cases path with
          | nil => rfl
          | cons a path =>
            rw [value_setNextNode]
            by_cases hab : a = b
            · subst hab
              simp [Node.value, hb]
            · rw [if_neg hab]
        simp only [Node.getNextNode, hb]
        rw [value_branchNum, hchild, hnone]
    · exact value_store n _ v path k

theorem retrieveValue_eq_value (n : Node) (pfx : List UInt8) (len : ℕ) :
    n.retrieveValue pfx len = n.value (place pfx len).1 (place pfx len).2 := by
  induction pfx generalizing n len with
  | nil => rfl
  | cons b pfx ih =>
    unfold Node.retrieveValue place
    split
    · simp only [Node.value, Node.getNextNode]
      cases n.branches b with
      | none => rfl
      | some node => exact ih node _
    · rfl

/-- A lookup returns what a place holds. -/
theorem exists_value_of_lookup {n : Node} {key : List UInt8} {found : Option ℕ} {v : ℕ}
    (h : n.lookup key found = some v) : found = some v ∨ ∃ path k, n.value path k = some v := by
  induction key generalizing n found with
  | nil =>
    rcases Option.or_eq_some_iff.mp h with h0 | ⟨-, h0⟩
    · exact .inr ⟨[], 0, h0⟩
    · exact .inl h0
  | cons b key ih =>
    have hfound : ∀ {o}, (n.scanPrefixes b).or ((n.getPrefixPtr 0).or found) = some o →
        found = some o ∨ ∃ path k, n.value path k = some o := by
      intro o ho
      rcases Option.or_eq_some_iff.mp ho with hs | ⟨-, ho⟩
      · obtain ⟨i, -, hi⟩ := List.exists_of_findSome?_eq_some hs
        exact .inr ⟨[], _, hi⟩
      · rcases Option.or_eq_some_iff.mp ho with h0 | ⟨-, h0⟩
        · exact .inr ⟨[], 0, h0⟩
        · exact .inl h0
    simp only [Node.lookup, Node.getNextNode] at h
    cases hb : n.branches b with
    | none =>
      rw [hb] at h
      exact hfound h
    | some node =>
      rw [hb] at h
      rcases ih h with hf | ⟨path, k, hv⟩
      · exact hfound hf
      · exact .inr ⟨b :: path, k, by simpa [Node.value, hb] using hv⟩

/-! ## Deletion -/

/-- Every place holds what it held, or nothing. -/
def Within (m' m : Node) : Prop := ∀ path k v, m'.value path k = some v → m.value path k = some v

/-- The path of a descent. -/
def framesPath : List Frame → List UInt8
  | [] => []
  | f :: frames => framesPath frames ++ [f.childId]

theorem value_rebuild (m : Node) (frames : List Frame) (path : List UInt8) (k : ℕ) :
    (rebuild m frames).value (framesPath frames ++ path) k = m.value path k := by
  induction frames generalizing m path with
  | nil => rfl
  | cons f frames ih =>
    rw [rebuild, framesPath, List.append_assoc, ih, List.singleton_append, value_setNextNode,
      if_pos rfl]

theorem Within.setNextNode {m' m : Node} (h : Within m' m) (n : Node) (b : UInt8) :
    Within (n.setNextNode b m') (n.setNextNode b m) := by
  intro path k v hv
  cases path with
  | nil => exact hv
  | cons a path =>
    rw [value_setNextNode] at hv ⊢
    by_cases hab : a = b
    · rw [if_pos hab] at hv ⊢
      exact h path k v hv
    · rw [if_neg hab] at hv ⊢
      exact hv

theorem Within.rebuild {m' m : Node} (h : Within m' m) (frames : List Frame) :
    Within (rebuild m' frames) (rebuild m frames) := by
  induction frames generalizing m' m with
  | nil => exact h
  | cons f frames ih => exact ih (h.setNextNode f.parent f.childId)

theorem value_deleteBranch (n : Node) (a b : UInt8) (path : List UInt8) (k : ℕ) :
    (n.deleteBranch b).value (a :: path) k =
      if a = b then none else n.value (a :: path) k := by
  by_cases hab : a = b
  · subst hab
    simp [Node.value, Node.deleteBranch]
  · simp [Node.value, Node.deleteBranch, hab]

theorem within_deleteBranch (n : Node) (b x : UInt8) :
    Within { n.deleteBranch b with branchNum := x } n := by
  intro path k v hv
  rw [value_branchNum] at hv
  cases path with
  | nil => exact hv
  | cons a path =>
    rw [value_deleteBranch] at hv
    split at hv
    · cases hv
    · exact hv

theorem within_unstore (n : Node) (key : ℕ) : Within (n.unstore key) n := by
  intro path k v hv
  cases path with
  | nil =>
    by_cases hk : k = key
    · simp [Node.value, Node.unstore, Node.deletePrefix, hk] at hv
    · simpa [Node.value, Node.unstore, Node.deletePrefix, hk] using hv
  | cons b path => exact hv

/-- Releasing nodes, rightly or not, fills no place. -/
theorem Within.release {m' m : Node} {frames : List Frame} (h : Within m' m)
    (hlinked : Linked m frames) : Within (release m' frames) (LpmTrie.rebuild m frames) := by
  induction frames generalizing m' m with
  | nil => exact h
  | cons f frames ih =>
    unfold LpmTrie.release
    split
    · rw [LpmTrie.rebuild, setNextNode_eq_self hlinked.1]
      exact ih (within_deleteBranch f.parent f.childId _) hlinked.2
    · exact h.rebuild (f :: frames)

/-- An empty place stays empty. -/
theorem value_release {m : Node} {frames : List Frame} {path : List UInt8} {k : ℕ}
    (h : m.value path k = none) : (release m frames).value (framesPath frames ++ path) k = none := by
  induction frames generalizing m path with
  | nil => exact h
  | cons f frames ih =>
    unfold release
    split
    · rw [framesPath, List.append_assoc, List.singleton_append]
      refine ih ?_
      rw [value_branchNum, value_deleteBranch, if_pos rfl]
    · rw [value_rebuild m (f :: frames), h]

/-- A descent ends where the prefix has its place. -/
theorem descend_eq_some {n : Node} {frames : List Frame} {pfx : List UInt8} {len : ℕ}
    {d : Descent} (hlinked : Linked n frames) (h : descend n frames pfx len = some d) :
    Linked d.node d.frames ∧ rebuild d.node d.frames = rebuild n frames ∧
      framesPath d.frames = framesPath frames ++ (place pfx len).1 ∧
      lastKey d.pfx d.prefixLength = (place pfx len).2 := by
  induction pfx generalizing n frames len with
  | nil =>
    cases h
    exact ⟨hlinked, rfl, by simp [place], rfl⟩
  | cons b pfx ih =>
    unfold descend at h
    split at h
    · rename_i hlen
      cases hb : n.branches b with
      | none =>
        simp only [Node.getNextNode, hb] at h
        cases h
      | some node =>
        simp only [Node.getNextNode, hb] at h
        have hlink : Linked node (⟨n, b⟩ :: frames) := ⟨hb, hlinked⟩
        obtain ⟨hd, hroot, hpath, hkey⟩ := ih hlink h
        refine ⟨hd, ?_, ?_, ?_⟩
        · rw [hroot, rebuild, setNextNode_eq_self hlink.1]
        · rw [hpath, framesPath, place, if_pos hlen, List.append_assoc]
          rfl
        · rw [hkey, place, if_pos hlen]
    · rename_i hlen
      cases h
      exact ⟨hlinked, rfl, by simp [place, hlen], by simp [place, hlen]⟩

theorem value_of_descend_eq_none {n : Node} {frames : List Frame} {pfx : List UInt8} {len : ℕ}
    (h : descend n frames pfx len = none) :
    n.value (place pfx len).1 (place pfx len).2 = none := by
  induction pfx generalizing n frames len with
  | nil => cases h
  | cons b pfx ih =>
    unfold descend at h
    unfold place
    split at h
    · rename_i hlen
      rw [if_pos hlen]
      cases hb : n.branches b with
      | none => simp [Node.value, hb]
      | some node =>
        simp only [Node.getNextNode, hb] at h
        simpa [Node.value, hb] using ih h
    · cases h

/-- **A deletion fills no place, and empties its own.** -/
theorem value_delete {t : Trie} (hrel : t.releaseMemory = true) (pfx : List UInt8) (len : ℕ)
    {path : List UInt8} {k v : ℕ} (h : (t.delete pfx len).1.root.value path k = some v) :
    t.root.value path k = some v ∧ (path, k) ≠ place pfx len := by
  have hplace : ∀ {m : Node}, m.value (place pfx len).1 (place pfx len).2 = none →
      m.value path k = some v → (path, k) ≠ place pfx len := by
    intro m hnone hsome heq
    rw [← heq] at hnone
    rw [hnone] at hsome
    cases hsome
  unfold Trie.delete at h
  cases hd : descend t.root [] pfx len with
  | none =>
    simp only [hd] at h
    exact ⟨h, hplace (value_of_descend_eq_none hd) h⟩
  | some d =>
    obtain ⟨hlink, hroot, hpath, hkey⟩ := descend_eq_some (show Linked t.root [] from trivial) hd
    have hpath : framesPath d.frames ++ [] = (place pfx len).1 := by rw [hpath]; simp [framesPath]
    simp only [hd, hrel, if_true] at h
    cases hp : d.node.getPrefixPtr (lastKey d.pfx d.prefixLength) with
    | none =>
      simp only [hp] at h
      refine ⟨h, hplace ?_ h⟩
      rw [← hpath, ← hkey, ← show rebuild d.node d.frames = t.root from hroot, value_rebuild]
      exact hp
    | some _ =>
      simp only [hp] at h
      refine ⟨?_, hplace ?_ h⟩
      · rw [← show rebuild d.node d.frames = t.root from hroot]
        exact (within_unstore d.node _).release hlink path k v h
      · rw [← hpath, ← hkey]
        refine value_release ?_
        simp [Node.value, Node.unstore, Node.deletePrefix]

end LpmTrie

end P4Bricks
