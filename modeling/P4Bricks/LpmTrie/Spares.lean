import P4Bricks.LpmTrie.Helpers.Places
/-!
# Deletions that spare the other prefixes

A deletion frees the nodes that read as empty on the way back to the root. It
keeps what all other places hold exactly when each node it frees holds nothing
(`keeps_delete`, `exists_lost`).
-/

namespace P4Bricks

namespace LpmTrie

/-- What the release loop frees is empty. -/
def SparesUp : Node → List Frame → Prop
  | _, [] => True
  | n, f :: frames =>
    n.prefNum = 0 ∧ n.branchNum = 0 →
      (∀ path k, n.value path k = none) ∧
        SparesUp { f.parent.deleteBranch f.childId with
          branchNum := (f.parent.deleteBranch f.childId).branchNum - 1 } frames

/-- **A deletion that frees nodes only in which no prefix is left.** -/
def Trie.Spares (t : Trie) (pfx : List UInt8) (prefixLength : ℕ) : Prop :=
  match descend t.root [] pfx prefixLength with
  | none => True
  | some d => SparesUp (d.node.unstore (lastKey d.pfx d.prefixLength)) d.frames

/-! ## What is spared -/

/-- All that `m` holds, but for one place, `m'` holds too. -/
def Keeps (own : List UInt8 × ℕ) (m m' : Node) : Prop :=
  ∀ path k v, (path, k) ≠ own → m.value path k = some v → m'.value path k = some v

theorem Keeps.setNextNode {path : List UInt8} {k : ℕ} {m m' : Node} (h : Keeps (path, k) m m')
    (n : Node) (b : UInt8) : Keeps (b :: path, k) (n.setNextNode b m) (n.setNextNode b m') := by
  intro q l v hne hv
  cases q with
  | nil => exact hv
  | cons a q =>
    rw [value_setNextNode] at hv ⊢
    by_cases hab : a = b
    · rw [if_pos hab] at hv ⊢
      refine h q l v (fun heq => hne ?_) hv
      obtain ⟨rfl, rfl⟩ := Prod.mk.inj heq
      rw [hab]
    · rw [if_neg hab] at hv ⊢
      exact hv

theorem Keeps.rebuild {path : List UInt8} {k : ℕ} {m m' : Node} (h : Keeps (path, k) m m')
    (frames : List Frame) :
    Keeps (framesPath frames ++ path, k) (rebuild m frames) (rebuild m' frames) := by
  induction frames generalizing path m m' with
  | nil => exact h
  | cons f frames ih =>
    have hstep := ih (h.setNextNode f.parent f.childId)
    rwa [show framesPath frames ++ f.childId :: path = framesPath (f :: frames) ++ path by
      simp [framesPath]] at hstep

theorem keeps_unstore (n : Node) (key : ℕ) : Keeps ([], key) n (n.unstore key) := by
  intro path k v hne hv
  cases path with
  | nil =>
    have hk : k ≠ key := fun heq => hne (by rw [heq])
    simpa [Node.value, Node.unstore, Node.deletePrefix, hk] using hv
  | cons b path => exact hv

/-- Unlinking an empty child loses nothing. -/
theorem within_deleteBranch_of_empty {m : Node} (h : ∀ path k, m.value path k = none) (n : Node)
    (b x : UInt8) : Within (n.setNextNode b m) { n.deleteBranch b with branchNum := x } := by
  intro path k v hv
  rw [value_branchNum]
  cases path with
  | nil => exact hv
  | cons a path =>
    rw [value_setNextNode] at hv
    rw [value_deleteBranch]
    by_cases hab : a = b
    · rw [if_pos hab, h path k] at hv
      cases hv
    · rwa [if_neg hab] at hv ⊢

/-- A release loop that spares frees nothing that counts. -/
theorem SparesUp.within {m : Node} {frames : List Frame} (h : SparesUp m frames) :
    Within (rebuild m frames) (release m frames) := by
  induction frames generalizing m with
  | nil => exact fun _ _ _ hv => hv
  | cons f frames ih =>
    unfold release
    split
    · rename_i hzero
      obtain ⟨hempty, hup⟩ := h hzero
      intro path k v hv
      exact ih hup path k v ((within_deleteBranch_of_empty hempty f.parent f.childId _).rebuild
        frames path k v hv)
    · exact fun _ _ _ hv => hv

/-- What a loop that does not spare loses. -/
theorem exists_lost_of_not_sparesUp {m : Node} {frames : List Frame} (h : ¬ SparesUp m frames) :
    ∃ path k v, (rebuild m frames).value path k = some v ∧
      (release m frames).value path k = none := by
  induction frames generalizing m with
  | nil => exact absurd trivial h
  | cons f frames ih =>
    obtain ⟨hzero, hup⟩ := Classical.not_imp.mp h
    by_cases hempty : ∀ path k, m.value path k = none
    · -- This node is empty: the loss is further up.
      obtain ⟨path, k, v, hv, hlost⟩ := ih fun hspares => hup ⟨hempty, hspares⟩
      refine ⟨path, k, v, ?_, ?_⟩
      · have hwithin : Within { f.parent.deleteBranch f.childId with
            branchNum := (f.parent.deleteBranch f.childId).branchNum - 1 }
            (f.parent.setNextNode f.childId m) := by
          intro path k v hv
          rw [value_branchNum] at hv
          cases path with
          | nil => exact hv
          | cons a path =>
            rw [value_deleteBranch] at hv
            rw [value_setNextNode]
            by_cases ha : a = f.childId
            · rw [if_pos ha] at hv
              cases hv
            · rwa [if_neg ha] at hv ⊢
        exact hwithin.rebuild frames path k v hv
      · rw [release, if_pos hzero]
        exact hlost
    · push Not at hempty
      obtain ⟨path, k, hsome⟩ := hempty
      obtain ⟨v, hv⟩ := Option.ne_none_iff_exists'.mp hsome
      refine ⟨framesPath (f :: frames) ++ path, k, v, ?_, ?_⟩
      · rw [value_rebuild, hv]
      · rw [release, if_pos hzero, framesPath, List.append_assoc]
        refine value_release ?_
        rw [value_branchNum, List.singleton_append, value_deleteBranch, if_pos rfl]

/-! ## Deletions -/

/-- What a deletion that finds its prefix does to the tree. -/
theorem exists_descent_of_value {t : Trie} (hrel : t.releaseMemory = true) {pfx : List UInt8}
    {len v : ℕ} (h : t.root.value (place pfx len).1 (place pfx len).2 = some v) :
    ∃ d : Descent, descend t.root [] pfx len = some d ∧
      rebuild d.node d.frames = t.root ∧ framesPath d.frames = (place pfx len).1 ∧
      lastKey d.pfx d.prefixLength = (place pfx len).2 ∧
      (t.delete pfx len).1.root = release (d.node.unstore (place pfx len).2) d.frames := by
  cases hd : descend t.root [] pfx len with
  | none =>
    rw [value_of_descend_eq_none hd] at h
    cases h
  | some d =>
    obtain ⟨-, hroot, hpath, hkey⟩ := descend_eq_some (show Linked t.root [] from trivial) hd
    have hroot : rebuild d.node d.frames = t.root := hroot
    have hpath : framesPath d.frames = (place pfx len).1 := hpath
    refine ⟨d, rfl, hroot, hpath, hkey, ?_⟩
    have hfound : d.node.getPrefixPtr (place pfx len).2 = some v := by
      rw [← h, ← hroot, ← hpath]
      have hv := value_rebuild d.node d.frames [] (place pfx len).2
      rw [List.append_nil] at hv
      exact hv.symm
    simp [Trie.delete, hd, hkey, hfound, hrel]

theorem keeps_root {d : Descent} {pfx : List UInt8} {len : ℕ} {root : Node}
    (hroot : rebuild d.node d.frames = root) (hpath : framesPath d.frames = (place pfx len).1) :
    Keeps (place pfx len) root (rebuild (d.node.unstore (place pfx len).2) d.frames) := by
  have hkeeps := (keeps_unstore d.node (place pfx len).2).rebuild d.frames
  rwa [List.append_nil, hroot, hpath] at hkeeps

/-- **What a deletion that spares keeps.** -/
theorem keeps_delete {t : Trie} (hrel : t.releaseMemory = true) {pfx : List UInt8} {len v : ℕ}
    (hown : t.root.value (place pfx len).1 (place pfx len).2 = some v) (h : t.Spares pfx len) :
    Keeps (place pfx len) t.root (t.delete pfx len).1.root := by
  obtain ⟨d, hd, hroot, hpath, hkey, hdelete⟩ := exists_descent_of_value hrel hown
  rw [Trie.Spares, hd] at h
  simp only [hkey] at h
  intro path k w hne hw
  rw [hdelete]
  exact h.within path k w (keeps_root hroot hpath path k w hne hw)

/-- What a deletion that does not spare loses. -/
theorem exists_lost {t : Trie} (hrel : t.releaseMemory = true) {pfx : List UInt8} {len v : ℕ}
    (hown : t.root.value (place pfx len).1 (place pfx len).2 = some v) (h : ¬ t.Spares pfx len) :
    ∃ path k w, (path, k) ≠ place pfx len ∧ t.root.value path k = some w ∧
      (t.delete pfx len).1.root.value path k = none := by
  obtain ⟨d, hd, hroot, hpath, hkey, hdelete⟩ := exists_descent_of_value hrel hown
  rw [Trie.Spares, hd] at h
  simp only [hkey] at h
  obtain ⟨path, k, w, hw, hlost⟩ := exists_lost_of_not_sparesUp h
  refine ⟨path, k, w, fun heq => ?_, ?_, ?_⟩
  · have hnone := value_rebuild (d.node.unstore (place pfx len).2) d.frames [] (place pfx len).2
    rw [List.append_nil, hpath] at hnone
    obtain ⟨rfl, rfl⟩ := Prod.ext_iff.mp heq
    rw [hw] at hnone
    simp [Node.value, Node.unstore, Node.deletePrefix] at hnone
  · rw [← hroot]
    exact (within_unstore d.node _).rebuild d.frames path k w hw
  · rw [hdelete]
    exact hlost

end LpmTrie

end P4Bricks
