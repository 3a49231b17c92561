import Mathlib.Data.List.Nodup
import P4Bricks.LpmTrie.Helpers.Contents
/-!
# The trie refines a prefix map

A run of insertions and deletions denotes a map from bit strings to
values, `stored`. As long as every deletion passes only nodes whose
counters can be believed, the trie's contents are that map, and lookup
answers its longest match. A node with all its 256 branches reads as a
node with none: deleting the last prefix of one frees it with everything
below.
-/

namespace P4Bricks

namespace LpmTrie

/-! ## What a run stores -/

/-- The bit string a call is about. -/
def Op.key : Op → List Bool
  | .insert pfx prefixLength _ => (bytesBits pfx).take prefixLength
  | .delete pfx prefixLength => (bytesBits pfx).take prefixLength

/-- The value a call leaves at its bit string. -/
def Op.result : Op → Option ℕ
  | .insert _ _ value => some value
  | .delete _ _ => none

/-- **The prefixes a run of calls leaves stored**, each with the value
last inserted for it. -/
def stored (ops : List Op) : List Bool → Option ℕ :=
  ops.foldl (fun m op => Function.update m op.key op.result) fun _ => none

/-! ## Deletion -/

/-- `m'` stores what `m` does, less the string `r`. -/
def Erases (r : List Bool) (m m' : Node) : Prop :=
  ∀ q, m'.get q = if q = r then none else m.get q

/-- The bit string a descent has followed. -/
def framesBits : List Frame → List Bool
  | [] => []
  | f :: frames => framesBits frames ++ byteBits f.childId

theorem Erases.setNextNode {r : List Bool} {m m' : Node} (h : Erases r m m') (f : Frame) :
    Erases (byteBits f.childId ++ r) (f.parent.setNextNode f.childId m)
      (f.parent.setNextNode f.childId m') := by
  intro q
  obtain hq | ⟨a, q, rfl⟩ := lt_or_exists_eq_byteBits_append q
  · have hne : q ≠ byteBits f.childId ++ r := by rintro rfl; simp at hq
    rw [get_setNextNode_of_lt _ _ _ hq, get_setNextNode_of_lt _ _ _ hq, if_neg hne]
  · by_cases ha : a = f.childId
    · subst ha
      rw [get_setNextNode, get_setNextNode, h]
      simp
    · have hne : byteBits a ++ q ≠ byteBits f.childId ++ r := fun he =>
        ha (byteBits_append_inj he).1
      rw [get_setNextNode_of_ne _ _ ha, get_setNextNode_of_ne _ _ ha, if_neg hne]

/-- Unlinking a child that stores nothing loses nothing. -/
theorem Erases.deleteBranch {r : List Bool} {m m' : Node} (h : Erases r m m')
    (hempty : ∀ q, m'.get q = none) (f : Frame) :
    Erases (byteBits f.childId ++ r) (f.parent.setNextNode f.childId m)
      (f.parent.deleteBranch f.childId) := by
  intro q
  obtain hq | ⟨a, q, rfl⟩ := lt_or_exists_eq_byteBits_append q
  · have hne : q ≠ byteBits f.childId ++ r := by rintro rfl; simp at hq
    rw [get_setNextNode_of_lt _ _ _ hq, get_deleteBranch_of_lt _ _ hq, if_neg hne]
  · by_cases ha : a = f.childId
    · subst ha
      have hq := h q
      rw [hempty q] at hq
      rw [get_setNextNode, get_deleteBranch]
      simpa using hq
    · have hne : byteBits a ++ q ≠ byteBits f.childId ++ r := fun he =>
        ha (byteBits_append_inj he).1
      rw [get_setNextNode_of_ne _ _ ha, get_deleteBranch_of_ne _ ha, if_neg hne]

theorem Erases.rebuild {r : List Bool} {m m' : Node} (h : Erases r m m') (frames : List Frame) :
    Erases (framesBits frames ++ r) (rebuild m frames) (rebuild m' frames) := by
  induction frames generalizing r m m' with
  | nil => exact h
  | cons f frames ih =>
    have := ih (h.setNextNode f)
    rwa [← List.append_assoc] at this

/-- A node with no items stores nothing. -/
theorem get_eq_none_of_items {n : Node} (h : n.items = ∅) (q : List Bool) : n.get q = none := by
  have hb : ∀ b, n.branches b = none := by
    intro b
    have hmem : Sum.inl b ∉ n.items := by simp [h]
    simpa [Node.items] using hmem
  have hp : ∀ k, n.prefixes k = none := by
    intro k
    have hmem : Sum.inr k ∉ n.items := by simp [h]
    simpa [Node.items] using hmem
  rw [Node.get, hp, hb]
  simp

/-- A counted node that reads empty after losing an item is empty: it read
one before, and the item lost was the one it held. -/
theorem Node.Counted.items_eq_empty {n n' : Node} {x : UInt8 ⊕ ℕ} (hn : n.Counted)
    (hx : x ∈ n.items) (hsub : n'.items ⊆ n.items \ {x})
    (hread : n.prefNum.toNat + n.branchNum.toNat = 1) : n'.items = ∅ := by
  refine Set.eq_empty_of_forall_notMem fun y hy => ?_
  obtain ⟨hyn, hyx⟩ := hsub hy
  exact hyx (hn hread hyn hx)

theorem items_deleteBranch (n : Node) (b : UInt8) (x : UInt8) :
    Node.items { n.deleteBranch b with branchNum := x } ⊆ n.items \ {Sum.inl b} := by
  rintro (a | k) h
  · simp only [Node.items, Node.deleteBranch, Set.mem_ofPred_eq] at h
    by_cases ha : a = b
    · simp [ha] at h
    · rw [Function.update_of_ne ha] at h
      exact ⟨h, by simpa using ha⟩
  · exact ⟨h, by simp⟩

theorem items_unstore (n : Node) (key : ℕ) :
    (n.unstore key).items ⊆ n.items \ {Sum.inr key} := by
  rintro (a | k) h
  · exact ⟨h, by simp⟩
  · simp only [Node.items, Node.unstore, Node.deletePrefix, Set.mem_ofPred_eq] at h
    by_cases hk : k = key
    · simp [hk] at h
    · rw [Function.update_of_ne hk] at h
      exact ⟨h, by simpa using hk⟩

theorem erases_unstore {n : Node} {r : List Bool} (hr : r.length < 8) :
    Erases r n (n.unstore (prefixKey r)) := by
  intro q
  obtain hq | ⟨b, q, rfl⟩ := lt_or_exists_eq_byteBits_append q
  · rw [Node.get_of_lt _ hq, Node.get_of_lt _ hq]
    by_cases h : q = r
    · simp [h, Node.unstore, Node.deletePrefix]
    · simp [h, Node.unstore, Node.deletePrefix,
        Function.update_of_ne (fun hk => h (prefixKey_inj hq hr hk))]
  · have hne : byteBits b ++ q ≠ r := by rintro rfl; simp at hr
    rw [if_neg hne, Node.get_append, Node.get_append]
    rfl

/-- Rebuilding a linked descent gives back the root it started from. -/
theorem rebuild_eq_root {root n : Node} {frames : List Frame}
    (hlink : Linked n frames) (hlast : (n :: frames.map Frame.parent).getLast? = some root) :
    rebuild n frames = root := by
  induction frames generalizing n with
  | nil => simpa [rebuild] using hlast
  | cons f frames ih =>
    rw [rebuild, setNextNode_eq_self hlink.1]
    exact ih hlink.2 (by simpa using hlast)

/-- The root holds, below a linked descent, what the node does. -/
theorem get_rebuild {n : Node} {frames : List Frame} (q : List Bool) :
    (rebuild n frames).get (framesBits frames ++ q) = n.get q := by
  induction frames generalizing n q with
  | nil => rfl
  | cons f frames ih => rw [rebuild, framesBits, List.append_assoc, ih, get_setNextNode]

/-- **The release loop frees only what is empty.** The invariant carried
to the root: the node in hand stores what it did less `r`, and where its
counters read zero it holds nothing. -/
theorem erases_release {r : List Bool} {m m' : Node} {frames : List Frame}
    (herase : Erases r m m') (hlink : Linked m frames)
    (hempty : frames ≠ [] → m'.prefNum = 0 ∧ m'.branchNum = 0 → m'.items = ∅)
    (hcount : ∀ n ∈ (frames.map Frame.parent).dropLast, n.Counted) :
    Erases (framesBits frames ++ r) (rebuild m frames) (release m' frames) := by
  induction frames generalizing r m m' with
  | nil => exact herase
  | cons f frames ih =>
    rw [release]
    split
    · rename_i hzero
      have hnone := get_eq_none_of_items (hempty (by simp) hzero)
      have hstep : Erases (byteBits f.childId ++ r) (f.parent.setNextNode f.childId m)
          { f.parent.deleteBranch f.childId with
            branchNum := (f.parent.deleteBranch f.childId).branchNum - 1 } := by
        intro q
        rw [get_branchNum]
        exact herase.deleteBranch hnone f q
      rw [setNextNode_eq_self hlink.1] at hstep
      rw [rebuild, setNextNode_eq_self hlink.1, framesBits, List.append_assoc]
      refine ih hstep hlink.2 (fun hne hz => ?_) fun n hn => hcount n ?_
      · -- the parent read one item, the branch just unlinked
        have hmem : f.parent ∈ ((f :: frames).map Frame.parent).dropLast := by
          obtain ⟨g, gs, rfl⟩ := List.exists_cons_of_ne_nil hne
          simp
        refine (hcount _ hmem).items_eq_empty (x := Sum.inl f.childId) (by simp [Node.items, hlink.1])
          (items_deleteBranch _ _ _) ?_
        have hb : f.parent.branchNum = 1 := by
          have : f.parent.branchNum - 1 = 0 := hz.2
          grind
        have hp : f.parent.prefNum = 0 := hz.1
        rw [hb, hp]; rfl
      · obtain _ | ⟨g, gs⟩ := frames
        · simp at hn
        · exact List.mem_cons_of_mem _ hn
    · have := herase.rebuild (f :: frames)
      exact this

/-- What a descent finds: linked frames that end at the root, and the
string it followed. -/
theorem descend_spec {n : Node} {frames : List Frame} {pfx : List UInt8} {len : ℕ} {d : Descent}
    {root : Node} (hle : len ≤ 8 * pfx.length) (hlink : Linked n frames)
    (hlast : (n :: frames.map Frame.parent).getLast? = some root)
    (h : descend n frames pfx len = some d) :
    Linked d.node d.frames ∧ (d.node :: d.frames.map Frame.parent).getLast? = some root ∧
      d.prefixLength < 8 ∧ d.prefixLength ≤ 8 * d.pfx.length ∧
      framesBits d.frames ++ (bytesBits d.pfx).take d.prefixLength =
        framesBits frames ++ (bytesBits pfx).take len := by
  induction pfx generalizing n frames len with
  | nil =>
    obtain rfl : len = 0 := by simpa using hle
    cases h
    exact ⟨hlink, hlast, by simp, by simp, rfl⟩
  | cons byte pfx ih =>
    rw [descend] at h
    by_cases h8 : 8 ≤ len
    · rw [if_pos h8] at h
      split at h
      · rename_i node hnode
        have hlink' : Linked node (⟨n, byte⟩ :: frames) := ⟨hnode, hlink⟩
        obtain ⟨h1, h2, h3, h4, h5⟩ := ih (by simp at hle; omega) hlink' (by simpa using hlast) h
        refine ⟨h1, h2, h3, h4, h5.trans ?_⟩
        rw [framesBits, take_bytesBits_cons_of_ge h8, List.append_assoc]
      · cases h
    · rw [if_neg h8] at h
      cases h
      exact ⟨hlink, hlast, by simpa using h8, hle, rfl⟩

/-- A descent that falls off the tree was after a string with no value. -/
theorem get_eq_none_of_descend {n : Node} {frames : List Frame} {pfx : List UInt8} {len : ℕ}
    (hle : len ≤ 8 * pfx.length) (h : descend n frames pfx len = none) :
    n.get ((bytesBits pfx).take len) = none := by
  induction pfx generalizing n frames len with
  | nil => cases h
  | cons byte pfx ih =>
    rw [descend] at h
    by_cases h8 : 8 ≤ len
    · rw [if_pos h8] at h
      rw [take_bytesBits_cons_of_ge h8, Node.get_append]
      split at h
      · rename_i node hnode
        rw [show n.branches byte = some node from hnode]
        exact ih (by simp at hle; omega) h
      · rename_i hnode
        rw [show n.branches byte = none from hnode]
        rfl
    · rw [if_neg h8] at h
      cases h

/-- **A deletion that passes only counted nodes removes its prefix and
nothing else.** -/
theorem get_delete {t : Trie} {pfx : List UInt8} {len : ℕ} (hrel : t.releaseMemory = true)
    (hle : len ≤ 8 * pfx.length) (hcount : ∀ n ∈ t.pathBelowRoot pfx len, n.Counted)
    (q : List Bool) :
    (t.delete pfx len).1.root.get q =
      if q = (bytesBits pfx).take len then none else t.root.get q := by
  have habsent : t.root.get ((bytesBits pfx).take len) = none →
      t.root.get q = if q = (bytesBits pfx).take len then none else t.root.get q := by
    intro h
    split
    · rename_i hq
      rw [hq, h]
    · rfl
  cases hd : descend t.root [] pfx len with
  | none =>
    have hdel : t.delete pfx len = (t, false) := by simp [Trie.delete, hd]
    rw [hdel]
    exact habsent (get_eq_none_of_descend hle hd)
  | some d =>
    have hstart : (t.root :: ([] : List Frame).map Frame.parent).getLast? = some t.root := rfl
    obtain ⟨hlink, hlast, hlt, hdle, hbits⟩ :=
      descend_spec hle (show Linked t.root [] from trivial) hstart hd
    rw [framesBits, List.nil_append] at hbits
    have hroot := rebuild_eq_root hlink hlast
    set r := (bytesBits d.pfx).take d.prefixLength with hr
    have hkey : lastKey d.pfx d.prefixLength = prefixKey r := lastKey_eq hlt hdle
    have hr8 : r.length < 8 := by rw [hr]; simp; omega
    cases hp : d.node.prefixes (prefixKey r) with
    | none =>
      have hdel : t.delete pfx len = (t, false) := by
        simp [Trie.delete, hd, hkey, Node.getPrefixPtr, hp]
      rw [hdel]
      exact habsent (by rw [← hbits, ← hroot, get_rebuild, Node.get_of_lt _ hr8, hp])
    | some v =>
      have hdel : (t.delete pfx len).1.root = release (d.node.unstore (prefixKey r)) d.frames := by
        simp [Trie.delete, hd, hkey, Node.getPrefixPtr, hp, hrel]
      simp only [Trie.pathBelowRoot, hd] at hcount
      rw [hdel, ← hbits, ← hroot]
      refine erases_release (erases_unstore hr8) hlink (fun hne hz => ?_) (fun n hn => ?_) q
      · -- the node read one item, the prefix just removed
        refine (hcount d.node ?_).items_eq_empty (x := Sum.inr (prefixKey r))
          (by simp [Node.items, hp]) (items_unstore _ _) ?_
        · obtain ⟨f, fs, hfs⟩ := List.exists_cons_of_ne_nil hne
          simp [hfs]
        · have hone : d.node.prefNum = 1 := by
            have : d.node.prefNum - 1 = 0 := hz.1
            grind
          have hb : d.node.branchNum = 0 := hz.2
          rw [hb, hone]; rfl
      · refine hcount n ?_
        cases hf : d.frames with
        | nil => simp [hf] at hn
        | cons f fs =>
          rw [hf] at hn
          rw [List.map_cons]
          exact List.mem_cons_of_mem _ hn

/-! ## Runs -/

@[simp] theorem run_nil (t : Trie) : t.run [] = t := rfl

@[simp] theorem run_cons (t : Trie) (op : Op) (ops : List Op) :
    t.run (op :: ops) = (t.apply op).run ops := rfl

theorem run_append (t : Trie) (ops ops' : List Op) : t.run (ops ++ ops') = (t.run ops).run ops' :=
  List.foldl_append

theorem apply_delete (t : Trie) (pfx : List UInt8) (len : ℕ) :
    t.apply (.delete pfx len) = (t.delete pfx len).1 := rfl

theorem apply_releaseMemory (t : Trie) (op : Op) :
    (t.apply op).releaseMemory = t.releaseMemory := by
  cases op with
  | insert pfx len value => rfl
  | delete pfx len =>
    simp only [Trie.apply, Trie.delete]
    repeat' split
    all_goals rfl

theorem apply_keyWidthBytes (t : Trie) (op : Op) :
    (t.apply op).keyWidthBytes = t.keyWidthBytes := by
  cases op with
  | insert pfx len value => rfl
  | delete pfx len =>
    simp only [Trie.apply, Trie.delete]
    repeat' split
    all_goals rfl

/-- **One admitted call updates the contents at its bit string.** -/
theorem get_apply {t : Trie} {w : ℕ} {op : Op} (hrel : t.releaseMemory = true) (hfit : op.Fits w)
    (hadm : t.Admits op) : (t.apply op).root.get = Function.update t.root.get op.key op.result := by
  funext q
  rw [Function.update_apply]
  cases op with
  | insert pfx len value =>
    obtain ⟨rfl, hle⟩ := hfit
    exact get_insert hle value t.root q
  | delete pfx len =>
    obtain ⟨rfl, hle⟩ := hfit
    exact get_delete hrel hle hadm q

/-- An admitted run updates the contents call by call. -/
theorem get_run {t : Trie} {w : ℕ} {ops : List Op} (hrel : t.releaseMemory = true)
    (hfit : ∀ op ∈ ops, op.Fits w) (hadm : t.AdmitsRun ops) :
    (t.run ops).root.get =
      ops.foldl (fun m op => Function.update m op.key op.result) t.root.get := by
  induction ops generalizing t with
  | nil => rfl
  | cons op ops ih =>
    rw [List.foldl_cons, ← get_apply hrel (hfit op (by simp)) hadm.1]
    exact ih (by rw [apply_releaseMemory, hrel]) (fun o ho => hfit o (by simp [ho])) hadm.2

theorem run_releaseMemory (t : Trie) (ops : List Op) :
    (t.run ops).releaseMemory = t.releaseMemory := by
  induction ops generalizing t with
  | nil => rfl
  | cons op ops ih => exact (ih (t.apply op)).trans (apply_releaseMemory t op)

theorem run_keyWidthBytes (t : Trie) (ops : List Op) :
    (t.run ops).keyWidthBytes = t.keyWidthBytes := by
  induction ops generalizing t with
  | nil => rfl
  | cons op ops ih => exact (ih (t.apply op)).trans (apply_keyWidthBytes t op)

/-- **Lookup after a run answers the longest stored prefix.** On a trie
built to release memory, after any run of calls of its key width whose
deletions pass only counted nodes, a lookup returns the value last
inserted for the longest prefix still stored that covers the key, and
misses exactly when none does. -/
theorem lookup_run_eq_longest {w : ℕ} {ops : List Op} (hfit : ∀ op ∈ ops, op.Fits w)
    (hadm : (create w true).AdmitsRun ops) {key : List UInt8} (hkey : key.length = w) :
    (∀ v, ((create w true).run ops).lookup key = some v ↔
      ∃ p, IsLongest (stored ops) (bytesBits key) p ∧ stored ops p = some v) ∧
    (((create w true).run ops).lookup key = none ↔
      ∀ p, p <+: bytesBits key → stored ops p = none) := by
  have hget : ((create w true).run ops).root.get = stored ops := by
    rw [get_run rfl hfit hadm, stored]
    congr 1
    funext q
    exact get_allocateNode q
  have hlookup : ((create w true).run ops).lookup key =
      longestMatch (stored ops) (bytesBits key) := by
    rw [Trie.lookup, run_keyWidthBytes, lookup_eq_longestMatch, hget, Option.or_none]
    rw [show key.take (create w true).keyWidthBytes = key from
      List.take_of_length_le (le_of_eq hkey)]
  rw [hlookup]
  exact ⟨fun v => longestMatch_eq_some_iff, longestMatch_eq_none_iff⟩

/-- A default prefix, a longer one that is deleted again, and a third. -/
def shortRun : List Op := [.insert [0] 0 5, .insert [128] 8 6, .delete [128] 8, .insert [128] 1 7]

/-- The run's deletion passes one node, which reads and holds one prefix. -/
theorem shortRun_admitted : (create 1 true).AdmitsRun shortRun := by
  refine ⟨trivial, trivial, ?_, trivial, trivial⟩
  intro n hn hread
  obtain rfl : n = allocateNode.store 0 6 := by
    simpa [Trie.pathBelowRoot, descend, Trie.apply, Trie.insert, create, Node.insert, lastKey,
      Node.getNextNode, Node.setNextNode, Node.store, Node.insertPrefix, allocateNode] using hn
  rintro (a | k) ha (b | l) hb
  all_goals
    simp only [Node.items, Node.store, Node.insertPrefix, allocateNode, Set.mem_ofPred_eq] at ha hb
    simp [Function.update_apply] at ha hb
  rw [ha, hb]

theorem shortRun_lookup :
    (create 1 true).AdmitsRun shortRun ∧
      ∀ v, ((create 1 true).run shortRun).lookup [129] = some v ↔
        ∃ p, IsLongest (stored shortRun) (bytesBits [129]) p ∧ stored shortRun p = some v :=
  ⟨shortRun_admitted, (lookup_run_eq_longest (by simp [shortRun, Op.Fits]) shortRun_admitted
    (show [129].length = 1 from rfl)).1⟩

/-! ## A full node reads as an empty one -/

/-- Linking fresh children counts each of them, modulo 256. -/
theorem foldl_insert_counters {l : List UInt8} (hnd : l.Nodup) {n : Node}
    (hfresh : ∀ b ∈ l, n.branches b = none) (v : ℕ) :
    let n' := l.foldl (fun n b => n.insert [b] 8 v) n
    n'.branchNum = n.branchNum + UInt8.ofNat l.length ∧ n'.prefNum = n.prefNum ∧
      n'.prefixes = n.prefixes := by
  induction l generalizing n with
  | nil => simp
  | cons b l ih =>
    obtain ⟨hb, hl⟩ := List.nodup_cons.mp hnd
    have hstep : n.insert [b] 8 v = { n.setNextNode b (allocateNode.insert [] 0 v) with
        branchNum := n.branchNum + 1 } := by
      simp [Node.insert, Node.getNextNode, hfresh b (by simp), Node.setNextNode]
    obtain ⟨h1, h2, h3⟩ := ih hl (n := n.insert [b] 8 v) fun c hc => by
      rw [hstep]
      have hcb : c ≠ b := fun h => hb (h ▸ hc)
      simpa [Node.setNextNode, hcb] using hfresh c (by simp [hc])
    refine ⟨?_, h2.trans (by rw [hstep]; rfl), h3.trans (by rw [hstep]; rfl)⟩
    rw [List.foldl_cons, h1, hstep, List.length_cons]
    simp only [UInt8.ofNat_add, UInt8.ofNat_one]
    ac_rfl

/-- The bytes, each once. -/
def allBytes : List UInt8 := (List.range 256).map UInt8.ofNat

theorem allBytes_nodup : allBytes.Nodup := by
  refine List.Nodup.map_on (fun a ha b hb h => ?_) List.nodup_range
  rw [List.mem_range] at ha hb
  have := congrArg UInt8.toNat h
  rwa [UInt8.toNat_ofNat_of_lt' ha, UInt8.toNat_ofNat_of_lt' hb] at this

/-- Under byte `1`, a prefix of that byte alone and one for each of the
256 continuations; then the first is deleted. -/
def fanOut : List Op :=
  .insert [1, 0] 8 7 :: (allBytes.map fun b => Op.insert [1, b] 16 8) ++ [.delete [1, 0] 8]

theorem fanOut_fits : ∀ op ∈ fanOut, op.Fits 2 := by
  intro op hop
  simp only [fanOut, List.cons_append, List.mem_cons, List.mem_append, List.mem_map,
    List.not_mem_nil, or_false] at hop
  rcases hop with rfl | ⟨b, -, rfl⟩ | rfl <;> exact ⟨rfl, by norm_num⟩

/-- Inserting below a linked child inserts into the child. -/
theorem run_insert_below {t : Trie} {n : Node} {b : UInt8} (hn : t.root.branches b = some n)
    (l : List UInt8) (v : ℕ) :
    (t.run (l.map fun c => Op.insert [b, c] 16 v)).root =
      t.root.setNextNode b (l.foldl (fun n c => n.insert [c] 8 v) n) := by
  induction l generalizing t n with
  | nil => exact (setNextNode_eq_self hn).symm
  | cons c l ih =>
    have hroot : (t.apply (.insert [b, c] 16 v)).root = t.root.setNextNode b (n.insert [c] 8 v) := by
      simp [Trie.apply, Trie.insert, Node.insert, Node.getNextNode, hn]
    have hn' : (t.apply (.insert [b, c] 16 v)).root.branches b = some (n.insert [c] 8 v) := by
      simp [hroot, Node.setNextNode]
    rw [List.map_cons, List.foldl_cons]
    refine (ih hn').trans ?_
    rw [hroot]
    simp [Node.setNextNode]

/-- **A child that reads as holding one prefix is freed with it**,
whatever it holds. -/
theorem root_delete_of_reads_one {t : Trie} {n : Node} {b : UInt8} {v : ℕ}
    (hrel : t.releaseMemory = true) (hn : t.root.branches b = some n) (hb : n.branchNum = 0)
    (hp : n.prefNum = 1) (hv : n.prefixes 0 = some v) :
    (t.delete [b, 0] 8).1.root = { t.root.deleteBranch b with branchNum := t.root.branchNum - 1 } := by
  simp [Trie.delete, descend, Node.getNextNode, hn, lastKey, Node.getPrefixPtr, hv, hrel, release,
    Node.unstore, Node.deletePrefix, hp, hb, Node.deleteBranch]

/-- The node under byte `1` once everything is inserted: full, and read
as holding its one prefix. -/
def fullNode : Node := allBytes.foldl (fun n c => n.insert [c] 8 8) (allocateNode.store 0 7)

theorem fullNode_reads_one :
    fullNode.branchNum = 0 ∧ fullNode.prefNum = 1 ∧ fullNode.prefixes 0 = some 7 := by
  obtain ⟨h1, h2, h3⟩ := foldl_insert_counters allBytes_nodup (n := allocateNode.store 0 7)
    (fun b _ => by simp [Node.store, Node.insertPrefix, allocateNode]) 8
  rw [fullNode, h1, h2, h3]
  simp [Node.store, Node.insertPrefix, allocateNode, allBytes]

theorem fanOut_root :
    ((create 2 true).run fanOut).root =
      { (allocateNode.setNextNode 1 fullNode).deleteBranch 1 with branchNum := 0 } := by
  have hroot : ((create 2 true).apply (.insert [1, 0] 8 7)).root =
      { allocateNode.setNextNode 1 (allocateNode.store 0 7) with branchNum := 1 } := rfl
  have hfull := run_insert_below (t := (create 2 true).apply (.insert [1, 0] 8 7))
    (n := allocateNode.store 0 7) (b := 1) (by rw [hroot]; rfl) allBytes 8
  obtain ⟨h1, h2, h3⟩ := fullNode_reads_one
  rw [fanOut, List.cons_append, run_cons, run_append, run_cons, run_nil, apply_delete,
    root_delete_of_reads_one (n := fullNode) _ _ h1 h2 h3, hfull, hroot]
  · simp [Node.setNextNode, Node.deleteBranch]
  · rw [run_releaseMemory, apply_releaseMemory]; rfl
  · rw [hfull]
    simp [Node.setNextNode, fullNode]

/-- **Lookup can miss a stored prefix**: the 256 branches of the node
under byte `1` count as none, so deleting its one prefix frees it, and
the 256 prefixes below are lost. -/
theorem fanOut_lookup_misses :
    (∀ op ∈ fanOut, op.Fits 2) ∧ stored fanOut (bytesBits [1, 255]) = some 8 ∧
      ((create 2 true).run fanOut).lookup [1, 255] = none := by
  refine ⟨fanOut_fits, by decide +kernel, ?_⟩
  rw [Trie.lookup, run_keyWidthBytes, fanOut_root]
  simp [create, Node.lookup, Node.scanPrefixes, Node.getPrefixPtr, Node.getNextNode,
    Node.deleteBranch, Node.setNextNode, allocateNode]

end LpmTrie

end P4Bricks
