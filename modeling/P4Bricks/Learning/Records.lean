import P4Bricks.Learning.Model
import Mathlib.Data.List.Nodup
import Mathlib.Data.List.Perm.Basic
/-!
# What is recorded of the samples

The filter holds the samples that were accepted and not acknowledged, and the
records of the buffers hold the same samples, each in one of them, with the
number of those that are left. That is so after every acknowledgement that has a
meaning (`Recorded.run`).

Not all do. An index that was acknowledged before, or twice in one call, names a
node that is gone, and `ack` erases it again and counts it again; the source
asks what happens on such input and leaves it there. `ack_isSome_iff` and
`ackBuffer_isSome_iff` say which acknowledgements are good.
-/

namespace P4Bricks

namespace Learning

/-! ## What the steps do -/

namespace LearnList

variable {s s' : LearnList} {e : Option Event}

theorem addSample_cases (s : LearnList) (phv : FieldBytes) (now : ℕ) :
    s.addSample phv now = (s, none) ∨
      (s.builder.sample phv ∉ s.filter.map Prod.snd ∧ s.addSample phv now =
        ((s.insert (s.builder.sample phv)).afterInsert now,
          some (.accepted (s.builder.sample phv)))) := by
  unfold addSample
  simp only
  split_ifs with hx
  · exact .inl rfl
  · exact .inr ⟨hx, rfl⟩

theorem setMaxSamples_cases (s : LearnList) (nbSamples : ℕ) :
    s.setMaxSamples nbSamples = { s with maxSamples := nbSamples } ∨
      (0 < s.numSamples ∧ nbSamples ≤ s.numSamples ∧
        s.setMaxSamples nbSamples = { s with maxSamples := nbSamples }.processFullBuffer) := by
  unfold setMaxSamples
  simp only
  split_ifs with hfull
  · exact .inr ⟨hfull.1, hfull.2, rfl⟩
  · exact .inl rfl

theorem resume_eq_some (h : s.resume = some s') :
    s.bufferTmp = [] ∧ s' = { s.swapBuffers with waiting := s.waiting - 1 } := by
  unfold resume at h
  split_ifs at h with hw
  exact ⟨List.length_eq_zero_iff.mp hw.2, (Option.some.inj h).symm⟩

theorem beginTransmit_eq_some {now : ℕ} (h : s.beginTransmit now = some s') :
    s.transmit = .idle ∧
      ((s.bufferTmp = [] ∧ 0 < s.numSamples ∧
        s' = { s.swapBuffers with transmit := .sending s.numSamples }) ∨
      (s.bufferTmp ≠ [] ∧ s' = { s with transmit := .sending s.numSamplesTmp })) := by
  unfold beginTransmit at h
  split_ifs at h with hwait hempty
  · obtain ⟨hidle, hdue⟩ := not_or.mp hwait
    obtain ⟨-, hnum, -⟩ : _ ∧ ¬ s.numSamples = 0 ∧ _ := by
      have := not_and.mp hdue hempty
      rwa [not_or, not_or] at this
    exact ⟨not_not.mp hidle, .inl ⟨List.length_eq_zero_iff.mp hempty, Nat.pos_of_ne_zero hnum,
      (Option.some.inj h).symm⟩⟩
  · exact ⟨not_not.mp (not_or.mp hwait).1, .inr ⟨fun hnil => hempty (hnil ▸ rfl),
      (Option.some.inj h).symm⟩⟩

theorem readBufferId_eq_some (h : s.readBufferId = some s') :
    ∃ n, s.transmit = .sending n ∧
      s' = { s with transmit := .headed n ((s.bufferId + 2 ^ 64 - 1) % 2 ^ 64) } := by
  unfold readBufferId at h
  split at h
  · next n hn => exact ⟨n, hn, (Option.some.inj h).symm⟩
  · cases h

theorem send_eq_some (h : s.send = some (s', e)) :
    ∃ n b, s.transmit = .headed n b ∧ s' = { s with transmit := .sent } ∧
      e = if s.learnMode = .none then none else
        some (.sent ⟨⟨s.deviceId, s.cxtId, s.listId, b, n % 2 ^ 32⟩, s.payload⟩) := by
  unfold send at h
  split at h
  · next n b hb =>
    obtain ⟨rfl, rfl⟩ := Prod.mk.inj (Option.some.inj h)
    exact ⟨n, b, hb, rfl, rfl⟩
  · cases h

theorem endTransmit_eq_some (h : s.endTransmit = some s') :
    s.transmit = .sent ∧ s' = { s with bufferTmp := [], transmit := .idle } := by
  unfold endTransmit at h
  split_ifs at h with hsent
  exact ⟨hsent, (Option.some.inj h).symm⟩

end LearnList

/-! ## The records -/

/-- Names without some of them. -/
theorem length_filter_notMem_add {ns l : List ℕ} (hl : l.Nodup) (hns : ns.Nodup)
    (hsub : ∀ n ∈ ns, n ∈ l) : (l.filter (· ∉ ns)).length + ns.length = l.length := by
  have hperm : (l.filter (· ∈ ns)).Perm ns := by
    refine (List.perm_ext_iff_of_nodup (hl.filter _) hns).mpr fun n => ?_
    simp only [List.mem_filter, decide_eq_true_eq]
    exact ⟨fun h => h.2, fun h => ⟨hsub n h, h⟩⟩
  have hsplit := List.length_eq_length_filter_add (l := l) fun n => decide (n ∈ ns)
  rw [hperm.length_eq] at hsplit
  have hnot : (l.filter fun n => !decide (n ∈ ns)) = l.filter (· ∉ ns) := by simp
  rw [hnot] at hsplit
  omega

/-- A record of a buffer: its nodes, all of them of samples, and how many of them
are not acknowledged. A record without any is dropped. -/
structure Counts (log : Log) (ptrs : FilterPtrs) : Prop where
  nodup : ptrs.buffer.Nodup
  lt : ∀ n ∈ ptrs.buffer, n < log.accepted.length
  count : ptrs.unackedCount = (ptrs.buffer.filter (· ∉ log.removed)).length
  pos : 0 < ptrs.unackedCount

/-- **The filter and the records.** -/
structure Recorded (s : LearnList) (log : Log) : Prop where
  allocated : s.allocated = log.accepted.length
  removed_nodup : log.removed.Nodup
  removed_lt : ∀ n ∈ log.removed, n < log.accepted.length
  mem_filter : ∀ n x, (n, x) ∈ s.filter ↔ log.accepted[n]? = some x ∧ n ∉ log.removed
  nodes_nodup : (s.filter.map Prod.fst).Nodup
  samples_nodup : (s.filter.map Prod.snd).Nodup
  counts : ∀ b ptrs, s.oldBuffers b = some ptrs → Counts log ptrs
  disjoint : ∀ b b' ptrs ptrs' n, s.oldBuffers b = some ptrs → s.oldBuffers b' = some ptrs' →
    n ∈ ptrs.buffer → n ∈ ptrs'.buffer → b = b'
  covered : ∀ n < log.accepted.length, n ∉ log.removed →
    ∃ b ptrs, s.oldBuffers b = some ptrs ∧ n ∈ ptrs.buffer

namespace Recorded

variable {s s' : LearnList} {log : Log}

theorem create (listId deviceId cxtId : ℤ) (builder : LearnSampleBuilder) (mode : LearnMode)
    (maxSamples timeoutMs : ℕ) :
    Recorded (.create listId deviceId cxtId builder mode maxSamples timeoutMs) {} where
  allocated := rfl
  removed_nodup := List.nodup_nil
  removed_lt n hn := absurd hn List.not_mem_nil
  mem_filter n x := by simp [LearnList.create]
  nodes_nodup := List.nodup_nil
  samples_nodup := List.nodup_nil
  counts b ptrs hb := by cases hb
  disjoint b b' ptrs ptrs' n hb := by cases hb
  covered n hn := absurd hn (Nat.not_lt_zero n)

/-- Only the filter, the records and the number of nodes matter. -/
theorem congr (h : Recorded s log) (hf : s'.filter = s.filter) (ho : s'.oldBuffers = s.oldBuffers)
    (ha : s'.allocated = s.allocated) : Recorded s' log := by
  obtain ⟨h1, h2, h3, h4, h5, h6, h7, h8, h9⟩ := h
  rw [← hf] at h4 h5 h6
  rw [← ho] at h7 h8 h9
  exact ⟨ha.trans h1, h2, h3, h4, h5, h6, h7, h8, h9⟩

/-- Messages do not matter. -/
theorem withSent (h : Recorded s log) (sent : List Message) :
    Recorded s { log with sent := sent } := by
  refine ⟨h.allocated, h.removed_nodup, h.removed_lt, h.mem_filter, h.nodes_nodup,
    h.samples_nodup, fun b ptrs hb => ?_, h.disjoint, h.covered⟩
  have hc := h.counts b ptrs hb
  exact ⟨hc.nodup, hc.lt, hc.count, hc.pos⟩

theorem mem_nodes_iff (h : Recorded s log) {n : ℕ} :
    n ∈ s.filter.map Prod.fst ↔ n < log.accepted.length ∧ n ∉ log.removed := by
  constructor
  · intro hn
    obtain ⟨⟨m, x⟩, hmem, rfl⟩ := List.mem_map.mp hn
    obtain ⟨hx, hr⟩ := (h.mem_filter m x).mp hmem
    exact ⟨(List.getElem?_eq_some_iff.mp hx).1, hr⟩
  · rintro ⟨hn, hr⟩
    have hmem := (h.mem_filter n _).mpr ⟨List.getElem?_eq_getElem hn, hr⟩
    exact List.mem_map.mpr ⟨_, hmem, rfl⟩

/-- What is left of a buffer is what of it is in the filter. -/
theorem count_eq (h : Recorded s log) {b : ℕ} {ptrs : FilterPtrs}
    (hb : s.oldBuffers b = some ptrs) :
    ptrs.unackedCount = (ptrs.buffer.filter (· ∈ s.filter.map Prod.fst)).length := by
  have hc := h.counts b ptrs hb
  rw [hc.count]
  congr 1
  refine List.filter_congr fun n hn => ?_
  have := hc.lt n hn
  simp only [h.mem_nodes_iff, this, true_and]

/-! ## A new sample -/

theorem notMem_removed (h : Recorded s log) : log.accepted.length ∉ log.removed :=
  fun hn => lt_irrefl _ (h.removed_lt _ hn)

theorem lt_allocated (h : Recorded s log) {b n : ℕ} {ptrs : FilterPtrs}
    (hb : s.oldBuffers b = some ptrs) (hn : n ∈ ptrs.buffer) : n < s.allocated := by
  rw [h.allocated]
  exact (h.counts b ptrs hb).lt n hn

/-- The record of the buffer that a sample goes to. -/
theorem counts_push (h : Recorded s log) (x : ByteContainer) :
    Counts { log with accepted := log.accepted ++ [x] }
      (FilterPtrs.push (s.oldBuffers s.bufferId) s.allocated) := by
  have hnew := h.notMem_removed
  cases hb : s.oldBuffers s.bufferId with
  | none =>
    refine ⟨List.nodup_singleton _, fun n hn => ?_, ?_, Nat.one_pos⟩
    · obtain rfl := List.mem_singleton.mp hn
      simp [h.allocated]
    · simp [FilterPtrs.push, h.allocated, hnew]
  | some ptrs =>
    have hc := h.counts _ ptrs hb
    refine ⟨?_, fun n hn => ?_, ?_, Nat.succ_pos _⟩
    · refine List.nodup_append.mpr ⟨hc.nodup, List.nodup_singleton _, ?_⟩
      intro n hn m hm
      obtain rfl := List.mem_singleton.mp hm
      have := h.lt_allocated hb hn
      omega
    · rw [List.length_append, List.length_singleton]
      rcases List.mem_append.mp hn with hn | hn
      · have := hc.lt n hn
        omega
      · obtain rfl := List.mem_singleton.mp hn
        rw [h.allocated]
        omega
    · have hc' := hc.count
      simp only [FilterPtrs.push, Option.getD_some, List.filter_append, List.length_append, hc']
      simp [h.allocated, hnew]

/-- The nodes of the records are the new one and those that were there. -/
theorem insert_buffer_cases {x : ByteContainer} {b n : ℕ} {ptrs : FilterPtrs}
    (hb : (s.insert x).oldBuffers b = some ptrs) (hn : n ∈ ptrs.buffer) :
    (n = s.allocated ∧ b = s.bufferId) ∨ ∃ old, s.oldBuffers b = some old ∧ n ∈ old.buffer := by
  simp only [LearnList.insert] at hb
  by_cases hbb : b = s.bufferId
  · subst hbb
    rw [Function.update_self] at hb
    obtain rfl := Option.some.inj hb
    rcases List.mem_append.mp hn with hn | hn
    · cases hold : s.oldBuffers s.bufferId with
      | none =>
        rw [hold] at hn
        exact absurd hn List.not_mem_nil
      | some old =>
        rw [hold] at hn
        exact .inr ⟨old, rfl, hn⟩
    · exact .inl ⟨List.mem_singleton.mp hn, rfl⟩
  · rw [Function.update_of_ne hbb] at hb
    exact .inr ⟨ptrs, hb, hn⟩

/-- No node leaves a record. -/
theorem exists_insert_buffer {x : ByteContainer} {b n : ℕ} {ptrs : FilterPtrs}
    (hb : s.oldBuffers b = some ptrs) (hn : n ∈ ptrs.buffer) :
    ∃ new, (s.insert x).oldBuffers b = some new ∧ n ∈ new.buffer := by
  simp only [LearnList.insert]
  by_cases hbb : b = s.bufferId
  · subst hbb
    refine ⟨_, Function.update_self .., ?_⟩
    rw [hb]
    exact List.mem_append_left _ hn
  · exact ⟨ptrs, by rwa [Function.update_of_ne hbb], hn⟩

theorem mem_filter_insert (h : Recorded s log) (x y : ByteContainer) (n : ℕ) :
    (n, y) ∈ (s.insert x).filter ↔ (log.accepted ++ [x])[n]? = some y ∧ n ∉ log.removed := by
  have hnew := h.notMem_removed
  simp only [LearnList.insert, List.mem_append, List.mem_singleton, Prod.mk.injEq, h.mem_filter,
    h.allocated]
  rcases lt_trichotomy n log.accepted.length with hn | rfl | hn
  · have : n ≠ log.accepted.length := by omega
    rw [List.getElem?_append_left hn]
    simp [this]
  · simp [hnew, eq_comm]
  · have hold : log.accepted[n]? = none := List.getElem?_eq_none (by omega)
    have hlast : (log.accepted ++ [x])[n]? = none := by
      refine List.getElem?_eq_none ?_
      rw [List.length_append, List.length_singleton]
      omega
    have : n ≠ log.accepted.length := by omega
    simp [hold, hlast, this]

theorem insert (h : Recorded s log) {x : ByteContainer} (hx : x ∉ s.filter.map Prod.snd) :
    Recorded (s.insert x) { log with accepted := log.accepted ++ [x] } := by
  have hlen : (log.accepted ++ [x]).length = log.accepted.length + 1 := by simp
  refine ⟨?_, h.removed_nodup, fun n hn => ?_, fun n y => h.mem_filter_insert x y n, ?_, ?_,
    fun b ptrs hb => ?_, ?_, ?_⟩
  · simp only [LearnList.insert, hlen, h.allocated]
  · have := h.removed_lt n hn
    simp only [hlen]
    omega
  · simp only [LearnList.insert, List.map_append, List.map_singleton]
    refine List.nodup_append.mpr ⟨h.nodes_nodup, List.nodup_singleton _, ?_⟩
    intro n hn m hm
    obtain rfl := List.mem_singleton.mp hm
    have := (h.mem_nodes_iff.mp hn).1
    rw [h.allocated]
    omega
  · simp only [LearnList.insert, List.map_append, List.map_singleton]
    refine List.nodup_append.mpr ⟨h.samples_nodup, List.nodup_singleton _, ?_⟩
    rintro y hy z hz rfl
    obtain rfl := List.mem_singleton.mp hz
    exact hx hy
  · -- Only the current buffer grows, by the node just allocated.
    by_cases hbb : b = s.bufferId
    · subst hbb
      simp only [LearnList.insert, Function.update_self] at hb
      obtain rfl := Option.some.inj hb
      exact h.counts_push x
    · simp only [LearnList.insert, Function.update_of_ne hbb] at hb
      have hc := h.counts b ptrs hb
      refine ⟨hc.nodup, fun n hn => ?_, hc.count, hc.pos⟩
      have := hc.lt n hn
      simp only [hlen]
      omega
  · -- The new node is above all that the buffers held, so it is in no second buffer.
    intro b b' ptrs ptrs' n hb hb' hn hn'
    rcases insert_buffer_cases hb hn with ⟨rfl, rfl⟩ | ⟨old, hold, hn⟩
    · rcases insert_buffer_cases hb' hn' with ⟨_, rfl⟩ | ⟨old', hold', hn'⟩
      · rfl
      · exact absurd (h.lt_allocated hold' hn') (lt_irrefl _)
    · rcases insert_buffer_cases hb' hn' with ⟨rfl, _⟩ | ⟨old', hold', hn'⟩
      · exact absurd (h.lt_allocated hold hn) (lt_irrefl _)
      · exact h.disjoint b b' old old' n hold hold' hn hn'
  · intro n hn hr
    by_cases hlast : n = log.accepted.length
    · refine ⟨s.bufferId, _, Function.update_self .., ?_⟩
      rw [hlast, ← h.allocated]
      exact List.mem_append_right _ List.mem_cons_self
    · have hold : n < log.accepted.length := by
        rw [hlen] at hn
        omega
      obtain ⟨b, ptrs, hb, hmem⟩ := h.covered n hold hr
      obtain ⟨new, hnew, hmem'⟩ := exists_insert_buffer (x := x) hb hmem
      exact ⟨b, new, hnew, hmem'⟩

/-! ## Samples that are acknowledged -/

section Remove

variable {b : ℕ} {ptrs : FilterPtrs} {ns : List ℕ}

/-- Nodes of a buffer that are acknowledged, each for the first time. -/
structure Fresh (log : Log) (ptrs : FilterPtrs) (ns : List ℕ) : Prop where
  nodup : ns.Nodup
  mem : ∀ n ∈ ns, n ∈ ptrs.buffer
  notMem : ∀ n ∈ ns, n ∉ log.removed

/-- What is left of the buffer. -/
theorem Fresh.count (hf : Fresh log ptrs ns) (hc : Counts log ptrs) :
    (ptrs.buffer.filter (· ∉ log.removed ++ ns)).length = ptrs.unackedCount - ns.length := by
  have hsub : ∀ n ∈ ns, n ∈ ptrs.buffer.filter (· ∉ log.removed) := by
    intro n hn
    exact List.mem_filter.mpr ⟨hf.mem n hn, by simpa using hf.notMem n hn⟩
  have hlen := length_filter_notMem_add (hc.nodup.filter _) hf.nodup hsub
  rw [List.filter_filter, ← hc.count] at hlen
  have hcongr : (ptrs.buffer.filter fun n => decide (n ∉ ns) && decide (n ∉ log.removed)) =
      ptrs.buffer.filter (· ∉ log.removed ++ ns) := by
    refine List.filter_congr fun n _ => ?_
    simp [and_comm]
  rw [hcongr] at hlen
  omega

/-- **Acknowledged samples leave the filter and the record of their buffer.** -/
theorem remove (h : Recorded s log) (hb : s.oldBuffers b = some ptrs) (hf : Fresh log ptrs ns) :
    Recorded { s with
      filter := s.filter.filter fun x => x.1 ∉ ns
      oldBuffers := Function.update s.oldBuffers b (ptrs.drop ns.length) }
      { log with removed := log.removed ++ ns } := by
  have hc := h.counts b ptrs hb
  have hcount := hf.count hc
  -- Records there are after it were there before, with the same nodes.
  have hold : ∀ b' new, Function.update s.oldBuffers b (ptrs.drop ns.length) b' = some new →
      ∃ old, s.oldBuffers b' = some old ∧ new.buffer = old.buffer := by
    intro b' new hnew
    rcases eq_or_ne b' b with rfl | hne
    · rw [Function.update_self, FilterPtrs.drop] at hnew
      split_ifs at hnew
      obtain rfl := Option.some.inj hnew
      exact ⟨ptrs, hb, rfl⟩
    · rw [Function.update_of_ne hne] at hnew
      exact ⟨new, hnew, rfl⟩
  refine ⟨h.allocated, ?_, fun n hn => ?_, fun n x => ?_, ?_, ?_, fun b' new hnew => ?_, ?_, ?_⟩
  · refine List.nodup_append.mpr ⟨h.removed_nodup, hf.nodup, ?_⟩
    rintro n hn m hm rfl
    exact hf.notMem n hm hn
  · rcases List.mem_append.mp hn with hn | hn
    · exact h.removed_lt n hn
    · exact hc.lt n (hf.mem n hn)
  · simp only [List.mem_filter, h.mem_filter, List.mem_append, decide_eq_true_eq, not_or]
    exact and_assoc
  · exact h.nodes_nodup.sublist (List.filter_sublist.map _)
  · exact h.samples_nodup.sublist (List.filter_sublist.map _)
  · rcases eq_or_ne b' b with rfl | hne
    · simp only [Function.update_self, FilterPtrs.drop] at hnew
      split_ifs at hnew with hzero
      obtain rfl := Option.some.inj hnew
      exact ⟨hc.nodup, hc.lt, hcount.symm, Nat.pos_of_ne_zero hzero⟩
    · simp only [Function.update_of_ne hne] at hnew
      have hc' := h.counts b' new hnew
      refine ⟨hc'.nodup, hc'.lt, ?_, hc'.pos⟩
      rw [hc'.count]
      congr 1
      refine List.filter_congr fun n hn => ?_
      have hns : n ∉ ns := fun hm => hne (h.disjoint b' b new ptrs n hnew hb hn (hf.mem n hm))
      simp [hns]
  · intro b₁ b₂ p₁ p₂ n h₁ h₂ hn₁ hn₂
    obtain ⟨o₁, ho₁, e₁⟩ := hold b₁ p₁ h₁
    obtain ⟨o₂, ho₂, e₂⟩ := hold b₂ p₂ h₂
    exact h.disjoint b₁ b₂ o₁ o₂ n ho₁ ho₂ (e₁ ▸ hn₁) (e₂ ▸ hn₂)
  · intro n hn hr
    obtain ⟨hr, hns⟩ := not_or.mp (mt List.mem_append.mpr hr)
    obtain ⟨b', old, hb', hmem⟩ := h.covered n hn hr
    rcases eq_or_ne b' b with rfl | hne
    · obtain rfl : ptrs = old := Option.some.inj (hb.symm.trans hb')
      -- This node is left, so the record is not dropped.
      have hpos : 0 < ptrs.unackedCount - ns.length := by
        rw [← hcount]
        refine List.length_pos_of_mem (a := n) (List.mem_filter.mpr ⟨hmem, ?_⟩)
        simp [hr, hns]
      have hdrop : ptrs.drop ns.length =
          some { ptrs with unackedCount := ptrs.unackedCount - ns.length } :=
        if_neg (by omega)
      exact ⟨b', _, (Function.update_self ..).trans hdrop, hmem⟩
    · exact ⟨b', old, (Function.update_of_ne hne ..).trans hb', hmem⟩

end Remove

/-! ## `ack` -/

/-- The indices are in range, different, and of samples that are in the filter. -/
def AckOk (s : LearnList) (b : ℕ) (sampleIds : List ℤ) : Prop :=
  ∀ ptrs, s.oldBuffers b = some ptrs → sampleIds.Nodup ∧
    ∀ i ∈ sampleIds, ∃ node, ptrs.at? i = some node ∧ node ∈ s.filter.map Prod.fst

section Ack

variable {b : ℕ} {ptrs : FilterPtrs} {node : ℕ} {filter : List (ℕ × ByteContainer)}

theorem eraseNode_eq_some (he : LearnList.eraseNode s.filter node = some filter) :
    node ∈ s.filter.map Prod.fst ∧ filter = s.filter.filter fun x => x.1 ∉ [node] := by
  unfold LearnList.eraseNode at he
  split_ifs at he with hmem
  refine ⟨hmem, (Option.some.inj he).symm.trans (List.filter_congr fun x _ => ?_)⟩
  simp

theorem at?_eq_some {i : ℤ} (hi : ptrs.at? i = some node) :
    0 ≤ i ∧ ptrs.buffer[i.toNat]? = some node := by
  unfold FilterPtrs.at? at hi
  split_ifs at hi with h0
  exact ⟨h0, hi⟩

theorem mem_of_at? {i : ℤ} (hi : ptrs.at? i = some node) : node ∈ ptrs.buffer :=
  List.mem_of_getElem? (at?_eq_some hi).2

/-- Different indices are of different nodes. -/
theorem at?_inj (hnd : ptrs.buffer.Nodup) {i j : ℤ} (hi : ptrs.at? i = some node)
    (hj : ptrs.at? j = some node) : i = j := by
  obtain ⟨hi0, hi⟩ := at?_eq_some hi
  obtain ⟨hj0, hj⟩ := at?_eq_some hj
  obtain ⟨hilt, hi⟩ := List.getElem?_eq_some_iff.mp hi
  obtain ⟨hjlt, hj⟩ := List.getElem?_eq_some_iff.mp hj
  have := hnd.getElem_inj_iff.mp (hi.trans hj.symm)
  omega

/-- The state after one turn of the loop. -/
def turned (s : LearnList) (b : ℕ) (ptrs : FilterPtrs) (node : ℕ) : LearnList :=
  { s with
    filter := s.filter.filter fun x => x.1 ∉ [node]
    oldBuffers := Function.update s.oldBuffers b (ptrs.drop [node].length) }

theorem fresh_of_mem (h : Recorded s log) {i : ℤ} (hi : ptrs.at? i = some node)
    (hn : node ∈ s.filter.map Prod.fst) : Fresh log ptrs [node] := by
  refine ⟨List.nodup_singleton _, fun n hm => ?_, fun n hm => ?_⟩
  · obtain rfl := List.mem_singleton.mp hm
    exact mem_of_at? hi
  · obtain rfl := List.mem_singleton.mp hm
    exact (h.mem_nodes_iff.mp hn).2

/-- **One turn of the loop.** -/
theorem ackLoop_cons {i : ℤ} {is : List ℤ} {r : LearnList × List ℕ}
    (hr : LearnList.ackLoop b s (i :: is) = some r) :
    ∃ ptrs node ns, s.oldBuffers b = some ptrs ∧ ptrs.at? i = some node ∧
      node ∈ s.filter.map Prod.fst ∧
      LearnList.ackLoop b (turned s b ptrs node) is = some (r.1, ns) ∧ r.2 = node :: ns := by
  rw [LearnList.ackLoop] at hr
  split at hr
  · cases hr
  · next ptrs hb =>
    split at hr
    · cases hr
    · next node hi =>
      split at hr
      · cases hr
      · next filter he =>
        obtain ⟨hmem, rfl⟩ := eraseNode_eq_some he
        obtain ⟨⟨s', ns⟩, hloop, rfl⟩ := Option.map_eq_some_iff.mp hr
        exact ⟨ptrs, node, ns, hb, hi, hmem, hloop, rfl⟩

theorem ackLoop (h : Recorded s log) {is : List ℤ} {r : LearnList × List ℕ}
    (hr : LearnList.ackLoop b s is = some r) :
    Recorded r.1 { log with removed := log.removed ++ r.2 } := by
  induction is generalizing s log r with
  | nil =>
    obtain rfl := Option.some.inj hr
    simpa using h
  | cons i is ih =>
    obtain ⟨ptrs, node, ns, hb, hi, hmem, hloop, hns⟩ := ackLoop_cons hr
    have hnext := ih (h.remove hb (h.fresh_of_mem hi hmem)) hloop
    rw [hns]
    simpa using hnext

theorem ack (h : Recorded s log) {is : List ℤ} {r : LearnList × List ℕ}
    (hr : s.ack b is = some r) : Recorded r.1 { log with removed := log.removed ++ r.2 } := by
  unfold LearnList.ack at hr
  split at hr
  · obtain rfl := Option.some.inj hr
    simpa using h
  · exact h.ackLoop hr

/-- The nodes in the filter after a turn. -/
theorem mem_turned {n : ℕ} :
    n ∈ (turned s b ptrs node).filter.map Prod.fst ↔ n ∈ s.filter.map Prod.fst ∧ n ≠ node := by
  constructor
  · intro hn
    obtain ⟨x, hx, rfl⟩ := List.mem_map.mp hn
    obtain ⟨hx, hne⟩ := List.mem_filter.mp hx
    exact ⟨List.mem_map_of_mem hx, by simpa using hne⟩
  · rintro ⟨hn, hne⟩
    obtain ⟨x, hx, rfl⟩ := List.mem_map.mp hn
    exact List.mem_map_of_mem (List.mem_filter.mpr ⟨hx, by simpa using hne⟩)

theorem turned_at? {new : FilterPtrs} (hnew : (turned s b ptrs node).oldBuffers b = some new)
    (i : ℤ) : new.at? i = ptrs.at? i := by
  simp only [turned, Function.update_self, FilterPtrs.drop] at hnew
  split_ifs at hnew
  obtain rfl := Option.some.inj hnew
  rfl

/-- The loop can be taken to its end if the indices are good. -/
theorem ackLoop_isSome (h : Recorded s log) {is : List ℤ} (hb : s.oldBuffers b = some ptrs)
    (hok : AckOk s b is) : (LearnList.ackLoop b s is).isSome := by
  induction is generalizing s log ptrs with
  | nil => rfl
  | cons i is ih =>
    obtain ⟨hnd, hall⟩ := hok ptrs hb
    obtain ⟨node, hi, hmem⟩ := hall i List.mem_cons_self
    obtain ⟨hnotin, hnd⟩ := List.nodup_cons.mp hnd
    have hturned : Recorded (turned s b ptrs node) _ := h.remove hb (h.fresh_of_mem hi hmem)
    have herase : LearnList.eraseNode s.filter node =
        some (s.filter.filter fun x => x.1 ∉ [node]) := by
      rw [LearnList.eraseNode, if_pos hmem]
      exact congrArg some (List.filter_congr fun x _ => by simp)
    rw [LearnList.ackLoop, hb]
    simp only [hi, herase, Option.isSome_map]
    -- What the other indices name is still there.
    have hrest : ∀ j ∈ is, ∃ m, ptrs.at? j = some m ∧ m ∈ s.filter.map Prod.fst ∧ m ≠ node := by
      intro j hj
      obtain ⟨m, hm, hmem'⟩ := hall j (List.mem_cons_of_mem _ hj)
      refine ⟨m, hm, hmem', ?_⟩
      rintro rfl
      exact hnotin (at?_inj (h.counts b ptrs hb).nodup hi hm ▸ hj)
    obtain _ | ⟨j, js⟩ := is
    · rfl
    · obtain ⟨m, hm, hmem', hne⟩ := hrest j List.mem_cons_self
      obtain ⟨b', new, hnew, hin⟩ := hturned.covered m (h.mem_nodes_iff.mp hmem').1 (by
        have := (h.mem_nodes_iff.mp hmem').2
        simp [this, hne])
      -- So its record was not dropped.
      have hbb : b' = b := by
        by_contra hbb
        have hold : s.oldBuffers b' = some new := by
          simpa only [turned, Function.update_of_ne hbb] using hnew
        exact hbb (h.disjoint b' b new ptrs m hold hb hin (mem_of_at? hm))
      subst hbb
      refine ih hturned hnew fun new' hnew' => ⟨hnd, fun k hk => ?_⟩
      obtain ⟨m', hm', hmem'', hne'⟩ := hrest k hk
      exact ⟨m', (turned_at? hnew' k).trans hm', mem_turned.mpr ⟨hmem'', hne'⟩⟩

/-- What a loop that ends says of its indices. -/
theorem ackOk_of_ackLoop {is : List ℤ} (hsome : (LearnList.ackLoop b s is).isSome) :
    AckOk s b is := by
  induction is generalizing s with
  | nil => exact fun _ _ => ⟨List.nodup_nil, fun i hi => absurd hi List.not_mem_nil⟩
  | cons i is ih =>
    obtain ⟨r, hr⟩ := Option.isSome_iff_exists.mp hsome
    obtain ⟨ptrs, node, ns, hb, hi, hmem, hloop, -⟩ := ackLoop_cons hr
    have hrest := ih (Option.isSome_iff_exists.mpr ⟨_, hloop⟩)
    intro ptrs' hb'
    obtain rfl : ptrs = ptrs' := Option.some.inj (hb.symm.trans hb')
    cases hnew : (turned s b ptrs node).oldBuffers b with
    | none =>
      -- The record is dropped, so the loop is over.
      obtain _ | ⟨j, js⟩ := is
      · refine ⟨List.nodup_singleton _, fun k hk => ?_⟩
        obtain rfl := List.mem_singleton.mp hk
        exact ⟨node, hi, hmem⟩
      · obtain ⟨ptrs', _, _, hb'', _⟩ := ackLoop_cons hloop
        rw [hnew] at hb''
        cases hb''
    | some new =>
      obtain ⟨hnd, hall⟩ := hrest new hnew
      refine ⟨List.nodup_cons.mpr ⟨fun hin => ?_, hnd⟩, fun k hk => ?_⟩
      · obtain ⟨m, hm, hmem'⟩ := hall i hin
        rw [turned_at? hnew, hi] at hm
        exact (mem_turned.mp hmem').2 (Option.some.inj hm).symm
      · rcases List.mem_cons.mp hk with rfl | hk
        · exact ⟨node, hi, hmem⟩
        · obtain ⟨m, hm, hmem'⟩ := hall k hk
          exact ⟨m, (turned_at? hnew k).symm.trans hm, (mem_turned.mp hmem').1⟩

/-- **Which acknowledgements of samples are good.** -/
theorem ack_isSome_iff (h : Recorded s log) (is : List ℤ) :
    (s.ack b is).isSome ↔ AckOk s b is := by
  unfold LearnList.ack
  cases hb : s.oldBuffers b with
  | none =>
    refine ⟨fun _ ptrs hptrs => ?_, fun _ => rfl⟩
    rw [hb] at hptrs
    cases hptrs
  | some ptrs => exact ⟨ackOk_of_ackLoop, h.ackLoop_isSome hb⟩

end Ack

/-! ## `ack_buffer` -/

/-- All the samples of the buffer are in the filter, or the filter has none but
those that are left of it. -/
def AckBufferOk (s : LearnList) (b : ℕ) : Prop :=
  ∀ ptrs, s.oldBuffers b = some ptrs → ptrs.unackedCount = s.filter.length ∨
    ∀ n ∈ ptrs.buffer, n ∈ s.filter.map Prod.fst

section AckBuffer

variable {b : ℕ} {ptrs : FilterPtrs}

theorem eraseAll_eq_some {f g : List (ℕ × ByteContainer)} {ns : List ℕ}
    (he : ns.foldlM LearnList.eraseNode f = some g) :
    (∀ n ∈ ns, n ∈ f.map Prod.fst) ∧ g = f.filter fun x => x.1 ∉ ns := by
  induction ns generalizing f with
  | nil =>
    obtain rfl := Option.some.inj he
    exact ⟨fun n hn => absurd hn List.not_mem_nil, by simp⟩
  | cons n ns ih =>
    rw [List.foldlM_cons] at he
    obtain ⟨f', hone, he⟩ := Option.bind_eq_some_iff.mp he
    unfold LearnList.eraseNode at hone
    split_ifs at hone with hmem
    obtain rfl := Option.some.inj hone
    obtain ⟨hall, rfl⟩ := ih he
    refine ⟨fun m hm => ?_, ?_⟩
    · rcases List.mem_cons.mp hm with rfl | hm
      · exact hmem
      · obtain ⟨x, hx, rfl⟩ := List.mem_map.mp (hall m hm)
        exact List.mem_map_of_mem (List.mem_of_mem_filter hx)
    · rw [List.filter_filter]
      refine List.filter_congr fun x _ => ?_
      simp [Bool.and_comm]

theorem eraseAll_isSome {f : List (ℕ × ByteContainer)} {ns : List ℕ} (hnd : ns.Nodup)
    (hall : ∀ n ∈ ns, n ∈ f.map Prod.fst) : (ns.foldlM LearnList.eraseNode f).isSome := by
  induction ns generalizing f with
  | nil => rfl
  | cons n ns ih =>
    obtain ⟨hnotin, hnd⟩ := List.nodup_cons.mp hnd
    have hone : LearnList.eraseNode f n = some (f.filter fun x => x.1 ≠ n) :=
      if_pos (hall n List.mem_cons_self)
    rw [List.foldlM_cons, hone]
    refine ih hnd fun m hm => ?_
    obtain ⟨x, hx, rfl⟩ := List.mem_map.mp (hall m (List.mem_cons_of_mem _ hm))
    have hne : x.1 ≠ n := by
      rintro rfl
      exact hnotin hm
    exact List.mem_map_of_mem (List.mem_filter.mpr ⟨hx, by simpa using hne⟩)

/-- A buffer that is left as much as the filter holds is all the filter holds. -/
theorem nodes_of_count (h : Recorded s log) (hb : s.oldBuffers b = some ptrs)
    (hcount : ptrs.unackedCount = s.filter.length) :
    Fresh log ptrs (s.filter.map Prod.fst) := by
  refine ⟨h.nodes_nodup, fun n hn => ?_, fun n hn => (h.mem_nodes_iff.mp hn).2⟩
  have hsub : ptrs.buffer.filter (· ∈ s.filter.map Prod.fst) ⊆ s.filter.map Prod.fst := by
    intro m hm
    simpa using (List.mem_filter.mp hm).2
  have hperm := List.subperm_of_subset ((h.counts b ptrs hb).nodup.filter _) hsub
  have hle : (s.filter.map Prod.fst).length ≤
      (ptrs.buffer.filter (· ∈ s.filter.map Prod.fst)).length := by
    rw [← h.count_eq hb, List.length_map, hcount]
  exact List.mem_of_mem_filter ((hperm.perm_of_length_le hle).mem_iff.mpr hn)

/-- Dropping a record, with all that is left of its buffer. -/
theorem dropAll (h : Recorded s log) (hb : s.oldBuffers b = some ptrs) {ns : List ℕ}
    (hf : Fresh log ptrs ns) (hlen : ptrs.unackedCount = ns.length) :
    Recorded { s with
      filter := s.filter.filter fun x => x.1 ∉ ns
      oldBuffers := Function.update s.oldBuffers b none }
      { log with removed := log.removed ++ ns } := by
  have hdrop : ptrs.drop ns.length = none := if_pos (by omega)
  have := h.remove hb hf
  rwa [hdrop] at this

theorem ackBuffer (h : Recorded s log) {r : LearnList × List ℕ} (hr : s.ackBuffer b = some r) :
    Recorded r.1 { log with removed := log.removed ++ r.2 } := by
  unfold LearnList.ackBuffer at hr
  split at hr
  · obtain rfl := Option.some.inj hr
    simpa using h
  · next ptrs hb =>
    simp only at hr
    split_ifs at hr with hcount
    · obtain rfl := Option.some.inj hr
      have hall := h.dropAll hb (h.nodes_of_count hb hcount) (by rw [List.length_map, hcount])
      have hnil : (s.filter.filter fun x => x.1 ∉ s.filter.map Prod.fst) = [] := by
        refine List.filter_eq_nil_iff.mpr fun x hx => ?_
        simpa using ⟨x.2, hx⟩
      rwa [hnil] at hall
    · obtain ⟨g, hg, rfl⟩ := Option.map_eq_some_iff.mp hr
      obtain ⟨hall, rfl⟩ := eraseAll_eq_some hg
      have hc := h.counts b ptrs hb
      have hnot : ∀ n ∈ ptrs.buffer, n ∉ log.removed := fun n hn =>
        (h.mem_nodes_iff.mp (hall n hn)).2
      refine h.dropAll hb ⟨hc.nodup, fun n hn => hn, hnot⟩ ?_
      rw [hc.count, List.filter_eq_self.mpr fun n hn => by simpa using hnot n hn]

/-- **Which acknowledgements of buffers are good.** -/
theorem ackBuffer_isSome_iff (h : Recorded s log) : (s.ackBuffer b).isSome ↔ AckBufferOk s b := by
  unfold LearnList.ackBuffer
  cases hb : s.oldBuffers b with
  | none =>
    refine ⟨fun _ ptrs hptrs => ?_, fun _ => rfl⟩
    rw [hb] at hptrs
    cases hptrs
  | some ptrs =>
    have hiff : AckBufferOk s b ↔ ptrs.unackedCount = s.filter.length ∨
        ∀ n ∈ ptrs.buffer, n ∈ s.filter.map Prod.fst := by
      refine ⟨fun hok => hok ptrs hb, fun hok ptrs' hb' => ?_⟩
      obtain rfl : ptrs = ptrs' := Option.some.inj (hb.symm.trans hb')
      exact hok
    rw [hiff]
    simp only
    split_ifs with hcount
    · simp [hcount]
    · rw [Option.isSome_map]
      refine ⟨fun hsome => .inr ?_, fun hok => ?_⟩
      · obtain ⟨g, hg⟩ := Option.isSome_iff_exists.mp hsome
        exact (eraseAll_eq_some hg).1
      · exact eraseAll_isSome (h.counts b ptrs hb).nodup (hok.resolve_left hcount)

end AckBuffer

/-! ## Runs -/

theorem swapBuffers (h : Recorded s log) : Recorded s.swapBuffers log := h.congr rfl rfl rfl

theorem processFullBuffer (h : Recorded s log) : Recorded s.processFullBuffer log := by
  unfold LearnList.processFullBuffer
  split_ifs
  · exact h.congr rfl rfl rfl
  · exact h.swapBuffers

theorem afterInsert (h : Recorded s log) (now : ℕ) : Recorded (s.afterInsert now) log := by
  unfold LearnList.afterInsert
  split_ifs
  · exact h.congr rfl rfl rfl
  · exact h.processFullBuffer
  · exact h

theorem resetState (h : Recorded s log) :
    Recorded s.resetState { log with removed := log.removed ++ s.filter.map Prod.fst } := by
  have hall : ∀ n, n < log.accepted.length → n ∈ log.removed ++ s.filter.map Prod.fst := by
    intro n hn
    by_cases hr : n ∈ log.removed
    · exact List.mem_append_left _ hr
    · exact List.mem_append_right _ (h.mem_nodes_iff.mpr ⟨hn, hr⟩)
  refine ⟨h.allocated, ?_, fun n hn => ?_, fun n x => ?_, List.nodup_nil, List.nodup_nil, ?_, ?_, ?_⟩
  · refine List.nodup_append.mpr ⟨h.removed_nodup, h.nodes_nodup, ?_⟩
    rintro n hn m hm rfl
    exact (h.mem_nodes_iff.mp hm).2 hn
  · rcases List.mem_append.mp hn with hn | hn
    · exact h.removed_lt n hn
    · exact (h.mem_nodes_iff.mp hn).1
  · refine ⟨fun hx => absurd hx List.not_mem_nil, fun ⟨hx, hr⟩ => ?_⟩
    exact absurd (hall n (List.getElem?_eq_some_iff.mp hx).1) hr
  · intro b ptrs hb
    cases hb
  · intro b b' ptrs ptrs' n hb
    cases hb
  · intro n hn hr
    exact absurd (hall n hn) hr

/-- **One step** keeps the filter and the records. -/
theorem step (h : Recorded s log) {r : Step} {e : Option Event}
    (hstep : s.step r = some (s', e)) : Recorded s' (log.add e) := by
  cases r with
  | addSample phv now =>
    rcases s.addSample_cases phv now with heq | ⟨hx, heq⟩
    · obtain ⟨rfl, rfl⟩ := Prod.mk.inj (heq.symm.trans (Option.some.inj hstep))
      exact h
    · obtain ⟨rfl, rfl⟩ := Prod.mk.inj (heq.symm.trans (Option.some.inj hstep))
      exact (h.insert hx).afterInsert now
  | setMaxSamples nbSamples =>
    obtain ⟨rfl, rfl⟩ := Prod.mk.inj (Option.some.inj hstep)
    have hset : Recorded { s with maxSamples := nbSamples } log := h.congr rfl rfl rfl
    rcases s.setMaxSamples_cases nbSamples with heq | ⟨-, -, heq⟩
    · rw [heq]
      exact hset
    · -- A buffer that is full by the new limit is queued.
      rw [heq]
      exact hset.processFullBuffer
  | setTimeout timeoutMs =>
    obtain ⟨rfl, rfl⟩ := Prod.mk.inj (Option.some.inj hstep)
    exact h.congr rfl rfl rfl
  | resume =>
    obtain ⟨s'', hs, heq⟩ := Option.map_eq_some_iff.mp hstep
    obtain ⟨rfl, rfl⟩ := Prod.mk.inj heq
    obtain ⟨-, rfl⟩ := LearnList.resume_eq_some hs
    exact h.congr rfl rfl rfl
  | beginTransmit now =>
    obtain ⟨s'', hs, heq⟩ := Option.map_eq_some_iff.mp hstep
    obtain ⟨rfl, rfl⟩ := Prod.mk.inj heq
    obtain ⟨-, ⟨-, -, rfl⟩ | ⟨-, rfl⟩⟩ := LearnList.beginTransmit_eq_some hs
    · exact h.congr rfl rfl rfl
    · exact h.congr rfl rfl rfl
  | readBufferId =>
    obtain ⟨s'', hs, heq⟩ := Option.map_eq_some_iff.mp hstep
    obtain ⟨rfl, rfl⟩ := Prod.mk.inj heq
    obtain ⟨n, -, rfl⟩ := LearnList.readBufferId_eq_some hs
    exact h.congr rfl rfl rfl
  | send =>
    obtain ⟨n, b, -, rfl, rfl⟩ := LearnList.send_eq_some hstep
    have hsent : Recorded { s with transmit := .sent } log := h.congr rfl rfl rfl
    split_ifs
    · exact hsent
    · exact hsent.withSent _
  | endTransmit =>
    obtain ⟨s'', hs, heq⟩ := Option.map_eq_some_iff.mp hstep
    obtain ⟨rfl, rfl⟩ := Prod.mk.inj heq
    obtain ⟨-, rfl⟩ := LearnList.endTransmit_eq_some hs
    exact h.congr rfl rfl rfl
  | ack b is =>
    obtain ⟨r, hr, heq⟩ := Option.map_eq_some_iff.mp hstep
    obtain ⟨rfl, rfl⟩ := Prod.mk.inj heq
    exact h.ack hr
  | ackBuffer b =>
    obtain ⟨r, hr, heq⟩ := Option.map_eq_some_iff.mp hstep
    obtain ⟨rfl, rfl⟩ := Prod.mk.inj heq
    exact h.ackBuffer hr
  | resetState =>
    obtain ⟨rfl, rfl⟩ := Prod.mk.inj (Option.some.inj hstep)
    exact h.resetState

theorem run {ok : LearnList → Log → Step → Prop} {s₀ : LearnList} (h₀ : Recorded s₀ {})
    (hrun : RunIf ok s₀ log s) : Recorded s log := by
  induction hrun with
  | nil => exact h₀
  | snoc _ _ hstep ih => exact ih.step hstep

/-- The nodes erased are those the indices name. -/
theorem ackLoop_nodes {b : ℕ} {ptrs : FilterPtrs} {is : List ℤ} {r : LearnList × List ℕ}
    (hb : s.oldBuffers b = some ptrs) (hr : LearnList.ackLoop b s is = some r) :
    is.map ptrs.at? = r.2.map some := by
  induction is generalizing s r ptrs with
  | nil =>
    obtain rfl := Option.some.inj hr
    rfl
  | cons i is ih =>
    obtain ⟨ptrs', node, ns, hb', hi, -, hloop, hns⟩ := ackLoop_cons hr
    obtain rfl : ptrs = ptrs' := Option.some.inj (hb.symm.trans hb')
    rw [hns, List.map_cons, List.map_cons, hi]
    congr 1
    cases hnew : (turned s b ptrs node).oldBuffers b with
    | none =>
      obtain _ | ⟨j, js⟩ := is
      · obtain rfl := (Prod.mk.inj (Option.some.inj hloop)).2
        rfl
      · obtain ⟨_, _, _, hb'', _⟩ := ackLoop_cons hloop
        rw [hnew] at hb''
        cases hb''
    | some new =>
      rw [← ih hnew hloop]
      exact List.map_congr_left fun j _ => (turned_at? hnew j).symm

theorem ackBuffer_nodes (h : Recorded s log) {b : ℕ} {ptrs : FilterPtrs} {r : LearnList × List ℕ}
    (hb : s.oldBuffers b = some ptrs) (hr : s.ackBuffer b = some r) :
    ∀ n ∈ r.2, n ∈ ptrs.buffer := by
  unfold LearnList.ackBuffer at hr
  simp only [hb] at hr
  split_ifs at hr with hcount
  · obtain rfl := Option.some.inj hr
    exact (h.nodes_of_count hb hcount).mem
  · obtain ⟨g, -, rfl⟩ := Option.map_eq_some_iff.mp hr
    exact fun n hn => hn

end Recorded

/-! ## Acknowledgements -/

/-- An acknowledgement, if it is one, is good. -/
def Acknowledges (s : LearnList) (_ : Log) : Step → Prop
  | .ack b sampleIds => Recorded.AckOk s b sampleIds
  | .ackBuffer b => Recorded.AckBufferOk s b
  | _ => True

/-- Each sample is removed once, and none but those removed; a buffer is there as
long as some of its samples are in the filter, and counts them. -/
structure Acknowledged (s : LearnList) (log : Log) : Prop where
  once : log.removed.Nodup
  filter : ∀ n x, (n, x) ∈ s.filter ↔ log.accepted[n]? = some x ∧ n ∉ log.removed
  counted : ∀ b ptrs, s.oldBuffers b = some ptrs → 0 < ptrs.unackedCount ∧
    ptrs.unackedCount = (ptrs.buffer.filter (· ∈ s.filter.map Prod.fst)).length
  kept : ∀ n ∈ s.filter.map Prod.fst, ∃ b ptrs, s.oldBuffers b = some ptrs ∧ n ∈ ptrs.buffer

/-- A good acknowledgement, and no other, has a meaning, and removes the samples it
names. -/
structure Acks (s : LearnList) : Prop where
  ack : ∀ b sampleIds, (s.ack b sampleIds).isSome ↔ Recorded.AckOk s b sampleIds
  ackBuffer : ∀ b, (s.ackBuffer b).isSome ↔ Recorded.AckBufferOk s b
  ack_nodes : ∀ b ptrs sampleIds r, s.oldBuffers b = some ptrs → s.ack b sampleIds = some r →
    sampleIds.map ptrs.at? = r.2.map some
  ackBuffer_nodes : ∀ b ptrs r, s.oldBuffers b = some ptrs → s.ackBuffer b = some r →
    ∀ n ∈ r.2, n ∈ ptrs.buffer

/-- **Good acknowledgements are counted right**, in every run of the list in which
there are no others. -/
theorem RunIf.acknowledged {listId deviceId cxtId : ℤ} {builder : LearnSampleBuilder}
    {mode : LearnMode} {maxSamples timeoutMs : ℕ} {log : Log} {s : LearnList}
    (hrun : RunIf Acknowledges
      (.create listId deviceId cxtId builder mode maxSamples timeoutMs) log s) :
    Acknowledged s log ∧ Acks s := by
  have h := Recorded.run (Recorded.create ..) hrun
  refine ⟨⟨h.removed_nodup, h.mem_filter, fun b ptrs hb => ?_, fun n hn => ?_⟩,
    ⟨fun b is => h.ack_isSome_iff is, fun b => h.ackBuffer_isSome_iff, fun b ptrs is r hb hr => ?_,
      fun b ptrs r hb hr => h.ackBuffer_nodes hb hr⟩⟩
  · exact ⟨(h.counts b ptrs hb).pos, h.count_eq hb⟩
  · obtain ⟨hlt, hnot⟩ := h.mem_nodes_iff.mp hn
    exact h.covered n hlt hnot
  · unfold LearnList.ack at hr
    simp only [hb] at hr
    exact Recorded.ackLoop_nodes hb hr

/-- Lists of one field, and what it is in a packet. -/
def oneField : LearnSampleBuilder := ⟨[.field 0 0], []⟩

/-- A packet whose field is one byte. -/
def packet (x : UInt8) : FieldBytes := fun _ _ => [x]

/-- Two samples, of which one is acknowledged. -/
theorem acknowledged_one :
    ∃ log s, Recorded.AckOk s 0 [0] ∧ Acknowledged s log ∧ Acks s ∧
      log.accepted = [[1], [2]] ∧ log.removed = [1] ∧ s.filter = [(0, [1])] := by
  have start : RunIf Acknowledges (.create 0 0 0 oneField .writer 2 0) {} _ := .nil _
  have run := ((start.snoc (r := .addSample (packet 1) 0) trivial rfl).snoc
    (r := .addSample (packet 2) 0) trivial rfl).snoc (r := .ack 0 [1])
      (by
        rintro ptrs ⟨⟩
        exact ⟨by decide, fun i hi => ⟨1, by
          obtain rfl := List.mem_singleton.mp hi
          exact ⟨rfl, by decide⟩⟩⟩) rfl
  obtain ⟨hlist, hacks⟩ := RunIf.acknowledged run
  exact ⟨_, _, (hacks.ack 0 [0]).mp rfl, hlist, hacks, rfl, rfl, rfl⟩

/-- **A sample acknowledged twice**: in one call, in two, and with its buffer. None
of the second erasures has a meaning. -/
theorem acknowledged_twice :
    ∃ log s, RunIf (fun _ _ _ => True) (.create 0 0 0 oneField .writer 2 0) log s ∧
      log.accepted = [[1], [2], [3]] ∧ s.ack 0 [0, 0] = none ∧
      ∃ s', s.step (.ack 0 [0]) = some (s', some (.removed [0])) ∧
        s'.ack 0 [0] = none ∧ s'.ackBuffer 0 = none := by
  have start : RunIf (fun _ _ _ => True) (.create 0 0 0 oneField .writer 2 0) {} _ := .nil _
  have full := (start.snoc (r := .addSample (packet 1) 0) trivial rfl).snoc
    (r := .addSample (packet 2) 0) trivial rfl
  have sent := (((full.snoc (r := .beginTransmit 0) trivial rfl).snoc
    (r := .readBufferId) trivial rfl).snoc (r := .send) trivial rfl).snoc
    (r := .endTransmit) trivial rfl
  have run := sent.snoc (r := .addSample (packet 3) 0) trivial rfl
  exact ⟨_, _, run, rfl, rfl, _, rfl, rfl, rfl⟩

end Learning

end P4Bricks
