import P4Bricks.Ageing.Timeouts
import P4Bricks.Common.News
/-!
# What the ageing monitor sends

A sweep tells of a table what has expired in it and was not told by the sweep before. The
tables do not get in each other's way, although they share two buffers: the buffers are
empty whenever the monitor turns to a table.
-/

namespace P4Bricks

open Lookup MatchUnit MatchTables

namespace Ageing

variable {ι σ P K V M C : Type}

/-! ## What has expired -/

/-- A slot has a timeout, and it was not hit for as long. -/
def Due (u : MatchUnit σ K V) (now i : ℕ) : Prop :=
  0 < (u.entryMeta i).timeoutMs ∧ (u.entryMeta i).timeoutMs ≤ now - (u.entryMeta i).ts

instance (u : MatchUnit σ K V) (now i : ℕ) : Decidable (Due u now i) :=
  inferInstanceAs (Decidable (_ ∧ _))

/-- The handles of the live slots that are due. -/
def expiredIn (u : MatchUnit σ K V) (now : ℕ) : Finset EntryHandle :=
  (u.handles.filter (Due u now)).image fun i => handleSet (u.entryMeta i).version i

/-- The handles that have expired in a table. -/
def expired (now : ℕ) : Table σ K M → Finset EntryHandle
  | .direct t => expiredIn t.matchUnit now
  | .indirect t => expiredIn t.matchUnit now

/-- A sweep gives the slots that are due, in their order. -/
theorem sweepEntries_eq {u : MatchUnit σ K V} {now : ℕ} {swept : List EntryHandle}
    (h : u.sweepEntries now = some swept) :
    swept = ((u.handles.sort (· ≤ ·)).filter (Due u now)).map
      fun i => handleSet (u.entryMeta i).version i := by
  have hloop : ∀ (is : List ℕ) (acc out : List EntryHandle),
      is.foldlM (fun entries i =>
        if now < (u.entryMeta i).ts then none
        else if 0 < (u.entryMeta i).timeoutMs ∧
            (u.entryMeta i).timeoutMs ≤ now - (u.entryMeta i).ts then
          some (entries ++ [handleSet (u.entryMeta i).version i])
        else some entries) acc = some out →
      out = acc ++ (is.filter (Due u now)).map fun i => handleSet (u.entryMeta i).version i := by
    intro is
    induction is with
    | nil =>
      intro acc out hout
      obtain rfl := Option.some.inj hout
      simp
    | cons i is ih =>
      intro acc out hout
      rw [List.foldlM_cons] at hout
      obtain ⟨acc', hacc', hout⟩ := Option.bind_eq_some_iff.mp hout
      have hrest := ih _ _ hout
      split_ifs at hacc' with hclock hdue
      · obtain rfl := Option.some.inj hacc'
        have hthis : Due u now i := hdue
        rw [hrest, List.filter_cons_of_pos (by simpa using hthis), List.map_cons,
          List.append_assoc, List.singleton_append]
      · obtain rfl := Option.some.inj hacc'
        have hthis : ¬ Due u now i := hdue
        rw [hrest, List.filter_cons_of_neg (by simpa using hthis)]
  simpa using hloop _ [] swept h

/-- **Each handle that has expired is swept once.** -/
theorem sweepEntries_spec {u : MatchUnit σ K V} {now : ℕ} {swept : List EntryHandle}
    (hreach : InReach u) (h : u.sweepEntries now = some swept) :
    swept.Nodup ∧ swept.toFinset = expiredIn u now := by
  obtain rfl := sweepEntries_eq h
  constructor
  · refine List.Nodup.map_on ?_ ((Finset.sort_nodup _ _).filter _)
    -- A slot that is due has a timeout, so its handle tells which slot it is.
    intro i hi j hj heq
    have hlt : ∀ i ∈ (u.handles.sort (· ≤ ·)).filter (Due u now), i < 2 ^ 24 := by
      intro i hi
      have hdue : Due u now i := by simpa using (List.mem_filter.mp hi).2
      by_contra hge
      have hnone := hreach i (not_lt.mp hge)
      exact hdue.1.ne' hnone
    by_contra hne
    exact MatchUnit.Ageing.handleSet_ne (hlt i hi) (hlt j hj) hne heq
  · ext handle
    simp [expiredIn, List.mem_map]

theorem sweepEntries_table {tbl : Table σ K M} {now : ℕ} {swept : List EntryHandle}
    (hreach : TableInReach tbl) (h : sweepEntries now tbl = some swept) :
    swept.Nodup ∧ swept.toFinset = expired now tbl := by
  rcases tbl with t | t
  · exact sweepEntries_spec hreach h
  · exact sweepEntries_spec hreach h

/-! ## One sweep -/

variable [LinearOrder ι] {m m' : AgeingMonitor ι} {t t' : ι} {messages : List (Message ι)}

/-- Nothing is left in the buffers. -/
def Quiet (m : AgeingMonitor ι) : Prop := m.entries = [] ∧ m.entriesTmp = []

/-- What the messages of a sweep tell of a table. -/
def told (t : ι) (messages : List (Message ι)) : List EntryHandle :=
  (messages.filter fun message => message.tableId = t).flatMap Message.entries

/-- Of a table there is no message, if nothing is told, and one otherwise. -/
structure Tells (t : ι) (messages : List (Message ι)) (new : Finset EntryHandle) : Prop where
  nodup : (told t messages).Nodup
  toFinset : (told t messages).toFinset = new
  count : (messages.filter fun message => message.tableId = t).length = if new = ∅ then 0 else 1

/-- **One round** tells of its table what is new. -/
theorem sweepTable_spec (hquiet : Quiet m) {swept : List EntryHandle} (hnodup : swept.Nodup)
    (t : ι) :
    Quiet (m.sweepTable t swept).1 ∧
      (m.sweepTable t swept).1.tablesWithAgeing = m.tablesWithAgeing ∧
      (m.sweepTable t swept).1.prevSweepEntries =
        Function.update m.prevSweepEntries t (swept.toFinset \ m.prevSweepEntries t) ∧
      (∀ message ∈ (m.sweepTable t swept).2, message.tableId = t) ∧
      Tells t (m.sweepTable t swept).2 (swept.toFinset \ m.prevSweepEntries t) := by
  obtain ⟨deviceId, cxtId, tables, prev, entries, entriesTmp, bufferId⟩ := m
  obtain ⟨rfl, rfl⟩ : entries = [] ∧ entriesTmp = [] := hquiet
  have hnew : (swept.filter fun handle => handle ∉ prev t).toFinset = swept.toFinset \ prev t := by
    ext handle
    simp
  simp only [AgeingMonitor.sweepTable, List.nil_append]
  by_cases hswept : swept = []
  · subst hswept
    rw [if_pos rfl]
    refine ⟨⟨rfl, rfl⟩, rfl, ?_, nofun, ⟨List.nodup_nil, ?_, ?_⟩⟩
    · rw [List.toFinset_nil, Finset.empty_sdiff]
    · rw [List.toFinset_nil, Finset.empty_sdiff]
      rfl
    · rw [List.toFinset_nil, Finset.empty_sdiff, if_pos rfl]
      rfl
  · rw [if_neg hswept]
    by_cases hnone : (swept.filter fun handle => handle ∉ prev t) = []
    · -- All was told by the sweep before, so the next one tells it again.
      rw [if_pos hnone]
      rw [hnone, List.toFinset_nil] at hnew
      rw [← hnew]
      refine ⟨⟨hnone, rfl⟩, rfl, rfl, nofun, ⟨List.nodup_nil, rfl, ?_⟩⟩
      rw [if_pos rfl]
      rfl
    · rw [if_neg hnone]
      have hsome : swept.toFinset \ prev t ≠ ∅ := by
        rw [← hnew]
        simpa using hnone
      refine ⟨⟨rfl, rfl⟩, rfl, ?_, by simp, ⟨?_, ?_, ?_⟩⟩
      · rw [Function.update_idem, hnew]
      · simpa [told] using hnodup.filter _
      · simpa [told] using hnew
      · simp [hsome]

/-- Messages of other tables say nothing of this one. -/
theorem filter_eq_nil_of_ne (h : ∀ message ∈ messages, message.tableId ≠ t) :
    (messages.filter fun message => message.tableId = t) = [] := by
  simpa [List.filter_eq_nil_iff] using h

theorem Tells.append {new : Finset EntryHandle} {others : List (Message ι)}
    (h : Tells t messages new) (hothers : ∀ message ∈ others, message.tableId ≠ t) :
    Tells t (messages ++ others) new ∧ Tells t (others ++ messages) new := by
  have hnil := filter_eq_nil_of_ne hothers
  have htold : told t (messages ++ others) = told t messages ∧
      told t (others ++ messages) = told t messages := by
    unfold told
    rw [List.filter_append, List.filter_append, hnil, List.append_nil, List.nil_append]
    exact ⟨rfl, rfl⟩
  refine ⟨⟨?_, ?_, ?_⟩, ⟨?_, ?_, ?_⟩⟩
  · rw [htold.1]
    exact h.nodup
  · rw [htold.1]
    exact h.toFinset
  · rw [List.filter_append, hnil, List.append_nil]
    exact h.count
  · rw [htold.2]
    exact h.nodup
  · rw [htold.2]
    exact h.toFinset
  · rw [List.filter_append, hnil, List.nil_append]
    exact h.count

/-- **The loop over the tables** tells of each what is new in it. -/
theorem sweepFrom_spec {f : ι → Option (List EntryHandle)} {E : ι → Finset EntryHandle}
    (hf : ∀ t swept, f t = some swept → swept.Nodup ∧ swept.toFinset = E t) {ts : List ι}
    (hts : ts.Nodup) (hquiet : Quiet m)
    (h : AgeingMonitor.sweepFrom f m ts = some (m', messages)) :
    Quiet m' ∧ m'.tablesWithAgeing = m.tablesWithAgeing ∧
      (∀ t, m'.prevSweepEntries t =
        if t ∈ ts then E t \ m.prevSweepEntries t else m.prevSweepEntries t) ∧
      (∀ message ∈ messages, message.tableId ∈ ts) ∧
      ∀ t ∈ ts, Tells t messages (E t \ m.prevSweepEntries t) := by
  induction ts generalizing m m' messages with
  | nil =>
    obtain ⟨rfl, rfl⟩ := Prod.mk.inj (Option.some.inj h)
    exact ⟨hquiet, rfl, fun t => by simp, nofun, nofun⟩
  | cons t ts ih =>
    obtain ⟨hnotMem, hts⟩ := List.nodup_cons.mp hts
    obtain ⟨swept, hswept, h⟩ := Option.bind_eq_some_iff.mp h
    obtain ⟨⟨m₁, rest⟩, hrest, heq⟩ := Option.bind_eq_some_iff.mp h
    obtain ⟨rfl, rfl⟩ := Prod.mk.inj (Option.some.inj heq)
    obtain ⟨hnodup, hexpired⟩ := hf t swept hswept
    -- The table `t` is swept once, so the messages of the others say nothing of it and leave what
    -- it told.
    obtain ⟨hquiet', htables, hprev, hids, htells⟩ := sweepTable_spec hquiet hnodup t
    rw [hexpired] at hprev htells
    obtain ⟨hquiet'', htables', hprev', hids', htells'⟩ := ih hts hquiet' hrest
    refine ⟨hquiet'', htables'.trans htables, fun t' => ?_, fun message hmem => ?_,
      fun t' ht' => ?_⟩
    · rw [hprev', hprev]
      by_cases ht : t' = t
      · subst ht
        simp [hnotMem]
      · simp [ht]
    · rcases List.mem_append.mp hmem with hmem | hmem
      · exact List.mem_cons.mpr (Or.inl (hids message hmem))
      · exact List.mem_cons_of_mem _ (hids' message hmem)
    · rcases List.mem_cons.mp ht' with rfl | ht'
      · refine (htells.append fun message hmem hid => ?_).1
        exact hnotMem (hid ▸ hids' message hmem)
      · have hne : t' ≠ t := fun heq => hnotMem (heq ▸ ht')
        have hthis := htells' t' ht'
        rw [hprev, Function.update_of_ne hne] at hthis
        refine (hthis.append fun message hmem hid => ?_).2
        exact hne (hid.symm.trans (hids message hmem))

end Ageing

end P4Bricks
