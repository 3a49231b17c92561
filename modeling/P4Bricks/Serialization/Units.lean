import P4Bricks.Serialization.Values
/-!
# What is read back from a dump: match units and meters

The entries of a unit are read one by one into the slots they were in. This needs keys
that are not empty, slots that are free in the unit that is read into, and a dump that
ends: the assertion in `serialize_` compares the version that the handles of a slot
carry with the number of deletions from it.
-/

namespace P4Bricks

open Extraction Lookup MatchUnit MatchTables

namespace Serialization

/-! ## Match units -/

/-- A kind of value that is read back, as far as it is written. -/
structure ReadableFormat (V : Type) extends ValueFormat V where
  Readable : V → Prop
  restored : V → V
  reads : ∀ v, Reads (serialize v) deserialize (Readable v) (· = restored v)

def readableAction (objs : Objects) : ReadableFormat ActionEntry where
  toValueFormat := actionFormat objs
  Readable := EntryReadable objs
  restored := restoredEntry objs {}
  reads := reads_entry {}

theorem reads_index (i : IndirectIndex) :
    Reads (putInt (indexOf i)) index True (· = ofIndex (indexOf i)) := by
  refine ((reads_natural (indexOf i)).map (D := True) fun n hn => .pure ?_).congr (by simp)
  rw [hn]

def readableIndex : ReadableFormat IndirectIndex where
  toValueFormat := indexFormat
  Readable _ := True
  restored i := ofIndex (indexOf i)
  reads := reads_index

variable {σ K V : Type} [LookupStructure σ K] [ReadableKey K] (fmt : ReadableFormat V) (now : ℕ)
  {u u₀ u' : MatchUnit σ K V}

/-- An entry of `u` that is written, and read into the unit `u₀`. -/
structure SlotReadable (u u₀ : MatchUnit σ K V) (h : ℕ) : Prop where
  key : KeyFormat.data (u.entries h).key ≠ []
  extra : ReadableKey.Readable (u.entries h).key
  value : fmt.Readable (u.entries h).value
  version : (u.entryMeta h).version = (u.entries h).version
  free : h ∉ u₀.handles
  inside : h < u₀.size

/-- The unit with the entry in it. -/
def restoreEntry (u : MatchUnit σ K V) (u' : MatchUnit σ K V) (h : ℕ) : MatchUnit σ K V :=
  let key := ReadableKey.restored (u.entries h).key
  { u' with
    handles := insert h u'.handles
    entries := Function.update u'.entries h
      ⟨key, (u.entries h).version, fmt.restored (u.entries h).value⟩
    lookupStructure := LookupStructure.addEntry u'.lookupStructure key h
    entryMeta := Function.update u'.entryMeta h
      { ts := now, timeoutMs := (u.entryMeta h).timeoutMs, version := (u.entries h).version } }

/-- One round. -/
theorem reads_slot {h : ℕ} (hfree : h ∈ u'.handles ↔ h ∈ u₀.handles) (hsize : u'.size = u₀.size) :
    Reads (serializeEntry fmt.toValueFormat u h) (deserializeEntry fmt.toValueFormat now u')
      (SlotReadable fmt u u₀ h) (· = restoreEntry fmt now u u' h) := by
  have hiff : True ∧ h ∉ u'.handles ∧ True ∧ KeyFormat.data (u.entries h).key ≠ [] ∧
      ReadableKey.Readable (u.entries h).key ∧ fmt.Readable (u.entries h).value ∧ h < u'.size ∧
        (u.entryMeta h).version = (u.entries h).version ∧ True ∧ True ↔ SlotReadable fmt u u₀ h := by
    rw [hfree, hsize]
    exact ⟨fun ⟨_, h₁, _, h₂, h₃, h₄, h₅, h₆, _⟩ => ⟨h₂, h₃, h₄, h₆, h₁, h₅⟩,
      fun ⟨h₂, h₃, h₄, h₆, h₁, h₅⟩ => ⟨trivial, h₁, trivial, h₂, h₃, h₄, h₅, h₆, trivial, trivial⟩⟩
  refine Reads.congr ?_ hiff
  refine (reads_natural h).bind fun i hi => ?_
  subst i
  refine Reads.ite_abort fun _ => ?_
  refine (reads_natural (u.entries h).version).bind fun version hversion => ?_
  subst hversion
  refine (reads_hexString (KeyFormat.data (u.entries h).key)).bind fun bytes hbytes => ?_
  subst hbytes
  refine (ReadableKey.reads (u.entries h).key).bind fun key hkey => ?_
  subst hkey
  refine (fmt.reads (u.entries h).value).bind fun value hvalue => ?_
  subst hvalue
  refine Reads.ite_abort fun _ => Reads.guarded fun _ => ?_
  refine (reads_natural (u.entryMeta h).timeoutMs).map fun timeout htimeout => .done trivial ?_
  subst htimeout
  rfl

/-- The unit with all entries in it. -/
def restoreUnit (u u₀ : MatchUnit σ K V) : MatchUnit σ K V :=
  (sortedHandles u.handles).foldl (restoreEntry fmt now u) { u₀ with numEntries := u.numEntries }

theorem mem_sortedHandles {handles : Finset ℕ} {h : ℕ} : h ∈ sortedHandles handles ↔ h ∈ handles :=
  Finset.mem_sort _

theorem nodup_sortedHandles (handles : Finset ℕ) : (sortedHandles handles).Nodup :=
  Finset.sort_nodup _ _

theorem length_sortedHandles (handles : Finset ℕ) : (sortedHandles handles).length = handles.card :=
  Finset.length_sort _

/-- The slots taken so far. -/
theorem mem_foldl_restoreEntry (u u' : MatchUnit σ K V) (h : ℕ) (l : List ℕ) :
    (h ∈ (l.foldl (restoreEntry fmt now u) u').handles ↔ h ∈ l ∨ h ∈ u'.handles) ∧
      (l.foldl (restoreEntry fmt now u) u').size = u'.size := by
  induction l generalizing u' with
  | nil => simp
  | cons x l ih =>
    rw [List.foldl_cons]
    obtain ⟨hmem, hsize⟩ := ih (restoreEntry fmt now u u' x)
    refine ⟨?_, hsize⟩
    rw [hmem, restoreEntry, Finset.mem_insert, List.mem_cons]
    tauto

/-- **A match unit** is read back when each of its entries is. -/
theorem reads_unit (hcount : u.numEntries = u.handles.card) :
    Reads (serializeUnit fmt.toValueFormat u) (deserializeUnit fmt.toValueFormat now u₀)
      (∀ h ∈ u.handles, SlotReadable fmt u u₀ h) (· = restoreUnit fmt now u u₀) := by
  refine ((reads_natural u.numEntries).bind (D := ∀ h ∈ sortedHandles u.handles,
    SlotReadable fmt u u₀ h) fun n hn => ?_).congr ?_
  · subst hn
    rw [hcount, ← length_sortedHandles]
    refine (Reads.iterate (I := fun l u' => ∃ done, done ++ l = sortedHandles u.handles ∧
      u' = done.foldl (restoreEntry fmt now u) { u₀ with numEntries := u.numEntries })
        ⟨[], rfl, ?_⟩ ?_).mono ?_
    · rw [length_sortedHandles, ← hcount]
      rfl
    · rintro h l u' ⟨done, hdone, rfl⟩
      have hnotMem : h ∉ done := by
        have hnodup := nodup_sortedHandles u.handles
        rw [← hdone, List.nodup_append] at hnodup
        intro hmem
        exact hnodup.2.2 h hmem h List.mem_cons_self rfl
      obtain ⟨hmem, hsize⟩ := mem_foldl_restoreEntry fmt now u
        { u₀ with numEntries := u.numEntries } h done
      have hfree : h ∈ (done.foldl (restoreEntry fmt now u)
          { u₀ with numEntries := u.numEntries }).handles ↔ h ∈ u₀.handles :=
        hmem.trans (or_iff_right hnotMem)
      refine (reads_slot fmt now hfree hsize).mono ?_
      rintro u'' rfl
      refine ⟨done ++ [h], ?_, ?_⟩
      · rw [List.append_assoc]
        exact hdone
      · rw [List.foldl_append]
        rfl
    · rintro u' ⟨done, hdone, rfl⟩
      rw [List.append_nil] at hdone
      rw [hdone]
      rfl
  · simp only [mem_sortedHandles, true_and]

/-! ## Meters -/

variable {R : Type} [Rate R] {m m₀ : Meter R}

/-- A rate is written as a number. -/
def MeterReadable (m : Meter R) : Prop :=
  m.configured = true → ∀ rate ∈ m.rates, (Rate.format R).Clean (Rate.write rate.infoRate)

theorem reads_rate (rate : MeterRate R) (s : ℕ × Meter R) :
    Reads rate.serialize (Meter.deserializeRate s) ((Rate.format R).Clean (Rate.write rate.infoRate))
      (· = (s.1 + 1, s.2.setRate s.1 (Rate.read (Rate.write rate.infoRate)) rate.burstSize)) := by
  have hrate : Reads (.item ⟨Rate.write rate.infoRate, 32, by decide⟩)
      (.read (Rate.format R) fun t => .done (Rate.read (R := R) t))
      ((Rate.format R).Clean (Rate.write rate.infoRate) ∧ True)
      (· = Rate.read (Rate.write rate.infoRate)) := .item (.done trivial rfl)
  refine (hrate.bind (D := True) fun infoRate hinfo => ?_).congr (by simp)
  subst hinfo
  refine ((reads_natural rate.burstSize).map (D := True) fun burst hburst => .pure ?_).congr (by simp)
  rw [hburst]

theorem reads_meter (hrates : m₀.rates.length = m.rates.length) :
    Reads m.serialize m₀.deserialize (MeterReadable m) fun _ => True := by
  rcases hconf : m.configured with _ | _
  · rw [Meter.serialize, hconf]
    refine ((reads_bool false).bind (D := True) fun b hb => ?_).congr (by simp [MeterReadable, hconf])
    subst hb
    exact .pure trivial
  · rw [Meter.serialize, hconf]
    refine ((reads_bool true).bind (D := ∀ rate ∈ m.rates,
      (Rate.format R).Clean (Rate.write rate.infoRate)) fun b hb => ?_).congr (by simp [MeterReadable, hconf])
    subst hb
    rw [if_pos rfl, if_pos rfl]
    have hloop := Reads.iterate (I := fun _ _ => True) (l := m.rates)
      (a := (0, { m₀ with configured := true })) trivial
      fun rate _ s _ => (reads_rate rate s).mono fun _ _ => trivial
    rw [← hrates] at hloop
    exact (hloop.map (D := True) fun s _ => .pure trivial).congr (by simp)

end Serialization

end P4Bricks
