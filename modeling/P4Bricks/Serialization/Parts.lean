import P4Bricks.Serialization.Units
/-!
# What is read back from a dump: tables, action profiles and contexts

The groups of a profile are appended to a vector when they are read, so that their
handles must have no gaps. The table that is read into is that of the program: its
constant entries are in their slots already.
-/

namespace P4Bricks

open Extraction Lookup MatchUnit MatchTables

namespace Serialization

variable {objs : Objects}

/-! ## Tables -/

section Tables

variable {σ K V R : Type} [Rate R]

/-- What the configuration and the runtime leave no choice about: the number of slots,
whether there are meters and how many rates they have, and that a unit counts its
entries. -/
structure AbstractAlike (t t₀ : MatchTableAbstract σ K V (Meter R)) : Prop where
  size : t.matchUnit.size = t₀.matchUnit.size
  counted : t.matchUnit.numEntries = t.matchUnit.handles.card
  withMeters : t.withMeters = t₀.withMeters
  rates : ∀ i, (t.directMeters i).rates.length = (t₀.directMeters i).rates.length

/-- A table without its default, which is read into `t₀`. -/
structure AbstractReadable [ReadableKey K] (objs : Objects) (fmt : ReadableFormat V) (name : Text)
    (t t₀ : MatchTableAbstract σ K V (Meter R)) : Prop where
  name : word.Clean name
  miss : NodeReadable objs t.nextNodeMiss
  slots : ∀ h ∈ t.matchUnit.handles, SlotReadable fmt t.matchUnit t₀.matchUnit h
  meters : t.withMeters = true → ∀ i < t.matchUnit.size, MeterReadable (t.directMeters i)

variable {fmt : ReadableFormat V} {now : ℕ} {name : Text} {t t₀ : MatchTableAbstract σ K V (Meter R)}

theorem reads_meters (ha : AbstractAlike t t₀) (t₁ : MatchTableAbstract σ K V (Meter R))
    (hsize : t₁.matchUnit.size = t₀.matchUnit.size) (hwith : t₁.withMeters = t₀.withMeters)
    (hmeters : t₁.directMeters = t₀.directMeters) :
    Reads (serializeMeters t) (deserializeMeters t₁)
      (t.withMeters = true → ∀ i < t.matchUnit.size, MeterReadable (t.directMeters i))
      fun t' => t'.matchUnit = t₁.matchUnit ∧ t'.nextNodeMiss = t₁.nextNodeMiss := by
  rw [serializeMeters, deserializeMeters, hwith, ← ha.withMeters, hsize, ← ha.size, hmeters]
  rcases t.withMeters with _ | _
  · exact .done (by simp) ⟨rfl, rfl⟩
  · rw [if_pos rfl, if_pos rfl]
    have heach : List.Forall₂ (fun i j => Reads (t.directMeters i).serialize
        (t₀.directMeters j).deserialize (MeterReadable (t.directMeters i)) fun _ => True)
        (List.range t.matchUnit.size) (List.range t.matchUnit.size) :=
      List.forall₂_same.mpr fun i _ => reads_meter (ha.rates i).symm
    refine ((Reads.each heach).map (D := True) fun _ _ => .pure ⟨rfl, rfl⟩).congr ?_
    simp [List.mem_range]

variable [LookupStructure σ K] [ReadableKey K]

variable (fmt) in
theorem reads_abstract (ha : AbstractAlike t t₀) :
    Reads (serializeAbstract objs fmt.toValueFormat name t)
      (deserializeAbstract objs fmt.toValueFormat now name t₀)
      (AbstractReadable objs fmt name t t₀)
      fun t' => t'.matchUnit = restoreUnit fmt now t.matchUnit t₀.matchUnit ∧
        t'.nextNodeMiss = restoredNode objs t₀.nextNodeMiss t.nextNodeMiss := by
  have hiff : word.Clean name ∧ NodeReadable objs t.nextNodeMiss ∧
      (∀ h ∈ t.matchUnit.handles, SlotReadable fmt t.matchUnit t₀.matchUnit h) ∧
        (t.withMeters = true → ∀ i < t.matchUnit.size, MeterReadable (t.directMeters i)) ↔
      AbstractReadable objs fmt name t t₀ :=
    ⟨fun ⟨h₁, h₂, h₃, h₄⟩ => ⟨h₁, h₂, h₃, h₄⟩, fun ⟨h₁, h₂, h₃, h₄⟩ => ⟨h₁, h₂, h₃, h₄⟩⟩
  refine Reads.congr ?_ hiff
  refine (reads_string name).bind fun sentinel hname => ?_
  subst sentinel
  rw [if_pos rfl]
  refine (reads_node t₀.nextNodeMiss t.nextNodeMiss).bind fun miss hmiss => ?_
  subst miss
  refine (reads_unit fmt now ha.counted).bind fun matchUnit hunit => ?_
  subst matchUnit
  have hsize : (restoreUnit fmt now t.matchUnit t₀.matchUnit).size = t₀.matchUnit.size :=
    (mem_foldl_restoreEntry fmt now _ _ 0 (sortedHandles t.matchUnit.handles)).2
  exact reads_meters ha _ hsize rfl rfl

/-- Two tables of one kind. -/
inductive TableAlike : Table σ K (Meter R) → Table σ K (Meter R) → Prop where
  | direct {t t₀ : MatchTable σ K (Meter R)}
      (h : AbstractAlike t.toMatchTableAbstract t₀.toMatchTableAbstract) :
      TableAlike (.direct t) (.direct t₀)
  | indirect {t t₀ : MatchTableIndirect σ K (Meter R)}
      (h : AbstractAlike t.toMatchTableAbstract t₀.toMatchTableAbstract) :
      TableAlike (.indirect t) (.indirect t₀)

/-- A table that is read back into another one. -/
def TableReadable (objs : Objects) (name : Text) : Table σ K (Meter R) → Table σ K (Meter R) → Prop
  | .direct t, .direct t₀ =>
    AbstractReadable objs (readableAction objs) name t.toMatchTableAbstract t₀.toMatchTableAbstract ∧
      EntryReadable objs t.defaultEntry
  | .indirect t, .indirect t₀ =>
    AbstractReadable objs readableIndex name t.toMatchTableAbstract t₀.toMatchTableAbstract
  | _, _ => False

/-- **A table** of either class. -/
theorem reads_table {t t₀ : Table σ K (Meter R)} (ha : TableAlike t t₀) :
    Reads (Table.serialize objs name t) (Table.deserialize objs now name t₀)
      (TableReadable objs name t t₀) fun _ => True := by
  cases ha with
  | @direct t t₀ ha =>
    refine (reads_abstract (readableAction objs) ha).bind fun t' _ => ?_
    refine ((reads_entry t₀.defaultEntry t.defaultEntry).map (D := True) fun e _ =>
      .pure trivial).congr (and_iff_left trivial)
  | @indirect t t₀ ha =>
    refine ((reads_abstract readableIndex ha).bind (D := True) fun t' _ => ?_).congr
      (and_iff_left trivial)
    rcases t.defaultSet with _ | _
    · refine ((reads_bool false).bind (D := True) fun b hb => ?_).congr (by simp)
      subst hb
      exact .pure trivial
    · refine ((reads_bool true).bind (D := True) fun b hb => ?_).congr (by simp)
      subst hb
      exact ((reads_index t.defaultIndex).map (D := True) fun i _ => .pure trivial).congr (by simp)

end Tables

/-! ## Action profiles -/

theorem reads_counts (v : Vec ℕ) :
    Reads (serializeCounts v) deserializeCounts True (· = Vec.ofList (Vec.toList v)) := by
  have hlen : (Vec.toList v).length = v.size := by simp [Vec.toList]
  have hloop : Reads (.all (fun c : ℕ => putInt c) (Vec.toList v))
      (Reader.iterate (fun l => do
        let c ← natural
        pure (l ++ [c])) (Vec.toList v).length []) (∀ c ∈ Vec.toList v, True)
      fun l => l ++ [] = Vec.toList v := by
    refine Reads.iterate (I := fun l done => done ++ l = Vec.toList v) rfl fun c l done hdone => ?_
    refine ((reads_natural c).map (D := True) fun c' hc => .pure ?_).congr (by simp)
    rw [hc, List.append_assoc]
    exact hdone
  refine ((reads_natural v.size).bind (D := True) fun n hn => ?_).congr (by simp)
  subst hn
  rw [← hlen]
  refine (hloop.map (D := True) fun l hl => .pure ?_).congr (by simp)
  rw [← hl, List.append_nil]

theorem reads_group (g : Finset ℕ) : Reads (serializeGroup g) (deserializeGroup ∅) True (· = g) := by
  refine ((reads_natural (sortedHandles g).length).bind (D := ∀ m ∈ sortedHandles g, True)
    fun n hn => ?_).congr (by simp)
  subst hn
  refine (Reads.iterate (I := fun l g' => ∀ m, m ∈ g' ∨ m ∈ l ↔ m ∈ g) ?_ ?_).mono ?_
  · intro m
    simp [mem_sortedHandles]
  · intro m l g' hg'
    refine ((reads_natural m).map (D := True) fun m' hm' => .pure fun x => ?_).congr (by simp)
    subst hm'
    rw [← hg' x, Finset.mem_insert, List.mem_cons]
    tauto
  · intro g' hg'
    ext m
    simpa using hg' m

/-- A profile that is read back into a new one: its members are in its vectors, and its
group handles have no gaps. -/
structure ProfileReadable (objs : Objects) (ap : ActionProfile) : Prop where
  members : ∀ m ∈ ap.mbrHandles,
    m < ap.actionEntries.size ∧ EntryReadable objs (ap.actionEntries.get m)
  groups : ∀ g ∈ ap.grpHandles, g < ap.groups.size ∧ ∀ i < g, i ∈ ap.grpHandles

/-- The counts are right, but that of the groups after `reset_state`, which leaves group
handles without groups. -/
structure ProfileCounted (ap : ActionProfile) : Prop where
  members : ap.numMembers = ap.mbrHandles.card
  groups : ap.numGroups = ap.grpHandles.card ∨ ∃ g ∈ ap.grpHandles, ap.groups.size ≤ g

variable {ap ap' : ActionProfile}

/-- A sorted list of what is left, after the first numbers. -/
theorem eq_of_noGaps {done l : List ℕ} {g : ℕ} (hl : done ++ g :: l = sortedHandles ap.grpHandles)
    (hsub : ∀ i < g, i ∈ ap.grpHandles) (hdone : ∀ i, i ∈ done ↔ i < done.length) :
    g = done.length := by
  have hsorted : (done ++ g :: l).Pairwise (· ≤ ·) := hl ▸ Finset.pairwise_sort _ _
  have hnodup : (done ++ g :: l).Nodup := hl ▸ nodup_sortedHandles _
  rw [List.pairwise_append, List.pairwise_cons] at hsorted
  rw [List.nodup_append] at hnodup
  have hge : done.length ≤ g := by
    by_contra hlt
    exact hnodup.2.2 g ((hdone g).mpr (by omega)) g List.mem_cons_self rfl
  have hle : g ≤ done.length := by
    by_contra hgt
    -- A smaller handle would have come before.
    have hmem := hsub done.length (by omega)
    rw [← mem_sortedHandles, ← hl, List.mem_append, List.mem_cons] at hmem
    rcases hmem with hmem | hmem | hmem
    · have hself := (hdone done.length).mp hmem
      omega
    · omega
    · have hlater := hsorted.2.1.1 _ hmem
      omega
  omega

/-- One group, appended. -/
theorem reads_groupOf {g k : ℕ} (hfree : g ∉ ap'.grpHandles) (hsize : ap'.groups.size = k)
    (hge : k ≤ g) (hiff : g ≤ k ↔ ∀ i < g, i ∈ ap.grpHandles) :
    Reads (putInt g ++ .guarded (g < ap.groups.size) (serializeGroup (ap.groups.get g)))
      (deserializeGroupOf ap') (g < ap.groups.size ∧ ∀ i < g, i ∈ ap.grpHandles)
      fun ap'' => g = k ∧ ap''.grpHandles = insert g ap'.grpHandles ∧ ap''.groups.size = k + 1 := by
  have hcond : True ∧ (g ∉ ap'.grpHandles ∧ g ≤ ap'.groups.size) ∧ g < ap.groups.size ∧ True ∧ True ↔
      g < ap.groups.size ∧ ∀ i < g, i ∈ ap.grpHandles := by
    rw [hsize, hiff]
    exact ⟨fun h => ⟨h.2.2.1, h.2.1.2⟩, fun h => ⟨trivial, ⟨hfree, h.2⟩, h.1, trivial, trivial⟩⟩
  refine Reads.congr ?_ hcond
  refine (reads_natural g).bind fun g' hg' => ?_
  subst g'
  refine Reads.ite_abort fun hfits => Reads.guarded fun _ => ?_
  refine (reads_group (ap.groups.get g)).map fun s _ => .done trivial ⟨?_, rfl, ?_⟩
  · omega
  · change max ap'.groups.size (g + 1) = k + 1
    omega

/-- The members, in slots of vectors that are as long as those that were written. -/
theorem reads_member {m : ℕ} (hfree : m ∉ ap'.mbrHandles)
    (hsize : ap'.actionEntries.size = ap.actionEntries.size) :
    Reads (putInt m ++ .guarded (m < ap.actionEntries.size)
        (ActionEntry.serialize objs (ap.actionEntries.get m))) (deserializeMember objs ap')
      (m < ap.actionEntries.size ∧ EntryReadable objs (ap.actionEntries.get m))
      fun ap'' => ap''.mbrHandles = insert m ap'.mbrHandles ∧
        ap''.actionEntries.size = ap.actionEntries.size ∧ ap''.groups = ap'.groups ∧
          ap''.grpHandles = ap'.grpHandles := by
  have hcond : True ∧ (m ∉ ap'.mbrHandles ∧ m < ap'.actionEntries.size) ∧ m < ap.actionEntries.size ∧
      EntryReadable objs (ap.actionEntries.get m) ∧ True ↔
        m < ap.actionEntries.size ∧ EntryReadable objs (ap.actionEntries.get m) := by
    rw [hsize]
    exact ⟨fun h => ⟨h.2.2.1, h.2.2.2.1⟩, fun h => ⟨trivial, ⟨hfree, h.1⟩, h.1, h.2, trivial⟩⟩
  refine Reads.congr ?_ hcond
  refine (reads_natural m).bind fun m' hm' => ?_
  subst m'
  refine Reads.ite_abort fun _ => Reads.guarded fun _ => ?_
  exact (reads_entry (ap'.actionEntries.get m) (ap.actionEntries.get m)).map fun e _ =>
    .done trivial ⟨rfl, hsize, rfl, rfl⟩

/-- All members, one after the other. -/
theorem reads_members (hsize : ap'.actionEntries.size = ap.actionEntries.size)
    (hnone : ap'.mbrHandles = ∅) (hgroups : ap'.groups.size = 0) (hempty : ap'.grpHandles = ∅) :
    Reads (.all (fun m : ℕ => putInt m ++ .guarded (m < ap.actionEntries.size)
        (ActionEntry.serialize objs (ap.actionEntries.get m))) (sortedHandles ap.mbrHandles))
      (Reader.iterate (deserializeMember objs) (sortedHandles ap.mbrHandles).length ap')
      (∀ m ∈ sortedHandles ap.mbrHandles, m < ap.actionEntries.size ∧
        EntryReadable objs (ap.actionEntries.get m))
      fun ap'' => ap''.groups.size = 0 ∧ ap''.grpHandles = ∅ := by
  refine (Reads.iterate (I := fun l ap' => l.Nodup ∧ (∀ m ∈ l, m ∉ ap'.mbrHandles) ∧
    ap'.actionEntries.size = ap.actionEntries.size ∧ ap'.groups.size = 0 ∧ ap'.grpHandles = ∅)
      ⟨nodup_sortedHandles _, fun _ _ => hnone ▸ Finset.notMem_empty _, hsize, hgroups, hempty⟩
      ?_).mono fun _ h => h.2.2.2
  rintro m l ap' ⟨hnodup, hfree, hsize, hgsize, hempty⟩
  obtain ⟨hm, hnodup⟩ := List.nodup_cons.mp hnodup
  refine (reads_member (hfree m List.mem_cons_self) hsize).mono ?_
  rintro ap'' ⟨hhandles, hsize', hgroups', hgrp⟩
  refine ⟨hnodup, fun x hx => ?_, hsize', by rw [hgroups', hgsize], by rw [hgrp, hempty]⟩
  rw [hhandles, Finset.mem_insert, not_or]
  exact ⟨fun heq => hm (heq ▸ hx), hfree x (List.mem_cons_of_mem _ hx)⟩

/-- All groups, each appended to those before it. -/
theorem reads_groups (hsize : ap'.groups.size = 0) (hempty : ap'.grpHandles = ∅) :
    Reads (.all (fun g : ℕ => putInt g ++ .guarded (g < ap.groups.size)
        (serializeGroup (ap.groups.get g))) (sortedHandles ap.grpHandles))
      (Reader.iterate deserializeGroupOf (sortedHandles ap.grpHandles).length ap')
      (∀ g ∈ sortedHandles ap.grpHandles, g < ap.groups.size ∧ ∀ i < g, i ∈ ap.grpHandles)
      fun _ => True := by
  refine (Reads.iterate (I := fun l ap' => ∃ done, done ++ l = sortedHandles ap.grpHandles ∧
    (∀ i, i ∈ done ↔ i < done.length) ∧ ap'.groups.size = done.length ∧
      ∀ i, i ∈ ap'.grpHandles ↔ i ∈ done) ?_ ?_).mono fun _ _ => trivial
  · exact ⟨[], rfl, by simp, hsize, fun i => by simp [hempty]⟩
  · rintro g l ap' ⟨done, hl, hdone, hsize, hhandles⟩
    have hnotMem : g ∉ done := by
      have hnodup := nodup_sortedHandles ap.grpHandles
      rw [← hl, List.nodup_append] at hnodup
      intro hmem
      exact hnodup.2.2 g hmem g List.mem_cons_self rfl
    have hge : done.length ≤ g := not_lt.mp fun hlt => hnotMem ((hdone g).mpr hlt)
    have hiff : g ≤ done.length ↔ ∀ i < g, i ∈ ap.grpHandles := by
      constructor
      · intro hle i hi
        rw [← mem_sortedHandles, ← hl]
        exact List.mem_append_left _ ((hdone i).mpr (by omega))
      · intro hsub
        exact (eq_of_noGaps hl hsub hdone).le
    refine (reads_groupOf (fun hmem => hnotMem ((hhandles g).mp hmem)) hsize hge hiff).mono ?_
    rintro ap'' ⟨hg, hinsert, hsize'⟩
    have hlen : (done ++ [g]).length = done.length + 1 := by simp
    refine ⟨done ++ [g], by rw [List.append_assoc]; exact hl, fun i => ?_, by rw [hlen, hsize'],
      fun i => ?_⟩
    · rw [List.mem_append, List.mem_singleton, hdone, hlen]
      omega
    · rw [hinsert, Finset.mem_insert, hhandles, List.mem_append, List.mem_singleton]
      exact or_comm

/-- The group of a handle that has none is not there to be written. -/
theorem serialize_of_group_out {g : ℕ} (hg : g ∈ ap.grpHandles) (hout : ap.groups.size ≤ g)
    (items : List Item) : ActionProfile.serialize objs ap ≠ some items := by
  intro hitems
  obtain ⟨_, _, -, h, -⟩ := Writer.append_eq_some hitems
  obtain ⟨_, _, -, h, -⟩ := Writer.append_eq_some h
  obtain ⟨_, _, -, h, -⟩ := Writer.append_eq_some h
  obtain ⟨_, _, -, h, -⟩ := Writer.append_eq_some h
  obtain ⟨_, _, -, h, -⟩ := Writer.append_eq_some h
  obtain ⟨_, _, -, h, -⟩ := Writer.append_eq_some h
  obtain ⟨_, h⟩ := Writer.all_eq_some h g (mem_sortedHandles.mpr hg)
  obtain ⟨_, _, -, h, -⟩ := Writer.append_eq_some h
  have hlt := Writer.guarded_eq_some h
  omega

/-- **An action profile** is read back into a new one. -/
theorem reads_profile (hcount : ProfileCounted ap) (ws : Bool) :
    Reads (ActionProfile.serialize objs ap) (ActionProfile.deserialize objs (.create ws))
      (ProfileReadable objs ap) fun _ => True := by
  rcases hcount.groups with hgroups | ⟨g, hg, hout⟩
  swap
  · exact ⟨fun h => absurd (h.groups g hg).1 (by omega), fun _ items hitems =>
      absurd hitems (serialize_of_group_out hg hout items)⟩
  have hcond : True ∧ True ∧ (∀ m ∈ sortedHandles ap.mbrHandles, m < ap.actionEntries.size ∧
      EntryReadable objs (ap.actionEntries.get m)) ∧ True ∧ True ∧ True ∧
        (∀ g ∈ sortedHandles ap.grpHandles, g < ap.groups.size ∧ ∀ i < g, i ∈ ap.grpHandles) ↔
      ProfileReadable objs ap := by
    simp only [mem_sortedHandles, true_and]
    exact ⟨fun h => ⟨h.1, h.2⟩, fun h => ⟨h.members, h.groups⟩⟩
  refine Reads.congr ?_ hcond
  refine (reads_natural ap.actionEntries.size).bind fun size hsize => ?_
  subst size
  refine (reads_natural ap.numMembers).bind fun n hn => ?_
  subst n
  rw [hcount.members, ← length_sortedHandles]
  refine (reads_members (by rfl) (by rfl) (by rfl) (by rfl)).bind fun ap₁ ⟨hgsize, hempty⟩ => ?_
  refine (reads_counts ap.mbrCount).bind fun mbrCount _ => ?_
  refine (reads_counts ap.grpCount).bind fun grpCount _ => ?_
  refine (reads_natural ap.numGroups).bind fun n hn => ?_
  subst n
  rw [hgroups, ← length_sortedHandles]
  exact reads_groups hgsize hempty

end Serialization

end P4Bricks
