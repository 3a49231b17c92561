import P4Bricks.Ageing.Model
/-!
# Slots that have a timeout

A timeout is set through a handle, and a handle has 24 bits for its slot. So the slots
beyond have none, whatever is requested, and the slots that a sweep reports have handles
that differ.
-/

namespace P4Bricks

open Lookup MatchUnit MatchTables

namespace Ageing

variable {σ P K V M C : Type}

/-- No slot beyond those of the handles has a timeout. -/
def InReach (u : MatchUnit σ K V) : Prop := ∀ i, 2 ^ 24 ≤ i → (u.entryMeta i).timeoutMs = 0

/-- A unit whose timeouts are those of another, but for slots that a handle reaches. -/
theorem InReach.of_eq {σ' : Type} {u : MatchUnit σ K V} {u' : MatchUnit σ' K V} (h : InReach u)
    (heq : ∀ i, 2 ^ 24 ≤ i → (u'.entryMeta i).timeoutMs = (u.entryMeta i).timeoutMs) :
    InReach u' :=
  fun i hi => (heq i hi).trans (h i hi)

/-- What is written through a handle. -/
theorem InReach.update {u : MatchUnit σ K V} (h : InReach u) (handle : EntryHandle)
    (entryMeta : EntryMeta) :
    InReach { u with
      entryMeta := Function.update u.entryMeta (handleInternal handle) entryMeta } := by
  refine h.of_eq fun i hi => ?_
  have hne : i ≠ handleInternal handle := by
    have := handleInternal_lt handle
    omega
  exact congrArg _ (Function.update_of_ne hne _ _)

section

variable [LookupStructure σ K] [Inhabited K] [Inhabited V] {u : MatchUnit σ K V}
  {kb : KeyBuilder P K}

omit [LookupStructure σ K] in
/-- A new unit has no timeouts. -/
theorem inReach_create (size : ℕ) (ls : σ) : InReach (.create size ls : MatchUnit σ K V) :=
  fun _ _ => rfl

omit [Inhabited K] [Inhabited V] in
/-- A new entry sets no timeout. -/
theorem InReach.addEntry (h : InReach u) (matchKey : P) (value : V) (priority : ℤ) (now : ℕ) :
    InReach (u.addEntry kb matchKey value priority now).2 := by
  rcases hadd : u.addEntry kb matchKey value priority now with ⟨e | handle, u'⟩
  · obtain rfl := addEntry_eq_error hadd
    exact h
  · obtain ⟨-, -, -, -, hu⟩ := addEntry_eq_ok hadd
    subst hu
    exact InReach.update h handle _

omit [Inhabited K] [Inhabited V] in
/-- An entry that goes keeps its meta data, timeout included. -/
theorem InReach.deleteEntry (h : InReach u) (handle : EntryHandle) :
    InReach (u.deleteEntry handle).2 := by
  rcases hc : u.checkHandle handle with e | i
  · rw [deleteEntry_of_error hc]
    exact h
  · rw [deleteEntry_of_ok hc]
    exact h

omit [LookupStructure σ K] [Inhabited K] [Inhabited V] in
/-- A new value sets no timeout. -/
theorem InReach.modifyEntry (h : InReach u) (handle : EntryHandle) (value : V) :
    InReach (u.modifyEntry handle value).2 := by
  rcases hc : u.checkHandle handle with e | i
  · rw [modifyEntry_of_error hc]
    exact h
  · rw [modifyEntry_of_ok hc]
    exact h

omit [Inhabited K] [Inhabited V] in
/-- A hit changes the counters and the time, and no timeout. -/
theorem InReach.lookup (h : InReach u) (key : ByteContainer) (length now : ℕ) :
    InReach (u.lookup key length now).2 := by
  unfold MatchUnit.lookup lookupKey
  rcases LookupStructure.lookup u.lookupStructure key with ⟨_ | i, ls⟩
  · exact h
  · refine h.of_eq fun j hj => ?_
    have hne : j ≠ handleInternal (handleSet (u.entries i).version i) := by
      have := handleInternal_lt (handleSet (u.entries i).version i)
      omega
    exact congrArg EntryMeta.timeoutMs (Function.update_of_ne hne _ _)

end

section

variable [LookupStructure σ K] [Inhabited K] [Meter M C] {kb : KeyBuilder P K}
  {ap ap' : ActionProfile}

omit [Meter M C] in
/-- Whatever a request does to the unit of a table. -/
theorem InReach.of_effect [Inhabited V] {u u' : MatchUnit σ K V} {res : Result (Reply P C)}
    (h : InReach u) (he : UnitEffect kb u res u') : InReach u' := by
  cases he with
  | touch entryMeta hbeyond _ => exact h.of_eq hbeyond
  | lookup key length now => exact h.lookup key length now
  | add matchKey value priority now => exact h.addEntry matchKey value priority now
  | delete handle => exact h.deleteEntry handle
  | modify handle value => exact h.modifyEntry handle value
  | reset => exact fun _ _ => rfl

/-- What is asked of a table's unit. -/
def TableInReach : Table σ K M → Prop
  | .direct t => InReach t.matchUnit
  | .indirect t => InReach t.matchUnit

/-- **One request on a table** keeps timeouts in reach. -/
theorem TableInReach.step {tbl tbl' : Table σ K M} (h : TableInReach tbl) {r : TableRequest P C}
    {res : Result (Reply P C)} (hstep : tbl.step kb ap r = some (res, tbl', ap')) :
    TableInReach tbl' := by
  cases tbl with
  | direct t =>
    obtain ⟨t', rfl, -, he⟩ := Table.step_direct hstep
    exact InReach.of_effect h he
  | indirect t =>
    obtain ⟨t', rfl, he, -⟩ := Table.step_indirect hstep
    exact InReach.of_effect h he.unitEffect

end

/-! ## Tables as they are loaded -/

section

variable [LookupStructure σ K] {kb : KeyBuilder P K} {t t' : MatchTable σ K M}

omit [LookupStructure σ K] in
/-- A default entry is not in the match unit. -/
theorem inReach_setDefaultEntry (h : InReach t.matchUnit) {fn : ActionFn} {data : List ℤ}
    {isConst : Bool} (hset : t.setDefaultEntry fn data isConst = some t') :
    InReach t'.matchUnit := by
  unfold MatchTable.setDefaultEntry at hset
  split at hset
  · next u t₁ hs =>
    obtain rfl := Option.some.inj hset
    rcases MatchTable.setDefaultAction_eq_some hs with ⟨-, -, rfl⟩ | ⟨-, -, -, -, -, rfl⟩
    · exact h
    · exact h
  · cases hset

/-- An entry of the configuration is an entry like any other, -/
theorem inReach_loadEntry (h : InReach t.matchUnit) {now : ℕ} {entry : P × ActionFn × List ℤ × ℤ}
    (hload : t.loadEntry kb now entry = some t') : InReach t'.matchUnit := by
  unfold MatchTable.loadEntry at hload
  split at hload
  · next handle t₁ hadd =>
    obtain rfl := Option.some.inj hload
    rcases MatchTable.addEntry_eq_some hadd with ⟨-, -, rfl⟩ | ⟨nextNode, -, -, -, rfl⟩
    · exact h
    · exact h.addEntry _ _ _ _
  · cases hload

/-- and so are all of them, -/
theorem inReach_foldlM_loadEntry (h : InReach t.matchUnit) {now : ℕ}
    {entries : List (P × ActionFn × List ℤ × ℤ)}
    (hload : entries.foldlM (MatchTable.loadEntry kb now) t = some t') : InReach t'.matchUnit := by
  induction entries generalizing t with
  | nil =>
    cases hload
    exact h
  | cons entry entries ih =>
    obtain ⟨t₁, hone, hrest⟩ := Option.bind_eq_some_iff.mp hload
    exact ih (inReach_loadEntry h hone) hrest

/-- with the default entry before them. -/
theorem inReach_load (h : InReach t.matchUnit) {now : ℕ} {cfg : DirectConfig P}
    (hload : MatchTable.load kb now t cfg = some t') : InReach t'.matchUnit := by
  obtain ⟨t₁, hdefault, hentries⟩ := Option.bind_eq_some_iff.mp hload
  have h₁ : InReach t₁.matchUnit := by
    rcases hd : cfg.defaultEntry with _ | e
    · rw [hd] at hdefault
      cases hdefault
      rwa [resolveNextNodes_matchUnit]
    · rw [hd] at hdefault
      refine inReach_setDefaultEntry ?_ hdefault
      rwa [resolveNextNodes_matchUnit]
  rcases he : cfg.entries with _ | entries
  · rw [he] at hentries
    cases hentries
    exact h₁
  · rw [he] at hentries
    obtain ⟨t₂, hfold, heq⟩ := Option.bind_eq_some_iff.mp hentries
    have h₂ := inReach_foldlM_loadEntry h₁ hfold
    cases heq
    exact h₂

/-- A table that was loaded has no timeout out of reach. -/
theorem tableInReach_of_loaded [LiveLookup σ K] [Inhabited K] {cfg : NextTables}
    {tbl : Table σ K M} (h : Table.Loaded kb cfg tbl) : TableInReach tbl := by
  rcases h with ⟨hls, _, _, _, _, _, _, hload⟩ | ⟨size, ls, _, _, _, _, _, cfg⟩
  · exact inReach_load (inReach_create _ _) hload
  · have hnew := inReach_create (V := IndirectIndex) (K := K) size ls
    refine InReach.of_eq hnew fun i _ => ?_
    rw [resolveNextNodes_matchUnit]
    rfl

end

end Ageing

end P4Bricks
