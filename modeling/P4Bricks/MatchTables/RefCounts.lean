import P4Bricks.MatchTables.Helpers.Effects
import P4Bricks.MatchUnit.HandleLife
import Mathlib.Algebra.BigOperators.Fin
/-!
# Reference counts across tables

The counts of a profile against the entries of all tables that point into it.
Three operations let them part: an addition counts its index before the match
unit may refuse the entry, a modification uncounts the old index before the
new one is checked, and a reset of a table uncounts nothing; a reset of the
profile forgets the groups but not their handles. In runs that never come to
that (`CountSafe`) the counts are right in every state (`Run.counted`).
-/

namespace P4Bricks

open Lookup MatchUnit

/-! ## References from one unit -/

namespace MatchUnit

variable {σ P K : Type*} {u u' : MatchUnit σ K IndirectIndex} {h : EntryHandle} {i : ℕ}

/-- The live entries that hold an index. -/
def entryRefs (u : MatchUnit σ K IndirectIndex) (index : IndirectIndex) : ℕ :=
  (u.handles.filter fun i => (u.entries i).value = index).card

/-- One entry of the unit, and the others. -/
theorem entryRefs_erase (hi : i ∈ u.handles) (index : IndirectIndex) :
    ((u.handles.erase i).filter fun j => (u.entries j).value = index).card +
      (if index = (u.entries i).value then 1 else 0) = u.entryRefs index := by
  rw [entryRefs, Finset.filter_erase]
  by_cases hv : (u.entries i).value = index
  · have hmem : i ∈ u.handles.filter fun j => (u.entries j).value = index :=
      Finset.mem_filter.mpr ⟨hi, hv⟩
    rw [if_pos hv.symm, Finset.card_erase_add_one hmem]
  · rw [if_neg (Ne.symm hv), Finset.erase_eq_of_notMem (by simp [hv]), Nat.add_zero]

/-- An entry put in a free slot holds one reference more. -/
theorem card_filter_put (entries : ℕ → Entry K IndirectIndex) {handles : Finset ℕ}
    (hi : i ∉ handles) (entry : Entry K IndirectIndex) (index : IndirectIndex) :
    ((insert i handles).filter fun j => (Function.update entries i entry j).value = index).card =
      (handles.filter fun j => (entries j).value = index).card +
        if index = entry.value then 1 else 0 := by
  have hother : handles.filter (fun j => (Function.update entries i entry j).value = index) =
      handles.filter fun j => (entries j).value = index := by
    refine Finset.filter_congr fun j hj => ?_
    have hne : j ≠ i := fun heq => hi (heq ▸ hj)
    rw [Function.update_of_ne hne]
  rw [Finset.filter_insert, hother, Function.update_self]
  by_cases hv : entry.value = index
  · rw [if_pos hv, if_pos hv.symm, Finset.card_insert_of_notMem (by simp [hi])]
  · rw [if_neg hv, if_neg (Ne.symm hv), Nat.add_zero]

theorem entryRefs_modifyEntry (hc : u.checkHandle h = .ok i) (value index : IndirectIndex) :
    (u.modifyEntry h value).2.entryRefs index + (if index = (u.entries i).value then 1 else 0) =
      u.entryRefs index + if index = value then 1 else 0 := by
  obtain ⟨-, hi, -⟩ := checkHandle_eq_ok.mp hc
  have hold := entryRefs_erase hi index
  have hnew := card_filter_put u.entries (Finset.notMem_erase i u.handles)
    { u.entries i with value := value } index
  simp only [Finset.insert_erase hi] at hnew
  rw [modifyEntry_of_ok hc, entryRefs, hnew]
  omega

variable [LookupStructure σ K]

theorem entryRefs_addEntry {kb : KeyBuilder P K} {matchKey : P} {value : IndirectIndex}
    {priority : ℤ} {now : ℕ} (hadd : u.addEntry kb matchKey value priority now = (.ok h, u'))
    (index : IndirectIndex) :
    u'.entryRefs index = u.entryRefs index + if index = value then 1 else 0 := by
  obtain ⟨-, -, -, -, rfl⟩ := addEntry_eq_ok hadd
  exact card_filter_put u.entries (firstFree_notMem _) _ index

theorem entryRefs_deleteEntry (hc : u.checkHandle h = .ok i) (index : IndirectIndex) :
    (u.deleteEntry h).2.entryRefs index + (if index = (u.entries i).value then 1 else 0) =
      u.entryRefs index := by
  obtain ⟨-, hi, -⟩ := checkHandle_eq_ok.mp hc
  have hother : (u.handles.erase i).filter (fun j => ((u.deleteEntry h).2.entries j).value = index) =
      (u.handles.erase i).filter fun j => (u.entries j).value = index := by
    refine Finset.filter_congr fun j hj => ?_
    rw [deleteEntry_of_ok hc]
    simp only [Function.update_of_ne (Finset.ne_of_mem_erase hj)]
  rw [← entryRefs_erase hi index, ← hother, deleteEntry_of_ok hc]
  rfl

theorem entryRefs_lookup (key : ByteContainer) (length now : ℕ) :
    (u.lookup key length now).2.entryRefs = u.entryRefs := by
  obtain ⟨hh, he, -, -⟩ := lookup_eq (u := u) key length now
  unfold entryRefs
  rw [hh, he]

/-- The unit has room for an entry with the key, which is sane and new. -/
def Accepts (kb : KeyBuilder P K) (u : MatchUnit σ K IndirectIndex) (matchKey : P)
    (priority : ℤ) : Prop :=
  kb.matchParamsSanityCheck matchKey = true ∧
    LookupStructure.entryExists u.lookupStructure (kb.matchParamsToEntry matchKey priority) = false ∧
    u.numEntries < u.size

theorem Accepts.addEntry {kb : KeyBuilder P K} {matchKey : P} {priority : ℤ}
    (ha : u.Accepts kb matchKey priority) (value : IndirectIndex) (now : ℕ) :
    ∃ h u', u.addEntry kb matchKey value priority now = (.ok h, u') := by
  obtain ⟨hsane, hnew, hroom⟩ := ha
  simp [MatchUnit.addEntry, addEntry_, KeyBuilder.buildEntryFromMatchKey, getAndSetHandle, hsane,
    hnew, Nat.not_le.mpr hroom]

end MatchUnit

namespace MatchTables

section

variable {σ P K M C : Type} [LookupStructure σ K] [Inhabited K]

/-- The live entries of a table that point at an index. -/
def Table.entryRefs : Table σ K M → IndirectIndex → ℕ
  | .direct _, _ => 0
  | .indirect t, index => t.matchUnit.entryRefs index

theorem Table.entryRefs_resetState (tbl : Table σ K M) (index : IndirectIndex) :
    tbl.resetState.entryRefs index = 0 := by
  cases tbl <;> rfl

/-- **The condition on a table's request**: no addition is refused by the unit
after its index was found usable, no live entry is made to point at something
unusable, and only an empty table is reset. -/
def MatchTableIndirect.CountSafe (kb : KeyBuilder P K) (t : MatchTableIndirect σ K M)
    (ap : ActionProfile) (r : TableRequest P C) : Prop :=
  (∀ matchKey index priority now, t.adds r = some (matchKey, index, priority, now) →
    Usable ap index → t.matchUnit.Accepts kb matchKey priority) ∧
  (∀ h index i, t.modifies r = some (h, index) → t.matchUnit.checkHandle h = .ok i →
    Usable ap index) ∧
  (r = .resetState → t.matchUnit.handles = ∅)

theorem Usable.valid {ap : ActionProfile} {index : IndirectIndex} (hu : Usable ap index) :
    ap.Valid index := by
  cases index with
  | mbr m => exact hu
  | grp g => exact hu.1

variable {kb : KeyBuilder P K} {t : MatchTableIndirect σ K M} {ap ap' : ActionProfile}
  {r : TableRequest P C} {res : Result (Reply P C)} {u' : MatchUnit σ K IndirectIndex}
  {rest : IndirectIndex → ℕ}

omit [Inhabited K] in
open ActionProfile in
/-- An entry takes a free slot and is counted, beside the references `rest` of
others. -/
theorem counted_add {matchKey : P} {index : IndirectIndex} {priority : ℤ} {now : ℕ}
    {h : EntryHandle} (hadd : t.matchUnit.addEntry kb matchKey index priority now = (.ok h, u'))
    (hindex : Usable ap index) (hincr : ap.refCountIncrease index = some ap')
    (hc : Counted ap fun index => t.matchUnit.entryRefs index + rest index)
    (hf : Fits ap fun index => t.matchUnit.entryRefs index + rest index) :
    Counted ap' fun index => u'.entryRefs index + rest index := by
  refine hc.increase hf hindex.valid hincr fun index' => ?_
  simp only [entryRefs_addEntry hadd]
  omega

omit [Inhabited K] in
open ActionProfile in
theorem counted_delete {h : EntryHandle} {i : ℕ} (hchk : t.matchUnit.checkHandle h = .ok i)
    (hdecr : ap.refCountDecrease (t.matchUnit.entries i).value = some ap')
    (hc : Counted ap fun index => t.matchUnit.entryRefs index + rest index)
    (hf : Fits ap fun index => t.matchUnit.entryRefs index + rest index) :
    Counted ap' fun index => (t.matchUnit.deleteEntry h).2.entryRefs index + rest index := by
  refine hc.decrease hf hdecr fun index' => ?_
  have hdel := entryRefs_deleteEntry hchk index'
  omega

omit [LookupStructure σ K] [Inhabited K] in
open ActionProfile in
theorem counted_modify {h : EntryHandle} {i : ℕ} {index : IndirectIndex} {ap₁ : ActionProfile}
    (hchk : t.matchUnit.checkHandle h = .ok i)
    (hdecr : ap.refCountDecrease (t.matchUnit.entries i).value = some ap₁)
    (hindex : Usable ap index) (hincr : ap₁.refCountIncrease index = some ap')
    (hc : Counted ap fun index => t.matchUnit.entryRefs index + rest index)
    (hf : Fits ap fun index => t.matchUnit.entryRefs index + rest index) :
    Counted ap' fun index' =>
      (t.matchUnit.modifyEntry h index).2.entryRefs index' + rest index' := by
  -- In between, the entry is counted nowhere.
  obtain ⟨-, hi, -⟩ := checkHandle_eq_ok.mp hchk
  let between : IndirectIndex → ℕ := fun index' =>
    ((t.matchUnit.handles.erase i).filter fun j =>
      (t.matchUnit.entries j).value = index').card + rest index'
  have hold := fun index' => entryRefs_erase hi index'
  have hc₁ : Counted ap₁ between := hc.decrease hf hdecr fun index' => by
    have := hold index'
    simp only [between]
    omega
  obtain ⟨hm, hg, hgs, -⟩ := modifyCount_eq hdecr
  have hf₁ : Fits ap₁ between := by
    intro index'
    have hle : between index' ≤ t.matchUnit.entryRefs index' + rest index' := by
      have := hold index'
      simp only [between]
      omega
    have hlt := hf index'
    cases index' with
    | mbr m =>
      simp only [refs, groupRefs, hg, hgs] at hlt ⊢
      omega
    | grp g =>
      simp only [refs] at hlt ⊢
      omega
  have hvalid : ap₁.Valid index := by
    have hv := hindex.valid
    cases index with
    | mbr m => simpa only [Valid, hm] using hv
    | grp g => simpa only [Valid, hg] using hv
  refine hc₁.increase hf₁ hvalid hincr fun index' => ?_
  have hmod := entryRefs_modifyEntry hchk index index'
  have := hold index'
  simp only [between]
  omega

open ActionProfile in
/-- A safe request on one table. -/
theorem Effect.counted (he : Effect kb t ap r res u' ap') (hsafe : t.CountSafe kb ap r)
    (hc : Counted ap fun index => t.matchUnit.entryRefs index + rest index)
    (hf : Fits ap fun index => t.matchUnit.entryRefs index + rest index) :
    Counted ap' fun index => u'.entryRefs index + rest index := by
  cases he with
  | touch entryMeta _ _ => exact hc
  | lookup key length now entries _ _ =>
    rw [entryRefs_lookup]
    exact ⟨hc.valid, hc.members, hc.count⟩
  | @add matchKey index priority now _ hr hindex hincr =>
    obtain ⟨h, u', hadd⟩ := (hsafe.1 _ _ _ _ hr hindex).addEntry index now
    rw [hadd]
    exact counted_add hadd hindex hincr hc hf
  | delete hchk hdecr => exact counted_delete hchk hdecr hc hf
  | modify hr hchk hdecr hindex hincr => exact counted_modify hchk hdecr hindex hincr hc hf
  | refuse hr hchk hdecr hindex => exact absurd (hsafe.2.1 _ _ _ hr hchk) hindex
  | reset hr =>
    have hempty := hsafe.2.2 hr
    have hzero : t.matchUnit.resetState.entryRefs = t.matchUnit.entryRefs := by
      funext index
      rw [entryRefs, entryRefs, hempty]
      rfl
    rwa [hzero]

end

/-! ## The runtime -/

namespace Runtime

variable {ι P M C : Type} {σ K : ι → Type} [DecidableEq ι] [Fintype ι] {s s' : Runtime ι σ K M}

/-- The live entries of all tables that point at an index. -/
def entryRefs (s : Runtime ι σ K M) (index : IndirectIndex) : ℕ :=
  ∑ t, (s.tables t).entryRefs index

/-- A new profile, and tables without entries. -/
structure Fresh (s : Runtime ι σ K M) : Prop where
  profile_eq : s.profile = .create s.profile.withSelection
  tables_eq : ∀ t index, (s.tables t).entryRefs index = 0

omit [DecidableEq ι] in
theorem Fresh.counted (hs : Fresh s) : s.profile.Counted s.entryRefs := by
  have hE : s.entryRefs = fun _ => 0 := by
    funext index
    exact Finset.sum_eq_zero fun t _ => hs.tables_eq t index
  rw [hE, hs.profile_eq]
  exact ActionProfile.counted_create _

/-- The references of one table and those of the others. -/
theorem entryRefs_eq (t : ι) (index : IndirectIndex) :
    s.entryRefs index =
      (s.tables t).entryRefs index + ∑ t' ∈ Finset.univ.erase t, (s.tables t').entryRefs index :=
  (Finset.add_sum_erase _ _ (Finset.mem_univ t)).symm

theorem entryRefs_update (ap : ActionProfile) (t : ι) (tbl : Table (σ t) (K t) M)
    (index : IndirectIndex) :
    entryRefs ⟨ap, Function.update s.tables t tbl⟩ index =
      tbl.entryRefs index + ∑ t' ∈ Finset.univ.erase t, (s.tables t').entryRefs index := by
  rw [entryRefs_eq t]
  simp only [Function.update_self]
  congr 1
  refine Finset.sum_congr rfl fun t' ht' => ?_
  rw [Function.update_of_ne (Finset.ne_of_mem_erase ht')]

variable [∀ t, LookupStructure (σ t) (K t)] [∀ t, Inhabited (K t)] [Meter M C]
  {kb : (t : ι) → KeyBuilder P (K t)}

/-- **The condition on a request**: no count is about to wrap, a request on an
indirect table is safe, and the profile has no group when all is reset. -/
def CountSafe (kb : (t : ι) → KeyBuilder P (K t)) (s : Runtime ι σ K M) (r : Request ι P C) :
    Prop :=
  s.profile.Fits s.entryRefs ∧
  (∀ t q tbl, r = .table t q → s.tables t = .indirect tbl →
    tbl.CountSafe (kb t) s.profile q) ∧
  (r = .resetState → s.profile.grpHandles = ∅)

theorem counted_step {r : Request ι P C} {res : Result (Reply P C)}
    (hc : s.profile.Counted s.entryRefs) (hsafe : CountSafe kb s r)
    (hstep : s.step kb r = some (res, s')) : s'.profile.Counted s'.entryRefs := by
  obtain ⟨hf, htable, hreset⟩ := hsafe
  cases r with
  | addMember fn data =>
    obtain ⟨_, ap, h, rfl⟩ := Answer.ofTable_eq_some hstep
    exact hc.addMember h
  | deleteMember mbr =>
    obtain ⟨_, ap, h, rfl⟩ := Answer.ofTable_eq_some hstep
    exact hc.deleteMember h
  | modifyMember mbr fn data =>
    obtain ⟨_, ap, h, rfl⟩ := Answer.ofTable_eq_some hstep
    exact hc.modifyMember h
  | createGroup =>
    obtain ⟨_, ap, h, rfl⟩ := Answer.ofTable_eq_some hstep
    exact hc.createGroup h
  | deleteGroup grp =>
    obtain ⟨_, ap, h, rfl⟩ := Answer.ofTable_eq_some hstep
    exact hc.deleteGroup hf h
  | addMemberToGroup mbr grp =>
    obtain ⟨_, ap, h, rfl⟩ := Answer.ofTable_eq_some hstep
    exact hc.addMemberToGroup hf h
  | removeMemberFromGroup mbr grp =>
    obtain ⟨_, ap, h, rfl⟩ := Answer.ofTable_eq_some hstep
    exact hc.removeMemberFromGroup hf h
  | table t q =>
    obtain ⟨tbl', ap, htbl, rfl⟩ := step_table_eq_some hstep
    -- Only the entries of the table `t` change: the references of the others are set apart.
    have hE : s.entryRefs = fun index => (s.tables t).entryRefs index +
        ∑ t' ∈ Finset.univ.erase t, (s.tables t').entryRefs index := funext (entryRefs_eq t)
    rw [hE] at hc hf
    have hE' := funext (entryRefs_update (s := s) ap t tbl')
    rw [hE']
    cases hk : s.tables t with
    | direct tbl =>
      rw [hk] at htbl hc
      obtain ⟨t', rfl, rfl, -⟩ := Table.step_direct htbl
      exact hc
    | indirect tbl =>
      rw [hk] at htbl hc hf
      obtain ⟨t', rfl, heff, -⟩ := Table.step_indirect htbl
      exact heff.counted (htable t q tbl rfl hk) hc hf
  | resetState =>
    cases hstep
    -- Without entries no table holds a reference.
    have hE : entryRefs (⟨s.profile.resetState, fun t => (s.tables t).resetState⟩ :
        Runtime ι σ K M) = fun _ => 0 := by
      funext index
      exact Finset.sum_eq_zero fun t _ => (s.tables t).entryRefs_resetState index
    have hprofile : s.profile.resetState = .create s.profile.withSelection := by
      rw [ActionProfile.resetState, hreset rfl]
      rfl
    rw [hE, hprofile]
    exact ActionProfile.counted_create _

/-- **The counts in every state of a safe run.** Starting from a new profile
and empty tables, the count of each member is the number of live entries that
point at it plus the number of groups that contain it, and the count of each
group is the number of live entries that point at it. -/
theorem RunIf.refCountGet_eq {trace : List (Request ι P C × Result (Reply P C))}
    (hfresh : Fresh s) (hrun : RunIf kb (CountSafe kb) s trace s') :
    (∀ m ∈ s'.profile.mbrHandles, s'.profile.refCountGet (.mbr m) =
      some (∑ t, (s'.tables t).entryRefs (.mbr m) +
        (s'.profile.grpHandles.filter fun g => m ∈ s'.profile.groups.get g).card)) ∧
    (∀ g ∈ s'.profile.grpHandles, s'.profile.refCountGet (.grp g) =
      some (∑ t, (s'.tables t).entryRefs (.grp g))) := by
  have hc : s'.profile.Counted s'.entryRefs := by
    have h := hfresh.counted
    clear hfresh
    induction hrun with
    | nil s => exact h
    | cons hok hstep _ ih => exact ih (counted_step h hok hstep)
  exact ⟨fun m hm => hc.count (.mbr m) hm, fun g hg => hc.count (.grp g) hg⟩

/-! ## A duplicate entry -/

/-- One indirect table over exact keys, and its profile. -/
def shared : Runtime Unit (fun _ => ExactMap) (fun _ => ExactMatchKey) Unit where
  profile := .create false
  tables _ := .indirect
    { matchUnit := MatchUnit.create 4 ExactMap.create, withCounters := false, withAgeing := false,
      withMeters := false, directMeters := fun _ => (), nextNodes := fun _ => some none,
      withSelector := false }

/-- A member is added and an entry that points at it, and then the same entry
again. The second addition is refused, but the member is counted twice. -/
theorem shared_counted_twice :
    ∃ s', Run (fun _ => byteKeyBuilder) shared
        [(.addMember ⟨1, 0⟩ [], .ok (.member 0)),
          (.table () (.indirect (.addEntry [7] 0 0 0)), .ok (.handle 0)),
          (.table () (.indirect (.addEntry [7] 0 0 0)), .error .duplicateEntry)] s' ∧
      s'.profile.refCountGet (.mbr 0) = some 2 ∧
      ∑ t, (s'.tables t).entryRefs (.mbr 0) = 1 ∧ s'.profile.grpHandles = ∅ :=
  ⟨_, .cons trivial rfl (.cons trivial rfl (.cons trivial rfl (.nil _))), rfl, rfl, rfl⟩

theorem shared_fresh : Fresh shared := ⟨rfl, fun _ _ => rfl⟩

/-- Without the duplicate, the member is counted once. -/
theorem shared_counted_once :
    ∃ s', RunIf (fun _ => byteKeyBuilder) (CountSafe fun _ => byteKeyBuilder) shared
        [(.addMember ⟨1, 0⟩ [], .ok (.member 0)),
          (.table () (.indirect (.addEntry [7] 0 0 0)), .ok (.handle 0))] s' ∧
      s'.profile.refCountGet (.mbr 0) = some 1 := by
  have hzero : ∀ s : Runtime Unit (fun _ => ExactMap) (fun _ => ExactMatchKey) Unit,
      s.profile.grpHandles = ∅ → (∀ index, s.entryRefs index = 0) →
      s.profile.Fits s.entryRefs := by
    intro s hg hE index
    cases index with
    | mbr m => simp [ActionProfile.refs, ActionProfile.groupRefs, hg, hE, ActionProfile.countMod]
    | grp g => simp [ActionProfile.refs, hE, ActionProfile.countMod]
  have hmember : CountSafe (fun _ => byteKeyBuilder) shared
      (.addMember ⟨1, 0⟩ [] : Request Unit ByteContainer Unit) :=
    ⟨hzero shared rfl fun _ => rfl, by rintro _ _ _ ⟨⟩, by rintro ⟨⟩⟩
  obtain ⟨s₁, hstep, hg, htables⟩ : ∃ s₁, shared.step (fun _ => byteKeyBuilder)
      (.addMember ⟨1, 0⟩ [] : Request Unit ByteContainer Unit) = some (.ok (.member 0), s₁) ∧
      s₁.profile.grpHandles = ∅ ∧ s₁.tables = shared.tables := ⟨_, rfl, rfl, rfl⟩
  have hentry : CountSafe (fun _ => byteKeyBuilder) s₁
      (.table () (.indirect (.addEntry [7] 0 0 0)) : Request Unit ByteContainer Unit) := by
    refine ⟨hzero s₁ hg fun index => by rw [entryRefs, htables]; rfl, ?_, by rintro ⟨⟩⟩
    rintro t q tbl ⟨⟩ htbl
    rw [htables] at htbl
    cases htbl
    refine ⟨?_, by rintro _ _ _ ⟨⟩, by rintro ⟨⟩⟩
    rintro _ _ _ _ ⟨⟩ _
    exact ⟨rfl, rfl, by decide⟩
  cases hstep
  have hrun : RunIf (fun _ => byteKeyBuilder) (CountSafe fun _ => byteKeyBuilder) shared
      [(.addMember ⟨1, 0⟩ [], .ok (.member 0)),
        (.table () (.indirect (.addEntry [7] 0 0 0)), .ok (.handle 0))] _ :=
    .cons hmember rfl (.cons hentry rfl (.nil _))
  refine ⟨_, hrun, ?_⟩
  rw [(hrun.refCountGet_eq shared_fresh).1 0 (by decide)]
  rfl

end Runtime

end MatchTables

end P4Bricks
