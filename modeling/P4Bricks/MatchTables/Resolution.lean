import P4Bricks.MatchUnit.Liveness
import P4Bricks.MatchTables.RefCounts
/-!
# Packets resolve to members

Where a packet ends up in an indirect table. The entries of a table are counted
by the profile, so a member or a group that one points at is not deleted. The
default of a table is not, and nothing looks at the size of a group when a
member leaves it: there a packet can be led to a member that is gone, or to a
group with none to choose from. Nor does a table with a selector ask whether its
profile has one, without which the lookup of a group aborts. In runs that keep
clear of that (`ResolveSafe`) every packet resolves to a live member.
-/

namespace P4Bricks

open Lookup MatchUnit

/-! ## The values of a unit -/

namespace MatchUnit

variable {σ P K V : Type*} {u : MatchUnit σ K V}

/-- The values of the live entries. -/
def HasValue (u : MatchUnit σ K V) (value : V) : Prop :=
  ∃ i ∈ u.handles, (u.entries i).value = value

/-- A value put into a slot is the only new one. -/
theorem hasValue_of_put {u' : MatchUnit σ K V} {i : ℕ} {entry : Entry K V} {value : V}
    (hv : u'.HasValue value) (hh : ∀ j ∈ u'.handles, j ≠ i → j ∈ u.handles)
    (he : u'.entries = Function.update u.entries i entry) :
    u.HasValue value ∨ value = entry.value := by
  obtain ⟨j, hj, rfl⟩ := hv
  rw [he]
  by_cases hji : j = i
  · subst hji
    exact .inr (by rw [Function.update_self])
  · rw [Function.update_of_ne hji]
    exact .inl ⟨j, hh j hj hji, rfl⟩

theorem HasValue.entryRefs_ne_zero {u : MatchUnit σ K IndirectIndex} {index : IndirectIndex}
    (hv : u.HasValue index) : u.entryRefs index ≠ 0 := by
  obtain ⟨i, hi, hval⟩ := hv
  exact Finset.card_ne_zero_of_mem (Finset.mem_filter.mpr ⟨hi, hval⟩)

end MatchUnit

namespace MatchTables

section

variable {σ P K M C : Type}

/-- An entry of the table leads there, or its default. -/
def MatchTableIndirect.PointsTo (t : MatchTableIndirect σ K M) (index : IndirectIndex) : Prop :=
  t.matchUnit.HasValue index ∨ (t.defaultSet = true ∧ t.defaultIndex = index)

variable [LookupStructure σ K] [Inhabited K] {kb : KeyBuilder P K} {t t' : MatchTableIndirect σ K M}
  {ap ap' : ActionProfile} {r : TableRequest P C} {res : Result (Reply P C)} {reply : Reply P C}
  {u' : MatchUnit σ K IndirectIndex} {rest : IndirectIndex → ℕ} {index : IndirectIndex}

/-- A request on a table counts references, and changes no member or group. -/
theorem Effect.profile_eq (he : Effect kb t ap r res u' ap') :
    ap'.mbrHandles = ap.mbrHandles ∧ ap'.grpHandles = ap.grpHandles ∧ ap'.groups = ap.groups ∧
      ap'.actionEntries.size = ap.actionEntries.size ∧ ap'.withSelection = ap.withSelection := by
  cases he with
  | touch => exact ⟨rfl, rfl, rfl, rfl, rfl⟩
  | lookup key length now entries hsize => exact ⟨rfl, rfl, rfl, hsize, rfl⟩
  | add hr hindex hincr =>
    obtain ⟨_, _, rfl⟩ := modifyCount_eq_some hincr
    exact ⟨rfl, rfl, rfl, rfl, rfl⟩
  | delete hc hdecr =>
    obtain ⟨_, _, rfl⟩ := modifyCount_eq_some hdecr
    exact ⟨rfl, rfl, rfl, rfl, rfl⟩
  | modify hr hc hdecr hindex hincr =>
    obtain ⟨_, _, rfl⟩ := modifyCount_eq_some hdecr
    obtain ⟨_, _, rfl⟩ := modifyCount_eq_some hincr
    exact ⟨rfl, rfl, rfl, rfl, rfl⟩
  | refuse hr hc hdecr =>
    obtain ⟨_, _, rfl⟩ := modifyCount_eq_some hdecr
    exact ⟨rfl, rfl, rfl, rfl, rfl⟩
  | reset => exact ⟨rfl, rfl, rfl, rfl, rfl⟩

/-- The request would make an entry lead there. -/
def MatchTableIndirect.Leads (t : MatchTableIndirect σ K M) (r : TableRequest P C)
    (index : IndirectIndex) : Prop :=
  (∃ matchKey priority now, t.adds r = some (matchKey, index, priority, now)) ∨
    ∃ h, t.modifies r = some (h, index)

/-- A value that an entry takes on is usable, and the request brings it. -/
theorem Effect.hasValue (he : Effect kb t ap r res u' ap') (hv : u'.HasValue index) :
    t.matchUnit.HasValue index ∨ Usable ap index ∧ t.Leads r index := by
  cases he with
  | touch => exact .inl hv
  | lookup key length now =>
    obtain ⟨hh, hentries, -, -⟩ := lookup_eq (u := t.matchUnit) key length now
    rw [HasValue, hh, hentries] at hv
    exact .inl hv
  | @add matchKey index' priority now _ hr hindex =>
    rcases hadd : t.matchUnit.addEntry kb matchKey index' priority now with ⟨e | h, u'⟩
    · rw [hadd] at hv
      rw [addEntry_eq_error hadd] at hv
      exact .inl hv
    · rw [hadd] at hv
      obtain ⟨-, -, -, -, rfl⟩ := addEntry_eq_ok hadd
      rcases hasValue_of_put (u := t.matchUnit) hv
        (fun j hj hne => (Finset.mem_insert.mp hj).resolve_left hne) rfl with hv | rfl
      · exact .inl hv
      · exact .inr ⟨hindex, .inl ⟨_, _, _, hr⟩⟩
  | @delete h i _ hc =>
    obtain ⟨-, hi, -⟩ := checkHandle_eq_ok.mp hc
    rw [deleteEntry_of_ok hc] at hv
    obtain ⟨j, hj, rfl⟩ := hv
    simp only [Function.update_of_ne (Finset.ne_of_mem_erase hj)]
    exact .inl ⟨j, Finset.mem_of_mem_erase hj, rfl⟩
  | modify hr hc hdecr hindex =>
    rw [modifyEntry_of_ok hc] at hv
    rcases hasValue_of_put (u := t.matchUnit) hv (fun j hj _ => hj) rfl with hv | rfl
    · exact .inl hv
    · exact .inr ⟨hindex, .inr ⟨_, hr⟩⟩
  | refuse => exact .inl hv
  | reset =>
    obtain ⟨i, hi, -⟩ := hv
    exact absurd hi (Finset.notMem_empty i)

/-- A request that succeeds keeps the counts right, but for the entries of a
table that it resets: they stay counted. -/
theorem Effect.counted_ok (he : Effect kb t ap r (.ok reply) u' ap')
    (hc : ap.Counted fun index => t.matchUnit.entryRefs index + rest index)
    (hf : ap.Fits fun index => t.matchUnit.entryRefs index + rest index) :
    ∃ more : IndirectIndex → ℕ,
      ap'.Counted fun index => u'.entryRefs index + (rest index + more index) := by
  generalize hres : (Except.ok reply : Result (Reply P C)) = res at he
  cases he with
  | touch entryMeta _ _ => exact ⟨fun _ => 0, hc⟩
  | lookup key length now entries _ _ =>
    rw [entryRefs_lookup]
    exact ⟨fun _ => 0, hc.valid, hc.members, hc.count⟩
  | @add matchKey index priority now _ hr hindex hincr =>
    rcases hadd : t.matchUnit.addEntry kb matchKey index priority now with ⟨e | h, u'⟩
    · rw [hadd] at hres
      cases hres
    · exact ⟨fun _ => 0, counted_add hadd hindex hincr hc hf⟩
  | delete hchk hdecr => exact ⟨fun _ => 0, counted_delete hchk hdecr hc hf⟩
  | modify hr hchk hdecr hindex hincr =>
    exact ⟨fun _ => 0, counted_modify hchk hdecr hindex hincr hc hf⟩
  | refuse => cases hres
  | reset hr =>
    refine ⟨t.matchUnit.entryRefs, ?_⟩
    have hzero : t.matchUnit.resetState.entryRefs = fun _ => 0 := rfl
    simpa only [hzero, Nat.zero_add, Nat.add_comm] using hc

/-- The unit stays sound. -/
theorem UnitEffect.sound {V : Type} [Inhabited V] [LiveLookup σ K] {u u' : MatchUnit σ K V}
    (he : UnitEffect kb u res u') (hs : u.Sound) : u'.Sound := by
  cases he with
  | touch entryMeta => exact hs.touch entryMeta
  | lookup key length now => exact hs.lookup key length now
  | add matchKey value priority now => exact hs.addEntry
  | delete h => exact hs.deleteEntry h
  | modify h value => exact hs.modifyEntry h value
  | reset => exact hs.resetState

end

/-! ## The runtime -/

namespace Runtime

variable {ι P M C : Type} {σ K : ι → Type} {s s' : Runtime ι σ K M} {index : IndirectIndex}

/-- The default of some table leads there. -/
def HasDefault (s : Runtime ι σ K M) (index : IndirectIndex) : Prop :=
  ∃ t tbl, s.tables t = .indirect tbl ∧ tbl.defaultSet = true ∧ tbl.defaultIndex = index

/-- An entry or a default leads there. -/
def PointsTo (s : Runtime ι σ K M) (index : IndirectIndex) : Prop :=
  ∃ t tbl, s.tables t = .indirect tbl ∧ tbl.PointsTo index

/-- **The condition on a request**: no count is about to wrap; what a default
points at is not deleted, and a default is not set to an empty group; the last
member does not leave a group that is pointed at; an entry or a default is led to
a group only with a selector in the profile; and all is reset only while there is
no group and no default. -/
def ResolveSafe (s : Runtime ι σ K M) (r : Request ι P C) : Prop :=
  (∀ index c, s.profile.refCountGet index = some c → c + 1 < ActionProfile.countMod) ∧
  match r with
  | .deleteMember mbr => ¬ s.HasDefault (.mbr mbr)
  | .deleteGroup grp => ¬ s.HasDefault (.grp grp)
  | .removeMemberFromGroup mbr grp => s.PointsTo (.grp grp) → s.profile.groups.get grp ≠ {mbr}
  | .table _ (.indirect (.addEntryWs ..)) => s.profile.withSelection = true
  | .table _ (.indirect (.modifyEntryWs ..)) => s.profile.withSelection = true
  | .table _ (.indirect (.setDefaultGroup grp)) =>
    s.profile.withSelection = true ∧ s.profile.groups.get grp ≠ ∅
  | .resetState => s.profile.grpHandles = ∅ ∧ ∀ index, ¬ s.HasDefault index
  | _ => True

variable [Fintype ι]

theorem PointsTo.cases (hp : s.PointsTo index) : s.HasDefault index ∨ s.entryRefs index ≠ 0 := by
  obtain ⟨t, tbl, htbl, hv | hd⟩ := hp
  · right
    intro hzero
    have ht := (Finset.sum_eq_zero_iff.mp hzero) t (Finset.mem_univ t)
    rw [htbl] at ht
    exact hv.entryRefs_ne_zero ht
  · exact .inl ⟨t, tbl, htbl, hd⟩

variable [∀ t, LookupStructure (σ t) (K t)] [∀ t, LiveLookup (σ t) (K t)]

/-- What holds in every state of a safe run. The counts are those of the live
entries and of entries that are gone with the reset of their table. -/
structure Resolving (s : Runtime ι σ K M) : Prop where
  counted : ∃ gone : IndirectIndex → ℕ,
    s.profile.Counted fun index => s.entryRefs index + gone index
  mbr_lt : ∀ m ∈ s.profile.mbrHandles, m < s.profile.actionEntries.size
  grp_lt : ∀ g ∈ s.profile.grpHandles, g < s.profile.groups.size
  usable : ∀ index, s.PointsTo index → Usable s.profile index
  selects : ∀ g, s.PointsTo (.grp g) → s.profile.withSelection = true
  sound : ∀ t tbl, s.tables t = .indirect tbl → tbl.matchUnit.Sound

/-- The hash chooses a member of a group that has one. -/
theorem getFromHash_eq {ap : ActionProfile} {g hash : ℕ} {mbrs : Finset ℕ}
    (hat : ap.groups.at? g = some mbrs) (hne : mbrs ≠ ∅) :
    ∃ m ∈ mbrs, ap.getFromHash g hash = some m := by
  have hcard : mbrs.card ≠ 0 := fun h0 => hne (Finset.card_eq_zero.mp h0)
  have hlt : hash % mbrs.card < (ActionProfile.members mbrs).length := by
    rw [ActionProfile.members, Finset.length_sort]
    exact Nat.mod_lt hash (Nat.pos_of_ne_zero hcard)
  refine ⟨(ActionProfile.members mbrs)[hash % mbrs.card],
    (Finset.mem_sort (· ≤ ·)).mp (List.getElem_mem hlt), ?_⟩
  simp only [ActionProfile.getFromHash, hat, Option.bind_eq_bind, Option.bind_some,
    if_neg hcard, List.getElem?_eq_getElem hlt]

/-- The member is the index itself, or of the live group that the index names. -/
def LeadsTo (ap : ActionProfile) (m : ℕ) : IndirectIndex → Prop
  | .mbr m' => m' = m
  | .grp g => g ∈ ap.grpHandles ∧ ∃ mbrs, ap.groups.at? g = some mbrs ∧ m ∈ mbrs

/-- **A packet resolves to a member**, through a group that has it. -/
theorem Resolving.lookup (hs : Resolving s) (hp : s.PointsTo index) (hash : ℕ) :
    ∃ m entry, s.profile.lookup hash index = some (m, entry) ∧ m ∈ s.profile.mbrHandles ∧
      LeadsTo s.profile m index := by
  have hmember : ∃ m, s.profile.indexAsserted index = true ∧
      s.profile.chooseMember hash index = some m ∧ m ∈ s.profile.mbrHandles ∧
      LeadsTo s.profile m index := by
    have husable := hs.usable index hp
    cases index with
    | mbr m => exact ⟨m, rfl, rfl, husable, rfl⟩
    | grp g =>
      obtain ⟨hg, mbrs, hat, hne⟩ := husable
      obtain ⟨m, hm, hchoose⟩ : ∃ m ∈ mbrs, s.profile.getFromHash g hash = some m :=
        getFromHash_eq hat hne
      obtain ⟨gone, hc⟩ := hs.counted
      refine ⟨m, ?_, hchoose, hc.members g hg m ?_, hg, mbrs, hat, hm⟩
      · simp [ActionProfile.indexAsserted, ActionProfile.isValidGrp, hs.selects g hp, hg]
      · rwa [(Vec.at?_eq_some.mp hat).2]
  obtain ⟨m, hasserted, hchoose, hm, hleads⟩ := hmember
  refine ⟨m, s.profile.actionEntries.get m, ?_, hm, hleads⟩
  have hat : s.profile.actionEntries.at? m = some (s.profile.actionEntries.get m) :=
    Vec.at?_eq_some.mpr ⟨hs.mbr_lt m hm, rfl⟩
  simp [ActionProfile.lookup, hasserted, hchoose, ActionProfile.isValidMbr, hm, hat]

/-- The index a packet follows. -/
theorem Resolving.pointsTo (hs : Resolving s) {t : ι} {tbl : MatchTableIndirect (σ t) (K t) M}
    (htbl : s.tables t = .indirect tbl) {key : ByteContainer} {length now : ℕ}
    (hindex : tbl.indexOf (tbl.matchUnit.lookup key length now).1 = some index) :
    s.PointsTo index := by
  refine ⟨t, tbl, htbl, ?_⟩
  unfold MatchTableIndirect.indexOf at hindex
  rcases hhit : (tbl.matchUnit.lookup key length now).1 with _ | ⟨h, v⟩
  · rw [hhit] at hindex
    simp only [Option.ite_none_right_eq_some, Option.some.injEq] at hindex
    exact .inr hindex
  · rw [hhit] at hindex
    obtain rfl := Option.some.inj hindex
    obtain ⟨i, hi, hv, -⟩ := (hs.sound t tbl htbl).exists_of_lookup hhit
    exact .inl ⟨i, hi, hv.symm⟩

/-! ## One request -/

/-- The condition on the counts, from the counts themselves. -/
theorem fits_of_counts {ap : ActionProfile} {E : IndirectIndex → ℕ} (hc : ap.Counted E)
    (hcount : ∀ index c, ap.refCountGet index = some c → c + 1 < ActionProfile.countMod) :
    ap.Fits E := by
  intro index
  by_cases hv : ap.Valid index
  · exact hcount index _ (hc.count index hv)
  · have hE := hc.eq_zero hv
    cases index with
    | mbr m => simp [ActionProfile.refs, hE, hc.groupRefs_eq_zero hv, ActionProfile.countMod]
    | grp g => simp [ActionProfile.refs, hE, ActionProfile.countMod]

/-- A request on the profile alone. -/
theorem Resolving.of_profile (hs : Resolving s) {ap : ActionProfile}
    (hcounted : ∀ E, s.profile.Counted E → s.profile.Fits E → ap.Counted E)
    (hcount : ∀ index c, s.profile.refCountGet index = some c → c + 1 < ActionProfile.countMod)
    (hmbr : ∀ m ∈ ap.mbrHandles, m < ap.actionEntries.size)
    (hgrp : ∀ g ∈ ap.grpHandles, g < ap.groups.size)
    (hselection : ap.withSelection = s.profile.withSelection)
    (husable : ∀ index, s.PointsTo index → Usable s.profile index → Usable ap index) :
    Resolving { s with profile := ap } := by
  obtain ⟨gone, hc⟩ := hs.counted
  exact ⟨⟨gone, hcounted _ hc (fits_of_counts hc hcount)⟩, hmbr, hgrp,
    fun index hp => husable index hp (hs.usable index hp),
    fun g hp => hselection.trans (hs.selects g hp), hs.sound⟩

/-- What no default points at, and is counted zero times, is not pointed at. -/
theorem Resolving.not_pointsTo (hs : Resolving s) (hd : ¬ s.HasDefault index)
    (hzero : s.profile.refCountGet index = some 0) : ¬ s.PointsTo index := by
  intro hp
  obtain ⟨gone, hc⟩ := hs.counted
  rw [hc.count index (hs.usable index hp).valid] at hzero
  have hrefs := Option.some.inj hzero
  rcases hp.cases with hdefault | hentry
  · exact hd hdefault
  · cases index <;> simp only [ActionProfile.refs] at hrefs <;> omega

variable {kb : (t : ι) → KeyBuilder P (K t)}

theorem Resolving.addMember (hs : Resolving s) {fn : ActionFn} {data : List ℤ} {res ap}
    (hsafe : ResolveSafe s (.addMember fn data : Request ι P C))
    (h : s.profile.addMember fn data = some (res, ap)) : Resolving { s with profile := ap } := by
  rcases ActionProfile.addMember_eq_some h with rfl | ⟨entries, -, hsize, rfl⟩
  · exact hs
  refine hs.of_profile (fun E hc _ => hc.addMember h) hsafe.1 ?_ hs.grp_lt rfl ?_
  · intro m hm
    simp only [hsize]
    rcases Finset.mem_insert.mp hm with rfl | hm
    · omega
    · have := hs.mbr_lt m hm
      omega
  · intro index hp hu
    cases index with
    | mbr m => exact Finset.mem_insert_of_mem hu
    | grp g => exact hu

theorem Resolving.deleteMember (hs : Resolving s) {mbr : ℕ} {res ap}
    (hsafe : ResolveSafe s (.deleteMember mbr : Request ι P C))
    (h : s.profile.deleteMember mbr = some (res, ap)) : Resolving { s with profile := ap } := by
  rcases ActionProfile.deleteMember_eq_some h with rfl | ⟨-, hcount, -, rfl⟩
  · exact hs
  refine hs.of_profile (fun E hc _ => hc.deleteMember h) hsafe.1
    (fun m hm => hs.mbr_lt m (Finset.mem_of_mem_erase hm)) hs.grp_lt rfl ?_
  intro index hp hu
  cases index with
  | grp g => exact hu
  | mbr m =>
    refine Finset.mem_erase.mpr ⟨?_, hu⟩
    rintro rfl
    exact hs.not_pointsTo hsafe.2 hcount hp

theorem Resolving.modifyMember (hs : Resolving s) {mbr : ℕ} {fn : ActionFn} {data : List ℤ} {res ap}
    (hsafe : ResolveSafe s (.modifyMember mbr fn data : Request ι P C))
    (h : s.profile.modifyMember mbr fn data = some (res, ap)) :
    Resolving { s with profile := ap } := by
  obtain ⟨entries, hsize, rfl⟩ := ActionProfile.modifyMember_eq_some h
  refine hs.of_profile (fun E hc _ => hc.modifyMember h) hsafe.1 ?_ hs.grp_lt rfl
    fun _ _ hu => hu
  intro m hm
  simp only [hsize]
  exact hs.mbr_lt m hm

theorem Resolving.createGroup (hs : Resolving s) {res ap}
    (hsafe : ResolveSafe s (.createGroup : Request ι P C))
    (h : s.profile.createGroup = some (res, ap)) : Resolving { s with profile := ap } := by
  have hnew : firstFree s.profile.grpHandles ∉ s.profile.grpHandles := firstFree_notMem _
  obtain ⟨-, rfl⟩ := ActionProfile.createGroup_eq_some h
  refine hs.of_profile (fun E hc _ => hc.createGroup h) hsafe.1 hs.mbr_lt ?_ rfl ?_
  · intro g hg
    simp only
    rcases Finset.mem_insert.mp hg with rfl | hg
    · omega
    · have := hs.grp_lt g hg
      omega
  · intro index hp hu
    cases index with
    | mbr m => exact hu
    | grp g =>
      obtain ⟨hg, mbrs, hat, hne⟩ := hu
      have hgne : g ≠ firstFree s.profile.grpHandles := fun heq => hnew (heq ▸ hg)
      refine ⟨Finset.mem_insert_of_mem hg, mbrs, ?_, hne⟩
      obtain ⟨hlt, hget⟩ := Vec.at?_eq_some.mp hat
      refine Vec.at?_eq_some.mpr ⟨lt_max_of_lt_left hlt, ?_⟩
      simp only [Function.update_of_ne hgne, hget]

theorem Resolving.deleteGroup (hs : Resolving s) {grp : ℕ} {res ap}
    (hsafe : ResolveSafe s (.deleteGroup grp : Request ι P C))
    (h : s.profile.deleteGroup grp = some (res, ap)) : Resolving { s with profile := ap } := by
  rcases ActionProfile.deleteGroup_eq_some h with rfl | ⟨ap₁, -, hcount, hrel, rfl⟩
  · exact hs
  have hcounted := fun E hc hf => ActionProfile.Counted.deleteGroup (E := E) hc hf h
  obtain ⟨v, rfl, -, -⟩ := ActionProfile.releaseMembers_eq_some (Finset.sort_nodup _ _) hrel
  refine hs.of_profile hcounted hsafe.1 hs.mbr_lt
    (fun g hg => hs.grp_lt g (Finset.mem_of_mem_erase hg)) rfl ?_
  intro index hp hu
  cases index with
  | mbr m => exact hu
  | grp g =>
    refine ⟨Finset.mem_erase.mpr ⟨?_, hu.1⟩, hu.2⟩
    rintro rfl
    exact hs.not_pointsTo hsafe.2 hcount hp

/-- A group changes, and is not left empty while it is pointed at. -/
theorem usable_setGroup {ap : ActionProfile} {grp : ℕ} {mbrs : Finset ℕ} {v : Vec ℕ}
    (hne : index = .grp grp → mbrs ≠ ∅) (hu : Usable ap index) :
    Usable { ap with
      groups := ⟨ap.groups.size, Function.update ap.groups.get grp mbrs⟩
      mbrCount := v } index := by
  cases index with
  | mbr m => exact hu
  | grp g =>
    obtain ⟨hg, old, hat, hold⟩ := hu
    obtain ⟨hlt, hget⟩ := Vec.at?_eq_some.mp hat
    refine ⟨hg, ?_⟩
    by_cases heq : g = grp
    · subst heq
      exact ⟨mbrs, Vec.at?_eq_some.mpr ⟨hlt, Function.update_self ..⟩, hne rfl⟩
    · refine ⟨old, Vec.at?_eq_some.mpr ⟨hlt, ?_⟩, hold⟩
      rw [← hget]
      exact Function.update_of_ne heq ..

theorem Resolving.addMemberToGroup (hs : Resolving s) {mbr grp : ℕ} {res ap}
    (hsafe : ResolveSafe s (.addMemberToGroup mbr grp : Request ι P C))
    (h : s.profile.addMemberToGroup mbr grp = some (res, ap)) :
    Resolving { s with profile := ap } := by
  rcases ActionProfile.addMemberToGroup_eq_some h with ⟨_, -, rfl⟩ | ⟨-, -, -, -, -, rfl⟩
  · exact hs
  refine hs.of_profile (fun E hc hf => hc.addMemberToGroup hf h) hsafe.1 hs.mbr_lt hs.grp_lt rfl ?_
  exact fun index _ hu => usable_setGroup (fun _ => Finset.insert_ne_empty _ _) hu

theorem Resolving.removeMemberFromGroup (hs : Resolving s) {mbr grp : ℕ} {res ap}
    (hsafe : ResolveSafe s (.removeMemberFromGroup mbr grp : Request ι P C))
    (h : s.profile.removeMemberFromGroup mbr grp = some (res, ap)) :
    Resolving { s with profile := ap } := by
  rcases ActionProfile.removeMemberFromGroup_eq_some h with ⟨_, -, rfl⟩ | ⟨-, -, -, -, hmem, rfl⟩
  · exact hs
  refine hs.of_profile (fun E hc hf => hc.removeMemberFromGroup hf h) hsafe.1 hs.mbr_lt
    hs.grp_lt rfl ?_
  intro index hp hu
  refine usable_setGroup (fun heq hempty => ?_) hu
  rcases Finset.erase_eq_empty_iff _ _ |>.mp hempty with hnone | hlast
  · rw [hnone] at hmem
    exact absurd hmem (Finset.notMem_empty mbr)
  · exact hsafe.2 (heq ▸ hp) hlast

variable [DecidableEq ι] [∀ t, Inhabited (K t)] [Meter M C]

omit [Fintype ι] [∀ t, LookupStructure (σ t) (K t)] [∀ t, LiveLookup (σ t) (K t)]
  [DecidableEq ι] [∀ t, Inhabited (K t)] [Meter M C] in
/-- An entry is led to a group only with a selector. -/
theorem withSelection_of_leads {t : ι} {q : TableRequest P C} {σ K : Type}
    {tbl : MatchTableIndirect σ K M} {g : ℕ} (hsafe : ResolveSafe s (.table t q))
    (hleads : tbl.Leads q (.grp g)) : s.profile.withSelection = true := by
  rcases hleads with ⟨matchKey, priority, now, hadds⟩ | ⟨h, hmodifies⟩
  · rcases q with _ | _ | (_ | _ | _ | _ | _ | _ | _) | _ | _ | _
    all_goals first | exact hsafe.2 | cases hadds
  · rcases q with _ | _ | (_ | _ | _ | _ | _ | _ | _) | _ | _ | _
    all_goals first | exact hsafe.2 | cases hmodifies

omit [∀ t, LookupStructure (σ t) (K t)] [∀ t, LiveLookup (σ t) (K t)] [∀ t, Inhabited (K t)] in
/-- The references of one table, apart from those of the others. -/
theorem entryRefs_apart (t : ι) (gone : IndirectIndex → ℕ) :
    (fun index => s.entryRefs index + gone index) = fun index =>
      (s.tables t).entryRefs index +
        (∑ t' ∈ Finset.univ.erase t, (s.tables t').entryRefs index + gone index) := by
  funext index
  rw [entryRefs_eq t, Nat.add_assoc]

omit [Fintype ι] [∀ t, LookupStructure (σ t) (K t)] [∀ t, LiveLookup (σ t) (K t)]
  [∀ t, Inhabited (K t)] in
/-- The other tables stay what they are. -/
theorem tables_of_update {t t' : ι} {tbl : Table (σ t) (K t) M}
    {tbl' : MatchTableIndirect (σ t') (K t') M} (hne : t' ≠ t)
    (heq : Function.update s.tables t tbl t' = .indirect tbl') : s.tables t' = .indirect tbl' := by
  rwa [Function.update_of_ne hne] at heq

omit [∀ t, Inhabited (K t)] in
/-- A direct table holds no reference, before and after. -/
theorem Resolving.directTable (hs : Resolving s) {t : ι} {old : MatchTable (σ t) (K t) M}
    (hk : s.tables t = .direct old) (new : MatchTable (σ t) (K t) M) :
    Resolving ⟨s.profile, Function.update s.tables t (.direct new)⟩ := by
  obtain ⟨gone, hc⟩ := hs.counted
  have hother : ∀ t' tbl', Function.update s.tables t (.direct new) t' = .indirect tbl' →
      s.tables t' = .indirect tbl' := by
    intro t' tbl' heq
    refine tables_of_update ?_ heq
    rintro rfl
    simp at heq
  refine ⟨⟨gone, ?_⟩, hs.mbr_lt, hs.grp_lt, ?_, ?_, ?_⟩
  · simp only [entryRefs_update]
    rw [entryRefs_apart t, hk] at hc
    simpa only [Table.entryRefs, Nat.add_assoc] using hc
  · rintro index ⟨t', tbl', heq, hp⟩
    exact hs.usable index ⟨t', tbl', hother t' tbl' heq, hp⟩
  · rintro g ⟨t', tbl', heq, hp⟩
    exact hs.selects g ⟨t', tbl', hother t' tbl' heq, hp⟩
  · intro t' tbl' heq
    exact hs.sound t' tbl' (hother t' tbl' heq)

omit [Meter M C] in
/-- An index pointed at was so before, or the request brings it. -/
theorem pointsTo_of_update (hs : Resolving s) {t : ι} {q : TableRequest P C} {reply : Reply P C}
    {old new : MatchTableIndirect (σ t) (K t) M} {ap : ActionProfile} {index : IndirectIndex}
    (hk : s.tables t = .indirect old) (hsafe : ResolveSafe s (.table t q))
    (heff : Effect (kb t) old s.profile q (.ok reply) new.matchUnit ap)
    (hdefault : DefaultEffect old s.profile q new)
    (hp : PointsTo ⟨ap, Function.update s.tables t (.indirect new)⟩ index) :
    s.PointsTo index ∨
      Usable s.profile index ∧ ∀ g, index = .grp g → s.profile.withSelection = true := by
  obtain ⟨t', tbl', heq, hp⟩ := hp
  by_cases hne : t' = t
  · subst hne
    obtain rfl : new = tbl' := by simpa using heq
    rcases hp with hv | ⟨hset, rfl⟩
    · rcases heff.hasValue hv with hv | ⟨hu, hleads⟩
      · exact .inl ⟨t', old, hk, .inl hv⟩
      · exact .inr ⟨hu, fun g hgrp => withSelection_of_leads hsafe (hgrp ▸ hleads)⟩
    · cases hdefault with
      | keep hset' hindex =>
        rw [hindex]
        exact .inl ⟨t', old, hk, .inr ⟨hset' ▸ hset, rfl⟩⟩
      | member hr hmbr hindex =>
        rw [hindex]
        exact .inr ⟨hmbr, nofun⟩
      | @group grp hr hgrp hindex =>
        rw [hindex]
        subst hr
        exact .inr ⟨⟨hgrp, _, Vec.at?_eq_some.mpr ⟨hs.grp_lt grp hgrp, rfl⟩, hsafe.2.2⟩,
          fun _ _ => hsafe.2.1⟩
  · exact .inl ⟨t', tbl', tables_of_update hne heq, hp⟩

omit [Meter M C] in
/-- A request on an indirect table that succeeds. -/
theorem Resolving.indirectTable (hs : Resolving s) {t : ι} {q : TableRequest P C}
    {reply : Reply P C} {old new : MatchTableIndirect (σ t) (K t) M} {ap : ActionProfile}
    (hk : s.tables t = .indirect old) (hsafe : ResolveSafe s (.table t q))
    (heff : Effect (kb t) old s.profile q (.ok reply) new.matchUnit ap)
    (hdefault : DefaultEffect old s.profile q new) :
    Resolving ⟨ap, Function.update s.tables t (.indirect new)⟩ := by
  obtain ⟨gone, hc⟩ := hs.counted
  have hf := fits_of_counts hc hsafe.1
  rw [entryRefs_apart t, hk] at hc hf
  obtain ⟨hm, hg, hgs, hsize, hselection⟩ := heff.profile_eq
  obtain ⟨more, hc'⟩ := heff.counted_ok hc hf
  refine ⟨⟨fun index => gone index + more index, ?_⟩, ?_, ?_, ?_, ?_, ?_⟩
  · simp only [entryRefs_update]
    simpa only [Table.entryRefs, Nat.add_assoc] using hc'
  · rw [hm, hsize]
    exact hs.mbr_lt
  · rw [hg, hgs]
    exact hs.grp_lt
  · intro index hp
    refine (usable_congr hm hg hgs).mpr ?_
    rcases pointsTo_of_update hs hk hsafe heff hdefault hp with hold | ⟨hu, -⟩
    · exact hs.usable index hold
    · exact hu
  · intro g hp
    rw [hselection]
    rcases pointsTo_of_update hs hk hsafe heff hdefault hp with hold | ⟨-, hselects⟩
    · exact hs.selects g hold
    · exact hselects g rfl
  · intro t' tbl' heq
    by_cases hne : t' = t
    · subst hne
      obtain rfl : new = tbl' := by simpa using heq
      exact heff.unitEffect.sound (hs.sound t' old hk)
    · exact hs.sound t' tbl' (tables_of_update hne heq)

/-- A request on one table that succeeds. -/
theorem Resolving.table (hs : Resolving s) {t : ι} {q : TableRequest P C} {reply : Reply P C}
    {tbl : Table (σ t) (K t) M} {ap : ActionProfile} (hsafe : ResolveSafe s (.table t q))
    (hstep : (s.tables t).step (kb t) s.profile q = some (.ok reply, tbl, ap)) :
    Resolving ⟨ap, Function.update s.tables t tbl⟩ := by
  cases hk : s.tables t with
  | direct old =>
    rw [hk] at hstep
    obtain ⟨new, rfl, rfl, -⟩ := Table.step_direct hstep
    exact hs.directTable hk new
  | indirect old =>
    rw [hk] at hstep
    obtain ⟨new, rfl, heff, hdefault⟩ := Table.step_indirect hstep
    exact hs.indirectTable hk hsafe heff hdefault

omit [DecidableEq ι] [Meter M C] in
/-- No entry and no default is left. -/
theorem Resolving.resetState (hs : Resolving s)
    (hsafe : ResolveSafe s (.resetState : Request ι P C)) :
    Resolving ⟨s.profile.resetState, fun t => (s.tables t).resetState⟩ := by
  obtain ⟨-, hgrp, hdefault⟩ := hsafe
  have hprofile : s.profile.resetState = .create s.profile.withSelection := by
    rw [ActionProfile.resetState, hgrp]
    rfl
  have htable : ∀ t tbl, (s.tables t).resetState = .indirect tbl → ∃ old,
      s.tables t = .indirect old ∧ tbl = { old with matchUnit := old.matchUnit.resetState } := by
    intro t tbl htbl
    cases hk : s.tables t with
    | direct old => rw [hk] at htbl; cases htbl
    | indirect old =>
      rw [hk] at htbl
      cases htbl
      exact ⟨old, rfl, rfl⟩
  rw [hprofile]
  -- No entry is left, and the condition leaves no default.
  have hnone : ∀ index, ¬ PointsTo (⟨.create s.profile.withSelection,
      fun t => (s.tables t).resetState⟩ : Runtime ι σ K M) index := by
    rintro index ⟨t, tbl, htbl, hp⟩
    obtain ⟨old, hold, rfl⟩ := htable t tbl htbl
    rcases hp with ⟨i, hi, -⟩ | hd
    · exact absurd hi (Finset.notMem_empty i)
    · exact absurd ⟨t, old, hold, hd⟩ (hdefault index)
  refine ⟨⟨fun _ => 0, ?_⟩, fun m hm => absurd hm (Finset.notMem_empty m),
    fun g hg => absurd hg (Finset.notMem_empty g), fun index hp => absurd hp (hnone index),
    fun g hp => absurd hp (hnone (.grp g)), ?_⟩
  · have hE : (fun index => entryRefs (⟨.create s.profile.withSelection,
        fun t => (s.tables t).resetState⟩ : Runtime ι σ K M) index + 0) = fun _ => 0 := by
      funext index
      exact Finset.sum_eq_zero fun t _ => (s.tables t).entryRefs_resetState index
    rw [hE]
    exact ActionProfile.counted_create _
  · intro t tbl htbl
    obtain ⟨old, hold, rfl⟩ := htable t tbl htbl
    exact (hs.sound t old hold).resetState

/-- **One request that succeeds.** -/
theorem Resolving.step (hs : Resolving s) {r : Request ι P C} {reply : Reply P C}
    (hsafe : ResolveSafe s r) (hstep : s.step kb r = some (.ok reply, s')) : Resolving s' := by
  cases r with
  | addMember fn data =>
    obtain ⟨_, ap, h, rfl⟩ := Answer.ofTable_eq_some hstep
    exact hs.addMember hsafe h
  | deleteMember mbr =>
    obtain ⟨_, ap, h, rfl⟩ := Answer.ofTable_eq_some hstep
    exact hs.deleteMember hsafe h
  | modifyMember mbr fn data =>
    obtain ⟨_, ap, h, rfl⟩ := Answer.ofTable_eq_some hstep
    exact hs.modifyMember hsafe h
  | createGroup =>
    obtain ⟨_, ap, h, rfl⟩ := Answer.ofTable_eq_some hstep
    exact hs.createGroup hsafe h
  | deleteGroup grp =>
    obtain ⟨_, ap, h, rfl⟩ := Answer.ofTable_eq_some hstep
    exact hs.deleteGroup hsafe h
  | addMemberToGroup mbr grp =>
    obtain ⟨_, ap, h, rfl⟩ := Answer.ofTable_eq_some hstep
    exact hs.addMemberToGroup hsafe h
  | removeMemberFromGroup mbr grp =>
    obtain ⟨_, ap, h, rfl⟩ := Answer.ofTable_eq_some hstep
    exact hs.removeMemberFromGroup hsafe h
  | table t q =>
    obtain ⟨tbl, ap, htbl, rfl⟩ := step_table_eq_some hstep
    exact hs.table hsafe htbl
  | resetState =>
    cases hstep
    exact hs.resetState hsafe

/-! ## A run -/

omit [DecidableEq ι] [Fintype ι] [Meter M C] in
/-- A new profile, and new tables that have no default yet. -/
structure New (s : Runtime ι σ K M) : Prop where
  profile_eq : s.profile = .create s.profile.withSelection
  table_eq : ∀ t tbl, s.tables t = .indirect tbl → tbl.defaultSet = false ∧ ∃ size ls,
    tbl.matchUnit = .create size ls ∧ LiveLookup.Follows ls size fun _ => (none : Option (K t))

omit [DecidableEq ι] [Meter M C] in
theorem New.resolving (hs : New s) : Resolving s := by
  have hrefs : ∀ t index, (s.tables t).entryRefs index = 0 := by
    intro t index
    cases hk : s.tables t with
    | direct tbl => rfl
    | indirect tbl =>
      obtain ⟨-, size, ls, hu, -⟩ := hs.table_eq t tbl hk
      rw [Table.entryRefs, hu]
      rfl
  have hnone : ∀ index, ¬ s.PointsTo index := by
    rintro index ⟨t, tbl, htbl, hp⟩
    obtain ⟨hset, size, ls, hu, -⟩ := hs.table_eq t tbl htbl
    rcases hp with ⟨i, hi, -⟩ | ⟨hset', -⟩
    · rw [hu] at hi
      exact absurd hi (Finset.notMem_empty i)
    · rw [hset] at hset'
      cases hset'
  refine ⟨⟨fun _ => 0, (⟨hs.profile_eq, hrefs⟩ : Fresh s).counted⟩, ?_, ?_,
    fun index hp => absurd hp (hnone index), fun g hp => absurd hp (hnone (.grp g)), ?_⟩
  · rw [hs.profile_eq]
    exact fun m hm => absurd hm (Finset.notMem_empty m)
  · rw [hs.profile_eq]
    exact fun g hg => absurd hg (Finset.notMem_empty g)
  · intro t tbl htbl
    obtain ⟨-, size, ls, hu, hls⟩ := hs.table_eq t tbl htbl
    rw [hu]
    exact sound_create hls

/-- **Every packet resolves to a live member**, in every state of a safe run
whose requests all succeeded: the profile's lookup of the index that a packet
follows, of the entry it hits or of the default, returns a live member, which is
the index itself or in the live group that the index names. -/
theorem RunIf.exists_lookup {trace : List (Request ι P C × Result (Reply P C))}
    (hnew : New s) (hrun : RunIf kb ResolveSafe s trace s')
    (hok : ∀ p ∈ trace, ∃ reply, p.2 = .ok reply) {t : ι} {tbl : MatchTableIndirect (σ t) (K t) M}
    (htbl : s'.tables t = .indirect tbl) (key : ByteContainer) (length now hash : ℕ)
    (hindex : tbl.indexOf (tbl.matchUnit.lookup key length now).1 = some index) :
    ∃ m entry, s'.profile.lookup hash index = some (m, entry) ∧ m ∈ s'.profile.mbrHandles ∧
      LeadsTo s'.profile m index := by
  have hs' : Resolving s' := by
    have hs := hnew.resolving
    clear hnew htbl hindex
    induction hrun with
    | nil s => exact hs
    | cons hsafe hstep _ ih =>
      obtain ⟨reply, rfl⟩ := hok _ List.mem_cons_self
      exact ih (fun p hp => hok p (List.mem_cons_of_mem _ hp)) (hs.step hsafe hstep)
  exact hs'.lookup (hs'.pointsTo htbl hindex) hash

/-! ## A default that is deleted, a group that is emptied, and no selector -/

/-- One table with a selector over exact keys, and its profile with one or without. -/
def selecting (withSelection : Bool) :
    Runtime Unit (fun _ => ExactMap) (fun _ => ExactMatchKey) Unit where
  profile := .create withSelection
  tables _ := .indirect
    { matchUnit := MatchUnit.create 4 ExactMap.create, withCounters := false, withAgeing := false,
      withMeters := false, directMeters := fun _ => (), nextNodes := fun _ => some none,
      withSelector := true }

/-- The member that the default points at is deleted: a miss follows the default
to it. The last member leaves the group that an entry points at: a hit finds no
member to choose. And the profile has no selector: a hit of an entry for a group
aborts. Every request succeeds. -/
theorem selecting_unresolved :
    (∃ s' tbl, Run (fun _ => byteKeyBuilder) (selecting true)
        [(.addMember ⟨1, 0⟩ [], .ok (.member 0)),
          (.table () (.indirect (.setDefaultMember 0)), .ok .none),
          (.deleteMember 0, .ok .none)] s' ∧
      s'.tables () = .indirect tbl ∧
      tbl.indexOf (tbl.matchUnit.lookup [7] 1 0).1 = some (.mbr 0) ∧
      0 ∉ s'.profile.mbrHandles ∧ s'.profile.lookup 0 (.mbr 0) = none) ∧
    (∃ s' tbl, Run (fun _ => byteKeyBuilder) (selecting true)
        [(.addMember ⟨1, 0⟩ [], .ok (.member 0)),
          (.createGroup, .ok (.group 0)),
          (.addMemberToGroup 0 0, .ok .none),
          (.table () (.indirect (.addEntryWs [7] 0 0 0)), .ok (.handle 0)),
          (.removeMemberFromGroup 0 0, .ok .none)] s' ∧
      s'.tables () = .indirect tbl ∧
      tbl.indexOf (tbl.matchUnit.lookup [7] 1 0).1 = some (.grp 0) ∧
      s'.profile.chooseMember 0 (.grp 0) = none ∧ s'.profile.lookup 0 (.grp 0) = none) ∧
    ∃ s' tbl, Run (fun _ => byteKeyBuilder) (selecting false)
        [(.addMember ⟨1, 0⟩ [], .ok (.member 0)),
          (.createGroup, .ok (.group 0)),
          (.addMemberToGroup 0 0, .ok .none),
          (.table () (.indirect (.addEntryWs [7] 0 0 0)), .ok (.handle 0))] s' ∧
      s'.tables () = .indirect tbl ∧
      tbl.indexOf (tbl.matchUnit.lookup [7] 1 0).1 = some (.grp 0) ∧
      s'.profile.lookup 0 (.grp 0) = none := by
  refine ⟨⟨_, _, .cons trivial rfl (.cons trivial rfl (.cons trivial rfl (.nil _))), rfl, rfl,
    by decide, by decide⟩, ⟨_, _, .cons trivial rfl (.cons trivial rfl (.cons trivial rfl
      (.cons trivial rfl (.cons trivial rfl (.nil _))))), rfl, rfl, by decide, by decide⟩,
    ⟨_, _, .cons trivial rfl (.cons trivial rfl (.cons trivial rfl (.cons trivial rfl (.nil _)))),
      rfl, rfl, by decide⟩⟩

theorem selecting_new : New (selecting true) := by
  refine ⟨rfl, ?_⟩
  rintro t tbl ⟨⟩
  exact ⟨rfl, 4, ExactMap.create, rfl, fun bytes i h => by cases h⟩

/-- With the group as it is, a hit finds a live member. -/
theorem selecting_resolved :
    ∃ s' tbl, RunIf (fun _ => byteKeyBuilder) ResolveSafe (selecting true)
        [(.addMember ⟨1, 0⟩ [], .ok (.member 0)),
          (.createGroup, .ok (.group 0)),
          (.addMemberToGroup 0 0, .ok .none),
          (.table () (.indirect (.addEntryWs [7] 0 0 0)), .ok (.handle 0))] s' ∧
      s'.tables () = .indirect tbl ∧
      tbl.indexOf (tbl.matchUnit.lookup [7] 1 0).1 = some (.grp 0) ∧
      ∃ m entry, s'.profile.lookup 5 (.grp 0) = some (m, entry) ∧ m ∈ s'.profile.mbrHandles := by
  -- One member and one group: every count is far below the modulus.
  have hfew : ∀ ap : ActionProfile, ap.mbrCount.size ≤ 1 → ap.grpCount.size ≤ 1 →
      ap.mbrCount.get 0 ≤ 1 → ap.grpCount.get 0 ≤ 1 →
      ∀ index c, ap.refCountGet index = some c → c + 1 < ActionProfile.countMod := by
    intro ap hm hg hm0 hg0 index c hc
    have hone : c ≤ 1 := by
      cases index with
      | mbr m =>
        obtain ⟨hlt, rfl⟩ := Vec.at?_eq_some.mp hc
        obtain rfl : m = 0 := by omega
        exact hm0
      | grp g =>
        obtain ⟨hlt, rfl⟩ := Vec.at?_eq_some.mp hc
        obtain rfl : g = 0 := by omega
        exact hg0
    unfold ActionProfile.countMod
    omega
  have hrun : RunIf (fun _ => byteKeyBuilder) ResolveSafe (selecting true)
      [(.addMember ⟨1, 0⟩ [], .ok (.member 0)),
        (.createGroup, .ok (.group 0)),
        (.addMemberToGroup 0 0, .ok .none),
        (.table () (.indirect (.addEntryWs [7] 0 0 0)), .ok (.handle 0))] _ :=
    .cons ⟨hfew _ (by decide) (by decide) (by decide) (by decide), trivial⟩ rfl
      (.cons ⟨hfew _ (by decide) (by decide) (by decide) (by decide), trivial⟩ rfl
        (.cons ⟨hfew _ (by decide) (by decide) (by decide) (by decide), trivial⟩ rfl
          (.cons ⟨hfew _ (by decide) (by decide) (by decide) (by decide), rfl⟩ rfl (.nil _))))
  have hok : ∀ p ∈ ([(.addMember ⟨1, 0⟩ [], .ok (.member 0)),
        (.createGroup, .ok (.group 0)),
        (.addMemberToGroup 0 0, .ok .none),
        (.table () (.indirect (.addEntryWs [7] 0 0 0)), .ok (.handle 0))] :
        List (Request Unit ByteContainer Unit × Result (Reply ByteContainer Unit))),
      ∃ reply, p.2 = .ok reply := by
    simp
  obtain ⟨m, entry, hlookup, hlive, -⟩ := hrun.exists_lookup (t := ()) selecting_new hok rfl [7] 1 0 5
    (show _ = some (IndirectIndex.grp 0) from rfl)
  exact ⟨_, _, hrun, rfl, rfl, m, entry, hlookup, hlive⟩

end Runtime

end MatchTables

end P4Bricks
