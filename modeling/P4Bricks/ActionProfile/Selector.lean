import P4Bricks.ActionProfile.Reset
/-!
# What a group selector is told

A target may choose the members of a group itself, through a selector that
keeps its own copy of the groups. The profile tells it of each member that
joins or leaves a group and of a reset, but not of a group that is deleted: the
pairs of a group deleted with its members stay in the copy, and come back to
life when the handle of the group is given out again. While only empty groups
are deleted (`DeletesEmpty`) the copy is exact.
-/

namespace P4Bricks

open MatchUnit

/-- A call on a `GroupSelectionIface` that tells it something. -/
inductive SelectorCall where
  | addMemberToGroup (grp mbr : ℕ)
  | removeMemberFromGroup (grp mbr : ℕ)
  | reset
  deriving DecidableEq

namespace SelectorCall

/-- The copy of a selector that believes what it is told. -/
def apply (pairs : Finset (ℕ × ℕ)) : SelectorCall → Finset (ℕ × ℕ)
  | .addMemberToGroup grp mbr => insert (grp, mbr) pairs
  | .removeMemberFromGroup grp mbr => pairs.erase (grp, mbr)
  | .reset => ∅

/-- The calls replayed, from nothing. -/
def replay (calls : List SelectorCall) : Finset (ℕ × ℕ) := calls.foldl apply ∅

end SelectorCall

/-- A request, or `reset_state`. -/
inductive ProfileEvent where
  | request (r : ProfileRequest)
  | resetState

namespace ActionProfile

/-- The calls on `grp_selector` of a request, by its result. -/
def notify : ProfileRequest → Result ProfileReply → List SelectorCall
  | .addMemberToGroup mbr grp, .ok _ => [.addMemberToGroup grp mbr]
  | .removeMemberFromGroup mbr grp, .ok _ => [.removeMemberFromGroup grp mbr]
  | _, _ => []

def event (ap : ActionProfile) : ProfileEvent → Option (ActionProfile × List SelectorCall)
  | .request r => (ap.request r).map fun x => (x.2, notify r x.1)
  | .resetState => some (ap.resetState, [.reset])

/-- A run of events, each met by the profile it finds. What the selector is told
is added to what it was told before. -/
inductive SelectorRun (ok : ActionProfile → ProfileEvent → Prop) :
    ActionProfile → List SelectorCall → List ProfileEvent → ActionProfile → List SelectorCall →
      Prop where
  | nil (ap calls) : SelectorRun ok ap calls [] ap calls
  | cons {ap ap₁ ap' e es notes calls calls'} (hok : ok ap e)
      (hstep : ap.event e = some (ap₁, notes))
      (hrun : SelectorRun ok ap₁ (calls ++ notes) es ap' calls') :
      SelectorRun ok ap calls (e :: es) ap' calls'

/-- The member is in the group, and the group is live. -/
def InGroup (ap : ActionProfile) (grp mbr : ℕ) : Prop :=
  grp ∈ ap.grpHandles ∧ ∃ mbrs, ap.groups.at? grp = some mbrs ∧ mbr ∈ mbrs

/-- **The condition on an event**: a group that can be deleted is deleted only
when it is empty. -/
def DeletesEmpty (ap : ActionProfile) : ProfileEvent → Prop
  | .request (.deleteGroup grp) =>
    grp ∈ ap.grpHandles → ap.refCountGet (.grp grp) = some 0 → ap.groups.get grp = ∅
  | _ => True

/-- The groups that contain a member, by the pairs. -/
def groupsOf (pairs : Finset (ℕ × ℕ)) (mbr : ℕ) : Finset (ℕ × ℕ) :=
  pairs.filter fun p => p.2 = mbr

/-- **The pairs are the memberships of the live groups**, those of live members,
and each member is counted once for each of its groups. -/
structure Mirrored (ap : ActionProfile) (pairs : Finset (ℕ × ℕ)) : Prop where
  pairs_iff : ∀ g m, (g, m) ∈ pairs ↔ ap.InGroup g m
  live : ∀ g m, (g, m) ∈ pairs → m ∈ ap.mbrHandles
  count : ∀ m ∈ ap.mbrHandles, ap.mbrCount.at? m = some (groupsOf pairs m).card
  grp_le : ∀ g ∈ ap.grpHandles, g ≤ indexMask

variable {ap ap' : ActionProfile} {pairs : Finset (ℕ × ℕ)}

/-- A member cannot be in so many groups that its count wraps. -/
theorem Mirrored.card_groupsOf_lt (hm : Mirrored ap pairs) (m : ℕ) :
    (groupsOf pairs m).card + 1 < countMod := by
  have hsub : (groupsOf pairs m).image Prod.fst ⊆ Finset.range (indexMask + 1) := by
    intro g hg
    obtain ⟨⟨g', m'⟩, hp, rfl⟩ := Finset.mem_image.mp hg
    have hin := (hm.pairs_iff g' m').mp (Finset.mem_of_mem_filter _ hp)
    have := hm.grp_le g' hin.1
    simp only [Finset.mem_range]
    omega
  have hinj : ((groupsOf pairs m).image Prod.fst).card = (groupsOf pairs m).card := by
    refine Finset.card_image_of_injOn ?_
    rintro ⟨g, a⟩ ha ⟨g', b⟩ hb heq
    obtain rfl : a = m := (Finset.mem_filter.mp ha).2
    obtain rfl : b = a := (Finset.mem_filter.mp hb).2
    obtain rfl : g = g' := heq
    rfl
  have hle := Finset.card_le_card hsub
  rw [hinj, Finset.card_range] at hle
  unfold indexMask at hle
  unfold countMod
  omega

/-- A profile with the same memberships, members and counts. -/
theorem Mirrored.congr (hm : Mirrored ap pairs) (hin : ∀ g m, ap'.InGroup g m ↔ ap.InGroup g m)
    (hmbr : ap'.mbrHandles = ap.mbrHandles) (hcount : ap'.mbrCount = ap.mbrCount)
    (hgrp : ∀ g ∈ ap'.grpHandles, g ≤ indexMask) : Mirrored ap' pairs where
  pairs_iff g m := (hm.pairs_iff g m).trans (hin g m).symm
  live g m h := hmbr ▸ hm.live g m h
  count m h := by
    rw [hmbr] at h
    rw [hcount, hm.count m h]
  grp_le := hgrp

/-! ## One event -/

theorem Mirrored.addMember (hm : Mirrored ap pairs) {fn : ActionFn} {data : List ℤ} {res}
    (h : ap.addMember fn data = some (res, ap')) : Mirrored ap' pairs := by
  rcases addMember_eq_some h with rfl | ⟨entries, hle, -, rfl⟩
  · exact hm
  have hnew : firstFree ap.mbrHandles ∉ ap.mbrHandles := firstFree_notMem _
  refine ⟨hm.pairs_iff, fun g m hp => Finset.mem_insert_of_mem (hm.live g m hp), ?_, hm.grp_le⟩
  intro m hmem
  rw [Vec.at?_eq_some]
  simp only
  rcases Finset.mem_insert.mp hmem with rfl | hmem
  · -- No group contains a member that was not there.
    have hnone : groupsOf pairs (firstFree ap.mbrHandles) = ∅ := by
      refine Finset.filter_eq_empty_iff.mpr ?_
      rintro ⟨g, m⟩ hp rfl
      exact hnew (hm.live g _ hp)
    rw [hnone, Function.update_self]
    exact ⟨by omega, rfl⟩
  · have hne : m ≠ firstFree ap.mbrHandles := fun heq => hnew (heq ▸ hmem)
    obtain ⟨hlt, hget⟩ := Vec.at?_eq_some.mp (hm.count m hmem)
    rw [Function.update_of_ne hne]
    exact ⟨by omega, hget⟩

theorem Mirrored.deleteMember (hm : Mirrored ap pairs) {mbr : ℕ} {res}
    (h : ap.deleteMember mbr = some (res, ap')) : Mirrored ap' pairs := by
  rcases deleteMember_eq_some h with rfl | ⟨hmbr, hcount, -, rfl⟩
  · exact hm
  have hzero : (groupsOf pairs mbr).card = 0 := by
    rw [refCountGet, hm.count mbr hmbr] at hcount
    exact Option.some.inj hcount
  refine ⟨hm.pairs_iff, fun g m hp => Finset.mem_erase.mpr ⟨?_, hm.live g m hp⟩,
    fun m hmem => hm.count m (Finset.mem_of_mem_erase hmem), hm.grp_le⟩
  rintro rfl
  have hmem : (g, m) ∈ groupsOf pairs m := Finset.mem_filter.mpr ⟨hp, rfl⟩
  rw [Finset.card_eq_zero.mp hzero] at hmem
  exact absurd hmem (Finset.notMem_empty _)

theorem Mirrored.modifyMember (hm : Mirrored ap pairs) {mbr : ℕ} {fn : ActionFn} {data : List ℤ}
    {res} (h : ap.modifyMember mbr fn data = some (res, ap')) : Mirrored ap' pairs := by
  obtain ⟨entries, -, rfl⟩ := modifyMember_eq_some h
  exact hm.congr (fun _ _ => Iff.rfl) rfl rfl hm.grp_le

/-- A new group is empty, whatever its handle was used for before. -/
theorem Mirrored.createGroup (hm : Mirrored ap pairs) {res} (h : ap.createGroup = some (res, ap')) :
    Mirrored ap' pairs := by
  have hmask : firstFree ap.grpHandles ≤ indexMask := by
    unfold ActionProfile.createGroup makeGrpIndex at h
    simp only [Option.bind_eq_bind, Option.bind_eq_some_iff, Option.ite_none_right_eq_some] at h
    obtain ⟨_, -, _, ⟨hle, -⟩, -⟩ := h
    exact hle
  have hnew : firstFree ap.grpHandles ∉ ap.grpHandles := firstFree_notMem _
  obtain ⟨-, rfl⟩ := createGroup_eq_some h
  refine hm.congr (fun g m => ?_) rfl rfl ?_
  · constructor
    · rintro ⟨hg, mbrs, hat, hmem⟩
      obtain ⟨hlt, hget⟩ := Vec.at?_eq_some.mp hat
      by_cases heq : g = firstFree ap.grpHandles
      · subst heq
        simp only [Function.update_self] at hget
        rw [← hget] at hmem
        exact absurd hmem (Finset.notMem_empty m)
      · simp only [Function.update_of_ne heq] at hget
        have hin : g < ap.groups.size := by
          -- Only the new handle lies in the place that was added.
          simp only at hlt
          have hfree : firstFree ap.grpHandles ≤ ap.groups.size := by
            unfold ActionProfile.createGroup at h
            simp only [Option.bind_eq_bind, Option.bind_eq_some_iff] at h
            obtain ⟨_, hput, -⟩ := h
            exact (Vec.put_eq_some.mp hput).1
          omega
        exact ⟨(Finset.mem_insert.mp hg).resolve_left heq, mbrs,
          Vec.at?_eq_some.mpr ⟨hin, hget⟩, hmem⟩
    · rintro ⟨hg, mbrs, hat, hmem⟩
      have hne : g ≠ firstFree ap.grpHandles := fun heq => hnew (heq ▸ hg)
      obtain ⟨hlt, hget⟩ := Vec.at?_eq_some.mp hat
      refine ⟨Finset.mem_insert_of_mem hg, mbrs, Vec.at?_eq_some.mpr ⟨?_, ?_⟩, hmem⟩
      · exact lt_max_of_lt_left hlt
      · simp only [Function.update_of_ne hne, hget]
  · intro g hg
    rcases Finset.mem_insert.mp hg with rfl | hg
    · exact hmask
    · exact hm.grp_le g hg

theorem Mirrored.deleteGroup (hm : Mirrored ap pairs) {grp : ℕ} {res}
    (hempty : DeletesEmpty ap (.request (.deleteGroup grp)))
    (h : ap.deleteGroup grp = some (res, ap')) : Mirrored ap' pairs := by
  rcases deleteGroup_eq_some h with rfl | ⟨ap₁, hg, hcount, hrel, rfl⟩
  · exact hm
  have hnone := hempty hg hcount
  have hap : ap₁ = ap := by
    rw [hnone] at hrel
    simpa [members, releaseMembers] using hrel.symm
  subst hap
  refine hm.congr (fun g m => ?_) rfl rfl fun g hgm => hm.grp_le g (Finset.mem_of_mem_erase hgm)
  constructor
  · rintro ⟨hgm, hin⟩
    exact ⟨Finset.mem_of_mem_erase hgm, hin⟩
  · rintro ⟨hgm, mbrs, hat, hmem⟩
    refine ⟨Finset.mem_erase.mpr ⟨?_, hgm⟩, mbrs, hat, hmem⟩
    rintro rfl
    rw [← (Vec.at?_eq_some.mp hat).2, hnone] at hmem
    exact absurd hmem (Finset.notMem_empty m)

/-- A member joins or leaves a group, the pair with it, and the count follows. -/
theorem Mirrored.setGroup (hm : Mirrored ap pairs) {mbr grp : ℕ} {g' : Finset ℕ} {v : Vec ℕ}
    {pairs' : Finset (ℕ × ℕ)} (hmbr : mbr ∈ ap.mbrHandles) (hg : grp ∈ ap.grpHandles)
    (hlt : grp < ap.groups.size) (hsame : ∀ m, m ≠ mbr → (m ∈ g' ↔ m ∈ ap.groups.get grp))
    (hpair : (grp, mbr) ∈ pairs' ↔ mbr ∈ g')
    (hpairs : ∀ p, p ≠ (grp, mbr) → (p ∈ pairs' ↔ p ∈ pairs))
    (hsize : v.size = ap.mbrCount.size) (hget : ∀ m, m ≠ mbr → v.get m = ap.mbrCount.get m)
    (hcount : v.get mbr = (groupsOf pairs' mbr).card) :
    Mirrored { ap with
      groups := ⟨ap.groups.size, Function.update ap.groups.get grp g'⟩, mbrCount := v } pairs' := by
  have hin : ∀ g m, (g, m) ≠ (grp, mbr) → (InGroup { ap with
      groups := ⟨ap.groups.size, Function.update ap.groups.get grp g'⟩, mbrCount := v } g m ↔
      ap.InGroup g m) := by
    intro g m hne
    simp only [InGroup, Vec.at?]
    by_cases heq : g = grp
    · subst heq
      have hmne : m ≠ mbr := fun h => hne (by rw [h])
      simp [hlt, hsame m hmne]
    · simp [heq]
  refine ⟨fun g m => ?_, fun g m hp => ?_, fun m hmem => ?_, hm.grp_le⟩
  · by_cases heq : (g, m) = (grp, mbr)
    · obtain ⟨rfl, rfl⟩ := Prod.mk.inj heq
      rw [hpair]
      simp [InGroup, Vec.at?, hlt, hg]
    · rw [hpairs _ heq, hin g m heq]
      exact hm.pairs_iff g m
  · by_cases heq : (g, m) = (grp, mbr)
    · obtain ⟨rfl, rfl⟩ := Prod.mk.inj heq
      exact hmbr
    · exact hm.live g m ((hpairs _ heq).mp hp)
  · obtain ⟨hlt', hold⟩ := Vec.at?_eq_some.mp (hm.count m hmem)
    refine Vec.at?_eq_some.mpr ⟨hsize ▸ hlt', ?_⟩
    by_cases heq : m = mbr
    · rw [heq]
      exact hcount
    · rw [hget m heq, hold]
      congr 1
      ext ⟨g, a⟩
      simp only [groupsOf, Finset.mem_filter, and_congr_left_iff]
      rintro rfl
      exact (hpairs (g, a) fun h => heq (Prod.mk.inj h).2).symm

theorem groupsOf_insert {g m : ℕ} (h : (g, m) ∉ pairs) :
    (groupsOf (insert (g, m) pairs) m).card = (groupsOf pairs m).card + 1 := by
  rw [groupsOf, Finset.filter_insert, if_pos rfl, Finset.card_insert_of_notMem]
  · rfl
  · simp [h]

theorem groupsOf_erase {g m : ℕ} (h : (g, m) ∈ pairs) :
    (groupsOf (pairs.erase (g, m)) m).card = (groupsOf pairs m).card - 1 := by
  rw [groupsOf, Finset.filter_erase, Finset.card_erase_of_mem]
  · rfl
  · simp [h]

theorem Mirrored.addMemberToGroup (hm : Mirrored ap pairs) {mbr grp : ℕ} {res}
    (h : ap.addMemberToGroup mbr grp = some (res, ap')) :
    (∃ e, res = .error e ∧ ap' = ap) ∨
      (res = .ok () ∧ Mirrored ap' (insert (grp, mbr) pairs)) := by
  rcases addMemberToGroup_eq_some h with herr | ⟨hres, hmbr, hg, hlt, hmem, rfl⟩
  · exact .inl herr
  have hpair : (grp, mbr) ∉ pairs := by
    intro hp
    obtain ⟨-, mbrs, hat, hin⟩ := (hm.pairs_iff grp mbr).mp hp
    rw [← (Vec.at?_eq_some.mp hat).2] at hin
    exact hmem hin
  refine .inr ⟨hres, hm.setGroup hmbr hg hlt (fun m hne => by simp [hne]) (by simp)
    (fun p hne => by simp [hne]) rfl (fun m hne => Function.update_of_ne hne ..) ?_⟩
  have hcount := (Vec.at?_eq_some.mp (hm.count mbr hmbr)).2
  simp only [Function.update_self]
  rw [hcount, groupsOf_insert hpair, incr_of_lt (hm.card_groupsOf_lt mbr)]

theorem Mirrored.removeMemberFromGroup (hm : Mirrored ap pairs) {mbr grp : ℕ} {res}
    (h : ap.removeMemberFromGroup mbr grp = some (res, ap')) :
    (∃ e, res = .error e ∧ ap' = ap) ∨
      (res = .ok () ∧ Mirrored ap' (pairs.erase (grp, mbr))) := by
  rcases removeMemberFromGroup_eq_some h with herr | ⟨hres, hmbr, hg, hlt, hmem, rfl⟩
  · exact .inl herr
  have hpair : (grp, mbr) ∈ pairs :=
    (hm.pairs_iff grp mbr).mpr ⟨hg, _, Vec.at?_eq_some.mpr ⟨hlt, rfl⟩, hmem⟩
  refine .inr ⟨hres, hm.setGroup hmbr hg hlt (fun m hne => by simp [hne]) (by simp)
    (fun p hne => by simp [hne]) rfl (fun m hne => Function.update_of_ne hne ..) ?_⟩
  have hcount := (Vec.at?_eq_some.mp (hm.count mbr hmbr)).2
  have hpos : 0 < (groupsOf pairs mbr).card :=
    Finset.card_pos.mpr ⟨(grp, mbr), Finset.mem_filter.mpr ⟨hpair, rfl⟩⟩
  have hlt := hm.card_groupsOf_lt mbr
  simp only [Function.update_self]
  rw [hcount, groupsOf_erase hpair, decr_of_pos hpos (by omega)]

theorem Mirrored.resetState (hm : Mirrored ap pairs) : Mirrored ap.resetState ∅ where
  pairs_iff g m := by
    constructor
    · intro hp
      exact absurd hp (Finset.notMem_empty _)
    · rintro ⟨-, mbrs, hat, -⟩
      cases hat
  live g m hp := absurd hp (Finset.notMem_empty _)
  count m hmem := absurd hmem (Finset.notMem_empty m)
  grp_le := hm.grp_le

/-- **One event**, with what the selector is told of it. -/
theorem Mirrored.event (hm : Mirrored ap pairs) {e : ProfileEvent} {notes : List SelectorCall}
    (hempty : DeletesEmpty ap e) (h : ap.event e = some (ap', notes)) :
    Mirrored ap' (notes.foldl SelectorCall.apply pairs) := by
  cases e with
  | resetState =>
    cases h
    exact hm.resetState
  | request r =>
    obtain ⟨⟨res, ap₁⟩, hreq, heq⟩ := Option.map_eq_some_iff.mp h
    obtain ⟨rfl, rfl⟩ := Prod.mk.inj heq
    cases r with
    | addMember fn data =>
      obtain ⟨v, hreq, -⟩ := exists_of_map_eq_some hreq
      exact hm.addMember hreq
    | deleteMember mbr =>
      obtain ⟨v, hreq, -⟩ := exists_of_map_eq_some hreq
      exact hm.deleteMember hreq
    | modifyMember mbr fn data =>
      obtain ⟨v, hreq, -⟩ := exists_of_map_eq_some hreq
      exact hm.modifyMember hreq
    | createGroup =>
      obtain ⟨v, hreq, -⟩ := exists_of_map_eq_some hreq
      exact hm.createGroup hreq
    | deleteGroup grp =>
      obtain ⟨v, hreq, -⟩ := exists_of_map_eq_some hreq
      exact hm.deleteGroup hempty hreq
    | addMemberToGroup mbr grp =>
      obtain ⟨v, hcall, rfl⟩ := exists_of_map_eq_some hreq
      rcases hm.addMemberToGroup hcall with ⟨e, rfl, rfl⟩ | ⟨rfl, hm'⟩
      · exact hm
      · exact hm'
    | removeMemberFromGroup mbr grp =>
      obtain ⟨v, hcall, rfl⟩ := exists_of_map_eq_some hreq
      rcases hm.removeMemberFromGroup hcall with ⟨e, rfl, rfl⟩ | ⟨rfl, hm'⟩
      · exact hm
      · exact hm'

/-! ## A run -/

theorem mirrored_create (withSelection : Bool) : Mirrored (create withSelection) ∅ where
  pairs_iff g m := by
    constructor
    · intro hp
      exact absurd hp (Finset.notMem_empty _)
    · rintro ⟨hg, -⟩
      exact absurd hg (Finset.notMem_empty g)
  live g m hp := absurd hp (Finset.notMem_empty _)
  count m hmem := absurd hmem (Finset.notMem_empty m)
  grp_le g hg := absurd hg (Finset.notMem_empty g)

/-- **The copy of the selector is exact** in every state of a run that deletes
only empty groups: its pairs are the memberships of the live groups, and all of
them name live members. -/
theorem SelectorRun.replay_iff {withSelection : Bool} {es : List ProfileEvent}
    {calls : List SelectorCall}
    (hrun : SelectorRun DeletesEmpty (create withSelection) [] es ap' calls) :
    (∀ g m, (g, m) ∈ SelectorCall.replay calls ↔ ap'.InGroup g m) ∧
      ∀ g m, (g, m) ∈ SelectorCall.replay calls → m ∈ ap'.mbrHandles := by
  have hm : Mirrored ap' (SelectorCall.replay calls) := by
    have h : Mirrored (create withSelection) (SelectorCall.replay []) :=
      mirrored_create withSelection
    generalize create withSelection = ap at hrun h
    generalize ([] : List SelectorCall) = sent at hrun h
    induction hrun with
    | nil ap calls => exact h
    | cons hok hstep _ ih =>
      refine ih ?_
      rw [SelectorCall.replay, List.foldl_append]
      exact h.event hok hstep
  exact ⟨hm.pairs_iff, hm.live⟩

/-- The deletion of a group of one member. -/
theorem deleteGroup_singleton {grp : ℕ} (mbr : ℕ) (hgrp : grp ≤ indexMask) (hmbr : mbr ≤ indexMask)
    (hvalid : grp ∈ ap.grpHandles) (hcount : ap.refCountGet (.grp grp) = some 0)
    (hgroup : ap.groups.at? grp = some {mbr}) (hlt : mbr < ap.mbrCount.size) :
    ap.deleteGroup grp = some (.ok (), { ap with
      mbrCount := ⟨ap.mbrCount.size,
        Function.update ap.mbrCount.get mbr (decr (ap.mbrCount.get mbr))⟩
      grpHandles := ap.grpHandles.erase grp
      numGroups := ap.numGroups - 1 }) := by
  have hv : ap.isValidGrp grp = true := decide_eq_true hvalid
  simp [ActionProfile.deleteGroup, hv, makeGrpIndex, hgrp, hcount, hgroup, members, releaseMembers,
    makeMbrIndex, hmbr, refCountDecrease, modifyCount, Vec.modify, hlt]

/-- A group is deleted with its member and its handle given out again: the
selector still has the member in it, and the group is empty. -/
theorem replay_keeps_deleted :
    ∃ ap' calls, SelectorRun (fun _ _ => True) (create true) []
        [.request (.addMember ⟨1, 0⟩ []), .request .createGroup, .request (.addMemberToGroup 0 0),
          .request (.deleteGroup 0), .request .createGroup] ap' calls ∧
      (0, 0) ∈ SelectorCall.replay calls ∧ 0 ∈ ap'.grpHandles ∧ ¬ ap'.InGroup 0 0 := by
  refine ⟨_, _, .cons trivial rfl (.cons trivial rfl (.cons trivial rfl (.cons trivial
    (congrArg (Option.map _) (congrArg (Option.map _)
      (deleteGroup_singleton 0 (by decide) (by decide) (by decide) rfl rfl (by decide))))
    (.cons trivial rfl (.nil _ _))))), by decide, by decide, ?_⟩
  rintro ⟨-, mbrs, hat, hmem⟩
  have hnone : mbrs = ∅ := (Option.some.inj hat).symm
  rw [hnone] at hmem
  exact absurd hmem (Finset.notMem_empty 0)

/-- Without the deletion, the pair that the selector has is a membership. -/
theorem replay_follows_added :
    ∃ ap' calls, SelectorRun DeletesEmpty (create true) []
        [.request (.addMember ⟨1, 0⟩ []), .request .createGroup, .request (.addMemberToGroup 0 0)]
        ap' calls ∧ ap'.InGroup 0 0 ∧ 0 ∈ ap'.mbrHandles := by
  have hrun : SelectorRun DeletesEmpty (create true) []
      [.request (.addMember ⟨1, 0⟩ []), .request .createGroup, .request (.addMemberToGroup 0 0)]
      _ _ := .cons trivial rfl (.cons trivial rfl (.cons trivial rfl (.nil _ _)))
  obtain ⟨hpairs, hlive⟩ := hrun.replay_iff
  exact ⟨_, _, hrun, (hpairs 0 0).mp (by decide), hlive 0 0 (by decide)⟩

end ActionProfile

end P4Bricks
