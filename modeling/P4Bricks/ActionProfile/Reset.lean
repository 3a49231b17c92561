import P4Bricks.ActionProfile.Counts
/-!
# A profile after a reset

`reset_state` clears the members, the groups and the counts of a profile, but
not the set of its group handles. Each further handle then lies beyond the end
of the vectors that were cleared, and an old one still passes for a group. A
profile is as new after a reset exactly if it had no group before.
-/

namespace P4Bricks

open MatchUnit

/-! ## Calls -/

/-- A request of the control plane on a profile. -/
inductive ProfileRequest where
  | addMember (fn : ActionFn) (data : List ℤ)
  | deleteMember (mbr : ℕ)
  | modifyMember (mbr : ℕ) (fn : ActionFn) (data : List ℤ)
  | createGroup
  | deleteGroup (grp : ℕ)
  | addMemberToGroup (mbr grp : ℕ)
  | removeMemberFromGroup (mbr grp : ℕ)

/-- A call that changes nothing. -/
inductive ProfileQuery where
  | getMember (mbr : ℕ)
  | getMembers
  | getGroup (grp : ℕ)
  | getGroups
  | getNumMembers
  | getNumGroups
  | getNumMembersInGroup (grp : ℕ)
  | groupIsEmpty (grp : ℕ)
  | lookup (hash : ℕ) (index : IndirectIndex)

/-- `ActionProfile::Member`, and a group with its members. -/
structure Member where
  mbr : ℕ
  actionFn : Option ActionFn
  actionData : List ℤ
  deriving DecidableEq, Inhabited

structure Group where
  grp : ℕ
  mbrHandles : List ℕ
  deriving DecidableEq, Inhabited

/-- What a call returns beside `SUCCESS`. -/
inductive ProfileReply where
  | none
  | handle (h : ℕ)
  | member (m : Member)
  | members (ms : List Member)
  | group (g : Group)
  | groups (gs : List Group)
  | number (n : ℕ)
  | isEmpty (b : Bool)
  | entry (mbr : ℕ) (entry : ActionEntry)
  deriving DecidableEq

/-- Any call but `reset_state`: of the control plane, of a reader, or of a
table that counts a reference. -/
inductive ProfileCall where
  | request (r : ProfileRequest)
  | query (q : ProfileQuery)
  | refCountIncrease (index : IndirectIndex)
  | refCountDecrease (index : IndirectIndex)

namespace ActionProfile

/-! ## Reading -/

/-- `get_member_`. -/
def getMember_ (ap : ActionProfile) (mbr : ℕ) : Option Member :=
  (ap.actionEntries.at? mbr).map fun e => ⟨mbr, e.actionFn, e.actionData⟩

/-- `get_group_`. -/
def getGroup_ (ap : ActionProfile) (grp : ℕ) : Option Group :=
  (ap.groups.at? grp).map fun g => ⟨grp, members g⟩

/-- The loop of `get_members` and `get_groups`: a vector of `num` elements is
made, and the one at the front of the rest is written for each handle. -/
def report {α : Type} [Inhabited α] (num : ℕ) (handles : Finset ℕ) (get : ℕ → Option α) :
    Option (List α) :=
  if handles.card ≤ num then
    ((handles.sort (· ≤ ·)).mapM get).map (· ++ List.replicate (num - handles.card) default)
  else none

def getMembers (ap : ActionProfile) : Option (List Member) :=
  report ap.numMembers ap.mbrHandles ap.getMember_

def getGroups (ap : ActionProfile) : Option (List Group) :=
  report ap.numGroups ap.grpHandles ap.getGroup_

def getNumMembersInGroup (ap : ActionProfile) (grp : ℕ) : Option (Result ℕ) :=
  if !ap.isValidGrp grp then some (.error .invalidGrpHandle)
  else (ap.groups.at? grp).map fun g => .ok g.card

def query (ap : ActionProfile) : ProfileQuery → Option (Result ProfileReply)
  | .getMember mbr =>
    if !ap.isValidMbr mbr then some (.error .invalidMbrHandle)
    else (ap.getMember_ mbr).map fun m => .ok (.member m)
  | .getMembers => ap.getMembers.map fun ms => .ok (.members ms)
  | .getGroup grp =>
    if !ap.isValidGrp grp then some (.error .invalidGrpHandle)
    else (ap.getGroup_ grp).map fun g => .ok (.group g)
  | .getGroups => ap.getGroups.map fun gs => .ok (.groups gs)
  | .getNumMembers => some (.ok (.number ap.numMembers))
  | .getNumGroups => some (.ok (.number ap.numGroups))
  | .getNumMembersInGroup grp => (ap.getNumMembersInGroup grp).map (Except.map .number)
  | .groupIsEmpty grp => (ap.groupIsEmpty grp).map fun b => .ok (.isEmpty b)
  | .lookup hash index => (ap.lookup hash index).map fun e => .ok (.entry e.1 e.2)

def request (ap : ActionProfile) : ProfileRequest → Option (Result ProfileReply × ActionProfile)
  | .addMember fn data => (ap.addMember fn data).map (Prod.map (Except.map .handle) id)
  | .deleteMember mbr => (ap.deleteMember mbr).map (Prod.map (Except.map fun _ => .none) id)
  | .modifyMember mbr fn data =>
    (ap.modifyMember mbr fn data).map (Prod.map (Except.map fun _ => .none) id)
  | .createGroup => ap.createGroup.map (Prod.map (Except.map .handle) id)
  | .deleteGroup grp => (ap.deleteGroup grp).map (Prod.map (Except.map fun _ => .none) id)
  | .addMemberToGroup mbr grp =>
    (ap.addMemberToGroup mbr grp).map (Prod.map (Except.map fun _ => .none) id)
  | .removeMemberFromGroup mbr grp =>
    (ap.removeMemberFromGroup mbr grp).map (Prod.map (Except.map fun _ => .none) id)

/-- One call. -/
def call (ap : ActionProfile) : ProfileCall → Option (Result ProfileReply × ActionProfile)
  | .request r => ap.request r
  | .query q => (ap.query q).map (·, ap)
  | .refCountIncrease index => (ap.refCountIncrease index).map (.ok .none, ·)
  | .refCountDecrease index => (ap.refCountDecrease index).map (.ok .none, ·)

/-- What a sequence of calls returns, up to the first that does not return. -/
def answers : ActionProfile → List ProfileCall → List (Option (Result ProfileReply))
  | _, [] => []
  | ap, c :: cs =>
    match ap.call c with
    | none => [none]
    | some (res, ap') => some res :: ap'.answers cs

/-- The profile that calls lead to, if all of them return. -/
def after : ActionProfile → List ProfileCall → Option ActionProfile
  | ap, [] => some ap
  | ap, c :: cs => (ap.call c).bind fun r => r.2.after cs

/-! ## The assertions on the vectors -/

/-- The next member and the next group lie at most one beyond the end of the
vectors they index: the assertions of `entries_insert`, `insert_group` and of
`set` of the counts. -/
structure Asserted (ap : ActionProfile) : Prop where
  entries : firstFree ap.mbrHandles ≤ ap.actionEntries.size
  mbrCount : firstFree ap.mbrHandles ≤ ap.mbrCount.size
  groups : firstFree ap.grpHandles ≤ ap.groups.size
  grpCount : firstFree ap.grpHandles ≤ ap.grpCount.size

/-- Every handle lies within the vectors it indexes. -/
structure Within (ap : ActionProfile) : Prop where
  entries : ∀ m ∈ ap.mbrHandles, m < ap.actionEntries.size
  mbrCount : ∀ m ∈ ap.mbrHandles, m < ap.mbrCount.size
  groups : ∀ g ∈ ap.grpHandles, g < ap.groups.size
  grpCount : ∀ g ∈ ap.grpHandles, g < ap.grpCount.size

/-- The first free handle is no more than a bound on those in use. -/
theorem firstFree_le_of_lt {handles : Finset ℕ} {n : ℕ} (h : ∀ i ∈ handles, i < n) :
    firstFree handles ≤ n := by
  by_contra hlt
  have hmem : n ∈ handles := mem_of_lt_firstFree (by omega)
  have := h n hmem
  omega

/-- A profile within its bounds meets its assertions. -/
theorem Within.asserted {ap : ActionProfile} (h : Within ap) : Asserted ap :=
  ⟨firstFree_le_of_lt h.entries, firstFree_le_of_lt h.mbrCount, firstFree_le_of_lt h.groups,
    firstFree_le_of_lt h.grpCount⟩

variable {ap ap' : ActionProfile}

/-- Each request keeps a profile within its bounds: a member added takes the first free
handle, -/
theorem Within.addMember (hw : Within ap) {fn : ActionFn} {data : List ℤ} {res}
    (h : ap.addMember fn data = some (res, ap')) : Within ap' := by
  rcases addMember_eq_some h with rfl | ⟨entries, -, hsize, rfl⟩
  · exact hw
  refine ⟨fun m hm => ?_, fun m hm => ?_, hw.groups, hw.grpCount⟩
  · simp only [hsize]
    rcases Finset.mem_insert.mp hm with rfl | hm
    · omega
    · have := hw.entries m hm
      omega
  · simp only
    rcases Finset.mem_insert.mp hm with rfl | hm
    · omega
    · have := hw.mbrCount m hm
      omega

/-- one deleted gives its handle back, -/
theorem Within.deleteMember (hw : Within ap) {mbr : ℕ} {res}
    (h : ap.deleteMember mbr = some (res, ap')) : Within ap' := by
  rcases deleteMember_eq_some h with rfl | ⟨-, -, -, rfl⟩
  · exact hw
  exact ⟨fun m hm => hw.entries m (Finset.mem_of_mem_erase hm),
    fun m hm => hw.mbrCount m (Finset.mem_of_mem_erase hm), hw.groups, hw.grpCount⟩

/-- one modified keeps it, -/
theorem Within.modifyMember (hw : Within ap) {mbr : ℕ} {fn : ActionFn} {data : List ℤ} {res}
    (h : ap.modifyMember mbr fn data = some (res, ap')) : Within ap' := by
  obtain ⟨entries, hsize, rfl⟩ := modifyMember_eq_some h
  refine ⟨fun m hm => ?_, hw.mbrCount, hw.groups, hw.grpCount⟩
  simp only [hsize]
  exact hw.entries m hm

/-- a group created takes the first free handle, -/
theorem Within.createGroup (hw : Within ap) {res} (h : ap.createGroup = some (res, ap')) :
    Within ap' := by
  obtain ⟨-, rfl⟩ := createGroup_eq_some h
  refine ⟨hw.entries, hw.mbrCount, fun g hg => ?_, fun g hg => ?_⟩
  · simp only
    rcases Finset.mem_insert.mp hg with rfl | hg
    · omega
    · have := hw.groups g hg
      omega
  · simp only
    rcases Finset.mem_insert.mp hg with rfl | hg
    · omega
    · have := hw.grpCount g hg
      omega

/-- one deleted gives it back, -/
theorem Within.deleteGroup (hw : Within ap) {grp : ℕ} {res}
    (h : ap.deleteGroup grp = some (res, ap')) : Within ap' := by
  rcases deleteGroup_eq_some h with rfl | ⟨ap₁, -, -, hrel, rfl⟩
  · exact hw
  obtain ⟨v, rfl, hsize, -⟩ := releaseMembers_eq_some (Finset.sort_nodup _ _) hrel
  refine ⟨hw.entries, fun m hm => ?_, fun g hg => hw.groups g (Finset.mem_of_mem_erase hg),
    fun g hg => hw.grpCount g (Finset.mem_of_mem_erase hg)⟩
  simp only [hsize]
  exact hw.mbrCount m hm

/-- and a group gains -/
theorem Within.addMemberToGroup (hw : Within ap) {mbr grp : ℕ} {res}
    (h : ap.addMemberToGroup mbr grp = some (res, ap')) : Within ap' := by
  rcases addMemberToGroup_eq_some h with ⟨_, -, rfl⟩ | ⟨-, -, -, -, -, rfl⟩
  · exact hw
  exact ⟨hw.entries, hw.mbrCount, hw.groups, hw.grpCount⟩

/-- or loses a member. -/
theorem Within.removeMemberFromGroup (hw : Within ap) {mbr grp : ℕ} {res}
    (h : ap.removeMemberFromGroup mbr grp = some (res, ap')) : Within ap' := by
  rcases removeMemberFromGroup_eq_some h with ⟨_, -, rfl⟩ | ⟨-, -, -, -, -, rfl⟩
  · exact hw
  exact ⟨hw.entries, hw.mbrCount, hw.groups, hw.grpCount⟩

/-- Counting a reference keeps the size of the vectors. -/
theorem Within.count (hw : Within ap) {f : ℕ → ℕ} {index : IndirectIndex}
    (h : ap.modifyCount (fun v i => v.modify i f) index = some ap') : Within ap' := by
  cases index with
  | mbr m =>
    obtain ⟨v, hv, rfl⟩ := Option.map_eq_some_iff.mp h
    obtain ⟨-, rfl⟩ := Vec.modify_eq_some.mp hv
    exact ⟨hw.entries, hw.mbrCount, hw.groups, hw.grpCount⟩
  | grp g =>
    obtain ⟨v, hv, rfl⟩ := Option.map_eq_some_iff.mp h
    obtain ⟨-, rfl⟩ := Vec.modify_eq_some.mp hv
    exact ⟨hw.entries, hw.mbrCount, hw.groups, hw.grpCount⟩

/-- The call behind a request. -/
theorem exists_of_map_eq_some {α : Type} {o : Option (Result α × ActionProfile)}
    {reply : α → ProfileReply} {res : Result ProfileReply}
    (h : o.map (Prod.map (Except.map reply) id) = some (res, ap')) :
    ∃ v, o = some (v, ap') ∧ res = v.map reply := by
  obtain ⟨⟨v, ap''⟩, ho, heq⟩ := Option.map_eq_some_iff.mp h
  obtain ⟨rfl, rfl⟩ := Prod.mk.inj heq
  exact ⟨v, ho, rfl⟩

/-- So every request of the interface does, -/
theorem Within.request (hw : Within ap) {r : ProfileRequest} {res}
    (h : ap.request r = some (res, ap')) : Within ap' := by
  cases r with
  | addMember fn data =>
    obtain ⟨v, h, -⟩ := exists_of_map_eq_some h
    exact hw.addMember h
  | deleteMember mbr =>
    obtain ⟨v, h, -⟩ := exists_of_map_eq_some h
    exact hw.deleteMember h
  | modifyMember mbr fn data =>
    obtain ⟨v, h, -⟩ := exists_of_map_eq_some h
    exact hw.modifyMember h
  | createGroup =>
    obtain ⟨v, h, -⟩ := exists_of_map_eq_some h
    exact hw.createGroup h
  | deleteGroup grp =>
    obtain ⟨v, h, -⟩ := exists_of_map_eq_some h
    exact hw.deleteGroup h
  | addMemberToGroup mbr grp =>
    obtain ⟨v, h, -⟩ := exists_of_map_eq_some h
    exact hw.addMemberToGroup h
  | removeMemberFromGroup mbr grp =>
    obtain ⟨v, h, -⟩ := exists_of_map_eq_some h
    exact hw.removeMemberFromGroup h

/-- every call, the resets among them, -/
theorem Within.call (hw : Within ap) {c : ProfileCall} {res}
    (h : ap.call c = some (res, ap')) : Within ap' := by
  cases c with
  | request r => exact hw.request h
  | query q =>
    obtain ⟨res', -, heq⟩ := Option.map_eq_some_iff.mp h
    cases heq
    exact hw
  | refCountIncrease index =>
    obtain ⟨ap₁, hincr, heq⟩ := Option.map_eq_some_iff.mp h
    cases heq
    exact hw.count hincr
  | refCountDecrease index =>
    obtain ⟨ap₁, hdecr, heq⟩ := Option.map_eq_some_iff.mp h
    cases heq
    exact hw.count hdecr

/-- and every sequence of calls. -/
theorem Within.after (hw : Within ap) {cs : List ProfileCall} (h : ap.after cs = some ap') :
    Within ap' := by
  induction cs generalizing ap with
  | nil =>
    obtain rfl := Option.some.inj h
    exact hw
  | cons c cs ih =>
    obtain ⟨⟨res, ap₁⟩, hcall, hafter⟩ := Option.bind_eq_some_iff.mp h
    exact ih (hw.call hcall) hafter

/-- A new profile has nothing that could be out of bounds. -/
theorem within_create (withSelection : Bool) : Within (create withSelection) where
  entries m hm := absurd hm (Finset.notMem_empty m)
  mbrCount m hm := absurd hm (Finset.notMem_empty m)
  groups g hg := absurd hg (Finset.notMem_empty g)
  grpCount g hg := absurd hg (Finset.notMem_empty g)

/-! ## As new -/

/-- The profile answers every sequence of calls as a new one does, and no
assertion on its vectors fails in a state they lead to. -/
def AsNew (ap : ActionProfile) : Prop :=
  (∀ cs, ap.answers cs = (create ap.withSelection).answers cs) ∧
    ∀ cs ap', ap.after cs = some ap' → Asserted ap'

/-- A handle that outlived its group is found valid, and its count is gone. -/
theorem answers_deleteGroup_resetState {g : ℕ} (hg : g ∈ ap.grpHandles) :
    ap.resetState.answers [.request (.deleteGroup g)] = [none] := by
  have hvalid : ap.resetState.isValidGrp g = true := decide_eq_true hg
  have hcount : ap.resetState.refCountGet (.grp g) = none := rfl
  have hnone : ap.resetState.deleteGroup g = none := by
    unfold deleteGroup makeGrpIndex
    by_cases hmask : g ≤ indexMask
    · simp [hvalid, hmask, hcount]
    · simp [hvalid, hmask]
  simp [answers, call, request, hnone]

/-- A new profile knows no group. -/
theorem answers_deleteGroup_create (withSelection : Bool) (g : ℕ) :
    (create withSelection).answers [.request (.deleteGroup g)] =
      [some (.error .invalidGrpHandle)] := by
  have hvalid : (create withSelection).isValidGrp g = false := by simp [isValidGrp, create]
  have herror : (create withSelection).deleteGroup g =
      some (.error .invalidGrpHandle, create withSelection) := by
    simp [deleteGroup, hvalid]
  simp [answers, call, request, herror, Except.map]

/-- **A reset makes a profile new exactly if it has no group.** -/
theorem asNew_resetState_iff (ap : ActionProfile) :
    AsNew ap.resetState ↔ ap.grpHandles = ∅ := by
  constructor
  · rintro ⟨hanswers, -⟩
    refine Finset.eq_empty_of_forall_notMem fun g hg => ?_
    have heq := hanswers [.request (.deleteGroup g)]
    rw [answers_deleteGroup_resetState hg, answers_deleteGroup_create] at heq
    cases heq
  · intro hempty
    have hcreate : ap.resetState = create ap.withSelection := by
      rw [resetState, hempty]
      rfl
    rw [hcreate]
    exact ⟨fun cs => rfl, fun cs ap' h => ((within_create _).after h).asserted⟩

/-- With a group made before the reset, the next handle is beyond the end of the
vector of groups, where a new profile returns the first one. -/
theorem createGroup_resetState_aborts :
    ∃ ap, (create true).after [.request .createGroup] = some ap ∧
      ap.resetState.answers [.request .createGroup] = [none] ∧
      (create true).answers [.request .createGroup] = [some (.ok (.handle 0))] ∧
      ¬ Asserted ap.resetState := by
  refine ⟨_, rfl, by decide, by decide, fun h => ?_⟩
  exact absurd h.groups (by decide)

end ActionProfile

end P4Bricks
