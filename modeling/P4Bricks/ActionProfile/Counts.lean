import P4Bricks.ActionProfile.Model
/-!
# Reference counts of a profile

What the counts of a profile should say, over any references from outside:
`E index` of them point at `index`, and each group points at its members.
`Counted` is kept by every operation of the profile itself, and by counting a
reference up or down together with `E`, as long as no count reaches `2 ^ 32`.
-/

namespace P4Bricks

open MatchUnit

/-! ## Vectors -/

namespace Vec

variable {α : Type*}

/-- What a vector has at an index is there only below its size. -/
theorem at?_eq_some {v : Vec α} {i : ℕ} {a : α} :
    v.at? i = some a ↔ i < v.size ∧ v.get i = a := by
  unfold Vec.at?
  by_cases hi : i < v.size
  · simp [hi]
  · simp [hi]

/-- An element is put at an index of the vector or right behind it. -/
theorem put_eq_some {v v' : Vec α} {i : ℕ} {a : α} :
    v.put i a = some v' ↔ i ≤ v.size ∧ v' = ⟨max v.size (i + 1), Function.update v.get i a⟩ := by
  unfold Vec.put
  by_cases hi : i ≤ v.size
  · simp [hi, eq_comm]
  · simp [hi]

/-- An element that is modified is one of the vector. -/
theorem modify_eq_some {v v' : Vec α} {i : ℕ} {f : α → α} :
    v.modify i f = some v' ↔
      i < v.size ∧ v' = ⟨v.size, Function.update v.get i (f (v.get i))⟩ := by
  unfold Vec.modify
  by_cases hi : i < v.size
  · simp [hi, eq_comm]
  · simp [hi]

end Vec

namespace ActionProfile

variable {ap ap' : ActionProfile} {E E' : IndirectIndex → ℕ}

/-- The index of a member names it. -/
theorem makeMbrIndex_eq {m : ℕ} {index : IndirectIndex}
    (h : makeMbrIndex m = some index) : index = .mbr m := by
  unfold makeMbrIndex at h
  split at h
  · exact (Option.some.inj h).symm
  · cases h

/-- The index of a group names it. -/
theorem makeGrpIndex_eq {g : ℕ} {index : IndirectIndex}
    (h : makeGrpIndex g = some index) : index = .grp g := by
  unfold makeGrpIndex at h
  split at h
  · exact (Option.some.inj h).symm
  · cases h

/-- A count that has room goes up by one, -/
theorem incr_of_lt {c : ℕ} (h : c + 1 < countMod) : incr c = c + 1 := Nat.mod_eq_of_lt h

/-- and one that is not zero down by one: no count wraps. -/
theorem decr_of_pos {c : ℕ} (h0 : 0 < c) (h : c < countMod) : decr c = c - 1 := by
  unfold decr countMod at *
  omega

/-! ## The counts -/

/-- The index names a member or a group of the profile. -/
def Valid (ap : ActionProfile) : IndirectIndex → Prop
  | .mbr m => m ∈ ap.mbrHandles
  | .grp g => g ∈ ap.grpHandles

/-- The groups that contain a member. -/
def groupRefs (ap : ActionProfile) (m : ℕ) : ℕ :=
  (ap.grpHandles.filter fun g => m ∈ ap.groups.get g).card

/-- All references to an index. -/
def refs (ap : ActionProfile) (E : IndirectIndex → ℕ) : IndirectIndex → ℕ
  | .mbr m => E (.mbr m) + ap.groupRefs m
  | .grp g => E (.grp g)

/-- **The counts are right**, and nothing points at what is not there. -/
structure Counted (ap : ActionProfile) (E : IndirectIndex → ℕ) : Prop where
  valid : ∀ index, E index ≠ 0 → ap.Valid index
  members : ∀ g ∈ ap.grpHandles, ∀ m ∈ ap.groups.get g, m ∈ ap.mbrHandles
  count : ∀ index, ap.Valid index → ap.refCountGet index = some (ap.refs E index)

/-- No count is about to wrap. -/
def Fits (ap : ActionProfile) (E : IndirectIndex → ℕ) : Prop :=
  ∀ index, ap.refs E index + 1 < countMod

/-- A new profile counts nothing. -/
theorem counted_create (withSelection : Bool) : Counted (create withSelection) fun _ => 0 where
  valid := fun _ h => absurd rfl h
  members := fun g hg => absurd hg (Finset.notMem_empty g)
  count := by
    intro index hindex
    cases index with
    | mbr m => exact absurd hindex (Finset.notMem_empty m)
    | grp g => exact absurd hindex (Finset.notMem_empty g)

/-- No group has a member that does not exist. -/
theorem Counted.groupRefs_eq_zero (hc : Counted ap E) {m : ℕ} (hm : m ∉ ap.mbrHandles) :
    ap.groupRefs m = 0 := by
  rw [groupRefs, Finset.card_eq_zero, Finset.filter_eq_empty_iff]
  intro g hg hmem
  exact hm (hc.members g hg m hmem)

/-- No entry points to what does not exist. -/
theorem Counted.eq_zero (hc : Counted ap E) {index : IndirectIndex} (hindex : ¬ ap.Valid index) :
    E index = 0 := by
  by_contra hne
  exact hindex (hc.valid index hne)

/-! ## References from outside -/

/-- Counting a reference changes one count. -/
theorem modifyCount_eq {f : ℕ → ℕ} {index : IndirectIndex}
    (h : ap.modifyCount (fun v i => v.modify i f) index = some ap') :
    ap'.mbrHandles = ap.mbrHandles ∧ ap'.grpHandles = ap.grpHandles ∧ ap'.groups = ap.groups ∧
      ∀ index', ap'.refCountGet index' =
        if index' = index then (ap.refCountGet index).map f else ap.refCountGet index' := by
  cases index with
  | mbr m =>
    obtain ⟨v, hv, rfl⟩ := Option.map_eq_some_iff.mp h
    obtain ⟨hlt, rfl⟩ := Vec.modify_eq_some.mp hv
    refine ⟨rfl, rfl, rfl, fun index' => ?_⟩
    cases index' with
    | mbr m' =>
      by_cases heq : m' = m
      · subst heq
        simp [refCountGet, Vec.at?, hlt]
      · simp [refCountGet, Vec.at?, heq]
    | grp g => simp [refCountGet]
  | grp g =>
    obtain ⟨v, hv, rfl⟩ := Option.map_eq_some_iff.mp h
    obtain ⟨hlt, rfl⟩ := Vec.modify_eq_some.mp hv
    refine ⟨rfl, rfl, rfl, fun index' => ?_⟩
    cases index' with
    | mbr m => simp [refCountGet]
    | grp g' =>
      by_cases heq : g' = g
      · subst heq
        simp [refCountGet, Vec.at?, hlt]
      · simp [refCountGet, Vec.at?, heq]

/-- An entry more is counted. -/
theorem Counted.increase (hc : Counted ap E) (hf : Fits ap E) {index : IndirectIndex}
    (hindex : ap.Valid index) (hincr : ap.refCountIncrease index = some ap')
    (hE : ∀ index', E' index' = E index' + if index' = index then 1 else 0) : Counted ap' E' := by
  obtain ⟨hm, hg, hgs, hget⟩ := modifyCount_eq hincr
  have hvalid : ∀ index', ap'.Valid index' ↔ ap.Valid index' := by
    intro index'
    cases index' <;> simp only [Valid, hm, hg]
  have hrefs : ∀ index', ap'.refs E' index' =
      ap.refs E index' + if index' = index then 1 else 0 := by
    intro index'
    cases index' with
    | mbr m =>
      simp only [refs, groupRefs, hg, hgs, hE]
      omega
    | grp g => simp only [refs, hE]
  refine ⟨fun index' hne => ?_, fun g hgm m hmem => ?_, fun index' hv => ?_⟩
  · rw [hvalid]
    by_cases heq : index' = index
    · rwa [heq]
    · refine hc.valid index' fun h0 => hne ?_
      rw [hE, h0, if_neg heq]
  · rw [hm]
    exact hc.members g (hg ▸ hgm) m (hgs ▸ hmem)
  · rw [hget, hrefs]
    by_cases heq : index' = index
    · rw [if_pos heq, if_pos heq, hc.count index hindex, Option.map_some, heq, incr_of_lt (hf index)]
    · rw [if_neg heq, if_neg heq, hc.count index' ((hvalid index').mp hv)]
      rfl

/-- An entry less is counted. -/
theorem Counted.decrease (hc : Counted ap E) (hf : Fits ap E) {index : IndirectIndex}
    (hdecr : ap.refCountDecrease index = some ap')
    (hE : ∀ index', E' index' + (if index' = index then 1 else 0) = E index') :
    Counted ap' E' := by
  obtain ⟨hm, hg, hgs, hget⟩ := modifyCount_eq hdecr
  have hvalid : ∀ index', ap'.Valid index' ↔ ap.Valid index' := by
    intro index'
    cases index' <;> simp only [Valid, hm, hg]
  -- One reference less to the index and none to the others: the members of the groups have not
  -- changed.
  have hrefs : ∀ index', ap'.refs E' index' + (if index' = index then 1 else 0) =
      ap.refs E index' := by
    intro index'
    cases index' with
    | mbr m =>
      simp only [refs, groupRefs, hg, hgs, ← hE]
      omega
    | grp g => simp only [refs, hE]
  refine ⟨fun index' hne => ?_, fun g hgm m hmem => ?_, fun index' hv => ?_⟩
  · rw [hvalid]
    refine hc.valid index' fun h0 => hne ?_
    have := hE index'
    omega
  · rw [hm]
    exact hc.members g (hg ▸ hgm) m (hgs ▸ hmem)
  · have hr := hrefs index'
    rw [hget]
    by_cases heq : index' = index
    · subst heq
      rw [if_pos rfl] at hr ⊢
      have hlt := hf index'
      rw [hc.count index' ((hvalid index').mp hv), Option.map_some, decr_of_pos (by omega) (by omega)]
      congr 1
      omega
    · rw [if_neg heq] at hr ⊢
      rw [hc.count index' ((hvalid index').mp hv), ← hr]
      rfl

/-! ## Members -/

/-- What `add_member` does: nothing, or a member in the first free place, counted zero. -/
theorem addMember_eq_some {fn : ActionFn} {data : List ℤ} {res}
    (h : ap.addMember fn data = some (res, ap')) :
    ap' = ap ∨ ∃ entries : Vec ActionEntry, firstFree ap.mbrHandles ≤ ap.mbrCount.size ∧
      entries.size = max ap.actionEntries.size (firstFree ap.mbrHandles + 1) ∧ ap' = { ap with
        mbrHandles := insert (firstFree ap.mbrHandles) ap.mbrHandles
        actionEntries := entries
        mbrCount := ⟨max ap.mbrCount.size (firstFree ap.mbrHandles + 1),
          Function.update ap.mbrCount.get (firstFree ap.mbrHandles) 0⟩
        numMembers := ap.numMembers + 1 } := by
  unfold addMember entriesInsert makeMbrIndex refCountReset at h
  split_ifs at h with hdata
  · exact .inl (by simp_all)
  · right
    simp only [Option.bind_eq_bind, Option.bind_eq_some_iff, Option.pure_def, Option.some.injEq,
      Prod.mk.injEq, Option.ite_none_right_eq_some] at h
    obtain ⟨ap₁, ⟨entries, hput, index, ⟨-, rfl⟩, hcount⟩, -, rfl⟩ := h
    obtain ⟨v, hv, rfl⟩ := Option.map_eq_some_iff.mp hcount
    obtain ⟨hle, rfl⟩ := Vec.put_eq_some.mp hv
    obtain ⟨-, rfl⟩ := Vec.put_eq_some.mp hput
    exact ⟨_, hle, rfl, rfl⟩

/-- The new member has no references, and the others keep theirs. -/
theorem Counted.addMember (hc : Counted ap E) {fn : ActionFn} {data : List ℤ} {res}
    (h : ap.addMember fn data = some (res, ap')) : Counted ap' E := by
  rcases addMember_eq_some h with rfl | ⟨entries, hle, -, rfl⟩
  · exact hc
  have hnew : firstFree ap.mbrHandles ∉ ap.mbrHandles := firstFree_notMem _
  refine ⟨fun index hne => ?_, fun g hg m hmem => ?_, fun index hv => ?_⟩
  · have hv := hc.valid index hne
    cases index with
    | mbr m => exact Finset.mem_insert_of_mem hv
    | grp g => exact hv
  · exact Finset.mem_insert_of_mem (hc.members g hg m hmem)
  · cases index with
    | grp g => exact hc.count (.grp g) hv
    | mbr m =>
      rcases Finset.mem_insert.mp hv with rfl | hm
      · -- Nothing points at a member that was not there.
        have hE : E (.mbr (firstFree ap.mbrHandles)) = 0 := hc.eq_zero hnew
        have hG := hc.groupRefs_eq_zero hnew
        rw [refCountGet, Vec.at?_eq_some]
        refine ⟨by simp, ?_⟩
        simp only [Function.update_self, refs, hE, Nat.zero_add]
        exact hG.symm
      · have hcount := hc.count (.mbr m) hm
        have hne : m ≠ firstFree ap.mbrHandles := fun heq => hnew (heq ▸ hm)
        rw [refCountGet, Vec.at?_eq_some] at hcount ⊢
        refine ⟨by simp only; omega, ?_⟩
        simp only [Function.update_of_ne hne]
        exact hcount.2

/-- What `delete_member` does: a member goes when nothing refers to it. -/
theorem deleteMember_eq_some {mbr : ℕ} {res} (h : ap.deleteMember mbr = some (res, ap')) :
    ap' = ap ∨ (mbr ∈ ap.mbrHandles ∧ ap.refCountGet (.mbr mbr) = some 0 ∧ res = .ok () ∧
      ap' = { ap with
        mbrHandles := ap.mbrHandles.erase mbr, numMembers := ap.numMembers - 1 }) := by
  unfold deleteMember makeMbrIndex at h
  by_cases hm : ap.isValidMbr mbr = true
  · simp only [hm, Bool.not_true, Bool.false_eq_true, if_false, Option.bind_eq_bind,
      Option.bind_eq_some_iff, Option.ite_none_right_eq_some, Option.some.injEq] at h
    obtain ⟨index, ⟨-, rfl⟩, count, hcount, h⟩ := h
    split_ifs at h with hpos
    · simp only [Option.pure_def, Option.some.injEq, Prod.mk.injEq] at h
      exact .inl h.2.symm
    · simp only [Option.pure_def, Option.some.injEq, Prod.mk.injEq] at h
      obtain rfl : count = 0 := by omega
      exact .inr ⟨by simpa [isValidMbr] using hm, hcount, h.1.symm, h.2.symm⟩
  · simp only [hm, Bool.not_false, if_true, Option.some.injEq, Prod.mk.injEq] at h
    exact .inl h.2.symm

/-- The member that goes has no references to lose. -/
theorem Counted.deleteMember (hc : Counted ap E) {mbr : ℕ} {res}
    (h : ap.deleteMember mbr = some (res, ap')) : Counted ap' E := by
  rcases deleteMember_eq_some h with rfl | ⟨hm, hcount, -, rfl⟩
  · exact hc
  have hrefs : E (.mbr mbr) + ap.groupRefs mbr = 0 := by
    rw [hc.count (.mbr mbr) hm] at hcount
    exact Option.some.inj hcount
  refine ⟨fun index hne => ?_, fun g hg m hmem => ?_, fun index hv => ?_⟩
  · have hv := hc.valid index hne
    cases index with
    | grp g => exact hv
    | mbr m =>
      refine Finset.mem_erase.mpr ⟨?_, hv⟩
      rintro rfl
      omega
  · refine Finset.mem_erase.mpr ⟨?_, hc.members g hg m hmem⟩
    rintro rfl
    have hG : ap.groupRefs m = 0 := by omega
    rw [groupRefs, Finset.card_eq_zero, Finset.filter_eq_empty_iff] at hG
    exact hG hg hmem
  · cases index with
    | grp g => exact hc.count (.grp g) hv
    | mbr m => exact hc.count (.mbr m) (Finset.mem_of_mem_erase hv)

/-- What `modify_member` does: another action, and no other count. -/
theorem modifyMember_eq_some {mbr : ℕ} {fn : ActionFn} {data : List ℤ} {res}
    (h : ap.modifyMember mbr fn data = some (res, ap')) :
    ∃ entries : Vec ActionEntry, entries.size = ap.actionEntries.size ∧
      ap' = { ap with actionEntries := entries } := by
  unfold modifyMember at h
  split_ifs at h with hdata hm
  · cases h
    exact ⟨_, rfl, rfl⟩
  · cases h
    exact ⟨_, rfl, rfl⟩
  · simp only [Option.bind_eq_bind, Option.bind_eq_some_iff, Option.pure_def, Option.some.injEq,
      Prod.mk.injEq] at h
    obtain ⟨entries, hmod, -, rfl⟩ := h
    obtain ⟨-, rfl⟩ := Vec.modify_eq_some.mp hmod
    exact ⟨⟨ap.actionEntries.size,
      Function.update ap.actionEntries.get mbr ⟨some fn, data, none⟩⟩, rfl, rfl⟩

/-- References are to members, not to their actions. -/
theorem Counted.modifyMember (hc : Counted ap E) {mbr : ℕ} {fn : ActionFn} {data : List ℤ} {res}
    (h : ap.modifyMember mbr fn data = some (res, ap')) : Counted ap' E := by
  obtain ⟨entries, -, rfl⟩ := modifyMember_eq_some h
  exact ⟨hc.valid, hc.members, hc.count⟩

/-! ## Groups -/

/-- What `create_group` does: an empty group in the first free place. -/
theorem createGroup_eq_some {res} (h : ap.createGroup = some (res, ap')) :
    firstFree ap.grpHandles ≤ ap.grpCount.size ∧
      ap' = { ap with
        grpHandles := insert (firstFree ap.grpHandles) ap.grpHandles
        groups := ⟨max ap.groups.size (firstFree ap.grpHandles + 1),
          Function.update ap.groups.get (firstFree ap.grpHandles) ∅⟩
        grpCount := ⟨max ap.grpCount.size (firstFree ap.grpHandles + 1),
          Function.update ap.grpCount.get (firstFree ap.grpHandles) 0⟩
        numGroups := ap.numGroups + 1 } := by
  unfold createGroup makeGrpIndex refCountReset at h
  simp only [Option.bind_eq_bind, Option.bind_eq_some_iff, Option.pure_def, Option.some.injEq,
    Prod.mk.injEq, Option.ite_none_right_eq_some] at h
  obtain ⟨groups, hput, index, ⟨-, rfl⟩, ap₁, hcount, -, rfl⟩ := h
  obtain ⟨-, rfl⟩ := Vec.put_eq_some.mp hput
  obtain ⟨v, hv, rfl⟩ := Option.map_eq_some_iff.mp hcount
  obtain ⟨hle, rfl⟩ := Vec.put_eq_some.mp hv
  exact ⟨hle, rfl⟩

/-- A new group has no members that it could count. -/
theorem Counted.createGroup (hc : Counted ap E) {res} (h : ap.createGroup = some (res, ap')) :
    Counted ap' E := by
  obtain ⟨hle, rfl⟩ := createGroup_eq_some h
  have hnew : firstFree ap.grpHandles ∉ ap.grpHandles := firstFree_notMem _
  have hne : ∀ {g}, g ∈ ap.grpHandles → g ≠ firstFree ap.grpHandles :=
    fun hg heq => hnew (heq ▸ hg)
  -- The new group is empty, and no other changed.
  have hgroup : ∀ m, (insert (firstFree ap.grpHandles) ap.grpHandles).filter (fun g => m ∈
      Function.update ap.groups.get (firstFree ap.grpHandles) ∅ g) =
      ap.grpHandles.filter fun g => m ∈ ap.groups.get g := by
    intro m
    rw [Finset.filter_insert, if_neg (by simp)]
    refine Finset.filter_congr fun g hg => ?_
    rw [Function.update_of_ne (hne hg)]
  refine ⟨fun index hE => ?_, fun g hg m hmem => ?_, fun index hv => ?_⟩
  · have hv := hc.valid index hE
    cases index with
    | mbr m => exact hv
    | grp g => exact Finset.mem_insert_of_mem hv
  · rcases Finset.mem_insert.mp hg with rfl | hg
    · simp at hmem
    · simp only [Function.update_of_ne (hne hg)] at hmem
      exact hc.members g hg m hmem
  · cases index with
    | mbr m =>
      rw [refs, groupRefs, hgroup]
      exact hc.count (.mbr m) hv
    | grp g =>
      rcases Finset.mem_insert.mp hv with rfl | hg
      · rw [refCountGet, Vec.at?_eq_some]
        refine ⟨by simp, ?_⟩
        simp only [Function.update_self, refs]
        exact (hc.eq_zero (show ¬ ap.Valid (.grp (firstFree ap.grpHandles)) from hnew)).symm
      · have hcount := hc.count (.grp g) hg
        rw [refCountGet, Vec.at?_eq_some] at hcount ⊢
        refine ⟨by simp only; omega, ?_⟩
        simp only [Function.update_of_ne (hne hg)]
        exact hcount.2

/-- Releasing the members of a group takes one from the count of each. -/
theorem releaseMembers_eq_some {mbrs : List ℕ} (hnd : mbrs.Nodup)
    (h : ap.releaseMembers mbrs = some ap') :
    ∃ v : Vec ℕ, ap' = { ap with mbrCount := v } ∧ v.size = ap.mbrCount.size ∧
      ∀ m, v.get m = if m ∈ mbrs then decr (ap.mbrCount.get m) else ap.mbrCount.get m := by
  induction mbrs generalizing ap with
  | nil =>
    obtain rfl := Option.some.inj h
    exact ⟨ap.mbrCount, rfl, rfl, by simp⟩
  | cons mbr mbrs ih =>
    obtain ⟨hmbr, hnd⟩ := List.nodup_cons.mp hnd
    simp only [releaseMembers, makeMbrIndex, refCountDecrease, Option.bind_eq_bind,
      Option.bind_eq_some_iff, Option.ite_none_right_eq_some, Option.some.injEq] at h
    obtain ⟨index, ⟨-, rfl⟩, ap₁, hcount, h⟩ := h
    obtain ⟨v, hv, rfl⟩ := Option.map_eq_some_iff.mp hcount
    obtain ⟨-, rfl⟩ := Vec.modify_eq_some.mp hv
    obtain ⟨v', rfl, hsize, hget⟩ := ih hnd h
    refine ⟨v', rfl, hsize, fun m => ?_⟩
    rw [hget]
    by_cases heq : m = mbr
    · subst heq
      simp [hmbr]
    · simp [heq]

/-- What `delete_group` does: a group goes when no entry refers to it, and lets go of
its members. -/
theorem deleteGroup_eq_some {grp : ℕ} {res} (h : ap.deleteGroup grp = some (res, ap')) :
    ap' = ap ∨ ∃ ap₁, grp ∈ ap.grpHandles ∧ ap.refCountGet (.grp grp) = some 0 ∧
      ap.releaseMembers (members (ap.groups.get grp)) = some ap₁ ∧
      ap' = { ap₁ with
        grpHandles := ap₁.grpHandles.erase grp, numGroups := ap₁.numGroups - 1 } := by
  unfold deleteGroup makeGrpIndex at h
  by_cases hg : ap.isValidGrp grp = true
  · simp only [hg, Bool.not_true, Bool.false_eq_true, if_false, Option.bind_eq_bind,
      Option.bind_eq_some_iff, Option.ite_none_right_eq_some, Option.some.injEq] at h
    obtain ⟨index, ⟨-, rfl⟩, count, hcount, h⟩ := h
    split_ifs at h with hpos
    · simp only [Option.pure_def, Option.some.injEq, Prod.mk.injEq] at h
      exact .inl h.2.symm
    · simp only [Option.pure_def, Option.bind_eq_some_iff, Option.some.injEq, Prod.mk.injEq] at h
      obtain ⟨g, hat, ap₁, hrel, -, rfl⟩ := h
      obtain ⟨-, rfl⟩ := Vec.at?_eq_some.mp hat
      obtain rfl : count = 0 := by omega
      exact .inr ⟨ap₁, by simpa [isValidGrp] using hg, hcount, hrel, rfl⟩
  · simp only [hg, Bool.not_false, if_true, Option.some.injEq, Prod.mk.injEq] at h
    exact .inl h.2.symm

/-- A group of the profile counts for each of its members. -/
theorem groupRefs_erase {grp : ℕ} (hg : grp ∈ ap.grpHandles) (m : ℕ) :
    ((ap.grpHandles.erase grp).filter fun g => m ∈ ap.groups.get g).card +
      (if m ∈ ap.groups.get grp then 1 else 0) = ap.groupRefs m := by
  rw [groupRefs, Finset.filter_erase]
  by_cases hm : m ∈ ap.groups.get grp
  · have hmem : grp ∈ ap.grpHandles.filter fun g => m ∈ ap.groups.get g :=
      Finset.mem_filter.mpr ⟨hg, hm⟩
    rw [if_pos hm, Finset.card_erase_add_one hmem]
  · rw [if_neg hm, Finset.erase_eq_of_notMem (by simp [hm]), Nat.add_zero]

/-- The members of the group that goes are each counted down by one. -/
theorem Counted.deleteGroup (hc : Counted ap E) (hf : Fits ap E) {grp : ℕ} {res}
    (h : ap.deleteGroup grp = some (res, ap')) : Counted ap' E := by
  rcases deleteGroup_eq_some h with rfl | ⟨ap₁, hg, hcount, hrel, rfl⟩
  · exact hc
  obtain ⟨v, rfl, hsize, hget⟩ := releaseMembers_eq_some (Finset.sort_nodup _ _) hrel
  have hE : E (.grp grp) = 0 := by
    rw [hc.count (.grp grp) hg] at hcount
    exact Option.some.inj hcount
  refine ⟨fun index hne => ?_, fun g hgm m hmem => ?_, fun index hv => ?_⟩
  · have hv := hc.valid index hne
    cases index with
    | mbr m => exact hv
    | grp g =>
      refine Finset.mem_erase.mpr ⟨?_, hv⟩
      rintro rfl
      exact hne hE
  · exact hc.members g (Finset.mem_of_mem_erase hgm) m hmem
  · cases index with
    | grp g => exact hc.count (.grp g) (Finset.mem_of_mem_erase hv)
    | mbr m =>
      have hcount := hc.count (.mbr m) hv
      have hlt := hf (.mbr m)
      have hgr := groupRefs_erase hg m
      simp only [refs, groupRefs] at hlt hgr
      rw [refCountGet, Vec.at?_eq_some, refs, groupRefs] at hcount
      rw [refCountGet, Vec.at?_eq_some]
      refine ⟨hsize ▸ hcount.1, ?_⟩
      simp only [hget, Finset.mem_sort, refs, groupRefs, hcount.2]
      by_cases hm : m ∈ ap.groups.get grp
      · rw [if_pos hm] at hgr ⊢
        rw [decr_of_pos (by omega) (by omega)]
        omega
      · rw [if_neg hm] at hgr ⊢
        omega

/-- Membership of one group changes, and with it the count of one member. -/
theorem groupRefs_update {grp : ℕ} (hg : grp ∈ ap.grpHandles) (g' : Finset ℕ) (m : ℕ) :
    (ap.grpHandles.filter fun g => m ∈ Function.update ap.groups.get grp g' g).card +
      (if m ∈ ap.groups.get grp then 1 else 0) =
    ap.groupRefs m + if m ∈ g' then 1 else 0 := by
  have hne : (ap.grpHandles.erase grp).filter (fun g => m ∈ Function.update ap.groups.get grp g' g) =
      (ap.grpHandles.erase grp).filter fun g => m ∈ ap.groups.get g := by
    refine Finset.filter_congr fun g hgm => ?_
    rw [Function.update_of_ne (Finset.ne_of_mem_erase hgm)]
  have hold := groupRefs_erase hg m
  have hnew : ap.grpHandles.filter (fun g => m ∈ Function.update ap.groups.get grp g' g) =
      if m ∈ g' then insert grp ((ap.grpHandles.erase grp).filter fun g => m ∈ ap.groups.get g)
      else (ap.grpHandles.erase grp).filter fun g => m ∈ ap.groups.get g := by
    conv_lhs => rw [← Finset.insert_erase hg]
    rw [Finset.filter_insert, Function.update_self, hne]
  rw [hnew]
  by_cases hm : m ∈ g'
  · rw [if_pos hm, if_pos hm, Finset.card_insert_of_notMem (by simp)]
    omega
  · rw [if_neg hm, if_neg hm]
    omega

/-- A group of the profile takes or loses a member, and the count follows. -/
theorem Counted.setGroup (hc : Counted ap E) {mbr grp : ℕ} {g' : Finset ℕ} {v : Vec ℕ} {n : ℕ}
    (hm : mbr ∈ ap.mbrHandles) (hg : grp ∈ ap.grpHandles)
    (hsame : ∀ m, m ≠ mbr → (m ∈ g' ↔ m ∈ ap.groups.get grp))
    (hv : v.size = ap.mbrCount.size) (hget : ∀ m, m ≠ mbr → v.get m = ap.mbrCount.get m)
    (hcount : v.get mbr + (if mbr ∈ ap.groups.get grp then 1 else 0) =
      ap.mbrCount.get mbr + if mbr ∈ g' then 1 else 0) :
    Counted { ap with groups := ⟨n, Function.update ap.groups.get grp g'⟩, mbrCount := v } E := by
  refine ⟨hc.valid, fun g hgm m hmem => ?_, fun index hvalid => ?_⟩
  · by_cases heq : g = grp
    · subst heq
      simp only [Function.update_self] at hmem
      by_cases hmm : m = mbr
      · rwa [hmm]
      · exact hc.members g hg m ((hsame m hmm).mp hmem)
    · simp only [Function.update_of_ne heq] at hmem
      exact hc.members g hgm m hmem
  · cases index with
    | grp g => exact hc.count (.grp g) hvalid
    | mbr m =>
      have hold := hc.count (.mbr m) hvalid
      have hgr := groupRefs_update hg g' m
      simp only [groupRefs] at hgr
      rw [refCountGet, Vec.at?_eq_some, refs, groupRefs] at hold
      rw [refCountGet, Vec.at?_eq_some]
      refine ⟨hv ▸ hold.1, ?_⟩
      simp only [refs, groupRefs]
      by_cases hmm : m = mbr
      · subst hmm
        omega
      · rw [hget m hmm, hold.2]
        simp only [hsame m hmm] at hgr
        omega

/-- A change of membership: one group changes, with the count of its member. -/
theorem addMemberToGroup_eq_some {mbr grp : ℕ} {res}
    (h : ap.addMemberToGroup mbr grp = some (res, ap')) :
    (∃ e, res = .error e ∧ ap' = ap) ∨ (res = .ok () ∧ mbr ∈ ap.mbrHandles ∧
      grp ∈ ap.grpHandles ∧ grp < ap.groups.size ∧ mbr ∉ ap.groups.get grp ∧
      ap' = { ap with
        groups := ⟨ap.groups.size,
          Function.update ap.groups.get grp (insert mbr (ap.groups.get grp))⟩
        mbrCount := ⟨ap.mbrCount.size,
          Function.update ap.mbrCount.get mbr (incr (ap.mbrCount.get mbr))⟩ }) := by
  unfold addMemberToGroup at h
  split_ifs at h with hm hg
  · cases h
    exact .inl ⟨_, rfl, rfl⟩
  · cases h
    exact .inl ⟨_, rfl, rfl⟩
  · simp only [Option.bind_eq_bind, Option.bind_eq_some_iff] at h
    obtain ⟨g, hat, h⟩ := h
    obtain ⟨hlt, rfl⟩ := Vec.at?_eq_some.mp hat
    split_ifs at h with hmem
    · cases h
      exact .inl ⟨_, rfl, rfl⟩
    · simp only [Option.bind_eq_some_iff, Option.pure_def, Option.some.injEq, Prod.mk.injEq] at h
      obtain ⟨groups, hgroups, index, hindex, ap₁, hcount, rfl, rfl⟩ := h
      obtain rfl := makeMbrIndex_eq hindex
      obtain ⟨-, rfl⟩ := Vec.modify_eq_some.mp hgroups
      obtain ⟨v, hv, rfl⟩ := Option.map_eq_some_iff.mp hcount
      obtain ⟨-, rfl⟩ := Vec.modify_eq_some.mp hv
      exact .inr ⟨rfl, by simpa [isValidMbr] using hm, by simpa [isValidGrp] using hg, hlt,
        hmem, rfl⟩

/-- The member that is added is counted up by one, unless it is in the group already. -/
theorem Counted.addMemberToGroup (hc : Counted ap E) (hf : Fits ap E) {mbr grp : ℕ} {res}
    (h : ap.addMemberToGroup mbr grp = some (res, ap')) : Counted ap' E := by
  rcases addMemberToGroup_eq_some h with ⟨_, -, rfl⟩ | ⟨-, hm, hg, -, hmem, rfl⟩
  · exact hc
  have hold := hc.count (.mbr mbr) hm
  have hlt := hf (.mbr mbr)
  rw [refCountGet, Vec.at?_eq_some] at hold
  refine hc.setGroup hm hg (fun m hne => by simp [hne]) rfl
    (fun m hne => Function.update_of_ne hne ..) ?_
  simp only [Function.update_self, Finset.mem_insert_self, if_true, if_neg hmem]
  rw [hold.2, incr_of_lt hlt]

/-- What `remove_member_from_group` does: nothing, or a member of the group goes and is
counted down. -/
theorem removeMemberFromGroup_eq_some {mbr grp : ℕ} {res}
    (h : ap.removeMemberFromGroup mbr grp = some (res, ap')) :
    (∃ e, res = .error e ∧ ap' = ap) ∨ (res = .ok () ∧ mbr ∈ ap.mbrHandles ∧
      grp ∈ ap.grpHandles ∧ grp < ap.groups.size ∧ mbr ∈ ap.groups.get grp ∧
      ap' = { ap with
        groups := ⟨ap.groups.size,
          Function.update ap.groups.get grp ((ap.groups.get grp).erase mbr)⟩
        mbrCount := ⟨ap.mbrCount.size,
          Function.update ap.mbrCount.get mbr (decr (ap.mbrCount.get mbr))⟩ }) := by
  unfold removeMemberFromGroup at h
  split_ifs at h with hm hg
  · cases h
    exact .inl ⟨_, rfl, rfl⟩
  · cases h
    exact .inl ⟨_, rfl, rfl⟩
  · simp only [Option.bind_eq_bind, Option.bind_eq_some_iff] at h
    obtain ⟨g, hat, h⟩ := h
    obtain ⟨hlt, rfl⟩ := Vec.at?_eq_some.mp hat
    split_ifs at h with hmem
    · simp only [Option.bind_eq_some_iff, Option.pure_def, Option.some.injEq, Prod.mk.injEq] at h
      obtain ⟨groups, hgroups, index, hindex, ap₁, hcount, rfl, rfl⟩ := h
      obtain rfl := makeMbrIndex_eq hindex
      obtain ⟨-, rfl⟩ := Vec.modify_eq_some.mp hgroups
      obtain ⟨v, hv, rfl⟩ := Option.map_eq_some_iff.mp hcount
      obtain ⟨-, rfl⟩ := Vec.modify_eq_some.mp hv
      exact .inr ⟨rfl, by simpa [isValidMbr] using hm, by simpa [isValidGrp] using hg, hlt,
        hmem, rfl⟩
    · cases h
      exact .inl ⟨_, rfl, rfl⟩

/-- The member that is removed is counted down by one. -/
theorem Counted.removeMemberFromGroup (hc : Counted ap E) (hf : Fits ap E) {mbr grp : ℕ} {res}
    (h : ap.removeMemberFromGroup mbr grp = some (res, ap')) : Counted ap' E := by
  rcases removeMemberFromGroup_eq_some h with ⟨_, -, rfl⟩ | ⟨-, hm, hg, -, hmem, rfl⟩
  · exact hc
  have hold := hc.count (.mbr mbr) hm
  have hlt := hf (.mbr mbr)
  have hgr := groupRefs_erase hg mbr
  rw [refCountGet, Vec.at?_eq_some] at hold
  rw [if_pos hmem] at hgr
  simp only [refs] at hold hlt
  refine hc.setGroup hm hg (fun m hne => by simp [hne]) rfl
    (fun m hne => Function.update_of_ne hne ..) ?_
  simp only [Function.update_self, Finset.notMem_erase, if_pos hmem, if_false, hold.2]
  rw [decr_of_pos (by omega) (by omega)]
  omega

end ActionProfile

end P4Bricks
