import P4Bricks.Pre.Simple
/-!
# The replication engine stays consistent

`Consistent` ties the three maps together, and every request keeps it that does
not destroy a group with nodes. In a consistent engine no request and no packet
meets a missing key.
-/

namespace P4Bricks

namespace Pre

namespace McSimplePre

variable {pre pre' : McSimplePre}

/-- The node is marked as associated with the group. -/
def Associated (pre : McSimplePre) (mgrpHdl l1Hdl : ℕ) : Prop :=
  ∃ e, pre.l1Entries.at? l1Hdl = some e ∧ e.isAssociated = true ∧ e.mgrpHdl = mgrpHdl

/-- **The maps refer to one another.** -/
structure Consistent (pre : McSimplePre) : Prop where
  l1_keys : pre.l1Entries.keys = pre.l1Handles
  l2_keys : pre.l2Entries.keys = pre.l2Handles
  l2_of_l1 : ∀ h e, pre.l1Entries.at? h = some e →
    ∃ e₂, pre.l2Entries.at? e.l2Hdl = some e₂ ∧ e₂.l1Hdl = h
  nodup : ∀ g ge, pre.mgidEntries.at? g = some ge → ge.l1List.Nodup
  mem_iff : ∀ g ge, pre.mgidEntries.at? g = some ge → ∀ h, h ∈ ge.l1List ↔ pre.Associated g h
  group_of_l1 : ∀ g h, pre.Associated g h → g ∈ pre.mgidEntries.keys

theorem consistent_create : Consistent create where
  l1_keys := rfl
  l2_keys := rfl
  l2_of_l1 h e he := by cases he
  nodup g ge hge := by cases hge
  mem_iff g ge hge := by cases hge
  group_of_l1 := by
    rintro g h ⟨e, he, -⟩
    cases he

/-! ## Groups -/

theorem Consistent.mgrpCreate (hc : Consistent pre) (mgid : ℕ) :
    Consistent (pre.mcMgrpCreate mgid).2 := by
  unfold mcMgrpCreate
  split_ifs with hfull
  · exact hc
  · by_cases hold : mgid ∈ pre.mgidEntries.keys
    · simp only [Dict.insert, hold, if_true]
      exact hc
    -- No node is associated with a group that was not there.
    · have hnone : ∀ h, ¬ pre.Associated mgid h := fun h ha => hold (hc.group_of_l1 mgid h ha)
      simp only [Dict.insert_of_notMem hold]
      refine ⟨hc.l1_keys, hc.l2_keys, hc.l2_of_l1, fun g ge hge => ?_, fun g ge hge h => ?_,
        fun g h ha => Finset.mem_insert_of_mem (hc.group_of_l1 g h ha)⟩
      · rw [Dict.at?_set] at hge
        split_ifs at hge with heq
        · obtain rfl := Option.some.inj hge
          exact List.nodup_nil
        · exact hc.nodup g ge hge
      · rw [Dict.at?_set] at hge
        split_ifs at hge with heq
        · obtain rfl := Option.some.inj hge
          subst heq
          exact ⟨fun hm => absurd hm List.not_mem_nil, fun ha => absurd ha (hnone h)⟩
        · exact hc.mem_iff g ge hge h

/-- **The condition on a request**: a group that is destroyed has no nodes. -/
def DestroysEmpty (pre : McSimplePre) : Request → Prop
  | .mgrpDestroy mgrpHdl => ∀ ge, pre.mgidEntries.at? mgrpHdl = some ge → ge.l1List = []
  | _ => True

theorem Consistent.mgrpDestroy (hc : Consistent pre) {mgrpHdl : ℕ}
    (hempty : DestroysEmpty pre (.mgrpDestroy mgrpHdl)) :
    Consistent (pre.mcMgrpDestroy mgrpHdl).2 := by
  unfold mcMgrpDestroy
  refine ⟨hc.l1_keys, hc.l2_keys, hc.l2_of_l1, fun g ge hge => ?_, fun g ge hge h => ?_,
    fun g h ha => ?_⟩
  · simp only [Dict.at?_erase] at hge
    split_ifs at hge with heq
    exact hc.nodup g ge hge
  · simp only [Dict.at?_erase] at hge
    split_ifs at hge with heq
    exact hc.mem_iff g ge hge h
  · have hmem := hc.group_of_l1 g h ha
    refine Finset.mem_erase.mpr ⟨?_, hmem⟩
    rintro rfl
    obtain ⟨ge, hge⟩ := Dict.exists_at? hmem
    have hlist := (hc.mem_iff g ge hge h).mpr ha
    rw [hempty ge hge] at hlist
    exact List.not_mem_nil hlist

/-! ## Nodes -/

theorem Consistent.l1_of_handle (hc : Consistent pre) {h : ℕ} (hh : h ∈ pre.l1Handles) :
    ∃ e, pre.l1Entries.at? h = some e := Dict.exists_at? (hc.l1_keys ▸ hh)

/-- Two nodes have two L2 nodes. -/
theorem Consistent.l2Hdl_inj (hc : Consistent pre) {h h' : ℕ} {e e' : L1Entry}
    (he : pre.l1Entries.at? h = some e) (he' : pre.l1Entries.at? h' = some e')
    (heq : e.l2Hdl = e'.l2Hdl) : h = h' := by
  obtain ⟨e₂, h₂, rfl⟩ := hc.l2_of_l1 h e he
  obtain ⟨e₂', h₂', rfl⟩ := hc.l2_of_l1 h' e' he'
  rw [heq] at h₂
  rw [Option.some.inj (h₂.symm.trans h₂')]

theorem Consistent.nodeCreate (hc : Consistent pre) (rid : ℕ) (portMap : PortMap) :
    ∃ code hdl pre', pre.mcNodeCreate rid portMap = some (code, hdl, pre') ∧ Consistent pre' := by
  unfold mcNodeCreate
  by_cases h1 : pre.l1Entries.keys.card ≥ l1MaxEntries
  · exact ⟨_, _, _, if_pos h1, hc⟩
  by_cases h2 : pre.l2Entries.keys.card ≥ l2MaxEntries
  · exact ⟨_, _, _, by rw [if_neg h1, if_pos h2], hc⟩
  have hl1 : firstFree pre.l1Handles ∉ pre.l1Entries.keys := by
    rw [hc.l1_keys]
    exact firstFree_notMem _
  have hl2 : firstFree pre.l2Handles ∉ pre.l2Entries.keys := by
    rw [hc.l2_keys]
    exact firstFree_notMem _
  simp only [if_neg h1, if_neg h2, Dict.insert_of_notMem hl1, Dict.insert_of_notMem hl2,
    Dict.at?_set, if_true, Option.bind_eq_bind, Option.bind_some, Option.pure_def]
  refine ⟨_, _, _, rfl, ?_⟩
  have hne : ∀ {h e}, pre.l1Entries.at? h = some e → h ≠ firstFree pre.l1Handles := by
    rintro h e he rfl
    exact hl1 (Dict.mem_keys_of_at? he)
  have hne₂ : ∀ {h e}, pre.l2Entries.at? h = some e → h ≠ firstFree pre.l2Handles := by
    rintro h e he rfl
    exact hl2 (Dict.mem_keys_of_at? he)
  -- The new node is in no group, and no other node changes.
  have hassoc : ∀ (l1 : Dict ℕ L1Entry) g h,
      (∀ h', l1.at? h' = if h' = firstFree pre.l1Handles then
        some { rid := rid, l2Hdl := firstFree pre.l2Handles } else pre.l1Entries.at? h') →
      ((∃ e, l1.at? h = some e ∧ e.isAssociated = true ∧ e.mgrpHdl = g) ↔ pre.Associated g h) := by
    intro l1 g h hl
    rw [hl]
    split_ifs with heq
    · subst heq
      simp [Associated, Dict.at?_eq_none.mpr hl1]
    · rfl
  have hat : ∀ h', ((pre.l1Entries.set (firstFree pre.l1Handles) { rid := rid }).set
      (firstFree pre.l1Handles) { rid := rid, l2Hdl := firstFree pre.l2Handles }).at? h' =
      if h' = firstFree pre.l1Handles then
        some { rid := rid, l2Hdl := firstFree pre.l2Handles } else pre.l1Entries.at? h' := by
    intro h'
    rw [Dict.at?_set, Dict.at?_set]
    split_ifs <;> rfl
  refine ⟨?_, ?_, fun h e he => ?_, hc.nodup, fun g ge hge h => ?_, fun g h ha => ?_⟩
  · simp [hc.l1_keys]
  · simp [hc.l2_keys]
  · rw [hat] at he
    split_ifs at he with heq
    · obtain rfl := Option.some.inj he
      exact ⟨⟨firstFree pre.l1Handles, portMap⟩, by simp [Dict.at?_set], heq.symm⟩
    · obtain ⟨e₂, h₂, hback⟩ := hc.l2_of_l1 h e he
      exact ⟨e₂, by simp [Dict.at?_set, hne₂ h₂, h₂], hback⟩
  · rw [hc.mem_iff g ge hge h]
    exact (hassoc _ g h hat).symm
  · exact hc.group_of_l1 g h ((hassoc _ g h hat).mp ha)

theorem Consistent.nodeAssociate (hc : Consistent pre) (g h : ℕ) :
    ∃ code pre', pre.mcNodeAssociate g h = some (code, pre') ∧ Consistent pre' := by
  unfold mcNodeAssociate
  by_cases hh : h ∈ pre.l1Handles
  swap
  · exact ⟨_, _, if_pos hh, hc⟩
  cases hg : pre.mgidEntries.at? g with
  | none => exact ⟨.invalidMgrpHandle, pre, by simp [hh], hc⟩
  | some ge =>
    obtain ⟨e, he⟩ := hc.l1_of_handle hh
    cases ha : e.isAssociated with
    | true => exact ⟨.error, pre, by simp [hh, he, ha], hc⟩
    | false =>
      simp only [hh, not_true_eq_false, if_false, he, Option.bind_eq_bind, Option.bind_some, ha,
        Bool.false_eq_true, Option.pure_def]
      refine ⟨_, _, rfl, ?_⟩
      -- The node is in no group yet, as its flag is not set.
      have hnot : ∀ g', ¬ pre.Associated g' h := by
        rintro g' ⟨e', he', ha', -⟩
        rw [Option.some.inj (he.symm.trans he'), ha'] at ha
        cases ha
      -- The new association is the only one that is added.
      have hassoc : ∀ g' h', (∃ e', (pre.l1Entries.set h
          { e with mgrpHdl := g, isAssociated := true }).at? h' = some e' ∧
          e'.isAssociated = true ∧ e'.mgrpHdl = g') ↔
          (h' = h ∧ g' = g) ∨ pre.Associated g' h' := by
        intro g' h'
        rw [Dict.at?_set]
        split_ifs with heq
        · subst heq
          constructor
          · rintro ⟨e', he', -, rfl⟩
            rw [← Option.some.inj he']
            exact .inl ⟨rfl, rfl⟩
          · rintro (⟨-, rfl⟩ | hass)
            · exact ⟨_, rfl, rfl, rfl⟩
            · exact absurd hass (hnot g')
        · simp [Associated, heq]
      refine ⟨?_, hc.l2_keys, fun h' e' he' => ?_, fun g' ge' hge' => ?_, fun g' ge' hge' h' => ?_,
        fun g' h' ha' => ?_⟩
      · simp [hc.l1_keys, hh]
      · simp only [Dict.at?_set] at he'
        split_ifs at he' with heq
        · obtain rfl := Option.some.inj he'
          subst heq
          exact hc.l2_of_l1 h' e he
        · exact hc.l2_of_l1 h' e' he'
      · simp only [Dict.at?_set] at hge'
        split_ifs at hge' with heq
        · obtain rfl := Option.some.inj hge'
          refine List.nodup_append.mpr ⟨hc.nodup g ge hg, List.nodup_singleton h, ?_⟩
          rintro x hx y hy rfl
          obtain rfl := List.mem_singleton.mp hy
          exact hnot g ((hc.mem_iff g ge hg x).mp hx)
        · exact hc.nodup g' ge' hge'
      · rw [Associated, hassoc]
        simp only [Dict.at?_set] at hge'
        split_ifs at hge' with heq
        · obtain rfl := Option.some.inj hge'
          subst heq
          simp only [List.mem_append, List.mem_singleton, and_true, hc.mem_iff g' ge hg h']
          exact Or.comm
        · simp only [heq, and_false, false_or]
          exact hc.mem_iff g' ge' hge' h'
      · rcases (hassoc g' h').mp ha' with ⟨-, rfl⟩ | ha'
        · exact Finset.mem_insert_self ..
        · exact Finset.mem_insert_of_mem (hc.group_of_l1 g' h' ha')

/-- A node that is no longer marked leaves the list of its group. -/
theorem Consistent.leave (hc : Consistent pre) {h : ℕ} (hkeys : pre'.l1Entries.keys = pre'.l1Handles)
    (hkeys₂ : pre'.l2Entries.keys = pre'.l2Handles)
    (hl2 : ∀ h' e, pre'.l1Entries.at? h' = some e →
      ∃ e₂, pre'.l2Entries.at? e.l2Hdl = some e₂ ∧ e₂.l1Hdl = h')
    (hassoc : ∀ g h', pre'.Associated g h' ↔ h' ≠ h ∧ pre.Associated g h')
    (hgroup : ∀ g ge', pre'.mgidEntries.at? g = some ge' → ∃ ge, pre.mgidEntries.at? g = some ge ∧
      (ge' = nodeDissociate ge h ∨ ge' = ge ∧ ¬ pre.Associated g h))
    (hgroups : pre'.mgidEntries.keys = pre.mgidEntries.keys) : Consistent pre' := by
  refine ⟨hkeys, hkeys₂, hl2, fun g ge' hge' => ?_, fun g ge' hge' h' => ?_, fun g h' ha => ?_⟩
  · obtain ⟨ge, hge, rfl | ⟨rfl, -⟩⟩ := hgroup g ge' hge'
    · exact (hc.nodup g ge hge).filter _
    · exact hc.nodup g ge' hge
  · rw [hassoc]
    obtain ⟨ge, hge, rfl | ⟨rfl, hnot⟩⟩ := hgroup g ge' hge'
    · rw [nodeDissociate, List.mem_filter, hc.mem_iff g ge hge h', and_comm]
      simp
    · rw [hc.mem_iff g ge' hge h']
      constructor
      · intro ha
        exact ⟨fun heq => hnot (heq ▸ ha), ha⟩
      · exact And.right
  · rw [hgroups]
    exact hc.group_of_l1 g h' ((hassoc g h').mp ha).2

/-- The lists after the node left one of them. -/
theorem dissociate_at? {g h g' : ℕ} {ge ge' : MgidEntry} (hg : pre.mgidEntries.at? g = some ge)
    (hge' : (pre.mgidEntries.set g (nodeDissociate ge h)).at? g' = some ge')
    (hother : ∀ g', g' ≠ g → ¬ pre.Associated g' h) :
    ∃ ge, pre.mgidEntries.at? g' = some ge ∧
      (ge' = nodeDissociate ge h ∨ ge' = ge ∧ ¬ pre.Associated g' h) := by
  rw [Dict.at?_set] at hge'
  split_ifs at hge' with heq
  · obtain rfl := Option.some.inj hge'
    exact ⟨ge, heq ▸ hg, .inl rfl⟩
  · exact ⟨ge', hge', .inr ⟨rfl, hother g' heq⟩⟩

/-- A node is associated with the group it names, if with any. -/
theorem mgrpHdl_of_associated {g h : ℕ} {e : L1Entry} (he : pre.l1Entries.at? h = some e)
    (ha : pre.Associated g h) : e.isAssociated = true ∧ e.mgrpHdl = g := by
  obtain ⟨e', he', ha', hg⟩ := ha
  obtain rfl := Option.some.inj (he.symm.trans he')
  exact ⟨ha', hg⟩

theorem Consistent.nodeDissociate (hc : Consistent pre) (g h : ℕ) :
    ∃ code pre', pre.mcNodeDissociate g h = some (code, pre') ∧ Consistent pre' := by
  unfold mcNodeDissociate
  by_cases hh : h ∈ pre.l1Handles
  swap
  · exact ⟨_, _, if_pos hh, hc⟩
  cases hg : pre.mgidEntries.at? g with
  | none => exact ⟨.invalidMgrpHandle, pre, by simp [hh], hc⟩
  | some ge =>
    obtain ⟨e, he⟩ := hc.l1_of_handle hh
    by_cases ha : (!e.isAssociated || decide (e.mgrpHdl ≠ g)) = true
    · exact ⟨.error, pre, by simp only [hh, not_true_eq_false, if_false, he, Option.bind_eq_bind,
        Option.bind_some, ha, if_true, Option.pure_def], hc⟩
    · simp only [hh, not_true_eq_false, if_false, he, Option.bind_eq_bind, Option.bind_some, ha,
        Bool.false_eq_true, Option.pure_def]
      refine ⟨_, _, rfl, hc.leave (h := h) ?_ hc.l2_keys (fun h' e' he' => ?_) (fun g' h' => ?_)
        (fun g' ge' hge' => dissociate_at? hg hge' fun g'' hne hass => ?_) ?_⟩
      · simp [hc.l1_keys, hh]
      · simp only [Dict.at?_set] at he'
        split_ifs at he' with heq
        · obtain rfl := Option.some.inj he'
          subst heq
          exact hc.l2_of_l1 h' e he
        · exact hc.l2_of_l1 h' e' he'
      · simp only [Associated, Dict.at?_set]
        split_ifs with heq
        · simp [heq]
        · simp [heq]
      · obtain ⟨hassoc, hname⟩ := mgrpHdl_of_associated he hass
        simp only [hassoc, hname, Bool.not_true, Bool.false_or, decide_eq_true_eq,
          not_not, ne_eq] at ha
        exact hne ha
      · simp [Dict.mem_keys_of_at? hg]

/-- A node can always be destroyed. -/
theorem Consistent.nodeDestroy (hc : Consistent pre) (h : ℕ) :
    ∃ code pre', pre.mcNodeDestroy h = some (code, pre') ∧ Consistent pre' := by
  unfold mcNodeDestroy
  by_cases hh : h ∈ pre.l1Handles
  swap
  · exact ⟨_, _, if_pos hh, hc⟩
  obtain ⟨e, he⟩ := hc.l1_of_handle hh
  obtain ⟨e₂, he₂, -⟩ := hc.l2_of_l1 h e he
  have hl2 : e.l2Hdl ∈ pre.l2Handles := hc.l2_keys ▸ Dict.mem_keys_of_at? he₂
  -- The other nodes keep their L2 nodes.
  have hkept : ∀ h' e', (pre.l1Entries.erase h).at? h' = some e' →
      ∃ e₂, (pre.l2Entries.erase e.l2Hdl).at? e'.l2Hdl = some e₂ ∧ e₂.l1Hdl = h' := by
    intro h' e' he'
    rw [Dict.at?_erase] at he'
    split_ifs at he' with heq
    obtain ⟨e₂', he₂', hback⟩ := hc.l2_of_l1 h' e' he'
    refine ⟨e₂', ?_, hback⟩
    rw [Dict.at?_erase, if_neg, he₂']
    exact fun h₂ => heq (hc.l2Hdl_inj he' he h₂)
  have hassoc : ∀ g h', (∃ e', (pre.l1Entries.erase h).at? h' = some e' ∧
      e'.isAssociated = true ∧ e'.mgrpHdl = g) ↔ h' ≠ h ∧ pre.Associated g h' := by
    intro g h'
    rw [Dict.at?_erase]
    split_ifs with heq
    · simp [heq]
    · simp [heq, Associated]
  have hkeys : (pre.l1Entries.erase h).keys = pre.l1Handles.erase h := by simp [hc.l1_keys]
  have hkeys₂ : (pre.l2Entries.erase e.l2Hdl).keys = pre.l2Handles.erase e.l2Hdl := by
    simp [hc.l2_keys]
  cases ha : e.isAssociated with
  | false =>
    simp only [hh, not_true_eq_false, if_false, he, Option.bind_eq_bind, Option.bind_some, ha,
      Bool.false_eq_true, hl2, Option.pure_def]
    refine ⟨_, _, rfl, hc.leave (h := h) hkeys hkeys₂ hkept hassoc
      (fun g ge hge => ⟨ge, hge, .inr ⟨rfl, fun hass => ?_⟩⟩) rfl⟩
    rw [(mgrpHdl_of_associated he hass).1] at ha
    cases ha
  | true =>
    obtain ⟨ge, hg⟩ := Dict.exists_at? (hc.group_of_l1 e.mgrpHdl h ⟨e, he, ha, rfl⟩)
    simp only [hh, not_true_eq_false, if_false, he, Option.bind_eq_bind, Option.bind_some, ha,
      if_true, hg, Option.map_some, hl2, Option.pure_def]
    refine ⟨_, _, rfl, hc.leave (h := h) hkeys hkeys₂ hkept hassoc
      (fun g ge' hge' => dissociate_at? hg hge' fun g' hne hass => ?_) ?_⟩
    · exact hne (mgrpHdl_of_associated he hass).2.symm
    · simp [Dict.mem_keys_of_at? hg]

theorem Consistent.nodeUpdate (hc : Consistent pre) (h : ℕ) (portMap : PortMap) :
    ∃ code pre', pre.mcNodeUpdate h portMap = some (code, pre') ∧ Consistent pre' := by
  unfold mcNodeUpdate
  by_cases hh : h ∈ pre.l1Handles
  swap
  · exact ⟨_, _, if_pos hh, hc⟩
  obtain ⟨e, he⟩ := hc.l1_of_handle hh
  obtain ⟨e₂, he₂, hback⟩ := hc.l2_of_l1 h e he
  simp only [hh, not_true_eq_false, if_false, he, Option.bind_eq_bind, Option.bind_some, he₂,
    Option.pure_def]
  refine ⟨_, _, rfl, hc.l1_keys, ?_, fun h' e' he' => ?_, hc.nodup, hc.mem_iff, hc.group_of_l1⟩
  · have hmem : e.l2Hdl ∈ pre.l2Handles := hc.l2_keys ▸ Dict.mem_keys_of_at? he₂
    simp [hc.l2_keys, hmem]
  · obtain ⟨e₂', he₂', hback'⟩ := hc.l2_of_l1 h' e' he'
    rw [Dict.at?_set]
    split_ifs with heq
    · rw [heq, he₂] at he₂'
      obtain rfl := Option.some.inj he₂'
      exact ⟨_, rfl, hback'⟩
    · exact ⟨e₂', he₂', hback'⟩

/-! ## Runs -/

/-- **One request**: it returns, and keeps the engine consistent. -/
theorem Consistent.step (hc : Consistent pre) {r : Request} (hempty : DestroysEmpty pre r) :
    ∃ code hdl pre', pre.step r = some (code, hdl, pre') ∧ Consistent pre' := by
  cases r with
  | mgrpCreate mgid => exact ⟨_, _, _, rfl, hc.mgrpCreate mgid⟩
  | mgrpDestroy g => exact ⟨_, _, _, rfl, hc.mgrpDestroy hempty⟩
  | nodeCreate rid portMap => exact hc.nodeCreate rid portMap
  | nodeAssociate g h =>
    obtain ⟨code, pre', heq, hc'⟩ := hc.nodeAssociate g h
    exact ⟨code, none, pre', by simp [McSimplePre.step, heq], hc'⟩
  | nodeDissociate g h =>
    obtain ⟨code, pre', heq, hc'⟩ := hc.nodeDissociate g h
    exact ⟨code, none, pre', by simp [McSimplePre.step, heq], hc'⟩
  | nodeDestroy h =>
    obtain ⟨code, pre', heq, hc'⟩ := hc.nodeDestroy h
    exact ⟨code, none, pre', by simp [McSimplePre.step, heq], hc'⟩
  | nodeUpdate h portMap =>
    obtain ⟨code, pre', heq, hc'⟩ := hc.nodeUpdate h portMap
    exact ⟨code, none, pre', by simp [McSimplePre.step, heq], hc'⟩

theorem mapM_isSome {β γ : Type} {f : β → Option γ} {l : List β} (h : ∀ x ∈ l, (f x).isSome) :
    (l.mapM f).isSome := by
  induction l with
  | nil => rfl
  | cons x l ih =>
    obtain ⟨y, hy⟩ := Option.isSome_iff_exists.mp (h x List.mem_cons_self)
    obtain ⟨ys, hys⟩ := Option.isSome_iff_exists.mp (ih fun z hz => h z (List.mem_cons_of_mem _ hz))
    simp [hy, hys]

/-- A packet meets no missing key. -/
theorem Consistent.replicate (hc : Consistent pre) (mgid : ℕ) : (pre.replicate mgid).isSome := by
  unfold McSimplePre.replicate
  cases hg : pre.mgidEntries.at? mgid with
  | none => rfl
  | some ge =>
    simp only [Option.isSome_map]
    refine mapM_isSome fun h hmem => ?_
    obtain ⟨e, he, -⟩ := (hc.mem_iff mgid ge hg h).mp hmem
    obtain ⟨e₂, he₂, -⟩ := hc.l2_of_l1 h e he
    simp [replicateNode, he, he₂]

theorem RunIf.consistent {rs : List Request} (hrun : RunIf DestroysEmpty pre rs pre')
    (hc : Consistent pre) : Consistent pre' := by
  induction hrun with
  | nil pre => exact hc
  | cons hok hstep _ ih =>
    obtain ⟨code, hdl, pre₁, heq, hc₁⟩ := hc.step hok
    rw [hstep] at heq
    cases heq
    exact ih hc₁

/-- **The engine stays consistent** in every state of a run that destroys only
groups without nodes: a group lists each node once, and exactly the nodes marked
as associated with it; every L1 node has its L2 node; and the destruction of a
node and the replication of a packet never meet a missing key. -/
theorem RunIf.referentially_consistent {rs : List Request}
    (hrun : RunIf DestroysEmpty create rs pre') :
    (∀ g ge, pre'.mgidEntries.at? g = some ge →
      ge.l1List.Nodup ∧ ∀ h, h ∈ ge.l1List ↔ pre'.Associated g h) ∧
    (∀ h e, pre'.l1Entries.at? h = some e → ∃ e₂, pre'.l2Entries.at? e.l2Hdl = some e₂) ∧
    (∀ h, (pre'.mcNodeDestroy h).isSome) ∧ ∀ mgid, (pre'.replicate mgid).isSome := by
  have hc := hrun.consistent consistent_create
  refine ⟨fun g ge hge => ⟨hc.nodup g ge hge, hc.mem_iff g ge hge⟩, fun h e he => ?_, fun h => ?_,
    hc.replicate⟩
  · obtain ⟨e₂, he₂, -⟩ := hc.l2_of_l1 h e he
    exact ⟨e₂, he₂⟩
  · obtain ⟨code, pre₁, heq, -⟩ := hc.nodeDestroy h
    rw [heq]
    rfl

/-- A group is destroyed with its node: the node is marked as associated with a
group that is gone, and cannot be destroyed. -/
theorem nodeDestroy_after_mgrpDestroy :
    ∃ pre', RunIf (fun _ _ => True) create
        [.mgrpCreate 1, .nodeCreate 7 (fun port => port = 3), .nodeAssociate 1 0, .mgrpDestroy 1]
        pre' ∧ pre'.Associated 1 0 ∧ pre'.mcNodeDestroy 0 = none := by
  refine ⟨_, .cons trivial rfl (.cons trivial rfl (.cons trivial rfl (.cons trivial rfl (.nil _)))),
    ⟨_, rfl, rfl, rfl⟩, rfl⟩

/-- Without the destruction, the group lists the node. -/
theorem listed_after_nodeAssociate :
    ∃ pre', RunIf DestroysEmpty create
        [.mgrpCreate 1, .nodeCreate 7 (fun port => port = 3), .nodeAssociate 1 0] pre' ∧
      pre'.Associated 1 0 ∧ (pre'.mcNodeDestroy 0).isSome := by
  have hrun : RunIf DestroysEmpty create
      [.mgrpCreate 1, .nodeCreate 7 (fun port => port = 3), .nodeAssociate 1 0] _ :=
    .cons trivial rfl (.cons trivial rfl (.cons trivial rfl (.nil _)))
  obtain ⟨hgroups, -, hdestroy, -⟩ := hrun.referentially_consistent
  exact ⟨_, hrun, ((hgroups 1 _ rfl).2 0).mp (by decide), hdestroy 0⟩

end McSimplePre

end Pre

end P4Bricks
