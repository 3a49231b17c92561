import P4Bricks.MatchUnit.Helpers.Slots
import P4Bricks.ActionProfile.Counts
import P4Bricks.MatchTables.Model
/-!
# What a request does

One request on a table does one thing to its match unit, and an indirect
table's request one thing to the profile beside it. `UnitEffect` and `Effect`
list all of them, and every invariant of the runtime is read off these lists.
-/

namespace P4Bricks

open Lookup MatchUnit

namespace MatchTables

variable {σ P K V M C : Type}

/-- The answer hands out no entry. -/
def NoHandle (res : Result (Reply P C)) : Prop := ∀ h, res ≠ .ok (.handle h)

@[simp] theorem noHandle_error (e : MatchErrorCode) :
    NoHandle (.error e : Result (Reply P C)) := by simp [NoHandle]

@[simp] theorem noHandle_none : NoHandle (.ok .none : Result (Reply P C)) := by simp [NoHandle]

@[simp] theorem noHandle_map_none (r : Result Unit) :
    NoHandle (r.map fun _ => (.none : Reply P C)) := by
  cases r with
  | error e => exact noHandle_error e
  | ok v => exact noHandle_none

/-- The call behind an answer. -/
theorem Answer.ofTable_eq_some {T S α : Type} {reply : α → Reply P C} {wrap : T → S}
    {o : Option (Result α × T)} {res : Result (Reply P C)} {s' : S}
    (h : o.map (Answer.ofTable reply wrap) = some (res, s')) :
    ∃ v t, o = some (v, t) ∧ s' = wrap t := by
  obtain ⟨⟨v, t⟩, ho, heq⟩ := Option.map_eq_some_iff.mp h
  exact ⟨v, t, ho, (congrArg Prod.snd heq).symm⟩

/-! ## On the unit -/

section

variable [LookupStructure σ K] [Inhabited K] [Inhabited V] [Meter M C]

/-- The slots that no handle reaches keep their timeouts. -/
def SameBeyond (entryMeta entryMeta' : ℕ → EntryMeta) : Prop :=
  ∀ i, 2 ^ 24 ≤ i → (entryMeta' i).timeoutMs = (entryMeta i).timeoutMs

/-- What is written through a handle. -/
theorem SameBeyond.update (entryMeta : ℕ → EntryMeta) (h : EntryHandle) (m : EntryMeta) :
    SameBeyond entryMeta (Function.update entryMeta (handleInternal h) m) := by
  intro i hi
  have hne : i ≠ handleInternal h := by
    have := handleInternal_lt h
    omega
  exact congrArg _ (Function.update_of_ne hne _ _)

/-- All that a request on a table can do to the unit, with the answer. -/
inductive UnitEffect (kb : KeyBuilder P K) (u : MatchUnit σ K V) :
    Result (Reply P C) → MatchUnit σ K V → Prop where
  | touch (entryMeta : ℕ → EntryMeta) {res} (hbeyond : SameBeyond u.entryMeta entryMeta)
      (hres : NoHandle res) : UnitEffect kb u res { u with entryMeta := entryMeta }
  | lookup (key : ByteContainer) (length now : ℕ) {res} (hres : NoHandle res) :
      UnitEffect kb u res (u.lookup key length now).2
  | add (matchKey : P) (value : V) (priority : ℤ) (now : ℕ) :
      UnitEffect kb u ((u.addEntry kb matchKey value priority now).1.map .handle)
        (u.addEntry kb matchKey value priority now).2
  | delete (h : EntryHandle) {res} (hres : NoHandle res) : UnitEffect kb u res (u.deleteEntry h).2
  | modify (h : EntryHandle) (value : V) {res} (hres : NoHandle res) :
      UnitEffect kb u res (u.modifyEntry h value).2
  | reset {res} (hres : NoHandle res) : UnitEffect kb u res u.resetState

theorem UnitEffect.refl (kb : KeyBuilder P K) (u : MatchUnit σ K V) {res : Result (Reply P C)}
    (hres : NoHandle res) : UnitEffect kb u res u :=
  .touch u.entryMeta (fun _ _ => rfl) hres

omit [LookupStructure σ K] [Inhabited K] [Inhabited V] in
/-- A call every table answers alike writes meta data at most. -/
theorem MatchTableAbstract.step_touch (t : MatchTableAbstract σ K V M) (r : CommonRequest C) :
    NoHandle (t.step r : Answer P C _).1 ∧ ∃ entryMeta, SameBeyond t.matchUnit.entryMeta entryMeta ∧
      (t.step r : Answer P C _).2.matchUnit = { t.matchUnit with entryMeta := entryMeta } := by
  have hsame : ∃ entryMeta, SameBeyond t.matchUnit.entryMeta entryMeta ∧
      t.matchUnit = { t.matchUnit with entryMeta := entryMeta } := ⟨_, fun _ _ => rfl, rfl⟩
  cases r with
  | setEntryTtl h ttlMs now =>
    refine ⟨noHandle_map_none _, ?_⟩
    simp only [step, Answer.ofTable, setEntryTtl, MatchUnit.setEntryTtl]
    split_ifs
    · exact hsame
    · exact ⟨_, .update _ h _, rfl⟩
    · exact hsame
  | queryCounters h =>
    refine ⟨?_, hsame⟩
    simp only [step]
    cases t.queryCounters h <;> simp [Except.map, NoHandle]
  | writeCounters h bytes packets =>
    refine ⟨noHandle_map_none _, ?_⟩
    simp only [step, Answer.ofTable, writeCounters]
    cases hslot : t.checkSlot t.withCounters .countersDisabled h with
    | error e => exact hsame
    | ok i =>
      -- The counters of a slot change, and its timeout does not.
      refine ⟨_, fun j _ => ?_, rfl⟩
      by_cases hj : j = i
      · simp [hj]
      · simp [hj]
  | resetCounters =>
    refine ⟨noHandle_map_none _, ?_⟩
    simp only [step, Answer.ofTable, resetCounters]
    split_ifs
    · exact hsame
    · exact ⟨fun i => { t.matchUnit.entryMeta i with bytes := 0, packets := 0 },
        fun _ _ => rfl, rfl⟩
  | setMeterRates h configs =>
    refine ⟨noHandle_map_none _, ?_⟩
    simp only [step, Answer.ofTable, setMeterRates]
    cases t.checkSlot t.withMeters .metersDisabled h <;> exact hsame
  | getMeterRates h =>
    refine ⟨?_, hsame⟩
    simp only [step]
    cases t.getMeterRates h <;> simp [Except.map, NoHandle]

theorem MatchTableAbstract.step_effect (kb : KeyBuilder P K) (t : MatchTableAbstract σ K V M)
    (r : CommonRequest C) :
    UnitEffect kb t.matchUnit (t.step r : Answer P C _).1 (t.step r : Answer P C _).2.matchUnit := by
  obtain ⟨hres, entryMeta, hbeyond, hu⟩ := t.step_touch (P := P) r
  rw [hu]
  exact .touch entryMeta hbeyond hres

omit [Meter M C] [Inhabited K] [Inhabited V] in
/-- What `add_entry` does: a refusal by the table, or the node of the action is
looked up and the unit is asked. -/
theorem MatchTable.addEntry_eq_some {kb : KeyBuilder P K} {t t' : MatchTable σ K M} {matchKey : P}
    {fn : ActionFn} {data : List ℤ} {priority : ℤ} {now : ℕ} {res}
    (h : t.addEntry kb matchKey fn data priority now = some (res, t')) :
    (∃ e, res = .error e ∧ t' = t) ∨ ∃ nextNode, t.immutableEntries = false ∧
      t.getNextNode fn.id = some nextNode ∧
      res = (t.matchUnit.addEntry kb matchKey ⟨some fn, data, nextNode⟩ priority now).1 ∧
      t' = { t with
        matchUnit := (t.matchUnit.addEntry kb matchKey ⟨some fn, data, nextNode⟩ priority now).2 } := by
  unfold addEntry at h
  split_ifs at h with himm hdata
  · obtain ⟨rfl, rfl⟩ := Prod.mk.inj (Option.some.inj h)
    exact .inl ⟨_, rfl, rfl⟩
  · obtain ⟨rfl, rfl⟩ := Prod.mk.inj (Option.some.inj h)
    exact .inl ⟨_, rfl, rfl⟩
  · obtain ⟨nextNode, hnode, heq⟩ := Option.bind_eq_some_iff.mp h
    obtain ⟨rfl, rfl⟩ := Prod.mk.inj (Option.some.inj heq)
    exact .inr ⟨nextNode, by simpa using himm, hnode, rfl, rfl⟩

omit [LookupStructure σ K] [Meter M C] [Inhabited K] [Inhabited V] in
theorem MatchTable.modifyEntry_eq_some {t t' : MatchTable σ K M} {h : EntryHandle}
    {fn : ActionFn} {data : List ℤ} {res} (hm : t.modifyEntry h fn data = some (res, t')) :
    (∃ e, res = .error e ∧ t' = t) ∨ ∃ nextNode, t.immutableEntries = false ∧
      t.getNextNode fn.id = some nextNode ∧
      res = (t.matchUnit.modifyEntry h ⟨some fn, data, nextNode⟩).1 ∧
      t' = { t with matchUnit := (t.matchUnit.modifyEntry h ⟨some fn, data, nextNode⟩).2 } := by
  unfold modifyEntry at hm
  split_ifs at hm with himm hdata
  · obtain ⟨rfl, rfl⟩ := Prod.mk.inj (Option.some.inj hm)
    exact .inl ⟨_, rfl, rfl⟩
  · obtain ⟨rfl, rfl⟩ := Prod.mk.inj (Option.some.inj hm)
    exact .inl ⟨_, rfl, rfl⟩
  · obtain ⟨nextNode, hnode, heq⟩ := Option.bind_eq_some_iff.mp hm
    obtain ⟨rfl, rfl⟩ := Prod.mk.inj (Option.some.inj heq)
    exact .inr ⟨nextNode, by simpa using himm, hnode, rfl, rfl⟩

omit [LookupStructure σ K] [Inhabited K] [Inhabited V] [Meter M C] in
theorem MatchTable.setDefaultAction_eq_some {t t' : MatchTable σ K M} {fn : ActionFn}
    {data : List ℤ} {res} (h : t.setDefaultAction fn data = some (res, t')) :
    (∃ e, res = .error e ∧ t' = t) ∨ ∃ nextNode, t.constDefaultEntry = false ∧
      (t.constDefaultAction = none ∨ t.constDefaultAction = some fn) ∧
      t.getNextNodeDefault fn.id = some nextNode ∧ res = .ok () ∧
      t' = { t with nextNodeMiss := nextNode, defaultEntry := ⟨some fn, data, nextNode⟩ } := by
  unfold setDefaultAction at h
  split_ifs at h with hconst haction hdata
  · obtain ⟨rfl, rfl⟩ := Prod.mk.inj (Option.some.inj h)
    exact .inl ⟨_, rfl, rfl⟩
  · obtain ⟨rfl, rfl⟩ := Prod.mk.inj (Option.some.inj h)
    exact .inl ⟨_, rfl, rfl⟩
  · obtain ⟨rfl, rfl⟩ := Prod.mk.inj (Option.some.inj h)
    exact .inl ⟨_, rfl, rfl⟩
  · obtain ⟨nextNode, hnode, heq⟩ := Option.bind_eq_some_iff.mp h
    obtain ⟨rfl, rfl⟩ := Prod.mk.inj (Option.some.inj heq)
    refine .inr ⟨nextNode, by simpa using hconst, ?_, hnode, rfl, rfl⟩
    cases hc : t.constDefaultAction with
    | none => exact .inl rfl
    | some fn' => exact .inr (by simpa [hc] using haction)

omit [Meter M C] in
theorem MatchTable.step_effect {kb : KeyBuilder P K} {t t' : MatchTable σ K M} {r : DirectRequest P}
    {res : Result (Reply P C)} (h : t.step kb r = some (res, t')) :
    UnitEffect kb t.matchUnit res t'.matchUnit := by
  cases r with
  | addEntry matchKey fn data priority now =>
    obtain ⟨⟨res', t₁⟩, hadd, heq⟩ := Option.map_eq_some_iff.mp h
    obtain ⟨rfl, rfl⟩ := Prod.mk.inj heq
    rcases addEntry_eq_some hadd with ⟨e, rfl, rfl⟩ | ⟨nextNode, -, -, rfl, rfl⟩
    · exact .refl kb _ (noHandle_error _)
    · exact .add ..
  | deleteEntry h' =>
    obtain ⟨rfl, rfl⟩ := Prod.mk.inj (Option.some.inj h)
    simp only [deleteEntry]
    split_ifs with himm
    · exact .refl kb _ (noHandle_error _)
    · exact .delete h' (noHandle_map_none _)
  | modifyEntry h' fn data =>
    obtain ⟨⟨res', t₁⟩, hm, heq⟩ := Option.map_eq_some_iff.mp h
    obtain ⟨rfl, rfl⟩ := Prod.mk.inj heq
    rcases modifyEntry_eq_some hm with ⟨e, rfl, rfl⟩ | ⟨nextNode, -, -, rfl, rfl⟩
    · exact .refl kb _ (noHandle_error _)
    · exact .modify h' _ (noHandle_map_none _)
  | setDefaultAction fn data =>
    obtain ⟨⟨res', t₁⟩, hs, heq⟩ := Option.map_eq_some_iff.mp h
    obtain ⟨rfl, rfl⟩ := Prod.mk.inj heq
    rcases setDefaultAction_eq_some hs with ⟨e, rfl, rfl⟩ | ⟨nextNode, -, -, -, rfl, rfl⟩
    · exact .refl kb _ (noHandle_error _)
    · exact .refl kb _ (noHandle_map_none _)

end

/-! ## On the unit and the profile -/

/-- An entry may point there: a member, or a group that has one. -/
def Usable (ap : ActionProfile) : IndirectIndex → Prop
  | .mbr m => m ∈ ap.mbrHandles
  | .grp g => g ∈ ap.grpHandles ∧ ∃ mbrs, ap.groups.at? g = some mbrs ∧ mbrs ≠ ∅

section

variable {ap ap' : ActionProfile}

theorem groupIsEmpty_eq_some {g : ℕ} {b : Bool} (h : ap.groupIsEmpty g = some b) :
    ∃ mbrs, ap.groups.at? g = some mbrs ∧ b = decide (mbrs = ∅) := by
  unfold ActionProfile.groupIsEmpty at h
  obtain ⟨mbrs, hat, rfl⟩ := Option.map_eq_some_iff.mp h
  exact ⟨mbrs, hat, rfl⟩

/-- Counting leaves members and groups alone. -/
theorem modifyCount_eq_some {f : Vec ℕ → ℕ → Option (Vec ℕ)} {index : IndirectIndex}
    (h : ap.modifyCount f index = some ap') :
    ∃ m g, ap' = { ap with mbrCount := m, grpCount := g } := by
  cases index with
  | mbr m =>
    obtain ⟨v, -, rfl⟩ := Option.map_eq_some_iff.mp h
    exact ⟨_, _, rfl⟩
  | grp g =>
    obtain ⟨v, -, rfl⟩ := Option.map_eq_some_iff.mp h
    exact ⟨_, _, rfl⟩

theorem usable_congr {index : IndirectIndex} (hm : ap'.mbrHandles = ap.mbrHandles)
    (hg : ap'.grpHandles = ap.grpHandles) (hgs : ap'.groups = ap.groups) :
    Usable ap' index ↔ Usable ap index := by
  cases index <;> simp only [Usable, hm, hg, hgs]

end

/-- The entry a request would add, and where it points. -/
def MatchTableIndirect.adds (t : MatchTableIndirect σ K M) :
    TableRequest P C → Option (P × IndirectIndex × ℤ × ℕ)
  | .indirect (.addEntry matchKey mbr priority now) => some (matchKey, .mbr mbr, priority, now)
  | .indirect (.addEntryWs matchKey grp priority now) =>
    if t.withSelector then some (matchKey, .grp grp, priority, now) else none
  | _ => none

/-- The handle a request would make point elsewhere, and where. -/
def MatchTableIndirect.modifies (t : MatchTableIndirect σ K M) :
    TableRequest P C → Option (EntryHandle × IndirectIndex)
  | .indirect (.modifyEntry h mbr) => some (h, .mbr mbr)
  | .indirect (.modifyEntryWs h grp) => if t.withSelector then some (h, .grp grp) else none
  | _ => none

section

variable [LookupStructure σ K] [Inhabited K]

/-- All that a request on an indirect table can do to its unit and the profile. -/
inductive Effect (kb : KeyBuilder P K) (t : MatchTableIndirect σ K M) (ap : ActionProfile)
    (r : TableRequest P C) :
    Result (Reply P C) → MatchUnit σ K IndirectIndex → ActionProfile → Prop where
  | touch (entryMeta : ℕ → EntryMeta) {res}
      (hbeyond : SameBeyond t.matchUnit.entryMeta entryMeta) (hres : NoHandle res) :
      Effect kb t ap r res { t.matchUnit with entryMeta := entryMeta } ap
  | lookup (key : ByteContainer) (length now : ℕ) (entries : Vec ActionEntry) {res}
      (hsize : entries.size = ap.actionEntries.size) (hres : NoHandle res) :
      Effect kb t ap r res (t.matchUnit.lookup key length now).2 { ap with actionEntries := entries }
  | add {matchKey : P} {index : IndirectIndex} {priority : ℤ} {now : ℕ} {ap' : ActionProfile}
      (hr : t.adds r = some (matchKey, index, priority, now)) (hindex : Usable ap index)
      (hincr : ap.refCountIncrease index = some ap') :
      Effect kb t ap r ((t.matchUnit.addEntry kb matchKey index priority now).1.map .handle)
        (t.matchUnit.addEntry kb matchKey index priority now).2 ap'
  | delete {h : EntryHandle} {i : ℕ} {ap' : ActionProfile} (hc : t.matchUnit.checkHandle h = .ok i)
      (hdecr : ap.refCountDecrease (t.matchUnit.entries i).value = some ap') :
      Effect kb t ap r (.ok .none) (t.matchUnit.deleteEntry h).2 ap'
  | modify {h : EntryHandle} {i : ℕ} {index : IndirectIndex} {ap₁ ap' : ActionProfile}
      (hr : t.modifies r = some (h, index)) (hc : t.matchUnit.checkHandle h = .ok i)
      (hdecr : ap.refCountDecrease (t.matchUnit.entries i).value = some ap₁)
      (hindex : Usable ap index) (hincr : ap₁.refCountIncrease index = some ap') :
      Effect kb t ap r (.ok .none) (t.matchUnit.modifyEntry h index).2 ap'
  | refuse {h : EntryHandle} {i : ℕ} {index : IndirectIndex} {ap' : ActionProfile} {e}
      (hr : t.modifies r = some (h, index)) (hc : t.matchUnit.checkHandle h = .ok i)
      (hdecr : ap.refCountDecrease (t.matchUnit.entries i).value = some ap')
      (hindex : ¬ Usable ap index) : Effect kb t ap r (.error e) t.matchUnit ap'
  | reset (hr : r = .resetState) : Effect kb t ap r (.ok .none) t.matchUnit.resetState ap

/-- All that a request on an indirect table can do to its default. -/
inductive DefaultEffect (t : MatchTableIndirect σ K M) (ap : ActionProfile)
    (r : TableRequest P C) (t' : MatchTableIndirect σ K M) : Prop where
  | keep (hset : t'.defaultSet = t.defaultSet) (hindex : t'.defaultIndex = t.defaultIndex)
  | member {mbr : ℕ} (hr : r = .indirect (.setDefaultMember mbr)) (hmbr : mbr ∈ ap.mbrHandles)
      (hindex : t'.defaultIndex = .mbr mbr)
  | group {grp : ℕ} (hr : r = .indirect (.setDefaultGroup grp)) (hgrp : grp ∈ ap.grpHandles)
      (hindex : t'.defaultIndex = .grp grp)

variable {kb : KeyBuilder P K} {t t' : MatchTableIndirect σ K M} {ap ap' : ActionProfile}
  {r : TableRequest P C}

omit [LookupStructure σ K] [Inhabited K] in
theorem DefaultEffect.refl : DefaultEffect t ap r t := .keep rfl rfl

omit [LookupStructure σ K] [Inhabited K] in
/-- A request that changes the unit alone keeps the default. -/
theorem DefaultEffect.of_unit (h : t' = { t with matchUnit := t'.matchUnit }) :
    DefaultEffect t ap r t' := .keep (by rw [h]) (by rw [h])

theorem Effect.refl {res : Result (Reply P C)} (hres : NoHandle res) :
    Effect kb t ap r res t.matchUnit ap :=
  .touch t.matchUnit.entryMeta (fun _ _ => rfl) hres

theorem addEntry_effect {matchKey : P} {mbr : ℕ} {priority : ℤ} {now : ℕ} {res}
    (h : t.addEntry kb ap matchKey mbr priority now = some (res, t', ap'))
    (hr : t.adds r = some (matchKey, .mbr mbr, priority, now)) :
    Effect kb t ap r (res.map .handle) t'.matchUnit ap' ∧
      t' = { t with matchUnit := t'.matchUnit } := by
  unfold MatchTableIndirect.addEntry MatchTableIndirect.addIndex at h
  by_cases hm : ap.isValidMbr mbr = true
  · simp only [hm, Bool.not_true, Bool.false_eq_true, if_false, Option.bind_eq_bind,
      Option.bind_eq_some_iff, Option.pure_def, Option.some.injEq, Prod.mk.injEq] at h
    obtain ⟨index, hindex, ap₁, hincr, rfl, rfl, rfl⟩ := h
    obtain rfl := ActionProfile.makeMbrIndex_eq hindex
    exact ⟨.add hr (by simpa [Usable, ActionProfile.isValidMbr] using hm) hincr, rfl⟩
  · simp only [hm, Bool.not_false, if_true, Option.some.injEq, Prod.mk.injEq] at h
    obtain ⟨rfl, rfl, rfl⟩ := h
    exact ⟨.refl (noHandle_error _), rfl⟩

theorem addEntryWs_effect {matchKey : P} {grp : ℕ} {priority : ℤ} {now : ℕ} {res}
    (h : t.addEntryWs kb ap matchKey grp priority now = some (res, t', ap'))
    (hr : t.adds r = some (matchKey, .grp grp, priority, now)) :
    Effect kb t ap r (res.map .handle) t'.matchUnit ap' ∧
      t' = { t with matchUnit := t'.matchUnit } := by
  unfold MatchTableIndirect.addEntryWs MatchTableIndirect.addIndex at h
  by_cases hg : ap.isValidGrp grp = true
  · simp only [hg, Bool.not_true, Bool.false_eq_true, if_false, Option.bind_eq_bind,
      Option.bind_eq_some_iff] at h
    obtain ⟨b, hempty, h⟩ := h
    obtain ⟨mbrs, hat, rfl⟩ := groupIsEmpty_eq_some hempty
    by_cases hne : mbrs = ∅
    · simp only [hne, decide_true, if_true, Option.pure_def, Option.some.injEq,
        Prod.mk.injEq] at h
      obtain ⟨rfl, rfl, rfl⟩ := h
      exact ⟨.refl (noHandle_error _), rfl⟩
    · simp only [hne, decide_false, Bool.false_eq_true, if_false, Option.bind_eq_some_iff,
        Option.pure_def, Option.some.injEq, Prod.mk.injEq] at h
      obtain ⟨index, hindex, ap₁, hincr, rfl, rfl, rfl⟩ := h
      obtain rfl := ActionProfile.makeGrpIndex_eq hindex
      have hg' : grp ∈ ap.grpHandles := by simpa [ActionProfile.isValidGrp] using hg
      exact ⟨.add hr ⟨hg', mbrs, hat, hne⟩ hincr, rfl⟩
  · simp only [hg, Bool.not_false, if_true, Option.some.injEq, Prod.mk.injEq] at h
    obtain ⟨rfl, rfl, rfl⟩ := h
    exact ⟨.refl (noHandle_error _), rfl⟩

omit [LookupStructure σ K] [Inhabited K] in
theorem getValue_cases (u : MatchUnit σ K V) (h : EntryHandle) :
    (∃ e, u.checkHandle h = .error e ∧ u.getValue h = .error e) ∨
      ∃ i, u.checkHandle h = .ok i ∧ u.getValue h = .ok (u.entries i).value := by
  cases hc : u.checkHandle h with
  | error e => exact .inl ⟨e, rfl, by rw [getValue, hc]; rfl⟩
  | ok i => exact .inr ⟨i, rfl, by rw [getValue, hc]; rfl⟩

omit [Inhabited K] in
theorem deleteEntry_eq_some {h : EntryHandle} {res}
    (hd : t.deleteEntry ap h = some (res, t', ap')) :
    (∃ e, t.matchUnit.checkHandle h = .error e ∧ res = .error e ∧ t' = t ∧ ap' = ap) ∨
      ∃ i, t.matchUnit.checkHandle h = .ok i ∧ res = .ok () ∧
        t' = { t with matchUnit := (t.matchUnit.deleteEntry h).2 } ∧
        ap.refCountDecrease (t.matchUnit.entries i).value = some ap' := by
  unfold MatchTableIndirect.deleteEntry at hd
  rcases getValue_cases t.matchUnit h with ⟨e, hc, hv⟩ | ⟨i, hc, hv⟩
  · simp only [hv, Option.some.injEq, Prod.mk.injEq] at hd
    exact .inl ⟨e, hc, hd.1.symm, hd.2.1.symm, hd.2.2.symm⟩
  · simp only [hv, Option.bind_eq_bind, Option.bind_eq_some_iff, Option.pure_def,
      Option.some.injEq, Prod.mk.injEq] at hd
    obtain ⟨ap₁, hdecr, rfl, rfl, rfl⟩ := hd
    exact .inr ⟨i, hc, by rw [deleteEntry_of_ok hc], rfl, hdecr⟩

theorem deleteEntry_effect {h : EntryHandle} {res}
    (hd : t.deleteEntry ap h = some (res, t', ap')) :
    Effect kb t ap r (res.map fun _ => .none) t'.matchUnit ap' ∧
      t' = { t with matchUnit := t'.matchUnit } := by
  rcases deleteEntry_eq_some hd with ⟨e, -, rfl, rfl, rfl⟩ | ⟨i, hc, rfl, rfl, hdecr⟩
  · exact ⟨.refl (noHandle_error _), rfl⟩
  · exact ⟨.delete hc hdecr, rfl⟩

/-- The end of both modifications, once the old index is uncounted. -/
theorem setIndex_effect {h : EntryHandle} {i : ℕ} {index : IndirectIndex} {ap₁ : ActionProfile}
    {res} (hr : t.modifies r = some (h, index)) (hc : t.matchUnit.checkHandle h = .ok i)
    (hdecr : ap.refCountDecrease (t.matchUnit.entries i).value = some ap₁)
    (hindex : Usable ap index) (hset : t.setIndex ap₁ h index = some (res, t', ap')) :
    Effect kb t ap r (res.map fun _ => .none) t'.matchUnit ap' ∧
      t' = { t with matchUnit := t'.matchUnit } := by
  unfold MatchTableIndirect.setIndex at hset
  simp only [Option.bind_eq_bind, Option.bind_eq_some_iff, Option.pure_def, Option.some.injEq,
    Prod.mk.injEq] at hset
  obtain ⟨ap₂, hincr, rfl, rfl, rfl⟩ := hset
  have hok : (t.matchUnit.modifyEntry h index).1 = .ok () := by rw [modifyEntry_of_ok hc]
  rw [hok]
  exact ⟨.modify hr hc hdecr hindex hincr, rfl⟩

theorem modifyEntry_effect {h : EntryHandle} {mbr : ℕ} {res}
    (hm : t.modifyEntry ap h mbr = some (res, t', ap')) (hr : t.modifies r = some (h, .mbr mbr)) :
    Effect kb t ap r (res.map fun _ => .none) t'.matchUnit ap' ∧
      t' = { t with matchUnit := t'.matchUnit } := by
  unfold MatchTableIndirect.modifyEntry at hm
  rcases getValue_cases t.matchUnit h with ⟨e, -, hv⟩ | ⟨i, hc, hv⟩
  · simp only [hv, Option.some.injEq, Prod.mk.injEq] at hm
    obtain ⟨rfl, rfl, rfl⟩ := hm
    exact ⟨.refl (noHandle_error _), rfl⟩
  · simp only [hv, Option.bind_eq_bind, Option.bind_eq_some_iff] at hm
    obtain ⟨ap₁, hdecr, hm⟩ := hm
    obtain ⟨m, g, hap⟩ := modifyCount_eq_some hdecr
    have husable : Usable ap (.mbr mbr) ↔ ap₁.isValidMbr mbr = true := by
      rw [hap]
      simp [Usable, ActionProfile.isValidMbr]
    by_cases hvalid : ap₁.isValidMbr mbr = true
    · simp only [hvalid, Bool.not_true, Bool.false_eq_true, if_false,
        Option.bind_eq_some_iff] at hm
      obtain ⟨index, hindex, hset⟩ := hm
      obtain rfl := ActionProfile.makeMbrIndex_eq hindex
      exact setIndex_effect hr hc hdecr (husable.mpr hvalid) hset
    · simp only [hvalid, Bool.not_false, if_true, Option.pure_def, Option.some.injEq,
        Prod.mk.injEq] at hm
      obtain ⟨rfl, rfl, rfl⟩ := hm
      exact ⟨.refuse hr hc hdecr (fun hu => hvalid (husable.mp hu)), rfl⟩

theorem modifyEntryWs_effect {h : EntryHandle} {grp : ℕ} {res}
    (hm : t.modifyEntryWs ap h grp = some (res, t', ap'))
    (hr : t.modifies r = some (h, .grp grp)) :
    Effect kb t ap r (res.map fun _ => .none) t'.matchUnit ap' ∧
      t' = { t with matchUnit := t'.matchUnit } := by
  unfold MatchTableIndirect.modifyEntryWs at hm
  rcases getValue_cases t.matchUnit h with ⟨e, -, hv⟩ | ⟨i, hc, hv⟩
  · simp only [hv, Option.some.injEq, Prod.mk.injEq] at hm
    obtain ⟨rfl, rfl, rfl⟩ := hm
    exact ⟨.refl (noHandle_error _), rfl⟩
  · simp only [hv, Option.bind_eq_bind, Option.bind_eq_some_iff] at hm
    obtain ⟨ap₁, hdecr, hm⟩ := hm
    obtain ⟨m, g, hap⟩ := modifyCount_eq_some hdecr
    have husable : Usable ap (.grp grp) ↔ Usable ap₁ (.grp grp) := by
      rw [hap]
      exact (usable_congr rfl rfl rfl).symm
    by_cases hvalid : ap₁.isValidGrp grp = true
    · simp only [hvalid, Bool.not_true, Bool.false_eq_true, if_false,
        Option.bind_eq_some_iff] at hm
      obtain ⟨b, hempty, hm⟩ := hm
      obtain ⟨mbrs, hat, rfl⟩ := groupIsEmpty_eq_some hempty
      have hmem : grp ∈ ap₁.grpHandles := by simpa [ActionProfile.isValidGrp] using hvalid
      by_cases hne : mbrs = ∅
      · simp only [hne, decide_true, if_true, Option.pure_def, Option.some.injEq,
          Prod.mk.injEq] at hm
        obtain ⟨rfl, rfl, rfl⟩ := hm
        refine ⟨.refuse hr hc hdecr fun hu => ?_, rfl⟩
        obtain ⟨-, mbrs', hat', hne'⟩ := husable.mp hu
        exact hne' (Option.some.inj (hat'.symm.trans hat) ▸ hne)
      · simp only [hne, decide_false, Bool.false_eq_true, if_false,
          Option.bind_eq_some_iff] at hm
        obtain ⟨index, hindex, hset⟩ := hm
        obtain rfl := ActionProfile.makeGrpIndex_eq hindex
        exact setIndex_effect hr hc hdecr (husable.mpr ⟨hmem, mbrs, hat, hne⟩) hset
    · simp only [hvalid, Bool.not_false, if_true, Option.pure_def, Option.some.injEq,
        Prod.mk.injEq] at hm
      obtain ⟨rfl, rfl, rfl⟩ := hm
      refine ⟨.refuse hr hc hdecr fun hu => hvalid ?_, rfl⟩
      simpa [ActionProfile.isValidGrp] using (husable.mp hu).1

omit [Inhabited K] in
theorem lookup_eq_some {key : ByteContainer} {length now hash : ℕ} {hit entry}
    (hl : t.lookup ap key length now hash = some (hit, entry, t', ap')) :
    t' = { t with matchUnit := (t.matchUnit.lookup key length now).2 } ∧
      ∃ entries : Vec ActionEntry, entries.size = ap.actionEntries.size ∧
        ap' = { ap with actionEntries := entries } := by
  unfold MatchTableIndirect.lookup at hl
  cases hi : t.indexOf (t.matchUnit.lookup key length now).1 with
  | none =>
    simp only [hi, Option.pure_def, Option.some.injEq, Prod.mk.injEq] at hl
    obtain ⟨-, -, rfl, rfl⟩ := hl
    exact ⟨rfl, ap.actionEntries, rfl, rfl⟩
  | some index =>
    simp only [hi, Option.bind_eq_bind, Option.bind_eq_some_iff, Option.pure_def,
      Option.some.injEq, Prod.mk.injEq] at hl
    obtain ⟨⟨mbr, e⟩, -, nextNode, -, entries, hput, -, -, rfl, rfl⟩ := hl
    refine ⟨rfl, entries, ?_, rfl⟩
    unfold Vec.modify at hput
    split at hput
    · obtain rfl := Option.some.inj hput
      rfl
    · cases hput

omit [LookupStructure σ K] [Inhabited K] in
theorem setDefaultMember_eq_some {mbr : ℕ} {res}
    (h : t.setDefaultMember ap mbr = some (res, t')) :
    (res = .error .invalidMbrHandle ∧ t' = t) ∨
      res = .ok () ∧ mbr ∈ ap.mbrHandles ∧
        t' = { t with defaultIndex := .mbr mbr, defaultSet := true } := by
  unfold MatchTableIndirect.setDefaultMember at h
  by_cases hm : ap.isValidMbr mbr = true
  · simp only [hm, Bool.not_true, Bool.false_eq_true, if_false, Option.bind_eq_bind,
      Option.bind_eq_some_iff, Option.pure_def, Option.some.injEq, Prod.mk.injEq] at h
    obtain ⟨index, hindex, rfl, rfl⟩ := h
    rw [ActionProfile.makeMbrIndex_eq hindex]
    exact .inr ⟨rfl, by simpa [ActionProfile.isValidMbr] using hm, rfl⟩
  · simp only [hm, Bool.not_false, if_true, Option.some.injEq, Prod.mk.injEq] at h
    exact .inl ⟨h.1.symm, h.2.symm⟩

omit [LookupStructure σ K] [Inhabited K] in
theorem setDefaultGroup_eq_some {grp : ℕ} {res}
    (h : t.setDefaultGroup ap grp = some (res, t')) :
    (res = .error .invalidGrpHandle ∧ t' = t) ∨
      res = .ok () ∧ grp ∈ ap.grpHandles ∧
        t' = { t with defaultIndex := .grp grp, defaultSet := true } := by
  unfold MatchTableIndirect.setDefaultGroup at h
  by_cases hg : ap.isValidGrp grp = true
  · simp only [hg, Bool.not_true, Bool.false_eq_true, if_false, Option.bind_eq_bind,
      Option.bind_eq_some_iff, Option.pure_def, Option.some.injEq, Prod.mk.injEq] at h
    obtain ⟨index, hindex, rfl, rfl⟩ := h
    rw [ActionProfile.makeGrpIndex_eq hindex]
    exact .inr ⟨rfl, by simpa [ActionProfile.isValidGrp] using hg, rfl⟩
  · simp only [hg, Bool.not_false, if_true, Option.some.injEq, Prod.mk.injEq] at h
    exact .inl ⟨h.1.symm, h.2.symm⟩

theorem MatchTableIndirect.step_effect {req : IndirectRequest P} {res : Result (Reply P C)}
    (h : t.step kb ap req = some (res, t', ap')) :
    Effect kb t ap (.indirect req) res t'.matchUnit ap' ∧
      DefaultEffect t ap (.indirect req : TableRequest P C) t' := by
  cases req with
  | addEntry matchKey mbr priority now =>
    obtain ⟨⟨_, _, _⟩, hadd, heq⟩ := Option.map_eq_some_iff.mp h
    cases heq
    exact And.imp_right .of_unit (addEntry_effect hadd rfl)
  | deleteEntry h' =>
    obtain ⟨⟨_, _, _⟩, hd, heq⟩ := Option.map_eq_some_iff.mp h
    cases heq
    exact And.imp_right .of_unit (deleteEntry_effect hd)
  | modifyEntry h' mbr =>
    obtain ⟨⟨_, _, _⟩, hm, heq⟩ := Option.map_eq_some_iff.mp h
    cases heq
    exact And.imp_right .of_unit (modifyEntry_effect hm rfl)
  | setDefaultMember mbr =>
    obtain ⟨⟨_, _⟩, hs, heq⟩ := Option.map_eq_some_iff.mp h
    cases heq
    rcases setDefaultMember_eq_some hs with ⟨rfl, rfl⟩ | ⟨rfl, hmbr, rfl⟩
    · exact ⟨.refl (noHandle_error _), .refl⟩
    · exact ⟨.refl noHandle_none, .member rfl hmbr rfl⟩
  | addEntryWs matchKey grp priority now =>
    simp only [step] at h
    -- Requests about groups are refused where the profile has no selector.
    split_ifs at h with hws
    · obtain ⟨⟨_, _, _⟩, hadd, heq⟩ := Option.map_eq_some_iff.mp h
      cases heq
      exact And.imp_right .of_unit (addEntryWs_effect hadd (if_pos hws))
    · cases h
      exact ⟨.refl (noHandle_error _), .refl⟩
  | modifyEntryWs h' grp =>
    simp only [step] at h
    split_ifs at h with hws
    · obtain ⟨⟨_, _, _⟩, hm, heq⟩ := Option.map_eq_some_iff.mp h
      cases heq
      exact And.imp_right .of_unit (modifyEntryWs_effect hm (if_pos hws))
    · cases h
      exact ⟨.refl (noHandle_error _), .refl⟩
  | setDefaultGroup grp =>
    simp only [step] at h
    split_ifs at h with hws
    · obtain ⟨⟨_, _⟩, hs, heq⟩ := Option.map_eq_some_iff.mp h
      cases heq
      rcases setDefaultGroup_eq_some hs with ⟨rfl, rfl⟩ | ⟨rfl, hgrp, rfl⟩
      · exact ⟨.refl (noHandle_error _), .refl⟩
      · exact ⟨.refl noHandle_none, .group rfl hgrp rfl⟩
    · cases h
      exact ⟨.refl (noHandle_error _), .refl⟩

variable [Meter M C]

/-- **A request on an indirect table.** -/
theorem Table.step_indirect {res : Result (Reply P C)} {tbl : Table σ K M}
    (h : (Table.indirect t).step kb ap r = some (res, tbl, ap')) :
    ∃ t', tbl = .indirect t' ∧ Effect kb t ap r res t'.matchUnit ap' ∧
      DefaultEffect t ap r t' := by
  cases r with
  | common r =>
    simp only [Table.step, Answer.ofTable, Option.some.injEq, Prod.mk.injEq, Except.map_id,
      id_eq] at h
    obtain ⟨rfl, rfl, rfl⟩ := h
    obtain ⟨hres, entryMeta, hbeyond, hu⟩ := t.toMatchTableAbstract.step_touch (P := P) r
    refine ⟨_, rfl, ?_, .keep rfl rfl⟩
    simp only [hu]
    exact .touch entryMeta hbeyond hres
  | direct r =>
    cases h
    exact ⟨t, rfl, .refl (noHandle_error _), .refl⟩
  | indirect r =>
    simp only [Table.step, Option.map_eq_some_iff, Answer.ofTable, Prod.mk.injEq, Except.map_id,
      id_eq] at h
    obtain ⟨⟨res', t', ap''⟩, hstep, rfl, rfl, rfl⟩ := h
    exact ⟨t', rfl, MatchTableIndirect.step_effect hstep⟩
  | getEntry h' now =>
    simp only [Table.step] at h
    cases hg : t.matchUnit.getEntry kb h' with
    | error e =>
      simp only [hg] at h
      cases h
      exact ⟨t, rfl, .refl (noHandle_error _), .refl⟩
    | ok v =>
      obtain ⟨matchKey, index, priority⟩ := v
      simp only [hg] at h
      split at h
      · cases h
      · cases h
        exact ⟨t, rfl, .refl (by simp [NoHandle]), .refl⟩
  | resetState =>
    cases h
    exact ⟨_, rfl, .reset rfl, .keep rfl rfl⟩
  | lookup key length now hash =>
    simp only [Table.step, Option.bind_eq_bind, Option.bind_eq_some_iff, Option.pure_def,
      Option.some.injEq, Prod.mk.injEq] at h
    obtain ⟨⟨hit, entry, t', ap''⟩, hl, rfl, rfl, rfl⟩ := h
    obtain ⟨rfl, entries, hsize, rfl⟩ := lookup_eq_some hl
    exact ⟨_, rfl, .lookup key length now entries hsize (by simp [NoHandle]), .keep rfl rfl⟩

/-- **A request on a direct table.** -/
theorem Table.step_direct {t : MatchTable σ K M} {res : Result (Reply P C)} {tbl : Table σ K M}
    (h : (Table.direct t).step kb ap r = some (res, tbl, ap')) :
    ∃ t', tbl = .direct t' ∧ ap' = ap ∧ UnitEffect kb t.matchUnit res t'.matchUnit := by
  cases r with
  | common r =>
    simp only [Table.step, Answer.ofTable, Option.some.injEq, Prod.mk.injEq, Except.map_id,
      id_eq] at h
    obtain ⟨rfl, rfl, rfl⟩ := h
    exact ⟨_, rfl, rfl, t.toMatchTableAbstract.step_effect kb r⟩
  | direct r =>
    simp only [Table.step, Option.map_eq_some_iff, Answer.ofTable, Prod.mk.injEq, Except.map_id,
      id_eq] at h
    obtain ⟨⟨res', t'⟩, hstep, rfl, rfl, rfl⟩ := h
    exact ⟨t', rfl, rfl, MatchTable.step_effect hstep⟩
  | indirect r =>
    cases h
    exact ⟨t, rfl, rfl, .refl kb _ (noHandle_error _)⟩
  | getEntry h' now =>
    cases h
    refine ⟨t, rfl, rfl, .refl kb _ ?_⟩
    cases t.matchUnit.getEntry kb h' <;> simp [Except.map, NoHandle]
  | resetState =>
    cases h
    exact ⟨_, rfl, rfl, .reset noHandle_none⟩
  | lookup key length now hash =>
    simp only [Table.step, Option.some.injEq, Prod.mk.injEq] at h
    obtain ⟨rfl, rfl, rfl⟩ := h
    exact ⟨_, rfl, rfl, .lookup key length now (by simp [NoHandle])⟩

omit [Meter M C] in
/-- An effect on an indirect table is one on its unit. -/
theorem Effect.unitEffect {res : Result (Reply P C)} {u' : MatchUnit σ K IndirectIndex}
    (h : Effect kb t ap r res u' ap') : UnitEffect kb t.matchUnit res u' := by
  cases h with
  | touch entryMeta hbeyond hres => exact .touch entryMeta hbeyond hres
  | lookup key length now entries hsize hres => exact .lookup key length now hres
  | add hr hindex hincr => exact .add ..
  | delete hc hdecr => exact .delete _ noHandle_none
  | modify hr hc hdecr hindex hincr => exact .modify _ _ noHandle_none
  | refuse hr hc hdecr hindex => exact .refl kb _ (noHandle_error _)
  | reset hr => exact .reset noHandle_none

end

namespace Runtime

variable {ι P M C : Type} {σ K : ι → Type} [DecidableEq ι] [∀ t, LookupStructure (σ t) (K t)]
  [∀ t, Inhabited (K t)] [Meter M C] {kb : (t : ι) → KeyBuilder P (K t)} {s s' : Runtime ι σ K M}

/-- A request on one table leaves the others alone. -/
theorem step_table_eq_some {t : ι} {r : TableRequest P C} {res : Result (Reply P C)}
    (hstep : s.step kb (.table t r) = some (res, s')) :
    ∃ tbl ap, (s.tables t).step (kb t) s.profile r = some (res, tbl, ap) ∧
      s' = ⟨ap, Function.update s.tables t tbl⟩ := by
  simp only [step, Option.map_eq_some_iff, Answer.ofTable, Prod.mk.injEq, Except.map_id,
    id_eq] at hstep
  obtain ⟨⟨res', tbl, ap⟩, hstep, rfl, rfl⟩ := hstep
  exact ⟨tbl, ap, hstep, rfl⟩

end Runtime

end MatchTables

end P4Bricks
