import P4Bricks.MatchTables.Helpers.Effects
import P4Bricks.MatchUnit.Liveness
import P4Bricks.MatchUnit.HandleLife
/-!
# Next nodes

What `apply_action` continues with. The loader gives a table the next node of
each of its actions, and one for a hit, for a miss and for a miss without
default if the program names them. A direct table stores the next node in its
entries, and setting its default action sets the node for a miss. An indirect
table looks up the next node of the member's action with each packet: an action
that is none of the table's, as a shared profile may have, ends the lookup. On a
miss the node found is thrown away: the one for a miss is the one the table was
loaded with, whatever its default is (`continues_iff_follows`).
-/

namespace P4Bricks

open Lookup MatchUnit

/-! ## The values of a unit -/

namespace MatchUnit

variable {σ P K V : Type*} {u : MatchUnit σ K V} {p : V → Prop}

/-- All live entries have such a value. -/
def AllValues (p : V → Prop) (u : MatchUnit σ K V) : Prop := ∀ i ∈ u.handles, p (u.entries i).value

variable [LookupStructure σ K] [Inhabited K] [Inhabited V]

/-- A request puts no other values into the unit than it brings. -/
theorem AllValues.apply (kb : KeyBuilder P K) (h : u.AllValues p) {op : Op P V}
    (hadd : ∀ matchKey value priority now, op = .addEntry matchKey value priority now → p value)
    (hmodify : ∀ h value, op = .modifyEntry h value → p value) : (u.apply kb op).AllValues p := by
  intro i hi
  rcases slot_cases kb u op i with rfl | hs | ⟨matchKey, value, priority, now, rfl, ht⟩ |
      ⟨h', -, -, hf⟩ | ⟨h', value, rfl, -, -, he⟩
  · exact absurd hi (Finset.notMem_empty i)
  · rw [hs.2]
    exact h i (hs.1.mp hi)
  · rw [ht.2.2.2]
    exact hadd matchKey value priority now rfl
  · exact absurd hi hf.1
  · rw [he]
    exact hmodify h' value rfl

end MatchUnit

namespace MatchTables

/-! ## Loading -/

/-- What a program says of the next nodes of a table: `next_tables` by action and
under `__HIT__` and `__MISS__`, and `base_default_next`. A node is `none` where
the program says `null`, which ends the pipeline; an action that is none of the
table's has no node at all. -/
structure NextTables where
  nextNodes : ℕ → Option (Option ℕ)
  hit : Option (Option ℕ) := none
  miss : Option (Option ℕ) := none
  baseDefaultNext : Option (Option ℕ) := none

namespace NextTables

/-- The node after a hit that ran this action. -/
def onHit (cfg : NextTables) (actionId : ℕ) : Option (Option ℕ) :=
  cfg.hit.orElse fun _ => cfg.nextNodes actionId

/-- The node after a miss that ran this default action, if there is one. -/
def onMiss (cfg : NextTables) (actionFn : Option ActionFn) : Option (Option ℕ) :=
  cfg.miss.orElse fun _ =>
    match actionFn with
    | some fn => cfg.nextNodes fn.id
    | none => some (cfg.baseDefaultNext.getD none)

/-- **The node the program names.** -/
def configured (cfg : NextTables) (hit : Option EntryHandle) (entry : ActionEntry) :
    Option (Option ℕ) :=
  if hit.isSome then cfg.onHit entry.getActionId else cfg.onMiss entry.actionFn

end NextTables

namespace MatchTableAbstract

variable {σ K V M : Type}

def setNextNodeHit (t : MatchTableAbstract σ K V M) (nextNode : Option ℕ) :
    MatchTableAbstract σ K V M :=
  { t with hasNextNodeHit := true, nextNodeHit := nextNode }

def setNextNodeMiss (t : MatchTableAbstract σ K V M) (nextNode : Option ℕ) :
    MatchTableAbstract σ K V M :=
  { t with hasNextNodeMiss := true, nextNodeMiss := nextNode }

/-- The program's own node for a miss takes priority. -/
def setNextNodeMissDefault (t : MatchTableAbstract σ K V M) (nextNode : Option ℕ) :
    MatchTableAbstract σ K V M :=
  if t.hasNextNodeMiss then t else { t with nextNodeMiss := nextNode }

/-- The next node resolution of `init_pipelines`. -/
def resolveNextNodes (t : MatchTableAbstract σ K V M) (cfg : NextTables) :
    MatchTableAbstract σ K V M :=
  let t := { t with nextNodes := cfg.nextNodes }
  let t := cfg.hit.elim t t.setNextNodeHit
  let t := cfg.miss.elim t t.setNextNodeMiss
  cfg.baseDefaultNext.elim t t.setNextNodeMissDefault

/-- A new table over a new unit. -/
def create (size : ℕ) (ls : σ) (withCounters withAgeing withMeters : Bool) (directMeters : ℕ → M)
    [Inhabited K] [Inhabited V] : MatchTableAbstract σ K V M where
  matchUnit := .create size ls
  withCounters := withCounters
  withAgeing := withAgeing
  withMeters := withMeters
  directMeters := directMeters
  nextNodes := fun _ => none

end MatchTableAbstract

/-- What a program says of a direct table, beside its key. -/
structure DirectConfig (P : Type) where
  nextTables : NextTables
  constDefaultAction : Option ActionFn := none
  /-- The default entry, and whether it is constant. -/
  defaultEntry : Option (ActionFn × List ℤ × Bool) := none
  /-- The entries of the initializer, after which there are no others. -/
  entries : Option (List (P × ActionFn × List ℤ × ℤ)) := none

namespace MatchTable

variable {σ P K M : Type} [LookupStructure σ K]

/-- `set_default_entry`, which asserts that it succeeds. -/
def setDefaultEntry (t : MatchTable σ K M) (fn : ActionFn) (data : List ℤ) (isConst : Bool) :
    Option (MatchTable σ K M) :=
  match t.setDefaultAction fn data with
  | some (.ok _, t) => some { t with constDefaultEntry := isConst }
  | _ => none

/-- An entry of the initializer: anything but success stops the loader. -/
def loadEntry (kb : KeyBuilder P K) (now : ℕ) (t : MatchTable σ K M)
    (entry : P × ActionFn × List ℤ × ℤ) : Option (MatchTable σ K M) :=
  match t.addEntry kb entry.1 entry.2.1 entry.2.2.1 entry.2.2.2 now with
  | some (.ok _, t) => some t
  | _ => none

/-- The part of `init_pipelines` on a direct table. -/
def load (kb : KeyBuilder P K) (now : ℕ) (t : MatchTable σ K M) (cfg : DirectConfig P) :
    Option (MatchTable σ K M) := do
  let t := { t with
    toMatchTableAbstract := t.resolveNextNodes cfg.nextTables
    constDefaultAction := cfg.constDefaultAction }
  let t ← cfg.defaultEntry.elim (some t) fun e => t.setDefaultEntry e.1 e.2.1 e.2.2
  match cfg.entries with
  | none => return t
  | some entries =>
    let t ← entries.foldlM (loadEntry kb now) t
    return { t with immutableEntries := true }

end MatchTable

/-- A table as the program was loaded, with its next nodes. -/
inductive Table.Loaded {σ P K M : Type} [LookupStructure σ K] [LiveLookup σ K] [Inhabited K]
    (kb : KeyBuilder P K) : NextTables → Table σ K M → Prop
  | direct {size : ℕ} {ls : σ} (hls : LiveLookup.Follows ls size fun _ => (none : Option K))
      (withCounters withAgeing withMeters : Bool) (directMeters : ℕ → M) (now : ℕ)
      (cfg : DirectConfig P) {t : MatchTable σ K M}
      (hload : MatchTable.load kb now
        ⟨.create size ls withCounters withAgeing withMeters directMeters, {}, none, false, false⟩
        cfg = some t) :
      Loaded kb cfg.nextTables (.direct t)
  | indirect (size : ℕ) (ls : σ) (withCounters withAgeing withMeters : Bool)
      (directMeters : ℕ → M) (withSelector : Bool) (cfg : NextTables) :
      Loaded kb cfg (.indirect
        ⟨(MatchTableAbstract.create size ls withCounters withAgeing withMeters
          directMeters).resolveNextNodes cfg, withSelector, default, false⟩)

/-! ## Packets -/

section

variable {σ P K M C : Type} [LookupStructure σ K] [Meter M C]

/-- `apply_action`: the handle hit, the action that ran, and the next node. -/
def Table.applyAction (ap : ActionProfile) (key : ByteContainer) (length now hash : ℕ) :
    Table σ K M → Option (Option EntryHandle × ActionEntry × Option ℕ × Table σ K M × ActionProfile)
  | .direct t =>
    let (hit, entry, t) := t.lookup key length now
    some (hit, entry, if hit.isSome then entry.nextNode else t.nextNodeMiss,
      .direct { t with toMatchTableAbstract := t.executeMeters hit length now }, ap)
  | .indirect t => do
    let (hit, entry, t, ap) ← t.lookup ap key length now hash
    return (hit, entry, if hit.isSome then entry.nextNode else t.nextNodeMiss,
      .indirect { t with toMatchTableAbstract := t.executeMeters hit length now }, ap)

/-- **The packet is continued with the node the program names.** -/
def Table.Continues (cfg : NextTables) (tbl : Table σ K M) (ap : ActionProfile)
    (key : ByteContainer) (length now hash : ℕ) : Prop :=
  ∃ hit entry nextNode tbl' ap',
    tbl.applyAction ap key length now hash = some (hit, entry, nextNode, tbl', ap') ∧
      cfg.configured hit entry = some nextNode

end

/-! ## What stays as it was loaded -/

section

variable {σ P K V M C : Type} {cfg : NextTables}

/-- The loaded next nodes, but for the one after a miss, which may change. -/
structure Resolved (cfg : NextTables) (t : MatchTableAbstract σ K V M) : Prop where
  nextNodes_eq : t.nextNodes = cfg.nextNodes
  hasHit_eq : t.hasNextNodeHit = cfg.hit.isSome
  hit_eq : ∀ n ∈ cfg.hit, t.nextNodeHit = n
  hasMiss_eq : t.hasNextNodeMiss = cfg.miss.isSome

theorem Resolved.getNextNode_eq {t : MatchTableAbstract σ K V M} (h : Resolved cfg t)
    (actionId : ℕ) : t.getNextNode actionId = cfg.onHit actionId := by
  unfold MatchTableAbstract.getNextNode NextTables.onHit
  rw [h.hasHit_eq, h.nextNodes_eq]
  cases hh : cfg.hit with
  | none => rfl
  | some n => exact congrArg some (h.hit_eq n hh)

/-- The node after a miss that `set_default_action` sets. -/
theorem Resolved.getNextNodeDefault_eq {t : MatchTableAbstract σ K V M} (h : Resolved cfg t)
    {o : Option ActionFn} (hmiss : cfg.onMiss o = some t.nextNodeMiss) (fn : ActionFn) :
    t.getNextNodeDefault fn.id = cfg.onMiss (some fn) := by
  unfold MatchTableAbstract.getNextNodeDefault
  rw [h.hasMiss_eq, h.nextNodes_eq, ← hmiss]
  unfold NextTables.onMiss
  cases cfg.miss with
  | none => rfl
  | some n => rfl

/-- Next nodes are no part of a unit. -/
theorem resolveNextNodes_matchUnit (t : MatchTableAbstract σ K V M) (cfg : NextTables) :
    (t.resolveNextNodes cfg).matchUnit = t.matchUnit := by
  obtain ⟨nextNodes, hit, miss, base⟩ := cfg
  have hdefault : ∀ (t : MatchTableAbstract σ K V M) nextNode,
      (t.setNextNodeMissDefault nextNode).matchUnit = t.matchUnit := by
    intro t nextNode
    unfold MatchTableAbstract.setNextNodeMissDefault
    split
    · rfl
    · rfl
  rcases base with _ | base
  · rcases hit with _ | hit <;> rcases miss with _ | miss
    all_goals rfl
  · refine (hdefault _ base).trans ?_
    rcases hit with _ | hit <;> rcases miss with _ | miss
    all_goals rfl

theorem resolveNextNodes_spec (t : MatchTableAbstract σ K V M) (cfg : NextTables)
    (hhit : t.hasNextNodeHit = false) (hmiss : t.hasNextNodeMiss = false)
    (hnode : t.nextNodeMiss = none) :
    Resolved cfg (t.resolveNextNodes cfg) ∧
      cfg.onMiss none = some (t.resolveNextNodes cfg).nextNodeMiss ∧
      (t.resolveNextNodes cfg).matchUnit = t.matchUnit := by
  obtain ⟨actions, hit, miss, base⟩ := cfg
  -- Each of the three nodes is there or not.
  cases hit <;> cases miss <;> cases base <;>
    simp [MatchTableAbstract.resolveNextNodes, MatchTableAbstract.setNextNodeHit,
      MatchTableAbstract.setNextNodeMiss, MatchTableAbstract.setNextNodeMissDefault,
      NextTables.onMiss, hhit, hmiss, hnode]
  all_goals exact ⟨rfl, by simp, by simp, by simp⟩

/-- All that a table keeps of next nodes, outside of its entries. -/
def MatchTableAbstract.nodes (t : MatchTableAbstract σ K V M) :
    (ℕ → Option (Option ℕ)) × Bool × Option ℕ × Bool × Option ℕ :=
  (t.nextNodes, t.hasNextNodeHit, t.nextNodeHit, t.hasNextNodeMiss, t.nextNodeMiss)

theorem Resolved.of_nodes {t t' : MatchTableAbstract σ K V M} (h : Resolved cfg t)
    (heq : t'.nodes = t.nodes) : Resolved cfg t' ∧ t'.nextNodeMiss = t.nextNodeMiss := by
  simp only [MatchTableAbstract.nodes, Prod.mk.injEq] at heq
  obtain ⟨hnodes, hhas, hhit, hmiss, hnode⟩ := heq
  refine ⟨⟨?_, ?_, ?_, ?_⟩, hnode⟩
  · rw [hnodes, h.nextNodes_eq]
  · rw [hhas, h.hasHit_eq]
  · rw [hhit]
    exact h.hit_eq
  · rw [hmiss, h.hasMiss_eq]

/-- A call that all tables answer alike writes meta data and meters. -/
theorem MatchTableAbstract.step_eq [Meter M C] (t : MatchTableAbstract σ K V M)
    (r : CommonRequest C) :
    ∃ entryMeta directMeters, (t.step r : Answer P C _).2 =
      { t with
        matchUnit := { t.matchUnit with entryMeta := entryMeta }
        directMeters := directMeters } := by
  cases r with
  | setEntryTtl h ttlMs now =>
    simp only [step, Answer.ofTable, setEntryTtl, MatchUnit.setEntryTtl]
    split_ifs <;> exact ⟨_, _, rfl⟩
  | queryCounters h => exact ⟨_, _, rfl⟩
  | writeCounters h bytes packets =>
    simp only [step, Answer.ofTable, writeCounters]
    cases t.checkSlot t.withCounters .countersDisabled h <;> exact ⟨_, _, rfl⟩
  | resetCounters =>
    simp only [step, Answer.ofTable, resetCounters]
    split_ifs <;> exact ⟨_, _, rfl⟩
  | setMeterRates h configs =>
    simp only [step, Answer.ofTable, setMeterRates]
    cases t.checkSlot t.withMeters .metersDisabled h <;> exact ⟨_, _, rfl⟩
  | getMeterRates h => exact ⟨_, _, rfl⟩

/-! ## Direct tables -/

variable [LookupStructure σ K] [LiveLookup σ K]

/-- **What holds of a direct table**: its entries store the node of their action,
and the node for a miss is that of the default action. -/
structure MatchTable.Wired (cfg : NextTables) (t : MatchTable σ K M) : Prop where
  resolved : Resolved cfg t.toMatchTableAbstract
  miss_eq : cfg.onMiss t.defaultEntry.actionFn = some t.nextNodeMiss
  sound : t.matchUnit.Sound
  stored : t.matchUnit.AllValues fun entry => cfg.onHit entry.getActionId = some entry.nextNode

namespace MatchTable

variable {kb : KeyBuilder P K} {t t' : MatchTable σ K M}

/-- Meta data and meters have no part in it. -/
theorem Wired.touch (h : t.Wired cfg) (entryMeta : ℕ → EntryMeta) (directMeters : ℕ → M) :
    Wired cfg { t with
      matchUnit := { t.matchUnit with entryMeta := entryMeta }
      directMeters := directMeters } :=
  ⟨⟨h.resolved.nextNodes_eq, h.resolved.hasHit_eq, h.resolved.hit_eq, h.resolved.hasMiss_eq⟩,
    h.miss_eq, h.sound.touch entryMeta, h.stored⟩

variable [Inhabited K]

/-- A request to the unit that brings entries with the node of their action. -/
theorem Wired.withUnit (kb : KeyBuilder P K) (h : t.Wired cfg) (op : Op P ActionEntry)
    (hadd : ∀ matchKey value priority now, op = .addEntry matchKey value priority now →
      cfg.onHit value.getActionId = some value.nextNode)
    (hmodify : ∀ h value, op = .modifyEntry h value →
      cfg.onHit value.getActionId = some value.nextNode) :
    Wired cfg { t with matchUnit := t.matchUnit.apply kb op } :=
  ⟨⟨h.resolved.nextNodes_eq, h.resolved.hasHit_eq, h.resolved.hit_eq, h.resolved.hasMiss_eq⟩,
    h.miss_eq, h.sound.apply kb op, h.stored.apply kb hadd hmodify⟩

theorem Wired.addEntry (h : t.Wired cfg) {matchKey : P} {fn : ActionFn} {data : List ℤ}
    {priority : ℤ} {now : ℕ} {res}
    (hadd : t.addEntry kb matchKey fn data priority now = some (res, t')) : t'.Wired cfg := by
  rcases addEntry_eq_some hadd with ⟨-, -, rfl⟩ | ⟨nextNode, -, hnode, -, rfl⟩
  · exact h
  · refine h.withUnit kb (.addEntry matchKey ⟨some fn, data, nextNode⟩ priority now)
      (fun _ _ _ _ heq => ?_) fun _ _ heq => by cases heq
    cases heq
    exact (h.resolved.getNextNode_eq fn.id).symm.trans hnode

theorem Wired.deleteEntry (h : t.Wired cfg) (handle : EntryHandle) :
    (t.deleteEntry handle).2.Wired cfg := by
  unfold MatchTable.deleteEntry
  split_ifs
  · exact h
  · exact h.withUnit (P := Unit) ⟨fun _ => true, fun _ _ => default, fun _ => (), fun _ => 0⟩
      (.deleteEntry handle) (fun _ _ _ _ heq => by cases heq) fun _ _ heq => by cases heq

theorem Wired.modifyEntry (h : t.Wired cfg) {handle : EntryHandle} {fn : ActionFn}
    {data : List ℤ} {res} (hm : t.modifyEntry handle fn data = some (res, t')) :
    t'.Wired cfg := by
  rcases modifyEntry_eq_some hm with ⟨-, -, rfl⟩ | ⟨nextNode, -, hnode, -, rfl⟩
  · exact h
  · refine h.withUnit (P := Unit) ⟨fun _ => true, fun _ _ => default, fun _ => (), fun _ => 0⟩
      (.modifyEntry handle ⟨some fn, data, nextNode⟩)
      (fun _ _ _ _ heq => by cases heq) fun _ _ heq => ?_
    cases heq
    exact (h.resolved.getNextNode_eq fn.id).symm.trans hnode

omit [Inhabited K] in
theorem Wired.setDefaultAction (h : t.Wired cfg) {fn : ActionFn} {data : List ℤ} {res}
    (hs : t.setDefaultAction fn data = some (res, t')) : t'.Wired cfg := by
  rcases setDefaultAction_eq_some hs with ⟨-, -, rfl⟩ | ⟨nextNode, -, -, hnode, -, rfl⟩
  · exact h
  · have hmiss := (h.resolved.getNextNodeDefault_eq h.miss_eq fn).symm.trans hnode
    exact ⟨⟨h.resolved.nextNodes_eq, h.resolved.hasHit_eq, h.resolved.hit_eq,
      h.resolved.hasMiss_eq⟩, hmiss, h.sound, h.stored⟩

/-- **One request keeps a direct table wired.** -/
theorem Wired.step [Meter M C] (h : t.Wired cfg) {ap ap' : ActionProfile} {r : TableRequest P C}
    {res : Result (Reply P C)} {tbl : Table σ K M}
    (hstep : (Table.direct t).step kb ap r = some (res, tbl, ap')) :
    ∃ t', tbl = .direct t' ∧ t'.Wired cfg := by
  cases r with
  | common r =>
    obtain ⟨entryMeta, directMeters, heq⟩ := t.toMatchTableAbstract.step_eq (P := P) r
    simp only [Table.step, Answer.ofTable, heq, Option.some.injEq, Prod.mk.injEq] at hstep
    exact ⟨_, hstep.2.1.symm, h.touch entryMeta directMeters⟩
  | direct r =>
    obtain ⟨⟨res', t'⟩, hr, heq⟩ := Option.map_eq_some_iff.mp hstep
    cases heq
    refine ⟨t', rfl, ?_⟩
    cases r with
    | deleteEntry handle =>
      cases hr
      exact h.deleteEntry handle
    | addEntry matchKey fn data priority now =>
      obtain ⟨⟨_, _⟩, hadd, heq⟩ := Option.map_eq_some_iff.mp hr
      cases heq
      exact h.addEntry hadd
    | modifyEntry handle fn data =>
      obtain ⟨⟨_, _⟩, hm, heq⟩ := Option.map_eq_some_iff.mp hr
      cases heq
      exact h.modifyEntry hm
    | setDefaultAction fn data =>
      obtain ⟨⟨_, _⟩, hs, heq⟩ := Option.map_eq_some_iff.mp hr
      cases heq
      exact h.setDefaultAction hs
  | indirect r =>
    cases hstep
    exact ⟨t, rfl, h⟩
  | getEntry handle now =>
    cases hstep
    exact ⟨t, rfl, h⟩
  -- No entry is left, so there is none that could lead elsewhere.
  | resetState =>
    cases hstep
    exact ⟨_, rfl, h.withUnit kb .resetState (fun _ _ _ _ heq => by cases heq)
      fun _ _ heq => by cases heq⟩
  | lookup key length now hash =>
    simp only [Table.step, Option.some.injEq, Prod.mk.injEq] at hstep
    refine ⟨_, hstep.2.1.symm, ?_⟩
    have hlookup : Wired cfg { t with matchUnit := (t.matchUnit.lookup key length now).2 } :=
      h.withUnit kb (.lookup key length now) (fun _ _ _ _ heq => by cases heq)
        fun _ _ heq => by cases heq
    exact hlookup.touch _ _

/-! ### As it is loaded -/

theorem Wired.foldlM_loadEntry {now : ℕ} (entries : List (P × ActionFn × List ℤ × ℤ))
    (h : t.Wired cfg) (hload : entries.foldlM (loadEntry kb now) t = some t') : t'.Wired cfg := by
  induction entries generalizing t with
  | nil =>
    obtain rfl := Option.some.inj hload
    exact h
  | cons e entries ih =>
    rw [List.foldlM_cons] at hload
    obtain ⟨t₁, he, hrest⟩ := Option.bind_eq_some_iff.mp hload
    unfold loadEntry at he
    split at he
    · next handle t₂ hadd =>
      obtain rfl := Option.some.inj he
      exact ih (h.addEntry hadd) hrest
    · cases he

theorem wired_load {now : ℕ} {size : ℕ} {ls : σ} {withCounters withAgeing withMeters : Bool}
    {directMeters : ℕ → M} {cfg : DirectConfig P}
    (hls : LiveLookup.Follows ls size fun _ => (none : Option K))
    (hload : load kb now
      ⟨.create size ls withCounters withAgeing withMeters directMeters, {}, none, false, false⟩
      cfg = some t) : t.Wired cfg.nextTables := by
  obtain ⟨hresolved, hmiss, hunit⟩ := resolveNextNodes_spec
    (.create size ls withCounters withAgeing withMeters directMeters :
      MatchTableAbstract σ K ActionEntry M) cfg.nextTables rfl rfl rfl
  have hnew : Wired cfg.nextTables
      ⟨(MatchTableAbstract.create size ls withCounters withAgeing withMeters
        directMeters).resolveNextNodes cfg.nextTables, {}, cfg.constDefaultAction, false, false⟩ := by
    refine ⟨hresolved, hmiss, ?_, ?_⟩
    · rw [hunit]
      exact sound_create hls
    · rw [hunit]
      exact fun i hi => absurd hi (Finset.notMem_empty i)
  simp only [load, Option.bind_eq_bind, Option.bind_eq_some_iff] at hload
  -- The next nodes are resolved before the default entry is set and the entries are added.
  obtain ⟨t₁, hdefault, hentries⟩ := hload
  have ht₁ : t₁.Wired cfg.nextTables := by
    cases hd : cfg.defaultEntry with
    | none =>
      rw [hd] at hdefault
      obtain rfl := Option.some.inj hdefault
      exact hnew
    | some e =>
      rw [hd] at hdefault
      simp only [Option.elim, setDefaultEntry] at hdefault
      split at hdefault
      · next u t₂ hs =>
        have hset := hnew.setDefaultAction hs
        obtain rfl := Option.some.inj hdefault
        exact ⟨hset.resolved, hset.miss_eq, hset.sound, hset.stored⟩
      · cases hdefault
  cases he : cfg.entries with
  | none =>
    rw [he] at hentries
    obtain rfl := Option.some.inj hentries
    exact ht₁
  | some entries =>
    rw [he] at hentries
    obtain ⟨t₂, hfold, heq⟩ := Option.bind_eq_some_iff.mp hentries
    obtain rfl := Option.some.inj heq
    have ht₂ := ht₁.foldlM_loadEntry entries hfold
    exact ⟨ht₂.resolved, ht₂.miss_eq, ht₂.sound, ht₂.stored⟩

end MatchTable

/-! ## Indirect tables -/

namespace MatchTableIndirect

variable {kb : KeyBuilder P K} {t t' : MatchTableIndirect σ K M} {ap ap' : ActionProfile}

/-- **What holds of an indirect table**: its node for a miss is the one loaded. -/
structure Wired (cfg : NextTables) (t : MatchTableIndirect σ K M) : Prop where
  resolved : Resolved cfg t.toMatchTableAbstract
  miss_eq : cfg.onMiss none = some t.nextNodeMiss

omit [LookupStructure σ K] [LiveLookup σ K] in
theorem Wired.of_nodes (h : t.Wired cfg) (heq : t'.nodes = t.nodes) : t'.Wired cfg :=
  ⟨(h.resolved.of_nodes heq).1,
    h.miss_eq.trans (congrArg some (h.resolved.of_nodes heq).2.symm)⟩

variable [Inhabited K]

omit [LiveLookup σ K] in
/-- No request to an indirect table sets a next node. -/
theorem step_nodes {r : IndirectRequest P} {res : Result (Reply P C)}
    (h : t.step kb ap r = some (res, t', ap')) : t'.nodes = t.nodes := by
  -- All that a request changes in the table itself is its match unit, or the default member.
  have hunit : ∀ {t' : MatchTableIndirect σ K M}, t' = { t with matchUnit := t'.matchUnit } →
      t'.nodes = t.nodes := by
    intro t' heq
    rw [heq]
    rfl
  let request : IndirectRequest P → TableRequest P C := .indirect
  cases r with
  | addEntry matchKey mbr priority now =>
    obtain ⟨⟨_, _, _⟩, hadd, heq⟩ := Option.map_eq_some_iff.mp h
    cases heq
    exact hunit (addEntry_effect (r := request (.addEntry matchKey mbr priority now)) hadd rfl).2
  | deleteEntry handle =>
    obtain ⟨⟨_, _, _⟩, hd, heq⟩ := Option.map_eq_some_iff.mp h
    cases heq
    rcases deleteEntry_eq_some hd with ⟨e, -, -, rfl, -⟩ | ⟨i, -, -, rfl, -⟩
    · rfl
    · rfl
  | modifyEntry handle mbr =>
    obtain ⟨⟨_, _, _⟩, hm, heq⟩ := Option.map_eq_some_iff.mp h
    cases heq
    have heffect : Effect kb t ap (request (.modifyEntry handle mbr)) _ _ _ ∧ _ :=
      modifyEntry_effect hm rfl
    exact hunit heffect.2
  | setDefaultMember mbr =>
    obtain ⟨⟨_, _⟩, hs, heq⟩ := Option.map_eq_some_iff.mp h
    cases heq
    rcases setDefaultMember_eq_some hs with ⟨-, rfl⟩ | ⟨-, -, rfl⟩
    · rfl
    · rfl
  | addEntryWs matchKey grp priority now =>
    simp only [step] at h
    -- Without a selector such a request is not answered.
    split_ifs at h with hws
    · obtain ⟨⟨_, _, _⟩, hadd, heq⟩ := Option.map_eq_some_iff.mp h
      cases heq
      exact hunit (addEntryWs_effect (r := request (.addEntryWs matchKey grp priority now)) hadd
        (if_pos hws)).2
    · cases h
      rfl
  | modifyEntryWs handle grp =>
    simp only [step] at h
    split_ifs at h with hws
    · obtain ⟨⟨_, _, _⟩, hm, heq⟩ := Option.map_eq_some_iff.mp h
      cases heq
      have heffect : Effect kb t ap (request (.modifyEntryWs handle grp)) _ _ _ ∧ _ :=
        modifyEntryWs_effect hm (if_pos hws)
      exact hunit heffect.2
    · cases h
      rfl
  | setDefaultGroup grp =>
    simp only [step] at h
    split_ifs at h with hws
    · obtain ⟨⟨_, _⟩, hs, heq⟩ := Option.map_eq_some_iff.mp h
      cases heq
      rcases setDefaultGroup_eq_some hs with ⟨-, rfl⟩ | ⟨-, -, rfl⟩
      · rfl
      · rfl
    · cases h
      rfl

omit [LiveLookup σ K] in
/-- **One request keeps an indirect table wired.** -/
theorem Wired.step [Meter M C] (h : t.Wired cfg) {r : TableRequest P C} {res : Result (Reply P C)}
    {tbl : Table σ K M} (hstep : (Table.indirect t).step kb ap r = some (res, tbl, ap')) :
    ∃ t', tbl = .indirect t' ∧ t'.Wired cfg := by
  cases r with
  | common r =>
    obtain ⟨entryMeta, directMeters, heq⟩ := t.toMatchTableAbstract.step_eq (P := P) r
    simp only [Table.step, Answer.ofTable, heq, Option.some.injEq, Prod.mk.injEq] at hstep
    exact ⟨_, hstep.2.1.symm, h.of_nodes rfl⟩
  | direct r =>
    cases hstep
    exact ⟨t, rfl, h⟩
  | indirect r =>
    obtain ⟨⟨_, t₁, _⟩, hr, heq⟩ := Option.map_eq_some_iff.mp hstep
    cases heq
    exact ⟨t₁, rfl, h.of_nodes (step_nodes hr)⟩
  | getEntry handle now =>
    simp only [Table.step] at hstep
    cases hg : t.matchUnit.getEntry kb handle with
    | error e =>
      simp only [hg] at hstep
      cases hstep
      exact ⟨t, rfl, h⟩
    | ok v =>
      simp only [hg] at hstep
      split at hstep
      · cases hstep
      · cases hstep
        exact ⟨t, rfl, h⟩
  | resetState =>
    cases hstep
    exact ⟨_, rfl, h.of_nodes rfl⟩
  | lookup key length now hash =>
    simp only [Table.step, Option.bind_eq_bind, Option.bind_eq_some_iff, Option.pure_def,
      Option.some.injEq, Prod.mk.injEq] at hstep
    obtain ⟨⟨hit, entry, t₁, ap₁⟩, hl, -, rfl, -⟩ := hstep
    obtain ⟨rfl, -⟩ := lookup_eq_some hl
    exact ⟨_, rfl, h.of_nodes rfl⟩

end MatchTableIndirect

/-! ## Packets on a wired table -/

variable [Meter M C]

/-- A direct table continues every packet with the node the program names. -/
theorem MatchTable.Wired.continues {t : MatchTable σ K M} (h : t.Wired cfg) (ap : ActionProfile)
    (key : ByteContainer) (length now hash : ℕ) :
    (Table.direct t).Continues cfg ap key length now hash := by
  have happly : ∃ tbl' ap', (Table.direct t).applyAction ap key length now hash =
      some ((t.lookup key length now).1, (t.lookup key length now).2.1,
        if (t.lookup key length now).1.isSome then (t.lookup key length now).2.1.nextNode
        else t.nextNodeMiss, tbl', ap') := ⟨_, _, rfl⟩
  obtain ⟨tbl', ap', happly⟩ := happly
  refine ⟨_, _, _, tbl', ap', happly, ?_⟩
  have hlookup : t.lookup key length now = ((t.matchUnit.lookup key length now).1.map Prod.fst,
    ((t.matchUnit.lookup key length now).1.map Prod.snd).getD t.defaultEntry,
    { t with matchUnit := (t.matchUnit.lookup key length now).2 }) := rfl
  rw [hlookup]
  cases hl : (t.matchUnit.lookup key length now).1 with
  | none =>
    simp only [Option.map_none, Option.getD_none, Option.isSome_none, Bool.false_eq_true, if_false,
      NextTables.configured, h.miss_eq]
  | some r =>
    obtain ⟨handle, entry⟩ := r
    obtain ⟨i, hi, hvalue, -⟩ := h.sound.exists_of_lookup hl
    have hstored := h.stored i hi
    rw [← hvalue] at hstored
    simp only [Option.map_some, Option.getD_some, Option.isSome_some, if_true,
      NextTables.configured, hstored]

/-- The member the packet follows exists, its action has a next node in the table,
and on a miss this is the node the table was loaded with for one. -/
def MatchTableIndirect.Follows (cfg : NextTables) (t : MatchTableIndirect σ K M)
    (ap : ActionProfile) (key : ByteContainer) (length now hash : ℕ) : Prop :=
  ∀ index ∈ t.indexOf (t.matchUnit.lookup key length now).1, ∃ mbr entry,
    ap.lookup hash index = some (mbr, entry) ∧ (cfg.onHit entry.getActionId).isSome ∧
      ((t.matchUnit.lookup key length now).1.isSome ∨
        cfg.onMiss entry.actionFn = cfg.onMiss none)

/-- The member a profile leads a packet to is in its table. -/
theorem lookup_lt_size {ap : ActionProfile} {hash mbr : ℕ} {index : IndirectIndex}
    {entry : ActionEntry} (h : ap.lookup hash index = some (mbr, entry)) :
    mbr < ap.actionEntries.size := by
  unfold ActionProfile.lookup at h
  split_ifs at h
  obtain ⟨m, -, h⟩ := Option.bind_eq_some_iff.mp h
  split_ifs at h
  obtain ⟨e, hat, heq⟩ := Option.bind_eq_some_iff.mp h
  obtain ⟨rfl, rfl⟩ := Prod.mk.inj (Option.some.inj heq)
  unfold Vec.at? at hat
  split_ifs at hat with hlt
  exact hlt

omit [LiveLookup σ K] in
/-- A packet that is led to a member. Whether it hits or not, the node found is that
for a hit. -/
theorem MatchTableIndirect.applyAction_eq {t : MatchTableIndirect σ K M} {ap : ActionProfile}
    {key : ByteContainer} {length now hash mbr : ℕ} {hit : Option (EntryHandle × IndirectIndex)}
    {u : MatchUnit σ K IndirectIndex} {index : IndirectIndex} {entry : ActionEntry}
    {nextNode : Option ℕ} (hl : t.matchUnit.lookup key length now = (hit, u))
    (hi : t.indexOf hit = some index) (hap : ap.lookup hash index = some (mbr, entry))
    (hnext : t.getNextNode entry.getActionId = some nextNode) :
    ∃ tbl' ap', (Table.indirect t).applyAction ap key length now hash =
      some (hit.map Prod.fst, { entry with nextNode := nextNode },
        if hit.isSome then nextNode else t.nextNodeMiss, tbl', ap') := by
  have hlt := lookup_lt_size hap
  have hsome : (hit.map Prod.fst).isSome = hit.isSome := Option.isSome_map
  simp only [Table.applyAction, MatchTableIndirect.lookup, hl, hi, hap, hnext, Vec.modify, hlt,
    if_true, Option.pure_def, Option.bind_eq_bind, Option.bind_some, hsome]
  exact ⟨_, _, rfl⟩

omit [LiveLookup σ K] in
/-- **What an indirect table continues a packet with** is what the program names
exactly if the packet follows so. -/
theorem MatchTableIndirect.Wired.continues_iff {t : MatchTableIndirect σ K M} (h : t.Wired cfg)
    (ap : ActionProfile) (key : ByteContainer) (length now hash : ℕ) :
    (Table.indirect t).Continues cfg ap key length now hash ↔
      t.Follows cfg ap key length now hash := by
  unfold MatchTableIndirect.Follows
  rcases hl : t.matchUnit.lookup key length now with ⟨hit, u⟩
  cases hi : t.indexOf hit with
  | none =>
    -- A miss, and no default.
    have hnone : hit = none := by
      cases hit with
      | none => rfl
      | some r => cases hi
    subst hnone
    have happly : ∃ tbl' ap', (Table.indirect t).applyAction ap key length now hash =
        some (none, {}, t.nextNodeMiss, tbl', ap') := by
      simp only [Table.applyAction, MatchTableIndirect.lookup, hl, hi, Option.pure_def,
        Option.bind_eq_bind, Option.bind_some, Option.isSome_none, Bool.false_eq_true, if_false]
      exact ⟨_, _, rfl⟩
    obtain ⟨tbl', ap', happly⟩ := happly
    exact iff_of_true ⟨none, {}, t.nextNodeMiss, tbl', ap', happly, h.miss_eq⟩
      fun index hindex => by cases hindex
  | some index =>
    cases hap : ap.lookup hash index with
    | none =>
      refine iff_of_false ?_ ?_
      · rintro ⟨hit', entry, nextNode, tbl, ap', happly, -⟩
        simp [Table.applyAction, MatchTableIndirect.lookup, hl, hi, hap] at happly
      · intro hall
        obtain ⟨mbr, entry, hsome, -⟩ := hall index rfl
        rw [hap] at hsome
        cases hsome
    | some r =>
      obtain ⟨mbr, entry⟩ := r
      cases hnext : t.getNextNode entry.getActionId with
      | none =>
        -- `next_nodes.at` throws.
        refine iff_of_false ?_ ?_
        · rintro ⟨hit', entry', nextNode, tbl, ap', happly, -⟩
          simp [Table.applyAction, MatchTableIndirect.lookup, hl, hi, hap, hnext] at happly
        · intro hall
          obtain ⟨mbr', entry', hsome, hnode, -⟩ := hall index rfl
          rw [hap] at hsome
          obtain ⟨rfl, rfl⟩ := Prod.mk.inj (Option.some.inj hsome)
          rw [← h.resolved.getNextNode_eq, hnext] at hnode
          cases hnode
      | some nextNode =>
        obtain ⟨tbl', ap', happly⟩ := MatchTableIndirect.applyAction_eq hl hi hap hnext
        have hnode : cfg.configured (hit.map Prod.fst) { entry with nextNode := nextNode } =
              some (if hit.isSome then nextNode else t.nextNodeMiss) ↔
            (hit.isSome ∨ cfg.onMiss entry.actionFn = cfg.onMiss none) := by
          cases hit with
          | none => simp [NextTables.configured, h.miss_eq]
          | some r =>
            have honHit : cfg.onHit entry.getActionId = some nextNode := by
              rw [← h.resolved.getNextNode_eq, hnext]
            exact iff_of_true honHit (.inl rfl)
        constructor
        · rintro ⟨hit', entry', nextNode', tbl, ap'', hcont, hconf⟩ index' hindex
          obtain rfl := Option.some.inj hindex
          simp only [happly, Option.some.injEq, Prod.mk.injEq] at hcont
          obtain ⟨rfl, rfl, rfl, -, -⟩ := hcont
          refine ⟨mbr, entry, hap, ?_, hnode.mp hconf⟩
          rw [← h.resolved.getNextNode_eq, hnext]
          rfl
        · intro hall
          obtain ⟨mbr', entry', hsome, -, hcond⟩ := hall index rfl
          rw [hap] at hsome
          obtain ⟨rfl, rfl⟩ := Prod.mk.inj (Option.some.inj hsome)
          exact ⟨_, _, _, tbl', ap', happly, hnode.mpr hcond⟩

end

/-! ## Runs -/

section

variable {σ P K M C : Type} [LookupStructure σ K] [LiveLookup σ K] [Inhabited K] [Meter M C]

/-- What holds of a table of either class. -/
def Table.Wired (cfg : NextTables) : Table σ K M → Prop
  | .direct t => t.Wired cfg
  | .indirect t => t.Wired cfg

omit [Meter M C] in
theorem Table.Loaded.wired {kb : KeyBuilder P K} {cfg : NextTables} {tbl : Table σ K M}
    (h : Table.Loaded kb cfg tbl) : tbl.Wired cfg := by
  cases h with
  | direct hls withCounters withAgeing withMeters directMeters now cfg hload =>
    exact MatchTable.wired_load hls hload
  | indirect size ls withCounters withAgeing withMeters directMeters withSelector cfg =>
    obtain ⟨hresolved, hmiss, -⟩ := resolveNextNodes_spec
      (.create size ls withCounters withAgeing withMeters directMeters :
        MatchTableAbstract σ K IndirectIndex M) cfg rfl rfl rfl
    exact ⟨hresolved, hmiss⟩

theorem Table.Wired.step {kb : KeyBuilder P K} {cfg : NextTables} {tbl tbl' : Table σ K M}
    (h : tbl.Wired cfg) {ap ap' : ActionProfile} {r : TableRequest P C} {res : Result (Reply P C)}
    (hstep : tbl.step kb ap r = some (res, tbl', ap')) : tbl'.Wired cfg := by
  cases tbl with
  | direct t =>
    obtain ⟨t', rfl, ht'⟩ := MatchTable.Wired.step h hstep
    exact ht'
  | indirect t =>
    obtain ⟨t', rfl, ht'⟩ := MatchTableIndirect.Wired.step h hstep
    exact ht'

theorem Table.Wired.resetState {cfg : NextTables} {tbl : Table σ K M} (h : tbl.Wired cfg) :
    tbl.resetState.Wired cfg := by
  cases tbl with
  | direct t =>
    exact MatchTable.Wired.withUnit (P := Unit)
      ⟨fun _ => true, fun _ _ => default, fun _ => (), fun _ => 0⟩ h .resetState
      (fun _ _ _ _ heq => by cases heq) fun _ _ heq => by cases heq
  | indirect t => exact MatchTableIndirect.Wired.of_nodes h rfl

/-- The packet follows what the program says: always, on a direct table. -/
def Table.Follows (cfg : NextTables) (tbl : Table σ K M) (ap : ActionProfile)
    (key : ByteContainer) (length now hash : ℕ) : Prop :=
  match tbl with
  | .direct _ => True
  | .indirect t => t.Follows cfg ap key length now hash

omit [Inhabited K] in
theorem Table.Wired.continues_iff {cfg : NextTables} {tbl : Table σ K M} (h : tbl.Wired cfg)
    (ap : ActionProfile) (key : ByteContainer) (length now hash : ℕ) :
    tbl.Continues cfg ap key length now hash ↔ tbl.Follows cfg ap key length now hash := by
  cases tbl with
  | direct t => exact iff_of_true (MatchTable.Wired.continues h ap key length now hash) trivial
  | indirect t => exact MatchTableIndirect.Wired.continues_iff h ap key length now hash

end

namespace Runtime

variable {ι P M C : Type} {σ K : ι → Type} [DecidableEq ι] [∀ t, LookupStructure (σ t) (K t)]
  [∀ t, LiveLookup (σ t) (K t)] [∀ t, Inhabited (K t)] [Meter M C]
  {kb : (t : ι) → KeyBuilder P (K t)} {cfg : ι → NextTables} {s s' : Runtime ι σ K M}

/-- One request to the runtime keeps all tables wired. -/
theorem wired_step (h : ∀ t, (s.tables t).Wired (cfg t)) {r : Request ι P C}
    {res : Result (Reply P C)} (hstep : s.step kb r = some (res, s')) :
    ∀ t, (s'.tables t).Wired (cfg t) := by
  cases r with
  | table t r =>
    obtain ⟨tbl, ap, ht, rfl⟩ := step_table_eq_some hstep
    intro t'
    by_cases heq : t' = t
    · subst heq
      simp only [Function.update_self]
      exact (h t').step ht
    · simp only [Function.update_of_ne heq]
      exact h t'
  | resetState =>
    cases hstep
    exact fun t => (h t).resetState
  | _ =>
    -- A request to the profile.
    obtain ⟨_, _, heq⟩ := Option.map_eq_some_iff.mp hstep
    cases heq
    exact h

theorem Run.wired {trace : List (Request ι P C × Result (Reply P C))} (hrun : Run kb s trace s')
    (h : ∀ t, (s.tables t).Wired (cfg t)) : ∀ t, (s'.tables t).Wired (cfg t) := by
  induction hrun with
  | nil s => exact h
  | cons hok hstep hrest ih => exact ih (wired_step h hstep)

/-- **Where packets go.** In every state that a loaded program reaches, a packet
is continued with the node the program names if and only if the table is direct,
or the member the packet follows exists and its action has a next node in the
table and, if it is followed as a default, the one the table was loaded with for
a miss. -/
theorem Run.continues_iff_follows (kb : (t : ι) → KeyBuilder P (K t)) (cfg : ι → NextTables)
    (s s' : Runtime ι σ K M) (hload : ∀ t, (s.tables t).Loaded (kb t) (cfg t))
    (trace : List (Request ι P C × Result (Reply P C))) (hrun : Run kb s trace s') (t : ι)
    (key : ByteContainer) (length now hash : ℕ) :
    (s'.tables t).Continues (cfg t) s'.profile key length now hash ↔
      (s'.tables t).Follows (cfg t) s'.profile key length now hash := by
  have hwired : ∀ t, (s'.tables t).Wired (cfg t) := hrun.wired fun t => (hload t).wired
  exact (hwired t).continues_iff s'.profile key length now hash

/-! ## A default with a node of its own, and an action of another table -/

/-- Action 1 goes on to node 9, action 3 and a miss without default to node 2. -/
def fallbackNodes : NextTables where
  nextNodes actionId :=
    if actionId = 1 then some (some 9) else if actionId = 3 then some (some 2) else none
  baseDefaultNext := some (some 2)

/-- Two tables on one profile: `fallbackNodes`, and one with action 5 alone. -/
def fallbackConfigs : Bool → NextTables
  | false => fallbackNodes
  | true => { nextNodes := fun actionId => if actionId = 5 then some none else none }

/-- The two tables over exact keys as loaded, and their profile. -/
def fallback : Runtime Bool (fun _ => ExactMap) (fun _ => ExactMatchKey) Unit where
  profile := .create false
  tables b := .indirect
    ⟨(MatchTableAbstract.create 4 ExactMap.create false false false
      fun _ => ()).resolveNextNodes (fallbackConfigs b), false, default, false⟩

theorem fallback_loaded (b : Bool) :
    (fallback.tables b).Loaded byteKeyBuilder (fallbackConfigs b) :=
  .indirect ..

/-- The default member runs action 1, after which the program goes to node 9:
the packet goes to node 2. And an entry leads to a member with the action of the
other table: the lookup throws. -/
theorem fallback_not_continues :
    (∃ s', Run (fun _ => byteKeyBuilder) fallback
        [(.addMember ⟨1, 0⟩ [], .ok (.member 0)),
          (.table false (.indirect (.setDefaultMember 0)), .ok .none)] s' ∧
      (∃ tbl' ap', (s'.tables false).applyAction s'.profile [7] 64 0 0 =
        some (none, ⟨some ⟨1, 0⟩, [], some 9⟩, some 2, tbl', ap')) ∧
      fallbackNodes.configured none ⟨some ⟨1, 0⟩, [], some 9⟩ = some (some 9) ∧
      ¬ (s'.tables false).Continues fallbackNodes s'.profile [7] 64 0 0) ∧
    ∃ s', Run (fun _ => byteKeyBuilder) fallback
        [(.addMember ⟨5, 0⟩ [], .ok (.member 0)),
          (.table false (.indirect (.addEntry [7] 0 0 0)), .ok (.handle 0))] s' ∧
      ¬ (s'.tables false).Continues fallbackNodes s'.profile [7] 64 0 0 := by
  refine ⟨⟨_, .cons trivial rfl (.cons trivial rfl (.nil _)), ⟨_, _, rfl⟩, rfl, ?_⟩,
    _, .cons trivial rfl (.cons trivial rfl (.nil _)), ?_⟩
  · rintro ⟨hit, entry, nextNode, tbl', ap', happly, hconf⟩
    have hresult := congrArg (Option.map fun r => (r.1, r.2.1, r.2.2.1)) happly
    have hnode : some (none, ⟨some ⟨1, 0⟩, [], some 9⟩, some 2) = some (hit, entry, nextNode) :=
      hresult
    simp only [Option.some.injEq, Prod.mk.injEq] at hnode
    obtain ⟨rfl, rfl, rfl⟩ := hnode
    revert hconf
    decide
  · rintro ⟨hit, entry, nextNode, tbl', ap', happly, -⟩
    have hresult := congrArg Option.isSome happly
    cases hresult

/-- With action 3 in the default member the two agree. -/
theorem fallback_continues :
    ∃ s', Run (fun _ => byteKeyBuilder) fallback
        [(.addMember ⟨3, 0⟩ [], .ok (.member 0)),
          (.table false (.indirect (.setDefaultMember 0)), .ok .none)] s' ∧
      (s'.tables false).Continues fallbackNodes s'.profile [7] 64 0 0 := by
  have hrun : Run (fun _ => byteKeyBuilder) fallback
      [(.addMember ⟨3, 0⟩ [], .ok (.member 0)),
        (.table false (.indirect (.setDefaultMember 0)), .ok .none)] _ :=
    .cons trivial rfl (.cons trivial rfl (.nil _))
  refine ⟨_, hrun, ?_⟩
  refine (Run.continues_iff_follows (fun _ => byteKeyBuilder) fallbackConfigs fallback _
    fallback_loaded _ hrun false [7] 64 0 0).mpr ?_
  intro index hindex
  obtain rfl : IndirectIndex.mbr 0 = index := Option.some.inj hindex
  exact ⟨0, ⟨some ⟨3, 0⟩, [], none⟩, rfl, rfl, .inr rfl⟩

end Runtime

end MatchTables

end P4Bricks
