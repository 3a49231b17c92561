import P4Bricks.ActionProfile.Model
/-!
# Match tables

`match_tables.cpp`, behind the requests of `context.cpp`: direct tables, whose
entries hold actions, and indirect tables with and without selector, whose
entries point into an action profile. A runtime is one profile with any number
of tables of any kinds, each over its own lookup structure.

As for profiles, `none` is a call that does not return. Direct meters are a
parameter: a table only passes rates and packets on to the meter of a slot.
The loader gives a table the next node of each of its actions: `next_nodes.at`
throws for any other action, such as one that a shared profile has from another
table.
-/

namespace P4Bricks

open Lookup MatchUnit

/-- What a table asks of a `Meter`: `set_rates` with its success, `get_rates`,
and `execute` on a packet of some length at some time. -/
class Meter (M : Type) (C : outParam Type) where
  setRates : M → C → Bool × M
  getRates : M → C
  execute : M → ℕ → ℕ → M

/-- For tables without meters. -/
instance : Meter Unit Unit := ⟨fun _ _ => (true, ()), fun _ => (), fun _ _ _ => ()⟩

namespace MatchTables

/-! ## What all tables share -/

/-- `MatchTableAbstract`. -/
structure MatchTableAbstract (σ K V M : Type) where
  matchUnit : MatchUnit σ K V
  withCounters : Bool
  withAgeing : Bool
  withMeters : Bool
  directMeters : ℕ → M
  /-- The node after each action of the table, `some none` for a `nullptr`. -/
  nextNodes : ℕ → Option (Option ℕ)
  hasNextNodeHit : Bool := false
  nextNodeHit : Option ℕ := none
  hasNextNodeMiss : Bool := false
  nextNodeMiss : Option ℕ := none

namespace MatchTableAbstract

variable {σ K V M C : Type}

def getNextNode (t : MatchTableAbstract σ K V M) (actionId : ℕ) : Option (Option ℕ) :=
  if t.hasNextNodeHit then some t.nextNodeHit else t.nextNodes actionId

def getNextNodeDefault (t : MatchTableAbstract σ K V M) (actionId : ℕ) : Option (Option ℕ) :=
  if t.hasNextNodeMiss then some t.nextNodeMiss else t.nextNodes actionId

/-- The checks of the operations on what belongs to an entry: that the feature
is on, and that the slot is live. The version of the handle is not read. -/
def checkSlot (t : MatchTableAbstract σ K V M) (enabled : Bool) (disabled : MatchErrorCode)
    (h : EntryHandle) : Result ℕ :=
  if !enabled then .error disabled
  else if !t.matchUnit.validHandle h then .error .invalidHandle
  else .ok (handleInternal h)

def queryCounters (t : MatchTableAbstract σ K V M) (h : EntryHandle) : Result (ℕ × ℕ) :=
  (t.checkSlot t.withCounters .countersDisabled h).map fun i =>
    ((t.matchUnit.entryMeta i).bytes, (t.matchUnit.entryMeta i).packets)

def writeCounters (t : MatchTableAbstract σ K V M) (h : EntryHandle) (bytes packets : ℕ) :
    Result Unit × MatchTableAbstract σ K V M :=
  match t.checkSlot t.withCounters .countersDisabled h with
  | .error e => (.error e, t)
  | .ok i =>
    (.ok (),
      { t with
        matchUnit.entryMeta := Function.update t.matchUnit.entryMeta i
          { t.matchUnit.entryMeta i with bytes := bytes, packets := packets } })

def resetCounters (t : MatchTableAbstract σ K V M) : Result Unit × MatchTableAbstract σ K V M :=
  if !t.withCounters then (.error .countersDisabled, t)
  else
    (.ok (),
      { t with
        matchUnit.entryMeta := fun i =>
          { t.matchUnit.entryMeta i with bytes := 0, packets := 0 } })

/-- A refusal by the meter may still have changed it. -/
def setMeterRates [Meter M C] (t : MatchTableAbstract σ K V M) (h : EntryHandle) (configs : C) :
    Result Unit × MatchTableAbstract σ K V M :=
  match t.checkSlot t.withMeters .metersDisabled h with
  | .error e => (.error e, t)
  | .ok i =>
    let r := Meter.setRates (t.directMeters i) configs
    (if r.1 then .ok () else .error .error,
      { t with directMeters := Function.update t.directMeters i r.2 })

def getMeterRates [Meter M C] (t : MatchTableAbstract σ K V M) (h : EntryHandle) : Result C :=
  (t.checkSlot t.withMeters .metersDisabled h).map fun i => Meter.getRates (t.directMeters i)

def setEntryTtl (t : MatchTableAbstract σ K V M) (h : EntryHandle) (ttlMs now : ℕ) :
    Result Unit × MatchTableAbstract σ K V M :=
  if !t.withAgeing then (.error .ageingDisabled, t)
  else
    let r := t.matchUnit.setEntryTtl h ttlMs now
    (r.1, { t with matchUnit := r.2 })

/-- A hit executes the meter of its entry. -/
def executeMeters [Meter M C] (t : MatchTableAbstract σ K V M) (hit : Option EntryHandle)
    (length now : ℕ) : MatchTableAbstract σ K V M :=
  { t with
    directMeters :=
      match hit with
      | none => t.directMeters
      | some h =>
        if t.withMeters then
          Function.update t.directMeters (handleInternal h)
            (Meter.execute (t.directMeters (handleInternal h)) length now)
        else t.directMeters }

/-- `set_entry_common_info`: the timeout and the time since the last hit. -/
def entryCommonInfo (t : MatchTableAbstract σ K V M) (h : EntryHandle) (now : ℕ) : ℕ × ℕ :=
  if t.withAgeing then
    ((t.matchUnit.entryMeta (handleInternal h)).timeoutMs,
      now - (t.matchUnit.entryMeta (handleInternal h)).ts)
  else (0, 0)

end MatchTableAbstract

/-! ## Direct tables -/

/-- `MatchTable`. -/
structure MatchTable (σ K M : Type) extends MatchTableAbstract σ K ActionEntry M where
  defaultEntry : ActionEntry := {}
  constDefaultAction : Option ActionFn := none
  constDefaultEntry : Bool := false
  immutableEntries : Bool := false

namespace MatchTable

variable {σ P K M C : Type} [LookupStructure σ K]

def addEntry (kb : KeyBuilder P K) (t : MatchTable σ K M) (matchKey : P) (fn : ActionFn)
    (data : List ℤ) (priority : ℤ) (now : ℕ) : Option (Result EntryHandle × MatchTable σ K M) :=
  if t.immutableEntries then some (.error .immutableTableEntries, t)
  else if data.length ≠ fn.numParams then some (.error .badActionData, t)
  else do
    let nextNode ← t.getNextNode fn.id
    let r := t.matchUnit.addEntry kb matchKey ⟨some fn, data, nextNode⟩ priority now
    return (r.1, { t with matchUnit := r.2 })

def deleteEntry (t : MatchTable σ K M) (h : EntryHandle) : Result Unit × MatchTable σ K M :=
  if t.immutableEntries then (.error .immutableTableEntries, t)
  else
    let r := t.matchUnit.deleteEntry h
    (r.1, { t with matchUnit := r.2 })

def modifyEntry (t : MatchTable σ K M) (h : EntryHandle) (fn : ActionFn) (data : List ℤ) :
    Option (Result Unit × MatchTable σ K M) :=
  if t.immutableEntries then some (.error .immutableTableEntries, t)
  else if data.length ≠ fn.numParams then some (.error .badActionData, t)
  else do
    let nextNode ← t.getNextNode fn.id
    let r := t.matchUnit.modifyEntry h ⟨some fn, data, nextNode⟩
    return (r.1, { t with matchUnit := r.2 })

def setDefaultAction (t : MatchTable σ K M) (fn : ActionFn) (data : List ℤ) :
    Option (Result Unit × MatchTable σ K M) :=
  if t.constDefaultEntry then some (.error .defaultEntryIsConst, t)
  else if t.constDefaultAction.isSome && t.constDefaultAction != some fn then
    some (.error .defaultActionIsConst, t)
  else if data.length ≠ fn.numParams then some (.error .badActionData, t)
  else do
    let nextNode ← t.getNextNodeDefault fn.id
    return (.ok (), { t with nextNodeMiss := nextNode, defaultEntry := ⟨some fn, data, nextNode⟩ })

/-- `lookup`, with the handle hit. -/
def lookup (t : MatchTable σ K M) (key : ByteContainer) (length now : ℕ) :
    Option EntryHandle × ActionEntry × MatchTable σ K M :=
  let r := t.matchUnit.lookup key length now
  (r.1.map Prod.fst, (r.1.map Prod.snd).getD t.defaultEntry, { t with matchUnit := r.2 })

end MatchTable

/-! ## Indirect tables -/

/-- `MatchTableIndirect`, and `MatchTableIndirectWS` if it has a selector. -/
structure MatchTableIndirect (σ K M : Type) extends MatchTableAbstract σ K IndirectIndex M where
  withSelector : Bool
  defaultIndex : IndirectIndex := default
  defaultSet : Bool := false

namespace MatchTableIndirect

variable {σ P K M C : Type} [LookupStructure σ K]

/-- The end of both additions: the index is counted, then the unit may refuse. -/
def addIndex (kb : KeyBuilder P K) (t : MatchTableIndirect σ K M) (ap : ActionProfile)
    (matchKey : P) (index : IndirectIndex) (priority : ℤ) (now : ℕ) :
    Option (Result EntryHandle × MatchTableIndirect σ K M × ActionProfile) := do
  let ap ← ap.refCountIncrease index
  let r := t.matchUnit.addEntry kb matchKey index priority now
  return (r.1, { t with matchUnit := r.2 }, ap)

def addEntry (kb : KeyBuilder P K) (t : MatchTableIndirect σ K M) (ap : ActionProfile)
    (matchKey : P) (mbr : ℕ) (priority : ℤ) (now : ℕ) :
    Option (Result EntryHandle × MatchTableIndirect σ K M × ActionProfile) :=
  if !ap.isValidMbr mbr then some (.error .invalidMbrHandle, t, ap)
  else do
    let index ← ActionProfile.makeMbrIndex mbr
    t.addIndex kb ap matchKey index priority now

def addEntryWs (kb : KeyBuilder P K) (t : MatchTableIndirect σ K M) (ap : ActionProfile)
    (matchKey : P) (grp : ℕ) (priority : ℤ) (now : ℕ) :
    Option (Result EntryHandle × MatchTableIndirect σ K M × ActionProfile) :=
  if !ap.isValidGrp grp then some (.error .invalidGrpHandle, t, ap)
  else do
    if ← ap.groupIsEmpty grp then return (.error .emptyGrp, t, ap)
    else
      let index ← ActionProfile.makeGrpIndex grp
      t.addIndex kb ap matchKey index priority now

def deleteEntry (t : MatchTableIndirect σ K M) (ap : ActionProfile) (h : EntryHandle) :
    Option (Result Unit × MatchTableIndirect σ K M × ActionProfile) :=
  match t.matchUnit.getValue h with
  | .error e => some (.error e, t, ap)
  | .ok index => do
    let ap ← ap.refCountDecrease index
    let r := t.matchUnit.deleteEntry h
    return (r.1, { t with matchUnit := r.2 }, ap)

/-- The end of both modifications. -/
def setIndex (t : MatchTableIndirect σ K M) (ap : ActionProfile) (h : EntryHandle)
    (index : IndirectIndex) :
    Option (Result Unit × MatchTableIndirect σ K M × ActionProfile) := do
  let ap ← ap.refCountIncrease index
  let r := t.matchUnit.modifyEntry h index
  return (r.1, { t with matchUnit := r.2 }, ap)

/-- The old index is uncounted before the new member is looked at. -/
def modifyEntry (t : MatchTableIndirect σ K M) (ap : ActionProfile) (h : EntryHandle)
    (mbr : ℕ) : Option (Result Unit × MatchTableIndirect σ K M × ActionProfile) :=
  match t.matchUnit.getValue h with
  | .error e => some (.error e, t, ap)
  | .ok index => do
    let ap ← ap.refCountDecrease index
    if !ap.isValidMbr mbr then return (.error .invalidMbrHandle, t, ap)
    else
      let index ← ActionProfile.makeMbrIndex mbr
      t.setIndex ap h index

def modifyEntryWs (t : MatchTableIndirect σ K M) (ap : ActionProfile) (h : EntryHandle)
    (grp : ℕ) : Option (Result Unit × MatchTableIndirect σ K M × ActionProfile) :=
  match t.matchUnit.getValue h with
  | .error e => some (.error e, t, ap)
  | .ok index => do
    let ap ← ap.refCountDecrease index
    if !ap.isValidGrp grp then return (.error .invalidGrpHandle, t, ap)
    else
      if ← ap.groupIsEmpty grp then return (.error .emptyGrp, t, ap)
      else
        let index ← ActionProfile.makeGrpIndex grp
        t.setIndex ap h index

/-- The default is not counted. -/
def setDefaultMember (t : MatchTableIndirect σ K M) (ap : ActionProfile) (mbr : ℕ) :
    Option (Result Unit × MatchTableIndirect σ K M) :=
  if !ap.isValidMbr mbr then some (.error .invalidMbrHandle, t)
  else do
    let index ← ActionProfile.makeMbrIndex mbr
    return (.ok (), { t with defaultIndex := index, defaultSet := true })

/-- The group may be empty. -/
def setDefaultGroup (t : MatchTableIndirect σ K M) (ap : ActionProfile) (grp : ℕ) :
    Option (Result Unit × MatchTableIndirect σ K M) :=
  if !ap.isValidGrp grp then some (.error .invalidGrpHandle, t)
  else do
    let index ← ActionProfile.makeGrpIndex grp
    return (.ok (), { t with defaultIndex := index, defaultSet := true })

/-- The index a packet follows, if any: the entry hit, or the default. -/
def indexOf (t : MatchTableIndirect σ K M) (hit : Option (EntryHandle × IndirectIndex)) :
    Option IndirectIndex :=
  match hit with
  | some (_, index) => some index
  | none => if t.defaultSet then some t.defaultIndex else none

/-- `lookup`: the next node is written into the member's entry. -/
def lookup (t : MatchTableIndirect σ K M) (ap : ActionProfile) (key : ByteContainer)
    (length now hash : ℕ) :
    Option (Option EntryHandle × ActionEntry × MatchTableIndirect σ K M × ActionProfile) := do
  let r := t.matchUnit.lookup key length now
  let t' := { t with matchUnit := r.2 }
  match t.indexOf r.1 with
  | none => return (none, {}, t', ap)
  | some index =>
    let (mbr, entry) ← ap.lookup hash index
    let nextNode ← t.getNextNode entry.getActionId
    let entry := { entry with nextNode := nextNode }
    let entries ← ap.actionEntries.modify mbr fun _ => entry
    return (r.1.map Prod.fst, entry, t', { ap with actionEntries := entries })

end MatchTableIndirect

/-! ## Requests -/

/-- A table of either class. -/
inductive Table (σ K M : Type) where
  | direct (t : MatchTable σ K M)
  | indirect (t : MatchTableIndirect σ K M)

/-- A request on what belongs to an entry, which every table answers alike. -/
inductive CommonRequest (C : Type) where
  | setEntryTtl (h : EntryHandle) (ttlMs now : ℕ)
  | queryCounters (h : EntryHandle)
  | writeCounters (h : EntryHandle) (bytes packets : ℕ)
  | resetCounters
  | setMeterRates (h : EntryHandle) (configs : C)
  | getMeterRates (h : EntryHandle)

/-- A request only direct tables answer. -/
inductive DirectRequest (P : Type) where
  | addEntry (matchKey : P) (fn : ActionFn) (data : List ℤ) (priority : ℤ) (now : ℕ)
  | deleteEntry (h : EntryHandle)
  | modifyEntry (h : EntryHandle) (fn : ActionFn) (data : List ℤ)
  | setDefaultAction (fn : ActionFn) (data : List ℤ)

/-- A request only indirect tables answer, the last three only with a selector. -/
inductive IndirectRequest (P : Type) where
  | addEntry (matchKey : P) (mbr : ℕ) (priority : ℤ) (now : ℕ)
  | deleteEntry (h : EntryHandle)
  | modifyEntry (h : EntryHandle) (mbr : ℕ)
  | setDefaultMember (mbr : ℕ)
  | addEntryWs (matchKey : P) (grp : ℕ) (priority : ℤ) (now : ℕ)
  | modifyEntryWs (h : EntryHandle) (grp : ℕ)
  | setDefaultGroup (grp : ℕ)

/-- A request on one table, or a packet. -/
inductive TableRequest (P C : Type) where
  | common (r : CommonRequest C)
  | direct (r : DirectRequest P)
  | indirect (r : IndirectRequest P)
  | getEntry (h : EntryHandle) (now : ℕ)
  | resetState
  | lookup (key : ByteContainer) (length now hash : ℕ)

/-- What a request returns beside `SUCCESS`. -/
inductive Reply (P C : Type) where
  | none
  | handle (h : EntryHandle)
  | member (mbr : ℕ)
  | group (grp : ℕ)
  | counters (bytes packets : ℕ)
  | rates (configs : C)
  | actionEntry (matchKey : P) (entry : ActionEntry) (priority : ℤ) (info : ℕ × ℕ)
  | indexEntry (matchKey : P) (index : IndirectIndex) (priority : ℤ) (info : ℕ × ℕ)
  | action (hit : Option EntryHandle) (entry : ActionEntry)

/-- What a call leaves behind. -/
abbrev Answer (P C S : Type) := Result (Reply P C) × S

/-- A call on the table alone. -/
def Answer.ofTable {P C T S α : Type} (reply : α → Reply P C) (wrap : T → S)
    (r : Result α × T) : Answer P C S :=
  (r.1.map reply, wrap r.2)

section

variable {σ P K V M C : Type} [LookupStructure σ K] [Inhabited K] [Meter M C]

def MatchTableAbstract.step (t : MatchTableAbstract σ K V M) :
    CommonRequest C → Answer P C (MatchTableAbstract σ K V M)
  | .setEntryTtl h ttlMs now => .ofTable (fun _ => .none) id (t.setEntryTtl h ttlMs now)
  | .queryCounters h => ((t.queryCounters h).map fun c => .counters c.1 c.2, t)
  | .writeCounters h bytes packets =>
    .ofTable (fun _ => .none) id (t.writeCounters h bytes packets)
  | .resetCounters => .ofTable (fun _ => .none) id t.resetCounters
  | .setMeterRates h configs => .ofTable (fun _ => .none) id (t.setMeterRates h configs)
  | .getMeterRates h => ((t.getMeterRates h).map .rates, t)

def MatchTable.step (kb : KeyBuilder P K) (t : MatchTable σ K M) :
    DirectRequest P → Option (Answer P C (MatchTable σ K M))
  | .addEntry matchKey fn data priority now =>
    (t.addEntry kb matchKey fn data priority now).map (.ofTable .handle id)
  | .deleteEntry h => some (.ofTable (fun _ => .none) id (t.deleteEntry h))
  | .modifyEntry h fn data => (t.modifyEntry h fn data).map (.ofTable (fun _ => .none) id)
  | .setDefaultAction fn data => (t.setDefaultAction fn data).map (.ofTable (fun _ => .none) id)

def MatchTableIndirect.step (kb : KeyBuilder P K) (t : MatchTableIndirect σ K M)
    (ap : ActionProfile) :
    IndirectRequest P → Option (Answer P C (MatchTableIndirect σ K M × ActionProfile))
  | .addEntry matchKey mbr priority now =>
    (t.addEntry kb ap matchKey mbr priority now).map (.ofTable .handle id)
  | .deleteEntry h => (t.deleteEntry ap h).map (.ofTable (fun _ => .none) id)
  | .modifyEntry h mbr => (t.modifyEntry ap h mbr).map (.ofTable (fun _ => .none) id)
  | .setDefaultMember mbr =>
    (t.setDefaultMember ap mbr).map (.ofTable (fun _ => .none) (·, ap))
  | .addEntryWs matchKey grp priority now =>
    if t.withSelector then
      (t.addEntryWs kb ap matchKey grp priority now).map (.ofTable .handle id)
    else some (.error .wrongTableType, t, ap)
  | .modifyEntryWs h grp =>
    if t.withSelector then (t.modifyEntryWs ap h grp).map (.ofTable (fun _ => .none) id)
    else some (.error .wrongTableType, t, ap)
  | .setDefaultGroup grp =>
    if t.withSelector then
      (t.setDefaultGroup ap grp).map (.ofTable (fun _ => .none) (·, ap))
    else some (.error .wrongTableType, t, ap)

/-- `reset_state`: the default stays. -/
def Table.resetState : Table σ K M → Table σ K M
  | .direct t => .direct { t with matchUnit := t.matchUnit.resetState }
  | .indirect t => .indirect { t with matchUnit := t.matchUnit.resetState }

/-- A call on a table. -/
def Table.step (kb : KeyBuilder P K) (ap : ActionProfile) :
    Table σ K M → TableRequest P C → Option (Answer P C (Table σ K M × ActionProfile))
  | .direct t, .common r =>
    some (.ofTable id (fun t' => (.direct { t with toMatchTableAbstract := t' }, ap))
      (t.toMatchTableAbstract.step r))
  | .indirect t, .common r =>
    some (.ofTable id (fun t' => (.indirect { t with toMatchTableAbstract := t' }, ap))
      (t.toMatchTableAbstract.step r))
  | .direct t, .direct r => (t.step kb r).map (.ofTable id fun t' => (.direct t', ap))
  | .indirect t, .indirect r => (t.step kb ap r).map (.ofTable id fun s => (.indirect s.1, s.2))
  | .direct t, .indirect _ => some (.error .wrongTableType, .direct t, ap)
  | .indirect t, .direct _ => some (.error .wrongTableType, .indirect t, ap)
  | .direct t, .getEntry h now =>
    some ((t.matchUnit.getEntry kb h).map fun e =>
      .actionEntry e.1 e.2.1 e.2.2 (t.entryCommonInfo h now), .direct t, ap)
  | .indirect t, .getEntry h now =>
    match t.matchUnit.getEntry kb h with
    | .error e => some (.error e, .indirect t, ap)
    | .ok (matchKey, index, priority) =>
      -- Without a selector, `assert(index->is_mbr())`.
      match t.withSelector, index with
      | false, .grp _ => none
      | _, _ =>
        some (.ok (.indexEntry matchKey index priority (t.entryCommonInfo h now)), .indirect t, ap)
  | t, .resetState => some (.ok .none, t.resetState, ap)
  | .direct t, .lookup key length now _ =>
    let (hit, entry, t) := t.lookup key length now
    some (.ok (.action hit entry),
      .direct { t with toMatchTableAbstract := t.executeMeters hit length now }, ap)
  | .indirect t, .lookup key length now hash => do
    let (hit, entry, t, ap) ← t.lookup ap key length now hash
    return (.ok (.action hit entry),
      .indirect { t with toMatchTableAbstract := t.executeMeters hit length now }, ap)

end

/-! ## The runtime -/

/-- A profile and the tables of the program. -/
structure Runtime (ι : Type) (σ K : ι → Type) (M : Type) where
  profile : ActionProfile
  tables : (t : ι) → Table (σ t) (K t) M

/-- A request on the profile, on a table, or on all of them. -/
inductive Request (ι P C : Type) where
  | addMember (fn : ActionFn) (data : List ℤ)
  | deleteMember (mbr : ℕ)
  | modifyMember (mbr : ℕ) (fn : ActionFn) (data : List ℤ)
  | createGroup
  | deleteGroup (grp : ℕ)
  | addMemberToGroup (mbr grp : ℕ)
  | removeMemberFromGroup (mbr grp : ℕ)
  | table (t : ι) (r : TableRequest P C)
  | resetState

namespace Runtime

variable {ι P M C : Type} {σ K : ι → Type} [DecidableEq ι] [∀ t, LookupStructure (σ t) (K t)]
  [∀ t, Inhabited (K t)] [Meter M C]

/-- One request. -/
def step (kb : (t : ι) → KeyBuilder P (K t)) (s : Runtime ι σ K M) :
    Request ι P C → Option (Answer P C (Runtime ι σ K M))
  | .addMember fn data => (s.profile.addMember fn data).map (.ofTable .member ({ s with profile := · }))
  | .deleteMember mbr =>
    (s.profile.deleteMember mbr).map (.ofTable (fun _ => .none) ({ s with profile := · }))
  | .modifyMember mbr fn data =>
    (s.profile.modifyMember mbr fn data).map (.ofTable (fun _ => .none) ({ s with profile := · }))
  | .createGroup => s.profile.createGroup.map (.ofTable .group ({ s with profile := · }))
  | .deleteGroup grp =>
    (s.profile.deleteGroup grp).map (.ofTable (fun _ => .none) ({ s with profile := · }))
  | .addMemberToGroup mbr grp =>
    (s.profile.addMemberToGroup mbr grp).map (.ofTable (fun _ => .none) ({ s with profile := · }))
  | .removeMemberFromGroup mbr grp =>
    (s.profile.removeMemberFromGroup mbr grp).map
      (.ofTable (fun _ => .none) ({ s with profile := · }))
  | .table t r =>
    ((s.tables t).step (kb t) s.profile r).map
      (.ofTable id fun s' => ⟨s'.2, Function.update s.tables t s'.1⟩)
  | .resetState =>
    some (.ok .none, ⟨s.profile.resetState, fun t => (s.tables t).resetState⟩)

/-- A run of requests, each with its answer, and each met by the state it
is made in. -/
inductive RunIf (kb : (t : ι) → KeyBuilder P (K t))
    (ok : Runtime ι σ K M → Request ι P C → Prop) :
    Runtime ι σ K M → List (Request ι P C × Result (Reply P C)) → Runtime ι σ K M → Prop where
  | nil (s) : RunIf kb ok s [] s
  | cons {s s' s'' r res trace} (hok : ok s r) (hstep : s.step kb r = some (res, s'))
      (hrun : RunIf kb ok s' trace s'') : RunIf kb ok s ((r, res) :: trace) s''

/-- Any run. -/
abbrev Run (kb : (t : ι) → KeyBuilder P (K t)) :
    Runtime ι σ K M → List (Request ι P C × Result (Reply P C)) → Runtime ι σ K M → Prop :=
  RunIf kb fun _ _ => True

end Runtime

end MatchTables

end P4Bricks
