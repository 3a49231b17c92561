import P4Bricks.Common.Numerals
import P4Bricks.MatchTables.Model
/-!
# State dumps

`serialize` and `deserialize` of the match units, the tables, the action
profiles, the meters and the contexts, and of `switch.cpp`, which puts the
format's version and the MD5 sum of the configuration in front.

A dump is text. Numbers, names, keys and data are inserted with a line break
behind each, and formatted extraction reads them back. The lists of the tables
and of the other objects are in the order of a walk through their map, which is
the same for the maps of two switches with one configuration.
-/

namespace P4Bricks

open Extraction Lookup MatchUnit MatchTables

namespace Serialization

/-! ## Numbers and names -/

/-- `out << z << "\n"`, of an integer. -/
def putInt (z : ℤ) : Writer := .put (decimal z)

/-- `in >> z`, of a signed integer. -/
def int : Reader ℤ := .read number fun t => .done (ofDecimal t)

/-- `in >> n`, of an unsigned one. What is written there is in its range. -/
def natural : Reader ℕ := .read number fun t => .done (ofDecimal t).toNat

/-- `in >> b`, of a truth value. -/
def bool : Reader Bool := .read number fun t =>
  if t = [48] then .done false else if t = [49] then .done true else .abort

def string : Reader Text := .read word .done

/-- What is looked up in `P4Objects`. The names of the control flow nodes are what
the program calls them. -/
structure Objects where
  nodeName : ℕ → Text
  getControlNode : Text → Option ℕ
  getActionById : ℤ → Option ActionFn

/-- `"__NULL__"`. -/
def nullName : Text := [95, 95, 78, 85, 76, 76, 95, 95]

variable (objs : Objects)

/-- The name of a node, if there is one. -/
def nodeText : Option ℕ → Text
  | none => nullName
  | some n => objs.nodeName n

/-- The node of a name that is read. What there was stays if there is none. -/
def node (old : Option ℕ) : Reader (Option ℕ) := .read word fun name =>
  if name = nullName then .done old
  else match objs.getControlNode name with
    | none => .abort
    | some n => .done (some n)

/-! ## Action entries -/

/-- `out << std::hex << d << "\n"`, which refuses negative numbers. -/
def putData (d : ℤ) : Writer := .guarded (0 ≤ d) (.put (numeral 16 d.toNat))

/-- `Data(hexstring)`. -/
def dataOf : Text → Option ℤ
  | 45 :: t => (ofHex t).map fun bytes => -bytesVal bytes
  | t => (ofHex t).map fun bytes => bytesVal bytes

def data : Reader ℤ := .read word fun t =>
  match dataOf t with
  | none => .abort
  | some d => .done d

/-- `ActionFnEntry::serialize`. -/
def ActionFnEntry.serialize (e : ActionEntry) : Writer :=
  match e.actionFn with
  | none => putInt (-1)
  | some fn => putInt fn.id ++ (putInt e.actionData.length ++ .all putData e.actionData)

/-- `ActionFnEntry::deserialize`: the data go behind those that are there. -/
def ActionFnEntry.deserialize (e : ActionEntry) : Reader ActionEntry := do
  let id ← int
  if id = -1 then pure { e with actionFn := none }
  else
    match objs.getActionById id with
    | none => .abort
    | some fn => do
      let n ← natural
      let e := { e with actionFn := some fn }
      Reader.iterate (fun e => do
        let d ← data
        pure { e with actionData := e.actionData ++ [d] }) n e

/-- `ActionEntry::serialize`. -/
def ActionEntry.serialize (e : ActionEntry) : Writer :=
  ActionFnEntry.serialize e ++ .put (nodeText objs e.nextNode)

/-- `ActionEntry::deserialize`. -/
def ActionEntry.deserialize (e : ActionEntry) : Reader ActionEntry := do
  let e ← ActionFnEntry.deserialize objs e
  let nextNode ← node objs e.nextNode
  pure { e with nextNode := nextNode }

/-! ## Match units -/

/-- `ByteContainer(hexstring)`. -/
def hexString : Reader ByteContainer := .read word fun t =>
  match ofHex t with
  | none => .abort
  | some bytes => .done bytes

/-- How a kind of key is written, `serialize_key`, and read. -/
class KeyFormat (K : Type) where
  data : K → ByteContainer
  /-- What follows the data. -/
  extra : K → Writer
  /-- The key of these data. -/
  read : ByteContainer → Reader K

instance : KeyFormat ExactMatchKey where
  data := ExactMatchKey.data
  extra _ := .empty
  read bytes := pure { data := bytes }

instance : KeyFormat LPMMatchKey where
  data := LPMMatchKey.data
  extra k := putInt k.prefixLength
  read bytes := do
    let prefixLength ← natural
    pure { data := bytes, prefixLength := prefixLength }

instance : KeyFormat TernaryMatchKey where
  data := TernaryMatchKey.data
  extra k := .put (toHex k.mask) ++ putInt k.priority
  read bytes := do
    let mask ← hexString
    let priority ← int
    pure { data := bytes, mask := mask, priority := priority }

/-- Also of range keys, whose widths are not written. -/
instance : KeyFormat RangeMatchKey where
  data k := k.data
  extra k := .put (toHex k.mask) ++ putInt k.priority
  read bytes := do
    let k : TernaryMatchKey ← KeyFormat.read bytes
    pure { toTernaryMatchKey := k }

/-- What a kind of value is written as, and read over an entry as the constructor
leaves it. -/
structure ValueFormat (V : Type) where
  serialize : V → Writer
  deserialize : Reader V

section

variable {σ K V : Type} [LookupStructure σ K] [KeyFormat K] (fmt : ValueFormat V)

/-- The live slots, in the order of a walk through them. -/
def sortedHandles (handles : Finset ℕ) : List ℕ := handles.sort (· ≤ ·)

/-- One round of `serialize_`. -/
def serializeEntry (u : MatchUnit σ K V) (handle : ℕ) : Writer :=
  let entry := u.entries handle
  let entryMeta := u.entryMeta handle
  putInt handle ++ (putInt entry.version ++ (.put (toHex (KeyFormat.data entry.key)) ++
    (KeyFormat.extra entry.key ++ (fmt.serialize entry.value ++
      .guarded (entryMeta.version = entry.version) (putInt entryMeta.timeoutMs)))))

/-- `MatchUnitGeneric::serialize_`, without the direct meters. -/
def serializeUnit (u : MatchUnit σ K V) : Writer :=
  putInt u.numEntries ++ .all (serializeEntry fmt u) (sortedHandles u.handles)

/-- One round of `deserialize_`: `set_handle` fails if there is an entry. -/
def deserializeEntry (now : ℕ) (u : MatchUnit σ K V) : Reader (MatchUnit σ K V) := do
  let handle ← natural
  if handle ∉ u.handles then do
    let version ← natural
    let bytes ← hexString
    let key ← KeyFormat.read bytes
    let value ← fmt.deserialize
    if handle < u.size then do
      let timeoutMs ← natural
      pure { u with
        handles := insert handle u.handles
        entries := Function.update u.entries handle ⟨key, version, value⟩
        lookupStructure := LookupStructure.addEntry u.lookupStructure key handle
        entryMeta := Function.update u.entryMeta handle
          { ts := now, timeoutMs := timeoutMs, version := version } }
    else .abort
  else .abort

/-- `MatchUnitGeneric::deserialize_`, without the direct meters. -/
def deserializeUnit (now : ℕ) (u : MatchUnit σ K V) : Reader (MatchUnit σ K V) := do
  let n ← natural
  Reader.iterate (deserializeEntry fmt now) n { u with numEntries := n }

end

/-! ## Meters -/

/-- The information rate of a meter, a `double`: the text it is written as, the
extraction that reads a `double`, and the number this gives. -/
class Rate (R : Type) where
  write : R → Text
  format : Format
  read : Text → R

/-- `Meter::MeterRate`. -/
structure MeterRate (R : Type) where
  valid : Bool
  infoRate : R
  burstSize : ℕ
  tokens : ℕ
  tokensLast : ℕ
  color : ℕ
  deriving DecidableEq, Repr

/-- `Meter`. -/
structure Meter (R : Type) where
  rates : List (MeterRate R)
  configured : Bool
  deriving DecidableEq, Repr

section

variable {R : Type} [Rate R]

/-- `set_rate`, whose result is not looked at here. -/
def Meter.setRate (m : Meter R) (idx : ℕ) (infoRate : R) (burstSize : ℕ) : Meter R :=
  { m with
    rates := m.rates.modify idx fun _ =>
      { valid := true, infoRate := infoRate, burstSize := burstSize, tokens := burstSize,
        tokensLast := 0, color := idx + 1 } }

def putBool (b : Bool) : Writer := .put (if b then [49] else [48])

/-- `out << rate.info_rate << " " << rate.burst_size << "\n"`. -/
def MeterRate.serialize (rate : MeterRate R) : Writer :=
  .item ⟨Rate.write rate.infoRate, 32, by decide⟩ ++ putInt rate.burstSize

/-- `Meter::serialize`. -/
def Meter.serialize (m : Meter R) : Writer :=
  putBool m.configured ++ if m.configured then .all MeterRate.serialize m.rates else .empty

/-- One round of `Meter::deserialize`. -/
def Meter.deserializeRate (s : ℕ × Meter R) : Reader (ℕ × Meter R) := do
  let infoRate ← .read (Rate.format R) fun t => .done (Rate.read t)
  let burstSize ← natural
  pure (s.1 + 1, s.2.setRate s.1 infoRate burstSize)

/-- `Meter::deserialize`. -/
def Meter.deserialize (m : Meter R) : Reader (Meter R) := do
  let configured ← bool
  let m := { m with configured := configured }
  if configured then do
    let s ← Reader.iterate Meter.deserializeRate m.rates.length (0, m)
    pure s.2
  else pure m

/-! ## Tables -/

/-- The number that `IndirectIndex` keeps: the kind is in the top byte. -/
def indexOf : IndirectIndex → ℕ
  | .mbr m => m
  | .grp g => 2 ^ 24 + g

def ofIndex (n : ℕ) : IndirectIndex :=
  if n / 2 ^ 24 = 1 then .grp (n % 2 ^ 24) else .mbr (n % 2 ^ 24)

def index : Reader IndirectIndex := do
  let n ← natural
  pure (ofIndex n)

/-- The values of direct tables, and those of indirect ones. -/
def actionFormat : ValueFormat ActionEntry := ⟨ActionEntry.serialize objs, ActionEntry.deserialize objs {}⟩

def indexFormat : ValueFormat IndirectIndex := ⟨fun i => putInt (indexOf i), index⟩

variable {σ K V : Type} [LookupStructure σ K] [KeyFormat K]

/-- The meters of a table's entries, if it has any. -/
def serializeMeters (t : MatchTableAbstract σ K V (Meter R)) : Writer :=
  if t.withMeters then .all (fun i => (t.directMeters i).serialize) (List.range t.matchUnit.size)
  else .empty

def deserializeMeters (t : MatchTableAbstract σ K V (Meter R)) :
    Reader (MatchTableAbstract σ K V (Meter R)) :=
  if t.withMeters then do
    let meters ← Reader.each (fun i => (t.directMeters i).deserialize) (List.range t.matchUnit.size)
    pure { t with directMeters := fun i => (meters[i]?).getD (t.directMeters i) }
  else pure t

/-- `MatchTableAbstract::serialize`, with the match unit's part. -/
def serializeAbstract (fmt : ValueFormat V) (name : Text) (t : MatchTableAbstract σ K V (Meter R)) :
    Writer :=
  .put name ++ (.put (nodeText objs t.nextNodeMiss) ++
    (serializeUnit fmt t.matchUnit ++ serializeMeters t))

/-- `MatchTableAbstract::deserialize`, with the match unit's part. -/
def deserializeAbstract (fmt : ValueFormat V) (now : ℕ) (name : Text)
    (t : MatchTableAbstract σ K V (Meter R)) : Reader (MatchTableAbstract σ K V (Meter R)) := do
  let sentinel ← string
  if sentinel = name then do
    let nextNodeMiss ← node objs t.nextNodeMiss
    let matchUnit ← deserializeUnit fmt now t.matchUnit
    deserializeMeters { t with nextNodeMiss := nextNodeMiss, matchUnit := matchUnit }
  else .abort

/-- `serialize` of a table of either class. -/
def Table.serialize (name : Text) : Table σ K (Meter R) → Writer
  | .direct t =>
    serializeAbstract objs (actionFormat objs) name t.toMatchTableAbstract ++
      ActionEntry.serialize objs t.defaultEntry
  | .indirect t =>
    serializeAbstract objs indexFormat name t.toMatchTableAbstract ++
      (putBool t.defaultSet ++ if t.defaultSet then putInt (indexOf t.defaultIndex) else .empty)

/-- `deserialize` of a table of either class. -/
def Table.deserialize (now : ℕ) (name : Text) : Table σ K (Meter R) → Reader (Table σ K (Meter R))
  | .direct t => do
    let t' ← deserializeAbstract objs (actionFormat objs) now name t.toMatchTableAbstract
    let defaultEntry ← ActionEntry.deserialize objs t.defaultEntry
    pure (.direct { t with toMatchTableAbstract := t', defaultEntry := defaultEntry })
  | .indirect t => do
    let t' ← deserializeAbstract objs indexFormat now name t.toMatchTableAbstract
    let defaultSet ← bool
    if defaultSet then do
      let defaultIndex ← index
      pure (.indirect
        { t with toMatchTableAbstract := t', defaultSet := true, defaultIndex := defaultIndex })
    else pure (.indirect { t with toMatchTableAbstract := t', defaultSet := false })

end

/-! ## Action profiles -/

/-- The elements of a vector. -/
def Vec.toList {α : Type*} (v : Vec α) : List α := (List.range v.size).map v.get

def Vec.ofList {α : Type*} [Inhabited α] (l : List α) : Vec α := ⟨l.length, fun i => l.getD i default⟩

/-- `resize`. -/
def Vec.resize {α : Type*} [Inhabited α] (v : Vec α) (n : ℕ) : Vec α :=
  ⟨n, fun i => if i < v.size then v.get i else default⟩

/-- One of the vectors of `IndirectIndexRefCount`. -/
def serializeCounts (v : Vec ℕ) : Writer := putInt v.size ++ .all (fun c : ℕ => putInt c) (Vec.toList v)

def deserializeCounts : Reader (Vec ℕ) := do
  let n ← natural
  let counts ← Reader.iterate (fun l => do
    let c ← natural
    pure (l ++ [c])) n []
  pure (Vec.ofList counts)

/-- `GroupInfo::serialize`. -/
def serializeGroup (g : Finset ℕ) : Writer :=
  putInt (sortedHandles g).length ++ .all (fun m : ℕ => putInt m) (sortedHandles g)

/-- `GroupInfo::deserialize`. -/
def deserializeGroup (g : Finset ℕ) : Reader (Finset ℕ) := do
  let n ← natural
  Reader.iterate (fun g => do
    let mbr ← natural
    pure (insert mbr g)) n g

/-- `ActionProfile::serialize`. -/
def ActionProfile.serialize (ap : ActionProfile) : Writer :=
  putInt ap.actionEntries.size ++ (putInt ap.numMembers ++
    (.all (fun h : ℕ => putInt h ++ .guarded (h < ap.actionEntries.size)
      (ActionEntry.serialize objs (ap.actionEntries.get h))) (sortedHandles ap.mbrHandles) ++
    (serializeCounts ap.mbrCount ++ (serializeCounts ap.grpCount ++
    (putInt ap.numGroups ++
      .all (fun h : ℕ => putInt h ++ .guarded (h < ap.groups.size) (serializeGroup (ap.groups.get h)))
        (sortedHandles ap.grpHandles))))))

/-- One member of `ActionProfile::deserialize`. -/
def deserializeMember (ap : ActionProfile) : Reader ActionProfile := do
  let h ← natural
  if h ∉ ap.mbrHandles ∧ h < ap.actionEntries.size then do
    let entry ← ActionEntry.deserialize objs (ap.actionEntries.get h)
    pure { ap with
      mbrHandles := insert h ap.mbrHandles
      actionEntries := ⟨ap.actionEntries.size, Function.update ap.actionEntries.get h entry⟩ }
  else .abort

/-- One group of it: `insert_group` appends at most one. -/
def deserializeGroupOf (ap : ActionProfile) : Reader ActionProfile := do
  let h ← natural
  if h ∉ ap.grpHandles ∧ h ≤ ap.groups.size then do
    let g ← deserializeGroup ∅
    pure { ap with
      grpHandles := insert h ap.grpHandles
      groups := ⟨max ap.groups.size (h + 1), Function.update ap.groups.get h g⟩ }
  else .abort

/-- `ActionProfile::deserialize`. -/
def ActionProfile.deserialize (ap : ActionProfile) : Reader ActionProfile := do
  let size ← natural
  let numMembers ← natural
  let ap ← Reader.iterate (deserializeMember objs) numMembers
    { ap with actionEntries := Vec.resize ap.actionEntries size, numMembers := numMembers }
  let mbrCount ← deserializeCounts
  let grpCount ← deserializeCounts
  let numGroups ← natural
  Reader.iterate deserializeGroupOf numGroups
    { ap with mbrCount := mbrCount, grpCount := grpCount, numGroups := numGroups }

/-! ## Contexts -/

/-- What a configuration says of a context: its objects, its tables in the order of
the walk through their map, and their names. -/
structure Program (ι : Type) where
  objs : Objects
  tables : List ι
  nodup : tables.Nodup
  tableName : ι → Text

/-- The state of a context, as far as it is dumped. -/
structure Context (ι : Type) (σ K : ι → Type) (R : Type) where
  tables : (t : ι) → Table (σ t) (K t) (Meter R)
  actionProfiles : List ActionProfile
  meterArrays : List (List (Meter R))

section

variable {ι R : Type} {σ K : ι → Type} [DecidableEq ι] [∀ t, LookupStructure (σ t) (K t)]
  [∀ t, KeyFormat (K t)] [Rate R]

/-- `P4Objects::serialize`. -/
def Context.serialize (p : Program ι) (c : Context ι σ K R) : Writer :=
  .all (fun t => Table.serialize p.objs (p.tableName t) (c.tables t)) p.tables ++
    (.all (ActionProfile.serialize p.objs) c.actionProfiles ++
      .all (.all Meter.serialize) c.meterArrays)

/-- `P4Objects::deserialize`. -/
def Context.deserialize (p : Program ι) (now : ℕ) (c : Context ι σ K R) :
    Reader (Context ι σ K R) := do
  let tables ← Reader.fold (fun t tables => do
    let table ← Table.deserialize p.objs now (p.tableName t) (tables t)
    pure (Function.update tables t table)) p.tables c.tables
  let profiles ← Reader.each (ActionProfile.deserialize p.objs) c.actionProfiles
  let meters ← Reader.each (Reader.each Meter.deserialize) c.meterArrays
  pure ⟨tables, profiles, meters⟩

/-! ## The switch -/

/-- `serialization_format_version_str`. -/
def versionStr : Text := [48, 54, 48, 54, 50, 48, 49, 54, 95, 48]

/-- `SwitchWContexts::serialize`, with the MD5 sum of the configuration: what each
context writes, and the stream. -/
def serialize (md5 : Text) (cxts : List (Program ι × Context ι σ K R)) :
    Option (List (List Item) × Text) := do
  let dumps ← cxts.mapM fun c => (c.2.serialize c.1).output
  return (dumps, render (line versionStr :: line md5 :: dumps.flatten))

/-- One context after the other, each with the texts it extracts. -/
def deserializeContexts (now : ℕ) :
    List (Program ι × Context ι σ K R) → Text → Option (List (Context ι σ K R × List Text))
  | [], _ => some []
  | (p, c) :: cxts, s => do
    let (c', texts, s) ← (c.deserialize p now).run s
    let rest ← deserializeContexts now cxts s
    return (c', texts) :: rest

/-- What `SwitchWContexts::deserialize` returns: 1, or 0 with the contexts. -/
inductive Outcome (C : Type) where
  | refused
  | restored (cxts : List C)

/-- `SwitchWContexts::deserialize`. -/
def deserialize (md5 : Text) (now : ℕ) (cxts : List (Program ι × Context ι σ K R)) (s : Text) :
    Option (Outcome (Context ι σ K R × List Text)) :=
  match word.scan s with
  | none => some .refused
  | some (version, s) =>
    if version ≠ versionStr then some .refused
    else match word.scan s with
      | none => some .refused
      | some (md5sum, s) =>
        if md5sum ≠ md5 then some .refused
        else (deserializeContexts now cxts s).map .restored

end

end Serialization

end P4Bricks
