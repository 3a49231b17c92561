import P4Bricks.Common.Handles
import P4Bricks.Lookup.Model
/-!
# Match units

`match_units.cpp`, over any kind of key, value and lookup structure. A unit
keeps its entries in a table of slots. The handle a client gets packs the
slot with a version of it, eight bits wide, while the slot's own version
counter is a `uint32_t` that counts the deletions from the slot.

How match parameters and entries translate into each other is the key
builder's business and a parameter here.
-/

namespace P4Bricks

namespace MatchUnit

open Lookup

/-! ## Handles -/

/-- `entry_handle_t`. -/
abbrev EntryHandle := UInt32

/-- `HANDLE_VERSION`. -/
def handleVersion (h : EntryHandle) : ℕ := h.toNat >>> 24

/-- `HANDLE_INTERNAL`. -/
def handleInternal (h : EntryHandle) : ℕ := h.toNat &&& 0x00ffffff

/-- `HANDLE_SET`. -/
def handleSet (v i : ℕ) : EntryHandle := .ofNat (((v &&& 0xff) <<< 24) ||| i)

/-- `MatchErrorCode`, less the codes nothing here returns. -/
inductive MatchErrorCode where
  | tableFull
  | invalidHandle
  | expiredHandle
  | countersDisabled
  | metersDisabled
  | ageingDisabled
  | invalidMbrHandle
  | mbrStillUsed
  | mbrAlreadyInGrp
  | mbrNotInGrp
  | invalidGrpHandle
  | grpStillUsed
  | emptyGrp
  | duplicateEntry
  | badMatchKey
  | immutableTableEntries
  | badActionData
  | defaultActionIsConst
  | defaultEntryIsConst
  | wrongTableType
  | error
  deriving DecidableEq, Repr

/-- What an operation returns: `SUCCESS` with its outputs, or an error. -/
abbrev Result (α : Type*) := Except MatchErrorCode α

/-- `MatchKeyBuilder`, as far as a unit uses it. `matchParamsToEntry` stands
for the conversion, the big mask and the priority together. -/
structure KeyBuilder (P K : Type*) where
  matchParamsSanityCheck : P → Bool
  matchParamsToEntry : P → ℤ → K
  entryToMatchParams : K → P
  getPriority : K → ℤ

/-- `build_entry_from_match_key`. -/
def KeyBuilder.buildEntryFromMatchKey {P K : Type*} (kb : KeyBuilder P K) (matchKey : P)
    (priority : ℤ) : Result K :=
  if kb.matchParamsSanityCheck matchKey then .ok (kb.matchParamsToEntry matchKey priority)
  else .error .badMatchKey

/-! ## Units -/

/-- `EntryMeta`: the time of the last hit, the timeout, the counter. -/
structure EntryMeta where
  ts : ℕ := 0
  timeoutMs : ℕ := 0
  bytes : ℕ := 0
  packets : ℕ := 0
  version : ℕ := 0
  deriving DecidableEq, Repr

/-- `MatchUnitGeneric::Entry`. The version is `key.version` in the source. -/
structure Entry (K V : Type*) where
  key : K
  version : ℕ
  value : V
  deriving DecidableEq

end MatchUnit

/-- `MatchUnitGeneric`, with the base classes' fields. -/
structure MatchUnit (σ K V : Type*) where
  size : ℕ
  numEntries : ℕ
  handles : Finset ℕ
  entryMeta : ℕ → MatchUnit.EntryMeta
  entries : ℕ → MatchUnit.Entry K V
  lookupStructure : σ

namespace MatchUnit

open Lookup

variable {σ P K V : Type*} [LookupStructure σ K] [Inhabited K] [Inhabited V]

/-- A new unit over a new lookup structure. -/
def create (size : ℕ) (ls : σ) : MatchUnit σ K V where
  size := size
  numEntries := 0
  handles := ∅
  entryMeta := fun _ => {}
  entries := fun _ => ⟨default, 0, default⟩
  lookupStructure := ls

def getAndSetHandle (u : MatchUnit σ K V) : Result ℕ × MatchUnit σ K V :=
  if u.size ≤ u.numEntries then (.error .tableFull, u)
  else
    (.ok (firstFree u.handles),
      { u with
        handles := insert (firstFree u.handles) u.handles
        numEntries := u.numEntries + 1 })

def unsetHandle (u : MatchUnit σ K V) (i : ℕ) : Result Unit × MatchUnit σ K V :=
  if i ∈ u.handles then
    (.ok (), { u with handles := u.handles.erase i, numEntries := u.numEntries - 1 })
  else (.error .invalidHandle, u)

/-- `valid_handle`. -/
def validHandle (u : MatchUnit σ K V) (h : EntryHandle) : Bool := handleInternal h ∈ u.handles

/-- `add_entry_`: a slot keeps its version from one entry to the next. -/
def addEntry_ (kb : KeyBuilder P K) (u : MatchUnit σ K V) (matchKey : P) (value : V)
    (priority : ℤ) : Result EntryHandle × MatchUnit σ K V :=
  match kb.buildEntryFromMatchKey matchKey priority with
  | .error e => (.error e, u)
  | .ok key =>
    if LookupStructure.entryExists u.lookupStructure key then (.error .duplicateEntry, u)
    else
      match u.getAndSetHandle with
      | (.error e, u) => (.error e, u)
      | (.ok i, u) =>
        let version := (u.entries i).version
        (.ok (handleSet version i),
          { u with
            entries := Function.update u.entries i ⟨key, version, value⟩
            lookupStructure := LookupStructure.addEntry u.lookupStructure key i })

/-- `add_entry`: the entry's meta data starts anew, but for its timeout. -/
def addEntry (kb : KeyBuilder P K) (u : MatchUnit σ K V) (matchKey : P) (value : V)
    (priority : ℤ) (now : ℕ) : Result EntryHandle × MatchUnit σ K V :=
  match addEntry_ kb u matchKey value priority with
  | (.error e, u) => (.error e, u)
  | (.ok h, u) =>
    let i := handleInternal h
    (.ok h,
      { u with
        entryMeta := Function.update u.entryMeta i
          { u.entryMeta i with ts := now, bytes := 0, packets := 0, version := handleVersion h } })

/-- The checks every versioned operation starts with. -/
def checkHandle (u : MatchUnit σ K V) (h : EntryHandle) : Result ℕ :=
  let i := handleInternal h
  if i ∉ u.handles then .error .invalidHandle
  else if handleVersion h ≠ (u.entries i).version then .error .expiredHandle
  else .ok i

/-- `delete_entry`. -/
def deleteEntry (u : MatchUnit σ K V) (h : EntryHandle) : Result Unit × MatchUnit σ K V :=
  match u.checkHandle h with
  | .error e => (.error e, u)
  | .ok i =>
    let entry := u.entries i
    unsetHandle
      { u with
        entries := Function.update u.entries i
          { entry with version := (entry.version + 1) % 2 ^ 32 }
        lookupStructure := LookupStructure.deleteEntry u.lookupStructure entry.key } i

/-- `modify_entry`. -/
def modifyEntry (u : MatchUnit σ K V) (h : EntryHandle) (value : V) : Result Unit × MatchUnit σ K V :=
  match u.checkHandle h with
  | .error e => (.error e, u)
  | .ok i =>
    (.ok (), { u with entries := Function.update u.entries i { u.entries i with value := value } })

/-- `get_value`. -/
def getValue (u : MatchUnit σ K V) (h : EntryHandle) : Result V :=
  (u.checkHandle h).map fun i => (u.entries i).value

/-- `get_entry`: match parameters, value and priority. -/
def getEntry (kb : KeyBuilder P K) (u : MatchUnit σ K V) (h : EntryHandle) : Result (P × V × ℤ) :=
  (u.checkHandle h).map fun i =>
    (kb.entryToMatchParams (u.entries i).key, (u.entries i).value,
      kb.getPriority (u.entries i).key)

/-- `retrieve_handle`. -/
def retrieveHandle (kb : KeyBuilder P K) (u : MatchUnit σ K V) (matchKey : P) (priority : ℤ) :
    Result EntryHandle :=
  match kb.buildEntryFromMatchKey matchKey priority with
  | .error e => .error e
  | .ok key =>
    match LookupStructure.retrieveHandle u.lookupStructure key with
    | some i => .ok (handleSet (u.entries i).version i)
    | none => .error .badMatchKey

/-- `set_entry_ttl`: the version is not checked. -/
def setEntryTtl (u : MatchUnit σ K V) (h : EntryHandle) (ttlMs now : ℕ) : Result Unit × MatchUnit σ K V :=
  let i := handleInternal h
  if i ∉ u.handles then (.error .invalidHandle, u)
  else
    (.ok (),
      { u with
        entryMeta := Function.update u.entryMeta i
          { u.entryMeta i with timeoutMs := ttlMs, ts := now } })

/-- `lookup_key`: the entry's handle and value. -/
def lookupKey (u : MatchUnit σ K V) (key : ByteContainer) :
    Option (EntryHandle × V) × MatchUnit σ K V :=
  let r := LookupStructure.lookup u.lookupStructure key
  (r.1.map fun i => (handleSet (u.entries i).version i, (u.entries i).value),
    { u with lookupStructure := r.2 })

/-- `lookup`: a hit counts the packet and records its time. -/
def lookup (u : MatchUnit σ K V) (key : ByteContainer) (length now : ℕ) :
    Option (EntryHandle × V) × MatchUnit σ K V :=
  let (res, u) := u.lookupKey key
  match res with
  | none => (none, u)
  | some (h, v) =>
    let i := handleInternal h
    let entryMeta := u.entryMeta i
    (some (h, v),
      { u with
        entryMeta := Function.update u.entryMeta i
          { entryMeta with
            ts := now, bytes := entryMeta.bytes + length, packets := entryMeta.packets + 1 } })

/-- `reset_state`: the slots' versions start again too. -/
def resetState (u : MatchUnit σ K V) : MatchUnit σ K V :=
  create u.size (LookupStructure.clear u.lookupStructure)

/-! ## Runs -/

/-- One request to a unit. -/
inductive Op (P V : Type*) where
  | addEntry (matchKey : P) (value : V) (priority : ℤ) (now : ℕ)
  | deleteEntry (handle : EntryHandle)
  | modifyEntry (handle : EntryHandle) (value : V)
  | setEntryTtl (handle : EntryHandle) (ttlMs now : ℕ)
  | lookup (key : ByteContainer) (length now : ℕ)
  | resetState

def apply (kb : KeyBuilder P K) (u : MatchUnit σ K V) : Op P V → MatchUnit σ K V
  | .addEntry matchKey value priority now => (u.addEntry kb matchKey value priority now).2
  | .deleteEntry h => (u.deleteEntry h).2
  | .modifyEntry h value => (u.modifyEntry h value).2
  | .setEntryTtl h ttlMs now => (u.setEntryTtl h ttlMs now).2
  | .lookup key length now => (u.lookup key length now).2
  | .resetState => u.resetState

def run (kb : KeyBuilder P K) (u : MatchUnit σ K V) (ops : List (Op P V)) : MatchUnit σ K V :=
  ops.foldl (apply kb) u

end MatchUnit

end P4Bricks
