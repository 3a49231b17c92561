import P4Bricks.Common.Links
import P4Bricks.LpmTrie.Model
/-!
# The lookup structures

`lookup_structures.cpp`. A match unit keeps its entries in a table of slots
and asks a lookup structure which slot a packet key selects: a hash map for
exact keys, the prefix trie for longest-prefix keys, and for ternary and
range keys an `EntryList`, the live slots threaded on a doubly linked list
with a small result cache in front.

A key carries no version here: no lookup structure reads it, and the match
unit's entries hold it beside the key. The `EntryList` keeps a pointer to the
key of each slot, which the match unit stores at a fixed address while the
slot is live, and the model keeps the key itself.
-/

namespace P4Bricks

namespace Lookup

/-- `std::numeric_limits<int>::max()`. -/
def intMax : ℤ := 2 ^ 31 - 1

/-! ## Keys -/

/-- `ExactMatchKey`. -/
structure ExactMatchKey where
  data : ByteContainer := []
  deriving DecidableEq, Inhabited

/-- `LPMMatchKey`. -/
structure LPMMatchKey where
  data : ByteContainer := []
  prefixLength : ℕ := 0
  deriving DecidableEq, Inhabited

/-- `TernaryMatchKey`. A key nobody set is one no lookup returns. -/
structure TernaryMatchKey where
  data : ByteContainer := []
  mask : ByteContainer := []
  priority : ℤ := intMax
  deriving DecidableEq

instance : Inhabited TernaryMatchKey := ⟨{}⟩

/-- `RangeMatchKey`: `data` and `mask` hold the bounds of the ranges, then
the value and mask of the ternary part. -/
structure RangeMatchKey extends TernaryMatchKey where
  rangeWidths : List ℕ := []
  deriving DecidableEq

instance : Inhabited RangeMatchKey := ⟨{}⟩

/-- `operator==` on ternary keys: the priority is not compared. -/
def TernaryMatchKey.same (k₁ k₂ : TernaryMatchKey) : Bool :=
  k₁.data == k₂.data && k₁.mask == k₂.mask

/-- `operator==` on range keys. -/
def RangeMatchKey.same (k₁ k₂ : RangeMatchKey) : Bool :=
  k₁.data == k₂.data && k₁.mask == k₂.mask && k₁.rangeWidths == k₂.rangeWidths

/-- From byte `first` up to `last`, the masked key is the entry. -/
def maskedEq (key : ByteContainer) (k : TernaryMatchKey) (first last : ℕ) : Bool :=
  (List.range' first (last - first)).all fun i =>
    k.data.getD i 0 == (key.getD i 0 &&& k.mask.getD i 0)

/-- The comparison of `TernaryMap::lookup`. -/
def TernaryMatchKey.cmp (nbytesKey : ℕ) (key : ByteContainer) (k : TernaryMatchKey) : Bool :=
  maskedEq key k 0 nbytesKey

/-- `memcmp(a + offset, b + offset, w) < 0`. -/
def memLt (a b : ByteContainer) (offset w : ℕ) : Bool :=
  decide ((a.drop offset).take w < (b.drop offset).take w)

/-- The loop over `range_widths`: the offset it ends at, or `none` if the key
leaves a range. -/
def inRanges (key : ByteContainer) (k : RangeMatchKey) : ℕ → List ℕ → Option ℕ
  | offset, [] => some offset
  | offset, w :: ws =>
    if memLt key k.data offset w then none
    else if memLt k.mask key offset w then none
    else inRanges key k (offset + w) ws

/-- The comparison of `RangeMap::lookup`. -/
def RangeMatchKey.cmp (nbytesKey : ℕ) (key : ByteContainer) (k : RangeMatchKey) : Bool :=
  match inRanges key k 0 k.rangeWidths with
  | none => false
  | some offset => maskedEq key k.toTernaryMatchKey offset nbytesKey

/-! ## The interface -/

/-- `LookupStructure<K>`. A lookup may change the structure: the ternary
cache is `mutable`. -/
class LookupStructure (σ : Type*) (K : outParam Type*) where
  lookup : σ → ByteContainer → Option ℕ × σ
  entryExists : σ → K → Bool
  retrieveHandle : σ → K → Option ℕ
  addEntry : σ → K → ℕ → σ
  deleteEntry : σ → K → σ
  clear : σ → σ

/-! ## Exact and longest-prefix keys -/

/-- `ExactMap`: an `unordered_map` from key bytes to handles. -/
structure ExactMap where
  entriesMap : ByteContainer → Option ℕ

def ExactMap.create : ExactMap := ⟨fun _ => none⟩

instance : LookupStructure ExactMap ExactMatchKey where
  lookup m key := (m.entriesMap key, m)
  entryExists m key := (m.entriesMap key.data).isSome
  retrieveHandle m key := m.entriesMap key.data
  addEntry m key handle := ⟨Function.update m.entriesMap key.data (some handle)⟩
  deleteEntry m key := ⟨Function.update m.entriesMap key.data none⟩
  clear _ := .create

/-- `LPMTrieStructure`. -/
structure LPMTrieStructure where
  trie : LpmTrie.Trie

def LPMTrieStructure.create (keyWidthBytes : ℕ) : LPMTrieStructure :=
  ⟨LpmTrie.create keyWidthBytes true⟩

instance : LookupStructure LPMTrieStructure LPMMatchKey where
  lookup m key := (m.trie.lookup key, m)
  entryExists m key := m.trie.hasPrefix key.data key.prefixLength
  retrieveHandle m key := m.trie.retrieveValue key.data key.prefixLength
  addEntry m key handle := ⟨m.trie.insert key.data key.prefixLength handle⟩
  deleteEntry m key := ⟨(m.trie.delete key.data key.prefixLength).1⟩
  clear m := .create m.trie.keyWidthBytes

/-! ## The ternary cache -/

/-- `TernaryCache<64>`: most recently used first. The hash map beside the
list only finds an element of it by key. -/
abbrev TernaryCache := List (ByteContainer × ℕ)

namespace TernaryCache

/-- The template parameter `S`. -/
def capacity : ℕ := 64

/-- A hit moves its element to the front. -/
def lookup (c : TernaryCache) (key : ByteContainer) : Option ℕ × TernaryCache :=
  match c.find? fun e => e.1 == key with
  | some e => (some e.2, e :: c.erase e)
  | none => (none, c)

/-- A full cache evicts its last element first. -/
def add (c : TernaryCache) (key : ByteContainer) (handle : ℕ) : TernaryCache :=
  if c.any fun e => e.1 == key then c
  else if c.length = capacity then (key, handle) :: c.dropLast
  else (key, handle) :: c

end TernaryCache

/-! ## The entry list -/

/-- What `EntryList` asks of a key: its priority, `operator==`, and the
comparison its map passes to `lookup`. -/
class EntryKey (K : Type*) extends Inhabited K where
  priority : K → ℤ
  same : K → K → Bool
  cmp : ℕ → ByteContainer → K → Bool
  same_self : ∀ k, same k k = true
  same_comm : ∀ k₁ k₂, same k₁ k₂ = same k₂ k₁

instance : EntryKey TernaryMatchKey where
  priority := TernaryMatchKey.priority
  same := TernaryMatchKey.same
  cmp := TernaryMatchKey.cmp
  same_self k := by simp [TernaryMatchKey.same]
  same_comm k₁ k₂ := by simp only [TernaryMatchKey.same, Bool.beq_comm]

instance : EntryKey RangeMatchKey where
  priority k := k.priority
  same := RangeMatchKey.same
  cmp := RangeMatchKey.cmp
  same_self k := by simp [RangeMatchKey.same]
  same_comm k₁ k₂ := by simp only [RangeMatchKey.same, Bool.beq_comm]

/-- `EntryList::Entry`, less its two pointers. -/
structure Entry (K : Type*) where
  priority : ℤ
  key : K

/-- `EntryList`. The `prev` and `next` pointers of all entries stand in
`links`, with the head. -/
structure EntryList (K : Type*) where
  links : Links ℕ
  entries : ℕ → Entry K
  /-- The length of the `entries` vector. -/
  size : ℕ
  entriesCount : ℕ
  enableCache : Bool
  useCache : Bool
  cache : TernaryCache

namespace EntryList

variable {K : Type*} [EntryKey K]

def cacheActivationMinEntries : ℕ := 16

def create (size : ℕ) (enableCache : Bool) : EntryList K where
  links := .empty
  entries := fun _ => ⟨0, default⟩
  size := size
  entriesCount := 0
  enableCache := enableCache
  useCache := false
  cache := []

/-- The entries a loop `for (entry = head; entry; entry = entry->next)`
visits. A loop that visits more than `size` of them would never end. -/
def slots (el : EntryList K) : List ℕ := el.links.walk el.size el.links.head

/-- The body of the loop of `lookup`: the smallest priority so far, and the
entry that had it. -/
def scanStep (el : EntryList K) (cmp : K → Bool) (best : ℤ × Option ℕ) (i : ℕ) : ℤ × Option ℕ :=
  let entry := el.entries i
  if entry.priority ≥ best.1 then best
  else if cmp entry.key then (entry.priority, some i)
  else best

def scan (el : EntryList K) (cmp : K → Bool) : Option ℕ :=
  (el.slots.foldl (el.scanStep cmp) (intMax, none)).2

/-- `if (cache_activated()) cache.lookup(key_data, handle)`. -/
def lookupCache (el : EntryList K) (key : ByteContainer) : Option ℕ × EntryList K :=
  if el.useCache then
    ((TernaryCache.lookup el.cache key).1,
      { el with cache := (TernaryCache.lookup el.cache key).2 })
  else (none, el)

/-- `if (cache_activated()) cache.add(key_data, handle)`. -/
def addCache (el : EntryList K) (key : ByteContainer) (handle : ℕ) : EntryList K :=
  if el.useCache then { el with cache := TernaryCache.add el.cache key handle } else el

/-- A miss is not cached. -/
def lookup (el : EntryList K) (key : ByteContainer) (cmp : K → Bool) : Option ℕ × EntryList K :=
  match el.lookupCache key with
  | (some handle, el) => (some handle, el)
  | (none, el) =>
    match el.scan cmp with
    | some handle => (some handle, el.addCache key handle)
    | none => (none, el)

def findEntry (el : EntryList K) (key : K) : Option ℕ :=
  el.slots.find? fun i =>
    (el.entries i).priority == EntryKey.priority key && EntryKey.same (el.entries i).key key

/-- `if (cache_activated()) cache.invalidate_all()`. -/
def invalidate (el : EntryList K) : EntryList K :=
  { el with cache := if el.useCache then [] else el.cache }

def updateUseCache (el : EntryList K) : EntryList K :=
  { el with useCache := el.enableCache && cacheActivationMinEntries ≤ el.entriesCount }

/-- The new entry goes right after the one in the slot below: with the first
free slot taken, that one is on the list. -/
def add (el : EntryList K) (key : K) (handle : ℕ) : EntryList K :=
  updateUseCache <| invalidate
    { el with
      entries := Function.update el.entries handle ⟨EntryKey.priority key, key⟩
      links :=
        if handle = 0 then el.links.insertHead handle
        else el.links.insertAfter (handle - 1) handle
      entriesCount := el.entriesCount + 1 }

/-- `assert(entry)`: deleting a key that is not there is undefined. -/
def deleteEntry (el : EntryList K) (key : K) : EntryList K :=
  match el.findEntry key with
  | none => el
  | some i =>
    updateUseCache <| invalidate
      { el with links := el.links.unlink i, entriesCount := el.entriesCount - 1 }

def clear (el : EntryList K) : EntryList K :=
  updateUseCache { el with links := { el.links with head := none }, cache := [], entriesCount := 0 }

end EntryList

/-- `TernaryMap` and `RangeMap` differ in the comparison only. -/
structure EntryMap (K : Type*) where
  entryList : EntryList K
  nbytesKey : ℕ

def EntryMap.create {K : Type*} [EntryKey K] (size nbytesKey : ℕ) (enableCache : Bool) :
    EntryMap K :=
  ⟨.create size enableCache, nbytesKey⟩

instance {K : Type*} [EntryKey K] : LookupStructure (EntryMap K) K where
  lookup m key :=
    let r := m.entryList.lookup key (EntryKey.cmp m.nbytesKey key)
    (r.1, { m with entryList := r.2 })
  entryExists m key := (m.entryList.findEntry key).isSome
  retrieveHandle m key := m.entryList.findEntry key
  addEntry m key handle := { m with entryList := m.entryList.add key handle }
  deleteEntry m key := { m with entryList := m.entryList.deleteEntry key }
  clear m := { m with entryList := m.entryList.clear }

abbrev TernaryMap := EntryMap TernaryMatchKey

abbrev RangeMap := EntryMap RangeMatchKey

/-! ## The match unit as a client

What a match unit asks of its lookup structure: it adds a key that is not
there yet under the first free handle, deletes the key of a live handle,
clears, and looks packet keys up. -/

/-- One request. -/
inductive Op (K : Type*) where
  | add (key : K)
  | delete (handle : ℕ)
  | clear
  | lookup (key : ByteContainer)

/-- A lookup structure and the live keys of the unit that uses it. -/
structure Client (σ K : Type*) where
  map : σ
  live : ℕ → Option K
  size : ℕ

namespace Client

variable {σ K : Type*} [LookupStructure σ K]

/-- The least free handle, unless the table is full. -/
def getHandle (c : Client σ K) : Option ℕ :=
  (List.range c.size).find? fun i => (c.live i).isNone

/-- One request. One the unit would refuse changes nothing. -/
def apply (c : Client σ K) : Op K → Client σ K
  | .add key =>
    if LookupStructure.entryExists c.map key then c
    else
      match c.getHandle with
      | none => c
      | some handle =>
        { c with
          map := LookupStructure.addEntry c.map key handle
          live := Function.update c.live handle (some key) }
  | .delete handle =>
    match c.live handle with
    | none => c
    | some key =>
      { c with
        map := LookupStructure.deleteEntry c.map key
        live := Function.update c.live handle none }
  | .clear => { c with map := LookupStructure.clear c.map, live := fun _ => none }
  | .lookup key => { c with map := (LookupStructure.lookup c.map key).2 }

def run (c : Client σ K) (ops : List (Op K)) : Client σ K := ops.foldl apply c

end Client

end Lookup

end P4Bricks
