import P4Bricks.MatchUnit.Model
import Mathlib.Data.Finset.Sort
/-!
# Action profiles

`action_profile.cpp`. A profile keeps the members (action entries) and the
groups of members that the entries of its indirect tables point to, and counts
the references to each. Members and groups are named by handles, least free
first, which index vectors that grow by one at the end.

`none` stands for a run that does not go on: a failed assertion, an `at` out
of range, or an access to a vector beyond its end. Only the default group
selector is modelled, and a packet comes with what its hash calculation gives.
-/

namespace P4Bricks

open MatchUnit

/-! ## Vectors -/

/-- A `std::vector`. What `get` says beyond the end means nothing. -/
structure Vec (α : Type*) where
  size : ℕ
  get : ℕ → α

namespace Vec

variable {α : Type*}

def empty [Inhabited α] : Vec α := ⟨0, fun _ => default⟩

/-- `v.at(i)`. -/
def at? (v : Vec α) (i : ℕ) : Option α := if i < v.size then some (v.get i) else none

/-- `v[i] = a`, and the end of the vector grows it. -/
def put (v : Vec α) (i : ℕ) (a : α) : Option (Vec α) :=
  if i ≤ v.size then some ⟨max v.size (i + 1), Function.update v.get i a⟩ else none

/-- `v[i] = f(v[i])`. -/
def modify (v : Vec α) (i : ℕ) (f : α → α) : Option (Vec α) :=
  if i < v.size then some ⟨v.size, Function.update v.get i (f (v.get i))⟩ else none

end Vec

/-! ## Action entries -/

/-- An `ActionFn`, as far as tables and profiles look at it. -/
structure ActionFn where
  id : ℕ
  numParams : ℕ
  deriving DecidableEq, Repr

/-- `ActionEntry`, with the two fields of its `ActionFnEntry`. -/
structure ActionEntry where
  actionFn : Option ActionFn := none
  actionData : List ℤ := []
  nextNode : Option ℕ := none
  deriving DecidableEq, Inhabited, Repr

/-- `get_action_id`, the largest `int` for no action. -/
def ActionEntry.getActionId (entry : ActionEntry) : ℕ :=
  (entry.actionFn.map ActionFn.id).getD (2 ^ 31 - 1)

/-- `IndirectIndex`. The source keeps the kind in the top byte of a number. -/
inductive IndirectIndex where
  | mbr (mbr : ℕ)
  | grp (grp : ℕ)
  deriving DecidableEq, Repr

instance : Inhabited IndirectIndex := ⟨.mbr 0⟩

/-- `ActionProfile`. -/
structure ActionProfile where
  withSelection : Bool
  actionEntries : Vec ActionEntry
  mbrCount : Vec ℕ
  grpCount : Vec ℕ
  mbrHandles : Finset ℕ
  grpHandles : Finset ℕ
  numMembers : ℕ
  numGroups : ℕ
  groups : Vec (Finset ℕ)

namespace ActionProfile

def create (withSelection : Bool) : ActionProfile where
  withSelection := withSelection
  actionEntries := .empty
  mbrCount := .empty
  grpCount := .empty
  mbrHandles := ∅
  grpHandles := ∅
  numMembers := 0
  numGroups := 0
  groups := .empty

/-! ## Reference counts -/

def indexMask : ℕ := 0x00ffffff

/-- `make_mbr_index`. -/
def makeMbrIndex (mbr : ℕ) : Option IndirectIndex :=
  if mbr ≤ indexMask then some (.mbr mbr) else none

/-- `make_grp_index`. -/
def makeGrpIndex (grp : ℕ) : Option IndirectIndex :=
  if grp ≤ indexMask then some (.grp grp) else none

/-- `count_t` is an `unsigned int`. -/
def countMod : ℕ := 2 ^ 32

def incr (c : ℕ) : ℕ := (c + 1) % countMod

def decr (c : ℕ) : ℕ := (c + (countMod - 1)) % countMod

/-- One of the two vectors of `IndirectIndexRefCount`. -/
def modifyCount (ap : ActionProfile) (f : Vec ℕ → ℕ → Option (Vec ℕ)) :
    IndirectIndex → Option ActionProfile
  | .mbr m => (f ap.mbrCount m).map fun v => { ap with mbrCount := v }
  | .grp g => (f ap.grpCount g).map fun v => { ap with grpCount := v }

/-- `index_ref_count.set(index, 0)`. -/
def refCountReset (ap : ActionProfile) (index : IndirectIndex) : Option ActionProfile :=
  ap.modifyCount (fun v i => v.put i 0) index

def refCountIncrease (ap : ActionProfile) (index : IndirectIndex) : Option ActionProfile :=
  ap.modifyCount (fun v i => v.modify i incr) index

def refCountDecrease (ap : ActionProfile) (index : IndirectIndex) : Option ActionProfile :=
  ap.modifyCount (fun v i => v.modify i decr) index

def refCountGet (ap : ActionProfile) : IndirectIndex → Option ℕ
  | .mbr m => ap.mbrCount.at? m
  | .grp g => ap.grpCount.at? g

/-! ## Members -/

def isValidMbr (ap : ActionProfile) (mbr : ℕ) : Bool := mbr ∈ ap.mbrHandles

def isValidGrp (ap : ActionProfile) (grp : ℕ) : Bool := grp ∈ ap.grpHandles

def groupIsEmpty (ap : ActionProfile) (grp : ℕ) : Option Bool :=
  (ap.groups.at? grp).map fun g => g = ∅

/-- `entries_insert`. -/
def entriesInsert (ap : ActionProfile) (mbr : ℕ) (entry : ActionEntry) : Option ActionProfile := do
  let entries ← ap.actionEntries.put mbr entry
  let index ← makeMbrIndex mbr
  refCountReset { ap with actionEntries := entries } index

def addMember (ap : ActionProfile) (fn : ActionFn) (data : List ℤ) :
    Option (Result ℕ × ActionProfile) :=
  if data.length ≠ fn.numParams then some (.error .badActionData, ap)
  else do
    let mbr := firstFree ap.mbrHandles
    let ap ← entriesInsert { ap with mbrHandles := insert mbr ap.mbrHandles } mbr
      ⟨some fn, data, none⟩
    return (.ok mbr, { ap with numMembers := ap.numMembers + 1 })

def deleteMember (ap : ActionProfile) (mbr : ℕ) : Option (Result Unit × ActionProfile) :=
  if !ap.isValidMbr mbr then some (.error .invalidMbrHandle, ap)
  else do
    let index ← makeMbrIndex mbr
    let count ← ap.refCountGet index
    if count > 0 then return (.error .mbrStillUsed, ap)
    else
      return (.ok (),
        { ap with mbrHandles := ap.mbrHandles.erase mbr, numMembers := ap.numMembers - 1 })

def modifyMember (ap : ActionProfile) (mbr : ℕ) (fn : ActionFn) (data : List ℤ) :
    Option (Result Unit × ActionProfile) :=
  if data.length ≠ fn.numParams then some (.error .badActionData, ap)
  else if !ap.isValidMbr mbr then some (.error .invalidMbrHandle, ap)
  else do
    let entries ← ap.actionEntries.modify mbr fun _ => ⟨some fn, data, none⟩
    return (.ok (), { ap with actionEntries := entries })

/-! ## Groups -/

def createGroup (ap : ActionProfile) : Option (Result ℕ × ActionProfile) := do
  let grp := firstFree ap.grpHandles
  let groups ← ap.groups.put grp ∅
  let index ← makeGrpIndex grp
  let ap ← refCountReset { ap with grpHandles := insert grp ap.grpHandles, groups := groups } index
  return (.ok grp, { ap with numGroups := ap.numGroups + 1 })

/-- The members of a group, in the order of a walk through it. -/
def members (g : Finset ℕ) : List ℕ := g.sort (· ≤ ·)

/-- The count of each member of the group goes down. -/
def releaseMembers (ap : ActionProfile) : List ℕ → Option ActionProfile
  | [] => some ap
  | mbr :: mbrs => do
    let index ← makeMbrIndex mbr
    let ap ← ap.refCountDecrease index
    ap.releaseMembers mbrs

def deleteGroup (ap : ActionProfile) (grp : ℕ) : Option (Result Unit × ActionProfile) :=
  if !ap.isValidGrp grp then some (.error .invalidGrpHandle, ap)
  else do
    let index ← makeGrpIndex grp
    let count ← ap.refCountGet index
    if count > 0 then return (.error .grpStillUsed, ap)
    else
      let g ← ap.groups.at? grp
      let ap ← ap.releaseMembers (members g)
      return (.ok (),
        { ap with grpHandles := ap.grpHandles.erase grp, numGroups := ap.numGroups - 1 })

def addMemberToGroup (ap : ActionProfile) (mbr grp : ℕ) : Option (Result Unit × ActionProfile) :=
  if !ap.isValidMbr mbr then some (.error .invalidMbrHandle, ap)
  else if !ap.isValidGrp grp then some (.error .invalidGrpHandle, ap)
  else do
    let g ← ap.groups.at? grp
    if mbr ∈ g then return (.error .mbrAlreadyInGrp, ap)
    else
      let groups ← ap.groups.modify grp (insert mbr)
      let index ← makeMbrIndex mbr
      let ap ← refCountIncrease { ap with groups := groups } index
      return (.ok (), ap)

/-- The last member may be taken from a group that entries point to. -/
def removeMemberFromGroup (ap : ActionProfile) (mbr grp : ℕ) : Option (Result Unit × ActionProfile) :=
  if !ap.isValidMbr mbr then some (.error .invalidMbrHandle, ap)
  else if !ap.isValidGrp grp then some (.error .invalidGrpHandle, ap)
  else do
    let g ← ap.groups.at? grp
    if mbr ∉ g then return (.error .mbrNotInGrp, ap)
    else
      let groups ← ap.groups.modify grp (·.erase mbr)
      let index ← makeMbrIndex mbr
      let ap ← refCountDecrease { ap with groups := groups } index
      return (.ok (), ap)

/-- `reset_state`: the group handles stay. -/
def resetState (ap : ActionProfile) : ActionProfile :=
  { create ap.withSelection with grpHandles := ap.grpHandles }

/-! ## Packets -/

/-- `get_from_hash` of the default selector: the remainder of a division by
zero is no value. -/
def getFromHash (ap : ActionProfile) (grp hash : ℕ) : Option ℕ := do
  let g ← ap.groups.at? grp
  if g.card = 0 then none else (members g)[hash % g.card]?

/-- The member an index leads a packet to. -/
def chooseMember (ap : ActionProfile) (hash : ℕ) : IndirectIndex → Option ℕ
  | .mbr m => some m
  | .grp g => ap.getFromHash g hash

/-- The assertions of `lookup` on its index. -/
def indexAsserted (ap : ActionProfile) : IndirectIndex → Bool
  | .mbr _ => true
  | .grp g => ap.withSelection && ap.isValidGrp g

/-- `lookup`. -/
def lookup (ap : ActionProfile) (hash : ℕ) (index : IndirectIndex) : Option (ℕ × ActionEntry) :=
  if !ap.indexAsserted index then none
  else do
    let m ← ap.chooseMember hash index
    if !ap.isValidMbr m then none
    else
      let entry ← ap.actionEntries.at? m
      return (m, entry)

end ActionProfile

end P4Bricks
