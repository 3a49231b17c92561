import P4Bricks.Common.Handles
/-!
# The replication engine

`simple_pre.cpp`. Multicast groups list L1 nodes, and each L1 node has an L2
node with the ports to replicate to. The three maps refer to one another: a
group to its nodes, a node to its group and its L2 node.

`none` is a call that does not return: a missing key, or an assertion on a
handle. The destruction of a group forgets the list but leaves its nodes marked
as associated; after it a node cannot be destroyed. As long as only groups
without nodes are destroyed, the maps stay consistent.
-/

namespace P4Bricks

namespace Pre

/-! ## The model -/

inductive McReturnCode where
  | success
  | tableFull
  | invalidMgid
  | invalidMgrpHandle
  | invalidL1Handle
  | error
  deriving DecidableEq

def portMapSize : ℕ := 256

/-- A `McPre::Set` of ports. -/
abbrev PortMap := ℕ → Bool

structure MgidEntry where
  mgid : ℕ := 0
  l1List : List ℕ := []
  deriving Inhabited

structure L1Entry where
  mgrpHdl : ℕ := 0
  rid : ℕ := 0
  l2Hdl : ℕ := 0
  isAssociated : Bool := false
  deriving Inhabited

/-- `L2Entry`, without the map of link aggregation groups. -/
structure L2Entry where
  l1Hdl : ℕ := 0
  portMap : PortMap := fun _ => false
  deriving Inhabited

structure McSimplePre where
  mgidEntries : Dict ℕ MgidEntry
  l1Entries : Dict ℕ L1Entry
  l2Entries : Dict ℕ L2Entry
  l1Handles : Finset ℕ
  l2Handles : Finset ℕ

structure McOut where
  rid : ℕ
  egressPort : ℕ
  deriving DecidableEq

namespace McSimplePre

def mgidTableSize : ℕ := 4096
def l1MaxEntries : ℕ := 4096
def l2MaxEntries : ℕ := 8192

def create : McSimplePre := ⟨.empty, .empty, .empty, ∅, ∅⟩

/-- A group that exists stays as it is. -/
def mcMgrpCreate (pre : McSimplePre) (mgid : ℕ) : McReturnCode × McSimplePre :=
  if pre.mgidEntries.keys.card ≥ mgidTableSize then (.tableFull, pre)
  else (.success, { pre with mgidEntries := pre.mgidEntries.insert mgid { mgid := mgid } })

def mcMgrpDestroy (pre : McSimplePre) (mgrpHdl : ℕ) : McReturnCode × McSimplePre :=
  (.success, { pre with mgidEntries := pre.mgidEntries.erase mgrpHdl })

/-- `mc_node_create`, with the handle it returns. -/
def mcNodeCreate (pre : McSimplePre) (rid : ℕ) (portMap : PortMap) :
    Option (McReturnCode × Option ℕ × McSimplePre) :=
  if pre.l1Entries.keys.card ≥ l1MaxEntries then some (.tableFull, none, pre)
  else if pre.l2Entries.keys.card ≥ l2MaxEntries then some (.tableFull, none, pre)
  else do
    let l1Hdl := firstFree pre.l1Handles
    let l2Hdl := firstFree pre.l2Handles
    let l1Entries := pre.l1Entries.insert l1Hdl { rid := rid }
    let l1Entry ← l1Entries.at? l1Hdl
    return (.success, some l1Hdl,
      { pre with
        l1Handles := insert l1Hdl pre.l1Handles
        l2Handles := insert l2Hdl pre.l2Handles
        l1Entries := l1Entries.set l1Hdl { l1Entry with l2Hdl := l2Hdl }
        l2Entries := pre.l2Entries.insert l2Hdl ⟨l1Hdl, portMap⟩ })

def mcNodeAssociate (pre : McSimplePre) (mgrpHdl l1Hdl : ℕ) :
    Option (McReturnCode × McSimplePre) :=
  if l1Hdl ∉ pre.l1Handles then some (.invalidL1Handle, pre)
  else
    match pre.mgidEntries.at? mgrpHdl with
    | none => some (.invalidMgrpHandle, pre)
    | some mgidEntry => do
      let l1Entry ← pre.l1Entries.at? l1Hdl
      if l1Entry.isAssociated then return (.error, pre)
      else
        return (.success,
          { pre with
            mgidEntries := pre.mgidEntries.set mgrpHdl
              { mgidEntry with l1List := mgidEntry.l1List ++ [l1Hdl] }
            l1Entries := pre.l1Entries.set l1Hdl
              { l1Entry with mgrpHdl := mgrpHdl, isAssociated := true } })

/-- `node_dissociate`: every occurrence of the node leaves the list. -/
def nodeDissociate (mgidEntry : MgidEntry) (l1Hdl : ℕ) : MgidEntry :=
  { mgidEntry with l1List := mgidEntry.l1List.filter (· ≠ l1Hdl) }

def mcNodeDissociate (pre : McSimplePre) (mgrpHdl l1Hdl : ℕ) :
    Option (McReturnCode × McSimplePre) :=
  if l1Hdl ∉ pre.l1Handles then some (.invalidL1Handle, pre)
  else
    match pre.mgidEntries.at? mgrpHdl with
    | none => some (.invalidMgrpHandle, pre)
    | some mgidEntry => do
      let l1Entry ← pre.l1Entries.at? l1Hdl
      if !l1Entry.isAssociated || l1Entry.mgrpHdl ≠ mgrpHdl then return (.error, pre)
      else
        return (.success,
          { pre with
            mgidEntries := pre.mgidEntries.set mgrpHdl (nodeDissociate mgidEntry l1Hdl)
            l1Entries := pre.l1Entries.set l1Hdl { l1Entry with isAssociated := false } })

/-- Users may destroy a node without dissociating it first. -/
def mcNodeDestroy (pre : McSimplePre) (l1Hdl : ℕ) : Option (McReturnCode × McSimplePre) :=
  if l1Hdl ∉ pre.l1Handles then some (.invalidL1Handle, pre)
  else do
    let l1Entry ← pre.l1Entries.at? l1Hdl
    let mgidEntries ←
      if l1Entry.isAssociated then
        (pre.mgidEntries.at? l1Entry.mgrpHdl).map fun mgidEntry =>
          pre.mgidEntries.set l1Entry.mgrpHdl (nodeDissociate mgidEntry l1Hdl)
      else some pre.mgidEntries
    if l1Entry.l2Hdl ∉ pre.l2Handles then none
    else
      return (.success,
        { mgidEntries := mgidEntries
          l1Entries := pre.l1Entries.erase l1Hdl
          l2Entries := pre.l2Entries.erase l1Entry.l2Hdl
          l1Handles := pre.l1Handles.erase l1Hdl
          l2Handles := pre.l2Handles.erase l1Entry.l2Hdl })

def mcNodeUpdate (pre : McSimplePre) (l1Hdl : ℕ) (portMap : PortMap) :
    Option (McReturnCode × McSimplePre) :=
  if l1Hdl ∉ pre.l1Handles then some (.invalidL1Handle, pre)
  else do
    let l1Entry ← pre.l1Entries.at? l1Hdl
    let l2Entry ← pre.l2Entries.at? l1Entry.l2Hdl
    return (.success,
      { pre with
        l2Entries := pre.l2Entries.set l1Entry.l2Hdl { l2Entry with portMap := portMap } })

/-- The copies for one node of a group. -/
def replicateNode (pre : McSimplePre) (l1Hdl : ℕ) : Option (List McOut) := do
  let l1Entry ← pre.l1Entries.at? l1Hdl
  let l2Entry ← pre.l2Entries.at? l1Entry.l2Hdl
  return ((List.range portMapSize).filter fun port => l2Entry.portMap port).map (⟨l1Entry.rid, ·⟩)

def replicate (pre : McSimplePre) (mgid : ℕ) : Option (List McOut) :=
  match pre.mgidEntries.at? mgid with
  | none => some []
  | some mgidEntry => (mgidEntry.l1List.mapM pre.replicateNode).map List.flatten

/-! ## Requests -/

inductive Request where
  | mgrpCreate (mgid : ℕ)
  | mgrpDestroy (mgrpHdl : ℕ)
  | nodeCreate (rid : ℕ) (portMap : PortMap)
  | nodeAssociate (mgrpHdl l1Hdl : ℕ)
  | nodeDissociate (mgrpHdl l1Hdl : ℕ)
  | nodeDestroy (l1Hdl : ℕ)
  | nodeUpdate (l1Hdl : ℕ) (portMap : PortMap)

/-- One request, with the code and the handle it returns. -/
def step (pre : McSimplePre) : Request → Option (McReturnCode × Option ℕ × McSimplePre)
  | .mgrpCreate mgid =>
    let r := pre.mcMgrpCreate mgid
    some (r.1, if r.1 = .success then some mgid else none, r.2)
  | .mgrpDestroy mgrpHdl =>
    some ((pre.mcMgrpDestroy mgrpHdl).1, none, (pre.mcMgrpDestroy mgrpHdl).2)
  | .nodeCreate rid portMap => pre.mcNodeCreate rid portMap
  | .nodeAssociate mgrpHdl l1Hdl =>
    (pre.mcNodeAssociate mgrpHdl l1Hdl).map fun r => (r.1, none, r.2)
  | .nodeDissociate mgrpHdl l1Hdl =>
    (pre.mcNodeDissociate mgrpHdl l1Hdl).map fun r => (r.1, none, r.2)
  | .nodeDestroy l1Hdl => (pre.mcNodeDestroy l1Hdl).map fun r => (r.1, none, r.2)
  | .nodeUpdate l1Hdl portMap => (pre.mcNodeUpdate l1Hdl portMap).map fun r => (r.1, none, r.2)

/-- A run of requests, each met by the state it is made in. -/
inductive RunIf (ok : McSimplePre → Request → Prop) :
    McSimplePre → List Request → McSimplePre → Prop where
  | nil (pre) : RunIf ok pre [] pre
  | cons {pre pre₁ pre' r rs code hdl} (hok : ok pre r) (hstep : pre.step r = some (code, hdl, pre₁))
      (hrun : RunIf ok pre₁ rs pre') : RunIf ok pre (r :: rs) pre'

end McSimplePre

end Pre

end P4Bricks
