import P4Bricks.Common.Runs
import P4Bricks.MatchTables.NextNodes
import P4Bricks.MatchUnit.Ageing
/-!
# The ageing monitor

`ageing.cpp`: the thread that sweeps the tables with ageing one after the other and sends
a notification for each that has something new. The handles of a table that were sent last
are kept by table. The two buffers are kept from one table, and one sweep, to the next.

The system is a runtime and its monitor. Between sweeps, requests and packets come.
-/

namespace P4Bricks

open Lookup MatchUnit MatchTables

namespace Ageing

/-- What is sent: the header, and the handles behind it. -/
structure Message (ι : Type) where
  switchId : ℕ
  cxtId : ℕ
  bufferId : ℕ
  tableId : ι
  numEntries : ℕ
  entries : List EntryHandle
  deriving DecidableEq

/-- `AgeingMonitor`. A table is its id, and `prevSweepEntries` belongs to its `TableData`. -/
structure AgeingMonitor (ι : Type) where
  deviceId : ℕ
  cxtId : ℕ
  tablesWithAgeing : Finset ι := ∅
  prevSweepEntries : ι → Finset EntryHandle := fun _ => ∅
  entries : List EntryHandle := []
  entriesTmp : List EntryHandle := []
  bufferId : ℕ := 0

namespace AgeingMonitor

variable {ι : Type} [LinearOrder ι]

/-- `add_table`: a table that is there already stays. -/
def addTable (m : AgeingMonitor ι) (t : ι) : AgeingMonitor ι :=
  if t ∈ m.tablesWithAgeing then m
  else
    { m with
      tablesWithAgeing := insert t m.tablesWithAgeing
      prevSweepEntries := Function.update m.prevSweepEntries t ∅ }

def resetState (m : AgeingMonitor ι) : AgeingMonitor ι :=
  { m with entries := [], entriesTmp := [], bufferId := 0, prevSweepEntries := fun _ => ∅ }

/-- One round of `do_sweep`, for a table whose `sweep_entries` gives these handles. -/
def sweepTable (m : AgeingMonitor ι) (t : ι) (swept : List EntryHandle) :
    AgeingMonitor ι × List (Message ι) :=
  let entriesTmp := m.entriesTmp ++ swept
  if entriesTmp = [] then
    ({ m with
      entriesTmp := entriesTmp
      prevSweepEntries := Function.update m.prevSweepEntries t ∅ }, [])
  else
    let entries := m.entries ++ entriesTmp.filter fun handle => handle ∉ m.prevSweepEntries t
    let m := { m with
      entriesTmp := []
      entries := entries
      prevSweepEntries := Function.update m.prevSweepEntries t ∅ }
    if entries = [] then (m, [])
    else
      ({ m with
        prevSweepEntries := Function.update m.prevSweepEntries t entries.toFinset
        bufferId := (m.bufferId + 1) % 2 ^ 64
        entries := [] },
        [⟨m.deviceId, m.cxtId, m.bufferId, t, entries.length, entries⟩])

/-- `do_sweep`, over the tables that are left. A table stops it where it asserts. -/
def sweepFrom (sweepEntries : ι → Option (List EntryHandle)) :
    AgeingMonitor ι → List ι → Option (AgeingMonitor ι × List (Message ι))
  | m, [] => some (m, [])
  | m, t :: ts => do
    let swept ← sweepEntries t
    let r := m.sweepTable t swept
    let (m, messages) ← sweepFrom sweepEntries r.1 ts
    return (m, r.2 ++ messages)

/-- `do_sweep`: the map is walked in the order of the ids. -/
def doSweep (m : AgeingMonitor ι) (sweepEntries : ι → Option (List EntryHandle)) :
    Option (AgeingMonitor ι × List (Message ι)) :=
  sweepFrom sweepEntries m (m.tablesWithAgeing.sort (· ≤ ·))

end AgeingMonitor

/-- `MatchTableAbstract::sweep_entries`. -/
def sweepEntries {σ K M : Type} (now : ℕ) : Table σ K M → Option (List EntryHandle)
  | .direct t => t.matchUnit.sweepEntries now
  | .indirect t => t.matchUnit.sweepEntries now

/-- A sweep that was made: the time, the tables it found, and what it sent. -/
structure Sweep (ι : Type) (σ K : ι → Type) (M : Type) where
  now : ℕ
  tables : (t : ι) → Table (σ t) (K t) M
  messages : List (Message ι)

/-- A runtime and its monitor, with the sweeps so far. -/
structure System (ι : Type) (σ K : ι → Type) (M : Type) where
  runtime : Runtime ι σ K M
  monitor : AgeingMonitor ι
  sweeps : List (Sweep ι σ K M) := []

inductive Action (ι P C : Type) where
  | request (r : Request ι P C)
  | sweep (now : ℕ)

namespace System

variable {ι P M C : Type} {σ K : ι → Type} [LinearOrder ι] [∀ t, LookupStructure (σ t) (K t)]
  [∀ t, Inhabited (K t)] [Meter M C]

/-- One action. The reset of all state is one of the monitor's too. -/
def step (kb : (t : ι) → KeyBuilder P (K t)) (s : System ι σ K M) :
    Action ι P C → Option (System ι σ K M)
  | .request r => do
    let (_, runtime) ← s.runtime.step kb r
    return { s with
      runtime := runtime
      monitor :=
        match r with
        | .resetState => s.monitor.resetState
        | _ => s.monitor }
  | .sweep now => do
    let (monitor, messages) ← s.monitor.doSweep fun t => sweepEntries now (s.runtime.tables t)
    return { s with
      monitor := monitor
      sweeps := s.sweeps ++ [⟨now, s.runtime.tables, messages⟩] }

end System

end Ageing

end P4Bricks
