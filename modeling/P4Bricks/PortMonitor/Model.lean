import Mathlib.Data.Finset.Sort
import P4Bricks.Common.Handles
import P4Bricks.Common.Outbox
import P4Bricks.Common.Runs
/-!
# The port monitor

`port_monitor.cpp`: what the monitor knows of the ports changes under a lock, in `notify_` and
in the loop of the active monitor, and the callbacks for a change are called later without it.
Any number of threads call `notify`. Each thread makes its calls of `event_handler` before it
does anything else, the loop in the order of the ports. `event_handler` has a lock of its own,
so one call comes after another.
-/

namespace P4Bricks

namespace PortMonitor

/-- `PortMonitorIface::PortStatus`. -/
inductive PortStatus where
  | portAdded | portRemoved | portUp | portDown
  deriving DecidableEq, Repr

/-- The loop of the monitor, or a thread that calls `notify`. -/
inductive Thread where
  | monitor
  | caller (id : ℕ)
  deriving DecidableEq, Repr

/-- A call of `event_handler`, with the thread that makes it. -/
structure Call where
  thread : Thread
  port : ℕ
  type : PortStatus
  deriving DecidableEq, Repr

/-- `PortMonitorActive`, with the calls of `event_handler` that are to come and those made. -/
structure PortMonitorActive where
  currPorts : Dict ℕ Bool := .empty
  calls : Outbox Call := {}

/-- The locked part of `notify_`. It has no result where the event is invalid. -/
def notifyPorts (currPorts : Dict ℕ Bool) (portNum : ℕ) (evt : PortStatus) :
    Option (Dict ℕ Bool) :=
  let it := currPorts.at? portNum
  if evt = .portAdded ∧ it = none then some (currPorts.insert portNum false)
  else if evt = .portRemoved ∧ it ≠ none then some (currPorts.erase portNum)
  else if evt = .portUp ∧ it = some false then some (currPorts.set portNum true)
  else if evt = .portDown ∧ it = some true then some (currPorts.set portNum false)
  else none

/-- What the loop of `monitor` inserts in `cbs_todo` for a port. -/
def cbTodo (port : ℕ) (second isUp : Bool) : Option Call :=
  if !isUp && second then some ⟨.monitor, port, .portDown⟩
  else if isUp && !second then some ⟨.monitor, port, .portUp⟩
  else none

/-- `cbs_todo` after the locked part of a round: a map, walked in the order of the ports. -/
def cbsTodo (currPorts : Dict ℕ Bool) (pStatusFn : ℕ → Bool) : List Call :=
  (currPorts.keys.sort (· ≤ ·)).filterMap fun port =>
    cbTodo port (currPorts.get port) (pStatusFn port)

/-- The steps. A poll comes with what `p_status_fn` says of each port. -/
inductive Action where
  | notify (id port : ℕ) (evt : PortStatus)
  | poll (pStatusFn : ℕ → Bool)
  | deliver (thread : Thread)

namespace PortMonitorActive

/-- The thread has a call to make. -/
def Busy (m : PortMonitorActive) (thread : Thread) : Prop := ∃ c ∈ m.calls.due, c.thread = thread

instance (m : PortMonitorActive) (thread : Thread) : Decidable (m.Busy thread) :=
  inferInstanceAs (Decidable (∃ _ ∈ _, _))

/-- One step. A thread with calls to make takes no other. -/
def step (m : PortMonitorActive) : Action → Option PortMonitorActive
  | .notify id port evt =>
    if m.Busy (.caller id) then none
    else
      match notifyPorts m.currPorts port evt with
      | none => some m
      | some currPorts =>
        some { currPorts := currPorts, calls := m.calls.note [⟨.caller id, port, evt⟩] }
  | .poll pStatusFn =>
    if m.Busy .monitor then none
    else
      some {
        currPorts := { m.currPorts with get := pStatusFn }
        calls := m.calls.note (cbsTodo m.currPorts pStatusFn) }
  | .deliver thread =>
    (m.calls.deliver (·.thread = thread)).map fun calls => { m with calls := calls }

/-- The events delivered for a port, in the order of their calls. -/
def deliveredOf (m : PortMonitorActive) (port : ℕ) : List PortStatus :=
  (m.calls.delivered.filter (·.port = port)).map Call.type

end PortMonitorActive

end PortMonitor

end P4Bricks
