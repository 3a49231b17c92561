import P4Bricks.Common.Heap
/-!
# Queues between the stages of a target

`queueing.h`. Logical queues are served by workers, each queue by one of them.
`QueueingLogic` keeps one queue for each worker; `QueueingLogicRL` keeps a heap
ordered by the time at which an element may leave, which the rate of its queue
sets; `QueueingLogicPriRL` keeps one such heap for each priority.

`none` is a call that does not return: it waits, throws, or leaves an array. A
call that waits is tried again later. Each call that looks at the clock comes
with what it reads. The delay for a rate is a number of ticks that the source
computes in floating point; it is a parameter.
-/

namespace P4Bricks

namespace Queueing

/-! ## Events -/

/-- What a call does that a producer or a consumer sees: an element is accepted
for a lane, which is a queue or a priority of a queue, or popped from it. -/
inductive Event (κ T : Type*) where
  | accepted (lane : κ) (item : T)
  | popped (lane : κ) (item : T)

namespace Event

variable {κ T : Type*} [DecidableEq κ]

/-- The elements accepted for a lane, in order. -/
def acceptedFor (lane : κ) : List (Event κ T) → List T :=
  List.filterMap fun
    | .accepted l item => if l = lane then some item else none
    | .popped _ _ => none

/-- The elements popped from a lane, in order. -/
def poppedFrom (lane : κ) : List (Event κ T) → List T :=
  List.filterMap fun
    | .accepted _ _ => none
    | .popped l item => if l = lane then some item else none

end Event

/-- A run of calls, each met by the state it is made in, with what they do. -/
inductive RunIf {S R κ T : Type*} (step : S → R → Option (S × Option (Event κ T)))
    (ok : S → R → Prop) : S → List (Event κ T) → S → Prop where
  | nil (s) : RunIf step ok s [] s
  | snoc {s₀ es s r s' e} (hrun : RunIf step ok s₀ es s) (hok : ok s r)
      (hstep : step s r = some (s', e)) : RunIf step ok s₀ (es ++ e.toList) s'

/-- A call of a producer, a consumer or the control plane. Queues without
priorities ignore them. -/
inductive Request (T : Type*) where
  | pushFront (queueId priority : ℕ) (item : T) (now : ℕ)
  | popBack (workerId now : ℕ)
  | setCapacity (queueId priority c : ℕ)
  | setCapacities (queueId c : ℕ)
  | setRate (queueId priority pps : ℕ)
  | setRates (queueId pps : ℕ)

/-! ## `QueueingLogic` -/

structure QueueInfo where
  size : ℕ
  capacity : ℕ

/-- `QueueingLogic`. The front of a worker's queue is the head of the list. -/
structure QueueingLogic (T : Type*) where
  nbQueues : ℕ
  nbWorkers : ℕ
  queuesInfo : ℕ → QueueInfo
  workersInfo : ℕ → List (T × ℕ)
  mapToWorker : ℕ → ℕ

namespace QueueingLogic

variable {T : Type*}

def create (nbQueues nbWorkers capacity : ℕ) (mapToWorker : ℕ → ℕ) : QueueingLogic T :=
  ⟨nbQueues, nbWorkers, fun _ => ⟨0, capacity⟩, fun _ => [], mapToWorker⟩

/-- Both `at`s are in range. -/
def InRange (s : QueueingLogic T) (queueId : ℕ) : Prop :=
  queueId < s.nbQueues ∧ s.mapToWorker queueId < s.nbWorkers

instance (s : QueueingLogic T) (queueId : ℕ) : Decidable (s.InRange queueId) :=
  inferInstanceAs (Decidable (_ ∧ _))

def pushFront (s : QueueingLogic T) (queueId : ℕ) (item : T) : Option (QueueingLogic T) :=
  if s.InRange queueId ∧ (s.queuesInfo queueId).size < (s.queuesInfo queueId).capacity then
    let w := s.mapToWorker queueId
    some { s with
      workersInfo := Function.update s.workersInfo w ((item, queueId) :: s.workersInfo w)
      queuesInfo := Function.update s.queuesInfo queueId
        { s.queuesInfo queueId with size := (s.queuesInfo queueId).size + 1 } }
  else none

/-- The back of the worker's queue leaves it. -/
def popBack (s : QueueingLogic T) (workerId : ℕ) : Option (QueueingLogic T × T × ℕ) :=
  if workerId < s.nbWorkers then
    match (s.workersInfo workerId).getLast? with
    | none => none
    | some (item, queueId) =>
      if queueId < s.nbQueues then
        some ({ s with
          workersInfo := Function.update s.workersInfo workerId (s.workersInfo workerId).dropLast
          queuesInfo := Function.update s.queuesInfo queueId
            { s.queuesInfo queueId with size := (s.queuesInfo queueId).size - 1 } }, item, queueId)
      else none
  else none

def setCapacity (s : QueueingLogic T) (queueId c : ℕ) : Option (QueueingLogic T) :=
  if s.InRange queueId then
    some { s with
      queuesInfo := Function.update s.queuesInfo queueId
        { s.queuesInfo queueId with capacity := c } }
  else none

/-- There are no rates. -/
def step (s : QueueingLogic T) : Request T → Option (QueueingLogic T × Option (Event ℕ T))
  | .pushFront queueId _ item _ =>
    (s.pushFront queueId item).map (·, some (.accepted queueId item))
  | .popBack workerId _ => (s.popBack workerId).map fun r => (r.1, some (.popped r.2.2 r.2.1))
  | .setCapacity queueId _ c => (s.setCapacity queueId c).map (·, none)
  | .setCapacities queueId c => (s.setCapacity queueId c).map (·, none)
  | _ => none

end QueueingLogic

/-! ## Rates -/

/-- An element with the time at which it may leave. -/
structure QE (T : Type*) where
  e : T
  queueId : ℕ
  send : ℕ
  deriving Inhabited

/-- `QueueInfo` of a queue with a rate, and `QueueInfoPri`. -/
structure QueueInfoRL where
  size : ℕ
  capacity : ℕ
  queueRatePps : ℕ := 0
  pktDelayTicks : ℕ := 0
  lastSent : ℕ

namespace QueueInfoRL

def getNextTp (info : QueueInfoRL) (now : ℕ) : ℕ := max now (info.lastSent + info.pktDelayTicks)

/-- The queue after an element was accepted. -/
def accept (info : QueueInfoRL) (now : ℕ) : QueueInfoRL :=
  { info with size := info.size + 1, lastSent := info.getNextTp now }

def remove (info : QueueInfoRL) : QueueInfoRL := { info with size := info.size - 1 }

def withRate (info : QueueInfoRL) (pps delay : ℕ) : QueueInfoRL :=
  { info with queueRatePps := pps, pktDelayTicks := delay }

end QueueInfoRL

/-! ## `QueueingLogicRL` -/

structure QueueingLogicRL (T : Type*) where
  nbQueues : ℕ
  nbWorkers : ℕ
  queuesInfo : ℕ → QueueInfoRL
  workersInfo : ℕ → Heap (QE T)
  mapToWorker : ℕ → ℕ

namespace QueueingLogicRL

variable {T : Type*}

def create [Inhabited T] (nbQueues nbWorkers capacity : ℕ) (mapToWorker : ℕ → ℕ) (now : ℕ) :
    QueueingLogicRL T :=
  ⟨nbQueues, nbWorkers, fun _ => { size := 0, capacity := capacity, lastSent := now },
    fun _ => .empty, mapToWorker⟩

def InRange (s : QueueingLogicRL T) (queueId : ℕ) : Prop :=
  queueId < s.nbQueues ∧ s.mapToWorker queueId < s.nbWorkers

instance (s : QueueingLogicRL T) (queueId : ℕ) : Decidable (s.InRange queueId) :=
  inferInstanceAs (Decidable (_ ∧ _))

/-- An element is put into the heap, and counted. -/
def enqueue (s : QueueingLogicRL T) (queueId : ℕ) (item : T) (now : ℕ) : QueueingLogicRL T :=
  let info := s.queuesInfo queueId
  let w := s.mapToWorker queueId
  { s with
    workersInfo := Function.update s.workersInfo w
      ((s.workersInfo w).push QE.send ⟨item, queueId, info.getNextTp now⟩)
    queuesInfo := Function.update s.queuesInfo queueId (info.accept now) }

/-- `push_front`, which is `true` if the element was accepted. -/
def pushFront (s : QueueingLogicRL T) (queueId : ℕ) (item : T) (now : ℕ) :
    Option (QueueingLogicRL T × Bool) :=
  if s.InRange queueId then
    if (s.queuesInfo queueId).size ≥ (s.queuesInfo queueId).capacity then some (s, false)
    else some (s.enqueue queueId item now, true)
  else none

/-- The front of a heap leaves it. -/
def dequeue (s : QueueingLogicRL T) (workerId queueId : ℕ) : QueueingLogicRL T :=
  { s with
    workersInfo := Function.update s.workersInfo workerId ((s.workersInfo workerId).pop QE.send)
    queuesInfo := Function.update s.queuesInfo queueId (s.queuesInfo queueId).remove }

def popBack (s : QueueingLogicRL T) (workerId now : ℕ) : Option (QueueingLogicRL T × QE T) :=
  if workerId < s.nbWorkers then
    match (s.workersInfo workerId).front? with
    | none => none
    | some qe =>
      if qe.send ≤ now ∧ qe.queueId < s.nbQueues then some (s.dequeue workerId qe.queueId, qe)
      else none
  else none

def size (s : QueueingLogicRL T) (queueId : ℕ) : Option ℕ :=
  if s.InRange queueId then some (s.queuesInfo queueId).size else none

def setCapacity (s : QueueingLogicRL T) (queueId c : ℕ) : Option (QueueingLogicRL T) :=
  if s.InRange queueId then
    some { s with
      queuesInfo := Function.update s.queuesInfo queueId
        { s.queuesInfo queueId with capacity := c } }
  else none

/-- There is no delay for a rate of zero. -/
def setRate (pktDelay : ℕ → ℕ) (s : QueueingLogicRL T) (queueId pps : ℕ) :
    Option (QueueingLogicRL T) :=
  if s.InRange queueId ∧ pps ≠ 0 then
    some { s with
      queuesInfo := Function.update s.queuesInfo queueId
        ((s.queuesInfo queueId).withRate pps (pktDelay pps)) }
  else none

def step (pktDelay : ℕ → ℕ) (s : QueueingLogicRL T) :
    Request T → Option (QueueingLogicRL T × Option (Event ℕ T))
  | .pushFront queueId _ item now => (s.pushFront queueId item now).map fun r =>
    (r.1, if r.2 then some (.accepted queueId item) else none)
  | .popBack workerId now => (s.popBack workerId now).map fun r =>
    (r.1, some (.popped r.2.queueId r.2.e))
  | .setCapacity queueId _ c => (s.setCapacity queueId c).map (·, none)
  | .setCapacities queueId c => (s.setCapacity queueId c).map (·, none)
  | .setRate queueId _ pps => (s.setRate pktDelay queueId pps).map (·, none)
  | .setRates queueId pps => (s.setRate pktDelay queueId pps).map (·, none)

end QueueingLogicRL

/-! ## `QueueingLogicPriRL` -/

/-- The priorities of a queue, and their total. -/
structure QueueInfoPris where
  size : ℕ
  pris : ℕ → QueueInfoRL

structure WorkerInfoPri (T : Type*) where
  size : ℕ
  queues : ℕ → Heap (QE T)

structure QueueingLogicPriRL (T : Type*) where
  nbQueues : ℕ
  nbWorkers : ℕ
  nbPriorities : ℕ
  queuesInfo : ℕ → QueueInfoPris
  workersInfo : ℕ → WorkerInfoPri T
  mapToWorker : ℕ → ℕ

namespace QueueingLogicPriRL

variable {T : Type*}

/-- The heaps of a worker are an array of this size. -/
def maxPriorities : ℕ := 32

def create [Inhabited T] (nbQueues nbWorkers capacity : ℕ) (mapToWorker : ℕ → ℕ)
    (nbPriorities now : ℕ) : QueueingLogicPriRL T :=
  ⟨nbQueues, nbWorkers, nbPriorities,
    fun _ => ⟨0, fun _ => { size := 0, capacity := capacity, lastSent := now }⟩,
    fun _ => ⟨0, fun _ => .empty⟩, mapToWorker⟩

def InRange (s : QueueingLogicPriRL T) (queueId priority : ℕ) : Prop :=
  queueId < s.nbQueues ∧ s.mapToWorker queueId < s.nbWorkers ∧ priority < s.nbPriorities

instance (s : QueueingLogicPriRL T) (queueId priority : ℕ) :
    Decidable (s.InRange queueId priority) :=
  inferInstanceAs (Decidable (_ ∧ _))

/-- An element is put into the heap of its priority, and counted three times. -/
def enqueue (s : QueueingLogicPriRL T) (queueId priority : ℕ) (item : T) (now : ℕ) :
    QueueingLogicPriRL T :=
  let info := (s.queuesInfo queueId).pris priority
  let w := s.mapToWorker queueId
  let worker := s.workersInfo w
  { s with
    workersInfo := Function.update s.workersInfo w
      ⟨worker.size + 1, Function.update worker.queues priority
        ((worker.queues priority).push QE.send ⟨item, queueId, info.getNextTp now⟩)⟩
    queuesInfo := Function.update s.queuesInfo queueId
      ⟨(s.queuesInfo queueId).size + 1,
        Function.update (s.queuesInfo queueId).pris priority (info.accept now)⟩ }

def pushFront (s : QueueingLogicPriRL T) (queueId priority : ℕ) (item : T) (now : ℕ) :
    Option (QueueingLogicPriRL T × Bool) :=
  if s.InRange queueId priority then
    if ((s.queuesInfo queueId).pris priority).size ≥
        ((s.queuesInfo queueId).pris priority).capacity then some (s, false)
    else if priority < maxPriorities then some (s.enqueue queueId priority item now, true)
    else none
  else none

/-- The front of the heap may leave. -/
def ready (h : Heap (QE T)) (now : ℕ) : Bool :=
  (h.front?.map fun qe => decide (qe.send ≤ now)).getD false

/-- The front of the heap of a priority leaves it. The worker's count stays. -/
def dequeue (s : QueueingLogicPriRL T) (workerId pri queueId : ℕ) : QueueingLogicPriRL T :=
  let worker := s.workersInfo workerId
  { s with
    workersInfo := Function.update s.workersInfo workerId
      { worker with
        queues := Function.update worker.queues pri ((worker.queues pri).pop QE.send) }
    queuesInfo := Function.update s.queuesInfo queueId
      ⟨(s.queuesInfo queueId).size - 1,
        Function.update (s.queuesInfo queueId).pris pri
          ((s.queuesInfo queueId).pris pri).remove⟩ }

/-- The element of the first priority that may leave. -/
def popBack (s : QueueingLogicPriRL T) (workerId now : ℕ) :
    Option (QueueingLogicPriRL T × ℕ × QE T) :=
  if workerId < s.nbWorkers ∧ (s.workersInfo workerId).size ≠ 0 then
    let worker := s.workersInfo workerId
    match (List.range s.nbPriorities).find? fun pri => ready (worker.queues pri) now with
    | none => none
    | some pri =>
      match (worker.queues pri).front? with
      | none => none
      | some qe =>
        if pri < maxPriorities ∧ qe.queueId < s.nbQueues then
          some (s.dequeue workerId pri qe.queueId, pri, qe)
        else none
  else none

/-- `size` of a queue. -/
def size (s : QueueingLogicPriRL T) (queueId : ℕ) : Option ℕ :=
  if queueId < s.nbQueues ∧ s.mapToWorker queueId < s.nbWorkers then
    some (s.queuesInfo queueId).size
  else none

/-- `size` of a priority of a queue, which returns that of the queue. -/
def sizePri (s : QueueingLogicPriRL T) (queueId priority : ℕ) : Option ℕ :=
  if s.InRange queueId priority then some (s.queuesInfo queueId).size else none

/-- `for_one_q`. -/
def forOneQ (s : QueueingLogicPriRL T) (queueId priority : ℕ) (f : QueueInfoRL → QueueInfoRL) :
    Option (QueueingLogicPriRL T) :=
  if s.InRange queueId priority then
    some { s with
      queuesInfo := Function.update s.queuesInfo queueId
        { s.queuesInfo queueId with
          pris := Function.update (s.queuesInfo queueId).pris priority
            (f ((s.queuesInfo queueId).pris priority)) } }
  else none

/-- `for_each_q`. -/
def forEachQ (s : QueueingLogicPriRL T) (queueId : ℕ) (f : QueueInfoRL → QueueInfoRL) :
    Option (QueueingLogicPriRL T) :=
  if queueId < s.nbQueues ∧ s.mapToWorker queueId < s.nbWorkers then
    some { s with
      queuesInfo := Function.update s.queuesInfo queueId
        { s.queuesInfo queueId with pris := fun pri => f ((s.queuesInfo queueId).pris pri) } }
  else none

def step (pktDelay : ℕ → ℕ) (s : QueueingLogicPriRL T) :
    Request T → Option (QueueingLogicPriRL T × Option (Event (ℕ × ℕ) T))
  | .pushFront queueId priority item now => (s.pushFront queueId priority item now).map fun r =>
    (r.1, if r.2 then some (.accepted (queueId, priority) item) else none)
  | .popBack workerId now => (s.popBack workerId now).map fun r =>
    (r.1, some (.popped (r.2.2.queueId, r.2.1) r.2.2.e))
  | .setCapacity queueId priority c =>
    (s.forOneQ queueId priority fun info => { info with capacity := c }).map (·, none)
  | .setCapacities queueId c =>
    (s.forEachQ queueId fun info => { info with capacity := c }).map (·, none)
  | .setRate queueId priority pps =>
    if pps = 0 then none
    else (s.forOneQ queueId priority fun info => info.withRate pps (pktDelay pps)).map (·, none)
  | .setRates queueId pps =>
    if pps = 0 then none
    else (s.forEachQ queueId fun info => info.withRate pps (pktDelay pps)).map (·, none)

end QueueingLogicPriRL

end Queueing

end P4Bricks
