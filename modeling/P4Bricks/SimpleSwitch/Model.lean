import P4Bricks.Pre.Lag
import P4Bricks.Queueing.Model
import P4Bricks.Queueing.Queue
import P4Bricks.SimpleSwitch.Program
import P4Bricks.Switch.Model
/-!
# The simple switch

`simple_switch.cpp`: a thread that receives, one ingress thread, four egress
threads and one that transmits, with the queues between them, and the control
plane. A step is what one thread does up to where it meets the others next, so
that a run is an interleaving of the threads. A thread that waits has no step, and
neither has one in which an assertion fails.

A swap is ordered by the control plane, and `do_swap` is called by the thread that
ordered it as well as by the receiving thread, whichever gets the mutex first.

The clock is read where the source reads it, and new memory holds anything: both
come with the step, as what a pipeline executes does.
-/

namespace P4Bricks

open Parsing Queueing

namespace SimpleSwitch

/-! ## What the threads hold -/

/-- Where `receive_` is: in `do_swap`, where it waits for the mutex or has it, after
a swap of its own, before the packet is made, or with the packet. -/
inductive Receiver where
  | idle
  | swapping (port : ℤ) (data : ByteContainer)
  | checking (port : ℤ) (data : ByteContainer)
  | ready (port : ℤ) (data : ByteContainer)
  | holding (p : Packet)

/-- Who calls `do_swap`. -/
inductive Swapper where
  | receiver
  | controlPlane
  deriving DecidableEq, Repr

/-- Where `do_swap` is while it has the mutex: it waits until no packet is left, then
swaps the objects, then sets the factory of the pool. -/
inductive SwapPhase where
  | draining
  | drained
  | swapped
  deriving DecidableEq, Repr

/-- The fields that ingress reads after its pipeline. -/
structure IngressSpec where
  egressSpec : ℤ
  cloneSpec : ℕ
  learnId : ℤ
  mgid : ℕ

/-- Where `ingress_thread` is. `packetIn` is the state of the buffer that was
saved before the parser. -/
inductive Ingress where
  | idle
  | popped (p : Packet)
  | applied (p : Packet) (packetIn : ℕ) (spec : IngressSpec)
  | cloned (p : Packet) (packetIn : ℕ) (spec : IngressSpec)
  | resubmitting (p copy : Packet)
  | multicasting (p : Packet) (instanceType : ℤ) (outs : List Pre.McOut)

/-- Where an `egress_thread` is. -/
inductive Egress where
  | idle
  | popped (port : ℕ) (p : Packet)
  | applied (port : ℕ) (p : Packet)
  | cloned (port : ℕ) (p : Packet)
  | recirculating (port : ℕ) (p copy : Packet)
  | outputting (port : ℕ) (p : Packet)

/-- `nb_egress_threads`. -/
def nbEgressThreads : ℕ := 4

/-- What is seen of the switch: a packet that is received, one that the egress queue
of a port accepts, one that an egress thread sends back to ingress, and one that is
sent. -/
inductive Event where
  | received (packetId : ℕ) (port : ℤ) (data : ByteContainer)
  | enqueued (packetId : ℕ) (queueId : ℕ)
  | recirculated (packetId : ℕ) (data : ByteContainer)
  | sent (packetId : ℕ) (port : ℤ) (bytes : ByteContainer)
  deriving DecidableEq, Repr

end SimpleSwitch

open SimpleSwitch

/-- `SimpleSwitch`. `pktDelay` is the delay for a rate of its egress queues,
`ongoingSwap` says who has `ongoing_swap_mutex`, and `orders` is the number of
threads of the control plane that have ordered a swap and come to `do_swap` next. -/
structure SimpleSwitch where
  enableSwap : Bool
  start : ℕ
  pktDelay : ℕ → ℕ
  cxt : Switch.Context Program
  pool : PhvPool
  ongoingSwap : Option (Swapper × SwapPhase)
  orders : ℕ
  pktId : Int32
  receiver : Receiver
  inputBuffer : Queue SimpleSwitch.Packet
  ingress : Ingress
  egressBuffers : QueueingLogicRL SimpleSwitch.Packet
  egress : Fin nbEgressThreads → Egress
  outputBuffer : Queue SimpleSwitch.Packet
  transmit : Option SimpleSwitch.Packet
  mirroringMap : Dict ℤ ℤ
  pre : Pre.McSimplePreLAG
  withQueueingMetadata : Bool

namespace SimpleSwitch

/-- What the threads and the control plane do. -/
inductive Label where
  | receive (port : ℤ) (data : ByteContainer)
  | lockSwap (swapper : Swapper)
  | drain
  | swapObjects
  | setFactory
  | checkQueueing
  | newPacket (memory : Memory) (ts : ℕ)
  | pushInput
  | popInput
  | ingressApply (n : ℕ) (registers : Registers) (ops : List Primitive)
  | ingressClone (n : ℕ) (registers : Registers) (memory : Memory) (ts now : ℕ)
  | ingressFinish (memory : Memory) (ts now : ℕ)
  | pushResubmit
  | multicast (memory : Memory) (ts now : ℕ)
  | popEgress (worker : Fin nbEgressThreads) (now : ℕ)
  | egressApply (worker : Fin nbEgressThreads) (ts : ℕ) (ops : List Primitive)
  | egressClone (worker : Fin nbEgressThreads) (memory : Memory) (ts now : ℕ)
  | egressFinish (worker : Fin nbEgressThreads) (memory : Memory)
  | pushRecirc (worker : Fin nbEgressThreads)
  | pushOutput (worker : Fin nbEgressThreads)
  | popOutput
  | transmit
  | mirroringMappingAdd (mirrorId port : ℤ)
  | mirroringMappingDelete (mirrorId : ℤ)
  | setEgressQueueDepth (port : ℤ) (depthPkts : ℕ)
  | setEgressQueueRate (port : ℤ) (ratePps : ℕ)
  | pre (r : Pre.McSimplePreLAG.Request)
  | loadNewConfig (objects : Program)
  | swapConfigs
  | request (objects : Program)

variable (s : SimpleSwitch)

/-- The objects that packets go through. -/
def program : Program := s.cxt.p4objects

/-- `get_ts`, in microseconds. -/
def getTs (now : ℕ) : ℤ := Int.tdiv ((now : ℤ) - s.start) 1000

/-- `get_mirroring_mapping`. -/
def getMirroringMapping (mirrorId : ℤ) : ℤ := (s.mirroringMap.at? mirrorId).getD (-1)

/-- `check_queueing_metadata`, which never takes the flag back. -/
def checkQueueingMetadata : SimpleSwitch :=
  { s with withQueueingMetadata := s.withQueueingMetadata || s.program.hasQueueingMetadata }

/-- What `enqueue` writes into a packet. -/
def stamped (egressPort : ℤ) (p : Packet) (ts : ℕ) : Option Packet :=
  if s.withQueueingMetadata then do
    let phv ← setField p.phv (← s.program.fields.enqTimestamp) (s.getTs ts)
    let qdepth ← s.egressBuffers.size (sizeOfInt egressPort)
    let phv ← setField phv (← s.program.fields.enqQdepth) qdepth
    some { p with egressPort := egressPort, phv := phv }
  else some { p with egressPort := egressPort }

/-- `enqueue`. The owner of a packet that is refused destroys it. -/
def enqueue (egressPort : ℤ) (p : Packet) (ts now : ℕ) : Option (SimpleSwitch × List Event) := do
  let p ← s.stamped egressPort p ts
  let pushed ← s.egressBuffers.pushFront (sizeOfInt egressPort) p now
  some ({ s with
      egressBuffers := pushed.1
      pool := if pushed.2 then s.pool else p.destroy s.pool },
    if pushed.2 then [.enqueued p.packetId (sizeOfInt egressPort)] else [])

/-- `copy_ingress_pkt`. -/
def copyIngressPkt (p : Packet) (copyType : PktInstanceType) (fieldListId : ℤ) (memory : Memory) :
    Option (Packet × PhvPool) := do
  let copy := p.cloneNoPhv memory s.pool
  let phv ← s.program.carry copy.1.phv.resetMetadata p.phv fieldListId copyType
  some (copy.1.withPhv phv, copy.2)

/-! ## The swap -/

/-- `do_swap` gets the mutex. The receiving thread goes on without a swap where the
one that was requested is done by then; the control plane asserts that it is not. -/
def lockSwap (swapper : Swapper) : Option SimpleSwitch :=
  match s.ongoingSwap, swapper, s.receiver with
  | none, .receiver, .swapping port data =>
    some (if s.cxt.swapOrdered then { s with ongoingSwap := some (.receiver, .draining) }
      else { s with receiver := .ready port data })
  | none, .controlPlane, _ =>
    if 0 < s.orders ∧ s.cxt.swapOrdered then
      some { s with ongoingSwap := some (.controlPlane, .draining), orders := s.orders - 1 }
    else none
  | _, _, _ => none

/-- The loop that waits until no header vector is in use. -/
def drain : Option SimpleSwitch :=
  match s.ongoingSwap with
  | some (swapper, .draining) =>
    if s.pool.phvsInUse = 0 then some { s with ongoingSwap := some (swapper, .drained) } else none
  | _ => none

/-- `Context::do_swap`. -/
def swapObjects : Option SimpleSwitch :=
  match s.ongoingSwap with
  | some (swapper, .drained) =>
    some { s with cxt := s.cxt.doSwap.2, ongoingSwap := some (swapper, .swapped) }
  | _ => none

/-- `do_swap` has returned zero to `receive_`. -/
def Receiver.afterSwap : Receiver → Receiver
  | .swapping port data => .checking port data
  | r => r

/-- `PHVSourceIface::set_phv_factory`, after which the mutex is free. -/
def setFactory : Option SimpleSwitch :=
  match s.ongoingSwap with
  | some (swapper, .swapped) => do
    let pool ← s.pool.setPhvFactory s.program.factory
    some { s with
      pool := pool
      ongoingSwap := none
      receiver := if swapper = .receiver then s.receiver.afterSwap else s.receiver }
  | _ => none

/-! ## Receiving -/

/-- A packet that arrives: `do_swap` first sees whether a swap is requested. -/
def receive (port : ℤ) (data : ByteContainer) : Option SimpleSwitch :=
  match s.receiver with
  | .idle =>
    if data.length < 2 ^ 31 then
      some { s with
        receiver := if s.enableSwap && s.cxt.swapOrdered then .swapping port data
          else .ready port data }
    else none
  | _ => none

/-- What follows a swap in `receive_`. -/
def checkQueueing : Option SimpleSwitch :=
  match s.receiver with
  | .checking port data => some { s.checkQueueingMetadata with receiver := .ready port data }
  | _ => none

/-- The `int` that counts packets, as the `packet_id_t` of one: 64 bits without sign. -/
def packetIdOf (pktId : Int32) : ℕ := (pktId.toInt % 2 ^ 64).toNat

/-- What `receive_` writes into a new packet. -/
def received (p : Packet) (port : ℤ) (len : ℕ) (ts : ℕ) : Option Packet := do
  let phv ← setField p.phv.resetMetadata s.program.fields.ingressPort port
  let phv ← setField phv s.program.fields.packetLength len
  let phv ← setField phv s.program.fields.instanceType PktInstanceType.normal.code
  let phv ← setIfHas phv s.program.fields.ingressGlobalTimestamp (s.getTs ts)
  some { p with phv := phv, register := UInt64.ofNat len }

/-- The packet is made, by `new_packet_ptr`, which waits where there is a swap. Its
buffer has room for 512 bytes in front of it. `pkt_id++` is taken to wrap where it
overflows. -/
def newPacket (memory : Memory) (ts : ℕ) : Option (SimpleSwitch × List Event) :=
  match s.receiver, s.ongoingSwap with
  | .ready port data, none => do
    let buffer ← (PacketBuffer.create memory (data.length + 512) data).toOption
    let made := Packet.create memory s.pool port (packetIdOf s.pktId) (Int32.ofNat data.length) buffer
    let p ← s.received made.1 port data.length ts
    some ({ s with pool := made.2, pktId := s.pktId + 1, receiver := .holding p },
      [.received (packetIdOf s.pktId) port data])
  | _, _ => none

def pushInput : Option SimpleSwitch :=
  match s.receiver with
  | .holding p => do
    let inputBuffer ← s.inputBuffer.pushFront p
    some { s with inputBuffer := inputBuffer, receiver := .idle }
  | _ => none

/-! ## Ingress -/

def popInput : Option SimpleSwitch :=
  match s.ingress with
  | .idle => do
    let popped ← s.inputBuffer.popBack
    some { s with inputBuffer := popped.2, ingress := .popped popped.1 }
  | _ => none

/-- The fields that are read after the pipeline. -/
def ingressSpec (phv : Phv) : Option IngressSpec := do
  let egressSpec ← s.program.getInt phv s.program.fields.egressSpec
  let cloneSpec ← s.program.getUint phv s.program.fields.cloneSpec
  let learnId ← s.program.getIntIfHas phv s.program.fields.lfFieldList
  let mgid ← s.program.getUintIfHas phv s.program.fields.mcastGrp
  some ⟨egressSpec, cloneSpec, learnId, mgid⟩

/-- The parser and the ingress pipeline. -/
def ingressApply (n : ℕ) (registers : Registers) (ops : List Primitive) : Option SimpleSwitch :=
  match s.ingress with
  | .popped p => do
    let packetIn := p.saveBufferState
    let p ← s.program.parse n registers p
    let p ← applyAll p ops
    let spec ← s.ingressSpec p.phv
    some { s with ingress := .applied p packetIn spec }
  | _ => none

/-- The ingress clone, if there is one: a copy of what the parser was given, which
is parsed again. -/
def ingressClone (n : ℕ) (registers : Registers) (memory : Memory) (ts now : ℕ) :
    Option (SimpleSwitch × List Event) :=
  match s.ingress with
  | .applied p packetIn spec =>
    if spec.cloneSpec = 0 then some ({ s with ingress := .cloned p packetIn spec }, [])
    else do
      -- The lower half of the field is the mirror id, the upper one the field list.
      let egressPort := s.getMirroringMapping (spec.cloneSpec % 2 ^ 16 : ℕ)
      let phv ← setField p.phv s.program.fields.cloneSpec 0
      let p := p.withPhv phv
      if 0 ≤ egressPort then
        -- The clone starts from what the parser was given. The packet itself is then set back to
        -- where its own parser left it.
        let packetOut := p.saveBufferState
        let p := p.restoreBufferState packetIn
        let copied ← s.copyIngressPkt p .ingressClone (spec.cloneSpec / 2 ^ 16 : ℕ) memory
        let copy ← s.program.parse n registers copied.1
        let (s, es) ← enqueue { s with pool := copied.2 } egressPort copy ts now
        some ({ s with ingress := .cloned (p.restoreBufferState packetOut) packetIn spec }, es)
      else some ({ s with ingress := .cloned p packetIn spec }, [])
  | _ => none

/-- The field of a resubmission, if it is set. -/
def flagged (phv : Phv) (flag : Option FieldRef) : Option (Option (FieldRef × ℤ)) :=
  match flag with
  | none => some none
  | some f => do
    let v ← s.program.getInt phv f
    some (if v = 0 then none else some (f, v))

/-- What comes last: the packet is resubmitted, replicated, dropped or enqueued. -/
def ingressFinish (memory : Memory) (ts now : ℕ) : Option (SimpleSwitch × List Event) :=
  match s.ingress with
  | .cloned p packetIn spec => do
    match ← s.flagged p.phv s.program.fields.resubmitFlag with
    | some (f, fieldListId) =>
      let phv ← setField p.phv f 0
      let p := (p.restoreBufferState packetIn).withPhv phv
      let copied ← s.copyIngressPkt p .resubmit fieldListId memory
      some ({ s with pool := copied.2, ingress := .resubmitting p copied.1 }, [])
    | none =>
      let instanceType ← s.program.getInt p.phv s.program.fields.instanceType
      if spec.mgid ≠ 0 then
        -- `get_field` throws where the program has no such field.
        let _ ← s.program.fields.egressRid
        let outs ← s.pre.replicate spec.mgid
        some ({ s with ingress := .multicasting p instanceType outs }, [])
      else if spec.egressSpec = 511 then
        some ({ s with ingress := .idle, pool := p.destroy s.pool }, [])
      else do
        let (s, es) ← s.enqueue spec.egressSpec p ts now
        some ({ s with ingress := .idle }, es)
  | _ => none

def pushResubmit : Option SimpleSwitch :=
  match s.ingress with
  | .resubmitting p copy => do
    let inputBuffer ← s.inputBuffer.pushFront copy
    some { s with inputBuffer := inputBuffer, ingress := .idle, pool := p.destroy s.pool }
  | _ => none

/-- One round of the loop over the replicas, or its end: the original is
discarded. -/
def multicast (memory : Memory) (ts now : ℕ) : Option (SimpleSwitch × List Event) :=
  match s.ingress with
  | .multicasting p instanceType [] => do
    let phv ← setField p.phv s.program.fields.instanceType instanceType
    some ({ s with ingress := .idle, pool := (p.withPhv phv).destroy s.pool }, [])
  | .multicasting p instanceType (out :: outs) => do
    let phv ← setField p.phv (← s.program.fields.egressRid) out.rid
    let phv ← setField phv s.program.fields.instanceType PktInstanceType.replication.code
    let p := p.withPhv phv
    let copied ← (p.cloneWithPhv memory s.pool).toOption
    -- A clone does not have the registers of its packet: the length is set again.
    let (s, es) ← enqueue { s with pool := copied.2 } out.egressPort
      { copied.1 with register := p.register } ts now
    some ({ s with ingress := .multicasting p instanceType outs }, es)
  | _ => none

/-! ## Egress -/

/-- An egress thread goes on. -/
def setEgress (worker : Fin nbEgressThreads) (e : Egress) : SimpleSwitch :=
  { s with egress := Function.update s.egress worker e }

def popEgress (worker : Fin nbEgressThreads) (now : ℕ) : Option SimpleSwitch :=
  match s.egress worker with
  | .idle => do
    let popped ← s.egressBuffers.popBack worker now
    some (setEgress { s with egressBuffers := popped.1 } worker
      (.popped popped.2.queueId popped.2.e))
  | _ => none

/-- The queueing metadata of a packet that was popped. -/
def queueingMetadata (port : ℕ) (phv : Phv) (ts : ℕ) : Option Phv :=
  if s.withQueueingMetadata then do
    let enqTimestamp ← getValue phv (← s.program.fields.enqTimestamp)
    let phv ← setField phv (← s.program.fields.deqTimedelta)
      (s.getTs ts - s.program.toRep enqTimestamp)
    let qdepth ← s.egressBuffers.size port
    setField phv (← s.program.fields.deqQdepth) qdepth
  else some phv

/-- What an egress thread writes into a packet before the pipeline. -/
def dequeued (port : ℕ) (p : Packet) (ts : ℕ) : Option Packet := do
  let phv ← s.queueingMetadata port p.phv ts
  let phv ← setField phv s.program.fields.egressPort port
  let phv ← setField phv s.program.fields.egressSpec 0
  let phv ← setField phv s.program.fields.packetLength p.register.toNat
  some (p.withPhv phv)

def egressApply (worker : Fin nbEgressThreads) (ts : ℕ) (ops : List Primitive) :
    Option SimpleSwitch :=
  match s.egress worker with
  | .popped port p => do
    let p ← s.dequeued port p ts
    let p ← applyAll p ops
    some (s.setEgress worker (.applied port p))
  | _ => none

/-- The egress clone, if there is one. -/
def egressClone (worker : Fin nbEgressThreads) (memory : Memory) (ts now : ℕ) :
    Option (SimpleSwitch × List Event) :=
  match s.egress worker with
  | .applied port p => do
    let cloneSpec ← s.program.getUint p.phv s.program.fields.cloneSpec
    let egressPort := s.getMirroringMapping (cloneSpec % 2 ^ 16 : ℕ)
    if cloneSpec ≠ 0 ∧ 0 ≤ egressPort then
      let phv ← setField p.phv s.program.fields.cloneSpec 0
      let p := p.withPhv phv
      let copied ← (p.cloneWithPhvResetMetadata memory s.pool).toOption
      let phv ← s.program.carry copied.1.phv p.phv (cloneSpec / 2 ^ 16 : ℕ) .egressClone
      let (s, es) ← enqueue { s with pool := copied.2 } egressPort (copied.1.withPhv phv) ts now
      some (s.setEgress worker (.cloned port p), es)
    else some (s.setEgress worker (.cloned port p), [])
  | _ => none

/-- What is sent back to ingress: a copy of the deparsed packet. -/
def recirculate (p : Packet) (fieldListId : ℤ) (memory : Memory) :
    Option (Packet × PhvPool) := do
  let copy := p.cloneNoPhv memory s.pool
  let phv ← s.program.carry copy.1.phv.resetMetadata p.phv fieldListId .recirc
  let phv ← setField phv s.program.fields.packetLength copy.1.getDataSize
  some ({ copy.1 with phv := phv, register := UInt64.ofNat copy.1.getDataSize }, copy.2)

/-- The packet is dropped, or deparsed and recirculated or passed on. -/
def egressFinish (worker : Fin nbEgressThreads) (memory : Memory) :
    Option (SimpleSwitch × List Event) :=
  match s.egress worker with
  | .cloned port p => do
    let egressSpec ← s.program.getInt p.phv s.program.fields.egressSpec
    if egressSpec = 511 then
      some (setEgress { s with pool := p.destroy s.pool } worker .idle, [])
    else do
      -- What is recirculated is the deparsed packet, with its headers in the payload.
      let p ← s.program.deparse p
      match ← s.flagged p.phv s.program.fields.recirculateFlag with
      | some (f, fieldListId) =>
        let phv ← setField p.phv f 0
        let p := p.withPhv phv
        let copied ← s.recirculate p fieldListId memory
        some (setEgress { s with pool := copied.2 } worker (.recirculating port p copied.1),
          [.recirculated copied.1.packetId copied.1.buffer.data])
      | none => some (s.setEgress worker (.outputting port p), [])
  | _ => none

def pushRecirc (worker : Fin nbEgressThreads) : Option SimpleSwitch :=
  match s.egress worker with
  | .recirculating _ p copy => do
    let inputBuffer ← s.inputBuffer.pushFront copy
    some (setEgress { s with inputBuffer := inputBuffer, pool := p.destroy s.pool } worker .idle)
  | _ => none

def pushOutput (worker : Fin nbEgressThreads) : Option SimpleSwitch :=
  match s.egress worker with
  | .outputting _ p => do
    let outputBuffer ← s.outputBuffer.pushFront p
    some (setEgress { s with outputBuffer := outputBuffer } worker .idle)
  | _ => none

/-! ## Transmitting -/

def popOutput : Option SimpleSwitch :=
  match s.transmit with
  | none => do
    let popped ← s.outputBuffer.popBack
    some { s with outputBuffer := popped.2, transmit := some popped.1 }
  | some _ => none

def transmitPacket : Option (SimpleSwitch × List Event) :=
  match s.transmit with
  | none => none
  | some p => some ({ s with transmit := none, pool := p.destroy s.pool },
      [.sent p.packetId p.egressPort p.bytes])

/-! ## The control plane -/

/-- `load_new_config` and `Context::load_new_config`. -/
def loadNewConfig (objects : Program) : SimpleSwitch :=
  if s.enableSwap && s.cxt.p4objectsRt.isNone then
    { s with cxt := { s.cxt with p4objectsRt := some objects } }
  else s

/-- `swap_configs`, up to where it calls `do_swap`. -/
def swapConfigs : SimpleSwitch :=
  if s.enableSwap && s.cxt.p4objectsRt.isSome then
    { s with cxt := s.cxt.swapConfigs.2, orders := s.orders + 1 }
  else s

/-- A request that changes the objects it goes to: what they say of headers
stays. -/
def request (objects : Program) : Option SimpleSwitch :=
  if objects.factory = s.cxt.rt.factory then
    some { s with cxt := s.cxt.updateRt fun _ => objects }
  else none

/-! ## Steps and runs -/

/-- A step that is not seen. -/
def quiet (s : Option SimpleSwitch) : Option (SimpleSwitch × List Event) := s.map (·, [])

def step : Label → Option (SimpleSwitch × List Event)
  | .receive port data => quiet (s.receive port data)
  | .lockSwap swapper => quiet (s.lockSwap swapper)
  | .drain => quiet s.drain
  | .swapObjects => quiet s.swapObjects
  | .setFactory => quiet s.setFactory
  | .checkQueueing => quiet s.checkQueueing
  | .newPacket memory ts => s.newPacket memory ts
  | .pushInput => quiet s.pushInput
  | .popInput => quiet s.popInput
  | .ingressApply n registers ops => quiet (s.ingressApply n registers ops)
  | .ingressClone n registers memory ts now => s.ingressClone n registers memory ts now
  | .ingressFinish memory ts now => s.ingressFinish memory ts now
  | .pushResubmit => quiet s.pushResubmit
  | .multicast memory ts now => s.multicast memory ts now
  | .popEgress worker now => quiet (s.popEgress worker now)
  | .egressApply worker ts ops => quiet (s.egressApply worker ts ops)
  | .egressClone worker memory ts now => s.egressClone worker memory ts now
  | .egressFinish worker memory => s.egressFinish worker memory
  | .pushRecirc worker => quiet (s.pushRecirc worker)
  | .pushOutput worker => quiet (s.pushOutput worker)
  | .popOutput => quiet s.popOutput
  | .transmit => s.transmitPacket
  | .mirroringMappingAdd mirrorId port =>
    some ({ s with mirroringMap := s.mirroringMap.set mirrorId port }, [])
  | .mirroringMappingDelete mirrorId =>
    some ({ s with mirroringMap := s.mirroringMap.erase mirrorId }, [])
  | .setEgressQueueDepth port depthPkts =>
    (s.egressBuffers.setCapacity (sizeOfInt port) depthPkts).map ({ s with egressBuffers := · }, [])
  | .setEgressQueueRate port ratePps =>
    (s.egressBuffers.setRate s.pktDelay (sizeOfInt port) ratePps).map
      ({ s with egressBuffers := · }, [])
  | .pre r => (s.pre.step r).map ({ s with pre := · }, [])
  | .loadNewConfig objects => some (s.loadNewConfig objects, [])
  | .swapConfigs => some (s.swapConfigs, [])
  | .request objects => quiet (s.request objects)

/-- A step, with what was seen before it. -/
def stepLog (r : SimpleSwitch × List Event) (l : Label) : Option (SimpleSwitch × List Event) :=
  (r.1.step l).map fun r' => (r'.1, r.2 ++ r'.2)

/-- The switch when it is started with a program. The four egress threads serve
the ports in turn. -/
def create (maxPort : ℕ) (enableSwap : Bool) (objects : Program) (pktDelay : ℕ → ℕ) (now : ℕ) :
    SimpleSwitch :=
  checkQueueingMetadata
    { enableSwap := enableSwap
      start := now
      pktDelay := pktDelay
      cxt := ⟨0, false, objects, none, false⟩
      pool := .create objects.factory
      ongoingSwap := none
      orders := 0
      pktId := 0
      receiver := .idle
      inputBuffer := .create 1024 .writeBlock
      ingress := .idle
      egressBuffers := .create maxPort nbEgressThreads 64 (· % nbEgressThreads) now
      egress := fun _ => .idle
      outputBuffer := .create 128 .writeBlock
      transmit := none
      mirroringMap := .empty
      pre := .create
      withQueueingMetadata := false }

/-- A run of the switch from its start, with what is seen of it. -/
def RunsTo (maxPort : ℕ) (enableSwap : Bool) (objects : Program) (pktDelay : ℕ → ℕ) (now : ℕ)
    (labels : List Label) (s : SimpleSwitch) (es : List Event) : Prop :=
  Runs.run stepLog (create maxPort enableSwap objects pktDelay now, []) labels =
    some (s, es)

end SimpleSwitch

end P4Bricks
