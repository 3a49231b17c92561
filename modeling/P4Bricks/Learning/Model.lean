import P4Bricks.Common.Bits
import Mathlib.Logic.Function.Basic
/-!
# Learn lists

`LearnList` of `learning.cpp`. Samples of packets are gathered in a buffer, which
a packet thread swaps with a second one when it is full, or the transmit thread
when it is old; the transmit thread sends the second one. A sample is learned
once until a client acknowledges it: `filter` is the set of those that wait for
that, and `old_buffers` has, for each buffer, iterators to its samples there.

The steps of the machine are what is done under one lock, and the reads that the
transmit thread makes without one. A thread that waits for the second buffer to
be sent is counted in `waiting`.

An iterator is the name of a node, which no other node ever has. It is good
until the node is erased: a table of the library keeps its nodes when it grows.
`none` is behaviour that is not defined, such as a second erasure of a node, and
a step of the transmit thread that is not due.
-/

namespace P4Bricks

namespace Learning

/-! ## Samples -/

inductive LearnSampleEntry where
  | field (header offset : ℕ)
  | constant (offset : ℕ)

structure LearnSampleBuilder where
  entries : List LearnSampleEntry
  constants : List ByteContainer

/-- What a PHV has for each field. -/
abbrev FieldBytes := ℕ → ℕ → ByteContainer

namespace LearnSampleBuilder

def bytes (b : LearnSampleBuilder) (phv : FieldBytes) : LearnSampleEntry → ByteContainer
  | .field header offset => phv header offset
  | .constant offset => b.constants.getD offset []

def sample (b : LearnSampleBuilder) (phv : FieldBytes) : ByteContainer :=
  b.entries.flatMap (b.bytes phv)

end LearnSampleBuilder

/-! ## The list -/

/-- `FilterPtrs`. The nodes are in the order of the samples. -/
structure FilterPtrs where
  unackedCount : ℕ
  buffer : List ℕ

namespace FilterPtrs

/-- The record of a buffer with one node more. -/
def push (ptrs : Option FilterPtrs) (node : ℕ) : FilterPtrs :=
  let ptrs := ptrs.getD ⟨0, []⟩
  ⟨ptrs.unackedCount + 1, ptrs.buffer ++ [node]⟩

/-- The iterator at an index. -/
def at? (ptrs : FilterPtrs) (sampleId : ℤ) : Option ℕ :=
  if 0 ≤ sampleId then ptrs.buffer[sampleId.toNat]? else none

/-- The record with so many samples fewer to be acknowledged, if there are any
others. -/
def drop (ptrs : FilterPtrs) (n : ℕ) : Option FilterPtrs :=
  if ptrs.unackedCount - n = 0 then none else some { ptrs with unackedCount := ptrs.unackedCount - n }

end FilterPtrs

inductive LearnMode where
  | none
  | writer
  | cb
  deriving DecidableEq

/-- Where the transmit thread is: before its first lock, between the locks with
the number of samples to send, there with the buffer id it read too, and there
with the message sent. -/
inductive Transmit where
  | idle
  | sending (numSamples : ℕ)
  | headed (numSamples bufferId : ℕ)
  | sent
  deriving DecidableEq

structure MsgHdr where
  switchId : ℤ
  cxtId : ℤ
  listId : ℤ
  bufferId : ℕ
  numSamples : ℕ

structure Message where
  hdr : MsgHdr
  samples : ByteContainer

structure LearnList where
  listId : ℤ
  deviceId : ℤ
  cxtId : ℤ
  builder : LearnSampleBuilder
  learnMode : LearnMode
  buffer : ByteContainer := []
  bufferId : ℕ := 0
  numSamples : ℕ := 0
  maxSamples : ℕ
  bufferStarted : ℕ := 0
  timeout : ℕ
  withTimeout : Bool
  filter : List (ℕ × ByteContainer) := []
  allocated : ℕ := 0
  oldBuffers : ℕ → Option FilterPtrs := fun _ => Option.none
  bufferTmp : ByteContainer := []
  numSamplesTmp : ℕ := 0
  waiting : ℕ := 0
  transmit : Transmit := .idle

/-- What a step did: a sample was accepted, a message sent, or nodes erased. -/
inductive Event where
  | accepted (sample : ByteContainer)
  | sent (msg : Message)
  | removed (nodes : List ℕ)

namespace LearnList

def create (listId deviceId cxtId : ℤ) (builder : LearnSampleBuilder) (mode : LearnMode)
    (maxSamples timeoutMs : ℕ) : LearnList :=
  { listId, deviceId, cxtId, builder, learnMode := mode, maxSamples, timeout := timeoutMs,
    withTimeout := 0 < timeoutMs }

def swapBuffers (s : LearnList) : LearnList :=
  { s with
    bufferTmp := s.buffer
    buffer := s.bufferTmp
    numSamplesTmp := s.numSamples
    numSamples := 0
    bufferId := (s.bufferId + 1) % 2 ^ 64 }

/-- `process_full_buffer`, up to the swap or the first wait. -/
def processFullBuffer (s : LearnList) : LearnList :=
  if s.bufferTmp.length ≠ 0 then { s with waiting := s.waiting + 1 } else s.swapBuffers

/-- A waiting thread looks again, and swaps, whatever the buffer holds by now. -/
def resume (s : LearnList) : Option LearnList :=
  if s.waiting ≠ 0 ∧ s.bufferTmp.length = 0 then
    some { s.swapBuffers with waiting := s.waiting - 1 }
  else none

/-- A new sample goes to the buffer, the filter and the record of the buffer. -/
def insert (s : LearnList) (sample : ByteContainer) : LearnList :=
  { s with
    buffer := s.buffer ++ sample
    numSamples := s.numSamples + 1
    filter := s.filter ++ [(s.allocated, sample)]
    allocated := s.allocated + 1
    oldBuffers := Function.update s.oldBuffers s.bufferId
      (some (FilterPtrs.push (s.oldBuffers s.bufferId) s.allocated)) }

/-- The end of `add_sample`. The clock is read where a buffer is begun. -/
def afterInsert (s : LearnList) (now : ℕ) : LearnList :=
  if s.numSamples = 1 ∧ s.maxSamples > 1 then { s with bufferStarted := now }
  else if s.numSamples ≥ s.maxSamples then s.processFullBuffer
  else s

def addSample (s : LearnList) (phv : FieldBytes) (now : ℕ) : LearnList × Option Event :=
  let sample := s.builder.sample phv
  if sample ∈ s.filter.map Prod.snd then (s, none)
  else ((s.insert sample).afterInsert now, some (.accepted sample))

def setMaxSamples (s : LearnList) (nbSamples : ℕ) : LearnList :=
  let s := { s with maxSamples := nbSamples }
  if s.numSamples > 0 ∧ s.numSamples ≥ s.maxSamples then s.processFullBuffer else s

def setTimeout (s : LearnList) (timeoutMs : ℕ) : LearnList :=
  { s with timeout := timeoutMs, withTimeout := 0 < timeoutMs }

/-! ## The transmit thread -/

/-- The first lock of `buffer_transmit`. -/
def beginTransmit (s : LearnList) (now : ℕ) : Option LearnList :=
  if s.transmit ≠ .idle ∨ (s.bufferTmp.length = 0 ∧
      (s.withTimeout = false ∨ s.numSamples = 0 ∨ now < s.bufferStarted + s.timeout)) then none
  else if s.bufferTmp.length = 0 then
    some { s.swapBuffers with transmit := .sending s.numSamples }
  else some { s with transmit := .sending s.numSamplesTmp }

/-- The buffer id is read without a lock. -/
def readBufferId (s : LearnList) : Option LearnList :=
  match s.transmit with
  | .sending n => some { s with transmit := .headed n ((s.bufferId + 2 ^ 64 - 1) % 2 ^ 64) }
  | _ => none

/-- The bytes that are sent: a writer is given their number in 32 bits. -/
def payload (s : LearnList) : ByteContainer :=
  match s.learnMode with
  | .writer => s.bufferTmp.take (s.bufferTmp.length % 2 ^ 32)
  | _ => s.bufferTmp

/-- The message, without a lock as well. -/
def send (s : LearnList) : Option (LearnList × Option Event) :=
  match s.transmit with
  | .headed n bufferId =>
    let hdr := ⟨s.deviceId, s.cxtId, s.listId, bufferId, n % 2 ^ 32⟩
    some ({ s with transmit := .sent },
      if s.learnMode = .none then none else some (.sent ⟨hdr, s.payload⟩))
  | _ => none

/-- The second lock of `buffer_transmit`. -/
def endTransmit (s : LearnList) : Option LearnList :=
  if s.transmit = .sent then some { s with bufferTmp := [], transmit := .idle } else none

/-! ## Acknowledgements -/

/-- `filter.erase` of an iterator. -/
def eraseNode (filter : List (ℕ × ByteContainer)) (node : ℕ) :
    Option (List (ℕ × ByteContainer)) :=
  if node ∈ filter.map Prod.fst then some (filter.filter fun x => x.1 ≠ node) else none

/-- The loop of `ack`, with the nodes it erases. Once the record is dropped it is
not to be used again. -/
def ackLoop (bufferId : ℕ) : LearnList → List ℤ → Option (LearnList × List ℕ)
  | s, [] => some (s, [])
  | s, sampleId :: sampleIds =>
    match s.oldBuffers bufferId with
    | none => none
    | some ptrs =>
      match ptrs.at? sampleId with
      | none => none
      | some node =>
        match eraseNode s.filter node with
        | none => none
        | some filter =>
          (ackLoop bufferId
            { s with
              filter := filter
              oldBuffers := Function.update s.oldBuffers bufferId (ptrs.drop 1) }
            sampleIds).map fun r => (r.1, node :: r.2)

def ack (s : LearnList) (bufferId : ℕ) (sampleIds : List ℤ) : Option (LearnList × List ℕ) :=
  match s.oldBuffers bufferId with
  | none => some (s, [])
  | some _ => ackLoop bufferId s sampleIds

def ackBuffer (s : LearnList) (bufferId : ℕ) : Option (LearnList × List ℕ) :=
  match s.oldBuffers bufferId with
  | none => some (s, [])
  | some ptrs =>
    let dropped := Function.update s.oldBuffers bufferId none
    if ptrs.unackedCount = s.filter.length then
      some ({ s with filter := [], oldBuffers := dropped }, s.filter.map Prod.fst)
    else
      (ptrs.buffer.foldlM eraseNode s.filter).map fun filter =>
        ({ s with filter := filter, oldBuffers := dropped }, ptrs.buffer)

def resetState (s : LearnList) : LearnList :=
  { s with
    buffer := []
    bufferId := 0
    numSamples := 0
    numSamplesTmp := 0
    filter := []
    oldBuffers := fun _ => none
    bufferTmp := [] }

/-! ## The machine -/

end LearnList

inductive Step where
  | addSample (phv : FieldBytes) (now : ℕ)
  | setMaxSamples (nbSamples : ℕ)
  | setTimeout (timeoutMs : ℕ)
  | resume
  | beginTransmit (now : ℕ)
  | readBufferId
  | send
  | endTransmit
  | ack (bufferId : ℕ) (sampleIds : List ℤ)
  | ackBuffer (bufferId : ℕ)
  | resetState

def LearnList.step (s : LearnList) : Step → Option (LearnList × Option Event)
  | .addSample phv now => some (s.addSample phv now)
  | .setMaxSamples nbSamples => some (s.setMaxSamples nbSamples, none)
  | .setTimeout timeoutMs => some (s.setTimeout timeoutMs, none)
  | .resume => s.resume.map (·, none)
  | .beginTransmit now => (s.beginTransmit now).map (·, none)
  | .readBufferId => s.readBufferId.map (·, none)
  | .send => s.send
  | .endTransmit => s.endTransmit.map (·, none)
  | .ack bufferId sampleIds => (s.ack bufferId sampleIds).map fun r => (r.1, some (.removed r.2))
  | .ackBuffer bufferId => (s.ackBuffer bufferId).map fun r => (r.1, some (.removed r.2))
  | .resetState => some (s.resetState, some (.removed (s.filter.map Prod.fst)))

/-- What was done so far. The node of a sample is its place among those accepted. -/
structure Log where
  accepted : List ByteContainer := []
  sent : List Message := []
  removed : List ℕ := []

def Log.add (log : Log) : Option Event → Log
  | none => log
  | some (.accepted sample) => { log with accepted := log.accepted ++ [sample] }
  | some (.sent msg) => { log with sent := log.sent ++ [msg] }
  | some (.removed nodes) => { log with removed := log.removed ++ nodes }

/-- A run of steps, each met by the state it is made in. -/
inductive RunIf (ok : LearnList → Log → Step → Prop) : LearnList → Log → LearnList → Prop where
  | nil (s) : RunIf ok s {} s
  | snoc {s₀ log s r s' e} (hrun : RunIf ok s₀ log s) (hok : ok s log r)
      (hstep : s.step r = some (s', e)) : RunIf ok s₀ (log.add e) s'

end Learning

end P4Bricks
