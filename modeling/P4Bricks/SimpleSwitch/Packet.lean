import P4Bricks.Common.Custody
import P4Bricks.Phv.Clone
/-!
# Packets and where their header vectors come from

`packet.h`, `packet.cpp`, `packet_buffer.h` and `phv_source.cpp`, for a switch
with one context. A packet takes its header vector from a pool when it is made,
and resets it and gives it back when it is destroyed.

New memory holds anything (`Memory`): the bytes of a buffer in front of its data,
and the registers of a packet, which no constructor sets.
-/

namespace P4Bricks

open Parsing

namespace SimpleSwitch

/-- What new memory holds. -/
structure Memory where
  bytes : ℕ → UInt8
  register : UInt64

end SimpleSwitch

open SimpleSwitch

/-! ## Buffers -/

namespace Parsing.PacketBuffer

/-- `PacketBuffer(size, data, data_size)`. -/
def create (memory : Memory) (size : ℕ) (data : ByteContainer) : Except Stop PacketBuffer :=
  if data.length ≤ size then .ok ⟨(List.range (size - data.length)).map memory.bytes, data⟩
  else .error .abort

/-- `save_state`: where the data start is told by how much there is. -/
def saveState (b : PacketBuffer) : ℕ := b.data.length

/-- `restore_state`. -/
def restoreState (b : PacketBuffer) (dataSize : ℕ) : PacketBuffer :=
  let bytes := b.room ++ b.data
  ⟨bytes.take (bytes.length - dataSize), bytes.drop (bytes.length - dataSize)⟩

/-- `clone(get_data_size())`. -/
def clone (b : PacketBuffer) (memory : Memory) : PacketBuffer :=
  ⟨(List.range b.room.length).map memory.bytes, b.data⟩

variable {b b' : PacketBuffer} {n : ℕ}

/-- Restoring the state just saved changes nothing, -/
theorem restoreState_saveState : b.restoreState b.saveState = b := by
  unfold restoreState saveState
  simp

/-- What was restored is restored again. -/
theorem restoreState_restoreState : (b.restoreState n).restoreState b.saveState = b := by
  have hbytes : (b.restoreState n).room ++ (b.restoreState n).data = b.room ++ b.data :=
    List.take_append_drop _ _
  conv_rhs => rw [← restoreState_saveState (b := b)]
  unfold restoreState at hbytes ⊢
  rw [hbytes]

/-- The bytes that were taken off come back. -/
theorem restoreState_pop (h : b.pop n = .ok b') : b'.restoreState b.saveState = b := by
  unfold pop at h
  split_ifs at h
  obtain rfl := Except.ok.inj h
  unfold restoreState saveState
  simp

end Parsing.PacketBuffer

namespace SimpleSwitch

/-! ## The pool of header vectors -/

/-- `PHVPool`: the header vectors that were given back, the last one first, and
how many are in use. The count is a number here, and not one of a `size_t`: that
it is never less than zero is proved of what uses the pool. -/
structure PhvPool where
  phvs : List Phv
  phvFactory : PhvFactory
  count : ℤ

namespace PhvPool

def create (factory : PhvFactory) : PhvPool := ⟨[], factory, 0⟩

/-- `set_phv_factory`, which asserts that none is in use. -/
def setPhvFactory (pool : PhvPool) (factory : PhvFactory) : Option PhvPool :=
  if pool.count = 0 then some { pool with phvFactory := factory, phvs := [] } else none

def get (pool : PhvPool) : Phv × PhvPool :=
  match pool.phvs with
  | [] => (pool.phvFactory.create, { pool with count := pool.count + 1 })
  | phv :: phvs => (phv, { pool with phvs := phvs, count := pool.count + 1 })

def release (pool : PhvPool) (phv : Phv) : PhvPool :=
  { pool with phvs := phv :: pool.phvs, count := pool.count - 1 }

/-- `phvs_in_use`. -/
def phvsInUse (pool : PhvPool) : ℤ := pool.count

@[simp] theorem get_phvFactory (pool : PhvPool) : pool.get.2.phvFactory = pool.phvFactory := by
  unfold get
  cases pool.phvs with
  | nil => rfl
  | cons phv phvs => rfl

/-- A header vector is counted when it is taken from the pool -/
@[simp] theorem get_count (pool : PhvPool) : pool.get.2.count = pool.count + 1 := by
  unfold get
  cases pool.phvs with
  | nil => rfl
  | cons phv phvs => rfl

end PhvPool

/-! ## Packets -/

/-- `Packet`. Of its two registers only the first is used, and `truncated_length`
is the largest `size_t` where nothing was truncated. -/
structure Packet where
  ingressPort : ℤ
  egressPort : ℤ := -1
  packetId : ℕ
  ingressLength : Int32
  buffer : PacketBuffer
  phv : Phv
  register : UInt64
  truncatedLength : ℕ := 2 ^ 64 - 1

instance : Inhabited Packet := ⟨⟨0, -1, 0, 0, ⟨[], []⟩, ⟨[], [], [], []⟩, 0, 0⟩⟩

namespace Packet

/-- `Packet::Packet`. -/
def create (memory : Memory) (pool : PhvPool) (ingressPort : ℤ) (packetId : ℕ)
    (ingressLength : Int32) (buffer : PacketBuffer) : Packet × PhvPool :=
  ({ ingressPort, packetId, ingressLength, buffer, phv := pool.get.1, register := memory.register },
    pool.get.2)

/-- The packet after its header vector was changed. -/
def withPhv (p : Packet) (phv : Phv) : Packet := { p with phv := phv }

def saveBufferState (p : Packet) : ℕ := p.buffer.saveState

def restoreBufferState (p : Packet) (state : ℕ) : Packet :=
  { p with buffer := p.buffer.restoreState state }

/-- and a saved state of the buffer comes back after the buffer was moved. -/
theorem restoreBufferState_restoreBufferState (p : Packet) (state : ℕ) :
    (p.restoreBufferState state).restoreBufferState p.saveBufferState = p := by
  unfold restoreBufferState saveBufferState
  rw [PacketBuffer.restoreState_restoreState]

/-- What `Packet::~Packet` does to the header vector. -/
def cleaned (p : Packet) : Phv := p.phv.reset.resetHeaderStacks

/-- `Packet::~Packet`. -/
def destroy (p : Packet) (pool : PhvPool) : PhvPool := pool.release p.cleaned

/-- `get_data_size`. -/
def getDataSize (p : Packet) : ℕ := min p.buffer.data.length p.truncatedLength

/-- The bytes at `data()`, as many as `get_data_size` says. -/
def bytes (p : Packet) : ByteContainer := p.buffer.data.take p.getDataSize

def truncate (p : Packet) (length : ℕ) : Packet :=
  { p with truncatedLength := min length p.truncatedLength }

/-- `clone_no_phv`: what is copied is all data in the buffer, truncated or not,
and neither a register nor the egress port. -/
def cloneNoPhv (p : Packet) (memory : Memory) (pool : PhvPool) : Packet × PhvPool :=
  create memory pool p.ingressPort p.packetId p.ingressLength (p.buffer.clone memory)

/-- `clone_with_phv`. -/
def cloneWithPhv (p : Packet) (memory : Memory) (pool : PhvPool) :
    Except Stop (Packet × PhvPool) := do
  let pkt := p.cloneNoPhv memory pool
  let phv ← pkt.1.phv.copyHeaders p.phv
  .ok (pkt.1.withPhv phv, pkt.2)

/-- `clone_with_phv_reset_metadata`. -/
def cloneWithPhvResetMetadata (p : Packet) (memory : Memory) (pool : PhvPool) :
    Except Stop (Packet × PhvPool) := do
  let pkt ← p.cloneWithPhv memory pool
  .ok (pkt.1.withPhv pkt.1.phv.resetMetadata, pkt.2)

end Packet

end SimpleSwitch

end P4Bricks
