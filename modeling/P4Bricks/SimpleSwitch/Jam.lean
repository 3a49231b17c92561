import P4Bricks.SimpleSwitch.Lineage
/-!
# When the switch stands still

A thread waits at a queue that is empty or full, for the mutex of the swap, or, with
that mutex, until no header vector is in use. While there are packets, not all
threads wait, with one exception: the ingress thread is the only one that pops the
input buffer, and when it resubmits a packet into a full one it waits for itself.
Then nothing is received or swapped any more. A switch whose programs do not
resubmit never gets there.
-/

namespace P4Bricks

open Parsing Queueing

namespace SimpleSwitch

variable {s s' : SimpleSwitch} {log log' es : List Event} {l : Label}

/-! ## Waiting -/

/-- The receiving thread waits: for a packet, for the mutex of the swap, or at the
input buffer. -/
def ReceiverWaits (s : SimpleSwitch) : Prop :=
  match s.receiver with
  | .idle => True
  | .swapping _ _ | .ready _ _ => s.ongoingSwap.isSome
  | .checking _ _ => False
  | .holding _ => s.inputBuffer.isNotFull = false

/-- Who has the mutex of the swap waits for the packets to leave the switch. Where it
is free, no thread of the control plane has a swap to do. -/
def SwapperWaits (s : SimpleSwitch) : Prop :=
  match s.ongoingSwap with
  | none => s.orders = 0 ∨ s.cxt.swapOrdered = false
  | some (_, .draining) => 0 < s.pool.phvsInUse
  | some _ => False

/-- The ingress thread waits at the input buffer. -/
def IngressWaits (s : SimpleSwitch) : Prop :=
  match s.ingress with
  | .idle => s.inputBuffer.queue = []
  | .resubmitting _ _ => s.inputBuffer.isNotFull = false
  | _ => False

/-- An egress thread waits: at its queue, in which there is no packet that may
leave some time, at the input buffer or at the output buffer. -/
def EgressWaits (s : SimpleSwitch) (worker : Fin nbEgressThreads) : Prop :=
  match s.egress worker with
  | .idle => (s.egressBuffers.workersInfo worker).front? = none
  | .recirculating _ _ _ => s.inputBuffer.isNotFull = false
  | .outputting _ _ => s.outputBuffer.isNotFull = false
  | _ => False

/-- The transmitting thread waits at the output buffer. -/
def TransmitWaits (s : SimpleSwitch) : Prop := s.transmit = none ∧ s.outputBuffer.queue = []

/-- Every thread of the data plane waits. Who swaps may be one of the control plane. -/
structure AllWait (s : SimpleSwitch) : Prop where
  receiver : s.ReceiverWaits
  ingress : s.IngressWaits
  egress : ∀ worker, s.EgressWaits worker
  transmit : s.TransmitWaits

/-- The ingress thread resubmits a packet into the input buffer, which is full. -/
def Jammed (s : SimpleSwitch) : Prop :=
  (∃ p copy, s.ingress = .resubmitting p copy) ∧ s.inputBuffer.isNotFull = false

/-! ## The queues keep their sizes -/

structure Sized (s : SimpleSwitch) : Prop where
  inputBlocks : s.inputBuffer.wb = .writeBlock
  outputBlocks : s.outputBuffer.wb = .writeBlock
  input : s.inputBuffer.capacity = 1024
  output : s.outputBuffer.capacity = 128
  nbWorkers : s.egressBuffers.nbWorkers = nbEgressThreads

theorem Sized.step (hs : s.Sized) (h : s.step l = some (s', es)) : s'.Sized := by
  have hf := step_frame h
  obtain ⟨hinput, hinputWb⟩ := hf.input.eq hs.inputBlocks
  obtain ⟨houtput, houtputWb⟩ := hf.output.eq hs.outputBlocks
  exact ⟨hinputWb.trans hs.inputBlocks, houtputWb.trans hs.outputBlocks, hinput.trans hs.input,
    houtput.trans hs.output, hf.nbWorkers.trans hs.nbWorkers⟩

/-- A property of the switch that every step keeps holds along every run. -/
theorem run_keeps {P : SimpleSwitch → Prop} {labels : List Label}
    (hstep : ∀ s l s' es, P s → s.step l = some (s', es) → P s') (h₀ : P s)
    (h : Runs.run stepLog (s, log) labels = some (s', log')) : P s' := by
  have hkeep : ∀ (r : SimpleSwitch × List Event) (l : Label) (r' : SimpleSwitch × List Event),
      P r.1 → stepLog r l = some r' → P r'.1 := by
    intro r l r' hr hr'
    obtain ⟨⟨s₁, es⟩, hs₁, rfl⟩ := Option.map_eq_some_iff.mp hr'
    exact hstep r.1 l s₁ es hr hs₁
  exact @Runs.invariant _ _ stepLog _ _ labels (fun r => P r.1) hkeep h₀ h

variable {maxPort : ℕ} {enableSwap : Bool} {objects : Program} {pktDelay : ℕ → ℕ} {now : ℕ}
  {labels : List Label}

theorem sized_of_runsTo (h : RunsTo maxPort enableSwap objects pktDelay now labels s log) :
    s.Sized :=
  run_keeps (fun _ _ _ _ hs hstep => hs.step hstep) ⟨rfl, rfl, rfl, rfl, rfl⟩ h

/-! ## Threads that wait have no step -/

/-- What the receiving thread waits for does not come from itself, but for a packet. -/
theorem ReceiverWaits.step_eq_none (hw : s.ReceiverWaits) (hs : s.Sized) (ht : l.thread = .receiver)
    (hl : ∀ port data, l ≠ .receive port data) : s.step l = none := by
  unfold ReceiverWaits at hw
  cases l with
  | receive port data => exact absurd rfl (hl port data)
  | checkQueueing => cases hrec : s.receiver <;> simp_all [step, quiet, checkQueueing]
  | newPacket memory ts =>
    cases hrec : s.receiver with
    | ready port data =>
      rw [hrec] at hw
      obtain ⟨swap, hswap⟩ := Option.isSome_iff_exists.mp hw
      simp only [step, newPacket, hrec, hswap]
    | _ => simp only [step, newPacket, hrec]
  | pushInput =>
    cases hrec : s.receiver with
    | holding p =>
      rw [hrec] at hw
      simp [step, quiet, pushInput, hrec, Queue.pushFront_eq_none hs.inputBlocks hw]
    | _ => simp [step, quiet, pushInput, hrec]
  | _ => cases ht

theorem SwapperWaits.step_eq_none (hw : s.SwapperWaits) (hr : s.ReceiverWaits)
    (ht : l.thread = .swapper) : s.step l = none := by
  unfold SwapperWaits at hw
  split at hw
  · next hfree =>
    -- The receiving thread would get the mutex.
    have hnot : ∀ port data, s.receiver ≠ .swapping port data := by
      intro port data hrec
      unfold ReceiverWaits at hr
      rw [hrec, hfree] at hr
      cases hr
    cases l with
    | lockSwap swapper =>
      cases swapper with
      | receiver => cases hrec : s.receiver <;> simp_all [step, quiet, lockSwap]
      | controlPlane =>
        have hidle : ¬(0 < s.orders ∧ s.cxt.swapOrdered = true) := by
          rintro ⟨hpos, hordered⟩
          rcases hw with hzero | hdone
          · omega
          · rw [hordered] at hdone
            cases hdone
        simp only [step, quiet, lockSwap, hfree, if_neg hidle, Option.map_none]
    | drain => simp only [step, quiet, drain, hfree, Option.map_none]
    | swapObjects => simp only [step, quiet, swapObjects, hfree, Option.map_none]
    | setFactory => simp only [step, quiet, setFactory, hfree, Option.map_none]
    | _ => cases ht
  · next swapper hswap =>
    cases l with
    | lockSwap other => simp only [step, quiet, lockSwap, hswap, Option.map_none]
    | drain => simp only [step, quiet, drain, hswap, if_neg hw.ne', Option.map_none]
    | swapObjects => simp only [step, quiet, swapObjects, hswap, Option.map_none]
    | setFactory => simp only [step, quiet, setFactory, hswap, Option.map_none]
    | _ => cases ht
  · exact hw.elim

theorem IngressWaits.step_eq_none (hw : s.IngressWaits) (hs : s.Sized) (ht : l.thread = .ingress) :
    s.step l = none := by
  unfold IngressWaits at hw
  cases hing : s.ingress with
  | idle =>
    rw [hing] at hw
    have hpop : s.inputBuffer.popBack = none := Queue.popBack_eq_none.mpr hw
    cases l <;> simp_all [Label.thread, step, quiet, popInput, ingressApply, ingressClone,
      ingressFinish, pushResubmit, multicast]
  | resubmitting p copy =>
    rw [hing] at hw
    have hpush : s.inputBuffer.pushFront copy = none := Queue.pushFront_eq_none hs.inputBlocks hw copy
    cases l <;> simp_all [Label.thread, step, quiet, popInput, ingressApply, ingressClone,
      ingressFinish, pushResubmit, multicast]
  | _ =>
    rw [hing] at hw
    exact hw.elim

/-- A worker whose queue is empty has nothing to pop, whatever the time. -/
theorem popBack_eq_none {worker : Fin nbEgressThreads} (now : ℕ)
    (hfront : (s.egressBuffers.workersInfo worker).front? = none) :
    s.egressBuffers.popBack worker now = none := by
  unfold QueueingLogicRL.popBack
  rw [hfront]
  exact ite_self _

theorem EgressWaits.step_eq_none {worker : Fin nbEgressThreads} (hw : s.EgressWaits worker)
    (hs : s.Sized) (ht : l.thread = .egress worker) : s.step l = none := by
  unfold EgressWaits at hw
  cases hegress : s.egress worker with
  | idle =>
    rw [hegress] at hw
    have hpop := fun now => popBack_eq_none now hw
    cases l <;> simp_all [Label.thread, step, quiet, popEgress, egressApply, egressClone,
      egressFinish, pushRecirc, pushOutput]
  | recirculating port p copy =>
    rw [hegress] at hw
    have hpush : s.inputBuffer.pushFront copy = none := Queue.pushFront_eq_none hs.inputBlocks hw copy
    cases l <;> simp_all [Label.thread, step, quiet, popEgress, egressApply, egressClone,
      egressFinish, pushRecirc, pushOutput]
  | outputting port p =>
    rw [hegress] at hw
    have hpush : s.outputBuffer.pushFront p = none := Queue.pushFront_eq_none hs.outputBlocks hw p
    cases l <;> simp_all [Label.thread, step, quiet, popEgress, egressApply, egressClone,
      egressFinish, pushRecirc, pushOutput]
  | _ =>
    rw [hegress] at hw
    exact hw.elim

theorem TransmitWaits.step_eq_none (hw : s.TransmitWaits) (ht : l.thread = .transmit) :
    s.step l = none := by
  obtain ⟨hnone, hempty⟩ := hw
  have hpop : s.outputBuffer.popBack = none := Queue.popBack_eq_none.mpr hempty
  cases l <;> simp_all [Label.thread, step, quiet, popOutput, transmitPacket]

/-- **While all threads wait**, a packet may arrive, the control plane act, or a swap
go on that does not wait for packets. -/
theorem AllWait.step (hwait : s.AllWait) (hs : s.Sized) (h : s.step l = some (s', es)) :
    l.thread = .controlPlane ∨ (∃ port data, l = .receive port data) ∨
      l.thread = .swapper ∧ ¬s.SwapperWaits := by
  by_contra hnone
  obtain ⟨hcontrol, hnone⟩ := not_or.mp hnone
  obtain ⟨hreceive, hswap⟩ := not_or.mp hnone
  have hstuck : s.step l = none := by
    cases ht : l.thread with
    | receiver =>
      exact hwait.receiver.step_eq_none hs ht fun port data hl => hreceive ⟨port, data, hl⟩
    | swapper =>
      have hw : s.SwapperWaits := not_not.mp fun hw => hswap ⟨ht, hw⟩
      exact hw.step_eq_none hwait.receiver ht
    | ingress => exact hwait.ingress.step_eq_none hs ht
    | egress worker => exact (hwait.egress worker).step_eq_none hs ht
    | transmit => exact hwait.transmit.step_eq_none ht
    | controlPlane => exact absurd ht hcontrol
  rw [hstuck] at h
  cases h

/-! ## A jam

A packet is resubmitted while others are received. -/

/-- The switch runs `wire`, no swap is ordered, no header vector was given back, and so
many packets wait for the ingress thread. -/
structure Filling (ing : Ingress) (n : ℕ) (s : SimpleSwitch) : Prop where
  receiver : s.receiver = .idle
  ongoingSwap : s.ongoingSwap = none
  swapOrdered : s.cxt.swapOrdered = false
  program : s.program = wire
  phvs : s.pool.phvs = []
  factory : s.pool.phvFactory = wireFactory
  ingress : s.ingress = ing
  capacity : s.inputBuffer.capacity = 1024
  length : s.inputBuffer.queue.length = n
  egress : ∀ worker, s.egress worker = .idle ∧
    (s.egressBuffers.workersInfo worker).front? = none
  transmit : s.transmit = none
  output : s.outputBuffer.queue = []

theorem received_wire (hprogram : s.program = wire) {p : Packet} (hphv : p.phv = wireFactory.create) :
    ∃ p', s.received p 0 0 0 = some p' := by
  have hsome : (do
      let phv ← setField wireFactory.create.resetMetadata wire.fields.ingressPort 0
      let phv ← setField phv wire.fields.packetLength 0
      setField phv wire.fields.instanceType PktInstanceType.normal.code).isSome = true := rfl
  obtain ⟨phv, hset⟩ := Option.isSome_iff_exists.mp hsome
  obtain ⟨phv₁, h₁, hset⟩ := Option.bind_eq_some_iff.mp hset
  obtain ⟨phv₂, h₂, h₃⟩ := Option.bind_eq_some_iff.mp hset
  refine ⟨{ p with phv := phv, register := UInt64.ofNat 0 }, ?_⟩
  unfold received
  rw [hprogram, hphv, h₁]
  simp only [Option.bind_eq_bind, Option.bind_some, Nat.cast_zero, h₂, h₃]
  rfl

/-- One more packet is received. -/
theorem Filling.receive {ing : Ingress} {n : ℕ} (hs : Filling ing n s) (hn : n < 1024)
    (log : List Event) : ∃ s' log', Runs.run stepLog (s, log) (wireReceive []) = some (s', log') ∧
      Filling ing (n + 1) s' := by
  -- The packet, as the parser of the wire leaves it, goes from the wire to the receiver and from
  -- there to the input buffer, which has room.
  let buffer : PacketBuffer := ⟨(List.range 512).map wireMemory.bytes, []⟩
  let s₁ : SimpleSwitch := { s with receiver := .ready 0 [] }
  have hget : s.pool.get.1 = wireFactory.create ∧ s.pool.get.2.phvs = [] := by
    unfold PhvPool.get
    rw [hs.phvs, hs.factory]
    exact ⟨rfl, rfl⟩
  obtain ⟨p, hp⟩ := received_wire (s := s₁) hs.program
    (p := (Packet.create wireMemory s.pool 0 (packetIdOf s.pktId) 0 buffer).1) hget.1
  let s₂ : SimpleSwitch :=
    { s with
      pool := s.pool.get.2
      ongoingSwap := none
      pktId := s.pktId + 1
      receiver := .holding p }
  let queue : Queue Packet := { s.inputBuffer with queue := p :: s.inputBuffer.queue }
  let s₃ : SimpleSwitch := { s₂ with inputBuffer := queue, receiver := .idle }
  have h₁ : s.step (.receive 0 []) = some (s₁, []) := by
    simp [step, quiet, SimpleSwitch.receive, hs.receiver, hs.swapOrdered, s₁]
  have h₂ : s₁.step (.newPacket wireMemory 0) = some (s₂, [.received (packetIdOf s.pktId) 0 []]) := by
    have hfree : s₁.ongoingSwap = none := hs.ongoingSwap
    simp only [step, newPacket, hfree]
    change (s₁.received (Packet.create wireMemory s.pool 0 (packetIdOf s.pktId) 0 buffer).1 0 0 0).bind _ = _
    rw [hp]
    rfl
  have h₃ : s₂.step .pushInput = some (s₃, []) := by
    have hroom : s.inputBuffer.isNotFull = true := by
      unfold Queue.isNotFull
      rw [hs.length, hs.capacity]
      exact decide_eq_true hn
    have hpush : s.inputBuffer.pushFront p = some queue := by
      unfold Queue.pushFront
      rw [if_pos hroom]
    change quiet ((s.inputBuffer.pushFront p).bind _) = _
    rw [hpush]
    rfl
  refine ⟨s₃, log ++ [] ++ [.received (packetIdOf s.pktId) 0 []] ++ [], ?_, ?_⟩
  · unfold Runs.run wireReceive
    simp only [List.foldlM_cons, List.foldlM_nil, stepLog, h₁, h₂, h₃, Option.map_some,
      Option.bind_eq_bind, Option.bind_some]
    rfl
  · refine ⟨rfl, rfl, hs.swapOrdered, hs.program, ?_, ?_, hs.ingress, hs.capacity, ?_,
      hs.egress, hs.transmit, hs.output⟩
    · exact hget.2
    · exact (PhvPool.get_phvFactory _).trans hs.factory
    · change s.inputBuffer.queue.length + 1 = n + 1
      rw [hs.length]

/-- Packets are received until the input buffer is full. -/
theorem Filling.fill {ing : Ingress} {n : ℕ} (hs : Filling ing n s) (hn : n ≤ 1024)
    (log : List Event) : ∃ labels s' log', Runs.run stepLog (s, log) labels = some (s', log') ∧
      Filling ing 1024 s' := by
  induction k : 1024 - n generalizing n s log with
  | zero =>
    obtain rfl : n = 1024 := by omega
    exact ⟨[], s, log, rfl, hs⟩
  | succ k ih =>
    obtain ⟨s₁, log₁, hrun, hs₁⟩ := hs.receive (by omega) log
    obtain ⟨labels, s', log', hmore, hs'⟩ := ih hs₁ (by omega) log₁ (by omega)
    refine ⟨wireReceive [] ++ labels, s', log', ?_, hs'⟩
    unfold Runs.run at hrun hmore ⊢
    rw [List.foldlM_append, hrun]
    exact hmore

set_option maxRecDepth 10000 in
/-- The input buffer is full of packets, one is resubmitted, and there are no others. -/
theorem jam_wire : ∃ labels s log, RunsTo 8 true wire id 0 labels s log ∧ s.Jammed ∧
    s.items ≠ 0 ∧ s.AllWait := by
  obtain ⟨s, log, p, copy, h, hs⟩ : ∃ s log p copy,
      RunsTo 8 true wire id 0 (wireReceive [] ++ wireIngress 7 1) s log ∧
        Filling (.resubmitting p copy) 0 s :=
    ⟨_, _, _, _, rfl, rfl, rfl, rfl, rfl, rfl, rfl, rfl, rfl, rfl, fun _ => ⟨rfl, rfl⟩, rfl, rfl⟩
  obtain ⟨more, s', log', hrun, hs'⟩ := hs.fill (by omega) log
  have hjam : RunsTo 8 true wire id 0 (wireReceive [] ++ wireIngress 7 1 ++ more) s' log' := by
    unfold RunsTo at h ⊢
    unfold Runs.run at h hrun ⊢
    rw [List.foldlM_append, h]
    exact hrun
  have hfull : s'.inputBuffer.isNotFull = false := by
    unfold Queue.isNotFull
    rw [hs'.length, hs'.capacity]
    rfl
  refine ⟨_, s', log', hjam, ⟨⟨p, copy, hs'.ingress⟩, hfull⟩, fun hnone => ?_,
    ?_, ?_, fun worker => ?_, hs'.transmit, hs'.output⟩
  · have hidle := Ingress.eq_idle (idle_of_items hnone).1
    rw [hs'.ingress] at hidle
    cases hidle
  · unfold ReceiverWaits
    rw [hs'.receiver]
    trivial
  · unfold IngressWaits
    rw [hs'.ingress]
    exact hfull
  · unfold EgressWaits
    rw [(hs'.egress worker).1]
    exact (hs'.egress worker).2

/-! ## Progress -/

theorem queueItems_eq_zero {place : Place} {q : Queue Packet} (h : q.queue = []) :
    queueItems place q = 0 := by
  unfold queueItems
  rw [h]
  rfl

/-- An egress thread that waits, but not at the input or at the output buffer, has no
packet, and neither has its queue. -/
theorem EgressWaits.empty {worker : Fin nbEgressThreads} (hw : s.EgressWaits worker)
    (hinput : s.inputBuffer.isNotFull = true) (houtput : s.outputBuffer.isNotFull = true) :
    (s.egress worker).items = 0 ∧ (s.egressBuffers.workersInfo worker).contents = 0 := by
  unfold EgressWaits at hw
  split at hw
  · next hidle =>
    rw [hidle]
    unfold Heap.front? at hw
    split_ifs at hw with hsize
    exact ⟨rfl, Multiset.card_eq_zero.mp ((Heap.card_contents _).trans hsize)⟩
  · rw [hinput] at hw
    cases hw
  · rw [houtput] at hw
    cases hw
  · exact hw.elim

/-- While there are packets, all threads wait in a jam only. -/
theorem AllWait.jammed (hwait : s.AllWait) (hs : s.Sized) (hitems : s.items ≠ 0) : s.Jammed := by
  obtain ⟨hreceiver, hingress, hegress, htransmit, houtput⟩ := hwait
  -- The output buffer is empty, so no egress thread waits there.
  have hroom : s.outputBuffer.isNotFull = true := by
    unfold Queue.isNotFull
    rw [houtput, hs.output]
    rfl
  unfold IngressWaits at hingress
  split at hingress
  · next hidle =>
    -- The input buffer is empty, so no thread waits there, and there is no packet.
    have hnotFull : s.inputBuffer.isNotFull = true := by
      unfold Queue.isNotFull
      rw [hingress, hs.input]
      rfl
    have hreceiverItems : s.receiver.items = 0 := by
      unfold ReceiverWaits at hreceiver
      cases hrec : s.receiver with
      | holding p =>
        rw [hrec, hnotFull] at hreceiver
        cases hreceiver
      | _ => rfl
    have hqueued : queuedItems s.egressBuffers = 0 := by
      refine Finset.sum_eq_zero fun w hw => ?_
      rw [hs.nbWorkers] at hw
      rw [((hegress ⟨w, Finset.mem_range.mp hw⟩).empty hnotFull hroom).2]
      rfl
    have hegressItems : egressItems s.egress = 0 :=
      Finset.sum_eq_zero fun worker _ => ((hegress worker).empty hnotFull hroom).1
    refine absurd ?_ hitems
    unfold items
    rw [hreceiverItems, queueItems_eq_zero hingress, hidle, hqueued, hegressItems,
      queueItems_eq_zero houtput, htransmit]
    rfl
  · next p copy hres => exact ⟨⟨p, copy, hres⟩, hingress⟩
  · exact hingress.elim

/-- **The switch does not stand still** while there are packets in it, unless the
ingress thread waits for itself. Where all threads of the data plane wait, no step
is left but that a packet arrives, one of the control plane, or one of a swap that
does not wait for packets. -/
theorem progress (h : RunsTo maxPort enableSwap objects pktDelay now labels s log)
    (hitems : s.items ≠ 0) (hwait : s.AllWait) :
    s.Jammed ∧ ∀ l s' es, s.step l = some (s', es) →
      l.thread = .controlPlane ∨ (∃ port data, l = .receive port data) ∨
        l.thread = .swapper ∧ ¬s.SwapperWaits := by
  have hs := sized_of_runsTo h
  exact ⟨hwait.jammed hs hitems, fun l s' es hstep => hwait.step hs hstep⟩

theorem progress_wire : ∃ labels s log, RunsTo 8 true wire id 0 labels s log ∧ s.items ≠ 0 ∧
    s.AllWait ∧ s.Jammed ∧ ∀ l s' es, s.step l = some (s', es) →
      l.thread = .controlPlane ∨ (∃ port data, l = .receive port data) ∨
        l.thread = .swapper ∧ ¬s.SwapperWaits := by
  obtain ⟨labels, s, log, h, -, hitems, hwait⟩ := jam_wire
  exact ⟨labels, s, log, h, hitems, hwait, progress h hitems hwait⟩

/-! ## The jam -/

/-- No step ends a jam. -/
theorem Jammed.step (hj : s.Jammed) (hs : s.Sized) (h : s.step l = some (s', es)) :
    s'.ingress = s.ingress ∧ s'.inputBuffer = s.inputBuffer := by
  obtain ⟨⟨p, copy, hres⟩, hfull⟩ := hj
  have hf := step_frame h
  by_cases ht : l.thread = .ingress
  · -- The ingress thread has one step to take, and waits.
    cases ingress_step h ht with
    | push hing hpush =>
      obtain ⟨-, rfl⟩ := Ingress.resubmitting.inj (hing.symm.trans hres)
      exact absurd (Queue.pushFront_eq_some hs.inputBlocks hpush).1 (of_decide_eq_false hfull)
    | _ => simp_all only [reduceCtorEq]
  · exact ⟨hf.ingress ht, hf.input.eq_of_full hs.inputBlocks hfull ht⟩

/-- **A jam is for ever.** In every run from where the ingress thread waits for itself
it goes on waiting, with the packets that are in the input buffer; the pool counts
them all, so that no configuration is swapped any more. -/
theorem jam_for_ever (h : RunsTo maxPort enableSwap objects pktDelay now labels s log)
    (hj : s.Jammed) {more : List Label}
    (hrun : Runs.run stepLog (s, log) more = some (s', log')) :
    s'.ingress = s.ingress ∧ s'.inputBuffer = s.inputBuffer ∧ 1026 ≤ s'.pool.phvsInUse ∧
      ¬s'.Swapping := by
  have hs := sized_of_runsTo h
  obtain ⟨-, hingress, hinput⟩ : s'.Sized ∧ s'.ingress = s.ingress ∧
      s'.inputBuffer = s.inputBuffer := by
    have hstep : ∀ (s₁ : SimpleSwitch) l (s₂ : SimpleSwitch) es, (s₁.Sized ∧ s₁.ingress = s.ingress ∧
        s₁.inputBuffer = s.inputBuffer) → s₁.step l = some (s₂, es) →
        s₂.Sized ∧ s₂.ingress = s.ingress ∧ s₂.inputBuffer = s.inputBuffer := by
      rintro s₁ l s₂ es ⟨hs₁, hingress, hinput⟩ hstep
      have hj₁ : s₁.Jammed := by
        unfold Jammed
        rw [hingress, hinput]
        exact hj
      obtain ⟨hingress', hinput'⟩ := hj₁.step hs₁ hstep
      exact ⟨hs₁.step hstep, hingress'.trans hingress, hinput'.trans hinput⟩
    exact run_keeps hstep ⟨hs, rfl, rfl⟩ hrun
  have hi := (inv_of_runsTo h).run hrun
  obtain ⟨⟨p, copy, hres⟩, hfull⟩ := hj
  have hcount : s'.pool.count = Multiset.card s'.items := hi.balanced
  have hlength : 1024 ≤ s.inputBuffer.queue.length := by
    have hle := of_decide_eq_false hfull
    rw [hs.input] at hle
    omega
  have hcard : 1026 ≤ Multiset.card s'.items := by
    unfold items queueItems
    rw [hingress, hinput, hres]
    simp only [Multiset.card_add, Multiset.card_map, Multiset.coe_card, Ingress.items,
      Multiset.card_singleton]
    omega
  refine ⟨hingress, hinput, ?_, fun hswap => ?_⟩
  · change 1026 ≤ s'.pool.count
    omega
  · have hzero := hi.swapping hswap
    omega

theorem jam_for_ever_wire : ∃ labels s log, RunsTo 8 true wire id 0 labels s log ∧ s.Jammed ∧
    ∀ more s' log', Runs.run stepLog (s, log) more = some (s', log') →
      s'.ingress = s.ingress ∧ s'.inputBuffer = s.inputBuffer ∧ 1026 ≤ s'.pool.phvsInUse ∧
        ¬s'.Swapping := by
  obtain ⟨labels, s, log, h, hjam, -⟩ := jam_wire
  exact ⟨labels, s, log, h, hjam, fun _ _ _ hmore => jam_for_ever h hjam hmore⟩

/-! ## Without resubmission -/

/-- Neither the ingress thread nor a program of the switch resubmits. -/
structure NoResubmit (s : SimpleSwitch) : Prop where
  program : s.program.fields.resubmitFlag = none
  loaded : ∀ objects, s.cxt.p4objectsRt = some objects → objects.fields.resubmitFlag = none
  ingress : ∀ p copy, s.ingress ≠ .resubmitting p copy

/-- What a label brings in does not resubmit. -/
def Label.NoResubmit : Label → Prop
  | .loadNewConfig objects | .request objects => objects.fields.resubmitFlag = none
  | _ => True

/-- The ingress thread starts to resubmit where the program has the field for it. -/
theorem ingress_noResubmit (hflag : s.program.fields.resubmitFlag = none)
    (h : IngressStep s l s' es) (p copy : Packet) : s'.ingress ≠ .resubmitting p copy := by
  cases h with
  | resubmit _ hset =>
    unfold flagged at hset
    rw [hflag] at hset
    cases hset
  | _ => exact nofun

theorem NoResubmit.step (hn : s.NoResubmit) (hi : Inv s log) (hl : l.NoResubmit)
    (h : s.step l = some (s', es)) : s'.NoResubmit := by
  have hingress : ∀ p copy, s'.ingress ≠ .resubmitting p copy := by
    by_cases ht : l.thread = .ingress
    · exact ingress_noResubmit hn.program (ingress_step h ht)
    · rw [(step_frame h).ingress ht]
      exact hn.ingress
  by_cases hc : l.thread = .controlPlane
  · obtain ⟨-, cxt, orders, queuesInfo, mirroringMap, pre, rfl, hcontrol⟩ := controlPlane_step h hc
    refine ⟨?_, fun objects hobjects => ?_, hingress⟩
    · change cxt.p4objects.fields.resubmitFlag = none
      rcases hcontrol.program with heq | hreq
      · rw [heq]
        exact hn.program
      · rw [hreq.1] at hl
        exact hl
    · rcases hcontrol.loaded objects hobjects with hold | hload | hreq
      · exact hn.loaded objects hold
      · rw [hload] at hl
        exact hl
      · rw [hreq] at hl
        exact hl
  -- Of the others only the step that swaps the objects changes what there is.
  by_cases hswap : l = .swapObjects
  · obtain ⟨hs, -⟩ := quiet_eq_some (hswap ▸ h)
    unfold swapObjects at hs
    split at hs
    · obtain rfl := Option.some.inj hs
      have hrt : s.cxt.rt.fields.resubmitFlag = none := by
        unfold Switch.Context.rt
        cases hloaded : s.cxt.p4objectsRt with
        | none => exact hn.program
        | some objects => exact hn.loaded objects hloaded
      unfold Switch.Context.doSwap at hingress ⊢
      split
      · exact ⟨hrt, fun objects h => (Option.some_ne_none objects h.symm).elim, hn.ingress⟩
      · exact ⟨hn.program, hn.loaded, hn.ingress⟩
    · cases hs
  · have heq := hi.cxt_eq h hswap hc
    refine ⟨?_, fun objects hobjects => hn.loaded objects (heq ▸ hobjects), hingress⟩
    rw [show s'.program = s.program from congrArg Switch.Context.p4objects heq]
    exact hn.program

theorem noResubmit_create (hobjects : objects.fields.resubmitFlag = none) :
    (create maxPort enableSwap objects pktDelay now).NoResubmit := by
  refine ⟨hobjects, fun objects' h => ?_, fun p copy h => ?_⟩
  · change none = some objects' at h
    cases h
  · change Ingress.idle = _ at h
    cases h

/-- **A switch that does not resubmit never stands still.** Whatever configurations
are loaded and whatever is received, as long as no program has the field for
resubmission: while there are packets, some thread of the data plane does not wait. -/
theorem progress_of_noResubmit (h : RunsTo maxPort enableSwap objects pktDelay now labels s log)
    (hobjects : objects.fields.resubmitFlag = none) (hlabels : ∀ l ∈ labels, l.NoResubmit)
    (hitems : s.items ≠ 0) : ¬s.AllWait := by
  intro hwait
  obtain ⟨⟨p, copy, hres⟩, -⟩ := hwait.jammed (sized_of_runsTo h) hitems
  have hn := ((inv_create _ _ _ _ _).run_of (fun _ l => l.NoResubmit) (fun s _ => s.NoResubmit)
    (noResubmit_create hobjects) (fun _ _ _ _ _ hi hn hl hstep => hn.step hi hl hstep)
    (.of_mem _ hlabels) h).2
  exact hn.ingress p copy hres

/-- `wire`, which does not resubmit. -/
def relay : Program := { wire with fields := { wire.fields with resubmitFlag := none } }

theorem progress_of_noResubmit_relay : ∃ s log,
    RunsTo 8 true relay id 0 (wireReceive [1, 2]) s log ∧ s.items ≠ 0 ∧ ¬s.AllWait := by
  obtain ⟨s, log, h, hqueue⟩ : ∃ s log, RunsTo 8 true relay id 0 (wireReceive [1, 2]) s log ∧
      s.inputBuffer.queue.length = 1 := ⟨_, _, rfl, rfl⟩
  have hitems : s.items ≠ 0 := by
    intro hnone
    unfold items queueItems at hnone
    simp only [add_eq_zero] at hnone
    have hempty := hnone.1.1.1.1.1.2
    rw [Multiset.map_eq_zero, Multiset.coe_eq_zero] at hempty
    rw [hempty] at hqueue
    cases hqueue
  have hlabels : ∀ l ∈ wireReceive [1, 2], l.NoResubmit := by
    intro l hl
    simp only [wireReceive, List.mem_cons, List.not_mem_nil, or_false] at hl
    rcases hl with rfl | rfl | rfl
    all_goals trivial
  exact ⟨s, log, h, hitems, progress_of_noResubmit h rfl hlabels hitems⟩

end SimpleSwitch

end P4Bricks
