import P4Bricks.SimpleSwitch.Helpers.Egress
/-!
# What a step leaves alone

Each thread has a state of its own, which only its steps change, and the queues
between them are pushed to and popped from.
-/

namespace P4Bricks

open Parsing Queueing

namespace SimpleSwitch

/-- What a step does to a queue between two threads, of which one pops. -/
inductive Flow (mayPop : Prop) : Queue Packet → Queue Packet → Prop where
  | same (q : Queue Packet) : Flow mayPop q q
  | push {q q' : Queue Packet} {p : Packet} (h : q.pushFront p = some q') : Flow mayPop q q'
  | pop {q q' : Queue Packet} {p : Packet} (hpop : mayPop) (h : q.popBack = some (p, q')) :
      Flow mayPop q q'

/-- What a step of a thread leaves alone. -/
structure Frame (t : Thread) (s s' : SimpleSwitch) : Prop where
  receiver : t ≠ .receiver → t ≠ .swapper → s'.receiver = s.receiver
  ongoingSwap : t ≠ .swapper → s'.ongoingSwap = s.ongoingSwap
  orders : t ≠ .swapper → s.orders ≤ s'.orders
  ingress : t ≠ .ingress → s'.ingress = s.ingress
  egress : ∀ worker, t ≠ .egress worker → s'.egress worker = s.egress worker
  transmit : t ≠ .transmit → s'.transmit = s.transmit
  input : Flow (t = .ingress) s.inputBuffer s'.inputBuffer
  output : Flow (t = .transmit) s.outputBuffer s'.outputBuffer
  outputBuffer : (∀ worker, t ≠ .egress worker) → t ≠ .transmit → s'.outputBuffer = s.outputBuffer
  nbWorkers : s'.egressBuffers.nbWorkers = s.egressBuffers.nbWorkers

variable {s s' : SimpleSwitch} {es : List Event} {l : Label} {t : Thread}
  {worker : Fin nbEgressThreads}

variable {mayPop : Prop} {q q' : Queue Packet}

/-- A queue neither grows nor changes what it does when it is full. -/
theorem Flow.eq (h : Flow mayPop q q') (hwb : q.wb = .writeBlock) :
    q'.capacity = q.capacity ∧ q'.wb = q.wb := by
  cases h with
  | same => exact ⟨rfl, rfl⟩
  | push h =>
    obtain ⟨-, rfl⟩ := Queue.pushFront_eq_some hwb h
    exact ⟨rfl, rfl⟩
  | pop _ h => exact (Queue.popBack_eq_some h).2

/-- A full queue stays as it is, but for its thread. -/
theorem Flow.eq_of_full (h : Flow mayPop q q') (hwb : q.wb = .writeBlock)
    (hfull : q.isNotFull = false) (hpop : ¬mayPop) : q' = q := by
  cases h with
  | same => rfl
  | push h =>
    have hlt := (Queue.pushFront_eq_some hwb h).1
    exact absurd hlt (of_decide_eq_false hfull)
  | pop hmay => exact absurd hmay hpop

/-! ## Steps without a packet -/

/-- What the receiving thread does without a packet. -/
theorem receiver_step (h : s.step l = some (s', es)) (ht : l.thread = .receiver)
    (hnew : ∀ memory ts, l ≠ .newPacket memory ts) (hpush : l ≠ .pushInput) :
    es = [] ∧ ∃ receiver withQueueingMetadata,
      s' = { s with receiver := receiver, withQueueingMetadata := withQueueingMetadata } ∧
        s.receiver.items = 0 ∧ receiver.items = 0 := by
  cases l with
  | receive port data =>
    obtain ⟨hs, rfl⟩ := quiet_eq_some h
    unfold receive at hs
    split at hs
    · next hidle =>
      split_ifs at hs
      all_goals
        obtain rfl := Option.some.inj hs
        exact ⟨rfl, _, _, rfl, by rw [hidle]; rfl, rfl⟩
    · cases hs
  | checkQueueing =>
    obtain ⟨hs, rfl⟩ := quiet_eq_some h
    unfold checkQueueing at hs
    split at hs
    · next port data hrec =>
      obtain rfl := Option.some.inj hs
      exact ⟨rfl, _, _, rfl, by rw [hrec]; rfl, rfl⟩
    · cases hs
  | newPacket memory ts => exact absurd rfl (hnew memory ts)
  | pushInput => exact absurd rfl hpush
  | _ => cases ht

theorem Receiver.afterSwap_items (r : Receiver) : r.afterSwap.items = r.items := by
  cases r <;> rfl

/-- What a thread that swaps does. One step changes the objects that packets go
through. -/
theorem swapper_step (h : s.step l = some (s', es)) (ht : l.thread = .swapper) :
    es = [] ∧ ∃ cxt pool ongoingSwap orders receiver, s' = { s with
      cxt := cxt
      pool := pool
      ongoingSwap := ongoingSwap
      orders := orders
      receiver := receiver } ∧ receiver.items = s.receiver.items ∧
        (l ≠ .swapObjects → cxt = s.cxt) := by
  cases l with
  | lockSwap swapper =>
    obtain ⟨hs, rfl⟩ := quiet_eq_some h
    unfold lockSwap at hs
    split at hs
    · next port data _ hrec =>
      obtain rfl := Option.some.inj hs
      split_ifs
      · exact ⟨rfl, _, _, _, _, _, rfl, rfl, fun _ => rfl⟩
      · exact ⟨rfl, _, _, _, _, _, rfl, by rw [hrec]; rfl, fun _ => rfl⟩
    · split_ifs at hs
      obtain rfl := Option.some.inj hs
      exact ⟨rfl, _, _, _, _, _, rfl, rfl, fun _ => rfl⟩
    · cases hs
  | drain =>
    obtain ⟨hs, rfl⟩ := quiet_eq_some h
    unfold drain at hs
    split at hs
    · split_ifs at hs
      obtain rfl := Option.some.inj hs
      exact ⟨rfl, _, _, _, _, _, rfl, rfl, fun _ => rfl⟩
    · cases hs
  -- The one step that the last part leaves out.
  | swapObjects =>
    obtain ⟨hs, rfl⟩ := quiet_eq_some h
    unfold swapObjects at hs
    split at hs
    · obtain rfl := Option.some.inj hs
      exact ⟨rfl, _, _, _, _, _, rfl, rfl, fun hl => absurd rfl hl⟩
    · cases hs
  | setFactory =>
    obtain ⟨hs, rfl⟩ := quiet_eq_some h
    unfold setFactory at hs
    split at hs
    · obtain ⟨pool, -, hs⟩ := Option.bind_eq_some_iff.mp hs
      obtain rfl := Option.some.inj hs
      refine ⟨rfl, _, _, _, _, _, rfl, ?_, fun _ => rfl⟩
      split_ifs
      · exact s.receiver.afterSwap_items
      · rfl
    · cases hs
  | _ => cases ht

/-- What a request leaves of the objects and of the orders to swap them. Only a request
changes the objects that packets go through, where no others are loaded, and not what
they say of headers; the
other objects are those that were loaded, with what requests made of them; and a
thread that orders a swap comes to `do_swap`. -/
structure Requested (l : Label) (s : SimpleSwitch) (cxt : Switch.Context Program) (n : ℕ) :
    Prop where
  factory : cxt.p4objects.factory = s.program.factory
  program : cxt.p4objects = s.program ∨ l = .request cxt.p4objects ∧ s.cxt.p4objectsRt = none
  loaded : ∀ objects, cxt.p4objectsRt = some objects →
    s.cxt.p4objectsRt = some objects ∨ l = .loadNewConfig objects ∨ l = .request objects
  orders : s.orders ≤ n
  ordered : cxt.swapOrdered = true → s.cxt.swapOrdered = true ∨ 0 < n

/-- A request that has nothing to do with the objects. -/
theorem Requested.refl : Requested l s s.cxt s.orders where
  factory := rfl
  program := .inl rfl
  loaded _ := .inl
  orders := le_rfl
  ordered := .inl

/-- What the control plane does. -/
theorem controlPlane_step (h : s.step l = some (s', es)) (hc : l.thread = .controlPlane) :
    es = [] ∧ ∃ cxt orders queuesInfo mirroringMap pre, s' = { s with
      cxt := cxt
      orders := orders
      egressBuffers := { s.egressBuffers with queuesInfo := queuesInfo }
      mirroringMap := mirroringMap
      pre := pre } ∧ Requested l s cxt orders := by
  cases l with
  | mirroringMappingAdd | mirroringMappingDelete =>
    obtain ⟨rfl, rfl⟩ := Prod.mk.inj (Option.some.inj h)
    exact ⟨rfl, s.cxt, _, _, _, _, rfl, .refl⟩
  | setEgressQueueDepth port depthPkts =>
    obtain ⟨b, hset, h⟩ := Option.map_eq_some_iff.mp h
    obtain ⟨rfl, rfl⟩ := Prod.mk.inj h
    unfold QueueingLogicRL.setCapacity at hset
    split_ifs at hset
    obtain rfl := Option.some.inj hset
    exact ⟨rfl, s.cxt, _, _, _, _, rfl, .refl⟩
  | setEgressQueueRate port ratePps =>
    obtain ⟨b, hset, h⟩ := Option.map_eq_some_iff.mp h
    obtain ⟨rfl, rfl⟩ := Prod.mk.inj h
    unfold QueueingLogicRL.setRate at hset
    split_ifs at hset
    obtain rfl := Option.some.inj hset
    exact ⟨rfl, s.cxt, _, _, _, _, rfl, .refl⟩
  | pre r =>
    obtain ⟨pre, -, h⟩ := Option.map_eq_some_iff.mp h
    obtain ⟨rfl, rfl⟩ := Prod.mk.inj h
    exact ⟨rfl, s.cxt, _, _, _, _, rfl, .refl⟩
  | loadNewConfig objects =>
    obtain ⟨rfl, rfl⟩ := Prod.mk.inj (Option.some.inj h)
    unfold loadNewConfig
    split_ifs
    · refine ⟨rfl, _, _, _, _, _, rfl, { Requested.refl with loaded := fun objects' h => ?_ }⟩
      exact .inr (.inl (by rw [Option.some.inj h]))
    · exact ⟨rfl, _, _, _, _, _, rfl, .refl⟩
  | swapConfigs =>
    obtain ⟨rfl, rfl⟩ := Prod.mk.inj (Option.some.inj h)
    unfold swapConfigs
    split_ifs with hloaded
    · refine ⟨rfl, _, _, _, _, _, rfl, ?_⟩
      have hsome : s.cxt.p4objectsRt.isNone = false := by
        rw [Bool.and_eq_true] at hloaded
        rw [← Option.not_isSome, hloaded.2]
        rfl
      unfold Switch.Context.swapConfigs
      rw [hsome]
      exact { Requested.refl with
        orders := s.orders.le_succ
        ordered := fun _ => .inr s.orders.succ_pos }
    · exact ⟨rfl, _, _, _, _, _, rfl, .refl⟩
  | request objects =>
    obtain ⟨hs, rfl⟩ := quiet_eq_some h
    unfold request at hs
    split_ifs at hs with hfactory
    obtain rfl := Option.some.inj hs
    refine ⟨rfl, _, _, _, _, _, rfl, ?_⟩
    -- A request goes to the objects of the packets where there are no others.
    unfold Switch.Context.rt at hfactory
    unfold Switch.Context.updateRt
    cases hrt : s.cxt.p4objectsRt with
    | none =>
      rw [hrt] at hfactory
      exact ⟨hfactory, .inr ⟨rfl, hrt⟩, fun objects' h => .inl (hrt.trans h), le_rfl, .inl⟩
    | some rt =>
      exact ⟨rfl, .inl rfl, fun objects' h =>
        .inr (.inr (congrArg Label.request (Option.some.inj h))), le_rfl, .inl⟩
  | _ => cases hc

/-! ## The threads -/

/-- A step that changes nothing that a thread but the receiver has. -/
theorem frame_receiver (hingress : s'.ingress = s.ingress) (hegress : s'.egress = s.egress)
    (htransmit : s'.transmit = s.transmit)
    (hinput : Flow (Thread.receiver = .ingress) s.inputBuffer s'.inputBuffer)
    (houtput : s'.outputBuffer = s.outputBuffer)
    (hswap : s'.ongoingSwap = s.ongoingSwap)
    (hworkers : s'.egressBuffers.nbWorkers = s.egressBuffers.nbWorkers) (horders : s.orders ≤ s'.orders) :
    Frame .receiver s s' where
  receiver h _ := absurd rfl h
  ongoingSwap _ := hswap
  orders _ := horders
  ingress _ := hingress
  egress worker _ := congrFun hegress worker
  transmit _ := htransmit
  input := hinput
  output := houtput ▸ .same _
  outputBuffer _ _ := houtput
  nbWorkers := hworkers

/-- A step of the thread that swaps. -/
theorem frame_swapper (hingress : s'.ingress = s.ingress) (hegress : s'.egress = s.egress)
    (htransmit : s'.transmit = s.transmit) (hinput : s'.inputBuffer = s.inputBuffer)
    (houtput : s'.outputBuffer = s.outputBuffer)
    (hworkers : s'.egressBuffers.nbWorkers = s.egressBuffers.nbWorkers) : Frame .swapper s s' where
  receiver _ h := absurd rfl h
  ongoingSwap h := absurd rfl h
  orders h := absurd rfl h
  ingress _ := hingress
  egress worker _ := congrFun hegress worker
  transmit _ := htransmit
  input := hinput ▸ .same _
  output := houtput ▸ .same _
  outputBuffer _ _ := houtput
  nbWorkers := hworkers

/-- A step that changes nothing that a thread but the ingress thread has. -/
theorem frame_ingress (hreceiver : s'.receiver = s.receiver) (hegress : s'.egress = s.egress)
    (htransmit : s'.transmit = s.transmit)
    (hinput : Flow (Thread.ingress = .ingress) s.inputBuffer s'.inputBuffer)
    (houtput : s'.outputBuffer = s.outputBuffer)
    (hswap : s'.ongoingSwap = s.ongoingSwap)
    (hworkers : s'.egressBuffers.nbWorkers = s.egressBuffers.nbWorkers) (horders : s.orders ≤ s'.orders) :
    Frame .ingress s s' where
  receiver _ _ := hreceiver
  ongoingSwap _ := hswap
  orders _ := horders
  ingress h := absurd rfl h
  egress worker _ := congrFun hegress worker
  transmit _ := htransmit
  input := hinput
  output := houtput ▸ .same _
  outputBuffer _ _ := houtput
  nbWorkers := hworkers

/-- A step after which an egress thread goes on. -/
theorem frame_egress {e : Egress} (hreceiver : s'.receiver = s.receiver)
    (hingress : s'.ingress = s.ingress) (hegress : s'.egress = s.egress)
    (htransmit : s'.transmit = s.transmit)
    (hinput : Flow (Thread.egress worker = .ingress) s.inputBuffer s'.inputBuffer)
    (houtput : Flow (Thread.egress worker = .transmit) s.outputBuffer s'.outputBuffer)
    (hswap : s'.ongoingSwap = s.ongoingSwap)
    (hworkers : s'.egressBuffers.nbWorkers = s.egressBuffers.nbWorkers) (horders : s.orders ≤ s'.orders) :
    Frame (.egress worker) s (s'.setEgress worker e) where
  receiver _ _ := hreceiver
  ongoingSwap _ := hswap
  orders _ := horders
  ingress _ := hingress
  egress other h := by
    change Function.update s'.egress worker e other = _
    rw [Function.update_of_ne fun heq => h (by rw [heq]), hegress]
  transmit _ := htransmit
  input := hinput
  output := houtput
  outputBuffer h _ := absurd rfl (h worker)
  nbWorkers := hworkers

/-- A step that changes nothing that a thread has. -/
theorem frame_quiet (hreceiver : s'.receiver = s.receiver) (hingress : s'.ingress = s.ingress)
    (hegress : s'.egress = s.egress) (htransmit : s'.transmit = s.transmit)
    (hinput : s'.inputBuffer = s.inputBuffer) (houtput : s'.outputBuffer = s.outputBuffer)
    (hswap : s'.ongoingSwap = s.ongoingSwap)
    (hworkers : s'.egressBuffers.nbWorkers = s.egressBuffers.nbWorkers) (horders : s.orders ≤ s'.orders) :
    Frame t s s' where
  receiver _ _ := hreceiver
  ongoingSwap _ := hswap
  orders _ := horders
  ingress _ := hingress
  egress worker _ := congrFun hegress worker
  transmit _ := htransmit
  input := hinput ▸ .same _
  output := houtput ▸ .same _
  outputBuffer _ _ := houtput
  nbWorkers := hworkers

theorem newPacket_frame {memory : Memory} {ts : ℕ} (h : s.newPacket memory ts = some (s', es)) :
    Frame .receiver s s' := by
  unfold newPacket at h
  split at h
  · obtain ⟨buffer, -, h⟩ := Option.bind_eq_some_iff.mp h
    obtain ⟨p, -, h⟩ := Option.bind_eq_some_iff.mp h
    obtain ⟨rfl, -⟩ := Prod.mk.inj (Option.some.inj h)
    exact frame_receiver rfl rfl rfl (.same _) rfl rfl rfl le_rfl
  · cases h

theorem pushInput_frame (h : s.pushInput = some s') : Frame .receiver s s' := by
  unfold pushInput at h
  split at h
  · obtain ⟨inputBuffer, hpush, h⟩ := Option.bind_eq_some_iff.mp h
    obtain rfl := Option.some.inj h
    exact frame_receiver rfl rfl rfl (.push hpush) rfl rfl rfl le_rfl
  · cases h

theorem IngressStep.frame (h : IngressStep s l s' es) : Frame .ingress s s' := by
  cases h with
  | pop _ hpop => exact frame_ingress rfl rfl rfl (.pop rfl hpop) rfl rfl rfl le_rfl
  | push _ hpush => exact frame_ingress rfl rfl rfl (.push hpush) rfl rfl rfl le_rfl
  | clone _ _ _ _ henqueue | forward _ henqueue | replica _ _ _ _ henqueue =>
    obtain ⟨p', b, q, -, rfl, hworkers, -⟩ := enqueue_spec henqueue
    exact frame_ingress rfl rfl rfl (.same _) rfl rfl hworkers le_rfl
  | _ => exact frame_ingress rfl rfl rfl (.same _) rfl rfl rfl le_rfl

theorem EgressStep.frame (h : EgressStep s worker l s' es) : Frame (.egress worker) s s' := by
  cases h with
  | pushInput _ hpush => exact frame_egress rfl rfl rfl rfl (.push hpush) (.same _) rfl rfl le_rfl
  | pushOutput _ hpush => exact frame_egress rfl rfl rfl rfl (.same _) (.push hpush) rfl rfl le_rfl
  | clone _ _ _ _ henqueue =>
    obtain ⟨p', b, q, -, rfl, hworkers, -⟩ := enqueue_spec henqueue
    exact frame_egress rfl rfl rfl rfl (.same _) (.same _) rfl hworkers le_rfl
  | _ => exact frame_egress rfl rfl rfl rfl (.same _) (.same _) rfl rfl le_rfl

theorem popOutput_frame (h : s.popOutput = some s') : Frame .transmit s s' := by
  unfold popOutput at h
  split at h
  · obtain ⟨⟨p, outputBuffer⟩, hpop, h⟩ := Option.bind_eq_some_iff.mp h
    obtain rfl := Option.some.inj h
    exact ⟨fun _ _ => rfl, fun _ => rfl, fun _ => le_rfl, fun _ => rfl, fun _ _ => rfl,
      fun h => absurd rfl h, .same _, .pop rfl hpop, fun _ h => absurd rfl h, rfl⟩
  · cases h

theorem transmitPacket_frame (h : s.transmitPacket = some (s', es)) : Frame .transmit s s' := by
  unfold transmitPacket at h
  split at h
  · cases h
  · obtain ⟨rfl, -⟩ := Prod.mk.inj (Option.some.inj h)
    exact ⟨fun _ _ => rfl, fun _ => rfl, fun _ => le_rfl, fun _ => rfl, fun _ _ => rfl,
      fun h => absurd rfl h, .same _, .same _, fun _ _ => rfl, rfl⟩

/-- **A step changes the state of its thread only**, and pushes to the queues
between the threads or pops from them. -/
theorem step_frame (h : s.step l = some (s', es)) : Frame l.thread s s' := by
  cases l with
  | receive | checkQueueing =>
    obtain ⟨-, receiver, w, rfl, -⟩ := receiver_step h rfl nofun nofun
    exact frame_receiver rfl rfl rfl (.same _) rfl rfl rfl le_rfl
  | lockSwap | drain | swapObjects | setFactory =>
    obtain ⟨-, cxt, pool, ongoingSwap, orders, receiver, rfl, -⟩ := swapper_step h rfl
    exact frame_swapper rfl rfl rfl rfl rfl rfl
  | newPacket memory ts => exact newPacket_frame h
  | pushInput => exact pushInput_frame (quiet_eq_some h).1
  | popInput | ingressApply | ingressClone | ingressFinish | pushResubmit | multicast =>
    exact (ingress_step h rfl).frame
  | popEgress | egressApply | egressClone | egressFinish | pushRecirc | pushOutput =>
    exact (egress_step h rfl).frame
  | popOutput => exact popOutput_frame (quiet_eq_some h).1
  | transmit => exact transmitPacket_frame h
  | mirroringMappingAdd | mirroringMappingDelete | setEgressQueueDepth | setEgressQueueRate | pre
  | loadNewConfig | swapConfigs | request =>
    obtain ⟨-, cxt, orders, queuesInfo, mirroringMap, pre, rfl, hreq⟩ := controlPlane_step h rfl
    exact frame_quiet rfl rfl rfl rfl rfl rfl rfl rfl hreq.orders

end SimpleSwitch

end P4Bricks
