import P4Bricks.SimpleSwitch.Lineage
/-!
# The order of what a port sends

Packets of one port wait in the queue of that port, one egress thread takes them
from there, and all that are not dropped or recirculated go through the output
buffer. Between the queue and the wire they keep their order, whatever the threads
of the other ports do. The queue gives them back in the order they came in as long
as no two of them get one time of leaving, since a heap does not know which of the
two came first.
-/

namespace P4Bricks

open Parsing Queueing

namespace SimpleSwitch

variable {s s' : SimpleSwitch} {log es : List Event} {l : Label}

/-! ## What is seen of a port -/

/-- The number of a packet that this queue accepts. -/
def Event.enqueuedIn (queueId : ℕ) : Event → Option ℕ
  | .enqueued id q => if q = queueId then some id else none
  | _ => none

/-- The number of a packet that is sent on the port of this queue. -/
def Event.sentFrom (queueId : ℕ) : Event → Option ℕ
  | .sent id port _ => if sizeOfInt port = queueId then some id else none
  | _ => none

/-- The clock that `push_front` reads in a step. -/
def Label.clock : Label → Option ℕ
  | .ingressClone _ _ _ _ now | .ingressFinish _ _ now | .multicast _ _ now
  | .egressClone _ _ _ now => some now
  | _ => none

/-- The queue that accepts a packet. -/
def Event.acceptedBy : Event → Option ℕ
  | .enqueued _ queueId => some queueId
  | _ => none

/-- A packet that a queue accepts finds it empty, or with a rate, or comes when the
clock has gone on since the last one. -/
def Spread (s : SimpleSwitch) (l : Label) : Prop :=
  ∀ r ∈ s.step l, ∀ queueId ∈ r.2.filterMap Event.acceptedBy, ∀ now ∈ l.clock,
    (s.egressBuffers.queuesInfo queueId).Spread now

instance Spread.decidable (s : SimpleSwitch) (l : Label) : Decidable (s.Spread l) :=
  have (info : QueueInfoRL) (now : ℕ) : Decidable (info.Spread now) :=
    inferInstanceAs (Decidable (_ ∨ _ ∨ _ ∨ _))
  inferInstanceAs (Decidable (∀ r ∈ s.step l, ∀ queueId ∈ r.2.filterMap Event.acceptedBy,
    ∀ now ∈ l.clock, (s.egressBuffers.queuesInfo queueId).Spread now))

/-! ## Packets on their way out -/

/-- The queue that an egress thread has a packet from that it did not drop or
recirculate, and the number of the packet. -/
def Egress.serving : Egress → Option (ℕ × ℕ)
  | .popped port p | .applied port p | .cloned port p | .outputting port p =>
    some (port, p.packetId)
  | _ => none

/-- The packets of a port in a list. -/
def ofPort (queueId : ℕ) (ps : List Packet) : List ℕ :=
  (ps.filter fun p => sizeOfInt p.egressPort = queueId).map (·.packetId)

/-- What an egress thread has of a queue. -/
def Egress.leaving (queueId : ℕ) (e : Egress) : List ℕ :=
  match e.serving with
  | some (port, id) => if port = queueId then [id] else []
  | none => []

/-- The egress thread of a queue. -/
def workerOf (queueId : ℕ) : Fin nbEgressThreads :=
  ⟨queueId % nbEgressThreads, Nat.mod_lt _ (by decide)⟩

/-- The packets that have left a queue and are not sent yet, the next one first. -/
def leaving (s : SimpleSwitch) (queueId : ℕ) : List ℕ :=
  ofPort queueId s.transmit.toList ++ ofPort queueId s.outputBuffer.queue.reverse ++
    (s.egress (workerOf queueId)).leaving queueId

/-! ## What a step does to the queues -/

/-- A step changes the egress queues by at most one call, which is logged if it is a
push that is accepted. -/
inductive Called (clock : Option ℕ) (b b' : QueueingLogicRL Packet) (es : List Event) :
    Option (Queueing.Event ℕ Packet) → Prop where
  | adjusted (hb : b.Adjusted b') (hes : ∀ queueId, es.filterMap (Event.enqueuedIn queueId) = []) :
      Called clock b b' es none
  | pushed {queueId : ℕ} {p : Packet} {now : ℕ} (hclock : clock = some now) (hr : b.InRange queueId)
      (hroom : (b.queuesInfo queueId).size < (b.queuesInfo queueId).capacity)
      (hb : b' = b.enqueue queueId p now) (hes : es = [.enqueued p.packetId queueId]) :
      Called clock b b' es (some (.accepted queueId p))
  | popped {worker : ℕ} {qe : QE Packet} (hfront : (b.workersInfo worker).front? = some qe)
      (hb : b' = b.dequeue worker qe.queueId) (hes : es = []) :
      Called clock b b' es (some (.popped qe.queueId qe.e))

/-- In order, what a step sends and what is on its way after it was on its way before
or is popped, and some of that is not there any more. -/
def Passes (s s' : SimpleSwitch) (es : List Event) (e : Option (Queueing.Event ℕ Packet)) : Prop :=
  ∀ queueId, (es.filterMap (Event.sentFrom queueId) ++ s'.leaving queueId).Sublist
    (s.leaving queueId ++ (Queueing.Event.poppedFrom queueId e.toList).map (·.packetId))

/-- After a step an egress thread has the packet that it had, or none, or the front of
its heap. -/
def Serves (s s' : SimpleSwitch) : Prop :=
  ∀ worker, (s'.egress worker).serving = (s.egress worker).serving ∨
    (s'.egress worker).serving = none ∨
      ∃ qe, (s.egressBuffers.workersInfo worker).front? = some qe ∧
        (s'.egress worker).serving = some (qe.queueId, qe.e.packetId)

/-- What a step does to the egress queues and to the packets behind them. -/
structure Orderly (l : Label) (s s' : SimpleSwitch) (es : List Event)
    (e : Option (Queueing.Event ℕ Packet)) : Prop where
  called : Called l.clock s.egressBuffers s'.egressBuffers es e
  passes : Passes s s' es e
  serves : Serves s s'

/-- An egress thread has packets of the queues that are mapped to it only. -/
def Homed (s : SimpleSwitch) : Prop :=
  ∀ worker x, (s.egress worker).serving = some x → workerOf x.1 = worker

/-! ## Before the queues -/

/-- A step of a thread that is not behind the queues. -/
theorem passes_of_frame {t : Thread} {e : Option (Queueing.Event ℕ Packet)} (hf : Frame t s s')
    (hegress : ∀ worker, t ≠ .egress worker) (htransmit : t ≠ .transmit)
    (hsent : ∀ queueId, es.filterMap (Event.sentFrom queueId) = []) : Passes s s' es e := by
  intro queueId
  have hsame : s'.leaving queueId = s.leaving queueId := by
    unfold leaving
    rw [hf.transmit htransmit, hf.outputBuffer hegress htransmit, hf.egress _ (hegress _)]
  rw [hsent, hsame, List.nil_append]
  exact List.sublist_append_left ..

/-- A step that sends nothing and calls the queues once at most. -/
def Feeds (clock : Option ℕ) (s s' : SimpleSwitch) (es : List Event) : Prop :=
  (∃ e, Called clock s.egressBuffers s'.egressBuffers es e) ∧
    ∀ queueId, es.filterMap (Event.sentFrom queueId) = []

theorem Feeds.same {clock : Option ℕ} (hb : s'.egressBuffers = s.egressBuffers) :
    Feeds clock s s' [] := by
  refine ⟨⟨none, .adjusted ?_ fun _ => rfl⟩, fun _ => rfl⟩
  rw [hb]
  exact .refl _

theorem enqueue_feeds {egressPort : ℤ} {p : Packet} {ts now : ℕ}
    (h : s.enqueue egressPort p ts now = some (s', es)) :
    Feeds (some now) s s' es := by
  obtain ⟨p', -, h⟩ := Option.bind_eq_some_iff.mp h
  obtain ⟨⟨b, accepted⟩, hpush, h⟩ := Option.bind_eq_some_iff.mp h
  obtain ⟨rfl, rfl⟩ := Prod.mk.inj (Option.some.inj h)
  obtain ⟨hr, ⟨hroom, rfl, rfl⟩ | ⟨rfl, rfl⟩⟩ := QueueingLogicRL.pushFront_cases hpush
  · exact ⟨⟨_, .pushed rfl hr hroom rfl rfl⟩, fun _ => rfl⟩
  · -- The queue is full: the packet is destroyed, and nothing is logged.
    exact .same rfl

/-- The ingress thread calls a queue where it enqueues. -/
theorem IngressStep.feeds (h : IngressStep s l s' es) : Feeds l.clock s s' es := by
  cases h with
  | clone _ _ _ _ henqueue | forward _ henqueue | replica _ _ _ _ henqueue =>
    have hfeeds := enqueue_feeds henqueue
    exact hfeeds
  | _ => exact .same rfl

/-- The receiving thread calls no queue of these. -/
theorem receiver_feeds (h : s.step l = some (s', es)) (ht : l.thread = .receiver) :
    Feeds l.clock s s' es := by
  by_cases hnew : ∃ memory ts, l = .newPacket memory ts
  · obtain ⟨memory, ts, rfl⟩ := hnew
    unfold SimpleSwitch.step newPacket at h
    simp only at h
    split at h
    · obtain ⟨buffer, -, h⟩ := Option.bind_eq_some_iff.mp h
      obtain ⟨p, -, h⟩ := Option.bind_eq_some_iff.mp h
      obtain ⟨rfl, rfl⟩ := Prod.mk.inj (Option.some.inj h)
      exact ⟨⟨_, .adjusted (.refl _) fun _ => rfl⟩, fun _ => rfl⟩
    · cases h
  by_cases hpush : l = .pushInput
  · obtain ⟨hs, rfl⟩ := quiet_eq_some (hpush ▸ h)
    unfold pushInput at hs
    split at hs
    · obtain ⟨inputBuffer, -, hs⟩ := Option.bind_eq_some_iff.mp hs
      obtain rfl := Option.some.inj hs
      exact .same rfl
    · cases hs
  obtain ⟨rfl, receiver, w, rfl, -⟩ := receiver_step h ht
    (fun memory ts heq => hnew ⟨memory, ts, heq⟩) hpush
  exact .same rfl

/-- The control plane changes the depth or the rate of a queue. -/
theorem controlPlane_feeds (h : s.step l = some (s', es)) (hc : l.thread = .controlPlane) :
    Feeds l.clock s s' es := by
  have hes := (controlPlane_step h hc).1
  subst hes
  refine ⟨⟨_, .adjusted ?_ fun _ => rfl⟩, fun _ => rfl⟩
  cases l with
  | setEgressQueueDepth port depthPkts =>
    obtain ⟨b, hset, h⟩ := Option.map_eq_some_iff.mp h
    obtain ⟨rfl, -⟩ := Prod.mk.inj h
    exact QueueingLogicRL.adjusted_setCapacity hset
  | setEgressQueueRate port ratePps =>
    obtain ⟨b, hset, h⟩ := Option.map_eq_some_iff.mp h
    obtain ⟨rfl, -⟩ := Prod.mk.inj h
    exact QueueingLogicRL.adjusted_setRate hset
  | mirroringMappingAdd | mirroringMappingDelete =>
    obtain ⟨rfl, -⟩ := Prod.mk.inj (Option.some.inj h)
    exact .refl _
  | pre r =>
    obtain ⟨pre, -, h⟩ := Option.map_eq_some_iff.mp h
    obtain ⟨rfl, -⟩ := Prod.mk.inj h
    exact .refl _
  | loadNewConfig objects =>
    obtain ⟨rfl, -⟩ := Prod.mk.inj (Option.some.inj h)
    unfold loadNewConfig
    split_ifs <;> exact .refl _
  | swapConfigs =>
    obtain ⟨rfl, -⟩ := Prod.mk.inj (Option.some.inj h)
    unfold swapConfigs
    split_ifs <;> exact .refl _
  | request objects =>
    obtain ⟨hs, -⟩ := quiet_eq_some h
    unfold request at hs
    split_ifs at hs
    obtain rfl := Option.some.inj hs
    exact .refl _
  | _ => cases hc

theorem swapper_feeds (h : s.step l = some (s', es)) (ht : l.thread = .swapper) :
    Feeds l.clock s s' es := by
  obtain ⟨rfl, cxt, pool, ongoingSwap, orders, receiver, rfl, -⟩ := swapper_step h ht
  exact .same rfl

/-! ## Behind the queues -/

theorem ofPort_append (queueId : ℕ) (ps ps' : List Packet) :
    ofPort queueId (ps ++ ps') = ofPort queueId ps ++ ofPort queueId ps' := by
  unfold ofPort
  rw [List.filter_append, List.map_append]

theorem setEgress_self (worker : Fin nbEgressThreads) (e : Egress) :
    (s.setEgress worker e).egress worker = e := Function.update_self ..

theorem serves_of_worker {worker : Fin nbEgressThreads} (hf : Frame (.egress worker) s s')
    (hserving : (s'.egress worker).serving = (s.egress worker).serving ∨
      (s'.egress worker).serving = none ∨
        ∃ qe, (s.egressBuffers.workersInfo worker).front? = some qe ∧
          (s'.egress worker).serving = some (qe.queueId, qe.e.packetId)) : Serves s s' := by
  intro other
  by_cases hw : other = worker
  · rw [hw]
    exact hserving
  · exact .inl (by rw [hf.egress _ fun heq => hw (Thread.egress.inj heq).symm])

/-- A step after which an egress thread has the packet that it had, or none. -/
theorem orderly_of_worker {worker : Fin nbEgressThreads} {e : Option (Queueing.Event ℕ Packet)}
    (hf : Frame (.egress worker) s s') (hout : s'.outputBuffer = s.outputBuffer)
    (hserving : (s'.egress worker).serving = (s.egress worker).serving ∨
      (s'.egress worker).serving = none)
    (hcalled : Called l.clock s.egressBuffers s'.egressBuffers es e)
    (hsent : ∀ queueId, es.filterMap (Event.sentFrom queueId) = []) : Orderly l s s' es e := by
  refine ⟨hcalled, fun queueId => ?_, serves_of_worker hf (hserving.imp_right .inl)⟩
  rw [hsent, List.nil_append]
  refine List.Sublist.trans ?_ (List.sublist_append_left ..)
  unfold leaving
  rw [hf.transmit nofun, hout]
  refine List.Sublist.append (List.Sublist.refl _) ?_
  by_cases hw : workerOf queueId = worker
  · rw [hw]
    unfold Egress.leaving
    rcases hserving with hsame | hnone
    · rw [hsame]
    · rw [hnone]
      exact List.nil_sublist _
  · rw [hf.egress _ fun heq => hw (Thread.egress.inj heq).symm]

/-- Such a step that does not touch the queues, and is not seen from outside. -/
theorem orderly_of_quiet {worker : Fin nbEgressThreads} (hf : Frame (.egress worker) s s')
    (hout : s'.outputBuffer = s.outputBuffer) (hbuffers : s'.egressBuffers = s.egressBuffers)
    (hserving : (s'.egress worker).serving = (s.egress worker).serving ∨
      (s'.egress worker).serving = none)
    (hes : ∀ queueId, es.filterMap (Event.enqueuedIn queueId) = [] ∧
      es.filterMap (Event.sentFrom queueId) = []) : ∃ e, Orderly l s s' es e := by
  refine ⟨none, orderly_of_worker hf hout hserving (.adjusted ?_ fun queueId => (hes queueId).1)
    fun queueId => (hes queueId).2⟩
  rw [hbuffers]
  exact .refl _

/-- The packet that is popped is the last one on its way. -/
theorem popEgress_orderly {worker : Fin nbEgressThreads} {now : ℕ}
    (h : EgressStep s worker (.popEgress worker now) s' es) :
    ∃ e, Orderly (.popEgress worker now) s s' es e := by
  have hf := h.frame
  cases h with
  | @pop _ qe heg hw hfront =>
    refine ⟨_, .popped hfront rfl rfl, fun queueId => ?_,
      serves_of_worker hf (.inr (.inr ⟨qe, hfront, by rw [setEgress_self]; rfl⟩))⟩
    rw [List.filterMap_nil, List.nil_append]
    unfold leaving
    by_cases hw : workerOf queueId = worker
    · -- The thread had nothing of the queue, and has what it has popped.
      rw [hw, heg, setEgress_self, List.append_assoc, List.append_assoc, List.append_assoc]
      refine (List.Sublist.refl _).append ((List.Sublist.refl _).append ?_)
      rw [Option.toList_some, Queueing.Event.poppedFrom_popped]
      simp only [Egress.leaving, Egress.serving]
      by_cases hq : qe.queueId = queueId
      · simp only [if_pos hq, List.map_cons, List.map_nil, List.nil_append, List.Sublist.refl]
      · simp only [if_neg hq, List.nil_sublist]
    · rw [hf.egress _ fun heq => hw (Thread.egress.inj heq).symm]
      exact List.sublist_append_left ..

/-- The packet goes behind those that are in the output buffer. -/
theorem pushOutput_orderly {worker : Fin nbEgressThreads} (hi : Inv s log) (hh : s.Homed)
    (h : EgressStep s worker (.pushOutput worker) s' es) :
    ∃ e, Orderly (.pushOutput worker) s s' es e := by
  have hf := h.frame
  cases h with
  | @pushOutput port p q heg hpush =>
    obtain ⟨-, rfl⟩ := Queue.pushFront_eq_some hi.outputBlocks hpush
    -- The packet is sent on the port of the queue that it was popped from.
    have hport : sizeOfInt p.egressPort = port := by
      refine (hi.all.items (.egress port, p) ?_).placed
      change _ ∈ s.items
      rw [items_of_egress (congrArg _ heg)]
      exact Multiset.mem_add.mpr (.inl (Multiset.mem_singleton_self _))
    -- No other thread has packets of this port, so that the packet is the last one on its way.
    have hhome : workerOf port = worker := hh worker (port, p.packetId) (by rw [heg]; rfl)
    refine ⟨none, .adjusted (.refl _) fun _ => rfl, fun queueId => ?_,
      serves_of_worker hf (.inr (.inl (by rw [setEgress_self]; rfl)))⟩
    rw [List.filterMap_nil, List.nil_append]
    refine List.Sublist.trans ?_ (List.sublist_append_left ..)
    have hbuffer : ofPort queueId (p :: s.outputBuffer.queue).reverse =
        ofPort queueId s.outputBuffer.queue.reverse ++
          (Egress.outputting port p).leaving queueId := by
      rw [List.reverse_cons, ofPort_append]
      unfold ofPort Egress.leaving
      simp only [Egress.serving, List.filter_singleton, hport]
      by_cases hq : port = queueId
      · simp only [hq, decide_true, cond_true, List.map_cons, List.map_nil, if_true]
      · simp only [hq, decide_false, cond_false, List.map_nil, if_false]
    unfold leaving
    rw [show (setEgress { s with outputBuffer := { s.outputBuffer with
      queue := p :: s.outputBuffer.queue } } worker .idle).outputBuffer.queue =
        p :: s.outputBuffer.queue from rfl, hbuffer]
    by_cases hw : workerOf queueId = worker
    · rw [hw, setEgress_self, heg, ← List.append_assoc]
      exact (List.append_nil _).symm ▸ List.Sublist.refl _
    · have hne : port ≠ queueId := fun heq => hw (heq ▸ hhome)
      rw [hf.egress _ fun heq => hw (Thread.egress.inj heq).symm]
      have hnone : (Egress.outputting port p).leaving queueId = [] := if_neg hne
      rw [hnone, List.append_nil]
      exact List.Sublist.refl _

/-- **An egress thread** takes its packets one by one from its queues to the output buffer. -/
theorem EgressStep.orderly {worker : Fin nbEgressThreads} (hi : Inv s log) (hh : s.Homed)
    (h : EgressStep s worker l s' es) : ∃ e, Orderly l s s' es e := by
  have hf := h.frame
  cases h with
  | @pop now _ heg hw hfront =>
    have hpop : EgressStep s worker (.popEgress worker now) _ _ := .pop heg hw hfront
    exact popEgress_orderly hpop
  | @apply _ _ _ p _ p₂ heg hdequeued hops =>
    have hid : p₂.packetId = p.packetId :=
      ((applyAll_altered (F := s.pool.phvFactory) hops).1.origin.packetId).trans
        (dequeued_altered (F := s.pool.phvFactory) hdequeued).1.origin.packetId
    refine orderly_of_quiet hf rfl rfl (.inl ?_) fun _ => ⟨rfl, rfl⟩
    rw [setEgress_self, heg]
    simp only [Egress.serving, hid]
  | noClone heg =>
    refine orderly_of_quiet hf rfl rfl (.inl ?_) fun _ => ⟨rfl, rfl⟩
    rw [setEgress_self, heg]
    rfl
  | clone heg _ _ _ henqueue =>
    obtain ⟨⟨e, hcalled⟩, hsent⟩ := enqueue_feeds henqueue
    obtain ⟨p', b, q, -, rfl, -⟩ := enqueue_spec henqueue
    refine ⟨e, orderly_of_worker hf rfl (.inl ?_) hcalled hsent⟩
    rw [setEgress_self, heg]
    rfl
  | drop | recirculate | pushInput =>
    -- A packet that is recirculated comes back through the ingress thread and a queue, if at all.
    refine orderly_of_quiet hf rfl rfl (.inr ?_) fun _ => ⟨rfl, rfl⟩
    rw [setEgress_self]
    rfl
  | @output _ _ p p₁ heg hdeparse =>
    have hid : p₁.packetId = p.packetId := (deparse_altered hdeparse).1.origin.packetId
    refine orderly_of_quiet hf rfl rfl (.inl ?_) fun _ => ⟨rfl, rfl⟩
    rw [setEgress_self, heg]
    simp only [Egress.serving, hid]
  | pushOutput heg hpush => exact pushOutput_orderly hi hh (.pushOutput heg hpush)

/-- The next packet of the output buffer is sent next. -/
theorem popOutput_orderly (h : s.popOutput = some s') : ∃ e, Orderly .popOutput s s' [] e := by
  unfold popOutput at h
  split at h
  · next hnone =>
    obtain ⟨⟨p, outputBuffer⟩, hpop, h⟩ := Option.bind_eq_some_iff.mp h
    obtain rfl := Option.some.inj h
    refine ⟨none, .adjusted (.refl _) fun _ => rfl, fun queueId => ?_, fun _ => .inl rfl⟩
    rw [List.filterMap_nil, List.nil_append]
    refine List.Sublist.trans ?_ (List.sublist_append_left ..)
    unfold leaving
    rw [hnone, (Queue.popBack_eq_some hpop).1, List.reverse_append, List.reverse_singleton,
      ofPort_append]
    exact List.Sublist.refl _
  · cases h

theorem transmitPacket_orderly (h : s.transmitPacket = some (s', es)) :
    ∃ e, Orderly .transmit s s' es e := by
  unfold transmitPacket at h
  split at h
  · cases h
  · next p hsome =>
    obtain ⟨rfl, rfl⟩ := Prod.mk.inj (Option.some.inj h)
    refine ⟨none, .adjusted (.refl _) fun _ => rfl, fun queueId => ?_, fun _ => .inl rfl⟩
    refine List.Sublist.trans ?_ (List.sublist_append_left ..)
    unfold leaving
    rw [hsome]
    have hsent : [Event.sent p.packetId p.egressPort p.bytes].filterMap (Event.sentFrom queueId) =
        ofPort queueId [p] := by
      unfold ofPort Event.sentFrom
      by_cases hq : sizeOfInt p.egressPort = queueId
      · simp [hq]
      · simp [hq]
    rw [hsent, ← List.append_assoc]
    exact List.Sublist.refl _

/-- **Every step of every thread** calls the queues once at most, and keeps what is
behind them in order. -/
theorem step_orderly (hi : Inv s log) (hh : s.Homed) (h : s.step l = some (s', es)) :
    ∃ e, Orderly l s s' es e := by
  have hfeeds : Feeds l.clock s s' es → (∀ worker, l.thread ≠ .egress worker) →
      l.thread ≠ .transmit → ∃ e, Orderly l s s' es e := by
    rintro ⟨⟨e, hcalled⟩, hsent⟩ hegress htransmit
    refine ⟨e, hcalled, passes_of_frame (step_frame h) hegress htransmit hsent, fun worker => ?_⟩
    exact .inl (by rw [(step_frame h).egress worker (hegress worker)])
  cases ht : l.thread with
  | receiver => exact hfeeds (receiver_feeds h ht) (by rw [ht]; nofun) (by rw [ht]; nofun)
  | swapper => exact hfeeds (swapper_feeds h ht) (by rw [ht]; nofun) (by rw [ht]; nofun)
  | ingress => exact hfeeds (ingress_step h ht).feeds (by rw [ht]; nofun) (by rw [ht]; nofun)
  | controlPlane => exact hfeeds (controlPlane_feeds h ht) (by rw [ht]; nofun) (by rw [ht]; nofun)
  | egress worker => exact (egress_step h ht).orderly hi hh
  | transmit =>
    cases l with
    | popOutput =>
      obtain ⟨hs, rfl⟩ := quiet_eq_some h
      exact popOutput_orderly hs
    | transmit => exact transmitPacket_orderly h
    | _ => cases ht

/-! ## The calls as steps of the lanes -/

section Calls

variable {clock : Option ℕ} {b b' : QueueingLogicRL Packet} {e : Option (Queueing.Event ℕ Packet)}

/-- A call does a step of the lanes, and lanes stay where they are. -/
theorem Called.rated (h : Called clock b b' es e) (ok : Rated ℕ ℕ Packet → ℕ → ℕ → Prop)
    (hok : ∀ queueId ∈ es.filterMap Event.acceptedBy, ∀ now ∈ clock,
      (b.queuesInfo queueId).size < (b.queuesInfo queueId).capacity → ok b.rated queueId now) :
    Rated.Step (QueueingLogicRL.layout b.nbQueues b.mapToWorker) ok b.rated e b'.rated ∧
      b'.nbQueues = b.nbQueues ∧ b'.mapToWorker = b.mapToWorker := by
  cases h with
  | adjusted hb _ =>
    obtain ⟨infos, rfl, hsize, hsent⟩ := hb
    exact ⟨.adjust b.rated hsize hsent, rfl, rfl⟩
  | pushed hclock hr hroom hb hes =>
    subst hb hes
    exact ⟨Rated.Step.push (L := QueueingLogicRL.layout b.nbQueues b.mapToWorker) b.rated
      (Finset.mem_range.mpr hr.1) (hok _ (List.mem_singleton_self _) _ hclock hroom), rfl, rfl⟩
  | popped hfront hb _ =>
    subst hb
    exact ⟨Rated.Step.pop (L := QueueingLogicRL.layout b.nbQueues b.mapToWorker) b.rated hfront,
      rfl, rfl⟩

/-- What is logged of a call is what it accepts. -/
theorem Called.enqueued (h : Called clock b b' es e) (queueId : ℕ) :
    es.filterMap (Event.enqueuedIn queueId) =
      (Queueing.Event.acceptedFor queueId e.toList).map (·.packetId) := by
  cases h with
  | adjusted _ hes => exact hes queueId
  | @pushed q p now _ _ _ _ hes =>
    subst hes
    rw [Option.toList_some, Queueing.Event.acceptedFor_accepted]
    unfold Event.enqueuedIn
    by_cases hq : q = queueId
    · simp [hq]
    · simp [hq]
  | popped _ _ hes =>
    subst hes
    rfl

end Calls

/-! ## Runs -/

/-- The lanes of the egress queues. -/
def lanes (s : SimpleSwitch) : Layout ℕ ℕ :=
  QueueingLogicRL.layout s.egressBuffers.nbQueues s.egressBuffers.mapToWorker

/-- What was called on the egress queues (`calls`) accounts for what was logged: what
a queue accepted was logged, and what was sent on its port and what is on its way
there was popped from it before, in this order. -/
structure Accounted (s : SimpleSwitch) (log : List Event)
    (calls : List (Queueing.Event ℕ Packet)) : Prop where
  homes : s.egressBuffers.mapToWorker = (· % nbEgressThreads)
  rated : Rated.Inv s.lanes s.egressBuffers.rated calls
  homed : s.Homed
  enqueued : ∀ queueId, log.filterMap (Event.enqueuedIn queueId) =
    (Queueing.Event.acceptedFor queueId calls).map (·.packetId)
  sent : ∀ queueId, (log.filterMap (Event.sentFrom queueId) ++ s.leaving queueId).Sublist
    ((Queueing.Event.poppedFrom queueId calls).map (·.packetId))

theorem accounted_create (maxPort : ℕ) (enableSwap : Bool) (objects : Program) (pktDelay : ℕ → ℕ)
    (now : ℕ) : Accounted (create maxPort enableSwap objects pktDelay now) [] [] :=
  ⟨rfl, .empty fun _ => rfl,
    fun _ x hx => absurd (show none = some x from hx).symm (Option.some_ne_none x), fun _ => rfl,
    fun _ => List.Sublist.slnil⟩

/-- A thread has what its heap had in front, which is of a queue that is mapped to it. -/
theorem Homed.step {calls : List (Queueing.Event ℕ Packet)} (ha : Accounted s log calls)
    (hserves : Serves s s') : s'.Homed := by
  intro worker x hx
  rcases hserves worker with hsame | hnone | ⟨qe, hfront, hnew⟩
  · exact ha.homed worker x (hsame ▸ hx)
  · rw [hnone] at hx
    cases hx
  · rw [hnew] at hx
    obtain rfl := Option.some.inj hx
    have hhome := ha.rated.served.homed worker qe (Heap.mem_contents_of_front hfront)
    refine Fin.ext ?_
    change s.egressBuffers.mapToWorker qe.queueId = worker at hhome
    rw [ha.homes] at hhome
    exact hhome

/-- **One step** keeps the account, with the call it makes. -/
theorem Accounted.step {calls : List (Queueing.Event ℕ Packet)} (ha : Accounted s log calls)
    {e : Option (Queueing.Event ℕ Packet)} (h : Orderly l s s' es e) :
    Accounted s' (log ++ es) (calls ++ e.toList) ∧ s'.lanes = s.lanes := by
  obtain ⟨hstep, hqueues, hmap⟩ := h.called.rated (fun _ _ _ => True) fun _ _ _ _ _ => trivial
  have hlanes : s'.lanes = s.lanes := by
    unfold lanes
    rw [hqueues, hmap]
  refine ⟨⟨hmap.trans ha.homes, ?_, Homed.step ha h.serves, fun queueId => ?_, fun queueId => ?_⟩,
    hlanes⟩
  · rw [hlanes]
    exact ha.rated.step hstep
  · rw [List.filterMap_append, Queueing.Event.acceptedFor_append, List.map_append,
      ha.enqueued queueId, h.called.enqueued queueId]
  · rw [List.filterMap_append, Queueing.Event.poppedFrom_append, List.map_append,
      List.append_assoc]
    -- What was sent stays, what was on its way moves on, and what is popped comes behind it.
    have hnow := (List.Sublist.refl (log.filterMap (Event.sentFrom queueId))).append
      (h.passes queueId)
    have hbefore := (ha.sent queueId).append
      (List.Sublist.refl ((Queueing.Event.poppedFrom queueId e.toList).map (·.packetId)))
    rw [List.append_assoc] at hbefore
    exact hnow.trans hbefore

variable {maxPort : ℕ} {enableSwap : Bool} {objects : Program} {pktDelay : ℕ → ℕ} {now : ℕ}
  {labels : List Label}

/-- **One step** of the switch, with what it does to the account and to the order. -/
theorem accounted_step {calls : List (Queueing.Event ℕ Packet)} (hi : Inv s log)
    (ha : Accounted s log calls) (h : s.step l = some (s', es)) :
    ∃ calls', Accounted s' (log ++ es) calls' ∧
      (s.Spread l → (∀ queueId, Rated.InOrder s.lanes s.egressBuffers.rated calls queueId) →
        ∀ queueId, Rated.InOrder s'.lanes s'.egressBuffers.rated calls' queueId) := by
  obtain ⟨e, horderly⟩ := step_orderly hi ha.homed h
  obtain ⟨ha', hlanes⟩ := ha.step horderly
  refine ⟨calls ++ e.toList, ha', fun hspread ho queueId => ?_⟩
  obtain ⟨hcalled, -, -⟩ := horderly.called.rated Rated.Spread
    fun queueId hq now hnow hroom => (hspread _ h queueId hq now hnow).resolve_left (by omega)
  rw [hlanes]
  exact (ho queueId).step ha.rated hcalled

theorem accounted_of_runsTo (h : RunsTo maxPort enableSwap objects pktDelay now labels s log) :
    ∃ calls, Accounted s log calls := by
  refine ((inv_create _ _ _ _ _).run_keeps (fun s log => ∃ calls, Accounted s log calls)
    ⟨[], accounted_create _ _ _ _ _⟩ ?_ h).2
  rintro s log l s' es hi ⟨calls, ha⟩ hs'
  obtain ⟨calls', ha', -⟩ := accounted_step hi ha hs'
  exact ⟨calls', ha'⟩

/-- **What a port sends was enqueued for it**, as often at least as it is sent. -/
theorem sent_le_enqueued (h : RunsTo maxPort enableSwap objects pktDelay now labels s log)
    (queueId : ℕ) :
    (log.filterMap (Event.sentFrom queueId) : Multiset ℕ) ≤
      log.filterMap (Event.enqueuedIn queueId) := by
  obtain ⟨calls, ha⟩ := accounted_of_runsTo h
  have hsent : (log.filterMap (Event.sentFrom queueId)).Sublist
      ((Queueing.Event.poppedFrom queueId calls).map (·.packetId)) :=
    (List.sublist_append_left ..).trans (ha.sent queueId)
  have hpopped : (Queueing.Event.poppedFrom queueId calls : Multiset Packet) ≤
      Queueing.Event.acceptedFor queueId calls := by
    rw [ha.rated.conserved queueId]
    exact Multiset.le_add_right ..
  rw [ha.enqueued queueId]
  calc (log.filterMap (Event.sentFrom queueId) : Multiset ℕ)
      ≤ ((Queueing.Event.poppedFrom queueId calls).map (·.packetId) : List ℕ) :=
        Multiset.coe_le.mpr hsent.subperm
    _ ≤ ((Queueing.Event.acceptedFor queueId calls).map (·.packetId) : List ℕ) := by
        rw [← Multiset.map_coe, ← Multiset.map_coe]
        exact Multiset.map_le_map hpopped

/-- The queue of port 1 accepts a packet after one that is sent. -/
def wireTwo : List Label :=
  wireReceive [1, 2] ++ wireIngress 3 1 ++ wireEgress [] ++ wireTransmit ++ wireReceive [3] ++
    wireIngress 3 1

set_option maxRecDepth 10000 in
theorem sent_le_enqueued_wire : ∃ s log, RunsTo 8 true wire id 0 wireTwo s log ∧
    (log.filterMap (Event.sentFrom 1) : Multiset ℕ) ≤ log.filterMap (Event.enqueuedIn 1) := by
  obtain ⟨s, log, h⟩ : ∃ s log, RunsTo 8 true wire id 0 wireTwo s log := ⟨_, _, rfl⟩
  exact ⟨s, log, h, sent_le_enqueued h 1⟩

theorem ordered_of_runsTo (h : RunsTo maxPort enableSwap objects pktDelay now labels s log)
    (hspread : Runs.Always stepLog (fun r l => r.1.Spread l)
      (create maxPort enableSwap objects pktDelay now, []) labels) :
    ∃ calls, Accounted s log calls ∧
      ∀ queueId, Rated.InOrder s.lanes s.egressBuffers.rated calls queueId := by
  refine ((inv_create _ _ _ _ _).run_of Spread (fun s log => ∃ calls, Accounted s log calls ∧
    ∀ queueId, Rated.InOrder s.lanes s.egressBuffers.rated calls queueId)
    ⟨[], accounted_create _ _ _ _ _, fun queueId => .empty queueId⟩ ?_ hspread h).2
  rintro s log l s' es hi ⟨calls, ha, ho⟩ hsp hs'
  obtain ⟨calls', ha', ho'⟩ := accounted_step hi ha hs'
  exact ⟨calls', ha', ho' hsp ho⟩

/-- **A port sends in the order of its queue.** In a run whose pushes are spread in
time, the packets that a port sends are some of those that its queue accepted, in the
order in which it did, whatever the threads do in between. -/
theorem sent_in_order (h : RunsTo maxPort enableSwap objects pktDelay now labels s log)
    (hspread : Runs.Always stepLog (fun r l => r.1.Spread l)
      (create maxPort enableSwap objects pktDelay now, []) labels) (queueId : ℕ) :
    (log.filterMap (Event.sentFrom queueId)).Sublist
      (log.filterMap (Event.enqueuedIn queueId)) := by
  obtain ⟨calls, ha, ho⟩ := ordered_of_runsTo h hspread
  have hsent : (log.filterMap (Event.sentFrom queueId)).Sublist
      ((Queueing.Event.poppedFrom queueId calls).map (·.packetId)) :=
    (List.sublist_append_left ..).trans (ha.sent queueId)
  rw [ha.enqueued queueId]
  exact hsent.trans ((ho queueId).isPrefix.sublist.map _)

set_option maxRecDepth 10000 in
theorem sent_in_order_wire : ∃ s log, RunsTo 8 true wire id 0 wireTwo s log ∧
    log.filterMap (Event.sentFrom 1) = [0] ∧ log.filterMap (Event.enqueuedIn 1) = [0, 1] ∧
      (log.filterMap (Event.sentFrom 1)).Sublist (log.filterMap (Event.enqueuedIn 1)) := by
  obtain ⟨s, log, h, hsent, hqueue⟩ : ∃ s log, RunsTo 8 true wire id 0 wireTwo s log ∧
      log.filterMap (Event.sentFrom 1) = [0] ∧ log.filterMap (Event.enqueuedIn 1) = [0, 1] :=
    ⟨_, _, rfl, rfl, rfl⟩
  have hspread : Runs.Always stepLog (fun r l => r.1.Spread l)
      (create 8 true wire id 0, []) wireTwo := by decide +kernel
  exact ⟨s, log, h, hsent, hqueue, sent_in_order h hspread 1⟩

end SimpleSwitch

end P4Bricks
