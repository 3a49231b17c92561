import P4Bricks.SimpleSwitch.Helpers.Books
import P4Bricks.SimpleSwitch.Helpers.Steps
import Mathlib.Tactic.Abel
/-!
# The steps of the receiving and the ingress thread, in the books

Each step is a birth, or a few moves of the packets (`Moved`).
-/

namespace P4Bricks

open Parsing Queueing Custody

namespace SimpleSwitch

variable {F : PhvFactory} {m m' : Multiset Item} {pool pool' : List Phv} {n n' : ℤ}
variable {log log' : List Event}

/-! ## Moves -/

theorem moves_congr {m₁ m₁' : Multiset Item}
    (h : Moves (rules F) ⟨m₁, pool, n, log⟩ ⟨m₁', pool', n', log'⟩) (hm : m = m₁) (hm' : m' = m₁') :
    Moves (rules F) ⟨m, pool, n, log⟩ ⟨m', pool', n', log'⟩ := by
  rwa [hm, hm']

theorem moves_turn {x y : Item} {es : List Event} (h : Turns F x y es) :
    Moves (rules F) ⟨{x} + m, pool, n, log⟩ ⟨{y} + m, pool, n, log ++ es⟩ := by
  rw [Multiset.singleton_add, Multiset.singleton_add]
  exact .single (.turn h)

theorem moves_go {x y : Item} (h : Turns F x y []) :
    Moves (rules F) ⟨{x} + m, pool, n, log⟩ ⟨{y} + m, pool, n, log⟩ := by
  have hturn : Moves (rules F) ⟨{x} + m, pool, n, log⟩ ⟨{y} + m, pool, n, log ++ []⟩ := moves_turn h
  rwa [List.append_nil] at hturn

theorem moves_copy {x y : Item} {phv : Phv} {es : List Event} (htaken : Taken (rules F) pool phv pool')
    (h : Copied F phv x y es) :
    Moves (rules F) ⟨{x} + m, pool, n, log⟩ ⟨{y} + ({x} + m), pool', n + 1, log ++ es⟩ := by
  rw [Multiset.singleton_add, Multiset.singleton_add]
  exact .single (.copy htaken h)

theorem moves_destroy (place : Place) (p : Packet) (q : PhvPool) :
    Moves (rules F) ⟨{(place, p)} + m, q.phvs, q.count, log⟩
      ⟨m, (p.destroy q).phvs, (p.destroy q).count, log⟩ := by
  rw [Multiset.singleton_add]
  exact .single (.death m q.phvs q.count log (place, p))

/-- What the pool gives is taken from it. -/
theorem get_taken {q : PhvPool} (h : q.phvFactory = F) :
    Taken (rules F) q.phvs q.get.1 q.get.2.phvs := by
  obtain ⟨phvs, factory, count⟩ := q
  obtain rfl : factory = F := h
  cases phvs with
  | nil => exact .made
  | cons phv phvs => exact .pooled phv phvs

/-- What a step of a thread does. -/
structure Moved (s s' : SimpleSwitch) (es : List Event) : Prop where
  moves : ∀ log, Moves (rules s.pool.phvFactory) (books s log) (books s' (log ++ es))
  cxt : s'.cxt = s.cxt
  factory : s'.pool.phvFactory = s.pool.phvFactory
  pktId : s'.pktId = s.pktId

variable {s s' : SimpleSwitch} {p p' copy : Packet}

/-! ## The egress queues -/

theorem stamped_altered {egressPort : ℤ} {ts : ℕ} (h : s.stamped egressPort p ts = some p') :
    Altered F p p' ∧ p'.egressPort = egressPort ∧ p'.buffer = p.buffer := by
  unfold stamped at h
  split_ifs at h
  · obtain ⟨dst, -, h⟩ := Option.bind_eq_some_iff.mp h
    obtain ⟨phv₁, hset, h⟩ := Option.bind_eq_some_iff.mp h
    obtain ⟨qdepth, -, h⟩ := Option.bind_eq_some_iff.mp h
    obtain ⟨dst', -, h⟩ := Option.bind_eq_some_iff.mp h
    obtain ⟨phv₂, hset', h⟩ := Option.bind_eq_some_iff.mp h
    obtain rfl := Option.some.inj h
    exact ⟨⟨⟨rfl, rfl, rfl⟩, fun hp => setField_reaches (setField_reaches hp hset) hset'⟩, rfl, rfl⟩
  · obtain rfl := Option.some.inj h
    exact ⟨⟨⟨rfl, rfl, rfl⟩, id⟩, rfl, rfl⟩

/-- An element that is accepted is in the queues. -/
theorem queuedItems_enqueue {b : QueueingLogicRL Packet} {queueId now : ℕ} (hr : b.InRange queueId) :
    queuedItems (b.enqueue queueId p now) = {(.egress queueId, p)} + queuedItems b := by
  have hw : b.mapToWorker queueId ∈ Finset.range b.nbWorkers := Finset.mem_range.mpr hr.2
  unfold queuedItems
  simp only [QueueingLogicRL.enqueue]
  rw [← Finset.add_sum_erase _ _ hw, ← Finset.add_sum_erase (Finset.range b.nbWorkers) _ hw,
    Function.update_self, Heap.contents_push, Multiset.map_cons, ← Multiset.singleton_add, add_assoc]
  congr 2
  refine Finset.sum_congr rfl fun w hne => ?_
  rw [Function.update_of_ne (Finset.ne_of_mem_erase hne)]

/-- The front of a heap was in the queues. -/
theorem queuedItems_dequeue {b : QueueingLogicRL Packet} {worker queueId : ℕ} {qe : QE Packet}
    (hw : worker < b.nbWorkers) (hfront : (b.workersInfo worker).front? = some qe) :
    queuedItems b = {itemOf qe} + queuedItems (b.dequeue worker queueId) := by
  have hmem : worker ∈ Finset.range b.nbWorkers := Finset.mem_range.mpr hw
  unfold queuedItems
  rw [← Finset.add_sum_erase _ _ hmem]
  simp only [QueueingLogicRL.dequeue]
  rw [← Finset.add_sum_erase (Finset.range b.nbWorkers) _ hmem, Function.update_self,
    Heap.contents_eq_cons_pop QE.send hfront, Multiset.map_cons, ← Multiset.singleton_add, add_assoc]
  congr 2
  refine Finset.sum_congr rfl fun w hne => ?_
  rw [Function.update_of_ne (Finset.ne_of_mem_erase hne)]

/-- **What `enqueue` does.** The packet, with what is written into it, goes to the
queue of its port or is destroyed. -/
theorem enqueue_spec {egressPort : ℤ} {ts now : ℕ} {es : List Event}
    (h : s.enqueue egressPort p ts now = some (s', es)) :
    ∃ p' b q, s.stamped egressPort p ts = some p' ∧
      s' = { s with egressBuffers := b, pool := q } ∧
      b.nbWorkers = s.egressBuffers.nbWorkers ∧ q.phvFactory = s.pool.phvFactory ∧
      ∀ F m log, Moves (rules F)
        ⟨{(.egress (sizeOfInt p'.egressPort), p')} + (queuedItems s.egressBuffers + m),
          s.pool.phvs, s.pool.count, log⟩ ⟨queuedItems b + m, q.phvs, q.count, log ++ es⟩ := by
  obtain ⟨p', hstamped, h⟩ := Option.bind_eq_some_iff.mp h
  obtain ⟨⟨b, accepted⟩, hpush, h⟩ := Option.bind_eq_some_iff.mp h
  obtain ⟨rfl, rfl⟩ := Prod.mk.inj (Option.some.inj h)
  have hport : p'.egressPort = egressPort := (stamped_altered (F := s.pool.phvFactory) hstamped).2.1
  refine ⟨p', b, _, hstamped, rfl, ?_, ?_, fun F m log => ?_⟩
  · obtain ⟨-, ⟨-, rfl, -⟩ | ⟨rfl, -⟩⟩ := QueueingLogicRL.pushFront_cases hpush
    · rfl
    · rfl
  · split
    · rfl
    · rfl
  · obtain ⟨hr, ⟨-, rfl, rfl⟩ | ⟨rfl, rfl⟩⟩ := QueueingLogicRL.pushFront_cases hpush
    · have hturn : Turns F (.egress (sizeOfInt egressPort), p') (.egress (sizeOfInt egressPort), p')
          [.enqueued p'.packetId (sizeOfInt egressPort)] := .accepted
      rw [hport, queuedItems_enqueue hr, add_assoc]
      exact moves_turn hturn
    · simp only [Bool.false_eq_true, if_false, List.append_nil]
      exact moves_destroy _ p' s.pool

/-! ## The receiving thread -/

/-- All packets but that of the receiving thread. -/
def besideReceiver (s : SimpleSwitch) : Multiset Item :=
  queueItems .entering s.inputBuffer + s.ingress.items + queuedItems s.egressBuffers +
    egressItems s.egress + queueItems .output s.outputBuffer + transmitItems s.transmit

theorem items_receiver (s : SimpleSwitch) : s.items = s.receiver.items + s.besideReceiver := by
  unfold items besideReceiver
  abel

/-- A packet that was pushed is in the queue. -/
theorem queueItems_push {place : Place} {q q' : Queue Packet} (hwb : q.wb = .writeBlock)
    (h : q.pushFront p = some q') : queueItems place q' = {(place, p)} + queueItems place q := by
  obtain ⟨-, rfl⟩ := Queue.pushFront_eq_some hwb h
  unfold queueItems
  rw [← Multiset.cons_coe, Multiset.map_cons, ← Multiset.singleton_add]

/-- A packet that was popped was in the queue. -/
theorem queueItems_pop {place : Place} {q q' : Queue Packet} (h : q.popBack = some (p, q')) :
    queueItems place q = {(place, p)} + queueItems place q' := by
  unfold queueItems
  rw [(Queue.popBack_eq_some h).1, ← Multiset.coe_add, Multiset.map_add, Multiset.coe_singleton,
    Multiset.map_singleton, add_comm]

theorem received_spec {port : ℤ} {len ts : ℕ} (h : s.received p port len ts = some p') :
    SameOrigin p p' ∧ p'.buffer = p.buffer ∧ (F.Reaches p.phv → F.Reaches p'.phv) ∧
      (p.phv.Clear → p'.phv.Clear) := by
  obtain ⟨phv₁, h₁, h⟩ := Option.bind_eq_some_iff.mp h
  obtain ⟨phv₂, h₂, h⟩ := Option.bind_eq_some_iff.mp h
  obtain ⟨phv₃, h₃, h⟩ := Option.bind_eq_some_iff.mp h
  obtain ⟨phv₄, h₄, h⟩ := Option.bind_eq_some_iff.mp h
  obtain rfl := Option.some.inj h
  refine ⟨⟨rfl, rfl, rfl⟩, rfl, fun hp => ?_, fun hp => ?_⟩
  · exact setIfHas_reaches (setField_reaches (setField_reaches (setField_reaches
      hp.resetMetadata h₁) h₂) h₃) h₄
  · exact setIfHas_clear (setField_clear (setField_clear (setField_clear
      hp.resetMetadata h₁) h₂) h₃) h₄

/-- **A new packet** is one item more, which is logged. -/
theorem newPacket_birth {memory : Memory} {ts : ℕ} {es : List Event}
    (hfac : s.pool.phvFactory = F) (h : s.newPacket memory ts = some (s', es)) (log : List Event) :
    Birth (rules F) (books s log) (books s' (log ++ es)) ∧ s'.cxt = s.cxt ∧
      s'.pool.phvFactory = F ∧
      (∃ port data, s.receiver = .ready port data ∧ es = [.received (packetIdOf s.pktId) port data]) ∧
      s.ongoingSwap = none ∧ s'.ongoingSwap = none ∧ s'.pktId = s.pktId + 1 := by
  unfold newPacket at h
  split at h
  · next port data hrec hfree =>
    obtain ⟨buffer, hbuffer, h⟩ := Option.bind_eq_some_iff.mp h
    obtain ⟨p, hp, h⟩ := Option.bind_eq_some_iff.mp h
    obtain ⟨rfl, rfl⟩ := Prod.mk.inj (Option.some.inj h)
    obtain ⟨hsame, hbuf, hreaches, hclear⟩ := received_spec (F := F) hp
    have hdata : p.buffer.data = data := by
      rw [hbuf]
      have hb := toOption_eq_some hbuffer
      unfold PacketBuffer.create at hb
      split_ifs at hb
      obtain rfl := Except.ok.inj hb
      rfl
    refine ⟨?_, rfl, (PhvPool.get_phvFactory _).trans hfac, ⟨port, data, hrec, rfl⟩, hfree, hfree, rfl⟩
    have hitems : s.items = 0 + s.besideReceiver := by rw [items_receiver, hrec]; rfl
    have hborn : Born F s.pool.get.1 (.entering, p)
        (.received p.packetId p.ingressPort p.buffer.data) :=
      .mk (hsame.ingressLength.trans (by rw [hdata]; rfl)) hreaches hclear
    rw [hsame.packetId, hsame.ingressPort, hdata] at hborn
    unfold books
    rw [hitems, zero_add, items_receiver]
    have hcount : (Packet.create memory s.pool port (packetIdOf s.pktId)
        (Int32.ofNat data.length) buffer).2.count = s.pool.count + 1 := PhvPool.get_count _
    dsimp only at hcount ⊢
    rw [hcount]
    exact .mk (get_taken hfac) hborn
  · cases h

/-- The packet goes to the input buffer. -/
theorem pushInput_moved (hwb : s.inputBuffer.wb = .writeBlock) (h : s.pushInput = some s') :
    Moved s s' [] ∧ s'.receiver = .idle := by
  unfold pushInput at h
  split at h
  · next p hrec =>
    obtain ⟨inputBuffer, hpush, h⟩ := Option.bind_eq_some_iff.mp h
    obtain rfl := Option.some.inj h
    refine ⟨⟨fun log => ?_, rfl, rfl, rfl⟩, rfl⟩
    rw [List.append_nil]
    refine moves_congr .refl rfl ?_
    unfold items
    rw [queueItems_push hwb hpush, hrec]
    simp only [Receiver.items]
    abel
  · cases h

/-! ## The ingress thread -/

/-- All packets but those of the ingress thread and of the egress queues. -/
def besideIngress (s : SimpleSwitch) : Multiset Item :=
  s.receiver.items + queueItems .entering s.inputBuffer + egressItems s.egress +
    queueItems .output s.outputBuffer + transmitItems s.transmit

theorem items_ingress (s : SimpleSwitch) :
    s.items = s.ingress.items + (queuedItems s.egressBuffers + s.besideIngress) := by
  unfold items besideIngress
  abel

/-- **A copy for the ingress thread**: its header vector comes from the pool, and
its bytes are those of the original. -/
theorem copyIngressPkt_spec {copyType : PktInstanceType} {fieldListId : ℤ} {memory : Memory}
    {copied : Packet × PhvPool} (h : s.copyIngressPkt p copyType fieldListId memory = some copied) :
    SameOrigin p copied.1 ∧ copied.1.buffer.data = p.buffer.data ∧ copied.2 = s.pool.get.2 ∧
      (F.Reaches s.pool.get.1 → F.Reaches copied.1.phv) ∧
      (s.pool.get.1.Clear → copied.1.phv.Clear) := by
  obtain ⟨phv, hcarry, h⟩ := Option.bind_eq_some_iff.mp h
  obtain rfl := Option.some.inj h
  exact ⟨⟨rfl, rfl, rfl⟩, rfl, rfl, fun hp => carry_reaches hp.resetMetadata hcarry,
    fun hp => carry_clear hp.resetMetadata hcarry⟩

/-- A packet is changed, copied, and the copy enqueued or destroyed. -/
theorem moves_clone {q q' : PhvPool} {x x' y : Item} {b b' : QueueingLogicRL Packet}
    {es : List Event} {rest items items' : Multiset Item} (hfac : s.pool.phvFactory = F) (hq : q = s.pool.get.2)
    (hturn : Turns F x x' []) (hcopied : Copied F s.pool.get.1 x' y [])
    (hmoves : ∀ F m log, Moves (rules F) ⟨{y} + (queuedItems b + m), q.phvs, q.count, log⟩
      ⟨queuedItems b' + m, q'.phvs, q'.count, log ++ es⟩)
    (hitems : items = {x} + (queuedItems b + rest))
    (hitems' : items' = {x'} + (queuedItems b' + rest)) :
    Moves (rules F) ⟨items, s.pool.phvs, s.pool.count, log⟩
      ⟨items', q'.phvs, q'.count, log ++ es⟩ := by
  subst hq
  have hgo : Moves (rules F) ⟨{x} + (queuedItems b + rest), s.pool.phvs, s.pool.count, log⟩
      ⟨{x'} + (queuedItems b + rest), s.pool.phvs, s.pool.count, log⟩ := moves_go hturn
  have hcopy : Moves (rules F) ⟨{x'} + (queuedItems b + rest), s.pool.phvs, s.pool.count, log⟩
      ⟨{y} + ({x'} + (queuedItems b + rest)), s.pool.get.2.phvs, s.pool.count + 1, log ++ []⟩ :=
    moves_copy (get_taken hfac) hcopied
  have hput := hmoves F ({x'} + rest) log
  rw [List.append_nil] at hcopy
  rw [PhvPool.get_count] at hput
  refine (moves_congr hgo hitems rfl).trans (hcopy.trans (moves_congr hput ?_ ?_))
  · abel
  · rw [hitems']
    abel

/-- A packet is copied, and changed after that. -/
theorem moves_replace {q : PhvPool} {x x' y : Item} {es : List Event}
    {rest items items' : Multiset Item} (hfac : s.pool.phvFactory = F) (hq : q = s.pool.get.2)
    (hcopied : Copied F s.pool.get.1 x y es) (hturn : Turns F x x' [])
    (hitems : items = {x} + rest) (hitems' : items' = {x'} + ({y} + rest)) :
    Moves (rules F) ⟨items, s.pool.phvs, s.pool.count, log⟩
      ⟨items', q.phvs, q.count, log ++ es⟩ := by
  subst hq
  have hcopy : Moves (rules F) ⟨{x} + rest, s.pool.phvs, s.pool.count, log⟩
      ⟨{y} + ({x} + rest), s.pool.get.2.phvs, s.pool.get.2.count, log ++ es⟩ := by
    rw [PhvPool.get_count]
    exact moves_copy (get_taken hfac) hcopied
  exact (moves_congr hcopy hitems rfl).trans (moves_congr (moves_go hturn) (by abel) hitems')

theorem cloneWithPhv_spec {memory : Memory} {q : PhvPool} {copied : Packet × PhvPool}
    (h : p.cloneWithPhv memory q = .ok copied) :
    SameOrigin p copied.1 ∧ copied.2 = q.get.2 ∧
      (F.Reaches q.get.1 → F.Reaches p.phv → F.Reaches copied.1.phv) := by
  obtain ⟨phv, hcopy, h⟩ := bind_eq_ok h
  obtain rfl := Except.ok.inj h
  exact ⟨⟨rfl, rfl, rfl⟩, rfl, fun hv hp => .copyHeaders hv hp hcopy⟩

/-- Where the packet of the ingress thread is among all packets. -/
theorem items_of_ingress {item : Item} (hing : s.ingress.items = {item}) :
    s.items = {item} + (queuedItems s.egressBuffers + s.besideIngress) := by
  rw [items_ingress, hing]

theorem ingressClone_moved {n ts now : ℕ} {registers : Registers} {memory : Memory}
    {es : List Event} (hfac : s.pool.phvFactory = s.program.factory)
    (h : IngressStep s (.ingressClone n registers memory ts now) s' es) : Moved s s' es := by
  cases h with
  | noClone hing =>
    refine ⟨fun log => ?_, rfl, rfl, rfl⟩
    rw [List.append_nil]
    exact moves_congr .refl (items_of_ingress (congrArg _ hing)) (items_ingress _)
  | noMirror hing hset =>
    refine ⟨fun log => ?_, rfl, rfl, rfl⟩
    rw [List.append_nil, hfac]
    exact moves_congr (moves_go (.inIngress (.setField hset) rfl))
      (items_of_ingress (congrArg _ hing)) (items_ingress _)
  | @clone _ _ _ _ _ p _ packetIn _ phv _ _ _ _ _ hing hset hcopy hparse henqueue =>
    have halt : Altered s.program.factory p (p.withPhv phv) := .setField hset
    obtain ⟨hsame, -, hpool, hreaches, -⟩ := copyIngressPkt_spec (F := s.program.factory) hcopy
    obtain ⟨hparsed, -, -⟩ := parse_altered hparse
    obtain ⟨copy', b, q, hstamped, rfl, -, hq, hmoves⟩ := enqueue_spec henqueue
    obtain ⟨hstamp, -, -⟩ := stamped_altered (F := s.program.factory) hstamped
    refine ⟨fun log => ?_, rfl, ?_, rfl⟩
    · rw [hfac]
      have hcopied : Copied s.program.factory s.pool.get.1 (.ingress packetIn, p.withPhv phv)
          (.egress (sizeOfInt copy'.egressPort), copy') [] := by
        refine .enqueued ?_ fun hv _ => hstamp.reaches (hparsed.reaches (hreaches hv))
        have hpre : SameOrigin (p.withPhv phv) _ :=
          ⟨hsame.packetId, hsame.ingressPort, hsame.ingressLength⟩
        exact (hpre.trans hparsed.origin).trans hstamp.origin
      exact moves_clone hfac hpool (.inIngress halt rfl) hcopied hmoves
        (items_of_ingress (congrArg _ hing)) (items_ingress _)
    · rw [hq, hpool, PhvPool.get_phvFactory]

/-- The packet is resubmitted, replicated, dropped or enqueued. -/
theorem ingressFinish_moved {memory : Memory} {ts now : ℕ} {es : List Event}
    (hfac : s.pool.phvFactory = s.program.factory)
    (h : IngressStep s (.ingressFinish memory ts now) s' es) : Moved s s' es := by
  cases h with
  | @resubmit _ _ _ p packetIn _ _ _ phv copied hing _ hset hcopy =>
    -- The copy starts with the bytes that were put back.
    obtain ⟨hsame, hdata, hpool, hreaches, hclear⟩ :=
      copyIngressPkt_spec (F := s.program.factory) hcopy
    have halt : Altered s.program.factory p ((p.restoreBufferState packetIn).withPhv phv) :=
      ⟨⟨rfl, rfl, rfl⟩, fun hp => setField_reaches hp hset⟩
    have hcopied : Copied s.program.factory s.pool.get.1 (.ingress packetIn, p)
        (.entering, copied.1) [] :=
      .resubmit ⟨hsame.packetId, hsame.ingressPort, hsame.ingressLength⟩
        (fun hv _ => hreaches hv) hclear hdata
    refine ⟨fun log => ?_, rfl, ?_, rfl⟩
    · rw [hfac]
      refine moves_replace hfac hpool hcopied (.spent halt)
        (items_of_ingress (congrArg _ hing)) ?_
      rw [items_ingress]
      simp only [Ingress.items]
      unfold besideIngress
      abel
    · rw [hpool, PhvPool.get_phvFactory]
  | @replicate _ _ _ p _ _ _ _ hing =>
    -- The original of the replicas is only copied from now on.
    refine ⟨fun log => ?_, rfl, rfl, rfl⟩
    rw [List.append_nil]
    exact moves_congr (moves_go (.spent (.refl _ p))) (items_of_ingress (congrArg _ hing))
      (items_ingress _)
  | @drop _ _ _ p packetIn _ hing =>
    refine ⟨fun log => ?_, rfl, rfl, rfl⟩
    rw [List.append_nil]
    refine moves_congr (moves_destroy (.ingress packetIn) p s.pool)
      (items_of_ingress (congrArg _ hing)) ?_
    rw [items_ingress]
    exact zero_add _
  | forward hing henqueue =>
    obtain ⟨p', b, q, hstamped, rfl, -, hq, hmoves⟩ := enqueue_spec henqueue
    refine ⟨fun log => ?_, rfl, hq, rfl⟩
    have halt := (stamped_altered (F := s.pool.phvFactory) hstamped).1
    refine (moves_congr (moves_go (.enqueued halt)) (items_of_ingress (congrArg _ hing)) rfl).trans
      (moves_congr (hmoves _ _ _) rfl ?_)
    rw [items_ingress]
    exact zero_add _

/-- One replica, or the end of the original. -/
theorem multicast_moved {memory : Memory} {ts now : ℕ} {es : List Event}
    (hfac : s.pool.phvFactory = s.program.factory)
    (h : IngressStep s (.multicast memory ts now) s' es) : Moved s s' es := by
  cases h with
  | @lastReplica _ _ _ p _ phv hing hset =>
    refine ⟨fun log => ?_, rfl, rfl, rfl⟩
    rw [List.append_nil]
    refine (moves_congr (moves_go (.spent (.setField hset)))
      (items_of_ingress (congrArg _ hing)) rfl).trans
      (moves_congr (moves_destroy .spent (p.withPhv phv) s.pool) rfl ?_)
    rw [items_ingress]
    exact zero_add _
  | @replica _ _ _ p _ _ _ _ _ phv₂ _ _ _ hing hset₁ hset₂ hcopy henqueue =>
    obtain ⟨hsame, hpool, hreaches⟩ := cloneWithPhv_spec (F := s.program.factory) hcopy
    obtain ⟨copy', b, q, hstamped, rfl, -, hq, hmoves⟩ := enqueue_spec henqueue
    obtain ⟨hstamp, -, -⟩ := stamped_altered (F := s.program.factory) hstamped
    have halt : Altered s.program.factory p (p.withPhv phv₂) :=
      ⟨⟨rfl, rfl, rfl⟩, fun hp => setField_reaches (setField_reaches hp hset₁) hset₂⟩
    refine ⟨fun log => ?_, rfl, ?_, rfl⟩
    · rw [hfac]
      have hcopied : Copied s.program.factory s.pool.get.1 (.spent, p.withPhv phv₂)
          (.egress (sizeOfInt copy'.egressPort), copy') [] := by
        refine .enqueued ?_ fun hv hp => hstamp.reaches (hreaches hv hp)
        exact ⟨hstamp.origin.packetId.trans hsame.packetId,
          hstamp.origin.ingressPort.trans hsame.ingressPort,
          hstamp.origin.ingressLength.trans hsame.ingressLength⟩
      exact moves_clone hfac hpool (.spent halt) hcopied hmoves
        (items_of_ingress (congrArg _ hing)) (items_ingress _)
    · rw [hq, hpool, PhvPool.get_phvFactory]

/-- The packet comes from the input buffer. -/
theorem popInput_moved {es : List Event} (h : IngressStep s .popInput s' es) : Moved s s' es := by
  cases h with
  | pop hing hpop =>
    refine ⟨fun log => ?_, rfl, rfl, rfl⟩
    rw [List.append_nil]
    refine moves_congr .refl rfl ?_
    unfold items
    rw [queueItems_pop hpop, hing]
    simp only [Ingress.items]
    abel

/-- **The ingress thread** moves its packet and the copies that it makes. -/
theorem IngressStep.moved {l : Label} {es : List Event}
    (hfac : l ≠ .popInput → s.pool.phvFactory = s.program.factory)
    (hwb : s.inputBuffer.wb = .writeBlock) (h : IngressStep s l s' es) : Moved s s' es := by
  cases l with
  | popInput => exact popInput_moved h
  | ingressApply n registers ops =>
    cases h with
    | apply hing hparse hops =>
      obtain ⟨halt, hbuffer, -⟩ := parse_altered hparse
      obtain ⟨halt', hbuffer', -⟩ := applyAll_altered (F := s.program.factory) hops
      refine ⟨fun log => ?_, rfl, rfl, rfl⟩
      rw [List.append_nil, hfac nofun]
      refine moves_congr (moves_go (.parsed (halt.trans halt') ?_))
        (items_of_ingress (congrArg _ hing)) (items_ingress _)
      rw [hbuffer', hbuffer]
  | ingressClone => exact ingressClone_moved (hfac nofun) h
  | ingressFinish => exact ingressFinish_moved (hfac nofun) h
  | multicast => exact multicast_moved (hfac nofun) h
  | pushResubmit =>
    cases h with
    | @push p copy q hing hpush =>
      -- The copy goes to the input buffer, and the original is destroyed.
      refine ⟨fun log => ?_, rfl, rfl, rfl⟩
      rw [List.append_nil]
      refine moves_congr (moves_destroy .spent p s.pool) ?_ rfl
      unfold items
      rw [queueItems_push hwb hpush, hing]
      simp only [Ingress.items]
      abel
  | _ => cases h

end SimpleSwitch

end P4Bricks
