import P4Bricks.SimpleSwitch.Helpers.Frame
/-!
# The header vectors of the switch

`phvs_in_use` is what `do_swap` waits for, and the factory of the pool is set with
the assertion that it is zero. It is the number of packets in the switch, in all
buffers and with all threads, in every state of every run: so no packet is there
when the objects are swapped, and none sees two programs. Every header vector, in
use or pooled, is one of the program's, and the parser never starts with one that
is not clear.
-/

namespace P4Bricks

open Parsing Queueing Custody

namespace SimpleSwitch

/-- `do_swap` has seen that no header vector is in use, and the factory of the
pool is not set yet. -/
def Swapping (s : SimpleSwitch) : Prop :=
  match s.ongoingSwap with
  | some (_, .drained) | some (_, .swapped) => True
  | _ => False

/-- The objects are swapped, and the factory of the pool is not. -/
def Swapped (s : SimpleSwitch) : Prop :=
  match s.ongoingSwap with
  | some (_, .swapped) => True
  | _ => False

theorem Swapped.swapping {s : SimpleSwitch} (h : s.Swapped) : s.Swapping := by
  unfold Swapped at h
  unfold Swapping
  split at h
  · next hswap =>
    rw [hswap]
    trivial
  · exact h.elim

/-- **The invariant of the switch.** -/
structure Inv (s : SimpleSwitch) (log : List Event) : Prop where
  inputBlocks : s.inputBuffer.wb = .writeBlock
  outputBlocks : s.outputBuffer.wb = .writeBlock
  wellFormed : s.pool.phvFactory.WellFormed
  factory : ¬s.Swapped → s.pool.phvFactory = s.program.factory
  swapping : s.Swapping → s.pool.count = 0
  balanced : (books s log).Balanced
  all : (books s log).All (Good s.pool.phvFactory) (Pooled s.pool.phvFactory) LogTraced

variable {s s' : SimpleSwitch} {log es : List Event} {l : Label} {t : Thread}

theorem inv_create (maxPort : ℕ) (enableSwap : Bool) (objects : Program) (pktDelay : ℕ → ℕ)
    (now : ℕ) : Inv (create maxPort enableSwap objects pktDelay now) [] := by
  have hqueued : queuedItems (create maxPort enableSwap objects pktDelay now).egressBuffers = 0 :=
    Finset.sum_eq_zero fun _ _ => rfl
  have hegress : egressItems (create maxPort enableSwap objects pktDelay now).egress = 0 :=
    Finset.sum_eq_zero fun _ _ => rfl
  have hitems : (create maxPort enableSwap objects pktDelay now).items = 0 := by
    unfold items
    rw [hqueued, hegress]
    rfl
  refine ⟨rfl, rfl, objects.wellFormed, fun _ => rfl, fun h => h.elim, ?_,
    ⟨fun x hx => ?_, fun phv hphv => absurd hphv List.not_mem_nil, .nil⟩⟩
  · unfold Books.Balanced books
    rw [hitems]
    rfl
  · rw [show (books _ _).items = 0 from hitems] at hx
    exact absurd hx (Multiset.notMem_zero x)

/-! ## Nothing happens without a packet -/

/-- Without packets the threads that process them wait. -/
theorem idle_of_items (h : s.items = 0) :
    s.ingress.items = 0 ∧ ∀ worker, (s.egress worker).items = 0 := by
  refine ⟨?_, fun worker => ?_⟩
  · rw [items_ingress] at h
    exact (add_eq_zero.mp h).1
  · rw [items_egress s worker] at h
    exact (add_eq_zero.mp h).1

namespace Inv

variable (hi : Inv s log)
include hi

/-- While the objects are swapped there is no packet. -/
theorem items_of_swapping (hswap : s.Swapping) : s.items = 0 := by
  have hbalanced : s.pool.count = Multiset.card s.items := hi.balanced
  rw [hi.swapping hswap] at hbalanced
  exact Multiset.card_eq_zero.mp (by omega)

/-- A thread with a packet works for the program whose header vectors the pool
has. -/
theorem factory_of_items (hitems : s.items ≠ 0) : s.pool.phvFactory = s.program.factory :=
  hi.factory fun hswapped => hitems (hi.items_of_swapping hswapped.swapping)

theorem factory_of_ingress (h : s.ingress.items ≠ 0) :
    s.pool.phvFactory = s.program.factory :=
  hi.factory_of_items fun hitems => h (idle_of_items hitems).1

theorem factory_of_egress {worker : Fin nbEgressThreads} (h : (s.egress worker).items ≠ 0) :
    s.pool.phvFactory = s.program.factory :=
  hi.factory_of_items fun hitems => h ((idle_of_items hitems).2 worker)

/-- **A step of a thread** keeps the invariant. -/
theorem moved (hm : Moved s s' es) (hf : Frame t s s') (ht : t ≠ .swapper) :
    Inv s' (log ++ es) := by
  have hprogram : s'.program = s.program := congrArg Switch.Context.p4objects hm.cxt
  have hmoves := hm.moves log
  have hongoing := hf.ongoingSwap ht
  refine ⟨(hf.input.eq hi.inputBlocks).2.trans hi.inputBlocks,
    (hf.output.eq hi.outputBlocks).2.trans hi.outputBlocks, ?_, fun h => ?_, fun h => ?_,
    hi.balanced.moves hmoves, ?_⟩
  · rw [hm.factory]
    exact hi.wellFormed
  · unfold Swapped at h
    rw [hongoing] at h
    rw [hm.factory, hprogram]
    exact hi.factory h
  · -- Nothing moves where there is nothing.
    unfold Swapping at h
    rw [hongoing] at h
    have hsame := hmoves.eq_of_empty (hi.items_of_swapping h)
    have hcount : s'.pool.count = s.pool.count := congrArg Books.count hsame
    rw [hcount, hi.swapping h]
  · rw [hm.factory]
    exact hi.all.moves (rules_keep hi.wellFormed) hmoves

/-- **A step without a packet**, which does not change what headers the program
has. -/
theorem quiet (hitems : s'.items = s.items) (hpool : s'.pool = s.pool)
    (hfactory : s'.program.factory = s.program.factory)
    (hswapped : s'.Swapped ↔ s.Swapped) (hswapping : s'.Swapping → s.pool.count = 0)
    (hinput : s'.inputBuffer.wb = s.inputBuffer.wb)
    (houtput : s'.outputBuffer.wb = s.outputBuffer.wb) : Inv s' log := by
  have hbooks : books s' log = books s log := by
    unfold books
    rw [hitems, hpool]
  refine ⟨hinput.trans hi.inputBlocks, houtput.trans hi.outputBlocks, ?_, fun h => ?_,
    fun h => ?_, ?_, ?_⟩
  · rw [hpool]
    exact hi.wellFormed
  · rw [hpool, hfactory]
    exact hi.factory fun hs => h (hswapped.mpr hs)
  · rw [hpool]
    exact hswapping h
  · rw [hbooks]
    exact hi.balanced
  · rw [hbooks, hpool]
    exact hi.all

/-- A step that changes neither packets nor the swap. -/
theorem control (hitems : s'.items = s.items) (hpool : s'.pool = s.pool)
    (hfactory : s'.program.factory = s.program.factory) (hswap : s'.ongoingSwap = s.ongoingSwap)
    (hinput : s'.inputBuffer.wb = s.inputBuffer.wb)
    (houtput : s'.outputBuffer.wb = s.outputBuffer.wb) : Inv s' log := by
  refine hi.quiet hitems hpool hfactory ?_ (fun h => hi.swapping ?_) hinput houtput
  · unfold Swapped
    rw [hswap]
  · unfold Swapping at h ⊢
    rwa [hswap] at h

end Inv

/-! ## The receiving thread -/

/-- The receiving thread has the packets that it had. -/
theorem items_of_receiver {receiver : Receiver} (h : receiver.items = s.receiver.items) :
    ({ s with receiver := receiver } : SimpleSwitch).items = s.items := by
  rw [items_receiver, items_receiver s]
  change receiver.items + _ = _
  rw [h]
  rfl

theorem Inv.newPacket (hi : Inv s log) {memory : Memory} {ts : ℕ}
    (h : s.newPacket memory ts = some (s', es)) : Inv s' (log ++ es) := by
  obtain ⟨hbirth, hcxt, hfac, -, hfree, hfree', -⟩ := newPacket_birth rfl h log
  have hprogram : s'.program = s.program := congrArg Switch.Context.p4objects hcxt
  have hf := newPacket_frame h
  refine ⟨(hf.input.eq hi.inputBlocks).2.trans hi.inputBlocks,
    (hf.output.eq hi.outputBlocks).2.trans hi.outputBlocks, ?_, fun _ => ?_, fun h => ?_,
    hi.balanced.birth hbirth, ?_⟩
  · rw [hfac]
    exact hi.wellFormed
  · rw [hfac, hprogram]
    refine hi.factory fun hs => ?_
    unfold Swapped at hs
    rwa [hfree] at hs
  · unfold Swapping at h
    rw [hfree'] at h
    exact h.elim
  · rw [hfac]
    exact hi.all.birth (rules_keep hi.wellFormed) hbirth

/-- **A step of the receiving thread** keeps the invariant. -/
theorem Inv.receiver (hi : Inv s log) (h : s.step l = some (s', es)) (ht : l.thread = .receiver) :
    Inv s' (log ++ es) := by
  by_cases hnew : ∃ memory ts, l = .newPacket memory ts
  · obtain ⟨memory, ts, rfl⟩ := hnew
    exact hi.newPacket h
  by_cases hpush : l = .pushInput
  · obtain ⟨hs, rfl⟩ := quiet_eq_some (hpush ▸ h)
    exact hi.moved (pushInput_moved hi.inputBlocks hs).1 (pushInput_frame hs) nofun
  obtain ⟨rfl, receiver, w, rfl, hitems, hitems'⟩ := receiver_step h ht
    (fun memory ts heq => hnew ⟨memory, ts, heq⟩) hpush
  rw [List.append_nil]
  exact hi.control (items_of_receiver (hitems'.trans hitems.symm)) rfl rfl rfl rfl rfl

/-! ## The swap -/

theorem Inv.lockSwap (hi : Inv s log) {swapper : Swapper} (h : s.lockSwap swapper = some s') :
    Inv s' log := by
  unfold SimpleSwitch.lockSwap at h
  split at h
  · next port data hfree hrec =>
    have hnot : ¬s.Swapped := by
      unfold Swapped
      rw [hfree]
      exact id
    obtain rfl := Option.some.inj h
    split_ifs
    · exact hi.quiet rfl rfl rfl ⟨False.elim, hnot⟩ False.elim rfl rfl
    · exact hi.control (items_of_receiver (by rw [hrec]; rfl)) rfl rfl rfl rfl rfl
  · next hfree =>
    have hnot : ¬s.Swapped := by
      unfold Swapped
      rw [hfree]
      exact id
    split_ifs at h
    obtain rfl := Option.some.inj h
    exact hi.quiet rfl rfl rfl ⟨False.elim, hnot⟩ False.elim rfl rfl
  · cases h

theorem Inv.drain (hi : Inv s log) (h : s.drain = some s') : Inv s' log := by
  unfold SimpleSwitch.drain at h
  split at h
  · next swapper hswap =>
    have hnot : ¬s.Swapped := by
      unfold Swapped
      rw [hswap]
      exact id
    split_ifs at h with hzero
    obtain rfl := Option.some.inj h
    exact hi.quiet rfl rfl rfl ⟨False.elim, hnot⟩ (fun _ => hzero) rfl rfl
  · cases h

/-- The program changes where there is no packet. -/
theorem Inv.swapObjects (hi : Inv s log) (h : s.swapObjects = some s') : Inv s' log := by
  unfold SimpleSwitch.swapObjects at h
  split at h
  · next swapper hswap =>
    have hswapping : s.Swapping := by
      unfold Swapping
      rw [hswap]
      trivial
    obtain rfl := Option.some.inj h
    exact ⟨hi.inputBlocks, hi.outputBlocks, hi.wellFormed, fun h => (h trivial).elim,
      fun _ => hi.swapping hswapping, hi.balanced, hi.all⟩
  · cases h

/-- The factory of the pool is set where the pool is all that there is. -/
theorem Inv.setFactory (hi : Inv s log) (h : s.setFactory = some s') : Inv s' log := by
  unfold SimpleSwitch.setFactory at h
  split at h
  · next swapper hswap =>
    have hnone : s.items = 0 := hi.items_of_swapping (by
      unfold Swapping
      rw [hswap]
      trivial)
    obtain ⟨pool, hpool, h⟩ := Option.bind_eq_some_iff.mp h
    obtain rfl := Option.some.inj h
    unfold PhvPool.setPhvFactory at hpool
    split_ifs at hpool with hzero
    obtain rfl := Option.some.inj hpool
    have hreceiver : (if swapper = .receiver then s.receiver.afterSwap else s.receiver).items =
        s.receiver.items := by
      split_ifs
      · exact s.receiver.afterSwap_items
      · rfl
    have hitems := (items_of_receiver hreceiver).trans hnone
    have hempty : (books { s with
        pool := ⟨[], s.program.factory, s.pool.count⟩
        ongoingSwap := none
        receiver := if swapper = .receiver then s.receiver.afterSwap else s.receiver } log).items = 0 :=
      hitems
    refine ⟨hi.inputBlocks, hi.outputBlocks, s.program.wellFormed, fun _ => rfl, fun h => h.elim,
      ?_, ⟨fun x hx => ?_, fun phv hphv => absurd hphv List.not_mem_nil, hi.all.log⟩⟩
    · unfold Books.Balanced
      rw [hempty]
      exact hzero
    · rw [hempty] at hx
      exact absurd hx (Multiset.notMem_zero x)
  · cases h

/-- **A step of the thread that swaps** keeps the invariant. -/
theorem Inv.swapper (hi : Inv s log) (h : s.step l = some (s', es)) (ht : l.thread = .swapper) :
    Inv s' (log ++ es) := by
  cases l with
  | lockSwap swapper =>
    obtain ⟨hs, rfl⟩ := quiet_eq_some h
    rw [List.append_nil]
    exact hi.lockSwap hs
  | drain =>
    obtain ⟨hs, rfl⟩ := quiet_eq_some h
    rw [List.append_nil]
    exact hi.drain hs
  | swapObjects =>
    obtain ⟨hs, rfl⟩ := quiet_eq_some h
    rw [List.append_nil]
    exact hi.swapObjects hs
  | setFactory =>
    obtain ⟨hs, rfl⟩ := quiet_eq_some h
    rw [List.append_nil]
    exact hi.setFactory hs
  | _ => cases ht

/-! ## The other threads -/

theorem Ingress.eq_idle {i : Ingress} (h : i.items = 0) : i = .idle := by
  cases i with
  | idle => rfl
  | resubmitting p copy => exact absurd (add_eq_zero.mp h).1 (Multiset.singleton_ne_zero _)
  | _ => exact absurd h (Multiset.singleton_ne_zero _)

theorem Egress.eq_idle {e : Egress} (h : e.items = 0) : e = .idle := by
  cases e with
  | idle => rfl
  | recirculating port p copy => exact absurd (add_eq_zero.mp h).1 (Multiset.singleton_ne_zero _)
  | _ => exact absurd h (Multiset.singleton_ne_zero _)

/-- The ingress thread has a packet where it does anything but pop one. -/
theorem IngressStep.busy (h : IngressStep s l s' es) (hl : l ≠ .popInput) : s.ingress.items ≠ 0 := by
  intro hnone
  have hidle := Ingress.eq_idle hnone
  cases h with
  | pop => exact hl rfl
  | _ => simp_all only [reduceCtorEq]

/-- An egress thread has a packet where it does anything but pop one. -/
theorem EgressStep.busy {worker : Fin nbEgressThreads} (h : EgressStep s worker l s' es)
    (hl : ∀ now, l ≠ .popEgress worker now) : (s.egress worker).items ≠ 0 := by
  intro hnone
  have hidle := Egress.eq_idle hnone
  cases h with
  | pop => exact hl _ rfl
  | _ => simp_all only [reduceCtorEq]

/-- What a step of the threads that process packets moves. -/
theorem Inv.step_moved (hi : Inv s log) (h : s.step l = some (s', es))
    (ht : l.thread ≠ .receiver) (hswap : l.thread ≠ .swapper) (hc : l.thread ≠ .controlPlane) :
    Moved s s' es := by
  cases hl : l.thread with
  | ingress =>
    have hstep := ingress_step h hl
    exact hstep.moved (fun hpop => hi.factory_of_ingress (hstep.busy hpop)) hi.inputBlocks
  | egress worker =>
    have hstep := egress_step h hl
    exact hstep.moved (fun hpop => hi.factory_of_egress (hstep.busy hpop)) hi.inputBlocks
      hi.outputBlocks
  | transmit =>
    cases l with
    | popOutput =>
      obtain ⟨hs, rfl⟩ := quiet_eq_some h
      exact (popOutput_moved hs).1
    | transmit => exact (transmitPacket_moved h).1
    | _ => cases hl
  | receiver => exact absurd hl ht
  | swapper => exact absurd hl hswap
  | controlPlane => exact absurd hl hc

/-! ## Every step -/

/-- A request of the control plane. -/
theorem Inv.controlPlane (hi : Inv s log) (h : s.step l = some (s', es))
    (hc : l.thread = .controlPlane) : Inv s' (log ++ es) := by
  obtain ⟨rfl, cxt, orders, queuesInfo, mirroringMap, pre, rfl, hreq⟩ := controlPlane_step h hc
  rw [List.append_nil]
  exact hi.control rfl rfl hreq.factory rfl rfl rfl

/-- **Every step of every thread keeps the invariant.** -/
theorem Inv.step (hi : Inv s log) (h : s.step l = some (s', es)) : Inv s' (log ++ es) := by
  by_cases hc : l.thread = .controlPlane
  · exact hi.controlPlane h hc
  by_cases ht : l.thread = .receiver
  · exact hi.receiver h ht
  by_cases hswap : l.thread = .swapper
  · exact hi.swapper h hswap
  exact hi.moved (hi.step_moved h ht hswap hc) (step_frame h) hswap

/-- Of a run all of whose steps are allowed: the invariant holds in the end, and so
does what allowed steps keep where it holds. -/
theorem Inv.run_of (ok : SimpleSwitch → Label → Prop) (P : SimpleSwitch → List Event → Prop)
    (hi : Inv s log) (h₀ : P s log)
    (hstep : ∀ s log l s' es, Inv s log → P s log → ok s l → s.step l = some (s', es) →
      P s' (log ++ es)) {labels : List Label} {log' : List Event}
    (hok : Runs.Always stepLog (fun r l => ok r.1 l) (s, log) labels)
    (h : Runs.run stepLog (s, log) labels = some (s', log')) : Inv s' log' ∧ P s' log' := by
  have hkeep : ∀ (r : SimpleSwitch × List Event) (l : Label) (r' : SimpleSwitch × List Event),
      Inv r.1 r.2 ∧ P r.1 r.2 → ok r.1 l → stepLog r l = some r' → Inv r'.1 r'.2 ∧ P r'.1 r'.2 := by
    rintro ⟨s₁, log₁⟩ l ⟨s₂, log₂⟩ ⟨hi, hp⟩ hl hs₂
    obtain ⟨⟨s₃, es⟩, hs₃, heq⟩ := Option.map_eq_some_iff.mp hs₂
    obtain ⟨rfl, rfl⟩ := Prod.mk.inj heq
    exact ⟨hi.step hs₃, hstep s₁ log₁ l s₃ es hi hp hl hs₃⟩
  exact @Runs.Always.invariant _ _ stepLog _ _ labels (fun r l => ok r.1 l)
    (fun r => Inv r.1 r.2 ∧ P r.1 r.2) hkeep ⟨hi, h₀⟩ hok h

/-- **Every run keeps the invariant**, and what every step keeps where it holds. -/
theorem Inv.run_keeps (P : SimpleSwitch → List Event → Prop) (hi : Inv s log) (h₀ : P s log)
    (hstep : ∀ s log l s' es, Inv s log → P s log → s.step l = some (s', es) → P s' (log ++ es))
    {labels : List Label} {log' : List Event}
    (h : Runs.run stepLog (s, log) labels = some (s', log')) : Inv s' log' ∧ P s' log' :=
  hi.run_of (fun _ _ => True) P h₀ (fun s log l s' es hi hp _ => hstep s log l s' es hi hp)
    (.of_forall (fun _ _ => trivial) _ _) h

theorem Inv.run {labels : List Label} {log' : List Event} (hi : Inv s log)
    (h : Runs.run stepLog (s, log) labels = some (s', log')) : Inv s' log' :=
  (hi.run_keeps (fun _ _ => True) trivial (fun _ _ _ _ _ _ _ _ => trivial) h).1

/-! ## A program without a parser

Its pipelines set where packets go. -/

/-- One header of metadata, of ten fields. -/
def wireFactory : PhvFactory where
  headerDescs := [⟨⟨0, List.replicate 10 { bitwidth := 32 }, by decide, by decide, by decide, by decide⟩,
    List.range 10, true⟩]
  headerStackDescs := []
  headerUnionDescs := []
  headerUnionStackDescs := []

def wire : Program where
  factory := wireFactory
  fields :=
    { ingressPort := (0, 0), packetLength := (0, 1), instanceType := (0, 2), egressSpec := (0, 3),
      cloneSpec := (0, 4), egressPort := (0, 5), mcastGrp := some (0, 6),
      resubmitFlag := some (0, 7), egressRid := some (0, 8), recirculateFlag := some (0, 9) }
  fieldLists _ := some []
  parser := ⟨[], none⟩
  deparser := ⟨[], []⟩
  ctx := ⟨fun _ => none, [], Int.toNat, Int.toNat, id⟩
  toRep := id
  wellFormed :=
    { members := by simp [wireFactory]
      members_nodup := by decide
      stack_nodup := by decide
      stack_headers := by simp [wireFactory]
      union_stack_nodup := by simp [wireFactory]
      union_stack_unions := by simp [wireFactory] }
  calls st hst := absurd hst List.not_mem_nil
  updates update hupdate := absurd hupdate List.not_mem_nil

def wireMemory : Memory := ⟨fun _ => 0, 0⟩

/-- A packet is received. -/
def wireReceive (data : ByteContainer) : List Label :=
  [.receive 0 data, .newPacket wireMemory 0, .pushInput]

/-- The ingress thread sets a field of a packet. -/
def wireIngress (field : ℕ) (v : ℤ) : List Label :=
  [.popInput, .ingressApply 0 (fun _ _ => none) [.other (.set (0, field) v)],
    .ingressClone 0 (fun _ _ => none) wireMemory 0 0, .ingressFinish wireMemory 0 0]

/-- An egress thread has a packet for port 1. -/
def wireEgress (ops : List Primitive) : List Label :=
  let worker : Fin nbEgressThreads := ⟨1, by decide⟩
  [.popEgress worker 0, .egressApply worker 0 ops, .egressClone worker wireMemory 0 0,
    .egressFinish worker wireMemory]

def wireTransmit : List Label := [.pushOutput ⟨1, by decide⟩, .popOutput, .transmit]

section

variable {maxPort : ℕ} {enableSwap : Bool} {objects : Program} {pktDelay : ℕ → ℕ} {now : ℕ}
  {labels : List Label}

/-- The invariant holds in every state that the switch gets to. -/
theorem inv_of_runsTo (h : RunsTo maxPort enableSwap objects pktDelay now labels s log) :
    Inv s log :=
  (inv_create _ _ _ _ _).run h

/-! ## The pool -/

/-- **`phvs_in_use` is the number of packets in the switch**, wherever these are. -/
theorem phvsInUse_eq (h : RunsTo maxPort enableSwap objects pktDelay now labels s log) :
    s.pool.phvsInUse = Multiset.card s.items :=
  (inv_of_runsTo h).balanced

set_option maxRecDepth 10000 in
/-- A packet is with the ingress thread, and its clone in an egress queue. -/
theorem phvsInUse_eq_wire : ∃ s log,
    RunsTo 8 true wire id 0 (.mirroringMappingAdd 5 1 :: wireReceive [1, 2] ++
      (wireIngress 4 5).take 3) s log ∧ s.pool.phvsInUse = 2 ∧
        s.pool.phvsInUse = Multiset.card s.items := by
  obtain ⟨s, log, h, hcount⟩ : ∃ s log, RunsTo 8 true wire id 0 (.mirroringMappingAdd 5 1 ::
      wireReceive [1, 2] ++ (wireIngress 4 5).take 3) s log ∧ s.pool.phvsInUse = 2 :=
    ⟨_, _, rfl, rfl⟩
  exact ⟨s, log, h, hcount, phvsInUse_eq h⟩

/-- **The header vectors are those of the program.** Every packet has one of the
program that its thread works for, one that waits for the parser has one that is
clear, and so has the pool. -/
theorem header_vectors (h : RunsTo maxPort enableSwap objects pktDelay now labels s log) :
    (∀ x ∈ s.items, s.program.factory.Reaches x.2.phv) ∧
      (∀ p, (.entering, p) ∈ s.items → p.phv.Clear) ∧
        ∀ phv ∈ s.pool.phvs, s.pool.phvFactory.Reaches phv ∧ phv.Clear := by
  have hi := inv_of_runsTo h
  refine ⟨fun x hx => ?_, fun p hp => (hi.all.items _ hp).placed.2, hi.all.pool⟩
  have hitems : s.items ≠ 0 := fun hnone => by
    rw [hnone] at hx
    exact Multiset.notMem_zero x hx
  rw [← hi.factory_of_items hitems]
  exact (hi.all.items x hx).reaches

set_option maxRecDepth 10000 in
theorem header_vectors_wire : ∃ s log,
    RunsTo 8 true wire id 0 (wireReceive [1, 2] ++ wireIngress 3 1 ++ wireEgress [] ++ wireTransmit ++
      wireReceive [3]) s log ∧ (∀ x ∈ s.items, s.program.factory.Reaches x.2.phv) ∧
        (∀ p, (.entering, p) ∈ s.items → p.phv.Clear) ∧
          ∀ phv ∈ s.pool.phvs, s.pool.phvFactory.Reaches phv ∧ phv.Clear := by
  obtain ⟨s, log, h⟩ : ∃ s log, RunsTo 8 true wire id 0 (wireReceive [1, 2] ++ wireIngress 3 1 ++
      wireEgress [] ++ wireTransmit ++ wireReceive [3]) s log := ⟨_, _, rfl⟩
  exact ⟨s, log, h, header_vectors h⟩

/-! ## The swap -/

/-- A thread cannot get a packet where there is none. -/
theorem Moved.items_eq (hm : Moved s s' es) (hitems : s.items = 0) : s'.items = 0 := by
  have hsame : books s' ([] ++ es) = books s [] := (hm.moves []).eq_of_empty hitems
  exact (congrArg Books.items hsame).trans hitems

/-- Without packets only the receiving thread, one that swaps and the control plane
take steps. -/
theorem thread_of_step (hitems : s.items = 0) (h : s.step l = some (s', es)) :
    l.thread = .receiver ∨ l.thread = .swapper ∨ l.thread = .controlPlane := by
  cases l with
  -- The threads that pop something would hold a packet after the step, and there is none before
  -- it.
  | popInput =>
    have hstep := ingress_step h rfl
    have hnone := (idle_of_items ((popInput_moved hstep).items_eq hitems)).1
    cases hstep
    exact absurd hnone (Multiset.singleton_ne_zero _)
  | popEgress worker now =>
    have hstep := egress_step h rfl
    have hnone := (idle_of_items ((popEgress_moved hstep).items_eq hitems)).2 worker
    cases hstep
    change (Function.update s.egress worker _ worker).items = 0 at hnone
    rw [Function.update_self] at hnone
    exact absurd hnone (Multiset.singleton_ne_zero _)
  | popOutput =>
    obtain ⟨hs, -⟩ := quiet_eq_some h
    have hnone := (popOutput_moved hs).1.items_eq hitems
    unfold popOutput at hs
    split at hs
    · obtain ⟨popped, -, hs⟩ := Option.bind_eq_some_iff.mp hs
      obtain rfl := Option.some.inj hs
      exact absurd (add_eq_zero.mp hnone).2 (Multiset.singleton_ne_zero _)
    · cases hs
  | transmit =>
    obtain ⟨-, -, p, hsome, -⟩ := transmitPacket_moved h
    unfold items at hitems
    rw [hsome] at hitems
    exact absurd (add_eq_zero.mp hitems).2 (Multiset.singleton_ne_zero _)
  | receive | checkQueueing | newPacket | pushInput => exact .inl rfl
  | lockSwap | drain | swapObjects | setFactory => exact .inr (.inl rfl)
  -- The other steps of the packet threads need a packet in hand.
  | ingressApply | ingressClone | ingressFinish | pushResubmit | multicast =>
    exact absurd (idle_of_items hitems).1 ((ingress_step h rfl).busy nofun)
  | egressApply worker | egressClone worker | egressFinish worker | pushRecirc worker
  | pushOutput worker =>
    exact absurd ((idle_of_items hitems).2 worker) ((egress_step h rfl).busy nofun)
  | _ => exact .inr (.inr rfl)

/-- While the objects are swapped no packet comes in. -/
theorem Inv.step_of_swapping (hi : Inv s log) (hswap : s.Swapping) (h : s.step l = some (s', es)) :
    es = [] ∧ s'.items = 0 := by
  have hitems := hi.items_of_swapping hswap
  rcases thread_of_step hitems h with ht | ht | ht
  · by_cases hnew : ∃ memory ts, l = .newPacket memory ts
    · -- `new_packet_ptr` waits for the mutex.
      obtain ⟨memory, ts, rfl⟩ := hnew
      obtain ⟨-, -, -, -, hfree, -⟩ := newPacket_birth rfl h log
      unfold Swapping at hswap
      rw [hfree] at hswap
      exact hswap.elim
    by_cases hpush : l = .pushInput
    · obtain ⟨hs, rfl⟩ := quiet_eq_some (hpush ▸ h)
      exact ⟨rfl, (pushInput_moved hi.inputBlocks hs).1.items_eq hitems⟩
    obtain ⟨rfl, receiver, w, rfl, hold, hnone⟩ := receiver_step h ht
      (fun memory ts heq => hnew ⟨memory, ts, heq⟩) hpush
    exact ⟨rfl, (items_of_receiver (hnone.trans hold.symm)).trans hitems⟩
  · obtain ⟨rfl, cxt, pool, ongoingSwap, orders, receiver, rfl, hreceiver, -⟩ := swapper_step h ht
    exact ⟨rfl, (items_of_receiver hreceiver).trans hitems⟩
  · obtain ⟨rfl, cxt, orders, queuesInfo, mirroringMap, pre, rfl, -⟩ := controlPlane_step h ht
    exact ⟨rfl, hitems⟩

/-- **The objects are swapped with no packet in the switch.** From where no header
vector is in use to where the factory of the pool is set there is no packet, and
whatever step is taken brings none in: the threads that process packets have no
step, and `new_packet_ptr` waits. Whoever swaps goes on: what `set_phv_factory`
asserts holds. -/
theorem swap_alone (h : RunsTo maxPort enableSwap objects pktDelay now labels s log)
    (hswap : s.Swapping) :
    s.items = 0 ∧ (∀ l s' es, s.step l = some (s', es) → es = [] ∧ s'.items = 0 ∧
      (l.thread = .receiver ∨ l.thread = .swapper ∨ l.thread = .controlPlane)) ∧
        ((s.step .swapObjects).isSome ∨ (s.step .setFactory).isSome) := by
  have hi := inv_of_runsTo h
  have hitems := hi.items_of_swapping hswap
  refine ⟨hitems, fun l s' es hstep => ?_, ?_⟩
  · obtain ⟨hes, hitems'⟩ := hi.step_of_swapping hswap hstep
    exact ⟨hes, hitems', thread_of_step hitems hstep⟩
  have hcount := hi.swapping hswap
  unfold Swapping at hswap
  split at hswap
  · next swapper hongoing =>
    left
    simp only [step, quiet, swapObjects, hongoing, Option.map_some, Option.isSome_some]
  · next swapper hongoing =>
    right
    simp only [step, quiet, setFactory, hongoing, PhvPool.setPhvFactory, hcount, if_pos,
      Option.bind_eq_bind, Option.bind_some, Option.map_some, Option.isSome_some]
  · exact hswap.elim

/-- A configuration is loaded and its swap ordered while a packet is processed: the
thread that ordered it gets the mutex, and the next packet waits for the swap. -/
def wireSwap : List Label :=
  wireReceive [1, 2] ++ [.loadNewConfig wire, .swapConfigs, .lockSwap .controlPlane] ++
    wireIngress 3 1 ++ [.receive 0 [3]] ++ wireEgress [] ++ wireTransmit ++ [.drain, .swapObjects]

set_option maxRecDepth 10000 in
theorem swap_alone_wire : ∃ s log, RunsTo 8 true wire id 0 wireSwap s log ∧
    s.items = 0 ∧ (∀ l s' es, s.step l = some (s', es) → es = [] ∧ s'.items = 0 ∧
      (l.thread = .receiver ∨ l.thread = .swapper ∨ l.thread = .controlPlane)) ∧
        ((s.step .swapObjects).isSome ∨ (s.step .setFactory).isSome) := by
  obtain ⟨s, log, h, hswap⟩ : ∃ s log, RunsTo 8 true wire id 0 wireSwap s log ∧ s.Swapping :=
    ⟨_, _, rfl, trivial⟩
  exact ⟨s, log, h, swap_alone h hswap⟩

/-- A swap that is ordered is still to be done: by a thread of the control plane that
comes to `do_swap`, or by the one that has the mutex. -/
def SwapPending (s : SimpleSwitch) : Prop :=
  0 < s.orders ∨ ∃ swapper,
    s.ongoingSwap = some (swapper, .draining) ∨ s.ongoingSwap = some (swapper, .drained)

theorem pending_of_swapper (hp : s.cxt.swapOrdered = true → s.SwapPending)
    (h : s.step l = some (s', es)) (ht : l.thread = .swapper) :
    s'.cxt.swapOrdered = true → s'.SwapPending := by
  intro hordered
  cases l with
  | lockSwap swapper =>
    obtain ⟨hs, -⟩ := quiet_eq_some h
    unfold lockSwap at hs
    split at hs
    · obtain rfl := Option.some.inj hs
      split_ifs at hordered ⊢ with hreq
      · exact .inr ⟨_, .inl rfl⟩
      · exact absurd hordered hreq
    · split_ifs at hs
      obtain rfl := Option.some.inj hs
      exact .inr ⟨_, .inl rfl⟩
    · cases hs
  | drain =>
    obtain ⟨hs, -⟩ := quiet_eq_some h
    unfold drain at hs
    split at hs
    · split_ifs at hs
      obtain rfl := Option.some.inj hs
      exact .inr ⟨_, .inr rfl⟩
    · cases hs
  | swapObjects =>
    -- The order is taken back.
    obtain ⟨hs, -⟩ := quiet_eq_some h
    unfold swapObjects Switch.Context.doSwap at hs
    split at hs
    · obtain rfl := Option.some.inj hs
      split_ifs at hordered with hreq
      exact absurd hordered hreq
    · cases hs
  | setFactory =>
    obtain ⟨hs, -⟩ := quiet_eq_some h
    unfold setFactory at hs
    split at hs
    · next swapper hswap =>
      obtain ⟨pool, -, hs⟩ := Option.bind_eq_some_iff.mp hs
      obtain rfl := Option.some.inj hs
      rcases hp hordered with hpos | ⟨other, hdraining | hdrained⟩
      · exact .inl hpos
      · rw [hswap] at hdraining
        cases hdraining
      · rw [hswap] at hdrained
        cases hdrained
    · cases hs
  | _ => cases ht

/-- One step of the threads changes the objects that there are. -/
theorem Inv.cxt_eq (hi : Inv s log) (h : s.step l = some (s', es)) (hswap : l ≠ .swapObjects)
    (hc : l.thread ≠ .controlPlane) : s'.cxt = s.cxt := by
  by_cases ht : l.thread = .receiver
  · by_cases hnew : ∃ memory ts, l = .newPacket memory ts
    · obtain ⟨memory, ts, rfl⟩ := hnew
      exact (newPacket_birth rfl h log).2.1
    by_cases hpush : l = .pushInput
    · obtain ⟨hs, -⟩ := quiet_eq_some (hpush ▸ h)
      exact (pushInput_moved hi.inputBlocks hs).1.cxt
    obtain ⟨-, receiver, w, rfl, -⟩ := receiver_step h ht
      (fun memory ts heq => hnew ⟨memory, ts, heq⟩) hpush
    rfl
  by_cases hs : l.thread = .swapper
  · obtain ⟨-, cxt, pool, ongoingSwap, orders, receiver, rfl, -, hcxt⟩ := swapper_step h hs
    exact hcxt hswap
  · exact (hi.step_moved h ht hs hc).cxt

theorem pending_of_step (hi : Inv s log) (hp : s.cxt.swapOrdered = true → s.SwapPending)
    (h : s.step l = some (s', es)) : s'.cxt.swapOrdered = true → s'.SwapPending := by
  by_cases ht : l.thread = .swapper
  · exact pending_of_swapper hp h ht
  intro hordered
  have hf := step_frame h
  have hkeeps : s.SwapPending → s'.SwapPending := by
    rintro (hpos | hmutex)
    · exact .inl (hpos.trans_le (hf.orders ht))
    · unfold SwapPending
      rw [hf.ongoingSwap ht]
      exact .inr hmutex
  by_cases hc : l.thread = .controlPlane
  · obtain ⟨-, cxt, orders, queuesInfo, mirroringMap, pre, rfl, hreq⟩ := controlPlane_step h hc
    rcases hreq.ordered hordered with hold | hnew
    · exact hkeeps (hp hold)
    · exact .inl hnew
  · have hcxt := hi.cxt_eq h (fun hl => ht (hl ▸ rfl)) hc
    rw [hcxt] at hordered
    exact hkeeps (hp hordered)

/-- **An order is not lost.** In every state of every run in which a swap is ordered,
a thread of the control plane is on its way to `do_swap` or a thread has the mutex
and has not swapped yet; and as soon as there is no packet, a step of the swap can be
taken. -/
theorem swap_pending (h : RunsTo maxPort enableSwap objects pktDelay now labels s log)
    (hordered : s.cxt.swapOrdered = true) :
    s.SwapPending ∧ (s.items = 0 → ∃ l, l.thread = .swapper ∧ (s.step l).isSome) := by
  have hstart : (create maxPort enableSwap objects pktDelay now).cxt.swapOrdered = true →
      (create maxPort enableSwap objects pktDelay now).SwapPending := nofun
  obtain ⟨hi, hp⟩ := (inv_create _ _ _ _ _).run_keeps
    (fun s _ => s.cxt.swapOrdered = true → s.SwapPending) hstart
    (fun _ _ _ _ _ hi hp hstep => pending_of_step hi hp hstep) h
  refine ⟨hp hordered, fun hitems => ?_⟩
  -- Without packets the pool counts nothing in use, so the swap need not wait.
  have hcount : s.pool.count = 0 := hi.balanced.trans (by
    change ((Multiset.card s.items : ℕ) : ℤ) = 0
    rw [hitems]
    rfl)
  cases hongoing : s.ongoingSwap with
  | none =>
    rcases hp hordered with hpos | ⟨swapper, hmutex | hmutex⟩
    · refine ⟨.lockSwap .controlPlane, rfl, ?_⟩
      simp only [step, quiet, lockSwap, hongoing, if_pos (And.intro hpos hordered), Option.map_some,
        Option.isSome_some]
    · rw [hongoing] at hmutex
      cases hmutex
    · rw [hongoing] at hmutex
      cases hmutex
  | some swap =>
    obtain ⟨swapper, phase⟩ := swap
    cases phase with
    | draining =>
      refine ⟨.drain, rfl, ?_⟩
      simp only [step, quiet, drain, hongoing, PhvPool.phvsInUse, hcount, if_pos, Option.map_some,
        Option.isSome_some]
    | drained =>
      refine ⟨.swapObjects, rfl, ?_⟩
      simp only [step, quiet, swapObjects, hongoing, Option.map_some, Option.isSome_some]
    | swapped =>
      refine ⟨.setFactory, rfl, ?_⟩
      simp only [step, quiet, setFactory, hongoing, PhvPool.setPhvFactory, hcount, if_pos,
        Option.bind_eq_bind, Option.bind_some, Option.map_some, Option.isSome_some]

/-- The swap is ordered twice, and the receiving thread gets the mutex. -/
def wireOrders : List Label :=
  wireReceive [1, 2] ++ [.loadNewConfig wire, .swapConfigs, .receive 0 [3], .swapConfigs,
    .lockSwap .receiver]

set_option maxRecDepth 10000 in
theorem swap_pending_wire : ∃ s log, RunsTo 8 true wire id 0 wireOrders s log ∧ s.SwapPending ∧
    (s.items = 0 → ∃ l, l.thread = .swapper ∧ (s.step l).isSome) := by
  obtain ⟨s, log, h, hordered⟩ : ∃ s log, RunsTo 8 true wire id 0 wireOrders s log ∧
      s.cxt.swapOrdered = true := ⟨_, _, rfl, rfl⟩
  exact ⟨s, log, h, swap_pending h hordered⟩

/-- While there is a packet, the objects that packets go through stay, but for what
a request changes of them. -/
theorem program_of_step (hi : Inv s log) (hitems : s.items ≠ 0)
    (hl : ∀ objects, l = .request objects → s.cxt.p4objectsRt.isSome = true)
    (h : s.step l = some (s', es)) : s'.program = s.program := by
  by_cases hc : l.thread = .controlPlane
  · obtain ⟨-, cxt, orders, queuesInfo, mirroringMap, pre, rfl, hreq⟩ := controlPlane_step h hc
    refine hreq.program.resolve_right fun ⟨hrequest, hnone⟩ => ?_
    have hloaded := hl _ hrequest
    rw [hnone] at hloaded
    cases hloaded
  refine congrArg Switch.Context.p4objects (hi.cxt_eq h (fun hswap => hitems ?_) hc)
  -- The step that changes the objects is taken without a packet.
  obtain ⟨hs, -⟩ := quiet_eq_some (hswap ▸ h)
  unfold swapObjects at hs
  split at hs
  · next swapper hongoing =>
    exact hi.items_of_swapping (by
      unfold Swapping
      rw [hongoing]
      trivial)
  · cases hs

/-- **No packet sees two configurations.** From any state of any run, as long as
there is a packet in the switch, all threads go on with the objects that it
started with, whatever configurations are loaded, changed by requests and ordered
to be swapped. -/
theorem program_of_busy (h : RunsTo maxPort enableSwap objects pktDelay now labels s log)
    {more : List Label} {log' : List Event}
    (hbusy : Runs.Always stepLog (fun r l => r.1.items ≠ 0 ∧
      ∀ objects, l = .request objects → r.1.cxt.p4objectsRt.isSome = true) (s, log) more)
    (hrun : Runs.run stepLog (s, log) more = some (s', log')) : s'.program = s.program := by
  have hstep : ∀ s₁ log₁ l s₂ es, Inv s₁ log₁ → s₁.program = s.program →
      (s₁.items ≠ 0 ∧ ∀ objects, l = .request objects → s₁.cxt.p4objectsRt.isSome = true) →
      s₁.step l = some (s₂, es) → s₂.program = s.program := by
    intro s₁ log₁ l s₂ es hi hprogram hbusy hs₂
    exact (program_of_step hi hbusy.1 hbusy.2 hs₂).trans hprogram
  exact ((inv_of_runsTo h).run_of _ (fun s₁ _ => s₁.program = s.program) rfl hstep hbusy hrun).2

/-- A configuration is loaded, changed and its swap ordered while the receiving thread
has a packet. -/
theorem program_of_busy_wire : ∃ s s' log log',
    RunsTo 8 true wire id 0 [.receive 0 [1, 2], .newPacket wireMemory 0] s log ∧
      Runs.run stepLog (s, log) [.loadNewConfig wire, .request wire, .swapConfigs] =
        some (s', log') ∧ s'.cxt.swapOrdered ∧ s'.program = s.program := by
  obtain ⟨s, s', log, log', h, hrun, hordered, hitems, hswap, hrt⟩ : ∃ s s' log log',
      RunsTo 8 true wire id 0 [.receive 0 [1, 2], .newPacket wireMemory 0] s log ∧
        Runs.run stepLog (s, log) [.loadNewConfig wire, .request wire, .swapConfigs] =
          some (s', log') ∧ s'.cxt.swapOrdered ∧ s.receiver.items ≠ 0 ∧ s.enableSwap = true ∧
            s.cxt.p4objectsRt = none :=
    ⟨_, _, _, _, rfl, rfl, rfl, Multiset.singleton_ne_zero _, rfl, rfl⟩
  have hbusy : ∀ s₁ : SimpleSwitch, s₁.receiver = s.receiver → s₁.items ≠ 0 := by
    intro s₁ hs₁ hnone
    rw [items_receiver, hs₁] at hnone
    exact hitems (add_eq_zero.mp hnone).1
  have hload : stepLog (s, log) (.loadNewConfig wire) =
      some ({ s with cxt := { s.cxt with p4objectsRt := some wire } }, log ++ []) := by
    simp [stepLog, step, loadNewConfig, hswap, hrt]
  have hloads : ∀ objects, Label.loadNewConfig wire ≠ .request objects := by simp
  have hswaps : ∀ objects, Label.swapConfigs ≠ .request objects := by simp
  have hall : Runs.Always stepLog (fun r l => r.1.items ≠ 0 ∧
      ∀ objects, l = .request objects → r.1.cxt.p4objectsRt.isSome = true) (s, log)
        [.loadNewConfig wire, .request wire, .swapConfigs] := by
    refine ⟨⟨hbusy s rfl, fun objects heq => absurd heq (hloads objects)⟩, fun r hr => ?_⟩
    obtain rfl := Option.some.inj (hload.symm.trans hr)
    refine ⟨⟨hbusy _ rfl, fun _ _ => rfl⟩, fun r' hr' => ?_⟩
    obtain ⟨r₁, hr₁, rfl⟩ := Option.map_eq_some_iff.mp hr'
    have hreceiver : r₁.1.receiver = s.receiver := (step_frame hr₁).receiver nofun nofun
    exact ⟨⟨hbusy r₁.1 hreceiver, fun objects heq => absurd heq (hswaps objects)⟩,
      fun _ _ => True.intro⟩
  exact ⟨s, s', log, log', h, hrun, hordered, program_of_busy h hall hrun⟩

end

end SimpleSwitch

end P4Bricks
