import P4Bricks.Queueing.Refinement
import P4Bricks.SimpleSwitch.Model
/-!
# The steps of the ingress and of the egress threads

What a step of one of these threads needs and what it leaves, one case for each
way through the code. What is said of their steps is read off these cases.
-/

namespace P4Bricks

open Parsing Queueing

namespace SimpleSwitch

/-- The threads of the switch. One that has the mutex of the swap, or gets it, is the
swapper, be it the receiving thread or one of the control plane. -/
inductive Thread where
  | receiver
  | swapper
  | ingress
  | egress (worker : Fin nbEgressThreads)
  | transmit
  | controlPlane
  deriving DecidableEq

/-- The thread that takes a step. -/
def Label.thread : Label → Thread
  | .receive _ _ | .checkQueueing | .newPacket _ _ | .pushInput => .receiver
  | .lockSwap _ | .drain | .swapObjects | .setFactory => .swapper
  | .popInput | .ingressApply _ _ _ | .ingressClone _ _ _ _ _ | .ingressFinish _ _ _
  | .pushResubmit | .multicast _ _ _ => .ingress
  | .popEgress worker _ | .egressApply worker _ _ | .egressClone worker _ _ _
  | .egressFinish worker _ | .pushRecirc worker | .pushOutput worker => .egress worker
  | .popOutput | .transmit => .transmit
  | .mirroringMappingAdd _ _ | .mirroringMappingDelete _ | .setEgressQueueDepth _ _
  | .setEgressQueueRate _ _ | .pre _ | .loadNewConfig _ | .swapConfigs | .request _ => .controlPlane

variable {s s' : SimpleSwitch} {es : List Event} {l : Label} {worker : Fin nbEgressThreads}

/-- A step that is not seen. -/
theorem quiet_eq_some {o : Option SimpleSwitch} (h : quiet o = some (s', es)) :
    o = some s' ∧ es = [] := by
  obtain ⟨s₁, hs₁, h⟩ := Option.map_eq_some_iff.mp h
  obtain ⟨rfl, rfl⟩ := Prod.mk.inj h
  exact ⟨hs₁, rfl⟩

/-! ## Ingress -/

/-- A step of the ingress thread. -/
inductive IngressStep (s : SimpleSwitch) : Label → SimpleSwitch → List Event → Prop where
  | pop {p : Packet} {q : Queue Packet} (hing : s.ingress = .idle)
      (hpop : s.inputBuffer.popBack = some (p, q)) :
      IngressStep s .popInput { s with inputBuffer := q, ingress := .popped p } []
  | apply {n : ℕ} {registers : Registers} {ops : List Primitive} {p p₁ p₂ : Packet}
      {spec : IngressSpec} (hing : s.ingress = .popped p)
      (hparse : s.program.parse n registers p = some p₁) (hops : applyAll p₁ ops = some p₂) :
      IngressStep s (.ingressApply n registers ops)
        { s with ingress := .applied p₂ p.saveBufferState spec } []
  | noClone {n ts now : ℕ} {registers : Registers} {memory : Memory} {p : Packet} {packetIn : ℕ}
      {spec : IngressSpec} (hing : s.ingress = .applied p packetIn spec)
      (hspec : spec.cloneSpec = 0) :
      IngressStep s (.ingressClone n registers memory ts now)
        { s with ingress := .cloned p packetIn spec } []
  -- The mirror id has no port, but the field is cleared.
  | noMirror {n ts now : ℕ} {registers : Registers} {memory : Memory} {p : Packet} {packetIn : ℕ}
      {spec : IngressSpec} {phv : Phv} (hing : s.ingress = .applied p packetIn spec)
      (hset : setField p.phv s.program.fields.cloneSpec 0 = some phv) :
      IngressStep s (.ingressClone n registers memory ts now)
        { s with ingress := .cloned (p.withPhv phv) packetIn spec } []
  | clone {n ts now : ℕ} {registers : Registers} {memory : Memory} {p copy : Packet}
      {packetIn : ℕ} {spec : IngressSpec} {phv : Phv} {copied : Packet × PhvPool}
      {egressPort fieldListId : ℤ} {s₁ : SimpleSwitch} {es : List Event}
      (hing : s.ingress = .applied p packetIn spec)
      (hset : setField p.phv s.program.fields.cloneSpec 0 = some phv)
      (hcopy : s.copyIngressPkt ((p.withPhv phv).restoreBufferState packetIn) .ingressClone
        fieldListId memory = some copied)
      (hparse : s.program.parse n registers copied.1 = some copy)
      (henqueue : enqueue { s with pool := copied.2 } egressPort copy ts now = some (s₁, es)) :
      IngressStep s (.ingressClone n registers memory ts now)
        { s₁ with ingress := .cloned (p.withPhv phv) packetIn spec } es
  | resubmit {memory : Memory} {ts now : ℕ} {p : Packet} {packetIn : ℕ} {spec : IngressSpec}
      {f : FieldRef} {fieldListId : ℤ} {phv : Phv} {copied : Packet × PhvPool}
      (hing : s.ingress = .cloned p packetIn spec)
      (hflag : s.flagged p.phv s.program.fields.resubmitFlag = some (some (f, fieldListId)))
      (hset : setField p.phv f 0 = some phv)
      (hcopy : s.copyIngressPkt ((p.restoreBufferState packetIn).withPhv phv) .resubmit
        fieldListId memory = some copied) :
      IngressStep s (.ingressFinish memory ts now)
        { s with
          pool := copied.2
          ingress := .resubmitting ((p.restoreBufferState packetIn).withPhv phv) copied.1 } []
  | replicate {memory : Memory} {ts now : ℕ} {p : Packet} {packetIn : ℕ} {spec : IngressSpec}
      {instanceType : ℤ} {outs : List Pre.McOut} (hing : s.ingress = .cloned p packetIn spec) :
      IngressStep s (.ingressFinish memory ts now)
        { s with ingress := .multicasting p instanceType outs } []
  | drop {memory : Memory} {ts now : ℕ} {p : Packet} {packetIn : ℕ} {spec : IngressSpec}
      (hing : s.ingress = .cloned p packetIn spec) :
      IngressStep s (.ingressFinish memory ts now)
        { s with ingress := .idle, pool := p.destroy s.pool } []
  | forward {memory : Memory} {ts now : ℕ} {p : Packet} {packetIn : ℕ} {spec : IngressSpec}
      {s₁ : SimpleSwitch} {es : List Event} (hing : s.ingress = .cloned p packetIn spec)
      (henqueue : s.enqueue spec.egressSpec p ts now = some (s₁, es)) :
      IngressStep s (.ingressFinish memory ts now) { s₁ with ingress := .idle } es
  | push {p copy : Packet} {q : Queue Packet} (hing : s.ingress = .resubmitting p copy)
      (hpush : s.inputBuffer.pushFront copy = some q) :
      IngressStep s .pushResubmit
        { s with inputBuffer := q, ingress := .idle, pool := p.destroy s.pool } []
  | lastReplica {memory : Memory} {ts now : ℕ} {p : Packet} {instanceType : ℤ} {phv : Phv}
      (hing : s.ingress = .multicasting p instanceType [])
      (hset : setField p.phv s.program.fields.instanceType instanceType = some phv) :
      IngressStep s (.multicast memory ts now)
        { s with ingress := .idle, pool := (p.withPhv phv).destroy s.pool } []
  | replica {memory : Memory} {ts now : ℕ} {p : Packet} {instanceType : ℤ} {out : Pre.McOut}
      {outs : List Pre.McOut} {rid : FieldRef} {phv₁ phv₂ : Phv} {copied : Packet × PhvPool}
      {s₁ : SimpleSwitch} {es : List Event}
      (hing : s.ingress = .multicasting p instanceType (out :: outs))
      (hset₁ : setField p.phv rid out.rid = some phv₁)
      (hset₂ : setField phv₁ s.program.fields.instanceType PktInstanceType.replication.code =
        some phv₂)
      (hcopy : (p.withPhv phv₂).cloneWithPhv memory s.pool = .ok copied)
      (henqueue : enqueue { s with pool := copied.2 } out.egressPort
        { copied.1 with register := p.register } ts now = some (s₁, es)) :
      IngressStep s (.multicast memory ts now)
        { s₁ with ingress := .multicasting (p.withPhv phv₂) instanceType outs } es

theorem ingressClone_step {n : ℕ} {registers : Registers} {memory : Memory} {ts now : ℕ}
    (h : s.ingressClone n registers memory ts now = some (s', es)) :
    IngressStep s (.ingressClone n registers memory ts now) s' es := by
  unfold ingressClone at h
  split at h
  · next p packetIn spec hing =>
    split_ifs at h with hspec
    · obtain ⟨rfl, rfl⟩ := Prod.mk.inj (Option.some.inj h)
      exact .noClone hing hspec
    · obtain ⟨phv, hset, h⟩ := Option.bind_eq_some_iff.mp h
      split_ifs at h
      · obtain ⟨copied, hcopy, h⟩ := Option.bind_eq_some_iff.mp h
        obtain ⟨copy, hparse, h⟩ := Option.bind_eq_some_iff.mp h
        obtain ⟨⟨s₁, es₁⟩, henqueue, h⟩ := Option.bind_eq_some_iff.mp h
        obtain ⟨rfl, rfl⟩ := Prod.mk.inj (Option.some.inj h)
        -- The packet is where it was before the buffer was set back for its clone.
        rw [Packet.restoreBufferState_restoreBufferState]
        exact .clone hing hset hcopy hparse henqueue
      · obtain ⟨rfl, rfl⟩ := Prod.mk.inj (Option.some.inj h)
        exact .noMirror hing hset
  · cases h

theorem ingressFinish_step {memory : Memory} {ts now : ℕ}
    (h : s.ingressFinish memory ts now = some (s', es)) :
    IngressStep s (.ingressFinish memory ts now) s' es := by
  unfold ingressFinish at h
  split at h
  · next p packetIn spec hing =>
    obtain ⟨flag, hflag, h⟩ := Option.bind_eq_some_iff.mp h
    split at h
    · obtain ⟨phv, hset, h⟩ := Option.bind_eq_some_iff.mp h
      obtain ⟨copied, hcopy, h⟩ := Option.bind_eq_some_iff.mp h
      obtain ⟨rfl, rfl⟩ := Prod.mk.inj (Option.some.inj h)
      exact .resubmit hing hflag hset hcopy
    · obtain ⟨instanceType, -, h⟩ := Option.bind_eq_some_iff.mp h
      split_ifs at h
      · obtain ⟨rid, -, h⟩ := Option.bind_eq_some_iff.mp h
        obtain ⟨outs, -, h⟩ := Option.bind_eq_some_iff.mp h
        obtain ⟨rfl, rfl⟩ := Prod.mk.inj (Option.some.inj h)
        exact .replicate hing
      · obtain ⟨rfl, rfl⟩ := Prod.mk.inj (Option.some.inj h)
        exact .drop hing
      · obtain ⟨⟨s₁, es₁⟩, henqueue, h⟩ := Option.bind_eq_some_iff.mp h
        obtain ⟨rfl, rfl⟩ := Prod.mk.inj (Option.some.inj h)
        exact .forward hing henqueue
  · cases h

theorem multicast_step {memory : Memory} {ts now : ℕ}
    (h : s.multicast memory ts now = some (s', es)) :
    IngressStep s (.multicast memory ts now) s' es := by
  unfold multicast at h
  split at h
  · next p instanceType hing =>
    obtain ⟨phv, hset, h⟩ := Option.bind_eq_some_iff.mp h
    obtain ⟨rfl, rfl⟩ := Prod.mk.inj (Option.some.inj h)
    exact .lastReplica hing hset
  · next p instanceType out outs hing =>
    obtain ⟨rid, -, h⟩ := Option.bind_eq_some_iff.mp h
    obtain ⟨phv₁, hset₁, h⟩ := Option.bind_eq_some_iff.mp h
    obtain ⟨phv₂, hset₂, h⟩ := Option.bind_eq_some_iff.mp h
    obtain ⟨copied, hcopy, h⟩ := Option.bind_eq_some_iff.mp h
    obtain ⟨⟨s₁, es₁⟩, henqueue, h⟩ := Option.bind_eq_some_iff.mp h
    obtain ⟨rfl, rfl⟩ := Prod.mk.inj (Option.some.inj h)
    exact .replica hing hset₁ hset₂ (toOption_eq_some hcopy) henqueue
  · cases h

/-- **What the ingress thread does** is one of these cases. -/
theorem ingress_step (h : s.step l = some (s', es)) (ht : l.thread = .ingress) :
    IngressStep s l s' es := by
  cases l with
  | popInput =>
    obtain ⟨hs, rfl⟩ := quiet_eq_some h
    unfold popInput at hs
    split at hs
    · next hing =>
      obtain ⟨popped, hpop, hs⟩ := Option.bind_eq_some_iff.mp hs
      obtain rfl := Option.some.inj hs
      exact .pop hing hpop
    · cases hs
  | ingressApply n registers ops =>
    obtain ⟨hs, rfl⟩ := quiet_eq_some h
    unfold ingressApply at hs
    split at hs
    · next p hing =>
      obtain ⟨p₁, hparse, hs⟩ := Option.bind_eq_some_iff.mp hs
      obtain ⟨p₂, hops, hs⟩ := Option.bind_eq_some_iff.mp hs
      obtain ⟨spec, -, hs⟩ := Option.bind_eq_some_iff.mp hs
      obtain rfl := Option.some.inj hs
      exact .apply hing hparse hops
    · cases hs
  | ingressClone n registers memory ts now => exact ingressClone_step h
  | ingressFinish memory ts now => exact ingressFinish_step h
  | pushResubmit =>
    obtain ⟨hs, rfl⟩ := quiet_eq_some h
    unfold pushResubmit at hs
    split at hs
    · next p copy hing =>
      obtain ⟨q, hpush, hs⟩ := Option.bind_eq_some_iff.mp hs
      obtain rfl := Option.some.inj hs
      exact .push hing hpush
    · cases hs
  | multicast memory ts now => exact multicast_step h
  | _ => cases ht

/-! ## Egress -/

/-- A step of an egress thread. -/
inductive EgressStep (s : SimpleSwitch) (worker : Fin nbEgressThreads) :
    Label → SimpleSwitch → List Event → Prop where
  | pop {now : ℕ} {qe : QE Packet} (heg : s.egress worker = .idle)
      (hw : (worker : ℕ) < s.egressBuffers.nbWorkers)
      (hfront : (s.egressBuffers.workersInfo worker).front? = some qe) :
      EgressStep s worker (.popEgress worker now)
        (setEgress { s with egressBuffers := s.egressBuffers.dequeue worker qe.queueId } worker
          (.popped qe.queueId qe.e)) []
  | apply {ts : ℕ} {ops : List Primitive} {port : ℕ} {p p₁ p₂ : Packet}
      (heg : s.egress worker = .popped port p) (hdequeued : s.dequeued port p ts = some p₁)
      (hops : applyAll p₁ ops = some p₂) :
      EgressStep s worker (.egressApply worker ts ops) (s.setEgress worker (.applied port p₂)) []
  | noClone {memory : Memory} {ts now port : ℕ} {p : Packet}
      (heg : s.egress worker = .applied port p) :
      EgressStep s worker (.egressClone worker memory ts now)
        (s.setEgress worker (.cloned port p)) []
  | clone {memory : Memory} {ts now port : ℕ} {p : Packet} {phv phv' : Phv}
      {copied : Packet × PhvPool} {egressPort fieldListId : ℤ} {s₁ : SimpleSwitch}
      {es : List Event} (heg : s.egress worker = .applied port p)
      (hset : setField p.phv s.program.fields.cloneSpec 0 = some phv)
      (hcopy : (p.withPhv phv).cloneWithPhvResetMetadata memory s.pool = .ok copied)
      (hcarry : s.program.carry copied.1.phv phv fieldListId .egressClone = some phv')
      (henqueue : enqueue { s with pool := copied.2 } egressPort (copied.1.withPhv phv') ts now =
        some (s₁, es)) :
      EgressStep s worker (.egressClone worker memory ts now)
        (s₁.setEgress worker (.cloned port (p.withPhv phv))) es
  | drop {memory : Memory} {port : ℕ} {p : Packet} (heg : s.egress worker = .cloned port p) :
      EgressStep s worker (.egressFinish worker memory)
        (setEgress { s with pool := p.destroy s.pool } worker .idle) []
  | recirculate {memory : Memory} {port : ℕ} {p p₁ : Packet} {f : FieldRef} {fieldListId : ℤ}
      {phv : Phv} {copied : Packet × PhvPool} (heg : s.egress worker = .cloned port p)
      (hdeparse : s.program.deparse p = some p₁) (hset : setField p₁.phv f 0 = some phv)
      (hcopy : s.recirculate (p₁.withPhv phv) fieldListId memory = some copied) :
      EgressStep s worker (.egressFinish worker memory)
        (setEgress { s with pool := copied.2 } worker
          (.recirculating port (p₁.withPhv phv) copied.1))
        [.recirculated copied.1.packetId copied.1.buffer.data]
  | output {memory : Memory} {port : ℕ} {p p₁ : Packet} (heg : s.egress worker = .cloned port p)
      (hdeparse : s.program.deparse p = some p₁) :
      EgressStep s worker (.egressFinish worker memory)
        (s.setEgress worker (.outputting port p₁)) []
  | pushInput {port : ℕ} {p copy : Packet} {q : Queue Packet}
      (heg : s.egress worker = .recirculating port p copy)
      (hpush : s.inputBuffer.pushFront copy = some q) :
      EgressStep s worker (.pushRecirc worker)
        (setEgress { s with inputBuffer := q, pool := p.destroy s.pool } worker .idle) []
  | pushOutput {port : ℕ} {p : Packet} {q : Queue Packet}
      (heg : s.egress worker = .outputting port p)
      (hpush : s.outputBuffer.pushFront p = some q) :
      EgressStep s worker (.pushOutput worker)
        (setEgress { s with outputBuffer := q } worker .idle) []

theorem EgressStep.thread (h : EgressStep s worker l s' es) : l.thread = .egress worker := by
  cases h <;> rfl

theorem egressClone_step {memory : Memory} {ts now : ℕ}
    (h : s.egressClone worker memory ts now = some (s', es)) :
    EgressStep s worker (.egressClone worker memory ts now) s' es := by
  unfold egressClone at h
  split at h
  · next port p heg =>
    obtain ⟨cloneSpec, -, h⟩ := Option.bind_eq_some_iff.mp h
    dsimp only at h
    split_ifs at h
    · obtain ⟨phv, hset, h⟩ := Option.bind_eq_some_iff.mp h
      obtain ⟨copied, hcopy, h⟩ := Option.bind_eq_some_iff.mp h
      obtain ⟨phv', hcarry, h⟩ := Option.bind_eq_some_iff.mp h
      obtain ⟨⟨s₁, es₁⟩, henqueue, h⟩ := Option.bind_eq_some_iff.mp h
      obtain ⟨rfl, rfl⟩ := Prod.mk.inj (Option.some.inj h)
      exact .clone heg hset (toOption_eq_some hcopy) hcarry henqueue
    · obtain ⟨rfl, rfl⟩ := Prod.mk.inj (Option.some.inj h)
      exact .noClone heg
  · cases h

theorem egressFinish_step {memory : Memory} (h : s.egressFinish worker memory = some (s', es)) :
    EgressStep s worker (.egressFinish worker memory) s' es := by
  unfold egressFinish at h
  split at h
  · next port p heg =>
    obtain ⟨egressSpec, -, h⟩ := Option.bind_eq_some_iff.mp h
    split_ifs at h
    · obtain ⟨rfl, rfl⟩ := Prod.mk.inj (Option.some.inj h)
      exact .drop heg
    · obtain ⟨p₁, hdeparse, h⟩ := Option.bind_eq_some_iff.mp h
      obtain ⟨flag, -, h⟩ := Option.bind_eq_some_iff.mp h
      split at h
      · obtain ⟨phv, hset, h⟩ := Option.bind_eq_some_iff.mp h
        obtain ⟨copied, hcopy, h⟩ := Option.bind_eq_some_iff.mp h
        obtain ⟨rfl, rfl⟩ := Prod.mk.inj (Option.some.inj h)
        exact .recirculate heg hdeparse hset hcopy
      · obtain ⟨rfl, rfl⟩ := Prod.mk.inj (Option.some.inj h)
        exact .output heg hdeparse
  · cases h

/-- **What an egress thread does** is one of these cases. -/
theorem egress_step (h : s.step l = some (s', es)) (ht : l.thread = .egress worker) :
    EgressStep s worker l s' es := by
  cases l with
  | popEgress other now =>
    obtain rfl := Thread.egress.inj ht
    obtain ⟨hs, rfl⟩ := quiet_eq_some h
    unfold popEgress at hs
    split at hs
    · next heg =>
      obtain ⟨⟨b, qe⟩, hpop, hs⟩ := Option.bind_eq_some_iff.mp hs
      obtain rfl := Option.some.inj hs
      obtain ⟨hfront, rfl⟩ := QueueingLogicRL.popBack_eq_some hpop
      have hw : (other : ℕ) < s.egressBuffers.nbWorkers := by
        unfold QueueingLogicRL.popBack at hpop
        split_ifs at hpop with hw
        exact hw
      exact .pop heg hw hfront
    · cases hs
  | egressApply other ts ops =>
    obtain rfl := Thread.egress.inj ht
    obtain ⟨hs, rfl⟩ := quiet_eq_some h
    unfold egressApply at hs
    split at hs
    · next port p heg =>
      obtain ⟨p₁, hdequeued, hs⟩ := Option.bind_eq_some_iff.mp hs
      obtain ⟨p₂, hops, hs⟩ := Option.bind_eq_some_iff.mp hs
      obtain rfl := Option.some.inj hs
      exact .apply heg hdequeued hops
    · cases hs
  | egressClone other memory ts now =>
    obtain rfl := Thread.egress.inj ht
    exact egressClone_step h
  | egressFinish other memory =>
    obtain rfl := Thread.egress.inj ht
    exact egressFinish_step h
  | pushRecirc other =>
    obtain rfl := Thread.egress.inj ht
    obtain ⟨hs, rfl⟩ := quiet_eq_some h
    unfold pushRecirc at hs
    split at hs
    · next port p copy heg =>
      obtain ⟨q, hpush, hs⟩ := Option.bind_eq_some_iff.mp hs
      obtain rfl := Option.some.inj hs
      exact .pushInput heg hpush
    · cases hs
  | pushOutput other =>
    obtain rfl := Thread.egress.inj ht
    obtain ⟨hs, rfl⟩ := quiet_eq_some h
    unfold pushOutput at hs
    split at hs
    · next port p heg =>
      obtain ⟨q, hpush, hs⟩ := Option.bind_eq_some_iff.mp hs
      obtain rfl := Option.some.inj hs
      exact .pushOutput heg hpush
    · cases hs
  | _ => cases ht

end SimpleSwitch

end P4Bricks
