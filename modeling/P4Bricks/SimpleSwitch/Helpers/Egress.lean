import P4Bricks.SimpleSwitch.Helpers.Ingress
/-!
# The steps of the egress threads and of the transmitting thread, in the books
-/

namespace P4Bricks

open Parsing Queueing Custody

namespace SimpleSwitch

variable {F : PhvFactory} {s s' : SimpleSwitch} {p p' copy : Packet} {worker : Fin nbEgressThreads}

/-- All packets but those of one egress thread and of the egress queues. -/
def besideEgress (s : SimpleSwitch) (worker : Fin nbEgressThreads) : Multiset Item :=
  s.receiver.items + queueItems .entering s.inputBuffer + s.ingress.items +
    ∑ w ∈ Finset.univ.erase worker, (s.egress w).items + queueItems .output s.outputBuffer +
    transmitItems s.transmit

theorem items_egress (s : SimpleSwitch) (worker : Fin nbEgressThreads) :
    s.items = (s.egress worker).items + (queuedItems s.egressBuffers + s.besideEgress worker) := by
  unfold items besideEgress egressItems
  rw [← Finset.add_sum_erase _ _ (Finset.mem_univ worker)]
  abel

/-- After a step of an egress thread the others have what they had. -/
theorem items_setEgress (s : SimpleSwitch) (worker : Fin nbEgressThreads) (e : Egress) :
    (s.setEgress worker e).items =
      e.items + (queuedItems s.egressBuffers + s.besideEgress worker) := by
  have hothers : ∑ w ∈ Finset.univ.erase worker, (Function.update s.egress worker e w).items =
      ∑ w ∈ Finset.univ.erase worker, (s.egress w).items := by
    refine Finset.sum_congr rfl fun w hw => ?_
    rw [Function.update_of_ne (Finset.ne_of_mem_erase hw)]
  rw [items_egress _ worker]
  unfold besideEgress setEgress
  simp only [Function.update_self, hothers]

theorem queueingMetadata_reaches {port ts : ℕ} {phv phv' : Phv} (hphv : F.Reaches phv)
    (h : s.queueingMetadata port phv ts = some phv') : F.Reaches phv' := by
  unfold queueingMetadata at h
  split_ifs at h
  · obtain ⟨src, -, h⟩ := Option.bind_eq_some_iff.mp h
    obtain ⟨v, -, h⟩ := Option.bind_eq_some_iff.mp h
    obtain ⟨dst, -, h⟩ := Option.bind_eq_some_iff.mp h
    obtain ⟨phv₁, hset, h⟩ := Option.bind_eq_some_iff.mp h
    obtain ⟨qdepth, -, h⟩ := Option.bind_eq_some_iff.mp h
    obtain ⟨dst', -, h⟩ := Option.bind_eq_some_iff.mp h
    exact setField_reaches (setField_reaches hphv hset) h
  · obtain rfl := Option.some.inj h
    exact hphv

theorem dequeued_altered {port ts : ℕ} (h : s.dequeued port p ts = some p') :
    Altered F p p' ∧ p'.egressPort = p.egressPort := by
  obtain ⟨phv, hqueueing, h⟩ := Option.bind_eq_some_iff.mp h
  obtain ⟨phv₁, h₁, h⟩ := Option.bind_eq_some_iff.mp h
  obtain ⟨phv₂, h₂, h⟩ := Option.bind_eq_some_iff.mp h
  obtain ⟨phv₃, h₃, h⟩ := Option.bind_eq_some_iff.mp h
  obtain rfl := Option.some.inj h
  exact ⟨⟨⟨rfl, rfl, rfl⟩, fun hp => setField_reaches (setField_reaches (setField_reaches
    (queueingMetadata_reaches hp hqueueing) h₁) h₂) h₃⟩, rfl⟩

theorem recirculate_spec {fieldListId : ℤ} {memory : Memory} {copied : Packet × PhvPool}
    (h : s.recirculate p fieldListId memory = some copied) :
    SameOrigin p copied.1 ∧ copied.2 = s.pool.get.2 ∧ copied.1.buffer.data = p.buffer.data ∧
      (F.Reaches s.pool.get.1 → F.Reaches copied.1.phv) ∧
      (s.pool.get.1.Clear → copied.1.phv.Clear) := by
  obtain ⟨phv, hcarry, h⟩ := Option.bind_eq_some_iff.mp h
  obtain ⟨phv', hset, h⟩ := Option.bind_eq_some_iff.mp h
  obtain rfl := Option.some.inj h
  exact ⟨⟨rfl, rfl, rfl⟩, rfl, rfl,
    fun hv => setField_reaches (carry_reaches hv.resetMetadata hcarry) hset,
    fun hv => setField_clear (carry_clear hv.resetMetadata hcarry) hset⟩

/-- Where the packet of an egress thread is among all packets. -/
theorem items_of_egress {item : Item} (heg : (s.egress worker).items = {item}) :
    s.items = {item} + (queuedItems s.egressBuffers + s.besideEgress worker) := by
  rw [items_egress s worker, heg]

/-- The packet is cloned, or not. -/
theorem egressClone_moved {memory : Memory} {ts now : ℕ} {es : List Event}
    (hfac : s.pool.phvFactory = s.program.factory)
    (h : EgressStep s worker (.egressClone worker memory ts now) s' es) : Moved s s' es := by
  cases h with
  | noClone heg =>
    refine ⟨fun log => ?_, rfl, rfl, rfl⟩
    rw [List.append_nil]
    exact moves_congr .refl (items_of_egress (congrArg _ heg)) (items_setEgress s worker _)
  | @clone _ _ _ port p phv _ _ _ _ _ _ heg hset hcopy hcarry henqueue =>
    obtain ⟨made, hmade, hreset⟩ := bind_eq_ok hcopy
    obtain rfl := Except.ok.inj hreset
    obtain ⟨hsame, hpool, hreaches⟩ := cloneWithPhv_spec (F := s.program.factory) hmade
    obtain ⟨copy', b, q, hstamped, rfl, -, hq, hmoves⟩ := enqueue_spec henqueue
    obtain ⟨hstamp, -, -⟩ := stamped_altered (F := s.program.factory) hstamped
    have halt : Altered s.program.factory p (p.withPhv phv) := .setField hset
    refine ⟨fun log => ?_, rfl, ?_, rfl⟩
    · rw [hfac]
      have hcopied : Copied s.program.factory s.pool.get.1 (.egress port, p.withPhv phv)
          (.egress (sizeOfInt copy'.egressPort), copy') [] := by
        refine .enqueued ?_ fun hv hp => hstamp.reaches
          (carry_reaches (hreaches hv hp).resetMetadata hcarry)
        exact ⟨hstamp.origin.packetId.trans hsame.packetId,
          hstamp.origin.ingressPort.trans hsame.ingressPort,
          hstamp.origin.ingressLength.trans hsame.ingressLength⟩
      exact moves_clone hfac hpool (.inEgress halt rfl) hcopied hmoves
        (items_of_egress (congrArg _ heg)) (items_setEgress _ worker _)
    · change q.phvFactory = _
      rw [hq]
      change made.2.phvFactory = _
      rw [hpool, PhvPool.get_phvFactory]

/-- The packet is dropped, or deparsed and recirculated or passed on. -/
theorem egressFinish_moved {memory : Memory} {es : List Event}
    (hfac : s.pool.phvFactory = s.program.factory)
    (h : EgressStep s worker (.egressFinish worker memory) s' es) : Moved s s' es := by
  cases h with
  | @drop _ port p heg =>
    refine ⟨fun log => ?_, rfl, rfl, rfl⟩
    rw [List.append_nil]
    refine moves_congr (moves_destroy (.egress port) p s.pool)
      (items_of_egress (congrArg _ heg)) ?_
    rw [items_setEgress]
    exact zero_add _
  | @recirculate _ port p p₁ _ _ phv copied heg hdeparse hset hcopy =>
    obtain ⟨halt, -⟩ := deparse_altered hdeparse
    obtain ⟨hsame, hpool, -, hreaches, hclear⟩ := recirculate_spec (F := s.program.factory) hcopy
    have hspent : Altered s.program.factory p (p₁.withPhv phv) := halt.trans (.setField hset)
    have hcopied : Copied s.program.factory s.pool.get.1 (.egress port, p)
        (.entering, copied.1) [.recirculated copied.1.packetId copied.1.buffer.data] :=
      .recirculate (hspent.origin.trans hsame) (fun hv _ => hreaches hv) hclear
    refine ⟨fun log => ?_, rfl, ?_, rfl⟩
    · rw [hfac]
      refine moves_replace hfac hpool hcopied (.spent hspent)
        (items_of_egress (congrArg _ heg)) ?_
      rw [items_setEgress]
      simp only [Egress.items]
      rw [add_assoc]
      rfl
    · change copied.2.phvFactory = _
      rw [hpool, PhvPool.get_phvFactory]
  | output heg hdeparse =>
    obtain ⟨halt, hport⟩ := deparse_altered hdeparse
    refine ⟨fun log => ?_, rfl, rfl, rfl⟩
    rw [List.append_nil, hfac]
    exact moves_congr (moves_go (.inEgress halt hport)) (items_of_egress (congrArg _ heg))
      (items_setEgress s worker _)

/-- The packet comes from the egress queues. -/
theorem popEgress_moved {now : ℕ} {es : List Event}
    (h : EgressStep s worker (.popEgress worker now) s' es) : Moved s s' es := by
  cases h with
  | @pop _ qe heg hw hfront =>
    refine ⟨fun log => ?_, rfl, rfl, rfl⟩
    rw [List.append_nil]
    refine moves_congr .refl rfl ?_
    have hqueued : queuedItems s.egressBuffers =
        {itemOf qe} + queuedItems (s.egressBuffers.dequeue worker qe.queueId) :=
      queuedItems_dequeue hw hfront
    rw [items_setEgress, items_egress s worker, hqueued, heg]
    simp only [Egress.items, itemOf]
    unfold besideEgress
    abel

/-- **An egress thread** moves its packet and the copies that it makes. -/
theorem EgressStep.moved {l : Label} {es : List Event}
    (hfac : (∀ now, l ≠ .popEgress worker now) → s.pool.phvFactory = s.program.factory)
    (hinput : s.inputBuffer.wb = .writeBlock) (houtput : s.outputBuffer.wb = .writeBlock)
    (h : EgressStep s worker l s' es) : Moved s s' es := by
  cases l with
  | popEgress other now =>
    obtain rfl := Thread.egress.inj h.thread
    exact popEgress_moved h
  | egressApply other ts ops =>
    cases h with
    | apply heg hdequeued hops =>
      obtain ⟨halt, hport⟩ := dequeued_altered (F := s.pool.phvFactory) hdequeued
      obtain ⟨halt', -, hport'⟩ := applyAll_altered (F := s.pool.phvFactory) hops
      refine ⟨fun log => ?_, rfl, rfl, rfl⟩
      rw [List.append_nil]
      exact moves_congr (moves_go (.inEgress (halt.trans halt') (hport'.trans hport)))
        (items_of_egress (congrArg _ heg)) (items_setEgress s worker _)
  | egressClone other memory ts now =>
    obtain rfl := Thread.egress.inj h.thread
    exact egressClone_moved (hfac nofun) h
  | egressFinish other memory =>
    obtain rfl := Thread.egress.inj h.thread
    exact egressFinish_moved (hfac nofun) h
  | pushRecirc other =>
    cases h with
    | @pushInput port p copy q heg hpush =>
      -- The copy goes to the input buffer, and the original is destroyed.
      refine ⟨fun log => ?_, rfl, rfl, rfl⟩
      rw [List.append_nil]
      refine moves_congr (moves_destroy .spent p s.pool) ?_ rfl
      rw [items_egress s worker, items_setEgress, heg]
      unfold besideEgress
      rw [queueItems_push hinput hpush]
      simp only [Egress.items]
      abel
  | pushOutput other =>
    cases h with
    | @pushOutput port p q heg hpush =>
      refine ⟨fun log => ?_, rfl, rfl, rfl⟩
      rw [List.append_nil]
      have hgo : Turns s.pool.phvFactory (.egress port, p) (.output, p) [] := .output
      refine moves_congr (moves_go (m := queuedItems s.egressBuffers + s.besideEgress worker) hgo)
        (items_of_egress (congrArg _ heg)) ?_
      rw [items_setEgress]
      unfold besideEgress
      rw [queueItems_push houtput hpush]
      simp only [Egress.items]
      abel
  | _ => cases h

/-! ## The transmitting thread -/

/-- The packet comes from the output buffer. -/
theorem popOutput_moved (h : s.popOutput = some s') : Moved s s' [] ∧ s'.receiver = s.receiver := by
  unfold popOutput at h
  split at h
  · next hnone =>
    obtain ⟨⟨p, outputBuffer⟩, hpop, h⟩ := Option.bind_eq_some_iff.mp h
    obtain rfl := Option.some.inj h
    refine ⟨⟨fun log => ?_, rfl, rfl, rfl⟩, rfl⟩
    rw [List.append_nil]
    refine moves_congr .refl rfl ?_
    unfold items
    rw [queueItems_pop hpop, hnone]
    simp only [transmitItems]
    abel
  · cases h

/-- The packet is sent, and destroyed. -/
theorem transmitPacket_moved {es : List Event} (h : s.transmitPacket = some (s', es)) :
    Moved s s' es ∧ s'.receiver = s.receiver ∧
      ∃ p, s.transmit = some p ∧ es = [.sent p.packetId p.egressPort p.bytes] := by
  unfold transmitPacket at h
  split at h
  · cases h
  · next p hsome =>
    obtain ⟨rfl, rfl⟩ := Prod.mk.inj (Option.some.inj h)
    refine ⟨⟨fun log => ?_, rfl, rfl, rfl⟩, rfl, p, hsome, rfl⟩
    refine (moves_congr (moves_turn (.sent (p := p))) ?_ rfl).trans
      (moves_destroy .spent p s.pool)
    unfold items
    rw [hsome]
    simp only [transmitItems]
    abel

end SimpleSwitch

end P4Bricks
