import P4Bricks.SimpleSwitch.HeaderVectors
/-!
# Where packets come from

A packet is resubmitted, cloned, replicated and recirculated, and each copy keeps
the number, the port and the length of the packet it was made from. Numbers are
given in the order of reception, and 2³² packets have different ones. So whatever
is in the switch, or was sent, comes from one packet that was received before, the
only one of its number until there are more; and whenever a parser starts, it starts
with bytes that were received, or recirculated, under that number.
-/

namespace P4Bricks

open Parsing Queueing

namespace SimpleSwitch

variable {s s' : SimpleSwitch} {log es : List Event} {l : Label}

/-! ## The numbers of packets -/

/-- The number a packet is received under. -/
def Event.receivedId : Event → Option ℕ
  | .received id _ _ => some id
  | _ => none

/-- What happens to packets that are there is no reception. -/
theorem receivedIds_of_moves {F : PhvFactory} {b b' : Custody.Books Item Phv Event}
    (h : Custody.Moves (rules F) b b') :
    b'.log.filterMap Event.receivedId = b.log.filterMap Event.receivedId := by
  induction h with
  | refl => rfl
  | tail _ hmove ih =>
    rw [← ih]
    cases hmove with
    | turn hturns =>
      rw [List.filterMap_append]
      cases hturns <;> exact List.append_nil _
    | copy _ hcopied =>
      rw [List.filterMap_append]
      cases hcopied <;> exact List.append_nil _
    | death => rfl

/-- A step gives the next number to the packet it receives, if it receives one. -/
theorem receivedIds_of_step (hi : Inv s log) (h : s.step l = some (s', es)) :
    es.filterMap Event.receivedId = [] ∧ s'.pktId = s.pktId ∨
      es.filterMap Event.receivedId = [packetIdOf s.pktId] ∧ s'.pktId = s.pktId + 1 := by
  by_cases hc : l.thread = .controlPlane
  · obtain ⟨rfl, cxt, orders, queuesInfo, mirroringMap, pre, rfl, -⟩ := controlPlane_step h hc
    exact .inl ⟨rfl, rfl⟩
  by_cases ht : l.thread = .receiver
  · by_cases hnew : ∃ memory ts, l = .newPacket memory ts
    · obtain ⟨memory, ts, rfl⟩ := hnew
      obtain ⟨-, -, -, ⟨port, data, -, rfl⟩, -, -, hid⟩ := newPacket_birth rfl h log
      exact .inr ⟨rfl, hid⟩
    by_cases hpush : l = .pushInput
    · obtain ⟨hs, rfl⟩ := quiet_eq_some (hpush ▸ h)
      exact .inl ⟨rfl, (pushInput_moved hi.inputBlocks hs).1.pktId⟩
    obtain ⟨rfl, receiver, w, rfl, -⟩ := receiver_step h ht
      (fun memory ts heq => hnew ⟨memory, ts, heq⟩) hpush
    exact .inl ⟨rfl, rfl⟩
  by_cases hswap : l.thread = .swapper
  · obtain ⟨rfl, cxt, pool, ongoingSwap, orders, receiver, rfl, -⟩ := swapper_step h hswap
    exact .inl ⟨rfl, rfl⟩
  · have hm := hi.step_moved h ht hswap hc
    exact .inl ⟨receivedIds_of_moves (hm.moves []), hm.pktId⟩

/-- How many packets were received. -/
def receptions (log : List Event) : ℕ := (log.filterMap Event.receivedId).length

/-- The number of the packet that is received after `n` others. -/
def numberOf (n : ℕ) : ℕ := packetIdOf (Int32.ofNat n)

/-- The first 2³² packets have different numbers. -/
theorem numberOf_inj {m n : ℕ} (hm : m < 2 ^ 32) (hn : n < 2 ^ 32) (h : numberOf m = numberOf n) :
    m = n := by
  have hbounds : ∀ x : Int32, -2 ^ 31 ≤ x.toInt ∧ x.toInt < 2 ^ 31 :=
    fun x => ⟨x.le_toInt, x.toInt_lt⟩
  have hint : (Int32.ofNat m).toInt = (Int32.ofNat n).toInt := by
    have hbm := hbounds (Int32.ofNat m)
    have hbn := hbounds (Int32.ofNat n)
    unfold numberOf packetIdOf at h
    omega
  rw [Int32.toInt_ofNat', Int32.toInt_ofNat'] at hint
  have hmod : (m : ℤ) % Int32.size = n % Int32.size := by
    rw [← Int.bmod_emod, hint, Int.bmod_emod]
  simp only [Int32.size] at hmod
  omega

variable {maxPort : ℕ} {enableSwap : Bool} {objects : Program} {pktDelay : ℕ → ℕ} {now : ℕ}
  {labels : List Label}

/-- **Packets are numbered in the order of reception**, from zero on. -/
theorem received_ids (h : RunsTo maxPort enableSwap objects pktDelay now labels s log) :
    log.filterMap Event.receivedId = (List.range (receptions log)).map numberOf ∧
      s.pktId = Int32.ofNat (receptions log) := by
  refine ((inv_create _ _ _ _ _).run_keeps
    (fun s log => log.filterMap Event.receivedId = (List.range (receptions log)).map numberOf ∧
      s.pktId = Int32.ofNat (receptions log)) ⟨rfl, rfl⟩ ?_ h).2
  intro s log l s' es hi hids hs'
  obtain ⟨hids, hid⟩ := hids
  rcases receivedIds_of_step hi hs' with ⟨hnone, hid'⟩ | ⟨hone, hid'⟩
  · have hcount : receptions (log ++ es) = receptions log := by
      rw [receptions, List.filterMap_append, hnone, List.append_nil, receptions]
    rw [hcount, List.filterMap_append, hnone, List.append_nil]
    exact ⟨hids, hid'.trans hid⟩
  · have hcount : receptions (log ++ es) = receptions log + 1 := by
      rw [receptions, List.filterMap_append, hone, List.length_append, receptions]
      rfl
    rw [hcount, List.filterMap_append, hone, List.range_succ, List.map_append, hids]
    refine ⟨?_, ?_⟩
    · rw [hid]
      rfl
    · rw [hid', hid, Int32.ofNat_add]
      rfl

/-- Under one number one packet was received, up to 2³² receptions. -/
theorem received_once (h : RunsTo maxPort enableSwap objects pktDelay now labels s log)
    (hfew : receptions log ≤ 2 ^ 32) {id i j : ℕ} {port port' : ℤ} {data data' : ByteContainer}
    (hi : log[i]? = some (.received id port data))
    (hj : log[j]? = some (.received id port' data')) : i = j := by
  have hnodup : (log.filterMap Event.receivedId).Nodup := by
    rw [(received_ids h).1]
    refine List.Nodup.map_on (fun m hm n hn heq => ?_) List.nodup_range
    rw [List.mem_range] at hm hn
    exact numberOf_inj (by omega) (by omega) heq
  have hdiffer := List.pairwise_iff_getElem.mp (List.pairwise_filterMap.mp hnodup)
  obtain ⟨hilt, hi⟩ := List.getElem?_eq_some_iff.mp hi
  obtain ⟨hjlt, hj⟩ := List.getElem?_eq_some_iff.mp hj
  rcases Nat.lt_trichotomy i j with hlt | heq | hlt
  · exact absurd rfl (hdiffer i j hilt hjlt hlt id (by rw [hi]; rfl) id (by rw [hj]; rfl))
  · exact heq
  · exact absurd rfl (hdiffer j i hjlt hilt hlt id (by rw [hj]; rfl) id (by rw [hi]; rfl))

/-! ## Lineage -/

/-- **What is seen was received.** Whatever is seen of a packet, at any point of any
run, is of one packet that was received under its number at that point or before,
and of no other as long as there were no more than 2³² receptions: it is what is
received, enqueued, sent, or what a recirculation comes from. -/
theorem seen_received (h : RunsTo maxPort enableSwap objects pktDelay now labels s log) {i : ℕ}
    {e : Event} (he : log[i]? = some e) :
    ∃ j port data, j ≤ i ∧ log[j]? = some (.received e.packetId port data) ∧
      (receptions log ≤ 2 ^ 32 → ∀ j' port' data',
        log[j']? = some (.received e.packetId port' data') → j' = j) := by
  obtain ⟨port, data, hmem⟩ := (inv_of_runsTo h).all.log i e he
  obtain ⟨j, hj⟩ := List.mem_iff_getElem?.mp hmem
  rw [List.getElem?_take] at hj
  split_ifs at hj with hlt
  exact ⟨j, port, data, by omega, hj, fun hfew j' port' data' hj' => received_once h hfew hj' hj⟩

set_option maxRecDepth 10000 in
/-- A packet is received after one that is sent. -/
theorem seen_received_wire : ∃ s log,
    RunsTo 8 true wire id 0 (wireReceive [1, 2] ++ wireIngress 3 1 ++ wireEgress [] ++ wireTransmit ++
      wireReceive [3]) s log ∧ log[2]? = some (.sent 0 1 [1, 2]) ∧
        ∃ j port data, j ≤ 2 ∧ log[j]? = some (.received 0 port data) ∧
          (receptions log ≤ 2 ^ 32 → ∀ j' port' data',
            log[j']? = some (.received 0 port' data') → j' = j) := by
  obtain ⟨s, log, h, he⟩ : ∃ s log, RunsTo 8 true wire id 0 (wireReceive [1, 2] ++ wireIngress 3 1 ++
      wireEgress [] ++ wireTransmit ++ wireReceive [3]) s log ∧
        log[2]? = some (.sent 0 1 [1, 2]) := ⟨_, _, rfl, rfl⟩
  exact ⟨s, log, h, he, seen_received h he⟩

/-- **Every packet in the switch comes from one that was received**, whose number,
port and length it has, and from no other as long as there were no more than 2³²
receptions: packets with one number come from one reception. -/
theorem packets_received (h : RunsTo maxPort enableSwap objects pktDelay now labels s log)
    {x : Item} (hx : x ∈ s.items) :
    ∃ (j : ℕ) (data : ByteContainer),
      log[j]? = some (.received x.2.packetId x.2.ingressPort data) ∧
      x.2.ingressLength = Int32.ofNat data.length ∧
      (receptions log ≤ 2 ^ 32 → ∀ j' port' data',
        log[j']? = some (.received x.2.packetId port' data') → j' = j) := by
  obtain ⟨data, hmem, hlength⟩ := ((inv_of_runsTo h).all.items x hx).traced
  obtain ⟨j, hj⟩ := List.mem_iff_getElem?.mp hmem
  exact ⟨j, data, hj, hlength, fun hfew j' port' data' hj' => received_once h hfew hj' hj⟩

/-- The ingress thread resubmits a packet, and has its copy. -/
def wireResubmit : List Label :=
  wireReceive [1, 2] ++ wireIngress 7 1 ++ [.pushResubmit, .popInput]

set_option maxRecDepth 10000 in
theorem packets_received_wire : ∃ s log, RunsTo 8 true wire id 0 wireResubmit s log ∧
    ∃ x ∈ s.items, ∃ (j : ℕ) (data : ByteContainer),
      log[j]? = some (.received x.2.packetId x.2.ingressPort data) ∧
      x.2.ingressLength = Int32.ofNat data.length ∧
      (receptions log ≤ 2 ^ 32 → ∀ j' port' data',
        log[j']? = some (.received x.2.packetId port' data') → j' = j) := by
  obtain ⟨s, log, p, h, hing⟩ : ∃ s log p, RunsTo 8 true wire id 0 wireResubmit s log ∧
      s.ingress = .popped p := ⟨_, _, _, rfl, rfl⟩
  have hx : (.entering, p) ∈ s.items := by
    rw [items_ingress, hing]
    exact Multiset.mem_add.mpr (.inl (Multiset.mem_singleton_self _))
  exact ⟨s, log, h, _, hx, packets_received h hx⟩

/-- **What the parser starts with.** A packet that waits for the ingress thread has
the bytes that were received under its number or that an egress thread sent back
under it; the ingress thread can go back to such bytes while it has the packet,
which it does for a clone and for a resubmission, whatever the parser took off
and the pipeline did. A packet of an egress queue, or with the thread that serves
it, is for the port of that queue. -/
theorem placed (h : RunsTo maxPort enableSwap objects pktDelay now labels s log) (p : Packet) :
    ((.entering, p) ∈ s.items → Entered log p.packetId p.buffer.data) ∧
      (∀ n, (.ingress n, p) ∈ s.items → Entered log p.packetId (p.buffer.restoreState n).data) ∧
        ∀ port, (.egress port, p) ∈ s.items → sizeOfInt p.egressPort = port := by
  have hi := inv_of_runsTo h
  exact ⟨fun hp => (hi.all.items _ hp).placed.1, fun n hp => (hi.all.items _ hp).placed,
    fun port hp => (hi.all.items _ hp).placed⟩

set_option maxRecDepth 10000 in
theorem placed_wire : ∃ s log, RunsTo 8 true wire id 0 wireResubmit s log ∧
    ∃ p, (.entering, p) ∈ s.items ∧ Entered log p.packetId p.buffer.data := by
  obtain ⟨s, log, p, h, hing⟩ : ∃ s log p, RunsTo 8 true wire id 0 wireResubmit s log ∧
      s.ingress = .popped p := ⟨_, _, _, rfl, rfl⟩
  have hp : (.entering, p) ∈ s.items := by
    rw [items_ingress, hing]
    exact Multiset.mem_add.mpr (.inl (Multiset.mem_singleton_self _))
  exact ⟨s, log, h, p, hp, (placed h p).1 hp⟩

end SimpleSwitch

end P4Bricks
