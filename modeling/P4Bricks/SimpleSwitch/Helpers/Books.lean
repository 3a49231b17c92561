import P4Bricks.Queueing.Refinement
import P4Bricks.SimpleSwitch.Helpers.Packets
import P4Bricks.SimpleSwitch.Model
/-!
# The books of the switch

The packets in the switch, each with the place it is at, are items that hold the
header vectors of the pool. `rules` says what may happen to one packet, without
the threads and the queues: it comes in, it is parsed and changed, it is copied,
it is destroyed. `Good` is what the rules keep of every packet.
-/

namespace P4Bricks

open Parsing Queueing

namespace SimpleSwitch

/-! ## Items -/

/-- Where a packet is: on its way to the ingress thread, with it after the parser,
in the egress queue of a port or with the thread that serves it, on its way out,
or only there to be copied and destroyed. -/
inductive Place where
  | entering
  | ingress (packetIn : ℕ)
  | egress (port : ℕ)
  | output
  | spent
  deriving DecidableEq, Repr

abbrev Item := Place × Packet

def Receiver.items : Receiver → Multiset Item
  | .holding p => {(.entering, p)}
  | _ => 0

def Ingress.items : Ingress → Multiset Item
  | .idle => 0
  | .popped p => {(.entering, p)}
  | .applied p packetIn _ | .cloned p packetIn _ => {(.ingress packetIn, p)}
  | .resubmitting p copy => {(.spent, p)} + {(.entering, copy)}
  | .multicasting p _ _ => {(.spent, p)}

def Egress.items : Egress → Multiset Item
  | .idle => 0
  | .popped port p | .applied port p | .cloned port p | .outputting port p => {(.egress port, p)}
  | .recirculating _ p copy => {(.spent, p)} + {(.entering, copy)}

/-- The packets of a queue. -/
def queueItems (place : Place) (q : Queue Packet) : Multiset Item :=
  (q.queue : Multiset Packet).map (place, ·)

/-- An element of an egress queue. -/
def itemOf (qe : QE Packet) : Item := (.egress qe.queueId, qe.e)

/-- The packets in the egress queues. -/
def queuedItems (b : QueueingLogicRL Packet) : Multiset Item :=
  ∑ w ∈ Finset.range b.nbWorkers, (b.workersInfo w).contents.map itemOf

/-- The packets the egress threads have. -/
def egressItems (e : Fin nbEgressThreads → Egress) : Multiset Item := ∑ w, (e w).items

/-- The packet that is transmitted. -/
def transmitItems : Option Packet → Multiset Item
  | none => 0
  | some p => {(.output, p)}

/-- **All packets in the switch.** -/
def items (s : SimpleSwitch) : Multiset Item :=
  s.receiver.items + queueItems .entering s.inputBuffer + s.ingress.items +
    queuedItems s.egressBuffers + egressItems s.egress + queueItems .output s.outputBuffer +
    transmitItems s.transmit

/-- The books of the switch. -/
def books (s : SimpleSwitch) (log : List Event) : Custody.Books Item Phv Event :=
  ⟨s.items, s.pool.phvs, s.pool.count, log⟩

/-! ## Rules -/

variable (F : PhvFactory)

/-- A packet is received. -/
inductive Born : Phv → Item → Event → Prop where
  | mk {phv : Phv} {p : Packet} (hlength : p.ingressLength = Int32.ofNat p.buffer.data.length)
      (hreaches : F.Reaches phv → F.Reaches p.phv) (hclear : phv.Clear → p.phv.Clear) :
      Born phv (.entering, p) (.received p.packetId p.ingressPort p.buffer.data)

/-- A packet goes on. -/
inductive Turns : Item → Item → List Event → Prop where
  /-- The parser takes bytes off, which can be put back. -/
  | parsed {p p'} (h : Altered F p p')
      (hbuffer : p'.buffer.restoreState p.buffer.saveState = p.buffer) :
      Turns (.entering, p) (.ingress p.buffer.saveState, p') []
  | inIngress {n p p'} (h : Altered F p p') (hbuffer : p'.buffer = p.buffer) :
      Turns (.ingress n, p) (.ingress n, p') []
  | enqueued {n p p'} (h : Altered F p p') :
      Turns (.ingress n, p) (.egress (sizeOfInt p'.egressPort), p') []
  | inEgress {port p p'} (h : Altered F p p') (hport : p'.egressPort = p.egressPort) :
      Turns (.egress port, p) (.egress port, p') []
  /-- The queue of its port accepts the packet. -/
  | accepted {port p} : Turns (.egress port, p) (.egress port, p) [.enqueued p.packetId port]
  | output {port p} : Turns (.egress port, p) (.output, p) []
  | sent {p} : Turns (.output, p) (.spent, p) [.sent p.packetId p.egressPort p.bytes]
  | spent {place p p'} (h : Altered F p p') : Turns (place, p) (.spent, p') []

/-- A packet is copied into one with this header vector. -/
inductive Copied : Phv → Item → Item → List Event → Prop where
  /-- A resubmission starts again with the bytes the parser was given. -/
  | resubmit {phv n p p'} (h : SameOrigin p p')
      (hreaches : F.Reaches phv → F.Reaches p.phv → F.Reaches p'.phv)
      (hclear : phv.Clear → p'.phv.Clear)
      (hdata : p'.buffer.data = (p.buffer.restoreState n).data) :
      Copied phv (.ingress n, p) (.entering, p') []
  /-- A recirculation starts with the bytes of the deparsed packet. -/
  | recirculate {phv place p p'} (h : SameOrigin p p')
      (hreaches : F.Reaches phv → F.Reaches p.phv → F.Reaches p'.phv)
      (hclear : phv.Clear → p'.phv.Clear) :
      Copied phv (place, p) (.entering, p') [.recirculated p'.packetId p'.buffer.data]
  /-- A clone or a replica goes to an egress queue. -/
  | enqueued {phv place p p'} (h : SameOrigin p p')
      (hreaches : F.Reaches phv → F.Reaches p.phv → F.Reaches p'.phv) :
      Copied phv (place, p) (.egress (sizeOfInt p'.egressPort), p') []

/-- What may happen to the packets of a program whose header vectors the factory
makes. -/
def rules : Custody.Rules Item Phv Event where
  make := F.create
  resource x := x.2.phv
  clean phv := phv.reset.resetHeaderStacks
  born := Born F
  turns := Turns F
  copied := Copied F

/-! ## What the rules keep -/

def Event.packetId : Event → ℕ
  | received id _ _ | enqueued id _ | recirculated id _ | sent id _ _ => id

/-- These bytes entered the switch under this number: they were received, or
an egress thread sent them back. -/
def Entered (log : List Event) (packetId : ℕ) (data : ByteContainer) : Prop :=
  (∃ port, .received packetId port data ∈ log) ∨ .recirculated packetId data ∈ log

/-- The packet, or the one it was copied from, was received. -/
def Traced (log : List Event) (p : Packet) : Prop :=
  ∃ data, .received p.packetId p.ingressPort data ∈ log ∧
    p.ingressLength = Int32.ofNat data.length

/-- What is known of a packet at a place. -/
def Placed (log : List Event) (p : Packet) : Place → Prop
  | .entering => Entered log p.packetId p.buffer.data ∧ p.phv.Clear
  | .ingress n => Entered log p.packetId (p.buffer.restoreState n).data
  | .egress port => sizeOfInt p.egressPort = port
  | .output | .spent => True

structure Good (log : List Event) (x : Item) : Prop where
  traced : Traced log x.2
  reaches : F.Reaches x.2.phv
  placed : Placed log x.2 x.1

/-- A header vector of the pool. -/
def Pooled (phv : Phv) : Prop := F.Reaches phv ∧ phv.Clear

/-- Whatever is seen of a packet, one of its number was received before. -/
def LogTraced (log : List Event) : Prop :=
  ∀ i e, log[i]? = some e → ∃ port data, .received e.packetId port data ∈ log.take (i + 1)

variable {F} {log : List Event} {p p' : Packet}

theorem Traced.append (h : Traced log p) (es : List Event) : Traced (log ++ es) p := by
  obtain ⟨data, hmem, hlen⟩ := h
  exact ⟨data, List.mem_append_left _ hmem, hlen⟩

theorem Traced.same (h : Traced log p) (hs : SameOrigin p p') : Traced log p' := by
  obtain ⟨data, hmem, hlen⟩ := h
  refine ⟨data, ?_, hs.ingressLength.trans hlen⟩
  rwa [hs.packetId, hs.ingressPort]

theorem Entered.append {id : ℕ} {data : ByteContainer} (h : Entered log id data)
    (es : List Event) : Entered (log ++ es) id data := by
  rcases h with ⟨port, hmem⟩ | hmem
  · exact .inl ⟨port, List.mem_append_left _ hmem⟩
  · exact .inr (List.mem_append_left _ hmem)

theorem Placed.append {place : Place} (h : Placed log p place) (es : List Event) :
    Placed (log ++ es) p place := by
  cases place with
  | entering => exact ⟨h.1.append es, h.2⟩
  | ingress n => exact Entered.append h es
  | egress port => exact h
  | output | spent => trivial

theorem LogTraced.nil : LogTraced [] := by
  intro i e he
  rw [List.getElem?_nil] at he
  cases he

/-- One more event of a packet that was received. -/
theorem LogTraced.snoc (h : LogTraced log) {e : Event} {port : ℤ} {data : ByteContainer}
    (he : .received e.packetId port data ∈ log ++ [e]) : LogTraced (log ++ [e]) := by
  intro i e' hi
  rcases Nat.lt_or_ge i log.length with hlt | hge
  · rw [List.getElem?_append_left hlt] at hi
    rw [List.take_append_of_le_length hlt]
    exact h i e' hi
  · rw [List.getElem?_append_right hge] at hi
    rw [List.getElem?_singleton] at hi
    split_ifs at hi
    obtain rfl := Option.some.inj hi
    rw [List.take_of_length_le (by rw [List.length_append, List.length_singleton]; omega)]
    exact ⟨port, data, he⟩

/-- A packet that goes on stays good. -/
theorem Good.turns {x y : Item} {es : List Event} (h : Good F log x) (ht : Turns F x y es) :
    Good F (log ++ es) y := by
  obtain ⟨htraced, hreaches, hplaced⟩ := h
  cases ht with
  | parsed h hbuffer =>
    rw [List.append_nil]
    refine ⟨htraced.same h.origin, h.reaches hreaches, ?_⟩
    change Entered _ _ _
    rw [h.origin.packetId, hbuffer]
    exact hplaced.1
  | inIngress h hbuffer =>
    rw [List.append_nil]
    refine ⟨htraced.same h.origin, h.reaches hreaches, ?_⟩
    change Entered _ _ _
    rw [h.origin.packetId, hbuffer]
    exact hplaced
  | enqueued h =>
    rw [List.append_nil]
    exact ⟨htraced.same h.origin, h.reaches hreaches, rfl⟩
  | inEgress h hport =>
    rw [List.append_nil]
    refine ⟨htraced.same h.origin, h.reaches hreaches, ?_⟩
    change sizeOfInt _ = _
    rw [hport]
    exact hplaced
  | accepted => exact ⟨htraced.append _, hreaches, hplaced⟩
  | output =>
    rw [List.append_nil]
    exact ⟨htraced, hreaches, trivial⟩
  | sent => exact ⟨htraced.append _, hreaches, trivial⟩
  | spent h =>
    rw [List.append_nil]
    exact ⟨htraced.same h.origin, h.reaches hreaches, trivial⟩

/-- A copy of a good packet is good. -/
theorem Good.copied {x y : Item} {phv : Phv} {es : List Event} (h : Good F log x)
    (hphv : Pooled F phv) (hc : Copied F phv x y es) : Good F (log ++ es) y := by
  obtain ⟨htraced, hreaches, hplaced⟩ := h
  cases hc with
  | resubmit h hr hclear hdata =>
    rw [List.append_nil]
    refine ⟨htraced.same h, hr hphv.1 hreaches, ?_, hclear hphv.2⟩
    rw [h.packetId, hdata]
    exact hplaced
  | recirculate h hr hclear =>
    refine ⟨(htraced.same h).append _, hr hphv.1 hreaches, .inr ?_, hclear hphv.2⟩
    exact List.mem_append_right _ (List.mem_singleton_self _)
  | enqueued h hr =>
    rw [List.append_nil]
    exact ⟨htraced.same h, hr hphv.1 hreaches, rfl⟩

/-- **The rules keep every packet good.** -/
theorem rules_keep (hF : F.WellFormed) :
    Custody.Keeps (rules F) (Good F) (Pooled F) LogTraced where
  mono log es x h := ⟨h.traced.append es, h.reaches, h.placed.append es⟩
  make := ⟨.create, PhvFactory.create_clear hF⟩
  clean log x h := ⟨.resetHeaderStacks h.reaches.reset, h.reaches.clear hF⟩
  born log phv x e hlog hphv hborn := by
    obtain ⟨hlength, hreaches, hclear⟩ := hborn
    rename_i p
    have hmem : Event.received p.packetId p.ingressPort p.buffer.data ∈
        log ++ [.received p.packetId p.ingressPort p.buffer.data] :=
      List.mem_append_right _ (List.mem_singleton_self _)
    exact ⟨⟨⟨p.buffer.data, hmem, hlength⟩, hreaches hphv.1, .inl ⟨_, hmem⟩, hclear hphv.2⟩,
      hlog.snoc hmem⟩
  turns log x y es hlog hx hturns := by
    refine ⟨hx.turns hturns, ?_⟩
    cases hturns with
    | sent | accepted =>
      obtain ⟨data, hmem, -⟩ := hx.traced
      exact hlog.snoc (List.mem_append_left _ hmem)
    | _ =>
      rw [List.append_nil]
      exact hlog
  copied log phv x y es hlog hx hphv hcopied := by
    have hy := hx.copied hphv hcopied
    refine ⟨hy, ?_⟩
    cases hcopied with
    | recirculate h =>
      obtain ⟨data, hmem, -⟩ := hy.traced
      exact hlog.snoc hmem
    | _ =>
      rw [List.append_nil]
      exact hlog

end SimpleSwitch

end P4Bricks
