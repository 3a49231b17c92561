import P4Bricks.SimpleSwitch.Program
/-!
# What the parts of the switch do to one packet

One lemma for each function of a program: what it leaves of a packet, that its
header vector stays one of the program's, and, for what is written before a
parser, that it stays clear.
-/

namespace P4Bricks

open Parsing

namespace Phv

/-- A header vector as the parser wants it: no header has its flag, no union a
choice, and the stacks are empty. -/
structure Clear (phv : Phv) : Prop where
  flag : ∀ h, phv.flag h = false
  choice : ∀ u, phv.choice u = none
  headerStacks : ∀ st ∈ phv.headerStacks, st.next = 0
  headerUnionStacks : ∀ st ∈ phv.headerUnionStacks, st.next = 0

variable {phv phv' : Phv}

/-- A field that is written is no flag, -/
theorem Clear.putField (h : phv.Clear) (dst : ℕ × ℕ) (f : Field) : (Parsing.putField phv dst f).Clear where
  flag g := by
    rw [← h.flag g]
    unfold Parsing.putField
    exact flag_modifyHeader_of_eq (f := fun hdr =>
      { hdr with fields := hdr.fields.modify dst.2 fun _ => f }) (fun _ _ => rfl) g
  choice := h.choice
  headerStacks := h.headerStacks
  headerUnionStacks := h.headerUnionStacks

/-- and metadata have no flag to raise. -/
theorem Clear.resetMetadata (h : phv.Clear) : phv.resetMetadata.Clear where
  flag g := by
    rw [← h.flag g]
    simp only [Phv.flag, Phv.resetMetadata, List.getElem?_map, Option.map_map]
    congr 1
    refine congrArg (Option.map · _) (funext fun x => ?_)
    simp only [Function.comp_apply]
    split
    · rfl
    · rfl
  choice := h.choice
  headerStacks := h.headerStacks
  headerUnionStacks := h.headerUnionStacks

end Phv

namespace PhvFactory

variable {F : PhvFactory} {phv : Phv}

/-- A new header vector is clear. -/
theorem create_clear (hF : F.WellFormed) : F.create.Clear where
  flag h := by
    unfold Phv.flag
    cases hx : F.create.headers[h]? with
    | none => rfl
    | some x =>
      obtain ⟨desc, -, heq⟩ := create_header hF hx
      have hvalid := congrArg Header.valid heq
      exact hvalid
  choice u := by
    simp only [Phv.choice, (create_made hF).headerUnions, List.getElem?_map]
    cases F.headerUnionDescs[u]? <;> rfl
  headerStacks st hst := by
    rw [(create_stacks F).1] at hst
    obtain ⟨_, -, rfl⟩ := List.mem_map.mp hst
    rfl
  headerUnionStacks st hst := by
    rw [(create_stacks F).2] at hst
    obtain ⟨_, -, rfl⟩ := List.mem_map.mp hst
    rfl

/-- So is one that was given back. -/
theorem Reaches.clear (hF : F.WellFormed) (h : F.Reaches phv) :
    phv.reset.resetHeaderStacks.Clear := by
  obtain ⟨hflag, hchoice⟩ := Phv.reset_cleared ((create_joined hF).congr (h.layout hF).1)
    (h.layout hF).2
  refine ⟨hflag, hchoice, fun st hst => ?_, fun st hst => ?_⟩
  · obtain ⟨_, -, rfl⟩ := List.mem_map.mp hst
    rfl
  · obtain ⟨_, -, rfl⟩ := List.mem_map.mp hst
    rfl

/-- The resets are operations of header vectors: of the counts of stacks, -/
theorem Reaches.resetHeaderStacks (h : F.Reaches phv) : F.Reaches phv.resetHeaderStacks :=
  .op h (show Phv.Op.resetHeaderStacks.run _ = .ok phv.resetHeaderStacks from rfl)

/-- and of the metadata. -/
theorem Reaches.resetMetadata (h : F.Reaches phv) : F.Reaches phv.resetMetadata :=
  .op h (show Phv.Op.resetMetadata.run _ = .ok phv.resetMetadata from rfl)

end PhvFactory

namespace SimpleSwitch

variable {F : PhvFactory} {phv phv' src : Phv}

/-! ## Fields -/

/-- A write of a field that succeeds is one operation of the vector, -/
theorem setField_eq_some {dst : FieldRef} {v : ℤ} (h : setField phv dst v = some phv') :
    (Phv.Op.set dst v).run phv = .ok phv' := toOption_eq_some h

/-- so that what it leaves is reached, -/
theorem setField_reaches {dst : FieldRef} {v : ℤ} (hphv : F.Reaches phv)
    (h : setField phv dst v = some phv') : F.Reaches phv' := .op hphv (setField_eq_some h)

/-- with no header valid where none was; -/
theorem setField_clear {dst : FieldRef} {v : ℤ} (hphv : phv.Clear)
    (h : setField phv dst v = some phv') : phv'.Clear := by
  obtain ⟨f, -, hrun⟩ := bind_eq_ok (setField_eq_some h)
  obtain ⟨g, -, hrun⟩ := bind_eq_ok hrun
  obtain rfl := Except.ok.inj hrun
  exact hphv.putField dst g

/-- and so with a field that need not be there, -/
theorem setIfHas_reaches {dst : Option FieldRef} {v : ℤ} (hphv : F.Reaches phv)
    (h : setIfHas phv dst v = some phv') : F.Reaches phv' := by
  cases dst with
  | none =>
    obtain rfl := Option.some.inj h
    exact hphv
  | some dst => exact setField_reaches hphv h

/-- valid or not. -/
theorem setIfHas_clear {dst : Option FieldRef} {v : ℤ} (hphv : phv.Clear)
    (h : setIfHas phv dst v = some phv') : phv'.Clear := by
  cases dst with
  | none =>
    obtain rfl := Option.some.inj h
    exact hphv
  | some dst => exact setField_clear hphv h

/-- Fields are copied into the vector one write at a time, -/
theorem copyFieldsBetweenPhvs_reaches {members : List FieldListMember} (hphv : F.Reaches phv)
    (h : copyFieldsBetweenPhvs phv src members = some phv') : F.Reaches phv' := by
  induction members generalizing phv with
  | nil =>
    obtain rfl := Option.some.inj h
    exact hphv
  | cons m members ih =>
    cases m with
    | constant value bitwidth => exact ih hphv h
    | field header offset =>
      obtain ⟨f, -, hf⟩ := Option.bind_eq_some_iff.mp h
      obtain ⟨phv₁, hset, hrest⟩ := Option.bind_eq_some_iff.mp hf
      exact ih (setField_reaches hphv hset) hrest

/-- and no header becomes valid by it. -/
theorem copyFieldsBetweenPhvs_clear {members : List FieldListMember} (hphv : phv.Clear)
    (h : copyFieldsBetweenPhvs phv src members = some phv') : phv'.Clear := by
  induction members generalizing phv with
  | nil =>
    obtain rfl := Option.some.inj h
    exact hphv
  | cons m members ih =>
    cases m with
    | constant value bitwidth => exact ih hphv h
    | field header offset =>
      obtain ⟨f, -, hf⟩ := Option.bind_eq_some_iff.mp h
      obtain ⟨phv₁, hset, hrest⟩ := Option.bind_eq_some_iff.mp hf
      exact ih (setField_clear hphv hset) hrest

variable {o : Program} {p p' : Packet}

/-- What a copy carries of its packet is written into the new vector -/
theorem carry_reaches {fieldListId : ℤ} {copyType : PktInstanceType} (hphv : F.Reaches phv)
    (h : o.carry phv src fieldListId copyType = some phv') : F.Reaches phv' := by
  obtain ⟨members, -, h⟩ := Option.bind_eq_some_iff.mp h
  obtain ⟨phv₁, hcopy, hset⟩ := Option.bind_eq_some_iff.mp h
  exact setField_reaches (copyFieldsBetweenPhvs_reaches hphv hcopy) hset

/-- and makes no header valid. -/
theorem carry_clear {fieldListId : ℤ} {copyType : PktInstanceType} (hphv : phv.Clear)
    (h : o.carry phv src fieldListId copyType = some phv') : phv'.Clear := by
  obtain ⟨members, -, h⟩ := Option.bind_eq_some_iff.mp h
  obtain ⟨phv₁, hcopy, hset⟩ := Option.bind_eq_some_iff.mp h
  exact setField_clear (copyFieldsBetweenPhvs_clear hphv hcopy) hset

/-! ## One packet, changed -/

/-- The same packet as far as its number and the way it came in go. -/
structure SameOrigin (p p' : Packet) : Prop where
  packetId : p'.packetId = p.packetId
  ingressPort : p'.ingressPort = p.ingressPort
  ingressLength : p'.ingressLength = p.ingressLength

theorem SameOrigin.refl (p : Packet) : SameOrigin p p := ⟨rfl, rfl, rfl⟩

theorem SameOrigin.trans {p'' : Packet} (h : SameOrigin p p') (h' : SameOrigin p' p'') :
    SameOrigin p p'' :=
  ⟨h'.packetId.trans h.packetId, h'.ingressPort.trans h.ingressPort,
    h'.ingressLength.trans h.ingressLength⟩

/-- The packet is the same, and its header vector is one of the factory's if it
was before. -/
structure Altered (F : PhvFactory) (p p' : Packet) : Prop where
  origin : SameOrigin p p'
  reaches : F.Reaches p.phv → F.Reaches p'.phv

theorem Altered.refl (F : PhvFactory) (p : Packet) : Altered F p p := ⟨.refl p, id⟩

theorem Altered.trans {p'' : Packet} (h : Altered F p p') (h' : Altered F p' p'') :
    Altered F p p'' := ⟨h.origin.trans h'.origin, fun hp => h'.reaches (h.reaches hp)⟩

/-- A write of a field alters the packet in its fields only. -/
theorem Altered.setField {dst : FieldRef} {v : ℤ} (h : setField p.phv dst v = some phv') :
    Altered F p (p.withPhv phv') := ⟨⟨rfl, rfl, rfl⟩, fun hp => setField_reaches hp h⟩

/-- **A primitive** changes neither the buffer nor the port. -/
theorem Primitive.run_altered {op : Primitive} (h : op.run p = some p') :
    Altered F p p' ∧ p'.buffer = p.buffer ∧ p'.egressPort = p.egressPort := by
  cases op with
  | truncate n =>
    obtain rfl := Option.some.inj h
    exact ⟨⟨⟨rfl, rfl, rfl⟩, id⟩, rfl, rfl⟩
  | other op =>
    obtain ⟨phv, hop, h⟩ := Option.bind_eq_some_iff.mp h
    obtain rfl := Option.some.inj h
    exact ⟨⟨⟨rfl, rfl, rfl⟩, fun hp => .op hp (toOption_eq_some hop)⟩, rfl, rfl⟩
  | addHeader g =>
    obtain ⟨hdr, -, h⟩ := Option.bind_eq_some_iff.mp h
    obtain ⟨phv, hop, h⟩ := Option.bind_eq_some_iff.mp h
    obtain rfl := Option.some.inj h
    split
    · exact ⟨.refl F p, rfl, rfl⟩
    · refine ⟨⟨⟨rfl, rfl, rfl⟩, fun hp => ?_⟩, rfl, rfl⟩
      have hrun : (Phv.Op.addHeader g).run p.phv = .ok phv := toOption_eq_some hop
      exact .op hp hrun
  | removeHeader g =>
    obtain ⟨hdr, -, h⟩ := Option.bind_eq_some_iff.mp h
    obtain ⟨phv, hop, h⟩ := Option.bind_eq_some_iff.mp h
    obtain rfl := Option.some.inj h
    split
    · refine ⟨⟨⟨rfl, rfl, rfl⟩, fun hp => ?_⟩, rfl, rfl⟩
      have hrun : (Phv.Op.removeHeader g).run p.phv = .ok phv := toOption_eq_some hop
      exact .op hp hrun
    · exact ⟨.refl F p, rfl, rfl⟩

/-- **A pipeline** changes neither the buffer nor the port. -/
theorem applyAll_altered {ops : List Primitive} (h : applyAll p ops = some p') :
    Altered F p p' ∧ p'.buffer = p.buffer ∧ p'.egressPort = p.egressPort := by
  induction ops generalizing p with
  | nil =>
    obtain rfl := Option.some.inj h
    exact ⟨.refl F p, rfl, rfl⟩
  | cons op ops ih =>
    obtain ⟨p₁, hop, hrest⟩ := Option.bind_eq_some_iff.mp h
    obtain ⟨halt, hbuffer, hport⟩ := Primitive.run_altered (F := F) hop
    obtain ⟨halt', hbuffer', hport'⟩ := ih hrest
    exact ⟨halt.trans halt', hbuffer'.trans hbuffer, hport'.trans hport⟩

/-! ## The parser and the deparser -/

/-- The run is in a state of the parser, with some of its ops to do. -/
def InStates (q : Parser) (c : Config) : Prop :=
  match c.control with
  | .ops st todo => st ∈ q.states ∧ ∀ op ∈ todo, op ∈ st.parserOps
  | .key st _ _ => st ∈ q.states
  | .done => True

/-- The parser enters states of its own. -/
theorem enter_inStates {q : Parser} {c : Config} {next : Option ℕ} {control : Control}
    (h : q.enter next = .ok control) : InStates q { c with control := control } := by
  cases next with
  | none =>
    obtain rfl := Except.ok.inj h
    trivial
  | some i =>
    obtain ⟨st, hst, h⟩ := bind_eq_ok h
    obtain rfl := Except.ok.inj h
    exact ⟨List.mem_of_getElem? (required_eq_ok hst), fun op hop => hop⟩

/-- **A step of the parser** leaves a header vector of the program. -/
theorem parser_step {ctx : Context} {pkt : Parsing.Packet} {c c' : Config}
    (hin : InStates o.parser c) (hphv : o.factory.Reaches c.phv)
    (h : o.parser.step ctx pkt c = .ok c') :
    InStates o.parser c' ∧ o.factory.Reaches c'.phv := by
  obtain ⟨s, control⟩ := c
  cases control with
  | done =>
    obtain rfl := Except.ok.inj h
    exact ⟨trivial, hphv⟩
  | key st todo key =>
    cases todo with
    | nil =>
      obtain ⟨next, -, h⟩ := bind_eq_ok h
      obtain ⟨control, henter, h⟩ := bind_eq_ok h
      obtain rfl := Except.ok.inj h
      exact ⟨enter_inStates (c := ⟨s, .key st [] key⟩) henter, hphv⟩
    | cons e todo =>
      obtain ⟨key', -, h⟩ := bind_eq_ok h
      obtain rfl := Except.ok.inj h
      exact ⟨hin, hphv⟩
  | ops st todo =>
    cases todo with
    | nil =>
      obtain ⟨hst, -⟩ := hin
      simp only [Parser.step] at h
      split at h
      · obtain ⟨control, henter, h⟩ := bind_eq_ok h
        obtain rfl := Except.ok.inj h
        exact ⟨enter_inStates (c := ⟨s, .ops st []⟩) henter, hphv⟩
      · obtain rfl := Except.ok.inj h
        exact ⟨hst, hphv⟩
    | cons op todo =>
      obtain ⟨hst, hops⟩ := hin
      obtain ⟨s', hop, h⟩ := bind_eq_ok h
      obtain rfl := Except.ok.inj h
      refine ⟨⟨hst, fun op' hop' => hops op' (List.mem_cons_of_mem _ hop')⟩, ?_⟩
      -- What a method call leaves is an assumption of the objects; every other op is an operation
      -- of the vector.
      by_cases hcall : ∃ action, op = .methodCall action
      · obtain ⟨action, rfl⟩ := hcall
        obtain ⟨⟨phv', registers'⟩, hexec, hop⟩ := bind_eq_ok hop
        obtain rfl := Except.ok.inj hop
        exact o.calls st hst action (hops _ List.mem_cons_self) _ _ _ _ hphv (required_eq_ok hexec)
      · have hrun : (Phv.Op.parse ctx pkt s.registers s.bytesParsed op).run s.phv = .ok s'.phv := by
          cases op with
          | methodCall action => exact absurd ⟨action, rfl⟩ hcall
          | _ => simp only [Phv.Op.run, hop]; rfl
        exact .op hphv hrun

/-- A run of the parser leaves a vector that is reached. -/
theorem parser_finish {ctx : Context} {pkt : Parsing.Packet} {n : ℕ} {c c' : Config}
    (hin : InStates o.parser c) (hphv : o.factory.Reaches c.phv)
    (h : o.parser.finish ctx pkt n c = some c') : o.factory.Reaches c'.phv := by
  induction n generalizing c with
  | zero =>
    unfold Parser.finish at h
    split at h
    · obtain rfl := Option.some.inj h
      exact hphv
    · cases h
  | succ n ih =>
    unfold Parser.finish at h
    split at h
    · next c₁ hstep =>
      obtain ⟨hin', hphv'⟩ := parser_step hin hphv hstep
      exact ih hin' hphv' h
    · obtain rfl := Option.some.inj h
      exact hphv
    · obtain rfl := Option.some.inj h
      exact hphv
    all_goals cases h

/-- **The parser** takes bytes off the buffer, and keeps the port. -/
theorem parse_altered {n : ℕ} {registers : Registers} (h : o.parse n registers p = some p') :
    Altered o.factory p p' ∧ p'.buffer.restoreState p.buffer.saveState = p.buffer ∧
      p'.egressPort = p.egressPort := by
  obtain ⟨c, hstart, h⟩ := Option.bind_eq_some_iff.mp h
  obtain ⟨c', hfinish, h⟩ := Option.bind_eq_some_iff.mp h
  obtain ⟨buffer, hpop, h⟩ := Option.bind_eq_some_iff.mp h
  obtain rfl := Option.some.inj h
  refine ⟨⟨⟨rfl, rfl, rfl⟩, fun hp => ?_⟩,
    PacketBuffer.restoreState_pop (toOption_eq_some hpop), rfl⟩
  obtain ⟨control, henter, hc⟩ := bind_eq_ok (toOption_eq_some hstart)
  obtain rfl := Except.ok.inj hc
  exact parser_finish (enter_inStates (c := ⟨⟨p.phv, registers, 0⟩, .done⟩) henter) hp hfinish

/-- **The deparser** keeps the port, and its checksums keep the program's header
vectors. -/
theorem deparse_altered (h : o.deparse p = some p') :
    Altered o.factory p p' ∧ p'.egressPort = p.egressPort := by
  obtain ⟨buffer, -, h⟩ := Option.bind_eq_some_iff.mp h
  obtain rfl := Option.some.inj h
  refine ⟨⟨⟨rfl, rfl, rfl⟩, fun hp => ?_⟩, rfl⟩
  have hall : ∀ (updates : List (Phv → ByteContainer → Phv)) (phv : Phv),
      (∀ update ∈ updates, update ∈ o.deparser.checksums) → o.factory.Reaches phv →
        o.factory.Reaches (updates.foldl (fun phv update => update phv p.buffer.data) phv) := by
    intro updates
    induction updates with
    | nil => exact fun _ _ hphv => hphv
    | cons update updates ih =>
      intro phv hmem hphv
      exact ih _ (fun u hu => hmem u (List.mem_cons_of_mem _ hu))
        (o.updates update (hmem update List.mem_cons_self) phv _ hphv)
  exact hall _ _ (fun _ hu => hu) hp

end SimpleSwitch

end P4Bricks
