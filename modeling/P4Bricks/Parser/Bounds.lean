import P4Bricks.Parser.Helpers.Reads
/-!
# The parser stays inside the packet

Every op makes a check of its own against the recorded length of the packet.
The check is enough where the length of the op is known before anything is
read. It is missing for the terms of a key, it does not count the offset of a
lookahead, and a header that computes the length of its variable field is
checked with the length that field had before. `Covered` says of a state that
the next step is not one of those, or has enough of the packet left.
-/

namespace P4Bricks

namespace Parsing

open Expressions

variable {ctx : Context} {pkt : Packet} {s : State}

/-! ## What is left of the packet -/

/-- The recorded length is not more than there is. A packet that is parsed
again after headers were taken off it still has its first length. -/
def Packet.LengthOk (pkt : Packet) : Prop :=
  0 ≤ pkt.ingressLength.toInt ∧ pkt.ingressLength.toInt ≤ pkt.data.length

/-- The bytes after those parsed. -/
def left (pkt : Packet) (bytesParsed : ℕ) : ℕ := (pkt.ingressLength.toInt - bytesParsed).toNat

/-- What every step keeps. -/
structure State.Inv (pkt : Packet) (s : State) : Prop where
  sized : s.phv.Sized
  parsed : (s.bytesParsed : ℤ) ≤ pkt.ingressLength.toInt

/-- A state that a step leads to: no byte that was parsed is given back. -/
structure State.Follows (pkt : Packet) (s s' : State) : Prop where
  inv : s'.Inv pkt
  le : s.bytesParsed ≤ s'.bytesParsed

theorem left_le_length (hl : pkt.LengthOk) (hi : s.Inv pkt) :
    left pkt s.bytesParsed ≤ (pkt.data.drop s.bytesParsed).length := by
  have h₁ := hl.2
  have h₂ := hi.parsed
  rw [left, List.length_drop]
  omega

theorem available_eq (hi : s.Inv pkt) :
    available pkt s.bytesParsed = left pkt s.bytesParsed := by
  have h₂ := hi.parsed
  have h₃ := pkt.ingressLength.toInt_lt
  rw [available, left, Int.emod_eq_of_lt (by omega) (by omega)]

theorem checkEnough_tooShort (hi : s.Inv pkt) {n : ℕ}
    (h : left pkt s.bytesParsed < n) :
    checkEnough pkt s.bytesParsed n = .error (.core .packetTooShort) := by
  rw [checkEnough, available_eq hi, if_pos h]

theorem checkEnough_inside (hi : s.Inv pkt) (n : ℕ) :
    Inside (checkEnough pkt s.bytesParsed n) fun _ => n ≤ left pkt s.bytesParsed := by
  rw [checkEnough, available_eq hi]
  exact Avoids.ite (fun _ => Avoids.error (by simp)) fun h => Nat.le_of_not_lt h

/-- An advance by what is left at most does not wrap around. -/
theorem advance_bytesParsed (hi : s.Inv pkt) {n : ℕ}
    (hn : n ≤ left pkt s.bytesParsed) : (s.advance n).bytesParsed = s.bytesParsed + n := by
  have h₂ := hi.parsed
  have h₃ := pkt.ingressLength.toInt_lt
  rw [left] at hn
  exact Nat.mod_eq_of_lt (by omega)

theorem advance_follows (hi : s.Inv pkt) {phv : Phv} {n : ℕ} (hs : phv.Sized)
    (hn : n ≤ left pkt s.bytesParsed) : s.Follows pkt ({ s with phv := phv }.advance n) := by
  have hparsed : ({ s with phv := phv }.advance n).bytesParsed = s.bytesParsed + n :=
    advance_bytesParsed hi hn
  have h₂ := hi.parsed
  rw [left] at hn
  exact ⟨⟨hs, by rw [hparsed]; omega⟩, by rw [hparsed]; omega⟩

/-! ## The steps that are not checked enough -/

variable (ctx pkt s)

/-- A header that computes its own length is checked before that is known:
the length is not negative, and there is enough left for it. And no field
without bits starts inside a byte: `generic_extract` reads such a field from
two bytes. -/
def HeaderCovered (h : ℕ) : Prop :=
  ∀ hdr, s.phv.headers[h]? = some hdr → hdr.nbytesPacket ≤ left pkt s.bytesParsed →
    if hdr.isVLHeader then
      EmptyAligned 0 (hdr.fixedPrefix.map Field.nbits) ∧
      ∀ n, hdr.lengthOf (vlLength ctx s.phv s.registers h) (pkt.data.drop s.bytesParsed) = .ok n →
        0 ≤ n ∧ EmptyAligned 0 (hdr.vlWidths n.toNat) ∧
        (hdr.vlWidths n.toNat).sum ≤ 8 * left pkt s.bytesParsed
    else EmptyAligned 0 (Header.wireWidths hdr.fields)

/-- The bytes of a lookahead are there. -/
def LookaheadCovered (l : ParserLookAhead) : Prop :=
  (l.bitwidth = 0 → l.bitOffset = 0) ∧
    8 * l.byteOffset + l.bitOffset + l.bitwidth ≤ 8 * left pkt s.bytesParsed

/-- What an op needs besides its own checks. -/
def ParserOp.Covered : ParserOp → Prop
  | .extract header => HeaderCovered ctx pkt s header
  | .extractVL header e _ =>
    ∀ hdr v, s.phv.headers[header]? = some hdr → evalArith ctx e s.phv s.registers = .ok v →
      hdr.isVLHeader → 0 ≤ ctx.toInt v ∧
        EmptyAligned 0 (hdr.fixedPrefix.map Field.nbits) ∧
        EmptyAligned 0 (hdr.vlWidths (ctx.toInt v).toNat)
  | .extractStack headerStack =>
    ∀ st h, s.phv.headerStacks[headerStack]? = some st → st.getNext = some h →
      HeaderCovered ctx pkt s h
  | .extractUnionStack headerUnionStack headerOffset =>
    ∀ st u un h, s.phv.headerUnionStacks[headerUnionStack]? = some st → st.getNext = some u →
      s.phv.headerUnions[u]? = some un → un.headers[headerOffset]? = some h →
      HeaderCovered ctx pkt s h
  | .setLookahead _ l => l.nbytes ≤ left pkt s.bytesParsed → LookaheadCovered pkt s l
  | _ => True

/-- What the next step needs. -/
def Config.Covered (c : Config) : Prop :=
  match c.control with
  | .ops _ (op :: _) => op.Covered ctx pkt c.toState
  | .key _ (.lookahead l :: _) _ => l.nbytes = 0 ∨ LookaheadCovered pkt c.toState l
  | _ => True

/-! ## What a step asks for -/

/-- The bytes a header that is extracted fills. -/
def headerDemand (h : ℕ) : Option ℕ := do
  let hdr ← s.phv.headers[h]?
  if hdr.isVLHeader then
    match hdr.lengthOf (vlLength ctx s.phv s.registers h) (pkt.data.drop s.bytesParsed) with
    | .ok n => some (((hdr.vlWidths n.toNat).sum + 7) / 8)
    | .error _ => none
  else some hdr.nbytesPacket

def ParserLookAhead.demand (l : ParserLookAhead) : ℕ :=
  (8 * l.byteOffset + l.bitOffset + l.bitwidth + 7) / 8

/-- The bytes an op needs, from where the packet is parsed to. -/
def ParserOp.demand : ParserOp → Option ℕ
  | .extract header => headerDemand ctx pkt s header
  | .extractVL header e _ => do
    let hdr ← s.phv.headers[header]?
    match evalArith ctx e s.phv s.registers with
    | .ok v =>
      if hdr.isVLHeader ∧ ctx.toInt v % 8 = 0 then
        some (((hdr.vlWidths (ctx.toInt v).toNat).sum + 7) / 8)
      else none
    | .error _ => none
  | .extractStack headerStack => do
    let st ← s.phv.headerStacks[headerStack]?
    headerDemand ctx pkt s (← st.getNext)
  | .extractUnionStack headerUnionStack headerOffset => do
    let st ← s.phv.headerUnionStacks[headerUnionStack]?
    let un ← s.phv.headerUnions[← st.getNext]?
    headerDemand ctx pkt s (← un.headers[headerOffset]?)
  | .setLookahead _ l => some l.demand
  | .shift n => some n
  | _ => none

/-- The bytes the next step needs. -/
def Config.demand (c : Config) : Option ℕ :=
  match c.control with
  | .ops _ (op :: _) => op.demand ctx pkt c.toState
  | .key _ (.lookahead l :: _) _ => if l.nbytes = 0 then none else some l.demand
  | _ => none

/-- What the parser should do in every state it reaches: no more of the packet
is parsed than there is, the next step reads nothing outside of the packet,
and when the bytes it needs are not all there, it stops with
`PacketTooShort`. -/
structure StaysInside (p : Parser) (c : Config) : Prop where
  parsed : c.bytesParsed ≤ pkt.data.length
  reads : p.step ctx pkt c ≠ .error .beyond
  tooShort : ∀ n, c.demand ctx pkt = some n → c.bytesParsed + n ≤ pkt.data.length ∨
    p.step ctx pkt c = .error (.core .packetTooShort)

variable {ctx pkt s}

/-! ## Extractions -/

theorem nbytesPacket_inside (phv : Phv) (h : ℕ) :
    Inside (nbytesPacket phv h) fun n => ∃ hdr, phv.headers[h]? = some hdr ∧ n = hdr.nbytesPacket :=
  (required_inside (Q := fun hdr => phv.headers[h]? = some hdr) fun _ h => h).bind
    fun hdr _ h => ⟨hdr, h, rfl⟩

theorem nbytesPacket_congr {phv phv' : Phv} (h : phv'.sizes = phv.sizes) (i : ℕ) :
    nbytesPacket phv' i = nbytesPacket phv i := by
  have hi : phv'.headers[i]?.map Header.sizes = phv.headers[i]?.map Header.sizes := by
    rw [← List.getElem?_map, ← List.getElem?_map]
    exact congrArg (·[i]?) h
  unfold nbytesPacket
  cases h' : phv'.headers[i]? with
  | none =>
    rw [h', Option.map_none, eq_comm, Option.map_eq_none_iff] at hi
    rw [hi]
  | some hdr' =>
    rw [h', Option.map_some, eq_comm, Option.map_eq_some_iff] at hi
    obtain ⟨hdr, hhdr, heq⟩ := hi
    rw [hhdr]
    exact congrArg Except.ok (congrArg Prod.fst heq).symm

theorem vlLength_inside (phv : Phv) (registers : Registers) (h : ℕ) (fields : List Field) :
    Inside (vlLength ctx phv registers h fields) fun _ => True :=
  (required_inside fun _ _ => trivial).bind fun _ _ _ =>
    (required_inside fun _ _ => trivial).bind fun _ _ _ => trivial

/-- A header that was copied is put back and made valid. -/
theorem put_markValid {phv : Phv} (hs : phv.Sized) {h : ℕ} {hdr hdr' : Header} {n : ℕ}
    (hhdr : phv.headers[h]? = some hdr) (hs' : hdr'.Sized) (hn : hdr'.nbytesPacket ≤ n) :
    ((phv.modifyHeader h fun _ => hdr').markValid h).Sized ∧
      ∀ m, nbytesPacket ((phv.modifyHeader h fun _ => hdr').markValid h) h = .ok m → m ≤ n := by
  have hput : (phv.modifyHeader h fun _ => hdr').headers[h]? = some hdr' := by
    rw [Phv.modifyHeader, List.getElem?_modify, hhdr]
    simp
  refine ⟨(hs.put hs').congr (Phv.markValid_sizes _ _), fun m hm => ?_⟩
  rw [nbytesPacket_congr (Phv.markValid_sizes _ _), nbytesPacket, hput] at hm
  cases hm
  exact hn

/-- The advance after a header. -/
theorem advance_inside (hi : s.Inv pkt) {phv : Phv} {h : ℕ} (hs : phv.Sized)
    (hn : ∀ m, nbytesPacket phv h = .ok m → m ≤ left pkt s.bytesParsed) :
    Inside (do .ok ({ s with phv := phv }.advance (← nbytesPacket phv h))) fun s' =>
      s.Follows pkt s' :=
  (nbytesPacket_inside phv h).of_eq.bind fun m _ hm => advance_follows hi hs (hn m hm.1)

/-- **The ops that extract a header of its own length.** -/
theorem extractChecked_inside (hl : pkt.LengthOk) (hi : s.Inv pkt) {h : ℕ}
    (hcov : HeaderCovered ctx pkt s h) :
    Inside (extractChecked ctx pkt s h) fun s' => s.Follows pkt s' := by
  have hlen := left_le_length hl hi
  refine (nbytesPacket_inside s.phv h).bind fun n _ hn => ?_
  obtain ⟨hdr, hhdr, rfl⟩ := hn
  refine (checkEnough_inside hi _).bind fun _ _ henough => ?_
  have hc := hcov hdr hhdr henough
  have hsized : hdr.Sized := hi.sized hdr (List.mem_of_getElem? hhdr)
  refine Avoids.bind (Q := fun phv' => phv'.Sized ∧
    ∀ m, nbytesPacket phv' h = .ok m → m ≤ left pkt s.bytesParsed) ?_ fun phv' _ hphv' => ?_
  · unfold extractHeader
    rw [hhdr]
    refine Avoids.bind (x := extractFieldsOf ctx s.phv s.registers h hdr _)
      (Q := fun hdr' => hdr'.Sized ∧ hdr'.nbytesPacket ≤ left pkt s.bytesParsed) ?_
      fun hdr' _ h' => put_markValid hi.sized hhdr h'.1 h'.2
    refine Avoids.ite (fun hvl => ?_) fun hvl => ?_
    · rw [if_pos hvl] at hc
      have hpre := (hsized.vlWidths_sum_le hvl 0).1
      refine (Header.extractVLCommon_inside hsized hvl (fun _ => vlLength_inside _ _ _ _) hc.1
        (by omega) fun n hn => ?_).mono fun hdr' h' => ?_
      · have := hc.2 n hn
        exact ⟨this.2.1, by omega⟩
      · obtain ⟨hs', n, hn, hbytes⟩ := h'
        have := hc.2 n hn
        exact ⟨hs', by omega⟩
    · rw [if_neg hvl] at hc
      refine (Header.extractFixed_returns hsized hvl hc (by omega)).mono fun hdr' h' => ?_
      exact ⟨hsized.congr h', (congrArg Prod.fst h').trans_le henough⟩
  · exact advance_inside hi hphv'.1 hphv'.2

/-- The bytes `ParserOpExtractVL` checks for, when the length is one. -/
theorem sizeOfInt_add {m : ℕ} {n : ℤ} (hn : 0 ≤ n) : sizeOfInt (m + n / 8) = m + n.toNat / 8 := by
  rw [sizeOfInt, if_pos (by omega)]
  omega

/-- **`ParserOpExtractVL`**: its check counts the given length, and at least
the fields of fixed width. -/
theorem runExtractVL_inside (hl : pkt.LengthOk) (hi : s.Inv pkt) {header maxBytes : ℕ}
    {e : Expression} (hcov : (ParserOp.extractVL header e maxBytes).Covered ctx pkt s) :
    Inside (ParserOp.runExtractVL ctx pkt s header e maxBytes) fun s' => s.Follows pkt s' := by
  have hlen := left_le_length hl hi
  refine (required_inside (Q := fun hdr => s.phv.headers[header]? = some hdr) fun _ h => h).bind
    fun hdr _ hhdr => ?_
  refine Avoids.ite (fun _ => Avoids.error (by simp)) fun hnot => ?_
  have hvl : hdr.isVLHeader := by simpa using hnot
  have hsized : hdr.Sized := hi.sized hdr (List.mem_of_getElem? hhdr)
  refine (required_inside fun _ _ => trivial).of_eq.bind fun v _ hv => ?_
  obtain ⟨hn, halign, halign'⟩ := hcov hdr v hhdr hv.1 hvl
  refine Avoids.ite (fun _ => Avoids.error (by simp)) fun hmod => ?_
  refine (checkEnough_inside hi _).bind fun _ _ henough => ?_
  refine Avoids.ite (fun _ => Avoids.error (by simp)) fun _ => ?_
  rw [sizeOfInt_add hn] at henough
  have hpre := (hsized.vlWidths_sum_le hvl 0).1
  have hsum := (hsized.vlWidths_sum_le hvl (ctx.toInt v).toNat).2
  refine Avoids.bind (Q := fun phv' => phv'.Sized ∧
    ∀ m, nbytesPacket phv' header = .ok m → m ≤ left pkt s.bytesParsed) ?_ fun phv' _ hphv' => ?_
  · unfold extractHeaderVL
    rw [hhdr]
    refine Avoids.bind (x := Header.extractVLCommon _ hdr _)
      (Header.extractVLCommon_inside hsized hvl (fun _ => trivial) halign (by omega) ?_)
      fun hdr' _ h' => ?_
    · intro n hn
      rw [Header.lengthOf_const hn]
      exact ⟨halign', by omega⟩
    · obtain ⟨hs', n, hn, hbytes⟩ := h'
      rw [Header.lengthOf_const hn] at hbytes
      exact put_markValid hi.sized hhdr hs' (by omega)
  · exact advance_inside hi hphv'.1 hphv'.2

/-! ## Every op, and every term of a key -/

theorem peek_inside (hl : pkt.LengthOk) (hi : s.Inv pkt) {l : ParserLookAhead} (res : ByteContainer)
    (hcov : l.nbytes = 0 ∨ LookaheadCovered pkt s l) :
    Inside (l.peek (pkt.data.drop s.bytesParsed) res) fun _ => True := by
  have hlen := left_le_length hl hi
  refine Avoids.ite (fun _ => Avoids.error (by simp)) fun hn => ?_
  obtain ⟨hempty, hfits⟩ := hcov.resolve_left hn
  refine (genericExtract_returns hempty ?_).bind fun _ _ _ => trivial
  rw [List.length_drop]
  omega

/-- The state after an op that leaves the sizes and the offset alone. -/
theorem State.Follows.withPhv {s' : State} (hf : s.Follows pkt s') {phv : Phv} (hs : phv.Sized) :
    s.Follows pkt { s' with phv := phv } := ⟨⟨hs, hf.inv.parsed⟩, hf.le⟩

theorem State.Inv.follows (hi : s.Inv pkt) : s.Follows pkt s := ⟨hi, le_rfl⟩

theorem State.Inv.withPhv (hi : s.Inv pkt) {phv : Phv} (hs : phv.Sized) :
    s.Follows pkt { s with phv := phv } := hi.follows.withPhv hs

/-- A field that is set to a number. -/
theorem set_inside (hi : s.Inv pkt) {dst : ℕ × ℕ} {f : Field}
    (hf : s.phv.getField dst.1 dst.2 = some f) (v : ℤ) :
    Inside (do .ok { s with phv := putField s.phv dst (← required (f.set v)) })
      fun s' => s.Follows pkt s' :=
  (required_inside (Q := fun g => f.set v = some g) fun _ h => h).bind fun _ _ hg =>
    hi.withPhv (hi.sized.congr (putField_sizes hf (Field.set_size hg)))

theorem runSetField_inside (hi : s.Inv pkt) (dst src : ℕ × ℕ) :
    Inside (ParserOp.runSetField s dst src) fun s' => s.Follows pkt s' := by
  refine (required_inside (Q := fun f => s.phv.getField dst.1 dst.2 = some f) fun _ h => h).bind
    fun f _ hf => ?_
  refine (required_inside fun _ _ => trivial).bind fun g _ _ => ?_
  refine Avoids.ite (fun hvl => ?_) fun _ => ?_
  · refine Avoids.ite (fun _ => ?_) fun _ => Avoids.error (by simp)
    exact (assignVL_inside hi.sized g hf hvl).bind fun phv' _ hs => hi.withPhv hs
  · exact set_inside hi hf _

theorem runSetLookahead_inside (hl : pkt.LengthOk) (hi : s.Inv pkt) {dst : ℕ × ℕ}
    {l : ParserLookAhead} (hcov : (ParserOp.setLookahead dst l).Covered ctx pkt s) :
    Inside (ParserOp.runSetLookahead pkt s dst l) fun s' => s.Follows pkt s' := by
  have hlen := left_le_length hl hi
  refine (checkEnough_inside hi _).bind fun _ _ henough => ?_
  obtain ⟨hempty, hfits⟩ := hcov henough
  refine (required_inside (Q := fun f => s.phv.getField dst.1 dst.2 = some f) fun _ h => h).bind
    fun f _ hf => ?_
  refine Avoids.ite (fun hw => ?_) fun _ => ?_
  · refine (Field.extract_returns (hw ▸ hempty) ?_).bind fun f' hf' _ => ?_
    · rw [List.length_drop]
      omega
    · exact hi.withPhv (hi.sized.congr (putField_sizes hf (Field.extract_size hf')))
  · refine (peek_inside hl hi [] (.inr ⟨hempty, hfits⟩)).bind fun bc _ _ => ?_
    exact set_inside hi hf _

/-- **An op that is covered reads inside the packet**, and keeps what every
step keeps. -/
theorem run_inside (hl : pkt.LengthOk) (hi : s.Inv pkt) {op : ParserOp}
    (hcov : op.Covered ctx pkt s) : Inside (op.run ctx pkt s) fun s' => s.Follows pkt s' := by
  cases op with
  | extract header => exact extractChecked_inside hl hi hcov
  | extractVL header e maxBytes => exact runExtractVL_inside hl hi hcov
  | extractStack headerStack =>
    refine (required_inside (Q := fun st => s.phv.headerStacks[headerStack]? = some st)
      fun _ h => h).bind fun st _ hst => ?_
    refine Avoids.ite (fun _ => Avoids.error (by simp)) fun _ => ?_
    refine (required_inside (Q := fun h => st.getNext = some h) fun _ h => h).bind
      fun h _ hh => ?_
    refine (extractChecked_inside hl hi (hcov st h hst hh)).bind fun s' _ hi' => ?_
    exact hi'.withPhv (hi'.inv.sized.congr (pushBackHeader_sizes _ _))
  | extractUnionStack headerUnionStack headerOffset =>
    refine (required_inside (Q := fun st => s.phv.headerUnionStacks[headerUnionStack]? = some st)
      fun _ h => h).bind fun st _ hst => ?_
    refine Avoids.ite (fun _ => Avoids.error (by simp)) fun _ => ?_
    refine (required_inside (Q := fun u => st.getNext = some u) fun _ h => h).bind fun u _ hu => ?_
    refine (required_inside (Q := fun un => s.phv.headerUnions[u]? = some un) fun _ h => h).bind
      fun un _ hun => ?_
    refine (required_inside (Q := fun h => un.headers[headerOffset]? = some h) fun _ h => h).bind
      fun h _ hh => ?_
    refine (extractChecked_inside hl hi (hcov st u un h hst hu hun hh)).bind fun s' _ hi' => ?_
    exact hi'.withPhv (hi'.inv.sized.congr (pushBackUnion_sizes _ _))
  | setField dst src => exact runSetField_inside hi dst src
  | setData dst src =>
    refine (required_inside (Q := fun f => s.phv.getField dst.1 dst.2 = some f) fun _ h => h).bind
      fun f _ hf => ?_
    exact set_inside hi hf _
  | setLookahead dst l => exact runSetLookahead_inside hl hi hcov
  | setExpression dst e =>
    refine (required_inside (Q := fun f => s.phv.getField dst.1 dst.2 = some f) fun _ h => h).bind
      fun f _ hf => ?_
    refine (required_inside fun _ _ => trivial).bind fun v _ _ => ?_
    exact set_inside hi hf _
  -- A condition that fails stops the parser with an error of its own, not with a read
  -- outside the packet.
  | verify condition errorExpr =>
    refine (required_inside fun _ _ => trivial).bind fun b _ _ => ?_
    refine Avoids.ite (fun _ => hi.follows) fun _ => ?_
    exact (required_inside fun _ _ => trivial).bind fun v _ _ => Avoids.error (by simp)
  | methodCall action =>
    refine (required_inside (Q := fun r => action.execute s.phv s.registers = some r)
      fun _ h => h).bind fun r _ hr => ?_
    exact ⟨⟨action.sized hr hi.sized, hi.parsed⟩, le_rfl⟩
  -- The bytes are counted before the parser skips them.
  | shift n =>
    refine (checkEnough_inside hi n).bind fun _ _ henough => ?_
    exact advance_follows hi hi.sized henough

theorem fieldBytes_inside (phv : Phv) (header offset : ℕ) :
    Inside (fieldBytes phv header offset) fun _ => True :=
  (required_inside fun _ _ => trivial).bind fun _ _ _ => trivial

theorem append_inside (hl : pkt.LengthOk) (hi : s.Inv pkt) {e : KeyEntry} (key : ByteContainer)
    (hcov : ∀ l, e = .lookahead l → l.nbytes = 0 ∨ LookaheadCovered pkt s l) :
    Inside (e.append s.phv (pkt.data.drop s.bytesParsed) key) fun _ => True := by
  cases e with
  | field header offset => exact (fieldBytes_inside _ _ _).bind fun _ _ _ => trivial
  | stackField headerStack offset =>
    refine (required_inside fun _ _ => trivial).bind fun _ _ _ => ?_
    refine (required_inside fun _ _ => trivial).bind fun _ _ _ => ?_
    exact (fieldBytes_inside _ _ _).bind fun _ _ _ => trivial
  | unionStackField headerUnionStack headerOffset offset =>
    refine (required_inside fun _ _ => trivial).bind fun _ _ _ => ?_
    refine (required_inside fun _ _ => trivial).bind fun _ _ _ => ?_
    refine (required_inside fun _ _ => trivial).bind fun _ _ _ => ?_
    refine (required_inside fun _ _ => trivial).bind fun _ _ _ => ?_
    exact (fieldBytes_inside _ _ _).bind fun _ _ _ => trivial
  | lookahead l => exact peek_inside hl hi key (hcov l rfl)

theorem matchMasked_inside (key mask input : ByteContainer) :
    Inside (matchMasked key mask input) fun _ => True := by
  induction key generalizing mask input with
  | nil => exact trivial
  | cons k key ih =>
    cases mask with
    | nil => exact Avoids.error (by simp)
    | cons m mask =>
      cases input with
      | nil => exact Avoids.error (by simp)
      | cons b input => exact Avoids.ite (fun _ => ih mask input) fun _ => trivial

theorem isMatch_inside (input : ByteContainer) (c : SwitchCase) :
    Inside (c.isMatch input) fun _ => True := by
  cases c with
  | exact key next => exact trivial
  | withMask key mask next => exact matchMasked_inside key mask input
  | vset shadow next =>
    rw [SwitchCase.isMatch, VSetShadow.contains]
    split
    · exact Avoids.ite (fun _ => trivial) fun _ => Avoids.error (by simp)
    · exact Avoids.ite (fun _ => trivial) fun _ => Avoids.error (by simp)

theorem findCase_inside (key : ByteContainer) (default : Option ℕ) (cases : List SwitchCase) :
    Inside (findCase key default cases) fun _ => True := by
  induction cases with
  | nil => exact trivial
  | cons c cases ih =>
    refine (isMatch_inside key c).bind fun b _ _ => ?_
    exact Avoids.ite (fun _ => trivial) fun _ => ih

/-! ## Runs -/

variable {p : Parser}

theorem enter_inside (next : Option ℕ) : Inside (p.enter next) fun _ => True := by
  cases next with
  | none => exact trivial
  | some i => exact (required_inside fun _ _ => trivial).bind fun _ _ _ => trivial

/-- **The step.** -/
theorem step_inside {c : Config} (hl : pkt.LengthOk) (hi : c.toState.Inv pkt)
    (hcov : c.Covered ctx pkt) : Inside (p.step ctx pkt c) fun c' => c.toState.Follows pkt c'.toState := by
  unfold Config.Covered at hcov
  unfold Parser.step
  match hc : c.control with
  | .ops st (op :: todo) =>
    rw [hc] at hcov
    exact (run_inside hl hi hcov).bind fun s' _ hi' => hi'
  | .ops st [] =>
    cases hk : st.keyBuilder with
    | none =>
      simp only [hk]
      exact (enter_inside _).bind fun _ _ _ => hi.follows
    | some entries =>
      simp only [hk]
      exact hi.follows
  | .key st (e :: todo) key =>
    refine (append_inside hl hi key fun l he => ?_).bind fun _ _ _ => hi.follows
    subst he
    rw [hc] at hcov
    exact hcov
  | .key st [] key =>
    refine (findCase_inside _ _ _).bind fun _ _ _ => ?_
    exact (enter_inside _).bind fun _ _ _ => hi.follows
  | .done => exact hi.follows

/-! ## Too short a packet -/

/-- A header that asks for more than is left is not extracted. -/
theorem extractChecked_demand (hi : s.Inv pkt) {h n : ℕ}
    (hcov : HeaderCovered ctx pkt s h) (hn : headerDemand ctx pkt s h = some n) :
    n ≤ left pkt s.bytesParsed ∨
      extractChecked ctx pkt s h = .error (.core .packetTooShort) := by
  obtain ⟨hdr, hhdr, hn⟩ := Option.bind_eq_some_iff.mp hn
  rcases Nat.lt_or_ge (left pkt s.bytesParsed) hdr.nbytesPacket with hshort | henough
  · right
    simp only [extractChecked, nbytesPacket, hhdr, required, bind, Except.bind,
      checkEnough_tooShort hi hshort]
  · left
    have hc := hcov hdr hhdr henough
    split at hn
    · next hvl =>
      rw [if_pos hvl] at hc
      split at hn
      · next m hm =>
        have := hc.2 m hm
        cases hn
        omega
      · cases hn
    · cases hn
      exact henough

theorem isFull_of_getNext {st : Stack} {h : ℕ} (hn : st.getNext = some h) : st.isFull = false := by
  obtain ⟨hlt, -⟩ := List.getElem?_eq_some_iff.mp hn
  simpa [Stack.isFull] using hlt

/-- **The ops stop with `PacketTooShort` when the packet is.** -/
theorem run_demand (hi : s.Inv pkt) {op : ParserOp} {n : ℕ}
    (hcov : op.Covered ctx pkt s) (hn : op.demand ctx pkt s = some n) :
    n ≤ left pkt s.bytesParsed ∨ op.run ctx pkt s = .error (.core .packetTooShort) := by
  cases op with
  | extract header => exact extractChecked_demand hi hcov hn
  | extractVL header e maxBytes =>
    obtain ⟨hdr, hhdr, hn⟩ := Option.bind_eq_some_iff.mp hn
    have hsized : hdr.Sized := hi.sized hdr (List.mem_of_getElem? hhdr)
    split at hn
    · next v hv =>
      split at hn
      · next hok =>
        have hcov' := hcov hdr v hhdr hv hok.1
        have hsum := (hsized.vlWidths_sum_le hok.1 (ctx.toInt v).toNat).2
        cases hn
        -- The check is on the whole header, before any byte is read.
        rcases Nat.lt_or_ge (left pkt s.bytesParsed)
          (hdr.nbytesPacket + (ctx.toInt v).toNat / 8) with hshort | henough
        · right
          simp only [ParserOp.run, ParserOp.runExtractVL, hhdr, required, bind, Except.bind, hok.1,
            hv, hok.2, sizeOfInt_add hcov'.1, checkEnough_tooShort hi hshort]
          simp
        · left
          omega
      · cases hn
    · cases hn
  | extractStack headerStack =>
    obtain ⟨st, hst, hn⟩ := Option.bind_eq_some_iff.mp hn
    obtain ⟨h, hh, hn⟩ := Option.bind_eq_some_iff.mp hn
    -- The stack is not full where it has a next header.
    refine (extractChecked_demand hi (hcov st h hst hh) hn).imp_right fun herr => ?_
    simp only [ParserOp.run, ParserOp.runExtractStack, hst, hh, required, bind, Except.bind,
      isFull_of_getNext hh, herr]
    simp
  | extractUnionStack headerUnionStack headerOffset =>
    obtain ⟨st, hst, hn⟩ := Option.bind_eq_some_iff.mp hn
    obtain ⟨u, hu, hn⟩ := Option.bind_eq_some_iff.mp hn
    obtain ⟨un, hun, hn⟩ := Option.bind_eq_some_iff.mp hn
    obtain ⟨h, hh, hn⟩ := Option.bind_eq_some_iff.mp hn
    refine (extractChecked_demand hi (hcov st u un h hst hu hun hh) hn).imp_right fun herr => ?_
    simp only [ParserOp.run, ParserOp.runExtractUnionStack, hst, hu, hun, hh, required, bind,
      Except.bind, isFull_of_getNext hu, herr]
    simp
  | setLookahead dst l =>
    cases hn
    rcases Nat.lt_or_ge (left pkt s.bytesParsed) l.nbytes with hshort | henough
    · right
      simp only [ParserOp.run, ParserOp.runSetLookahead, bind, Except.bind,
        checkEnough_tooShort hi hshort]
    · left
      have := (hcov henough).2
      rw [ParserLookAhead.demand]
      omega
  | shift m =>
    cases hn
    rcases Nat.lt_or_ge (left pkt s.bytesParsed) n with hshort | henough
    · right
      simp only [ParserOp.run, bind, Except.bind, checkEnough_tooShort hi hshort]
    · exact .inl henough
  | _ => cases hn

theorem step_demand {c : Config} (hi : c.toState.Inv pkt) {n : ℕ}
    (hcov : c.Covered ctx pkt) (hn : c.demand ctx pkt = some n) :
    n ≤ left pkt c.bytesParsed ∨ p.step ctx pkt c = .error (.core .packetTooShort) := by
  unfold Config.Covered at hcov
  unfold Config.demand at hn
  unfold Parser.step
  match hc : c.control with
  | .ops st (op :: todo) =>
    rw [hc] at hcov hn
    refine (run_demand hi hcov hn).imp_right fun herr => ?_
    simp only [herr, bind, Except.bind]
  | .ops st [] => simp [hc] at hn
  | .key st (e :: todo) key =>
    rw [hc] at hcov hn
    match e with
    | .lookahead l =>
      simp only at hcov hn
      split at hn
      · cases hn
      · next h0 =>
        have := (hcov.resolve_left h0).2
        cases hn
        left
        rw [ParserLookAhead.demand]
        omega
    | .field .. | .stackField .. | .unionStackField .. => simp at hn
  | .key st [] key => simp [hc] at hn
  | .done => simp [hc] at hn

/-- A run all of whose steps are covered. -/
def CoveredRun (ctx : Context) (pkt : Packet) (p : Parser) : Config → Config → Prop :=
  Relation.ReflTransGen fun c c' => c.Covered ctx pkt ∧ p.step ctx pkt c = .ok c'

/-- What every run keeps. -/
theorem coveredRun_inv {c₀ c : Config} (hl : pkt.LengthOk) (hi : c₀.toState.Inv pkt)
    (hrun : CoveredRun ctx pkt p c₀ c) : c.toState.Inv pkt := by
  induction hrun with
  | refl => exact hi
  | tail _ hstep ih => exact ((step_inside hl ih hstep.1).of_ok hstep.2).inv

/-- **The parser stays inside the packet in every covered run**: whenever the
packet's recorded length is not more than there is, and every step so far was
covered, the next one reads nothing outside, stops with `PacketTooShort` when
the bytes it needs are not there, and no more is parsed than there is. -/
theorem covered_run_stays_inside (ctx : Context) (p : Parser) (pkt : Packet) (phv : Phv)
    (registers : Registers) (hsized : phv.Sized) (hl : pkt.LengthOk) (c₀ c : Config)
    (hstart : p.start phv registers = .ok c₀) (hrun : CoveredRun ctx pkt p c₀ c) :
    c.bytesParsed ≤ pkt.data.length ∧ (c.Covered ctx pkt → StaysInside ctx pkt p c) := by
  have hinv : Inside (p.start phv registers) fun c => c.toState.Inv pkt :=
    (enter_inside p.initState).bind fun _ _ _ => ⟨hsized, by simpa using hl.1⟩
  have hi := coveredRun_inv hl (hinv.of_ok hstart) hrun
  have hparsed : c.bytesParsed ≤ pkt.data.length := by
    have h₁ := hi.parsed
    have h₂ := hl.2
    omega
  refine ⟨hparsed, fun hcov => ⟨hparsed, (step_inside hl hi hcov).ne_error rfl, fun n hn => ?_⟩⟩
  refine (step_demand hi hcov hn).imp_left fun hle => ?_
  have := left_le_length hl hi
  rw [List.length_drop] at this
  omega

/-! A parser that extracts a header of one byte and branches on the next
one. -/

def tagHeader : Header where
  headerType := 0
  fields := [Field.create 8 false, Field.create 1 true]
  valid := false
  metadata := false
  nbytesPacket := 1
  unionMembership := none

def tagPhv : Phv := ⟨[tagHeader], [], [], []⟩

def tagState : ParseState := ⟨[.extract 0], some [.lookahead (.make 0 8)], [], none⟩

def tagParser : Parser := ⟨[tagState], some 0⟩

def tagContext : Context := ⟨fun _ => none, [], Int.toNat, Int.toNat, id⟩

theorem tagPhv_sized : tagPhv.Sized := by
  intro h hh
  obtain rfl := List.mem_singleton.mp hh
  exact ⟨rfl, by decide, by decide, by decide, fun f hf => by cases hf; rfl⟩

/-- The header vector after the header was extracted. -/
def tagParsed : Phv :=
  ⟨[{ tagHeader with
      valid := true
      fields := [{ Field.create 8 false with value := 1, bytes := [1] },
        { Field.create 1 true with value := 1, bytes := [1] }] }], [], [], []⟩

def tagConfig (phv : Phv) (bytesParsed : ℕ) (control : Control) : Config :=
  ⟨⟨phv, fun _ _ => none, bytesParsed⟩, control⟩

/-- The first step, on a packet of one byte and of two. -/
theorem tagParser_extract (rest : ByteContainer) (len : Int32) (h : len = 1 ∨ len = 2) :
    tagParser.step tagContext ⟨1 :: rest, len⟩ (tagConfig tagPhv 0 (.ops tagState [.extract 0])) =
      .ok (tagConfig tagParsed 1 (.ops tagState [])) := by
  rcases h with rfl | rfl <;> rfl

/-- With the byte that is looked at in the packet, the run is covered. -/
theorem covered_run_stays_inside_tag :
    ∃ c₀ c, tagParser.start tagPhv (fun _ _ => none) = .ok c₀ ∧
      CoveredRun tagContext ⟨[1, 2], 2⟩ tagParser c₀ c ∧ c.Covered tagContext ⟨[1, 2], 2⟩ ∧
      StaysInside tagContext ⟨[1, 2], 2⟩ tagParser c := by
  have hl : Packet.LengthOk ⟨[1, 2], 2⟩ := by
    unfold Packet.LengthOk
    decide
  have hcov : Config.Covered tagContext ⟨[1, 2], 2⟩
      (tagConfig tagPhv 0 (.ops tagState [.extract 0])) := by
    intro hdr hhdr _
    obtain rfl := Option.some.inj hhdr
    simp [Header.isVLHeader, Header.wireWidths, EmptyAligned, tagHeader, Field.create, Field.isVL]
  have hrun : CoveredRun tagContext ⟨[1, 2], 2⟩ tagParser
      (tagConfig tagPhv 0 (.ops tagState [.extract 0]))
      (tagConfig tagParsed 1 (.key tagState [.lookahead (.make 0 8)] [])) := by
    refine Relation.ReflTransGen.tail (b := tagConfig tagParsed 1 (.ops tagState [])) ?_ ?_
    · exact Relation.ReflTransGen.single ⟨hcov, tagParser_extract _ _ (.inr rfl)⟩
    · exact ⟨trivial, rfl⟩
  have hcov' : Config.Covered tagContext ⟨[1, 2], 2⟩
      (tagConfig tagParsed 1 (.key tagState [.lookahead (.make 0 8)] [])) :=
    .inr ⟨by decide, by decide⟩
  have h := covered_run_stays_inside tagContext tagParser ⟨[1, 2], 2⟩ tagPhv (fun _ _ => none)
    tagPhv_sized hl _ _ rfl hrun
  exact ⟨_, _, rfl, hrun, hcov', h.2 hcov'⟩

/-- **A key is built from a byte outside of the packet**: after the one byte
there is, the term of the key looks one byte ahead. -/
theorem key_lookahead_reads_outside :
    ¬∀ c₀ c, tagParser.start tagPhv (fun _ _ => none) = .ok c₀ →
      Relation.ReflTransGen (fun c c' => tagParser.step tagContext ⟨[1], 1⟩ c = .ok c') c₀ c →
      StaysInside tagContext ⟨[1], 1⟩ tagParser c := by
  intro h
  have hrun : Relation.ReflTransGen
      (fun c c' => tagParser.step tagContext ⟨[1], 1⟩ c = .ok c')
      (tagConfig tagPhv 0 (.ops tagState [.extract 0]))
      (tagConfig tagParsed 1 (.key tagState [.lookahead (.make 0 8)] [])) := by
    refine Relation.ReflTransGen.tail (b := tagConfig tagParsed 1 (.ops tagState [])) ?_ ?_
    · exact Relation.ReflTransGen.single (tagParser_extract _ _ (.inl rfl))
    · exact rfl
  exact (h _ _ rfl hrun).reads rfl

end Parsing

end P4Bricks
