import P4Bricks.Phv.Seen
/-!
# Parsing into header vectors that are alike

One op of a parser, run on two header vectors that are alike. An op that reads
known fields only, and sets no others of variable length, does the same on
both: it stops with one error, or leaves two that are alike, in which the
header it extracted is known.
-/

namespace P4Bricks

open Expressions List

/-! ## Fields that are written -/

namespace Field

variable {s : Bool} {known : Prop} {f f' g g' : Field} {data : ByteContainer} {off : ℕ}

/-- The same field of two headers, which holds the same if the header is
known. -/
structure Alike (s : Bool) (known : Prop) (f f' : Field) : Prop where
  shaped : Shaped s f f'
  like : known → Like s f f'

theorem Alike.refl (f : Field) : Alike s known f f := ⟨(Like.refl f).shaped, fun _ => .refl f⟩

/-- A field that is set: one of variable length only in a header that is
known, since what it has room for depends on the mask it was left with. -/
theorem Alike.set (h : Alike s known f f') (hw : f.isVL = true → known) (v : ℤ) :
    Paired (fun g g' => g.blank = f.blank ∧ Alike s known g g') (Parsing.required (f.set v))
      (Parsing.required (f'.set v)) := by
  have heq : f'.set v = f.set v := by
    by_cases hvl : f.isVL = true
    · exact (h.like (hw hvl)).set v
    · exact h.shaped.set hvl v
  rw [heq]
  exact .refl fun g hg => ⟨set_blank (Parsing.required_eq_ok hg), .refl g⟩

/-- A field that is copied from the packet, of whatever width. -/
theorem Alike.extract (h : Alike s known f f') :
    Paired (fun g g' => g.blank = f.blank ∧ Alike s known g g') (f.extract data off)
      (f'.extract data off) := by
  by_cases hk : known
  · have hlike := h.like hk
    have hv : s = true → f'.value = f.value := fun hs => hlike.value (.inl hs)
    have hpaired : Paired (Like s) (f.extract data off)
        ({ f with value := f'.value, bytes := f.bytes }.extract data off) := extract_like hv
    rw [hlike.rest]
    exact hpaired.mono fun g g' hg _ hgg => ⟨extract_blank hg, hgg.shaped, fun _ => hgg⟩
  · -- The bytes are the same, and there is nothing more to know.
    have hbytes : Paired (fun _ _ => True) (f.extract data off) (f'.extract data off) := by
      unfold Field.extract
      rw [h.shaped.nbits]
      exact (Paired.refl (R := fun _ _ => True) fun _ _ => trivial).bind fun _ _ _ _ _ => .ok trivial
    refine hbytes.mono fun g g' hg hg' _ => ⟨extract_blank hg, ⟨?_, ?_, fun hs => ?_⟩, (absurd · hk)⟩
    · rw [extract_blank hg, extract_blank hg', h.shaped.blank]
    · have hsize := congrArg Prod.fst (extract_size hg)
      have hsize' := congrArg Prod.fst (extract_size hg')
      exact hsize'.trans (h.shaped.nbits.trans hsize.symm)
    · rw [h.shaped.same hs, hg] at hg'
      exact (Except.ok.inj hg').symm

/-- An assignment between fields of variable length overwrites all of it. -/
theorem Shaped.assignVL (h : Shaped s f f') (g : Field) : f'.assignVL g = f.assignVL g := by
  have hresized : f'.resizedTo g = { f.resizedTo g with value := f'.value } := by
    rw [eq_of_blank h.blank.symm]
    rfl
  rw [Field.assignVL, Field.assignVL, hresized]
  rfl

end Field

namespace Phv.Alike

variable {s : Bool} {K : ℕ → Prop} {phv phv' : Phv}

/-- A field is there in both. -/
theorem getField (ha : Alike s K phv phv') (h o : ℕ) :
    Paired (fun f f' => (∃ x, phv.headers[h]? = some x ∧ x.fields[o]? = some f) ∧
        Field.Alike s (K h) f f')
      (Parsing.required (phv.getField h o)) (Parsing.required (phv'.getField h o)) := by
  simp only [Phv.getField]
  cases hx : phv.headers[h]? with
  | none =>
    rw [ha.header_none hx]
    exact .error _
  | some x =>
    obtain ⟨x', hx', hlike⟩ := ha.header hx
    simp only [hx', Option.bind_some, Header.getField]
    cases hf : x.fields[o]? with
    | none =>
      rw [forall₂_getElem?_none hlike.shaped hf]
      exact .error _
    | some f =>
      obtain ⟨f', hf', hff⟩ := forall₂_getElem? hlike.shaped hf
      rw [hf']
      refine .ok ⟨⟨x, rfl, hf⟩, hff, fun hk => ?_⟩
      obtain ⟨f'', hf'', hlike'⟩ := forall₂_getElem? (hlike.fields hk) hf
      obtain rfl := Option.some.inj (hf''.symm.trans hf')
      exact hlike'

/-- Two fields that may be read are one. -/
theorem getField_readable (ha : Alike s K phv phv') {h o : ℕ} (hr : phv.Readable s K h o) :
    Paired Eq (Parsing.required (phv.getField h o)) (Parsing.required (phv'.getField h o)) := by
  refine (ha.getField h o).mono fun f f' _ _ ⟨⟨x, hx, hf⟩, hff⟩ => ?_
  have hlike := hff.like hr.1
  have hvalue := hlike.value (hr.2 f (by simp [Phv.getField, hx, Header.getField, hf]))
  rw [hlike.rest, hvalue]

/-- A header whose fields are modified at one place. -/
theorem like_modify {x x' : Header} {known : Prop} (hlike : x.Like s known x') {o : ℕ} {f g g' : Field}
    (hf : x.fields[o]? = some f) (hb : g.blank = f.blank) (hg : Field.Alike s known g g') :
    ({ x with fields := x.fields.modify o fun _ => g } : Header).blank = x.blank ∧
      ({ x with fields := x.fields.modify o fun _ => g } : Header).Like s known
        { x' with fields := x'.fields.modify o fun _ => g' } := by
  have hshaped : Forall₂ (Field.Shaped s) (x.fields.modify o fun _ => g)
      (x'.fields.modify o fun _ => g') :=
    forall₂_modify hlike.shaped o fun _ _ _ _ _ => hg.shaped
  have hblank : (x.fields.modify o fun _ => g).map Field.blank = x.fields.map Field.blank :=
    map_modify_of_eq fun a ha => by rw [hb, Option.some.inj (ha.symm.trans hf)]
  obtain ⟨h₁, h₂⟩ := hlike.withFields hblank hshaped
  refine ⟨h₁, h₂, hlike.valid, hlike.nbytesPacket, hshaped, fun hk => ?_⟩
  exact forall₂_modify (hlike.fields hk) o fun _ _ _ _ _ => hg.like hk

/-- One field is replaced in both. -/
theorem putField (ha : Alike s K phv phv') {dst : ℕ × ℕ} {x : Header} {f g g' : Field}
    (hx : phv.headers[dst.1]? = some x) (hf : x.fields[dst.2]? = some f) (hb : g.blank = f.blank)
    (hg : Field.Alike s (K dst.1) g g') :
    Alike s K (Parsing.putField phv dst g) (Parsing.putField phv' dst g') := by
  refine ha.modifyHeader (fun _ h => h) (fun _ _ h => h) fun y y' hy _ hlike => ?_
  obtain rfl := Option.some.inj (hy.symm.trans hx)
  obtain ⟨h₁, h₂⟩ := like_modify hlike hf hb hg
  exact ⟨h₁, h₂, fun hv => ha.known dst.1 y hx hv⟩

end Phv.Alike

namespace Parsing

variable (ctx : Context) (pkt : Packet) (strict : Bool) (K : ℕ → Prop)

/-! ## What an op reads -/

/-- The headers that are known from now on: those that were, and those that
became valid. -/
def Knows (phv : Phv) (h : ℕ) : Prop := K h ∨ ∃ x, phv.headers[h]? = some x ∧ x.isValid = true

/-- What the evaluation of an expression sees. -/
def Context.env (phv : Phv) (registers : Registers) : Env :=
  ⟨phv, [], registers, ctx.toUint, ctx.toSize⟩

/-- An expression that reads fields of known headers only, and of these the
ones that arithmetic uses: every field that a program's expressions or its
parser's assignments read has its arithmetic enabled when it is loaded. -/
def ReadsKnown (phv : Phv) (registers : Registers) (e : Expression) : Prop :=
  e.ReadsWithin (phv.Readable strict K) (ctx.env phv registers) ctx.temps

/-- A header whose length can be computed from known headers and from what
precedes its variable field. -/
def ExtractReads (phv : Phv) (registers : Registers) (h : ℕ) (data : ByteContainer) : Prop :=
  ∀ x, phv.headers[h]? = some x → x.isVLHeader = true →
    Header.AsksFor (vlLength ctx phv registers h)
      (fun n fields => ∀ e, ctx.vlExpr h = some e → e.ReadsWithin (phv.ReadableIn strict K h n)
        (ctx.env (phv.modifyHeader h fun x => { x with fields := fields }) registers) ctx.temps)
      data 0 [] x.fields

/-- An action that works with known headers only. -/
def CallReads (phv : Phv) (registers : Registers) (action : ActionFn) : Prop :=
  ∀ phv', Phv.Alike strict K phv phv' →
    Paired (fun r r' => Phv.Alike strict (Knows K r.1) r.1 r'.1 ∧ r'.2 = r.2)
      (required (action.execute phv registers)) (required (action.execute phv' registers))

/-- An op that reads known headers only. -/
def ParserOp.ReadsKnown (s : State) : ParserOp → Prop
  | .extract h => ExtractReads ctx strict K s.phv s.registers h (pkt.data.drop s.bytesParsed)
  | .extractVL _ e _ => Parsing.ReadsKnown ctx strict K s.phv s.registers e
  | .extractStack stack => ∀ st h, s.phv.headerStacks[stack]? = some st → st.getNext = some h →
    ExtractReads ctx strict K s.phv s.registers h (pkt.data.drop s.bytesParsed)
  | .extractUnionStack stack offset => ∀ st u un h, s.phv.headerUnionStacks[stack]? = some st →
    st.getNext = some u → s.phv.headerUnions[u]? = some un → un.headers[offset]? = some h →
    ExtractReads ctx strict K s.phv s.registers h (pkt.data.drop s.bytesParsed)
  | .setField _ src => s.phv.Readable strict K src.1 src.2
  | .setData _ _ => True
  | .setLookahead _ _ => True
  | .setExpression _ e => Parsing.ReadsKnown ctx strict K s.phv s.registers e
  | .verify c e => Parsing.ReadsKnown ctx strict K s.phv s.registers c ∧
    (evalBool ctx c s.phv s.registers = .ok false →
      Parsing.ReadsKnown ctx strict K s.phv s.registers e)
  | .methodCall action => CallReads strict K s.phv s.registers action
  | .shift _ => True

/-- A field that may be set to a number. A field of variable length has the
mask that its last length left, so that its header has to be known. -/
def Writable (phv : Phv) (dst : ℕ × ℕ) : Prop :=
  ∀ f, phv.getField dst.1 dst.2 = some f → f.isVL = true → K dst.1

/-- An op that sets fields of variable length in known headers only. Another
such field overwrites all of one that it is assigned to. -/
def ParserOp.WritesKnown (phv : Phv) : ParserOp → Prop
  | .setData dst _ | .setLookahead dst _ | .setExpression dst _ => Writable K phv dst
  | .extract _ | .extractVL .. | .extractStack _ | .extractUnionStack .. | .setField .. | .verify ..
  | .methodCall _ | .shift _ => True

/-- A term of a key that reads known headers only. -/
def KeyEntry.ReadsKnown (phv : Phv) : KeyEntry → Prop
  | .field h _ => K h
  | .stackField stack _ => ∀ st h, phv.headerStacks[stack]? = some st → st.getLast = some h → K h
  | .unionStackField stack offset _ => ∀ st u un h, phv.headerUnionStacks[stack]? = some st →
    st.getLast = some u → phv.headerUnions[u]? = some un → un.headers[offset]? = some h → K h
  | .lookahead _ => True

/-- Two states of a parser that are alike. -/
structure State.Alike (s s' : State) : Prop where
  phv : Phv.Alike strict K s.phv s'.phv
  registers : s'.registers = s.registers
  bytesParsed : s'.bytesParsed = s.bytesParsed

variable {ctx pkt strict K} {phv phv' : Phv} {s s' : State}

/-! ## One op -/

theorem alike_knows {K₁ : ℕ → Prop} (ha : Phv.Alike strict K₁ phv phv') (hK : ∀ h, K h → K₁ h)
    (hall : strict = true → ∀ h, K h) : Phv.Alike strict (Knows K phv) phv phv' where
  joined := ha.joined
  chosen := ha.chosen
  lastHidden := ha.lastHidden
  all hs h := .inl (hall hs h)
  blank := ha.blank
  headers h x x' hx hx' := (ha.headers h x x' hx hx').mono fun hk => by
    rcases hk with hk | ⟨y, hy, hv⟩
    · exact hK h hk
    · exact ha.known h y hy hv
  known h x hx hv := .inr ⟨x, hx, hv⟩
  choice := ha.choice
  headerStacks := ha.headerStacks
  headerUnionStacks := ha.headerUnionStacks

theorem evalArith_alike (ha : Phv.Alike strict K phv phv') {registers : Registers} {e : Expression}
    (hr : ReadsKnown ctx strict K phv registers e) :
    evalArith ctx e phv' registers = evalArith ctx e phv registers := by
  have henv := (ha.seen.env [] registers ctx.toUint ctx.toSize).evalArith hr
  exact congrArg required henv

theorem evalBool_alike (ha : Phv.Alike strict K phv phv') {registers : Registers} {e : Expression}
    (hr : ReadsKnown ctx strict K phv registers e) :
    evalBool ctx e phv' registers = evalBool ctx e phv registers := by
  have henv := (ha.seen.env [] registers ctx.toUint ctx.toSize).evalBool hr
  exact congrArg required henv

/-- The length of a header is computed from what both have. -/
theorem vlLength_alike (ha : Phv.Alike strict K phv phv') {registers : Registers} {h : ℕ}
    {x x' : Header} (hx : phv.headers[h]? = some x) (hx' : phv'.headers[h]? = some x')
    {done done' rest rest' : List Field}
    (hdone : Forall₂ (Field.Like strict) done done') (hrest : Forall₂ (Field.Shaped strict) rest rest')
    (hknown : K h → Forall₂ (Field.Like strict) rest rest')
    (hlayout : (done ++ rest).map Field.blank = x.fields.map Field.blank)
    (hreads : ∀ e, ctx.vlExpr h = some e → e.ReadsWithin (phv.ReadableIn strict K h done.length)
      (ctx.env (phv.modifyHeader h fun x => { x with fields := done ++ rest }) registers) ctx.temps) :
    Paired Eq (vlLength ctx phv registers h (done ++ rest))
      (vlLength ctx phv' registers h (done' ++ rest')) := by
  unfold vlLength
  cases he : ctx.vlExpr h with
  | none => exact .error _
  | some e =>
    have hseen := ha.seenIn hx hx' hlayout hdone hrest hknown
    have henv := (hseen.env [] registers ctx.toUint ctx.toSize).evalArith (hreads e he)
    have heval := congrArg required henv
    rw [required_some, ok_bind, ok_bind, evalArith, evalArith, heval]
    exact .refl fun _ _ => rfl

/-- **The extraction of a header.** -/
theorem extractHeader_alike (ha : Phv.Alike strict K phv phv') {registers : Registers} {h : ℕ}
    {data : ByteContainer} (hreads : ExtractReads ctx strict K phv registers h data) :
    Paired (Phv.Alike strict fun g => K g ∨ g = h) (extractHeader ctx phv registers h data)
      (extractHeader ctx phv' registers h data) := by
  unfold extractHeader
  refine (ha.required_header h).bind fun x x' _ _ ⟨hx, hx', hlike⟩ => ?_
  have hlast := ha.lastHidden x (List.mem_of_getElem? hx)
  have hfields : Paired (fun y y' => y.blank = x.blank ∧ y.valid = x.valid ∧
      Header.Overwritten strict y y') (extractFieldsOf ctx phv registers h x data)
      (extractFieldsOf ctx phv' registers h x' data) := by
    unfold extractFieldsOf
    rw [hlike.isVLHeader]
    split
    · next hvl =>
      exact Header.extractVLCommon_like hlike hlast
        (fun done done' rest rest' hdone hrest hknown hlayout hok =>
          vlLength_alike ha hx hx' hdone hrest hknown hlayout hok) (hreads x hx hvl)
    · exact Header.extractFixed_like hlike hlast
  exact hfields.bind fun y y' _ _ ⟨hb, _, hw⟩ => .ok (ha.extracted hx hx' hb hw)

/-- The extraction of a header whose length is given. -/
theorem extractHeaderVL_alike (ha : Phv.Alike strict K phv phv') {h : ℕ} {data : ByteContainer}
    (nbits : ℤ) : Paired (Phv.Alike strict fun g => K g ∨ g = h) (extractHeaderVL phv h data nbits)
      (extractHeaderVL phv' h data nbits) := by
  unfold extractHeaderVL
  refine (ha.required_header h).bind fun x x' _ _ ⟨hx, hx', hlike⟩ => ?_
  have hlast := ha.lastHidden x (List.mem_of_getElem? hx)
  refine (Header.extractVLCommon_like hlike hlast (fun _ _ _ _ _ _ _ _ _ => .refl fun _ _ => rfl)
    Header.asksFor_true).bind fun y y' _ _ ⟨hb, _, hw⟩ => ?_
  exact .ok (ha.extracted hx hx' hb hw)

theorem nbytesPacket_alike (ha : Phv.Alike strict K phv phv') (h : ℕ) :
    nbytesPacket phv' h = nbytesPacket phv h := by
  unfold nbytesPacket
  cases hx : phv.headers[h]? with
  | none => rw [ha.header_none hx]
  | some x =>
    obtain ⟨x', hx', hlike⟩ := ha.header hx
    rw [hx', required_some, required_some, ok_bind, ok_bind, hlike.nbytesPacket]

/-- What an extraction leaves as it was. -/
theorem extractHeader_stacks {registers : Registers} {h : ℕ} {data : ByteContainer}
    (hx : extractHeader ctx phv registers h data = .ok phv') :
    phv'.headerStacks = phv.headerStacks ∧ phv'.headerUnionStacks = phv.headerUnionStacks := by
  obtain ⟨x, -, hx⟩ := bind_eq_ok hx
  obtain ⟨y, -, hx⟩ := bind_eq_ok hx
  cases hx
  exact Phv.markValid_keeps (P := fun p => p.headerStacks = phv.headerStacks ∧
    p.headerUnionStacks = phv.headerUnionStacks) (fun _ _ _ h => h) (fun _ _ _ _ h => h) ⟨rfl, rfl⟩

/-- The check, the extraction and the advance. -/
theorem extractChecked_alike (ha : Phv.Alike strict K phv phv') {registers : Registers} {n h : ℕ}
    (hreads : ExtractReads ctx strict K phv registers h (pkt.data.drop n)) :
    Paired (fun t t' => State.Alike strict (fun g => K g ∨ g = h) t t' ∧
        t.phv.headerStacks = phv.headerStacks ∧ t.phv.headerUnionStacks = phv.headerUnionStacks)
      (extractChecked ctx pkt ⟨phv, registers, n⟩ h) (extractChecked ctx pkt ⟨phv', registers, n⟩ h) := by
  unfold extractChecked
  rw [show nbytesPacket (State.mk phv' registers n).phv h = nbytesPacket phv h from
    nbytesPacket_alike ha h]
  refine (Paired.refl fun size _ => rfl).bind fun size size' _ _ heq => ?_
  obtain rfl : size = size' := heq
  refine (Paired.refl (R := fun _ _ => True) fun _ _ => trivial).bind fun _ _ _ _ _ => ?_
  refine (extractHeader_alike ha hreads).bind fun p p' hp _ hpp => ?_
  dsimp only
  rw [nbytesPacket_alike hpp]
  refine (Paired.refl fun m _ => rfl).bind fun m m' _ _ heq => .ok ?_
  obtain rfl : m = m' := heq
  exact ⟨⟨hpp, rfl, rfl⟩, extractHeader_stacks hp⟩

/-- The same stack is pushed to. -/
theorem pushBackHeader_alike (ha : Phv.Alike strict K phv phv') {stack : ℕ}
    (hK : ∀ h, phv.headerStacks[stack]?.bind Stack.getNext = some h → K h) :
    Phv.Alike strict K (pushBackHeader phv stack) (pushBackHeader phv' stack) := by
  unfold pushBackHeader
  rw [ha.headerStacks]
  cases hs : phv.headerStacks[stack]?.bind Stack.getNext with
  | none => exact ha
  | some h =>
    have hmark := ha.markValid (hK h hs)
    have hblank := congrArg Phv.headerStacks (Phv.markValid_blank phv h)
    simp only [Phv.blank] at hblank
    have hnext : (phv.headerStacks.modify stack fun st => { st with next := st.next + 1 }).map
        Stack.blank = (phv.markValid h).headerStacks.map Stack.blank := by
      rw [hblank]
      exact map_modify_of_eq fun _ _ => rfl
    exact hmark.setHeaderStacks hnext

theorem pushBackUnion_alike (ha : Phv.Alike strict K phv phv') (stack : ℕ) :
    Phv.Alike strict K (pushBackUnion phv stack) (pushBackUnion phv' stack) := by
  unfold pushBackUnion
  rw [ha.headerUnionStacks]
  exact ha.setHeaderUnionStacks (map_modify_of_eq fun st _ => by split <;> rfl)

/-- A field of variable length is assigned, and its header is measured
again. -/
theorem assignVL_alike (ha : Phv.Alike strict K phv phv') {dst : ℕ × ℕ} {x : Header} {f f' : Field}
    (hx : phv.headers[dst.1]? = some x) (hf : x.fields[dst.2]? = some f) (hvl : f.isVL = true)
    (hff : Field.Alike strict (K dst.1) f f') (g : Field) :
    Paired (Phv.Alike strict K) (assignVL phv dst f g) (assignVL phv' dst f' g) := by
  unfold assignVL
  rw [hff.shaped.assignVL]
  refine (Paired.refl fun e _ => rfl).bind fun e e' he _ heq => ?_
  obtain rfl : e = e' := heq
  have hput := ha.putField hx hf (Field.assignVL_blank hvl (required_eq_ok he)) (.refl e)
  refine (hput.required_header dst.1).bind fun y y' _ _ ⟨hy, hy', hlike⟩ => ?_
  refine (Header.recompute_like hlike.shaped).bind fun z z' _ _ ⟨hz, hz'⟩ => .ok ?_
  refine hput.modifyHeader (fun _ h => h) (fun _ _ h => h) fun w w' hw hw' _ => ?_
  obtain rfl := Option.some.inj (hy.symm.trans hw)
  have hblank : z.blank = y.blank := by rw [hz]; rfl
  have hlike' : z.Like strict (K dst.1) z' := by
    rw [hz', hz]
    exact ⟨hlike.blank, hlike.valid, rfl, hlike.shaped, hlike.fields⟩
  refine ⟨hblank, hlike', fun hv => hput.known dst.1 y hy ?_⟩
  rw [hz] at hv
  exact hv

/-- A header is extracted if there is enough of it. -/
theorem runExtractVL_alike (ha : Phv.Alike strict K phv phv') {registers : Registers} {n h max : ℕ}
    {e : Expression} (hr : ReadsKnown ctx strict K phv registers e) :
    Paired (State.Alike strict fun g => K g ∨ g = h)
      (ParserOp.runExtractVL ctx pkt ⟨phv, registers, n⟩ h e max)
      (ParserOp.runExtractVL ctx pkt ⟨phv', registers, n⟩ h e max) := by
  unfold ParserOp.runExtractVL
  refine (ha.required_header h).bind fun x x' _ _ ⟨hx, hx', hlike⟩ => ?_
  rw [hlike.isVLHeader, hlike.nbytesPacket]
  dsimp only
  rw [evalArith_alike ha hr]
  split
  · exact .error _
  · refine (Paired.refl fun v _ => rfl).bind fun v v' _ _ heq => ?_
    obtain rfl : v = v' := heq
    split
    · exact .error _
    · refine (Paired.refl (R := fun _ _ => True) fun _ _ => trivial).bind fun _ _ _ _ _ => ?_
      split
      · exact .error _
      · refine (extractHeaderVL_alike ha _).bind fun p p' _ _ hpp => ?_
        rw [nbytesPacket_alike hpp]
        refine (Paired.refl fun m _ => rfl).bind fun m m' _ _ heq => .ok ?_
        obtain rfl : m = m' := heq
        exact ⟨hpp, rfl, rfl⟩

/-- The next header of a stack is extracted. -/
theorem runExtractStack_alike (ha : Phv.Alike strict K phv phv') {registers : Registers}
    {n stack : ℕ} (hr : ∀ st h, phv.headerStacks[stack]? = some st → st.getNext = some h →
      ExtractReads ctx strict K phv registers h (pkt.data.drop n)) :
    Paired (fun t t' => ∃ h, State.Alike strict (fun g => K g ∨ g = h) t t')
      (ParserOp.runExtractStack ctx pkt ⟨phv, registers, n⟩ stack)
      (ParserOp.runExtractStack ctx pkt ⟨phv', registers, n⟩ stack) := by
  unfold ParserOp.runExtractStack
  rw [show (State.mk phv' registers n).phv.headerStacks = phv.headerStacks from ha.headerStacks]
  refine (Paired.refl fun st _ => rfl).bind fun st st' hst _ heq => ?_
  obtain rfl : st = st' := heq
  split
  · exact .error _
  · refine (Paired.refl fun h _ => rfl).bind fun h h' hh _ heq => ?_
    obtain rfl : h = h' := heq
    replace hst : phv.headerStacks[stack]? = some st := required_eq_ok hst
    replace hh := required_eq_ok hh
    refine (extractChecked_alike ha (hr st h hst hh)).bind fun t t' _ _ ⟨htt, hsts, _⟩ => .ok ⟨h, ?_⟩
    refine ⟨pushBackHeader_alike htt.phv fun g hg => ?_, htt.registers, htt.bytesParsed⟩
    -- It is the header that was extracted.
    rw [hsts, hst, Option.bind_some, hh] at hg
    exact .inr (Option.some.inj hg).symm

/-- A header of the next union of a stack is extracted. -/
theorem runExtractUnionStack_alike (ha : Phv.Alike strict K phv phv') {registers : Registers}
    {n stack offset : ℕ} (hr : ∀ st u un h, phv.headerUnionStacks[stack]? = some st →
      st.getNext = some u → phv.headerUnions[u]? = some un → un.headers[offset]? = some h →
      ExtractReads ctx strict K phv registers h (pkt.data.drop n)) :
    Paired (fun t t' => ∃ h, State.Alike strict (fun g => K g ∨ g = h) t t')
      (ParserOp.runExtractUnionStack ctx pkt ⟨phv, registers, n⟩ stack offset)
      (ParserOp.runExtractUnionStack ctx pkt ⟨phv', registers, n⟩ stack offset) := by
  unfold ParserOp.runExtractUnionStack
  rw [show (State.mk phv' registers n).phv.headerUnionStacks = phv.headerUnionStacks from
    ha.headerUnionStacks]
  refine (Paired.refl fun st _ => rfl).bind fun st st' hst _ heq => ?_
  obtain rfl : st = st' := heq
  split
  · exact .error _
  · refine (Paired.refl fun u _ => rfl).bind fun u u' hu _ heq => ?_
    obtain rfl : u = u' := heq
    refine (ha.required_union u).bind fun un un' _ _ ⟨hun, hheaders⟩ => ?_
    rw [hheaders]
    refine (Paired.refl fun h _ => rfl).bind fun h h' hh _ heq => ?_
    obtain rfl : h = h' := heq
    have hreads := hr st u un h (required_eq_ok hst) (required_eq_ok hu) hun (required_eq_ok hh)
    refine (extractChecked_alike ha hreads).bind fun t t' _ _ ⟨htt, _, _⟩ => .ok ⟨h, ?_⟩
    exact ⟨pushBackUnion_alike htt.phv stack, htt.registers, htt.bytesParsed⟩

/-- A field gets a number in both. -/
theorem set_alike (ha : Phv.Alike strict K phv phv') {registers : Registers} {n : ℕ} {dst : ℕ × ℕ}
    {x : Header} {f f' : Field} (hx : phv.headers[dst.1]? = some x) (hf : x.fields[dst.2]? = some f)
    (hff : Field.Alike strict (K dst.1) f f') (hw : f.isVL = true → K dst.1) (v : ℤ) :
    Paired (State.Alike strict K)
      (do .ok (⟨putField phv dst (← required (f.set v)), registers, n⟩ : State))
      (do .ok (⟨putField phv' dst (← required (f'.set v)), registers, n⟩ : State)) :=
  (hff.set hw v).bind fun _ _ _ _ ⟨hb, hgg⟩ => .ok ⟨ha.putField hx hf hb hgg, rfl, rfl⟩

theorem Writable.of_header {dst : ℕ × ℕ} {x : Header} {f : Field} (h : Writable K phv dst)
    (hx : phv.headers[dst.1]? = some x) (hf : x.fields[dst.2]? = some f) :
    f.isVL = true → K dst.1 :=
  h f (by simp [Phv.getField, hx, Header.getField, hf])

/-- A field gets what another has. -/
theorem runSetField_alike (ha : Phv.Alike strict K phv phv') {registers : Registers} {n : ℕ}
    {dst src : ℕ × ℕ} (hr : phv.Readable strict K src.1 src.2) :
    Paired (State.Alike strict K) (ParserOp.runSetField ⟨phv, registers, n⟩ dst src)
      (ParserOp.runSetField ⟨phv', registers, n⟩ dst src) := by
  unfold ParserOp.runSetField
  refine (ha.getField dst.1 dst.2).bind fun f f' _ _ ⟨⟨x, hx, hf⟩, hff⟩ => ?_
  refine (ha.getField_readable hr).bind fun g g' _ _ heq => ?_
  obtain rfl : g = g' := heq
  rw [hff.shaped.isVL]
  split
  · next hvl =>
    split
    · exact (assignVL_alike ha hx hf hvl hff g).bind fun p p' _ _ hpp => .ok ⟨hpp, rfl, rfl⟩
    · exact .error _
  · next hvl => exact set_alike ha hx hf hff (absurd · hvl) _

/-- A field gets bits of the packet. -/
theorem runSetLookahead_alike (ha : Phv.Alike strict K phv phv') {registers : Registers} {n : ℕ}
    {dst : ℕ × ℕ} {src : ParserLookAhead} (hw : Writable K phv dst) :
    Paired (State.Alike strict K) (ParserOp.runSetLookahead pkt ⟨phv, registers, n⟩ dst src)
      (ParserOp.runSetLookahead pkt ⟨phv', registers, n⟩ dst src) := by
  unfold ParserOp.runSetLookahead
  refine (Paired.refl (R := fun _ _ => True) fun _ _ => trivial).bind fun _ _ _ _ _ => ?_
  refine (ha.getField dst.1 dst.2).bind fun f f' _ _ ⟨⟨x, hx, hf⟩, hff⟩ => ?_
  dsimp only
  rw [hff.shaped.nbits]
  split
  · exact hff.extract.bind fun g g' _ _ ⟨hb, hgg⟩ => .ok ⟨ha.putField hx hf hb hgg, rfl, rfl⟩
  · refine (Paired.refl fun bc _ => rfl).bind fun bc bc' _ _ heq => ?_
    obtain rfl : bc = bc' := heq
    exact set_alike ha hx hf hff (hw.of_header hx hf) _

/-- **One op of a parser does the same in both.** -/
theorem ParserOp.run_alike (hs : State.Alike strict K s s') {op : ParserOp}
    (hop : op.ReadsKnown ctx pkt strict K s) (hw : op.WritesKnown K s.phv) :
    Paired (fun t t' => State.Alike strict (Knows K t.phv) t t') (op.run ctx pkt s)
      (op.run ctx pkt s') := by
  obtain ⟨phv, registers, n⟩ := s
  obtain ⟨phv', registers', n'⟩ := s'
  obtain ⟨ha, hregs, hn⟩ := hs
  dsimp only at ha hregs hn
  subst hregs hn
  have hall : strict = true → ∀ h, K h := ha.all
  -- What is alike on more headers than before is alike on the headers that the op has made known.
  have hnow : ∀ {K₁ : ℕ → Prop} {t t' : State}, (∀ h, K h → K₁ h) → State.Alike strict K₁ t t' →
      State.Alike strict (Knows K t.phv) t t' := fun hK h =>
    ⟨alike_knows h.phv hK hall, h.registers, h.bytesParsed⟩
  cases op with
  | extract h => exact (extractChecked_alike ha hop).mono fun t t' _ _ h => hnow (fun _ => .inl) h.1
  | extractVL h e max =>
    exact (runExtractVL_alike ha hop).mono fun t t' _ _ h => hnow (fun _ => .inl) h
  | extractStack stack =>
    exact (runExtractStack_alike ha hop).mono fun t t' _ _ ⟨g, h⟩ => hnow (fun _ => .inl) h
  | extractUnionStack stack offset =>
    exact (runExtractUnionStack_alike ha hop).mono fun t t' _ _ ⟨g, h⟩ => hnow (fun _ => .inl) h
  | setField dst src => exact (runSetField_alike ha hop).mono fun t t' _ _ h => hnow (fun _ h => h) h
  | setData dst src =>
    refine (ha.getField dst.1 dst.2).bind fun f f' _ _ ⟨⟨x, hx, hf⟩, hff⟩ => ?_
    exact (set_alike ha hx hf hff (hw.of_header hx hf) _).mono fun t t' _ _ h => hnow (fun _ h => h) h
  | setLookahead dst src => exact (runSetLookahead_alike ha hw).mono fun t t' _ _ h => hnow (fun _ h => h) h
  | setExpression dst e =>
    refine (ha.getField dst.1 dst.2).bind fun f f' _ _ ⟨⟨x, hx, hf⟩, hff⟩ => ?_
    dsimp only
    rw [evalArith_alike ha hop]
    refine (Paired.refl fun v _ => rfl).bind fun v v' _ _ heq => ?_
    obtain rfl : v = v' := heq
    exact (set_alike ha hx hf hff (hw.of_header hx hf) _).mono fun t t' _ _ h => hnow (fun _ h => h) h
  | verify c e =>
    simp only [run, runVerify]
    -- The condition and the error have the same value in both runs, so both go on or both stop
    -- there.
    rw [evalBool_alike ha hop.1]
    refine (Paired.refl fun b _ => rfl).bind fun b b' hb _ heq => ?_
    obtain rfl : b = b' := heq
    split
    · exact .ok (hnow (fun _ h => h) ⟨ha, rfl, rfl⟩)
    · next hfalse =>
      rw [Bool.not_eq_true] at hfalse
      subst hfalse
      rw [evalArith_alike ha (hop.2 hb)]
      exact (Paired.refl fun v _ => rfl).bind fun v v' _ _ heq => by
        obtain rfl : v = v' := heq
        exact .error _
  | methodCall action =>
    refine (hop phv' ha).bind fun r r' _ _ ⟨hrr, hregs⟩ => .ok ⟨hrr, hregs, rfl⟩
  | shift bytes =>
    refine (Paired.refl (R := fun _ _ => True) fun _ _ => trivial).bind fun _ _ _ _ _ => .ok ?_
    exact hnow (fun _ h => h) ⟨ha, rfl, rfl⟩

end Parsing

end P4Bricks
