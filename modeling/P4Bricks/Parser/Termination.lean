import P4Bricks.Parser.Bounds
import P4Bricks.Parser.RoundTrip
/-!
# Every run ends

`Parser::parse` has no bound on the number of states it goes through. When each cycle of
the parse graph has an op that takes a byte at least, a state that is entered again has
more of the packet parsed than before, and no run takes more than the packet has. All of
this rests on the check every op makes of its own. The one that is made for a header
which computes its own length is made before this length is known: an op that takes more
than is left has the checks after it compare with a length that is negative. And a field
of -8 bits gives a byte back.
-/

namespace P4Bricks

/-! ## Extractions that return -/

namespace Header

open Parsing

variable {vlFn : List Field → Except Stop ℤ} {data : ByteContainer} {off : ℕ}
variable {done todo fields : List Field} {h h' : Header}

theorem extractFields_fixed_ok (hfix : ∀ f ∈ todo, ¬f.isVL)
    (hx : extractFields vlFn data off done todo = .ok fields) :
    fields.map Field.size = (done ++ todo).map Field.size := by
  induction todo generalizing data off done with
  | nil =>
    obtain rfl := Except.ok.inj hx
    rw [List.append_nil]
  | cons f todo ih =>
    rw [extractFields] at hx
    split at hx
    · rw [← Except.ok.inj hx]
    · obtain ⟨f', hf', hx⟩ := bind_eq_ok hx
      rw [extractField, if_neg (hfix f (by simp))] at hf'
      have hrest := ih (fun g hg => hfix g (by simp [hg])) hx
      rw [hrest]
      simp [Field.extract_size hf']

theorem extractVL_ok {f f' : Field} {n : ℤ} (hx : f.extractVL data off n = .ok f') :
    0 ≤ n ∧ f'.size = (n.toNat, f.hidden, true) := by
  unfold Field.extractVL at hx
  split_ifs at hx with hbelow hneg
  exact ⟨by omega, Field.extract_size hx⟩

/-- **`extract_VL_common` leaves the size of the length it computed.** -/
theorem extractVLCommon_ok (hs : h.Sized) (hvl : h.isVLHeader)
    (hx : h.extractVLCommon vlFn data = .ok h') : h'.Sized ∧
      ∃ n, h.lengthOf vlFn data = .ok n ∧ 0 ≤ n ∧
        8 * h'.nbytesPacket = (h.vlWidths n.toNat).sum := by
  obtain ⟨f, post, hcut, hdrop, hf, hvis, hpre, hpost⟩ := hs.split hvl
  obtain ⟨fields, hfields, hx⟩ := bind_eq_ok hx
  rw [hcut, extractFields_append (fun g hg => (hpre g hg).1) (fun g hg => (hpre g hg).2)
    (by omega)] at hfields
  obtain ⟨done, hdone, hfields⟩ := bind_eq_ok hfields
  rw [extractFields, if_neg hvis, extractField, if_pos hf] at hfields
  obtain ⟨f', hf', hfields⟩ := bind_eq_ok hfields
  obtain ⟨n, hn, hf'⟩ := bind_eq_ok hf'
  have hlength : h.lengthOf vlFn data = .ok n := by
    rw [lengthOf, hdone, hdrop]
    exact hn
  have hsizes : fields.map Field.size =
      h.fixedPrefix.map Field.size ++ (n.toNat, false, true) :: post.map Field.size := by
    rw [extractFields_fixed_ok hpost hfields, List.map_append, List.map_append,
      extractFields_fixed_ok (fun g hg => (hpre g hg).1) hdone]
    simp [(extractVL_ok hf').2, hvis]
  obtain ⟨hnbits, hkinds⟩ := sizes_of_length hcut hf hvis hpre hpost hsizes
  have hwhole := (@Sized.recompute h { h with fields := fields } hs hkinds).of_ok hx
  exact ⟨hwhole.1, n, hlength, (extractVL_ok hf').1, hwhole.2.trans hnbits⟩

end Header

namespace Parsing

variable {ctx : Context} {pkt : Packet} {p : Parser} {c₀ c c' : Config} {s s' : State}

/-! ## Ops that take no more than is left -/

variable (ctx pkt s) in
/-- A header that computes its own length, and passes the check for the length it has by
then, finds what it takes, and does not go on with a length below zero. -/
def HeaderContained (h : ℕ) : Prop :=
  ∀ hdr n, s.phv.headers[h]? = some hdr → hdr.isVLHeader →
    hdr.nbytesPacket ≤ left pkt s.bytesParsed →
    hdr.lengthOf (vlLength ctx s.phv s.registers h) (pkt.data.drop s.bytesParsed) = .ok n →
    -14 ≤ n → 0 ≤ n ∧ (hdr.vlWidths n.toNat).sum ≤ 8 * left pkt s.bytesParsed

variable (ctx pkt s) in
/-- The ops that extract a header, of its own length or of one that is given. -/
def ParserOp.Contained : ParserOp → Prop
  | .extract header => HeaderContained ctx pkt s header
  | .extractVL _ e _ =>
    ∀ v, evalArith ctx e s.phv s.registers = .ok v → -14 ≤ ctx.toInt v → 0 ≤ ctx.toInt v
  | .extractStack headerStack =>
    ∀ st h, s.phv.headerStacks[headerStack]? = some st → st.getNext = some h →
      HeaderContained ctx pkt s h
  | .extractUnionStack headerUnionStack headerOffset =>
    ∀ st u un h, s.phv.headerUnionStacks[headerUnionStack]? = some st → st.getNext = some u →
      s.phv.headerUnions[u]? = some un → un.headers[headerOffset]? = some h →
      HeaderContained ctx pkt s h
  | _ => True

/-- The next op takes no more than is left. -/
def Config.Contained (ctx : Context) (pkt : Packet) (c : Config) : Prop :=
  match c.control with
  | .ops _ (op :: _) => op.Contained ctx pkt c.toState
  | _ => True

/-- A step of a contained run. -/
def ContainedStep (ctx : Context) (pkt : Packet) (p : Parser) (c c' : Config) : Prop :=
  c.Contained ctx pkt ∧ p.step ctx pkt c = .ok c'

/-- A run all of whose steps are contained. -/
def ContainedRun (ctx : Context) (pkt : Packet) (p : Parser) : Config → Config → Prop :=
  Relation.ReflTransGen (ContainedStep ctx pkt p)

theorem advance_ok {phv : Phv} (hi : s.Inv pkt) {h : ℕ} (hs : phv.Sized)
    (hn : ∀ m, nbytesPacket phv h = .ok m → m ≤ left pkt s.bytesParsed)
    (hx : (do .ok ({ s with phv := phv }.advance (← nbytesPacket phv h))) = Except.ok s') :
    s.Follows pkt s' := (advance_inside hi hs hn).of_ok hx

/-- A header that was extracted is not longer than what is left. -/
theorem extractChecked_follows (hi : s.Inv pkt) {h : ℕ} (hcont : HeaderContained ctx pkt s h)
    (hx : extractChecked ctx pkt s h = .ok s') : s.Follows pkt s' := by
  obtain ⟨n, hn, hx⟩ := bind_eq_ok hx
  obtain ⟨hdr, hhdr, rfl⟩ := (nbytesPacket_inside s.phv h).of_ok hn
  obtain ⟨_, henough, hx⟩ := bind_eq_ok hx
  have hle := (checkEnough_inside hi _).of_ok henough
  obtain ⟨phv, hphv, hx⟩ := bind_eq_ok hx
  obtain ⟨hdr₁, hhdr₁, hphv⟩ := bind_eq_ok hphv
  obtain rfl := Option.some.inj ((required_eq_ok hhdr₁).symm.trans hhdr)
  obtain ⟨hdr', hhdr', hphv⟩ := bind_eq_ok hphv
  obtain rfl := Except.ok.inj hphv
  have hsized : hdr₁.Sized := hi.sized hdr₁ (List.mem_of_getElem? hhdr)
  have hnew : hdr'.Sized ∧ hdr'.nbytesPacket ≤ left pkt s.bytesParsed := by
    unfold extractFieldsOf at hhdr'
    split at hhdr'
    · next hvl =>
      obtain ⟨hs', m, hm, hpos, hbytes⟩ := Header.extractVLCommon_ok hsized hvl hhdr'
      have hsum := (hcont hdr₁ m hhdr hvl hle hm (by omega)).2
      exact ⟨hs', by omega⟩
    · next hvl =>
      obtain ⟨fields, hfields, hhdr'⟩ := bind_eq_ok hhdr'
      obtain rfl := Except.ok.inj hhdr'
      have hfix : ∀ f ∈ hdr₁.fields, ¬f.isVL :=
        fun f hf hv => hvl (List.any_eq_true.mpr ⟨f, hf, hv⟩)
      exact ⟨hsized.congr (Prod.ext rfl (Header.extractFields_fixed_ok hfix hfields)), hle⟩
  obtain ⟨hs', hsize⟩ := put_markValid hi.sized hhdr hnew.1 hnew.2
  exact advance_ok hi hs' hsize hx

/-- The check of `ParserOpExtractVL` counts the length it is given. -/
theorem runExtractVL_follows (hi : s.Inv pkt) {header maxBytes : ℕ} {e : Expressions.Expression}
    (hx : ParserOp.runExtractVL ctx pkt s header e maxBytes = .ok s') : s.Follows pkt s' := by
  obtain ⟨hdr, hhdr, hx⟩ := bind_eq_ok hx
  have hhdr := required_eq_ok hhdr
  split at hx
  · cases hx
  next hnot =>
  have hvl : hdr.isVLHeader := by simpa using hnot
  obtain ⟨v, hv, hx⟩ := bind_eq_ok hx
  dsimp only at hx
  split at hx
  · cases hx
  next hmod =>
  obtain ⟨_, henough, hx⟩ := bind_eq_ok hx
  split at hx
  · cases hx
  obtain ⟨phv, hphv, hx⟩ := bind_eq_ok hx
  obtain ⟨hdr₁, hhdr₁, hphv⟩ := bind_eq_ok hphv
  obtain rfl := Option.some.inj ((required_eq_ok hhdr₁).symm.trans hhdr)
  obtain ⟨hdr', hhdr', hphv⟩ := bind_eq_ok hphv
  obtain rfl := Except.ok.inj hphv
  have hle := (checkEnough_inside hi _).of_ok henough
  have hsized : hdr₁.Sized := hi.sized hdr₁ (List.mem_of_getElem? hhdr)
  obtain ⟨hs', m, hm, hneg, hbytes⟩ := Header.extractVLCommon_ok hsized hvl hhdr'
  obtain rfl := Header.lengthOf_const hm
  rw [sizeOfInt_add hneg] at hle
  have hsum := (hsized.vlWidths_sum_le hvl (ctx.toInt v).toNat).2
  obtain ⟨hs'', hsize⟩ := put_markValid hi.sized hhdr hs'
    (by omega : hdr'.nbytesPacket ≤ left pkt s.bytesParsed)
  exact advance_ok hi hs'' hsize hx

/-- **An op that returns** takes no more than is left, and gives no byte back. -/
theorem run_follows (hi : s.Inv pkt) {op : ParserOp} (hcont : op.Contained ctx pkt s)
    (hx : op.run ctx pkt s = .ok s') : s.Follows pkt s' := by
  cases op with
  | extract header => exact extractChecked_follows hi hcont hx
  | extractVL header e maxBytes => exact runExtractVL_follows hi hx
  | extractStack headerStack =>
    obtain ⟨st, hst, hx⟩ := bind_eq_ok hx
    split at hx
    · cases hx
    obtain ⟨h, hh, hx⟩ := bind_eq_ok hx
    obtain ⟨s₁, hs₁, hx⟩ := bind_eq_ok hx
    obtain rfl := Except.ok.inj hx
    have hf := extractChecked_follows hi (hcont st h (required_eq_ok hst) (required_eq_ok hh)) hs₁
    -- That the stack counts the header changes no size.
    exact hf.withPhv (hf.inv.sized.congr (pushBackHeader_sizes _ _))
  | extractUnionStack headerUnionStack headerOffset =>
    obtain ⟨st, hst, hx⟩ := bind_eq_ok hx
    split at hx
    · cases hx
    obtain ⟨u, hu, hx⟩ := bind_eq_ok hx
    obtain ⟨un, hun, hx⟩ := bind_eq_ok hx
    obtain ⟨h, hh, hx⟩ := bind_eq_ok hx
    obtain ⟨s₁, hs₁, hx⟩ := bind_eq_ok hx
    obtain rfl := Except.ok.inj hx
    have hf := extractChecked_follows hi (hcont st u un h (required_eq_ok hst) (required_eq_ok hu)
      (required_eq_ok hun) (required_eq_ok hh)) hs₁
    exact hf.withPhv (hf.inv.sized.congr (pushBackUnion_sizes _ _))
  | setField dst src => exact (runSetField_inside hi dst src).of_ok hx
  | setLookahead dst l =>
    obtain ⟨_, -, hx⟩ := bind_eq_ok hx
    obtain ⟨f, hf, hx⟩ := bind_eq_ok hx
    have hfield := required_eq_ok hf
    dsimp only at hx
    split at hx
    · -- A lookahead peeks: it takes nothing.
      obtain ⟨f', hf', hx⟩ := bind_eq_ok hx
      obtain rfl := Except.ok.inj hx
      exact hi.withPhv (hi.sized.congr (putField_sizes hfield (Field.extract_size hf')))
    · obtain ⟨bc, -, hx⟩ := bind_eq_ok hx
      exact (set_inside hi hfield _).of_ok hx
  | setData dst src =>
    obtain ⟨f, hf, hx⟩ := bind_eq_ok hx
    exact (set_inside hi (required_eq_ok hf) _).of_ok hx
  | setExpression dst e =>
    obtain ⟨f, hf, hx⟩ := bind_eq_ok hx
    obtain ⟨v, -, hx⟩ := bind_eq_ok hx
    exact (set_inside hi (required_eq_ok hf) _).of_ok hx
  | verify condition errorExpr =>
    obtain ⟨b, -, hx⟩ := bind_eq_ok hx
    split at hx
    · obtain rfl := Except.ok.inj hx
      exact hi.follows
    · obtain ⟨v, -, hx⟩ := bind_eq_ok hx
      cases hx
  | methodCall action =>
    obtain ⟨⟨phv, registers⟩, hr, hx⟩ := bind_eq_ok hx
    obtain rfl := Except.ok.inj hx
    exact ⟨⟨action.sized (required_eq_ok hr) hi.sized, hi.parsed⟩, le_rfl⟩
  | shift n =>
    obtain ⟨_, henough, hx⟩ := bind_eq_ok hx
    obtain rfl := Except.ok.inj hx
    exact advance_follows hi hi.sized ((checkEnough_inside hi n).of_ok henough)

/-- **A step** takes no more than is left, and gives no byte back. -/
theorem step_follows (hi : c.toState.Inv pkt) (hstep : ContainedStep ctx pkt p c c') :
    c.toState.Follows pkt c'.toState := by
  obtain ⟨hcont, hstep⟩ := hstep
  rcases step_cases hstep with ⟨st, op, todo, hc, -, hop⟩ | ⟨hs, -, -⟩
  · unfold Config.Contained at hcont
    rw [hc] at hcont
    exact run_follows hi hcont hop
  · rw [hs]
    exact hi.follows

theorem containedRun_inv (hi : c₀.toState.Inv pkt) (hrun : ContainedRun ctx pkt p c₀ c) :
    c.toState.Inv pkt := by
  induction hrun with
  | refl => exact hi
  | tail _ hstep ih => exact (step_follows ih hstep).inv

/-! ## Cycles -/

/-- The op extracts or shifts a byte at least, wherever the run comes to it. -/
def Takes (ctx : Context) (pkt : Packet) (p : Parser) (c₀ : Config) (op : ParserOp) : Prop :=
  ∀ c st todo s', ContainedRun ctx pkt p c₀ c → c.control = .ops st (op :: todo) →
    op.Contained ctx pkt c.toState → op.run ctx pkt c.toState = .ok s' → c.bytesParsed < s'.bytesParsed

/-- An edge of the parse graph. -/
def Parser.Goes (p : Parser) (st st' : ParseState) : Prop :=
  st ∈ p.states ∧ ∃ j, some j ∈ st.nexts ∧ p.states[j]? = some st'

/-- An edge from a state none of whose ops takes a byte for sure. -/
def Idles (ctx : Context) (pkt : Packet) (p : Parser) (c₀ : Config) (st st' : ParseState) : Prop :=
  p.Goes st st' ∧ ∀ op ∈ st.parserOps, ¬Takes ctx pkt p c₀ op

/-- Each cycle has a state with an op that takes a byte. -/
def CyclesTake (ctx : Context) (pkt : Packet) (p : Parser) (c₀ : Config) : Prop :=
  ∀ st, ¬Relation.TransGen (Idles ctx pkt p c₀) st st

/-- The run is over: there is no next state, or an op or a term of a key stopped it. -/
def Halted (ctx : Context) (pkt : Packet) (p : Parser) (c : Config) : Prop :=
  c.control = .done ∨ ∃ e, p.step ctx pkt c = .error e

/-- The op `shift` takes the bytes it shifts by. -/
theorem takes_shift (hi : c₀.toState.Inv pkt) {n : ℕ} (hn : 0 < n) :
    Takes ctx pkt p c₀ (.shift n) := by
  intro c st todo s' hrun _ _ hop
  have hic := containedRun_inv hi hrun
  obtain ⟨_, henough, hop⟩ := bind_eq_ok hop
  obtain rfl := Except.ok.inj hop
  have hle := (checkEnough_inside hic n).of_ok henough
  rw [advance_bytesParsed hic hle]
  omega

/-! ## The end of a run -/

section Ends

variable (hi₀ : c₀.toState.Inv pkt)

/-- A run is over, or at a step that is not covered. -/
def Stopped (ctx : Context) (pkt : Packet) (p : Parser) (c : Config) : Prop :=
  c.Contained ctx pkt → Halted ctx pkt p c

include hi₀ in
/-- A run that has not stopped makes a covered step. -/
theorem contained_progress (hrun : ContainedRun ctx pkt p c₀ c) (hgo : ¬Stopped ctx pkt p c) :
    ∃ c', ContainedStep ctx pkt p c c' ∧ ContainedRun ctx pkt p c₀ c' ∧ c.control ≠ .done ∧
      c.toState.Follows pkt c'.toState := by
  obtain ⟨hcont, hnot⟩ := Classical.not_imp.mp hgo
  cases hstep : p.step ctx pkt c with
  | error e => exact absurd (.inr ⟨e, hstep⟩) hnot
  | ok c' =>
    exact ⟨c', ⟨hcont, hstep⟩, hrun.tail ⟨hcont, hstep⟩, fun hdone => hnot (.inl hdone),
      step_follows (containedRun_inv hi₀ hrun) ⟨hcont, hstep⟩⟩

include hi₀ in
/-- The ops of a state are run through, and take a byte when one of them does for sure. -/
theorem contained_ops {st : ParseState} {todo : List ParserOp} (hrun : ContainedRun ctx pkt p c₀ c)
    (hc : c.control = .ops st todo) :
    (∃ c', ContainedRun ctx pkt p c₀ c' ∧ Stopped ctx pkt p c') ∨
      ∃ c', ContainedRun ctx pkt p c₀ c' ∧ c'.control = .ops st [] ∧
        c.bytesParsed ≤ c'.bytesParsed ∧
        ((∃ op ∈ todo, Takes ctx pkt p c₀ op) → c.bytesParsed < c'.bytesParsed) := by
  induction todo generalizing c with
  | nil => exact .inr ⟨c, hrun, hc, le_rfl, by simp⟩
  | cons op todo ih =>
    by_cases hgo : Stopped ctx pkt p c
    · exact .inl ⟨c, hrun, hgo⟩
    obtain ⟨c₁, ⟨hcont, hstep⟩, hrun₁, -, hfollows⟩ := contained_progress hi₀ hrun hgo
    rw [Parser.step, hc] at hstep
    obtain ⟨s₁, hop, hstep⟩ := bind_eq_ok hstep
    cases hstep
    have hcont' : op.Contained ctx pkt c.toState := by
      unfold Config.Contained at hcont
      rwa [hc] at hcont
    rcases ih hrun₁ rfl with hstop | ⟨c', hrun', hc', hle, hlt⟩
    · exact .inl hstop
    refine .inr ⟨c', hrun', hc', hfollows.le.trans hle, ?_⟩
    rintro ⟨op', hmem, htakes⟩
    rcases List.mem_cons.mp hmem with rfl | hmem
    · exact (htakes c st todo s₁ hrun hc hcont' hop).trans_le hle
    · exact hfollows.le.trans_lt (hlt ⟨op', hmem, htakes⟩)

include hi₀ in
/-- A key is built, without the packet being parsed further. -/
theorem contained_key {st : ParseState} {todo : List KeyEntry} {key : ByteContainer}
    (hrun : ContainedRun ctx pkt p c₀ c) (hc : c.control = .key st todo key) :
    (∃ c', ContainedRun ctx pkt p c₀ c' ∧ Stopped ctx pkt p c') ∨
      ∃ c' key', ContainedRun ctx pkt p c₀ c' ∧ c'.control = .key st [] key' ∧
        c'.bytesParsed = c.bytesParsed := by
  induction todo generalizing c key with
  | nil => exact .inr ⟨c, key, hrun, hc, rfl⟩
  | cons e todo ih =>
    by_cases hgo : Stopped ctx pkt p c
    · exact .inl ⟨c, hrun, hgo⟩
    obtain ⟨c₁, ⟨-, hstep⟩, hrun₁, -, -⟩ := contained_progress hi₀ hrun hgo
    rw [Parser.step, hc] at hstep
    obtain ⟨key₁, -, hstep⟩ := bind_eq_ok hstep
    cases hstep
    have hrest := ih hrun₁ rfl
    exact hrest

include hi₀ in
/-- After its ops a state goes on to one of its next states. -/
theorem contained_next {st : ParseState} (hrun : ContainedRun ctx pkt p c₀ c)
    (hc : c.control = .ops st []) :
    (∃ c', ContainedRun ctx pkt p c₀ c' ∧ Stopped ctx pkt p c') ∨
      ∃ c' next, ContainedRun ctx pkt p c₀ c' ∧ next ∈ st.nexts ∧ p.enter next = .ok c'.control ∧
        c'.bytesParsed = c.bytesParsed := by
  by_cases hgo : Stopped ctx pkt p c
  · exact .inl ⟨c, hrun, hgo⟩
  obtain ⟨c₁, ⟨-, hstep⟩, hrun₁, -, -⟩ := contained_progress hi₀ hrun hgo
  rw [Parser.step, hc] at hstep
  cases hk : st.keyBuilder with
  | none =>
    simp only [hk] at hstep
    obtain ⟨ctl, hctl, hstep⟩ := bind_eq_ok hstep
    cases hstep
    exact .inr ⟨_, _, hrun₁, List.mem_cons_self, hctl, rfl⟩
  | some entries =>
    simp only [hk] at hstep
    cases hstep
    rcases contained_key hi₀ hrun₁ rfl with hend | ⟨c₂, key, hrun₂, hc₂, hbytes⟩
    · exact .inl hend
    by_cases hgo₂ : Stopped ctx pkt p c₂
    · exact .inl ⟨c₂, hrun₂, hgo₂⟩
    obtain ⟨c₃, ⟨-, hstep₂⟩, hrun₃, -, -⟩ := contained_progress hi₀ hrun₂ hgo₂
    rw [Parser.step, hc₂] at hstep₂
    obtain ⟨next, hnext, hstep₂⟩ := bind_eq_ok hstep₂
    obtain ⟨ctl, hctl, hstep₂⟩ := bind_eq_ok hstep₂
    cases hstep₂
    exact .inr ⟨_, next, hrun₃, findCase_mem hnext, hctl, hbytes⟩

include hi₀ in
/-- **A state that is entered is left for good**: the bytes that are left decrease, or the
run goes along an edge of which there is only so many in a row. -/
theorem contained_state_ends (hcycles : CyclesTake ctx pkt p c₀) (st : {st // st ∈ p.states})
    (hrun : ContainedRun ctx pkt p c₀ c) (hc : c.control = .ops st.1 st.1.parserOps) :
    ∃ c', ContainedRun ctx pkt p c₀ c' ∧ Stopped ctx pkt p c' := by
  induction hm : left pkt c.bytesParsed using Nat.strong_induction_on generalizing st c with
  | _ m ihm =>
    subst hm
    induction st using (wellFounded_of_acyclic hcycles p.states).induction generalizing c with
    | _ st ihst =>
      rcases contained_ops hi₀ hrun hc with hend | ⟨c₁, hrun₁, hc₁, hle, htake⟩
      · exact hend
      rcases contained_next hi₀ hrun₁ hc₁ with hend | ⟨c₂, next, hrun₂, hmem, henter, hbytes⟩
      · exact hend
      rcases enter_from henter with ⟨-, hdone⟩ | ⟨j, st', rfl, hst', hc₂⟩
      · exact ⟨c₂, hrun₂, fun _ => .inl hdone⟩
      have hparsed := (containedRun_inv hi₀ hrun₂).parsed
      rcases Nat.lt_or_ge c.bytesParsed c₂.bytesParsed with hlt | hge
      · refine ihm _ ?_ ⟨st', List.mem_of_getElem? hst'⟩ hrun₂ hc₂ rfl
        rw [left, left]
        omega
      · -- No byte was taken, so that this state has no op that does.
        have hidle : Idles ctx pkt p c₀ st.1 st' := by
          refine ⟨⟨st.2, j, hmem, hst'⟩, fun op hop htakes => ?_⟩
          have := htake ⟨op, hop, htakes⟩
          omega
        have heq : c₂.bytesParsed = c.bytesParsed := by omega
        exact ihst ⟨st', List.mem_of_getElem? hst'⟩ (.single hidle) hrun₂ hc₂ (heq ▸ ihm)

end Ends

/-! ## Entering a state again -/

/-- The run is in this state, none of whose ops so far takes a byte for sure. -/
def Within (ctx : Context) (pkt : Packet) (p : Parser) (c₀ : Config) (st : ParseState) (c : Config) :
    Prop :=
  match c.control with
  | .ops st' todo => st' = st ∧ st ∈ p.states ∧
    ∃ past, st.parserOps = past ++ todo ∧ ∀ op ∈ past, ¬Takes ctx pkt p c₀ op
  | .key st' _ _ => st' = st ∧ st ∈ p.states ∧ ∀ op ∈ st.parserOps, ¬Takes ctx pkt p c₀ op
  | .done => False

/-- The run is at the first op of this state. -/
def Enters (st : ParseState) (c : Config) : Prop := c.control = .ops st st.parserOps

/-- Where a run is after it was in this state without taking a byte. -/
def After (ctx : Context) (pkt : Packet) (p : Parser) (c₀ : Config) (st : ParseState) (c : Config) :
    Prop :=
  (Within ctx pkt p c₀ st c ∧ ¬Enters st c) ∨
    (∃ st', Relation.TransGen (Idles ctx pkt p c₀) st st' ∧ Within ctx pkt p c₀ st' c) ∨
    c.control = .done

theorem after_of_enter {st : ParseState} (hst : st ∈ p.states)
    (hidle : ∀ op ∈ st.parserOps, ¬Takes ctx pkt p c₀ op) {next : Option ℕ} (hmem : next ∈ st.nexts)
    (henter : p.enter next = .ok c'.control) : After ctx pkt p c₀ st c' := by
  rcases enter_from henter with ⟨-, hdone⟩ | ⟨j, st', rfl, hst', hc'⟩
  · exact .inr (.inr hdone)
  · refine .inr (.inl ⟨st', .single ⟨⟨hst, j, hmem, hst'⟩, hidle⟩, ?_⟩)
    unfold Within
    rw [hc']
    exact ⟨rfl, List.mem_of_getElem? hst', [], rfl, by simp⟩

/-- **One step that takes no byte.** -/
theorem after_step (hrun : ContainedRun ctx pkt p c₀ c) {st : ParseState}
    (hin : Within ctx pkt p c₀ st c) (hstep : ContainedStep ctx pkt p c c')
    (hbytes : c'.bytesParsed = c.bytesParsed) : After ctx pkt p c₀ st c' := by
  obtain ⟨hcont, hstep⟩ := hstep
  unfold Within at hin
  rw [Parser.step.eq_def] at hstep
  match hc : c.control with
  | .ops st' (op :: todo) =>
    rw [hc] at hin hstep
    obtain ⟨rfl, hst, past, hpast, hidle⟩ := hin
    obtain ⟨s', hop, hstep⟩ := bind_eq_ok hstep
    cases hstep
    unfold Config.Contained at hcont
    rw [hc] at hcont
    have hnot : ¬Takes ctx pkt p c₀ op := fun htakes => by
      have hlt := htakes c st' todo s' hrun hc hcont hop
      have heq : s'.bytesParsed = c.bytesParsed := hbytes
      omega
    refine .inl ⟨⟨rfl, hst, past ++ [op], by rw [hpast, List.append_assoc]; rfl, fun o ho => ?_⟩,
      fun henters => ?_⟩
    · rcases List.mem_append.mp ho with ho | ho
      · exact hidle o ho
      · rwa [List.mem_singleton.mp ho]
    · -- An op of the state was left behind.
      have htodo : todo = st'.parserOps := (Control.ops.inj henters).2
      have hlen := congrArg List.length hpast
      rw [List.length_append, List.length_cons, ← htodo] at hlen
      omega
  | .ops st' [] =>
    rw [hc] at hin hstep
    obtain ⟨rfl, hst, past, hpast, hidle⟩ := hin
    rw [List.append_nil] at hpast
    rw [← hpast] at hidle
    cases hk : st'.keyBuilder with
    | none =>
      simp only [hk] at hstep
      obtain ⟨ctl, hctl, hstep⟩ := bind_eq_ok hstep
      cases hstep
      exact after_of_enter hst hidle List.mem_cons_self hctl
    | some entries =>
      simp only [hk] at hstep
      cases hstep
      exact .inl ⟨⟨rfl, hst, hidle⟩, by simp [Enters]⟩
  | .key st' (e :: todo) key =>
    rw [hc] at hin hstep
    obtain ⟨key', -, hstep⟩ := bind_eq_ok hstep
    cases hstep
    exact .inl ⟨hin, by simp [Enters]⟩
  | .key st' [] key =>
    rw [hc] at hin hstep
    obtain ⟨rfl, hst, hidle⟩ := hin
    obtain ⟨next, hnext, hstep⟩ := bind_eq_ok hstep
    obtain ⟨ctl, hctl, hstep⟩ := bind_eq_ok hstep
    cases hstep
    exact after_of_enter hst hidle (findCase_mem hnext) hctl
  | .done =>
    rw [hc] at hin
    exact hin.elim

theorem After.step (hrun : ContainedRun ctx pkt p c₀ c) {st : ParseState}
    (hafter : After ctx pkt p c₀ st c) (hstep : ContainedStep ctx pkt p c c')
    (hbytes : c'.bytesParsed = c.bytesParsed) : After ctx pkt p c₀ st c' := by
  rcases hafter with ⟨hin, -⟩ | ⟨st', hpath, hin⟩ | hdone
  · exact after_step hrun hin hstep hbytes
  · rcases after_step hrun hin hstep hbytes with ⟨hin', -⟩ | ⟨st'', hpath', hin'⟩ | hdone
    · exact .inr (.inl ⟨st', hpath, hin'⟩)
    · exact .inr (.inl ⟨st'', hpath.trans hpath', hin'⟩)
    · exact .inr (.inr hdone)
  · have hstay := hstep.2
    rw [Parser.step, hdone] at hstay
    obtain rfl := Except.ok.inj hstay
    exact .inr (.inr hdone)

section Again

variable (hi₀ : c₀.toState.Inv pkt)

include hi₀ in
theorem bytesParsed_mono (hrun : ContainedRun ctx pkt p c₀ c)
    (hmore : Relation.ReflTransGen (ContainedStep ctx pkt p) c c') : c.bytesParsed ≤ c'.bytesParsed := by
  induction hmore with
  | refl => exact le_rfl
  | tail hmore hstep ih =>
    have hfollows := step_follows (containedRun_inv hi₀ (hrun.trans hmore)) hstep
    exact ih.trans hfollows.le

include hi₀ in
/-- **A state that is entered again has more of the packet parsed.** -/
theorem bytesParsed_lt_of_enters (hcycles : CyclesTake ctx pkt p c₀) {st : ParseState}
    (hst : st ∈ p.states) (hrun : ContainedRun ctx pkt p c₀ c) (hc : Enters st c)
    (hmore : Relation.TransGen (ContainedStep ctx pkt p) c c') (hc' : Enters st c') :
    c.bytesParsed < c'.bytesParsed := by
  by_contra hnot
  have hwithin : Within ctx pkt p c₀ st c := by
    unfold Within
    rw [hc]
    exact ⟨rfl, hst, [], rfl, by simp⟩
  have hall : ∀ d, Relation.TransGen (ContainedStep ctx pkt p) c d →
      d.bytesParsed ≤ c.bytesParsed → After ctx pkt p c₀ st d := by
    intro d hd
    induction hd with
    | single hstep =>
      intro hle
      have hge := bytesParsed_mono hi₀ hrun (.single hstep)
      exact after_step hrun hwithin hstep (by omega)
    | tail hpath hstep ih =>
      intro hle
      have hrun' := hrun.trans hpath.to_reflTransGen
      have hge := bytesParsed_mono hi₀ hrun hpath.to_reflTransGen
      have hge' := bytesParsed_mono hi₀ hrun' (.single hstep)
      exact (ih (by omega)).step hrun' hstep (by omega)
  rcases hall c' hmore (by omega) with ⟨-, hne⟩ | ⟨st', hpath, hin⟩ | hdone
  · exact hne hc'
  · -- The run came back to the state along edges that take no byte.
    unfold Within at hin
    rw [hc'] at hin
    exact hcycles st (hin.1 ▸ hpath)
  · rw [hc'] at hdone
    cases hdone

end Again

/-- **`Parser::parse` comes to its end**: when each cycle of the parse graph has an op that
takes a byte, a run whose steps are contained cannot go on for ever, no more is parsed than
the packet has, and a state that is entered again has more parsed than before. -/
theorem contained_run_ends (ctx : Context) (p : Parser) (pkt : Packet) (phv : Phv)
    (registers : Registers) (hsized : phv.Sized) (hlen : 0 ≤ pkt.ingressLength.toInt) (c₀ : Config)
    (hstart : p.start phv registers = .ok c₀) (hcycles : CyclesTake ctx pkt p c₀) :
    (∃ c, ContainedRun ctx pkt p c₀ c ∧ (c.Contained ctx pkt → Halted ctx pkt p c)) ∧
    (∀ c, ContainedRun ctx pkt p c₀ c → (c.bytesParsed : ℤ) ≤ pkt.ingressLength.toInt) ∧
    ∀ st c c', st ∈ p.states → ContainedRun ctx pkt p c₀ c → Enters st c →
      Relation.TransGen (ContainedStep ctx pkt p) c c' → Enters st c' →
      c.bytesParsed < c'.bytesParsed := by
  obtain ⟨ctl, hctl, hstart⟩ := bind_eq_ok hstart
  obtain rfl := Except.ok.inj hstart
  have hi₀ : State.Inv pkt ⟨phv, registers, 0⟩ := ⟨hsized, by simpa using hlen⟩
  refine ⟨?_, fun c hrun => (containedRun_inv hi₀ hrun).parsed,
    fun st c c' hst hrun hc hmore hc' =>
      bytesParsed_lt_of_enters hi₀ hcycles hst hrun hc hmore hc'⟩
  rcases enter_from hctl with ⟨-, rfl⟩ | ⟨j, st, -, hst, rfl⟩
  · exact ⟨_, .refl, fun _ => .inl rfl⟩
  · exact contained_state_ends hi₀ hcycles ⟨st, List.mem_of_getElem? hst⟩ .refl rfl

/-! ## A loop, and a header that is longer than the packet -/

/-- A state that shifts by a byte and goes back to itself. -/
def loopState : ParseState := ⟨[.shift 1], none, [], some 0⟩

def loopParser : Parser := ⟨[loopState], some 0⟩

def loopStart : Config := tagConfig tagPhv 0 (.ops loopState loopState.parserOps)

theorem loopParser_cycles {pkt : Packet} (hlen : 0 ≤ pkt.ingressLength.toInt) :
    CyclesTake tagContext pkt loopParser loopStart := by
  intro st hcycle
  obtain ⟨st', ⟨⟨hst, -⟩, hidle⟩, -⟩ := Relation.TransGen.head'_iff.mp hcycle
  obtain rfl : st = loopState := by simpa [loopParser] using hst
  have hi : loopStart.toState.Inv pkt := ⟨tagPhv_sized, by simpa [loopStart, tagConfig] using hlen⟩
  exact hidle (.shift 1) (by simp [loopState]) (takes_shift hi (by omega))

/-- On a packet of two bytes the loop ends. -/
theorem loopParser_ends :
    (∃ c, ContainedRun tagContext ⟨[1, 2], 2⟩ loopParser loopStart c ∧
      (c.Contained tagContext ⟨[1, 2], 2⟩ → Halted tagContext ⟨[1, 2], 2⟩ loopParser c)) ∧
    (∀ c, ContainedRun tagContext ⟨[1, 2], 2⟩ loopParser loopStart c →
      (c.bytesParsed : ℤ) ≤ (2 : Int32).toInt) ∧
    ∀ st c c', st ∈ loopParser.states →
      ContainedRun tagContext ⟨[1, 2], 2⟩ loopParser loopStart c → Enters st c →
      Relation.TransGen (ContainedStep tagContext ⟨[1, 2], 2⟩ loopParser) c c' → Enters st c' →
      c.bytesParsed < c'.bytesParsed :=
  contained_run_ends tagContext loopParser ⟨[1, 2], 2⟩ tagPhv (fun _ _ => none) tagPhv_sized
    (by decide) loopStart rfl (loopParser_cycles (by decide))

/-- A byte that says how many bits of options there are. -/
def lengthHeader : Header where
  headerType := 0
  fields := [Field.create 8 false, { value := 0, nbits := 0, bytes := [], vlMask := some 0 },
    Field.create 1 true]
  valid := false
  metadata := false
  nbytesPacket := 1
  unionMembership := none

def lengthPhv : Phv := ⟨[lengthHeader], [], [], []⟩

def lengthContext : Context :=
  { tagContext with vlExpr := fun _ => some { ops := [.loadField 0 0] } }

def lengthState : ParseState := ⟨[.extract 0], none, [], none⟩

def lengthParser : Parser := ⟨[lengthState], some 0⟩

/-- A packet of one byte, and two bytes that are behind it in memory. -/
def lengthPacket : Packet := ⟨[16, 0, 0], 1⟩

theorem lengthPhv_sized : lengthPhv.Sized := by
  intro hdr hhdr
  obtain rfl : hdr = lengthHeader := by simpa [lengthPhv] using hhdr
  exact ⟨rfl, by decide, by decide, by decide, fun f hf => by cases hf; rfl⟩

/-- **More is parsed than the packet has**: its length is one byte when the header is
checked, and three when it is known. -/
theorem length_beyond_packet :
    ∃ c, lengthParser.step lengthContext lengthPacket
        (tagConfig lengthPhv 0 (.ops lengthState lengthState.parserOps)) = .ok c ∧
      c.bytesParsed = 3 ∧
      ¬∀ (ctx : Context) (p : Parser) (pkt : Packet) (phv : Phv) (registers : Registers)
        (c₀ : Config), phv.Sized → 0 ≤ pkt.ingressLength.toInt → p.start phv registers = .ok c₀ →
        (∀ st, ¬Relation.TransGen p.Goes st st) →
        ∀ c, Relation.ReflTransGen (fun c c' => p.step ctx pkt c = .ok c') c₀ c →
          (c.bytesParsed : ℤ) ≤ pkt.ingressLength.toInt := by
  obtain ⟨c, hstep, hparsed⟩ : ∃ c, lengthParser.step lengthContext lengthPacket
      (tagConfig lengthPhv 0 (.ops lengthState lengthState.parserOps)) = .ok c ∧
      c.bytesParsed = 3 := ⟨_, rfl, rfl⟩
  refine ⟨c, hstep, hparsed, fun h => ?_⟩
  have hacyclic : ∀ st, ¬Relation.TransGen lengthParser.Goes st st := by
    intro st hcycle
    obtain ⟨st', ⟨hst, j, hj, -⟩, -⟩ := Relation.TransGen.head'_iff.mp hcycle
    obtain rfl : st = lengthState := by simpa [lengthParser] using hst
    simp [ParseState.nexts, lengthState] at hj
  have hle := h lengthContext lengthParser lengthPacket lengthPhv (fun _ _ => none) _
    lengthPhv_sized (by decide) rfl hacyclic c (.single hstep)
  rw [hparsed] at hle
  exact absurd hle (by decide)

end Parsing

end P4Bricks
