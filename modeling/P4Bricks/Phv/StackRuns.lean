import P4Bricks.Phv.Stacks
/-!
# Runs of stack operations

Any sequence of pushes and pops on a stack of a reset header vector. The
condition is the one under which `push_front` does what it is for: there is
an element to push, and the sum of the count and of `num` is one that a
`size_t` holds.
-/

namespace P4Bricks

namespace Stack

/-- Whether `elements[e]` is a valid header, or a union that has one or says
that it has. -/
def Kind.HasValid (phv : Phv) (e : ℕ) : Kind → Prop
  | header => ∃ hdr, phv.headers[e]? = some hdr ∧ hdr.isValid = true
  | headerUnion => ∃ un, phv.headerUnions[e]? = some un ∧
      (un.valid = true ∨ ∃ m ∈ un.headers, ∃ hdr, phv.headers[m]? = some hdr ∧ hdr.isValid = true)

/-- What `push_front` needs. -/
def Op.Fits (st : Stack) : Op → Prop
  | .pushFront => 0 < st.elements.length
  | .pushFrontN num => num = 0 ∨ 0 < st.elements.length ∧ st.next + num.toNat < 2 ^ 64
  | _ => True

/-- Operations on one stack, each of which fits. -/
inductive RunIf (k : Kind) (s : ℕ) (phv₀ : Phv) : Phv → Prop where
  | nil : RunIf k s phv₀ phv₀
  | snoc {phv phv' : Phv} {st : Stack} {op : Op} {n : ℕ} (hrun : RunIf k s phv₀ phv)
      (hst : (k.stacksOf phv)[s]? = some st) (hfits : op.Fits st)
      (hstep : op.run k phv s = .ok (phv', n)) : RunIf k s phv₀ phv'

/-- Two header vectors with the same stack: as many elements, of the same
contents, and no other that is valid. -/
def SameStack (k : Kind) (s : ℕ) (phv phv' : Phv) : Prop :=
  ∃ elements next, Counts k s elements phv next ∧ Counts k s elements phv' next ∧
    (∀ (i e : ℕ), i < next → elements[i]? = some e → k.held phv e = k.held phv' e) ∧
    ∀ (i e : ℕ), next ≤ i → elements[i]? = some e → ¬k.HasValid phv e ∧ ¬k.HasValid phv' e

/-- Two header vectors in whose stack the same elements of a third one are
left, `num` places further on. -/
def SameSurvivors (k : Kind) (s num : ℕ) (before phv phv' : Phv) : Prop :=
  ∃ elements next, Counts k s elements phv next ∧ Counts k s elements phv' next ∧
    ∀ (i e e₀ : ℕ), num ≤ i → i < next → elements[i]? = some e → elements[i - num]? = some e₀ →
      k.held phv e = k.held before e₀ ∧ k.held phv' e = k.held before e₀

variable {k : Kind} {elements : List ℕ} {phv phv' : Phv} {s next : ℕ}

theorem valid_held (h : Ready k s elements phv) {i e : ℕ} (he : elements[i]? = some e) :
    (k.held phv e).Valid ↔ k.HasValid phv e := by
  obtain ⟨st, hst, rfl⟩ := h.hasStack
  have hmem := List.mem_of_getElem? he
  cases k with
  | header =>
    obtain ⟨x, -, hx, -, -, hmeta, -⟩ := h.arranged.exchange s st hst e hmem e hmem
    simp [Held.Valid, Kind.held, Kind.HasValid, Phv.content, hx, Header.isValid, hmeta,
      Header.contents]
  | headerUnion =>
    obtain ⟨un, -, hun, -⟩ := h.arranged.unions s st hst e hmem e hmem
    -- A member is not metadata, so that its flag is all there is.
    have hflag : ∀ (m : ℕ) (hdr : Header), m ∈ un.headers → phv.headers[m]? = some hdr →
        hdr.isValid = hdr.valid := by
      intro m hdr hm hhdr
      obtain ⟨l, hl⟩ := List.mem_iff_getElem?.mp hm
      have hplace : phv.memberOf m = some (e, l) :=
        (h.arranged.joined.member_iff _ _).mp (by simp [Phv.member, hun, hl])
      have hmeta := h.arranged.joined.notMetadata hdr (List.mem_of_getElem? hhdr) (by
        rw [Phv.memberOf, hhdr, Option.bind_some] at hplace
        rw [hplace]
        rfl)
      rw [Header.isValid, hmeta, Bool.false_or]
    simp only [Held.Valid, Kind.held, Kind.HasValid, Phv.record, Phv.members, hun, Option.map_some,
      Option.some.injEq, Prod.mk.injEq, exists_eq_left', Option.getD_some, List.mem_map]
    refine or_congr ⟨?_, fun h => ⟨_, h, rfl⟩⟩ ?_
    · rintro ⟨idx, hchoice, -⟩
      exact hchoice
    constructor
    · rintro ⟨hdr, ⟨m, hm, hcontent⟩, hv⟩
      obtain ⟨hdr', hhdr', rfl⟩ := Option.map_eq_some_iff.mp hcontent
      exact ⟨m, hm, hdr', hhdr', (hflag m hdr' hm hhdr').trans hv⟩
    · rintro ⟨m, hm, hdr, hhdr, hv⟩
      refine ⟨hdr.contents, ⟨m, hm, by rw [Phv.content, hhdr]; rfl⟩, ?_⟩
      rw [hflag m hdr hm hhdr] at hv
      exact hv

theorem InUse.hasValid_iff (h : InUse k s elements phv next) {i e : ℕ}
    (he : elements[i]? = some e) : k.HasValid phv e ↔ k = .header ∧ i < next := by
  rw [← valid_held h.ready he]
  exact h.valid_iff i _ (by rw [row, he]; rfl)

/-- **A stack of a header vector that was reset** is empty. -/
theorem inUse_reset {F : PhvFactory} (hF : F.WellFormed) (hphv : F.Reaches phv) {st : Stack}
    (hst : (k.stacksOf phv)[s]? = some st) :
    InUse k s st.elements phv.reset.resetHeaderStacks 0 := by
  obtain ⟨hblank, hchosen⟩ := hphv.layout hF
  have harranged := (PhvFactory.create_arranged hF).congr hblank
  have hreset : phv.reset.resetHeaderStacks.blank = phv.blank :=
    (phv.reset.resetHeaderStacks_blank).trans phv.reset_blank
  obtain ⟨hflag, hchoice⟩ := Phv.reset_cleared harranged.joined hchosen
  have hready : Ready k s st.elements phv.reset.resetHeaderStacks :=
    ⟨harranged.congr hreset, Phv.exists_stack hreset k hst⟩
  refine ⟨hready, ?_, Nat.zero_le _, fun i c hc => ?_⟩
  · obtain ⟨st', hst', heq⟩ := Phv.exists_stack phv.reset_blank k hst
    cases k with
    | header =>
      have hst'' : phv.reset.headerStacks[s]? = some st' := hst'
      simp [Counts, Kind.stacksOf, Phv.resetHeaderStacks, hst'', heq]
    | headerUnion =>
      have hst'' : phv.reset.headerUnionStacks[s]? = some st' := hst'
      simp [Counts, Kind.stacksOf, Phv.resetHeaderStacks, hst'', heq]
  · -- No header has its flag, and no union a choice.
    have hheaders : ∀ (g : ℕ) (hdr : Header), phv.reset.content g = some hdr → hdr.valid = false := by
      intro g hdr hhdr
      have := hflag g
      rwa [Phv.flag_eq_content, hhdr] at this
    obtain ⟨e, he, rfl⟩ := Option.map_eq_some_iff.mp hc
    simp only [Nat.not_lt_zero, and_false, iff_false]
    rintro (⟨idx, hrec⟩ | ⟨hdr, hmem, hv⟩)
    · cases k with
      | header => cases hrec
      | headerUnion =>
        have hnone := hchoice e
        have hrec' : phv.reset.record e = some (true, idx) := hrec
        rw [Phv.choice_eq_record, hrec'] at hnone
        cases hnone
    · have hfalse : hdr.valid = false := by
        cases k with
        | header => exact hheaders e hdr (List.mem_singleton.mp hmem).symm
        | headerUnion =>
          obtain ⟨m, -, hm⟩ := List.mem_map.mp hmem
          exact hheaders m hdr hm
      rw [hfalse] at hv
      cases hv

/-! ## Steps -/

/-- **An operation that fits returns**, and leaves a stack in use. -/
theorem op_spec (h : InUse k s elements phv next) (hsize : elements.length < 2 ^ 63) {op : Op}
    (hfits : op.Fits ⟨elements, next⟩) :
    Returns (op.run k phv s) fun r => ∃ next', InUse k s elements r.1 next' := by
  cases op with
  | popFront =>
    rw [Op.run, popFront_eq h]
    exact (popFrontN_spec h 1).mono fun r hr => ⟨_, hr.1⟩
  | popFrontN num => exact (popFrontN_spec h num.toNat).mono fun r hr => ⟨_, hr.1⟩
  | pushFront =>
    have hle := h.le
    rw [Op.run, pushFront_eq h hfits hsize]
    exact (pushFrontN_spec h (.inr ⟨hfits, by omega⟩)).mono fun r hr => ⟨_, hr.1⟩
  | pushFrontN num =>
    refine (pushFrontN_spec h ?_).mono fun r hr => ⟨_, hr.1⟩
    exact hfits.imp (fun h0 => by rw [h0]; rfl) id
  | popBack => exact (popBack_spec h).mono fun r hr => ⟨_, hr⟩
  | pushBack => exact (pushBack_spec h).mono fun r hr => ⟨_, hr⟩

theorem RunIf.inUse {phv₀ : Phv} (hrun : RunIf k s phv₀ phv) (h : InUse k s elements phv₀ next)
    (hsize : elements.length < 2 ^ 63) : ∃ next', InUse k s elements phv next' := by
  induction hrun with
  | nil => exact ⟨next, h⟩
  | snoc _ hst hfits hstep ih =>
    obtain ⟨next', h'⟩ := ih
    rw [show _ = _ from h'.counts] at hst
    cases hst
    exact (op_spec h' hsize hfits).of_ok hstep

/-! ## One call for several -/

theorem popFronts_spec (h : InUse k s elements phv next) (n : ℕ) :
    Returns (phv.run (List.replicate n (.stack k s .popFront))) fun phv' =>
      InUse k s elements phv' (next - n) ∧
        ∀ i < next - n, row k elements phv' i = row k elements phv (i + n) := by
  induction n generalizing phv next with
  | zero => exact .ok ⟨h, fun i _ => rfl⟩
  | succ n ih =>
    rw [List.replicate_succ, Phv.run, Phv.Op.run, Op.run, popFront_eq h]
    refine ((popFrontN_spec h 1).bind fun r _ hr => .ok (Q := fun p => InUse k s elements p (next - 1) ∧
      ∀ i < next - 1, row k elements p i = row k elements phv (i + 1)) hr).bind fun phv₁ _ ⟨h₁, hrow₁⟩ => ?_
    refine (ih h₁).mono fun phv' ⟨h', hrow'⟩ => ⟨?_, fun i hi => ?_⟩
    · rwa [show next - (n + 1) = next - 1 - n by omega]
    · rw [hrow' i (by omega), hrow₁ _ (by omega), Nat.add_assoc]

theorem pushFronts_spec (h : InUse k s elements phv next) (hpos : 0 < elements.length)
    (hsize : elements.length < 2 ^ 63) (n : ℕ) :
    Returns (phv.run (List.replicate n (.stack k s .pushFront))) fun phv' =>
      InUse k s elements phv' (min elements.length (next + n)) ∧
        ∀ i, n ≤ i → i < min elements.length (next + n) →
          row k elements phv' i = row k elements phv (i - n) := by
  have hle := h.le
  induction n generalizing phv next with
  | zero =>
    rw [Nat.add_zero, Nat.min_eq_right hle]
    exact .ok ⟨h, fun i _ _ => rfl⟩
  | succ n ih =>
    rw [List.replicate_succ, Phv.run, Phv.Op.run, Op.run, pushFront_eq h hpos hsize]
    refine ((pushFrontN_spec h (.inr ⟨hpos, by omega⟩)).bind fun r _ hr => .ok (Q := fun p =>
      InUse k s elements p (min elements.length (next + 1)) ∧
        ∀ i, 1 ≤ i → i < min elements.length (next + 1) →
          row k elements p i = row k elements phv (i - 1)) hr).bind fun phv₁ _ ⟨h₁, hrow₁⟩ => ?_
    refine (ih h₁ h₁.le).mono fun phv' ⟨h', hrow'⟩ => ⟨?_, fun i hi hlt => ?_⟩
    · rwa [show min elements.length (next + (n + 1)) =
        min elements.length (min elements.length (next + 1) + n) by omega]
    · rw [hrow' i (by omega) (by omega), hrow₁ _ (by omega) (by omega), Nat.sub_sub]

/-- Cells that are the same hold the same. -/
theorem held_of_row {i j e e₀ : ℕ} (hrow : row k elements phv' i = row k elements phv j)
    (he : elements[i]? = some e) (he₀ : elements[j]? = some e₀) :
    k.held phv' e = k.held phv e₀ := by
  rw [row, row, he, he₀] at hrow
  exact Option.some.inj hrow

theorem popFrontN_same (h : InUse k s elements phv next) (num : ℕ) :
    ∃ phv₁ n phv₂, popFrontN k phv s num = .ok (phv₁, n) ∧
      phv.run (List.replicate num (.stack k s .popFront)) = .ok phv₂ ∧ SameStack k s phv₁ phv₂ := by
  obtain ⟨⟨phv₁, n⟩, h₁, huse₁, hrow₁⟩ := (popFrontN_spec h num).exists_ok
  obtain ⟨phv₂, h₂, huse₂, hrow₂⟩ := (popFronts_spec h num).exists_ok
  refine ⟨phv₁, n, phv₂, h₁, h₂, elements, _, huse₁.counts, huse₂.counts, fun i e hi he => ?_,
    fun i e hi he => ⟨?_, ?_⟩⟩
  · exact held_of_row ((hrow₁ i hi).trans (hrow₂ i hi).symm) he he
  · rw [huse₁.hasValid_iff he]
    omega
  · rw [huse₂.hasValid_iff he]
    omega

theorem pushFrontN_same (h : InUse k s elements phv next) (hsize : elements.length < 2 ^ 63)
    {num : UInt64} (hfits : (Op.pushFrontN num).Fits ⟨elements, next⟩) :
    ∃ phv₁ n phv₂, pushFrontN k phv s num.toNat = .ok (phv₁, n) ∧
      phv.run (List.replicate num.toNat (.stack k s .pushFront)) = .ok phv₂ ∧
      SameSurvivors k s num.toNat phv phv₁ phv₂ := by
  have hle := h.le
  have hfits' : num.toNat = 0 ∨ 0 < elements.length ∧ next + num.toNat < 2 ^ 64 :=
    hfits.imp (fun h0 => by rw [h0]; rfl) id
  obtain ⟨⟨phv₁, n⟩, h₁, huse₁, hrow₁⟩ := (pushFrontN_spec h hfits').exists_ok
  -- With nothing to push there need not be an element.
  obtain ⟨phv₂, h₂, huse₂, hrow₂⟩ : ∃ phv₂,
      phv.run (List.replicate num.toNat (.stack k s .pushFront)) = .ok phv₂ ∧
        InUse k s elements phv₂ (min elements.length (next + num.toNat)) ∧
        ∀ i, num.toNat ≤ i → i < min elements.length (next + num.toNat) →
          row k elements phv₂ i = row k elements phv (i - num.toNat) := by
    rcases hfits' with hzero | ⟨hpos, -⟩
    · rw [hzero, Nat.add_zero, Nat.min_eq_right hle]
      exact ⟨phv, rfl, h, fun i _ _ => rfl⟩
    · exact (pushFronts_spec h hpos hsize num.toNat).exists_ok
  refine ⟨phv₁, n, phv₂, h₁, h₂, elements, _, huse₁.counts, huse₂.counts,
    fun i e e₀ hi hlt he he₀ => ⟨?_, ?_⟩⟩
  · exact held_of_row (hrow₁ i hi hlt) he he₀
  · exact held_of_row (hrow₂ i hi hlt) he he₀

/-- **Stacks, as long as every push fits.** From a reset header vector of any
program: the count is within the depth; no element from the count on is
valid; every header below it is; every operation that fits returns; and an
operation with a number does what as many single ones do. The size of a
vector is one that the difference of two of its iterators can be. -/
theorem stack_run (F : PhvFactory) (hF : F.WellFormed) (phv₀ : Phv) (h₀ : F.Reaches phv₀) (k : Kind)
    (s : ℕ) (st₀ : Stack) (hst₀ : (k.stacksOf phv₀)[s]? = some st₀)
    (hsize : st₀.elements.length < 2 ^ 63) (phv : Phv)
    (hrun : RunIf k s phv₀.reset.resetHeaderStacks phv) :
    ∃ st, (k.stacksOf phv)[s]? = some st ∧ st.elements = st₀.elements ∧
      st.next ≤ st.elements.length ∧
      (∀ (i e : ℕ), st.next ≤ i → st.elements[i]? = some e → ¬k.HasValid phv e) ∧
      (k = .header → ∀ (i e : ℕ), i < st.next → st.elements[i]? = some e → k.HasValid phv e) ∧
      (∀ op : Op, op.Fits st → ∃ phv' n, op.run k phv s = .ok (phv', n)) ∧
      (∀ num : UInt64, ∃ phv₁ n phv₂, popFrontN k phv s num.toNat = .ok (phv₁, n) ∧
        phv.run (List.replicate num.toNat (.stack k s .popFront)) = .ok phv₂ ∧
        SameStack k s phv₁ phv₂) ∧
      ∀ num : UInt64, (Op.pushFrontN num).Fits st →
        ∃ phv₁ n phv₂, pushFrontN k phv s num.toNat = .ok (phv₁, n) ∧
          phv.run (List.replicate num.toNat (.stack k s .pushFront)) = .ok phv₂ ∧
          SameSurvivors k s num.toNat phv phv₁ phv₂ := by
  obtain ⟨next, h⟩ := hrun.inUse (inUse_reset hF h₀ hst₀) hsize
  refine ⟨⟨st₀.elements, next⟩, h.counts, rfl, h.le, fun i e hi he => ?_, fun hk i e hi he => ?_,
    fun op hfits => ?_, fun num => popFrontN_same h num.toNat,
    fun num hfits => pushFrontN_same h hsize hfits⟩
  · rw [h.hasValid_iff he]
    exact fun hv => absurd hv.2 (Nat.not_lt.mpr hi)
  · rw [h.hasValid_iff he]
    exact ⟨hk, hi⟩
  · obtain ⟨⟨phv', n⟩, hok, -⟩ := (op_spec h hsize hfits).exists_ok
    exact ⟨phv', n, hok⟩

/-! A stack of three headers, and one with no header. -/

def stackFactory : PhvFactory where
  headerDescs := [⟨bytesType 0 1, [], false⟩, ⟨bytesType 0 1, [], false⟩, ⟨bytesType 0 1, [], false⟩]
  headerStackDescs := [[0, 1, 2], []]
  headerUnionDescs := []
  headerUnionStackDescs := []

theorem stackFactory_wellFormed : stackFactory.WellFormed where
  members := by simp [stackFactory]
  members_nodup := by decide
  stack_nodup := by decide
  stack_headers := by
    intro st hst
    refine ⟨bytesType 0 1, fun h hh => ?_⟩
    obtain rfl | rfl : st = [0, 1, 2] ∨ st = [] := by simpa [stackFactory] using hst
    · obtain rfl | rfl | rfl : h = 0 ∨ h = 1 ∨ h = 2 := by simpa using hh
      all_goals exact ⟨by simp [stackFactory], _, rfl, rfl, rfl⟩
    · cases hh
  union_stack_nodup := by simp [stackFactory]
  union_stack_unions := by simp [stackFactory]

def stackPhv : Phv := stackFactory.create.reset.resetHeaderStacks

/-- The state after some operations, or the first one. -/
def stackState (ops : List Op) : Phv :=
  match stackPhv.run (ops.map (.stack .header 0 ·)) with
  | .ok phv => phv
  | .error _ => stackPhv

/-- **A sum that wraps.** After `push_front(2)` the largest `push_front` gives
a count of one, with three valid headers; and a stack with no header is read
out of its bounds. -/
theorem pushFront_wraps :
    stackPhv.run [.stack .header 0 (.pushFrontN 2), .stack .header 0 (.pushFrontN (0 - 1))] =
      .ok (stackState [.pushFrontN 2, .pushFrontN (0 - 1)]) ∧
    (stackState [.pushFrontN 2, .pushFrontN (0 - 1)]).headerStacks[0]? = some ⟨[0, 1, 2], 1⟩ ∧
    Kind.header.HasValid (stackState [.pushFrontN 2, .pushFrontN (0 - 1)]) 2 ∧
    stackPhv.run [.stack .header 1 .pushFront] = .error .abort :=
  ⟨by rfl, by rfl, ⟨_, rfl, by rfl⟩, by rfl⟩

theorem stack_run_two : ∃ st, (stackState [.pushFrontN 2]).headerStacks[0]? = some st ∧
    st.next ≤ st.elements.length ∧
    (∀ (i e : ℕ), st.next ≤ i → st.elements[i]? = some e →
      ¬Kind.header.HasValid (stackState [.pushFrontN 2]) e) ∧
    ∀ num : UInt64, ∃ phv₁ n phv₂,
      popFrontN .header (stackState [.pushFrontN 2]) 0 num.toNat = .ok (phv₁, n) ∧
        (stackState [.pushFrontN 2]).run (List.replicate num.toNat (.stack .header 0 .popFront)) =
          .ok phv₂ ∧ SameStack .header 0 phv₁ phv₂ := by
  have hone : stackPhv.run [.stack .header 0 (.pushFrontN 2)] = .ok (stackState [.pushFrontN 2]) := by
    rfl
  obtain ⟨phv, hphv, hend⟩ := bind_eq_ok hone
  obtain rfl : phv = stackState [.pushFrontN 2] := Except.ok.inj hend
  obtain ⟨⟨phv, n⟩, hstep, hend⟩ := bind_eq_ok hphv
  obtain rfl : phv = stackState [.pushFrontN 2] := Except.ok.inj hend
  have hrun : RunIf .header 0 stackPhv (stackState [.pushFrontN 2]) :=
    @RunIf.snoc .header 0 stackPhv stackPhv _ ⟨[0, 1, 2], 0⟩ (.pushFrontN 2) n .nil (by rfl)
      (.inr ⟨by decide, by simp⟩) hstep
  obtain ⟨st, hst, -, hle, hinvalid, -, -, hpop, -⟩ := stack_run stackFactory stackFactory_wellFormed
    stackFactory.create .create .header 0 ⟨[0, 1, 2], 0⟩ (by rfl) (by decide)
    (stackState [.pushFrontN 2]) hrun
  exact ⟨st, hst, hle, hinvalid, hpop⟩

end Stack

end P4Bricks
