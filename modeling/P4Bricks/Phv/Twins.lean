import P4Bricks.Parser.AlikeRuns
import P4Bricks.Phv.Helpers.Copies
/-!
# Twins

Two header vectors with the same headers, stacks and choices. They differ in
the place that a union without a valid header remembers, at most, which
nothing reads. Each operation does the same on both.
-/

namespace P4Bricks

open Parsing List

namespace Phv

/-- Alike, with every header known and every number the same. -/
abbrev Twins (phv phv' : Phv) : Prop := Alike true (fun _ => True) phv phv'

variable {phv phv' : Phv}

/-- Two fields that hold the same, numbers included, are one. -/
theorem like_true {f f' : Field} (h : Field.Like true f f') : f' = f := by
  rw [h.rest, h.value (.inl rfl)]

/-- And so are the fields of two headers. -/
theorem forall₂_like_true {fs fs' : List Field} (h : Forall₂ (Field.Like true) fs fs') : fs' = fs := by
  induction h with
  | nil => rfl
  | cons hff _ ih => rw [like_true hff, ih]

/-- A header is like itself, whatever is known of it. -/
theorem like_refl (s : Bool) (known : Prop) (x : Header) : x.Like s known x :=
  have hall : Forall₂ (Field.Like s) x.fields x.fields :=
    forall₂_same.mpr fun f _ => .refl f
  ⟨rfl, rfl, rfl, hall.imp fun _ _ h => h.shaped, fun _ => hall⟩

/-- When the numbers are all the same every header is known. -/
theorem Alike.twins {K : ℕ → Prop} (h : Alike true K phv phv') : Twins phv phv' :=
  ⟨h.joined, h.chosen, h.lastHidden, fun _ _ => trivial, h.blank,
    fun g x x' hx hx' => (h.headers g x x' hx hx').mono fun _ => h.all rfl g, fun _ _ _ _ => trivial,
    h.choice, h.headerStacks, h.headerUnionStacks⟩

/-- Every op but a call reads what is the same in both. -/
theorem readsKnown_strict (ctx : Context) (pkt : Packet) (op : ParserOp) (s : State)
    (hcall : ∀ action, op ≠ .methodCall action) : op.ReadsKnown ctx pkt true (fun _ => True) s := by
  have hread : ∀ (p : Phv) h o, p.Readable true (fun _ => True) h o := fun _ _ _ =>
    ⟨trivial, fun _ _ => .inl rfl⟩
  have hexpr : ∀ e, ReadsKnown ctx true (fun _ => True) s.phv s.registers e := fun e =>
    Expressions.readsWithin_of_forall (hread s.phv)
  have hextract : ∀ h, ExtractReads ctx true (fun _ => True) s.phv s.registers h
      (pkt.data.drop s.bytesParsed) := fun h x _ _ =>
    Header.asksFor_of_forall fun n fields e _ => Expressions.readsWithin_of_forall fun _ _ =>
      ⟨.inl trivial, fun _ _ => .inl rfl⟩
  cases op with
  | extract h => exact hextract h
  | extractVL h e max => exact hexpr e
  | extractStack stack => exact fun st h _ _ => hextract h
  | extractUnionStack stack offset => exact fun st u un h _ _ _ _ => hextract h
  | setField dst src => exact hread s.phv src.1 src.2
  | setData dst src => trivial
  | setLookahead dst src => trivial
  | setExpression dst e => exact hexpr e
  | verify c e => exact ⟨hexpr c, fun _ => hexpr e⟩
  | methodCall action => exact absurd rfl (hcall action)
  | shift bytes => trivial

namespace Twins

/-- Twins have the same headers: they differ in what their unions remember at most. -/
theorem headers_eq (h : Twins phv phv') : phv'.headers = phv.headers := by
  refine List.ext_getElem? fun g => ?_
  cases hx : phv.headers[g]? with
  | none => exact h.header_none hx
  | some x =>
    obtain ⟨x', hx', hlike⟩ := h.header hx
    have hfields := forall₂_like_true (hlike.fields trivial)
    rw [hx', Header.eq_of_blank hlike.blank.symm, hfields, hlike.valid, hlike.nbytesPacket]

/-- The headers of both are replaced, each by one of its layout. -/
theorem setHeaders (h : Twins phv phv') {hs : List Header}
    (hb : hs.map Header.blank = phv.headers.map Header.blank) :
    Twins { phv with headers := hs } { phv' with headers := hs } := by
  have hblank : ({ phv with headers := hs } : Phv).blank = phv.blank := by simp only [blank, hb]
  have hblank' : ({ phv' with headers := hs } : Phv).blank = phv'.blank := by
    simp only [blank, hb, h.headers_eq]
  refine ⟨h.joined.congr hblank, h.chosen.congr hblank fun _ _ h => h, fun x hx => ?_,
    fun _ _ => trivial, by rw [hblank, hblank', h.blank], fun g x x' hx hx' => ?_,
    fun _ _ _ _ => trivial, h.choice, h.headerStacks, h.headerUnionStacks⟩
  · obtain ⟨g, hg⟩ := List.mem_iff_getElem?.mp hx
    obtain ⟨y, hy, hyb⟩ := exists_header hblank.symm hg
    exact (h.lastHidden y (List.mem_of_getElem? hy)).congr hyb.symm
  · obtain rfl := Option.some.inj (hx.symm.trans hx')
    exact like_refl _ _ x

/-- The same change to one header of both. -/
theorem modifyHeader (h : Twins phv phv') {g : ℕ} {f : Header → Header}
    (hf : ∀ x, phv.headers[g]? = some x → (f x).blank = x.blank) :
    Twins (phv.modifyHeader g f) (phv'.modifyHeader g f) := by
  have hset : Twins { phv with headers := phv.headers.modify g f }
      { phv' with headers := phv.headers.modify g f } := h.setHeaders (map_modify_of_eq hf)
  simpa only [Phv.modifyHeader, h.headers_eq] using hset

/-- Two vectors whose headers alone changed, to the same. -/
theorem of_headers (h : Twins phv phv') {p p' : Phv} (hp : p = { phv with headers := p.headers })
    (hp' : p' = { phv' with headers := p.headers }) (hb : p.blank = phv.blank) : Twins p p' := by
  rw [hp', hp]
  exact h.setHeaders (congrArg Phv.headers hb)

/-! ## Exchanges -/

/-- Two headers are exchanged in both. -/
theorem swapHeaders (h : Twins phv phv') (a b : ℕ) :
    Paired Twins (phv.swapHeaders a b) (phv'.swapHeaders a b) := by
  have hheaders : Paired (fun p p' => p = { phv with headers := p.headers } ∧
      p' = { phv' with headers := p.headers }) (phv.swapHeaders a b) (phv'.swapHeaders a b) := by
    unfold Phv.swapHeaders
    rw [h.headers_eq]
    refine (Paired.refl fun x _ => rfl).bind fun x x' _ _ hx => ?_
    obtain rfl : x = x' := hx
    refine (Paired.refl fun y _ => rfl).bind fun y y' _ _ hy => ?_
    obtain rfl : y = y' := hy
    refine (Paired.refl fun r _ => rfl).bind fun r r' _ _ hr => .ok ?_
    obtain rfl : r = r' := hr
    exact ⟨rfl, rfl⟩
  exact hheaders.mono fun p p' hp _ ⟨h₁, h₂⟩ => h.of_headers h₁ h₂ (swapHeaders_blank hp)

/-- The members of two unions are exchanged in both. -/
theorem swapMembers (h : Twins phv phv') (as bs : List ℕ) :
    Paired Twins (phv.swapMembers as bs) (phv'.swapMembers as bs) := by
  induction as generalizing phv phv' bs with
  | nil => exact .ok h
  | cons a as ih =>
    cases bs with
    | nil => exact .error _
    | cons b bs => exact (h.swapHeaders a b).bind fun p p' _ _ hp => ih hp bs

/-- The records of two unions of one size change places in both. -/
theorem exchangeRecords (h : Twins phv phv') {u v : ℕ} {un un' vn vn' : HeaderUnion}
    (hu : phv.headerUnions[u]? = some un) (hu' : phv'.headerUnions[u]? = some un')
    (hv : phv.headerUnions[v]? = some vn) (hv' : phv'.headerUnions[v]? = some vn')
    (hlen : un.headers.length = vn.headers.length) :
    Twins { phv with headerUnions := exchanged phv.headerUnions u v un vn }
      { phv' with headerUnions := exchanged phv'.headerUnions u v un' vn' } := by
  have hblank : ({ phv with headerUnions := exchanged phv.headerUnions u v un vn } : Phv).blank =
      phv.blank := by
    simp only [blank, exchanged_blank hu hv]
  have hblank' : ({ phv' with headerUnions := exchanged phv'.headerUnions u v un' vn' } : Phv).blank =
      phv'.blank := by
    simp only [blank, exchanged_blank hu' hv']
  have hchoice : ∀ w, ({ phv with headerUnions := exchanged phv.headerUnions u v un vn } : Phv).choice w =
      phv.choice (Equiv.swap u v w) := fun w => by
    rw [choice_eq_record, record_exchanged hu hv, ← choice_eq_record]
  have hchoice' : ∀ w, ({ phv' with headerUnions := exchanged phv'.headerUnions u v un' vn' } : Phv).choice w =
      phv'.choice (Equiv.swap u v w) := fun w => by
    rw [choice_eq_record, record_exchanged hu' hv', ← choice_eq_record]
  refine ⟨h.joined.congr hblank, fun w i hi => ?_, h.lastHidden, fun _ _ => trivial,
    by rw [hblank, hblank', h.blank], h.headers, h.known, fun w => ?_, h.headerStacks,
    h.headerUnionStacks⟩
  · rw [hchoice] at hi
    rw [member_congr hblank]
    obtain ⟨g, hg⟩ := h.chosen _ i hi
    -- The two unions have as many members.
    have hsize : ∀ {w w' : ℕ} {xn yn : HeaderUnion}, phv.headerUnions[w]? = some xn →
        phv.headerUnions[w']? = some yn → xn.headers.length = yn.headers.length →
        phv.member (w, i) = some g → ∃ g', phv.member (w', i) = some g' := by
      intro w w' xn yn hx hy hxy hmem
      have hin : xn.headers[i]? = some g := by simpa [member, hx] using hmem
      have hlt := (List.getElem?_eq_some_iff.mp hin).1
      exact ⟨yn.headers[i], by simp [member, hy]⟩
    by_cases hwu : w = u
    · subst hwu
      rw [Equiv.swap_apply_left] at hg
      exact hsize hv hu hlen.symm hg
    · by_cases hwv : w = v
      · subst hwv
        rw [Equiv.swap_apply_right] at hg
        exact hsize hu hv hlen hg
      · rw [Equiv.swap_apply_of_ne_of_ne hwu hwv] at hg
        exact ⟨g, hg⟩
  · rw [hchoice, hchoice', h.choice]

/-- Two unions are exchanged in both. What a union without a choice remembers goes with
it, and is not read. -/
theorem swapUnions (h : Twins phv phv') (u v : ℕ) :
    Paired Twins (phv.swapUnions u v) (phv'.swapUnions u v) := by
  unfold Phv.swapUnions
  cases hu : phv.headerUnions[u]? with
  | none =>
    rw [union_none_of_blank h.blank hu]
    exact .error _
  | some un =>
    obtain ⟨un', hu', hun, -⟩ := h.union hu
    cases hv : phv.headerUnions[v]? with
    | none =>
      rw [hu', union_none_of_blank h.blank hv]
      exact .error _
    | some vn =>
      obtain ⟨vn', hv', hvn, -⟩ := h.union hv
      rw [hu', hv', required_some, required_some, required_some, required_some, ok_bind, ok_bind,
        ok_bind, ok_bind, hun, hvn]
      split
      · exact .error _
      · next hlen =>
        have hmid := h.exchangeRecords hu hu' hv hv' (not_not.mp hlen)
        have hswap := hmid.swapMembers un.headers vn.headers
        simpa only [exchanged, hun, hvn] using hswap

/-! ## Stacks -/

/-- Twins have the same stacks. -/
theorem stacksOf_eq (h : Twins phv phv') (k : Stack.Kind) : k.stacksOf phv' = k.stacksOf phv := by
  cases k with
  | header => exact h.headerStacks
  | headerUnion => exact h.headerUnionStacks

/-- The count of a stack is set in both. -/
theorem setNext (h : Twins phv phv') (k : Stack.Kind) (s n : ℕ) :
    Twins (k.setNext phv s n) (k.setNext phv' s n) := by
  cases k with
  | header =>
    simp only [Stack.Kind.setNext, h.headerStacks]
    exact Alike.setHeaderStacks h (map_modify_of_eq fun _ _ => rfl)
  | headerUnion =>
    simp only [Stack.Kind.setNext, h.headerUnionStacks]
    exact Alike.setHeaderUnionStacks h (map_modify_of_eq fun _ _ => rfl)

/-- Two elements are exchanged in both, headers or unions. -/
theorem kindSwap (h : Twins phv phv') (k : Stack.Kind) (a b : ℕ) :
    Paired Twins (k.swapValues phv a b) (k.swapValues phv' a b) := by
  cases k with
  | header => exact h.swapHeaders a b
  | headerUnion => exact h.swapUnions a b

/-- An element is marked in both. -/
theorem kindMarkValid (h : Twins phv phv') (k : Stack.Kind) (e : ℕ) :
    Twins (k.markValid phv e) (k.markValid phv' e) := by
  cases k with
  | header => exact Alike.markValid h trivial
  | headerUnion => exact h

/-- An element loses its mark in both. -/
theorem kindMarkInvalid (h : Twins phv phv') (k : Stack.Kind) (e : ℕ) :
    Twins (k.markInvalid phv e) (k.markInvalid phv' e) := by
  cases k with
  | header => exact Alike.markInvalid h e
  | headerUnion => exact h

/-- Two places of a stack are exchanged in both. -/
theorem swapAt (h : Twins phv phv') (k : Stack.Kind) (elements : List ℕ) (i j : ℕ) :
    Paired Twins (Stack.swapAt k elements i j phv) (Stack.swapAt k elements i j phv') := by
  unfold Stack.swapAt
  refine (Paired.refl fun e _ => rfl).bind fun e e' _ _ he => ?_
  obtain rfl : e = e' := he
  refine (Paired.refl fun g _ => rfl).bind fun g g' _ _ hg => ?_
  obtain rfl : g = g' := hg
  exact h.kindSwap k e g

/-- The loop of `push_front` exchanges the same places in both, -/
theorem shiftUp (h : Twins phv phv') (k : Stack.Kind) (elements : List ℕ) (num n : ℕ) :
    Paired Twins (Stack.shiftUp k elements num n phv) (Stack.shiftUp k elements num n phv') := by
  induction n with
  | zero => exact .ok h
  | succ n ih => exact ih.bind fun p p' _ _ hp => hp.swapAt k elements n (n + num)

/-- and so does that of `pop_front`. -/
theorem shiftDown (h : Twins phv phv') (k : Stack.Kind) (elements : List ℕ) (num n : ℕ) :
    Paired Twins (Stack.shiftDown k elements num n phv) (Stack.shiftDown k elements num n phv') := by
  induction n generalizing phv phv' with
  | zero => exact .ok h
  | succ n ih =>
    rw [Stack.shiftDown, Stack.shiftDown]
    split
    · exact (h.swapAt k elements _ _).bind fun p p' _ _ hp => ih hp
    · exact .ok h

/-- The loop that marks elements marks the same in both. -/
theorem markFrom (h : Twins phv phv') (elements : List ℕ) {mark : Phv → ℕ → Phv}
    (hmark : ∀ p p' e, Twins p p' → Twins (mark p e) (mark p' e)) (first n : ℕ) :
    Paired Twins (Stack.markFrom elements mark first n phv)
      (Stack.markFrom elements mark first n phv') := by
  induction n with
  | zero => exact .ok h
  | succ n ih =>
    refine ih.bind fun p p' _ _ hp => ?_
    refine (Paired.refl fun e _ => rfl).bind fun e e' _ _ he => .ok ?_
    obtain rfl : e = e' := he
    exact hmark p p' e hp

/-- **An operation on a stack does the same on both.** -/
theorem stackOp (h : Twins phv phv') (k : Stack.Kind) (s : ℕ) (op : Stack.Op) :
    Paired (fun r r' => Twins r.1 r'.1 ∧ r'.2 = r.2) (op.run k phv s) (op.run k phv' s) := by
  have hst := h.stacksOf_eq k
  -- The marks keep the two alike, whatever the kind of the stack.
  have hvalid : ∀ p p' e, Twins p p' → Twins (k.markValid p e) (k.markValid p' e) :=
    fun p p' e hp => hp.kindMarkValid k e
  have hinvalid : ∀ p p' e, Twins p p' → Twins (k.markInvalid p e) (k.markInvalid p' e) :=
    fun p p' e hp => hp.kindMarkInvalid k e
  cases op with
  | popFront =>
    simp only [Stack.Op.run, Stack.popFront, hst]
    refine (Paired.refl fun st _ => rfl).bind fun st st' _ _ heq => ?_
    obtain rfl : st = st' := heq
    split
    · exact .ok ⟨h, rfl⟩
    · refine ((h.setNext k s _).shiftUp k st.elements 1 _).bind fun p p' _ _ hp => ?_
      refine (Paired.refl fun e _ => rfl).bind fun e e' _ _ heq => .ok ?_
      obtain rfl : e = e' := heq
      exact ⟨hinvalid p p' e hp, rfl⟩
  | popFrontN num =>
    simp only [Stack.Op.run, Stack.popFrontN, hst]
    refine (Paired.refl fun st _ => rfl).bind fun st st' _ _ heq => ?_
    obtain rfl : st = st' := heq
    split
    · exact .ok ⟨h, rfl⟩
    · refine ((h.setNext k s _).shiftUp k st.elements _ _).bind fun p p' _ _ hp => ?_
      exact (hp.markFrom st.elements hinvalid _ _).bind fun q q' _ _ hq => .ok ⟨hq, rfl⟩
  | pushFront =>
    simp only [Stack.Op.run, Stack.pushFront, hst]
    refine (Paired.refl fun st _ => rfl).bind fun st st' _ _ heq => ?_
    obtain rfl : st = st' := heq
    -- The index wraps where the stack has no header; both wrap alike.
    generalize (_ + 2 ^ 64 - 1) % 2 ^ 64 = last
    refine ((h.setNext k s _).shiftDown k st.elements 1 last).bind fun p p' _ _ hp => ?_
    refine (Paired.refl fun e _ => rfl).bind fun e e' _ _ heq => .ok ?_
    obtain rfl : e = e' := heq
    exact ⟨hvalid p p' e hp, rfl⟩
  | pushFrontN num =>
    simp only [Stack.Op.run, Stack.pushFrontN, hst]
    refine (Paired.refl fun st _ => rfl).bind fun st st' _ _ heq => ?_
    obtain rfl : st = st' := heq
    split
    · exact .ok ⟨h, rfl⟩
    · generalize (_ + 2 ^ 64 - 1) % 2 ^ 64 = last
      refine ((h.setNext k s _).shiftDown k st.elements _ last).bind fun p p' _ _ hp => ?_
      exact (hp.markFrom st.elements hvalid _ _).bind fun q q' _ _ hq => .ok ⟨hq, rfl⟩
  | popBack =>
    simp only [Stack.Op.run, Stack.popBack, hst]
    refine (Paired.refl fun st _ => rfl).bind fun st st' _ _ heq => ?_
    obtain rfl : st = st' := heq
    split
    · exact .ok ⟨h, rfl⟩
    · refine (Paired.refl fun e _ => rfl).bind fun e e' _ _ heq => .ok ?_
      obtain rfl : e = e' := heq
      exact ⟨hinvalid _ _ e (h.setNext k s _), rfl⟩
  | pushBack =>
    simp only [Stack.Op.run, Stack.pushBack, hst]
    refine (Paired.refl fun st _ => rfl).bind fun st st' _ _ heq => ?_
    obtain rfl : st = st' := heq
    split
    · exact .ok ⟨h, rfl⟩
    · refine (Paired.refl fun e _ => rfl).bind fun e e' _ _ heq => .ok ?_
      obtain rfl : e = e' := heq
      exact ⟨(hvalid phv phv' e h).setNext k s _, rfl⟩

/-! ## Header primitives -/

/-- A header is assigned in both. -/
theorem assignHeader (h : Twins phv phv') (dst src : ℕ) :
    Paired Twins (phv.assignHeader dst src) (phv'.assignHeader dst src) := by
  unfold Phv.assignHeader
  rw [h.headers_eq]
  refine (Paired.refl fun x _ => rfl).bind fun x x' _ _ heq => ?_
  obtain rfl : x = x' := heq
  refine (Paired.refl (R := fun _ _ => True) fun _ _ => trivial).bind fun _ _ _ _ _ => ?_
  split
  · exact .ok (Alike.markInvalid h dst)
  · have hmark : Twins (phv.markValid dst) (phv'.markValid dst) := Alike.markValid h trivial
    dsimp only
    rw [hmark.headers_eq]
    refine (Paired.refl fun y _ => rfl).bind fun y y' _ _ heq => ?_
    obtain rfl : y = y' := heq
    refine (Paired.refl fun z _ => rfl).bind fun z z' hz _ heq => ?_
    obtain rfl : z = z' := heq
    refine (Paired.refl fun w _ => rfl).bind fun w w' hw _ heq => .ok ?_
    obtain rfl : w = w' := heq
    refine hmark.modifyHeader fun z₀ hz₀ => ?_
    rw [(Header.assignFrom_blank hw).1, Option.some.inj (hz₀.symm.trans (required_eq_ok hz))]

/-- The members of a union are assigned in both, -/
theorem assignMembers (h : Twins phv phv') (as bs : List ℕ) :
    Paired Twins (phv.assignMembers as bs) (phv'.assignMembers as bs) := by
  induction as generalizing phv phv' bs with
  | nil => exact .ok h
  | cons a as ih =>
    cases bs with
    | nil => exact .error _
    | cons b bs => exact (h.assignHeader a b).bind fun p p' _ _ hp => ih hp bs

/-- and with them the union. -/
theorem assignUnion (h : Twins phv phv') (dst src : ℕ) :
    Paired Twins (phv.assignUnion dst src) (phv'.assignUnion dst src) := by
  unfold Phv.assignUnion
  refine (h.required_union dst).bind fun un un' _ _ ⟨_, hun⟩ => ?_
  refine (h.required_union src).bind fun vn vn' _ _ ⟨_, hvn⟩ => ?_
  rw [hun, hvn]
  split
  · exact .error _
  · exact h.assignMembers un.headers vn.headers

/-- `add_header` does the same in both. -/
theorem addHeader (h : Twins phv phv') (g : ℕ) :
    Paired Twins (phv.addHeader g) (phv'.addHeader g) := by
  unfold Phv.addHeader
  rw [h.headers_eq]
  refine (Paired.refl fun x _ => rfl).bind fun x x' _ _ heq => ?_
  obtain rfl : x = x' := heq
  split
  · exact .ok h
  · exact .ok (Alike.markValid (h.modifyHeader fun x _ => x.reset_blank) trivial)

/-- `remove_header` does the same in both. -/
theorem removeHeader (h : Twins phv phv') (g : ℕ) :
    Paired Twins (phv.removeHeader g) (phv'.removeHeader g) := by
  unfold Phv.removeHeader
  rw [h.headers_eq]
  refine (Paired.refl fun x _ => rfl).bind fun x x' _ _ heq => ?_
  obtain rfl : x = x' := heq
  split
  · exact .ok (Alike.markInvalid h g)
  · exact .ok h

/-! ## Resets -/

/-- A reset leaves twins, -/
theorem reset (h : Twins phv phv') : Twins phv.reset phv'.reset := by
  unfold Phv.reset
  rw [h.headers_eq]
  generalize List.range phv.headers.length = hs
  induction hs generalizing phv phv' with
  | nil => exact h
  | cons g hs ih =>
    have hmark : Twins (phv.markInvalid g) (phv'.markInvalid g) := Alike.markInvalid h g
    exact ih (hmark.modifyHeader fun x _ => x.resetVLHeader_blank)

/-- with the same counts, -/
theorem resetHeaderStacks (h : Twins phv phv') :
    Twins phv.resetHeaderStacks phv'.resetHeaderStacks := by
  have hblank : ∀ sts : List Stack, (sts.map fun st => { st with next := 0 }).map Stack.blank =
      sts.map Stack.blank := fun sts => by
    rw [List.map_map]
    rfl
  unfold Phv.resetHeaderStacks
  rw [h.headerStacks, h.headerUnionStacks]
  exact Alike.setHeaderUnionStacks (Alike.setHeaderStacks h (hblank _)) (hblank _)

/-- and the same metadata. -/
theorem resetMetadata (h : Twins phv phv') : Twins phv.resetMetadata phv'.resetMetadata := by
  refine h.of_headers rfl ?_ phv.resetMetadata_blank
  simp only [Phv.resetMetadata, h.headers_eq]

/-! ## Any operation -/

/-- Where every header is known, every op writes to known ones. -/
theorem writesKnown_all (phv : Phv) (op : ParserOp) : op.WritesKnown (fun _ => True) phv := by
  cases op <;> first | trivial | exact fun _ _ _ => trivial

/-- **One operation does the same on both.** -/
theorem op (h : Twins phv phv') (op : Op) : Paired Twins (op.run phv) (op.run phv') := by
  cases op with
  | parse ctx pkt registers bytesParsed op =>
    have hstate : State.Alike true (fun _ => True) ⟨phv, registers, bytesParsed⟩
      ⟨phv', registers, bytesParsed⟩ := ⟨h, rfl, rfl⟩
    -- A method call is an error in both.
    by_cases hcall : ∃ action, op = .methodCall action
    · obtain ⟨action, rfl⟩ := hcall
      exact .error _
    · have hcall' : ∀ action, op ≠ .methodCall action := fun action ha => hcall ⟨action, ha⟩
      have hop := ParserOp.run_alike hstate (readsKnown_strict ctx pkt op _ hcall')
        (writesKnown_all phv op)
      cases op with
      | methodCall action => exact absurd rfl (hcall' action)
      | _ => exact hop.bind fun t t' _ _ ht => .ok ht.phv.twins
  | set dst v =>
    refine (h.getField dst.1 dst.2).bind fun f f' _ _ ⟨⟨x, hx, hf⟩, hff⟩ => ?_
    exact (hff.set (fun _ => trivial) v).bind fun g g' _ _ ⟨hb, hgg⟩ => .ok (h.putField hx hf hb hgg)
  | assignVL dst src =>
    simp only [Op.run, runAssignVL]
    refine (h.getField dst.1 dst.2).bind fun f f' _ _ ⟨⟨x, hx, hf⟩, hff⟩ => ?_
    refine (h.getField_readable ⟨trivial, fun _ _ => .inl rfl⟩).bind fun g g' _ _ heq => ?_
    obtain rfl : g = g' := heq
    rw [hff.shaped.isVL]
    split
    · next hvl => exact assignVL_alike h hx hf hvl hff g
    · exact .error _
  | markValid g => exact .ok (Alike.markValid h trivial)
  | markInvalid g => exact .ok (Alike.markInvalid h g)
  | addHeader g => exact h.addHeader g
  | removeHeader g => exact h.removeHeader g
  | assignHeader dst src => exact h.assignHeader dst src
  | assignUnion dst src => exact h.assignUnion dst src
  | stack k s op => exact (h.stackOp k s op).bind fun r r' _ _ hr => .ok hr.1
  | reset => exact .ok h.reset
  | resetHeaderStacks => exact .ok h.resetHeaderStacks
  | resetMetadata => exact .ok h.resetMetadata

/-- **And so does a run.** -/
theorem run (h : Twins phv phv') (ops : List Op) : Paired Twins (phv.run ops) (phv'.run ops) := by
  induction ops generalizing phv phv' with
  | nil => exact .ok h
  | cons op ops ih => exact (h.op op).bind fun p p' _ _ hp => ih hp

end Twins

end Phv

end P4Bricks
