import P4Bricks.Common.Shifts
import P4Bricks.Phv.Helpers.Reset
/-!
# Stacks

A stack is a row of cells, of which the first `next` are in use. Every
operation is a shift of the row by exchanges and a change of flags. So
`pop_front(n)` leaves in use what `n` calls of `pop_front()` leave, and
`push_front(n)` keeps what `n` calls of `push_front()` keep. What is left in
the cells that are not in use is not the same.

`next + num` is a sum of two `size_t`. Where it wraps, and where a stack has
no element at all, `push_front` does something else.
-/

namespace P4Bricks

open Parsing

namespace Stack

/-- What an element holds: the record of a union, and the contents of the
header or of the members. -/
structure Held where
  record : Option (Bool × ℕ)
  headers : List (Option Header)
  deriving DecidableEq, Repr

/-- Whether a header of the element is valid, or its union says that one is. -/
def Held.Valid (c : Held) : Prop :=
  (∃ idx, c.record = some (true, idx)) ∨ ∃ hdr, some hdr ∈ c.headers ∧ hdr.valid = true

namespace Kind

/-- What an element holds. -/
def held (phv : Phv) (e : ℕ) : Kind → Held
  | header => ⟨none, [phv.content e]⟩
  | headerUnion => ⟨phv.record e, (phv.members e).map phv.content⟩

/-- What becomes of it when the element is marked. -/
def marked (b : Bool) (c : Held) : Kind → Held
  | header => { c with headers := c.headers.map (Option.map fun hdr => hdr.setValid b) }
  | headerUnion => c

/-- `mark_valid` or `mark_invalid`. -/
def mark (b : Bool) (phv : Phv) (e : ℕ) (k : Kind) : Phv :=
  match b with
  | true => k.markValid phv e
  | false => k.markInvalid phv e

end Kind

/-- The cells of a stack. -/
def row (k : Kind) (elements : List ℕ) (phv : Phv) (i : ℕ) : Option Held :=
  elements[i]?.map fun e => k.held phv e

section

variable {k : Kind} {elements : List ℕ} {phv phv' : Phv} {s : ℕ}

/-- A stack whose elements are those given, with its count. -/
def Counts (k : Kind) (s : ℕ) (elements : List ℕ) (phv : Phv) (next : ℕ) : Prop :=
  (k.stacksOf phv)[s]? = some ⟨elements, next⟩

theorem Counts.setNext {next : ℕ} (h : Counts k s elements phv next) (n : ℕ) :
    Counts k s elements (k.setNext phv s n) n := by
  cases k with
  | header =>
    have h' : phv.headerStacks[s]? = some ⟨elements, next⟩ := h
    simp [Counts, Kind.stacksOf, Kind.setNext, h']
  | headerUnion =>
    have h' : phv.headerUnionStacks[s]? = some ⟨elements, next⟩ := h
    simp [Counts, Kind.stacksOf, Kind.setNext, h']

/-- The count is set to what it is. -/
theorem Counts.setNext_self {next : ℕ} (h : Counts k s elements phv next) :
    k.setNext phv s next = phv := by
  have hself : ∀ sts : List Stack, sts[s]? = some ⟨elements, next⟩ →
      (sts.modify s fun st => { st with next := next }) = sts := by
    intro sts hst
    refine List.ext_getElem? fun j => ?_
    rw [List.getElem?_modify]
    by_cases hj : s = j
    · subst hj
      simp [hst]
    · simp [hj]
  cases k with
  | header =>
    have hsame := hself phv.headerStacks h
    simp only [Kind.setNext, hsame]
  | headerUnion =>
    have hsame := hself phv.headerUnionStacks h
    simp only [Kind.setNext, hsame]

theorem row_setNext (n : ℕ) : row k elements (k.setNext phv s n) = row k elements phv := by
  cases k <;> rfl

/-! ## Exchanges -/

/-- A header vector in which the elements can change places. -/
structure Ready (k : Kind) (s : ℕ) (elements : List ℕ) (phv : Phv) : Prop where
  arranged : phv.Arranged
  hasStack : phv.HasStack k s elements

theorem Ready.congr (h : Ready k s elements phv) (hb : phv'.blank = phv.blank) :
    Ready k s elements phv' :=
  ⟨h.arranged.congr hb, h.hasStack.congr hb⟩

theorem Ready.nodup (h : Ready k s elements phv) : elements.Nodup := by
  obtain ⟨st, hst, rfl⟩ := h.hasStack
  exact h.arranged.nodup k s st hst

/-- Elements are exchanged as their places are. -/
theorem getElem?_swap {es : List ℕ} (hnd : es.Nodup) {i j : ℕ} (hi : i < es.length)
    (hj : j < es.length) (l : ℕ) :
    es[Equiv.swap i j l]? = es[l]?.map (Equiv.swap es[i] es[j]) := by
  by_cases hli : l = i
  · subst hli
    rw [Equiv.swap_apply_left, List.getElem?_eq_getElem hi, List.getElem?_eq_getElem hj,
      Option.map_some, Equiv.swap_apply_left]
  by_cases hlj : l = j
  · subst hlj
    rw [Equiv.swap_apply_right, List.getElem?_eq_getElem hi, List.getElem?_eq_getElem hj,
      Option.map_some, Equiv.swap_apply_right]
  rw [Equiv.swap_apply_of_ne_of_ne hli hlj]
  cases hl : es[l]? with
  | none => rfl
  | some e =>
    obtain ⟨hlt, rfl⟩ := List.getElem?_eq_some_iff.mp hl
    rw [Option.map_some, Equiv.swap_apply_of_ne_of_ne]
    · exact fun heq => hli ((List.Nodup.getElem_inj_iff hnd).mp heq)
    · exact fun heq => hlj ((List.Nodup.getElem_inj_iff hnd).mp heq)

/-- What is held in two elements has changed places, so it has in the row. -/
theorem row_exchange {es : List ℕ} (hnd : es.Nodup) {i j : ℕ} (hi : i < es.length)
    (hj : j < es.length) {phv' : Phv}
    (hheld : ∀ e ∈ es, k.held phv' e = k.held phv (Equiv.swap es[i] es[j] e)) :
    row k es phv' = Shifts.exchange (row k es phv) i j := by
  funext l
  rw [Shifts.exchange, Function.comp_apply, row, row, getElem?_swap hnd hi hj, Option.map_map]
  cases hl : es[l]? with
  | none => rfl
  | some e =>
    rw [Option.map_some, Option.map_some, hheld e (List.mem_of_getElem? hl)]
    rfl

/-- The members of a union have the contents of those of the one it was exchanged with. -/
theorem members_swapped {u v w : ℕ} {phv' : Phv} (hok : phv.swapUnions u v = .ok phv')
    (hcontent : ∀ (w l g : ℕ), phv.member (w, l) = some g →
      ∃ g', phv.member (Equiv.swap u v w, l) = some g' ∧ phv'.content g = phv.content g') :
    (phv'.members w).map phv'.content =
      (phv.members (Equiv.swap u v w)).map phv.content := by
  refine List.ext_getElem? fun l => ?_
  rw [List.getElem?_map, List.getElem?_map, Phv.members_getElem?, Phv.members_getElem?,
    Phv.member_congr (Phv.swapUnions_blank hok)]
  cases hm : phv.member (w, l) with
  | some g =>
    obtain ⟨g', hg', hsame⟩ := hcontent w l g hm
    rw [hg', Option.map_some, Option.map_some, hsame]
  | none =>
    -- The other union has no member there either.
    cases hm' : phv.member (Equiv.swap u v w, l) with
    | none => rfl
    | some g' =>
      obtain ⟨g, hg, -⟩ := hcontent _ l g' hm'
      rw [Equiv.swap_apply_self, hm] at hg
      cases hg

/-- **Two elements change places**, and nothing else changes. -/
theorem swapAt_spec (h : Ready k s elements phv) {i j : ℕ} (hi : i < elements.length)
    (hj : j < elements.length) :
    Returns (swapAt k elements i j phv) fun phv' =>
      row k elements phv' = Shifts.exchange (row k elements phv) i j ∧
        phv'.blank = phv.blank ∧ k.stacksOf phv' = k.stacksOf phv := by
  obtain ⟨st, hst, rfl⟩ := h.hasStack
  have hmem := List.getElem_mem hi
  have hmem' := List.getElem_mem hj
  have hnd := h.arranged.nodup k s st hst
  unfold swapAt
  rw [List.getElem?_eq_getElem hi, List.getElem?_eq_getElem hj]
  refine Avoids.bind_ok (Avoids.bind_ok ?_)
  cases k with
  | header =>
    have hex := h.arranged.exchange s st hst _ hmem _ hmem'
    refine (Phv.swapHeaders_spec hex).of_eq.mono ?_
    rintro phv' ⟨hok, hcontent, hrest⟩
    refine ⟨?_, ?_, ?_⟩
    · refine row_exchange hnd hi hj fun e _ => ?_
      rw [Kind.held, Kind.held, hcontent]
    · exact Phv.swapHeaders_blank hok
    · rw [hrest]
      rfl
  | headerUnion =>
    have hex := h.arranged.unions s st hst _ hmem _ hmem'
    refine (Phv.swapUnions_spec h.arranged.joined hex).of_eq.mono ?_
    rintro phv' ⟨hok, hrecord, hcontent, hrest⟩
    refine ⟨?_, Phv.swapUnions_blank hok, ?_⟩
    · refine row_exchange hnd hi hj fun u _ => ?_
      rw [Kind.held, Kind.held, hrecord, members_swapped hok hcontent]
    · rw [hrest]
      rfl

/-! ## Shifts -/

theorem shiftUp_spec (h : Ready k s elements phv) {num n : ℕ} (hn : n = 0 ∨ n + num ≤ elements.length) :
    Returns (shiftUp k elements num n phv) fun phv' =>
      row k elements phv' = Shifts.up num n (row k elements phv) ∧
        phv'.blank = phv.blank ∧ k.stacksOf phv' = k.stacksOf phv := by
  induction n with
  | zero => exact .ok ⟨rfl, rfl, rfl⟩
  | succ n ih =>
    refine (ih (by omega)).bind ?_
    rintro phv₁ - ⟨hrow, hblank, hstacks⟩
    refine (swapAt_spec (h.congr hblank) (by omega) (by omega)).mono ?_
    rintro phv' ⟨hrow', hblank', hstacks'⟩
    refine ⟨?_, hblank'.trans hblank, hstacks'.trans hstacks⟩
    rw [hrow', hrow, Shifts.up]

theorem shiftDown_spec (h : Ready k s elements phv) {num n : ℕ} (hn : n < elements.length) :
    Returns (shiftDown k elements num n phv) fun phv' =>
      row k elements phv' = Shifts.down num n (row k elements phv) ∧
        phv'.blank = phv.blank ∧ k.stacksOf phv' = k.stacksOf phv := by
  induction n generalizing phv with
  | zero => exact .ok ⟨rfl, rfl, rfl⟩
  | succ n ih =>
    rw [shiftDown, Shifts.down]
    split
    · refine (swapAt_spec h (by omega) (by omega)).bind ?_
      rintro phv₁ - ⟨hrow, hblank, hstacks⟩
      refine (ih (h.congr hblank) (by omega)).mono ?_
      rintro phv' ⟨hrow', hblank', hstacks'⟩
      refine ⟨?_, hblank'.trans hblank, hstacks'.trans hstacks⟩
      rw [hrow', hrow]
    · exact .ok ⟨rfl, rfl, rfl⟩

/-! ## Marks -/

theorem contents_setValid (hdr : Header) (b : Bool) :
    (hdr.setValid b).contents = hdr.contents.setValid b := by
  have hfields : (hdr.setValid b).fields.map Field.contents =
      (hdr.fields.map Field.contents).modify hdr.validOffset fun f => f.put (if b then 1 else 0) := by
    refine List.ext_getElem? fun i => ?_
    simp only [Header.setValid, List.getElem?_map, List.getElem?_modify, Option.map_eq_map,
      Option.map_map]
    congr 1
    split <;> rfl
  simp only [Header.contents, hfields]
  simp [Header.setValid, Header.validOffset]

theorem content_setValid {e : ℕ} {b : Bool} (g : ℕ) :
    (phv.modifyHeader e (·.setValid b)).content g =
      if e = g then (phv.content g).map (·.setValid b) else phv.content g := by
  simp only [Phv.content, Phv.modifyHeader, List.getElem?_modify]
  split
  · simp only [Option.map_eq_map, Option.map_map, Function.comp_def, contents_setValid]
  · simp

/-- **An element is marked.** -/
theorem mark_spec (h : Ready k s elements phv) (b : Bool) {i : ℕ} (hi : i < elements.length) :
    (∀ j, row k elements (k.mark b phv elements[i]) j =
      if j = i then (row k elements phv j).map fun c => k.marked b c else row k elements phv j) ∧
    (k.mark b phv elements[i]).blank = phv.blank ∧
    k.stacksOf (k.mark b phv elements[i]) = k.stacksOf phv := by
  cases k with
  | headerUnion =>
    have heq : Kind.headerUnion.mark b phv elements[i] = phv := by cases b <;> rfl
    refine ⟨fun j => ?_, by rw [heq], by rw [heq]⟩
    rw [heq]
    cases row .headerUnion elements phv j <;> simp [Kind.marked]
  | header =>
    have hnd := h.nodup
    obtain ⟨st, hst, rfl⟩ := h.hasStack
    have hfree := h.arranged.free s st hst _ (List.getElem_mem hi)
    have heq : Kind.header.mark b phv st.elements[i] =
        phv.modifyHeader st.elements[i] (·.setValid b) := by
      cases b
      · exact Phv.markInvalid_of_none hfree
      · exact Phv.markValid_of_none hfree
    rw [heq]
    refine ⟨fun j => ?_, Phv.modifyHeader_blank fun hdr _ => hdr.setValid_blank b, rfl⟩
    simp only [row, Kind.held, content_setValid]
    by_cases hji : j = i
    · subst hji
      simp [hi, Kind.marked]
    · rw [if_neg hji]
      cases hj : st.elements[j]? with
      | none => rfl
      | some e =>
        -- Each element is in one place only.
        obtain ⟨hlt, rfl⟩ := List.getElem?_eq_some_iff.mp hj
        have hne : st.elements[i] ≠ st.elements[j] := fun heq =>
          hji ((List.Nodup.getElem_inj_iff hnd).mp heq).symm
        simp [hne]

theorem markFrom_spec (h : Ready k s elements phv) (b : Bool) {first n : ℕ}
    (hn : first + n ≤ elements.length) :
    Returns (markFrom elements (fun p e => k.mark b p e) first n phv) fun phv' =>
      (∀ i, row k elements phv' i =
        if first ≤ i ∧ i < first + n then (row k elements phv i).map fun c => k.marked b c
        else row k elements phv i) ∧
      phv'.blank = phv.blank ∧ k.stacksOf phv' = k.stacksOf phv := by
  induction n with
  | zero => exact .ok ⟨fun i => by rw [if_neg (by omega)], rfl, rfl⟩
  | succ n ih =>
    refine (ih (by omega)).bind fun phv₁ _ ⟨hrow, hblank, hstacks⟩ => ?_
    rw [List.getElem?_eq_getElem (show first + n < elements.length by omega)]
    obtain ⟨hrow', hblank', hstacks'⟩ := mark_spec (h.congr hblank) b
      (show first + n < elements.length by omega)
    refine .bind_ok (.ok ⟨fun i => ?_, hblank'.trans hblank, hstacks'.trans hstacks⟩)
    rw [hrow', hrow]
    by_cases hi : i = first + n
    · rw [if_pos hi, if_neg (by omega), if_pos (by omega)]
    · rw [if_neg hi]
      by_cases hin : first ≤ i ∧ i < first + n
      · rw [if_pos hin, if_pos (by omega)]
      · rw [if_neg hin, if_neg (by omega)]

/-! ## Stacks in use -/

/-- **A stack in use.** The count is within the depth, and the valid elements
are the first ones of a stack of headers, and none of a stack of unions. -/
structure InUse (k : Kind) (s : ℕ) (elements : List ℕ) (phv : Phv) (next : ℕ) : Prop where
  ready : Ready k s elements phv
  counts : Counts k s elements phv next
  le : next ≤ elements.length
  valid_iff : ∀ i c, row k elements phv i = some c → (c.Valid ↔ k = .header ∧ i < next)

/-- An element of a stack of headers is a header. -/
theorem row_header (h : Ready .header s elements phv) {i : ℕ} {c : Held}
    (hc : row .header elements phv i = some c) : ∃ hdr, c = ⟨none, [some hdr]⟩ := by
  obtain ⟨st, hst, rfl⟩ := h.hasStack
  obtain ⟨e, he, rfl⟩ := Option.map_eq_some_iff.mp hc
  have hmem := List.mem_of_getElem? he
  obtain ⟨x, -, hx, -⟩ := h.arranged.exchange s st hst e hmem e hmem
  exact ⟨x.contents, by simp [Kind.held, Phv.content, hx]⟩

/-- **Validity after a shift and a mark.** Where no element is marked, there
is one that was in use if this place is. -/
theorem InUse.valid_of_marked {next next' : ℕ} {b : Bool} {P : ℕ → Prop} [DecidablePred P]
    {r r' : ℕ → Option Held} (h : InUse k s elements phv next)
    (hr : ∀ i, ∃ j, r i = row k elements phv j)
    (hr' : ∀ i, r' i = if P i then (r i).map fun c => k.marked b c else r i)
    (hnew : ∀ i, P i → (b = true ↔ i < next'))
    (hold : ∀ i, ¬P i → ∃ j, r i = row k elements phv j ∧ (j < next ↔ i < next')) (i : ℕ) (c : Held)
    (hc : r' i = some c) : c.Valid ↔ k = .header ∧ i < next' := by
  rw [hr'] at hc
  split at hc
  · next hP =>
    obtain ⟨c₀, hc₀, rfl⟩ := Option.map_eq_some_iff.mp hc
    obtain ⟨j, hj⟩ := hr i
    rw [hj] at hc₀
    cases k with
    | header =>
      obtain ⟨hdr, rfl⟩ := row_header h.ready hc₀
      simp [Held.Valid, Kind.marked, Header.setValid, hnew i hP]
    | headerUnion =>
      -- A mark does nothing to a union.
      have hv := h.valid_iff j c₀ hc₀
      simp only [reduceCtorEq, false_and, iff_false] at hv ⊢
      exact hv
  · next hP =>
    obtain ⟨j, hj, hiff⟩ := hold i hP
    rw [hj] at hc
    rw [h.valid_iff j c hc, hiff]

theorem Ready.setNext (h : Ready k s elements phv) (n : ℕ) :
    Ready k s elements (k.setNext phv s n) :=
  h.congr (phv.setNext_effects k s n).blank_eq

theorem Counts.congr {next : ℕ} (h : Counts k s elements phv next)
    (hs : k.stacksOf phv' = k.stacksOf phv) : Counts k s elements phv' next := by
  rw [Counts, hs]
  exact h

/-- **`pop_front(num)`**: the element `num` places on comes to each place. -/
theorem popFrontN_spec {next : ℕ} (h : InUse k s elements phv next) (num : ℕ) :
    Returns (popFrontN k phv s num) fun r =>
      InUse k s elements r.1 (next - num) ∧
        ∀ i < next - num, row k elements r.1 i = row k elements phv (i + num) := by
  have hle := h.le
  unfold popFrontN
  rw [show (k.stacksOf phv)[s]? = _ from h.counts]
  refine .bind_ok ?_
  split
  · next hnum =>
    subst hnum
    exact .ok ⟨h, fun i _ => rfl⟩
  dsimp only
  have hnext : next - min next num = next - num := by omega
  rw [hnext]
  refine (shiftUp_spec (h.ready.setNext (next - num)) (by omega)).bind
    fun phv₁ _ ⟨hrow₁, hblank₁, hstacks₁⟩ => ?_
  rw [row_setNext] at hrow₁
  have hready₁ := (h.ready.setNext (next - num)).congr hblank₁
  refine (markFrom_spec hready₁ false (by omega)).bind
    fun phv₂ _ ⟨hrow₂, hblank₂, hstacks₂⟩ => .ok ⟨⟨?_, ?_, by omega, ?_⟩, fun i hi => ?_⟩
  · exact hready₁.congr hblank₂
  · exact ((h.counts.setNext (next - num)).congr hstacks₁).congr hstacks₂
  · rw [hrow₁] at hrow₂
    refine h.valid_of_marked (fun i => Shifts.exists_up _ i) hrow₂ (fun i hi => ?_) fun i hi => ?_
    · simp
      omega
    · rcases Nat.lt_or_ge i (next - num) with hlt | hge
      · exact ⟨i + num, Shifts.up_of_lt (by omega) _ hlt, by omega⟩
      · -- What was not in use before.
        exact ⟨i, Shifts.up_of_le _ (by omega), by omega⟩
  · rw [hrow₂, if_neg (by omega), hrow₁, Shifts.up_of_lt (by omega) _ hi]

/-- Marking one element. -/
theorem markFrom_one (mark : Phv → ℕ → Phv) (i : ℕ) (phv : Phv) :
    markFrom elements mark i 1 phv = (required elements[i]?).bind fun e => .ok (mark phv e) := rfl

/-- `pop_front()` is `pop_front(1)`. -/
theorem popFront_eq {next : ℕ} (h : InUse k s elements phv next) :
    popFront k phv s = popFrontN k phv s 1 := by
  unfold popFront popFrontN
  rw [show (k.stacksOf phv)[s]? = _ from h.counts, required_some, ok_bind, ok_bind,
    if_neg Nat.one_ne_zero]
  split
  · next hnext =>
    replace hnext : next = 0 := hnext
    subst hnext
    have hset := h.counts.setNext_self
    change _ = Except.ok (k.setNext phv s 0, 0)
    rw [hset]
  · next hnext =>
    replace hnext : next ≠ 0 := hnext
    dsimp only
    rw [show min next 1 = 1 by omega]
    simp only [markFrom_one]
    cases shiftUp k elements 1 (next - 1) (k.setNext phv s (next - 1)) with
    | error e => rfl
    | ok phv₁ => cases elements[next - 1]? <;> rfl

/-- **`push_front(num)`**, with a stack that has elements and a sum that does
not wrap: each place gets the element `num` places before. -/
theorem pushFrontN_spec {next num : ℕ} (h : InUse k s elements phv next)
    (hfits : num = 0 ∨ 0 < elements.length ∧ next + num < 2 ^ 64) :
    Returns (pushFrontN k phv s num) fun r =>
      InUse k s elements r.1 (min elements.length (next + num)) ∧
        ∀ i, num ≤ i → i < min elements.length (next + num) →
          row k elements r.1 i = row k elements phv (i - num) := by
  have hle := h.le
  unfold pushFrontN
  rw [show (k.stacksOf phv)[s]? = _ from h.counts]
  refine .bind_ok ?_
  split
  · next hnum =>
    subst hnum
    rw [Nat.add_zero, Nat.min_eq_right hle]
    exact .ok ⟨h, fun i _ _ => rfl⟩
  next hnum =>
  have hpos := (hfits.resolve_left hnum).1
  have hsum := (hfits.resolve_left hnum).2
  dsimp only
  rw [Nat.mod_eq_of_lt hsum]
  generalize hcount : min elements.length (next + num) = count
  -- `next_ - 1` as the code computes it, in 64 bits; the count is not 0 here.
  have hlast : (count + 2 ^ 64 - 1) % 2 ^ 64 = count - 1 := by omega
  rw [hlast]
  have hready := h.ready.setNext count
  -- The elements are moved from the last place down, then the first `num` places are marked
  -- valid.
  refine (shiftDown_spec hready (by omega)).bind fun phv₁ _ ⟨hrow₁, hblank₁, hstacks₁⟩ => ?_
  rw [row_setNext] at hrow₁
  have hready₁ := hready.congr hblank₁
  refine (markFrom_spec hready₁ true (by omega)).bind
    fun phv₂ _ ⟨hrow₂, hblank₂, hstacks₂⟩ => .ok ⟨⟨?_, ?_, by omega, ?_⟩, fun i hi hlt => ?_⟩
  · exact hready₁.congr hblank₂
  · exact ((h.counts.setNext count).congr hstacks₁).congr hstacks₂
  · rw [hrow₁] at hrow₂
    refine h.valid_of_marked (fun i => Shifts.exists_down _ i) hrow₂ (fun i hi => ?_) fun i hi => ?_
    · simp
      omega
    · rcases Nat.lt_or_ge i count with hlt | hge
      · exact ⟨i - num, Shifts.down_of_le (by omega) _ (by omega) (by omega), by omega⟩
      · exact ⟨i, Shifts.down_of_gt _ (by omega), by omega⟩
  · have hi' : i ≤ count - 1 := by omega
    rw [hrow₂, if_neg (by omega), hrow₁, Shifts.down_of_le (by omega) _ hi hi']

/-- `push_front()` is `push_front(1)`. -/
theorem pushFront_eq {next : ℕ} (h : InUse k s elements phv next) (hpos : 0 < elements.length)
    (hsize : elements.length < 2 ^ 63) : pushFront k phv s = pushFrontN k phv s 1 := by
  have hle := h.le
  unfold pushFront pushFrontN
  rw [show (k.stacksOf phv)[s]? = _ from h.counts, required_some, ok_bind, ok_bind,
    if_neg Nat.one_ne_zero]
  dsimp only
  have hnext : (if next < elements.length then next + 1 else next) =
      min elements.length ((next + 1) % 2 ^ 64) := by
    split <;> omega
  rw [hnext, show min elements.length 1 = 1 by omega]
  simp only [markFrom_one]
  cases shiftDown k elements 1 _ (k.setNext phv s (min elements.length ((next + 1) % 2 ^ 64))) with
  | error e => rfl
  | ok phv₁ => cases elements[0]? <;> rfl

theorem popBack_spec {next : ℕ} (h : InUse k s elements phv next) :
    Returns (popBack k phv s) fun r => InUse k s elements r.1 (next - 1) := by
  have hle := h.le
  unfold popBack
  rw [show (k.stacksOf phv)[s]? = _ from h.counts]
  refine .bind_ok ?_
  dsimp only
  split
  · next hnext =>
    subst hnext
    exact .ok h
  · have hlast : next - 1 < elements.length := by omega
    rw [List.getElem?_eq_getElem hlast]
    have hready := h.ready.setNext (next - 1)
    obtain ⟨hrow, hblank, hstacks⟩ := mark_spec hready false hlast
    rw [row_setNext] at hrow
    refine .bind_ok (.ok ⟨hready.congr hblank, (h.counts.setNext (next - 1)).congr hstacks, by omega,
      h.valid_of_marked (fun i => ⟨i, rfl⟩) hrow (fun i hi => ?_) fun i hi => ⟨i, rfl, by omega⟩⟩)
    simp
    omega

theorem pushBack_spec {next : ℕ} (h : InUse k s elements phv next) :
    Returns (pushBack k phv s) fun r =>
      InUse k s elements r.1 (min elements.length (next + 1)) := by
  have hle := h.le
  unfold pushBack
  rw [show (k.stacksOf phv)[s]? = _ from h.counts]
  refine .bind_ok ?_
  dsimp only
  split
  · next hnext =>
    rw [show min elements.length (next + 1) = next by omega]
    exact .ok h
  · have hlt : next < elements.length := by omega
    rw [List.getElem?_eq_getElem hlt, show min elements.length (next + 1) = next + 1 by omega]
    obtain ⟨hrow, hblank, hstacks⟩ := mark_spec h.ready true hlt
    refine .bind_ok (.ok ⟨(h.ready.congr hblank).setNext _, (h.counts.congr hstacks).setNext _,
      by omega, ?_⟩)
    rw [row_setNext]
    refine h.valid_of_marked (fun i => ⟨i, rfl⟩) hrow (fun i hi => ?_) fun i hi => ⟨i, rfl, by omega⟩
    simp
    omega

end

end Stack

end P4Bricks
