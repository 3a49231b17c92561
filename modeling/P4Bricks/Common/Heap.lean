import Mathlib.Data.Multiset.Range
import Mathlib.Data.Finset.Range
import Mathlib.Order.Basic
import Mathlib.Tactic
/-!
# Binary heaps

The heap of the C++ standard library, as `push_heap` and `pop_heap` keep it: a
new element rises from the end, and for the element removed from the front the
last one takes its place, sinks to a leaf along the better children whatever it
is, and rises from there. Where the library moves a hole about and keeps the
value aside, the value is swapped along here.

Elements are compared by a key, the least first. A heap is a bag of which the
front is a least element (`contents`, `key_front_le`); nothing is said about
the order of elements with equal keys, and there is none.
-/

namespace P4Bricks

/-- The elements in their places. What `get` says beyond the end means nothing. -/
structure Heap (α : Type*) where
  size : ℕ
  get : ℕ → α

namespace Heap

variable {α β : Type*} [LinearOrder β]

def empty [Inhabited α] : Heap α := ⟨0, fun _ => default⟩

def front? (h : Heap α) : Option α := if h.size = 0 then none else some (h.get 0)

/-- Two elements change places. -/
def exchange (f : ℕ → α) (i j : ℕ) : ℕ → α :=
  fun k => if k = i then f j else if k = j then f i else f k

def parent (i : ℕ) : ℕ := (i - 1) / 2

/-- `__push_heap`: the element at `i` rises while its parent is worse. -/
def rise (key : α → β) : ℕ → (ℕ → α) → ℕ → (ℕ → α)
  | 0, f, _ => f
  | fuel + 1, f, i =>
    if 0 < i ∧ key (f i) < key (f (parent i)) then
      rise key fuel (exchange f i (parent i)) (parent i)
    else f

/-- The better child of `i`, the right one of two that are equal. -/
def betterChild (key : α → β) (f : ℕ → α) (i : ℕ) : ℕ :=
  if key (f (2 * i + 1)) < key (f (2 * i + 2)) then 2 * i + 1 else 2 * i + 2

/-- The loop of `__adjust_heap`: the element at `i` sinks to a leaf of the first
`len` places, and the place of the leaf is returned. -/
def sink (key : α → β) (len : ℕ) : ℕ → (ℕ → α) → ℕ → (ℕ → α) × ℕ
  | 0, f, i => (f, i)
  | fuel + 1, f, i =>
    if i < (len - 1) / 2 then
      sink key len fuel (exchange f i (betterChild key f i)) (betterChild key f i)
    -- The last place may be an only child.
    else if len % 2 = 0 ∧ i = (len - 2) / 2 then (exchange f i (2 * i + 1), 2 * i + 1)
    else (f, i)

def push (key : α → β) (h : Heap α) (x : α) : Heap α :=
  ⟨h.size + 1, rise key h.size (Function.update h.get h.size x) h.size⟩

/-- `pop`, for a heap that is not empty. -/
def pop (key : α → β) (h : Heap α) : Heap α :=
  if h.size ≤ 1 then ⟨0, h.get⟩
  else
    let f := Function.update h.get 0 (h.get (h.size - 1))
    let r := sink key (h.size - 1) (h.size - 1) f 0
    ⟨h.size - 1, rise key r.2 r.1 r.2⟩

/-! ## The contents -/

/-- The elements among the first places. -/
def bag (f : ℕ → α) (n : ℕ) : Multiset α := (Multiset.range n).map f

/-- The elements of a heap. -/
def contents (h : Heap α) : Multiset α := bag h.get h.size

/-- The bag depends on the first `n` cells only. -/
theorem bag_congr {f g : ℕ → α} {n : ℕ} (h : ∀ i < n, f i = g i) : bag f n = bag g n :=
  Multiset.map_congr rfl fun i hi => h i (Multiset.mem_range.mp hi)

theorem bag_succ (f : ℕ → α) (n : ℕ) : bag f (n + 1) = f n ::ₘ bag f n := by
  rw [bag, Multiset.range_succ, Multiset.map_cons]
  rfl

/-- One place and the others. -/
theorem bag_eq_cons (f : ℕ → α) {n i : ℕ} (hi : i < n) :
    bag f n = f i ::ₘ ((Multiset.range n).erase i).map f := by
  rw [bag, ← Multiset.map_cons, Multiset.cons_erase (Multiset.mem_range.mpr hi)]

/-- Two cells of the bag that change places leave it as it is, -/
theorem bag_exchange (f : ℕ → α) {n i j : ℕ} (hi : i < n) (hj : j < n) :
    bag (exchange f i j) n = bag f n := by
  by_cases hij : i = j
  · subst hij
    refine bag_congr fun k _ => ?_
    unfold exchange
    split_ifs with h
    · rw [h]
    · rfl
  · have hmem : j ∈ (Multiset.range n).erase i :=
      (Multiset.mem_erase_of_ne (Ne.symm hij)).mpr (Multiset.mem_range.mpr hj)
    have hnd : ((Multiset.range n).erase i).Nodup := (Multiset.nodup_range n).erase i
    -- Two places and the others, which are the same on both sides.
    have hrest : ∀ k ∈ ((Multiset.range n).erase i).erase j, exchange f i j k = f k := by
      intro k hk
      have hkj : k ≠ j := fun h => hnd.notMem_erase (h ▸ hk)
      have hki : k ≠ i := by
        rintro rfl
        exact (Multiset.nodup_range n).notMem_erase (Multiset.mem_of_mem_erase hk)
      simp [exchange, hki, hkj]
    rw [bag_eq_cons _ hi, bag_eq_cons f hi, ← Multiset.cons_erase hmem, Multiset.map_cons,
      Multiset.map_cons, Multiset.map_congr rfl hrest]
    have hji : j ≠ i := Ne.symm hij
    simp only [exchange, if_true, if_neg hji]
    exact Multiset.cons_swap ..

/-- and so does a cell that rises -/
theorem bag_rise (key : α → β) (fuel : ℕ) (f : ℕ → α) {n i : ℕ} (hi : i < n) :
    bag (rise key fuel f i) n = bag f n := by
  induction fuel generalizing f i with
  | zero => rfl
  | succ fuel ih =>
    rw [rise]
    split_ifs with h
    · have hp : parent i < n := by
        unfold parent
        omega
      rw [ih _ hp, bag_exchange f hi hp]
    · rfl

/-- The better child is one of the two. -/
theorem betterChild_cases (key : α → β) (f : ℕ → α) (i : ℕ) :
    betterChild key f i = 2 * i + 1 ∨ betterChild key f i = 2 * i + 2 := by
  unfold betterChild
  split_ifs
  · exact .inl rfl
  · exact .inr rfl

/-- or one that sinks among the first `len`. -/
theorem bag_sink (key : α → β) {len : ℕ} (fuel : ℕ) (f : ℕ → α) {i : ℕ} (hi : i < len) :
    (sink key len fuel f i).2 < len ∧ bag (sink key len fuel f i).1 len = bag f len := by
  induction fuel generalizing f i with
  | zero => exact ⟨hi, rfl⟩
  | succ fuel ih =>
    rw [sink]
    split_ifs with h hlast
    · have hc : betterChild key f i < len := by
        rcases betterChild_cases key f i with hc | hc
        · omega
        · omega
      obtain ⟨hlt, hbag⟩ := ih (exchange f i (betterChild key f i)) hc
      exact ⟨hlt, by rw [hbag, bag_exchange f hi hc]⟩
    · have hc : 2 * i + 1 < len := by omega
      exact ⟨hc, bag_exchange f hi hc⟩
    · exact ⟨hi, rfl⟩

/-- A push adds its element to the contents, -/
theorem contents_push (key : α → β) (h : Heap α) (x : α) :
    (h.push key x).contents = x ::ₘ h.contents := by
  rw [contents, push]
  simp only
  rw [bag_rise key _ _ (Nat.lt_succ_self _), bag_succ, Function.update_self]
  congr 1
  exact bag_congr fun i hi => Function.update_of_ne (by omega) ..

/-- and a pop takes the first cell from them. -/
theorem contents_pop (key : α → β) {h : Heap α} (hpos : 0 < h.size) :
    h.contents = h.get 0 ::ₘ (h.pop key).contents := by
  unfold pop
  split_ifs with hone
  · have hsize : h.size = 0 + 1 := by omega
    rw [contents, hsize, bag_succ]
    rfl
  · obtain ⟨n, hn⟩ : ∃ n, h.size = n + 2 := ⟨h.size - 2, by omega⟩
    have hlen : h.size - 1 = n + 1 := by omega
    have hlt : (0 : ℕ) < n + 1 := by omega
    rw [hlen]
    obtain ⟨hleaf, hsink⟩ := bag_sink key (n + 1)
      (Function.update h.get 0 (h.get (n + 1))) hlt
    rw [contents, contents]
    simp only
    rw [bag_rise key _ _ hleaf, hsink, hn, bag_succ, bag_eq_cons h.get hlt,
      bag_eq_cons (Function.update h.get 0 _) hlt, Function.update_self]
    have hrest : ∀ k ∈ (Multiset.range (n + 1)).erase 0,
        Function.update h.get 0 (h.get (n + 1)) k = h.get k := by
      intro k hk
      refine Function.update_of_ne ?_ ..
      rintro rfl
      exact (Multiset.nodup_range _).notMem_erase hk
    rw [Multiset.map_congr rfl hrest]
    exact Multiset.cons_swap ..

/-- The heap has as many elements as its size says. -/
theorem card_contents (h : Heap α) : Multiset.card h.contents = h.size := by
  simp [contents, bag]

/-! ## The order -/

/-- Every element of the first `n` places is at least its parent. -/
def Ordered (key : α → β) (f : ℕ → α) (n : ℕ) : Prop :=
  ∀ k, 0 < k → k < n → key (f (parent k)) ≤ key (f k)

/-- All but the element at `i` is in order, and would be without it: its children
are at least its parent. -/
structure OrderedAbove (key : α → β) (f : ℕ → α) (n i : ℕ) : Prop where
  order : ∀ k, 0 < k → k < n → k ≠ i → key (f (parent k)) ≤ key (f k)
  grand : ∀ k, 0 < i → 0 < k → k < n → parent k = i → key (f (parent i)) ≤ key (f k)

/-- A parent stands before its child. -/
theorem parent_lt {k : ℕ} (hk : 0 < k) : parent k < k := by
  unfold parent
  omega

theorem exchange_left (f : ℕ → α) (i j : ℕ) : exchange f i j i = f j := if_pos rfl

theorem exchange_right (f : ℕ → α) {i j : ℕ} (h : j ≠ i) : exchange f i j j = f i := by
  simp [exchange, h]

theorem exchange_of_ne (f : ℕ → α) {i j k : ℕ} (hi : k ≠ i) (hj : k ≠ j) :
    exchange f i j k = f k := by
  simp [exchange, hi, hj]

variable {key : α → β} {f : ℕ → α} {n i : ℕ}

/-- One step up keeps the order of the rest. -/
theorem OrderedAbove.exchange (h : OrderedAbove key f n i) (hi : 0 < i) (hn : i < n)
    (hlt : key (f i) < key (f (parent i))) :
    OrderedAbove key (exchange f i (parent i)) n (parent i) := by
  have hp := parent_lt hi
  have hpi : parent i ≠ i := by omega
  refine ⟨fun k hk hkn hne => ?_, fun k hpos hk hkn hpk => ?_⟩
  · by_cases hki : k = i
    · subst hki
      rw [exchange_right f hpi, exchange_left]
      exact hlt.le
    · rw [exchange_of_ne f hki hne]
      by_cases hpk : parent k = i
      · rw [hpk, exchange_left]
        exact h.grand k hi hk hkn hpk
      · by_cases hpp : parent k = parent i
        · -- The sibling: its parent got less.
          rw [hpp, exchange_right f hpi]
          have := h.order k hk hkn hki
          rw [hpp] at this
          exact hlt.le.trans this
        · rw [exchange_of_ne f hpk hpp]
          exact h.order k hk hkn hki
  · have hpp := parent_lt hpos
    have hpp_ne : parent (parent i) ≠ i := by omega
    have hpp_ne' : parent (parent i) ≠ parent i := by omega
    rw [exchange_of_ne f hpp_ne hpp_ne']
    have hup := h.order (parent i) hpos (by omega) hpi
    by_cases hki : k = i
    · subst hki
      rw [exchange_left]
      exact hup
    · have hkp : k ≠ parent i := by
        have := parent_lt hk
        omega
      rw [exchange_of_ne f hki hkp]
      have := h.order k hk hkn hki
      rw [hpk] at this
      exact hup.trans this

/-- A cell that is in order but for its parent rises until all are. -/
theorem OrderedAbove.rise (h : OrderedAbove key f n i) (hn : i < n) {fuel : ℕ} (hfuel : i ≤ fuel) :
    Ordered key (rise key fuel f i) n := by
  induction fuel generalizing f i with
  | zero =>
    intro k hk hkn
    exact h.order k hk hkn (by omega)
  | succ fuel ih =>
    rw [Heap.rise]
    split_ifs with hup
    · have hp := parent_lt hup.1
      exact ih (h.exchange hup.1 hn hup.2) (by omega) (by omega)
    · intro k hk hkn
      by_cases hki : k = i
      · subst hki
        by_contra hlt
        exact hup ⟨hk, not_le.mp hlt⟩
      · exact h.order k hk hkn hki

/-- All but the element at `i` is in order, and its children are at least its
parent. -/
structure OrderedBelow (key : α → β) (f : ℕ → α) (n i : ℕ) : Prop where
  order : ∀ k, 0 < k → k < n → k ≠ i → parent k ≠ i → key (f (parent k)) ≤ key (f k)
  grand : ∀ k, 0 < i → 0 < k → k < n → parent k = i → key (f (parent i)) ≤ key (f k)

/-- One step down, to a child that is at most the other. -/
theorem OrderedBelow.exchange (h : OrderedBelow key f n i) {c : ℕ} (hc : 0 < c) (hcn : c < n)
    (hci : parent c = i)
    (hmin : ∀ k, 0 < k → k < n → parent k = i → key (f c) ≤ key (f k)) :
    OrderedBelow key (exchange f i c) n c := by
  have hlt := parent_lt hc
  have hne : c ≠ i := by omega
  refine ⟨fun k hk hkn hkc hpk => ?_, fun k _ hk hkn hpk => ?_⟩
  · by_cases hki : k = i
    · subst hki
      have hpi := parent_lt hk
      rw [exchange_left, exchange_of_ne f (by omega) hpk]
      exact h.grand c hk hc hcn hci
    · rw [exchange_of_ne f hki hkc]
      by_cases hpi : parent k = i
      · rw [hpi, exchange_left]
        exact hmin k hk hkn hpi
      · rw [exchange_of_ne f hpi hpk]
        exact h.order k hk hkn hki hpi
  · have hkp := parent_lt hk
    rw [hci, exchange_left, exchange_of_ne f (by omega) (by omega), ← hpk]
    exact h.order k hk hkn (by omega) (by omega)

/-- A leaf is in order with what is below it. -/
theorem OrderedBelow.orderedAbove (h : OrderedBelow key f n i) (hleaf : n ≤ 2 * i + 1) :
    OrderedAbove key f n i := by
  have hnone : ∀ k, 0 < k → k < n → parent k ≠ i := by
    intro k hk hkn
    unfold parent
    omega
  exact ⟨fun k hk hkn hne => h.order k hk hkn hne (hnone k hk hkn),
    fun k _ hk hkn hpk => absurd hpk (hnone k hk hkn)⟩

/-- A cell that is in order but for its children sinks until only its parent may not be. -/
theorem OrderedBelow.sink {len : ℕ} (h : OrderedBelow key f len i) (hi : i < len) {fuel : ℕ}
    (hfuel : len ≤ fuel + i) :
    OrderedAbove key (sink key len fuel f i).1 len (sink key len fuel f i).2 := by
  induction fuel generalizing f i with
  | zero => omega
  | succ fuel ih =>
    rw [Heap.sink]
    split_ifs with htwo hlast
    · have hcases := betterChild_cases key f i
      -- The cell is exchanged with the better of its two children, which is then in order with
      -- the other.
      have hmin : ∀ k, 0 < k → k < len → parent k = i →
          key (f (betterChild key f i)) ≤ key (f k) := by
        intro k hk hkn hpk
        have hk2 : k = 2 * i + 1 ∨ k = 2 * i + 2 := by
          unfold parent at hpk
          omega
        unfold betterChild
        split_ifs with hcmp
        · rcases hk2 with rfl | rfl
          · exact le_rfl
          · exact hcmp.le
        · rcases hk2 with rfl | rfl
          · exact not_lt.mp hcmp
          · exact le_rfl
      generalize betterChild key f i = c at hcases hmin
      have hpc : parent c = i := by
        unfold parent
        omega
      exact ih (h.exchange (by omega) (by omega) hpc hmin) (by omega) (by omega)
    · have hpc : parent (2 * i + 1) = i := by
        unfold parent
        omega
      refine (h.exchange (by omega) (by omega) hpc fun k hk hkn hpk => ?_).orderedAbove (by omega)
      obtain rfl : k = 2 * i + 1 := by
        unfold parent at hpk
        omega
      exact le_rfl
    · exact h.orderedAbove (by omega)

/-- A heap in order. -/
def WellOrdered (key : α → β) (h : Heap α) : Prop := Ordered key h.get h.size

/-- The empty heap is in order, -/
theorem wellOrdered_empty [Inhabited α] : WellOrdered key (empty : Heap α) := fun _ _ hk => by
  cases hk

/-- and so is one after a push -/
theorem WellOrdered.push {h : Heap α} (ho : WellOrdered key h) (x : α) :
    WellOrdered key (h.push key x) := by
  have habove : OrderedAbove key (Function.update h.get h.size x) (h.size + 1) h.size := by
    refine ⟨fun k hk hkn hne => ?_, fun k _ hk hkn hpk => ?_⟩
    · have hp := parent_lt hk
      rw [Function.update_of_ne (by omega), Function.update_of_ne hne]
      exact ho k hk (by omega)
    · have hp := parent_lt hk
      omega
  exact habove.rise (by omega) le_rfl

/-- and after a pop. -/
theorem WellOrdered.pop {h : Heap α} (ho : WellOrdered key h) : WellOrdered key (h.pop key) := by
  unfold Heap.pop
  split_ifs with hone
  · exact fun _ _ hk => by cases hk
  · have hbelow : OrderedBelow key (Function.update h.get 0 (h.get (h.size - 1))) (h.size - 1) 0 := by
      refine ⟨fun k hk hkn hne hpk => ?_, fun k h0 => absurd h0 (lt_irrefl 0)⟩
      rw [Function.update_of_ne hpk, Function.update_of_ne hne]
      exact ho k hk (by omega)
    have hlt : 0 < h.size - 1 := by omega
    exact (hbelow.sink hlt (by omega)).rise (bag_sink key _ _ hlt).1 le_rfl

/-- **The front is a least element.** -/
theorem WellOrdered.key_front_le {h : Heap α} (ho : WellOrdered key h) {x : α}
    (hx : x ∈ h.contents) : key (h.get 0) ≤ key x := by
  have hall : ∀ k, k < h.size → key (h.get 0) ≤ key (h.get k) := by
    intro k
    induction k using Nat.strong_induction_on with
    | _ k ih =>
      intro hk
      rcases Nat.eq_zero_or_pos k with rfl | hpos
      · exact le_rfl
      · have hp := parent_lt hpos
        exact (ih (parent k) hp (by omega)).trans (ho k hpos hk)
  obtain ⟨k, hk, rfl⟩ := Multiset.mem_map.mp (show x ∈ (Multiset.range h.size).map h.get from hx)
  exact hall k (Multiset.mem_range.mp hk)

/-! ## The front -/

/-- The front of a heap is its first cell. -/
theorem front?_eq_some {h : Heap α} {x : α} (hfront : h.front? = some x) :
    0 < h.size ∧ h.get 0 = x := by
  unfold front? at hfront
  split_ifs at hfront with hsize
  exact ⟨by omega, Option.some.inj hfront⟩

/-- What is popped is the front. -/
theorem contents_eq_cons_pop (key : α → β) {h : Heap α} {x : α} (hfront : h.front? = some x) :
    h.contents = x ::ₘ (h.pop key).contents := by
  obtain ⟨hpos, rfl⟩ := front?_eq_some hfront
  exact contents_pop key hpos

/-- The front is one of the elements. -/
theorem mem_contents_of_front {h : Heap α} {x : α} (hfront : h.front? = some x) :
    x ∈ h.contents := by
  obtain ⟨hpos, rfl⟩ := front?_eq_some hfront
  exact Multiset.mem_map_of_mem _ (Multiset.mem_range.mpr hpos)

end Heap

end P4Bricks
