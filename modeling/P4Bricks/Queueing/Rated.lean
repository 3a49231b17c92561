import P4Bricks.Common.Lanes
import P4Bricks.Queueing.Model
/-!
# Lanes with a rate

What `QueueingLogicRL` and `QueueingLogicPriRL` have in common. An element is
accepted for a lane, gets the time at which it may leave from the record of the
lane, and waits in a heap that the lane shares with others; the front of a heap
leaves. A `Layout` says which lanes there are and which heap each is served
from: the lanes of the first are the queues and its heaps are the workers', those
of the second are the pairs of a queue and a priority, and of a worker and a
priority.

Of a step it is known that nothing is lost (`Inv`), and, as long as a time of
leaving is given to one element of a lane only (`Spread`), that the lane keeps
its order (`InOrder`).
-/

namespace P4Bricks

namespace Queueing

/-- Where each lane is served from. `laneAt` names the lane of an element of a
heap from the queue it was pushed to. -/
structure Layout (κ ι : Type*) where
  lanes : Finset κ
  home : κ → ι
  queueOf : κ → ℕ
  laneAt : ι → ℕ → κ
  laneAt_home : ∀ l, laneAt (home l) (queueOf l) = l

/-- The records of the lanes, and the heaps. -/
structure Rated (κ ι T : Type*) where
  infos : κ → QueueInfoRL
  heaps : ι → Heap (QE T)

variable {κ ι T : Type*} [DecidableEq κ] [DecidableEq ι]

namespace Event

theorem acceptedFor_append (l : κ) (es es' : List (Event κ T)) :
    acceptedFor l (es ++ es') = acceptedFor l es ++ acceptedFor l es' := List.filterMap_append

theorem poppedFrom_append (l : κ) (es es' : List (Event κ T)) :
    poppedFrom l (es ++ es') = poppedFrom l es ++ poppedFrom l es' := List.filterMap_append

@[simp] theorem acceptedFor_accepted (l l' : κ) (item : T) :
    acceptedFor l [accepted l' item] = if l' = l then [item] else [] := by
  unfold acceptedFor
  by_cases h : l' = l
  · simp [h]
  · simp [h]

@[simp] theorem acceptedFor_popped (l l' : κ) (item : T) :
    acceptedFor l [popped l' item] = [] := rfl

@[simp] theorem poppedFrom_accepted (l l' : κ) (item : T) :
    poppedFrom l [accepted l' item] = [] := rfl

@[simp] theorem poppedFrom_popped (l l' : κ) (item : T) :
    poppedFrom l [popped l' item] = if l' = l then [item] else [] := by
  unfold poppedFrom
  by_cases h : l' = l
  · simp [h]
  · simp [h]

/-- How many elements of a lane were accepted, and not popped. -/
def waiting (l : κ) (es : List (Event κ T)) : ℕ :=
  (acceptedFor l es).length - (poppedFrom l es).length

end Event

open Event

namespace Rated

variable (L : Layout κ ι)

/-- What waits of a lane. -/
def held (s : Rated κ ι T) : κ → Multiset (QE T) :=
  Lanes.held L.home (fun i qe => L.laneAt i qe.queueId) s.heaps

/-- The time of leaving that a push gives is new to the lane: nothing waits, or
the clock or the rate moves it beyond the last one given. -/
def Spread (s : Rated κ ι T) (l : κ) (now : ℕ) : Prop :=
  (s.infos l).size = 0 ∨ (s.infos l).lastSent < now ∨ 0 < (s.infos l).pktDelayTicks

/-- What a call may do. Pushes are made only where `ok` allows them. -/
inductive Step (ok : Rated κ ι T → κ → ℕ → Prop) :
    Rated κ ι T → Option (Event κ T) → Rated κ ι T → Prop where
  | push (s) {l item now} (hl : l ∈ L.lanes) (hok : ok s l now) :
      Step ok s (some (.accepted l item))
        ⟨Function.update s.infos l ((s.infos l).accept now),
          Function.update s.heaps (L.home l) ((s.heaps (L.home l)).push QE.send
            ⟨item, L.queueOf l, (s.infos l).getNextTp now⟩)⟩
  | pop (s) {i qe} (hfront : (s.heaps i).front? = some qe) :
      Step ok s (some (.popped (L.laneAt i qe.queueId) qe.e))
        ⟨Function.update s.infos (L.laneAt i qe.queueId)
            (s.infos (L.laneAt i qe.queueId)).remove,
          Function.update s.heaps i ((s.heaps i).pop QE.send)⟩
  | adjust (s) {infos} (hsize : ∀ l, (infos l).size = (s.infos l).size)
      (hsent : ∀ l, (infos l).lastSent = (s.infos l).lastSent) :
      Step ok s none ⟨infos, s.heaps⟩

/-- A run of the steps, with what they did. -/
inductive Run (ok : Rated κ ι T → κ → ℕ → Prop) :
    Rated κ ι T → List (Event κ T) → Rated κ ι T → Prop where
  | nil (s) : Run ok s [] s
  | snoc {s₀ es s e s'} (hrun : Run ok s₀ es s) (hstep : Step L ok s e s') :
      Run ok s₀ (es ++ e.toList) s'

/-! ## What a step does to what waits -/

section Held

variable {L} (s : Rated κ ι T)

/-- A push puts one element into its lane. -/
theorem held_push (l : κ) (qe : QE T) (infos : κ → QueueInfoRL) (hq : qe.queueId = L.queueOf l) :
    held L ⟨infos, Function.update s.heaps (L.home l) ((s.heaps (L.home l)).push QE.send qe)⟩ =
      Function.update (s.held L) l (qe ::ₘ s.held L l) := by
  have hlane : L.laneAt (L.home l) qe.queueId = l := by rw [hq, L.laneAt_home]
  have h := Lanes.held_push QE.send L.home (fun i qe => L.laneAt i qe.queueId) s.heaps
    (i := L.home l) (x := qe)
    (by simp only [hlane])
  simp only [hlane] at h
  exact h

variable {s} {i : ι} {qe : QE T}

/-- A pop takes the front from its lane. -/
theorem held_pop (hs : Lanes.Served QE.send L.home (fun i qe => L.laneAt i qe.queueId) s.heaps)
    (hfront : (s.heaps i).front? = some qe) (infos : κ → QueueInfoRL) (l : κ) :
    s.held L l =
      let s' : Rated κ ι T := ⟨infos, Function.update s.heaps i ((s.heaps i).pop QE.send)⟩
      if L.laneAt i qe.queueId = l then qe ::ₘ s'.held L l else s'.held L l := by
  have h := congrFun (hs.held_pop hfront) l
  by_cases hl : L.laneAt i qe.queueId = l
  · subst hl
    rw [Function.update_self] at h
    simp only [if_true]
    exact h
  · rw [Function.update_of_ne (Ne.symm hl)] at h
    simp only [if_neg hl]
    exact h

end Held

/-! ## Nothing is lost -/

/-- Every element accepted for a lane was popped from it or waits, and the record
of the lane counts those that wait. -/
structure Inv (s : Rated κ ι T) (es : List (Event κ T)) : Prop where
  served : Lanes.Served QE.send L.home (fun i qe => L.laneAt i qe.queueId) s.heaps
  listed : ∀ i, ∀ qe ∈ (s.heaps i).contents, L.laneAt i qe.queueId ∈ L.lanes
  size : ∀ l, (s.infos l).size = Multiset.card (s.held L l)
  conserved : ∀ l, (acceptedFor l es : Multiset T) = poppedFrom l es + (s.held L l).map QE.e

variable {L} {ok : Rated κ ι T → κ → ℕ → Prop} {s s' : Rated κ ι T} {es : List (Event κ T)}

omit [DecidableEq ι] in
theorem Inv.empty [Inhabited T] {infos : κ → QueueInfoRL} (hsize : ∀ l, (infos l).size = 0) :
    Inv L (⟨infos, fun _ => .empty⟩ : Rated κ ι T) [] :=
  ⟨Lanes.served_empty, fun _ _ hqe => absurd hqe (Multiset.notMem_zero _), hsize, fun _ => rfl⟩

namespace Inv

theorem push (h : Inv L s es) {l : κ} (hl : l ∈ L.lanes) (item : T) (now : ℕ) :
    Inv L ⟨Function.update s.infos l ((s.infos l).accept now),
      Function.update s.heaps (L.home l) ((s.heaps (L.home l)).push QE.send
        ⟨item, L.queueOf l, (s.infos l).getNextTp now⟩)⟩ (es ++ [.accepted l item]) := by
  have hheld := held_push s l ⟨item, L.queueOf l, (s.infos l).getNextTp now⟩
    (Function.update s.infos l ((s.infos l).accept now)) rfl
  refine ⟨h.served.push ?_, fun i qe hqe => ?_, fun l' => ?_, fun l' => ?_⟩
  · simp only [L.laneAt_home]
  · by_cases hi : i = L.home l
    · subst hi
      simp only [Function.update_self, Heap.contents_push] at hqe
      rcases Multiset.mem_cons.mp hqe with rfl | hqe
      · simpa only [L.laneAt_home] using hl
      · exact h.listed _ qe hqe
    · simp only [Function.update_of_ne hi] at hqe
      exact h.listed i qe hqe
  · rw [hheld]
    by_cases hl' : l' = l
    · subst hl'
      simp only [Function.update_self, Multiset.card_cons]
      exact congrArg (· + 1) (h.size l')
    · simp only [Function.update_of_ne hl']
      exact h.size l'
  · rw [hheld, acceptedFor_append, poppedFrom_append, ← Multiset.coe_add, ← Multiset.coe_add,
      h.conserved l', acceptedFor_accepted, poppedFrom_accepted, Multiset.coe_nil, add_zero]
    by_cases hl' : l' = l
    · subst hl'
      rw [Function.update_self, Multiset.map_cons, if_pos rfl, add_assoc, add_comm (Multiset.map ..)]
      rfl
    · rw [Function.update_of_ne hl', if_neg (Ne.symm hl'), Multiset.coe_nil, add_zero]

theorem pop (h : Inv L s es) {i : ι} {qe : QE T} (hfront : (s.heaps i).front? = some qe) :
    Inv L ⟨Function.update s.infos (L.laneAt i qe.queueId)
        (s.infos (L.laneAt i qe.queueId)).remove,
      Function.update s.heaps i ((s.heaps i).pop QE.send)⟩
      (es ++ [.popped (L.laneAt i qe.queueId) qe.e]) := by
  have hheld := held_pop h.served hfront (Function.update s.infos (L.laneAt i qe.queueId)
    (s.infos (L.laneAt i qe.queueId)).remove)
  refine ⟨h.served.pop hfront, fun j qe' hqe => ?_, fun l => ?_, fun l => ?_⟩
  · by_cases hj : j = i
    · subst hj
      simp only [Function.update_self] at hqe
      refine h.listed j qe' ?_
      rw [Heap.contents_eq_cons_pop QE.send hfront]
      exact Multiset.mem_cons_of_mem hqe
    · simp only [Function.update_of_ne hj] at hqe
      exact h.listed j qe' hqe
  · have hsize := h.size l
    rw [hheld l] at hsize
    by_cases hl : L.laneAt i qe.queueId = l
    · subst hl
      simp only [if_true, Multiset.card_cons] at hsize
      rw [← Nat.sub_eq_of_eq_add hsize]
      simp only [Function.update_self, QueueInfoRL.remove]
    · simp only [if_neg hl] at hsize
      simpa only [Function.update_of_ne (Ne.symm hl)] using hsize
  · rw [acceptedFor_append, poppedFrom_append, ← Multiset.coe_add, ← Multiset.coe_add,
      h.conserved l, hheld l, acceptedFor_popped, poppedFrom_popped, Multiset.coe_nil, add_zero]
    by_cases hl : L.laneAt i qe.queueId = l
    · simp only [if_pos hl, Multiset.map_cons]
      rw [add_assoc]
      rfl
    · simp only [if_neg hl, Multiset.coe_nil, add_zero]

/-- **One step** keeps everything accounted for. -/
theorem step (h : Inv L s es) {e : Option (Event κ T)} (hstep : Step L ok s e s') :
    Inv L s' (es ++ e.toList) := by
  cases hstep with
  | push hl _ => exact h.push hl _ _
  | pop hfront => exact h.pop hfront
  | adjust hsize _ =>
    rw [Option.toList_none, List.append_nil]
    exact ⟨h.served, h.listed, fun l => (hsize l).trans (h.size l), h.conserved⟩

theorem run {s₀ : Rated κ ι T} (h₀ : Inv L s₀ []) (hrun : Run L ok s₀ es s) : Inv L s es := by
  induction hrun with
  | nil => exact h₀
  | snoc _ hstep ih => exact ih.step hstep

omit [DecidableEq ι] in
/-- The record of a lane counts what was accepted for it and not popped. -/
theorem size_add_popped (h : Inv L s es) (l : κ) :
    (s.infos l).size + (poppedFrom l es).length = (acceptedFor l es).length := by
  have hcard := congrArg Multiset.card (h.conserved l)
  rw [Multiset.card_add, Multiset.card_map, Multiset.coe_card, Multiset.coe_card] at hcard
  rw [h.size l, hcard, add_comm]

omit [DecidableEq ι] in
theorem size_eq_waiting (h : Inv L s es) (l : κ) : (s.infos l).size = waiting l es := by
  have := h.size_add_popped l
  unfold waiting
  omega

/-- The lane of a front is one of the lanes, and counts it. -/
theorem front_counted (h : Inv L s es) {i : ι} {qe : QE T}
    (hfront : (s.heaps i).front? = some qe) :
    L.laneAt i qe.queueId ∈ L.lanes ∧ 0 < (s.infos (L.laneAt i qe.queueId)).size := by
  refine ⟨h.listed i qe (Heap.mem_contents_of_front hfront), ?_⟩
  rw [h.size, held_pop h.served hfront s.infos]
  simp

/-- What a heap holds is what the records of its lanes count. -/
theorem heap_size (h : Inv L s es) (i : ι) :
    (s.heaps i).size = ∑ l ∈ L.lanes with L.home l = i, (s.infos l).size := by
  rw [Lanes.size_eq_sum L.home (fun i qe => L.laneAt i qe.queueId)
    (L.lanes.filter fun l => L.home l = i)
    (fun qe hqe => Finset.mem_filter.mpr ⟨h.listed i qe hqe, h.served.homed i qe hqe⟩)
    fun l hl => (Finset.mem_filter.mp hl).2]
  exact Finset.sum_congr rfl fun l _ => (h.size l).symm

end Inv

/-! ## The order of a lane -/

/-- What waits of a lane leaves at times that increase, none beyond the last one
given, and is what follows the elements popped. -/
def InOrder (L : Layout κ ι) (s : Rated κ ι T) (es : List (Event κ T)) (l : κ) : Prop :=
  ∃ pending : List (QE T), s.held L l = ↑pending ∧
    pending.Pairwise (fun a b => a.send < b.send) ∧
    (∀ qe ∈ pending, qe.send ≤ (s.infos l).lastSent) ∧
    acceptedFor l es = poppedFrom l es ++ pending.map QE.e

omit [DecidableEq ι] in
theorem InOrder.isPrefix {l : κ} (h : InOrder L s es l) :
    poppedFrom l es <+: acceptedFor l es := by
  obtain ⟨pending, _, _, _, hacc⟩ := h
  rw [hacc]
  exact List.prefix_append ..

omit [DecidableEq κ] [DecidableEq ι] in
/-- The time a push gives is beyond those of the elements that wait. -/
theorem Spread.lt_getNextTp {l : κ} {now : ℕ} (h : s.Spread l now) (hpos : 0 < (s.infos l).size) :
    (s.infos l).lastSent < (s.infos l).getNextTp now := by
  unfold QueueInfoRL.getNextTp
  rcases h with hsize | hnow | hdelay
  · omega
  · exact lt_of_lt_of_le hnow (le_max_left ..)
  · refine lt_of_lt_of_le ?_ (le_max_right ..)
    omega

theorem InOrder.push (hinv : Inv L s es) {l l' : κ} (h : InOrder L s es l') (item : T) {now : ℕ}
    (hok : s.Spread l now) :
    InOrder L ⟨Function.update s.infos l ((s.infos l).accept now),
      Function.update s.heaps (L.home l) ((s.heaps (L.home l)).push QE.send
        ⟨item, L.queueOf l, (s.infos l).getNextTp now⟩)⟩ (es ++ [.accepted l item]) l' := by
  obtain ⟨pending, hheld, hsorted, hlast, hacc⟩ := h
  have hnew := held_push s l ⟨item, L.queueOf l, (s.infos l).getNextTp now⟩
    (Function.update s.infos l ((s.infos l).accept now)) rfl
  unfold InOrder
  rw [hnew, acceptedFor_append, poppedFrom_append, acceptedFor_accepted, poppedFrom_accepted,
    List.append_nil]
  by_cases hl : l' = l
  · subst hl
    refine ⟨pending ++ [⟨item, L.queueOf l', (s.infos l').getNextTp now⟩], ?_, ?_, ?_, ?_⟩
    · rw [Function.update_self, hheld, Multiset.cons_coe]
      exact Multiset.coe_eq_coe.mpr (List.perm_append_singleton ..).symm
    · refine List.pairwise_append.mpr ⟨hsorted, List.pairwise_singleton .., ?_⟩
      rintro qe hqe _ (_ | ⟨_, ⟨⟩⟩)
      -- Something waits, so the record counts it.
      have hpos : 0 < (s.infos l').size := by
        rw [hinv.size l', hheld, Multiset.coe_card]
        exact List.length_pos_of_mem hqe
      exact lt_of_le_of_lt (hlast qe hqe) (hok.lt_getNextTp hpos)
    · have hle : (s.infos l').lastSent ≤ (s.infos l').getNextTp now :=
        le_trans (Nat.le_add_right ..) (le_max_right ..)
      intro qe hqe
      simp only [Function.update_self]
      rcases List.mem_append.mp hqe with hqe | hqe
      · exact (hlast qe hqe).trans hle
      · obtain rfl := List.mem_singleton.mp hqe
        exact le_rfl
    · rw [if_pos rfl, hacc, List.map_append, List.append_assoc]
      rfl
  · refine ⟨pending, ?_, hsorted, ?_, ?_⟩
    · rwa [Function.update_of_ne hl]
    · simpa only [Function.update_of_ne hl] using hlast
    · rw [if_neg (Ne.symm hl), List.append_nil, hacc]

theorem InOrder.pop (hinv : Inv L s es) {l : κ} (h : InOrder L s es l) {i : ι} {qe : QE T}
    (hfront : (s.heaps i).front? = some qe) :
    InOrder L ⟨Function.update s.infos (L.laneAt i qe.queueId)
        (s.infos (L.laneAt i qe.queueId)).remove,
      Function.update s.heaps i ((s.heaps i).pop QE.send)⟩
      (es ++ [.popped (L.laneAt i qe.queueId) qe.e]) l := by
  obtain ⟨pending, hheld, hsorted, hlast, hacc⟩ := h
  have hold := held_pop hinv.served hfront (Function.update s.infos (L.laneAt i qe.queueId)
    (s.infos (L.laneAt i qe.queueId)).remove) l
  unfold InOrder
  rw [acceptedFor_append, poppedFrom_append, acceptedFor_popped, poppedFrom_popped,
    List.append_nil]
  by_cases hl : L.laneAt i qe.queueId = l
  · subst hl
    obtain ⟨rest, rfl⟩ := hinv.served.pending_eq_cons hfront hheld hsorted
    simp only [if_true] at hold
    refine ⟨rest, ?_, hsorted.of_cons, ?_, ?_⟩
    · rw [hheld, ← Multiset.cons_coe] at hold
      exact (Multiset.cons_inj_right qe).mp hold.symm
    · simp only [Function.update_self]
      exact fun x hx => hlast x (List.mem_cons_of_mem _ hx)
    · rw [if_pos rfl, hacc, List.append_assoc]
      rfl
  · simp only [if_neg hl] at hold
    refine ⟨pending, hold.symm.trans hheld, hsorted, ?_, ?_⟩
    · simpa only [Function.update_of_ne (Ne.symm hl)] using hlast
    · rw [if_neg hl, List.append_nil, hacc]

theorem InOrder.step (hinv : Inv L s es) {l : κ} (h : InOrder L s es l)
    {e : Option (Event κ T)} (hstep : Step L Spread s e s') :
    InOrder L s' (es ++ e.toList) l := by
  cases hstep with
  | push _ hok => exact h.push hinv _ hok
  | pop hfront => exact h.pop hinv hfront
  | adjust _ hsent =>
    obtain ⟨pending, hheld, hsorted, hlast, hacc⟩ := h
    rw [Option.toList_none, List.append_nil]
    refine ⟨pending, hheld, hsorted, fun qe hqe => ?_, hacc⟩
    rw [hsent l]
    exact hlast qe hqe

/-- **Lanes keep their order**, where times of leaving are spread. -/
theorem InOrder.run {s₀ : Rated κ ι T} (h₀ : Inv L s₀ []) {l : κ} (ho : InOrder L s₀ [] l)
    (hrun : Run L Spread s₀ es s) : InOrder L s es l := by
  induction hrun with
  | nil => exact ho
  | snoc hrun hstep ih => exact ih.step (h₀.run hrun) hstep

omit [DecidableEq ι] in
theorem InOrder.empty [Inhabited T] {infos : κ → QueueInfoRL} (l : κ) :
    InOrder L (⟨infos, fun _ => .empty⟩ : Rated κ ι T) [] l :=
  ⟨[], rfl, List.Pairwise.nil, fun _ h => absurd h List.not_mem_nil, rfl⟩

end Rated

end Queueing

end P4Bricks
