import P4Bricks.Common.Heap
import Mathlib.Data.List.Infix
/-!
# Lanes that share heaps

Elements of many lanes wait in a few heaps, each lane in one of them, its home.
`held` is what waits of a lane, as a bag, and a push or a pop changes it by the
one element that comes or goes (`held_push`, `held_pop`).

A heap knows keys only. It gives the elements of a lane back in the order they
came in as long as each comes with a greater key than those of its lane that
wait (`pending_eq_cons`); of two with equal keys either may go first.
-/

namespace P4Bricks

namespace Lanes

variable {α β κ ι : Type*} [LinearOrder β]
variable {key : α → β} {home : κ → ι} {lane : ι → α → κ}

/-- What waits of a lane. -/
def held [DecidableEq κ] (home : κ → ι) (lane : ι → α → κ) (heaps : ι → Heap α) (l : κ) : Multiset α :=
  (heaps (home l)).contents.filter fun x => lane (home l) x = l

/-- Every heap is in order, and holds elements of lanes at home there only. -/
structure Served (key : α → β) (home : κ → ι) (lane : ι → α → κ) (heaps : ι → Heap α) :
    Prop where
  ordered : ∀ i, (heaps i).WellOrdered key
  homed : ∀ i, ∀ x ∈ (heaps i).contents, home (lane i x) = i

theorem served_empty [Inhabited α] : Served key home lane (fun _ => Heap.empty) :=
  ⟨fun _ => Heap.wellOrdered_empty, fun _ _ hx => absurd hx (Multiset.notMem_zero _)⟩

section Steps

variable [DecidableEq κ] [DecidableEq ι]

/-- One element more in one heap. -/
theorem held_update_cons (heaps : ι → Heap α) {i : ι} {h : Heap α} {x : α}
    (hx : home (lane i x) = i) (hcons : h.contents = x ::ₘ (heaps i).contents) :
    held home lane (Function.update heaps i h) =
      Function.update (held home lane heaps) (lane i x) (x ::ₘ held home lane heaps (lane i x)) := by
  funext l
  by_cases hl : l = lane i x
  · subst hl
    rw [Function.update_self, held, hx, Function.update_self, hcons, held, hx,
      Multiset.filter_cons_of_pos (p := fun y => lane i y = lane i x) _ rfl]
  · rw [Function.update_of_ne hl, held, held]
    by_cases hi : home l = i
    · subst hi
      rw [Function.update_self, hcons, 
        Multiset.filter_cons_of_neg (p := fun y => lane (home l) y = l) _ (Ne.symm hl)]
    · rw [Function.update_of_ne hi]

theorem held_push (key : α → β) (home : κ → ι) (lane : ι → α → κ) (heaps : ι → Heap α)
    {i : ι} {x : α} (hx : home (lane i x) = i) :
    held home lane (Function.update heaps i ((heaps i).push key x)) =
      Function.update (held home lane heaps) (lane i x) (x ::ₘ held home lane heaps (lane i x)) :=
  held_update_cons heaps hx (Heap.contents_push key _ x)

end Steps

namespace Served

variable {heaps : ι → Heap α} {i : ι} {x : α}
variable (hs : Served key home lane heaps)
include hs

theorem push [DecidableEq ι] (hx : home (lane i x) = i) :
    Served key home lane (Function.update heaps i ((heaps i).push key x)) := by
  refine ⟨fun j => ?_, fun j y hy => ?_⟩
  · by_cases hj : j = i
    · subst hj
      rw [Function.update_self]
      exact (hs.ordered j).push x
    · rw [Function.update_of_ne hj]
      exact hs.ordered j
  · by_cases hj : j = i
    · subst hj
      rw [Function.update_self, Heap.contents_push] at hy
      rcases Multiset.mem_cons.mp hy with rfl | hy
      · exact hx
      · exact hs.homed j y hy
    · rw [Function.update_of_ne hj] at hy
      exact hs.homed j y hy

theorem pop [DecidableEq ι] (hfront : (heaps i).front? = some x) :
    Served key home lane (Function.update heaps i ((heaps i).pop key)) := by
  refine ⟨fun j => ?_, fun j y hy => ?_⟩
  · by_cases hj : j = i
    · subst hj
      rw [Function.update_self]
      exact (hs.ordered j).pop
    · rw [Function.update_of_ne hj]
      exact hs.ordered j
  · by_cases hj : j = i
    · subst hj
      rw [Function.update_self] at hy
      refine hs.homed j y ?_
      rw [Heap.contents_eq_cons_pop key hfront]
      exact Multiset.mem_cons_of_mem hy
    · rw [Function.update_of_ne hj] at hy
      exact hs.homed j y hy

/-- A pop takes the front from its lane, and from no other. -/
theorem held_pop [DecidableEq κ] [DecidableEq ι] (hfront : (heaps i).front? = some x) :
    held home lane heaps =
      Function.update (held home lane (Function.update heaps i ((heaps i).pop key))) (lane i x)
        (x ::ₘ held home lane (Function.update heaps i ((heaps i).pop key)) (lane i x)) := by
  have hx := hs.homed i x (Heap.mem_contents_of_front hfront)
  rw [← held_update_cons (h := heaps i) _ hx, Function.update_idem, Function.update_eq_self]
  rw [Function.update_self]
  exact Heap.contents_eq_cons_pop key hfront

/-- The front is the first of its lane, where the keys of a lane increase. -/
theorem pending_eq_cons [DecidableEq κ] (hfront : (heaps i).front? = some x) {pending : List α}
    (hheld : held home lane heaps (lane i x) = ↑pending)
    (hsorted : pending.Pairwise fun a b => key a < key b) : ∃ rest, pending = x :: rest := by
  have hx := hs.homed i x (Heap.mem_contents_of_front hfront)
  have hmem : x ∈ pending := by
    rw [← Multiset.mem_coe, ← hheld, held, hx]
    exact Multiset.mem_filter.mpr ⟨Heap.mem_contents_of_front hfront, rfl⟩
  obtain _ | ⟨y, rest⟩ := pending
  · exact absurd hmem List.not_mem_nil
  · rcases List.mem_cons.mp hmem with rfl | hrest
    · exact ⟨rest, rfl⟩
    · -- The head is in the same heap, so the front is not greater than it.
      have hy : y ∈ (heaps i).contents := by
        have : y ∈ held home lane heaps (lane i x) := by
          rw [hheld]
          exact List.mem_cons_self
        rw [held, hx] at this
        exact Multiset.mem_of_mem_filter this
      have hle := (hs.ordered i).key_front_le hy
      rw [(Heap.front?_eq_some hfront).2] at hle
      exact absurd (List.rel_of_pairwise_cons hsorted hrest) (not_lt.mpr hle)

end Served

/-- What waits in a heap waits in the lanes at home there. -/
theorem size_eq_sum [DecidableEq κ] (home : κ → ι) (lane : ι → α → κ) {heaps : ι → Heap α}
    {i : ι} (lanes : Finset κ) (hlanes : ∀ x ∈ (heaps i).contents, lane i x ∈ lanes)
    (hhome : ∀ l ∈ lanes, home l = i) :
    (heaps i).size = ∑ l ∈ lanes, Multiset.card (held home lane heaps l) := by
  have hcount : ∀ l ∈ lanes, Multiset.card (held home lane heaps l) =
      ((heaps i).contents.map (lane i)).count l := by
    intro l hl
    rw [Multiset.count_map, held, hhome l hl]
    simp only [eq_comm]
  rw [Finset.sum_congr rfl hcount, Multiset.sum_count_eq_card, Multiset.card_map,
    Heap.card_contents]
  intro l hl
  obtain ⟨x, hx, rfl⟩ := Multiset.mem_map.mp hl
  exact hlanes x hx

end Lanes

end P4Bricks
