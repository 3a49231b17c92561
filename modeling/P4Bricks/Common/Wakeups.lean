import Mathlib.Data.Fintype.Card
import Mathlib.Logic.Function.Basic
/-!
# Threads that sleep until they are notified

Threads look for goods under a lock, and sleep where there are none. Whoever brings one
notifies a sleeper afterwards, outside of the lock, and a thread that wakes looks again.
While threads are asleep there is, for each of the goods, a notice that is still to be
given or a thread that is about to look: so none sleeps for ever next to goods.
-/

namespace P4Bricks

namespace Wakeups

/-! ## How many threads are where -/

section
variable {ι σ κ : Type*} [Fintype ι] [DecidableEq ι] [DecidableEq κ] {kind : σ → κ}
  {threads : ι → σ} {i : ι} {x : σ} {a b k : κ}

/-- The threads whose state is of a kind. -/
def population (kind : σ → κ) (threads : ι → σ) (k : κ) : ℕ :=
  (Finset.univ.filter fun i => kind (threads i) = k).card

omit [DecidableEq ι] in
theorem population_eq_zero : population kind threads k = 0 ↔ ∀ i, kind (threads i) ≠ k := by
  unfold population
  rw [Finset.card_eq_zero, Finset.filter_eq_empty_iff]
  exact ⟨fun h i => h (Finset.mem_univ i), fun h i _ => h i⟩

/-- A thread that goes on leaves one kind, and joins one. -/
theorem population_update (hi : kind (threads i) = a) (hx : kind x = b) (k : κ) :
    population kind (Function.update threads i x) k + (if a = k then 1 else 0) =
      population kind threads k + (if b = k then 1 else 0) := by
  have hsplit : ∀ f : ι → σ, population kind f k =
      (Finset.univ.filter fun j => j ≠ i ∧ kind (f j) = k).card +
        if kind (f i) = k then 1 else 0 := by
    intro f
    unfold population
    rw [← Finset.card_filter_add_card_filter_not fun j => j = i, Finset.filter_filter,
      Finset.filter_filter, Nat.add_comm]
    congr 1
    · congr 1
      ext j
      simp only [Finset.mem_filter, Finset.mem_univ, true_and]
      exact And.comm
    · split_ifs with hk
      · rw [Finset.card_eq_one]
        refine ⟨i, ?_⟩
        ext j
        simp only [Finset.mem_filter, Finset.mem_univ, true_and, Finset.mem_singleton]
        exact ⟨fun h => h.2, fun h => ⟨h ▸ hk, h⟩⟩
      · rw [Finset.card_eq_zero, Finset.filter_eq_empty_iff]
        rintro j - ⟨hj, rfl⟩
        exact hk hj
  have hothers : (Finset.univ.filter fun j => j ≠ i ∧ kind (Function.update threads i x j) = k) =
      Finset.univ.filter fun j => j ≠ i ∧ kind (threads j) = k := by
    refine Finset.filter_congr fun j _ => and_congr_right fun hj => ?_
    rw [Function.update_of_ne hj]
  rw [hsplit, hsplit threads, hothers, Function.update_self, hi, hx]
  omega

theorem population_leave (hi : kind (threads i) = a) (hx : kind x = b) (hne : b ≠ a) :
    population kind (Function.update threads i x) a + 1 = population kind threads a := by
  have hall := population_update hi hx a
  rwa [if_pos rfl, if_neg hne] at hall

theorem population_join (hi : kind (threads i) = a) (hx : kind x = b) (hne : a ≠ b) :
    population kind (Function.update threads i x) b = population kind threads b + 1 := by
  have hall := population_update hi hx b
  rwa [if_pos rfl, if_neg hne] at hall

theorem population_other (hi : kind (threads i) = a) (hx : kind x = b) (ha : a ≠ k) (hb : b ≠ k) :
    population kind (Function.update threads i x) k = population kind threads k := by
  have hall := population_update hi hx k
  rwa [if_neg ha, if_neg hb] at hall

end

/-! ## Goods and sleepers -/

/-- The goods of a condition variable, the threads that are about to look for one, the
notices that are still to be given, and the threads that are asleep. -/
structure Balance where
  goods : ℕ
  calls : ℕ
  notices : ℕ
  asleep : ℕ

namespace Balance

/-- **Nobody sleeps next to goods** that neither a notice nor a call is for. -/
def Heard (b : Balance) : Prop := b.asleep = 0 ∨ b.goods ≤ b.notices + b.calls

variable {b b' : Balance}

/-- One of the goods is brought, and a notice is to be given. Others may be lost. -/
theorem Heard.bring (h : b.Heard) (hgoods : b'.goods ≤ b.goods + 1) (hcalls : b'.calls = b.calls)
    (hnotices : b'.notices = b.notices + 1) (hasleep : b'.asleep = b.asleep) : b'.Heard := by
  unfold Heard at h ⊢
  omega

/-- A thread takes one of the goods. -/
theorem Heard.take (h : b.Heard) (hgoods : b'.goods + 1 = b.goods) (hcalls : b'.calls + 1 = b.calls)
    (hnotices : b'.notices = b.notices) (hasleep : b'.asleep = b.asleep) : b'.Heard := by
  unfold Heard at h ⊢
  omega

/-- A thread that finds none goes to sleep, or away. -/
theorem heard_of_none (hgoods : b.goods = 0) : b.Heard := by
  unfold Heard
  omega

/-- Threads begin to look, or wake up, or goods are lost. -/
theorem Heard.look (h : b.Heard) (hgoods : b'.goods ≤ b.goods) (hcalls : b.calls ≤ b'.calls)
    (hnotices : b.notices ≤ b'.notices) (hasleep : b'.asleep ≤ b.asleep) : b'.Heard := by
  unfold Heard at h ⊢
  omega

/-- A notice wakes a thread. -/
theorem Heard.notify (h : b.Heard) (hgoods : b'.goods = b.goods) (hcalls : b'.calls = b.calls + 1)
    (hnotices : b'.notices + 1 = b.notices) (hasleep : b'.asleep + 1 = b.asleep) : b'.Heard := by
  unfold Heard at h ⊢
  omega

/-- A notice is lost where all are awake. -/
theorem heard_of_awake (hasleep : b.asleep = 0) : b.Heard := .inl hasleep

/-- Where nobody is about to do anything, threads are asleep only if there are no goods. -/
theorem Heard.goods_eq_zero (h : b.Heard) (hcalls : b.calls = 0) (hnotices : b.notices = 0)
    (hasleep : b.asleep ≠ 0) : b.goods = 0 := by
  unfold Heard at h
  omega

end Balance

end Wakeups

end P4Bricks
