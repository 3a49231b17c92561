import Mathlib.Data.Finset.SDiff
/-!
# What is new each time

Sets that are looked at one after the other. Each time what was not told the time before
is told, so something that stays is told every other time.
-/

namespace P4Bricks

variable {α : Type*} [DecidableEq α]

/-- What is told of each set, after `prev` was told. -/
def news (prev : Finset α) : List (Finset α) → List (Finset α)
  | [] => []
  | E :: Es => (E \ prev) :: news (E \ prev) Es

/-- What was told last. -/
def lastNews (prev : Finset α) (Es : List (Finset α)) : Finset α :=
  (news prev Es).getLast?.getD prev

variable {prev A B E E' : Finset α} {Es : List (Finset α)} {k : ℕ}

theorem lastNews_cons : lastNews prev (E :: Es) = lastNews (E \ prev) Es := by
  unfold lastNews
  rw [news, List.getLast?_cons, Option.getD_some]

/-- The last set. -/
theorem news_concat (prev : Finset α) (Es : List (Finset α)) (E : Finset α) :
    news prev (Es ++ [E]) = news prev Es ++ [E \ lastNews prev Es] := by
  induction Es generalizing prev with
  | nil => rfl
  | cons E' Es ih => rw [List.cons_append, news, ih, news, List.cons_append, lastNews_cons]

theorem lastNews_concat (prev : Finset α) (Es : List (Finset α)) (E : Finset α) :
    lastNews prev (Es ++ [E]) = E \ lastNews prev Es := by
  rw [lastNews, news_concat, List.getLast?_concat, Option.getD_some]

/-- **One time after another.** -/
theorem news_succ (hA : (news prev Es)[k]? = some A) (hE : Es[k + 1]? = some E) :
    (news prev Es)[k + 1]? = some (E \ A) := by
  induction Es generalizing prev k with
  | nil => cases hE
  | cons E₀ Es ih =>
    rw [news] at hA ⊢
    cases k with
    | zero =>
      obtain rfl := Option.some.inj hA
      rcases Es with _ | ⟨E₁, Es⟩
      · cases hE
      · obtain rfl := Option.some.inj hE
        rfl
    | succ k => exact ih hA hE

theorem news_zero (hE : Es[0]? = some E) : (news prev Es)[0]? = some (E \ prev) := by
  rcases Es with _ | ⟨E₀, Es⟩
  · cases hE
  · obtain rfl := Option.some.inj hE
    rfl

end P4Bricks
