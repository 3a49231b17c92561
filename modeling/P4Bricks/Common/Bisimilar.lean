import Mathlib.Logic.Basic
/-!
# Machines that answer alike

A machine answers a request and moves on, or stops. A relation between the states of
two machines that every request keeps, and that no answer tells apart, makes their
answers to any sequence of requests the same.
-/

namespace P4Bricks

namespace Bisimilar

variable {S S' T T' A B Op : Type*} {R : S → S' → Prop} {Q : T → T' → Prop}

/-- Both computations stop, or both return, and what they return is related. -/
abbrev Both (R : S → S' → Prop) : Option S → Option S' → Prop := Option.Rel R

theorem Both.bind {x : Option S} {x' : Option S'} {f : S → Option T} {f' : S' → Option T'}
    (h : Both R x x') (hf : ∀ s s', R s s' → Both Q (f s) (f' s')) :
    Both Q (x.bind f) (x'.bind f') := by
  rcases h with ⟨hr⟩ | -
  · exact hf _ _ hr
  · exact .none

theorem Both.map {x : Option S} {x' : Option S'} {f : S → T} {f' : S' → T'} (h : Both R x x')
    (hf : ∀ s s', R s s' → Q (f s) (f' s')) : Both Q (x.map f) (x'.map f') := by
  rcases h with ⟨hr⟩ | -
  · exact .some (hf _ _ hr)
  · exact .none

/-- The same answer, and related states. -/
def Same (R : S → S' → Prop) (a : A × S) (a' : A × S') : Prop := a.1 = a'.1 ∧ R a.2 a'.2

/-- What a machine answers to the requests, up to the first it does not return from. -/
def answers (step : S → Op → Option (A × S)) : S → List Op → List (Option A)
  | _, [] => []
  | s, r :: rs =>
    match step s r with
    | none => [none]
    | some (a, s') => some a :: answers step s' rs

/-- **Bisimulation.** -/
theorem answers_eq {step : S → Op → Option (A × S)} {step' : S' → Op → Option (A × S')}
    (hstep : ∀ s s' r, R s s' → Both (Same R) (step s r) (step' s' r)) {s : S} {s' : S'}
    (h : R s s') (rs : List Op) : answers step s rs = answers step' s' rs := by
  induction rs generalizing s s' with
  | nil => rfl
  | cons r rs ih =>
    have hboth := hstep s s' r h
    unfold answers
    rcases hs : step s r with - | ⟨a, s₁⟩ <;> rcases hs' : step' s' r with - | ⟨a', s₁'⟩
    · rfl
    · rw [hs, hs'] at hboth
      cases hboth
    · rw [hs, hs'] at hboth
      cases hboth
    · rw [hs, hs'] at hboth
      obtain ⟨hans, hnext⟩ : Same R (a, s₁) (a', s₁') := by
        rcases hboth with ⟨hsame⟩
        exact hsame
      have hans : a = a' := hans
      simp only [hans, ih hnext]

end Bisimilar

end P4Bricks
