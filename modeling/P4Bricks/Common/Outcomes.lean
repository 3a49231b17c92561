import Mathlib.Logic.Basic
/-!
# Computations that may fail

A postcondition for a computation in `Except`: the errors that are ruled out,
and what holds of the result when there is one. Failing with an error that is
not ruled out meets every postcondition.
-/

namespace P4Bricks

universe u v

variable {ε : Type u} {α β : Type v} {bad : ε → Prop}

/-- A sequence returns when its parts do. -/
theorem bind_eq_ok {x : Except ε α} {f : α → Except ε β} {y : β} (h : (x >>= f) = .ok y) :
    ∃ a, x = .ok a ∧ f a = .ok y := by
  cases x with
  | error e => cases h
  | ok a => exact ⟨a, rfl, h⟩

theorem toOption_eq_some {x : Except ε α} {a : α} (h : x.toOption = some a) : x = .ok a := by
  rcases x with e | b
  · cases h
  · rw [Option.some.inj h]

/-- A sequence whose first part is a choice. -/
theorem ite_bind_eq_ok {c : Prop} [Decidable c] {x x' : Except ε α} {f : α → Except ε β} {y : β}
    (h : (if c then x >>= f else x' >>= f) = .ok y) :
    ∃ a, (if c then x else x') = .ok a ∧ f a = .ok y := by
  by_cases hc : c
  · rw [if_pos hc] at h ⊢
    exact bind_eq_ok h
  · rw [if_neg hc] at h ⊢
    exact bind_eq_ok h

theorem ok_bind (a : α) (f : α → Except ε β) : (Except.ok a >>= f) = f a := rfl

/-- **The rule for a loop**: an invariant that may look at what is left of the
list. -/
theorem foldlM_invariant {f : β → α → Except ε β} (I : List α → β → Prop)
    (hstep : ∀ a l b b', I (a :: l) b → f b a = .ok b' → I l b') {l : List α} {b r : β}
    (h₀ : I l b) (h : l.foldlM f b = .ok r) : I [] r := by
  induction l generalizing b with
  | nil =>
    obtain rfl := Except.ok.inj h
    exact h₀
  | cons a l ih =>
    obtain ⟨b', hb', hrest⟩ := bind_eq_ok h
    exact ih (hstep a l b b' h₀ hb') hrest

/-- `x` does not fail badly, and its result satisfies `Q`. -/
def Avoids (bad : ε → Prop) (x : Except ε α) (Q : α → Prop) : Prop :=
  match x with
  | .ok a => Q a
  | .error e => ¬bad e

namespace Avoids

variable {x : Except ε α} {Q R : α → Prop}

theorem ok {a : α} (h : Q a) : Avoids bad (.ok a) Q := h

theorem error {e : ε} (h : ¬bad e) : Avoids bad (.error e : Except ε α) Q := h

/-- The rule for a sequence. -/
theorem bind {f : α → Except ε β} {S : β → Prop} (h : Avoids bad x Q)
    (hf : ∀ a, x = .ok a → Q a → Avoids bad (f a) S) : Avoids bad (x >>= f) S := by
  cases x with
  | error e => exact h
  | ok a => exact hf a rfl h

theorem mono (h : Avoids bad x Q) (hR : ∀ a, Q a → R a) : Avoids bad x R := by
  cases x with
  | error e => exact h
  | ok a => exact hR a h

/-- What holds of the result holds of the value returned. -/
theorem of_eq (h : Avoids bad x Q) : Avoids bad x fun a => x = .ok a ∧ Q a := by
  cases x with
  | error e => exact h
  | ok a => exact ⟨rfl, h⟩

theorem of_ok {a : α} (h : Avoids bad x Q) (hx : x = .ok a) : Q a := by
  subst hx
  exact h

/-- A bind after a result. -/
theorem bind_ok {a : α} {f : α → Except ε β} {S : β → Prop} (h : Avoids bad (f a) S) :
    Avoids bad (.ok a >>= f) S := h

/-- When every error is ruled out, there is a result. -/
theorem exists_ok (h : Avoids (fun _ => True) x Q) : ∃ a, x = .ok a ∧ Q a := by
  cases x with
  | error e => exact absurd trivial h
  | ok a => exact ⟨a, rfl, h⟩

theorem ne_error {e : ε} (h : Avoids bad x Q) (he : bad e) : x ≠ .error e := by
  rintro rfl
  exact h he

/-- The rule for a branch. -/
theorem ite {c : Prop} [Decidable c] {y : Except ε α} (ht : c → Avoids bad x Q)
    (he : ¬c → Avoids bad y Q) : Avoids bad (if c then x else y) Q := by
  split
  · exact ht ‹_›
  · exact he ‹_›

end Avoids

/-- `x` returns, with a result that satisfies `Q`. -/
abbrev Returns (x : Except ε α) (Q : α → Prop) : Prop := Avoids (fun _ => True) x Q

/-! ## Two computations side by side -/

/-- Both fail, with one error, or both return, with results that are
related. -/
def Paired {α β : Type v} (Q : α → β → Prop) (x : Except ε α) (y : Except ε β) : Prop :=
  match x, y with
  | .ok a, .ok b => Q a b
  | .error e, .error e' => e = e'
  | _, _ => False

namespace Paired

variable {α β γ δ : Type v} {Q : α → β → Prop} {x : Except ε α} {y : Except ε β}

theorem ok {a : α} {b : β} (h : Q a b) : Paired Q (.ok a : Except ε α) (.ok b) := h

theorem error (e : ε) : Paired Q (.error e) (.error e) := rfl

theorem refl {R : α → α → Prop} (h : ∀ a, x = .ok a → R a a) : Paired R x x := by
  cases x with
  | error e => exact error e
  | ok a => exact h a rfl

/-- The rule for a sequence. -/
theorem bind {R : γ → δ → Prop} {f : α → Except ε γ} {g : β → Except ε δ} (h : Paired Q x y)
    (hf : ∀ a b, x = .ok a → y = .ok b → Q a b → Paired R (f a) (g b)) :
    Paired R (x >>= f) (y >>= g) := by
  cases x with
  | error e => cases y with
    | error e' => exact h
    | ok b => exact (h : False).elim
  | ok a => cases y with
    | error e' => exact (h : False).elim
    | ok b => exact hf a b rfl rfl h

theorem mono {R : α → β → Prop} (h : Paired Q x y) (hR : ∀ a b, x = .ok a → y = .ok b → Q a b → R a b) :
    Paired R x y := by
  cases x with
  | error e => cases y with
    | error e' => exact h
    | ok b => exact h
  | ok a => cases y with
    | error e' => exact h
    | ok b => exact hR a b rfl rfl h

theorem of_ok {a : α} (h : Paired Q x y) (hx : x = .ok a) : ∃ b, y = .ok b ∧ Q a b := by
  subst hx
  cases y with
  | error e => cases h
  | ok b => exact ⟨b, rfl, h⟩

end Paired

end P4Bricks
