import Mathlib.Logic.Basic
/-!
# Runs of a machine

A machine takes a step for an action, or cannot. A run takes the steps of a list
of actions, and an invariant of the steps holds along it.
-/

namespace P4Bricks

namespace Runs

variable {State Action : Type*} (step : State → Action → Option State)

/-- The steps of the actions, one after the other. -/
def run (s : State) (as : List Action) : Option State := as.foldlM step s

/-- In the run of these actions every step is taken where `P` holds. -/
def Always (P : State → Action → Prop) : State → List Action → Prop
  | _, [] => True
  | s, a :: as => P s a ∧ ∀ s', step s a = some s' → Always P s' as

/-- Whether a condition holds along a run can be computed with the run. -/
instance Always.decidable (P : State → Action → Prop) [∀ s a, Decidable (P s a)] :
    ∀ s as, Decidable (Always step P s as)
  | _, [] => isTrue trivial
  | s, a :: as =>
    have : Decidable (∀ s', step s a = some s' → Always step P s' as) :=
      match step s a with
      | none => isTrue fun _ hs' => nomatch hs'
      | some s₁ =>
        have := Always.decidable P s₁ as
        decidable_of_iff (Always step P s₁ as)
          ⟨fun hs₁ _ hs' => Option.some.inj hs' ▸ hs₁, fun hall => hall s₁ rfl⟩
    inferInstanceAs (Decidable (_ ∧ _))

variable {step} {s s' : State} {a : Action} {as : List Action}

theorem run_cons (h : run step s (a :: as) = some s') :
    ∃ s₁, step s a = some s₁ ∧ run step s₁ as = some s' :=
  Option.bind_eq_some_iff.mp h

/-- A run is a run of its first actions and one of the others. -/
theorem run_append {bs : List Action} (h : run step s (as ++ bs) = some s') :
    ∃ s₁, run step s as = some s₁ ∧ run step s₁ bs = some s' := by
  unfold run at h
  rw [List.foldlM_append] at h
  exact Option.bind_eq_some_iff.mp h

/-- **Invariants.** What each step keeps, where it is taken, the run keeps. -/
theorem Always.invariant {P : State → Action → Prop} {Inv : State → Prop}
    (hstep : ∀ s a s', Inv s → P s a → step s a = some s' → Inv s') (h₀ : Inv s)
    (hP : Always step P s as) (h : run step s as = some s') : Inv s' := by
  induction as generalizing s with
  | nil =>
    obtain rfl := Option.some.inj h
    exact h₀
  | cons a as ih =>
    obtain ⟨s₁, hs₁, hrun⟩ := run_cons h
    exact ih (hstep s a s₁ h₀ hP.1 hs₁) (hP.2 s₁ hs₁) hrun

theorem Always.of_append_left {P : State → Action → Prop} {bs : List Action}
    (hP : Always step P s (as ++ bs)) : Always step P s as := by
  induction as generalizing s with
  | nil => trivial
  | cons a as ih => exact ⟨hP.1, fun s₁ hs₁ => ih (hP.2 s₁ hs₁)⟩

/-- A condition that holds along a run holds along the rest of it. -/
theorem Always.of_append {P : State → Action → Prop} {bs : List Action}
    (hP : Always step P s (as ++ bs)) (h : run step s as = some s') : Always step P s' bs := by
  induction as generalizing s with
  | nil =>
    obtain rfl := Option.some.inj h
    exact hP
  | cons a as ih =>
    obtain ⟨s₁, hs₁, hrun⟩ := run_cons h
    exact ih (hP.2 s₁ hs₁) hrun

theorem Always.and {P Q : State → Action → Prop} (hP : Always step P s as)
    (hQ : Always step Q s as) : Always step (fun s a => P s a ∧ Q s a) s as := by
  induction as generalizing s with
  | nil => trivial
  | cons a as ih => exact ⟨⟨hP.1, hQ.1⟩, fun s₁ hs₁ => ih (hP.2 s₁ hs₁) (hQ.2 s₁ hs₁)⟩

/-- What holds of every step holds along every run. -/
theorem Always.of_forall {P : State → Action → Prop} (h : ∀ s a, P s a) (s : State)
    (as : List Action) : Always step P s as := by
  induction as generalizing s with
  | nil => trivial
  | cons a as ih => exact ⟨h s a, fun s' _ => ih s'⟩

/-- A condition on actions that those of a run meet. -/
theorem Always.of_mem {P : Action → Prop} (s : State) (h : ∀ a ∈ as, P a) :
    Always step (fun _ a => P a) s as := by
  induction as generalizing s with
  | nil => trivial
  | cons a as ih =>
    exact ⟨h a List.mem_cons_self, fun s' _ => ih s' fun b hb => h b (List.mem_cons_of_mem a hb)⟩

/-- What every step keeps, every run keeps. -/
theorem invariant {Inv : State → Prop} (hstep : ∀ s a s', Inv s → step s a = some s' → Inv s')
    (h₀ : Inv s) (h : run step s as = some s') : Inv s' := by
  induction as generalizing s with
  | nil =>
    obtain rfl := Option.some.inj h
    exact h₀
  | cons a as ih =>
    obtain ⟨s₁, hs₁, hrun⟩ := run_cons h
    exact ih (hstep s a s₁ h₀ hs₁) hrun

/-- A condition that follows from another one where an invariant of the steps
holds. -/
theorem Always.mono {P Q : State → Action → Prop} {Inv : State → Prop}
    (hstep : ∀ s a s', Inv s → P s a → step s a = some s' → Inv s')
    (himp : ∀ s a, Inv s → P s a → Q s a) (h₀ : Inv s) (hP : Always step P s as) :
    Always step Q s as := by
  induction as generalizing s with
  | nil => trivial
  | cons a as ih =>
    exact ⟨himp s a h₀ hP.1, fun s₁ hs₁ => ih (hstep s a s₁ h₀ hP.1 hs₁) (hP.2 s₁ hs₁)⟩

/-- Two conditions that say the same where an invariant holds that either of them
keeps. -/
theorem Always.congr {P Q : State → Action → Prop} {Inv : State → Prop}
    (hstep : ∀ s a s', Inv s → P s a → step s a = some s' → Inv s')
    (hiff : ∀ s a, Inv s → (P s a ↔ Q s a)) (h₀ : Inv s) :
    Always step P s as ↔ Always step Q s as :=
  ⟨Always.mono hstep (fun s a hs => (hiff s a hs).mp) h₀,
    Always.mono (fun s a s' hs hQ => hstep s a s' hs ((hiff s a hs).mpr hQ))
      (fun s a hs => (hiff s a hs).mpr) h₀⟩

end Runs

end P4Bricks
