import Mathlib.Data.List.Forall2
import P4Bricks.Common.Outcomes
/-!
# Lists related place by place
-/

namespace P4Bricks

open List

variable {α β : Type*} {R : α → β → Prop} {l : List α} {l' : List β}

theorem forall₂_getElem? (h : Forall₂ R l l') {i : ℕ} {a : α} (ha : l[i]? = some a) :
    ∃ b, l'[i]? = some b ∧ R a b := by
  induction h generalizing i with
  | nil => simp at ha
  | @cons x y xs ys hxy _ ih =>
    cases i with
    | zero =>
      obtain rfl : x = a := by simpa using ha
      exact ⟨y, rfl, hxy⟩
    | succ i => exact ih ha

theorem forall₂_getElem?_none (h : Forall₂ R l l') {i : ℕ} (hi : l[i]? = none) : l'[i]? = none := by
  rw [List.getElem?_eq_none_iff] at hi ⊢
  rwa [← h.length_eq]

/-- The same place is changed in both. -/
theorem forall₂_modify (h : Forall₂ R l l') (i : ℕ) {f : α → α} {g : β → β}
    (hfg : ∀ a b, l[i]? = some a → l'[i]? = some b → R a b → R (f a) (g b)) :
    Forall₂ R (l.modify i f) (l'.modify i g) := by
  induction h generalizing i with
  | nil => simp
  | @cons x y xs ys hxy hrest ih =>
    cases i with
    | zero => exact .cons (hfg x y rfl rfl hxy) hrest
    | succ i => exact .cons hxy (ih i fun a b ha hb hR => hfg a b ha hb hR)

/-- The same place is given values that are related. -/
theorem forall₂_set (h : Forall₂ R l l') (i : ℕ) {a : α} {b : β} (hab : R a b) :
    Forall₂ R (l.set i a) (l'.set i b) := by
  rw [List.set_eq_modify, List.set_eq_modify]
  exact forall₂_modify h i fun _ _ _ _ _ => hab

/-- A relation that is only missing at one place is there when that place is
changed. -/
theorem forall₂_modify_of_ne {S : α → β → Prop} (h : Forall₂ R l l') {i : ℕ} {f : α → α} {g : β → β}
    (hne : ∀ j a b, l[j]? = some a → l'[j]? = some b → j ≠ i → R a b → S a b)
    (hfg : ∀ a b, l[i]? = some a → l'[i]? = some b → R a b → S (f a) (g b)) :
    Forall₂ S (l.modify i f) (l'.modify i g) := by
  induction h generalizing i with
  | nil => simp
  | @cons x y xs ys hxy hrest ih =>
    cases i with
    | zero =>
      refine .cons (hfg x y rfl rfl hxy) ?_
      have hall : Forall₂ S (x :: xs).tail (y :: ys).tail := by
        refine forall₂_iff_get.mpr ⟨hrest.length_eq, fun j hj hj' => ?_⟩
        have hR := hrest.get hj hj'
        exact hne (j + 1) _ _ (by simp) (by simp) (by omega) hR
      exact hall
    | succ i =>
      exact .cons (hne 0 x y rfl rfl (by omega) hxy)
        (ih (fun j a b ha hb hj hR => hne (j + 1) a b ha hb (by omega) hR)
          fun a b ha hb hR => hfg a b ha hb hR)

/-- Places of a list with the same image, where no image comes twice. -/
theorem eq_of_nodup_filterMap {f : α → Option β} (h : (l.filterMap f).Nodup) {i j : ℕ} {a a' : α}
    {b : β} (hi : l[i]? = some a) (hj : l[j]? = some a') (ha : f a = some b) (ha' : f a' = some b) :
    i = j := by
  rw [List.Nodup, List.pairwise_filterMap] at h
  obtain ⟨hlt, rfl⟩ := List.getElem?_eq_some_iff.mp hi
  obtain ⟨hlt', rfl⟩ := List.getElem?_eq_some_iff.mp hj
  have hne := List.pairwise_iff_getElem.mp h
  rcases Nat.lt_trichotomy i j with hij | hij | hij
  · exact absurd rfl (hne i j hlt hlt' hij b ha b ha')
  · exact hij
  · exact absurd rfl (hne j i hlt' hlt hij b ha' b ha)

/-- A loop over a list whose every round succeeds. -/
theorem mapM_of_forall₂ {ε : Type} {α β γ : Type} {R : α → β → Prop} {S : α → γ → Prop}
    {f : β → Except ε γ} {l : List α} {m : List β} (h : Forall₂ R l m)
    (hf : ∀ a ∈ l, ∀ b, R a b → ∃ c, f b = .ok c ∧ S a c) :
    ∃ n, m.mapM f = .ok n ∧ Forall₂ S l n := by
  induction h with
  | nil => exact ⟨[], rfl, .nil⟩
  | @cons a b l m hab _ ih =>
    obtain ⟨c, hc, hs⟩ := hf a (by simp) b hab
    obtain ⟨n, hn, hall⟩ := ih fun a ha => hf a (mem_cons_of_mem _ ha)
    refine ⟨c :: n, ?_, .cons hs hall⟩
    rw [List.mapM_cons, hc, ok_bind, hn]
    rfl

/-- What a loop that computes a list has computed. -/
theorem forall₂_of_mapM {ε α β : Type} {f : α → Except ε β} {l : List α} {m : List β}
    (h : l.mapM f = .ok m) : Forall₂ (fun a b => f a = .ok b) l m := by
  induction l generalizing m with
  | nil =>
    obtain rfl := Except.ok.inj h
    exact .nil
  | cons a l ih =>
    rw [List.mapM_cons] at h
    obtain ⟨b, hb, h⟩ := bind_eq_ok h
    obtain ⟨bs, hbs, h⟩ := bind_eq_ok h
    obtain rfl := Except.ok.inj h
    exact .cons hb (ih hbs)

end P4Bricks
