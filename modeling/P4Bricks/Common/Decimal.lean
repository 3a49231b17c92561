import Mathlib.Data.Int.Notation
import Mathlib.Data.List.Basic
import Std.Data.String.ToInt
/-!
# Numbers in decimal

Texts that are put together from numbers in decimal and other characters, and
what can be read back from them.
-/

namespace P4Bricks

/-- A text in which `c` ends a run of characters of a kind that `c` is not of. -/
theorem append_cons_inj {α : Type*} {p : α → Prop} {l l' s s' : List α} {c c' : α}
    (hl : ∀ x ∈ l, p x) (hl' : ∀ x ∈ l', p x) (hc : ¬ p c) (hc' : ¬ p c')
    (h : l ++ c :: s = l' ++ c' :: s') : l = l' ∧ c = c' ∧ s = s' := by
  induction l generalizing l' with
  | nil =>
    rcases l' with - | ⟨x, l'⟩
    · obtain ⟨rfl, rfl⟩ := List.cons_eq_cons.mp h
      exact ⟨rfl, rfl, rfl⟩
    · obtain ⟨rfl, -⟩ := List.cons_eq_cons.mp h
      exact absurd (hl' c List.mem_cons_self) hc
  | cons y l ih =>
    rcases l' with - | ⟨x, l'⟩
    · obtain ⟨rfl, -⟩ := List.cons_eq_cons.mp h
      exact absurd (hl y List.mem_cons_self) hc'
    · obtain ⟨rfl, htail⟩ := List.cons_eq_cons.mp h
      obtain ⟨rfl, hrest⟩ := ih (fun z hz => hl z (List.mem_cons_of_mem _ hz))
        (fun z hz => hl' z (List.mem_cons_of_mem _ hz)) htail
      exact ⟨rfl, hrest⟩

theorem isDigit_of_mem_repr {n : ℕ} {c : Char} (h : c ∈ n.repr.toList) : c.isDigit = true := by
  rw [Nat.toList_repr] at h
  exact Nat.isDigit_of_mem_toDigits (by omega) (by omega) h

/-- The first number of a text, with what ends it. -/
theorem repr_append_inj {n m : ℕ} {c c' : Char} {s s' : List Char} (hc : ¬ c.isDigit)
    (hc' : ¬ c'.isDigit) (h : n.repr.toList ++ c :: s = m.repr.toList ++ c' :: s') :
    n = m ∧ c = c' ∧ s = s' := by
  obtain ⟨hnum, hrest⟩ := append_cons_inj (fun _ hx => isDigit_of_mem_repr hx)
    (fun _ hx => isDigit_of_mem_repr hx) hc hc' h
  exact ⟨Nat.repr_injective (String.toList_inj.mp hnum), hrest⟩

/-- A number with a dash after it, which a sign may stand before. -/
theorem int_repr_append_inj {a b : ℤ} {s s' : List Char}
    (h : a.repr.toList ++ '-' :: s = b.repr.toList ++ '-' :: s') : a = b ∧ s = s' := by
  have hdash : ¬ ('-' : Char).isDigit := by decide
  have hne : ∀ n : ℕ, ∃ d l, n.repr.toList = d :: l ∧ d.isDigit = true := by
    intro n
    rcases hn : n.repr.toList with - | ⟨d, l⟩
    · rw [Nat.toList_repr] at hn
      exact absurd hn Nat.toDigits_ne_nil
    · exact ⟨d, l, rfl, isDigit_of_mem_repr (n := n) (by rw [hn]; exact List.mem_cons_self)⟩
  rcases a with n | n <;> rcases b with m | m
  · obtain ⟨rfl, -, hrest⟩ := repr_append_inj hdash hdash h
    exact ⟨rfl, hrest⟩
  · -- A digit is no sign.
    obtain ⟨d, l, hd, hdigit⟩ := hne n
    simp only [Int.repr, String.toList_append, hd] at h
    obtain ⟨rfl, -⟩ := List.cons_eq_cons.mp h
    exact absurd hdigit hdash
  · obtain ⟨d, l, hd, hdigit⟩ := hne m
    simp only [Int.repr, String.toList_append, hd] at h
    obtain ⟨rfl, -⟩ := List.cons_eq_cons.mp h
    exact absurd hdigit hdash
  · simp only [Int.repr, String.toList_append, List.append_assoc] at h
    obtain ⟨hnum, -, hrest⟩ := repr_append_inj hdash hdash (List.append_cancel_left h)
    obtain rfl : n = m := Nat.succ.inj hnum
    exact ⟨rfl, hrest⟩

/-- The numbers of a text in which a dash follows each. -/
theorem dashed_inj {l l' : List ℤ}
    (h : l.flatMap (fun a => a.repr.toList ++ ['-']) =
      l'.flatMap fun a => a.repr.toList ++ ['-']) : l = l' := by
  induction l generalizing l' with
  | nil =>
    rcases l' with - | ⟨b, l'⟩
    · rfl
    · simp at h
  | cons a l ih =>
    rcases l' with - | ⟨b, l'⟩
    · simp at h
    · rw [List.flatMap_cons, List.flatMap_cons, List.append_assoc, List.append_assoc] at h
      obtain ⟨rfl, hrest⟩ := int_repr_append_inj h
      rw [ih hrest]

end P4Bricks
