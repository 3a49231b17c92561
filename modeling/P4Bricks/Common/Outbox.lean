import Mathlib.Data.List.Basic
/-!
# Events that are delivered later

Events are noted where a change is made, and each is delivered later. What was delivered of a
key with what is due of it behind is the history of the key, in the order of the changes.
Delivering the oldest that is due of its key keeps every history, whatever else is due.
-/

namespace P4Bricks

/-- The events that are due, oldest first, and those delivered. -/
structure Outbox (α : Type*) where
  due : List α := []
  delivered : List α := []
  deriving DecidableEq

namespace Outbox

variable {α κ : Type*} [DecidableEq κ]

def note (o : Outbox α) (as : List α) : Outbox α := { o with due := o.due ++ as }

/-- Deliver the first event that is due and is of a kind. -/
def deliver (o : Outbox α) (p : α → Bool) : Option (Outbox α) :=
  (o.due.find? p).map fun a => { due := o.due.eraseP p, delivered := o.delivered ++ [a] }

def history (o : Outbox α) (key : α → κ) (k : κ) : List α :=
  (o.delivered ++ o.due).filter fun a => key a = k

/-- The event that the kind selects is the oldest that is due of its key. -/
def DeliversOldest (o : Outbox α) (key : α → κ) (p : α → Bool) : Prop :=
  ∀ a, o.due.find? p = some a → o.due.find? (fun b => key b = key a) = some a

instance [DecidableEq α] (o : Outbox α) (key : α → κ) (p : α → Bool) :
    Decidable (o.DeliversOldest key p) :=
  inferInstanceAs (Decidable (∀ a ∈ o.due.find? p, o.due.find? (fun b => key b = key a) = some a))

variable {o o' : Outbox α} {key : α → κ} {p : α → Bool} {k : κ}

theorem history_note (as : List α) :
    (o.note as).history key k = o.history key k ++ as.filter fun a => key a = k := by
  simp only [history, note, ← List.append_assoc, List.filter_append]

/-- **In order.** The oldest event of its key that is due moves to the end of what was delivered,
and no history changes. -/
theorem history_deliver (h : o.deliver p = some o') (hold : o.DeliversOldest key p) (k : κ) :
    o'.history key k = o.history key k := by
  obtain ⟨a, ha, rfl⟩ := Option.map_eq_some_iff.mp h
  obtain ⟨hpa, before, after, hdue, hbefore⟩ := List.find?_eq_some_iff_append.mp ha
  have hother : ∀ b ∈ before, key b ≠ key a := by
    intro b hb hkey
    -- The first event of the key would be one that the kind selects and comes earlier.
    have hfirst := hold a ha
    rw [hdue, List.find?_append] at hfirst
    obtain ⟨c, hc⟩ : ∃ c, before.find? (fun b => key b = key a) = some c := by
      rw [← Option.isSome_iff_exists, List.find?_isSome]
      exact ⟨b, hb, by simpa using hkey⟩
    rw [hc, Option.some_or] at hfirst
    have hmem : a ∈ before := by
      rw [← Option.some.inj hfirst]
      exact List.mem_of_find?_eq_some hc
    have hnot := hbefore a hmem
    simp [hpa] at hnot
  have herase : o.due.eraseP p = before ++ after := by
    rw [hdue, List.eraseP_append_right _ (by simpa using hbefore), List.eraseP_cons_of_pos hpa]
  show ((o.delivered ++ [a]) ++ o.due.eraseP p).filter (fun b => key b = k) =
    (o.delivered ++ o.due).filter fun b => key b = k
  rw [herase, hdue]
  simp only [List.filter_append, List.append_assoc]
  by_cases hk : key a = k
  · have hnone : (before.filter fun b => key b = k) = [] := by
      rw [List.filter_eq_nil_iff]
      intro b hb
      simpa using fun hkb => hother b hb (hkb.trans hk.symm)
    rw [hnone, List.filter_cons_of_pos (by simpa using hk)]
    simp [hk]
  · rw [List.filter_cons_of_neg (by simpa using hk), List.filter_cons_of_neg (by simpa using hk)]
    simp

end Outbox

end P4Bricks
