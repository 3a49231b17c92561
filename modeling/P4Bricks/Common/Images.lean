import Mathlib.Data.Set.Insert
import Mathlib.Data.Set.Image
/-!
# Images of a set, kept one operation at a time

A set that changes by adding, removing and clearing, and a copy of it that
holds the images of its elements under a function and is changed by the same
operations on the images. Adding and clearing keep the copy right whatever
the function is. Removing keeps it right when no other element of the set has
the image of the one removed, and only then: the copy does not know how many
elements an image stands for.
-/

namespace P4Bricks

/-- What is done to a set. -/
inductive SetOp (α : Type*) where
  | add (v : α)
  | remove (v : α)
  | clear
  deriving DecidableEq, Repr

namespace SetOp

variable {α β : Type*}

/-- The element the operation is about. -/
def value : SetOp α → Option α
  | add v | remove v => some v
  | clear => none

/-- The same operation on the images. -/
def map (f : α → β) : SetOp α → SetOp β
  | add v => add (f v)
  | remove v => remove (f v)
  | clear => clear

def apply (s : Set α) : SetOp α → Set α
  | add v => insert v s
  | remove v => s \ {v}
  | clear => ∅

/-- One operation after the other. -/
def applyAll (s : Set α) (ops : List (SetOp α)) : Set α := ops.foldl apply s

variable {f : α → β} {s : Set α}

theorem applyAll_append_singleton (ops : List (SetOp α)) (op : SetOp α) :
    applyAll s (ops ++ [op]) = op.apply (applyAll s ops) := List.foldl_append

@[simp] theorem map_id (op : SetOp α) : op.map id = op := by
  cases op with
  | add v => rfl
  | remove v => rfl
  | clear => rfl

/-- No other element of the set has the image of the one that goes. -/
def Alone (f : α → β) (s : Set α) : SetOp α → Prop
  | remove v => ∀ u ∈ s, f u = f v → u = v
  | _ => True

/-- Every operation of a run is alone in the set it meets. -/
def AllAlone (f : α → β) : Set α → List (SetOp α) → Prop
  | _, [] => True
  | s, op :: ops => op.Alone f s ∧ AllAlone f (op.apply s) ops

/-- **Removing the image removes what it should, and no more, exactly when it
is the image of no other element.** -/
theorem image_diff_eq_iff (v : α) :
    f '' (s \ {v}) = f '' s \ {f v} ↔ ∀ u ∈ s, f u = f v → u = v := by
  constructor
  · intro heq u hu hfu
    by_contra hne
    have hmem : f u ∈ f '' s \ {f v} := heq ▸ Set.mem_image_of_mem f ⟨hu, hne⟩
    exact hmem.2 hfu
  · intro halone
    ext b
    constructor
    · rintro ⟨u, ⟨hu, hne⟩, rfl⟩
      exact ⟨Set.mem_image_of_mem f hu, fun hfu => hne (halone u hu hfu)⟩
    · rintro ⟨⟨u, hu, rfl⟩, hne⟩
      have huv : u ≠ v := fun heq => hne (congrArg f heq)
      exact Set.mem_image_of_mem f ⟨hu, huv⟩

/-- One operation on the copy. -/
theorem image_apply {op : SetOp α} (halone : op.Alone f s) :
    f '' op.apply s = (op.map f).apply (f '' s) := by
  cases op with
  | add v => exact Set.image_insert_eq
  | remove v => exact (image_diff_eq_iff v).mpr halone
  | clear => exact Set.image_empty f

/-- **The copy of a set is right after every run whose removals are alone.** -/
theorem image_applyAll {ops : List (SetOp α)} (halone : AllAlone f s ops) :
    f '' applyAll s ops = applyAll (f '' s) (ops.map (map f)) := by
  induction ops generalizing s with
  | nil => rfl
  | cons op ops ih =>
    rw [applyAll, List.foldl_cons, ← applyAll, ih halone.2, image_apply halone.1]
    rfl

end SetOp

end P4Bricks
