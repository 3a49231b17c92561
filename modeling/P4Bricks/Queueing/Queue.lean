import Mathlib.Data.List.Basic
/-!
# The queue between two threads

`queue.h`. A queue has a capacity, and a push to a full queue waits or is
ignored, which is set when it is made. `none` is a call that waits.
-/

namespace P4Bricks

namespace Queueing

inductive WriteBehavior where
  | writeBlock
  | writeReturn
  deriving DecidableEq, Repr

/-- `Queue`. The front of the queue is the head of the list. -/
structure Queue (T : Type*) where
  capacity : ℕ
  queue : List T
  wb : WriteBehavior
  deriving DecidableEq, Repr

namespace Queue

variable {T : Type*}

def create (capacity : ℕ) (wb : WriteBehavior) : Queue T := ⟨capacity, [], wb⟩

def isNotFull (q : Queue T) : Bool := q.queue.length < q.capacity

/-- `push_front`. -/
def pushFront (q : Queue T) (item : T) : Option (Queue T) :=
  if q.isNotFull then some { q with queue := item :: q.queue }
  else
    match q.wb with
    | .writeReturn => some q
    | .writeBlock => none

/-- `pop_back`. -/
def popBack (q : Queue T) : Option (T × Queue T) :=
  match q.queue.getLast? with
  | none => none
  | some item => some (item, { q with queue := q.queue.dropLast })

def setCapacity (q : Queue T) (c : ℕ) : Queue T := { q with capacity := c }

variable {q q' : Queue T} {item : T}

/-- A push to a queue that blocks is accepted, or waits. -/
theorem pushFront_eq_some (hwb : q.wb = .writeBlock) (h : q.pushFront item = some q') :
    q.queue.length < q.capacity ∧ q' = { q with queue := item :: q.queue } := by
  unfold pushFront isNotFull at h
  split_ifs at h with hlt
  · exact ⟨by simpa using hlt, (Option.some.inj h).symm⟩
  · simp only [hwb, reduceCtorEq] at h

/-- A push waits at a full queue that blocks. -/
theorem pushFront_eq_none (hwb : q.wb = .writeBlock) (hfull : q.isNotFull = false) (item : T) :
    q.pushFront item = none := by
  unfold pushFront
  rw [if_neg (by rw [hfull]; exact Bool.false_ne_true), hwb]

theorem popBack_eq_some (h : q.popBack = some (item, q')) :
    q.queue = q'.queue ++ [item] ∧ q'.capacity = q.capacity ∧ q'.wb = q.wb := by
  unfold popBack at h
  split at h
  · cases h
  · next x hx =>
    obtain ⟨rfl, rfl⟩ := Prod.mk.inj (Option.some.inj h)
    exact ⟨(List.dropLast_append_getLast? x hx).symm, rfl, rfl⟩

/-- A pop waits at an empty queue only. -/
theorem popBack_eq_none : q.popBack = none ↔ q.queue = [] := by
  unfold popBack
  rw [← List.getLast?_eq_none_iff]
  cases q.queue.getLast? with
  | none => simp
  | some x => simp

end Queue

end Queueing

end P4Bricks
