import Mathlib.Data.List.Chain
import P4Bricks.PortMonitor.Model
/-!
# The life of a port

A port is added, goes up and down in turn, and is removed, and may then be added again. In the
events of such a life two status events that follow each other differ, and each comes while the
port is there. Over more than one presence they take turns if no presence begins after one that
ended up.
-/

namespace P4Bricks

namespace PortMonitor

/-- The events that tell the status of a port that is there. -/
def PortStatus.isUpDown : PortStatus → Bool
  | .portUp | .portDown => true
  | _ => false

/-- What an event makes of a port that is absent, or else up or down. -/
def next : Option Bool → PortStatus → Option (Option Bool)
  | none, .portAdded => some (some false)
  | some _, .portRemoved => some none
  | some false, .portUp => some (some true)
  | some true, .portDown => some (some false)
  | _, _ => none

/-- What the events make of a port that was absent at first. -/
def replay (events : List PortStatus) : Option (Option Bool) := events.foldlM next none

/-- The last event that added or removed the port. -/
def lastPresence (events : List PortStatus) : Option PortStatus :=
  (events.filter fun e => !e.isUpDown).getLast?

/-- The status events. -/
def statusEvents (events : List PortStatus) : List PortStatus := events.filter PortStatus.isUpDown

/-- No addition follows an up event, of an earlier presence, with no down event between. -/
def AddedDown (events : List PortStatus) : Prop :=
  ∀ before after, events = before ++ .portAdded :: after →
    (statusEvents before).getLast? ≠ some .portUp

section Life

variable {events before after : List PortStatus} {x y : PortStatus}
  {st st' : Option Bool}

theorem replay_append (h : replay (before ++ after) = some st) :
    ∃ st₁, replay before = some st₁ ∧ after.foldlM next st₁ = some st := by
  unfold replay at h
  rw [List.foldlM_append] at h
  exact Option.bind_eq_some_iff.mp h

theorem replay_concat (h : replay (before ++ [x]) = some st) :
    ∃ st₁, replay before = some st₁ ∧ next st₁ x = some st := by
  obtain ⟨st₁, hbefore, hx⟩ := replay_append h
  refine ⟨st₁, hbefore, ?_⟩
  simpa using hx

theorem replay_concat_of (hbefore : replay before = some st)
    (h : next st x = some st') : replay (before ++ [x]) = some st' := by
  unfold replay at hbefore ⊢
  rw [List.foldlM_append, hbefore]
  simpa using h

/-- What a status event makes of a port. -/
theorem next_of_isUpDown (h : next st x = some st') (hx : x.isUpDown) :
    ∃ up, st = some up ∧ st' = some !up ∧ (x = .portUp ↔ up = false) := by
  rcases st with _ | _ | _ <;> rcases x with _ | _ | _ | _ <;>
    simp_all [next, PortStatus.isUpDown]

/-- What an addition or a removal makes of a port. -/
theorem next_of_not_isUpDown (h : next st x = some st') (hx : x.isUpDown = false) :
    (st = none ∧ x = .portAdded ∧ st' = some false) ∨
      (x = .portRemoved ∧ st' = none) := by
  rcases st with _ | _ | _ <;> rcases x with _ | _ | _ | _ <;>
    simp_all [next, PortStatus.isUpDown]

/-- Two status events running differ. -/
theorem ne_of_replay (h : replay (before ++ x :: y :: after) = some st) (hx : x.isUpDown)
    (hy : y.isUpDown) : x ≠ y := by
  obtain ⟨st₁, -, hxy⟩ := replay_append h
  rw [List.foldlM_cons] at hxy
  obtain ⟨st₂, hnext, hrest⟩ := Option.bind_eq_some_iff.mp hxy
  rw [List.foldlM_cons] at hrest
  obtain ⟨st₃, hnext', -⟩ := Option.bind_eq_some_iff.mp hrest
  obtain ⟨up, -, rfl, hup⟩ := next_of_isUpDown hnext hx
  obtain ⟨up', heq, -, hup'⟩ := next_of_isUpDown hnext' hy
  obtain rfl : (!up) = up' := Option.some.inj heq
  rintro rfl
  rw [hup] at hup'
  cases up <;> simp at hup'

/-- A port is there if the last event that added or removed it added it. -/
theorem lastPresence_of_replay (h : replay events = some st) :
    lastPresence events = some .portAdded ↔ st.isSome := by
  induction events using List.reverseRecOn generalizing st with
  | nil =>
    obtain rfl : none = st := Option.some.inj h
    simp [lastPresence]
  | append_singleton events x ih =>
    obtain ⟨st₁, hevents, hnext⟩ := replay_concat h
    cases hx : x.isUpDown with
    | true =>
      obtain ⟨up, rfl, rfl, -⟩ := next_of_isUpDown hnext hx
      simpa [lastPresence, hx] using ih hevents
    | false =>
      rcases next_of_not_isUpDown hnext hx with ⟨-, rfl, rfl⟩ | ⟨rfl, rfl⟩
      · simp [lastPresence, PortStatus.isUpDown]
      · simp [lastPresence, PortStatus.isUpDown]

theorem statusEvents_append :
    statusEvents (before ++ after) = statusEvents before ++ statusEvents after :=
  List.filter_append ..

theorem AddedDown.of_append (h : AddedDown (before ++ after)) : AddedDown before := by
  intro before' after' heq
  exact h before' (after' ++ after) (by rw [heq]; simp)

theorem AddedDown.concat (h : AddedDown before)
    (hx : x = .portAdded → (statusEvents before).getLast? ≠ some .portUp) :
    AddedDown (before ++ [x]) := by
  intro before' after' heq
  rcases List.eq_nil_or_concat after' with rfl | ⟨after'', y, rfl⟩
  · obtain ⟨rfl, hxs⟩ := List.append_inj' heq rfl
    exact hx (List.singleton_inj.mp hxs)
  · have heq' : before ++ [x] = (before' ++ .portAdded :: after'') ++ [y] := by simpa using heq
    exact h before' after'' (List.append_inj' heq' rfl).1

/-- **The status events of a whole life.** They take turns, and the last is the port's status, if
no presence begins where the last one ended up. -/
theorem alternate_of_replay (h : replay events = some st) (hadded : AddedDown events) :
    (statusEvents events).IsChain (· ≠ ·) ∧
      ∀ up, st = some up → (up = true ↔ (statusEvents events).getLast? = some .portUp) := by
  induction events using List.reverseRecOn generalizing st with
  | nil =>
    obtain rfl : none = st := Option.some.inj h
    exact ⟨.nil, fun up hup => by cases hup⟩
  | append_singleton events x ih =>
    obtain ⟨st₁, hevents, hnext⟩ := replay_concat h
    obtain ⟨hchain, hlast⟩ := ih hevents hadded.of_append
    rw [statusEvents_append]
    cases hx : x.isUpDown with
    | true =>
      obtain ⟨up, rfl, rfl, hup⟩ := next_of_isUpDown hnext hx
      have hsingle : statusEvents [x] = [x] := by simp [statusEvents, hx]
      rw [hsingle]
      constructor
      · rw [List.isChain_append]
        refine ⟨hchain, .singleton x, ?_⟩
        rintro y hy z hz rfl
        obtain rfl : x = y := by simpa using hz
        have hlast' := hlast up rfl
        rw [hy] at hlast'
        cases up <;> simp_all
      · intro up' hup'
        obtain rfl : (!up) = up' := Option.some.inj hup'
        rw [List.getLast?_concat, Option.some.injEq, hup]
        simp
    | false =>
      have hnil : statusEvents [x] = [] := by simp [statusEvents, hx]
      rw [hnil, List.append_nil]
      refine ⟨hchain, fun up hup => ?_⟩
      rcases next_of_not_isUpDown hnext hx with ⟨-, rfl, rfl⟩ | ⟨rfl, rfl⟩
      · -- The port was down when it was removed, or this is its first presence.
        obtain rfl : false = up := Option.some.inj hup
        simpa using hadded events [] rfl
      · cases hup

end Life

end PortMonitor

end P4Bricks
