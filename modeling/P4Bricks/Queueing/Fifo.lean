import P4Bricks.Queueing.Refinement
/-!
# The order of a queue

The elements of a queue should leave it in the order they came. The queues of
`QueueingLogic` do that whatever the calls. The rate-limited ones order elements
by the time at which they may leave, and two elements of one queue get the same
time when the second comes with the clock where it was for the first and no rate
in between. A heap does not keep such elements in order, and the comparison that
would, by a number counting the pushes, is commented out in the source.
-/

namespace P4Bricks

namespace Queueing

open Event

variable {T : Type*}

/-! ## `QueueingLogic` -/

namespace QueueingLogic

variable {s s' : QueueingLogic T} {r : Request T} {e : Option (Event ℕ T)}

/-- What waits of a queue, the oldest first. -/
def pending (s : QueueingLogic T) (queueId : ℕ) : List T :=
  ((s.workersInfo (s.mapToWorker queueId)).reverse.filter fun x => x.2 = queueId).map Prod.fst

/-- A worker's queue has elements of its queues only, and what waits of a queue
follows what was popped. -/
structure Inv (s : QueueingLogic T) (es : List (Event ℕ T)) : Prop where
  homed : ∀ w, ∀ x ∈ s.workersInfo w, s.mapToWorker x.2 = w
  order : ∀ q, acceptedFor q es = poppedFrom q es ++ s.pending q

theorem Inv.create (nbQueues nbWorkers capacity : ℕ) (mapToWorker : ℕ → ℕ) :
    (create nbQueues nbWorkers capacity mapToWorker : QueueingLogic T).Inv [] :=
  ⟨fun _ _ hx => absurd hx List.not_mem_nil, fun _ => rfl⟩

theorem pushFront_eq_some {queueId : ℕ} {item : T} (h : s.pushFront queueId item = some s') :
    s'.mapToWorker = s.mapToWorker ∧ s'.workersInfo =
      Function.update s.workersInfo (s.mapToWorker queueId)
        ((item, queueId) :: s.workersInfo (s.mapToWorker queueId)) := by
  unfold pushFront at h
  split_ifs at h
  obtain rfl := Option.some.inj h
  exact ⟨rfl, rfl⟩

theorem popBack_eq_some {workerId queueId : ℕ} {item : T}
    (h : s.popBack workerId = some (s', item, queueId)) :
    s'.mapToWorker = s.mapToWorker ∧
      s.workersInfo workerId = (s'.workersInfo workerId) ++ [(item, queueId)] ∧
      s'.workersInfo = Function.update s.workersInfo workerId (s'.workersInfo workerId) := by
  unfold popBack at h
  split_ifs at h
  split at h
  · cases h
  · next item' queueId' hlast =>
    split_ifs at h
    obtain ⟨rfl, heq⟩ := Prod.mk.inj (Option.some.inj h)
    obtain ⟨rfl, rfl⟩ := Prod.mk.inj heq
    simp only [Function.update_self]
    exact ⟨trivial, (List.dropLast_append_getLast? _ hlast).symm, trivial⟩

theorem setCapacity_eq_some {queueId c : ℕ} (h : s.setCapacity queueId c = some s') :
    s'.mapToWorker = s.mapToWorker ∧ s'.workersInfo = s.workersInfo := by
  unfold setCapacity at h
  split_ifs at h
  obtain rfl := Option.some.inj h
  exact ⟨rfl, rfl⟩

theorem Inv.pushFront {es : List (Event ℕ T)} (hi : s.Inv es) {queueId : ℕ} {item : T}
    (h : s.pushFront queueId item = some s') : s'.Inv (es ++ [.accepted queueId item]) := by
  obtain ⟨hmap, hworkers⟩ := pushFront_eq_some h
  refine ⟨fun w x hx => ?_, fun q => ?_⟩
  · rw [hmap]
    rw [hworkers] at hx
    rcases eq_or_ne w (s.mapToWorker queueId) with rfl | hw
    · rw [Function.update_self] at hx
      rcases List.mem_cons.mp hx with rfl | hx
      · rfl
      · exact hi.homed _ x hx
    · rw [Function.update_of_ne hw] at hx
      exact hi.homed w x hx
  · have hpending : s'.pending q = s.pending q ++ if queueId = q then [item] else [] := by
      unfold pending
      rw [hmap, hworkers]
      by_cases hw : s.mapToWorker q = s.mapToWorker queueId
      · rw [hw, Function.update_self, List.reverse_cons, List.filter_append, List.map_append]
        by_cases hq : queueId = q
        · simp [hq]
        · simp [hq]
      · have hq : queueId ≠ q := fun h => hw (h ▸ rfl)
        rw [Function.update_of_ne hw, if_neg hq, List.append_nil]
    rw [acceptedFor_append, poppedFrom_append, acceptedFor_accepted, poppedFrom_accepted,
      List.append_nil, hi.order, hpending, List.append_assoc]

theorem Inv.popBack {es : List (Event ℕ T)} (hi : s.Inv es) {workerId queueId : ℕ} {item : T}
    (h : s.popBack workerId = some (s', item, queueId)) :
    s'.Inv (es ++ [.popped queueId item]) := by
  obtain ⟨hmap, hold, hworkers⟩ := popBack_eq_some h
  have hhome : s.mapToWorker queueId = workerId := by
    refine hi.homed workerId (item, queueId) ?_
    rw [hold]
    exact List.mem_append_right _ List.mem_cons_self
  refine ⟨fun w x hx => ?_, fun q => ?_⟩
  · rw [hmap]
    rcases eq_or_ne w workerId with rfl | hw
    · refine hi.homed w x ?_
      rw [hold]
      exact List.mem_append_left _ hx
    · rw [hworkers, Function.update_of_ne hw] at hx
      exact hi.homed w x hx
  · have hpending : s.pending q = (if queueId = q then [item] else []) ++ s'.pending q := by
      unfold pending
      rw [hmap]
      by_cases hw : s.mapToWorker q = workerId
      · rw [hw, hold, List.reverse_append, List.filter_append, List.map_append]
        by_cases hq : queueId = q
        · simp [hq]
        · simp [hq]
      · have hq : queueId ≠ q := fun h => hw (h ▸ hhome)
        rw [hworkers, Function.update_of_ne hw, if_neg hq, List.nil_append]
    rw [acceptedFor_append, poppedFrom_append, acceptedFor_popped, poppedFrom_popped,
      List.append_nil, hi.order, hpending, List.append_assoc]

/-- **One call** keeps the order. -/
theorem Inv.step {es : List (Event ℕ T)} (hi : s.Inv es) (h : s.step r = some (s', e)) :
    s'.Inv (es ++ e.toList) := by
  cases r with
  | pushFront queueId _ item _ =>
    obtain ⟨s'', hs, heq⟩ := Option.map_eq_some_iff.mp h
    obtain ⟨rfl, rfl⟩ := Prod.mk.inj heq
    exact hi.pushFront hs
  | popBack workerId _ =>
    obtain ⟨⟨s'', item, queueId⟩, hs, heq⟩ := Option.map_eq_some_iff.mp h
    obtain ⟨rfl, rfl⟩ := Prod.mk.inj heq
    exact hi.popBack hs
  | setCapacity queueId _ c | setCapacities queueId c =>
    obtain ⟨s'', hs, heq⟩ := Option.map_eq_some_iff.mp h
    obtain ⟨rfl, rfl⟩ := Prod.mk.inj heq
    obtain ⟨hmap, hworkers⟩ := setCapacity_eq_some hs
    rw [Option.toList_none, List.append_nil]
    refine ⟨fun w x hx => ?_, fun q => ?_⟩
    · rw [hmap]
      exact hi.homed w x (hworkers ▸ hx)
    · rw [hi.order, pending, pending, hmap, hworkers]
  | setRate | setRates => cases h

theorem Inv.run {ok : QueueingLogic T → Request T → Prop} {s₀ : QueueingLogic T}
    {es : List (Event ℕ T)} (h₀ : s₀.Inv []) (hrun : RunIf QueueingLogic.step ok s₀ es s) :
    s.Inv es := by
  induction hrun with
  | nil => exact h₀
  | snoc _ _ hstep ih => exact ih.step hstep

end QueueingLogic

/-! ## All three -/

/-- The call reads this clock, if it reads one. -/
def Request.At (now : ℕ) : Request T → Prop
  | .pushFront _ _ _ n | .popBack _ n => n = now
  | _ => True

/-- **Queues keep their order**: those without a rate in every run, those with one
in every run whose pushes are spread in time. -/
theorem popped_prefix_accepted [Inhabited T] (pktDelay : ℕ → ℕ)
    (nbQueues nbWorkers capacity nbPriorities now : ℕ) (mapToWorker : ℕ → ℕ) :
    (∀ es (s : QueueingLogic T), RunIf QueueingLogic.step (fun _ _ => True)
      (.create nbQueues nbWorkers capacity mapToWorker) es s →
      ∀ q, poppedFrom q es <+: acceptedFor q es) ∧
    (∀ es (s : QueueingLogicRL T),
      RunIf (QueueingLogicRL.step pktDelay) QueueingLogicRL.Spread
        (.create nbQueues nbWorkers capacity mapToWorker now) es s →
      ∀ q, poppedFrom q es <+: acceptedFor q es) ∧
    ∀ es (s : QueueingLogicPriRL T),
      RunIf (QueueingLogicPriRL.step pktDelay) QueueingLogicPriRL.Spread
        (.create nbQueues nbWorkers capacity mapToWorker nbPriorities now) es s →
      ∀ lane, poppedFrom lane es <+: acceptedFor lane es := by
  refine ⟨fun es s hrun q => ?_, fun es s hrun q => ?_, fun es s hrun lane => ?_⟩
  · rw [((QueueingLogic.Inv.create ..).run hrun).order q]
    exact List.prefix_append ..
  · have hlanes := (QueueingLogicRL.run_rated Rated.Spread hrun
      fun s q _ _ now hok hlt => hok.resolve_left (by omega)).1
    exact (Rated.InOrder.run (.empty fun _ => rfl) (.empty q) hlanes).isPrefix
  · have hlanes := (QueueingLogicPriRL.run_rated Rated.Spread hrun
      fun s q p _ now hok hlt => hok.resolve_left (by omega)).1
    exact (Rated.InOrder.run (.empty fun _ => rfl) (.empty lane) hlanes).isPrefix

/-- Two pushes at different times, and a pop, in each class. -/
theorem popped_prefix_accepted_two :
    (poppedFrom 0 [accepted 0 7, accepted 0 8, popped 0 7] <+:
      acceptedFor 0 [accepted 0 7, accepted 0 8, popped 0 7]) ∧
    (poppedFrom 0 [accepted 0 7, accepted 0 8, popped 0 7] <+:
      acceptedFor 0 [accepted 0 7, accepted 0 8, popped 0 7]) ∧
    (poppedFrom (0, 1) [accepted (0, 1) 7, accepted (0, 1) 8, popped (0, 1) 7] <+:
      acceptedFor (0, 1) [accepted (0, 1) 7, accepted (0, 1) 8, popped (0, 1) 7]) := by
  have h := popped_prefix_accepted (T := ℕ) (fun _ => 0) 1 1 4 2 0 (fun _ => 0)
  have start : RunIf QueueingLogic.step (fun _ _ => True)
      (.create 1 1 4 fun _ => 0 : QueueingLogic ℕ) [] _ := .nil _
  have startRL : RunIf (QueueingLogicRL.step fun _ => 0) QueueingLogicRL.Spread
      (.create 1 1 4 (fun _ => 0) 0 : QueueingLogicRL ℕ) [] _ := .nil _
  have startPriRL : RunIf (QueueingLogicPriRL.step fun _ => 0) QueueingLogicPriRL.Spread
      (.create 1 1 4 (fun _ => 0) 2 0 : QueueingLogicPriRL ℕ) [] _ := .nil _
  have two := ((start.snoc (r := .pushFront 0 0 7 1) trivial rfl).snoc
    (r := .pushFront 0 0 8 2) trivial rfl).snoc (r := .popBack 0 2) trivial rfl
  have twoRL := ((startRL.snoc (r := .pushFront 0 0 7 1) (by exact .inr (.inl rfl)) rfl).snoc
    (r := .pushFront 0 0 8 2) (by exact .inr (.inr (.inl (by decide)))) rfl).snoc
    (r := .popBack 0 2) (by exact trivial) rfl
  have twoPriRL := ((startPriRL.snoc (r := .pushFront 0 1 7 1) (by exact .inr (.inl rfl)) rfl).snoc
    (r := .pushFront 0 1 8 2) (by exact .inr (.inr (.inl (by decide)))) rfl).snoc
    (r := .popBack 0 2) (by exact trivial) rfl
  exact ⟨h.1 _ _ two 0, h.2.1 _ _ twoRL 0, h.2.2 _ _ twoPriRL (0, 1)⟩

/-- **Four pushes with the clock standing still**, and two pops: the third
element leaves second. -/
theorem third_popped_second :
    ∃ es s, RunIf (QueueingLogicRL.step fun _ => 0) (fun _ r => r.At 0)
      (.create 1 1 4 (fun _ => 0) 0 : QueueingLogicRL ℕ) es s ∧
      acceptedFor 0 es = [0, 1, 2, 3] ∧ poppedFrom 0 es = [0, 2] ∧
      ¬ poppedFrom 0 es <+: acceptedFor 0 es := by
  have start : RunIf (QueueingLogicRL.step fun _ => 0) (fun _ r => r.At 0)
      (.create 1 1 4 (fun _ => 0) 0 : QueueingLogicRL ℕ) [] _ := .nil _
  have four := (((start.snoc (r := .pushFront 0 0 0 0) (by exact rfl) rfl).snoc
    (r := .pushFront 0 0 1 0) (by exact rfl) rfl).snoc
    (r := .pushFront 0 0 2 0) (by exact rfl) rfl).snoc
    (r := .pushFront 0 0 3 0) (by exact rfl) rfl
  have run := (four.snoc (r := .popBack 0 0) (by exact rfl) rfl).snoc
    (r := .popBack 0 0) (by exact rfl) rfl
  exact ⟨_, _, run, rfl, rfl, by decide⟩

end Queueing

end P4Bricks
