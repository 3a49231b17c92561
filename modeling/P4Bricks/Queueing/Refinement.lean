import P4Bricks.Queueing.Rated
/-!
# The rate-limited queues are lanes with a rate

One case lemma for each class says all a call can do. From it, a run of
`QueueingLogicRL` or of `QueueingLogicPriRL` is a run of `Rated`, over the
queues of the first and over the priorities of the queues of the second.
-/

namespace P4Bricks

namespace Queueing

variable {T : Type*} {pktDelay : ℕ → ℕ}

/-- A push to a queue with this record is refused, or given a time of leaving that
no element of the queue has that waits. -/
def QueueInfoRL.Spread (info : QueueInfoRL) (now : ℕ) : Prop :=
  info.capacity ≤ info.size ∨ info.size = 0 ∨ info.lastSent < now ∨ 0 < info.pktDelayTicks

namespace QueueingLogicRL

/-- Pushes are spread in time. -/
def Spread (s : QueueingLogicRL T) : Request T → Prop
  | .pushFront queueId _ _ now => (s.queuesInfo queueId).Spread now
  | _ => True

def layout (nbQueues : ℕ) (mapToWorker : ℕ → ℕ) : Layout ℕ ℕ :=
  ⟨Finset.range nbQueues, mapToWorker, id, fun _ q => q, fun _ => rfl⟩

def rated (s : QueueingLogicRL T) : Rated ℕ ℕ T := ⟨s.queuesInfo, s.workersInfo⟩

variable {s s' : QueueingLogicRL T} {r : Request T} {e : Option (Event ℕ T)}

/-- Records may have changed, other than what they count and the last time given. -/
def Adjusted (s s' : QueueingLogicRL T) : Prop :=
  ∃ infos, s' = { s with queuesInfo := infos } ∧
    (∀ q, (infos q).size = (s.queuesInfo q).size) ∧
    ∀ q, (infos q).lastSent = (s.queuesInfo q).lastSent

theorem Adjusted.refl (s : QueueingLogicRL T) : Adjusted s s :=
  ⟨_, rfl, fun _ => rfl, fun _ => rfl⟩

theorem Adjusted.update {queueId : ℕ} {info : QueueInfoRL}
    (hsize : info.size = (s.queuesInfo queueId).size)
    (hsent : info.lastSent = (s.queuesInfo queueId).lastSent) :
    Adjusted s { s with queuesInfo := Function.update s.queuesInfo queueId info } := by
  refine ⟨_, rfl, fun q => ?_, fun q => ?_⟩
  · rcases eq_or_ne q queueId with rfl | hq
    · rwa [Function.update_self]
    · rw [Function.update_of_ne hq]
  · rcases eq_or_ne q queueId with rfl | hq
    · rwa [Function.update_self]
    · rw [Function.update_of_ne hq]

theorem adjusted_setCapacity {queueId c : ℕ} (h : s.setCapacity queueId c = some s') :
    Adjusted s s' := by
  unfold setCapacity at h
  split_ifs at h
  obtain rfl := Option.some.inj h
  exact .update rfl rfl

theorem adjusted_setRate {queueId pps : ℕ} (h : s.setRate pktDelay queueId pps = some s') :
    Adjusted s s' := by
  unfold setRate at h
  split_ifs at h
  obtain rfl := Option.some.inj h
  exact .update rfl rfl

theorem pushFront_cases {queueId : ℕ} {item : T} {now : ℕ} {b : Bool}
    (h : s.pushFront queueId item now = some (s', b)) :
    s.InRange queueId ∧
      (((s.queuesInfo queueId).size < (s.queuesInfo queueId).capacity ∧
        s' = s.enqueue queueId item now ∧ b = true) ∨ (s' = s ∧ b = false)) := by
  unfold pushFront at h
  split_ifs at h with hr hfull
  · obtain ⟨rfl, rfl⟩ := Prod.mk.inj (Option.some.inj h)
    exact ⟨hr, .inr ⟨rfl, rfl⟩⟩
  · obtain ⟨rfl, rfl⟩ := Prod.mk.inj (Option.some.inj h)
    exact ⟨hr, .inl ⟨not_le.mp hfull, rfl, rfl⟩⟩

theorem popBack_eq_some {workerId now : ℕ} {qe : QE T}
    (h : s.popBack workerId now = some (s', qe)) :
    (s.workersInfo workerId).front? = some qe ∧ s' = s.dequeue workerId qe.queueId := by
  unfold popBack at h
  split_ifs at h
  split at h
  · cases h
  · next hfront =>
    split_ifs at h
    obtain ⟨rfl, rfl⟩ := Prod.mk.inj (Option.some.inj h)
    exact ⟨hfront, rfl⟩

/-- **What a call can do**: accept an element, pop one, or change a capacity or a
rate, if anything. -/
theorem step_cases (h : s.step pktDelay r = some (s', e)) :
    (∃ queueId pri item now, r = .pushFront queueId pri item now ∧ s.InRange queueId ∧
      (s.queuesInfo queueId).size < (s.queuesInfo queueId).capacity ∧
      s' = s.enqueue queueId item now ∧ e = some (.accepted queueId item)) ∨
    (∃ workerId qe, (s.workersInfo workerId).front? = some qe ∧
      s' = s.dequeue workerId qe.queueId ∧ e = some (.popped qe.queueId qe.e)) ∨
    (Adjusted s s' ∧ e = none) := by
  cases r with
  | pushFront queueId pri item now =>
    obtain ⟨⟨s'', b⟩, hs, heq⟩ := Option.map_eq_some_iff.mp h
    obtain ⟨rfl, rfl⟩ := Prod.mk.inj heq
    obtain ⟨hr, ⟨hlt, rfl, rfl⟩ | ⟨rfl, rfl⟩⟩ := pushFront_cases hs
    · exact .inl ⟨queueId, pri, item, now, rfl, hr, hlt, rfl, rfl⟩
    · exact .inr (.inr ⟨.refl _, rfl⟩)
  | popBack workerId now =>
    obtain ⟨⟨s'', qe⟩, hs, heq⟩ := Option.map_eq_some_iff.mp h
    obtain ⟨rfl, rfl⟩ := Prod.mk.inj heq
    obtain ⟨hfront, rfl⟩ := popBack_eq_some hs
    exact .inr (.inl ⟨workerId, qe, hfront, rfl, rfl⟩)
  | setCapacity queueId _ c | setCapacities queueId c =>
    obtain ⟨s'', hs, heq⟩ := Option.map_eq_some_iff.mp h
    obtain ⟨rfl, rfl⟩ := Prod.mk.inj heq
    exact .inr (.inr ⟨adjusted_setCapacity hs, rfl⟩)
  | setRate queueId _ pps | setRates queueId pps =>
    obtain ⟨s'', hs, heq⟩ := Option.map_eq_some_iff.mp h
    obtain ⟨rfl, rfl⟩ := Prod.mk.inj heq
    exact .inr (.inr ⟨adjusted_setRate hs, rfl⟩)

variable {ok : QueueingLogicRL T → Request T → Prop} (ok' : Rated ℕ ℕ T → ℕ → ℕ → Prop)

/-- A call does a step of the lanes. -/
theorem step_rated (h : s.step pktDelay r = some (s', e))
    (hok : ∀ queueId pri item now, r = .pushFront queueId pri item now →
      (s.queuesInfo queueId).size < (s.queuesInfo queueId).capacity → ok' s.rated queueId now) :
    Rated.Step (layout s.nbQueues s.mapToWorker) ok' s.rated e s'.rated ∧
      s'.nbQueues = s.nbQueues ∧ s'.nbWorkers = s.nbWorkers ∧ s'.mapToWorker = s.mapToWorker := by
  rcases step_cases h with ⟨q, pri, item, now, rfl, hr, hlt, rfl, rfl⟩ |
    ⟨w, qe, hfront, rfl, rfl⟩ | ⟨⟨infos, rfl, hsize, hsent⟩, rfl⟩
  · exact ⟨Rated.Step.push (L := layout s.nbQueues s.mapToWorker) s.rated
      (Finset.mem_range.mpr hr.1) (hok q pri item now rfl hlt), rfl, rfl, rfl⟩
  · exact ⟨Rated.Step.pop (L := layout s.nbQueues s.mapToWorker) s.rated (i := w) hfront,
      rfl, rfl, rfl⟩
  · exact ⟨Rated.Step.adjust s.rated hsize hsent, rfl, rfl, rfl⟩

/-- **A run is a run of the lanes.** -/
theorem run_rated {s₀ : QueueingLogicRL T} {es : List (Event ℕ T)}
    (hrun : RunIf (step pktDelay) ok s₀ es s)
    (hok : ∀ s queueId pri item now, ok s (.pushFront queueId pri item now) →
      (s.queuesInfo queueId).size < (s.queuesInfo queueId).capacity → ok' s.rated queueId now) :
    Rated.Run (layout s₀.nbQueues s₀.mapToWorker) ok' s₀.rated es s.rated ∧
      s.nbQueues = s₀.nbQueues ∧ s.nbWorkers = s₀.nbWorkers ∧
      s.mapToWorker = s₀.mapToWorker := by
  induction hrun with
  | nil => exact ⟨.nil _, rfl, rfl, rfl⟩
  | snoc _ hr hstep ih =>
    obtain ⟨hrun, hq, hw, hm⟩ := ih
    obtain ⟨hstep', hq', hw', hm'⟩ := step_rated ok' hstep
      fun queueId pri item now heq hlt => hok _ queueId pri item now (heq ▸ hr) hlt
    rw [hq, hm] at hstep'
    exact ⟨hrun.snoc hstep', hq'.trans hq, hw'.trans hw, hm'.trans hm⟩

end QueueingLogicRL

namespace QueueingLogicPriRL

/-- Pushes are spread in time. -/
def Spread (s : QueueingLogicPriRL T) : Request T → Prop
  | .pushFront queueId priority _ now => ((s.queuesInfo queueId).pris priority).Spread now
  | _ => True

def layout (nbQueues nbPriorities : ℕ) (mapToWorker : ℕ → ℕ) : Layout (ℕ × ℕ) (ℕ × ℕ) :=
  ⟨Finset.range nbQueues ×ˢ Finset.range nbPriorities, fun l => (mapToWorker l.1, l.2), Prod.fst,
    fun i q => (q, i.2), fun _ => rfl⟩

def rated (s : QueueingLogicPriRL T) : Rated (ℕ × ℕ) (ℕ × ℕ) T :=
  ⟨fun l => (s.queuesInfo l.1).pris l.2, fun i => (s.workersInfo i.1).queues i.2⟩

variable {s s' : QueueingLogicPriRL T} {r : Request T} {e : Option (Event (ℕ × ℕ) T)}

/-- A change to one entry of one row of a table. -/
theorem uncurry_update {A B : Type*} (get : A → ℕ → B) (f : ℕ → A) {a b : ℕ} {v : A} {x : B}
    (hv : get v = Function.update (get (f a)) b x) :
    (fun l : ℕ × ℕ => get (Function.update f a v l.1) l.2) =
      Function.update (fun l : ℕ × ℕ => get (f l.1) l.2) (a, b) x := by
  funext ⟨i, j⟩
  by_cases hi : i = a
  · subst hi
    by_cases hj : j = b
    · subst hj
      simp [hv]
    · simp [hv, hj]
  · simp [hi]

theorem rated_enqueue (s : QueueingLogicPriRL T) (queueId priority : ℕ) (item : T) (now : ℕ) :
    (s.enqueue queueId priority item now).rated =
      ⟨Function.update s.rated.infos (queueId, priority)
          ((s.rated.infos (queueId, priority)).accept now),
        Function.update s.rated.heaps (s.mapToWorker queueId, priority)
          ((s.rated.heaps (s.mapToWorker queueId, priority)).push QE.send
            ⟨item, queueId, (s.rated.infos (queueId, priority)).getNextTp now⟩)⟩ := by
  exact congrArg₂ Rated.mk (uncurry_update QueueInfoPris.pris s.queuesInfo rfl)
    (uncurry_update WorkerInfoPri.queues s.workersInfo rfl)

theorem rated_dequeue (s : QueueingLogicPriRL T) (workerId pri queueId : ℕ) :
    (s.dequeue workerId pri queueId).rated =
      ⟨Function.update s.rated.infos (queueId, pri) (s.rated.infos (queueId, pri)).remove,
        Function.update s.rated.heaps (workerId, pri)
          ((s.rated.heaps (workerId, pri)).pop QE.send)⟩ := by
  exact congrArg₂ Rated.mk (uncurry_update QueueInfoPris.pris s.queuesInfo rfl)
    (uncurry_update WorkerInfoPri.queues s.workersInfo rfl)

/-- Records may have changed, other than what they count and the last time given. -/
def Adjusted (s s' : QueueingLogicPriRL T) : Prop :=
  ∃ infos, s' = { s with queuesInfo := infos } ∧
    (∀ q, (infos q).size = (s.queuesInfo q).size) ∧
    (∀ q p, ((infos q).pris p).size = ((s.queuesInfo q).pris p).size) ∧
    ∀ q p, ((infos q).pris p).lastSent = ((s.queuesInfo q).pris p).lastSent

theorem Adjusted.refl (s : QueueingLogicPriRL T) : Adjusted s s :=
  ⟨_, rfl, fun _ => rfl, fun _ _ => rfl, fun _ _ => rfl⟩

theorem Adjusted.update {queueId : ℕ} {pris : ℕ → QueueInfoRL}
    (hsize : ∀ p, (pris p).size = ((s.queuesInfo queueId).pris p).size)
    (hsent : ∀ p, (pris p).lastSent = ((s.queuesInfo queueId).pris p).lastSent) :
    Adjusted s { s with
      queuesInfo := Function.update s.queuesInfo queueId
        { s.queuesInfo queueId with pris := pris } } := by
  refine ⟨_, rfl, fun q => ?_, fun q p => ?_, fun q p => ?_⟩
  all_goals rcases eq_or_ne q queueId with rfl | hq
  · rw [Function.update_self]
  · rw [Function.update_of_ne hq]
  · rw [Function.update_self]
    exact hsize p
  · rw [Function.update_of_ne hq]
  · rw [Function.update_self]
    exact hsent p
  · rw [Function.update_of_ne hq]

theorem adjusted_forOneQ {queueId priority : ℕ} {f : QueueInfoRL → QueueInfoRL}
    (h : s.forOneQ queueId priority f = some s') (hsize : ∀ info, (f info).size = info.size)
    (hsent : ∀ info, (f info).lastSent = info.lastSent) : Adjusted s s' := by
  unfold forOneQ at h
  split_ifs at h
  obtain rfl := Option.some.inj h
  refine .update (fun p => ?_) fun p => ?_
  all_goals rcases eq_or_ne p priority with rfl | hp
  · rw [Function.update_self, hsize]
  · rw [Function.update_of_ne hp]
  · rw [Function.update_self, hsent]
  · rw [Function.update_of_ne hp]

theorem adjusted_forEachQ {queueId : ℕ} {f : QueueInfoRL → QueueInfoRL}
    (h : s.forEachQ queueId f = some s') (hsize : ∀ info, (f info).size = info.size)
    (hsent : ∀ info, (f info).lastSent = info.lastSent) : Adjusted s s' := by
  unfold forEachQ at h
  split_ifs at h
  obtain rfl := Option.some.inj h
  exact .update (fun p => hsize _) fun p => hsent _

theorem pushFront_cases {queueId priority : ℕ} {item : T} {now : ℕ} {b : Bool}
    (h : s.pushFront queueId priority item now = some (s', b)) :
    s.InRange queueId priority ∧
      ((((s.queuesInfo queueId).pris priority).size <
          ((s.queuesInfo queueId).pris priority).capacity ∧
        s' = s.enqueue queueId priority item now ∧ b = true) ∨ (s' = s ∧ b = false)) := by
  unfold pushFront at h
  split_ifs at h with hr hfull
  · obtain ⟨rfl, rfl⟩ := Prod.mk.inj (Option.some.inj h)
    exact ⟨hr, .inr ⟨rfl, rfl⟩⟩
  · obtain ⟨rfl, rfl⟩ := Prod.mk.inj (Option.some.inj h)
    exact ⟨hr, .inl ⟨not_le.mp hfull, rfl, rfl⟩⟩

theorem popBack_eq_some {workerId now pri : ℕ} {qe : QE T}
    (h : s.popBack workerId now = some (s', pri, qe)) :
    ((s.workersInfo workerId).queues pri).front? = some qe ∧
      s' = s.dequeue workerId pri qe.queueId := by
  unfold popBack at h
  split_ifs at h
  simp only at h
  split at h
  · cases h
  · split at h
    · cases h
    · next hfront =>
      split_ifs at h
      obtain ⟨rfl, heq⟩ := Prod.mk.inj (Option.some.inj h)
      obtain ⟨rfl, rfl⟩ := Prod.mk.inj heq
      exact ⟨hfront, rfl⟩

/-- **What a call can do**: accept an element, pop one, or change capacities or
rates, if anything. -/
theorem step_cases (h : s.step pktDelay r = some (s', e)) :
    (∃ queueId pri item now, r = .pushFront queueId pri item now ∧ s.InRange queueId pri ∧
      ((s.queuesInfo queueId).pris pri).size < ((s.queuesInfo queueId).pris pri).capacity ∧
      s' = s.enqueue queueId pri item now ∧ e = some (.accepted (queueId, pri) item)) ∨
    (∃ workerId pri qe, ((s.workersInfo workerId).queues pri).front? = some qe ∧
      s' = s.dequeue workerId pri qe.queueId ∧ e = some (.popped (qe.queueId, pri) qe.e)) ∨
    (Adjusted s s' ∧ e = none) := by
  cases r with
  | pushFront queueId pri item now =>
    obtain ⟨⟨s'', b⟩, hs, heq⟩ := Option.map_eq_some_iff.mp h
    obtain ⟨rfl, rfl⟩ := Prod.mk.inj heq
    obtain ⟨hr, ⟨hlt, rfl, rfl⟩ | ⟨rfl, rfl⟩⟩ := pushFront_cases hs
    · exact .inl ⟨queueId, pri, item, now, rfl, hr, hlt, rfl, rfl⟩
    · exact .inr (.inr ⟨.refl _, rfl⟩)
  | popBack workerId now =>
    obtain ⟨⟨s'', pri, qe⟩, hs, heq⟩ := Option.map_eq_some_iff.mp h
    obtain ⟨rfl, rfl⟩ := Prod.mk.inj heq
    obtain ⟨hfront, rfl⟩ := popBack_eq_some hs
    exact .inr (.inl ⟨workerId, pri, qe, hfront, rfl, rfl⟩)
  | setCapacity queueId pri c =>
    obtain ⟨s'', hs, heq⟩ := Option.map_eq_some_iff.mp h
    obtain ⟨rfl, rfl⟩ := Prod.mk.inj heq
    exact .inr (.inr ⟨adjusted_forOneQ hs (fun _ => rfl) fun _ => rfl, rfl⟩)
  | setCapacities queueId c =>
    obtain ⟨s'', hs, heq⟩ := Option.map_eq_some_iff.mp h
    obtain ⟨rfl, rfl⟩ := Prod.mk.inj heq
    exact .inr (.inr ⟨adjusted_forEachQ hs (fun _ => rfl) fun _ => rfl, rfl⟩)
  | setRate queueId pri pps =>
    simp only [step] at h
    split_ifs at h
    obtain ⟨s'', hs, heq⟩ := Option.map_eq_some_iff.mp h
    obtain ⟨rfl, rfl⟩ := Prod.mk.inj heq
    exact .inr (.inr ⟨adjusted_forOneQ hs (fun _ => rfl) fun _ => rfl, rfl⟩)
  | setRates queueId pps =>
    simp only [step] at h
    split_ifs at h
    obtain ⟨s'', hs, heq⟩ := Option.map_eq_some_iff.mp h
    obtain ⟨rfl, rfl⟩ := Prod.mk.inj heq
    exact .inr (.inr ⟨adjusted_forEachQ hs (fun _ => rfl) fun _ => rfl, rfl⟩)

/-- The numbers of queues, workers and priorities, and the map. -/
def SameShape (s s' : QueueingLogicPriRL T) : Prop :=
  s'.nbQueues = s.nbQueues ∧ s'.nbWorkers = s.nbWorkers ∧ s'.nbPriorities = s.nbPriorities ∧
    s'.mapToWorker = s.mapToWorker

variable {ok : QueueingLogicPriRL T → Request T → Prop}
variable (ok' : Rated (ℕ × ℕ) (ℕ × ℕ) T → ℕ × ℕ → ℕ → Prop)

/-- A call does a step of the lanes. -/
theorem step_rated (h : s.step pktDelay r = some (s', e))
    (hok : ∀ queueId pri item now, r = .pushFront queueId pri item now →
      ((s.queuesInfo queueId).pris pri).size < ((s.queuesInfo queueId).pris pri).capacity →
      ok' s.rated (queueId, pri) now) :
    Rated.Step (layout s.nbQueues s.nbPriorities s.mapToWorker) ok' s.rated e s'.rated ∧
      SameShape s s' := by
  rcases step_cases h with ⟨q, pri, item, now, rfl, hr, hlt, rfl, rfl⟩ |
    ⟨w, pri, qe, hfront, rfl, rfl⟩ | ⟨⟨infos, rfl, -, hsize, hsent⟩, rfl⟩
  · rw [rated_enqueue]
    have hmem : (q, pri) ∈ (layout s.nbQueues s.nbPriorities s.mapToWorker).lanes :=
      Finset.mem_product.mpr ⟨Finset.mem_range.mpr hr.1, Finset.mem_range.mpr hr.2.2⟩
    exact ⟨.push s.rated hmem (hok q pri item now rfl hlt), rfl, rfl, rfl, rfl⟩
  · rw [rated_dequeue]
    exact ⟨Rated.Step.pop (L := layout s.nbQueues s.nbPriorities s.mapToWorker) s.rated
      (i := (w, pri)) hfront, rfl, rfl, rfl, rfl⟩
  · exact ⟨.adjust s.rated (fun l => hsize l.1 l.2) fun l => hsent l.1 l.2, rfl, rfl, rfl, rfl⟩

/-- **A run is a run of the lanes.** -/
theorem run_rated {s₀ : QueueingLogicPriRL T} {es : List (Event (ℕ × ℕ) T)}
    (hrun : RunIf (step pktDelay) ok s₀ es s)
    (hok : ∀ s queueId pri item now, ok s (.pushFront queueId pri item now) →
      ((s.queuesInfo queueId).pris pri).size < ((s.queuesInfo queueId).pris pri).capacity →
      ok' s.rated (queueId, pri) now) :
    Rated.Run (layout s₀.nbQueues s₀.nbPriorities s₀.mapToWorker) ok' s₀.rated es s.rated ∧
      SameShape s₀ s := by
  induction hrun with
  | nil => exact ⟨.nil _, rfl, rfl, rfl, rfl⟩
  | snoc _ hr hstep ih =>
    obtain ⟨hrun, hq, hw, hp, hm⟩ := ih
    obtain ⟨hstep', hq', hw', hp', hm'⟩ := step_rated ok' hstep
      fun queueId pri item now heq hlt => hok _ queueId pri item now (heq ▸ hr) hlt
    rw [hq, hp, hm] at hstep'
    exact ⟨hrun.snoc hstep', hq'.trans hq, hw'.trans hw, hp'.trans hp, hm'.trans hm⟩

end QueueingLogicPriRL

end Queueing

end P4Bricks
