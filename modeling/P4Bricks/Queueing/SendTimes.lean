import P4Bricks.Queueing.Refinement
import P4Bricks.Queueing.TimedLanes
/-!
# The times at which elements leave

`push_front` gives each element a time: the clock, or the last time given to its
queue and a delay after it, whichever is later. In both rate-limited classes no
element leaves before its time, the times of a queue are spaced, and `pop_back`
of `QueueingLogicPriRL` serves the first priority with an element whose time has
come, and waits only if there is none.
-/

namespace P4Bricks

namespace Queueing

open Timed

variable {T : Type*} {pktDelay : ℕ → ℕ}

/-! ## `QueueingLogicRL` -/

namespace QueueingLogicRL

/-- `step`, with the times. The time of an element is `last_sent` of its queue. -/
def timedStep (pktDelay : ℕ → ℕ) (s : QueueingLogicRL T) :
    Request T → Option (QueueingLogicRL T × Option (Timed ℕ T))
  | .pushFront queueId _ item now => (s.pushFront queueId item now).map fun r =>
    (r.1, if r.2 then some (.accepted queueId item (r.1.queuesInfo queueId).lastSent) else none)
  | .popBack workerId now => (s.popBack workerId now).map fun r =>
    (r.1, some (.popped r.2.queueId r.2.e r.2.send now))
  | .setCapacity queueId _ c => (s.setCapacity queueId c).map (·, none)
  | .setCapacities queueId c => (s.setCapacity queueId c).map (·, none)
  | .setRate queueId _ pps =>
    (s.setRate pktDelay queueId pps).map (·, some (.rated [queueId] (pktDelay pps)))
  | .setRates queueId pps =>
    (s.setRate pktDelay queueId pps).map (·, some (.rated [queueId] (pktDelay pps)))

variable {s s' : QueueingLogicRL T} {r : Request T} {e : Option (Timed ℕ T)}

/-- An element leaves when its time has come. -/
theorem popBack_send_le {workerId now : ℕ} {qe : QE T}
    (h : s.popBack workerId now = some (s', qe)) : qe.send ≤ now := by
  unfold popBack at h
  split_ifs at h
  split at h
  · cases h
  · split_ifs at h with hsend
    obtain ⟨rfl, rfl⟩ := Prod.mk.inj (Option.some.inj h)
    exact hsend.1

theorem setRate_timed {queueId pps : ℕ} (h : s.setRate pktDelay queueId pps = some s') :
    Rated.TimedStep (layout s.nbQueues s.mapToWorker) s.rated
      (some (.rated [queueId] (pktDelay pps))) s'.rated ∧
      s'.nbQueues = s.nbQueues ∧ s'.mapToWorker = s.mapToWorker := by
  unfold setRate at h
  split_ifs at h
  obtain rfl := Option.some.inj h
  refine ⟨.rate s.rated (Rated.read_update _ rfl) (Rated.read_update _ rfl) fun q _ => ?_, rfl, rfl⟩
  simp only [rated]
  by_cases hq : q = queueId
  · subst hq
    rw [Function.update_self, if_pos (List.mem_singleton_self q)]
    rfl
  · rw [Function.update_of_ne hq, if_neg (mt List.mem_singleton.mp hq)]

theorem setCapacity_timed {queueId c : ℕ} (h : s.setCapacity queueId c = some s') :
    Rated.TimedStep (layout s.nbQueues s.mapToWorker) s.rated none s'.rated ∧
      s'.nbQueues = s.nbQueues ∧ s'.mapToWorker = s.mapToWorker := by
  unfold setCapacity at h
  split_ifs at h
  obtain rfl := Option.some.inj h
  have hdelay : ∀ q, (Function.update s.queuesInfo queueId
      { s.queuesInfo queueId with capacity := c } q).pktDelayTicks =
      (s.queuesInfo q).pktDelayTicks := Rated.read_update _ rfl
  exact ⟨.adjust s.rated (Rated.read_update _ rfl) (Rated.read_update _ rfl)
    fun q _ => hdelay q, rfl, rfl⟩

/-- A call does a step of the lanes, at its time. -/
theorem timedStep_rated (h : s.timedStep pktDelay r = some (s', e)) :
    Rated.TimedStep (layout s.nbQueues s.mapToWorker) s.rated e s'.rated ∧
      s'.nbQueues = s.nbQueues ∧ s'.mapToWorker = s.mapToWorker := by
  cases r with
  | pushFront queueId pri item now =>
    obtain ⟨⟨s'', b⟩, hs, heq⟩ := Option.map_eq_some_iff.mp h
    obtain ⟨rfl, rfl⟩ := Prod.mk.inj heq
    obtain ⟨hr, ⟨-, rfl, rfl⟩ | ⟨rfl, rfl⟩⟩ := pushFront_cases hs
    · have hsend : ((s.enqueue queueId item now).queuesInfo queueId).lastSent =
          (s.queuesInfo queueId).getNextTp now := by simp [enqueue, QueueInfoRL.accept]
      rw [if_pos rfl, hsend]
      exact ⟨Rated.TimedStep.push (L := layout s.nbQueues s.mapToWorker) s.rated
        (Finset.mem_range.mpr hr.1), rfl, rfl⟩
    · exact ⟨.adjust _ (fun _ => rfl) (fun _ => rfl) fun _ _ => rfl, rfl, rfl⟩
  | popBack workerId now =>
    obtain ⟨⟨s'', qe⟩, hs, heq⟩ := Option.map_eq_some_iff.mp h
    obtain ⟨rfl, rfl⟩ := Prod.mk.inj heq
    obtain ⟨hfront, rfl⟩ := popBack_eq_some hs
    exact ⟨Rated.TimedStep.pop (L := layout s.nbQueues s.mapToWorker) s.rated (i := workerId)
      hfront (popBack_send_le hs), rfl, rfl⟩
  | setCapacity queueId _ c | setCapacities queueId c =>
    obtain ⟨s'', hs, heq⟩ := Option.map_eq_some_iff.mp h
    obtain ⟨rfl, rfl⟩ := Prod.mk.inj heq
    exact setCapacity_timed hs
  | setRate queueId _ pps | setRates queueId pps =>
    obtain ⟨s'', hs, heq⟩ := Option.map_eq_some_iff.mp h
    obtain ⟨rfl, rfl⟩ := Prod.mk.inj heq
    exact setRate_timed hs

/-- **A run keeps the times.** -/
theorem timedRun_inv {s₀ : QueueingLogicRL T} {es : List (Timed ℕ T)}
    (h₀ : Rated.TimedInv (layout s₀.nbQueues s₀.mapToWorker) s₀.rated [])
    (hrun : TimedRun (timedStep pktDelay) s₀ es s) :
    Rated.TimedInv (layout s.nbQueues s.mapToWorker) s.rated es := by
  induction hrun with
  | nil => exact h₀
  | snoc _ hstep ih =>
    obtain ⟨hstep', hq, hm⟩ := timedStep_rated hstep
    rw [hq, hm]
    exact ih.step hstep'

end QueueingLogicRL

/-! ## `QueueingLogicPriRL` -/

namespace QueueingLogicPriRL

/-- `step`, with the times. A call for all priorities of a queue gives each the
rate. -/
def timedStep (pktDelay : ℕ → ℕ) (s : QueueingLogicPriRL T) :
    Request T → Option (QueueingLogicPriRL T × Option (Timed (ℕ × ℕ) T))
  | .pushFront queueId priority item now => (s.pushFront queueId priority item now).map fun r =>
    (r.1, if r.2 then
      some (.accepted (queueId, priority) item ((r.1.queuesInfo queueId).pris priority).lastSent)
      else none)
  | .popBack workerId now => (s.popBack workerId now).map fun r =>
    (r.1, some (.popped (r.2.2.queueId, r.2.1) r.2.2.e r.2.2.send now))
  | .setCapacity queueId priority c =>
    (s.forOneQ queueId priority fun info => { info with capacity := c }).map (·, none)
  | .setCapacities queueId c =>
    (s.forEachQ queueId fun info => { info with capacity := c }).map (·, none)
  | .setRate queueId priority pps =>
    if pps = 0 then none
    else (s.forOneQ queueId priority fun info => info.withRate pps (pktDelay pps)).map
      (·, some (.rated [(queueId, priority)] (pktDelay pps)))
  | .setRates queueId pps =>
    if pps = 0 then none
    else (s.forEachQ queueId fun info => info.withRate pps (pktDelay pps)).map
      (·, some (.rated ((List.range s.nbPriorities).map (queueId, ·)) (pktDelay pps)))

/-- An element of this priority waits with a worker whose time has come. -/
def Reached (s : QueueingLogicPriRL T) (workerId pri now : ℕ) : Prop :=
  ∃ qe ∈ ((s.workersInfo workerId).queues pri).contents, qe.send ≤ now

/-- `pop_back` returns an element of the first priority with one whose time has
come, and waits only if there is none. -/
def ServesFirst (s : QueueingLogicPriRL T) (workerId now : ℕ) : Prop :=
  match s.popBack workerId now with
  | none => ∀ pri < s.nbPriorities, ¬ s.Reached workerId pri now
  | some (_, pri, qe) => pri < s.nbPriorities ∧
    qe ∈ ((s.workersInfo workerId).queues pri).contents ∧ qe.send ≤ now ∧
    ∀ p < pri, ¬ s.Reached workerId p now

/-- Where elements wait, the worker has a count, and the priority is in its array. -/
def Stocked (s : QueueingLogicPriRL T) : Prop :=
  ∀ w pri, 0 < ((s.workersInfo w).queues pri).size →
    0 < (s.workersInfo w).size ∧ pri < maxPriorities

/-- The front of a heap may leave if any of its elements may. -/
theorem ready_iff {h : Heap (QE T)} (ho : h.WellOrdered QE.send) (now : ℕ) :
    ready h now = true ↔ ∃ qe ∈ h.contents, qe.send ≤ now := by
  unfold ready
  cases hfront : h.front? with
  | none =>
    have hempty : h.contents = 0 := by
      have hsize : h.size = 0 := by
        by_contra hpos
        simp [Heap.front?, hpos] at hfront
      exact Multiset.card_eq_zero.mp ((Heap.card_contents h).trans hsize)
    simp [hempty]
  | some x =>
    simp only [Option.map_some, Option.getD_some, decide_eq_true_eq]
    constructor
    · intro hx
      exact ⟨x, Heap.mem_contents_of_front hfront, hx⟩
    · rintro ⟨qe, hmem, hqe⟩
      rw [← (Heap.front?_eq_some hfront).2]
      exact (ho.key_front_le hmem).trans hqe

theorem front_of_ready {h : Heap (QE T)} {now : ℕ} (hready : ready h now = true) :
    ∃ qe, h.front? = some qe ∧ qe.send ≤ now := by
  unfold ready at hready
  cases hfront : h.front? with
  | none => simp [hfront] at hready
  | some qe => exact ⟨qe, rfl, by simpa [hfront] using hready⟩

variable {s s' : QueueingLogicPriRL T} {r : Request T} {e : Option (Timed (ℕ × ℕ) T)}

theorem popBack_send_le {workerId now pri : ℕ} {qe : QE T}
    (h : s.popBack workerId now = some (s', pri, qe)) : qe.send ≤ now := by
  obtain ⟨hfront, -⟩ := popBack_eq_some h
  unfold popBack at h
  split_ifs at h
  simp only at h
  split at h
  · cases h
  · next p hfind =>
    split at h
    · cases h
    · split_ifs at h
      obtain ⟨-, heq⟩ := Prod.mk.inj (Option.some.inj h)
      obtain ⟨rfl, rfl⟩ := Prod.mk.inj heq
      have hready := List.find?_some hfind
      obtain ⟨x, hx, hsend⟩ := front_of_ready hready
      rw [hfront] at hx
      obtain rfl := Option.some.inj hx
      exact hsend

/-- An accepted element is in the array of the worker. -/
theorem pushFront_inArray {queueId priority : ℕ} {item : T} {now : ℕ}
    (h : s.pushFront queueId priority item now = some (s', true)) : priority < maxPriorities := by
  unfold pushFront at h
  split_ifs at h with _ _ hpri
  · simp at h
  · exact hpri

theorem forOneQ_timed {queueId priority : ℕ} {f : QueueInfoRL → QueueInfoRL}
    (h : s.forOneQ queueId priority f = some s') :
    ∃ infos, s' = { s with queuesInfo := infos } ∧ ∀ l : ℕ × ℕ,
      (infos l.1).pris l.2 = if l ∈ [(queueId, priority)] then f ((s.queuesInfo l.1).pris l.2)
        else (s.queuesInfo l.1).pris l.2 := by
  unfold forOneQ at h
  split_ifs at h
  obtain rfl := Option.some.inj h
  refine ⟨_, rfl, fun ⟨q, p⟩ => ?_⟩
  by_cases hq : q = queueId
  · subst hq
    by_cases hp : p = priority
    · subst hp
      simp
    · simp [hp]
  · simp [hq]

theorem forEachQ_timed {queueId : ℕ} {f : QueueInfoRL → QueueInfoRL}
    (h : s.forEachQ queueId f = some s') :
    ∃ infos, s' = { s with queuesInfo := infos } ∧ ∀ l : ℕ × ℕ,
      (infos l.1).pris l.2 = if l.1 = queueId then f ((s.queuesInfo l.1).pris l.2)
        else (s.queuesInfo l.1).pris l.2 := by
  unfold forEachQ at h
  split_ifs at h
  obtain rfl := Option.some.inj h
  refine ⟨_, rfl, fun ⟨q, p⟩ => ?_⟩
  by_cases hq : q = queueId
  · subst hq
    simp
  · simp [hq]

/-- **What a call can do**, and when: accept an element, pop one, or change
capacities or rates, if anything. -/
theorem timedStep_cases (h : s.timedStep pktDelay r = some (s', e)) :
    (∃ queueId pri item now, s.InRange queueId pri ∧ pri < maxPriorities ∧
      s' = s.enqueue queueId pri item now ∧
      e = some (.accepted (queueId, pri) item
        (((s.queuesInfo queueId).pris pri).getNextTp now))) ∨
    (∃ workerId pri qe now, ((s.workersInfo workerId).queues pri).front? = some qe ∧
      qe.send ≤ now ∧ s' = s.dequeue workerId pri qe.queueId ∧
      e = some (.popped (qe.queueId, pri) qe.e qe.send now)) ∨
    ∃ infos, s' = { s with queuesInfo := infos } ∧
      Rated.TimedStep (layout s.nbQueues s.nbPriorities s.mapToWorker) s.rated e s'.rated := by
  cases r with
  | pushFront queueId pri item now =>
    obtain ⟨⟨s'', b⟩, hs, heq⟩ := Option.map_eq_some_iff.mp h
    obtain ⟨rfl, rfl⟩ := Prod.mk.inj heq
    obtain ⟨hr, ⟨-, rfl, rfl⟩ | ⟨rfl, rfl⟩⟩ := pushFront_cases hs
    · refine .inl ⟨queueId, pri, item, now, hr, pushFront_inArray hs, rfl, ?_⟩
      simp [enqueue, QueueInfoRL.accept]
    · exact .inr (.inr ⟨_, rfl, .adjust _ (fun _ => rfl) (fun _ => rfl) fun _ _ => rfl⟩)
  | popBack workerId now =>
    obtain ⟨⟨s'', pri, qe⟩, hs, heq⟩ := Option.map_eq_some_iff.mp h
    obtain ⟨rfl, rfl⟩ := Prod.mk.inj heq
    obtain ⟨hfront, rfl⟩ := popBack_eq_some hs
    exact .inr (.inl ⟨workerId, pri, qe, now, hfront, popBack_send_le hs, rfl, rfl⟩)
  | setCapacity queueId pri c =>
    obtain ⟨s'', hs, heq⟩ := Option.map_eq_some_iff.mp h
    obtain ⟨rfl, rfl⟩ := Prod.mk.inj heq
    obtain ⟨infos, rfl, hinfos⟩ := forOneQ_timed hs
    refine .inr (.inr ⟨infos, rfl, .adjust _ (fun l => ?_) (fun l => ?_) fun l _ => ?_⟩)
    all_goals simp only [rated, hinfos l]
    all_goals split <;> rfl
  | setCapacities queueId c =>
    obtain ⟨s'', hs, heq⟩ := Option.map_eq_some_iff.mp h
    obtain ⟨rfl, rfl⟩ := Prod.mk.inj heq
    obtain ⟨infos, rfl, hinfos⟩ := forEachQ_timed hs
    refine .inr (.inr ⟨infos, rfl, .adjust _ (fun l => ?_) (fun l => ?_) fun l _ => ?_⟩)
    all_goals simp only [rated, hinfos l]
    all_goals split <;> rfl
  | setRate queueId pri pps =>
    simp only [timedStep] at h
    split_ifs at h
    obtain ⟨s'', hs, heq⟩ := Option.map_eq_some_iff.mp h
    obtain ⟨rfl, rfl⟩ := Prod.mk.inj heq
    obtain ⟨infos, rfl, hinfos⟩ := forOneQ_timed hs
    refine .inr (.inr ⟨infos, rfl, .rate _ (fun l => ?_) (fun l => ?_) fun l _ => ?_⟩)
    all_goals simp only [rated, hinfos l]
    all_goals split <;> rfl
  | setRates queueId pps =>
    simp only [timedStep] at h
    split_ifs at h
    obtain ⟨s'', hs, heq⟩ := Option.map_eq_some_iff.mp h
    obtain ⟨rfl, rfl⟩ := Prod.mk.inj heq
    obtain ⟨infos, rfl, hinfos⟩ := forEachQ_timed hs
    refine .inr (.inr ⟨infos, rfl, .rate _ (fun l => ?_) (fun l => ?_) fun l hl => ?_⟩)
    · simp only [rated, hinfos l]
      split <;> rfl
    · simp only [rated, hinfos l]
      split <;> rfl
    · -- Of a lane of the layout, the priority is in the range that is listed.
      have hlt : l.2 < s.nbPriorities := Finset.mem_range.mp (Finset.mem_product.mp hl).2
      have hlisted : l ∈ (List.range s.nbPriorities).map (queueId, ·) ↔ l.1 = queueId := by
        rw [List.mem_map]
        constructor
        · rintro ⟨p, -, rfl⟩
          rfl
        · rintro rfl
          exact ⟨l.2, List.mem_range.mpr hlt, rfl⟩
      simp only [rated, hinfos l, hlisted]
      split <;> rfl

/-- A call does a step of the lanes, at its time. -/
theorem timedStep_rated (h : s.timedStep pktDelay r = some (s', e)) :
    Rated.TimedStep (layout s.nbQueues s.nbPriorities s.mapToWorker) s.rated e s'.rated ∧
      SameShape s s' := by
  rcases timedStep_cases h with ⟨q, pri, item, now, hr, -, rfl, rfl⟩ |
    ⟨w, pri, qe, now, hfront, hsend, rfl, rfl⟩ | ⟨infos, rfl, hstep⟩
  · rw [rated_enqueue]
    have hmem : (q, pri) ∈ (layout s.nbQueues s.nbPriorities s.mapToWorker).lanes :=
      Finset.mem_product.mpr ⟨Finset.mem_range.mpr hr.1, Finset.mem_range.mpr hr.2.2⟩
    exact ⟨.push s.rated hmem, rfl, rfl, rfl, rfl⟩
  · rw [rated_dequeue]
    exact ⟨Rated.TimedStep.pop (L := layout s.nbQueues s.nbPriorities s.mapToWorker) s.rated
      (i := (w, pri)) hfront hsend, rfl, rfl, rfl, rfl⟩
  · exact ⟨hstep, rfl, rfl, rfl, rfl⟩

theorem Stocked.step (hs : s.Stocked) (h : s.timedStep pktDelay r = some (s', e)) :
    s'.Stocked := by
  rcases timedStep_cases h with ⟨q, pri, item, now, -, harray, rfl, -⟩ |
    ⟨w, pri, qe, now, hfront, -, rfl, -⟩ | ⟨infos, rfl, -⟩
  · intro w' p hpos
    simp only [enqueue] at hpos ⊢
    by_cases hw : w' = s.mapToWorker q
    · subst hw
      rw [Function.update_self] at hpos ⊢
      refine ⟨Nat.succ_pos _, ?_⟩
      by_cases hp : p = pri
      · exact hp ▸ harray
      · simp only [Function.update_of_ne hp] at hpos
        exact (hs _ p hpos).2
    · rw [Function.update_of_ne hw] at hpos ⊢
      exact hs w' p hpos
  · intro w' p hpos
    simp only [dequeue] at hpos ⊢
    by_cases hw : w' = w
    · subst hw
      rw [Function.update_self] at hpos ⊢
      refine hs w' p ?_
      by_cases hp : p = pri
      · subst hp
        exact (Heap.front?_eq_some hfront).1
      · simpa only [Function.update_of_ne hp] using hpos
    · rw [Function.update_of_ne hw] at hpos ⊢
      exact hs w' p hpos
  · exact hs

/-- **A run keeps the times**, and what waits counted. -/
theorem timedRun_inv {s₀ : QueueingLogicPriRL T} {es : List (Timed (ℕ × ℕ) T)}
    (h₀ : Rated.TimedInv (layout s₀.nbQueues s₀.nbPriorities s₀.mapToWorker) s₀.rated [])
    (hs₀ : s₀.Stocked) (hrun : TimedRun (timedStep pktDelay) s₀ es s) :
    Rated.TimedInv (layout s.nbQueues s.nbPriorities s.mapToWorker) s.rated es ∧ s.Stocked := by
  induction hrun with
  | nil => exact ⟨h₀, hs₀⟩
  | snoc _ hstep ih =>
    obtain ⟨hstep', hq, -, hp, hm⟩ := timedStep_rated hstep
    rw [hq, hp, hm]
    exact ⟨ih.1.step hstep', ih.2.step hstep⟩

/-- Priorities are scanned from the first on, and each heap has its earliest
element in front. -/
theorem servesFirst {es : List (Timed (ℕ × ℕ) T)} (hs : s.Stocked)
    (h : Rated.TimedInv (layout s.nbQueues s.nbPriorities s.mapToWorker) s.rated es) {w : ℕ}
    (hw : w < s.nbWorkers) (now : ℕ) : s.ServesFirst w now := by
  have hready : ∀ pri, ready ((s.workersInfo w).queues pri) now = true ↔ s.Reached w pri now :=
    fun pri => ready_iff (h.inv.served.ordered (w, pri)) now
  have hsize : (s.workersInfo w).size = 0 → ∀ pri, ¬ s.Reached w pri now := by
    intro hzero pri hreached
    obtain ⟨qe, hfront, -⟩ := front_of_ready ((hready pri).mpr hreached)
    have := (hs w pri (Heap.front?_eq_some hfront).1).1
    omega
  unfold ServesFirst popBack
  by_cases hzero : (s.workersInfo w).size = 0
  · simp only [hzero, ne_eq, not_true_eq_false, and_false, if_false]
    exact fun pri _ => hsize hzero pri
  · simp only [hw, hzero, ne_eq, not_false_eq_true, and_self, if_true]
    cases hfind : (List.range s.nbPriorities).find?
        (fun pri => ready ((s.workersInfo w).queues pri) now) with
    | none =>
      intro pri hpri hreached
      have hnone := List.find?_eq_none.mp hfind pri (List.mem_range.mpr hpri)
      exact hnone ((hready pri).mpr hreached)
    | some pri =>
      obtain ⟨hpri, hmem, hbefore⟩ := List.find?_range_eq_some.mp hfind
      obtain ⟨qe, hfront, hsend⟩ := front_of_ready hpri
      -- What waits is in the array of the worker, and of a queue that there is.
      have harray := (hs w pri (Heap.front?_eq_some hfront).1).2
      have hqueue : qe.queueId < s.nbQueues := by
        have hlane := (h.inv.front_counted (i := (w, pri)) hfront).1
        exact Finset.mem_range.mp (Finset.mem_product.mp hlane).1
      simp only [hfront, harray, hqueue, and_self, if_true]
      refine ⟨List.mem_range.mp hmem, Heap.mem_contents_of_front hfront, hsend, ?_⟩
      intro p hp hreached
      have hnot := hbefore p hp
      rw [(hready p).mpr hreached] at hnot
      exact absurd hnot (by decide)

end QueueingLogicPriRL

/-! ## Both -/

/-- **Elements leave at their times**, which are spaced, in every run of either
class and whatever the clock does; and of the priorities of a worker, the first
with an element whose time has come is served. -/
theorem sendTimes_kept [Inhabited T] (pktDelay : ℕ → ℕ)
    (nbQueues nbWorkers capacity nbPriorities now : ℕ) (mapToWorker : ℕ → ℕ) :
    (∀ es (s : QueueingLogicRL T), TimedRun (QueueingLogicRL.timedStep pktDelay)
      (.create nbQueues nbWorkers capacity mapToWorker now) es s → Punctual es ∧ Spaced es) ∧
    ∀ es (s : QueueingLogicPriRL T), TimedRun (QueueingLogicPriRL.timedStep pktDelay)
      (.create nbQueues nbWorkers capacity mapToWorker nbPriorities now) es s →
      Punctual es ∧ Spaced es ∧ ∀ w < s.nbWorkers, ∀ t, s.ServesFirst w t := by
  constructor
  · intro es s hrun
    have hinv := QueueingLogicRL.timedRun_inv (.empty (fun _ => rfl) fun _ => rfl) hrun
    exact ⟨hinv.punctual, hinv.follows.spaced⟩
  · intro es s hrun
    have hempty : (QueueingLogicPriRL.create nbQueues nbWorkers capacity mapToWorker nbPriorities
        now : QueueingLogicPriRL T).Stocked := fun _ _ hpos => absurd hpos (by exact lt_irrefl 0)
    obtain ⟨hinv, hstocked⟩ := QueueingLogicPriRL.timedRun_inv
      (.empty (fun _ => rfl) fun _ => rfl) hempty hrun
    exact ⟨hinv.punctual, hinv.follows.spaced,
      fun w hw t => QueueingLogicPriRL.servesFirst hstocked hinv hw t⟩

/-- A rate, pushes and pops, in each class. The last pop of the other takes from
the second priority, as the time of what waits in the first has not come. -/
theorem sendTimes_kept_two :
    (Punctual [rated [0] 5, accepted 0 7 5, accepted 0 8 10, popped 0 7 5 6] ∧
      Spaced [rated [0] 5, accepted 0 7 5, accepted 0 8 10, popped 0 7 5 6]) ∧
    ∃ s : QueueingLogicPriRL ℕ, TimedRun (QueueingLogicPriRL.timedStep fun _ => 5)
      (.create 1 1 4 (fun _ => 0) 2 0)
      [rated [(0, 0), (0, 1)] 5, accepted (0, 1) 7 5, accepted (0, 0) 8 5, accepted (0, 0) 9 10,
        popped (0, 0) 8 5 6, popped (0, 1) 7 5 7] s ∧ s.ServesFirst 0 9 := by
  have h := sendTimes_kept (T := ℕ) (fun _ => 5) 1 1 4 2 0 (fun _ => 0)
  have startRL : TimedRun (QueueingLogicRL.timedStep fun _ => 5)
      (.create 1 1 4 (fun _ => 0) 0 : QueueingLogicRL ℕ) [] _ := .nil _
  have startPriRL : TimedRun (QueueingLogicPriRL.timedStep fun _ => 5)
      (.create 1 1 4 (fun _ => 0) 2 0 : QueueingLogicPriRL ℕ) [] _ := .nil _
  have twoRL := (((startRL.snoc (r := .setRate 0 0 1) rfl).snoc (r := .pushFront 0 0 7 1) rfl).snoc
    (r := .pushFront 0 0 8 2) rfl).snoc (r := .popBack 0 6) rfl
  have pushes := (((startPriRL.snoc (r := .setRates 0 1) rfl).snoc
    (r := .pushFront 0 1 7 1) rfl).snoc (r := .pushFront 0 0 8 2) rfl).snoc
    (r := .pushFront 0 0 9 3) rfl
  have pops := (pushes.snoc (r := .popBack 0 6) rfl).snoc (r := .popBack 0 7) rfl
  exact ⟨h.1 _ _ twoRL, _, pops, (h.2 _ _ pops).2.2 0 (by decide) 9⟩

end Queueing

end P4Bricks
