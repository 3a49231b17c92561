import P4Bricks.Queueing.Refinement
/-!
# The elements of a queue, and their counts

Nothing is lost between a push and a pop, in either of the rate-limited classes.
Of the counts, `QueueingLogicRL` keeps all, and `QueueingLogicPriRL` that of a
queue. Two others go wrong there: `pop_back` takes nothing from the count of the
worker, and `size` of one priority returns that of all.
-/

namespace P4Bricks

namespace Queueing

open Event

variable {T : Type*} {pktDelay : ℕ → ℕ}

/-- A sum in which one term grows by one. -/
theorem sum_eq_add_one {α : Type*} [DecidableEq α] {S : Finset α} {f g : α → ℕ} {a : α}
    (ha : a ∈ S) (hone : g a = f a + 1) (hrest : ∀ x, x ≠ a → g x = f x) :
    ∑ x ∈ S, g x = ∑ x ∈ S, f x + 1 := by
  have hsum : ∑ x ∈ S.erase a, g x = ∑ x ∈ S.erase a, f x :=
    Finset.sum_congr rfl fun x hx => hrest x (Finset.ne_of_mem_erase hx)
  rw [← Finset.add_sum_erase S g ha, ← Finset.add_sum_erase S f ha, hsum, hone]
  omega

/-! ## `QueueingLogicRL` -/

namespace QueueingLogicRL

/-- What waits of a queue. -/
def held (s : QueueingLogicRL T) : ℕ → Multiset (QE T) :=
  s.rated.held (layout s.nbQueues s.mapToWorker)

/-- The queues of a worker. -/
def queuesOf (s : QueueingLogicRL T) (w : ℕ) : Finset ℕ :=
  {q ∈ Finset.range s.nbQueues | s.mapToWorker q = w}

/-- Every element accepted was popped or is held, and the counts are of those
that were accepted and not popped. -/
structure Accounted (s : QueueingLogicRL T) (es : List (Event ℕ T)) : Prop where
  conserved : ∀ q, (acceptedFor q es : Multiset T) = poppedFrom q es + (s.held q).map QE.e
  size : ∀ q n, s.size q = some n → n = waiting q es
  worker : ∀ w < s.nbWorkers, (s.workersInfo w).size = ∑ q ∈ s.queuesOf w, waiting q es

theorem accounted [Inhabited T] {nbQueues nbWorkers capacity now : ℕ} {mapToWorker : ℕ → ℕ}
    {es : List (Event ℕ T)} {s : QueueingLogicRL T}
    (hrun : RunIf (step pktDelay) (fun _ _ => True)
      (.create nbQueues nbWorkers capacity mapToWorker now) es s) : s.Accounted es := by
  obtain ⟨hlanes, hq, -, hm⟩ := run_rated (fun _ _ _ => True) hrun fun _ _ _ _ _ _ _ => trivial
  have hinv := Rated.Inv.run (.empty fun _ => rfl) hlanes
  have hlayout : layout (create nbQueues nbWorkers capacity mapToWorker now : QueueingLogicRL T).nbQueues
      (create nbQueues nbWorkers capacity mapToWorker now : QueueingLogicRL T).mapToWorker =
      layout s.nbQueues s.mapToWorker := by rw [hq, hm]
  rw [hlayout] at hinv
  refine ⟨hinv.conserved, fun q n hn => ?_, fun w _ => ?_⟩
  · unfold size at hn
    split_ifs at hn
    rw [← Option.some.inj hn]
    exact hinv.size_eq_waiting q
  · refine (hinv.heap_size w).trans (Finset.sum_congr rfl fun q _ => ?_)
    exact hinv.size_eq_waiting q

end QueueingLogicRL

/-! ## `QueueingLogicPriRL` -/

namespace QueueingLogicPriRL

/-- What waits of a priority of a queue. -/
def held (s : QueueingLogicPriRL T) : ℕ × ℕ → Multiset (QE T) :=
  s.rated.held (layout s.nbQueues s.nbPriorities s.mapToWorker)

/-- The priorities of the queues of a worker. -/
def lanesOf (s : QueueingLogicPriRL T) (w : ℕ) : Finset (ℕ × ℕ) :=
  {l ∈ Finset.range s.nbQueues ×ˢ Finset.range s.nbPriorities | s.mapToWorker l.1 = w}

/-- Every element accepted was popped or is held, and the count of a queue is of
those that were accepted for it and not popped. -/
structure Conserved (s : QueueingLogicPriRL T) (es : List (Event (ℕ × ℕ) T)) : Prop where
  conserved : ∀ l, (acceptedFor l es : Multiset T) = poppedFrom l es + (s.held l).map QE.e
  size : ∀ q n, s.size q = some n →
    n = ∑ pri ∈ Finset.range s.nbPriorities, waiting (q, pri) es

/-- The counts of a priority and of a worker are right as well. -/
structure Accounted (s : QueueingLogicPriRL T) (es : List (Event (ℕ × ℕ) T)) : Prop
    extends Conserved s es where
  sizePri : ∀ q pri n, s.sizePri q pri = some n → n = waiting (q, pri) es
  worker : ∀ w < s.nbWorkers, (s.workersInfo w).size = ∑ l ∈ s.lanesOf w, waiting l es

/-- What the counts are: that of a queue is of what waits, that of a worker of
what was ever accepted. -/
structure Counted (s : QueueingLogicPriRL T) (es : List (Event (ℕ × ℕ) T)) : Prop where
  inRange : ∀ l, acceptedFor l es ≠ [] → s.InRange l.1 l.2
  queue : ∀ q, (s.queuesInfo q).size =
    ∑ pri ∈ Finset.range s.nbPriorities, ((s.queuesInfo q).pris pri).size
  worker : ∀ w, (s.workersInfo w).size = ∑ l ∈ s.lanesOf w, (acceptedFor l es).length

variable {s s' : QueueingLogicPriRL T} {es : List (Event (ℕ × ℕ) T)}

theorem Counted.enqueue (h : s.Counted es) {queueId pri : ℕ} (hr : s.InRange queueId pri)
    (item : T) (now : ℕ) :
    (s.enqueue queueId pri item now).Counted (es ++ [.accepted (queueId, pri) item]) := by
  have hacc : ∀ l, (acceptedFor l (es ++ [.accepted (queueId, pri) item])) =
      acceptedFor l es ++ if (queueId, pri) = l then [item] else [] := by
    intro l
    rw [acceptedFor_append, acceptedFor_accepted]
  refine ⟨fun l hl => ?_, fun q => ?_, fun w => ?_⟩
  · by_cases heq : (queueId, pri) = l
    · subst heq
      exact hr
    · rw [hacc, if_neg heq, List.append_nil] at hl
      exact h.inRange l hl
  · -- The count of a queue is the sum over its priorities.
    have hq := h.queue q
    simp only [QueueingLogicPriRL.enqueue]
    rcases eq_or_ne q queueId with rfl | hne
    · rw [Function.update_self, hq]
      refine (sum_eq_add_one (a := pri) (Finset.mem_range.mpr hr.2.2) ?_ fun p hp => ?_).symm
      · simp only [Function.update_self]
        rfl
      · simp only [Function.update_of_ne hp]
    · rwa [Function.update_of_ne hne]
  · -- The count of a worker is the sum over the lanes mapped to it.
    have hw := h.worker w
    have hlanes : (s.enqueue queueId pri item now).lanesOf w = s.lanesOf w := rfl
    rw [hlanes]
    simp only [QueueingLogicPriRL.enqueue]
    rcases eq_or_ne w (s.mapToWorker queueId) with rfl | hne
    · rw [Function.update_self]
      have hmem : (queueId, pri) ∈ s.lanesOf (s.mapToWorker queueId) :=
        Finset.mem_filter.mpr ⟨Finset.mem_product.mpr
          ⟨Finset.mem_range.mpr hr.1, Finset.mem_range.mpr hr.2.2⟩, rfl⟩
      rw [hw]
      refine (sum_eq_add_one hmem ?_ fun l hl => ?_).symm
      · rw [hacc, if_pos rfl, List.length_append]
        rfl
      · rw [hacc, if_neg (Ne.symm hl), List.append_nil]
    · rw [Function.update_of_ne hne, hw]
      refine Finset.sum_congr rfl fun l hl => ?_
      have hl' : (queueId, pri) ≠ l := by
        rintro rfl
        exact hne (Finset.mem_filter.mp hl).2.symm
      rw [hacc, if_neg hl', List.append_nil]

theorem Counted.dequeue (h : s.Counted es) {workerId pri : ℕ} {qe : QE T}
    (hpri : pri ∈ Finset.range s.nbPriorities)
    (hpos : 0 < ((s.queuesInfo qe.queueId).pris pri).size) :
    (s.dequeue workerId pri qe.queueId).Counted (es ++ [.popped (qe.queueId, pri) qe.e]) := by
  have hacc : ∀ l, acceptedFor l (es ++ [.popped (qe.queueId, pri) qe.e]) = acceptedFor l es := by
    intro l
    rw [acceptedFor_append, acceptedFor_popped, List.append_nil]
  refine ⟨fun l hl => ?_, fun q => ?_, fun w => ?_⟩
  · rw [hacc] at hl
    exact h.inRange l hl
  · have hq := h.queue q
    simp only [QueueingLogicPriRL.dequeue]
    rcases eq_or_ne q qe.queueId with rfl | hne
    · rw [Function.update_self]
      have hsum := sum_eq_add_one (S := Finset.range s.nbPriorities) (a := pri) hpri
        (f := fun p => (Function.update (s.queuesInfo qe.queueId).pris pri
          ((s.queuesInfo qe.queueId).pris pri).remove p).size)
        (g := fun p => ((s.queuesInfo qe.queueId).pris p).size) ?_ fun p hp => ?_
      · simp only [hq, hsum]
        omega
      · simp only [Function.update_self, QueueInfoRL.remove]
        omega
      · simp only [Function.update_of_ne hp]
    · rwa [Function.update_of_ne hne]
  · simp only [hacc]
    have hw := h.worker w
    simp only [QueueingLogicPriRL.dequeue]
    rcases eq_or_ne w workerId with rfl | hne
    · rw [Function.update_self]
      exact hw
    · rw [Function.update_of_ne hne]
      exact hw

theorem Counted.step {r : Request T} {e : Option (Event (ℕ × ℕ) T)} (h : s.Counted es)
    (hinv : Rated.Inv (layout s.nbQueues s.nbPriorities s.mapToWorker) s.rated es)
    (hstep : s.step pktDelay r = some (s', e)) : s'.Counted (es ++ e.toList) := by
  rcases step_cases hstep with ⟨q, pri, item, now, -, hr, -, rfl, rfl⟩ |
    ⟨w, pri, qe, hfront, rfl, rfl⟩ | ⟨⟨infos, rfl, hsize, hpris, -⟩, rfl⟩
  · exact h.enqueue hr item now
  · obtain ⟨hmem, hpos⟩ := hinv.front_counted (i := (w, pri)) hfront
    exact h.dequeue (Finset.mem_product.mp hmem).2 hpos
  · rw [Option.toList_none, List.append_nil]
    refine ⟨h.inRange, fun q => ?_, h.worker⟩
    simp only [hsize, hpris]
    exact h.queue q

variable {nbQueues nbWorkers capacity nbPriorities now : ℕ} {mapToWorker : ℕ → ℕ}

/-- **What a run leaves behind**: the lanes as they are, and the counts. -/
theorem run_inv [Inhabited T]
    (hrun : RunIf (step pktDelay) (fun _ _ => True)
      (.create nbQueues nbWorkers capacity mapToWorker nbPriorities now) es s) :
    Rated.Inv (layout s.nbQueues s.nbPriorities s.mapToWorker) s.rated es ∧ s.Counted es ∧
      s.nbPriorities = nbPriorities := by
  have hall : ∀ {es s}, RunIf (step pktDelay) (fun _ _ => True)
      (.create nbQueues nbWorkers capacity mapToWorker nbPriorities now : QueueingLogicPriRL T) es s →
      Rated.Inv (layout s.nbQueues s.nbPriorities s.mapToWorker) s.rated es ∧
        s.nbPriorities = nbPriorities := by
    intro es s hrun
    obtain ⟨hlanes, hq, -, hp, hm⟩ :=
      run_rated (fun _ _ _ => True) hrun fun _ _ _ _ _ _ _ => trivial
    have hinv := Rated.Inv.run (.empty fun _ => rfl) hlanes
    rw [← hq, ← hp, ← hm] at hinv
    exact ⟨hinv, hp⟩
  refine ⟨(hall hrun).1, ?_, (hall hrun).2⟩
  induction hrun with
  | nil =>
    refine ⟨fun l hl => absurd rfl hl, fun q => ?_, fun w => ?_⟩
    · exact (Finset.sum_eq_zero fun _ _ => rfl).symm
    · exact (Finset.sum_eq_zero fun _ _ => rfl).symm
  | snoc hrun _ hstep ih => exact (ih).step (hall hrun).1 hstep

section Counts

variable (hinv : Rated.Inv (layout s.nbQueues s.nbPriorities s.mapToWorker) s.rated es)
variable (hc : s.Counted es)
include hinv hc

theorem queue_size (q : ℕ) :
    (s.queuesInfo q).size = ∑ pri ∈ Finset.range s.nbPriorities, waiting (q, pri) es := by
  rw [hc.queue q]
  exact Finset.sum_congr rfl fun pri _ => hinv.size_eq_waiting (q, pri)

theorem conserved_of_inv : s.Conserved es := by
  refine ⟨hinv.conserved, fun q n hn => ?_⟩
  unfold size at hn
  split_ifs at hn
  rw [← Option.some.inj hn]
  exact queue_size hinv hc q

/-- The workers' counts are right if nothing was popped. -/
theorem worker_iff : (∀ w < s.nbWorkers, (s.workersInfo w).size = ∑ l ∈ s.lanesOf w, waiting l es) ↔
    ∀ l, poppedFrom l es = [] := by
  have hlen : ∀ l, (acceptedFor l es).length = waiting l es + (poppedFrom l es).length := by
    intro l
    rw [← hinv.size_add_popped l, hinv.size_eq_waiting l]
  constructor
  · intro h l
    by_contra hne
    have hpos : 0 < (poppedFrom l es).length := List.length_pos_iff.mpr hne
    have hacc : acceptedFor l es ≠ [] := by
      rw [← List.length_pos_iff, hlen]
      omega
    -- The lane is one of a worker's, whose sum counts what was popped too.
    obtain ⟨hq, hw, hp⟩ := hc.inRange l hacc
    have hmem : l ∈ s.lanesOf (s.mapToWorker l.1) :=
      Finset.mem_filter.mpr ⟨Finset.mem_product.mpr
        ⟨Finset.mem_range.mpr hq, Finset.mem_range.mpr hp⟩, rfl⟩
    have heq := h _ hw
    rw [hc.worker] at heq
    refine absurd heq (Finset.sum_lt_sum (fun l' _ => ?_) ⟨l, hmem, ?_⟩).ne'
    · rw [hlen]
      omega
    · rw [hlen]
      omega
  · intro h w _
    rw [hc.worker]
    refine Finset.sum_congr rfl fun l _ => ?_
    rw [hlen, h l]
    rfl

/-- The counts of the priorities are right if a queue has no others. -/
theorem sizePri_iff (hnone : ∀ l, poppedFrom l es = []) :
    (∀ q pri n, s.sizePri q pri = some n → n = waiting (q, pri) es) ↔
      s.nbPriorities ≤ 1 ∨ ∀ l, acceptedFor l es = [] := by
  have hwait : ∀ l, waiting l es = (acceptedFor l es).length := by
    intro l
    rw [waiting, hnone l]
    rfl
  constructor
  · intro h
    by_contra hno
    obtain ⟨hmany, hsome⟩ := not_or.mp hno
    obtain ⟨⟨q, pri⟩, hacc⟩ := not_forall.mp hsome
    obtain ⟨hq, hw, hp⟩ := hc.inRange (q, pri) hacc
    obtain ⟨other, hother, hne⟩ : ∃ other < s.nbPriorities, other ≠ pri := by
      by_cases h0 : pri = 0
      · exact ⟨1, by omega, by omega⟩
      · exact ⟨0, by omega, by omega⟩
    have hone := h q pri _ (if_pos ⟨hq, hw, hp⟩)
    have htwo := h q other _ (if_pos ⟨hq, hw, hother⟩)
    have hpos : 0 < waiting (q, pri) es := by
      rw [hwait]
      exact List.length_pos_iff.mpr hacc
    -- Both are the count of the queue, which is at least their sum.
    have hsum : waiting (q, pri) es + waiting (q, other) es ≤ (s.queuesInfo q).size := by
      rw [queue_size hinv hc q, ← Finset.sum_pair (Ne.symm hne)
        (f := fun p => waiting (q, p) es)]
      refine Finset.sum_le_sum_of_subset fun p hp' => ?_
      rcases Finset.mem_insert.mp hp' with rfl | hp'
      · exact Finset.mem_range.mpr hp
      · rw [Finset.mem_singleton.mp hp']
        exact Finset.mem_range.mpr hother
    omega
  · intro h q pri n hn
    unfold sizePri at hn
    split_ifs at hn with hr
    rw [← Option.some.inj hn, queue_size hinv hc q]
    rcases h with hone | hnone'
    · have hpri : pri = 0 := by
        have := hr.2.2
        omega
      have hnb : s.nbPriorities = 1 := by
        have := hr.2.2
        omega
      rw [hnb, hpri, Finset.sum_range_one]
    · have hzero : ∀ l, waiting l es = 0 := by
        intro l
        rw [hwait, hnone' l]
        rfl
      rw [hzero]
      exact Finset.sum_eq_zero fun p _ => hzero _

end Counts

end QueueingLogicPriRL

/-- **What the queues count.** Everything in every run of `QueueingLogicRL`. In a
run of `QueueingLogicPriRL` nothing is lost and queues are counted; the counts of
the priorities and the workers are right if nothing was popped yet, and there is
one priority or nothing was accepted. -/
theorem accounted_iff [Inhabited T] (pktDelay : ℕ → ℕ)
    (nbQueues nbWorkers capacity nbPriorities now : ℕ) (mapToWorker : ℕ → ℕ) :
    (∀ es (s : QueueingLogicRL T), RunIf (QueueingLogicRL.step pktDelay) (fun _ _ => True)
      (.create nbQueues nbWorkers capacity mapToWorker now) es s → s.Accounted es) ∧
    ∀ es (s : QueueingLogicPriRL T), RunIf (QueueingLogicPriRL.step pktDelay) (fun _ _ => True)
      (.create nbQueues nbWorkers capacity mapToWorker nbPriorities now) es s →
      s.Conserved es ∧ (s.Accounted es ↔ (∀ l, poppedFrom l es = []) ∧
        (nbPriorities ≤ 1 ∨ ∀ l, acceptedFor l es = [])) := by
  refine ⟨fun es s hrun => QueueingLogicRL.accounted hrun, fun es s hrun => ?_⟩
  obtain ⟨hinv, hc, hp⟩ := QueueingLogicPriRL.run_inv hrun
  have hconserved := QueueingLogicPriRL.conserved_of_inv hinv hc
  rw [← hp]
  refine ⟨hconserved, fun h => ?_, fun ⟨hnone, hpri⟩ => ?_⟩
  · have hnone := (QueueingLogicPriRL.worker_iff hinv hc).mp h.worker
    exact ⟨hnone, (QueueingLogicPriRL.sizePri_iff hinv hc hnone).mp h.sizePri⟩
  · exact ⟨hconserved, (QueueingLogicPriRL.sizePri_iff hinv hc hnone).mpr hpri,
      (QueueingLogicPriRL.worker_iff hinv hc).mpr hnone⟩

/-- A push and a pop without priorities, and a push to the only priority. -/
theorem accounted_push :
    (∃ s : QueueingLogicRL ℕ, (s.workersInfo 0).size = 0 ∧
      s.Accounted [accepted 0 7, popped 0 7]) ∧
    ∃ s : QueueingLogicPriRL ℕ, s.sizePri 0 0 = some 1 ∧ s.Accounted [accepted (0, 0) 7] := by
  have h := accounted_iff (T := ℕ) (fun _ => 0) 1 1 4 1 0 (fun _ => 0)
  have startRL : RunIf (QueueingLogicRL.step fun _ => 0) (fun _ _ => True)
      (.create 1 1 4 (fun _ => 0) 0 : QueueingLogicRL ℕ) [] _ := .nil _
  have startPriRL : RunIf (QueueingLogicPriRL.step fun _ => 0) (fun _ _ => True)
      (.create 1 1 4 (fun _ => 0) 1 0 : QueueingLogicPriRL ℕ) [] _ := .nil _
  have runRL := (startRL.snoc (r := .pushFront 0 0 7 0) trivial rfl).snoc
    (r := .popBack 0 0) trivial rfl
  have runPriRL := startPriRL.snoc (r := .pushFront 0 0 7 0) trivial rfl
  exact ⟨⟨_, rfl, h.1 _ _ runRL⟩,
    ⟨_, rfl, (h.2 _ _ runPriRL).2.mpr ⟨fun _ => rfl, .inl le_rfl⟩⟩⟩

/-- **An empty priority has the size of its queue**, and a worker with nothing left
counts the element it had. -/
theorem not_accounted :
    (∃ es s, RunIf (QueueingLogicPriRL.step fun _ => 0) (fun _ _ => True)
      (.create 1 1 4 (fun _ => 0) 2 0 : QueueingLogicPriRL ℕ) es s ∧
      s.sizePri 0 1 = some 1 ∧ waiting (0, 1) es = 0 ∧ ¬ s.Accounted es) ∧
    ∃ es s, RunIf (QueueingLogicPriRL.step fun _ => 0) (fun _ _ => True)
      (.create 1 1 4 (fun _ => 0) 1 0 : QueueingLogicPriRL ℕ) es s ∧
      (s.workersInfo 0).size = 1 ∧ (∀ l ∈ s.lanesOf 0, waiting l es = 0) ∧ ¬ s.Accounted es := by
  have start : ∀ nb, RunIf (QueueingLogicPriRL.step fun _ => 0) (fun _ _ => True)
      (.create 1 1 4 (fun _ => 0) nb 0 : QueueingLogicPriRL ℕ) [] _ := fun _ => .nil _
  have two := (start 2).snoc (r := .pushFront 0 0 7 0) trivial rfl
  have one := ((start 1).snoc (r := .pushFront 0 0 7 0) trivial rfl).snoc
    (r := .popBack 0 0) trivial rfl
  refine ⟨⟨_, _, two, rfl, rfl, fun h => ?_⟩, ⟨_, _, one, rfl, by decide, fun h => ?_⟩⟩
  · exact absurd (h.sizePri 0 1 1 rfl) (by decide)
  · exact absurd (h.worker 0 Nat.one_pos) (by decide)

end Queueing

end P4Bricks
