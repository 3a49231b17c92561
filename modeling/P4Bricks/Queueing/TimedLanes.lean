import P4Bricks.Queueing.Rated
/-!
# Lanes with a rate, and the times of their elements

The steps of `Rated` once more, with the time of leaving that each element is
given and the times at which rates are set. `TimedInv` says what the record of a
lane knows of the past: the last time given, and the delay of the last rate. From
it the times of a lane are spaced (`Spaced`), and elements leave at the times
they were given, never before (`Punctual`). Nothing is asked of the clock.
-/

namespace P4Bricks

namespace Queueing

/-- What a call does, with its times: an element is accepted and told when it may
leave, leaves, or lanes are given a rate, and with it a delay. -/
inductive Timed (κ T : Type*) where
  | accepted (lane : κ) (item : T) (send : ℕ)
  | popped (lane : κ) (item : T) (send now : ℕ)
  | rated (lanes : List κ) (delay : ℕ)

/-- A run of calls, with what they do. -/
inductive TimedRun {S R κ T : Type*} (step : S → R → Option (S × Option (Timed κ T))) :
    S → List (Timed κ T) → S → Prop where
  | nil (s) : TimedRun step s [] s
  | snoc {s₀ es s r s' e} (hrun : TimedRun step s₀ es s) (hstep : step s r = some (s', e)) :
      TimedRun step s₀ (es ++ e.toList) s'

/-- The event, without its times. -/
def Timed.event? {κ T : Type*} : Timed κ T → Option (Event κ T)
  | accepted lane item _ => some (.accepted lane item)
  | popped lane item _ _ => some (.popped lane item)
  | rated _ _ => none

theorem Timed.toList_filterMap_event {κ T : Type*} (e : Option (Timed κ T)) :
    e.toList.filterMap Timed.event? = (e.bind Timed.event?).toList := by
  rcases e with _ | ⟨_ | _ | _⟩ <;> rfl

namespace Timed

variable {κ T : Type*}

/-- An element of the lane is accepted, or its rate is set. -/
def Concerns (lane : κ) : Timed κ T → Prop
  | accepted l _ _ => l = lane
  | popped .. => False
  | rated lanes _ => lane ∈ lanes

variable [DecidableEq κ]

/-- The elements accepted for a lane, and when each may leave. -/
def acceptedFor (lane : κ) : List (Timed κ T) → List (T × ℕ) :=
  List.filterMap fun
    | accepted l item send => if l = lane then some (item, send) else none
    | _ => none

/-- The elements popped from a lane, and when each might leave. -/
def poppedFrom (lane : κ) : List (Timed κ T) → List (T × ℕ) :=
  List.filterMap fun
    | popped l item send _ => if l = lane then some (item, send) else none
    | _ => none

def delayAfter (lane : κ) (delay : ℕ) : Timed κ T → ℕ
  | rated lanes d => if lane ∈ lanes then d else delay
  | _ => delay

/-- The delay between the elements of a lane: that of its last rate, if any. -/
def delayOf (lane : κ) (es : List (Timed κ T)) : ℕ := es.foldl (delayAfter lane) 0

def sendAfter (lane : κ) (last : Option ℕ) : Timed κ T → Option ℕ
  | accepted l _ send => if l = lane then some send else last
  | _ => last

/-- The time given to the last element accepted for a lane. -/
def lastSend (lane : κ) (es : List (Timed κ T)) : Option ℕ := es.foldl (sendAfter lane) none

/-- Of two elements accepted for a lane one after the other, with no rate set
between, the second may leave a delay after the first, or later. -/
def Spaced (es : List (Timed κ T)) : Prop :=
  ∀ lane es₁ a ta es₂ b tb es₃,
    es = es₁ ++ accepted lane a ta :: (es₂ ++ accepted lane b tb :: es₃) →
    (∀ e ∈ es₂, ¬ e.Concerns lane) → ta + delayOf lane es₁ ≤ tb

/-- Elements leave with the times they were accepted with, and not before. -/
structure Punctual (es : List (Timed κ T)) : Prop where
  onTime : ∀ lane item send now, popped lane item send now ∈ es → send ≤ now
  sends : ∀ lane, (poppedFrom lane es : Multiset (T × ℕ)) ≤ acceptedFor lane es

end Timed

namespace QueueInfoRL

/-- A packet does not change the rate of its queue, -/
@[simp] theorem accept_pktDelayTicks (info : QueueInfoRL) (now : ℕ) :
    (info.accept now).pktDelayTicks = info.pktDelayTicks := rfl

/-- nor does one that leaves, -/
@[simp] theorem remove_pktDelayTicks (info : QueueInfoRL) :
    info.remove.pktDelayTicks = info.pktDelayTicks := rfl

/-- and the time of leaving that was given last stays. -/
@[simp] theorem remove_lastSent (info : QueueInfoRL) : info.remove.lastSent = info.lastSent := rfl

end QueueInfoRL

/-! ## One event more -/

namespace Timed

variable {κ T : Type*} [DecidableEq κ]

/-- The delay after one event more. -/
theorem delayOf_snoc (lane : κ) (es : List (Timed κ T)) (e : Timed κ T) :
    delayOf lane (es ++ [e]) = delayAfter lane (delayOf lane es) e := List.foldl_concat ..

/-- The last time of leaving after one event more. -/
theorem lastSend_snoc (lane : κ) (es : List (Timed κ T)) (e : Timed κ T) :
    lastSend lane (es ++ [e]) = sendAfter lane (lastSend lane es) e := List.foldl_concat ..

/-- What is accepted is accepted in order, -/
theorem acceptedFor_append (lane : κ) (es es' : List (Timed κ T)) :
    acceptedFor lane (es ++ es') = acceptedFor lane es ++ acceptedFor lane es' :=
  List.filterMap_append

/-- and what is popped is popped in order. -/
theorem poppedFrom_append (lane : κ) (es es' : List (Timed κ T)) :
    poppedFrom lane (es ++ es') = poppedFrom lane es ++ poppedFrom lane es' :=
  List.filterMap_append

/-- A packet is accepted in its lane, and in no other. -/
@[simp] theorem acceptedFor_accepted (lane l : κ) (item : T) (send : ℕ) :
    acceptedFor lane [accepted l item send] = if l = lane then [(item, send)] else [] := by
  unfold acceptedFor
  by_cases h : l = lane
  · simp [h]
  · simp [h]

/-- Nothing is accepted where a packet leaves, -/
@[simp] theorem acceptedFor_popped (lane l : κ) (item : T) (send now : ℕ) :
    acceptedFor lane [popped l item send now] = [] := rfl

/-- or a rate is set. -/
@[simp] theorem acceptedFor_rated (lane : κ) (lanes : List κ) (delay : ℕ) :
    acceptedFor lane [(rated lanes delay : Timed κ T)] = [] := rfl

/-- Nothing leaves where a packet is accepted. -/
@[simp] theorem poppedFrom_accepted (lane l : κ) (item : T) (send : ℕ) :
    poppedFrom lane [accepted l item send] = [] := rfl

/-- A packet leaves from its lane, and from no other. -/
@[simp] theorem poppedFrom_popped (lane l : κ) (item : T) (send now : ℕ) :
    poppedFrom lane [popped l item send now] = if l = lane then [(item, send)] else [] := by
  unfold poppedFrom
  by_cases h : l = lane
  · simp [h]
  · simp [h]

/-- Nothing leaves where a rate is set. -/
@[simp] theorem poppedFrom_rated (lane : κ) (lanes : List κ) (delay : ℕ) :
    poppedFrom lane [(rated lanes delay : Timed κ T)] = [] := rfl

/-- An event of other lanes leaves the delay of this one, -/
theorem delayAfter_of_not_concerns {lane : κ} {e : Timed κ T} (h : ¬ e.Concerns lane) (delay : ℕ) :
    delayAfter lane delay e = delay := by
  cases e with
  | accepted | popped => rfl
  | rated lanes d => exact if_neg h

/-- and the time of leaving that was given last. -/
theorem sendAfter_of_not_concerns {lane : κ} {e : Timed κ T} (h : ¬ e.Concerns lane)
    (last : Option ℕ) : sendAfter lane last e = last := by
  cases e with
  | accepted l item send => exact if_neg h
  | popped | rated => rfl

/-- Events of other lanes leave the delay of this one. -/
theorem delayOf_append {lane : κ} (es : List (Timed κ T)) {es' : List (Timed κ T)}
    (h : ∀ e ∈ es', ¬ e.Concerns lane) : delayOf lane (es ++ es') = delayOf lane es := by
  induction es' using List.reverseRecOn with
  | nil => rw [List.append_nil]
  | append_singleton es' e ih =>
    rw [← List.append_assoc, delayOf_snoc,
      delayAfter_of_not_concerns (h e (List.mem_append_right _ (List.mem_singleton_self e)))]
    exact ih fun e he => h e (List.mem_append_left _ he)

/-- Events of other lanes leave the last time of leaving. -/
theorem lastSend_append {lane : κ} (es : List (Timed κ T)) {es' : List (Timed κ T)}
    (h : ∀ e ∈ es', ¬ e.Concerns lane) : lastSend lane (es ++ es') = lastSend lane es := by
  induction es' using List.reverseRecOn with
  | nil => rw [List.append_nil]
  | append_singleton es' e ih =>
    rw [← List.append_assoc, lastSend_snoc,
      sendAfter_of_not_concerns (h e (List.mem_append_right _ (List.mem_singleton_self e)))]
    exact ih fun e he => h e (List.mem_append_left _ he)

/-- Each element may leave a delay after the last one accepted before it, for the
delay that is set then. -/
def Follows (es : List (Timed κ T)) : Prop :=
  ∀ lane es₁ b tb es₂, es = es₁ ++ accepted lane b tb :: es₂ →
    ∀ ta, lastSend lane es₁ = some ta → ta + delayOf lane es₁ ≤ tb

/-- There is nothing to follow at the start. -/
theorem Follows.nil : Follows ([] : List (Timed κ T)) := by
  intro lane es₁ b tb es₂ h
  simp at h

/-- The times still follow each other after one event more, if what is accepted leaves
late enough after the last. -/
theorem Follows.snoc {es : List (Timed κ T)} (h : Follows es) {e : Timed κ T}
    (he : ∀ lane b tb, e = accepted lane b tb →
      ∀ ta, lastSend lane es = some ta → ta + delayOf lane es ≤ tb) : Follows (es ++ [e]) := by
  intro lane es₁ b tb es₂ heq
  rcases List.eq_nil_or_concat' es₂ with rfl | ⟨es₂, e', rfl⟩
  · obtain ⟨rfl, hlast⟩ := List.append_inj' heq rfl
    exact he lane b tb (List.singleton_inj.mp hlast)
  · rw [← List.cons_append, ← List.append_assoc] at heq
    exact h lane es₁ b tb es₂ (List.append_inj' heq rfl).1

/-- With no rate set between, the delay is the one set before both. -/
theorem Follows.spaced {es : List (Timed κ T)} (h : Follows es) : Spaced es := by
  intro lane es₁ a ta es₂ b tb es₃ heq hes₂
  rw [← List.cons_append, ← List.append_assoc, List.append_cons es₁] at heq
  have hfollows := h lane (es₁ ++ [accepted lane a ta] ++ es₂) b tb es₃ heq ta
  rw [lastSend_append _ hes₂, lastSend_snoc, delayOf_append _ hes₂, delayOf_snoc] at hfollows
  exact hfollows (if_pos rfl)

end Timed

open Timed

variable {κ ι T : Type*} [DecidableEq κ] [DecidableEq ι]

namespace Rated

variable (L : Layout κ ι)

/-- What a call may do, and when. -/
inductive TimedStep : Rated κ ι T → Option (Timed κ T) → Rated κ ι T → Prop where
  | push (s) {l item now} (hl : l ∈ L.lanes) :
      TimedStep s (some (.accepted l item ((s.infos l).getNextTp now)))
        ⟨Function.update s.infos l ((s.infos l).accept now),
          Function.update s.heaps (L.home l) ((s.heaps (L.home l)).push QE.send
            ⟨item, L.queueOf l, (s.infos l).getNextTp now⟩)⟩
  | pop (s) {i qe now} (hfront : (s.heaps i).front? = some qe) (hnow : qe.send ≤ now) :
      TimedStep s (some (.popped (L.laneAt i qe.queueId) qe.e qe.send now))
        ⟨Function.update s.infos (L.laneAt i qe.queueId)
            (s.infos (L.laneAt i qe.queueId)).remove,
          Function.update s.heaps i ((s.heaps i).pop QE.send)⟩
  | rate (s) {infos lanes delay} (hsize : ∀ l, (infos l).size = (s.infos l).size)
      (hsent : ∀ l, (infos l).lastSent = (s.infos l).lastSent)
      (hdelay : ∀ l ∈ L.lanes,
        (infos l).pktDelayTicks = if l ∈ lanes then delay else (s.infos l).pktDelayTicks) :
      TimedStep s (some (.rated lanes delay)) ⟨infos, s.heaps⟩
  | adjust (s) {infos} (hsize : ∀ l, (infos l).size = (s.infos l).size)
      (hsent : ∀ l, (infos l).lastSent = (s.infos l).lastSent)
      (hdelay : ∀ l ∈ L.lanes, (infos l).pktDelayTicks = (s.infos l).pktDelayTicks) :
      TimedStep s none ⟨infos, s.heaps⟩

omit [DecidableEq ι] in
/-- A record that reads as the one it replaces. -/
theorem read_update {β : Type*} (f : QueueInfoRL → β) {infos : κ → QueueInfoRL} {l : κ}
    {info : QueueInfoRL} (hf : f info = f (infos l)) (l' : κ) :
    f (Function.update infos l info l') = f (infos l') := by
  rcases eq_or_ne l' l with rfl | hne
  · rwa [Function.update_self]
  · rw [Function.update_of_ne hne]

variable {L} {s s' : Rated κ ι T} {es : List (Timed κ T)} {e : Option (Timed κ T)}

/-- Without its times, it is a step of the lanes. -/
theorem TimedStep.step (h : TimedStep L s e s') :
    Step L (fun _ _ _ => True) s (e.bind Timed.event?) s' := by
  cases h with
  | push hl => exact .push s hl trivial
  | pop hfront _ => exact .pop s hfront
  | rate hsize hsent _ => exact .adjust s hsize hsent
  | adjust hsize hsent _ => exact .adjust s hsize hsent

/-- What waits of a lane waits with the times given, and the record of a lane
knows the last one and the delay of the last rate. -/
structure TimedInv (L : Layout κ ι) (s : Rated κ ι T) (es : List (Timed κ T)) : Prop where
  inv : Inv L s (es.filterMap Timed.event?)
  sends : ∀ l, (acceptedFor l es : Multiset (T × ℕ)) =
    poppedFrom l es + (s.held L l).map fun qe => (qe.e, qe.send)
  last : ∀ l t, lastSend l es = some t → (s.infos l).lastSent = t
  delay : ∀ l ∈ L.lanes, (s.infos l).pktDelayTicks = delayOf l es
  onTime : ∀ l item send now, popped l item send now ∈ es → send ≤ now
  follows : Follows es

omit [DecidableEq ι] in
/-- New queues keep to their times. -/
theorem TimedInv.empty [Inhabited T] {infos : κ → QueueInfoRL} (hsize : ∀ l, (infos l).size = 0)
    (hdelay : ∀ l, (infos l).pktDelayTicks = 0) :
    TimedInv L (⟨infos, fun _ => .empty⟩ : Rated κ ι T) [] where
  inv := .empty hsize
  sends _ := rfl
  last _ _ h := absurd h (by simp [lastSend])
  delay l _ := hdelay l
  onTime _ _ _ _ h := absurd h List.not_mem_nil
  follows := .nil

omit [DecidableEq ι] in
/-- **No packet leaves before its time.** -/
theorem TimedInv.punctual (h : TimedInv L s es) : Punctual es :=
  ⟨h.onTime, fun l => (Multiset.le_add_right ..).trans_eq (h.sends l).symm⟩

namespace TimedInv

variable (h : TimedInv L s es)
include h

omit [DecidableEq ι] in
/-- An event other than a pop is no pop too early. -/
theorem onTime_snoc {x : Timed κ T} (hx : ∀ l item send now, x = popped l item send now → send ≤ now)
    (l : κ) (item : T) (send now : ℕ) (hmem : popped l item send now ∈ es ++ [x]) : send ≤ now := by
  rcases List.mem_append.mp hmem with hmem | hmem
  · exact h.onTime l item send now hmem
  · exact hx l item send now (List.mem_singleton.mp hmem).symm

/-- A packet that is accepted is given its time from the last one and the rate of its
lane. -/
theorem push {l : κ} (hl : l ∈ L.lanes) (item : T) (now : ℕ)
    (hinv : Inv L ⟨Function.update s.infos l ((s.infos l).accept now),
      Function.update s.heaps (L.home l) ((s.heaps (L.home l)).push QE.send
        ⟨item, L.queueOf l, (s.infos l).getNextTp now⟩)⟩
      ((es ++ [accepted l item ((s.infos l).getNextTp now)]).filterMap Timed.event?)) :
    TimedInv L ⟨Function.update s.infos l ((s.infos l).accept now),
      Function.update s.heaps (L.home l) ((s.heaps (L.home l)).push QE.send
        ⟨item, L.queueOf l, (s.infos l).getNextTp now⟩)⟩
      (es ++ [accepted l item ((s.infos l).getNextTp now)]) := by
  have hheld := held_push s l ⟨item, L.queueOf l, (s.infos l).getNextTp now⟩
    (Function.update s.infos l ((s.infos l).accept now)) rfl
  refine ⟨hinv, fun l' => ?_, fun l' t ht => ?_, fun l' hl' => ?_, ?_, ?_⟩
  · rw [hheld, acceptedFor_append, poppedFrom_append, ← Multiset.coe_add, ← Multiset.coe_add,
      h.sends l', acceptedFor_accepted, poppedFrom_accepted, Multiset.coe_nil, add_zero]
    by_cases hl' : l' = l
    · subst hl'
      rw [Function.update_self, Multiset.map_cons, if_pos rfl, add_assoc, add_comm (Multiset.map ..)]
      rfl
    · rw [Function.update_of_ne hl', if_neg (Ne.symm hl'), Multiset.coe_nil, add_zero]
  · rw [lastSend_snoc, sendAfter] at ht
    by_cases hl' : l' = l
    · subst hl'
      rw [if_pos rfl] at ht
      simp only [Function.update_self]
      exact Option.some.inj ht
    · rw [if_neg (Ne.symm hl')] at ht
      simp only [Function.update_of_ne hl']
      exact h.last l' t ht
  · rw [delayOf_snoc]
    exact (read_update _ ((s.infos l).accept_pktDelayTicks now) l').trans (h.delay l' hl')
  · exact h.onTime_snoc fun _ _ _ _ heq => by cases heq
  · refine h.follows.snoc fun lane b tb heq ta hta => ?_
    -- The time given is the last one and the delay, if the clock is not beyond.
    cases heq
    rw [← h.last _ ta hta, ← h.delay _ hl]
    exact le_max_right ..

/-- A packet that leaves is the first of its heap, and its time has come. -/
theorem pop {i : ι} {qe : QE T} {now : ℕ} (hfront : (s.heaps i).front? = some qe)
    (hnow : qe.send ≤ now)
    (hinv : Inv L ⟨Function.update s.infos (L.laneAt i qe.queueId)
        (s.infos (L.laneAt i qe.queueId)).remove,
      Function.update s.heaps i ((s.heaps i).pop QE.send)⟩
      ((es ++ [popped (L.laneAt i qe.queueId) qe.e qe.send now]).filterMap Timed.event?)) :
    TimedInv L ⟨Function.update s.infos (L.laneAt i qe.queueId)
        (s.infos (L.laneAt i qe.queueId)).remove,
      Function.update s.heaps i ((s.heaps i).pop QE.send)⟩
      (es ++ [popped (L.laneAt i qe.queueId) qe.e qe.send now]) := by
  have hheld := held_pop h.inv.served hfront (Function.update s.infos (L.laneAt i qe.queueId)
    (s.infos (L.laneAt i qe.queueId)).remove)
  refine ⟨hinv, fun l => ?_, fun l t ht => ?_, fun l hl => ?_, ?_, ?_⟩
  · rw [acceptedFor_append, poppedFrom_append, ← Multiset.coe_add, ← Multiset.coe_add,
      h.sends l, hheld l, acceptedFor_popped, poppedFrom_popped, Multiset.coe_nil, add_zero]
    by_cases hl : L.laneAt i qe.queueId = l
    · simp only [if_pos hl, Multiset.map_cons]
      rw [add_assoc]
      rfl
    · simp only [if_neg hl, Multiset.coe_nil, add_zero]
  · rw [lastSend_snoc] at ht
    exact (read_update _ (QueueInfoRL.remove_lastSent _) l).trans (h.last l t ht)
  · rw [delayOf_snoc]
    exact (read_update _ (QueueInfoRL.remove_pktDelayTicks _) l).trans (h.delay l hl)
  · refine h.onTime_snoc fun _ _ _ _ heq => ?_
    cases heq
    exact hnow
  · exact h.follows.snoc fun _ _ _ heq => by cases heq

omit [DecidableEq ι] in
/-- A new rate is for the packets that come: those that wait keep their times. -/
theorem rate {infos : κ → QueueInfoRL} {lanes : List κ} {delay : ℕ}
    (hsent : ∀ l, (infos l).lastSent = (s.infos l).lastSent)
    (hdelay : ∀ l ∈ L.lanes,
      (infos l).pktDelayTicks = if l ∈ lanes then delay else (s.infos l).pktDelayTicks)
    (hinv : Inv L ⟨infos, s.heaps⟩ ((es ++ [rated lanes delay]).filterMap Timed.event?)) :
    TimedInv L ⟨infos, s.heaps⟩ (es ++ [rated lanes delay]) := by
  refine ⟨hinv, fun l => ?_, fun l t ht => ?_, fun l hl => ?_, ?_, ?_⟩
  · rw [acceptedFor_append, poppedFrom_append, acceptedFor_rated, poppedFrom_rated,
      List.append_nil, List.append_nil]
    exact h.sends l
  · rw [lastSend_snoc] at ht
    exact (hsent l).trans (h.last l t ht)
  · rw [delayOf_snoc, delayAfter, ← h.delay l hl]
    exact hdelay l hl
  · exact h.onTime_snoc fun _ _ _ _ heq => by cases heq
  · exact h.follows.snoc fun _ _ _ heq => by cases heq

/-- **One step** keeps the times. -/
theorem step (hstep : TimedStep L s e s') : TimedInv L s' (es ++ e.toList) := by
  have hinv : Inv L s' ((es ++ e.toList).filterMap Timed.event?) := by
    rw [List.filterMap_append, toList_filterMap_event]
    exact h.inv.step hstep.step
  cases hstep with
  | push hl => exact h.push hl _ _ hinv
  | pop hfront hnow => exact h.pop hfront hnow hinv
  | rate _ hsent hdelay => exact h.rate hsent hdelay hinv
  | adjust _ hsent hdelay =>
    rw [Option.toList_none, List.append_nil] at hinv ⊢
    exact ⟨hinv, h.sends, fun l t ht => (hsent l).trans (h.last l t ht),
      fun l hl => (hdelay l hl).trans (h.delay l hl), h.onTime, h.follows⟩

end TimedInv

end Rated

end Queueing

end P4Bricks
