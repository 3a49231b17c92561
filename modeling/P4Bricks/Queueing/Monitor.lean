import P4Bricks.Common.Runs
import P4Bricks.Common.Wakeups
import P4Bricks.Queueing.Queue
/-!
# The lock of a queue

`queue.h`: any number of threads push and pop under a mutex, sleep on a condition
variable where they cannot, and notify one sleeper of the other kind after they have
let go of the mutex. A thread may also wake without a notice.

Each call takes effect at once, at one point of its time, and elements come out in the
order they went in (`served`). Where all threads are at rest, each that sleeps is one
whose call has to wait (`sleepers_wait`), so a queue can be taken for one whose calls
happen at once or not yet. But a larger capacity is announced to no one.
-/

namespace P4Bricks

namespace Queueing

open Wakeups

/-! ## Threads -/

/-- Where a thread is in a call: it wants the mutex, sleeps, or has let go of the mutex
and is about to notify. -/
inductive Call (T : Type*) where
  | idle
  | pushing (item : T)
  | pushAsleep (item : T)
  | pushed
  | popping
  | popAsleep
  | popped (item : T)
  deriving DecidableEq, Repr

inductive CallKind where
  | idle
  | pushing
  | pushAsleep
  | pushed
  | popping
  | popAsleep
  | popped
  deriving DecidableEq, Repr

def Call.kind {T : Type*} : Call T → CallKind
  | .idle => .idle
  | .pushing _ => .pushing
  | .pushAsleep _ => .pushAsleep
  | .pushed => .pushed
  | .popping => .popping
  | .popAsleep => .popAsleep
  | .popped _ => .popped

/-- What is seen of a queue. A push to a full queue may be ignored. -/
inductive QueueEvent (T : Type*) where
  | pushed (item : T)
  | ignored (item : T)
  | popped (item : T)
  | resized (c : ℕ)
  deriving DecidableEq, Repr

/-- A queue with its mutex, and the threads. -/
structure Monitor (ι T : Type*) where
  q : Queue T
  threads : ι → Call T

namespace Monitor

inductive Label (ι T : Type*) where
  | pushFront (i : ι) (item : T)
  | popBack (i : ι)
  | enter (i : ι)
  | notify (i : ι) (woken : Option ι)
  | wake (i : ι)
  | setCapacity (c : ℕ)

variable {ι T : Type*} [Fintype ι] [DecidableEq ι]

def create (capacity : ℕ) (wb : WriteBehavior) : Monitor ι T := ⟨.create capacity wb, fun _ => .idle⟩

section
variable (s : Monitor ι T)

def goOn (i : ι) (call : Call T) : Monitor ι T :=
  { s with threads := Function.update s.threads i call }

/-- The threads in calls of a kind. -/
def count (k : CallKind) : ℕ := population Call.kind s.threads k

/-- A thread that is in no call begins one. -/
def call (i : ι) (c : Call T) : Option (Monitor ι T) :=
  match s.threads i with
  | .idle => some (s.goOn i c)
  | _ => none

/-- What a thread does while it has the mutex: one look at the queue. -/
def enter (i : ι) : Option (Monitor ι T × List (QueueEvent T)) :=
  match s.threads i with
  | .pushing item =>
    if s.q.isNotFull then
      some (goOn { s with q := { s.q with queue := item :: s.q.queue } } i .pushed, [.pushed item])
    else
      match s.q.wb with
      | .writeReturn => some (s.goOn i .idle, [.ignored item])
      | .writeBlock => some (s.goOn i (.pushAsleep item), [])
  | .popping =>
    match s.q.popBack with
    | none => some (s.goOn i .popAsleep, [])
    | some (item, q) => some (goOn { s with q := q } i (.popped item), [.popped item])
  | _ => none

/-- `notify_one`, after which the call returns. One of the sleepers is woken, if there
are any. -/
def notify (i : ι) (woken : Option ι) : Option (Monitor ι T) :=
  match s.threads i, woken with
  | .pushed, none => if s.count .popAsleep = 0 then some (s.goOn i .idle) else none
  | .pushed, some j =>
    match s.threads j with
    | .popAsleep => some ((s.goOn i .idle).goOn j .popping)
    | _ => none
  | .popped _, none => if s.count .pushAsleep = 0 then some (s.goOn i .idle) else none
  | .popped _, some j =>
    match s.threads j with
    | .pushAsleep item => some ((s.goOn i .idle).goOn j (.pushing item))
    | _ => none
  | _, _ => none

/-- A thread that wakes looks again. -/
def wake (i : ι) : Option (Monitor ι T) :=
  match s.threads i with
  | .pushAsleep item => some (s.goOn i (.pushing item))
  | .popAsleep => some (s.goOn i .popping)
  | _ => none

def step : Label ι T → Option (Monitor ι T × List (QueueEvent T))
  | .pushFront i item => (s.call i (.pushing item)).map (·, [])
  | .popBack i => (s.call i .popping).map (·, [])
  | .enter i => s.enter i
  | .notify i woken => (s.notify i woken).map (·, [])
  | .wake i => (s.wake i).map (·, [])
  | .setCapacity c => some ({ s with q := s.q.setCapacity c }, [.resized c])

end

/-- A step, with what was seen before it. -/
def stepLog (r : Monitor ι T × List (QueueEvent T)) (l : Label ι T) :
    Option (Monitor ι T × List (QueueEvent T)) :=
  (r.1.step l).map fun r' => (r'.1, r.2 ++ r'.2)

def RunsTo (capacity : ℕ) (wb : WriteBehavior) (labels : List (Label ι T)) (s : Monitor ι T)
    (es : List (QueueEvent T)) : Prop :=
  Runs.run stepLog (create capacity wb, []) labels = some (s, es)

end Monitor

/-! ## One call after the other -/

/-- What is seen of a queue whose calls happen at once. -/
def Queue.Serves {T : Type*} (q : Queue T) : QueueEvent T → Queue T → Prop
  | .pushed item, q' => q.isNotFull = true ∧ q.pushFront item = some q'
  | .ignored item, q' => q.isNotFull = false ∧ q.pushFront item = some q'
  | .popped item, q' => q.popBack = some (item, q')
  | .resized c, q' => q' = q.setCapacity c

def Queue.ServesAll {T : Type*} (q : Queue T) : List (QueueEvent T) → Queue T → Prop
  | [], q' => q = q'
  | e :: es, q' => ∃ q₁, q.Serves e q₁ ∧ q₁.ServesAll es q'

namespace Monitor

section
variable {T : Type*} {q q' q'' : Queue T} {e : QueueEvent T} {es es' : List (QueueEvent T)}

theorem servesAll_append (h : q.ServesAll es q') (h' : q'.ServesAll es' q'') :
    q.ServesAll (es ++ es') q'' := by
  induction es generalizing q with
  | nil =>
    obtain rfl : q = q' := h
    exact h'
  | cons e es ih =>
    obtain ⟨q₁, he, hes⟩ := h
    exact ⟨q₁, he, ih hes⟩

/-- The elements that went in, and those that came out. -/
def accepted : List (QueueEvent T) → List T :=
  List.filterMap fun
    | .pushed item => some item
    | _ => none

def taken : List (QueueEvent T) → List T :=
  List.filterMap fun
    | .popped item => some item
    | _ => none

/-- **In order**: what came out and what is in the queue is what was in it and what went in. -/
theorem accepted_of_servesAll (h : q.ServesAll es q') :
    taken es ++ q'.queue.reverse = q.queue.reverse ++ accepted es := by
  induction es generalizing q with
  | nil =>
    obtain rfl : q = q' := h
    exact (List.append_nil _).symm
  | cons e es ih =>
    obtain ⟨q₁, he, hes⟩ := h
    have hrest := ih hes
    cases e with
    | pushed item =>
      obtain ⟨hroom, hpush⟩ := he
      unfold Queue.pushFront at hpush
      rw [if_pos hroom] at hpush
      obtain rfl := Option.some.inj hpush
      change taken es ++ _ = q.queue.reverse ++ item :: accepted es
      rw [hrest, List.reverse_cons, List.append_assoc]
      rfl
    | ignored item =>
      obtain ⟨hfull, hpush⟩ := he
      unfold Queue.pushFront at hpush
      rw [if_neg (by rw [hfull]; exact Bool.false_ne_true)] at hpush
      split at hpush
      · obtain rfl := Option.some.inj hpush
        exact hrest
      · cases hpush
    | popped item =>
      obtain ⟨hqueue, -, -⟩ := Queue.popBack_eq_some he
      change item :: taken es ++ _ = _ ++ accepted es
      rw [List.cons_append, hrest, hqueue, List.reverse_append]
      rfl
    | resized c =>
      obtain rfl : q₁ = q.setCapacity c := he
      exact hrest

end

variable {ι T : Type*} [Fintype ι] [DecidableEq ι] {s s' : Monitor ι T} {l : Label ι T}
  {es : List (QueueEvent T)} {i : ι}

/-- **What one step does.** -/
inductive Does (s : Monitor ι T) : Label ι T → Monitor ι T → List (QueueEvent T) → Prop where
  | callPush {i : ι} (item : T) (hi : s.threads i = .idle) :
      Does s (.pushFront i item) (s.goOn i (.pushing item)) []
  | callPop {i : ι} (hi : s.threads i = .idle) : Does s (.popBack i) (s.goOn i .popping) []
  | push {i : ι} {item : T} (hi : s.threads i = .pushing item) (hroom : s.q.isNotFull = true) :
      Does s (.enter i) (goOn { s with q := { s.q with queue := item :: s.q.queue } } i .pushed)
        [.pushed item]
  | ignore {i : ι} {item : T} (hi : s.threads i = .pushing item) (hfull : s.q.isNotFull = false)
      (hwb : s.q.wb = .writeReturn) : Does s (.enter i) (s.goOn i .idle) [.ignored item]
  | pushSleep {i : ι} {item : T} (hi : s.threads i = .pushing item) (hfull : s.q.isNotFull = false)
      (hwb : s.q.wb = .writeBlock) : Does s (.enter i) (s.goOn i (.pushAsleep item)) []
  | pop {i : ι} {item : T} {q : Queue T} (hi : s.threads i = .popping)
      (hpop : s.q.popBack = some (item, q)) :
      Does s (.enter i) (goOn { s with q := q } i (.popped item)) [.popped item]
  | popSleep {i : ι} (hi : s.threads i = .popping) (hpop : s.q.popBack = none) :
      Does s (.enter i) (s.goOn i .popAsleep) []
  | pushedNone {i : ι} (hi : s.threads i = .pushed) (hnone : s.count .popAsleep = 0) :
      Does s (.notify i none) (s.goOn i .idle) []
  | pushedWake {i j : ι} (hi : s.threads i = .pushed) (hj : s.threads j = .popAsleep) :
      Does s (.notify i (some j)) ((s.goOn i .idle).goOn j .popping) []
  | poppedNone {i : ι} {item : T} (hi : s.threads i = .popped item)
      (hnone : s.count .pushAsleep = 0) : Does s (.notify i none) (s.goOn i .idle) []
  | poppedWake {i j : ι} {item item' : T} (hi : s.threads i = .popped item)
      (hj : s.threads j = .pushAsleep item') :
      Does s (.notify i (some j)) ((s.goOn i .idle).goOn j (.pushing item')) []
  | pushWake {i : ι} {item : T} (hi : s.threads i = .pushAsleep item) :
      Does s (.wake i) (s.goOn i (.pushing item)) []
  | popWake {i : ι} (hi : s.threads i = .popAsleep) : Does s (.wake i) (s.goOn i .popping) []
  | resize (c : ℕ) : Does s (.setCapacity c) { s with q := s.q.setCapacity c } [.resized c]

theorem enter_does (h : s.enter i = some (s', es)) : s.Does (.enter i) s' es := by
  unfold enter at h
  split at h
  · next item hi =>
    split_ifs at h with hroom
    · obtain ⟨rfl, rfl⟩ := Prod.mk.inj (Option.some.inj h)
      exact .push hi hroom
    · have hfull : s.q.isNotFull = false := by simpa using hroom
      split at h
      · next hwb =>
        obtain ⟨rfl, rfl⟩ := Prod.mk.inj (Option.some.inj h)
        exact .ignore hi hfull hwb
      · next hwb =>
        obtain ⟨rfl, rfl⟩ := Prod.mk.inj (Option.some.inj h)
        exact .pushSleep hi hfull hwb
  · next hi =>
    split at h
    · next hpop =>
      obtain ⟨rfl, rfl⟩ := Prod.mk.inj (Option.some.inj h)
      exact .popSleep hi hpop
    · next item q hpop =>
      obtain ⟨rfl, rfl⟩ := Prod.mk.inj (Option.some.inj h)
      exact .pop hi hpop
  · cases h

theorem notify_does {woken : Option ι} (h : s.notify i woken = some s') :
    s.Does (.notify i woken) s' [] := by
  unfold notify at h
  split at h
  · next hi =>
    split_ifs at h with hnone
    obtain rfl := Option.some.inj h
    exact .pushedNone hi hnone
  · next j hi =>
    split at h
    · next hj =>
      obtain rfl := Option.some.inj h
      exact .pushedWake hi hj
    · cases h
  · next item hi =>
    split_ifs at h with hnone
    obtain rfl := Option.some.inj h
    exact .poppedNone hi hnone
  · next item j hi =>
    split at h
    · next item' hj =>
      obtain rfl := Option.some.inj h
      exact .poppedWake hi hj
    · cases h
  · cases h

theorem wake_does (h : s.wake i = some s') : s.Does (.wake i) s' [] := by
  unfold wake at h
  split at h
  · next item hi =>
    obtain rfl := Option.some.inj h
    exact .pushWake hi
  · next hi =>
    obtain rfl := Option.some.inj h
    exact .popWake hi
  · cases h

omit [Fintype ι] in
theorem call_eq_some {c : Call T} (h : s.call i c = some s') :
    s.threads i = .idle ∧ s' = s.goOn i c := by
  unfold call at h
  split at h
  · next hi => exact ⟨hi, (Option.some.inj h).symm⟩
  · cases h

theorem step_does (h : s.step l = some (s', es)) : s.Does l s' es := by
  have hquiet : ∀ {r : Option (Monitor ι T)}, r.map (·, []) = some (s', es) →
      r = some s' ∧ es = [] := by
    intro r hr
    obtain ⟨s₁, hs₁, heq⟩ := Option.map_eq_some_iff.mp hr
    obtain ⟨rfl, rfl⟩ := Prod.mk.inj heq
    exact ⟨hs₁, rfl⟩
  cases l with
  | pushFront i item =>
    obtain ⟨hs', rfl⟩ := hquiet h
    obtain ⟨hi, rfl⟩ := call_eq_some hs'
    exact .callPush item hi
  | popBack i =>
    obtain ⟨hs', rfl⟩ := hquiet h
    obtain ⟨hi, rfl⟩ := call_eq_some hs'
    exact .callPop hi
  | enter i => exact enter_does h
  | notify i woken =>
    obtain ⟨hs', rfl⟩ := hquiet h
    exact notify_does hs'
  | wake i =>
    obtain ⟨hs', rfl⟩ := hquiet h
    exact wake_does hs'
  | setCapacity c =>
    obtain ⟨rfl, rfl⟩ := Prod.mk.inj (Option.some.inj h)
    exact .resize c

/-- A step is one call of a queue whose calls happen at once, or none. -/
theorem Does.serves (h : s.Does l s' es) : s.q.ServesAll es s'.q := by
  cases h with
  | push hi hroom =>
    refine ⟨_, ⟨hroom, ?_⟩, rfl⟩
    unfold Queue.pushFront
    rw [if_pos hroom]
    rfl
  | ignore hi hfull hwb =>
    refine ⟨_, ⟨hfull, ?_⟩, rfl⟩
    unfold Queue.pushFront
    rw [if_neg (by rw [hfull]; exact Bool.false_ne_true), hwb]
    rfl
  | pop hi hpop => exact ⟨_, hpop, rfl⟩
  | resize c => exact ⟨_, rfl, rfl⟩
  | _ => rfl

/-! ## Sleepers -/

/-- What the threads that pop look for. -/
def items (s : Monitor ι T) : Balance :=
  ⟨s.q.queue.length, s.count .popping, s.count .pushed, s.count .popAsleep⟩

/-- What the threads that push look for. -/
def slots (s : Monitor ι T) : Balance :=
  ⟨s.q.capacity - s.q.queue.length, s.count .pushing, s.count .popped, s.count .pushAsleep⟩

section
variable {c c₀ : Call T} {k : CallKind}

/-- A thread leaves the calls of a kind. -/
theorem count_leave (hi : s.threads i = c₀) (hk : c₀.kind = k) (hne : c.kind ≠ k) :
    (s.goOn i c).count k + 1 = s.count k := by
  have hleave := population_leave (congrArg Call.kind hi) (rfl : c.kind = _) (hk ▸ hne)
  rwa [hk] at hleave

/-- A thread joins the calls of a kind. -/
theorem count_join (hi : s.threads i = c₀) (hk : c.kind = k) (hne : c₀.kind ≠ k) :
    (s.goOn i c).count k = s.count k + 1 := by
  have hjoin := population_join (congrArg Call.kind hi) (rfl : c.kind = _) (hk ▸ hne)
  rwa [hk] at hjoin

theorem count_other (hi : s.threads i = c₀) (h₀ : c₀.kind ≠ k) (hc : c.kind ≠ k) :
    (s.goOn i c).count k = s.count k :=
  population_other (congrArg Call.kind hi) rfl h₀ hc

omit [Fintype ι] in
/-- Another thread than the one that goes on. -/
theorem threads_goOn {j : ι} (hi : s.threads i = c₀) (hj : s.threads j = c) (hne : c ≠ c₀)
    (c' : Call T) : (s.goOn i c').threads j = c := by
  have hji : j ≠ i := by
    rintro rfl
    exact hne (hj.symm.trans hi)
  exact (Function.update_of_ne hji _ _).trans hj

/-- A notice: the thread that gives it is idle, and one that slept looks again. -/
theorem count_wake {j : ι} {c₁ : Call T} {n a : CallKind} (hi : s.threads i = c₀)
    (hj : s.threads j = c₁) (h₀ : c₀.kind = n) (h₁ : c₁.kind = a) (hc : c.kind = k) (hna : n ≠ a)
    (hka : k ≠ a) (hkn : k ≠ n) (hidle : k ≠ .idle ∧ n ≠ .idle ∧ a ≠ .idle) :
    ((s.goOn i .idle).goOn j c).count k = s.count k + 1 ∧
      ((s.goOn i .idle).goOn j c).count n + 1 = s.count n ∧
        ((s.goOn i .idle).goOn j c).count a + 1 = s.count a := by
  have hne : c₁ ≠ c₀ := by
    rintro rfl
    exact hna (h₀.symm.trans h₁)
  have hj' := threads_goOn hi hj hne .idle
  subst h₀ h₁ hc
  have hk : (s.goOn i .idle).count c.kind = s.count c.kind := count_other hi hkn.symm hidle.1.symm
  have hn : (s.goOn i .idle).count c₀.kind + 1 = s.count c₀.kind := count_leave hi rfl hidle.2.1.symm
  have ha : (s.goOn i .idle).count c₁.kind = s.count c₁.kind := count_other hi hna hidle.2.2.symm
  have hk' := count_join hj' (rfl : c.kind = _) hka.symm
  have hn' : ((s.goOn i .idle).goOn j c).count c₀.kind = (s.goOn i .idle).count c₀.kind :=
    count_other hj' hna.symm hkn
  have ha' := count_leave hj' rfl hka
  omega

/-- A thread that has nothing to do with the elements. -/
theorem items_goOn (hs : s.items.Heard) (hi : s.threads i = c₀)
    (h₀ : c₀.kind ≠ .popping ∧ c₀.kind ≠ .pushed ∧ c₀.kind ≠ .popAsleep)
    (hc : c.kind ≠ .popping ∧ c.kind ≠ .pushed ∧ c.kind ≠ .popAsleep) :
    (s.goOn i c).items.Heard :=
  hs.look le_rfl (count_other hi h₀.1 hc.1).ge (count_other hi h₀.2.1 hc.2.1).ge
    (count_other hi h₀.2.2 hc.2.2).le

/-- A thread that has nothing to do with the free slots. -/
theorem slots_goOn (hs : s.slots.Heard) (hi : s.threads i = c₀)
    (h₀ : c₀.kind ≠ .pushing ∧ c₀.kind ≠ .popped ∧ c₀.kind ≠ .pushAsleep)
    (hc : c.kind ≠ .pushing ∧ c.kind ≠ .popped ∧ c.kind ≠ .pushAsleep) :
    (s.goOn i c).slots.Heard :=
  hs.look le_rfl (count_other hi h₀.1 hc.1).ge (count_other hi h₀.2.1 hc.2.1).ge
    (count_other hi h₀.2.2 hc.2.2).le

/-- A thread looks for elements, which slept or was in no call. -/
theorem items_popping (hs : s.items.Heard) (hi : s.threads i = c₀) (hc : c.kind = .popping)
    (h₀ : c₀.kind ≠ .popping ∧ c₀.kind ≠ .pushed) : (s.goOn i c).items.Heard := by
  have hcalls : (s.goOn i c).items.calls = s.items.calls + 1 := count_join hi hc h₀.1
  have hnotices : (s.goOn i c).items.notices = s.items.notices :=
    count_other hi h₀.2 (by rw [hc]; decide)
  have hasleep : (s.goOn i c).items.asleep ≤ s.items.asleep := by
    by_cases hk : c₀.kind = .popAsleep
    · have hleave : (s.goOn i c).items.asleep + 1 = s.items.asleep :=
        count_leave hi hk (by rw [hc]; decide)
      omega
    · exact (count_other hi hk (by rw [hc]; decide)).le
  exact hs.look le_rfl (by omega) hnotices.ge hasleep

/-- A thread looks for a free slot, which slept or was in no call. -/
theorem slots_pushing (hs : s.slots.Heard) (hi : s.threads i = c₀) (hc : c.kind = .pushing)
    (h₀ : c₀.kind ≠ .pushing ∧ c₀.kind ≠ .popped) : (s.goOn i c).slots.Heard := by
  have hcalls : (s.goOn i c).slots.calls = s.slots.calls + 1 := count_join hi hc h₀.1
  have hnotices : (s.goOn i c).slots.notices = s.slots.notices :=
    count_other hi h₀.2 (by rw [hc]; decide)
  have hasleep : (s.goOn i c).slots.asleep ≤ s.slots.asleep := by
    by_cases hk : c₀.kind = .pushAsleep
    · have hleave : (s.goOn i c).slots.asleep + 1 = s.slots.asleep :=
        count_leave hi hk (by rw [hc]; decide)
      omega
    · exact (count_other hi hk (by rw [hc]; decide)).le
  exact hs.look le_rfl (by omega) hnotices.ge hasleep

end

/-- **No thread that pops oversleeps.** -/
theorem Does.items (h : s.Does l s' es) (hs : s.items.Heard) : s'.items.Heard := by
  cases h with
  | callPush item hi => exact items_goOn hs hi ⟨nofun, nofun, nofun⟩ ⟨nofun, nofun, nofun⟩
  | callPop hi => exact items_popping hs hi rfl ⟨nofun, nofun⟩
  | push hi hroom =>
    exact hs.bring le_rfl (count_other hi nofun nofun) (count_join hi rfl nofun)
      (count_other hi nofun nofun)
  | ignore hi hfull hwb => exact items_goOn hs hi ⟨nofun, nofun, nofun⟩ ⟨nofun, nofun, nofun⟩
  | pushSleep hi hfull hwb => exact items_goOn hs hi ⟨nofun, nofun, nofun⟩ ⟨nofun, nofun, nofun⟩
  | pop hi hpop =>
    have hqueue := congrArg List.length (Queue.popBack_eq_some hpop).1
    rw [List.length_append] at hqueue
    exact hs.take hqueue.symm (count_leave hi rfl nofun) (count_other hi nofun nofun)
      (count_other hi nofun nofun)
  | popSleep hi hpop =>
    exact Balance.heard_of_none (congrArg List.length (Queue.popBack_eq_none.mp hpop))
  | @pushedNone i hi hnone =>
    have hasleep : (s.goOn i .idle).count .popAsleep = s.count .popAsleep :=
      count_other hi nofun nofun
    exact Balance.heard_of_awake (hasleep.trans hnone)
  | pushedWake hi hj =>
    obtain ⟨hcalls, hnotices, hasleep⟩ := count_wake (c := .popping) hi hj rfl rfl rfl nofun
      nofun nofun ⟨nofun, nofun, nofun⟩
    exact hs.notify rfl hcalls hnotices hasleep
  | poppedNone hi hnone => exact items_goOn hs hi ⟨nofun, nofun, nofun⟩ ⟨nofun, nofun, nofun⟩
  | poppedWake hi hj =>
    have hj' := threads_goOn hi hj nofun .idle
    exact items_goOn (items_goOn hs hi ⟨nofun, nofun, nofun⟩ ⟨nofun, nofun, nofun⟩) hj'
      ⟨nofun, nofun, nofun⟩ ⟨nofun, nofun, nofun⟩
  | pushWake hi => exact items_goOn hs hi ⟨nofun, nofun, nofun⟩ ⟨nofun, nofun, nofun⟩
  | popWake hi => exact items_popping hs hi rfl ⟨nofun, nofun⟩
  | resize c => exact hs

/-- The capacity is not made larger while threads sleep that push. -/
def Unraised (s : Monitor ι T) (l : Label ι T) : Prop :=
  ∀ c, l = .setCapacity c → c ≤ s.q.capacity ∨ s.count .pushAsleep = 0

/-- **Nor does one that pushes**, unless the capacity is raised. -/
theorem Does.slots (h : s.Does l s' es) (hraise : s.Unraised l) (hs : s.slots.Heard) :
    s'.slots.Heard := by
  cases h with
  | callPush item hi => exact slots_pushing hs hi rfl ⟨nofun, nofun⟩
  | callPop hi => exact slots_goOn hs hi ⟨nofun, nofun, nofun⟩ ⟨nofun, nofun, nofun⟩
  | push hi hroom =>
    have hlt : s.q.queue.length < s.q.capacity := of_decide_eq_true hroom
    refine hs.take ?_ (count_leave hi rfl nofun) (count_other hi nofun nofun)
      (count_other hi nofun nofun)
    change s.q.capacity - (s.q.queue.length + 1) + 1 = s.q.capacity - s.q.queue.length
    omega
  -- The queue is full: there is no slot that a sleeper could miss.
  | ignore hi hfull hwb =>
    have hge : ¬s.q.queue.length < s.q.capacity := of_decide_eq_false hfull
    refine Balance.heard_of_none ?_
    change s.q.capacity - s.q.queue.length = 0
    omega
  -- A thread falls asleep only when no slot is left.
  | pushSleep hi hfull hwb =>
    have hge : ¬s.q.queue.length < s.q.capacity := of_decide_eq_false hfull
    refine Balance.heard_of_none ?_
    change s.q.capacity - s.q.queue.length = 0
    omega
  -- The slot that comes free brings the notice of its popper with it.
  | @pop i item q hi hpop =>
    obtain ⟨hqueue, hcapacity, -⟩ := Queue.popBack_eq_some hpop
    refine hs.bring ?_ (count_other hi nofun nofun) (count_join hi rfl nofun)
      (count_other hi nofun nofun)
    change q.capacity - q.queue.length ≤ s.q.capacity - s.q.queue.length + 1
    rw [hqueue, hcapacity, List.length_append, List.length_singleton]
    omega
  | popSleep hi hpop => exact slots_goOn hs hi ⟨nofun, nofun, nofun⟩ ⟨nofun, nofun, nofun⟩
  | pushedNone hi hnone => exact slots_goOn hs hi ⟨nofun, nofun, nofun⟩ ⟨nofun, nofun, nofun⟩
  | pushedWake hi hj =>
    have hj' := threads_goOn hi hj nofun .idle
    exact slots_goOn (slots_goOn hs hi ⟨nofun, nofun, nofun⟩ ⟨nofun, nofun, nofun⟩) hj'
      ⟨nofun, nofun, nofun⟩ ⟨nofun, nofun, nofun⟩
  -- The notice reaches nobody, since nobody sleeps.
  | @poppedNone i item hi hnone =>
    have hasleep : (s.goOn i .idle).count .pushAsleep = s.count .pushAsleep :=
      count_other hi nofun nofun
    exact Balance.heard_of_awake (hasleep.trans hnone)
  | @poppedWake i j item item' hi hj =>
    obtain ⟨hcalls, hnotices, hasleep⟩ := count_wake (c := .pushing item') hi hj rfl rfl rfl nofun
      nofun nofun ⟨nofun, nofun, nofun⟩
    exact hs.notify rfl hcalls hnotices hasleep
  | pushWake hi => exact slots_pushing hs hi rfl ⟨nofun, nofun⟩
  | popWake hi => exact slots_goOn hs hi ⟨nofun, nofun, nofun⟩ ⟨nofun, nofun, nofun⟩
  -- A smaller capacity gives no slots; a larger one is allowed only while nobody sleeps.
  | resize c =>
    rcases hraise c rfl with hle | hnone
    · refine hs.look ?_ le_rfl le_rfl le_rfl
      change c - s.q.queue.length ≤ s.q.capacity - s.q.queue.length
      omega
    · exact Balance.heard_of_awake hnone

/-! ## Runs -/

/-- Threads sleep at a full queue only if that is what it is for. -/
structure Inv (s : Monitor ι T) : Prop where
  items : s.items.Heard
  slots : s.slots.Heard
  blocks : ∀ i item, s.threads i = .pushAsleep item → s.q.wb = .writeBlock

omit [Fintype ι] in
/-- A thread that is in a call was in it, or is the one that goes on. -/
theorem threads_of_goOn {c c' : Call T} {j : ι} (h : (s.goOn i c).threads j = c') (hne : c ≠ c') :
    s.threads j = c' := by
  by_cases hj : j = i
  · subst hj
    exact absurd ((Function.update_self _ _ _).symm.trans h) hne
  · exact (Function.update_of_ne hj _ _).symm.trans h

theorem Does.blocks (h : s.Does l s' es)
    (hs : ∀ i item, s.threads i = .pushAsleep item → s.q.wb = .writeBlock) :
    ∀ i item, s'.threads i = .pushAsleep item → s'.q.wb = .writeBlock := by
  intro j item hj
  cases h with
  | push hi hroom => exact hs j item (threads_of_goOn hj nofun)
  | pushSleep hi hfull hwb => exact hwb
  | pop hi hpop =>
    exact (Queue.popBack_eq_some hpop).2.2.trans (hs j item (threads_of_goOn hj nofun))
  | pushedWake hi _ => exact hs j item (threads_of_goOn (threads_of_goOn hj nofun) nofun)
  | poppedWake hi _ => exact hs j item (threads_of_goOn (threads_of_goOn hj nofun) nofun)
  | resize c => exact hs j item hj
  | _ => exact hs j item (threads_of_goOn hj nofun)

variable {capacity : ℕ} {wb : WriteBehavior} {labels : List (Label ι T)}

omit [DecidableEq ι] in
theorem inv_create (capacity : ℕ) (wb : WriteBehavior) : (create capacity wb : Monitor ι T).Inv := by
  have hasleep : ∀ k, k ≠ .idle → (create capacity wb : Monitor ι T).count k = 0 := fun k hk =>
    population_eq_zero.mpr fun _ => hk.symm
  exact ⟨Balance.heard_of_none rfl, Balance.heard_of_awake (hasleep .pushAsleep nofun), nofun⟩

theorem inv_of_runsTo (h : RunsTo capacity wb labels s es)
    (hraise : Runs.Always stepLog (fun r l => r.1.Unraised l) (create capacity wb, []) labels) :
    s.Inv := by
  have hstep : ∀ (r : Monitor ι T × List (QueueEvent T)) (l : Label ι T) r', r.1.Inv →
      r.1.Unraised l → stepLog r l = some r' → r'.1.Inv := by
    intro r l r' hr hl hr'
    obtain ⟨⟨s₁, es₁⟩, hs₁, rfl⟩ := Option.map_eq_some_iff.mp hr'
    have hdoes := step_does hs₁
    exact ⟨hdoes.items hr.items, hdoes.slots hl hr.slots, hdoes.blocks hr.blocks⟩
  exact @Runs.Always.invariant _ _ stepLog _ _ labels _ (fun r => r.1.Inv) hstep
    (inv_create capacity wb) hraise h

/-- **A queue is served one call after the other**, by however many threads: what is seen of it
is a run of a queue whose calls happen at once, and elements come out in the order in which they
went in. -/
theorem served (h : RunsTo capacity wb labels s es) :
    (Queue.create capacity wb).ServesAll es s.q ∧ taken es ++ s.q.queue.reverse = accepted es := by
  have hstep : ∀ (r : Monitor ι T × List (QueueEvent T)) (l : Label ι T) r',
      (Queue.create capacity wb).ServesAll r.2 r.1.q → stepLog r l = some r' →
        (Queue.create capacity wb).ServesAll r'.2 r'.1.q := by
    intro r l r' hr hr'
    obtain ⟨⟨s₁, es₁⟩, hs₁, rfl⟩ := Option.map_eq_some_iff.mp hr'
    exact servesAll_append hr (step_does hs₁).serves
  have hserves : (Queue.create capacity wb).ServesAll es s.q :=
    @Runs.invariant _ _ stepLog _ _ labels
      (fun r => (Queue.create capacity wb).ServesAll r.2 r.1.q) hstep
      (show (Queue.create capacity wb).ServesAll [] (Queue.create capacity wb) from rfl) h
  exact ⟨hserves, accepted_of_servesAll hserves⟩

/-- A thread sleeps in a pop, is woken by a push, and sleeps again. -/
def popTwice : List (Label (Fin 2) ℕ) :=
  [.popBack 0, .enter 0, .pushFront 1 5, .enter 1, .notify 1 (some 0), .enter 0, .notify 0 none,
    .popBack 0, .enter 0]

theorem served_popTwice : ∃ s, RunsTo 4 .writeBlock popTwice s [.pushed 5, .popped 5] ∧
    (Queue.create 4 .writeBlock).ServesAll [.pushed 5, .popped 5] s.q ∧
      taken [.pushed 5, .popped 5] ++ s.q.queue.reverse = accepted [.pushed 5, .popped 5] :=
  ⟨_, rfl, served (rfl : RunsTo 4 .writeBlock popTwice _ _)⟩

/-- No thread can go on but one that begins a call or wakes without a notice. -/
def AtRest (s : Monitor ι T) : Prop :=
  ∀ i, s.enter i = none ∧ ∀ woken, s.notify i woken = none

omit [DecidableEq ι] in
/-- Some thread is in a call of the kind. -/
theorem exists_of_count {k : CallKind} (h : s.count k ≠ 0) : ∃ i, (s.threads i).kind = k := by
  by_contra hnone
  exact h (population_eq_zero.mpr fun i hi => hnone ⟨i, hi⟩)

/-- A thread at rest is in no call, or asleep. -/
theorem AtRest.kind (h : s.AtRest) (i : ι) :
    (s.threads i).kind ≠ .pushing ∧ (s.threads i).kind ≠ .popping ∧
      (s.threads i).kind ≠ .pushed ∧ (s.threads i).kind ≠ .popped := by
  obtain ⟨henter, hnotify⟩ := h i
  unfold enter at henter
  unfold notify at hnotify
  cases hc : s.threads i with
  | idle => exact ⟨nofun, nofun, nofun, nofun⟩
  | pushAsleep item => exact ⟨nofun, nofun, nofun, nofun⟩
  | popAsleep => exact ⟨nofun, nofun, nofun, nofun⟩
  | pushing item =>
    simp only [hc] at henter
    split_ifs at henter
    split at henter <;> cases henter
  | popping =>
    simp only [hc] at henter
    split at henter <;> cases henter
  | pushed =>
    -- the notice is given to a sleeper, or to no one
    by_cases hnone : s.count .popAsleep = 0
    · have hlost := hnotify none
      simp [hc, hnone] at hlost
    · obtain ⟨j, hj⟩ := exists_of_count hnone
      cases hcj : s.threads j with
      | popAsleep =>
        have hwoken := hnotify (some j)
        simp [hc, hcj] at hwoken
      | _ =>
        rw [hcj] at hj
        cases hj
  | popped item =>
    by_cases hnone : s.count .pushAsleep = 0
    · have hlost := hnotify none
      simp [hc, hnone] at hlost
    · obtain ⟨j, hj⟩ := exists_of_count hnone
      cases hcj : s.threads j with
      | pushAsleep item' =>
        have hwoken := hnotify (some j)
        simp [hc, hcj] at hwoken
      | _ =>
        rw [hcj] at hj
        cases hj

/-- **Nobody sleeps who need not**: where all threads are at rest, a thread that sleeps in a push
or a pop is one whose call a queue could not serve, in every run in which the capacity is not
raised while threads sleep that push. -/
theorem sleepers_wait (h : RunsTo capacity wb labels s es)
    (hraise : Runs.Always stepLog (fun r l => r.1.Unraised l) (create capacity wb, []) labels)
    (hrest : s.AtRest) (i : ι) :
    (∀ item, s.threads i = .pushAsleep item → s.q.pushFront item = none) ∧
      (s.threads i = .popAsleep → s.q.popBack = none) := by
  have hi := inv_of_runsTo h hraise
  have hnone : ∀ {k}, (∀ j, (s.threads j).kind ≠ k) → s.count k = 0 := population_eq_zero.mpr
  constructor
  · intro item hasleep
    have hslots : s.slots.goods = 0 := by
      refine hi.slots.goods_eq_zero (hnone fun j => (hrest.kind j).1)
        (hnone fun j => (hrest.kind j).2.2.2) fun hzero => ?_
      exact population_eq_zero.mp hzero i (congrArg Call.kind hasleep)
    have hfull : s.q.isNotFull = false := by
      have hle : s.q.capacity - s.q.queue.length = 0 := hslots
      refine decide_eq_false ?_
      omega
    exact Queue.pushFront_eq_none (hi.blocks i item hasleep) hfull item
  · intro hasleep
    have hitems : s.items.goods = 0 := by
      refine hi.items.goods_eq_zero (hnone fun j => (hrest.kind j).2.1)
        (hnone fun j => (hrest.kind j).2.2.1) fun hzero => ?_
      exact population_eq_zero.mp hzero i (congrArg Call.kind hasleep)
    exact Queue.popBack_eq_none.mpr (List.length_eq_zero_iff.mp hitems)

theorem always_unraised {labels : List (Label ι T)} (h : ∀ l ∈ labels, ∀ c, l ≠ .setCapacity c)
    (r : Monitor ι T × List (QueueEvent T)) :
    Runs.Always stepLog (fun r l => r.1.Unraised l) r labels := by
  induction labels generalizing r with
  | nil => trivial
  | cons l labels ih =>
    refine ⟨fun c hc => absurd hc (h l List.mem_cons_self c), fun r' _ => ?_⟩
    exact ih (fun l hl => h l (List.mem_cons_of_mem _ hl)) r'

theorem sleepers_wait_popTwice : ∃ s es, RunsTo 4 .writeBlock popTwice s es ∧
    s.threads 0 = .popAsleep ∧ s.q.popBack = none := by
  obtain ⟨s, es, h, hasleep, hother⟩ : ∃ s es, RunsTo 4 .writeBlock popTwice s es ∧
    s.threads 0 = .popAsleep ∧ s.threads 1 = .idle := ⟨_, _, rfl, rfl, rfl⟩
  have hrest : s.AtRest := by
    unfold AtRest enter notify
    refine Fin.forall_fin_two.mpr ⟨?_, ?_⟩
    · simp [hasleep]
    · simp [hother]
  have hraise : ∀ l ∈ popTwice, ∀ c, l ≠ .setCapacity c := by simp [popTwice]
  exact ⟨s, es, h, hasleep, (sleepers_wait h (always_unraised hraise _) hrest 0).2 hasleep⟩

end Monitor

end Queueing

end P4Bricks
