import Mathlib.Data.List.Count
import P4Bricks.PortMonitor.Life
/-!
# What a port monitor tells of a port

The updates under the lock follow the life of each port. The calls for them are made later and
without the lock, so two threads may make those for one port in the other order, and then the
events delivered are no life of the port.

They are one in every run where each call is the oldest to be made for its port. What carries
this is that the events delivered for a port, with those to come behind, are its life up to what
the monitor has recorded.
-/

namespace P4Bricks

open Runs

namespace PortMonitor

/-! ## The steps and the life of each port -/

namespace PortMonitorActive

/-- The events of a port, those delivered and those to come, in the order of the updates. -/
def historyOf (m : PortMonitorActive) (port : ℕ) : List PortStatus :=
  (m.calls.history Call.port port).map Call.type

theorem historyOf_note (m : PortMonitorActive) (ports : Dict ℕ Bool) (cs : List Call) (port : ℕ) :
    ({ currPorts := ports, calls := m.calls.note cs } : PortMonitorActive).historyOf port =
      m.historyOf port ++ (cs.filter fun c => c.port = port).map Call.type := by
  simp only [historyOf, Outbox.history_note, List.map_append]

/-- The events of every port are its life up to what is recorded. -/
def Recorded (m : PortMonitorActive) : Prop :=
  ∀ port, replay (m.historyOf port) = some (m.currPorts.at? port)

/-- A call that is made is the oldest to be made for its port. -/
def DeliversOldest (m : PortMonitorActive) : Action → Prop
  | .deliver thread => m.calls.DeliversOldest Call.port (·.thread = thread)
  | _ => True

instance (m : PortMonitorActive) : ∀ a, Decidable (m.DeliversOldest a)
  | .notify _ _ _ => isTrue trivial
  | .poll _ => isTrue trivial
  | .deliver thread =>
    inferInstanceAs (Decidable (m.calls.DeliversOldest Call.port (·.thread = thread)))

/-- A port that is added was not up when it was last removed. -/
def AddsDown (m : PortMonitorActive) : Action → Prop
  | .notify _ port evt => evt = .portAdded → m.currPorts.at? port = none →
    (statusEvents (m.historyOf port)).getLast? ≠ some .portUp
  | _ => True

instance (m : PortMonitorActive) : ∀ a, Decidable (m.AddsDown a)
  | .notify _ port evt => inferInstanceAs (Decidable (evt = .portAdded →
      m.currPorts.at? port = none → (statusEvents (m.historyOf port)).getLast? ≠ some .portUp))
  | .poll _ => isTrue trivial
  | .deliver _ => isTrue trivial

end PortMonitorActive

section Steps

variable {m m' : PortMonitorActive} {a : Action} {ports ports' : Dict ℕ Bool} {port p : ℕ}
  {evt : PortStatus}

/-- What the locked part of `notify_` does: the event fits the port's life, and no other port
changes. -/
theorem notifyPorts_spec (h : notifyPorts ports port evt = some ports') :
    next (ports.at? port) evt = some (ports'.at? port) ∧
      ∀ q, q ≠ port → ports'.at? q = ports.at? q := by
  simp only [notifyPorts] at h
  split_ifs at h with hadded hremoved hup hdown
  · obtain ⟨rfl, hnone⟩ := hadded
    obtain rfl := Option.some.inj h
    rw [Dict.insert_of_notMem (Dict.at?_eq_none.mp hnone), hnone]
    exact ⟨by simp [next, Dict.at?_set], fun q hq => by simp [Dict.at?_set, hq]⟩
  · obtain ⟨rfl, hsome⟩ := hremoved
    obtain rfl := Option.some.inj h
    obtain ⟨up, hwas⟩ := Option.ne_none_iff_exists'.mp hsome
    rw [hwas]
    exact ⟨by simp [next, Dict.at?_erase], fun q hq => by simp [Dict.at?_erase, hq]⟩
  · obtain ⟨rfl, hwas⟩ := hup
    obtain rfl := Option.some.inj h
    rw [hwas]
    exact ⟨by simp [next, Dict.at?_set], fun q hq => by simp [Dict.at?_set, hq]⟩
  · obtain ⟨rfl, hwas⟩ := hdown
    obtain rfl := Option.some.inj h
    rw [hwas]
    exact ⟨by simp [next, Dict.at?_set], fun q hq => by simp [Dict.at?_set, hq]⟩

theorem port_of_cbTodo {second isUp : Bool} {c : Call} (h : cbTodo p second isUp = some c) :
    c.port = p := by
  unfold cbTodo at h
  split_ifs at h
  · rw [← Option.some.inj h]
  · rw [← Option.some.inj h]

/-- The calls of a round for one port: what its own status says, if it is there. -/
theorem filter_cbsTodo (fn : ℕ → Bool) (p : ℕ) :
    (cbsTodo ports fn).filter (fun c => c.port = p) =
      if p ∈ ports.keys then (cbTodo p (ports.get p) (fn p)).toList else [] := by
  have hkeys : (ports.keys.sort (· ≤ ·)).filter (· = p) = if p ∈ ports.keys then [p] else [] := by
    rw [List.filter_eq]
    split_ifs with hp
    · rw [List.count_eq_one_of_mem (Finset.sort_nodup _ _) (Finset.mem_sort _ |>.mpr hp)]
      rfl
    · rw [List.count_eq_zero_of_not_mem (mt (Finset.mem_sort _).mp hp)]
      rfl
  have hfilter : (cbsTodo ports fn).filter (fun c => c.port = p) =
      ((ports.keys.sort (· ≤ ·)).filter (· = p)).filterMap fun q =>
        cbTodo q (ports.get q) (fn q) := by
    rw [cbsTodo, List.filter_filterMap, List.filterMap_filter]
    refine List.filterMap_congr fun q _ => ?_
    cases hc : cbTodo q (ports.get q) (fn q) with
    | none => simp
    | some c => simp [Option.filter, port_of_cbTodo hc]
  rw [hfilter, hkeys]
  split_ifs with hp
  · cases hc : cbTodo p (ports.get p) (fn p) <;> simp [hc]
  · rfl

/-- What a round makes of a port that is there. -/
theorem replay_cbTodo (second isUp : Bool) :
    ((cbTodo p second isUp).toList.map Call.type).foldlM next (some second) =
      some (some isUp) := by
  cases second <;> cases isUp <;> rfl

/-- **One step.** The update of a port adds the event that its life goes on with, and a call for
the oldest event leaves the lives as they are. -/
theorem PortMonitorActive.Recorded.step (h : m.Recorded) (hold : m.DeliversOldest a) (hs : m.step a = some m') :
    m'.Recorded := by
  cases a with
  | notify id port evt =>
    rw [PortMonitorActive.step] at hs
    split_ifs at hs
    cases hports : notifyPorts m.currPorts port evt with
    | none =>
      rw [hports] at hs
      obtain rfl := Option.some.inj hs
      exact h
    | some ports =>
      rw [hports] at hs
      obtain rfl := Option.some.inj hs
      obtain ⟨hnext, hother⟩ := notifyPorts_spec hports
      intro q
      rw [PortMonitorActive.historyOf_note]
      by_cases hq : port = q
      · subst hq
        simpa using replay_concat_of (h port) hnext
      · rw [hother q (Ne.symm hq)]
        simpa [hq] using h q
  | poll fn =>
    rw [PortMonitorActive.step] at hs
    split_ifs at hs
    obtain rfl := Option.some.inj hs
    intro q
    rw [PortMonitorActive.historyOf_note, filter_cbsTodo]
    have hq := h q
    unfold replay at hq ⊢
    rw [List.foldlM_append, hq]
    by_cases hmem : q ∈ m.currPorts.keys
    · simpa [Dict.at?, hmem] using replay_cbTodo (m.currPorts.get q) (fn q)
    · simp [Dict.at?, hmem]
  | deliver thread =>
    obtain ⟨calls, hcalls, rfl⟩ := Option.map_eq_some_iff.mp hs
    intro q
    have hhistory : ({ m with calls := calls } : PortMonitorActive).historyOf q = m.historyOf q :=
      congrArg (List.map Call.type) (Outbox.history_deliver hcalls hold q)
    rw [hhistory]
    exact h q

/-- One step keeps the other condition on the lives too, if a port that is added ended down. -/
theorem addedDown_step (h : ∀ port, AddedDown (m.historyOf port)) (hold : m.DeliversOldest a)
    (hadds : m.AddsDown a) (hs : m.step a = some m') (port : ℕ) : AddedDown (m'.historyOf port) := by
  cases a with
  | notify id q evt =>
    rw [PortMonitorActive.step] at hs
    split_ifs at hs
    cases hports : notifyPorts m.currPorts q evt with
    | none =>
      rw [hports] at hs
      obtain rfl := Option.some.inj hs
      exact h port
    | some ports =>
      rw [hports] at hs
      obtain rfl := Option.some.inj hs
      rw [PortMonitorActive.historyOf_note]
      by_cases hq : q = port
      · subst hq
        have hconcat := (h q).concat (x := evt) ?_
        · simpa using hconcat
        · rintro rfl
          refine hadds rfl ?_
          obtain ⟨hnext, -⟩ := notifyPorts_spec hports
          rcases next_of_not_isUpDown hnext rfl with ⟨hnone, -, -⟩ | ⟨hremoved, -⟩
          · exact hnone
          · exact absurd hremoved (by simp)
      · simpa [hq] using h port
  | poll fn =>
    rw [PortMonitorActive.step] at hs
    split_ifs at hs
    obtain rfl := Option.some.inj hs
    rw [PortMonitorActive.historyOf_note, filter_cbsTodo]
    split_ifs with hmem
    · -- A round has no event that adds a port.
      cases hc : cbTodo port (m.currPorts.get port) (fn port) with
      | none => simpa using h port
      | some c =>
        refine (h port).concat fun htype => ?_
        rcases hsecond : m.currPorts.get port <;> rcases hup : fn port <;>
          simp [hsecond, hup, cbTodo] at hc <;> subst hc <;> cases htype
    · simpa using h port
  | deliver thread =>
    obtain ⟨calls, hcalls, rfl⟩ := Option.map_eq_some_iff.mp hs
    have hhistory : ({ m with calls := calls } : PortMonitorActive).historyOf port =
        m.historyOf port := congrArg (List.map Call.type) (Outbox.history_deliver hcalls hold port)
    rw [hhistory]
    exact h port

end Steps

/-! ## What is delivered -/

/-- The events delivered for a port tell its status while it is there. -/
structure Orderly (m : PortMonitorActive) (port : ℕ) : Prop where
  alternate : ∀ before x y after, m.deliveredOf port = before ++ x :: y :: after →
    x.isUpDown → y.isUpDown → x ≠ y
  present : ∀ before x after, m.deliveredOf port = before ++ x :: after → x.isUpDown →
    lastPresence before = some .portAdded
  agrees : m.calls.due = [] → ∀ up, m.currPorts.at? port = some up →
    ∀ x, (m.deliveredOf port).getLast? = some x → x.isUpDown → (x = .portUp ↔ up = true)

/-- The status events delivered for a port tell its status over all its presences. -/
structure Alternates (m : PortMonitorActive) (port : ℕ) : Prop where
  alternate : (statusEvents (m.deliveredOf port)).IsChain (· ≠ ·)
  agrees : m.calls.due = [] → ∀ up, m.currPorts.at? port = some up →
    ∀ x, (statusEvents (m.deliveredOf port)).getLast? = some x → (x = .portUp ↔ up = true)

section Delivered

variable {m : PortMonitorActive} {port : ℕ}

theorem PortMonitorActive.historyOf_eq (m : PortMonitorActive) (port : ℕ) :
    m.historyOf port =
      m.deliveredOf port ++ (m.calls.due.filter fun c => c.port = port).map Call.type := by
  rw [historyOf, Outbox.history, List.filter_append, List.map_append]
  rfl

theorem PortMonitorActive.historyOf_of_due_nil (h : m.calls.due = []) :
    m.historyOf port = m.deliveredOf port := by
  rw [historyOf_eq, h]
  simp

theorem PortMonitorActive.Recorded.orderly (h : m.Recorded) (port : ℕ) : Orderly m port := by
  obtain ⟨st, hdelivered, -⟩ := replay_append (m.historyOf_eq port ▸ h port)
  refine ⟨fun before x y after heq hx hy => ?_, fun before x after heq hx => ?_,
    fun hdue up hup x hlast hx => ?_⟩
  · rw [heq] at hdelivered
    exact ne_of_replay hdelivered hx hy
  · rw [heq] at hdelivered
    obtain ⟨st₁, hbefore, hrest⟩ := replay_append hdelivered
    rw [List.foldlM_cons] at hrest
    obtain ⟨st₂, hnext, -⟩ := Option.bind_eq_some_iff.mp hrest
    obtain ⟨up, rfl, -, -⟩ := next_of_isUpDown hnext hx
    exact (lastPresence_of_replay hbefore).mpr rfl
  · have hall := h port
    rw [PortMonitorActive.historyOf_of_due_nil hdue, hup] at hall
    obtain ⟨before, hbefore⟩ := List.getLast?_eq_some_iff.mp hlast
    rw [hbefore] at hall
    obtain ⟨st₁, -, hnext⟩ := replay_concat hall
    obtain ⟨up', -, hup', hiff⟩ := next_of_isUpDown hnext hx
    obtain rfl : up = !up' := Option.some.inj hup'
    rw [hiff]
    simp

theorem PortMonitorActive.Recorded.alternates (h : m.Recorded) (hadded : AddedDown (m.historyOf port)) :
    Alternates m port := by
  have hhistory := m.historyOf_eq port
  constructor
  · obtain ⟨st, hdelivered, -⟩ := replay_append (hhistory ▸ h port)
    rw [hhistory] at hadded
    exact (alternate_of_replay hdelivered hadded.of_append).1
  · intro hdue up hup x hlast
    have hall := h port
    rw [hup] at hall
    obtain ⟨-, hiff⟩ := alternate_of_replay hall hadded
    rw [PortMonitorActive.historyOf_of_due_nil hdue] at hiff
    rw [hiff up rfl, hlast, Option.some.injEq]

/-- **In order.** In every run in which each call that is made is the oldest to be made for its
port, the events delivered for a port tell its status while it is there. If moreover no port is
added that was up when it was removed, they tell its status over all its presences. -/
theorem tells_status {actions : List Action} {m : PortMonitorActive}
    (hrun : run PortMonitorActive.step {} actions = some m)
    (hold : Always PortMonitorActive.step PortMonitorActive.DeliversOldest {} actions) :
    (∀ port, Orderly m port) ∧
      (Always PortMonitorActive.step PortMonitorActive.AddsDown {} actions →
        ∀ port, Alternates m port) := by
  have hstart : PortMonitorActive.Recorded {} := fun port => rfl
  have hrecorded : m.Recorded :=
    hold.invariant (fun _ _ _ h hold hs => h.step hold hs) hstart hrun
  refine ⟨hrecorded.orderly, fun hadds port => hrecorded.alternates ?_⟩
  -- The events of a port that were noted, delivered or not, keep the other condition.
  have hnew : ∀ port, AddedDown (PortMonitorActive.historyOf {} port) := by
    intro port before after heq
    cases before <;> cases heq
  have hadded : ∀ port, AddedDown (m.historyOf port) :=
    (hold.and hadds).invariant (fun _ _ _ h hP hs => addedDown_step h hP.1 hP.2 hs) hnew hrun
  exact hadded port

end Delivered

/-- Two ports, updated by two threads whose calls cross. -/
def crossed : List Action :=
  [.notify 0 7 .portAdded, .deliver (.caller 0), .notify 0 7 .portUp, .notify 1 8 .portAdded,
    .deliver (.caller 1), .deliver (.caller 0)]

theorem crossed_tells_status :
    ∃ m, run PortMonitorActive.step {} crossed = some m ∧
      (∀ port, Orderly m port) ∧ ∀ port, Alternates m port := by
  refine ⟨_, rfl, ?_⟩
  obtain ⟨horderly, halternates⟩ := @tells_status crossed _ rfl (by decide)
  exact ⟨horderly, halternates (by decide)⟩

/-! ### Calls that overtake each other -/

/-- The calls of a round where there is one port. -/
theorem cbsTodo_singleton {ports : Dict ℕ Bool} {port : ℕ} (h : ports.keys = {port})
    (fn : ℕ → Bool) :
    cbsTodo ports fn = (cbTodo port (ports.get port) (fn port)).toList := by
  rw [cbsTodo, h, Finset.sort_singleton]
  cases hc : cbTodo port (ports.get port) (fn port) <;> simp [hc]

/-- A monitor with one port, which is down. -/
def oneDown : PortMonitorActive :=
  { currPorts := Dict.empty.insert 7 false
    calls := { delivered := [⟨.caller 0, 7, .portAdded⟩] } }

/-- The same one when a round has found the port up. -/
def foundUp : PortMonitorActive :=
  { currPorts := ⟨{7}, fun _ => true⟩
    calls := { due := [⟨.monitor, 7, .portUp⟩], delivered := [⟨.caller 0, 7, .portAdded⟩] } }

theorem step_oneDown : oneDown.step (.poll fun _ => true) = some foundUp := by
  have hcalls : cbsTodo oneDown.currPorts (fun _ => true) = [⟨.monitor, 7, .portUp⟩] :=
    @cbsTodo_singleton oneDown.currPorts 7 rfl fun _ => true
  have hfree : ¬ oneDown.Busy .monitor := by decide
  rw [PortMonitorActive.step, if_neg hfree, hcalls]
  rfl

/-- Two up events come one after the other when three threads update a port. One comes after the
removal of a port that a round has found up. And with no call to come, the last event of a port
that is down is up. -/
theorem overtaken_not_orderly :
    (∃ m, run PortMonitorActive.step {} [.notify 0 7 .portAdded, .deliver (.caller 0),
        .notify 0 7 .portUp, .notify 1 7 .portDown, .notify 2 7 .portUp, .deliver (.caller 2),
        .deliver (.caller 0)] = some m ∧
      m.deliveredOf 7 = [.portAdded, .portUp, .portUp] ∧ ¬ Orderly m 7) ∧
    (∃ m, run PortMonitorActive.step {} [.notify 0 7 .portAdded, .deliver (.caller 0),
        .poll fun _ => true, .notify 0 7 .portRemoved, .deliver (.caller 0),
        .deliver .monitor] = some m ∧
      m.deliveredOf 7 = [.portAdded, .portRemoved, .portUp] ∧ ¬ Orderly m 7) ∧
    (∃ m, run PortMonitorActive.step {} [.notify 0 7 .portAdded, .deliver (.caller 0),
        .notify 0 7 .portUp, .notify 1 7 .portDown, .deliver (.caller 1),
        .deliver (.caller 0)] = some m ∧
      m.deliveredOf 7 = [.portAdded, .portDown, .portUp] ∧ m.calls.due = [] ∧
      m.currPorts.at? 7 = some false ∧ ¬ Orderly m 7) := by
  refine ⟨⟨_, rfl, by decide, fun h => ?_⟩, ⟨{ currPorts := foundUp.currPorts.erase 7, calls :=
    { delivered := [⟨.caller 0, 7, .portAdded⟩, ⟨.caller 0, 7, .portRemoved⟩,
      ⟨.monitor, 7, .portUp⟩] } }, ?_, by decide, fun h => ?_⟩,
    ⟨_, rfl, by decide, by decide, by decide, fun h => ?_⟩⟩
  · exact h.alternate [.portAdded] .portUp .portUp [] rfl rfl rfl rfl
  · have hrest : run PortMonitorActive.step foundUp [.notify 0 7 .portRemoved,
        .deliver (.caller 0), .deliver .monitor] = _ := rfl
    show (oneDown.step (.poll fun _ => true)).bind (fun s => run PortMonitorActive.step s _) = _
    rw [step_oneDown]
    exact hrest
  · have hpresent := h.present [.portAdded, .portRemoved] .portUp [] rfl rfl
    exact absurd hpresent (by decide)
  · have hagrees := h.agrees rfl false rfl .portUp rfl rfl
    exact absurd hagrees (by decide)

end PortMonitor

end P4Bricks
