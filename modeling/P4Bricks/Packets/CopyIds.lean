import P4Bricks.Common.Decimal
import P4Bricks.Common.Runs
import Mathlib.Algebra.Group.Nat.Defs
import Mathlib.Data.List.Nodup
import Mathlib.Data.List.Perm.Basic
import Mathlib.Logic.Function.Basic
/-!
# Copy ids

A packet has the id that the target gave it and a copy id. `CopyIdGenerator`
hands out copy ids from 4096 counters, which the packets with ids equal modulo
4096 share. A counter has the last copy id that it gave, and the number of copies
it still knows of. Every packet that is destroyed is taken off that number, and
when there is nothing to take it off the copy ids start again.

The number thus runs behind as soon as two packets on one counter were not
copied, and the copy ids start again while a copy is alive.
-/

namespace P4Bricks

namespace Packets

/-- `CopyIdGenerator::Cntr`. Both members are 16 bits wide. -/
structure Cntr where
  max : ℕ
  num : ℕ
  deriving DecidableEq, Repr

/-- The number of counters. -/
def W : ℕ := 4096

/-- `CopyIdGenerator`. -/
structure CopyIdGenerator where
  arr : ℕ → Cntr

namespace CopyIdGenerator

/-- The counter of the packets of this id. -/
def slot (g : CopyIdGenerator) (packetId : ℕ) : Cntr := g.arr (packetId % W)

def create : CopyIdGenerator := ⟨fun _ => ⟨0, 0⟩⟩

/-- `CopyIdGenerator::add_one`. -/
def addOne (g : CopyIdGenerator) (packetId : ℕ) : ℕ × CopyIdGenerator :=
  let old := g.slot packetId
  let new : Cntr := { max := (old.max + 1) % 2 ^ 16, num := (old.num + 1) % 2 ^ 16 }
  (new.max, ⟨Function.update g.arr (packetId % W) new⟩)

/-- `CopyIdGenerator::remove_one`. -/
def removeOne (g : CopyIdGenerator) (packetId : ℕ) : CopyIdGenerator :=
  let old := g.slot packetId
  let new : Cntr :=
    if old.num = 0 then { max := 0, num := 0 } else { max := old.max, num := old.num - 1 }
  ⟨Function.update g.arr (packetId % W) new⟩

end CopyIdGenerator

/-- What tells packets apart. -/
structure Packet where
  packetId : ℕ
  copyId : ℕ
  deriving DecidableEq, Repr

/-- `Packet::get_unique_id`. -/
def Packet.getUniqueId (p : Packet) : String :=
  p.packetId.repr ++ "." ++ p.copyId.repr

/-- The packets that are alive. `nextId` is above the ids given so far. -/
structure State where
  generator : CopyIdGenerator
  live : List Packet
  nextId : ℕ

inductive Op where
  /-- `SwitchWContexts::new_packet`, with a fresh id. -/
  | create (packetId : ℕ)
  /-- One of the ways to clone a packet: all of them ask for a copy id in the same
  way. -/
  | clone (i : ℕ)
  /-- `Packet::~Packet`. -/
  | destroy (i : ℕ)
  deriving DecidableEq, Repr

namespace State

def init : State := ⟨.create, [], 0⟩

def step (s : State) : Op → Option State
  | .create packetId =>
    if s.nextId ≤ packetId then
      some { s with live := s.live ++ [⟨packetId, 0⟩], nextId := packetId + 1 }
    else
      none
  | .clone i => do
    let p ← s.live[i]?
    let (copyId, g) := s.generator.addOne p.packetId
    some { s with generator := g, live := s.live ++ [⟨p.packetId, copyId⟩] }
  | .destroy i => do
    let p ← s.live[i]?
    some { s with generator := s.generator.removeOne p.packetId, live := s.live.eraseIdx i }

/-- The copy id of a clone is the next one, and a packet whose destruction starts
the copy ids of its counter again leaves no copy there. -/
def Safe (s : State) : Op → Prop
  | .create _ => True
  | .clone i => ∀ p, s.live[i]? = some p → (s.generator.slot p.packetId).max + 1 < 2 ^ 16
  | .destroy i => ∀ p, s.live[i]? = some p → (s.generator.slot p.packetId).num = 0 →
    ∀ q ∈ s.live.eraseIdx i, q.packetId % W = p.packetId % W → q.copyId = 0

end State

/-! ## Unique ids -/

theorem Packet.getUniqueId_injective : Function.Injective Packet.getUniqueId := by
  intro p q h
  have htext := congrArg String.toList h
  simp only [getUniqueId, String.toList_append, List.append_assoc] at htext
  have hdot : ¬ ('.' : Char).isDigit := by decide
  obtain ⟨hid, -, hcopy⟩ := repr_append_inj hdot hdot htext
  obtain ⟨packetId, copyId⟩ := p
  obtain rfl : packetId = q.packetId := hid
  obtain rfl : copyId = q.copyId := Nat.repr_injective (String.toList_inj.mp hcopy)
  rfl

/-! ## Counters -/

namespace CopyIdGenerator

variable {g : CopyIdGenerator} {packetId id : ℕ}

theorem addOne_eq (h : (g.slot packetId).max + 1 < 2 ^ 16) :
    (g.addOne packetId).1 = (g.slot packetId).max + 1 :=
  Nat.mod_eq_of_lt h

/-- The counters after a copy id has been given. -/
theorem slot_addOne : (g.addOne packetId).2.slot id =
    if id % W = packetId % W then
      ⟨((g.slot packetId).max + 1) % 2 ^ 16, ((g.slot packetId).num + 1) % 2 ^ 16⟩
    else g.slot id := by
  simp only [slot, addOne, Function.update_apply]

/-- The counters after a packet has been taken off. -/
theorem slot_removeOne : (g.removeOne packetId).slot id =
    if id % W = packetId % W then
      if (g.slot packetId).num = 0 then ⟨0, 0⟩
      else ⟨(g.slot packetId).max, (g.slot packetId).num - 1⟩
    else g.slot id := by
  simp only [slot, removeOne, Function.update_apply]

end CopyIdGenerator

/-! ## The invariant -/

/-- What keeps copy ids apart: a copy id is at most the last one that its counter
gave. -/
structure State.Inv (s : State) : Prop where
  old : ∀ p ∈ s.live, p.packetId < s.nextId
  given : ∀ p ∈ s.live, p.copyId ≤ (s.generator.slot p.packetId).max
  nodup : s.live.Nodup

namespace State

variable {s s' : State} {op : Op} {ops : List Op}

theorem step_clone {i : ℕ} (h : s.step (.clone i) = some s') :
    ∃ p, s.live[i]? = some p ∧ s' = { s with
      generator := (s.generator.addOne p.packetId).2
      live := s.live ++ [⟨p.packetId, (s.generator.addOne p.packetId).1⟩] } := by
  obtain ⟨p, hp, h⟩ := Option.bind_eq_some_iff.mp h
  exact ⟨p, hp, (Option.some.inj h).symm⟩

theorem step_destroy {i : ℕ} (h : s.step (.destroy i) = some s') :
    ∃ p, s.live[i]? = some p ∧ s' = { s with
      generator := s.generator.removeOne p.packetId
      live := s.live.eraseIdx i } := by
  obtain ⟨p, hp, h⟩ := Option.bind_eq_some_iff.mp h
  exact ⟨p, hp, (Option.some.inj h).symm⟩

theorem inv_init : init.Inv where
  old := by simp [init]
  given := by simp [init]
  nodup := List.nodup_nil

theorem Inv.create (h : s.Inv) {packetId : ℕ} (hfresh : s.nextId ≤ packetId) :
    Inv { s with live := s.live ++ [⟨packetId, 0⟩], nextId := packetId + 1 } where
  old := by
    intro p hp
    rcases List.mem_append.mp hp with hp | hp
    · have := h.old p hp
      dsimp only
      omega
    · obtain rfl := List.mem_singleton.mp hp
      exact Nat.lt_succ_self _
  given := by
    intro p hp
    rcases List.mem_append.mp hp with hp | hp
    · exact h.given p hp
    · obtain rfl := List.mem_singleton.mp hp
      exact Nat.zero_le _
  nodup := by
    refine List.nodup_append.mpr ⟨h.nodup, List.nodup_singleton _, ?_⟩
    intro p hp q hq heq
    obtain rfl := List.mem_singleton.mp hq
    have := h.old p hp
    rw [heq] at this
    dsimp only at this
    omega

/-- **A clone** gets a copy id that no packet on its counter has. -/
theorem Inv.clone (h : s.Inv) {p : Packet} (hp : p ∈ s.live)
    (hmax : (s.generator.slot p.packetId).max + 1 < 2 ^ 16) :
    Inv { s with
      generator := (s.generator.addOne p.packetId).2
      live := s.live ++ [⟨p.packetId, (s.generator.addOne p.packetId).1⟩] } := by
  have hcopy := CopyIdGenerator.addOne_eq hmax
  refine ⟨?_, ?_, ?_⟩
  · intro q hq
    rcases List.mem_append.mp hq with hq | hq
    · exact h.old q hq
    · obtain rfl := List.mem_singleton.mp hq
      exact h.old p hp
  · intro q hq
    rw [CopyIdGenerator.slot_addOne]
    rcases List.mem_append.mp hq with hq | hq
    · have hle := h.given q hq
      split_ifs with hsame
      · rw [CopyIdGenerator.slot, hsame] at hle
        exact Nat.le_trans (Nat.le_succ_of_le hle) (Nat.le_of_eq hcopy.symm)
      · exact hle
    · obtain rfl := List.mem_singleton.mp hq
      rw [if_pos rfl]
      exact Nat.le_refl _
  · refine List.nodup_append.mpr ⟨h.nodup, List.nodup_singleton _, ?_⟩
    intro q hq r hr heq
    obtain rfl := List.mem_singleton.mp hr
    subst heq
    have hle := h.given _ hq
    rw [hcopy] at hle
    dsimp only at hle
    omega

theorem Inv.destroy (h : s.Inv) {i : ℕ} {p : Packet}
    (hsafe : (s.generator.slot p.packetId).num = 0 →
      ∀ q ∈ s.live.eraseIdx i, q.packetId % W = p.packetId % W → q.copyId = 0) :
    Inv { s with generator := s.generator.removeOne p.packetId, live := s.live.eraseIdx i } where
  old q hq := h.old q ((List.eraseIdx_subset) hq)
  given := by
    intro q hq
    have hle := h.given q (List.eraseIdx_subset hq)
    rw [CopyIdGenerator.slot_removeOne]
    split_ifs with hsame hnum
    · have hzero := hsafe hnum q hq hsame
      omega
    · rw [CopyIdGenerator.slot, hsame] at hle
      exact hle
    · exact hle
  nodup := h.nodup.eraseIdx i

theorem Inv.step (h : s.Inv) (hsafe : s.Safe op) (hstep : s.step op = some s') : s'.Inv := by
  cases op with
  | create packetId =>
    rw [State.step] at hstep
    split_ifs at hstep with hfresh
    obtain rfl := Option.some.inj hstep
    exact h.create hfresh
  | clone i =>
    obtain ⟨p, hp, rfl⟩ := step_clone hstep
    exact h.clone (List.mem_of_getElem? hp) (hsafe p hp)
  | destroy i =>
    obtain ⟨p, hp, rfl⟩ := step_destroy hstep
    exact h.destroy (hsafe p hp)

theorem inv_of_run (hsafe : Runs.Always State.step Safe init ops)
    (hrun : Runs.run State.step init ops = some s) : s.Inv :=
  hsafe.invariant (fun _ _ _ h hsafe hstep => h.step hsafe hstep) inv_init hrun

theorem Inv.nodup_getUniqueId (h : s.Inv) : (s.live.map Packet.getUniqueId).Nodup :=
  List.Nodup.map Packet.getUniqueId_injective h.nodup

/-- **Packets that are alive have different ids**, as long as the clones get the
next copy id and none starts again under a living copy. -/
theorem unique_ids_of_run (hsafe : Runs.Always State.step Safe init ops)
    (hrun : Runs.run State.step init ops = some s) :
    (s.live.map Packet.getUniqueId).Nodup :=
  (inv_of_run hsafe hrun).nodup_getUniqueId

/-- A packet and its two clones, of which one is gone. -/
theorem unique_ids_of_clones :
    ∃ s, Runs.run State.step init [.create 7, .clone 0, .clone 1, .destroy 1] = some s ∧
      Runs.Always State.step Safe init [.create 7, .clone 0, .clone 1, .destroy 1] ∧
      s.live = [⟨7, 0⟩, ⟨7, 2⟩] ∧ (s.live.map Packet.getUniqueId).Nodup := by
  have hsafe : Runs.Always State.step Safe init [.create 7, .clone 0, .clone 1, .destroy 1] := by
    refine ⟨trivial, ?_⟩
    rintro _ ⟨⟩
    refine ⟨by rintro p ⟨⟩; decide, ?_⟩
    rintro _ ⟨⟩
    refine ⟨by rintro p ⟨⟩; decide, ?_⟩
    rintro _ ⟨⟩
    refine ⟨?_, fun _ _ => trivial⟩
    rintro p ⟨⟩ hnum
    exact absurd hnum (by decide)
  exact ⟨_, rfl, hsafe, rfl, unique_ids_of_run hsafe rfl⟩

/-- **Two packets with one id.** Packets 0 and 4096 are on one counter. When both
are gone it starts again, while the clone of packet 0 is alive, and a clone of the
clone gets the copy id of the clone. -/
theorem unique_id_given_twice :
    ∃ s, Runs.run State.step init
        [.create 0, .clone 0, .create 4096, .destroy 2, .destroy 0, .clone 0] = some s ∧
      s.live.map Packet.getUniqueId = ["0.1", "0.1"] :=
  ⟨_, rfl, rfl⟩

end State

end Packets

end P4Bricks
