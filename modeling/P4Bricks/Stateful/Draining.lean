import P4Bricks.Stateful.Alike
/-!
# A meter that is drained

Packets that come at one and the same microsecond find no new tokens. So they take the
first rate down to nothing, however many tokens it had, and from then on every packet
gets the color of the first rate. In this way the color shows.
-/

namespace P4Bricks

open Bisimilar
open Serialization (MeterRate)

namespace Stateful

/-- More tokens have come in a longer time. -/
class SteadyRate (R : Type) [InfoRate R] : Prop where
  mono : ∀ (rate : R) {s t : ℕ}, s ≤ t → InfoRate.tokensSinceInit s rate ≤ InfoRate.tokensSinceInit t rate

namespace Meter

variable {R : Type} [InfoRate R] {m m' : Meter R} {rate : MeterRate R}
variable {rates rates' : List (MeterRate R)} {input micros now color : ℕ}

/-- A rate has not seen more tokens than there are at a time. -/
def UpTo (micros : ℕ) (rate : MeterRate R) : Prop :=
  rate.tokensLast ≤ InfoRate.tokensSinceInit micros rate.infoRate

/-- The tokens that a rate has when it is looked at. -/
def filled (micros : ℕ) (rate : MeterRate R) : ℕ :=
  min ((rate.tokens + (InfoRate.tokensSinceInit micros rate.infoRate - rate.tokensLast)) % 2 ^ 64)
    rate.burstSize

/-- A rate that was looked at, and what is left in it. -/
def seen (micros tokens : ℕ) (rate : MeterRate R) : MeterRate R :=
  { rate with
    tokensLast := InfoRate.tokensSinceInit micros rate.infoRate
    tokens := tokens }

theorem upTo_mono [SteadyRate R] {s t : ℕ} (h : UpTo s rate) (hst : s ≤ t) : UpTo t rate :=
  h.trans (SteadyRate.mono _ hst)

/-- A rate that has too few tokens gives its color. -/
theorem executeRates_of_lt (hnow : UpTo micros rate) (hlt : filled micros rate < input) :
    executeRates input micros (rate :: rates) =
      some (rate.color, seen micros (filled micros rate) rate :: rates) := by
  unfold executeRates
  dsimp only
  rw [if_neg (not_lt.mpr hnow)]
  exact if_pos hlt

/-- A rate with enough tokens lets the packet pass. -/
theorem executeRates_of_le (hnow : UpTo micros rate) (hle : input ≤ filled micros rate) :
    executeRates input micros (rate :: rates) = (executeRates input micros rates).map fun r =>
      (r.1, seen micros (filled micros rate - input) rate :: r.2) := by
  rw [executeRates]
  dsimp only
  rw [if_neg (not_lt.mpr hnow)]
  refine (if_neg (not_lt.mpr hle)).trans ?_
  rcases executeRates input micros rates with _ | ⟨color, rates'⟩
  · rfl
  · rfl

/-- **The loop** does not stop where no rate is ahead of the time. -/
theorem executeRates_upTo (input : ℕ) (h : ∀ rate ∈ rates, UpTo micros rate) :
    ∃ color rates', executeRates input micros rates = some (color, rates') := by
  induction rates with
  | nil => exact ⟨0, [], rfl⟩
  | cons rate rates ih =>
    obtain ⟨hrate, hrates⟩ := List.forall_mem_cons.mp h
    rcases lt_or_ge (filled micros rate) input with hlt | hle
    · exact ⟨_, _, executeRates_of_lt hrate hlt⟩
    · obtain ⟨color, rates', heq⟩ := ih hrates
      rw [executeRates_of_le hrate hle, heq]
      exact ⟨_, _, rfl⟩

/-- The loop keeps every rate at its place, and changes nothing of it but its tokens. -/
theorem executeRates_kept (h : executeRates input micros rates = some (color, rates')) :
    List.Forall₂ (fun old new => new = old ∨ ∃ tokens, new = seen micros tokens old)
      rates rates' := by
  induction rates generalizing rates' color with
  | nil =>
    obtain ⟨-, rfl⟩ := Prod.mk.inj (Option.some.inj h)
    exact .nil
  | cons rate rates ih =>
    have hrate : UpTo micros rate := by
      by_contra hlate
      unfold executeRates at h
      dsimp only at h
      rw [if_pos (not_le.mp hlate)] at h
      cases h
    rcases lt_or_ge (filled micros rate) input with hlt | hle
    · rw [executeRates_of_lt hrate hlt] at h
      obtain ⟨-, rfl⟩ := Prod.mk.inj (Option.some.inj h)
      exact .cons (Or.inr ⟨_, rfl⟩) (List.forall₂_same.mpr fun _ _ => Or.inl rfl)
    · rw [executeRates_of_le hrate hle] at h
      obtain ⟨⟨color', rest⟩, hrest, heq⟩ := Option.map_eq_some_iff.mp h
      obtain ⟨-, rfl⟩ := Prod.mk.inj heq
      exact .cons (Or.inr ⟨_, rfl⟩) (ih hrest)

/-- What holds of every rate, however many tokens it has, holds after a packet. -/
theorem forall_of_kept {P : MeterRate R → Prop}
    (h : List.Forall₂ (fun old new => new = old ∨ ∃ tokens, new = seen micros tokens old)
      rates rates') (hseen : ∀ tokens rate, P rate → P (seen micros tokens rate))
    (hP : ∀ rate ∈ rates, P rate) : ∀ rate ∈ rates', P rate := by
  intro new hnew
  obtain ⟨i, hi, rfl⟩ := List.getElem_of_mem hnew
  have hi' : i < rates.length := by rwa [h.length_eq]
  have hold := hP _ (List.getElem_mem hi')
  rcases h.get hi' hi with hsame | ⟨tokens, hnew⟩
  · rw [List.get_eq_getElem, List.get_eq_getElem] at hsame
    rwa [hsame]
  · rw [List.get_eq_getElem, List.get_eq_getElem] at hnew
    rw [hnew]
    exact hseen tokens _ hold

/-- A packet finds the rates as they are at its time, and so do those after it. -/
theorem upTo_of_executeRates (h : executeRates input micros rates = some (color, rates'))
    (hrates : ∀ rate ∈ rates, UpTo micros rate) : ∀ rate ∈ rates', UpTo micros rate :=
  forall_of_kept (executeRates_kept h) (fun _ _ _ => le_rfl) hrates

/-- A packet of length one takes one token, of whatever kind the meter is. -/
theorem execute_one (hon : m.configured = true) (micros : ℕ) :
    m.execute 1 micros 0 = (executeRates 1 micros m.rates).map fun r =>
      (r.1, { m with rates := r.2 }) := by
  have hinput : m.execute 1 micros 0 = (executeRates 1 micros m.rates).bind fun r =>
      some (max 0 r.1, { m with rates := r.2 }) := by
    obtain ⟨⟨rates, configured⟩, type⟩ := m
    obtain rfl : configured = true := hon
    cases type with
    | bytes => rfl
    | packets => rfl
  rw [hinput]
  rcases executeRates 1 micros m.rates with _ | ⟨color, rates'⟩
  · rfl
  · simp

/-- **One packet** takes a token of the first rate, or gets its color. -/
theorem serve_one (hon : m.configured = true) (hm : m.rates = rate :: rates)
    (hup : ∀ rate ∈ m.rates, UpTo micros rate) :
    ∃ color m' rates', m.serve (micros, .execute 1 0) = some (.color color, m') ∧
      m'.configured = true ∧ m'.rates = seen micros (filled micros rate - 1) rate :: rates' ∧
      (∀ rate ∈ m'.rates, UpTo micros rate) ∧ (filled micros rate = 0 → color = rate.color) := by
  have hrate : UpTo micros rate := hup rate (by rw [hm]; exact List.mem_cons_self ..)
  have hrates : ∀ rate ∈ rates, UpTo micros rate := fun r hr =>
    hup r (by rw [hm]; exact List.mem_cons_of_mem _ hr)
  have hserve : ∀ color rates', executeRates 1 micros m.rates = some (color, rates') →
      m.serve (micros, .execute 1 0) = some (.color color, { m with rates := rates' }) := by
    intro color rates' heq
    rw [Meter.serve, execute_one hon, heq]
    rfl
  rcases lt_or_ge (filled micros rate) 1 with hlt | hle
  · have hzero : filled micros rate = 0 := Nat.lt_one_iff.mp hlt
    have hexecute : executeRates 1 micros (rate :: rates) = _ := executeRates_of_lt hrate hlt
    rw [← hm] at hexecute
    refine ⟨_, _, rates, hserve _ _ hexecute, hon, ?_, upTo_of_executeRates hexecute hup,
      fun _ => rfl⟩
    rw [hzero]
  · obtain ⟨color, rates', heq⟩ := executeRates_upTo 1 hrates
    have hexecute : executeRates 1 micros (rate :: rates) = _ := executeRates_of_le hrate hle
    rw [← hm, heq] at hexecute
    exact ⟨_, _, rates', hserve _ _ hexecute, hon, rfl, upTo_of_executeRates hexecute hup,
      fun hzero => by omega⟩

/-- A rate that was just looked at has no more tokens than were left in it. -/
theorem filled_seen_le (micros tokens : ℕ) (rate : MeterRate R) :
    filled micros (seen micros tokens rate) ≤ tokens := by
  have hnone : filled micros (seen micros tokens rate) =
      min ((tokens + (InfoRate.tokensSinceInit micros rate.infoRate -
        InfoRate.tokensSinceInit micros rate.infoRate)) % 2 ^ 64) rate.burstSize := rfl
  rw [hnone, Nat.sub_self, Nat.add_zero]
  exact (min_le_left ..).trans (Nat.mod_le ..)

/-- **In the end a packet gets the color of the first rate.** -/
theorem getLast_answers_drained {n : ℕ} (hon : m.configured = true) (hm : m.rates = rate :: rates)
    (hup : ∀ rate ∈ m.rates, UpTo micros rate) (hn : filled micros rate ≤ n) :
    (answers serve m (List.replicate (n + 1) (micros, .execute 1 0))).getLast? =
      some (some (.color rate.color)) := by
  induction n generalizing m rate rates with
  | zero =>
    obtain ⟨color, m', rates', hserve, -, -, -, hcolor⟩ := serve_one hon hm hup
    rw [← hcolor (Nat.le_zero.mp hn), List.replicate_one, answers, hserve]
    rfl
  | succ n ih =>
    obtain ⟨color, m', rates', hserve, hon', hm', hup', -⟩ := serve_one hon hm hup
    have hless : filled micros (seen micros (filled micros rate - 1) rate) ≤ n :=
      (filled_seen_le ..).trans (by omega)
    have hlast := ih hon' hm' hup' hless
    rw [List.replicate_succ, answers, hserve]
    refine List.getLast?_cons.trans ?_
    rw [hlast]
    rfl

/-- No meter has more tokens than fit into 64 bits. -/
theorem filled_le (micros : ℕ) (rate : MeterRate R) : filled micros rate ≤ 2 ^ 64 :=
  (min_le_left ..).trans (Nat.mod_lt _ (by decide)).le

/-- **Meters that are drained alike** have one color first. -/
theorem color_eq_of_answers_eq {rate' : MeterRate R} (hon : m.configured = true)
    (hon' : m'.configured = true) (hm : m.rates = rate :: rates) (hm' : m'.rates = rate' :: rates')
    (hup : ∀ rate ∈ m.rates, UpTo micros rate) (hup' : ∀ rate ∈ m'.rates, UpTo micros rate)
    (heq : answers serve m (List.replicate (2 ^ 64 + 1) (micros, .execute 1 0)) =
      answers serve m' (List.replicate (2 ^ 64 + 1) (micros, .execute 1 0))) :
    rate.color = rate'.color := by
  have hlast := getLast_answers_drained hon hm hup (filled_le micros rate)
  have hlast' := getLast_answers_drained hon' hm' hup' (filled_le micros rate')
  rw [heq, hlast'] at hlast
  injection hlast with hlast
  injection hlast with hlast
  injection hlast with hlast
  exact hlast.symm

end Meter

end Stateful

end P4Bricks
