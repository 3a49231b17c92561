import P4Bricks.Common.Bisimilar
import P4Bricks.Common.Pointwise
import P4Bricks.Stateful.Rates
/-!
# Meters that answer alike

What is asked of a meter and of an array of them, and what they answer. A meter that is
not configured keeps the rates it had, and nobody sees them: all of them are written
before it is configured again, and a rate is compared with one that was written just
before. So two meters that are not configured answer alike, whatever their rates are.
-/

namespace P4Bricks

open Bisimilar

namespace Stateful

/-- What is asked of a meter. -/
inductive Request (R : Type) where
  | execute (length preColor : ℕ)
  | setRates (configs : List (R × ℕ))
  | resetRates
  | getRates

inductive Answer (R : Type) where
  | color (c : ℕ)
  | code (result : Result Unit)
  | rates (configs : List (R × ℕ))

/-- What is asked of an array of meters: something of one of them, or of all. -/
inductive ArrayRequest (R : Type) where
  | get (idx : ℕ) (request : Request R)
  | setRates (configs : List (R × ℕ))
  | resetState

namespace Meter

variable {R : Type} [InfoRate R] {m m' : Meter R} {ms ms' : List (Meter R)}

/-- What a meter answers at some microsecond. -/
def serve (m : Meter R) : ℕ × Request R → Option (Answer R × Meter R)
  | (micros, .execute length preColor) =>
    (m.execute length micros preColor).map fun r => (.color r.1, r.2)
  | (_, .setRates configs) => some (.code (m.setRates configs).1, (m.setRates configs).2)
  | (_, .resetRates) => some (.code (.ok ()), m.resetRates)
  | (_, .getRates) => some (.rates m.getRates, m)

/-- What an array answers. An index out of its range is a meter that does not exist. -/
def serveArray (ms : List (Meter R)) : ℕ × ArrayRequest R → Option (Answer R × List (Meter R))
  | (micros, .get idx request) =>
    ms[idx]?.bind fun m => (m.serve (micros, request)).map fun r => (r.1, ms.set idx r.2)
  | (_, .setRates configs) =>
    some (.code (setArrayRates configs ms).1, (setArrayRates configs ms).2)
  | (_, .resetState) => some (.code (.ok ()), ms.map resetRates)

/-- The code of `set_rates` depends on nothing but the number of rates. -/
theorem setRates_fst (m : Meter R) (configs : List (R × ℕ)) :
    (m.setRates configs).1 =
      if configs.length ≠ m.rates.length then .error .badRatesList
      else if ascending none configs then .ok () else .error .invalidInfoRateValue := by
  by_cases hlen : configs.length = m.rates.length
  · obtain ⟨hok, -⟩ := setRatesFrom_append configs [] m m.rates rfl hlen.symm
    rw [List.length_nil, List.getLast?_nil, Option.map_none] at hok
    unfold setRates
    rw [if_neg (not_not.mpr hlen), if_neg (not_not.mpr hlen)]
    rcases hfrom : m.setRatesFrom 0 configs with ⟨ok, m'⟩
    rw [hfrom] at hok
    obtain rfl : ok = _ := hok
    rcases ascending none configs with _ | _
    · rfl
    · rfl
  · rw [setRates_of_length_ne hlen, if_pos hlen]

/-- Meters that nobody can tell apart. -/
structure Alike (m m' : Meter R) : Prop where
  type : m.type = m'.type
  length : m.rates.length = m'.rates.length
  configured : m.configured = m'.configured
  rates : m.configured = true → m.rates = m'.rates

omit [InfoRate R] in
theorem Alike.refl (m : Meter R) : m.Alike m := ⟨rfl, rfl, rfl, fun _ => rfl⟩

omit [InfoRate R] in
theorem alike_of_not_configured (htype : m.type = m'.type)
    (hlen : m.rates.length = m'.rates.length) (hoff : m.configured = false)
    (hoff' : m'.configured = false) : m.Alike m' where
  type := htype
  length := hlen
  configured := hoff.trans hoff'.symm
  rates hon := by rw [hoff] at hon; cases hon

omit [InfoRate R] in
/-- Meters that are configured are alike when they are the same. -/
theorem Alike.eq (h : m.Alike m') (hon : m.configured = true) : m = m' := by
  obtain ⟨⟨rates, configured⟩, type⟩ := m
  obtain ⟨⟨rates', configured'⟩, type'⟩ := m'
  obtain ⟨htype, -, hconf, hrates⟩ := h
  obtain rfl : type = type' := htype
  obtain rfl : configured = configured' := hconf
  obtain rfl : rates = rates' := hrates hon
  rfl

omit [InfoRate R] in
theorem alike_resetRates (htype : m.type = m'.type) (hlen : m.rates.length = m'.rates.length) :
    m.resetRates.Alike m'.resetRates :=
  alike_of_not_configured htype (by simp [resetRates, hlen]) rfl rfl

/-- A refusal does not show on a meter that is not configured. -/
theorem alike_setRates_of_refused {configs : List (R × ℕ)} (hasc : ascending none configs = false)
    (hoff : m.configured = false) : (m.setRates configs).2.Alike m := by
  obtain ⟨htype, hlen, -⟩ := m.setRates_snd configs
  exact alike_of_not_configured htype hlen ((setRates_refused hasc).trans hoff) hoff

theorem Alike.setRates (h : m.Alike m') (configs : List (R × ℕ)) :
    Same Alike (m.setRates configs) (m'.setRates configs) := by
  refine ⟨by rw [setRates_fst, setRates_fst, h.length], ?_⟩
  cases hon : m.configured with
  | true =>
    rw [h.eq hon]
    exact .refl _
  | false =>
    have hoff' : m'.configured = false := h.configured.symm.trans hon
    by_cases hlen : configs.length = m.rates.length
    · have hlen' : configs.length = m'.rates.length := hlen.trans h.length
      cases hasc : ascending none configs with
      | true =>
        rw [setRates_accepted hlen hasc, setRates_accepted hlen' hasc]
        exact ⟨h.type, rfl, rfl, fun _ => rfl⟩
      | false =>
        obtain ⟨htype, hlength, -⟩ := m.setRates_snd configs
        obtain ⟨htype', hlength', -⟩ := m'.setRates_snd configs
        refine alike_of_not_configured ?_ ?_ ((setRates_refused hasc).trans hon)
          ((setRates_refused hasc).trans hoff')
        · rw [htype, htype', h.type]
        · rw [hlength, hlength', h.length]
    · rw [setRates_of_length_ne hlen, setRates_of_length_ne (fun heq => hlen (heq.trans h.length.symm))]
      exact h

/-- **Meters that are alike answer alike.** -/
theorem Alike.serve (h : m.Alike m') (r : ℕ × Request R) :
    Both (Same Alike) (m.serve r) (m'.serve r) := by
  cases hon : m.configured with
  | true =>
    rw [h.eq hon]
    rcases m'.serve r with _ | ⟨answer, m''⟩
    · exact .none
    · exact .some ⟨rfl, .refl m''⟩
  | false =>
    have hoff' : m'.configured = false := h.configured.symm.trans hon
    obtain ⟨micros, request⟩ := r
    cases request with
    | execute length preColor =>
      simp only [Meter.serve, execute, hon, hoff']
      exact .some ⟨rfl, h⟩
    | setRates configs =>
      obtain ⟨hcode, hnext⟩ := h.setRates configs
      exact .some ⟨congrArg Answer.code hcode, hnext⟩
    | resetRates => exact .some ⟨rfl, alike_resetRates h.type h.length⟩
    | getRates =>
      refine .some ⟨congrArg Answer.rates ?_, h⟩
      unfold getRates
      rw [hon, hoff']
      rfl

omit [InfoRate R] in
theorem alike_array_refl (ms : List (Meter R)) : List.Forall₂ Alike ms ms :=
  List.forall₂_same.mpr fun m _ => .refl m

theorem alike_setArrayRates (h : List.Forall₂ Alike ms ms') (configs : List (R × ℕ)) :
    Same (List.Forall₂ Alike) (setArrayRates configs ms) (setArrayRates configs ms') := by
  induction h with
  | nil => exact ⟨rfl, .nil⟩
  | @cons m m' ms ms' hm hms ih =>
    obtain ⟨hcode, hnext⟩ := hm.setRates configs
    unfold setArrayRates
    rcases hset : m.setRates configs with ⟨e | ok, m₁⟩
    · rcases hset' : m'.setRates configs with ⟨e' | ok', m₁'⟩
      · rw [hset, hset'] at hcode hnext
        exact ⟨hcode, .cons hnext hms⟩
      · rw [hset, hset'] at hcode
        cases hcode
    · rcases hset' : m'.setRates configs with ⟨e' | ok', m₁'⟩
      · rw [hset, hset'] at hcode
        cases hcode
      · rw [hset, hset'] at hnext
        exact ⟨ih.1, .cons hnext ih.2⟩

/-- **Arrays of meters that are alike** answer alike. -/
theorem alike_serveArray (h : List.Forall₂ Alike ms ms') (r : ℕ × ArrayRequest R) :
    Both (Same (List.Forall₂ Alike)) (serveArray ms r) (serveArray ms' r) := by
  obtain ⟨micros, request⟩ := r
  cases request with
  | get idx request =>
    have hget : Both Alike ms[idx]? ms'[idx]? := by
      rcases lt_or_ge idx ms.length with hidx | hidx
      · have hidx' : idx < ms'.length := by rwa [← h.length_eq]
        rw [List.getElem?_eq_getElem hidx, List.getElem?_eq_getElem hidx']
        exact .some (h.get hidx hidx')
      · rw [List.getElem?_eq_none hidx, List.getElem?_eq_none (by rwa [← h.length_eq])]
        exact .none
    refine hget.bind fun m m' hm => (hm.serve (micros, request)).map fun a a' ha => ⟨ha.1, ?_⟩
    exact forall₂_set h idx ha.2
  | setRates configs =>
    obtain ⟨hcode, hnext⟩ := alike_setArrayRates h configs
    exact .some ⟨congrArg Answer.code hcode, hnext⟩
  | resetState =>
    refine .some ⟨rfl, ?_⟩
    exact List.rel_map (fun m m' hm => alike_resetRates hm.type hm.length) h

end Meter

end Stateful

end P4Bricks
