import P4Bricks.Stateful.Model
/-!
# What `set_rates` writes

`set_rates` overwrites the rates one after the other and stops at the first that is
lower than the one before. The loop is followed from left to right: what is before
`idx` is written, and the rate at `idx` is compared with the last of it
(`setRatesFrom_append`). So a list that ascends leaves nothing of what there was, and
any other list leaves the meter with some of both.
-/

namespace P4Bricks

open Serialization (MeterRate)

namespace Stateful

namespace Meter

variable {R : Type}

/-- What `set_rate` writes at an index. -/
def written (idx : ℕ) (config : R × ℕ) : MeterRate R :=
  ⟨true, config.1, config.2, config.2, 0, idx + 1⟩

/-- What is written from an index on. -/
def writtenFrom : ℕ → List (R × ℕ) → List (MeterRate R)
  | _, [] => []
  | idx, config :: configs => written idx config :: writtenFrom (idx + 1) configs

@[simp] theorem length_writtenFrom (idx : ℕ) (configs : List (R × ℕ)) :
    (writtenFrom idx configs).length = configs.length := by
  induction configs generalizing idx with
  | nil => rfl
  | cons config configs ih => rw [writtenFrom, List.length_cons, List.length_cons, ih]

theorem writtenFrom_concat (idx : ℕ) (configs : List (R × ℕ)) (config : R × ℕ) :
    writtenFrom idx (configs ++ [config]) =
      writtenFrom idx configs ++ [written (idx + configs.length) config] := by
  induction configs generalizing idx with
  | nil => rfl
  | cons c configs ih =>
    rw [List.cons_append, writtenFrom, ih, writtenFrom, List.cons_append, List.length_cons,
      Nat.add_right_comm, Nat.add_assoc]

/-- No rate holds more tokens than its burst size. -/
def WithinBurst (m : Meter R) : Prop := ∀ rate ∈ m.rates, rate.tokens ≤ rate.burstSize

variable [InfoRate R]

/-- Each rate is at least the one before it. -/
def ascending : Option R → List (R × ℕ) → Bool
  | _, [] => true
  | prev, config :: configs =>
    prev.all (fun p => !InfoRate.exceeds p config.1) && ascending (some config.1) configs

theorem modify_append {α : Type} (front rest : List α) (old : α) (f : α → α) :
    (front ++ old :: rest).modify front.length f = front ++ f old :: rest := by
  induction front with
  | nil => rfl
  | cons x front ih => rw [List.cons_append, List.length_cons, List.modify_succ_cons, ih,
      List.cons_append]

variable {m : Meter R}

/-- **One rate** is written, and compared with the last of those before it. -/
theorem setRate_append {front rest : List (MeterRate R)} {old : MeterRate R}
    (hm : m.rates = front ++ old :: rest) (config : R × ℕ) :
    m.setRate front.length config =
      ((front.getLast?.map MeterRate.infoRate).all fun p => !InfoRate.exceeds p config.1,
        { m with rates := front ++ written front.length config :: rest }) := by
  have hrates : m.rates.modify front.length (fun _ => written front.length config) =
      front ++ written front.length config :: rest := by
    rw [hm]
    exact modify_append front rest old _
  have hset : m.setRate front.length config =
      (front.length = 0 || ((m.rates.modify front.length fun _ =>
        written front.length config)[front.length - 1]?).all
          fun prev => !InfoRate.exceeds prev.infoRate config.1,
        { m with rates := m.rates.modify front.length fun _ => written front.length config }) := rfl
  rw [hset, hrates]
  refine Prod.ext ?_ rfl
  rcases List.eq_nil_or_concat' front with rfl | ⟨front, last, rfl⟩
  · rfl
  · rw [List.getElem?_append_left (by simp), ← List.getLast?_eq_getElem?]
    simp

/-- **The loop** goes on as long as the rates ascend. -/
theorem setRatesFrom_append (configs : List (R × ℕ)) (front : List (MeterRate R)) :
    ∀ (m : Meter R) (rest : List (MeterRate R)), m.rates = front ++ rest →
      rest.length = configs.length →
      (m.setRatesFrom front.length configs).1 =
        ascending (front.getLast?.map MeterRate.infoRate) configs ∧
      (ascending (front.getLast?.map MeterRate.infoRate) configs = true →
        (m.setRatesFrom front.length configs).2 =
          { m with rates := front ++ writtenFrom front.length configs }) := by
  -- What is already written is the front. Its last rate is what the next one is compared with.
  induction configs generalizing front with
  | nil =>
    intro m rest hm hrest
    obtain rfl := List.length_eq_zero_iff.mp hrest
    refine ⟨rfl, fun _ => ?_⟩
    rw [writtenFrom, ← hm]
    rfl
  | cons config configs ih =>
    intro m rest hm hrest
    obtain ⟨old, rest, rfl⟩ := List.exists_cons_of_length_eq_add_one hrest
    have hstep := setRate_append hm config
    have hnext : front ++ written front.length config :: rest =
        (front ++ [written front.length config]) ++ rest := by simp
    have hlast : ((front ++ [written front.length config]).getLast?.map MeterRate.infoRate) =
        some config.1 := by simp [written]
    have hrec := ih (front ++ [written front.length config])
      { m with rates := front ++ written front.length config :: rest } rest hnext
      (by simpa using hrest)
    rw [hlast, List.length_append, List.length_singleton] at hrec
    rw [ascending]
    cases hok : (front.getLast?.map MeterRate.infoRate).all fun p => !InfoRate.exceeds p config.1 with
    | false =>
      rw [hok] at hstep
      rw [setRatesFrom, hstep]
      exact ⟨by simp, fun h => by simp at h⟩
    | true =>
      rw [hok] at hstep
      rw [setRatesFrom, hstep, Bool.true_and]
      refine ⟨hrec.1, fun hasc => (hrec.2 hasc).trans ?_⟩
      rw [writtenFrom, List.append_assoc]
      rfl

/-- A round leaves the type, the flag and the number of rates, and no bucket over
its burst size. -/
theorem setRate_snd (m : Meter R) (idx : ℕ) (config : R × ℕ) :
    (m.setRate idx config).2.type = m.type ∧ (m.setRate idx config).2.configured = m.configured ∧
      (m.setRate idx config).2.rates.length = m.rates.length ∧
      (m.WithinBurst → (m.setRate idx config).2.WithinBurst) := by
  refine ⟨rfl, rfl, by simp [setRate, Serialization.Meter.setRate], fun h rate hrate => ?_⟩
  obtain ⟨i, hi, rfl⟩ := List.getElem_of_mem hrate
  simp only [setRate, Serialization.Meter.setRate, List.getElem_modify]
  split
  · exact le_rfl
  · exact h _ (List.getElem_mem _)

/-- The loop leaves them as well. -/
theorem setRatesFrom_snd (m : Meter R) (idx : ℕ) (configs : List (R × ℕ)) :
    (m.setRatesFrom idx configs).2.type = m.type ∧
      (m.setRatesFrom idx configs).2.configured = m.configured ∧
      (m.setRatesFrom idx configs).2.rates.length = m.rates.length ∧
      (m.WithinBurst → (m.setRatesFrom idx configs).2.WithinBurst) := by
  induction configs generalizing m idx with
  | nil => exact ⟨rfl, rfl, rfl, id⟩
  | cons config configs ih =>
    obtain ⟨htype, hconf, hlen, hburst⟩ := m.setRate_snd idx config
    rw [setRatesFrom]
    rcases hset : m.setRate idx config with ⟨_ | _, m₁⟩
    · rw [hset] at htype hconf hlen hburst
      exact ⟨htype, hconf, hlen, hburst⟩
    · rw [hset] at htype hconf hlen hburst
      obtain ⟨htype', hconf', hlen', hburst'⟩ := ih m₁ (idx + 1)
      exact ⟨htype'.trans htype, hconf'.trans hconf, hlen'.trans hlen, hburst' ∘ hburst⟩

variable {configs : List (R × ℕ)}

/-- A list of the right length that ascends replaces all rates, the last to be the
first. -/
theorem setRates_accepted (hlen : configs.length = m.rates.length)
    (hasc : ascending none configs = true) :
    m.setRates configs = (.ok (),
      { m with rates := (writtenFrom 0 configs).reverse, configured := true }) := by
  obtain ⟨hok, hm⟩ := setRatesFrom_append configs [] m m.rates rfl hlen.symm
  unfold setRates
  rw [if_neg (not_not.mpr hlen)]
  rcases hfrom : m.setRatesFrom 0 configs with ⟨ok, m'⟩
  rw [List.length_nil, List.getLast?_nil, Option.map_none, hfrom] at hok hm
  obtain rfl : m' = _ := hm hasc
  obtain rfl : ok = true := hok.trans hasc
  rfl

/-- A list of another length changes nothing. -/
theorem setRates_of_length_ne (hlen : configs.length ≠ m.rates.length) :
    m.setRates configs = (.error .badRatesList, m) := if_pos hlen

/-- Another list is refused. What it has overwritten stays so. -/
theorem setRates_refused (hasc : ascending none configs = false) :
    (m.setRates configs).2.configured = m.configured := by
  by_cases hlen : configs.length = m.rates.length
  · obtain ⟨hok, -⟩ := setRatesFrom_append configs [] m m.rates rfl hlen.symm
    have hconf := (m.setRatesFrom_snd 0 configs).2.1
    unfold setRates
    rw [if_neg (not_not.mpr hlen)]
    rcases hfrom : m.setRatesFrom 0 configs with ⟨ok, m'⟩
    rw [List.length_nil, List.getLast?_nil, Option.map_none, hfrom] at hok
    rw [hfrom] at hconf
    obtain rfl : ok = false := hok.trans hasc
    exact hconf
  · rw [setRates_of_length_ne hlen]

theorem setRates_snd (m : Meter R) (configs : List (R × ℕ)) :
    (m.setRates configs).2.type = m.type ∧
      (m.setRates configs).2.rates.length = m.rates.length ∧
      (m.WithinBurst → (m.setRates configs).2.WithinBurst) := by
  obtain ⟨htype, -, hlen, hburst⟩ := m.setRatesFrom_snd 0 configs
  unfold setRates
  split
  · exact ⟨rfl, rfl, id⟩
  · rcases hfrom : m.setRatesFrom 0 configs with ⟨_ | _, m'⟩
    · rw [hfrom] at htype hlen hburst
      exact ⟨htype, hlen, hburst⟩
    · rw [hfrom] at htype hlen hburst
      refine ⟨htype, (List.length_reverse ..).trans hlen, fun h rate hrate => ?_⟩
      exact hburst h rate (List.mem_reverse.mp hrate)

end Meter

end Stateful

end P4Bricks
