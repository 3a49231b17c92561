import P4Bricks.Stateful.Colors
import P4Bricks.Stateful.Draining
/-!
# Rates that are refused

`set_rates` is to take a list of rates or to leave everything as it is. It does so for
a list of another length, for one that ascends, and on a meter that is not configured.
In all other cases it has overwritten the first rate, which gives the highest color, by
one that gives the lowest, and a meter that is drained shows it.
-/

namespace P4Bricks

open Bisimilar
open Serialization (MeterRate)

namespace Stateful

instance : SteadyRate ℚ≥0 := ⟨fun rate _ _ h => Bucket.arrived_mono rate (Nat.cast_le.mpr h)⟩

/-- The requests come in order, and none before a time. -/
def From {Op : Type} (now : ℕ) (requests : List (ℕ × Op)) : Prop :=
  (now :: requests.map Prod.fst).Pairwise (· ≤ ·)

/-- What requests that fit make of a state, and the time of the last. -/
inductive Reached {S Op A : Type} (step : S → ℕ × Op → Option (A × S)) (Fits : S → Op → Prop)
    (new : S) : ℕ → S → Prop
  | new : Reached step Fits new 0 new
  | next {now micros : ℕ} {s s' : S} {r : Op} {a : A} (h : Reached step Fits new now s)
      (hnow : now ≤ micros) (hfits : Fits s r) (hstep : step s (micros, r) = some (a, s')) :
      Reached step Fits new micros s'

namespace Meter

variable {R : Type} [InfoRate R]

/-- `set_rates` takes the list, or returns an error and nobody can tell. -/
def SetRatesAtomic (now : ℕ) (m : Meter R) (configs : List (R × ℕ)) : Prop :=
  ((m.setRates configs).1 = .ok () ∧ (m.setRates configs).2.getRates = configs) ∨
  ∃ e, (m.setRates configs).1 = .error e ∧ ∀ requests, From now requests →
    answers serve (m.setRates configs).2 requests = answers serve m requests

/-- The same of `set_rates` on an array. -/
def SetArrayRatesAtomic (now : ℕ) (ms : List (Meter R)) (configs : List (R × ℕ)) : Prop :=
  ((setArrayRates configs ms).1 = .ok () ∧
    ∀ m ∈ (setArrayRates configs ms).2, m.getRates = configs) ∨
  ∃ e, (setArrayRates configs ms).1 = .error e ∧ ∀ requests, From now requests →
    answers serveArray (setArrayRates configs ms).2 requests = answers serveArray ms requests

/-- The list has another length, or it ascends, or nobody has configured the meter. -/
def Harmless (m : Meter R) (configs : List (R × ℕ)) : Prop :=
  configs.length = m.rates.length → ascending none configs = false → m.configured = false

instance (m : Meter R) (configs : List (R × ℕ)) : Decidable (m.Harmless configs) :=
  inferInstanceAs (Decidable (_ → _ → _))

/-- An array looks at the list when it comes to its first meter. -/
def ArrayHarmless (ms : List (Meter R)) (configs : List (R × ℕ)) : Prop :=
  ∀ m ∈ ms.head?, m.Harmless configs

/-- No list is refused halfway. -/
def RequestFits (m : Meter R) : Request R → Prop
  | .setRates configs => m.Harmless configs
  | _ => True

def ArrayRequestFits (ms : List (Meter R)) : ArrayRequest R → Prop
  | .get idx request => ∀ m ∈ ms[idx]?, m.RequestFits request
  | .setRates configs => ArrayHarmless ms configs
  | .resetState => True

variable {m m' : Meter R} {ms : List (Meter R)} {configs : List (R × ℕ)}
variable {rateCount now micros : ℕ}

/-! ## What is enough -/

omit [InfoRate R] in
theorem map_writtenFrom (idx : ℕ) (configs : List (R × ℕ)) :
    (writtenFrom idx configs).map (fun rate => (rate.infoRate, rate.burstSize)) = configs := by
  induction configs generalizing idx with
  | nil => rfl
  | cons config configs ih => rw [writtenFrom, List.map_cons, ih, written]

/-- The list that is taken is the list that `get_rates` returns. -/
theorem getRates_setRates (hlen : configs.length = m.rates.length)
    (hasc : ascending none configs = true) :
    (m.setRates configs).1 = .ok () ∧ (m.setRates configs).2.getRates = configs := by
  rw [setRates_accepted hlen hasc]
  refine ⟨rfl, ?_⟩
  unfold getRates
  rw [if_pos rfl, List.map_reverse, List.reverse_reverse, map_writtenFrom]

/-- What is harmless and not taken leaves the meter as good as it was. -/
theorem alike_setRates_of_harmless (h : m.Harmless configs)
    (hnot : ¬(configs.length = m.rates.length ∧ ascending none configs = true)) :
    (∃ e, (m.setRates configs).1 = .error e) ∧ (m.setRates configs).2.Alike m := by
  rw [setRates_fst]
  by_cases hlen : configs.length = m.rates.length
  · have hasc : ascending none configs = false := by
      rw [← Bool.not_eq_true]
      exact fun hasc => hnot ⟨hlen, hasc⟩
    rw [if_neg (not_not.mpr hlen), hasc]
    exact ⟨⟨_, rfl⟩, alike_setRates_of_refused hasc (h hlen hasc)⟩
  · rw [if_pos hlen, setRates_of_length_ne hlen]
    exact ⟨⟨_, rfl⟩, .refl m⟩

theorem setRatesAtomic_of_harmless (h : m.Harmless configs) (now : ℕ) :
    SetRatesAtomic now m configs := by
  by_cases htaken : configs.length = m.rates.length ∧ ascending none configs = true
  · exact Or.inl (getRates_setRates htaken.1 htaken.2)
  · obtain ⟨⟨e, he⟩, halike⟩ := alike_setRates_of_harmless h htaken
    exact Or.inr ⟨e, he, fun requests _ => answers_eq (fun _ _ r hr => hr.serve r) halike requests⟩

/-- An array whose first meter refuses. -/
theorem setArrayRates_cons_error {e : ErrorCode} (he : (m.setRates configs).1 = .error e) :
    setArrayRates configs (m :: ms) = (.error e, (m.setRates configs).2 :: ms) := by
  unfold setArrayRates
  rcases hset : m.setRates configs with ⟨e' | ok, m'⟩
  · rw [hset] at he
    injection he with he
    rw [he]
  · rw [hset] at he
    cases he

theorem setArrayRates_cons_ok (hok : (m.setRates configs).1 = .ok ()) :
    setArrayRates configs (m :: ms) =
      ((setArrayRates configs ms).1, (m.setRates configs).2 :: (setArrayRates configs ms).2) := by
  rw [setArrayRates]
  rcases hset : m.setRates configs with ⟨e | ok, m'⟩
  · rw [hset] at hok
    cases hok
  · rfl

/-- An array takes a list that ascends with each of its meters. -/
theorem setArrayRates_accepted (hasc : ascending none configs = true)
    (hlen : ∀ m ∈ ms, configs.length = m.rates.length) :
    setArrayRates configs ms = (.ok (), ms.map fun m => (m.setRates configs).2) := by
  induction ms with
  | nil => rfl
  | cons m ms ih =>
    obtain ⟨hm, hms⟩ := List.forall_mem_cons.mp hlen
    rw [setArrayRates_cons_ok (getRates_setRates hm hasc).1, ih hms]
    rfl

theorem setArrayRatesAtomic_of_harmless (h : ArrayHarmless ms configs)
    (hlen : ∀ m ∈ ms, m.rates.length = rateCount) (now : ℕ) :
    SetArrayRatesAtomic now ms configs := by
  rcases ms with _ | ⟨m, ms⟩
  · exact Or.inl ⟨rfl, fun m hm => by cases hm⟩
  · by_cases htaken : configs.length = m.rates.length ∧ ascending none configs = true
    · -- All meters have as many rates as the first.
      have hlen' : ∀ m' ∈ m :: ms, configs.length = m'.rates.length := fun m' hm' =>
        htaken.1.trans ((hlen m (List.mem_cons_self ..)).trans (hlen m' hm').symm)
      refine Or.inl ?_
      rw [setArrayRates_accepted htaken.2 hlen']
      refine ⟨rfl, fun m' hm' => ?_⟩
      obtain ⟨m₀, hm₀, rfl⟩ := List.mem_map.mp hm'
      exact (getRates_setRates (hlen' m₀ hm₀) htaken.2).2
    · obtain ⟨⟨e, he⟩, halike⟩ := alike_setRates_of_harmless (h m rfl) htaken
      refine Or.inr ⟨e, ?_, fun requests _ => ?_⟩
      · rw [setArrayRates_cons_error he]
      · rw [setArrayRates_cons_error he]
        exact answers_eq (fun _ _ r hr => alike_serveArray hr r)
          (.cons halike (alike_array_refl ms)) requests

/-! ## What is needed -/

/-- What holds of the rates, and of every rate that is written, holds afterwards. -/
theorem forall_setRates {P : MeterRate R → Prop} (hwritten : ∀ idx config, P (written idx config))
    (h : ∀ rate ∈ m.rates, P rate) : ∀ rate ∈ (m.setRates configs).2.rates, P rate := by
  have hround : ∀ (m : Meter R) idx config, (∀ rate ∈ m.rates, P rate) →
      ∀ rate ∈ (m.setRate idx config).2.rates, P rate := by
    intro m idx config hm rate hrate
    obtain ⟨i, hi, rfl⟩ := List.getElem_of_mem hrate
    simp only [setRate, Serialization.Meter.setRate, List.getElem_modify]
    split
    · exact hwritten idx config
    · exact hm _ (List.getElem_mem _)
  have hloop : ∀ (configs : List (R × ℕ)) (m : Meter R) idx, (∀ rate ∈ m.rates, P rate) →
      ∀ rate ∈ (m.setRatesFrom idx configs).2.rates, P rate := by
    intro configs
    induction configs with
    | nil => exact fun m idx hm => hm
    | cons config configs ih =>
      intro m idx hm
      have hm' := hround m idx config hm
      rw [setRatesFrom]
      rcases hset : m.setRate idx config with ⟨_ | _, m₁⟩
      · rwa [hset] at hm'
      · rw [hset] at hm'
        exact ih m₁ (idx + 1) hm'
  have hm' := hloop configs m 0 h
  unfold setRates
  split
  · exact h
  · rcases hfrom : m.setRatesFrom 0 configs with ⟨_ | _, m'⟩
    · rwa [hfrom] at hm'
    · rw [hfrom] at hm'
      exact fun rate hrate => hm' rate (List.mem_reverse.mp hrate)

/-- The loop does not come back to the first rate. -/
theorem head?_setRatesFrom (m : Meter R) (idx : ℕ) (configs : List (R × ℕ)) :
    (m.setRatesFrom (idx + 1) configs).2.rates.head? = m.rates.head? := by
  induction configs generalizing m idx with
  | nil => rfl
  | cons config configs ih =>
    have hround : (m.setRate (idx + 1) config).2.rates.head? = m.rates.head? := by
      simp only [setRate, Serialization.Meter.setRate]
      rcases m.rates with _ | ⟨rate, rates⟩
      · rfl
      · rfl
    rw [setRatesFrom]
    rcases hset : m.setRate (idx + 1) config with ⟨_ | _, m₁⟩
    · rwa [hset] at hround
    · rw [hset] at hround
      exact (ih m₁ (idx + 1)).trans hround

/-- **A refusal** has written the first rate. -/
theorem head?_setRates_refused (hlen : configs.length = m.rates.length)
    (hasc : ascending none configs = false) :
    ∃ config, (m.setRates configs).2.rates.head? = some (written 0 config) := by
  obtain ⟨hok, -⟩ := setRatesFrom_append configs [] m m.rates rfl hlen.symm
  rw [List.length_nil, List.getLast?_nil, Option.map_none, hasc] at hok
  have hrefused : (m.setRates configs).2 = (m.setRatesFrom 0 configs).2 := by
    unfold setRates
    rw [if_neg (not_not.mpr hlen)]
    rcases hfrom : m.setRatesFrom 0 configs with ⟨ok, m'⟩
    rw [hfrom] at hok
    obtain rfl : ok = false := hok
    rfl
  rw [hrefused]
  rcases configs with _ | ⟨config, configs⟩
  · cases hasc
  · obtain ⟨old, rest, hm⟩ := List.exists_cons_of_length_eq_add_one hlen.symm
    have hfirst : m.setRate 0 config = (true, { m with rates := written 0 config :: rest }) :=
      @setRate_append R _ m [] rest old hm config
    rw [setRatesFrom, hfirst]
    exact ⟨config, head?_setRatesFrom _ 0 configs⟩

/-- The meter has its rates and has not been asked about a later time, and its first rate
gives the highest color. -/
structure Sound (rateCount now : ℕ) (m : Meter R) : Prop where
  length : m.rates.length = rateCount
  upTo : ∀ rate ∈ m.rates, UpTo now rate
  valid : m.configured = true → ∀ rate ∈ m.rates, rate.valid = true
  color : m.configured = true → ∀ rate ∈ m.rates.head?, rate.color = rateCount

/-- **What is needed**: a refusal that is not harmless shows. -/
theorem Sound.harmless (h : m.Sound rateCount now) (hatomic : SetRatesAtomic now m configs) :
    m.Harmless configs := by
  intro hlen hasc
  by_contra hon
  rw [Bool.not_eq_false] at hon
  have hfst := m.setRates_fst configs
  rw [if_neg (not_not.mpr hlen), hasc] at hfst
  rcases hatomic with ⟨hok, -⟩ | ⟨e, -, hsame⟩
  · rw [hfst] at hok
    cases hok
  · obtain ⟨config, hhead⟩ := head?_setRates_refused hlen hasc
    have hon' : (m.setRates configs).2.configured = true := (setRates_refused hasc).trans hon
    have hup' : ∀ rate ∈ (m.setRates configs).2.rates, UpTo now rate :=
      forall_setRates (fun _ _ => Nat.zero_le _) h.upTo
    -- Only a list of two rates or more can descend.
    have htwo : 2 ≤ rateCount := by
      rw [← h.length, ← hlen]
      rcases configs with _ | ⟨c, _ | ⟨c', configs⟩⟩
      · cases hasc
      · cases hasc
      · simp
    have hlong : 0 < m.rates.length := by rw [h.length]; omega
    obtain ⟨rate, rates, hm⟩ := List.exists_cons_of_length_pos hlong
    obtain ⟨rates', hm'⟩ : ∃ rates', (m.setRates configs).2.rates = written 0 config :: rates' :=
      List.head?_eq_some_iff.mp hhead
    have htimes : From now (List.replicate (2 ^ 64 + 1) (now, (.execute 1 0 : Request R))) := by
      unfold From
      rw [List.map_replicate, ← List.replicate_succ]
      exact List.pairwise_replicate.mpr (Or.inr le_rfl)
    have hcolor := color_eq_of_answers_eq hon' hon hm' hm hup' h.upTo (hsame _ htimes)
    have hhigh := h.color hon rate (by rw [hm]; rfl)
    rw [← hcolor] at hhigh
    have hlow : (written 0 config).color = 1 := rfl
    omega

/-! ## Runs -/

theorem sound_create [Inhabited R] (type : MeterType) (rateCount : ℕ) :
    (create type rateCount : Meter R).Sound rateCount 0 where
  length := List.length_replicate ..
  upTo rate hrate := by
    rw [List.eq_of_mem_replicate hrate]
    exact Nat.zero_le _
  valid hon := by cases hon
  color hon := by cases hon

theorem Sound.later [SteadyRate R] (h : m.Sound rateCount now) (hnow : now ≤ micros) :
    m.Sound rateCount micros where
  length := h.length
  upTo rate hrate := upTo_mono (h.upTo rate hrate) hnow
  valid := h.valid
  color := h.color

/-- What `execute` does to a meter. -/
theorem execute_eq_some {length preColor color : ℕ}
    (h : m.execute length micros preColor = some (color, m')) :
    m' = m ∨ ∃ input color' rates', executeRates input micros m.rates = some (color', rates') ∧
      m' = { m with rates := rates' } := by
  unfold execute at h
  split at h
  · obtain ⟨-, rfl⟩ := Prod.mk.inj (Option.some.inj h)
    exact Or.inl rfl
  · obtain ⟨⟨color', rates'⟩, hrates, heq⟩ := Option.bind_eq_some_iff.mp h
    obtain ⟨-, rfl⟩ := Prod.mk.inj (Option.some.inj heq)
    exact Or.inr ⟨_, color', rates', hrates, rfl⟩

omit [InfoRate R] in
theorem valid_of_mem_writtenFrom {idx : ℕ} {rate : MeterRate R}
    (h : rate ∈ writtenFrom idx configs) : rate.valid = true := by
  induction configs generalizing idx with
  | nil => cases h
  | cons config configs ih =>
    rcases List.mem_cons.mp h with rfl | h
    · rfl
    · exact ih h

/-- A packet does not change the color of the first rate. -/
theorem head_color_of_kept {rates rates' : List (MeterRate R)} {color : ℕ}
    (h : List.Forall₂ (fun old new => new = old ∨ ∃ tokens, new = seen micros tokens old)
      rates rates') (hcolor : ∀ rate ∈ rates.head?, rate.color = color) :
    ∀ rate ∈ rates'.head?, rate.color = color := by
  intro rate hrate
  rcases h with _ | ⟨hfirst, -⟩
  · cases hrate
  · obtain rfl := Option.some.inj hrate
    have hold := hcolor _ rfl
    rcases hfirst with rfl | ⟨tokens, rfl⟩
    · exact hold
    · exact hold

theorem Sound.execute {length preColor color : ℕ} (h : m.Sound rateCount micros)
    (hexecute : m.execute length micros preColor = some (color, m')) :
    m'.Sound rateCount micros := by
  rcases execute_eq_some hexecute with rfl | ⟨input, color', rates', heq, rfl⟩
  · exact h
  · have hkept := executeRates_kept heq
    refine ⟨hkept.length_eq.symm.trans h.length, upTo_of_executeRates heq h.upTo, fun hon => ?_,
      fun hon => head_color_of_kept hkept (h.color hon)⟩
    exact forall_of_kept hkept (fun _ _ hvalid => hvalid) (h.valid hon)

theorem Sound.setRates (h : m.Sound rateCount now) (hfits : m.Harmless configs) :
    (m.setRates configs).2.Sound rateCount now := by
  refine ⟨(m.setRates_snd configs).2.1.trans h.length,
    forall_setRates (fun _ _ => Nat.zero_le _) h.upTo, ?_, ?_⟩
  · intro hon
    by_cases htaken : configs.length = m.rates.length ∧ ascending none configs = true
    · rw [setRates_accepted htaken.1 htaken.2]
      exact fun rate hrate => valid_of_mem_writtenFrom (List.mem_reverse.mp hrate)
    · have halike := (alike_setRates_of_harmless hfits htaken).2
      rw [halike.rates hon]
      exact h.valid (halike.configured.symm.trans hon)
  by_cases htaken : configs.length = m.rates.length ∧ ascending none configs = true
  · rw [setRates_accepted htaken.1 htaken.2]
    intro _ rate hrate
    rw [← h.length, ← htaken.1]
    rcases List.eq_nil_or_concat' configs with rfl | ⟨front, last, rfl⟩
    · cases hrate
    · rw [writtenFrom_concat, List.reverse_concat] at hrate
      obtain rfl := Option.some.inj hrate
      simp [written]
  · have halike := (alike_setRates_of_harmless hfits htaken).2
    intro hon
    rw [halike.rates hon]
    exact h.color (halike.configured.symm.trans hon)

theorem Sound.resetRates (h : m.Sound rateCount now) :
    m.resetRates.Sound rateCount now := by
  refine ⟨(List.length_map _).trans h.length, fun rate hrate => ?_, nofun, nofun⟩
  obtain ⟨rate₀, hrate₀, rfl⟩ := List.mem_map.mp hrate
  exact h.upTo rate₀ hrate₀

/-- **One request** that fits. -/
theorem Sound.serve (h : m.Sound rateCount micros) {request : Request R} {answer : Answer R}
    (hfits : m.RequestFits request) (hserve : m.serve (micros, request) = some (answer, m')) :
    m'.Sound rateCount micros := by
  cases request with
  | execute length preColor =>
    obtain ⟨⟨color, m₁⟩, hexecute, heq⟩ := Option.map_eq_some_iff.mp hserve
    obtain ⟨-, rfl⟩ := Prod.mk.inj heq
    exact h.execute hexecute
  | setRates configs =>
    obtain ⟨-, rfl⟩ := Prod.mk.inj (Option.some.inj hserve)
    exact h.setRates hfits
  | resetRates =>
    obtain ⟨-, rfl⟩ := Prod.mk.inj (Option.some.inj hserve)
    exact h.resetRates
  | getRates =>
    obtain ⟨-, rfl⟩ := Prod.mk.inj (Option.some.inj hserve)
    exact h

/-- **Every run** whose requests fit. -/
theorem sound_of_reached [Inhabited R] [SteadyRate R] {type : MeterType}
    (h : Reached serve RequestFits (create type rateCount : Meter R) now m) :
    m.Sound rateCount now := by
  induction h with
  | new => exact sound_create type rateCount
  | next _ hnow hfits hstep ih => exact (ih.later hnow).serve hfits hstep

/-- The meters of an array stay sound when it is told new rates. -/
theorem sound_setArrayRates (h : ∀ m ∈ ms, m.Sound rateCount now)
    (hfits : ArrayHarmless ms configs) :
    ∀ m ∈ (setArrayRates configs ms).2, m.Sound rateCount now := by
  rcases ms with _ | ⟨m, ms⟩
  · exact fun m hm => by cases hm
  · obtain ⟨hm, hms⟩ := List.forall_mem_cons.mp h
    by_cases htaken : configs.length = m.rates.length ∧ ascending none configs = true
    · have hlen : ∀ m' ∈ m :: ms, configs.length = m'.rates.length := fun m' hm' =>
        htaken.1.trans (hm.length.trans (h m' hm').length.symm)
      rw [setArrayRates_accepted htaken.2 hlen]
      intro m' hm'
      obtain ⟨m₀, hm₀, rfl⟩ := List.mem_map.mp hm'
      refine (h m₀ hm₀).setRates fun _ hasc => ?_
      rw [htaken.2] at hasc
      cases hasc
    · obtain ⟨⟨e, he⟩, -⟩ := alike_setRates_of_harmless (hfits m rfl) htaken
      rw [setArrayRates_cons_error he]
      exact List.forall_mem_cons.mpr ⟨hm.setRates (hfits m rfl), hms⟩

theorem sound_serveArray {request : ArrayRequest R} {answer : Answer R} {ms' : List (Meter R)}
    (h : ∀ m ∈ ms, m.Sound rateCount micros) (hfits : ArrayRequestFits ms request)
    (hserve : serveArray ms (micros, request) = some (answer, ms')) :
    ∀ m ∈ ms', m.Sound rateCount micros := by
  cases request with
  | get idx request =>
    obtain ⟨m₀, hm₀, hget⟩ := Option.bind_eq_some_iff.mp hserve
    obtain ⟨⟨answer', m₁⟩, hone, heq⟩ := Option.map_eq_some_iff.mp hget
    obtain ⟨-, rfl⟩ := Prod.mk.inj heq
    intro m hm
    rcases List.mem_or_eq_of_mem_set hm with hmem | rfl
    · exact h m hmem
    · exact (h m₀ (List.mem_of_getElem? hm₀)).serve (hfits m₀ hm₀) hone
  | setRates configs =>
    obtain ⟨-, rfl⟩ := Prod.mk.inj (Option.some.inj hserve)
    exact sound_setArrayRates h hfits
  | resetState =>
    obtain ⟨-, rfl⟩ := Prod.mk.inj (Option.some.inj hserve)
    intro m hm
    obtain ⟨m₀, hm₀, rfl⟩ := List.mem_map.mp hm
    exact (h m₀ hm₀).resetRates

theorem sound_of_reachedArray [Inhabited R] [SteadyRate R] {type : MeterType} {size : ℕ}
    (h : Reached serveArray ArrayRequestFits
      (List.replicate size (create type rateCount : Meter R)) now ms) :
    ∀ m ∈ ms, m.Sound rateCount now := by
  induction h with
  | new =>
    intro m hm
    rw [List.eq_of_mem_replicate hm]
    exact sound_create type rateCount
  | next _ hnow hfits hstep ih =>
    exact sound_serveArray (fun m hm => (ih m hm).later hnow) hfits hstep

/-- What the first meter of an array answers. -/
theorem answers_first (m : Meter R) (ms : List (Meter R)) (requests : List (ℕ × Request R)) :
    answers serveArray (m :: ms) (requests.map fun r => (r.1, .get 0 r.2)) =
      answers serve m requests := by
  induction requests generalizing m with
  | nil => rfl
  | cons r requests ih =>
    have hfirst : serveArray (m :: ms) (r.1, .get 0 r.2) =
        (m.serve r).map fun a => (a.1, a.2 :: ms) := rfl
    rw [List.map_cons, answers, answers, hfirst]
    rcases m.serve r with _ | ⟨answer, m'⟩
    · rfl
    · simp only [Option.map_some, ih]

/-- An array is told no more than its first meter. -/
theorem arrayHarmless_of_atomic (h : ∀ m ∈ ms, m.Sound rateCount now)
    (hatomic : SetArrayRatesAtomic now ms configs) : ArrayHarmless ms configs := by
  rcases ms with _ | ⟨m, ms⟩
  · intro m hm
    cases hm
  · rintro _ ⟨⟩
    have hm := h m (List.mem_cons_self ..)
    rcases hcode : (m.setRates configs).1 with e | ok
    · refine hm.harmless (Or.inr ⟨e, hcode, fun requests hfrom => ?_⟩)
      rcases hatomic with ⟨hok, -⟩ | ⟨e', -, hsame⟩
      · rw [setArrayRates_cons_error hcode] at hok
        cases hok
      · rw [setArrayRates_cons_error hcode] at hsame
        have hfrom' : From now (requests.map fun r => (r.1, (.get 0 r.2 : ArrayRequest R))) := by
          unfold From at hfrom ⊢
          rwa [List.map_map]
        rw [← answers_first _ ms, ← answers_first m ms]
        exact hsame _ hfrom'
    · intro hlen hasc
      rw [setRates_fst, if_neg (not_not.mpr hlen), hasc] at hcode
      cases hcode

/-- **`set_rates` takes its list or changes nothing**, on a meter and on an array of them,
exactly when the list is harmless. -/
theorem setRatesAtomic_iff [Inhabited R] [SteadyRate R] (type : MeterType) (rateCount size : ℕ) :
    (∀ now (m : Meter R) configs, m.Harmless configs → SetRatesAtomic now m configs) ∧
    (∀ now m, Reached serve RequestFits (create type rateCount : Meter R) now m →
      ∀ configs, SetRatesAtomic now m configs ↔ m.Harmless configs) ∧
    (∀ now (ms : List (Meter R)) configs, (∀ m ∈ ms, m.rates.length = rateCount) →
      ArrayHarmless ms configs → SetArrayRatesAtomic now ms configs) ∧
    (∀ now ms, Reached serveArray ArrayRequestFits
        (List.replicate size (create type rateCount : Meter R)) now ms →
      ∀ configs, SetArrayRatesAtomic now ms configs ↔ ArrayHarmless ms configs) := by
  refine ⟨fun now m configs h => setRatesAtomic_of_harmless h now, fun now m hm configs => ?_,
    fun now ms configs hlen h => setArrayRatesAtomic_of_harmless h hlen now,
    fun now ms hms configs => ?_⟩
  · exact ⟨(sound_of_reached hm).harmless, fun h => setRatesAtomic_of_harmless h now⟩
  · have hsound := sound_of_reachedArray hms
    exact ⟨arrayHarmless_of_atomic hsound, fun h =>
      setArrayRatesAtomic_of_harmless h (fun m hm => (hsound m hm).length) now⟩

/-- A meter of two rates, alone and in an array, takes rates that are equal, and does not
refuse as it should those that descend. -/
theorem setRatesAtomic_two_rates :
    ∃ m : Meter ℚ≥0, m = ((create .packets 2 : Meter ℚ≥0).setRates [(0, 1), (0, 5)]).2 ∧
      SetRatesAtomic 0 m [(0, 4), (0, 4)] ∧ ¬ SetRatesAtomic 0 m [(1, 0), (0, 9)] ∧
      SetArrayRatesAtomic 0 [m] [(0, 4), (0, 4)] ∧
      ¬ SetArrayRatesAtomic 0 [m] [(1, 0), (0, 9)] := by
  obtain ⟨-, hmeter, -, harray⟩ := setRatesAtomic_iff (R := ℚ≥0) .packets 2 1
  have hfits : (create .packets 2 : Meter ℚ≥0).Harmless [(0, 1), (0, 5)] := by decide +kernel
  have hm := hmeter 0 _ (.next (r := .setRates [(0, 1), (0, 5)]) .new le_rfl hfits rfl)
  have hms := harray 0 _ (.next (r := .setRates [(0, 1), (0, 5)]) .new le_rfl
    (by rintro _ ⟨⟩; exact hfits) rfl)
  refine ⟨_, rfl, (hm _).mpr (by decide +kernel), mt (hm _).mp (by decide +kernel),
    (hms _).mpr ?_, fun hatomic => ?_⟩
  · rintro _ ⟨⟩
    decide +kernel
  · have hharmless := (hms _).mp hatomic _ rfl
    revert hharmless
    decide +kernel

/-- **What goes wrong**: rates that are refused have replaced those there were, in the
order of the list, and a packet that was green is yellow. -/
theorem setRates_refused_two_rates :
    ∃ m : Meter ℚ≥0, m = ((create .packets 2 : Meter ℚ≥0).setRates [(0, 1), (0, 5)]).2 ∧
      (m.setRates [(1, 0), (0, 9)]).1 = .error .invalidInfoRateValue ∧
      m.getRates = [(0, 1), (0, 5)] ∧
      (m.setRates [(1, 0), (0, 9)]).2.getRates = [(0, 9), (1, 0)] ∧
      (m.execute 128 0 0).map Prod.fst = some 0 ∧
      ((m.setRates [(1, 0), (0, 9)]).2.execute 128 0 0).map Prod.fst = some 1 := by
  refine ⟨_, rfl, ?_, ?_, ?_, ?_, ?_⟩
  all_goals decide +kernel

end Meter

end Stateful

end P4Bricks
