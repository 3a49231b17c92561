import P4Bricks.Serialization.Units
import P4Bricks.Stateful.Refusals
/-!
# A meter that is restored from its dump

`serialize` writes the rates in the order they are kept in, the highest first, and
`deserialize` gives each its place with `set_rate`, which takes the color from the place:
the rates are the same, and the colors go the other way round.
-/

namespace P4Bricks

open Bisimilar Extraction
open Serialization (MeterRate Rate)

namespace Stateful

/-- A rate is read as it was written. -/
class ExactRate (R : Type) [Rate R] : Prop where
  clean : ∀ rate : R, (Rate.format R).Clean (Rate.write rate)
  read_write : ∀ rate : R, Rate.read (Rate.write rate) = rate

namespace Meter

variable {R : Type} [InfoRate R] [Rate R]

/-- A meter with its buckets as full as `set_rate` makes them. -/
def refill (m : Meter R) : Meter R :=
  { m with rates := m.rates.map fun rate => { rate with tokens := rate.burstSize, tokensLast := 0 } }

/-- `deserialize`, on what `serialize` wrote. -/
def restore (m m₀ : Meter R) : Option (Meter R) := do
  let items ← m.toMeter.serialize.output
  let (meter, _) ← m₀.toMeter.deserialize.run (render items)
  return { m₀ with toMeter := meter }

/-- The requests of packets with these times, lengths and colors. -/
def executes (packets : List (ℕ × ℕ × ℕ)) : List (ℕ × Request R) :=
  packets.map fun p => (p.1, .execute p.2.1 p.2.2)

/-- A meter is restored with its rates, and gives later packets the colors it would have
given them with full buckets. -/
def Restores (now : ℕ) (m m₀ : Meter R) : Prop :=
  ∃ m', restore m m₀ = some m' ∧ m'.getRates = m.getRates ∧
    ∀ packets, From now packets →
      answers serve m' (executes packets) = answers serve m.refill (executes packets)

variable {m m₀ : Meter R} {rateCount now : ℕ} {type : MeterType}

/-- The rates in the order of the dump. -/
def dumped (rates : List (MeterRate R)) : List (R × ℕ) :=
  rates.map fun rate => (rate.infoRate, rate.burstSize)

omit [InfoRate R] in
/-- **The loop** writes the rates of the dump from the first place on. -/
theorem reads_rates [ExactRate R] (m₀ : Serialization.Meter R) (rates : List (MeterRate R))
    (hlen : m₀.rates.length = rates.length) :
    Reads (.all MeterRate.serialize rates)
      (Reader.iterate Serialization.Meter.deserializeRate m₀.rates.length (0, m₀)) True
      (·.2 = { m₀ with rates := writtenFrom 0 (dumped rates) }) := by
  rw [hlen]
  -- What is read is written in front, and what there was is left behind it.
  have hloop : Reads (.all MeterRate.serialize rates)
      (Reader.iterate Serialization.Meter.deserializeRate rates.length (0, m₀))
      (∀ rate ∈ rates, (Rate.format R).Clean (Rate.write rate.infoRate)) fun s =>
        ∃ front rest, front ++ [] = rates ∧ s.1 = front.length ∧ rest.length = 0 ∧
          s.2 = { m₀ with rates := writtenFrom 0 (dumped front) ++ rest } := by
    refine Reads.iterate (I := fun l (s : ℕ × Serialization.Meter R) => ∃ front rest, front ++ l = rates ∧
      s.1 = front.length ∧ rest.length = l.length ∧
        s.2 = { m₀ with rates := writtenFrom 0 (dumped front) ++ rest }) (a := (0, m₀))
      ⟨[], m₀.rates, rfl, rfl, hlen, rfl⟩ ?_
    rintro rate l ⟨idx, meter⟩ ⟨front, rest, hfront, hidx, hrest, hmeter⟩
    obtain rfl : idx = _ := hidx
    obtain rfl : meter = _ := hmeter
    obtain ⟨old, rest, rfl⟩ := List.exists_cons_of_length_eq_add_one hrest
    refine (Serialization.reads_rate rate _).mono ?_
    rintro s rfl
    refine ⟨front ++ [rate], rest, ?_, ?_, ?_, ?_⟩
    · rw [List.append_assoc]
      exact hfront
    · simp
    · simpa using hrest
    · have hlong : (writtenFrom 0 (dumped front)).length = front.length := by simp [dumped]
      have hdumped : dumped (front ++ [rate]) = dumped front ++ [(rate.infoRate, rate.burstSize)] := by
        simp [dumped]
      rw [hdumped, writtenFrom_concat, List.append_assoc, ExactRate.read_write]
      simp only [Serialization.Meter.setRate]
      rw [← hlong, modify_append]
      simp [written, dumped]
  refine (hloop.congr ?_).mono ?_
  · exact iff_of_true (fun rate _ => ExactRate.clean rate.infoRate) trivial
  · rintro s ⟨front, rest, hfront, -, hrest, hs⟩
    rw [List.append_nil] at hfront
    rw [hs, hfront, List.length_eq_zero_iff.mp hrest, List.append_nil]

omit [InfoRate R] [Rate R] in
theorem tokensLast_of_mem_writtenFrom {idx : ℕ} {configs : List (R × ℕ)} {rate : MeterRate R}
    (h : rate ∈ writtenFrom idx configs) : rate.tokensLast = 0 := by
  induction configs generalizing idx with
  | nil => cases h
  | cons config configs ih =>
    rcases List.mem_cons.mp h with rfl | h
    · rfl
    · exact ih h

omit [InfoRate R] in
theorem restore_eq [ExactRate R] (hon : m.configured = true)
    (hlen : m₀.rates.length = m.rates.length) :
    restore m m₀ = some
      { m₀ with rates := writtenFrom 0 (dumped m.rates), configured := true } := by
  have hreads : Reads m.toMeter.serialize m₀.toMeter.deserialize True
      (· = ⟨writtenFrom 0 (dumped m.rates), true⟩) := by
    rw [Serialization.Meter.serialize, if_pos hon, hon]
    refine ((Serialization.reads_bool true).bind fun b hb => ?_).congr (and_self_iff)
    subst hb
    rw [if_pos rfl]
    refine ((reads_rates { m₀.toMeter with configured := true } m.rates hlen).map (D := True)
      fun s hs => .pure hs).congr (and_self_iff)
  obtain ⟨items, meter, hitems, rfl, hfeed⟩ := hreads.reads trivial
  have hfeed' : m₀.toMeter.deserialize.feed (items.map Item.text) =
      some (⟨writtenFrom 0 (dumped m.rates), true⟩, []) := by
    simpa using hfeed []
  have hnone : ∀ c ∈ ([] : Text), isSpace c = true := fun _ hc => absurd hc List.not_mem_nil
  obtain ⟨ws, -, hrun⟩ := Reader.run_of_feed hnone hfeed' []
  unfold restore Writer.output
  rw [hitems]
  rw [List.nil_append, List.append_nil] at hrun
  simp only [Option.bind_eq_bind, Option.bind_some, hrun]
  rfl

omit [InfoRate R] in
/-- **The rates come back**, whatever their number. -/
theorem getRates_restore [ExactRate R] (hon : m.configured = true)
    (hlen : m₀.rates.length = m.rates.length) :
    ∃ m', restore m m₀ = some m' ∧ m'.getRates = m.getRates := by
  refine ⟨_, restore_eq hon hlen, ?_⟩
  unfold getRates
  rw [if_pos rfl, if_pos hon, map_writtenFrom]
  rfl

omit [InfoRate R] [Rate R] in
/-- A rate that is alone gets the color it had. -/
theorem writtenFrom_of_short {rates : List (MeterRate R)} (hlen : rates.length ≤ 1)
    (hvalid : ∀ rate ∈ rates, rate.valid = true)
    (hcolor : ∀ rate ∈ rates.head?, rate.color = rates.length) :
    writtenFrom 0 (dumped rates) =
      rates.map fun rate => { rate with tokens := rate.burstSize, tokensLast := 0 } := by
  rcases rates with _ | ⟨rate, _ | ⟨rate', rates⟩⟩
  · rfl
  · have hv : rate.valid = true := hvalid rate (List.mem_cons_self ..)
    have hc : rate.color = 1 := hcolor rate rfl
    simp [written, writtenFrom, dumped, hv, hc]
  · rw [List.length_cons, List.length_cons] at hlen
    omega

/-- **A configured meter is restored** exactly when it has no more than one rate. -/
theorem restores_iff [Inhabited R] [SteadyRate R] [ExactRate R]
    (h : Reached serve RequestFits (create type rateCount : Meter R) now m)
    (hon : m.configured = true) (htype : m₀.type = m.type)
    (hlen : m₀.rates.length = rateCount) : Restores now m m₀ ↔ rateCount ≤ 1 := by
  have hsound := sound_of_reached h
  have hrestore := restore_eq hon (hlen.trans hsound.length.symm)
  constructor
  · rintro ⟨m', hm', -, hsame⟩
    obtain rfl := Option.some.inj (hrestore.symm.trans hm')
    by_contra htwo
    have hlong : 0 < m.rates.length := by rw [hsound.length]; omega
    obtain ⟨rate, rates, hm⟩ := List.exists_cons_of_length_pos hlong
    -- Drained, the restored meter gives color 1 and the other the highest.
    have hpackets : executes (List.replicate (2 ^ 64 + 1) (now, 1, 0)) =
        List.replicate (2 ^ 64 + 1) (now, (.execute 1 0 : Request R)) := List.map_replicate ..
    have htimes : From now (List.replicate (2 ^ 64 + 1) (now, (1, 0))) := by
      unfold From
      rw [List.map_replicate, ← List.replicate_succ]
      exact List.pairwise_replicate.mpr (Or.inr le_rfl)
    have hdrained := hsame _ htimes
    rw [hpackets] at hdrained
    have hrest : (writtenFrom 0 (dumped m.rates)) =
        written 0 (rate.infoRate, rate.burstSize) :: writtenFrom 1 (dumped rates) := by
      rw [hm]
      rfl
    have hfull : m.refill.rates = { rate with tokens := rate.burstSize, tokensLast := 0 } ::
        rates.map fun rate => { rate with tokens := rate.burstSize, tokensLast := 0 } := by
      unfold refill
      rw [hm]
      rfl
    have hup : ∀ r ∈ writtenFrom 0 (dumped m.rates), UpTo now r := by
      intro r hr
      unfold UpTo
      rw [tokensLast_of_mem_writtenFrom hr]
      exact Nat.zero_le _
    have hup' : ∀ r ∈ m.refill.rates, UpTo now r := by
      intro r hr
      obtain ⟨r₀, -, rfl⟩ := List.mem_map.mp hr
      exact Nat.zero_le _
    have hon' : m.refill.configured = true := hon
    have hcolor := color_eq_of_answers_eq rfl hon' hrest hfull hup hup' hdrained
    have hhigh : rate.color = rateCount := hsound.color hon rate (by rw [hm]; rfl)
    have hlow : (1 : ℕ) = rate.color := hcolor
    omega
  · intro hone
    obtain ⟨m', hm', hrates⟩ := getRates_restore hon (hlen.trans hsound.length.symm)
    refine ⟨m', hm', hrates, fun packets _ => ?_⟩
    obtain rfl := Option.some.inj (hrestore.symm.trans hm')
    have hsame : writtenFrom 0 (dumped m.rates) = m.refill.rates := by
      refine writtenFrom_of_short (hsound.length.trans_le hone) (hsound.valid hon) ?_
      rw [hsound.length]
      exact hsound.color hon
    have heq : ({ m₀ with rates := writtenFrom 0 (dumped m.rates), configured := true } : Meter R) =
        m.refill := by
      rw [hsame, htype, ← hon]
      rfl
    rw [heq]

/-! ## Whole rates -/

/-- Whole rates, which are written in decimal. -/
instance : Rate ℕ := ⟨fun rate => decimal rate, number, fun t => (ofDecimal t).toNat⟩

instance : ExactRate ℕ where
  clean rate := clean_decimal rate
  read_write rate := by
    have hread : (ofDecimal (decimal rate)).toNat = rate := by
      rw [ofDecimal_decimal, Int.toNat_natCast]
    exact hread

instance : InfoRate ℕ where
  exceeds prev rate := decide (rate < prev)
  tokensSinceInit micros rate := micros * rate

instance : SteadyRate ℕ := ⟨fun rate _ _ h => Nat.mul_le_mul_right rate h⟩

/-- A meter of one rate is restored, and one of two is not. -/
theorem restores_whole :
    Restores 0 ((create .packets 1 : Meter ℕ).setRates [(1, 5)]).2 (create .packets 1) ∧
    ¬ Restores 0 ((create .packets 2 : Meter ℕ).setRates [(1, 1), (1, 5)]).2 (create .packets 2) := by
  have hone : (create .packets 1 : Meter ℕ).Harmless [(1, 5)] := by decide
  have htwo : (create .packets 2 : Meter ℕ).Harmless [(1, 1), (1, 5)] := by decide
  constructor
  · exact (restores_iff (.next (r := .setRates [(1, 5)]) .new le_rfl hone rfl) rfl rfl rfl).mpr
      le_rfl
  · intro h
    have hle := (restores_iff (.next (r := .setRates [(1, 1), (1, 5)]) .new le_rfl htwo rfl)
      rfl rfl rfl).mp h
    omega

/-- **What goes wrong**: the second packet is yellow, and red for the restored meter. -/
theorem restored_two_rates :
    ∃ m m' : Meter ℕ, m = ((create .packets 2 : Meter ℕ).setRates [(0, 1), (0, 5)]).2 ∧
      restore m (create .packets 2) = some m' ∧ m'.getRates = m.getRates ∧
      answers serve m.refill (executes [(0, 64, 0), (0, 64, 0)]) =
        [some (.color 0), some (.color 1)] ∧
      answers serve m' (executes [(0, 64, 0), (0, 64, 0)]) =
        [some (.color 0), some (.color 2)] := by
  refine ⟨_, ⟨⟨writtenFrom 0 [(0, 5), (0, 1)], true⟩, .packets⟩, rfl, ?_, ?_, rfl, rfl⟩
  all_goals decide +kernel

end Meter

end Stateful

end P4Bricks
