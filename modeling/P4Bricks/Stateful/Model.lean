import P4Bricks.Serialization.Model
/-!
# Meters

`meters.cpp`: the arrays of meters, and the requests of `context.cpp` on them.

An information rate is a `double`. What is asked of it, a comparison and the tokens it
gives in some time, is a parameter.
-/

namespace P4Bricks

open Serialization (MeterRate)

namespace Stateful

/-- The codes of `MeterErrorCode`. -/
inductive ErrorCode where
  | invalidName
  | invalidIndex
  | badRatesList
  | invalidInfoRateValue
  deriving DecidableEq, Repr

abbrev Result (α : Type) := Except ErrorCode α

/-! ## Meters -/

/-- What a meter computes with information rates. -/
class InfoRate (R : Type) where
  /-- `prev_rate.info_rate > rate.info_rate`. -/
  exceeds : R → R → Bool
  /-- `static_cast<uint64_t>(micros_since_init * rate.info_rate)`. -/
  tokensSinceInit : ℕ → R → ℕ

inductive MeterType where
  | bytes
  | packets
  deriving DecidableEq, Repr

/-- `Meter`. -/
structure Meter (R : Type) extends Serialization.Meter R where
  type : MeterType
  deriving DecidableEq, Repr

namespace Meter

variable {R : Type}

/-- A meter of an array, as it is made. -/
def create [Inhabited R] (type : MeterType) (rateCount : ℕ) : Meter R where
  rates := List.replicate rateCount ⟨false, default, 0, 0, 0, 0⟩
  configured := false
  type := type

/-- `reset_rates`: the rates stay, but they are not valid. -/
def resetRates (m : Meter R) : Meter R :=
  { m with
    rates := m.rates.map fun rate => { rate with valid := false }
    configured := false }

/-- `get_rates`. -/
def getRates (m : Meter R) : List (R × ℕ) :=
  if m.configured then (m.rates.map fun rate => (rate.infoRate, rate.burstSize)).reverse else []

variable [InfoRate R]

/-- `set_rate`, and whether the rate before is not a higher one. -/
def setRate (m : Meter R) (idx : ℕ) (config : R × ℕ) : Bool × Meter R :=
  let m' := { m with toMeter := m.toMeter.setRate idx config.1 config.2 }
  (idx = 0 || (m'.rates[idx - 1]?).all fun prev => !InfoRate.exceeds prev.infoRate config.1, m')

/-- The loop of `set_rates`. -/
def setRatesFrom (m : Meter R) (idx : ℕ) : List (R × ℕ) → Bool × Meter R
  | [] => (true, m)
  | config :: configs =>
    match m.setRate idx config with
    | (false, m') => (false, m')
    | (true, m') => m'.setRatesFrom (idx + 1) configs

/-- `set_rates`: a refusal has overwritten rates already. -/
def setRates (m : Meter R) (configs : List (R × ℕ)) : Result Unit × Meter R :=
  if configs.length ≠ m.rates.length then (.error .badRatesList, m)
  else
    match m.setRatesFrom 0 configs with
    | (false, m') => (.error .invalidInfoRateValue, m')
    | (true, m') => (.ok (), { m' with rates := m'.rates.reverse, configured := true })

/-- The loop of `execute`: the color of the first rate without tokens. -/
def executeRates (input micros : ℕ) : List (MeterRate R) → Option (ℕ × List (MeterRate R))
  | [] => some (0, [])
  | rate :: rates =>
    let tokens := InfoRate.tokensSinceInit micros rate.infoRate
    if tokens < rate.tokensLast then none
    else
      let filled := min ((rate.tokens + (tokens - rate.tokensLast)) % 2 ^ 64) rate.burstSize
      if filled < input then
        some (rate.color, { rate with tokensLast := tokens, tokens := filled } :: rates)
      else do
        let (color, rates) ← executeRates input micros rates
        return (color, { rate with tokensLast := tokens, tokens := filled - input } :: rates)

/-- `execute`, with the color. -/
def execute (m : Meter R) (length micros preColor : ℕ) : Option (ℕ × Meter R) :=
  if !m.configured then some (0, m)
  else do
    let input := match m.type with
      | .packets => 1
      | .bytes => length
    let (color, rates) ← executeRates input micros m.rates
    return (max preColor color, { m with rates := rates })

/-- `MeterArray::set_rates`: it stops at the first refusal. -/
def setArrayRates (configs : List (R × ℕ)) : List (Meter R) → Result Unit × List (Meter R)
  | [] => (.ok (), [])
  | m :: ms =>
    match m.setRates configs with
    | (.error e, m') => (.error e, m' :: ms)
    | (.ok _, m') =>
      let r := setArrayRates configs ms
      (r.1, m' :: r.2)

end Meter

end Stateful

end P4Bricks
