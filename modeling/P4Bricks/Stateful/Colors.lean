import P4Bricks.Common.TokenBuckets
import P4Bricks.Stateful.Rates
import Mathlib.Data.List.Chain
/-!
# The colors of a meter

A meter fills a bucket when it comes to look at it, with all that arrived since the
time it looked last, and it does not look at the buckets below one that refuses the
packet. `Keeps` says that each of its rates stands for a bucket of a marker that is
filled all the time. With it the colors of a meter are those of the marker, whenever
packets come and as long as three things do not happen: a color is asked of a meter
that is not configured, which forgets the color the packet had; rates are refused
when some are overwritten; or a count of tokens wraps around.
-/

namespace P4Bricks

open Serialization (MeterRate)

namespace Stateful

/-- Information rates as rationals, and the tokens they give without rounding errors. -/
instance : InfoRate ℚ≥0 where
  exceeds prev rate := decide (rate < prev)
  tokensSinceInit micros rate := Bucket.arrived rate micros

/-- What happens at some microsecond. Nothing does when one only `wait`s. -/
inductive MeterCall where
  | execute (length preColor : ℕ)
  | setRates (configs : List (ℚ≥0 × ℕ))
  | resetRates
  | wait

/-- The tokens a packet takes. -/
def MeterType.input (type : MeterType) (length : ℕ) : ℕ :=
  match type with
  | .packets => 1
  | .bytes => length

/-- What a marker of this kind and with this many rates answers. Whatever happens, the
tokens that have arrived are in its buckets. It has none before it is configured. -/
def markerCall (type : MeterType) (rateCount micros : ℕ) (k : Option Marker) :
    MeterCall → Option ℕ × Option Marker
  | .execute length preColor =>
    match k.map (Marker.advance · micros) with
    | none => (some preColor, none)
    | some k =>
      let r := Marker.mark (type.input length) k.buckets
      (some (max preColor r.1), some ⟨micros, r.2⟩)
  | .setRates configs =>
    if configs.length = rateCount ∧ (configs.map Prod.fst).Pairwise (· ≤ ·) then
      (none, some ⟨micros, (configs.map fun c => Bucket.full c.1 c.2).reverse⟩)
    else (none, k.map (Marker.advance · micros))
  | .resetRates => (none, none)
  | .wait => (none, k.map (Marker.advance · micros))

/-- The colors a marker gives. -/
def markerColors (type : MeterType) (rateCount : ℕ) : Option Marker → List (ℕ × MeterCall) → List ℕ
  | _, [] => []
  | k, (micros, c) :: calls =>
    let r := markerCall type rateCount micros k c
    r.1.toList ++ markerColors type rateCount r.2 calls

namespace Meter

/-- What a meter answers. -/
def call (m : Meter ℚ≥0) (micros : ℕ) : MeterCall → Option (Option ℕ × Meter ℚ≥0)
  | .execute length preColor => (m.execute length micros preColor).map fun r => (some r.1, r.2)
  | .setRates configs => some (none, (m.setRates configs).2)
  | .resetRates => some (none, m.resetRates)
  | .wait => some (none, m)

/-- The colors a meter gives, and the meter afterwards. -/
def colors : Meter ℚ≥0 → List (ℕ × MeterCall) → Option (List ℕ × Meter ℚ≥0)
  | m, [] => some ([], m)
  | m, (micros, c) :: calls => do
    let (color, m) ← m.call micros c
    let (rest, m) ← m.colors calls
    return (color.toList ++ rest, m)

/-- No count of tokens that the loop makes goes beyond 64 bits. -/
def NoWrap (input micros : ℕ) : List (MeterRate ℚ≥0) → Prop
  | [] => True
  | rate :: rates =>
    let tokens := InfoRate.tokensSinceInit micros rate.infoRate
    tokens < 2 ^ 64 ∧ rate.tokens + (tokens - rate.tokensLast) < 2 ^ 64 ∧
      (input ≤ min (rate.tokens + (tokens - rate.tokensLast)) rate.burstSize →
        NoWrap input micros rates)

instance NoWrap.decidable (input micros : ℕ) :
    ∀ rates : List (MeterRate ℚ≥0), Decidable (NoWrap input micros rates)
  | [] => inferInstanceAs (Decidable True)
  | _ :: rates =>
    have := NoWrap.decidable input micros rates
    inferInstanceAs (Decidable (_ ∧ _ ∧ (_ → _)))

/-- What a call may not do: ask a meter that is not configured about a packet with a
color, make a count wrap around, or have a meter that is configured refuse rates for
their order. -/
def Fits (m : Meter ℚ≥0) (micros : ℕ) : MeterCall → Prop
  | .execute length preColor => (m.configured = false → preColor = 0) ∧
    (m.configured = true → NoWrap (m.type.input length) micros m.rates)
  | .setRates configs => m.configured = true → configs.length = m.rates.length →
    (configs.map Prod.fst).Pairwise (· ≤ ·)
  | _ => True

instance (m : Meter ℚ≥0) (micros : ℕ) : ∀ c, Decidable (m.Fits micros c)
  | .execute .. => inferInstanceAs (Decidable (_ ∧ _))
  | .setRates _ => inferInstanceAs (Decidable (_ → _ → _))
  | .resetRates | .wait => inferInstanceAs (Decidable True)

/-- Every call of the run fits the meter it is made on. -/
def AllFit : Meter ℚ≥0 → List (ℕ × MeterCall) → Prop
  | _, [] => True
  | m, (micros, c) :: calls => m.Fits micros c ∧
    match m.call micros c with
    | none => True
    | some r => r.2.AllFit calls

instance AllFit.decidable : ∀ (m : Meter ℚ≥0) (calls : List (ℕ × MeterCall)),
    Decidable (m.AllFit calls)
  | _, [] => inferInstanceAs (Decidable True)
  | m, (micros, c) :: calls =>
    have : Decidable (match m.call micros c with
        | none => True
        | some r => r.2.AllFit calls) :=
      match m.call micros c with
      | none => inferInstanceAs (Decidable True)
      | some r => AllFit.decidable r.2 calls
    inferInstanceAs (Decidable (_ ∧ _))

/-! ## Rates that stand for buckets -/

/-- The rates of a meter stand for the buckets of a marker, and have their colors. -/
inductive Keeps (t : ℚ≥0) : List (MeterRate ℚ≥0) → List Bucket → Prop where
  | nil : Keeps t [] []
  | cons {rate rates b bs} (hrate : rate.infoRate = b.rate) (hburst : rate.burstSize = b.burst)
      (hcolor : rate.color = bs.length + 1)
      (hstands : Bucket.StandsFor rate.tokens rate.tokensLast t b) (hrest : Keeps t rates bs) :
      Keeps t (rate :: rates) (b :: bs)

variable {s t : ℚ≥0} {rates : List (MeterRate ℚ≥0)} {bs : List Bucket} {input micros : ℕ}

theorem Keeps.advance (h : Keeps s rates bs) (hst : s ≤ t) :
    Keeps t rates (bs.map (Bucket.advance s t)) := by
  induction h with
  | nil => exact .nil
  | cons hrate hburst hcolor hstands _ ih =>
    refine .cons ?_ ?_ ?_ (hstands.advance hst) ih
    · rw [Bucket.advance_rate, hrate]
    · rw [Bucket.advance_burst, hburst]
    · rw [List.length_map, hcolor]

theorem Keeps.length_eq (h : Keeps t rates bs) : rates.length = bs.length := by
  induction h with
  | nil => rfl
  | cons _ _ _ _ _ ih => rw [List.length_cons, List.length_cons, ih]

/-- **The loop** of a meter finds in each bucket what the marker has in it. -/
theorem Keeps.executeRates (h : Keeps micros rates bs) (hwrap : NoWrap input micros rates) :
    ∃ rates', executeRates input micros rates = some ((Marker.mark input bs).1, rates') ∧
      Keeps micros rates' (Marker.mark input bs).2 := by
  induction h with
  | nil => exact ⟨[], rfl, .nil⟩
  | @cons rate rates b bs hrate hburst hcolor hstands hrest ih =>
    obtain ⟨-, hsum, hnext⟩ := hwrap
    have hseen := hstands.seen_le
    have htokens := hstands.tokens
    have harr : InfoRate.tokensSinceInit micros rate.infoRate = Bucket.arrived b.rate micros := by
      rw [hrate]
      rfl
    rw [harr] at hsum hnext
    -- What the meter makes of its own count is the number of tokens in the bucket.
    have hfilled : min ((rate.tokens + (Bucket.arrived b.rate micros - rate.tokensLast)) % 2 ^ 64)
        rate.burstSize = b.tokens := by
      rw [Nat.mod_eq_of_lt hsum, hburst, htokens]
    rw [hburst, ← htokens] at hnext
    rw [Meter.executeRates, harr]
    simp only [if_neg (not_lt.mpr hseen), hfilled]
    unfold Marker.mark
    by_cases hlt : b.tokens < input
    · rw [if_pos hlt, if_pos hlt]
      refine ⟨_, by rw [hcolor], ?_⟩
      exact .cons hrate hburst rfl (Bucket.standsFor_self _ b) hrest
    · rw [if_neg hlt, if_neg hlt]
      obtain ⟨rates', heq, hkeeps⟩ := ih (hnext (not_lt.mp hlt))
      rw [heq]
      refine ⟨_, rfl, .cons hrate hburst ?_ ?_ hkeeps⟩
      · rw [Marker.mark_length]
        exact hcolor
      · exact Bucket.standsFor_self _ (b.take input)

/-- Rates as `set_rates` leaves them stand for full buckets. -/
theorem keeps_written (t : ℚ≥0) (configs : List (ℚ≥0 × ℕ)) :
    Keeps t (writtenFrom 0 configs).reverse
      (configs.map fun c => Bucket.full c.1 c.2).reverse := by
  induction configs using List.reverseRecOn with
  | nil => exact .nil
  | append_singleton configs c ih =>
    rw [writtenFrom_concat, List.reverse_concat, List.map_append, List.map_singleton,
      List.reverse_concat]
    refine .cons rfl rfl ?_ (Bucket.standsFor_full c.1 t c.2) ih
    simp [written]

theorem ascending_iff (prev : Option ℚ≥0) (configs : List (ℚ≥0 × ℕ)) :
    ascending prev configs = true ↔
      (prev.toList ++ configs.map Prod.fst).Pairwise (· ≤ ·) := by
  rw [← List.isChain_iff_pairwise]
  induction configs generalizing prev with
  | nil =>
    rcases prev with _ | p
    · simp [ascending]
    · simp [ascending]
  | cons config configs ih =>
    rw [ascending, Bool.and_eq_true, ih]
    rcases prev with _ | p
    · simp
    · simp [InfoRate.exceeds]

/-! ## Runs -/

/-- A meter that is configured keeps the buckets of a marker, whose time is not beyond
this one. -/
structure Follows (type : MeterType) (rateCount : ℕ) (t : ℚ≥0) (m : Meter ℚ≥0)
    (k : Option Marker) : Prop where
  type : m.type = type
  length : m.rates.length = rateCount
  configured : m.configured = k.isSome
  keeps : ∀ x ∈ k, x.time ≤ t ∧ Keeps x.time m.rates x.buckets

variable {type : MeterType} {rateCount : ℕ} {m m' : Meter ℚ≥0} {k : Option Marker}

theorem Follows.advance (h : Follows type rateCount s m k) (hst : s ≤ t) :
    Follows type rateCount t m (k.map (Marker.advance · t)) where
  type := h.type
  length := h.length
  configured := by rw [h.configured, Option.isSome_map]
  keeps x hx := by
    obtain ⟨y, hy, rfl⟩ := Option.map_eq_some_iff.mp hx
    obtain ⟨htime, hkeeps⟩ := h.keeps y hy
    exact ⟨le_rfl, hkeeps.advance (htime.trans hst)⟩

theorem execute_of_configured {length preColor color : ℕ} {rates' : List (MeterRate ℚ≥0)}
    (hon : m.configured = true)
    (heq : Meter.executeRates (m.type.input length) micros m.rates = some (color, rates')) :
    m.execute length micros preColor = some (max preColor color, { m with rates := rates' }) := by
  have hexecute : m.execute length micros preColor =
      (Meter.executeRates (m.type.input length) micros m.rates).bind fun r =>
        some (max preColor r.1, { m with rates := r.2 }) := by
    unfold Meter.execute
    rw [hon]
    rfl
  rw [hexecute, heq]
  rfl

theorem execute_of_not_configured (hoff : m.configured = false) (length preColor : ℕ) :
    m.execute length micros preColor = some (0, m) := by
  unfold Meter.execute
  rw [hoff]
  rfl

/-- A packet gets the color of the marker. -/
theorem Follows.execute (h : Follows type rateCount s m k) {length preColor : ℕ} (hs : s ≤ micros)
    (hfits : m.Fits micros (.execute length preColor)) :
    ∃ m', m.call micros (.execute length preColor) =
        some ((markerCall type rateCount micros k (.execute length preColor)).1, m') ∧
      Follows type rateCount micros m'
        (markerCall type rateCount micros k (.execute length preColor)).2 := by
  have hnow := h.advance hs
  simp only [call, markerCall]
  rcases hk : k.map (Marker.advance · micros) with _ | x
  · -- Nobody has configured the meter, and it answers with the lowest color.
    have hoff : m.configured = false := by rw [hnow.configured, hk]; rfl
    rw [hk] at hnow
    rw [execute_of_not_configured hoff, hfits.1 hoff]
    exact ⟨m, rfl, hnow⟩
  · have hon : m.configured = true := by rw [hnow.configured, hk]; rfl
    rw [hk] at hnow
    obtain ⟨-, hkeeps⟩ := hnow.keeps x rfl
    have hx : x.time = micros := by
      obtain ⟨y, -, rfl⟩ := Option.map_eq_some_iff.mp hk
      rfl
    rw [hx] at hkeeps
    obtain ⟨rates', heq, hkeeps'⟩ := hkeeps.executeRates (hfits.2 hon)
    rw [execute_of_configured hon heq, ← h.type]
    refine ⟨_, rfl, rfl, ?_, hnow.configured, ?_⟩
    · rw [hkeeps'.length_eq, Marker.mark_length, ← hkeeps.length_eq]
      exact h.length
    · rintro _ ⟨⟩
      exact ⟨le_rfl, hkeeps'⟩

/-- Rates are taken by both, or by none. -/
theorem Follows.setRates (h : Follows type rateCount s m k) {configs : List (ℚ≥0 × ℕ)}
    (hs : s ≤ micros) (hfits : m.Fits micros (.setRates configs)) :
    Follows type rateCount micros (m.setRates configs).2
      (markerCall type rateCount micros k (.setRates configs)).2 := by
  have hasc := ascending_iff none configs
  rw [Option.toList_none, List.nil_append] at hasc
  obtain ⟨htype, hlength, -⟩ := m.setRates_snd configs
  rw [h.type] at htype
  rw [h.length] at hlength
  simp only [markerCall]
  by_cases hlen : configs.length = rateCount
  · have hlen' : configs.length = m.rates.length := hlen.trans h.length.symm
    by_cases hsorted : (configs.map Prod.fst).Pairwise (· ≤ ·)
    · rw [if_pos ⟨hlen, hsorted⟩]
      refine ⟨htype, hlength, ?_, ?_⟩
      · rw [setRates_accepted hlen' (hasc.mpr hsorted)]
        rfl
      · rintro _ ⟨⟩
        rw [setRates_accepted hlen' (hasc.mpr hsorted)]
        exact ⟨le_rfl, keeps_written _ configs⟩
    · -- What is refused halfway is refused by a meter that was not configured.
      have hoff : m.configured = false := by
        by_contra hon
        exact hsorted (hfits (by simpa using hon) hlen')
      have hk : k = none := by simpa [h.configured] using hoff
      subst hk
      rw [if_neg fun hboth => hsorted hboth.2]
      refine ⟨htype, hlength, ?_, fun x hx => by cases hx⟩
      rw [setRates_refused (by simpa using mt hasc.mp hsorted), hoff]
      rfl
  · rw [if_neg fun hboth => hlen hboth.1, setRates_of_length_ne (by rwa [h.length])]
    exact h.advance hs

/-- **One call** gets the answer of the marker. -/
theorem Follows.call (h : Follows type rateCount s m k) (hs : s ≤ micros) {c : MeterCall}
    (hfits : m.Fits micros c) :
    ∃ m', m.call micros c = some ((markerCall type rateCount micros k c).1, m') ∧
      Follows type rateCount micros m' (markerCall type rateCount micros k c).2 := by
  cases c with
  | execute length preColor => exact h.execute hs hfits
  | setRates configs =>
    refine ⟨_, ?_, h.setRates hs hfits⟩
    simp only [Meter.call, markerCall]
    split <;> rfl
  | resetRates =>
    exact ⟨_, rfl, h.type, by simp [Meter.resetRates, h.length], rfl, fun x hx => by cases hx⟩
  | wait => exact ⟨m, rfl, h.advance hs⟩

/-- **A run** gets the colors of the marker. -/
theorem Follows.colors (h : Follows type rateCount s m k) {calls : List (ℕ × MeterCall)}
    (hs : ∀ micros ∈ calls.map Prod.fst, s ≤ (micros : ℕ))
    (htimes : (calls.map Prod.fst).Pairwise (· ≤ ·)) (hfit : m.AllFit calls) :
    ∃ m', m.colors calls = some (markerColors type rateCount k calls, m') := by
  induction calls generalizing s m k with
  | nil => exact ⟨m, rfl⟩
  | cons c calls ih =>
    obtain ⟨micros, c⟩ := c
    rw [List.map_cons, List.pairwise_cons] at htimes
    obtain ⟨m', hcall, h'⟩ := h.call (hs micros (List.mem_cons_self ..)) hfit.1
    have hfit' := hfit.2
    rw [hcall] at hfit'
    obtain ⟨m'', hrest⟩ := ih h' (fun t ht => by exact_mod_cast htimes.1 t ht) htimes.2 hfit'
    refine ⟨m'', ?_⟩
    rw [Meter.colors, hcall]
    simp only [Option.bind_eq_bind, Option.bind_some, hrest]
    rfl

/-! ## Burst sizes -/

/-- The loop leaves no rate over its burst size. -/
theorem executeRates_tokens_le {rates' : List (MeterRate ℚ≥0)} {color : ℕ}
    (h : Meter.executeRates input micros rates = some (color, rates'))
    (hrates : ∀ rate ∈ rates, rate.tokens ≤ rate.burstSize) :
    ∀ rate ∈ rates', rate.tokens ≤ rate.burstSize := by
  induction rates generalizing rates' color with
  | nil =>
    obtain ⟨-, rfl⟩ := Prod.mk.inj (Option.some.inj h)
    exact hrates
  | cons rate rates ih =>
    rw [List.forall_mem_cons] at hrates
    simp only [Meter.executeRates] at h
    split_ifs at h
    · obtain ⟨-, rfl⟩ := Prod.mk.inj (Option.some.inj h)
      exact List.forall_mem_cons.mpr ⟨min_le_right .., hrates.2⟩
    · obtain ⟨⟨color', rest⟩, hrest, heq⟩ := Option.bind_eq_some_iff.mp h
      obtain ⟨-, rfl⟩ := Prod.mk.inj (Option.some.inj heq)
      exact List.forall_mem_cons.mpr
        ⟨(Nat.sub_le ..).trans (min_le_right ..), ih hrest hrates.2⟩

theorem WithinBurst.call (h : m.WithinBurst) {c : MeterCall} {color : Option ℕ}
    (hcall : m.call micros c = some (color, m')) : m'.WithinBurst := by
  cases c with
  | execute length preColor =>
    obtain ⟨⟨color', m''⟩, hexecute, heq⟩ := Option.map_eq_some_iff.mp hcall
    obtain ⟨-, rfl⟩ := Prod.mk.inj heq
    cases hconf : m.configured with
    | false =>
      rw [execute_of_not_configured hconf] at hexecute
      obtain ⟨-, rfl⟩ := Prod.mk.inj (Option.some.inj hexecute)
      exact h
    | true =>
      unfold Meter.execute at hexecute
      rw [hconf] at hexecute
      obtain ⟨⟨color'', rates⟩, hrates, heq⟩ := Option.bind_eq_some_iff.mp hexecute
      obtain ⟨-, rfl⟩ := Prod.mk.inj (Option.some.inj heq)
      exact executeRates_tokens_le hrates h
  | setRates configs =>
    obtain ⟨-, rfl⟩ := Prod.mk.inj (Option.some.inj hcall)
    exact (m.setRates_snd configs).2.2 h
  | resetRates =>
    obtain ⟨-, rfl⟩ := Prod.mk.inj (Option.some.inj hcall)
    intro rate hrate
    obtain ⟨r, hr, rfl⟩ := List.mem_map.mp hrate
    exact h r hr
  | wait =>
    obtain ⟨-, rfl⟩ := Prod.mk.inj (Option.some.inj hcall)
    exact h

theorem WithinBurst.colors (h : m.WithinBurst) {calls : List (ℕ × MeterCall)} {answer : List ℕ}
    (hcalls : m.colors calls = some (answer, m')) : m'.WithinBurst := by
  induction calls generalizing m answer with
  | nil =>
    obtain ⟨-, rfl⟩ := Prod.mk.inj (Option.some.inj hcalls)
    exact h
  | cons c calls ih =>
    obtain ⟨micros, c⟩ := c
    obtain ⟨⟨color, m₁⟩, hcall, hcalls⟩ := Option.bind_eq_some_iff.mp hcalls
    obtain ⟨⟨rest, m₂⟩, hrest, heq⟩ := Option.bind_eq_some_iff.mp hcalls
    obtain ⟨-, rfl⟩ := Prod.mk.inj (Option.some.inj heq)
    exact ih (h.call hcall) hrest

/-! ## Both together -/

/-- **A meter gives the colors of a marker** whose buckets are filled all the time, in
every run whose calls fit it; and in every run no bucket is over its burst size. -/
theorem colors_eq_markerColors (type : MeterType) (rateCount : ℕ)
    (calls : List (ℕ × MeterCall)) :
    ((calls.map Prod.fst).Pairwise (· ≤ ·) → (create type rateCount : Meter ℚ≥0).AllFit calls →
      ∃ m, (create type rateCount : Meter ℚ≥0).colors calls =
        some (markerColors type rateCount none calls, m)) ∧
    ∀ colors m, (create type rateCount : Meter ℚ≥0).colors calls = some (colors, m) →
      ∀ rate ∈ m.rates, rate.tokens ≤ rate.burstSize := by
  constructor
  · intro htimes hfit
    have hnew : Follows type rateCount 0 (create type rateCount) none :=
      ⟨rfl, List.length_replicate .., rfl, fun x hx => by cases hx⟩
    exact hnew.colors (fun _ _ => zero_le) htimes hfit
  · intro colors m hcolors
    have hnew : (create type rateCount : Meter ℚ≥0).WithinBurst := by
      intro rate hrate
      obtain rfl := List.eq_of_mem_replicate hrate
      exact le_rfl
    exact hnew.colors hcolors

/-- A meter of two rates, of which the lower one fills while the other refuses: it gives
green, red and, after a while, yellow; then it is told new rates. -/
theorem colors_two_rates :
    ∃ m, (create .packets 2 : Meter ℚ≥0).colors
      [(0, .setRates [(0, 1), (1 / 2, 1)]), (1, .execute 128 0), (1, .execute 128 0),
        (5, .wait), (6, .execute 128 0), (7, .setRates [(0, 4), (0, 4)]), (8, .execute 128 1)] =
      some ([0, 2, 1, 1], m) := by
  have hcolors : markerColors .packets 2 none
      [(0, .setRates [(0, 1), (1 / 2, 1)]), (1, .execute 128 0), (1, .execute 128 0),
        (5, .wait), (6, .execute 128 0), (7, .setRates [(0, 4), (0, 4)]), (8, .execute 128 1)] =
      [0, 2, 1, 1] := by decide +kernel
  rw [← hcolors]
  exact (colors_eq_markerColors .packets 2 _).1 (by decide) (by decide +kernel)

/-- **What goes wrong**: a meter that is not configured answers green to a packet that
is yellow; rates that are refused have replaced those there were; and a bucket as large
as can be is empty when a token comes to it. -/
theorem colors_differ :
    (((create .packets 1 : Meter ℚ≥0).colors [(0, .execute 128 1)]).map Prod.fst = some [0] ∧
      markerColors .packets 1 none [(0, .execute 128 1)] = [1]) ∧
    (((create .packets 2 : Meter ℚ≥0).colors [(0, .setRates [(0, 1), (0, 5)]),
        (0, .setRates [(1, 0), (0, 9)]), (0, .execute 128 0)]).map Prod.fst = some [1] ∧
      markerColors .packets 2 none [(0, .setRates [(0, 1), (0, 5)]),
        (0, .setRates [(1, 0), (0, 9)]), (0, .execute 128 0)] = [0]) ∧
    (((create .packets 1 : Meter ℚ≥0).colors [(0, .setRates [(1, 2 ^ 64 - 1)]),
        (1, .execute 128 0)]).map Prod.fst = some [1] ∧
      markerColors .packets 1 none [(0, .setRates [(1, 2 ^ 64 - 1)]),
        (1, .execute 128 0)] = [0]) := by
  refine ⟨⟨?_, ?_⟩, ⟨?_, ?_⟩, ⟨?_, ?_⟩⟩
  all_goals decide +kernel

end Meter

end Stateful

end P4Bricks
