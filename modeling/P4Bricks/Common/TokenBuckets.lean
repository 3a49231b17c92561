import Mathlib.Data.NNRat.Floor
import Mathlib.Logic.Function.Iterate
/-!
# Token buckets

A bucket has a rate and a burst size. Tokens arrive one by one, the `k`-th at time
`k / rate`, and one that finds the bucket full is lost. A marker has several
buckets, the one with the highest rate first: a packet takes its tokens from each
bucket that has enough, up to the first that has not, and the color says how many
buckets are left from there on.

A bucket need not be filled as its tokens arrive. `StandsFor` says when a count that
was right when `seen` tokens had arrived is as good as the bucket itself, and is kept
by whatever happens to the bucket.
-/

namespace P4Bricks

/-- A token bucket, of `rate` tokens in a unit of time. -/
@[ext]
structure Bucket where
  rate : ℚ≥0
  burst : ℕ
  tokens : ℕ
  tokens_le : tokens ≤ burst

namespace Bucket

def full (rate : ℚ≥0) (burst : ℕ) : Bucket := ⟨rate, burst, burst, le_rfl⟩

/-- A token arrives. -/
def drop (b : Bucket) : Bucket := ⟨b.rate, b.burst, min (b.tokens + 1) b.burst, min_le_right ..⟩

/-- How many tokens have arrived at a time. -/
def arrived (rate t : ℚ≥0) : ℕ := ⌊rate * t⌋₊

/-- From one time to another, the tokens that arrive drop in. -/
def advance (s t : ℚ≥0) (b : Bucket) : Bucket := drop^[arrived b.rate t - arrived b.rate s] b

/-- A packet takes its tokens. -/
def take (b : Bucket) (n : ℕ) : Bucket :=
  ⟨b.rate, b.burst, b.tokens - n, (Nat.sub_le ..).trans b.tokens_le⟩

variable {b : Bucket} {s t : ℚ≥0} {held seen : ℕ}

/-- Drops fill a bucket one by one, up to its burst. -/
theorem iterate_drop (n : ℕ) (b : Bucket) :
    (drop^[n] b).rate = b.rate ∧ (drop^[n] b).burst = b.burst ∧
      (drop^[n] b).tokens = min (b.tokens + n) b.burst := by
  induction n with
  | zero => exact ⟨rfl, rfl, (min_eq_left b.tokens_le).symm⟩
  | succ n ih =>
    obtain ⟨hrate, hburst, htokens⟩ := ih
    rw [Function.iterate_succ_apply']
    refine ⟨hrate, hburst, ?_⟩
    simp only [drop, hburst, htokens]
    omega

@[simp] theorem advance_rate : (b.advance s t).rate = b.rate := (iterate_drop _ b).1

@[simp] theorem advance_burst : (b.advance s t).burst = b.burst := (iterate_drop _ b).2.1

/-- With time a bucket gets the tokens that arrived since, up to its burst. -/
theorem advance_tokens : (b.advance s t).tokens =
    min (b.tokens + (arrived b.rate t - arrived b.rate s)) b.burst := (iterate_drop _ b).2.2

/-- Tokens that arrived stay arrived. -/
theorem arrived_mono (rate : ℚ≥0) (h : s ≤ t) : arrived rate s ≤ arrived rate t :=
  Nat.floor_mono (mul_le_mul_of_nonneg_left h zero_le)

/-- A count of tokens that knew of the first `seen` to arrive stands for a bucket:
what it lacks is what arrived since. -/
structure StandsFor (held seen : ℕ) (t : ℚ≥0) (b : Bucket) : Prop where
  seen_le : seen ≤ arrived b.rate t
  tokens : b.tokens = min (held + (arrived b.rate t - seen)) b.burst

/-- A full count stands for a full bucket, whenever it was made. -/
theorem standsFor_full (rate t : ℚ≥0) (burst : ℕ) : StandsFor burst 0 t (full rate burst) :=
  ⟨Nat.zero_le _, (min_eq_right (Nat.le_add_right ..)).symm⟩

/-- A bucket stands for itself. -/
theorem standsFor_self (t : ℚ≥0) (b : Bucket) : StandsFor b.tokens (arrived b.rate t) t b :=
  ⟨le_rfl, by rw [Nat.sub_self, Nat.add_zero, min_eq_left b.tokens_le]⟩

/-- **A bucket that is not looked at** may be filled later. -/
theorem StandsFor.advance (h : StandsFor held seen s b) (hst : s ≤ t) :
    StandsFor held seen t (b.advance s t) := by
  have harr := arrived_mono b.rate hst
  have hseen := h.seen_le
  have htokens := h.tokens
  refine ⟨?_, ?_⟩
  · rw [advance_rate]
    omega
  · -- Filling up twice is filling up once with all that arrived.
    rw [advance_tokens, advance_rate, advance_burst]
    omega

end Bucket

/-- The buckets of a marker, and the time. -/
structure Marker where
  time : ℚ≥0
  buckets : List Bucket

namespace Marker

/-- Tokens arrive in all buckets. -/
def advance (k : Marker) (t : ℚ≥0) : Marker := ⟨t, k.buckets.map (Bucket.advance k.time t)⟩

/-- A packet takes its tokens from the buckets it passes. -/
def mark (input : ℕ) : List Bucket → ℕ × List Bucket
  | [] => (0, [])
  | b :: bs =>
    if b.tokens < input then (bs.length + 1, b :: bs)
    else
      let r := mark input bs
      (r.1, b.take input :: r.2)

/-- Marking keeps the number of buckets. -/
theorem mark_length (input : ℕ) (bs : List Bucket) : (mark input bs).2.length = bs.length := by
  induction bs with
  | nil => rfl
  | cons b bs ih =>
    unfold mark
    split
    · rfl
    · rw [List.length_cons, List.length_cons, ih]

end Marker

end P4Bricks
