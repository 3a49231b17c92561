import Mathlib.Data.List.Infix
/-!
# Longest-prefix match

What a prefix table is for: a partial map from strings to values, read at
the longest of its strings that is a prefix of the key. `longestMatch`
computes that value by one pass over the key, and `IsLongest` says what
it is without mentioning the pass.
-/

namespace P4Bricks

variable {α V : Type*}

/-- The value `m` has at its longest string that is a prefix of the key. -/
def longestMatch (m : List α → Option V) : List α → Option V
  | [] => m []
  | a :: k => (longestMatch (fun p => m (a :: p)) k).or (m [])

/-- `p` is the longest string of `m` that is a prefix of `key`. -/
structure IsLongest (m : List α → Option V) (key p : List α) : Prop where
  covers : p <+: key
  stored : (m p).isSome
  longest : ∀ q, q <+: key → (m q).isSome → q.length ≤ p.length

/-- **The pass misses exactly when nothing covers the key.** -/
theorem longestMatch_eq_none_iff {m : List α → Option V} {key : List α} :
    longestMatch m key = none ↔ ∀ p, p <+: key → m p = none := by
  induction key generalizing m with
  | nil => simp [longestMatch]
  | cons a k ih =>
    rw [longestMatch, Option.or_eq_none_iff, ih]
    constructor
    · rintro ⟨hk, h0⟩ p hp
      obtain _ | ⟨b, p⟩ := p
      · exact h0
      · obtain ⟨rfl, hpk⟩ := List.cons_prefix_cons.mp hp
        exact hk p hpk
    · intro h
      exact ⟨fun p hp => h (a :: p) (List.cons_prefix_cons.mpr ⟨rfl, hp⟩), h [] List.nil_prefix⟩

/-- **The pass answers the value of the longest string.** -/
theorem longestMatch_eq_some_iff {m : List α → Option V} {key : List α} {v : V} :
    longestMatch m key = some v ↔ ∃ p, IsLongest m key p ∧ m p = some v := by
  induction key generalizing m with
  | nil =>
    constructor
    · intro h
      exact ⟨[], ⟨List.prefix_rfl, by simp [longestMatch] at h; simp [h],
        fun q hq _ => by simp [List.prefix_nil.mp hq]⟩, h⟩
    · rintro ⟨p, hp, hv⟩
      rwa [List.prefix_nil.mp hp.covers] at hv
  | cons a k ih =>
    rw [longestMatch, Option.or_eq_some_iff, ih, longestMatch_eq_none_iff]
    constructor
    · rintro (⟨p, hp, hv⟩ | ⟨hnone, hv⟩)
      · refine ⟨a :: p, ⟨List.cons_prefix_cons.mpr ⟨rfl, hp.covers⟩, hp.stored, ?_⟩, hv⟩
        intro q hq hs
        obtain _ | ⟨b, q⟩ := q
        · simp
        · obtain ⟨rfl, hqk⟩ := List.cons_prefix_cons.mp hq
          simpa using hp.longest q hqk hs
      · refine ⟨[], ⟨List.nil_prefix, by simp [hv], ?_⟩, hv⟩
        intro q hq hs
        obtain _ | ⟨b, q⟩ := q
        · simp
        · obtain ⟨rfl, hqk⟩ := List.cons_prefix_cons.mp hq
          simp [hnone q hqk] at hs
    · rintro ⟨p, hp, hv⟩
      obtain _ | ⟨b, p⟩ := p
      · refine Or.inr ⟨fun q hq => ?_, hv⟩
        by_contra hs
        have := hp.longest (a :: q) (List.cons_prefix_cons.mpr ⟨rfl, hq⟩)
          (Option.isSome_iff_ne_none.mpr hs)
        simp at this
      · obtain ⟨rfl, hpk⟩ := List.cons_prefix_cons.mp hp.covers
        refine Or.inl ⟨p, ⟨hpk, hp.stored, fun q hq hs => ?_⟩, hv⟩
        simpa using hp.longest (b :: q) (List.cons_prefix_cons.mpr ⟨rfl, hq⟩) hs

end P4Bricks
