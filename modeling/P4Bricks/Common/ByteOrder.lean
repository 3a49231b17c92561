import Mathlib.Data.List.Lex
import P4Bricks.Common.BitNumbers
/-!
# Byte strings of one length as numbers

Byte strings of one length are equal, ordered and masked as the numbers they denote.
-/

namespace P4Bricks

variable {l m : List UInt8}

theorem bytesVal_inj (hlen : l.length = m.length) : bytesVal l = bytesVal m ↔ l = m := by
  constructor
  · intro h
    rw [← natBytes_bytesVal l, ← natBytes_bytesVal m, hlen, h]
  · rintro rfl
    rfl

/-- **The lexicographic order** is that of the numbers. -/
theorem lt_iff_bytesVal_lt (hlen : l.length = m.length) : l < m ↔ bytesVal l < bytesVal m := by
  induction l generalizing m with
  | nil =>
    obtain rfl : m = [] := List.length_eq_zero_iff.mp hlen.symm
    simp
  | cons b l ih =>
    rcases m with _ | ⟨c, m⟩
    · cases hlen
    · have hlen' : l.length = m.length := Nat.succ.inj hlen
      have hl := bytesVal_lt l
      have hm := bytesVal_lt m
      rw [List.cons_lt_cons_iff, ih hlen', bytesVal_cons, bytesVal_cons, hlen', UInt8.lt_iff_toNat_lt]
      rw [hlen'] at hl
      constructor
      · rintro (hlt | ⟨rfl, hlt⟩)
        · -- A smaller first byte outweighs all that follows.
          have hmul := Nat.mul_le_mul_left (2 ^ (8 * m.length)) (Nat.succ_le_of_lt hlt)
          rw [Nat.mul_succ] at hmul
          omega
        · omega
      · intro hlt
        rcases Nat.lt_trichotomy b.toNat c.toNat with hbc | hbc | hbc
        · exact .inl hbc
        · obtain rfl := UInt8.toNat_inj.mp hbc
          exact .inr ⟨rfl, by omega⟩
        · have hmul := Nat.mul_le_mul_left (2 ^ (8 * m.length)) (Nat.succ_le_of_lt hbc)
          rw [Nat.mul_succ] at hmul
          omega

/-- The bits of the number, from the lowest. -/
theorem testBit_bytesVal_eq (l : List UInt8) (i : ℕ) :
    (bytesVal l).testBit i = (decide (i < 8 * l.length) && bitAt l (8 * l.length - 1 - i)) := by
  by_cases hi : i < 8 * l.length
  · have hbit := testBit_bytesVal (l := l) (j := 8 * l.length - 1 - i) (by omega)
    rw [(by omega : 8 * l.length - 1 - (8 * l.length - 1 - i) = i)] at hbit
    rw [hbit, decide_eq_true hi, Bool.true_and]
  · have hpow : 2 ^ (8 * l.length) ≤ 2 ^ i := Nat.pow_le_pow_right (by omega) (by omega)
    rw [Nat.testBit_lt_two_pow ((bytesVal_lt l).trans_le hpow), decide_eq_false hi, Bool.false_and]

/-- **Masking** byte by byte masks the numbers. -/
theorem bytesVal_zipWith_and (hlen : l.length = m.length) :
    bytesVal (List.zipWith (· &&& ·) l m) = bytesVal l &&& bytesVal m := by
  refine Nat.eq_of_testBit_eq fun i => ?_
  have hzip : (List.zipWith (· &&& ·) l m).length = l.length := by
    rw [List.length_zipWith, hlen, Nat.min_self]
  rw [Nat.testBit_and, testBit_bytesVal_eq, testBit_bytesVal_eq, testBit_bytesVal_eq, hzip, ← hlen,
    bitAt_zipWith_and]
  by_cases hi : i < 8 * l.length
  · simp [hi]
  · simp [hi]

theorem bytesVal_replicate_zero (n : ℕ) : bytesVal (List.replicate n 0) = 0 := by
  induction n with
  | zero => rfl
  | succ n ih =>
    rw [List.replicate_succ, bytesVal_cons, ih]
    rfl

/-! ## Prefixes -/

theorem bytesBits_append (l m : List UInt8) : bytesBits (l ++ m) = bytesBits l ++ bytesBits m :=
  List.flatMap_append

/-- **The first bits** are those of the quotient. -/
theorem take_bytesBits_eq_iff (hlen : l.length = m.length) (p : ℕ) :
    (bytesBits l).take p = (bytesBits m).take p ↔
      bytesVal l / 2 ^ (8 * l.length - p) = bytesVal m / 2 ^ (8 * l.length - p) := by
  have htake : ((bytesBits l).take p).length = ((bytesBits m).take p).length := by
    rw [List.length_take, List.length_take, bytesBits_length, bytesBits_length, hlen]
  have hval : ∀ k : List UInt8, bitsVal ((bytesBits k).take p) =
      bytesVal k / 2 ^ (8 * k.length - p) := by
    intro k
    rw [bitsVal_take, bytesBits_length, bytesVal]
  constructor
  · intro heq
    have hboth := congrArg bitsVal heq
    rwa [hval, hval, ← hlen] at hboth
  · intro heq
    refine bitsVal_inj htake ?_
    rw [hval, hval, ← hlen, heq]

/-- A prefix that has the first bytes as a whole. -/
theorem take_bytesBits_append_eq_iff {front front' : List UInt8} (hlen : front.length = front'.length)
    (p : ℕ) :
    (bytesBits (front ++ l)).take (8 * front.length + p) =
        (bytesBits (front' ++ m)).take (8 * front.length + p) ↔
      front = front' ∧ (bytesBits l).take p = (bytesBits m).take p := by
  have htake : ∀ first rest : List UInt8, first.length = front.length →
      (bytesBits (first ++ rest)).take (8 * front.length + p) =
        bytesBits first ++ (bytesBits rest).take p := by
    intro first rest hfirst
    rw [bytesBits_append, List.take_append, bytesBits_length, hfirst,
      List.take_of_length_le (by rw [bytesBits_length]; omega), Nat.add_sub_cancel_left]
  rw [htake front l rfl, htake front' m hlen.symm]
  constructor
  · intro heq
    obtain ⟨hfront, hrest⟩ := List.append_inj heq (by rw [bytesBits_length, bytesBits_length, hlen])
    exact ⟨(bytesVal_inj hlen).mp (congrArg bitsVal hfront), hrest⟩
  · rintro ⟨rfl, hrest⟩
    rw [hrest]

theorem take_bytesBits_eq_iff_bitAt (hlen : l.length = m.length) {p : ℕ} (hp : p ≤ 8 * l.length) :
    (bytesBits l).take p = (bytesBits m).take p ↔ ∀ j < p, bitAt l j = bitAt m j := by
  have htake : ∀ k : List UInt8, p ≤ 8 * k.length →
      (bytesBits k).take p = (List.range p).map (bitAt k) := by
    intro k hk
    rw [bytesBits_eq, ← List.map_take, List.take_range, Nat.min_eq_left hk]
  rw [htake l hp, htake m (hlen ▸ hp), List.map_inj_left]
  exact forall_congr' fun j => imp_congr_left List.mem_range

end P4Bricks
