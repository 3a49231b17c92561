import Mathlib.Data.List.Infix
import Mathlib.Tactic.Ring
import Mathlib.Tactic.Linarith
/-!
# Bit strings

Bytes on the wire are read most significant bit first. A bit string is a
`List Bool` in that order, `bitsVal` is the number it denotes and
`natBits w` the `w`-bit string of a number. The two are inverse up to
the width, which is what every layout argument about packed fields or
prefix keys comes down to.
-/

namespace P4Bricks

/-- A string of bytes. -/
abbrev ByteContainer := List UInt8

/-- The number a bit string denotes, most significant bit first. -/
def bitsVal : List Bool → ℕ
  | [] => 0
  | b :: l => b.toNat * 2 ^ l.length + bitsVal l

/-- The `w` low bits of `v`, most significant bit first. -/
def natBits : ℕ → ℕ → List Bool
  | 0, _ => []
  | w + 1, v => natBits w (v / 2) ++ [v.testBit 0]

/-- The eight bits of a byte. -/
def byteBits (b : UInt8) : List Bool := natBits 8 b.toNat

/-- The bits of a byte string. -/
def bytesBits (l : List UInt8) : List Bool := l.flatMap byteBits

/-- The number a byte string denotes, most significant byte first. -/
def bytesVal (l : List UInt8) : ℕ := bitsVal (bytesBits l)

/-- The `n` low bytes of `v`, most significant byte first. -/
def natBytes : ℕ → ℕ → List UInt8
  | 0, _ => []
  | n + 1, v => natBytes n (v / 256) ++ [UInt8.ofNat v]

theorem natBytes_zero (n : ℕ) : natBytes n 0 = List.replicate n 0 := by
  induction n with
  | zero => rfl
  | succ n ih =>
    rw [natBytes, Nat.zero_div, ih, List.replicate_succ']
    rfl

@[simp] theorem bitsVal_nil : bitsVal [] = 0 := rfl

/-- The first bits are the most significant. -/
theorem bitsVal_append (l₁ l₂ : List Bool) :
    bitsVal (l₁ ++ l₂) = bitsVal l₁ * 2 ^ l₂.length + bitsVal l₂ := by
  induction l₁ with
  | nil => simp
  | cons b l ih =>
    rw [List.cons_append, bitsVal, bitsVal, ih, List.length_append, pow_add]
    ring

/-- A list of bits stands for a number below the power of its length. -/
theorem bitsVal_lt (l : List Bool) : bitsVal l < 2 ^ l.length := by
  induction l with
  | nil => simp
  | cons b l ih =>
    have hb : b.toNat ≤ 1 := Bool.toNat_le b
    have hle : b.toNat * 2 ^ l.length ≤ 1 * 2 ^ l.length := Nat.mul_le_mul_right _ hb
    rw [bitsVal, List.length_cons, pow_succ]
    omega

/-- **A bit string is determined by its length and its value.** -/
theorem bitsVal_inj {l₁ l₂ : List Bool} (hlen : l₁.length = l₂.length)
    (h : bitsVal l₁ = bitsVal l₂) : l₁ = l₂ := by
  induction l₁ generalizing l₂ with
  | nil => exact (List.length_eq_zero_iff.mp hlen.symm).symm
  | cons b l ih =>
    obtain _ | ⟨c, m⟩ := l₂
    · simp at hlen
    · have hlm : l.length = m.length := by simpa using hlen
      rw [bitsVal, bitsVal, hlm] at h
      have h₁ : bitsVal l < 2 ^ m.length := hlm ▸ bitsVal_lt l
      have h₂ := bitsVal_lt m
      have hbc : b = c := by cases b <;> cases c <;> simp at h ⊢ <;> omega
      subst hbc
      rw [ih hlm (by omega)]

@[simp] theorem natBits_length (w v : ℕ) : (natBits w v).length = w := by
  induction w generalizing v with
  | zero => rfl
  | succ w ih => simp [natBits, ih]

/-- The lowest `w` bits of a number stand for its residue. -/
theorem bitsVal_natBits (w v : ℕ) : bitsVal (natBits w v) = v % 2 ^ w := by
  induction w generalizing v with
  | zero => simp [natBits, Nat.mod_one]
  | succ w ih =>
    have hbit : (v.testBit 0).toNat = v % 2 := by
      rcases Nat.mod_two_eq_zero_or_one v with h | h <;> simp [Nat.testBit_zero, h]
    have hsplit : v % 2 ^ (w + 1) = v / 2 % 2 ^ w * 2 + v % 2 := by
      rw [pow_succ, mul_comm, Nat.mod_mul]
      omega
    rw [natBits, bitsVal_append, ih, hsplit, bitsVal, bitsVal, hbit]
    simp

/-- A bit string is the width-`length` string of its own value. -/
theorem natBits_bitsVal (l : List Bool) : natBits l.length (bitsVal l) = l :=
  bitsVal_inj (natBits_length _ _) <| by
    rw [bitsVal_natBits, Nat.mod_eq_of_lt (bitsVal_lt l)]

/-- Cutting a string short divides its value. -/
theorem bitsVal_take (l : List Bool) (n : ℕ) :
    bitsVal (l.take n) = bitsVal l / 2 ^ (l.length - n) := by
  have hdrop : (l.drop n).length = l.length - n := List.length_drop
  have hlt := bitsVal_lt (l.drop n)
  conv_rhs => rw [← List.take_append_drop n l, bitsVal_append]
  rw [List.take_append_drop, hdrop, Nat.add_comm, Nat.add_mul_div_right _ _ (by positivity),
    Nat.div_eq_of_lt (by rwa [hdrop] at hlt), Nat.zero_add]

/-! ## Bytes -/

@[simp] theorem byteBits_length (b : UInt8) : (byteBits b).length = 8 := natBits_length _ _

/-- The bits of a byte stand for it, -/
theorem bitsVal_byteBits (b : UInt8) : bitsVal (byteBits b) = b.toNat := by
  rw [byteBits, bitsVal_natBits]
  exact Nat.mod_eq_of_lt b.toNat_lt

/-- so that they determine it. -/
theorem byteBits_inj {a b : UInt8} (h : byteBits a = byteBits b) : a = b := by
  apply UInt8.toNat_inj.mp
  rw [← bitsVal_byteBits, ← bitsVal_byteBits, h]

@[simp] theorem bytesBits_nil : bytesBits [] = [] := rfl

@[simp] theorem bytesBits_cons (b : UInt8) (l : List UInt8) :
    bytesBits (b :: l) = byteBits b ++ bytesBits l := rfl

@[simp] theorem bytesBits_length (l : List UInt8) : (bytesBits l).length = 8 * l.length := by
  induction l with
  | nil => rfl
  | cons b l ih => simp [ih]; omega

/-- The first `n` bits of a byte string, when they lie in its first byte. -/
theorem take_bytesBits_cons_of_le {b : UInt8} {l : List UInt8} {n : ℕ} (hn : n ≤ 8) :
    (bytesBits (b :: l)).take n = (byteBits b).take n := by
  rw [bytesBits_cons, List.take_append_of_le_length (by simpa using hn)]

/-- And when they reach past it. -/
theorem take_bytesBits_cons_of_ge {b : UInt8} {l : List UInt8} {n : ℕ} (hn : 8 ≤ n) :
    (bytesBits (b :: l)).take n = byteBits b ++ (bytesBits l).take (n - 8) := by
  rw [bytesBits_cons, List.take_append, byteBits_length, List.take_of_length_le (by simpa using hn)]

end P4Bricks
