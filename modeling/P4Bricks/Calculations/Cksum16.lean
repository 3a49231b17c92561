import Mathlib.Data.BitVec
import Mathlib.Tactic.IntervalCases
import P4Bricks.Common.Bits
import P4Bricks.Common.OnesComplement
/-!
# The Internet checksum

Both copies of `cksum16` add the buffer up in little-endian words of eight bytes, then a
tail of four, two and one bytes, and fold the sum down to 16 bits. Two bytes more or less
of a shift count for nothing modulo `65535`, so this is the one's complement sum of the
16-bit words with their bytes swapped, whatever the size of the words read.
-/

namespace P4Bricks

/-- The number read at an address, lowest byte first. -/
def loadLE : ByteContainer → ℕ
  | [] => 0
  | b :: bytes => b.toNat + 256 * loadLE bytes

/-- `sum += s; if (sum < s) sum++;` -/
def addCarry {w : ℕ} (sum s : BitVec w) : BitVec w :=
  if sum + s < s then sum + s + 1 else sum + s

/-- The bytes of a `uint16_t` swapped, `ntohs` on a little-endian machine. -/
def ntohs (x : BitVec 16) : BitVec 16 := x <<< 8 ||| x >>> 8

namespace Cksum16

/-- The main loop, eight bytes at a time, with the tail it stops at. -/
def mainLoop (sum : BitVec 64) (b : ByteContainer) : BitVec 64 × ByteContainer :=
  if 8 ≤ b.length then
    mainLoop (addCarry sum (BitVec.ofNat 64 (loadLE (b.take 8)))) (b.drop 8)
  else (sum, b)
termination_by b.length
decreasing_by simp only [List.length_drop]; omega

/-- One of the blocks `if (len & size)` for the tail. -/
def addTail (len size : ℕ) (s : BitVec 64 × ByteContainer) : BitVec 64 × ByteContainer :=
  if len &&& size ≠ 0 then
    (addCarry s.1 (BitVec.ofNat 64 (loadLE (s.2.take size))), s.2.drop size)
  else s

/-- The value of `t3` at the end of both functions. -/
def sum16 (buf : ByteContainer) : BitVec 16 :=
  let (sum, tail) := mainLoop 0 buf
  let len := tail.length
  let (sum, _) := addTail len 1 (addTail len 2 (addTail len 4 (sum, tail)))
  let t1 : BitVec 32 := sum.setWidth 32
  let t2 : BitVec 32 := (sum >>> 32).setWidth 32
  let t1 := addCarry t1 t2
  let t3 : BitVec 16 := t1.setWidth 16
  let t4 : BitVec 16 := (t1 >>> 16).setWidth 16
  addCarry t3 t4

end Cksum16

/-- `cksum16` of `calculations.cpp`. -/
def Calculations.cksum16 (buf : ByteContainer) : BitVec 16 := ntohs (~~~Cksum16.sum16 buf)

/-- `cksum16` of `checksums.cpp`, which leaves the bytes as they are. -/
def Checksums.cksum16 (buf : ByteContainer) : BitVec 16 := ~~~Cksum16.sum16 buf

/-- The bytes of a `uint16_t` in memory. -/
def storeLE (x : BitVec 16) : ByteContainer := [UInt8.ofNat x.toNat, UInt8.ofNat (x.toNat / 256)]

/-! ## The checksum of RFC 1071 -/

/-- The 16-bit words of a buffer in network order; an odd last byte is padded with zero. -/
def networkWords : ByteContainer → List ℕ
  | [] => []
  | [a] => [256 * a.toNat]
  | a :: b :: bytes => (256 * a.toNat + b.toNat) :: networkWords bytes

/-- The one's complement of the one's complement sum of the words. -/
def internetChecksum (buf : ByteContainer) : ℕ :=
  65535 - (networkWords buf).foldl (endAround 65535) 0

/-! ## What the sums stand for -/

theorem toNat_addCarry {w : ℕ} (sum s : BitVec w) :
    (addCarry sum s).toNat = endAround (2 ^ w - 1) sum.toNat s.toNat := by
  have hsum := sum.isLt
  have hs := s.isLt
  have hadd : (sum + s).toNat = (sum.toNat + s.toNat) % 2 ^ w := BitVec.toNat_add ..
  unfold addCarry endAround
  rcases Nat.lt_or_ge (sum.toNat + s.toNat) (2 ^ w) with hlt | hge
  · -- no carry, and the sum is not below what was added
    rw [Nat.mod_eq_of_lt hlt] at hadd
    rw [if_neg (by rw [BitVec.lt_def]; omega), if_pos (by omega), hadd]
  · have hmod : (sum.toNat + s.toNat) % 2 ^ w = sum.toNat + s.toNat - 2 ^ w := by
      rw [Nat.mod_eq_sub_mod hge, Nat.mod_eq_of_lt (by omega)]
    rw [hmod] at hadd
    have hone : (1 : BitVec w).toNat = 1 := by
      obtain _ | w := w
      · simp only [Nat.pow_zero] at hsum hs hge
        omega
      · simp
    rw [if_pos (by rw [BitVec.lt_def]; omega), if_neg (by omega), BitVec.toNat_add, hadd, hone,
      Nat.mod_eq_of_lt (by omega)]
    omega

theorem loadLE_lt (bytes : ByteContainer) : loadLE bytes < 256 ^ bytes.length := by
  induction bytes with
  | nil => simp [loadLE]
  | cons b bytes ih =>
    have hb := b.toNat_lt
    rw [loadLE, List.length_cons, pow_succ]
    omega

theorem loadLE_append (l l' : ByteContainer) :
    loadLE (l ++ l') = loadLE l + 256 ^ l.length * loadLE l' := by
  induction l with
  | nil => simp [loadLE]
  | cons b l ih =>
    rw [List.cons_append, loadLE, loadLE, ih, List.length_cons, pow_succ]
    ring

theorem pow_even_modEq (k : ℕ) : 256 ^ (2 * k) ≡ 1 [MOD 65535] := by
  have hpow := (by decide : 256 ^ 2 ≡ 1 [MOD 65535]).pow k
  rwa [← pow_mul, one_pow] at hpow

/-- An even number of bytes, or all of them, can be read apart from the others. -/
theorem loadLE_split (bytes : ByteContainer) {k : ℕ} (h : 2 ∣ k ∨ bytes.length ≤ k) :
    SameSum 65535 (loadLE (bytes.take k) + loadLE (bytes.drop k)) (loadLE bytes) := by
  have hsplit := loadLE_append (bytes.take k) (bytes.drop k)
  rw [List.take_append_drop] at hsplit
  rcases Nat.le_total bytes.length k with hall | hk
  · rw [List.drop_eq_nil_of_le hall, List.take_of_length_le hall]
    exact .refl _
  · rw [hsplit, List.length_take, Nat.min_eq_left hk]
    refine (SameSum.refl _).add ?_
    rcases h with ⟨c, rfl⟩ | hle
    · exact (SameSum.mul (pow_even_modEq c) (by positivity) _).symm
    · rw [List.drop_eq_nil_of_le hle, loadLE, Nat.mul_zero]
      exact .refl _

namespace Cksum16

/-- What the sum so far stands for and what is still to be read add up to the buffer. -/
def Summed (buf : ByteContainer) (s : BitVec 64 × ByteContainer) : Prop :=
  ∃ n, Represents (2 ^ 64 - 1) n s.1.toNat ∧ SameSum 65535 (n + loadLE s.2) (loadLE buf)

variable {buf : ByteContainer} {s : BitVec 64 × ByteContainer}

/-- **One read of the buffer** keeps the sum. -/
theorem Summed.read (h : Summed buf s) {k : ℕ} (hk : k ≤ 8) (hpart : 2 ∣ k ∨ s.2.length ≤ k) :
    Summed buf (addCarry s.1 (BitVec.ofNat 64 (loadLE (s.2.take k))), s.2.drop k) := by
  obtain ⟨n, hrep, hsame⟩ := h
  have hlt : loadLE (s.2.take k) < 2 ^ 64 := by
    refine lt_of_lt_of_le (loadLE_lt _) ?_
    have hlen : (s.2.take k).length ≤ 8 := by
      rw [List.length_take]
      omega
    calc 256 ^ (s.2.take k).length ≤ 256 ^ 8 := Nat.pow_le_pow_right (by decide) hlen
      _ = 2 ^ 64 := by norm_num
  refine ⟨n + loadLE (s.2.take k), ?_, ?_⟩
  · rw [toNat_addCarry, BitVec.toNat_ofNat, Nat.mod_eq_of_lt hlt]
    exact hrep.endAround (.of_le (by omega))
  · rw [Nat.add_assoc]
    exact ((SameSum.refl n).add (loadLE_split _ hpart)).trans hsame

/-- **The main loop keeps the sum**, and stops before eight bytes. -/
theorem Summed.mainLoop {sum : BitVec 64} {b : ByteContainer} (h : Summed buf (sum, b)) :
    Summed buf (mainLoop sum b) ∧ (mainLoop sum b).2.length < 8 := by
  induction sum, b using Cksum16.mainLoop.induct with
  | case1 sum b hlen ih =>
    rw [Cksum16.mainLoop, if_pos hlen]
    exact ih (h.read (k := 8) (by decide) (.inl (by decide)))
  | case2 sum b hlen =>
    rw [Cksum16.mainLoop, if_neg hlen]
    exact ⟨h, by simpa using hlen⟩

/-- **One block of the tail** reads the bytes its bit of the length stands for. -/
theorem Summed.addTail (h : Summed buf s) (len size : ℕ) (hsize : size ≤ 8)
    (hpart : 2 ∣ size ∨ s.2.length ≤ size) : Summed buf (addTail len size s) := by
  unfold Cksum16.addTail
  split
  · exact h.read hsize hpart
  · exact h

theorem addTail_length (len size : ℕ) (s : BitVec 64 × ByteContainer) :
    (addTail len size s).2.length =
      if len &&& size ≠ 0 then s.2.length - size else s.2.length := by
  unfold addTail
  split <;> simp

/-- The three blocks read all of a tail below eight bytes. -/
theorem tail_read {len : ℕ} (hlen : len < 8) (h : s.2.length = len) :
    (addTail len 2 (addTail len 4 s)).2.length ≤ 1 ∧
      (addTail len 1 (addTail len 2 (addTail len 4 s))).2 = [] := by
  rw [← List.length_eq_zero_iff]
  simp only [addTail_length, h]
  interval_cases len <;> decide

/-- A word folded with an end-around carry into one of half the width. -/
theorem fold_represents {n w v : ℕ} {x : BitVec w} (hw : w = v + v) (hv : 0 < v)
    (h : Represents (2 ^ w - 1) n x.toNat) :
    Represents (2 ^ v - 1) n (addCarry (x.setWidth v) ((x >>> v).setWidth v)).toNat := by
  have hlt := x.isLt
  have hpow : 2 ^ w = 2 ^ v * 2 ^ v := by rw [hw, pow_add]
  have hhigh : x.toNat / 2 ^ v < 2 ^ v := Nat.div_lt_of_lt_mul (by omega)
  rw [toNat_addCarry, BitVec.toNat_setWidth, BitVec.toNat_setWidth, BitVec.toNat_ushiftRight,
    Nat.shiftRight_eq_div_pow, Nat.mod_eq_of_lt hhigh]
  rw [hpow] at h
  exact h.fold (Nat.one_lt_two_pow (by omega))

/-- **The folded sum stands for the buffer** read lowest byte first. -/
theorem sum16_represents (buf : ByteContainer) :
    Represents 65535 (loadLE buf) (sum16 buf).toNat := by
  have hstart : Summed buf (0, buf) := ⟨0, .of_le (by decide), by simpa using .refl _⟩
  obtain ⟨hmain, hlen⟩ := hstart.mainLoop
  obtain ⟨hone, hnone⟩ := tail_read hlen rfl
  have hfour := hmain.addTail (mainLoop 0 buf).2.length 4 (by decide) (.inl (by decide))
  have htwo := hfour.addTail (mainLoop 0 buf).2.length 2 (by decide) (.inl (by decide))
  obtain ⟨n, hrep, hsame⟩ := htwo.addTail (mainLoop 0 buf).2.length 1 (by decide) (.inr hone)
  rw [hnone, loadLE, Nat.add_zero] at hsame
  -- the carries of the two folds come back in like those of the loop
  have hhalf := fold_represents (v := 32) (by decide) (by decide) hrep
  have hquarter := fold_represents (v := 16) (by decide) (by decide) hhalf
  exact hquarter.congr hsame

/-- **The words in network order** stand for the buffer with its bytes swapped in pairs,
a shift of one byte. -/
theorem networkWords_sum (buf : ByteContainer) :
    SameSum 65535 (networkWords buf).sum (256 * loadLE buf) := by
  induction buf using networkWords.induct with
  | case1 => simpa [networkWords, loadLE] using .refl 0
  | case2 a =>
    simp only [networkWords, loadLE, List.sum_cons, List.sum_nil, Nat.mul_zero, Nat.add_zero]
    exact .refl _
  | case3 a b bytes ih =>
    have hbase : 65536 ≡ 1 [MOD 65535] := by decide
    have hb : SameSum 65535 b.toNat (65536 * b.toNat) := (SameSum.mul hbase (by decide) _).symm
    have hrest : SameSum 65535 (networkWords bytes).sum (65536 * (256 * loadLE bytes)) :=
      ih.trans (SameSum.mul hbase (by decide) _).symm
    have hword := ((SameSum.refl (m := 65535) (256 * a.toNat)).add hb).add hrest
    have hsplit : 256 * a.toNat + 65536 * b.toNat + 65536 * (256 * loadLE bytes) =
        256 * loadLE (a :: b :: bytes) := by
      simp only [loadLE]
      ring
    rw [hsplit] at hword
    simpa [networkWords] using hword

/-- The words are added up one after the other. -/
theorem foldl_represents {n acc : ℕ} (h : Represents 65535 n acc) (words : List ℕ)
    (hwords : ∀ x ∈ words, x ≤ 65535) :
    Represents 65535 (n + words.sum) (words.foldl (endAround 65535) acc) := by
  induction words generalizing n acc with
  | nil => simpa using h
  | cons x words ih =>
    rw [List.foldl_cons, List.sum_cons, ← Nat.add_assoc]
    have hx : x ≤ 65535 := hwords x (by simp)
    exact ih (h.endAround (.of_le hx)) fun y hy => hwords y (by simp [hy])

theorem networkWords_le (buf : ByteContainer) : ∀ x ∈ networkWords buf, x ≤ 65535 := by
  induction buf using networkWords.induct with
  | case1 => simp [networkWords]
  | case2 a =>
    have ha := a.toNat_lt
    intro x hx
    rw [networkWords, List.mem_singleton] at hx
    omega
  | case3 a b bytes ih =>
    have ha := a.toNat_lt
    have hb := b.toNat_lt
    intro x hx
    rw [networkWords, List.mem_cons] at hx
    rcases hx with rfl | hx
    · omega
    · exact ih x hx

theorem toNat_ntohs (x : BitVec 16) :
    (ntohs x).toNat = 256 * (x.toNat % 256) + x.toNat / 256 := by
  have hx := x.isLt
  have hhigh : x.toNat / 256 < 2 ^ 8 := by omega
  have hlow : x.toNat * 2 ^ 8 % 2 ^ 16 = 2 ^ 8 * (x.toNat % 256) := by omega
  rw [ntohs, BitVec.toNat_or, BitVec.toNat_shiftLeft, BitVec.toNat_ushiftRight,
    Nat.shiftLeft_eq, Nat.shiftRight_eq_div_pow, hlow, ← Nat.two_pow_add_eq_or_of_lt hhigh]

/-- Swapping the two bytes of a word is a shift of one byte. -/
theorem swap_represents {n : ℕ} {x : BitVec 16} (h : Represents 65535 n x.toNat) :
    Represents 65535 (256 * n) (ntohs x).toNat := by
  have hx := x.isLt
  have hbase : 65536 ≡ 1 [MOD 65535] := by decide
  have hsplit : 256 * x.toNat = 256 * (x.toNat % 256) + 65536 * (x.toNat / 256) := by omega
  have hswap : SameSum 65535 (256 * (x.toNat % 256) + x.toNat / 256) (256 * x.toNat) := by
    rw [hsplit]
    exact (SameSum.refl _).add (SameSum.mul hbase (by decide) _).symm
  have hzero := h.zero_iff
  rw [toNat_ntohs]
  exact (Represents.of_le (by omega)).congr
    (hswap.trans ⟨h.modEq.mul_left 256, by omega⟩)

theorem ntohs_not (x : BitVec 16) : ntohs (~~~x) = ~~~ntohs x := by
  have hx := x.isLt
  apply BitVec.eq_of_toNat_eq
  simp only [toNat_ntohs, BitVec.toNat_not]
  omega

/-- A swapped word lies in memory in network order. -/
theorem storeLE_ntohs (x : BitVec 16) : storeLE (ntohs x) = natBytes 2 x.toNat := by
  have hx := x.isLt
  have hbyte : ∀ a b : ℕ, a % 2 ^ 8 = b % 2 ^ 8 → UInt8.ofNat a = UInt8.ofNat b := by
    intro a b hab
    rwa [← UInt8.toNat_inj, UInt8.toNat_ofNat', UInt8.toNat_ofNat']
  have hdiv : (ntohs x).toNat / 256 = x.toNat % 256 := by
    rw [toNat_ntohs, Nat.mul_add_div (by decide), Nat.div_eq_of_lt (by omega), Nat.add_zero]
  have hfirst := hbyte (ntohs x).toNat (x.toNat / 256) (by rw [toNat_ntohs]; omega)
  have hsecond := hbyte ((ntohs x).toNat / 256) x.toNat (by omega)
  rw [storeLE, hfirst, hsecond]
  simp only [natBytes, List.nil_append, List.cons_append]

end Cksum16

open Cksum16 in
/-- **`cksum16` is the Internet checksum**: the one of `calculations.cpp` as a number, the
one of `checksums.cpp` with its bytes swapped, so that in memory they stand in network
order. -/
theorem cksum16_eq_internetChecksum (buf : ByteContainer) :
    (Calculations.cksum16 buf).toNat = internetChecksum buf ∧
      Checksums.cksum16 buf = ntohs (Calculations.cksum16 buf) ∧
      storeLE (Checksums.cksum16 buf) = natBytes 2 (internetChecksum buf) := by
  have hsum : (ntohs (sum16 buf)).toNat = (networkWords buf).foldl (endAround 65535) 0 := by
    have hwords := foldl_represents (.of_le (Nat.zero_le _)) _ (networkWords_le buf)
    rw [Nat.zero_add] at hwords
    exact (swap_represents (sum16_represents buf)).unique (hwords.congr (networkWords_sum buf))
  have hcalc : (Calculations.cksum16 buf).toNat = internetChecksum buf := by
    rw [Calculations.cksum16, ntohs_not, BitVec.toNat_not, internetChecksum, hsum]
  have hswap : Checksums.cksum16 buf = ntohs (Calculations.cksum16 buf) := by
    have hx := (~~~sum16 buf).isLt
    apply BitVec.eq_of_toNat_eq
    simp only [Calculations.cksum16, Checksums.cksum16, toNat_ntohs]
    omega
  refine ⟨hcalc, hswap, ?_⟩
  rw [hswap, storeLE_ntohs, hcalc]

end P4Bricks
