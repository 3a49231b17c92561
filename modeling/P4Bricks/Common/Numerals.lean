import Mathlib.Data.Nat.Digits.Defs
import Mathlib.Tactic.IntervalCases
import P4Bricks.Common.BitNumbers
import P4Bricks.Common.Extraction
/-!
# Numerals

How numbers and byte strings are written in decimal and in hexadecimal, what is
extracted of such texts, and what is read from them.
-/

namespace P4Bricks

namespace Extraction

/-! ## Digits -/

/-- The character of a digit. -/
def digit (d : ℕ) : UInt8 := if d < 10 then .ofNat (48 + d) else .ofNat (87 + d)

/-- `char2digit`, which asserts that there is such a digit. -/
def char2digit (c : UInt8) : Option ℕ :=
  if 48 ≤ c.toNat ∧ c.toNat ≤ 57 then some (c.toNat - 48)
  else if 65 ≤ c.toNat ∧ c.toNat ≤ 70 then some (c.toNat - 55)
  else if 97 ≤ c.toNat ∧ c.toNat ≤ 102 then some (c.toNat - 87)
  else none

def isDigit (c : UInt8) : Bool := 48 ≤ c && c ≤ 57

theorem char2digit_digit {d : ℕ} (hd : d < 16) : char2digit (digit d) = some d := by
  interval_cases d <;> rfl

theorem isSpace_digit {d : ℕ} (hd : d < 16) : isSpace (digit d) = false := by
  interval_cases d <;> rfl

theorem isDigit_digit {d : ℕ} (hd : d < 10) : isDigit (digit d) = true := by
  interval_cases d <;> rfl

/-- A natural number to the base `b`. -/
def numeral (b n : ℕ) : Text :=
  if n = 0 then [digit 0] else ((Nat.digits b n).map digit).reverse

/-- The number that digits to the base `b` stand for. -/
def numeralVal (b : ℕ) (t : Text) : ℕ := t.foldl (fun n c => b * n + (char2digit c).getD 0) 0

/-- A numeral has digits of its base only, -/
theorem mem_numeral {b n : ℕ} {c : UInt8} (hb : 1 < b) (h : c ∈ numeral b n) : ∃ d < b, c = digit d := by
  rw [numeral] at h
  split_ifs at h with h0
  · exact ⟨0, by omega, List.mem_singleton.mp h⟩
  · obtain ⟨d, hd, rfl⟩ := List.mem_map.mp (List.mem_reverse.mp h)
    exact ⟨d, Nat.digits_lt_base hb hd, rfl⟩

/-- and at least one, -/
theorem numeral_ne_nil (b n : ℕ) : numeral b n ≠ [] := by
  rw [numeral]
  split_ifs with h0
  · simp
  · simpa using Nat.digits_ne_nil_iff_ne_zero.mpr h0

/-- and stands for its number. -/
theorem numeralVal_numeral {b : ℕ} (hb : 1 < b) (hb' : b ≤ 16) (n : ℕ) :
    numeralVal b (numeral b n) = n := by
  rw [numeral]
  split_ifs with h0
  · rw [h0]
    rfl
  · rw [numeralVal, List.foldl_reverse, List.foldr_map]
    have hval : ∀ l : List ℕ, (∀ d ∈ l, d < b) →
        l.foldr (fun d n => b * n + (char2digit (digit d)).getD 0) 0 = Nat.ofDigits b l := by
      intro l hl
      induction l with
      | nil => rfl
      | cons d l ih =>
        have hd : d < b := hl d List.mem_cons_self
        rw [List.foldr_cons, ih fun x hx => hl x (List.mem_cons_of_mem _ hx),
          char2digit_digit (hd.trans_le hb'), Nat.ofDigits_cons, Option.getD_some]
        exact Nat.add_comm _ _
    rw [hval _ fun d hd => Nat.digits_lt_base hb hd, Nat.ofDigits_digits]

/-! ## Words and numbers -/

/-- `in >> s`, of a string. -/
def word : Format := ⟨List.length, fun _ => le_rfl⟩

/-- A word can be read back when it is not empty and has no blank in it. -/
theorem clean_word {t : Text} : word.Clean t ↔ t ≠ [] ∧ ∀ c ∈ t, isSpace c = false :=
  ⟨fun h => ⟨h.1, h.2.1⟩, fun h => ⟨h.1, h.2, rfl⟩⟩

/-- The characters of a number: a sign that digits follow, or digits. -/
def numberTake : Text → ℕ
  | [] => 0
  | c :: t =>
    let digits := (t.takeWhile isDigit).length
    if c = 45 ∨ c = 43 then if digits = 0 then 0 else digits + 1
    else if isDigit c then digits + 1 else 0

/-- `in >> n`, of an integer. -/
def number : Format where
  take := numberTake
  take_le t := by
    rcases t with - | ⟨c, t⟩
    · exact le_rfl
    · have hle := (List.takeWhile_prefix (l := t) (p := isDigit)).length_le
      rw [numberTake, List.length_cons]
      split_ifs <;> omega

/-- An integer in decimal. -/
def decimal : ℤ → Text
  | .ofNat n => numeral 10 n
  | .negSucc n => 45 :: numeral 10 (n + 1)

/-- The integer that is read from such a text. -/
def ofDecimal : Text → ℤ
  | 45 :: t => -numeralVal 10 t
  | 43 :: t => numeralVal 10 t
  | t => numeralVal 10 t

theorem isDigit_of_mem_numeral {n : ℕ} {c : UInt8} (h : c ∈ numeral 10 n) : isDigit c = true := by
  obtain ⟨d, hd, rfl⟩ := mem_numeral (by decide) h
  exact isDigit_digit hd

theorem isSpace_of_mem_numeral {b n : ℕ} {c : UInt8} (hb : 1 < b) (hb' : b ≤ 16)
    (h : c ∈ numeral b n) : isSpace c = false := by
  obtain ⟨d, hd, rfl⟩ := mem_numeral hb h
  exact isSpace_digit (hd.trans_le hb')

/-- A numeral does not begin with a sign. -/
theorem numeral_cons (n : ℕ) : ∃ c t, numeral 10 n = c :: t ∧ c ≠ 45 ∧ c ≠ 43 := by
  obtain ⟨c, t, h⟩ := List.exists_cons_of_ne_nil (numeral_ne_nil 10 n)
  have hc : isDigit c = true := isDigit_of_mem_numeral (n := n) (h ▸ List.mem_cons_self)
  refine ⟨c, t, h, ?_, ?_⟩
  · rintro rfl
    exact absurd hc (by decide)
  · rintro rfl
    exact absurd hc (by decide)

/-- Its digits are all of it. -/
theorem takeWhile_numeral (n : ℕ) : (numeral 10 n).takeWhile isDigit = numeral 10 n :=
  List.takeWhile_eq_self_iff.mpr fun _ hc => isDigit_of_mem_numeral hc

/-- **Numbers.** What is written in decimal is extracted as it is, -/
theorem clean_decimal (z : ℤ) : number.Clean (decimal z) := by
  rcases z with n | n
  · refine ⟨numeral_ne_nil 10 n, fun c hc => isSpace_of_mem_numeral (by decide) (by decide) hc, ?_⟩
    obtain ⟨c, t, h, hm, hp⟩ := numeral_cons n
    have hdigits := takeWhile_numeral n
    have hc : isDigit c = true := isDigit_of_mem_numeral (n := n) (h ▸ List.mem_cons_self)
    rw [h, List.takeWhile_cons_of_pos hc, List.cons.injEq] at hdigits
    change numberTake (numeral 10 n) = (numeral 10 n).length
    rw [h, numberTake, hdigits.2, if_neg (by simp [hm, hp]), if_pos hc, List.length_cons]
  · refine ⟨List.cons_ne_nil _ _, fun c hc => ?_, ?_⟩
    · rcases List.mem_cons.mp hc with rfl | hc
      · rfl
      · exact isSpace_of_mem_numeral (by decide) (by decide) hc
    · have hlen : (numeral 10 (n + 1)).length ≠ 0 := by simpa using numeral_ne_nil 10 (n + 1)
      change numberTake (45 :: numeral 10 (n + 1)) = _
      rw [numberTake, takeWhile_numeral, if_pos (Or.inl rfl), if_neg hlen]
      rfl

/-- and is the number it was. -/
theorem ofDecimal_decimal (z : ℤ) : ofDecimal (decimal z) = z := by
  rcases z with n | n
  · obtain ⟨c, t, h, hm, hp⟩ := numeral_cons n
    have hval := numeralVal_numeral (b := 10) (by decide) (by decide) n
    change ofDecimal (numeral 10 n) = n
    rw [h] at hval ⊢
    rw [ofDecimal, hval]
    · intro t' heq
      exact hm (List.cons_eq_cons.mp heq).1
    · intro t' heq
      exact hp (List.cons_eq_cons.mp heq).1
  · change -(numeralVal 10 (numeral 10 (n + 1)) : ℤ) = _
    rw [numeralVal_numeral (by decide) (by decide)]
    rfl

/-! ## Hexadecimal -/

/-- `to_hex`. -/
def toHex (bytes : ByteContainer) : Text :=
  bytes.flatMap fun b => [digit (b.toNat / 16), digit (b.toNat % 16)]

/-- Two digits for each byte. -/
def hexBytes : Text → Option ByteContainer
  | [] => some []
  | [_] => none
  | c :: c' :: t => do
    let d ← char2digit c
    let d' ← char2digit c'
    let bytes ← hexBytes t
    return .ofNat (16 * d + d') :: bytes

/-- The bytes of a text of hexadecimal digits, which `0x` may stand before. A first
digit without a second is a byte. -/
def ofHex (t : Text) : Option ByteContainer :=
  let t := match t with
    | 48 :: 120 :: t' => t'
    | t => t
  match t with
  | [] => none
  | c :: t' =>
    if t'.length % 2 = 0 then do
      let d ← char2digit c
      let bytes ← hexBytes t'
      return .ofNat d :: bytes
    else hexBytes t

/-- The hexadecimal text of bytes has hexadecimal digits only, -/
theorem mem_toHex {bytes : ByteContainer} {c : UInt8} (h : c ∈ toHex bytes) :
    ∃ d < 16, c = digit d := by
  obtain ⟨b, -, hc⟩ := List.mem_flatMap.mp h
  have hb := b.toNat_lt
  rcases List.mem_cons.mp hc with rfl | hc
  · exact ⟨b.toNat / 16, by omega, rfl⟩
  · exact ⟨b.toNat % 16, by omega, List.mem_singleton.mp hc⟩

/-- Bytes are written as a word, unless there are none. -/
theorem clean_toHex {bytes : ByteContainer} : word.Clean (toHex bytes) ↔ bytes ≠ [] := by
  rw [clean_word]
  constructor
  · rintro ⟨hne, -⟩ rfl
    exact hne rfl
  · intro hne
    obtain ⟨b, rest, rfl⟩ := List.exists_cons_of_ne_nil hne
    refine ⟨List.cons_ne_nil _ _, fun c hc => ?_⟩
    obtain ⟨d, hd, rfl⟩ := mem_toHex hc
    exact isSpace_digit hd

/-- The first digit is the most significant. -/
theorem ofDigits_reverse_cons (d : ℕ) (ds : List ℕ) :
    Nat.ofDigits 16 (d :: ds).reverse = 16 ^ ds.length * d + Nat.ofDigits 16 ds.reverse := by
  rw [List.reverse_cons, Nat.ofDigits_append, List.length_reverse, Nat.ofDigits_singleton]
  exact Nat.add_comm _ _

/-- Digits, two and two. -/
theorem hexBytes_digits : ∀ {ds : List ℕ}, (∀ d ∈ ds, d < 16) → ds.length % 2 = 0 →
    ∃ bytes, hexBytes (ds.map digit) = some bytes ∧ 2 * bytes.length = ds.length ∧
      bytesVal bytes = Nat.ofDigits 16 ds.reverse
  | [], _, _ => ⟨[], rfl, rfl, rfl⟩
  | [_], _, hlen => by simp at hlen
  | d :: d' :: ds, hds, hlen => by
    have hd : d < 16 := hds d List.mem_cons_self
    have hd' : d' < 16 := hds d' (List.mem_cons_of_mem _ List.mem_cons_self)
    have hrest : ∀ x ∈ ds, x < 16 := fun x hx =>
      hds x (List.mem_cons_of_mem _ (List.mem_cons_of_mem _ hx))
    rw [List.length_cons, List.length_cons] at hlen
    obtain ⟨bytes, hbytes, hlength, hval⟩ := hexBytes_digits hrest (by omega)
    refine ⟨.ofNat (16 * d + d') :: bytes, ?_, ?_, ?_⟩
    · rw [List.map_cons, List.map_cons, hexBytes, char2digit_digit hd, char2digit_digit hd', hbytes]
      rfl
    · rw [List.length_cons, List.length_cons, List.length_cons]
      omega
    · have hbyte : (UInt8.ofNat (16 * d + d')).toNat = 16 * d + d' := by
        rw [UInt8.toNat_ofNat']
        exact Nat.mod_eq_of_lt (by omega)
      have hpow : 2 ^ (8 * bytes.length) = 16 ^ ds.length := by
        rw [← hlength, (by norm_num : 16 = 2 ^ 4), ← pow_mul]
        congr 1
        omega
      rw [bytesVal_cons, hbyte, hval, hpow, ofDigits_reverse_cons, ofDigits_reverse_cons,
        List.length_cons, pow_succ]
      ring

/-- and is read back as the bytes, -/
theorem hexBytes_toHex (bytes : ByteContainer) : hexBytes (toHex bytes) = some bytes := by
  induction bytes with
  | nil => rfl
  | cons b bytes ih =>
    have hb := b.toNat_lt
    have hjoin : UInt8.ofNat (16 * (b.toNat / 16) + b.toNat % 16) = b := by
      rw [Nat.div_add_mod, UInt8.ofNat_toNat]
    rw [toHex, List.flatMap_cons]
    change hexBytes (_ :: _ :: toHex bytes) = _
    rw [hexBytes, char2digit_digit (by omega), char2digit_digit (by omega), ih]
    change some (_ :: bytes) = _
    rw [hjoin]

/-- with two digits for each. -/
theorem length_toHex (bytes : ByteContainer) : (toHex bytes).length = 2 * bytes.length := by
  induction bytes with
  | nil => rfl
  | cons b bytes ih =>
    rw [toHex, List.flatMap_cons, List.length_append]
    change 2 + (toHex bytes).length = _
    rw [ih, List.length_cons]
    omega

theorem digit_ne_x {d : ℕ} (hd : d < 16) : digit d ≠ 120 := by
  interval_cases d <;> decide

/-- A text of digits has no `x`. -/
theorem ofHex_cons {c : UInt8} {t : Text} (hx : ∀ x ∈ t, x ≠ 120) :
    ofHex (c :: t) = if t.length % 2 = 0 then (do
      let d ← char2digit c
      let bytes ← hexBytes t
      return .ofNat d :: bytes) else hexBytes (c :: t) := by
  rw [ofHex]
  intro t' heq
  obtain ⟨-, rfl⟩ := List.cons_eq_cons.mp heq
  exact absurd rfl (hx 120 List.mem_cons_self)

/-- **Bytes** are read back from their digits. -/
theorem ofHex_toHex {bytes : ByteContainer} (hne : bytes ≠ []) : ofHex (toHex bytes) = some bytes := by
  obtain ⟨c, t, h⟩ := List.exists_cons_of_ne_nil (clean_toHex.mpr hne).1
  have hx : ∀ x ∈ t, x ≠ 120 := by
    intro x hx
    have hmem : x ∈ toHex bytes := h ▸ List.mem_cons_of_mem _ hx
    obtain ⟨d, hd, rfl⟩ := mem_toHex hmem
    exact digit_ne_x hd
  have hlen := length_toHex bytes
  rw [h, List.length_cons] at hlen
  rw [h, ofHex_cons hx, if_neg (by omega), ← h]
  exact hexBytes_toHex bytes

/-- **Numbers in hexadecimal** are read back from the bytes of their digits. -/
theorem ofHex_numeral (n : ℕ) : ∃ bytes, ofHex (numeral 16 n) = some bytes ∧ bytesVal bytes = n := by
  rw [numeral]
  split_ifs with h0
  · exact ⟨[0], rfl, h0.symm⟩
  · rw [← List.map_reverse]
    have hds : ∀ d ∈ (Nat.digits 16 n).reverse, d < 16 :=
      fun d hd => Nat.digits_lt_base (by decide) (List.mem_reverse.mp hd)
    have hval : Nat.ofDigits 16 (Nat.digits 16 n).reverse.reverse = n := by
      rw [List.reverse_reverse, Nat.ofDigits_digits]
    have hne : (Nat.digits 16 n).reverse ≠ [] := by
      simpa using Nat.digits_ne_nil_iff_ne_zero.mpr h0
    generalize (Nat.digits 16 n).reverse = ds at hds hval hne
    obtain ⟨d, ds, rfl⟩ := List.exists_cons_of_ne_nil hne
    have hd : d < 16 := hds d List.mem_cons_self
    have hds' : ∀ x ∈ ds, x < 16 := fun x hx => hds x (List.mem_cons_of_mem _ hx)
    have hx : ∀ x ∈ ds.map digit, x ≠ 120 := by
      intro x hx
      obtain ⟨e, he, rfl⟩ := List.mem_map.mp hx
      exact digit_ne_x (hds' e he)
    rw [List.map_cons, ofHex_cons hx, List.length_map]
    -- Two digits a byte, and an odd one in front fills a byte of its own.
    split_ifs with heven
    · obtain ⟨bytes, hbytes, hlength, hbval⟩ := hexBytes_digits hds' heven
      refine ⟨.ofNat d :: bytes, ?_, ?_⟩
      · rw [char2digit_digit hd, hbytes]
        rfl
      · have hbyte : (UInt8.ofNat d).toNat = d := by
          rw [UInt8.toNat_ofNat']
          exact Nat.mod_eq_of_lt (by omega)
        have hpow : 2 ^ (8 * bytes.length) = 16 ^ ds.length := by
          rw [← hlength, (by norm_num : 16 = 2 ^ 4), ← pow_mul]
          congr 1
          omega
        rw [bytesVal_cons, hbyte, hbval, hpow, ← ofDigits_reverse_cons, hval]
    · obtain ⟨bytes, hbytes, -, hbval⟩ := hexBytes_digits hds (by
        rw [List.length_cons]
        omega)
      exact ⟨bytes, hbytes, hbval.trans hval⟩

end Extraction

end P4Bricks
