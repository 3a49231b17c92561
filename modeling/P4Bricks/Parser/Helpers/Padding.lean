import P4Bricks.Common.BitNumbers
import P4Bricks.Parser.Helpers.BitCopy
import P4Bricks.Parser.Helpers.Reads
import P4Bricks.Parser.VSet
/-!
# Padding a value

The layout of a packed value as a key: field by field, the bits of the
number it denotes. `do_padding` leaves this layout, but for fields of at most
a byte that go over the end of a byte of the value. There it leaves the bits
in front of the field too.
-/

namespace P4Bricks

namespace Parsing

/-- A number laid out as a key of fields of these widths: each field in whole
bytes. The field of the lowest bits is the last. -/
def spread : List ℕ → ℕ → ByteContainer
  | [], _ => []
  | w :: widths, x => natBytes ((w + 7) / 8) (x / 2 ^ widths.sum % 2 ^ w) ++ spread widths x

/-- **What padding adds to a value is hidden**: where a field of at most a byte
goes over the end of a byte of the value, each bit that is set in front of it
falls on a place of the key that `hides` is true of. -/
def Clean (hides : ℕ → Prop) (x : ℕ) : List ℕ → Prop
  | [] => True
  | w :: widths =>
    (w ≤ 8 → widths.sum / 8 < (widths.sum + w - 1) / 8 →
      ∀ r < 8 - w, x.testBit (widths.sum + 7 - r) = true → hides r) ∧
    Clean (fun j => hides (8 * ((w + 7) / 8) + j)) x widths

theorem spread_length (widths : List ℕ) (x : ℕ) :
    (spread widths x).length = (widths.map fun w => (w + 7) / 8).sum := by
  induction widths with
  | nil => rfl
  | cons w widths ih =>
    rw [spread, List.length_append, natBytes_length, ih, List.map_cons, List.sum_cons]

/-- The bits of one field of the layout. -/
theorem bitAt_field {n w k x j : ℕ} (hj : j < 8 * n) :
    bitAt (natBytes n (x / 2 ^ k % 2 ^ w)) j =
      (decide (8 * n ≤ w + j) && x.testBit (k + (8 * n - 1 - j))) := by
  rw [bitAt_natBytes hj, Nat.testBit_mod_two_pow, Nat.testBit_div_two_pow, Nat.add_comm k]
  congr 1
  exact decide_eq_decide.mpr (by omega)

theorem bitAt_append_at {l l' : ByteContainer} {n j : ℕ} (hn : l.length = n) :
    bitAt (l ++ l') (8 * n + j) = bitAt l' j := by
  subst hn
  exact bitAt_append_right

/-- `src` is what is left of a value that denotes `x`. -/
def Denotes (x : ℕ) (src : ByteContainer) : Prop :=
  ∀ j < 8 * src.length, bitAt src j = x.testBit (8 * src.length - 1 - j)

theorem denotes_bytesVal (v : ByteContainer) : Denotes (bytesVal v) v :=
  fun _ hj => (testBit_bytesVal hj).symm

theorem Denotes.drop {x k : ℕ} {src : ByteContainer} (h : Denotes x src) : Denotes x (src.drop k) := by
  intro j hj
  rw [List.length_drop] at hj ⊢
  rw [bitAt_drop, h _ (by omega)]
  congr 1
  omega

variable {x off : ℕ} {src : ByteContainer} {hides : ℕ → Prop}

/-- **One field.** -/
theorem extracted_clean {w : ℕ} {widths : List ℕ} (hsrc : Denotes x src) (hoff : off < 8)
    (hlen : off + (w + widths.sum) = 8 * src.length)
    (hclean : Clean hides x (w :: widths)) {j : ℕ} (hj : j < 8 * ((w + 7) / 8)) (hshown : ¬hides j) :
    Extracted src off w j = bitAt (natBytes ((w + 7) / 8) (x / 2 ^ widths.sum % 2 ^ w)) j := by
  have hpad : padding w = 8 * ((w + 7) / 8) - w := rfl
  rw [bitAt_field hj, Extracted]
  rcases Nat.lt_or_ge j (padding w) with hlt | hge
  · -- A place in front of the field: it has to stay zero.
    rw [decide_eq_false (by omega : ¬8 * ((w + 7) / 8) ≤ w + j), Bool.false_and]
    rcases Decidable.em ((w + 7) / 8 = 1 ∧ padding w < off) with hshort | hlong
    · rw [hsrc _ (by omega)]
      have hover : widths.sum / 8 < (widths.sum + w - 1) / 8 := by omega
      have hzero : ¬x.testBit (widths.sum + 7 - j) = true := fun hbit =>
        hshown (hclean.1 (by omega) hover j (by omega) hbit)
      rw [(by omega : 8 * src.length - 1 - (off + j - padding w) = widths.sum + 7 - j),
        Bool.eq_false_of_not_eq_true hzero, Bool.and_false]
    · have hno : ¬(padding w ≤ j ∨ (w + 7) / 8 = 1 ∧ padding w < off) := by omega
      rw [decide_eq_false hno, Bool.false_and]
  · have hyes : padding w ≤ j ∨ (w + 7) / 8 = 1 ∧ padding w < off := Or.inl hge
    rw [decide_eq_true hyes, decide_eq_true (by omega : 8 * ((w + 7) / 8) ≤ w + j), Bool.true_and,
      Bool.true_and, hsrc _ (by omega)]
    congr 1
    omega

/-- **Padding a clean value lays it out**, where nothing is hidden. -/
theorem padFields_spec {widths : List ℕ} (hsrc : Denotes x src) (hoff : off < 8)
    (hlen : off + widths.sum = 8 * src.length) (hempty : EmptyAligned off widths)
    (hclean : Clean hides x widths) :
    ∃ bytes, padFields src off widths = .ok bytes ∧
      bytes.length = (widths.map fun w => (w + 7) / 8).sum ∧
      ∀ j < 8 * bytes.length, ¬hides j → bitAt bytes j = bitAt (spread widths x) j := by
  induction widths generalizing src off hides with
  | nil => exact ⟨[], rfl, rfl, fun j hj => absurd hj (Nat.not_lt_zero _)⟩
  | cons w widths ih =>
    rw [List.sum_cons] at hlen
    obtain ⟨field, hfield, -⟩ := (genericExtract_returns
      (fun hw => by have := hempty.1 hw; omega : w = 0 → off = 0)
      (by omega : off + w ≤ 8 * src.length)).exists_ok
    obtain ⟨hflen, hfbits⟩ := genericExtract_bits hfield hoff
    have hdrop : Denotes x (src.drop ((off + w) / 8)) := hsrc.drop
    obtain ⟨rest, hrest, hrlen, hrbits⟩ := ih hdrop (by omega : (off + w) % 8 < 8)
      (by rw [List.length_drop]; omega) (emptyAligned_congr (by omega) hempty.2) hclean.2
    refine ⟨field ++ rest, ?_, ?_, fun j hj hshown => ?_⟩
    · rw [padFields, hfield, ok_bind, hrest, ok_bind]
    · rw [List.length_append, hflen, hrlen, List.map_cons, List.sum_cons]
    · rw [List.length_append] at hj
      rw [spread]
      rcases Nat.lt_or_ge j (8 * field.length) with hlt | hge
      · rw [bitAt_append_left hlt, bitAt_append_left (by rw [natBytes_length]; omega),
          hfbits j (by omega)]
        exact extracted_clean hsrc hoff hlen hclean (by omega) hshown
      · obtain ⟨k, rfl⟩ : ∃ k, j = 8 * field.length + k := ⟨j - 8 * field.length, by omega⟩
        rw [bitAt_append_right, bitAt_append_at (by rw [natBytes_length, hflen])]
        exact hrbits k (by omega) (by rwa [← hflen])

/-- A value of one field is laid out as it is. -/
theorem spread_singleton {w : ℕ} {v : ByteContainer} (hlen : v.length = (w + 7) / 8)
    (hval : bytesVal v < 2 ^ w) : spread [w] (bytesVal v) = v := by
  rw [spread, spread, List.append_nil, List.sum_nil, pow_zero, Nat.div_one, Nat.mod_eq_of_lt hval]
  refine bitAt_ext (by rw [natBytes_length, hlen]) fun j hj => ?_
  rw [natBytes_length] at hj
  rw [bitAt_natBytes hj, ← hlen, testBit_bytesVal (by omega)]

end Parsing

end P4Bricks
