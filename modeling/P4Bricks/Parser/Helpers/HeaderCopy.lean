import P4Bricks.Parser.Helpers.BitCopy
import P4Bricks.Parser.Helpers.Reads
/-!
# Copying headers

A header that was extracted is deparsed to the bytes it was extracted from.
Every field is written where it was read, so that the padding it brings along
is in the destination before it.
-/

namespace P4Bricks

open Parsing

/-! ## Fields -/

namespace Field

variable {f f' : Field} {data dst : ByteContainer} {off : ℕ}

theorem extract_bytes (h : f.extract data off = .ok f') :
    genericExtract data off f.nbits = .ok f'.bytes := by
  obtain ⟨bytes, hbytes, h⟩ := bind_eq_ok h
  cases h
  rw [hbytes]
  split <;> rfl

/-- **A field that was extracted is written back as it was.** -/
theorem deparse_extract (h : f.extract data off = .ok f') (hoff : off < 8)
    (hdst : off + f.nbits ≤ 8 * dst.length) (hsame : ∀ j < off, bitAt dst j = bitAt data j) :
    ∃ dst', f'.deparse dst off = .ok dst' ∧ dst'.length = dst.length ∧
      (∀ j < off + f.nbits, bitAt dst' j = bitAt data j) ∧
      dst'.drop ((off + f.nbits + 7) / 8) = dst.drop ((off + f.nbits + 7) / 8) := by
  have hw : f'.nbits = f.nbits := congrArg Prod.fst (extract_size h)
  obtain ⟨hlen, hbits⟩ := genericExtract_bits (extract_bytes h) hoff
  have hpad : padding f.nbits = 8 * ((f.nbits + 7) / 8) - f.nbits := rfl
  have hplaced : ∀ j < off + f.nbits, off ≤ j + padding f.nbits →
      Placed f'.bytes off f.nbits j = Extracted data off f.nbits (j + padding f.nbits - off) := by
    intro j hj hle
    rw [placed_eq hle, hbits _ (by omega)]
  have habs : Absorbed f'.bytes dst off f.nbits := by
    intro j hj hp
    have hle : off ≤ j + padding f.nbits := by
      by_contra hlt
      simp [Placed, hlt] at hp
    rw [hplaced j (by omega) hle, Extracted, Bool.and_eq_true] at hp
    rw [hsame j hj, ← hp.2]
    congr 1
    omega
  obtain ⟨dst', hd, hwrote⟩ := genericDeparse_bits hoff hlen hdst habs
  refine ⟨dst', by rw [deparse, hw, hd], hwrote.length, fun j hj => ?_, hwrote.rest⟩
  rw [hwrote.bits j hj]
  split
  · next hlt => exact hsame j hlt
  · rw [hplaced j hj (by omega), Extracted, decide_eq_true (by omega), Bool.true_and]
    congr 1
    omega

end Field

namespace Header

variable {vlFn : List Field → Except Stop ℤ} {data dst : ByteContainer} {off : ℕ}
variable {done todo fields : List Field}

/-- The fields, written from the place they were read from on. -/
def WritesBack (data : ByteContainer) (off n : ℕ) (fields : List Field) : Prop :=
  ∀ dst : ByteContainer, off + n ≤ 8 * dst.length → (∀ j < off, bitAt dst j = bitAt data j) →
    ∃ dst', deparseFields dst off fields = .ok dst' ∧ dst'.length = dst.length ∧
      (∀ j < off + n, bitAt dst' j = bitAt data j) ∧
      dst'.drop ((off + n + 7) / 8) = dst.drop ((off + n + 7) / 8)

theorem writesBack_cons {f f' : Field} {n : ℕ} (h : f.extract data off = .ok f') (hoff : off < 8)
    (hvis : ¬f'.hidden) (hrest : WritesBack (data.drop ((off + f.nbits) / 8))
      ((off + f.nbits) % 8) n fields) : WritesBack data off (f.nbits + n) (f' :: fields) := by
  intro dst hdst hsame
  have hw : f'.nbits = f.nbits := congrArg Prod.fst (Field.extract_size h)
  obtain ⟨dst₁, hd₁, hlen₁, hbits₁, hrest₁⟩ := Field.deparse_extract h hoff (by omega) hsame
  obtain ⟨dst₂, hd₂, hlen₂, hbits₂, hrest₂⟩ := hrest (dst₁.drop ((off + f.nbits) / 8))
    (by rw [List.length_drop]; omega) fun j hj => by
      rw [bitAt_drop, bitAt_drop, hbits₁ _ (by omega)]
  rw [List.length_drop] at hlen₂
  have htake : (dst₁.take ((off + f.nbits) / 8)).length = (off + f.nbits) / 8 := by
    rw [List.length_take]
    omega
  refine ⟨dst₁.take ((off + f.nbits) / 8) ++ dst₂, ?_, ?_, fun j hj => ?_, ?_⟩
  · rw [deparseFields, if_neg hvis, hd₁, hw]
    simp only [bind, Except.bind, hd₂]
  · rw [List.length_append, htake, hlen₂]
    omega
  · rcases Nat.lt_or_ge j (8 * ((off + f.nbits) / 8)) with hlt | hge
    · rw [bitAt_append_left (by omega), bitAt_take hlt, hbits₁ j (by omega)]
    · obtain ⟨k, rfl⟩ := Nat.exists_eq_add_of_le hge
      have happ := @bitAt_append_right (dst₁.take ((off + f.nbits) / 8)) dst₂ k
      rw [htake] at happ
      rw [happ, hbits₂ k (by omega), bitAt_drop]
  · have hle : (off + f.nbits) / 8 + ((off + f.nbits) % 8 + n + 7) / 8 =
        (off + (f.nbits + n) + 7) / 8 := by omega
    have hle' : (off + f.nbits + 7) / 8 + ((off + (f.nbits + n) + 7) / 8 - (off + f.nbits + 7) / 8) =
        (off + (f.nbits + n) + 7) / 8 := by omega
    rw [← hle, ← List.drop_drop, List.drop_left' htake, hrest₂, List.drop_drop, hle, ← hle',
      ← List.drop_drop, hrest₁, List.drop_drop]

/-- **The fields of a header are written back as they were.** -/
theorem extractFields_writesBack (h : extractFields vlFn data off done todo = .ok fields)
    (hfix : ∀ f ∈ todo, ¬f.isVL) (hoff : off < 8) :
    ∃ todo', fields = done ++ todo' ∧ WritesBack data off (wireWidths todo).sum todo' := by
  induction todo generalizing data off done with
  | nil =>
    cases h
    exact ⟨[], (List.append_nil _).symm, fun dst _ hsame => ⟨dst, rfl, rfl, by simpa [wireWidths]
      using hsame, rfl⟩⟩
  | cons f todo ih =>
    rw [extractFields] at h
    split at h
    · next hhid =>
      cases h
      refine ⟨f :: todo, rfl, fun dst _ hsame => ⟨dst, ?_, rfl, ?_, rfl⟩⟩
      · rw [deparseFields, if_pos hhid]
      · simpa [wireWidths, hhid] using hsame
    next hvis =>
    obtain ⟨f', hf', h⟩ := bind_eq_ok h
    rw [extractField, if_neg (hfix f (by simp))] at hf'
    have hsize := Field.extract_size hf'
    have hw : f'.nbits = f.nbits := congrArg Prod.fst hsize
    have hhid : f'.hidden = f.hidden := congrArg (fun s => s.2.1) hsize
    rw [hw] at h
    obtain ⟨todo', rfl, hback⟩ := ih h (fun g hg => hfix g (by simp [hg])) (by omega)
    refine ⟨f' :: todo', by simp, ?_⟩
    have hwire : wireWidths (f :: todo) = f.nbits :: wireWidths todo := by simp [wireWidths, hvis]
    rw [hwire, List.sum_cons]
    exact writesBack_cons hf' hoff (by rwa [hhid]) hback

/-! ## Headers -/

variable {h h' : Header} {img : ByteContainer}

/-- The bytes a header is deparsed to, whatever was there before. -/
def Image (h : Header) (img : ByteContainer) : Prop :=
  img.length = h.nbytesPacket ∧ ∀ dst : ByteContainer, h.nbytesPacket ≤ dst.length →
    h.deparse dst = .ok (img ++ dst.drop h.nbytesPacket)

/-- **A header is deparsed to the bytes it was extracted from.** -/
theorem extractFixed_image (hs : h.Sized) (hfix : ¬h.isVLHeader)
    (hx : h.extractFixed data = .ok h') (hlen : h.nbytesPacket ≤ data.length) :
    h'.Image (data.take h.nbytesPacket) := by
  obtain ⟨fields, hfields, hx⟩ := bind_eq_ok hx
  cases hx
  have hwidth : (wireWidths h.fields).sum = 8 * h.nbytesPacket := hs.bytes
  obtain ⟨todo', htodo, hback⟩ := extractFields_writesBack hfields
    (fun f hf hv => hfix (List.any_eq_true.mpr ⟨f, hf, hv⟩)) (by omega)
  obtain rfl : fields = todo' := htodo
  refine ⟨by simpa using hlen, fun dst hdst => ?_⟩
  rw [hwidth] at hback
  have hdst' : h.nbytesPacket ≤ dst.length := hdst
  obtain ⟨dst', hd, hlen', hbits, hrest⟩ := hback dst (by omega) (by omega)
  rw [(by omega : (0 + 8 * h.nbytesPacket + 7) / 8 = h.nbytesPacket)] at hrest
  have htake : dst'.take h.nbytesPacket = data.take h.nbytesPacket := by
    refine bitAt_ext (by rw [List.length_take, List.length_take]; omega) fun j hj => ?_
    rw [List.length_take] at hj
    rw [bitAt_take (by omega), bitAt_take (by omega), hbits j (by omega)]
  show deparseFields dst 0 fields = .ok (data.take h.nbytesPacket ++ dst.drop h.nbytesPacket)
  rw [hd, ← htake, ← hrest, List.take_append_drop]

/-- Only the fields up to the first hidden one are written. -/
theorem deparseFields_takeWhile (fields : List Field) (dst : ByteContainer) (off : ℕ) :
    deparseFields dst off fields = deparseFields dst off (fields.takeWhile fun f => !f.hidden) := by
  induction fields generalizing dst off with
  | nil => rfl
  | cons f fields ih =>
    rw [deparseFields]
    split
    · next hhid => simp [hhid, deparseFields]
    · next hvis =>
      rw [List.takeWhile_cons_of_pos (by simpa using hvis), deparseFields, if_neg hvis]
      congr 1
      funext dst'
      rw [ih]

/-- A change to an element that is not taken. -/
theorem takeWhile_modify {α : Type*} {p : α → Bool} {f : α → α} {l : List α} {i : ℕ}
    (h : ∀ a, l[i]? = some a → p a = false ∧ p (f a) = false) :
    (l.modify i f).takeWhile p = l.takeWhile p := by
  induction l generalizing i with
  | nil => simp
  | cons a l ih =>
    cases i with
    | zero =>
      have := h a (by simp)
      simp [this.1, this.2]
    | succ i =>
      rw [List.modify_succ_cons, List.takeWhile_cons, List.takeWhile_cons]
      split
      · rw [ih fun b hb => h b (by simpa using hb)]
      · rfl

/-- `$valid$` is not on the wire. -/
theorem setValid_packetFields (hs : h.Sized) (b : Bool) :
    (h.setValid b).packetFields = h.packetFields := by
  refine takeWhile_modify fun f hf => ?_
  have hhid := hs.validHidden f hf
  exact ⟨by simp [hhid], by simpa [Field.put, Field.exported] using hhid⟩

theorem setValid_image (hs : h.Sized) (b : Bool) (himg : h.Image img) :
    (h.setValid b).Image img := by
  refine ⟨himg.1, fun dst hdst => ?_⟩
  rw [deparse, deparseFields_takeWhile]
  show deparseFields dst 0 (h.setValid b).packetFields = _
  rw [setValid_packetFields hs, packetFields, ← deparseFields_takeWhile]
  exact himg.2 dst hdst

end Header

end P4Bricks
