import Mathlib.Data.List.TakeWhile
import P4Bricks.Parser.Model
import P4Bricks.Phv.Layout
/-!
# What an extraction reads

The bytes of the packet that copying a field, and then a header, reads, and
what it leaves of the sizes of the headers.
-/

namespace P4Bricks

namespace Parsing

/-- Nothing outside of the packet is read. -/
abbrev Inside {α : Type*} (x : Except Stop α) (Q : α → Prop) : Prop := Avoids (· = .beyond) x Q

theorem required_inside {α : Type*} {o : Option α} {Q : α → Prop} (h : ∀ a, o = some a → Q a) :
    Inside (required o) Q := by
  cases o with
  | none => exact Avoids.error (by simp)
  | some a => exact h a rfl

/-! ## One field

These computations fail only by reading outside, so that when they do not,
they return. -/

variable {bad : Stop → Prop}

theorem readByte_returns {data : ByteContainer} {i : ℕ} (h : i < data.length) :
    Avoids bad (readByte data i) fun _ => True := by
  rw [readByte, List.getElem?_eq_getElem h]
  exact trivial

theorem readBytes_avoids {f : ℕ → Except Stop UInt8} {n : ℕ}
    (h : ∀ i < n, Avoids bad (f i) fun _ => True) : Avoids bad (readBytes f n) fun _ => True := by
  induction n with
  | zero => exact trivial
  | succ n ih =>
    refine (ih fun i hi => h i (by omega)).bind fun _ _ _ => ?_
    exact (h n (by omega)).bind fun _ _ _ => trivial

/-- Two neighbouring bytes are merged into one. -/
theorem merge_returns {data : ByteContainer} {i : ℕ} {f : UInt8 → UInt8 → UInt8}
    (h : i + 1 < data.length) :
    Avoids bad (do .ok (f (← readByte data i) (← readByte data (i + 1)))) fun _ => True :=
  (readByte_returns (by omega)).bind fun _ _ _ => (readByte_returns h).bind fun _ _ _ => trivial

/-- **`generic_extract` reads the bytes its bits are in**, and no other, when
there is a bit to read. -/
theorem genericExtract_returns {data : ByteContainer} {off w : ℕ} (hempty : w = 0 → off = 0)
    (hlen : off + w ≤ 8 * data.length) :
    Avoids bad (genericExtract data off w) fun _ => True := by
  unfold genericExtract
  refine Avoids.ite (fun h => readBytes_avoids fun i hi => readByte_returns (by omega)) fun h => ?_
  refine Avoids.ite (fun h₀ => ?_) fun h₀ => Avoids.ite (fun h₁ => ?_) fun h₁ => ?_
  · exact (readBytes_avoids fun i hi => readByte_returns (by omega)).bind fun _ _ _ => trivial
  · -- The field straddles one byte more than it fills.
    have hw : 0 < w := by omega
    refine (readBytes_avoids fun i hi => merge_returns (by omega)).bind fun _ _ _ => ?_
    have hmore : decide (off + w > 8 * ((w + 7) / 8)) = true := by
      rw [decide_eq_true_eq]
      omega
    rw [readLast, if_pos hmore]
    refine (merge_returns (by omega)).bind fun _ _ _ => Avoids.ite (fun h => ?_) fun _ => trivial
    omega
  · refine (readByte_returns (by omega)).bind fun _ _ _ => ?_
    exact (readBytes_avoids fun i hi => merge_returns (by omega)).bind fun _ _ _ => trivial

end Parsing

/-! ## The sizes of headers

All that the length checks read of a header is its size and the width and
kind of each field, and only an extraction or an assignment of a variable
length changes those. -/

/-- The width of a field, and its kind. -/
def Field.size (f : Field) : ℕ × Bool × Bool := (f.nbits, f.hidden, f.isVL)

def Header.sizes (h : Header) : ℕ × List (ℕ × Bool × Bool) :=
  (h.nbytesPacket, h.fields.map Field.size)

def Phv.sizes (phv : Phv) : List (ℕ × List (ℕ × Bool × Bool)) := phv.headers.map Header.sizes

namespace Field

@[simp] theorem put_size (f : Field) (v : ℤ) : (f.put v).size = f.size := rfl

theorem set_size {f g : Field} {v : ℤ} (h : f.set v = some g) : g.size = f.size := by
  rw [eq_put_of_set h, put_size]

/-- A field that was assigned has the width of the other one. -/
theorem assignVL_size {f src g : Field} (h : f.assignVL src = some g) :
    g.size = (src.nbits, f.hidden, true) := set_size h

end Field

namespace Header

open Parsing

theorem nbits_eq (h : Header) :
    h.nbits = (((h.sizes.2.takeWhile fun s => !s.2.1)).map Prod.fst).sum := by
  rw [nbits, packetFields, sizes, List.takeWhile_map, List.map_map]
  rfl

/-- The kinds of the fields stay, and so does all but the size. -/
theorem Sized.of_kinds {h h' : Header} (hs : h.Sized)
    (hk : (h'.fields.map fun f => (f.hidden, f.isVL)) = h.fields.map fun f => (f.hidden, f.isVL))
    (hb : h'.nbits = 8 * h'.nbytesPacket) : h'.Sized := by
  have hpair : ∀ R : Bool × Bool → Bool × Bool → Prop,
      (h.fields.Pairwise fun f g => R (f.hidden, f.isVL) (g.hidden, g.isVL)) →
      h'.fields.Pairwise fun f g => R (f.hidden, f.isVL) (g.hidden, g.isVL) := by
    intro R hp
    rw [← List.pairwise_map (f := fun f : Field => (f.hidden, f.isVL))] at hp ⊢
    rwa [hk]
  have hlen : h'.fields.length = h.fields.length := by
    simpa using congrArg List.length hk
  refine ⟨hb, hpair (fun s t => s.2 → ¬t.2) hs.oneVL, hpair (fun s t => s.1 → t.1)
    hs.hiddenLast, ?_, fun f hf => ?_⟩
  rotate_left
  · have hat := congrArg (·[h.validOffset]?) hk
    rw [validOffset, hlen] at hf
    simp only [List.getElem?_map] at hat
    rw [validOffset, hf, Option.map_some, eq_comm, Option.map_eq_some_iff] at hat
    obtain ⟨g, hg, hgf⟩ := hat
    have hhid : g.hidden = f.hidden := (Prod.ext_iff.mp hgf).1
    rw [← hhid]
    exact hs.validHidden g hg
  intro f hf
  obtain ⟨g, hg, hgf⟩ := List.mem_map.mp
    (hk ▸ List.mem_map_of_mem hf : (f.hidden, f.isVL) ∈ h.fields.map fun f => (f.hidden, f.isVL))
  have hkind : g.hidden = f.hidden ∧ g.isVL = f.isVL := by simpa using hgf
  rw [← hkind.1, ← hkind.2]
  exact hs.hiddenFixed g hg

/-- A header that is measured again has its size. -/
theorem Sized.recompute {h h' : Header} (hs : h.Sized)
    (hk : (h'.fields.map fun f => (f.hidden, f.isVL)) = h.fields.map fun f => (f.hidden, f.isVL)) :
    Inside h'.recomputeNbytesPacket fun h'' => h''.Sized ∧ 8 * h''.nbytesPacket = h'.nbits := by
  refine Avoids.ite (fun hmod => ?_) fun _ => Avoids.error (by simp)
  have hbytes : 8 * (h'.nbits / 8) = h'.nbits := by omega
  exact ⟨hs.of_kinds hk hbytes.symm, hbytes⟩

theorem Sized.congr {h h' : Header} (hs : h.Sized) (heq : h'.sizes = h.sizes) : h'.Sized := by
  have hf : h'.fields.map Field.size = h.fields.map Field.size := congrArg Prod.snd heq
  have hb : h'.nbytesPacket = h.nbytesPacket := congrArg Prod.fst heq
  refine hs.of_kinds ?_ (by rw [nbits_eq, heq, ← nbits_eq, hs.bytes, hb])
  have hsnd := congrArg (List.map Prod.snd) hf
  rwa [List.map_map, List.map_map] at hsnd

@[simp] theorem setValid_sizes (h : Header) (b : Bool) : (h.setValid b).sizes = h.sizes :=
  Prod.ext rfl (map_modify_of_eq fun f _ => f.put_size _)

end Header

/-! ## The loop over the fields -/

/-- No field without bits starts inside a byte, when the first one starts
`off` bits after the start of one. -/
def EmptyAligned : ℕ → List ℕ → Prop
  | _, [] => True
  | off, w :: ws => (w = 0 → off % 8 = 0) ∧ EmptyAligned (off + w) ws

theorem emptyAligned_append {a b : List ℕ} {off : ℕ} :
    EmptyAligned off (a ++ b) ↔ EmptyAligned off a ∧ EmptyAligned (off + a.sum) b := by
  induction a generalizing off with
  | nil => simp [EmptyAligned]
  | cons w a ih =>
    rw [List.cons_append, EmptyAligned, EmptyAligned, ih, List.sum_cons, and_assoc, Nat.add_assoc]

/-- Only the place in the byte counts. -/
theorem emptyAligned_congr {ws : List ℕ} {off off' : ℕ} (hmod : off % 8 = off' % 8)
    (h : EmptyAligned off ws) : EmptyAligned off' ws := by
  induction ws generalizing off off' with
  | nil => trivial
  | cons w ws ih => exact ⟨fun hw => hmod ▸ h.1 hw, ih (by omega) h.2⟩

namespace Field

open Parsing

theorem extract_size {f f' : Field} {data : ByteContainer} {off : ℕ}
    (h : f.extract data off = .ok f') : f'.size = f.size := by
  unfold extract at h
  cases hx : genericExtract data off f.nbits with
  | error e => simp [hx, bind, Except.bind] at h
  | ok bytes =>
    simp only [hx, bind, Except.bind, Except.ok.injEq] at h
    subst h
    split <;> rfl

theorem extract_returns {bad : Stop → Prop} {f : Field} {data : ByteContainer} {off : ℕ}
    (hempty : f.nbits = 0 → off = 0) (hlen : off + f.nbits ≤ 8 * data.length) :
    Avoids bad (f.extract data off) fun _ => True :=
  (genericExtract_returns hempty hlen).bind fun _ _ _ => trivial

theorem extractVL_inside {f : Field} {data : ByteContainer} {off : ℕ} {n : ℤ}
    (hempty : n.toNat = 0 → off = 0) (hlen : off + n.toNat ≤ 8 * data.length) :
    Inside (f.extractVL data off n) fun f' => f'.size = (n.toNat, f.hidden, true) := by
  refine Avoids.ite (fun _ => Avoids.error (by simp)) fun _ => ?_
  refine Avoids.ite (fun _ => Avoids.error (by simp)) fun _ => ?_
  refine (extract_returns hempty hlen).of_eq.mono fun f' h => ?_
  rw [extract_size h.1]
  rfl

end Field

namespace Header

open Parsing

/-- The widths of the fields up to the first hidden one. -/
def wireWidths (fields : List Field) : List ℕ :=
  (fields.takeWhile fun f => !f.hidden).map Field.nbits

variable {vlFn : List Field → Except Stop ℤ} {data : ByteContainer} {off : ℕ}
variable {done todo : List Field} {bad : Stop → Prop}

/-- **Fields of fixed width are copied from the bytes they fill.** -/
theorem extractFields_fixed_returns (hfix : ∀ f ∈ todo, ¬f.isVL) (hoff : off < 8)
    (halign : EmptyAligned off (wireWidths todo))
    (hlen : off + (wireWidths todo).sum ≤ 8 * data.length) :
    Avoids bad (extractFields vlFn data off done todo) fun fields =>
      fields.map Field.size = (done ++ todo).map Field.size := by
  induction todo generalizing data off done with
  | nil => exact congrArg _ (List.append_nil done).symm
  | cons f todo ih =>
    rw [extractFields]
    refine Avoids.ite (fun _ => rfl) fun hvis => ?_
    rw [extractField, if_neg (hfix f (by simp))]
    have hw : wireWidths (f :: todo) = f.nbits :: wireWidths todo := by
      simp [wireWidths, hvis]
    rw [hw] at halign hlen
    rw [List.sum_cons] at hlen
    refine (Field.extract_returns (fun h0 => ?_) (by omega)).bind fun f' hf' _ => ?_
    · have := halign.1 h0
      omega
    have hsize := Field.extract_size hf'
    have hbits : f'.nbits = f.nbits := congrArg Prod.fst hsize
    rw [hbits]
    refine (ih (fun g hg => hfix g (by simp [hg])) (by omega)
      (emptyAligned_congr (by omega) halign.2) ?_).mono fun fields h => ?_
    · rw [List.length_drop]
      omega
    · rw [h]
      simp [hsize]

/-- The loop, cut before a field. -/
theorem extractFields_append {pre rest : List Field} (hfix : ∀ f ∈ pre, ¬f.isVL)
    (hvis : ∀ f ∈ pre, ¬f.hidden) (hoff : off < 8) :
    extractFields vlFn data off done (pre ++ rest) =
      (extractFields vlFn data off done pre >>= fun done' =>
        extractFields vlFn (data.drop ((off + (pre.map Field.nbits).sum) / 8))
          ((off + (pre.map Field.nbits).sum) % 8) done' rest) := by
  induction pre generalizing data off done with
  | nil =>
    have h0 : off / 8 = 0 := by omega
    have hm : off % 8 = off := by omega
    simp [extractFields, bind, Except.bind, h0, hm]
  | cons f pre ih =>
    have hf : ∀ fields, extractField vlFn f data off fields = f.extract data off := by
      intro fields
      rw [extractField, if_neg (hfix f (by simp))]
    rw [List.cons_append, extractFields, extractFields, if_neg (hvis f (by simp)),
      if_neg (hvis f (by simp)), hf, hf]
    cases hx : f.extract data off with
    | error e => rfl
    | ok f' =>
      have hbits : f'.nbits = f.nbits := congrArg Prod.fst (Field.extract_size hx)
      have hdrop : (off + f.nbits) / 8 + ((off + f.nbits) % 8 + (pre.map Field.nbits).sum) / 8
          = (off + (f.nbits + (pre.map Field.nbits).sum)) / 8 := by omega
      have hmod : ((off + f.nbits) % 8 + (pre.map Field.nbits).sum) % 8
          = (off + (f.nbits + (pre.map Field.nbits).sum)) % 8 := by omega
      have hih := @ih (data.drop ((off + f.nbits) / 8)) ((off + f.nbits) % 8) (done ++ [f'])
        (fun g hg => hfix g (by simp [hg])) (fun g hg => hvis g (by simp [hg])) (by omega)
      rw [List.drop_drop, hdrop, hmod] at hih
      rw [List.map_cons, List.sum_cons]
      simp only [bind, Except.bind, hbits]
      exact hih

/-- **A header with a variable field is copied from the bytes its fields fill
once the length is known.** -/
theorem extractFields_vl_inside {pre post : List Field} {f : Field}
    (hfix : ∀ g ∈ pre, ¬g.isVL) (hvis : ∀ g ∈ pre, ¬g.hidden) (hfix' : ∀ g ∈ post, ¬g.isVL)
    (hvl : f.isVL) (hvis' : ¬f.hidden) (hvlFn : ∀ fields, Inside (vlFn fields) fun _ => True)
    (halign : EmptyAligned 0 (pre.map Field.nbits))
    (hlen : (pre.map Field.nbits).sum ≤ 8 * data.length)
    (hn : ∀ done n, extractFields vlFn data 0 [] pre = .ok done →
      vlFn (done ++ f :: post) = .ok n →
      EmptyAligned 0 (pre.map Field.nbits ++ n.toNat :: wireWidths post) ∧
      (pre.map Field.nbits ++ n.toNat :: wireWidths post).sum ≤ 8 * data.length) :
    Inside (extractFields vlFn data 0 [] (pre ++ f :: post)) fun fields =>
      ∃ done n, extractFields vlFn data 0 [] pre = .ok done ∧ vlFn (done ++ f :: post) = .ok n ∧
        fields.map Field.size =
          pre.map Field.size ++ (n.toNat, false, true) :: post.map Field.size := by
  have hpre : wireWidths pre = pre.map Field.nbits := by
    rw [wireWidths, List.takeWhile_eq_self_iff.mpr]
    intro g hg
    simpa using hvis g hg
  -- The fixed fields before it, then the field itself, then the fixed ones after it.
  rw [extractFields_append hfix hvis (by omega)]
  refine (extractFields_fixed_returns hfix (by omega) (hpre ▸ halign) (by rw [hpre]; omega)).bind
    fun done hdone hsizes => ?_
  rw [extractFields, if_neg hvis', extractField, if_pos hvl]
  refine Avoids.bind (Q := fun f' => ∃ n, vlFn (done ++ f :: post) = .ok n ∧
    f'.size = (n.toNat, f.hidden, true)) ?_ fun f' _ hf' => ?_
  · -- The length is computed from the fields already extracted; where that fails, nothing is
    -- read.
    cases hv : vlFn (done ++ f :: post) with
    | error e =>
      have := hvlFn (done ++ f :: post)
      rw [hv] at this
      exact this
    | ok n =>
      obtain ⟨ha, hl⟩ := hn done n hdone hv
      rw [emptyAligned_append] at ha
      rw [List.sum_append, List.sum_cons] at hl
      refine (Field.extractVL_inside (fun h0 => ?_) ?_).mono fun f' h => ⟨n, rfl, h⟩
      · have := ha.2.1 h0
        omega
      · rw [List.length_drop]
        omega
  · obtain ⟨n, hv, hsize⟩ := hf'
    have hbits : f'.nbits = n.toNat := congrArg Prod.fst hsize
    obtain ⟨ha, hl⟩ := hn done n hdone hv
    rw [emptyAligned_append] at ha
    rw [List.sum_append, List.sum_cons] at hl
    rw [hbits]
    refine (extractFields_fixed_returns hfix' (by omega)
      (emptyAligned_congr (by omega) ha.2.2) ?_).mono fun fields h => ⟨done, n, hdone, hv, ?_⟩
    · rw [List.length_drop, List.length_drop]
      omega
    · rw [h]
      simp [hsizes, hsize, hvis']

/-! ## Headers -/

variable {h : Header}

/-- The fields before the variable one. -/
def fixedPrefix (h : Header) : List Field := h.fields.takeWhile fun f => !f.isVL

/-- The widths on the wire when the variable field has `n` bits. -/
def vlWidths (h : Header) (n : ℕ) : List ℕ :=
  h.packetFields.map fun f => if f.isVL then n else f.nbits

/-- The length an extraction computes for the variable field. -/
def lengthOf (vlFn : List Field → Except Stop ℤ) (h : Header) (data : ByteContainer) :
    Except Stop ℤ := do
  let done ← extractFields vlFn data 0 [] h.fixedPrefix
  vlFn (done ++ h.fields.dropWhile fun f => !f.isVL)

/-- A length that is given is the one used. -/
theorem lengthOf_const {n m : ℤ} (hm : h.lengthOf (fun _ => .ok n) data = .ok m) : m = n := by
  unfold lengthOf at hm
  cases hx : extractFields (fun _ => .ok n) data 0 [] h.fixedPrefix with
  | error e => simp [hx, bind, Except.bind] at hm
  | ok done =>
    simp only [hx, bind, Except.bind, Except.ok.injEq] at hm
    exact hm.symm

theorem extractFixed_returns (hs : h.Sized) (hvl : ¬h.isVLHeader)
    (halign : EmptyAligned 0 (wireWidths h.fields)) (hlen : h.nbytesPacket ≤ data.length) :
    Avoids bad (h.extractFixed data) fun h' => h'.sizes = h.sizes := by
  have hbytes : (wireWidths h.fields).sum = 8 * h.nbytesPacket := hs.bytes
  have hfix : ∀ f ∈ h.fields, ¬f.isVL := by
    intro f hf hv
    exact hvl (List.any_eq_true.mpr ⟨f, hf, hv⟩)
  refine (extractFields_fixed_returns hfix (by omega) halign (by omega)).bind fun fields _ hf => ?_
  exact Prod.ext rfl hf

/-- A header with a variable field, cut at the field. -/
theorem Sized.split (hs : h.Sized) (hvl : h.isVLHeader) :
    ∃ f post, h.fields = h.fixedPrefix ++ f :: post ∧
      (h.fields.dropWhile fun f => !f.isVL) = f :: post ∧ f.isVL ∧ ¬f.hidden ∧
      (∀ g ∈ h.fixedPrefix, ¬g.isVL ∧ ¬g.hidden) ∧ ∀ g ∈ post, ¬g.isVL := by
  have hcut : h.fields = h.fixedPrefix ++ h.fields.dropWhile fun f => !f.isVL :=
    List.takeWhile_append_dropWhile.symm
  obtain ⟨v, hv, hvv⟩ := List.any_eq_true.mp hvl
  cases hd : h.fields.dropWhile fun f => !f.isVL with
  | nil =>
    have hall := List.dropWhile_eq_nil_iff.mp hd v hv
    simp [hvv] at hall
  | cons f post =>
    rw [hd] at hcut
    have hf : f.isVL = true := by
      have hhead := List.head_dropWhile_not (fun f => !f.isVL) (l := h.fields) (by simp [hd])
      simpa [hd] using hhead
    have hmem : f ∈ h.fields := by
      rw [hcut]
      simp
    have hvis : ¬f.hidden := fun hh => hs.hiddenFixed f hmem hh hf
    have hone := hs.oneVL
    have hlast := hs.hiddenLast
    rw [hcut, List.pairwise_append] at hone hlast
    refine ⟨f, post, hcut, rfl, hf, hvis, fun g hg => ⟨?_, ?_⟩, ?_⟩
    · have := List.mem_takeWhile_imp hg
      simpa using this
    · intro hh
      exact hvis (hlast.2.2 g hg f (by simp) hh)
    · exact fun g hg => (List.pairwise_cons.mp hone.2.1).1 g hg hf

theorem packetFields_eq {f : Field} {post : List Field}
    (hcut : h.fields = h.fixedPrefix ++ f :: post) (hvis : ¬f.hidden)
    (hpre : ∀ g ∈ h.fixedPrefix, ¬g.isVL ∧ ¬g.hidden) :
    h.packetFields = h.fixedPrefix ++ f :: post.takeWhile fun f => !f.hidden := by
  rw [packetFields, hcut, List.takeWhile_append_of_pos (by simpa using fun g hg => (hpre g hg).2),
    List.takeWhile_cons_of_pos (by simpa using hvis)]

theorem vlWidths_eq {f : Field} {post : List Field} (n : ℕ)
    (hcut : h.fields = h.fixedPrefix ++ f :: post) (hf : f.isVL) (hvis : ¬f.hidden)
    (hpre : ∀ g ∈ h.fixedPrefix, ¬g.isVL ∧ ¬g.hidden) (hpost : ∀ g ∈ post, ¬g.isVL) :
    h.vlWidths n = h.fixedPrefix.map Field.nbits ++ n :: wireWidths post := by
  rw [vlWidths, packetFields_eq hcut hvis hpre, List.map_append, List.map_cons, if_pos hf,
    wireWidths]
  congr 1
  · exact List.map_congr_left fun g hg => if_neg (hpre g hg).1
  · congr 1
    exact List.map_congr_left fun g hg => if_neg (hpost g ((List.takeWhile_sublist _).subset hg))

/-- The size a header has now counts all its fields of fixed width. -/
theorem Sized.vlWidths_sum_le (hs : h.Sized) (hvl : h.isVLHeader) (n : ℕ) :
    (h.fixedPrefix.map Field.nbits).sum ≤ 8 * h.nbytesPacket ∧
      (h.vlWidths n).sum ≤ 8 * h.nbytesPacket + n := by
  obtain ⟨f, post, hcut, -, hf, hvis, hpre, hpost⟩ := hs.split hvl
  have hsum : h.nbits = (h.fixedPrefix.map Field.nbits).sum
      + (f.nbits + (wireWidths post).sum) := by
    rw [nbits, packetFields_eq hcut hvis hpre, List.map_append, List.sum_append, List.map_cons,
      List.sum_cons, wireWidths]
  have hbytes := hs.bytes
  rw [vlWidths_eq n hcut hf hvis hpre hpost, List.sum_append, List.sum_cons]
  omega

/-- The header when its variable field has got a length. -/
theorem sizes_of_length {f : Field} {post fields : List Field} {n : ℕ}
    (hcut : h.fields = h.fixedPrefix ++ f :: post) (hf : f.isVL) (hvis : ¬f.hidden)
    (hpre : ∀ g ∈ h.fixedPrefix, ¬g.isVL ∧ ¬g.hidden) (hpost : ∀ g ∈ post, ¬g.isVL)
    (hsizes : fields.map Field.size =
      h.fixedPrefix.map Field.size ++ (n, false, true) :: post.map Field.size) :
    ({ h with fields := fields } : Header).nbits = (h.vlWidths n).sum ∧
      (fields.map fun f => (f.hidden, f.isVL)) = h.fields.map fun f => (f.hidden, f.isVL) := by
  constructor
  · have hvispre : ∀ s ∈ h.fixedPrefix.map Field.size, (!s.2.1) = true := by
      simpa [Field.size] using fun g hg => (hpre g hg).2
    rw [nbits_eq, sizes, hsizes, vlWidths_eq n hcut hf hvis hpre hpost,
      List.takeWhile_append_of_pos hvispre, List.takeWhile_cons_of_pos rfl, List.takeWhile_map,
      List.map_append, List.map_cons, List.map_map, List.map_map]
    rfl
  · have hsnd := congrArg (List.map Prod.snd) hsizes
    rw [List.map_append, List.map_cons, List.map_map, List.map_map, List.map_map] at hsnd
    rw [hcut, List.map_append, List.map_cons, hf, eq_false_of_ne_true hvis]
    exact hsnd

/-- **The spec of `extract_VL_common`.** -/
theorem extractVLCommon_inside (hs : h.Sized) (hvl : h.isVLHeader)
    (hvlFn : ∀ fields, Inside (vlFn fields) fun _ => True)
    (halign : EmptyAligned 0 (h.fixedPrefix.map Field.nbits))
    (hlen : (h.fixedPrefix.map Field.nbits).sum ≤ 8 * data.length)
    (hn : ∀ n, h.lengthOf vlFn data = .ok n →
      EmptyAligned 0 (h.vlWidths n.toNat) ∧ (h.vlWidths n.toNat).sum ≤ 8 * data.length) :
    Inside (h.extractVLCommon vlFn data) fun h' => h'.Sized ∧
      ∃ n, h.lengthOf vlFn data = .ok n ∧ 8 * h'.nbytesPacket = (h.vlWidths n.toNat).sum := by
  obtain ⟨f, post, hcut, hdrop, hf, hvis, hpre, hpost⟩ := hs.split hvl
  have hw := fun n => vlWidths_eq n hcut hf hvis hpre hpost
  have hlength : ∀ {done n}, extractFields vlFn data 0 [] h.fixedPrefix = .ok done →
      vlFn (done ++ f :: post) = .ok n → h.lengthOf vlFn data = .ok n := by
    intro done n hdone hv
    rw [lengthOf, hdone, hdrop]
    exact hv
  unfold extractVLCommon
  rw [hcut]
  refine (extractFields_vl_inside (fun g hg => (hpre g hg).1) (fun g hg => (hpre g hg).2) hpost
    hf hvis hvlFn halign hlen fun done n hdone hv => hw n.toNat ▸ hn n (hlength hdone hv)).bind
    fun fields _ hfields => ?_
  obtain ⟨done, n, hdone, hv, hsizes⟩ := hfields
  obtain ⟨hnbits, hkinds⟩ := sizes_of_length hcut hf hvis hpre hpost hsizes
  exact (hs.recompute hkinds).mono fun h' h'' => ⟨h''.1, n, hlength hdone hv, h''.2.trans hnbits⟩

end Header

namespace Phv

theorem Sized.congr {phv phv' : Phv} (hs : phv.Sized) (heq : phv'.sizes = phv.sizes) :
    phv'.Sized := by
  intro h hh
  obtain ⟨g, hg, hgh⟩ := List.mem_map.mp (heq ▸ List.mem_map_of_mem hh : h.sizes ∈ phv.sizes)
  exact (hs g hg).congr hgh.symm

theorem modifyHeader_sizes {phv : Phv} {i : ℕ} {f : Header → Header}
    (h : ∀ hdr, phv.headers[i]? = some hdr → (f hdr).sizes = hdr.sizes) :
    (phv.modifyHeader i f).sizes = phv.sizes :=
  map_modify_of_eq h

@[simp] theorem markInvalid_sizes (phv : Phv) (h : ℕ) : (phv.markInvalid h).sizes = phv.sizes :=
  markInvalid_keeps (P := fun p => p.sizes = phv.sizes)
    (fun _ _ b hP => (modifyHeader_sizes fun hdr _ => hdr.setValid_sizes b).trans hP)
    (fun _ _ _ _ hP => hP) rfl

@[simp] theorem markValid_sizes (phv : Phv) (h : ℕ) : (phv.markValid h).sizes = phv.sizes :=
  markValid_keeps (P := fun p => p.sizes = phv.sizes)
    (fun _ _ b hP => (modifyHeader_sizes fun hdr _ => hdr.setValid_sizes b).trans hP)
    (fun _ _ _ _ hP => hP) rfl

/-- A header that is replaced by one with a size keeps the vector sized. -/
theorem Sized.put {phv : Phv} (hs : phv.Sized) {h : ℕ} {hdr : Header} (hh : hdr.Sized) :
    (phv.modifyHeader h fun _ => hdr).Sized := by
  intro g hg
  obtain ⟨j, hj⟩ := List.mem_iff_getElem?.mp hg
  rw [modifyHeader, List.getElem?_modify] at hj
  obtain ⟨g', hg', rfl⟩ := Option.map_eq_some_iff.mp hj
  split
  · exact hh
  · exact hs g' (List.mem_of_getElem? hg')

end Phv

namespace Parsing

@[simp] theorem pushBackHeader_sizes (phv : Phv) (stack : ℕ) :
    (pushBackHeader phv stack).sizes = phv.sizes := by
  unfold pushBackHeader
  split
  · rfl
  · exact phv.markValid_sizes _

@[simp] theorem pushBackUnion_sizes (phv : Phv) (stack : ℕ) :
    (pushBackUnion phv stack).sizes = phv.sizes := rfl

theorem putField_sizes {phv : Phv} {dst : ℕ × ℕ} {f f' : Field}
    (hf : phv.getField dst.1 dst.2 = some f) (hsize : f'.size = f.size) :
    (putField phv dst f').sizes = phv.sizes := by
  refine Phv.modifyHeader_sizes fun hdr hhdr => Prod.ext rfl ?_
  refine map_modify_of_eq fun g hg => ?_
  rw [Phv.getField, hhdr, Option.bind_some, Header.getField, hg] at hf
  cases hf
  exact hsize

/-- An assignment to a variable field keeps the vector sized: the header is
measured again. -/
theorem assignVL_inside {phv : Phv} (hs : phv.Sized) {dst : ℕ × ℕ} {f : Field} (src : Field)
    (hf : phv.getField dst.1 dst.2 = some f) (hvl : f.isVL) :
    Inside (assignVL phv dst f src) fun phv' => phv'.Sized := by
  obtain ⟨hdr, hhdr, hfield⟩ := Option.bind_eq_some_iff.mp hf
  have hsized := hs hdr (List.mem_of_getElem? hhdr)
  dsimp only [assignVL]
  refine (required_inside (Q := fun g => f.assignVL src = some g) fun g hg => hg).bind fun g _ hg => ?_
  have hput : (putField phv dst g).headers[dst.1]? =
      some { hdr with fields := hdr.fields.modify dst.2 fun _ => g } := by
    rw [putField, Phv.modifyHeader, List.getElem?_modify, hhdr]
    simp
  rw [hput]
  refine Avoids.bind (x := Header.recomputeNbytesPacket _) (hsized.recompute ?_)
    fun hdr' _ hs' => ?_
  · refine map_modify_of_eq fun e he => ?_
    rw [Header.getField, he] at hfield
    cases hfield
    have hsize := congrArg Prod.snd (Field.assignVL_size hg)
    exact hsize.trans (by rw [hvl])
  · have htwice : ((putField phv dst g).modifyHeader dst.1 fun _ => hdr') =
        phv.modifyHeader dst.1 fun _ => hdr' := by
      rw [putField, Phv.modifyHeader, Phv.modifyHeader, Phv.modifyHeader, List.modify_modify_eq]
      rfl
    exact htwice ▸ hs.put hs'.1

end Parsing

end P4Bricks
