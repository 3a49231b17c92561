import P4Bricks.Common.Pointwise
import P4Bricks.Parser.Helpers.Padding
/-!
# Value sets over whole runs

What a case on a value set matches, after any run of operations on the set.
The copy of a case holds the images of the values, each changed as the value
is; so a removal is right where it is alone, and a value is laid out right
where it is clean. In a run of such operations the case matches the keys that
are equal to a value of the set, both masked.
-/

namespace P4Bricks

open List

namespace Parsing

/-! ## Values, layouts and masks -/

/-- A value of a set of `n` bits. -/
def Fits (n : ℕ) (v : ByteContainer) : Prop := v.length = (n + 7) / 8 ∧ bytesVal v < 2 ^ n

namespace VSetCase

variable (c : VSetCase)

/-- `v` masked by the mask of the case, when there is one. -/
def cover (v : ByteContainer) : ByteContainer :=
  match c.mask with
  | none => v
  | some mask => List.zipWith (· &&& ·) v mask

/-- A value as a key of the case, masked. -/
def image (v : ByteContainer) : ByteContainer := c.cover (spread c.bitwidths (bytesVal v))

/-- The mask hides this bit of the key. -/
def Hides (j : ℕ) : Prop :=
  match c.mask with
  | none => False
  | some mask => bitAt mask j = false

/-- The key has the bits of the set's values, the mask is long enough for it,
and in a key of several fields none without bits starts inside a byte. -/
structure WellFormed (n : ℕ) : Prop where
  fields : c.bitwidths ≠ []
  bits : c.bitwidths.sum = n
  mask : ∀ mask, c.mask = some mask → c.width ≤ mask.length
  empty : c.bitwidths.length ≠ 1 → EmptyAligned (8 * ((n + 7) / 8) - n) c.bitwidths

/-- Padding `v` adds nothing to it that the mask does not hide. -/
def PadsClean (v : ByteContainer) : Prop := Clean c.Hides (bytesVal v) c.bitwidths

/-- The copy of the case, when these are its values. -/
def holding (set : List ByteContainer) : VSetCommon := ⟨⟨set, c.mask, c.width⟩, true, c.bitwidths⟩

variable {c} {n : ℕ}

theorem cover_length {v : ByteContainer} (hc : c.WellFormed n) (hv : v.length = c.width) :
    (c.cover v).length = c.width := by
  unfold cover
  split
  · exact hv
  · next mask hmask => rw [length_zipWith, hv, Nat.min_eq_left (hc.mask mask hmask)]

/-- Keys that agree where nothing is hidden are the same behind the mask. -/
theorem cover_eq {v v' : ByteContainer} (hc : c.WellFormed n) (hv : v.length = c.width)
    (hv' : v'.length = c.width) (h : ∀ j < 8 * c.width, ¬c.Hides j → bitAt v j = bitAt v' j) :
    c.cover v = c.cover v' := by
  refine bitAt_ext (by rw [cover_length hc hv, cover_length hc hv']) fun j hj => ?_
  rw [cover_length hc hv] at hj
  unfold Hides at h
  unfold cover
  split
  · next hmask => exact h j hj (by rw [hmask]; exact not_false)
  · next mask hmask =>
    rw [hmask] at h
    rw [bitAt_zipWith_and, bitAt_zipWith_and]
    cases hbit : bitAt mask j with
    | false => simp
    | true => rw [h j hj (by simp [hbit])]

/-- **What a copy stores for a clean value.** -/
theorem stored_eq {v : ByteContainer} {set : List ByteContainer} (hc : c.WellFormed n)
    (hv : Fits n v) (hclean : c.PadsClean v) : (c.holding set).stored v = .ok (c.image v) := by
  obtain ⟨hlen, hval⟩ := hv
  have hpad : ∃ bytes, (c.holding set).doPadding v = .ok bytes ∧ bytes.length = c.width ∧
      ∀ j < 8 * c.width, ¬c.Hides j → bitAt bytes j = bitAt (spread c.bitwidths (bytesVal v)) j := by
    have hbits := hc.bits
    unfold VSetCommon.doPadding holding width
    match hw : c.bitwidths with
    | [] => exact absurd hw hc.fields
    | [w] =>
      rw [hw, List.sum_singleton] at hbits
      subst hbits
      exact ⟨v, rfl, by simpa using hlen, fun j _ _ => by rw [spread_singleton hlen hval]⟩
    | w :: w' :: ws =>
      have hsum := hc.bits
      rw [hw] at hsum
      have hempty := hc.empty (by rw [hw]; simp)
      rw [hw] at hempty
      obtain ⟨bytes, hb, hbl, hbits⟩ := padFields_spec (denotes_bytesVal v)
        (by omega : 8 * v.length - n < 8) (by rw [hsum]; omega) (by rwa [hlen])
        (by rw [← hw]; exact hclean)
      refine ⟨bytes, ?_, hbl, by rwa [← hbl]⟩
      rw [if_neg (by simp), if_pos (by rw [hsum, hlen]), hsum]
      exact hb
  obtain ⟨bytes, hb, hbl, hbits⟩ := hpad
  have hspread : (spread c.bitwidths (bytesVal v)).length = c.width := spread_length _ _
  have htransform : (c.holding set).transformInput bytes = .ok (c.cover bytes) := by
    unfold VSetShadow.transformInput cover holding
    split
    · next hm => simp only at hm; rw [hm]
    · next mask hm =>
      simp only at hm
      rw [if_pos (hbl ▸ hc.mask mask hm), hm]
  rw [VSetCommon.stored, hb, ok_bind, htransform, ok_bind, image, ← cover_eq hc hbl hspread hbits]
  exact if_pos (cover_length hc hbl)

/-- **A case asks its copy for the masked key.** -/
theorem isMatch_holding {set : List ByteContainer} {key : ByteContainer} (next : Option ℕ)
    (hc : c.WellFormed n) (hkey : key.length = c.width) :
    (SwitchCase.vset (c.holding set).toVSetShadow next).isMatch key =
      .ok (set.contains (c.cover key)) := by
  rw [SwitchCase.isMatch, VSetShadow.contains]
  unfold cover holding
  split
  · next hm => simp only at hm; rw [if_pos hkey, hm]
  · next mask hm =>
    simp only at hm
    rw [if_pos ⟨hkey ▸ hc.mask mask hm, hkey⟩, hm]

end VSetCase

/-! ## Operations and runs -/

/-- **One operation on a copy** is the operation on the images. -/
theorem apply_of_stored {m : VSetCommon} {f : ByteContainer → ByteContainer}
    {op : SetOp ByteContainer} (hf : ∀ v, op.value = some v → m.stored v = .ok (f v)) :
    ∃ set, m.apply op = .ok { m with set := set } ∧
      {b | b ∈ set} = (op.map f).apply {b | b ∈ m.set} := by
  cases op with
  | add v =>
    refine ⟨m.set.insert (f v), ?_, ?_⟩
    · rw [VSetCommon.apply, hf v rfl, ok_bind]
    · ext b
      exact mem_insert_iff
  | remove v =>
    refine ⟨m.set.filter (· != f v), ?_, ?_⟩
    · rw [VSetCommon.apply, hf v rfl, ok_bind]
    · ext b
      rw [Set.mem_ofPred_eq, mem_filter, bne_iff_ne]
      exact Iff.rfl
  | clear =>
    refine ⟨[], rfl, ?_⟩
    ext b
    simp [SetOp.map, SetOp.apply]

/-- After the operations `ops` every copy holds what it would if they were
done on the images, from the empty set. -/
structure Copies (n : ℕ) (cases : List VSetCase) (ops : List (SetOp ByteContainer))
    (vs : ParseVSet) : Prop where
  base : ∃ set, vs.base = ⟨⟨set, none, (n + 7) / 8⟩, false, []⟩ ∧
    {b | b ∈ set} = SetOp.applyAll ∅ ops
  shadows : Forall₂ (fun c m => ∃ set, m = c.holding set ∧
    {b | b ∈ set} = SetOp.applyAll ∅ (ops.map (SetOp.map c.image))) cases vs.shadows

/-- The value of an operation has the bits of the set, and no case pads it
with something its mask does not hide. -/
def Proper (n : ℕ) (cases : List VSetCase) (op : SetOp ByteContainer) : Prop :=
  ∀ v, op.value = some v → Fits n v ∧ ∀ c ∈ cases, c.PadsClean v

variable {n : ℕ} {cases : List VSetCase} {ops : List (SetOp ByteContainer)} {vs : ParseVSet}

theorem configure_copies (hcases : ∀ c ∈ cases, c.WellFormed n) :
    ∃ vs, ParseVSet.configure n cases = .ok vs ∧ Copies n cases [] vs := by
  have hempty : {b : ByteContainer | b ∈ ([] : List ByteContainer)} = SetOp.applyAll ∅ [] := by
    ext b
    simp [SetOp.applyAll]
  obtain ⟨shadows, hs, hall⟩ := mapM_of_forall₂ (R := Eq) (f := VSetCase.shadow)
    (S := fun c m => ∃ set, m = c.holding set ∧ {b | b ∈ set} = SetOp.applyAll ∅ [])
    (forall₂_same.mpr fun _ _ => rfl : Forall₂ Eq cases cases) (by
      rintro c hc _ rfl
      exact ⟨c.holding [], if_neg (hcases c hc).fields, [], rfl, hempty⟩)
  refine ⟨⟨n, .base n, shadows⟩, ?_, ⟨[], rfl, hempty⟩, hall⟩
  rw [ParseVSet.configure, hs]
  rfl

/-- **One operation on the value set.** -/
theorem Copies.apply (h : Copies n cases ops vs) (hcases : ∀ c ∈ cases, c.WellFormed n)
    {op : SetOp ByteContainer} (hop : Proper n cases op) :
    ∃ vs', vs.apply op = .ok vs' ∧ Copies n cases (ops ++ [op]) vs' := by
  obtain ⟨⟨set, hbase, hset⟩, hshadows⟩ := h
  obtain ⟨set', hb, hset'⟩ := apply_of_stored (m := ⟨⟨set, none, (n + 7) / 8⟩, false, []⟩)
    (f := id) fun v hv => if_pos (hop v hv).1.1
  obtain ⟨shadows, hs, hall⟩ := mapM_of_forall₂ (f := (·.apply op))
    (S := fun c m => ∃ set, m = c.holding set ∧
      {b | b ∈ set} = SetOp.applyAll ∅ ((ops ++ [op]).map (SetOp.map c.image))) hshadows (by
    rintro c hc m ⟨set, rfl, hset⟩
    obtain ⟨set', ha, hset'⟩ := apply_of_stored (m := c.holding set) (f := c.image)
      fun v hv => VSetCase.stored_eq (hcases c hc) (hop v hv).1 ((hop v hv).2 c hc)
    refine ⟨_, ha, set', rfl, ?_⟩
    rw [hset', map_append, map_singleton, SetOp.applyAll_append_singleton, ← hset]
    rfl)
  refine ⟨⟨vs.compressedBitwidth, ⟨⟨set', none, (n + 7) / 8⟩, false, []⟩, shadows⟩, ?_,
    ⟨set', rfl, ?_⟩, hall⟩
  · rw [ParseVSet.apply, hbase, hb, ok_bind, hs]
    rfl
  · rw [hset', SetOp.map_id, SetOp.applyAll_append_singleton, ← hset]

/-- **The run.** -/
theorem Copies.applyAll {todo : List (SetOp ByteContainer)} (h : Copies n cases ops vs)
    (hcases : ∀ c ∈ cases, c.WellFormed n) (hops : ∀ op ∈ todo, Proper n cases op) :
    ∃ vs', vs.applyAll todo = .ok vs' ∧ Copies n cases (ops ++ todo) vs' := by
  induction todo generalizing ops vs with
  | nil => exact ⟨vs, rfl, by rwa [append_nil]⟩
  | cons op todo ih =>
    obtain ⟨vs₁, hvs₁, hcopies⟩ := h.apply hcases (hops op (by simp))
    obtain ⟨vs₂, hvs₂, hcopies⟩ := ih hcopies fun op hop => hops op (mem_cons_of_mem _ hop)
    refine ⟨vs₂, ?_, by rwa [append_assoc] at hcopies⟩
    rw [ParseVSet.applyAll, foldlM_cons, hvs₁]
    exact hvs₂

/-! ## Keys -/

/-- The field or the bits of the packet the entry stands for are as wide as
the key builder was told. -/
def KeyEntry.HasWidth (phv : Phv) (e : KeyEntry) (w : ℕ) : Prop :=
  match e with
  | .field header offset =>
    ∀ f, phv.getField header offset = some f → f.bytes.length = (w + 7) / 8
  | .stackField headerStack offset =>
    ∀ st header f, phv.headerStacks[headerStack]? = some st → st.getLast = some header →
      phv.getField header offset = some f → f.bytes.length = (w + 7) / 8
  | .unionStackField headerUnionStack headerOffset offset =>
    ∀ st u un header f, phv.headerUnionStacks[headerUnionStack]? = some st →
      st.getLast = some u → phv.headerUnions[u]? = some un →
      un.headers[headerOffset]? = some header → phv.getField header offset = some f →
      f.bytes.length = (w + 7) / 8
  | .lookahead l => ∃ offset, l = .make offset w

variable {phv : Phv} {data : ByteContainer}

theorem fieldBytes_eq_ok {header offset : ℕ} {bytes : ByteContainer}
    (h : fieldBytes phv header offset = .ok bytes) :
    ∃ f, phv.getField header offset = some f ∧ bytes = f.bytes := by
  obtain ⟨f, hf, h⟩ := bind_eq_ok h
  exact ⟨f, required_eq_ok hf, (Except.ok.inj h).symm⟩

/-- **One round adds the bytes of the entry's width.** -/
theorem append_length {e : KeyEntry} {w : ℕ} {key key' : ByteContainer} (he : e.HasWidth phv w)
    (h : e.append phv data key = .ok key') : key'.length = key.length + (w + 7) / 8 := by
  cases e with
  | field header offset =>
    obtain ⟨bytes, hb, h⟩ := bind_eq_ok h
    obtain ⟨f, hf, rfl⟩ := fieldBytes_eq_ok hb
    rw [← Except.ok.inj h, length_append, he f hf]
  | stackField headerStack offset =>
    obtain ⟨st, hst, h⟩ := bind_eq_ok h
    obtain ⟨header, hh, h⟩ := bind_eq_ok h
    obtain ⟨bytes, hb, h⟩ := bind_eq_ok h
    obtain ⟨f, hf, rfl⟩ := fieldBytes_eq_ok hb
    rw [← Except.ok.inj h, length_append, he st header f (required_eq_ok hst) (required_eq_ok hh) hf]
  | unionStackField headerUnionStack headerOffset offset =>
    obtain ⟨st, hst, h⟩ := bind_eq_ok h
    obtain ⟨u, hu, h⟩ := bind_eq_ok h
    obtain ⟨un, hun, h⟩ := bind_eq_ok h
    obtain ⟨header, hh, h⟩ := bind_eq_ok h
    obtain ⟨bytes, hb, h⟩ := bind_eq_ok h
    obtain ⟨f, hf, rfl⟩ := fieldBytes_eq_ok hb
    rw [← Except.ok.inj h, length_append, he st u un header f (required_eq_ok hst)
      (required_eq_ok hu) (required_eq_ok hun) (required_eq_ok hh) hf]
  | lookahead l =>
    obtain ⟨offset, rfl⟩ := he
    simp only [KeyEntry.append, ParserLookAhead.peek] at h
    split at h
    · cases h
    · obtain ⟨bytes, hb, h⟩ := bind_eq_ok h
      have hoff : offset % 8 < 8 := Nat.mod_lt _ (by omega)
      rw [← Except.ok.inj h, length_append, (genericExtract_bits hb hoff).1]
      rfl

/-- **A key is as long as its fields are.** -/
theorem buildKey_length {entries : List KeyEntry} {bitwidths : List ℕ} {key : ByteContainer}
    (hwidths : Forall₂ (KeyEntry.HasWidth phv) entries bitwidths)
    (h : buildKey phv data entries = .ok key) :
    key.length = (bitwidths.map fun w => (w + 7) / 8).sum := by
  suffices hgen : ∀ key₀ : ByteContainer, entries.foldlM (KeyEntry.append phv data) key₀ = .ok key →
      key.length = key₀.length + (bitwidths.map fun w => (w + 7) / 8).sum by
    simpa using hgen [] h
  clear h
  induction hwidths with
  | nil =>
    intro key₀ h
    rw [← Except.ok.inj h]
    rfl
  | cons he _ ih =>
    intro key₀ h
    rw [foldlM_cons] at h
    obtain ⟨key₁, h₁, h⟩ := bind_eq_ok h
    rw [ih key₁ h, append_length he h₁, map_cons, sum_cons, Nat.add_assoc]

/-! ## What a case matches -/

/-- **A case on a value set matches the keys that are equal to a value of the
set, both masked**, after every run in which the values fit the set and are
padded clean, and no value is removed while another has the same masked
layout in a case. -/
theorem vset_run (n : ℕ) (cases : List VSetCase) (ops : List (SetOp ByteContainer))
    (hcases : ∀ c ∈ cases, c.WellFormed n) (hops : ∀ op ∈ ops, Proper n cases op)
    (halone : ∀ c ∈ cases, SetOp.AllAlone c.image ∅ ops) :
    ∃ vs₀ vs, ParseVSet.configure n cases = .ok vs₀ ∧ vs₀.applyAll ops = .ok vs ∧
      (∀ v, v.length = (n + 7) / 8 →
        ∃ b, vs.contains v = .ok b ∧ (b = true ↔ v ∈ SetOp.applyAll ∅ ops)) ∧
      ∀ (i : ℕ) (c : VSetCase), cases[i]? = some c →
        ∃ m, vs.shadows[i]? = some m ∧
          ∀ (phv : Phv) (data : ByteContainer) (entries : List KeyEntry) (key : ByteContainer)
            (next : Option ℕ),
            Forall₂ (KeyEntry.HasWidth phv) entries c.bitwidths →
            buildKey phv data entries = .ok key →
            ∃ b, (SwitchCase.vset m.toVSetShadow next).isMatch key = .ok b ∧
              (b = true ↔ ∃ v ∈ SetOp.applyAll ∅ ops,
                c.cover (spread c.bitwidths (bytesVal v)) = c.cover key) := by
  obtain ⟨vs₀, hvs₀, hcopies⟩ := configure_copies hcases
  obtain ⟨vs, hvs, hcopies⟩ := hcopies.applyAll hcases hops
  rw [nil_append] at hcopies
  obtain ⟨⟨set, hbase, hset⟩, hshadows⟩ := hcopies
  refine ⟨vs₀, vs, hvs₀, hvs, fun v hv => ?_, fun i c hi => ?_⟩
  · refine ⟨set.contains v, ?_, ?_⟩
    · rw [ParseVSet.contains, hbase]
      exact if_pos hv
    · rw [contains_iff_mem, ← hset]
      exact Iff.rfl
  · obtain ⟨m, hm, set, rfl, hset⟩ := forall₂_getElem? hshadows hi
    have hmem : c ∈ cases := mem_of_getElem? hi
    refine ⟨_, hm, fun phv data entries key next hwidths hkey => ?_⟩
    refine ⟨_, VSetCase.isMatch_holding next (hcases c hmem) (buildKey_length hwidths hkey), ?_⟩
    -- The copy holds the images of the values, as every removal was alone.
    have himage := SetOp.image_applyAll (halone c hmem)
    rw [Set.image_empty, ← hset] at himage
    rw [contains_iff_mem]
    have hiff : c.cover key ∈ set ↔ c.cover key ∈ c.image '' SetOp.applyAll ∅ ops := by
      rw [himage]
      exact Iff.rfl
    exact hiff

/-- A key of three fields that are looked ahead at, the second over the end of
a byte, with a mask. -/
def threeFields : VSetCase := ⟨[6, 6, 4], some [0xFF, 0xFF, 0x0E]⟩

def threeEntries : List KeyEntry :=
  [.lookahead (.make 0 6), .lookahead (.make 6 6), .lookahead (.make 12 4)]

/-- One of two values is removed, and a packet that has the other goes on
matching. -/
theorem vset_run_threeFields :
    ∃ vs₀ vs m, ParseVSet.configure 16 [threeFields] = .ok vs₀ ∧
      vs₀.applyAll [.add [0x10, 0x23], .add [0x20, 0x23], .remove [0x20, 0x23]] = .ok vs ∧
      vs.shadows[0]? = some m ∧
      (SwitchCase.vset m.toVSetShadow none).isMatch [0x04, 0x02, 0x03] = .ok true := by
  have hcase : threeFields.WellFormed 16 :=
    ⟨by decide, by decide, fun mask hm => by cases hm; decide, fun _ => by
      simp [EmptyAligned, threeFields]⟩
  have hclean : ∀ v ∈ [[0x10, 0x23], [(0x20 : UInt8), 0x23]],
      Fits 16 v ∧ threeFields.PadsClean v := by
    intro v hv
    have hover : ∀ r < 2, (bytesVal v).testBit (4 + 7 - r) = false := by
      revert v
      decide
    refine ⟨by revert v; unfold Fits; decide, ?_⟩
    simp only [VSetCase.PadsClean, threeFields, Clean, sum_cons, sum_nil, Nat.add_zero]
    refine ⟨by omega, fun _ _ r hr hbit => ?_, by omega, trivial⟩
    rw [hover r hr] at hbit
    cases hbit
  obtain ⟨vs₀, vs, hvs₀, hvs, -, hall⟩ := vset_run 16 [threeFields]
    [.add [0x10, 0x23], .add [0x20, 0x23], .remove [0x20, 0x23]]
    (by simpa using hcase)
    (by
      intro op hop v hv
      have hv : v ∈ [[0x10, 0x23], [(0x20 : UInt8), 0x23]] := by
        simp only [mem_cons, not_mem_nil, or_false] at hop
        obtain rfl | rfl | rfl := hop <;> cases hv <;> simp
      exact ⟨(hclean v hv).1, forall_mem_singleton.mpr (hclean v hv).2⟩)
    (by
      simp only [mem_singleton, forall_eq]
      refine ⟨trivial, trivial, fun u hu huv => ?_, trivial⟩
      obtain rfl | rfl | hu := hu
      · rfl
      · revert huv
        decide
      · exact absurd hu (Set.notMem_empty u))
  obtain ⟨m, hm, hkeys⟩ := hall 0 threeFields rfl
  obtain ⟨b, hb, hiff⟩ := hkeys ⟨[], [], [], []⟩ [0x10, 0x23] threeEntries [0x04, 0x02, 0x03] none
    (.cons ⟨0, rfl⟩ (.cons ⟨6, rfl⟩ (.cons ⟨12, rfl⟩ .nil))) rfl
  have htrue : b = true := by
    refine hiff.mpr ⟨[0x10, 0x23], ?_, by decide⟩
    simp [SetOp.applyAll, SetOp.apply]
  rw [htrue] at hb
  exact ⟨vs₀, vs, m, hvs₀, hvs, hm, hb⟩

/-- **A value that is still in the set is lost.** Two values are the same
behind the mask, one of them is removed, and the key that is equal to the other
is not matched any more. And a value whose second field goes over the end of a
byte, with a bit set in front of it, is not matched by its own key. -/
theorem vset_loses_value :
    (∃ vs₀ vs m, ParseVSet.configure 8 [⟨[8], some [0xF0]⟩] = .ok vs₀ ∧
      vs₀.applyAll [.add [0x12], .add [0x13], .remove [0x12]] = .ok vs ∧
      vs.shadows[0]? = some m ∧ vs.contains [0x13] = .ok true ∧
      buildKey ⟨[], [], [], []⟩ [0x13] [.lookahead (.make 0 8)] = .ok [0x13] ∧
      (SwitchCase.vset m.toVSetShadow none).isMatch [0x13] = .ok false) ∧
    ∃ vs₀ vs m, ParseVSet.configure 16 [⟨[6, 6, 4], none⟩] = .ok vs₀ ∧
      vs₀.applyAll [.add [0x0C, 0x23]] = .ok vs ∧ vs.shadows[0]? = some m ∧
      spread [6, 6, 4] (bytesVal [0x0C, 0x23]) = [0x03, 0x02, 0x03] ∧
      (SwitchCase.vset m.toVSetShadow none).isMatch [0x03, 0x02, 0x03] = .ok false :=
  ⟨⟨_, _, _, rfl, rfl, rfl, rfl, rfl, rfl⟩, _, _, _, rfl, rfl, rfl, by decide, rfl⟩

end Parsing

end P4Bricks
