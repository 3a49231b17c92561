import Mathlib.Algebra.BigOperators.Group.List.Basic
import P4Bricks.MatchKeys.Model
/-!
# The layout of a key

What a builder has when fields have been pushed and it has been built: the sorted
places of the fields, where the bytes of each begin, and the big mask.
-/

namespace P4Bricks

namespace MatchKeys

open Lookup

/-! ## Fields -/

/-- A call that pushes a field of a key. -/
inductive KeyField where
  | field (header fOffset nbits : ℕ) (mtype : MatchType)
  | masked (header fOffset nbits : ℕ) (mask : ByteContainer) (mtype : MatchType)
  | validHeader (header : ℕ)
  deriving DecidableEq, Repr

namespace KeyField

instance : Inhabited KeyField := ⟨.validHeader 0⟩

def input : KeyField → KeyF
  | field header fOffset nbits mtype => ⟨header, fOffset, mtype, nbits⟩
  | masked header fOffset nbits _ mtype => ⟨header, fOffset, mtype, nbits⟩
  | validHeader header => ⟨header, 0, .valid, 8⟩

def mask : KeyField → ByteContainer
  | field _ _ nbits _ => List.replicate (nbitsToNbytes nbits) 0xff
  | masked _ _ _ mask _ => mask
  | validHeader _ => [0xff]

def isMasked : KeyField → Bool
  | masked .. => true
  | _ => false

/-- The bytes that the field takes. -/
def nbytes (x : KeyField) : ℕ := nbitsToNbytes x.input.nbits

/-- A field of at least one bit, with a mask of its size; whether a header is valid is
not a field. -/
def Sound : KeyField → Prop
  | field _ _ nbits mtype => 0 < nbits ∧ mtype ≠ .valid
  | masked _ _ nbits mask mtype => 0 < nbits ∧ mask.length = nbitsToNbytes nbits ∧ mtype ≠ .valid
  | validHeader _ => True

instance : DecidablePred Sound := fun x => by
  cases x <;> unfold Sound <;> infer_instance

variable {x : KeyField}

theorem Sound.length_mask (h : x.Sound) : x.mask.length = x.nbytes := by
  cases x with
  | field => exact List.length_replicate
  | masked => exact h.2.1
  | validHeader => simp [mask, nbytes, input, nbitsToNbytes]

theorem mask_of_not_isMasked (h : x.isMasked = false) : x.mask = List.replicate x.nbytes 0xff := by
  cases x with
  | field => rfl
  | masked => cases h
  | validHeader => simp [mask, nbytes, input, nbitsToNbytes]

end KeyField

namespace MatchKeyBuilder

/-- The call. -/
def push (kb : MatchKeyBuilder) : KeyField → MatchKeyBuilder
  | .field header fOffset nbits mtype => kb.pushBackField header fOffset nbits mtype
  | .masked header fOffset nbits mask mtype => kb.pushBackFieldMasked header fOffset nbits mask mtype
  | .validHeader header => kb.pushBackValidHeader header

/-- The builder of a key of these fields. -/
def ofFields (fields : List KeyField) : MatchKeyBuilder := (fields.foldl push {}).build

/-- What the pushes leave. -/
theorem foldl_push (fields : List KeyField) (kb : MatchKeyBuilder) :
    fields.foldl push kb =
      { kb with
        keyInput := kb.keyInput ++ fields.map KeyField.input
        nbytesKey := kb.nbytesKey + (fields.map KeyField.nbytes).sum
        hasBigMask := kb.hasBigMask || fields.any KeyField.isMasked
        masks := kb.masks ++ fields.map KeyField.mask } := by
  induction fields generalizing kb with
  | nil => simp
  | cons x fields ih =>
    rw [List.foldl_cons, ih]
    cases x <;>
      simp [push, pushBackField, pushBackFieldMasked, pushBackValidHeader, pushBack,
        KeyField.input, KeyField.mask, KeyField.nbytes, KeyField.isMasked, Nat.add_assoc]

/-! ## What is built -/

section
variable {fields : List KeyField}

/-- The field at a place of the program. -/
def fieldAt (fields : List KeyField) (i : ℕ) : KeyField := fields.getD i default

/-- **A builder that has been built.** -/
structure Built (kb : MatchKeyBuilder) (fields : List KeyField) : Prop where
  perm : kb.invMapping.Perm (List.range fields.length)
  sorted : kb.invMapping.Pairwise fun i j =>
    (fieldAt fields i).input.mtype.rank ≤ (fieldAt fields j).input.mtype.rank
  keyInput_eq : kb.keyInput = kb.invMapping.map fun i => (fieldAt fields i).input
  length_keyMapping : kb.keyMapping.length = fields.length
  keyMapping_eq : ∀ i < fields.length, kb.keyMapping.getD i 0 = kb.invMapping.idxOf i
  keyOffsets_eq : ∀ i < fields.length, kb.keyOffsets.getD i 0 =
    Chunks.offset kb.invMapping (fun j => (fieldAt fields j).nbytes) i
  bigMask_eq : kb.bigMask = kb.invMapping.flatMap fun i => (fieldAt fields i).mask
  hasBigMask_eq : kb.hasBigMask = fields.any KeyField.isMasked

/-- Writing each index to the place that leads to it. -/
theorem getD_foldl_set {t : ℕ → ℕ} {l mapping : List ℕ} {v k : ℕ} (hv : v < mapping.length)
    (huniq : ∀ i ∈ l, t i = v → i = k) (hk : t k = v) (h : k ∈ l ∨ mapping.getD v 0 = k) :
    (l.foldl (fun mapping i => mapping.set (t i) i) mapping).getD v 0 = k := by
  induction l generalizing mapping with
  | nil => exact h.resolve_left List.not_mem_nil
  | cons j l ih =>
    obtain ⟨hj, hrest⟩ := List.forall_mem_cons.mp huniq
    refine ih (by simpa using hv) hrest ?_
    by_cases htj : t j = v
    · right
      obtain rfl := hj htj
      simp [hk, List.getD_eq_getElem?_getD, hv]
    · rcases h with hmem | hold
      · refine .inl ((List.mem_cons.mp hmem).resolve_left ?_)
        rintro rfl
        exact htj hk
      · right
        rw [List.getD_eq_getElem?_getD, List.getElem?_set_ne htj, ← List.getD_eq_getElem?_getD, hold]

theorem length_foldl_set {t : ℕ → ℕ} {l mapping : List ℕ} :
    (l.foldl (fun mapping i => mapping.set (t i) i) mapping).length = mapping.length := by
  induction l generalizing mapping with
  | nil => rfl
  | cons j l ih => simp [ih]

/-- The offsets of the sorted fields. -/
theorem foldl_offsets {α : Type} (w : α → ℕ) (l : List α) (os : List ℕ) (start : ℕ) :
    (l.foldl (fun (acc : List ℕ × ℕ) f => (acc.1 ++ [acc.2], acc.2 + w f)) (os, start)).1 =
      os ++ (List.range l.length).map fun k => start + ((l.take k).map w).sum := by
  induction l generalizing os start with
  | nil => simp
  | cons f l ih =>
    rw [List.foldl_cons, ih, List.length_cons, List.range_succ_eq_map]
    simp [Nat.add_assoc, Function.comp_def]

/-- Masks that are written one after the other. -/
theorem foldl_overwrite {idx : List ℕ} {w : ℕ → ℕ} {g m : ℕ → ByteContainer} (hnodup : idx.Nodup)
    (l : List ℕ) (hl : l ⊆ idx) (hg : ∀ i ∈ idx, (g i).length = w i)
    (hm : ∀ i ∈ idx, (m i).length = w i) :
    l.foldl (fun bytes i => Chunks.overwrite bytes (Chunks.offset idx w i) (m i)) (idx.flatMap g) =
      idx.flatMap fun i => if i ∈ l then m i else g i := by
  induction l generalizing g with
  | nil => simp
  | cons j l ih =>
    obtain ⟨hj, hrest⟩ := List.cons_subset.mp hl
    rw [List.foldl_cons, Chunks.overwrite_flatMap hnodup hg hj (hm j hj), ih hrest]
    · refine List.flatMap_congr fun i _ => ?_
      by_cases hij : i = j
      · subst hij
        simp
      · simp [hij]
    · intro i hi
      by_cases hij : i = j
      · subst hij
        rw [Function.update_self, hm i hi]
      · rw [Function.update_of_ne hij, hg i hi]

theorem before_iff {input : List KeyF} {i j : ℕ} : Before input i j ↔
    (input.getD i default).mtype.rank < (input.getD j default).mtype.rank ∨
      (input.getD i default).mtype.rank = (input.getD j default).mtype.rank ∧ i ≤ j := by
  unfold Before
  dsimp only
  split_ifs <;> omega

instance (input : List KeyF) : IsTrans ℕ (Before input) := ⟨fun i j k hij hjk => by
  rw [before_iff] at *
  omega⟩

instance (input : List KeyF) : Std.Total (Before input) := ⟨fun i j => by
  rw [before_iff, before_iff]
  omega⟩

theorem getD_map_of_lt {α β : Type} (f : α → β) {l : List α} {i : ℕ} (hi : i < l.length) (a : α)
    (b : β) : (l.map f).getD i b = f (l.getD i a) := by
  simp [List.getD_eq_getElem?_getD, hi]

theorem getD_map_input (fields : List KeyField) {i : ℕ} (hi : i < fields.length) :
    (fields.map KeyField.input).getD i default = (fieldAt fields i).input :=
  getD_map_of_lt KeyField.input hi default default

section
variable {idx : List ℕ} {n i : ℕ}

/-- The places of the sorted fields are found back. -/
theorem getD_keyMapping (hperm : idx.Perm (List.range n)) (hi : i < n) :
    (idx.foldl (fun mapping k => mapping.set (idx.getD k 0) k) (List.replicate n 0)).getD i 0 =
      idx.idxOf i := by
  have hmem : ∀ {j}, j ∈ idx ↔ j < n := hperm.mem_iff.trans List.mem_range
  have hlen : idx.length = n := hperm.length_eq.trans List.length_range
  have hplace : idx.idxOf i < idx.length := List.idxOf_lt_length_of_mem (hmem.mpr hi)
  refine getD_foldl_set (by simpa using hi) (fun j hj hji => ?_) ?_ (.inl ?_)
  · have hjlt : j < idx.length := hlen ▸ hmem.mp hj
    have hget : idx[j] = i := by simpa [List.getD_eq_getElem?_getD, hjlt] using hji
    rw [← hget]
    exact ((hperm.nodup_iff.mpr List.nodup_range).idxOf_getElem j hjlt).symm
  · simp [List.getD_eq_getElem?_getD, hplace]
  · exact hmem.mpr (hlen ▸ hplace)

theorem getD_offsets (w : KeyF → ℕ) (f : ℕ → KeyF) (hi : i ∈ idx) :
    (((idx.map f).foldl (fun (acc : List ℕ × ℕ) x => (acc.1 ++ [acc.2], acc.2 + w x)) ([], 0)).1).getD
      (idx.idxOf i) 0 = Chunks.offset idx (fun j => w (f j)) i := by
  have hplace : idx.idxOf i < idx.length := List.idxOf_lt_length_of_mem hi
  rw [foldl_offsets]
  simp [Chunks.offset, List.getD_eq_getElem?_getD, hplace, ← List.map_take, Function.comp_def]

/-- The bytes of the fields, in any order. -/
theorem sum_nbytes (hperm : idx.Perm (List.range fields.length)) :
    (fields.map KeyField.nbytes).sum = (idx.map fun i => (fieldAt fields i).nbytes).sum := by
  have hrange : fields.map KeyField.nbytes =
      (List.range fields.length).map fun i => (fieldAt fields i).nbytes := by
    refine List.ext_getElem (by simp) fun i hi _ => ?_
    have hi' : i < fields.length := by simpa using hi
    simp [fieldAt, List.getD_eq_getElem?_getD, hi']
  rw [hrange]
  exact ((hperm.map _).sum_eq).symm

theorem fieldAt_mem (hi : i < fields.length) : fieldAt fields i ∈ fields := by
  rw [fieldAt, List.getD_eq_getElem?_getD, List.getElem?_eq_getElem hi]
  exact List.getElem_mem _

/-- The big mask: the masks are written over zeros, in the order of the program. -/
theorem foldl_bigMask (h : ∀ x ∈ fields, x.Sound) (hperm : idx.Perm (List.range fields.length))
    {offsets : List ℕ} (hoffsets : ∀ i < fields.length,
      offsets.getD i 0 = Chunks.offset idx (fun j => (fieldAt fields j).nbytes) i) :
    (List.range fields.length).foldl (fun bytes i =>
        Chunks.overwrite bytes (offsets.getD i 0) ((fields.map KeyField.mask).getD i []))
      (List.replicate (fields.map KeyField.nbytes).sum 0) =
        idx.flatMap fun i => (fieldAt fields i).mask := by
  have hmem : ∀ {i}, i ∈ idx ↔ i < fields.length := hperm.mem_iff.trans List.mem_range
  have hwrite := @foldl_overwrite idx (fun i => (fieldAt fields i).nbytes)
    (fun i => List.replicate (fieldAt fields i).nbytes 0) (fun i => (fieldAt fields i).mask)
    (hperm.nodup_iff.mpr List.nodup_range) (List.range fields.length)
    (fun i hi => hmem.mpr (List.mem_range.mp hi)) (fun i _ => List.length_replicate)
    fun i hi => (h _ (fieldAt_mem (hmem.mp hi))).length_mask
  rw [← Chunks.replicate_sum, ← sum_nbytes hperm] at hwrite
  refine Eq.trans ?_ (hwrite.trans (List.flatMap_congr fun i hi => ?_))
  · refine List.foldl_ext _ _ _ fun bytes i hi => ?_
    have hi' := List.mem_range.mp hi
    rw [hoffsets i hi', getD_map_of_lt KeyField.mask hi' default]
    rfl
  · exact if_pos (List.mem_range.mpr (hmem.mp hi))

end

/-- **The builder of a key is built.** -/
theorem built_ofFields (h : ∀ x ∈ fields, x.Sound) : (ofFields fields).Built fields := by
  let input := fields.map KeyField.input
  let inv := (List.range input.length).insertionSort (Before input)
  have hlen : input.length = fields.length := List.length_map _
  have hperm : inv.Perm (List.range fields.length) := hlen ▸ List.perm_insertionSort _ _
  have hnodup : inv.Nodup := hperm.nodup_iff.mpr List.nodup_range
  have hmem : ∀ {i}, i ∈ inv ↔ i < fields.length := hperm.mem_iff.trans List.mem_range
  have hinput : ∀ i ∈ inv, input.getD i default = (fieldAt fields i).input := fun i hi =>
    getD_map_input fields (hmem.mp hi)
  have hnew : inv.map (fun i => input.getD i default) = inv.map fun i => (fieldAt fields i).input :=
    List.map_congr_left hinput
  have hofFields : ofFields fields = build
      { keyInput := input
        nbytesKey := (fields.map KeyField.nbytes).sum
        hasBigMask := fields.any KeyField.isMasked
        masks := fields.map KeyField.mask } := by
    rw [ofFields, foldl_push]
    simp [input]
  -- The offsets are summed up in the order of the inputs and read through the inverse of the
  -- order.
  have hoffsets : ∀ i < fields.length, (ofFields fields).keyOffsets.getD i 0 =
      Chunks.offset inv (fun j => (fieldAt fields j).nbytes) i := by
    intro i hi
    have hk := getD_keyMapping (hlen ▸ hperm) (hlen ▸ hi)
    have hoff := getD_offsets (fun f => nbitsToNbytes f.nbits) (fun j => (fieldAt fields j).input)
      (hmem.mpr hi)
    rw [← hk, ← hnew] at hoff
    have hlt : i < (inv.foldl (fun mapping k => mapping.set (inv.getD k 0) k)
        (List.replicate input.length 0)).length := by
      rw [length_foldl_set, List.length_replicate, hlen]
      exact hi
    rw [hofFields]
    exact (getD_map_of_lt _ hlt 0 0).trans hoff
  rw [hofFields] at hoffsets ⊢
  refine ⟨hperm, ?_, hnew, ?_, fun i hi => ?_, hoffsets, ?_, rfl⟩
  · have hsorted := List.pairwise_insertionSort (Before input) (List.range input.length)
    refine hsorted.imp_of_mem fun hi hj hij => ?_
    rw [← hinput _ hi, ← hinput _ hj]
    rcases before_iff.mp hij with hlt | ⟨heq, -⟩
    · exact hlt.le
    · exact heq.le
  · exact (length_foldl_set).trans ((List.length_replicate).trans hlen)
  · have hk := getD_keyMapping (hlen ▸ hperm) (hlen ▸ hi)
    exact hk
  · have hmask := foldl_bigMask h hperm hoffsets
    rw [← hlen] at hmask
    exact hmask

end

end MatchKeyBuilder

end MatchKeys

end P4Bricks
