import Mathlib.Algebra.GroupWithZero.Nat
import Mathlib.Data.List.Nodup
import Mathlib.Logic.Function.Basic
/-!
# Chunks of a list

A list put together from chunks, one for each of some indices, in the order of
these. The length of each chunk is known beforehand, so a chunk is found again by
its offset.
-/

namespace P4Bricks

namespace Chunks

variable {ι α β γ : Type*} [DecidableEq ι] {idx : List ι} {len : ι → ℕ} {g h : ι → List α} {i : ι}

/-- Where the chunk of an index starts. -/
def offset (idx : List ι) (len : ι → ℕ) (i : ι) : ℕ := ((idx.take (idx.idxOf i)).map len).sum

@[simp] theorem offset_cons_self : offset (i :: idx) len i = 0 := by
  simp [offset]

theorem offset_cons_of_ne {j : ι} (hji : j ≠ i) :
    offset (j :: idx) len i = len j + offset idx len i := by
  simp [offset, List.idxOf_cons_ne _ hji]

/-- A list with other elements from a place on. -/
def overwrite (l : List α) (start : ℕ) (chunk : List α) : List α :=
  l.take start ++ chunk ++ l.drop (start + chunk.length)

theorem overwrite_append_right (l l' : List α) (start : ℕ) (chunk : List α) :
    overwrite (l ++ l') (l.length + start) chunk = l ++ overwrite l' start chunk := by
  have htake : l.take (l.length + start) = l := List.take_of_length_le (by omega)
  have hdrop : l.drop (l.length + start + chunk.length) = [] := List.drop_eq_nil_of_le (by omega)
  rw [overwrite, overwrite, List.take_append, List.drop_append, htake, hdrop,
    Nat.add_sub_cancel_left, Nat.add_assoc, Nat.add_sub_cancel_left]
  simp

/-- Each chunk is found at its offset. -/
theorem slice_flatMap (hlen : ∀ j ∈ idx, (g j).length = len j) (hi : i ∈ idx) :
    ((idx.flatMap g).drop (offset idx len i)).take (len i) = g i := by
  induction idx with
  | nil => cases hi
  | cons j idx ih =>
    obtain ⟨hj, hrest⟩ := List.forall_mem_cons.mp hlen
    rw [List.flatMap_cons]
    by_cases hji : j = i
    · subst hji
      rw [offset_cons_self, List.drop_zero, ← hj, List.take_left]
    · have hmem : i ∈ idx := (List.mem_cons.mp hi).resolve_left (Ne.symm hji)
      rw [offset_cons_of_ne hji, ← hj, List.drop_length_add_append]
      exact ih hrest hmem

/-- A chunk that is written at its offset takes the place of the one there. -/
theorem overwrite_flatMap (hnodup : idx.Nodup) (hlen : ∀ j ∈ idx, (g j).length = len j)
    (hi : i ∈ idx) {chunk : List α} (hchunk : chunk.length = len i) :
    overwrite (idx.flatMap g) (offset idx len i) chunk =
      idx.flatMap (Function.update g i chunk) := by
  induction idx with
  | nil => cases hi
  | cons j idx ih =>
    obtain ⟨hj, hrest⟩ := List.forall_mem_cons.mp hlen
    obtain ⟨hnotin, hnodup⟩ := List.nodup_cons.mp hnodup
    rw [List.flatMap_cons, List.flatMap_cons]
    by_cases hji : j = i
    · subst hji
      have hsame : idx.flatMap (Function.update g j chunk) = idx.flatMap g := by
        refine List.flatMap_congr fun k hk => Function.update_of_ne ?_ _ _
        rintro rfl
        exact hnotin hk
      rw [offset_cons_self, Function.update_self, hsame]
      simp [overwrite, hchunk, ← hj]
    · have hmem : i ∈ idx := (List.mem_cons.mp hi).resolve_left (Ne.symm hji)
      rw [offset_cons_of_ne hji, ← hj, overwrite_append_right, Function.update_of_ne hji,
        ih hnodup hrest hmem]

omit [DecidableEq ι] in
theorem length_flatMap (hlen : ∀ j ∈ idx, (g j).length = len j) :
    (idx.flatMap g).length = (idx.map len).sum := by
  rw [List.length_flatMap]
  congr 1
  exact List.map_congr_left hlen

omit [DecidableEq ι] in
theorem replicate_sum (idx : List ι) (len : ι → ℕ) (a : α) :
    List.replicate (idx.map len).sum a = idx.flatMap fun i => List.replicate (len i) a := by
  rw [eq_comm, List.eq_replicate_iff]
  refine ⟨length_flatMap fun i _ => List.length_replicate, fun b hb => ?_⟩
  obtain ⟨i, -, hb⟩ := List.mem_flatMap.mp hb
  exact List.eq_of_mem_replicate hb

omit [DecidableEq ι] in
/-- Lists that are put together place by place are so chunk by chunk. -/
theorem zipWith_flatMap (f : α → β → γ) {g : ι → List α} {h : ι → List β}
    (hlen : ∀ j ∈ idx, (g j).length = (h j).length) :
    List.zipWith f (idx.flatMap g) (idx.flatMap h) =
      idx.flatMap fun j => List.zipWith f (g j) (h j) := by
  induction idx with
  | nil => rfl
  | cons j idx ih =>
    obtain ⟨hj, hrest⟩ := List.forall_mem_cons.mp hlen
    rw [List.flatMap_cons, List.flatMap_cons, List.zipWith_append hj, ih hrest, List.flatMap_cons]

omit [DecidableEq ι] in
/-- Lists are equal if their chunks are. -/
theorem flatMap_inj_iff (hlen : ∀ j ∈ idx, (g j).length = (h j).length) :
    idx.flatMap g = idx.flatMap h ↔ ∀ j ∈ idx, g j = h j := by
  induction idx with
  | nil => simp
  | cons j idx ih =>
    obtain ⟨hj, hrest⟩ := List.forall_mem_cons.mp hlen
    rw [List.flatMap_cons, List.flatMap_cons, List.forall_mem_cons, ← ih hrest]
    constructor
    · intro heq
      exact List.append_inj heq hj
    · rintro ⟨hhead, htail⟩
      rw [hhead, htail]

end Chunks

end P4Bricks
