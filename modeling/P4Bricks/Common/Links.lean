import Mathlib.Data.List.Nodup
import Mathlib.Logic.Function.Basic
/-!
# A doubly linked list threaded through a table

Nodes are the indices of a table; each carries a pointer to the node before
it and one to the node after it, and a head pointer starts the list. The
table holds nodes that are not on the list too, and their pointers are
unconstrained: an insertion overwrites them. `Represents` says which list of
nodes the pointers spell, and each operation is stated as what it does to
that list.
-/

namespace P4Bricks

/-- The pointers of a doubly linked list over the nodes `ι`. -/
structure Links (ι : Type*) where
  head : Option ι
  next : ι → Option ι
  prev : ι → Option ι

namespace Links

variable {ι : Type*} {L L' : Links ι} {l l₁ l₂ : List ι} {p n : Option ι} {a b i : ι}

/-- No node is on the list, and no pointer is set. -/
def empty : Links ι := ⟨none, fun _ => none, fun _ => none⟩

/-- The nodes met from `start` on, following `next` for at most `fuel`
nodes. -/
def walk (L : Links ι) : ℕ → Option ι → List ι
  | 0, _ => []
  | _, none => []
  | fuel + 1, some a => a :: L.walk fuel (L.next a)

/-- `l` is a segment of the list: `p` stands before it and `n` after it. -/
def Segment (L : Links ι) : Option ι → List ι → Option ι → Prop
  | _, [], _ => True
  | p, a :: l, n => L.prev a = p ∧ L.next a = l.head?.or n ∧ L.Segment (some a) l n

/-- The pointers spell the list `l`. -/
structure Represents (L : Links ι) (l : List ι) : Prop where
  head_eq : L.head = l.head?
  nodup : l.Nodup
  segment : L.Segment none l none

theorem segment_cons :
    L.Segment p (a :: l) n ↔ L.prev a = p ∧ L.next a = l.head?.or n ∧ L.Segment (some a) l n :=
  Iff.rfl

/-- A segment splits into two that meet at the seam. -/
theorem segment_append :
    L.Segment p (l₁ ++ l₂) n ↔
      L.Segment p l₁ (l₂.head?.or n) ∧ L.Segment (l₁.getLast?.or p) l₂ n := by
  induction l₁ generalizing p with
  | nil => simp [Segment]
  | cons a l₁ ih =>
    rw [List.cons_append, segment_cons, segment_cons, ih]
    have hhead : (l₁ ++ l₂).head?.or n = l₁.head?.or (l₂.head?.or n) := by
      rw [List.head?_append, Option.or_assoc]
    have hlast : (a :: l₁).getLast?.or p = l₁.getLast?.or (some a) := by
      rw [List.getLast?_cons]
      cases l₁.getLast? <;> rfl
    rw [hhead, hlast]
    tauto

/-- A segment reads only the pointers of its own nodes. -/
theorem Segment.congr (h : L.Segment p l n)
    (hagree : ∀ a ∈ l, L'.prev a = L.prev a ∧ L'.next a = L.next a) : L'.Segment p l n := by
  induction l generalizing p with
  | nil => trivial
  | cons a l ih =>
    obtain ⟨hprev, hnext, hl⟩ := h
    obtain ⟨hp, hn⟩ := hagree a (by simp)
    exact ⟨hp.trans hprev, hn.trans hnext, ih hl fun b hb => hagree b (by simp [hb])⟩

/-- **A walk with enough fuel visits exactly the list.** -/
theorem Segment.walk_eq (h : L.Segment p l none) {fuel : ℕ} (hfuel : l.length ≤ fuel) :
    L.walk fuel l.head? = l := by
  induction l generalizing p fuel with
  | nil => cases fuel <;> rfl
  | cons a l ih =>
    obtain ⟨-, hnext, hl⟩ := h
    obtain _ | fuel := fuel
    · simp at hfuel
    · rw [List.head?_cons, walk, hnext, Option.or_none, ih hl (by simpa using hfuel)]

theorem Represents.walk_eq (h : L.Represents l) {fuel : ℕ} (hfuel : l.length ≤ fuel) :
    L.walk fuel L.head = l := by
  rw [h.head_eq, h.segment.walk_eq hfuel]

/-! ## The three edits -/

variable [DecidableEq ι]

/-- `if (node) node->prev = p;` -/
def setPrev (L : Links ι) (node : Option ι) (p : Option ι) : Links ι :=
  match node with
  | some b => { L with prev := Function.update L.prev b p }
  | none => L

/-- Put `i` in front of the list. -/
def insertHead (L : Links ι) (i : ι) : Links ι :=
  let L₁ : Links ι :=
    { head := some i
      next := Function.update L.next i L.head
      prev := Function.update L.prev i none }
  L₁.setPrev (L₁.next i) (some i)

/-- Put `i` right after the node `a`. -/
def insertAfter (L : Links ι) (a i : ι) : Links ι :=
  let L₁ : Links ι :=
    { head := L.head
      next := Function.update (Function.update L.next i (L.next a)) a (some i)
      prev := Function.update L.prev i (some a) }
  L₁.setPrev (L₁.next i) (some i)

/-- Take `i` off the list. Its own pointers stay as they were. -/
def unlink (L : Links ι) (i : ι) : Links ι :=
  let L₁ : Links ι :=
    match L.prev i with
    | some a => { L with next := Function.update L.next a (L.next i) }
    | none => { L with head := L.next i }
  L₁.setPrev (L₁.next i) (L.prev i)

@[simp] theorem setPrev_head (node p : Option ι) : (L.setPrev node p).head = L.head := by
  cases node <;> rfl

@[simp] theorem setPrev_next (node p : Option ι) : (L.setPrev node p).next = L.next := by
  cases node <;> rfl

/-- Only the node pointed at has its back pointer changed. -/
theorem setPrev_prev_of_ne {node : Option ι} (h : node ≠ some a) (p : Option ι) :
    (L.setPrev node p).prev a = L.prev a := by
  cases node with
  | none => rfl
  | some b => exact Function.update_of_ne (fun hab => h (congrArg some hab.symm)) _ _

/-- Redirecting the back pointer of a segment's first node moves what stands
before the segment. -/
theorem Segment.setPrev (h : L.Segment p l none) (hnd : l.Nodup) (q : Option ι) :
    (L.setPrev l.head? q).Segment q l none := by
  cases l with
  | nil => trivial
  | cons b l =>
    obtain ⟨-, hnext, hl⟩ := h
    refine ⟨Function.update_self .., by rw [setPrev_next]; exact hnext, hl.congr fun c hc => ?_⟩
    have hbc : some b ≠ some c := fun hbc => (List.nodup_cons.mp hnd).1 (Option.some.inj hbc ▸ hc)
    exact ⟨setPrev_prev_of_ne hbc q, by rw [setPrev_next]⟩

/-- **Inserting at the head conses.** -/
theorem Represents.insertHead (h : L.Represents l) (hi : i ∉ l) :
    (L.insertHead i).Represents (i :: l) := by
  have hne : ∀ a ∈ l, a ≠ i := fun a ha hai => hi (hai ▸ ha)
  unfold Links.insertHead
  simp only [Function.update_self, h.head_eq]
  refine ⟨by simp, List.nodup_cons.mpr ⟨hi, h.nodup⟩, ?_, ?_, ?_⟩
  · have hhead : l.head? ≠ some i := fun hhead => hi (List.mem_of_mem_head? hhead)
    exact (setPrev_prev_of_ne hhead _).trans (Function.update_self ..)
  · rw [setPrev_next, Option.or_none]
    exact Function.update_self ..
  · refine Segment.setPrev (h.segment.congr fun a ha => ?_) h.nodup _
    exact ⟨Function.update_of_ne (hne a ha) .., Function.update_of_ne (hne a ha) ..⟩

/-- **Inserting after a node puts the new one right behind it.** -/
theorem Represents.insertAfter (h : L.Represents (l₁ ++ a :: l₂)) (hi : i ∉ l₁ ++ a :: l₂) :
    (L.insertAfter a i).Represents (l₁ ++ a :: i :: l₂) := by
  have hne : ∀ c ∈ l₁ ++ a :: l₂, c ≠ i := fun c hc hci => hi (hci ▸ hc)
  have hai : a ≠ i := hne a (by simp)
  obtain ⟨hseg₁, hprev, hnext, hseg₂⟩ := segment_append.mp h.segment
  obtain ⟨hnd₁, hnd₂, hdisj⟩ := List.nodup_append.mp h.nodup
  obtain ⟨ha₂, hnd₃⟩ := List.nodup_cons.mp hnd₂
  have hmem₂ : ∀ c, l₂.head? = some c → c ∈ l₂ := fun c hc => List.mem_of_mem_head? hc
  have hnext_i : Function.update (Function.update L.next i (L.next a)) a (some i) i = l₂.head? := by
    rw [Function.update_of_ne hai.symm, Function.update_self, hnext, Option.or_none]
  unfold Links.insertAfter
  simp only [hnext_i]
  refine ⟨?_, ?_, segment_append.mpr ⟨?_, ?_, ?_, ?_, ?_, ?_⟩⟩
  · rw [setPrev_head, h.head_eq]
    cases l₁ <;> rfl
  · have hperm : (l₁ ++ a :: i :: l₂).Perm (i :: (l₁ ++ a :: l₂)) := by
      rw [List.append_cons, List.append_cons l₁ a l₂]
      exact List.perm_middle
    exact hperm.nodup_iff.mpr (List.nodup_cons.mpr ⟨hi, h.nodup⟩)
  · -- nodes before `a` keep their pointers: none of them is `a`, `i` or the head of `l₂`
    refine hseg₁.congr fun c hc => ⟨?_, ?_⟩
    · have hhead : l₂.head? ≠ some c := fun hhead =>
        hdisj c hc c (by simp [hmem₂ c hhead]) rfl
      exact (setPrev_prev_of_ne hhead _).trans (Function.update_of_ne (hne c (by simp [hc])) ..)
    · have hca : c ≠ a := hdisj c hc a (by simp)
      rw [setPrev_next]
      exact (Function.update_of_ne hca ..).trans (Function.update_of_ne (hne c (by simp [hc])) ..)
  · rw [setPrev_prev_of_ne (fun hhead => ha₂ (hmem₂ a hhead)), ← hprev]
    exact Function.update_of_ne hai ..
  · rw [setPrev_next]
    exact Function.update_self ..
  · have hhead : l₂.head? ≠ some i := fun hhead => hne i (by simp [hmem₂ i hhead]) rfl
    exact (setPrev_prev_of_ne hhead _).trans (Function.update_self ..)
  · rw [setPrev_next, Option.or_none]
    exact hnext_i
  · refine Segment.setPrev (hseg₂.congr fun c hc => ⟨?_, ?_⟩) hnd₃ _
    · exact Function.update_of_ne (hne c (by simp [hc])) ..
    · have hca : c ≠ a := fun hca => ha₂ (hca ▸ hc)
      exact (Function.update_of_ne hca ..).trans (Function.update_of_ne (hne c (by simp [hc])) ..)

/-- **Unlinking a node leaves the others in order.** -/
theorem Represents.unlink (h : L.Represents (l₁ ++ i :: l₂)) :
    (L.unlink i).Represents (l₁ ++ l₂) := by
  obtain ⟨hseg₁, hprev, hnext, hseg₂⟩ := segment_append.mp h.segment
  obtain ⟨hnd₁, hnd₂, hdisj⟩ := List.nodup_append.mp h.nodup
  obtain ⟨hi₂, hnd₃⟩ := List.nodup_cons.mp hnd₂
  rw [Option.or_none] at hprev hnext
  have hnd : (l₁ ++ l₂).Nodup := (List.nodup_cons.mp (List.nodup_middle.mp h.nodup)).2
  have hmem₂ : ∀ c ∈ l₁, l₂.head? ≠ some c := fun c hc hhead =>
    hdisj c hc c (by simp [List.mem_of_mem_head? hhead]) rfl
  unfold Links.unlink
  -- the node before `i`, if any, is the last of `l₁`
  rcases List.eq_nil_or_concat l₁ with rfl | ⟨l₀, a, rfl⟩
  · rw [List.getLast?_nil] at hprev
    simp only [hprev, hnext]
    refine ⟨by rw [setPrev_head]; rfl, hnd, ?_⟩
    have hseg : ({ L with head := l₂.head? } : Links ι).Segment (some i) l₂ none :=
      hseg₂.congr fun c _ => ⟨rfl, rfl⟩
    exact hseg.setPrev hnd₃ none
  · rw [List.concat_eq_append, List.getLast?_concat] at hprev
    have hai : i ≠ a := fun hai => hdisj a (by simp) i (by simp) hai.symm
    have hnext_i : Function.update L.next a l₂.head? i = l₂.head? := by
      rw [Function.update_of_ne hai, hnext]
    simp only [hprev, hnext, hnext_i]
    obtain ⟨hseg₀, hprev_a, -, -⟩ := segment_append.mp (List.concat_eq_append ▸ hseg₁)
    have ha₀ : a ∉ l₀ := fun ha => by
      rw [List.concat_eq_append, List.nodup_append] at hnd₁
      exact hnd₁.2.2 a ha a (by simp) rfl
    rw [List.concat_eq_append] at hnd hmem₂ ⊢
    refine ⟨?_, hnd, segment_append.mpr ⟨segment_append.mpr ⟨?_, ?_, ?_, trivial⟩, ?_⟩⟩
    · rw [setPrev_head, h.head_eq]
      cases l₀ <;> rfl
    · refine hseg₀.congr fun c hc => ⟨setPrev_prev_of_ne (hmem₂ c (by simp [hc])) _, ?_⟩
      have hca : c ≠ a := fun hca => ha₀ (hca ▸ hc)
      rw [setPrev_next]
      exact Function.update_of_ne hca ..
    · rw [setPrev_prev_of_ne (hmem₂ a (by simp))]
      exact hprev_a
    · rw [setPrev_next]
      exact (Function.update_self ..).trans (by simp)
    · have hseg : ({ L with next := Function.update L.next a l₂.head? } : Links ι).Segment
          (some i) l₂ none := by
        refine hseg₂.congr fun c hc => ⟨rfl, ?_⟩
        have hca : c ≠ a := fun hca => hdisj a (by simp) c (by simp [hc]) hca.symm
        exact Function.update_of_ne hca ..
      rw [List.getLast?_concat]
      exact hseg.setPrev hnd₃ (some a)

end Links

end P4Bricks
