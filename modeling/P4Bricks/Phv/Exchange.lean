import Mathlib.Data.List.Nodup
import Mathlib.Logic.Equiv.Basic
import P4Bricks.Phv.Layout
/-!
# Exchanges of headers

Two headers of one type that change places each get what the other held. A
header's layout is its own, so that only its contents move.
-/

namespace P4Bricks

open Parsing

/-! ## Fields -/

namespace Field

/-- The layout of a field, and not whether arithmetic uses it: what the fields
at one offset of two headers of a type have in common. -/
def shape (f : Field) : Field := { f.blank with arith := true }

/-- What a field holds. -/
def contents (f : Field) : Field := { f with arith := true }

variable {f g : Field}

@[simp] theorem shape_blank (f : Field) : f.blank.shape = f.shape := by
  rw [shape, f.blank_blank, shape]

/-- Fields of one shape are of variable length together, -/
theorem isVL_of_shape (h : f.shape = g.shape) : f.isVL = g.isVL := by
  have hv : f.shape.isVL = g.shape.isVL := by rw [h]
  have hf : f.shape.isVL = f.blank.isVL := rfl
  have hg : g.shape.isVL = g.blank.isVL := rfl
  rw [← f.isVL_blank, ← hf, hv, hg, g.isVL_blank]

/-- Fields of one shape are read in the same way. -/
theorem signs_of_shape (h : f.shape = g.shape) :
    f.isSigned = g.isSigned ∧ f.isSaturating = g.isSaturating ∧ f.hidden = g.hidden := by
  simp only [shape, blank, Field.mk.injEq] at h
  exact ⟨h.2.2.2.1, h.2.2.2.2.1, h.2.2.2.2.2.1⟩

/-- and otherwise have one width. -/
theorem nbits_of_shape (h : f.shape = g.shape) (hvl : ¬f.isVL) : f.nbits = g.nbits := by
  have hg : ¬g.isVL := by rwa [← isVL_of_shape h]
  have hn := congrArg Field.nbits h
  simpa [shape, blank, hvl, hg] using hn

/-- A field of fixed width has no mask of its own. -/
theorem vlMask_of_not_isVL (hvl : ¬f.isVL) : f.vlMask = none := by
  simpa [isVL] using hvl

/-- Two fields of one shape exchange their contents. -/
theorem swapValues_spec (hs : f.shape = g.shape) :
    Returns (f.swapValues g) fun p => p.1.contents = g.contents ∧ p.2.contents = f.contents := by
  obtain ⟨hsigned, hsat, hhidden⟩ := signs_of_shape hs
  unfold swapValues
  split
  · next hvl =>
    rw [if_pos ⟨by rwa [← isVL_of_shape hs], hsigned, hsat⟩]
    refine .ok ?_
    simp only [contents, hsigned, hsat, hhidden, and_self]
  · next hvl =>
    -- The lengths are those of the type.
    have hg : ¬g.isVL := by rwa [← isVL_of_shape hs]
    refine .ok ?_
    simp only [contents, hsigned, hsat, hhidden, nbits_of_shape hs hvl, vlMask_of_not_isVL hvl,
      vlMask_of_not_isVL hg, and_self]

end Field

/-! ## Headers -/

namespace Header

/-- Headers of one type. -/
def SameFields (h h' : Header) : Prop := h.fields.map Field.shape = h'.fields.map Field.shape

/-- What a header holds. -/
def contents (h : Header) : Header :=
  { h with
    headerType := 0
    fields := h.fields.map Field.contents
    metadata := false
    unionMembership := none }

/-- The shapes of the fields are layout, -/
theorem shape_fields_blank (h : Header) :
    h.blank.fields.map Field.shape = h.fields.map Field.shape := by
  simp [blank, Function.comp_def]

/-- so that two headers keep having the same fields. -/
theorem SameFields.congr {x y x' y' : Header} (hs : x.SameFields y) (hx : x'.blank = x.blank)
    (hy : y'.blank = y.blank) : x'.SameFields y' := by
  unfold SameFields
  rw [← shape_fields_blank x', hx, shape_fields_blank, ← shape_fields_blank y', hy,
    shape_fields_blank]
  exact hs

/-- The fields of two such headers exchange their contents pair by pair. -/
theorem swapFields_spec {fs gs : List Field} (hs : fs.map Field.shape = gs.map Field.shape) :
    Returns (swapFields fs gs) fun p => p.1.map Field.contents = gs.map Field.contents ∧
      p.2.map Field.contents = fs.map Field.contents := by
  induction fs generalizing gs with
  | nil =>
    obtain rfl : gs = [] := List.map_eq_nil_iff.mp hs.symm
    exact .ok ⟨rfl, rfl⟩
  | cons f fs ih =>
    cases gs with
    | nil => cases hs
    | cons g gs =>
      rw [List.map_cons, List.map_cons, List.cons.injEq] at hs
      refine (Field.swapValues_spec hs.1).bind fun p _ hp => (ih hs.2).bind fun q _ hq => .ok ?_
      simp only [List.map_cons, hp, hq, and_self]

/-- **Two headers of one type exchange what they hold.** -/
theorem swapValues_spec {x y : Header} (hs : x.SameFields y) :
    Returns (x.swapValues y) fun p => p.1.contents = y.contents ∧ p.2.contents = x.contents := by
  refine (swapFields_spec hs).bind fun p _ hp => .ok ?_
  simp only [contents, hp, and_self]

end Header

/-! ## Header vectors -/

namespace Phv

variable {phv phv' : Phv}

/-- What a header of the vector holds. -/
def content (phv : Phv) (h : ℕ) : Option Header := phv.headers[h]?.map Header.contents

/-- The flag of a header. -/
def flag (phv : Phv) (h : ℕ) : Bool := (phv.headers[h]?.map Header.valid).getD false

/-- The flag of a header is part of its content, -/
theorem flag_eq_content (phv : Phv) (h : ℕ) :
    phv.flag h = ((phv.content h).map Header.valid).getD false := by
  rw [flag, content, Option.map_map]
  rfl

/-- and equal where the contents are. -/
theorem flag_of_content {h g : ℕ} (hc : phv'.content h = phv.content g) :
    phv'.flag h = phv.flag g := by
  rw [flag_eq_content, hc, flag_eq_content]

/-- The blank vector has the blank headers. -/
theorem blank_getElem? (phv : Phv) (h : ℕ) :
    phv.blank.headers[h]? = phv.headers[h]?.map Header.blank := by
  rw [blank, List.getElem?_map]

/-- A vector of the same layout has a header of the same layout in each place. -/
theorem exists_header (hb : phv'.blank = phv.blank) {h : ℕ} {hdr : Header}
    (hh : phv.headers[h]? = some hdr) :
    ∃ hdr', phv'.headers[h]? = some hdr' ∧ hdr'.blank = hdr.blank := by
  have heq := blank_getElem? phv' h
  rw [hb, blank_getElem?, hh, Option.map_some] at heq
  obtain ⟨hdr', hhdr', hsame⟩ := Option.map_eq_some_iff.mp heq.symm
  exact ⟨hdr', hhdr', hsame⟩

/-- Two headers that can change places: neither is metadata, and they are of
one type. -/
def Exchangeable (phv : Phv) (a b : ℕ) : Prop :=
  ∃ x y, phv.headers[a]? = some x ∧ phv.headers[b]? = some y ∧ x.SameFields y ∧
    x.metadata = false ∧ y.metadata = false

/-- Which headers can be exchanged is layout, -/
theorem Exchangeable.congr {a b : ℕ} (he : phv.Exchangeable a b) (hb : phv'.blank = phv.blank) :
    phv'.Exchangeable a b := by
  obtain ⟨x, y, hx, hy, hsame, hxm, hym⟩ := he
  obtain ⟨x', hx', hxb⟩ := exists_header hb hx
  obtain ⟨y', hy', hyb⟩ := exists_header hb hy
  refine ⟨x', y', hx', hy', hsame.congr hxb hyb, ?_, ?_⟩
  · exact (congrArg Header.metadata hxb).trans hxm
  · exact (congrArg Header.metadata hyb).trans hym

/-- **Two headers of the vector change places**, and nothing else changes. -/
theorem swapHeaders_spec {a b : ℕ} (he : phv.Exchangeable a b) :
    Returns (phv.swapHeaders a b) fun phv' =>
      (∀ g, phv'.content g = phv.content (Equiv.swap a b g)) ∧
        phv' = { phv with headers := phv'.headers } := by
  obtain ⟨x, y, hx, hy, hsame, -, -⟩ := he
  have ha : a < phv.headers.length := (List.getElem?_eq_some_iff.mp hx).1
  have hb : b < phv.headers.length := (List.getElem?_eq_some_iff.mp hy).1
  unfold swapHeaders
  rw [hx, hy]
  refine Avoids.bind_ok (Avoids.bind_ok ((Header.swapValues_spec hsame).bind fun p _ hp => .ok
    ⟨fun g => ?_, rfl⟩))
  simp only [content, List.getElem?_set, List.length_set]
  by_cases hbg : b = g
  · subst hbg
    simp [hb, hx, hp, Equiv.swap_apply_right]
  · by_cases hag : a = g
    · subst hag
      simp [hbg, ha, hy, hp, Equiv.swap_apply_left]
    · simp [hbg, hag, Equiv.swap_apply_of_ne_of_ne (Ne.symm hag) (Ne.symm hbg)]

/-- Two lists of headers that can change places one by one. -/
def ExchangeableLists (phv : Phv) (as bs : List ℕ) : Prop :=
  ∀ (i a b : ℕ), as[i]? = some a → bs[i]? = some b → phv.Exchangeable a b

/-- Lists that can be exchanged can be from their heads on, -/
theorem ExchangeableLists.cons {a b : ℕ} {as bs : List ℕ}
    (he : phv.ExchangeableLists (a :: as) (b :: bs)) :
    phv.Exchangeable a b ∧ phv.ExchangeableLists as bs :=
  ⟨he 0 a b rfl rfl, fun i a' b' ha hb => he (i + 1) a' b' ha hb⟩

/-- which again is layout. -/
theorem ExchangeableLists.congr {as bs : List ℕ} (he : phv.ExchangeableLists as bs)
    (hb : phv'.blank = phv.blank) : phv'.ExchangeableLists as bs :=
  fun i a b ha hb' => (he i a b ha hb').congr hb

/-- **Two lists of headers are exchanged place by place.** -/
theorem swapMembers_spec {as bs : List ℕ} (he : phv.ExchangeableLists as bs)
    (hnd : (as ++ bs).Nodup) (hlen : as.length = bs.length) :
    Returns (phv.swapMembers as bs) fun phv' =>
      (∀ (i a b : ℕ), as[i]? = some a → bs[i]? = some b →
        phv'.content a = phv.content b ∧ phv'.content b = phv.content a) ∧
      (∀ g ∉ as ++ bs, phv'.content g = phv.content g) ∧
      phv' = { phv with headers := phv'.headers } := by
  induction as generalizing phv bs with
  | nil => exact .ok ⟨fun i a b ha => by simp at ha, fun _ _ => rfl, rfl⟩
  | cons a₀ as ih =>
    cases bs with
    | nil => cases hlen
    | cons b₀ bs =>
      obtain ⟨hhead, htail⟩ := he.cons
      -- The two heads are apart from both tails, so the swap of the heads and that of the tails
      -- do not meet.
      have hperm : (a₀ :: as ++ b₀ :: bs).Perm (a₀ :: b₀ :: (as ++ bs)) :=
        (List.perm_middle).cons a₀
      have hnd' := hperm.nodup_iff.mp hnd
      simp only [List.nodup_cons, List.mem_cons, not_or] at hnd'
      obtain ⟨⟨hab, ha⟩, hb, hrest⟩ := hnd'
      refine (swapHeaders_spec hhead).bind fun phv₁ h₁ ⟨hcontent, hrest₁⟩ => ?_
      refine (ih (htail.congr (swapHeaders_blank h₁)) hrest (by simpa using hlen)).mono
        fun phv' ⟨ihswap, ihout, ihrest⟩ => ?_
      have hswap : ∀ g, g ≠ a₀ → g ≠ b₀ → phv₁.content g = phv.content g := fun g hga hgb => by
        rw [hcontent, Equiv.swap_apply_of_ne_of_ne hga hgb]
      refine ⟨fun i a b hia hib => ?_, fun g hg => ?_, by rw [ihrest, hrest₁]⟩
      · cases i with
        | zero =>
          obtain rfl : a₀ = a := by simpa using hia
          obtain rfl : b₀ = b := by simpa using hib
          rw [ihout _ ha, ihout _ hb, hcontent, hcontent, Equiv.swap_apply_left,
            Equiv.swap_apply_right]
          exact ⟨rfl, rfl⟩
        | succ i =>
          rw [List.getElem?_cons_succ] at hia hib
          have hmem : a ∈ as ++ bs := List.mem_append_left _ (List.mem_of_getElem? hia)
          have hmem' : b ∈ as ++ bs := List.mem_append_right _ (List.mem_of_getElem? hib)
          obtain ⟨h₁, h₂⟩ := ihswap i a b hia hib
          rw [h₁, h₂, hswap a (by rintro rfl; exact ha hmem) (by rintro rfl; exact hb hmem),
            hswap b (by rintro rfl; exact ha hmem') (by rintro rfl; exact hb hmem')]
          exact ⟨rfl, rfl⟩
      · rw [hperm.mem_iff] at hg
        simp only [List.mem_cons, not_or] at hg
        rw [ihout g hg.2.2, hswap g hg.1 hg.2.1]

/-- An exchange of headers with themselves. -/
theorem swapMembers_self {as : List ℕ} (he : phv.ExchangeableLists as as) :
    Returns (phv.swapMembers as as) fun phv' =>
      (∀ g, phv'.content g = phv.content g) ∧ phv' = { phv with headers := phv'.headers } := by
  induction as generalizing phv with
  | nil => exact .ok ⟨fun _ => rfl, rfl⟩
  | cons a as ih =>
    obtain ⟨hhead, htail⟩ := he.cons
    refine (swapHeaders_spec hhead).bind fun phv₁ h₁ ⟨hcontent, hrest₁⟩ => ?_
    refine (ih (htail.congr (swapHeaders_blank h₁))).mono fun phv' ⟨ihcontent, ihrest⟩ => ?_
    refine ⟨fun g => ?_, by rw [ihrest, hrest₁]⟩
    rw [ihcontent, hcontent, Equiv.swap_self, Equiv.refl_apply]

end Phv

end P4Bricks
