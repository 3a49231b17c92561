import P4Bricks.Phv.Helpers.Reset
/-!
# Copies, and the sizes of headers

A copy of headers between header vectors of one program takes a header that is
valid or metadata as it is, and leaves the others. In every state of a
program's header vectors each header is as long as its fields make it.
-/

namespace P4Bricks

open Parsing

/-! ## Copies -/

namespace Field

variable {f g : Field}

theorem copyValue_eq (h : f.blank = g.blank) : f.copyValue g = g := by
  have heq := eq_of_blank h
  have hvl := isVL_congr h
  cases hf : f.isVL with
  | true =>
    obtain ⟨m, hm⟩ := Option.isSome_iff_exists.mp hf
    obtain ⟨n, hn⟩ := Option.isSome_iff_exists.mp (hvl.symm.trans hf)
    have hmask : g.mask = n := by rw [mask, hn, Option.getD_some]
    rw [copyValue, if_pos hf, hm, Option.map_some, hmask, ← hn]
    exact heq.symm
  | false =>
    have hnone : f.vlMask = none := by simpa [isVL] using hf
    have hnbits := nbits_congr h (by simp [hf])
    have hmask := vlMask_congr h (by simp [hf])
    rw [copyValue, if_neg (by simp [hf]), hnone, Option.map_none, hnbits, ← hnone, hmask]
    exact heq.symm

end Field

namespace Header

variable {x y : Header}

theorem copyFieldsFrom_eq {fs gs : List Field} (h : fs.map Field.blank = gs.map Field.blank) :
    copyFieldsFrom fs gs = .ok gs := by
  induction fs generalizing gs with
  | nil =>
    obtain rfl : gs = [] := by simpa using h.symm
    rfl
  | cons f fs ih =>
    cases gs with
    | nil => simp at h
    | cons g gs =>
      rw [List.map_cons, List.map_cons, List.cons.injEq] at h
      rw [copyFieldsFrom, ih h.2, ok_bind, Field.copyValue_eq h.1]

/-- Two headers of one layout differ in their contents only. -/
theorem eq_of_blank (h : x.blank = y.blank) :
    y = { x with fields := y.fields, valid := y.valid, nbytesPacket := y.nbytesPacket } := by
  simp only [blank, Header.mk.injEq] at h
  obtain ⟨htype, -, -, hmeta, -, hunion⟩ := h
  rw [htype, hmeta, hunion]

/-- **One header is copied.** -/
theorem copyFrom_eq (h : x.blank = y.blank) :
    x.copyFrom y = .ok (if y.isValid then y else { x with valid := false }) := by
  have heq := eq_of_blank h
  have hmeta : x.metadata = y.metadata := by rw [heq]
  have hvalid : y.isValid = (y.valid || y.metadata) := by rw [isValid, Bool.or_comm]
  rw [copyFrom, hvalid]
  by_cases hv : (y.valid || y.metadata) = true
  · rw [if_pos hv, if_pos hv, copyFields, copyFieldsFrom_eq (congrArg Header.fields h), ok_bind]
    refine congrArg Except.ok ?_
    rw [← hmeta]
    exact heq.symm
  · rw [if_neg hv, if_neg hv]
    simp only [Bool.or_eq_true, not_or, Bool.not_eq_true] at hv
    rw [hv.1, ← hmeta]

end Header

namespace Phv

variable {phv phv' src : Phv}

theorem copyHeaderList_eq {hs gs : List Header} (h : hs.map Header.blank = gs.map Header.blank) :
    copyHeaderList hs gs =
      .ok (List.zipWith (fun x y => if y.isValid then y else { x with valid := false }) hs gs) := by
  induction hs generalizing gs with
  | nil => rfl
  | cons x hs ih =>
    cases gs with
    | nil => simp at h
    | cons y gs =>
      rw [List.map_cons, List.map_cons, List.cons.injEq] at h
      rw [copyHeaderList, Header.copyFrom_eq h.1, ok_bind, ih h.2, ok_bind, List.zipWith_cons_cons]

/-- **What `copy_headers` does** between header vectors of one program: only
headers change, and each that is valid in the source becomes what it is
there. -/
theorem copyHeaders_spec (h : phv.SameLayout src) :
    Returns (phv.copyHeaders src) fun phv' => phv' = { phv with headers := phv'.headers } ∧
      ∀ (g : ℕ) (x y : Header), phv.headers[g]? = some x → src.headers[g]? = some y →
        phv'.headers[g]? = some (if y.isValid then y else { x with valid := false }) := by
  unfold copyHeaders
  rw [copyHeaderList_eq (congrArg Phv.headers h)]
  refine .ok ⟨rfl, fun g x y hx hy => ?_⟩
  rw [List.getElem?_zipWith, hx, hy]

end Phv

/-! ## Sizes -/

namespace Header

variable {x y z : Header}

theorem contents_nbits (x : Header) : x.contents.nbits = x.nbits := by
  rw [nbits, nbits, packetFields, packetFields, contents, List.takeWhile_map, List.map_map]
  rfl

/-- A header that holds what another one held. -/
theorem Sized.of_contents (hx : x.Sized) (hy : y.Sized) (hb : z.blank = x.blank)
    (hc : z.contents = y.contents) : z.Sized := by
  refine hx.of_kinds (kinds_congr (fields_blank hb)) ?_
  have hbytes := congrArg Header.nbytesPacket hc
  have hbits := congrArg Header.nbits hc
  rw [contents_nbits, contents_nbits] at hbits
  rw [hbits, hy.bytes]
  exact congrArg (8 * ·) hbytes.symm

end Header

namespace Phv

variable {phv phv' : Phv}

theorem Sized.swapHeaders (hs : phv.Sized) {a b : ℕ} (he : phv.Exchangeable a b)
    (h : phv.swapHeaders a b = .ok phv') : phv'.Sized := by
  intro z hz
  obtain ⟨g, hg⟩ := List.mem_iff_getElem?.mp hz
  have hcontent := ((swapHeaders_spec he).of_ok h).1 g
  obtain ⟨x, hx, hb⟩ := exists_header (swapHeaders_blank h).symm hg
  rw [content, content, hg, Option.map_some] at hcontent
  obtain ⟨y, hy, hyz⟩ := Option.map_eq_some_iff.mp hcontent.symm
  exact (hs x (List.mem_of_getElem? hx)).of_contents (hs y (List.mem_of_getElem? hy)) hb.symm hyz.symm

theorem Sized.swapMembers (hs : phv.Sized) {as bs : List ℕ} (he : phv.ExchangeableLists as bs)
    (h : phv.swapMembers as bs = .ok phv') : phv'.Sized := by
  induction as generalizing phv bs with
  | nil =>
    cases h
    exact hs
  | cons a as ih =>
    cases bs with
    | nil => cases h
    | cons b bs =>
      obtain ⟨phv₁, h₁, h⟩ := bind_eq_ok h
      obtain ⟨hhead, htail⟩ := he.cons
      exact ih (hs.swapHeaders hhead h₁) (htail.congr (swapHeaders_blank h₁)) h

theorem Sized.swapUnions (hs : phv.Sized) {u v : ℕ} (he : phv.ExchangeableUnions u v)
    (h : phv.swapUnions u v = .ok phv') : phv'.Sized := by
  obtain ⟨un, un', hun, hun', -, hlists⟩ := he
  unfold Phv.swapUnions at h
  rw [hun, hun', required_some, required_some, ok_bind, ok_bind] at h
  split at h
  · cases h
  · refine Sized.swapMembers ?_ ?_ h
    · exact hs
    · exact hlists

/-- **Every effect keeps the sizes.** -/
theorem Effect.sized (he : phv.Effect phv') (hs : phv.Sized) : phv'.Sized := by
  cases he with
  | @write h hdr hdr' hh hw =>
    intro z hz
    obtain ⟨g, hg⟩ := List.mem_iff_getElem?.mp hz
    rw [modifyHeader, List.getElem?_modify] at hg
    obtain ⟨x, hx, hxz⟩ := Option.map_eq_some_iff.mp hg
    split at hxz
    · next heq =>
      subst heq hxz
      obtain rfl := Option.some.inj (hx.symm.trans hh)
      exact hw.sized (hs x (List.mem_of_getElem? hx))
    · obtain rfl : x = z := hxz
      exact hs x (List.mem_of_getElem? hx)
  | markValid h => exact hs.congr (phv.markValid_sizes h)
  | markInvalid h => exact hs.congr (phv.markInvalid_sizes h)
  | swapHeaders h he _ _ => exact hs.swapHeaders he h
  | swapUnions h he => exact hs.swapUnions he h
  | counts sts sts' _ _ => exact hs

end Phv

/-! ## New headers -/

namespace HeaderDesc

theorem create_field (desc : HeaderDesc) {i : ℕ} {f : Field} (hf : desc.create.fields[i]? = some f) :
    ∃ fi, desc.headerType.allFields[i]? = some fi ∧
      f = Field.ofInfo (decide (i ∈ desc.arithOffsets)) fi := by
  simp only [create, List.getElem?_mapIdx] at hf
  obtain ⟨fi, hfi, rfl⟩ := Option.map_eq_some_iff.mp hf
  exact ⟨fi, hfi, rfl⟩

theorem create_kinds (desc : HeaderDesc) : (desc.create.fields.map fun f => (f.hidden, f.isVL)) =
    desc.headerType.allFields.map fun fi => (fi.isHidden, fi.isVL) := by
  refine List.ext_getElem? fun i => ?_
  simp only [create, List.getElem?_map, List.getElem?_mapIdx, Option.map_map]
  congr 1
  funext fi
  cases hfi : fi.isVL <;> simp [Field.ofInfo, Field.isVL, hfi]

/-- Only the last field of a new header is hidden. -/
theorem create_hidden (desc : HeaderDesc) {i : ℕ} {f : Field}
    (hf : desc.create.fields[i]? = some f) : f.hidden = true ↔ i = desc.create.validOffset := by
  obtain ⟨fi, hfi, rfl⟩ := desc.create_field hf
  have hlen : desc.create.validOffset = desc.headerType.fieldsInfo.length := by
    simp [Header.validOffset, create, HeaderType.allFields]
  rw [hlen]
  change fi.isHidden = true ↔ _
  rcases Nat.lt_trichotomy i desc.headerType.fieldsInfo.length with hlt | rfl | hgt
  · rw [HeaderType.allFields, List.getElem?_append_left hlt] at hfi
    have hnot := desc.headerType.notHidden fi (List.mem_of_getElem? hfi)
    simp [hnot, hlt.ne]
  · simp only [HeaderType.allFields, List.getElem?_concat_length, Option.some.injEq] at hfi
    simp [← hfi, HeaderType.hiddenInfo]
  · rw [HeaderType.allFields, List.getElem?_eq_none (by simp; omega)] at hfi
    cases hfi

theorem create_fixed (desc : HeaderDesc) {i : ℕ} {f : Field}
    (hf : desc.create.fields[i]? = some f) (hhid : f.hidden = true) : ¬f.isVL := by
  obtain ⟨fi, hfi, rfl⟩ := desc.create_field hf
  replace hhid : fi.isHidden = true := hhid
  rcases List.mem_append.mp (List.mem_of_getElem? hfi) with hmem | hmem
  · rw [desc.headerType.notHidden fi hmem] at hhid
    cases hhid
  · rw [List.mem_singleton.mp hmem]
    simp [Field.ofInfo, Field.isVL, HeaderType.hiddenInfo]

theorem create_vl (desc : HeaderDesc) {i : ℕ} {f : Field} (hf : desc.create.fields[i]? = some f)
    (hvl : f.isVL = true) : f.nbits = 0 := by
  obtain ⟨fi, hfi, rfl⟩ := desc.create_field hf
  have hfvl : fi.isVL = true := by
    by_contra hn
    simp [Field.ofInfo, Field.isVL, hn] at hvl
  rcases List.mem_append.mp (List.mem_of_getElem? hfi) with hmem | hmem
  · exact (desc.headerType.vlEmpty fi hmem hfvl).1
  · rw [List.mem_singleton.mp hmem] at hfvl
    cases hfvl

theorem create_nbits (desc : HeaderDesc) :
    desc.create.nbits = (desc.headerType.fieldsInfo.map FInfo.bitwidth).sum := by
  rw [← PhvFactory.nbits_create, Header.nbits, Header.nbits, Header.packetFields, Header.packetFields,
    Header.blank, List.takeWhile_map, List.map_map]
  refine congrArg List.sum (List.map_congr_left fun f hf => ?_)
  have hmem := (List.takeWhile_sublist _).subset hf
  obtain ⟨i, hi⟩ := List.mem_iff_getElem?.mp hmem
  rw [Function.comp_apply, Field.blank]
  split
  · exact desc.create_vl hi ‹_›
  · rfl

/-- **A new header is as long as its fields.** -/
theorem create_sized (desc : HeaderDesc) : desc.create.Sized where
  bytes := by
    have hwhole := desc.headerType.wholeBytes
    rw [create_nbits]
    simp only [create]
    omega
  oneVL := by
    have hkinds := desc.create_kinds
    rw [← List.pairwise_map (f := fun f : Field => (f.hidden, f.isVL)) (R := fun s t => s.2 → ¬t.2),
      hkinds, List.pairwise_map, HeaderType.allFields, List.pairwise_append]
    refine ⟨desc.headerType.oneVL, List.pairwise_singleton _ _, fun fi _ fi' hfi' _ => ?_⟩
    rw [List.mem_singleton.mp hfi']
    simp [HeaderType.hiddenInfo]
  hiddenLast := by
    rw [List.pairwise_iff_getElem]
    intro i j hi hj hij hhid
    have hlast := (desc.create_hidden (List.getElem?_eq_getElem hi)).mp hhid
    rw [Header.validOffset] at hlast
    omega
  hiddenFixed f hf hhid := by
    obtain ⟨i, hi⟩ := List.mem_iff_getElem?.mp hf
    exact desc.create_fixed hi hhid
  validHidden f hf := (desc.create_hidden hf).mpr rfl

end HeaderDesc

theorem PhvFactory.create_sized {F : PhvFactory} (hF : F.WellFormed) : F.create.Sized := by
  intro hdr hhdr
  obtain ⟨h, hh⟩ := List.mem_iff_getElem?.mp hhdr
  obtain ⟨desc, -, heq⟩ := create_header hF hh
  have hsized := desc.create_sized
  rw [← heq] at hsized
  exact ⟨hsized.bytes, hsized.oneVL, hsized.hiddenLast, hsized.hiddenFixed, hsized.validHidden⟩

/-- **Every state of a program's header vectors** has the sizes right. -/
theorem PhvFactory.Reaches.sized {F : PhvFactory} (hF : F.WellFormed) {phv : Phv}
    (h : F.Reaches phv) : phv.Sized := by
  induction h with
  | create => exact create_sized hF
  | @op p p' op hp hop ih =>
    have harranged := (create_arranged hF).congr (hp.layout hF).1
    exact (Phv.Op.effects harranged hop).induct harranged (fun _ _ _ he hs => he.sized hs) ih
  | @copyHeaders p p' src hp hsrc hcopy ih ihs =>
    have hlayout : p.SameLayout src := (hp.layout hF).1.trans (hsrc.layout hF).1.symm
    intro z hz
    obtain ⟨g, hg⟩ := List.mem_iff_getElem?.mp hz
    obtain ⟨x, hx, -⟩ := Phv.exists_header (Phv.copyHeaders_blank hcopy hlayout).symm hg
    obtain ⟨y, hy, -⟩ := Phv.exists_header hlayout.symm hx
    have hnew := ((Phv.copyHeaders_spec hlayout).of_ok hcopy).2 g x y hx hy
    obtain rfl := Option.some.inj (hg.symm.trans hnew)
    split
    · exact ihs y (List.mem_of_getElem? hy)
    · exact (ih x (List.mem_of_getElem? hx)).congr rfl

end P4Bricks
