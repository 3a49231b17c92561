import Mathlib.Logic.Relation
import P4Bricks.Parser.Helpers.Reads
import P4Bricks.Phv.Arrangement
import P4Bricks.Phv.History
/-!
# What an operation can do

Every operation on a header vector is a sequence of effects, of six kinds: a
header gets new contents, a header is marked valid or invalid, two headers or
two unions change places, and a stack gets a new count. What the effects keep,
every operation keeps.
-/

namespace P4Bricks

open Parsing

/-! ## New contents for a header -/

/-- A header with other contents: the layout and the flag stay, and so does a
size that is that of the fields. -/
structure Header.Rewritten (hdr hdr' : Header) : Prop where
  blank : hdr'.blank = hdr.blank
  valid : hdr'.valid = hdr.valid
  sized : hdr.Sized → hdr'.Sized

namespace Field

variable {f f' : Field} {data : ByteContainer} {off : ℕ}

theorem blank_nbits_of_zero (h : f.nbits = 0) : f.blank.nbits = 0 := by
  simp [blank, h]

/-- An extraction writes contents only, into a field of fixed width -/
theorem extract_blank (h : f.extract data off = .ok f') : f'.blank = f.blank := by
  obtain ⟨bytes, -, h⟩ := bind_eq_ok h
  cases h
  split <;> rfl

/-- and into one of variable length. -/
theorem extractVL_blank {n : ℤ} (h : f.extractVL data off n = .ok f') (hvl : f.isVL) :
    f'.blank = f.blank := by
  unfold extractVL at h
  split_ifs at h
  · obtain ⟨m, hm⟩ := Option.isSome_iff_exists.mp hvl
    rw [extract_blank h]
    simp [blank, isVL, hm]

end Field

namespace Header

variable {hdr hdr' : Header}

/-- What a blank says of the kinds of the fields. -/
theorem kinds_congr {fs gs : List Field} (h : fs.map Field.blank = gs.map Field.blank) :
    (fs.map fun f => (f.hidden, f.isVL)) = gs.map fun f => (f.hidden, f.isVL) := by
  have hk := congrArg (List.map fun f : Field => (f.hidden, f.isVL)) h
  rw [List.map_map, List.map_map] at hk
  have hcomp : ((fun f : Field => (f.hidden, f.isVL)) ∘ Field.blank) = fun f => (f.hidden, f.isVL) := by
    funext f
    rw [Function.comp_apply, f.isVL_blank]
    rfl
  rwa [hcomp] at hk

theorem fields_blank (h : hdr'.blank = hdr.blank) :
    hdr'.fields.map Field.blank = hdr.fields.map Field.blank := congrArg Header.fields h

/-- New fields of the same widths. -/
theorem Rewritten.of_sizes (hb : hdr'.blank = hdr.blank) (hv : hdr'.valid = hdr.valid)
    (hs : hdr'.sizes = hdr.sizes) : hdr.Rewritten hdr' :=
  ⟨hb, hv, fun h => h.congr hs⟩

/-- New fields, one of which may have another width. -/
theorem Rewritten.of_recompute {fields : List Field}
    (hb : fields.map Field.blank = hdr.fields.map Field.blank)
    (hx : { hdr with fields := fields }.recomputeNbytesPacket = .ok hdr') : hdr.Rewritten hdr' := by
  have heq := recompute_blank hx
  refine ⟨?_, by rw [heq], fun hs => ?_⟩
  · rw [heq]
    simp only [Header.blank, hb]
  · have hkinds : (({ hdr with fields := fields } : Header).fields.map fun f => (f.hidden, f.isVL)) =
        hdr.fields.map fun f => (f.hidden, f.isVL) := kinds_congr hb
    exact ((hs.recompute hkinds).of_ok hx).1

/-- The fields of a header are extracted in order, each keeping its layout. -/
theorem extractFields_blank {vlFn : List Field → Except Stop ℤ} {data : ByteContainer} {off : ℕ}
    {done todo fields : List Field} (h : extractFields vlFn data off done todo = .ok fields) :
    fields.map Field.blank = (done ++ todo).map Field.blank := by
  induction todo generalizing data off done with
  | nil =>
    cases h
    rw [List.append_nil]
  | cons f todo ih =>
    rw [extractFields] at h
    split at h
    · cases h
      rfl
    · obtain ⟨f', hf', h⟩ := bind_eq_ok h
      have hblank : f'.blank = f.blank := by
        unfold extractField at hf'
        split at hf'
        · obtain ⟨n, -, hf'⟩ := bind_eq_ok hf'
          exact Field.extractVL_blank hf' ‹_›
        · exact Field.extract_blank hf'
      rw [ih h]
      simp [hblank]

/-- Without a field of variable length, the widths stay. -/
theorem sizes_of_blank {fs gs : List Field} (h : fs.map Field.blank = gs.map Field.blank)
    (hfix : ∀ g ∈ gs, ¬g.isVL) : fs.map Field.size = gs.map Field.size := by
  induction fs generalizing gs with
  | nil => cases gs with
    | nil => rfl
    | cons g gs => cases h
  | cons f fs ih => cases gs with
    | nil => cases h
    | cons g gs =>
      simp only [List.map_cons, List.cons.injEq] at h
      have hg := hfix g List.mem_cons_self
      have hvl := Field.isVL_congr h.1
      have hn := Field.nbits_congr h.1 (by rwa [hvl])
      have hhid : f.blank.hidden = g.blank.hidden := by rw [h.1]
      rw [List.map_cons, List.map_cons, ih h.2 fun g' hg' => hfix g' (List.mem_cons_of_mem _ hg')]
      congr 1
      exact Prod.ext hn (Prod.ext hhid hvl)

/-- A header without a variable field is rewritten by its extraction, -/
theorem extractFixed_rewritten {data : ByteContainer} (h : hdr.extractFixed data = .ok hdr')
    (hvl : ¬hdr.isVLHeader) : hdr.Rewritten hdr' := by
  obtain ⟨fields, hfields, h⟩ := bind_eq_ok h
  cases h
  have hblank := extractFields_blank hfields
  rw [List.nil_append] at hblank
  refine .of_sizes (by simp only [Header.blank, hblank]) rfl (Prod.ext rfl ?_)
  refine sizes_of_blank hblank fun g hg => ?_
  simp only [isVLHeader, List.any_eq_true, not_exists, not_and] at hvl
  exact hvl g hg

/-- and so is one with such a field, whose size then is the new one. -/
theorem extractVLCommon_rewritten {vlFn : List Field → Except Stop ℤ} {data : ByteContainer}
    (h : hdr.extractVLCommon vlFn data = .ok hdr') : hdr.Rewritten hdr' := by
  obtain ⟨fields, hfields, h⟩ := bind_eq_ok h
  have hblank := extractFields_blank hfields
  rw [List.nil_append] at hblank
  exact .of_recompute hblank h

theorem isVLHeader_congr {fs : List Field} (h : fs.map Field.blank = hdr.fields.map Field.blank) :
    { hdr with fields := fs }.isVLHeader = hdr.isVLHeader := by
  have hk := congrArg (List.map Prod.snd) (kinds_congr h)
  simp only [List.map_map, Function.comp_def] at hk
  have hany := congrArg (List.any · id) hk
  rwa [List.any_map, List.any_map] at hany

/-- An assignment of a header rewrites it, -/
theorem assignFrom_rewritten {src : Header} (h : hdr.assignFrom src = .ok hdr') :
    hdr.Rewritten hdr' := by
  unfold assignFrom at h
  split at h
  · cases h
  · obtain ⟨fields, hfields, h⟩ := bind_eq_ok h
    have hblank := assignFields_blank hfields
    dsimp only at h
    split at h
    · exact .of_recompute hblank h
    · next hvl =>
      cases h
      rw [isVLHeader_congr hblank] at hvl
      refine .of_sizes (by simp only [Header.blank, hblank]) rfl (Prod.ext rfl ?_)
      refine sizes_of_blank hblank fun g hg => ?_
      simp only [isVLHeader, List.any_eq_true, not_exists, not_and] at hvl
      exact hvl g hg

theorem resetVLHeader_valid (hdr : Header) : hdr.resetVLHeader.valid = hdr.valid := by
  unfold resetVLHeader
  split <;> rfl

/-- The bits that are left when the variable field has none. -/
theorem blank_nbits (hdr : Header) : hdr.blank.nbits = (hdr.vlWidths 0).sum := by
  rw [nbits, packetFields, blank, List.takeWhile_map, List.map_map, vlWidths, packetFields]
  rfl

/-- The variable field of a header is the one after the fixed prefix. -/
theorem find?_isVL {f : Field} {post : List Field}
    (hcut : hdr.fields = hdr.fixedPrefix ++ f :: post) (hf : f.isVL)
    (hpre : ∀ g ∈ hdr.fixedPrefix, ¬g.isVL ∧ ¬g.hidden) : hdr.fields.find? Field.isVL = some f := by
  rw [hcut, List.find?_append, List.find?_eq_none.mpr fun g hg => (hpre g hg).1, Option.none_or,
    List.find?_cons_of_pos hf]

/-- **A header that loses its variable field is as long as the others
make it.** -/
theorem Sized.resetVLHeader (hs : hdr.Sized) (hw : hdr.blank.nbits % 8 = 0) :
    hdr.resetVLHeader.Sized ∧ 8 * hdr.resetVLHeader.nbytesPacket = hdr.blank.nbits := by
  by_cases hvl : hdr.isVLHeader
  · obtain ⟨f, post, hcut, -, hf, hvis, hpre, hpost⟩ := hs.split hvl
    have hfind := find?_isVL hcut hf hpre
    have hblank := hdr.resetVLHeader_blank
    have hsum : hdr.nbits = hdr.blank.nbits + f.nbits := by
      rw [blank_nbits, vlWidths_eq 0 hcut hf hvis hpre hpost, nbits,
        packetFields_eq hcut hvis hpre, List.map_append, List.sum_append, List.map_cons,
        List.sum_append, List.sum_cons, List.sum_cons, wireWidths]
      omega
    have hbytes := hs.bytes
    have hfbytes : f.nbytes = f.nbits / 8 := by
      rw [Field.nbytes]
      omega
    have hfields : hdr.resetVLHeader.fields = hdr.fields.map fun f => if f.isVL then f.resetVL else f := by
      simp only [Header.resetVLHeader, hfind]
    have hnbytes : hdr.resetVLHeader.nbytesPacket = hdr.nbytesPacket - f.nbytes := by
      simp only [Header.resetVLHeader, hfind]
    -- No field has bits that its blank has not.
    have hnbits : hdr.resetVLHeader.nbits = hdr.blank.nbits := by
      rw [← hblank, nbits, nbits, packetFields, packetFields, blank, List.takeWhile_map,
        List.map_map]
      refine congrArg List.sum (List.map_congr_left fun g hg => ?_)
      have hg' := (List.takeWhile_sublist _).subset hg
      rw [hfields, List.mem_map] at hg'
      obtain ⟨g₀, -, rfl⟩ := hg'
      rw [Function.comp_apply]
      split
      · exact (Field.blank_nbits_of_zero rfl).symm
      · next hg₀ => simp [Field.blank, hg₀]
    have hsize : 8 * hdr.resetVLHeader.nbytesPacket = hdr.blank.nbits := by
      rw [hnbytes, hfbytes]
      omega
    exact ⟨hs.of_kinds (kinds_congr (fields_blank hblank)) (by rw [hnbits, hsize]), hsize⟩
  · have hfix : ∀ f ∈ hdr.fields, ¬f.isVL := by
      simpa [isVLHeader] using hvl
    have heq : hdr.resetVLHeader = hdr := by
      simp only [Header.resetVLHeader, List.find?_eq_none.mpr hfix]
    rw [heq]
    refine ⟨hs, ?_⟩
    rw [← hs.bytes, blank_nbits, nbits, vlWidths]
    refine congrArg List.sum (List.map_congr_left fun f hf => ?_)
    exact (if_neg (hfix f ((List.takeWhile_sublist _).subset hf))).symm

/-- and so does a reset. -/
theorem reset_rewritten (hdr : Header) : hdr.Rewritten hdr.reset :=
  .of_sizes hdr.reset_blank rfl (Prod.ext rfl (by
    simp only [sizes, reset, List.map_map]
    rfl))

/-- A field gets another value of its width. -/
theorem modify_rewritten {offset : ℕ} {f f' : Field} (hf : hdr.fields[offset]? = some f)
    (hb : f'.blank = f.blank) (hs : f'.size = f.size) :
    hdr.Rewritten { hdr with fields := hdr.fields.modify offset fun _ => f' } := by
  refine .of_sizes ?_ rfl (Prod.ext rfl (map_modify_of_eq fun g hg => ?_))
  · have hfields : (hdr.fields.modify offset fun _ => f').map Field.blank =
        hdr.fields.map Field.blank := map_modify_of_eq fun g hg => by
      rw [hf] at hg
      cases hg
      exact hb
    simp only [Header.blank, hfields]
  · rw [hf] at hg
    cases hg
    exact hs

end Header

/-! ## Effects -/

namespace Phv

/-- What happens to a header vector in one piece. -/
inductive Effect (phv : Phv) : Phv → Prop where
  | write {h : ℕ} {hdr hdr' : Header} (hh : phv.headers[h]? = some hdr)
    (hw : hdr.Rewritten hdr') : Effect phv (phv.modifyHeader h fun _ => hdr')
  | markValid (h : ℕ) : Effect phv (phv.markValid h)
  | markInvalid (h : ℕ) : Effect phv (phv.markInvalid h)
  | swapHeaders {a b : ℕ} {phv' : Phv} (hs : phv.swapHeaders a b = .ok phv')
    (he : phv.Exchangeable a b) (ha : phv.memberOf a = none) (hb : phv.memberOf b = none) :
    Effect phv phv'
  | swapUnions {u v : ℕ} {phv' : Phv} (hs : phv.swapUnions u v = .ok phv')
    (he : phv.ExchangeableUnions u v) : Effect phv phv'
  | counts (sts sts' : List Stack)
    (hs : sts.map Stack.blank = phv.headerStacks.map Stack.blank)
    (hs' : sts'.map Stack.blank = phv.headerUnionStacks.map Stack.blank) :
    Effect phv { phv with headerStacks := sts, headerUnionStacks := sts' }

/-- A sequence of effects. -/
def Effects : Phv → Phv → Prop := Relation.ReflTransGen Effect

variable {phv phv' : Phv}

/-- One effect is a sequence of one. -/
theorem Effect.effects (he : phv.Effect phv') : Effects phv phv' := Relation.ReflTransGen.single he

/-- An effect keeps the layout, -/
theorem Effect.blank_eq (he : phv.Effect phv') : phv'.blank = phv.blank := by
  cases he with
  | write hh hw =>
    refine modifyHeader_blank fun hdr hhdr => ?_
    rw [hh] at hhdr
    cases hhdr
    exact hw.blank
  | markValid h => exact phv.markValid_blank h
  | markInvalid h => exact phv.markInvalid_blank h
  | swapHeaders hs _ _ _ => exact swapHeaders_blank hs
  | swapUnions hs _ => exact swapUnions_blank hs
  | counts sts sts' hs hs' => simp only [blank, hs, hs']

/-- and so does a sequence of them. -/
theorem Effects.blank_eq (he : Effects phv phv') : phv'.blank = phv.blank := by
  induction he with
  | refl => rfl
  | tail _ h ih => exact h.blank_eq.trans ih

/-- **The rule for invariants.** A property of arranged header vectors that
each effect keeps is kept by sequences of effects. -/
theorem Effects.induct {P : Phv → Prop} (ha : phv.Arranged) (he : Effects phv phv')
    (hstep : ∀ p p', p.Arranged → p.Effect p' → P p → P p') (hP : P phv) : P phv' := by
  induction he with
  | refl => exact hP
  | tail he h ih => exact hstep _ _ (ha.congr (Effects.blank_eq he)) h ih

/-! ## The primitives -/

/-- A header that is rewritten is one effect. -/
theorem Effects.write {h : ℕ} {hdr hdr' : Header} (hh : phv.headers[h]? = some hdr)
    (hw : hdr.Rewritten hdr') : Effects phv (phv.modifyHeader h fun _ => hdr') :=
  (Effect.write hh hw).effects

/-- A header that gets new contents and is marked valid. -/
theorem Effects.write_markValid {h : ℕ} {hdr hdr' : Header} (hh : phv.headers[h]? = some hdr)
    (hw : hdr.Rewritten hdr') : Effects phv ((phv.modifyHeader h fun _ => hdr').markValid h) :=
  (Effects.write hh hw).tail (.markValid h)

/-- A change of a header counts for the header that is there only. -/
theorem modifyHeader_eq {h : ℕ} {hdr : Header} {f : Header → Header}
    (hh : phv.headers[h]? = some hdr) : phv.modifyHeader h f = phv.modifyHeader h fun _ => f hdr := by
  have heq : phv.headers.modify h f = phv.headers.modify h fun _ => f hdr := by
    refine List.ext_getElem? fun j => ?_
    rw [List.getElem?_modify, List.getElem?_modify]
    by_cases hj : h = j
    · subst hj
      simp [hh]
    · simp [hj]
  simp only [modifyHeader, heq]

/-- A field put back with its layout and size rewrites its header, -/
theorem putField_effects {dst : ℕ × ℕ} {f f' : Field} (hf : phv.getField dst.1 dst.2 = some f)
    (hb : f'.blank = f.blank) (hs : f'.size = f.size) : Effects phv (Parsing.putField phv dst f') := by
  obtain ⟨hdr, hhdr, hfield⟩ := Option.bind_eq_some_iff.mp hf
  rw [Parsing.putField, modifyHeader_eq hhdr]
  exact .write hhdr (Header.modify_rewritten hfield hb hs)

/-- as a value that fits does, -/
theorem set_effects {dst : ℕ × ℕ} {f : Field} {v : ℤ} (hf : phv.getField dst.1 dst.2 = some f)
    {g : Field} (h : Parsing.required (f.set v) = .ok g) : Effects phv (Parsing.putField phv dst g) :=
  putField_effects hf (Field.set_blank (required_eq_ok h)) (Field.set_size (required_eq_ok h))

/-- and a variable field that is assigned another. -/
theorem assignVL_effects {dst : ℕ × ℕ} {f g : Field} (hf : phv.getField dst.1 dst.2 = some f)
    (hvl : f.isVL) (h : Parsing.assignVL phv dst f g = .ok phv') : Effects phv phv' := by
  obtain ⟨hdr, hhdr, hfield⟩ := Option.bind_eq_some_iff.mp hf
  obtain ⟨e, he, h⟩ := bind_eq_ok h
  have hput : (Parsing.putField phv dst e).headers[dst.1]? =
      some { hdr with fields := hdr.fields.modify dst.2 fun _ => e } := by
    rw [Parsing.putField, modifyHeader, List.getElem?_modify, hhdr]
    simp
  obtain ⟨hdr', hhdr', h⟩ := bind_eq_ok h
  obtain ⟨hdr'', hx, h⟩ := bind_eq_ok h
  cases h
  rw [required_eq_ok hhdr'] at hput
  cases hput
  have htwice : ((Parsing.putField phv dst e).modifyHeader dst.1 fun _ => hdr'') =
      phv.modifyHeader dst.1 fun _ => hdr'' := by
    rw [Parsing.putField, modifyHeader, modifyHeader, modifyHeader, List.modify_modify_eq]
    rfl
  rw [htwice]
  refine .write hhdr (.of_recompute (map_modify_of_eq fun f' hf' => ?_) hx)
  rw [Header.getField, hf'] at hfield
  cases hfield
  exact Field.assignVL_blank hvl (required_eq_ok he)

/-- The primitives on headers are sequences of effects: the assignment of a header, -/
theorem assignHeader_effects {dst src : ℕ} (h : phv.assignHeader dst src = .ok phv') :
    Effects phv phv' := by
  obtain ⟨y, hy, h⟩ := bind_eq_ok h
  obtain ⟨x, hx, h⟩ := bind_eq_ok h
  split at h
  · cases h
    exact (Effect.markInvalid dst).effects
  · obtain ⟨y₁, hy₁, h⟩ := bind_eq_ok h
    obtain ⟨x₁, hx₁, h⟩ := bind_eq_ok h
    obtain ⟨x', hx', h⟩ := bind_eq_ok h
    cases h
    exact (Effect.markValid dst).effects.trans
      (Effects.write (required_eq_ok hx₁) (Header.assignFrom_rewritten hx'))

/-- of the members of a union in order, -/
theorem assignMembers_effects {as bs : List ℕ} (h : phv.assignMembers as bs = .ok phv') :
    Effects phv phv' := by
  induction as generalizing phv bs with
  | nil =>
    cases h
    exact .refl
  | cons a as ih =>
    cases bs with
    | nil => cases h
    | cons b bs =>
      obtain ⟨phv₁, h₁, h⟩ := bind_eq_ok h
      exact (assignHeader_effects h₁).trans (ih h)

/-- of a union, -/
theorem assignUnion_effects {dst src : ℕ} (h : phv.assignUnion dst src = .ok phv') :
    Effects phv phv' := by
  obtain ⟨un, hun, h⟩ := bind_eq_ok h
  obtain ⟨un', hun', h⟩ := bind_eq_ok h
  split at h
  · cases h
  · exact assignMembers_effects h

/-- the one that makes a header valid, -/
theorem addHeader_effects {i : ℕ} (h : phv.addHeader i = .ok phv') : Effects phv phv' := by
  obtain ⟨hdr, hhdr, h⟩ := bind_eq_ok h
  split at h
  · cases h
    exact .refl
  · cases h
    rw [modifyHeader_eq (required_eq_ok hhdr)]
    exact .write_markValid (required_eq_ok hhdr) hdr.reset_rewritten

/-- the one that makes it invalid, -/
theorem removeHeader_effects {i : ℕ} (h : phv.removeHeader i = .ok phv') : Effects phv phv' := by
  obtain ⟨hdr, hhdr, h⟩ := bind_eq_ok h
  split at h
  · cases h
    exact (Effect.markInvalid i).effects
  · cases h
    exact .refl

/-! ## Resets -/

/-- and the reset of the metadata. -/
theorem resetMetadata_effects (phv : Phv) : Effects phv phv.resetMetadata := by
  -- The headers are reset from the first on.
  have hstep : ∀ n, Effects phv { phv with
      headers := phv.headers.mapIdx fun i h => if i < n ∧ h.metadata then h.reset else h } := by
    intro n
    induction n with
    | zero =>
      have heq : phv.headers.mapIdx (fun i h => if i < 0 ∧ h.metadata then h.reset else h) =
          phv.headers := by
        refine List.ext_getElem? fun j => ?_
        simp [List.getElem?_mapIdx]
      rw [heq]
      exact .refl
    | succ n ih =>
      cases hh : phv.headers[n]? with
      | none =>
        have hlen : phv.headers.length ≤ n := List.getElem?_eq_none_iff.mp hh
        have heq : phv.headers.mapIdx (fun i h => if i < n + 1 ∧ h.metadata then h.reset else h) =
            phv.headers.mapIdx fun i h => if i < n ∧ h.metadata then h.reset else h := by
          refine List.mapIdx_eq_mapIdx_iff.mpr fun i hi => ?_
          simp [show i < n + 1 ↔ i < n by omega]
        rw [heq]
        exact ih
      | some hdr =>
        refine ih.trans ?_
        have hat : (phv.headers.mapIdx fun i h => if i < n ∧ h.metadata then h.reset else h)[n]? =
            some hdr := by simp [List.getElem?_mapIdx, hh]
        have hw : hdr.Rewritten (if hdr.metadata then hdr.reset else hdr) := by
          split
          · exact hdr.reset_rewritten
          · exact .of_sizes rfl rfl rfl
        refine (congrArg (Effects _) ?_).mp (Effects.write hat hw)
        simp only [modifyHeader, Phv.mk.injEq, and_true]
        refine List.ext_getElem? fun j => ?_
        simp only [List.getElem?_modify, List.getElem?_mapIdx]
        rcases Nat.lt_trichotomy j n with hlt | rfl | hgt
        · simp [show ¬n = j by omega, show j < n + 1 by omega, hlt]
        · simp [hh]
        · simp [show ¬n = j by omega, show ¬j < n by omega, show ¬j < n + 1 by omega]
  refine (congrArg (Effects _) ?_).mp (hstep phv.headers.length)
  simp only [resetMetadata, Phv.mk.injEq, and_true]
  refine List.ext_getElem? fun j => ?_
  simp only [List.getElem?_mapIdx, List.getElem?_map]
  cases hj : phv.headers[j]? with
  | none => rfl
  | some hdr =>
    have := (List.getElem?_eq_some_iff.mp hj).1
    simp [this]

/-- Headers of one layout keep whole bytes beside the variable field. -/
theorem whole_congr (hwhole : ∀ hdr ∈ phv.headers, hdr.blank.nbits % 8 = 0)
    (hb : phv'.blank = phv.blank) : ∀ hdr ∈ phv'.headers, hdr.blank.nbits % 8 = 0 := by
  intro hdr hhdr
  obtain ⟨h, hh⟩ := List.mem_iff_getElem?.mp hhdr
  obtain ⟨hdr', hh', heq⟩ := exists_header hb.symm hh
  exact heq ▸ hwhole hdr' (List.mem_of_getElem? hh')

/-- A header of whole bytes is marked invalid and emptied, -/
theorem resetHeader_effects (hwhole : ∀ hdr ∈ phv.headers, hdr.blank.nbits % 8 = 0) (h : ℕ) :
    Effects phv ((phv.markInvalid h).modifyHeader h Header.resetVLHeader) := by
  refine (Effect.markInvalid h).effects.trans ?_
  cases hh : (phv.markInvalid h).headers[h]? with
  | none =>
    have heq : (phv.markInvalid h).modifyHeader h Header.resetVLHeader = phv.markInvalid h := by
      have hmod : (phv.markInvalid h).headers.modify h Header.resetVLHeader =
          (phv.markInvalid h).headers := by
        refine List.ext_getElem? fun j => ?_
        rw [List.getElem?_modify]
        by_cases hj : h = j
        · subst hj
          simp [hh]
        · simp [hj]
      simp only [modifyHeader, hmod]
    rw [heq]
  | some hdr =>
    rw [modifyHeader_eq hh]
    have hmod := whole_congr hwhole (phv.markInvalid_blank h) hdr (List.mem_of_getElem? hh)
    exact Effects.write hh ⟨hdr.resetVLHeader_blank, hdr.resetVLHeader_valid, fun hs =>
      (hs.resetVLHeader hmod).1⟩

/-- so that a reset of the vector is a sequence of effects, one header after another. -/
theorem reset_effects (hwhole : ∀ hdr ∈ phv.headers, hdr.blank.nbits % 8 = 0) :
    Effects phv phv.reset := by
  unfold reset
  generalize List.range phv.headers.length = hs
  induction hs generalizing phv with
  | nil => exact .refl
  | cons h hs ih =>
    have hfirst := resetHeader_effects hwhole h
    exact hfirst.trans (ih (whole_congr hwhole hfirst.blank_eq))

/-- The counts of stacks are reset to 0. -/
theorem resetHeaderStacks_effects (phv : Phv) : Effects phv phv.resetHeaderStacks := by
  have hall : ∀ sts : List Stack, (sts.map fun st => { st with next := 0 }).map Stack.blank =
      sts.map Stack.blank := fun sts => by
    rw [List.map_map]
    rfl
  exact (Effect.counts _ _ (hall _) (hall _)).effects

/-! ## Stacks -/

/-- A count that is set is one effect. -/
theorem setNext_effects (phv : Phv) (k : Stack.Kind) (s n : ℕ) :
    Effects phv (k.setNext phv s n) := by
  have hall : ∀ sts : List Stack, (sts.modify s fun st => { st with next := n }).map
      Stack.blank = sts.map Stack.blank := fun _ => map_modify_of_eq fun _ _ => rfl
  cases k with
  | header => exact (Effect.counts _ _ (hall _) rfl).effects
  | headerUnion => exact (Effect.counts _ _ rfl (hall _)).effects

/-- The elements of a stack, whatever its count. -/
def HasStack (phv : Phv) (k : Stack.Kind) (s : ℕ) (elements : List ℕ) : Prop :=
  ∃ st, (k.stacksOf phv)[s]? = some st ∧ st.elements = elements

/-- Which headers a stack has is layout. -/
theorem HasStack.congr {k : Stack.Kind} {s : ℕ} {elements : List ℕ}
    (hs : phv.HasStack k s elements) (hb : phv'.blank = phv.blank) : phv'.HasStack k s elements := by
  obtain ⟨st, hst, rfl⟩ := hs
  exact exists_stack hb k hst

/-- Two elements of a stack change places. -/
theorem swapAt_effects (ha : phv.Arranged) {k : Stack.Kind} {s i j : ℕ} {elements : List ℕ}
    (hs : phv.HasStack k s elements) (h : Stack.swapAt k elements i j phv = .ok phv') :
    Effects phv phv' := by
  obtain ⟨st, hst, rfl⟩ := hs
  obtain ⟨e, he, h⟩ := bind_eq_ok h
  obtain ⟨e', he', h⟩ := bind_eq_ok h
  have hmem := List.mem_of_getElem? (required_eq_ok he)
  have hmem' := List.mem_of_getElem? (required_eq_ok he')
  cases k with
  | header =>
    exact (Effect.swapHeaders h (ha.exchange s st hst e hmem e' hmem')
      (ha.free s st hst e hmem) (ha.free s st hst e' hmem')).effects
  | headerUnion =>
    exact (Effect.swapUnions h (ha.unions s st hst e hmem e' hmem')).effects

/-- The elements of a stack are swapped upwards -/
theorem shiftUp_effects (ha : phv.Arranged) {k : Stack.Kind} {s num n : ℕ} {elements : List ℕ}
    (hs : phv.HasStack k s elements) (h : Stack.shiftUp k elements num n phv = .ok phv') :
    Effects phv phv' := by
  induction n generalizing phv' with
  | zero =>
    cases h
    exact .refl
  | succ n ih =>
    obtain ⟨phv₁, h₁, h⟩ := bind_eq_ok h
    have hfirst := ih h₁
    exact hfirst.trans
      (swapAt_effects (ha.congr hfirst.blank_eq) (hs.congr hfirst.blank_eq) h)

/-- or downwards, pair by pair, -/
theorem shiftDown_effects (ha : phv.Arranged) {k : Stack.Kind} {s num n : ℕ} {elements : List ℕ}
    (hs : phv.HasStack k s elements) (h : Stack.shiftDown k elements num n phv = .ok phv') :
    Effects phv phv' := by
  induction n generalizing phv with
  | zero =>
    cases h
    exact .refl
  | succ n ih =>
    rw [Stack.shiftDown] at h
    split at h
    · obtain ⟨phv₁, h₁, h⟩ := bind_eq_ok h
      have hfirst := swapAt_effects ha hs h₁
      exact hfirst.trans (ih (ha.congr hfirst.blank_eq) (hs.congr hfirst.blank_eq) h)
    · cases h
      exact .refl

/-- and marked one after another, -/
theorem markFrom_effects {elements : List ℕ} {mark : Phv → ℕ → Phv} {first n : ℕ}
    (hmark : ∀ p e, Effects p (mark p e)) (h : Stack.markFrom elements mark first n phv = .ok phv') :
    Effects phv phv' := by
  induction n generalizing phv' with
  | zero =>
    cases h
    exact .refl
  | succ n ih =>
    obtain ⟨phv₁, h₁, h⟩ := bind_eq_ok h
    obtain ⟨e, he, h⟩ := bind_eq_ok h
    cases h
    exact (ih h₁).trans (hmark phv₁ e)

/-- valid -/
theorem kind_markValid_effects (k : Stack.Kind) (phv : Phv) (e : ℕ) :
    Effects phv (k.markValid phv e) := by
  cases k with
  | header => exact (Effect.markValid e).effects
  | headerUnion => exact .refl

/-- or invalid. -/
theorem kind_markInvalid_effects (k : Stack.Kind) (phv : Phv) (e : ℕ) :
    Effects phv (k.markInvalid phv e) := by
  cases k with
  | header => exact (Effect.markInvalid e).effects
  | headerUnion => exact .refl

/-- The state in which a shift starts: the count is new. -/
theorem setNext_stack (ha : phv.Arranged) {k : Stack.Kind} {s : ℕ} {st : Stack}
    (hst : (k.stacksOf phv)[s]? = some st) (n : ℕ) :
    Effects phv (k.setNext phv s n) ∧ (k.setNext phv s n).Arranged ∧
      (k.setNext phv s n).HasStack k s st.elements := by
  have hb := (phv.setNext_effects k s n).blank_eq
  exact ⟨phv.setNext_effects k s n, ha.congr hb, exists_stack hb k hst⟩

/-- Each operation of a stack is a shift, a sequence of marks and a new count. -/
theorem stack_effects (ha : phv.Arranged) {k : Stack.Kind} {s n : ℕ} {op : Stack.Op}
    (h : op.run k phv s = .ok (phv', n)) : Effects phv phv' := by
  cases op with
  | popFront =>
    obtain ⟨st, hst, h⟩ := bind_eq_ok h
    split at h
    · cases h
      exact .refl
    · obtain ⟨phv₁, h₁, h⟩ := bind_eq_ok h
      obtain ⟨e, he, h⟩ := bind_eq_ok h
      cases h
      obtain ⟨hset, ha', hs⟩ := setNext_stack ha (required_eq_ok hst) _
      -- A count, a shift, and the headers that were shifted in are marked invalid.
      exact (hset.trans (shiftUp_effects ha' hs h₁)).trans (kind_markInvalid_effects k phv₁ e)
  | popFrontN num =>
    obtain ⟨st, hst, h⟩ := bind_eq_ok h
    split at h
    · cases h
      exact .refl
    · obtain ⟨phv₁, h₁, h⟩ := bind_eq_ok h
      obtain ⟨phv₂, h₂, h⟩ := bind_eq_ok h
      cases h
      obtain ⟨hset, ha', hs⟩ := setNext_stack ha (required_eq_ok hst) _
      exact (hset.trans (shiftUp_effects ha' hs h₁)).trans
        (markFrom_effects (fun p e => kind_markInvalid_effects k p e) h₂)
  | pushFront =>
    obtain ⟨st, hst, h⟩ := bind_eq_ok h
    obtain ⟨phv₁, h₁, h⟩ := bind_eq_ok h
    obtain ⟨e, he, h⟩ := bind_eq_ok h
    cases h
    obtain ⟨hset, ha', hs⟩ := setNext_stack ha (required_eq_ok hst) _
    exact (hset.trans (shiftDown_effects ha' hs h₁)).trans (kind_markValid_effects k phv₁ e)
  | pushFrontN num =>
    obtain ⟨st, hst, h⟩ := bind_eq_ok h
    split at h
    · cases h
      exact .refl
    · obtain ⟨phv₁, h₁, h⟩ := bind_eq_ok h
      obtain ⟨phv₂, h₂, h⟩ := bind_eq_ok h
      cases h
      obtain ⟨hset, ha', hs⟩ := setNext_stack ha (required_eq_ok hst) _
      exact (hset.trans (shiftDown_effects ha' hs h₁)).trans
        (markFrom_effects (fun p e => kind_markValid_effects k p e) h₂)
  | popBack =>
    obtain ⟨st, hst, h⟩ := bind_eq_ok h
    split at h
    · cases h
      exact .refl
    · obtain ⟨e, he, h⟩ := bind_eq_ok h
      cases h
      exact (phv.setNext_effects k s _).trans (kind_markInvalid_effects k _ e)
  | pushBack =>
    obtain ⟨st, hst, h⟩ := bind_eq_ok h
    split at h
    · cases h
      exact .refl
    · obtain ⟨e, he, h⟩ := bind_eq_ok h
      cases h
      exact (kind_markValid_effects k phv e).trans (setNext_effects _ k s _)

/-! ## Parser ops -/

section

variable {ctx : Context} {pkt : Packet} {s s' : State}

/-- The parser's extraction of a header marks it valid and rewrites it, -/
theorem extractHeader_effects {registers : Registers} {h : ℕ} {data : ByteContainer}
    (hx : extractHeader ctx phv registers h data = .ok phv') : Effects phv phv' := by
  obtain ⟨hdr, hhdr, hx⟩ := bind_eq_ok hx
  obtain ⟨hdr', hhdr', hx⟩ := bind_eq_ok hx
  cases hx
  refine .write_markValid (required_eq_ok hhdr) ?_
  unfold extractFieldsOf at hhdr'
  split at hhdr'
  · exact Header.extractVLCommon_rewritten hhdr'
  · exact Header.extractFixed_rewritten hhdr' ‹_›

/-- also with the length given, -/
theorem extractHeaderVL_effects {h : ℕ} {data : ByteContainer} {nbits : ℤ}
    (hx : extractHeaderVL phv h data nbits = .ok phv') : Effects phv phv' := by
  obtain ⟨hdr, hhdr, hx⟩ := bind_eq_ok hx
  obtain ⟨hdr', hhdr', hx⟩ := bind_eq_ok hx
  cases hx
  exact .write_markValid (required_eq_ok hhdr) (Header.extractVLCommon_rewritten hhdr')

/-- when the packet has the bytes. -/
theorem extractChecked_effects {h : ℕ} (hx : extractChecked ctx pkt s h = .ok s') :
    Effects s.phv s'.phv := by
  obtain ⟨n, -, hx⟩ := bind_eq_ok hx
  obtain ⟨_, -, hx⟩ := bind_eq_ok hx
  obtain ⟨phv₁, h₁, hx⟩ := bind_eq_ok hx
  obtain ⟨n', -, hx⟩ := bind_eq_ok hx
  cases hx
  exact extractHeader_effects h₁

/-- A header pushed onto its stack is one mark and one count, -/
theorem pushBackHeader_effects (phv : Phv) (stack : ℕ) : Effects phv (pushBackHeader phv stack) := by
  unfold pushBackHeader
  split
  · exact .refl
  · next h _ =>
    -- The count is changed in a state in which the header is already valid.
    have hstacks : (phv.markValid h).headerStacks = phv.headerStacks :=
      markValid_keeps (P := fun p => p.headerStacks = phv.headerStacks) (fun _ _ _ hP => hP)
        (fun _ _ _ _ hP => hP) rfl
    refine (Effect.markValid h).effects.tail (.counts _ _ ?_ rfl)
    rw [hstacks]
    exact map_modify_of_eq fun _ _ => rfl

/-- and so is a union. -/
theorem pushBackUnion_effects (phv : Phv) (stack : ℕ) : Effects phv (pushBackUnion phv stack) :=
  (Effect.counts _ _ rfl (map_modify_of_eq fun st _ => by split <;> rfl)).effects

/-- An extraction with a given length changes the vector only after its three checks. -/
theorem runExtractVL_effects {h maxBytes : ℕ} {e : Expressions.Expression}
    (hx : ParserOp.runExtractVL ctx pkt s h e maxBytes = .ok s') : Effects s.phv s'.phv := by
  obtain ⟨hdr, hhdr, hx⟩ := bind_eq_ok hx
  split at hx
  · cases hx
  · obtain ⟨v, -, hx⟩ := bind_eq_ok hx
    dsimp only at hx
    split at hx
    · cases hx
    · obtain ⟨_, -, hx⟩ := bind_eq_ok hx
      split at hx
      · cases hx
      · obtain ⟨phv₁, h₁, hx⟩ := bind_eq_ok hx
        obtain ⟨n, -, hx⟩ := bind_eq_ok hx
        cases hx
        exact extractHeaderVL_effects h₁

/-- A header is extracted before its stack counts it, -/
theorem runExtractStack_effects {stack : ℕ} (hx : ParserOp.runExtractStack ctx pkt s stack = .ok s') :
    Effects s.phv s'.phv := by
  obtain ⟨st, -, hx⟩ := bind_eq_ok hx
  split at hx
  · cases hx
  · obtain ⟨h, -, hx⟩ := bind_eq_ok hx
    obtain ⟨s₁, h₁, hx⟩ := bind_eq_ok hx
    cases hx
    exact (extractChecked_effects h₁).trans (pushBackHeader_effects s₁.phv stack)

/-- and so is a member of a union. -/
theorem runExtractUnionStack_effects {stack offset : ℕ}
    (hx : ParserOp.runExtractUnionStack ctx pkt s stack offset = .ok s') : Effects s.phv s'.phv := by
  obtain ⟨st, -, hx⟩ := bind_eq_ok hx
  split at hx
  · cases hx
  · obtain ⟨u, -, hx⟩ := bind_eq_ok hx
    obtain ⟨un, -, hx⟩ := bind_eq_ok hx
    obtain ⟨h, -, hx⟩ := bind_eq_ok hx
    obtain ⟨s₁, h₁, hx⟩ := bind_eq_ok hx
    cases hx
    exact (extractChecked_effects h₁).trans (pushBackUnion_effects s₁.phv stack)

/-- A field of variable length is assigned from another one only. -/
theorem runSetField_effects {dst src : ℕ × ℕ} (hx : ParserOp.runSetField s dst src = .ok s') :
    Effects s.phv s'.phv := by
  obtain ⟨f, hf, hx⟩ := bind_eq_ok hx
  obtain ⟨g, hg, hx⟩ := bind_eq_ok hx
  split at hx
  · next hvl =>
    split at hx
    · obtain ⟨phv₁, h₁, hx⟩ := bind_eq_ok hx
      cases hx
      exact assignVL_effects (required_eq_ok hf) hvl h₁
    · cases hx
  · obtain ⟨e, he, hx⟩ := bind_eq_ok hx
    cases hx
    exact set_effects (required_eq_ok hf) he

/-- Bits looked ahead at are extracted into a field of their width, and set in any other. -/
theorem runSetLookahead_effects {dst : ℕ × ℕ} {src : ParserLookAhead}
    (hx : ParserOp.runSetLookahead pkt s dst src = .ok s') : Effects s.phv s'.phv := by
  obtain ⟨_, -, hx⟩ := bind_eq_ok hx
  obtain ⟨f, hf, hx⟩ := bind_eq_ok hx
  dsimp only at hx
  split at hx
  · obtain ⟨f', hf', hx⟩ := bind_eq_ok hx
    cases hx
    exact putField_effects (required_eq_ok hf) (Field.extract_blank hf') (Field.extract_size hf')
  · obtain ⟨bc, -, hx⟩ := bind_eq_ok hx
    obtain ⟨e, he, hx⟩ := bind_eq_ok hx
    cases hx
    exact set_effects (required_eq_ok hf) he

/-- Every operation of the parser, the calls of actions apart, is a sequence of effects, -/
theorem parserOp_effects {op : ParserOp} (hcall : ∀ action, op ≠ .methodCall action)
    (hx : op.run ctx pkt s = .ok s') : Effects s.phv s'.phv := by
  cases op with
  | extract h => exact extractChecked_effects hx
  | extractVL h e maxBytes => exact runExtractVL_effects hx
  | extractStack stack => exact runExtractStack_effects hx
  | extractUnionStack stack offset => exact runExtractUnionStack_effects hx
  | setField dst src => exact runSetField_effects hx
  | setData dst src =>
    obtain ⟨f, hf, hx⟩ := bind_eq_ok hx
    obtain ⟨e, he, hx⟩ := bind_eq_ok hx
    cases hx
    exact set_effects (required_eq_ok hf) he
  | setLookahead dst src => exact runSetLookahead_effects hx
  | setExpression dst src =>
    obtain ⟨f, hf, hx⟩ := bind_eq_ok hx
    obtain ⟨v, -, hx⟩ := bind_eq_ok hx
    obtain ⟨e, he, hx⟩ := bind_eq_ok hx
    cases hx
    exact set_effects (required_eq_ok hf) he
  | verify condition errorExpr =>
    obtain ⟨b, -, hx⟩ := bind_eq_ok hx
    split at hx
    · cases hx
      exact .refl
    · obtain ⟨v, -, hx⟩ := bind_eq_ok hx
      cases hx
  | methodCall action => exact absurd rfl (hcall action)
  | shift n =>
    obtain ⟨_, -, hx⟩ := bind_eq_ok hx
    cases hx
    exact .refl

end

/-! ## Operations -/

/-- **Every operation is a sequence of effects.** -/
theorem Op.effects (ha : phv.Arranged) {op : Op} (h : op.run phv = .ok phv') :
    Effects phv phv' := by
  cases op with
  | parse ctx pkt registers bytesParsed op =>
    -- The action of a method call is not an operation of the vector.
    by_cases hcall : ∃ action, op = .methodCall action
    · obtain ⟨action, rfl⟩ := hcall
      cases h
    · have hcall' : ∀ action, op ≠ .methodCall action := fun action heq => hcall ⟨action, heq⟩
      have h' : (op.run ctx pkt ⟨phv, registers, bytesParsed⟩ >>= fun s => .ok s.phv) = .ok phv' := by
        cases op <;> first | exact h | exact absurd rfl (hcall' _)
      obtain ⟨s, hs, h'⟩ := bind_eq_ok h'
      cases h'
      exact parserOp_effects hcall' hs
  | set dst v =>
    obtain ⟨f, hf, h⟩ := bind_eq_ok h
    obtain ⟨g, hg, h⟩ := bind_eq_ok h
    cases h
    exact set_effects (required_eq_ok hf) hg
  | assignVL dst src =>
    obtain ⟨f, hf, h⟩ := bind_eq_ok h
    obtain ⟨g, hg, h⟩ := bind_eq_ok h
    split at h
    · exact assignVL_effects (required_eq_ok hf) ‹_› h
    · cases h
  | markValid i =>
    cases h
    exact (Effect.markValid i).effects
  | markInvalid i =>
    cases h
    exact (Effect.markInvalid i).effects
  | addHeader i => exact addHeader_effects h
  | removeHeader i => exact removeHeader_effects h
  | assignHeader dst src => exact assignHeader_effects h
  | assignUnion dst src => exact assignUnion_effects h
  | stack k s op =>
    obtain ⟨⟨phv₁, n⟩, h₁, h⟩ := bind_eq_ok h
    cases h
    exact stack_effects ha h₁
  | reset =>
    cases h
    exact reset_effects ha.whole
  | resetHeaderStacks =>
    cases h
    exact phv.resetHeaderStacks_effects
  | resetMetadata =>
    cases h
    exact phv.resetMetadata_effects

/-- and so is every run of the operations of header vectors. -/
theorem run_effects (ha : phv.Arranged) {ops : List Op} (h : phv.run ops = .ok phv') :
    Effects phv phv' := by
  induction ops generalizing phv with
  | nil =>
    cases h
    exact .refl
  | cons op ops ih =>
    obtain ⟨phv₁, h₁, h⟩ := bind_eq_ok h
    have hfirst := Op.effects ha h₁
    exact hfirst.trans (ih (ha.congr hfirst.blank_eq) h)

end Phv

end P4Bricks
