import P4Bricks.Common.Pointwise
import P4Bricks.Phv.Helpers.Effects
/-!
# Header vectors that are alike

Two header vectors of one program of which only some headers are known to
hold the same: those of `K`. The others have the same layout, the same sizes
and the same flag, and whatever contents. A valid header is known. `strict`
says that the numbers of fields that arithmetic does not use are the same
too; no operation of a program should read these, and the extraction of a
header leaves them as they were.
-/

namespace P4Bricks

open Parsing

/-! ## Fields -/

namespace Field

/-- A field as it is seen: its number only where arithmetic uses it. -/
def view (f : Field) : Field := if f.arith then f else { f with value := 0 }

/-- Two fields that hold the same. -/
structure Like (strict : Bool) (f f' : Field) : Prop where
  rest : f' = { f with value := f'.value }
  value : strict = true ∨ f.arith = true → f'.value = f.value

/-- Two fields of one layout and width. -/
structure Shaped (strict : Bool) (f f' : Field) : Prop where
  blank : f'.blank = f.blank
  nbits : f'.nbits = f.nbits
  same : strict = true → f' = f

variable {s : Bool} {f f' : Field} {data : ByteContainer} {off : ℕ}

/-- A field is like itself. -/
theorem Like.refl (f : Field) : Like s f f := ⟨rfl, fun _ => rfl⟩

/-- Two fields that hold the same are seen as the same. -/
theorem Like.view (h : Like s f f') : f'.view = f.view := by
  have hrest := h.rest
  have harith : f'.arith = f.arith := by rw [hrest]
  unfold Field.view
  rw [harith]
  split
  · next ha => rw [hrest, h.value (.inr ha)]
  · rw [hrest]

/-- Where the number may be read it is the same. -/
theorem Like.toData (h : Like s f f') (hr : s = true ∨ f.arith = true) : f'.toData = f.toData := by
  have hrest := congrArg Field.toData h.rest
  rw [hrest, h.value hr]

/-- A number that is put in both is put in the same way, -/
theorem Like.put (h : Like s f f') (v : ℤ) : f'.put v = f.put v := by
  rw [h.rest]
  rfl

/-- and has room in both or in neither. -/
theorem Like.set (h : Like s f f') (v : ℤ) : f'.set v = f.set v := by
  rw [h.rest]
  rfl

/-- Two fields that hold the same have one layout and width. -/
theorem Like.shaped (h : Like s f f') : Shaped s f f' := by
  refine ⟨?_, ?_, fun hs => ?_⟩
  · rw [h.rest]
    rfl
  · rw [h.rest]
  · have hrest := h.rest
    rwa [h.value (.inl hs)] at hrest

/-- Fields of one layout are of variable length together, -/
theorem Shaped.isVL (h : Shaped s f f') : f'.isVL = f.isVL := isVL_congr h.blank

/-- and hidden together. -/
theorem Shaped.hidden (h : Shaped s f f') : f'.hidden = f.hidden := by
  have hb := congrArg Field.hidden h.blank
  exact hb

/-- A field of fixed width has nothing but its number and its bytes. -/
theorem Shaped.rest (h : Shaped s f f') (hvl : ¬f.isVL) :
    f' = { f with value := f'.value, bytes := f'.bytes } := by
  have heq := eq_of_blank h.blank.symm
  have hmask := vlMask_congr h.blank (by rwa [h.isVL])
  rwa [h.nbits, hmask] at heq

/-- What is put in a field of fixed width does not depend on what was in it, -/
theorem Shaped.put (h : Shaped s f f') (hvl : ¬f.isVL) (v : ℤ) : f'.put v = f.put v := by
  have hvl' : ¬f'.isVL := by rwa [h.isVL]
  have hspare : ({ f with value := v } : Field).spare = 0 := spare_of_fixed hvl
  have hspare' : ({ f' with value := v } : Field).spare = 0 := spare_of_fixed hvl'
  rw [Field.put, Field.put, exported, exported, hspare, hspare', h.rest hvl]
  rfl

/-- nor whether it has room. -/
theorem Shaped.set (h : Shaped s f f') (hvl : ¬f.isVL) (v : ℤ) : f'.set v = f.set v := by
  have hput := h.put hvl v
  simp only [Field.put] at hput
  rw [Field.set, Field.set, exportBytes, exportBytes, hput, h.rest hvl]
  rfl

/-- Fields of one layout and width have one size. -/
theorem Shaped.size (h : Shaped s f f') : f'.size = f.size :=
  Prod.ext h.nbits (Prod.ext h.hidden h.isVL)

/-- A field that is copied from the packet holds what the packet has. -/
theorem extract_like {v : ℤ} {bs : ByteContainer} (hv : s = true → v = f.value) :
    Paired (Like s) (f.extract data off) ({ f with value := v, bytes := bs }.extract data off) := by
  unfold Field.extract
  refine (Paired.refl fun bytes _ => rfl).bind fun bytes bytes' _ _ heq => .ok ?_
  obtain rfl : bytes = bytes' := heq
  dsimp only
  split
  · exact .refl _
  · next ha =>
    refine ⟨rfl, fun hs => ?_⟩
    rcases hs with hs | hs
    · exact hv hs
    · exact absurd hs ha

/-- A field of fixed width is read from the packet, whatever was in it, -/
theorem Shaped.extract (h : Shaped s f f') (hvl : ¬f.isVL) :
    Paired (Like s) (f.extract data off) (f'.extract data off) := by
  rw [h.rest hvl]
  exact extract_like fun hs => by rw [h.same hs]

/-- and so is one whose length is given: it gets its mask with it. -/
theorem Shaped.extractVL (h : Shaped s f f') (n : ℤ) :
    Paired (Like s) (f.extractVL data off n) (f'.extractVL data off n) := by
  unfold Field.extractVL
  split_ifs
  · exact .error _
  · exact .error _
  · rw [eq_of_blank h.blank.symm]
    exact extract_like fun hs => by rw [h.same hs]

/-- A number does not change layout and width. -/
theorem Shaped.put_shaped (h : Shaped s f f') (v : ℤ) : Shaped s (f.put v) (f'.put v) := by
  refine ⟨?_, ?_, fun hs => by rw [h.same hs]⟩
  · rw [put_blank, put_blank, h.blank]
  · exact h.nbits

end Field

/-! ## Headers -/

namespace Header

open List

/-- Only the last field is hidden. -/
def LastHidden (x : Header) : Prop :=
  ∀ (i : ℕ) (f : Field), x.fields[i]? = some f → f.hidden = true → i = x.validOffset ∧ ¬f.isVL

/-- Two headers of one layout, size and flag, which hold the same if they are
known. -/
structure Like (s : Bool) (known : Prop) (x x' : Header) : Prop where
  blank : x'.blank = x.blank
  valid : x'.valid = x.valid
  nbytesPacket : x'.nbytesPacket = x.nbytesPacket
  shaped : Forall₂ (Field.Shaped s) x.fields x'.fields
  fields : known → Forall₂ (Field.Like s) x.fields x'.fields

variable {s : Bool} {known : Prop} {x x' y : Header}

/-- Which field is hidden belongs to the layout. -/
theorem LastHidden.congr (h : x.LastHidden) (hb : y.blank = x.blank) : y.LastHidden := by
  have hfields := fields_blank hb
  have hlen : y.fields.length = x.fields.length := by simpa using congrArg List.length hfields
  intro i f hf hhid
  have heq : y.fields[i]?.map Field.blank = x.fields[i]?.map Field.blank := by
    rw [← List.getElem?_map, hfields, List.getElem?_map]
  rw [hf, Option.map_some] at heq
  obtain ⟨g, hg, hgf⟩ := Option.map_eq_some_iff.mp heq.symm
  have hghid : g.hidden = true := by
    have hh := congrArg Field.hidden hgf
    exact hh.trans hhid
  obtain ⟨hi, hvl⟩ := h i g hg hghid
  refine ⟨?_, ?_⟩
  · rw [hi, validOffset, validOffset, hlen]
  · rwa [← Field.isVL_congr hgf]

/-- What is known of a header may be forgotten. -/
theorem Like.mono {known' : Prop} (h : Like s known x x') (hk : known' → known) :
    Like s known' x x' :=
  ⟨h.blank, h.valid, h.nbytesPacket, h.shaped, fun hk' => h.fields (hk hk')⟩

/-- Headers that are alike are metadata together, -/
theorem Like.metadata (h : Like s known x x') : x'.metadata = x.metadata := by
  have hb := congrArg Header.metadata h.blank
  exact hb

/-- valid together, -/
theorem Like.isValid (h : Like s known x x') : x'.isValid = x.isValid := by
  rw [Header.isValid, Header.isValid, h.metadata, h.valid]

/-- of variable length together, -/
theorem Like.isVLHeader (h : Like s known x x') : x'.isVLHeader = x.isVLHeader := by
  have hblank := fields_blank h.blank
  have heq : { x with fields := x'.fields }.isVLHeader = x.isVLHeader := isVLHeader_congr hblank
  rw [← heq]
  rfl

/-- and have `$valid$` at one place. -/
theorem Like.validOffset (h : Like s known x x') : x'.validOffset = x.validOffset := by
  rw [Header.validOffset, Header.validOffset, h.shaped.length_eq]

/-- A flag is set in both. The hidden field then holds the same. -/
theorem Like.setValid (h : Like s known x x') (b : Bool) :
    Like s known (x.setValid b) (x'.setValid b) := by
  have hoffset := h.validOffset
  refine ⟨by rw [setValid_blank, setValid_blank, h.blank], rfl, h.nbytesPacket, ?_, fun hk => ?_⟩
  · simp only [Header.setValid, hoffset]
    exact forall₂_modify h.shaped _ fun f f' _ _ hff => hff.put_shaped _
  · simp only [Header.setValid, hoffset]
    refine forall₂_modify (h.fields hk) _ fun f f' _ _ hff => ?_
    rw [hff.put]
    exact .refl _

/-! ## Extraction -/

/-- Two fields after an extraction: what is on the wire was copied. -/
structure Written (s : Bool) (f f' : Field) : Prop where
  shaped : Field.Shaped s f f'
  like : f.hidden = false → Field.Like s f f'

/-- What holds of each length that `extractFields` asks for: `ok` of the
number of fields that were copied before, and of all the fields. -/
def AsksFor (vlFn : List Field → Except Stop ℤ) (ok : ℕ → List Field → Prop) :
    ByteContainer → ℕ → List Field → List Field → Prop
  | _, _, _, [] => True
  | data, off, done, f :: todo =>
    f.hidden = false →
      (f.isVL → ok done.length (done ++ f :: todo)) ∧
      ∀ f', extractField vlFn f data off (done ++ f :: todo) = .ok f' →
        AsksFor vlFn ok (data.drop ((off + f'.nbits) / 8)) ((off + f'.nbits) % 8) (done ++ [f']) todo

variable {vlFn vlFn' : List Field → Except Stop ℤ} {ok : ℕ → List Field → Prop}
variable {data : ByteContainer}

/-- One field is copied in both, with a length that both compute. -/
theorem extractField_like {f f' : Field} {off : ℕ} {fields fields' : List Field}
    (h : Field.Shaped s f f') (hvl : f.isVL → Paired Eq (vlFn fields) (vlFn' fields')) :
    Paired (Field.Like s) (extractField vlFn f data off fields)
      (extractField vlFn' f' data off fields') := by
  unfold extractField
  rw [h.isVL]
  split
  · next hf =>
    refine (hvl hf).bind fun n n' _ _ heq => ?_
    obtain rfl : n = n' := heq
    exact h.extractVL n
  · next hf => exact h.extract hf

/-- **Fields are copied in both.** -/
theorem extractFields_like {done done' todo todo' layout : List Field} {off : ℕ}
    (hvl : ∀ done done' rest rest' : List Field, Forall₂ (Field.Like s) done done' →
      Forall₂ (Field.Shaped s) rest rest' → (known → Forall₂ (Field.Like s) rest rest') →
      (done ++ rest).map Field.blank = layout → ok done.length (done ++ rest) →
      Paired Eq (vlFn (done ++ rest)) (vlFn' (done' ++ rest')))
    (hdone : Forall₂ (Field.Like s) done done') (htodo : Forall₂ (Field.Shaped s) todo todo')
    (hknown : known → Forall₂ (Field.Like s) todo todo')
    (hlayout : (done ++ todo).map Field.blank = layout)
    (hhidden : todo.Pairwise fun f g => f.hidden → g.hidden)
    (hasks : AsksFor vlFn ok data off done todo) :
    Paired (Forall₂ (Written s)) (extractFields vlFn data off done todo)
      (extractFields vlFn' data off done' todo') := by
  induction htodo generalizing data off done done' with
  | nil => exact .ok (hdone.imp fun f f' h => ⟨h.shaped, fun _ => h⟩)
  | @cons f f' todo todo' hff hrest ih =>
    rw [extractFields, extractFields, hff.hidden]
    split
    · next hf =>
      -- From here on every field is hidden.
      refine .ok (rel_append (hdone.imp fun f f' h => ⟨h.shaped, fun _ => h⟩)
        (.cons ⟨hff, fun hf' => by rw [hf] at hf'; cases hf'⟩ ?_))
      refine (forall₂_iff_get.mpr ⟨hrest.length_eq, fun j hj hj' => ⟨hrest.get hj hj', fun hg => ?_⟩⟩)
      have hh := (List.pairwise_cons.mp hhidden).1 _ (List.get_mem todo ⟨j, hj⟩) hf
      rw [hh] at hg
      cases hg
    · next hf =>
      have hf' : f.hidden = false := by simpa using hf
      obtain ⟨hok, hnext⟩ := hasks hf'
      refine (extractField_like hff fun hf => hvl _ _ _ _ hdone (.cons hff hrest) hknown hlayout
        (hok hf)).bind fun g g' hg _ hlike => ?_
      have hblank : g.blank = f.blank := by
        unfold extractField at hg
        split at hg
        · obtain ⟨n, -, hg⟩ := bind_eq_ok hg
          exact Field.extractVL_blank hg ‹_›
        · exact Field.extract_blank hg
      rw [hlike.shaped.nbits]
      refine ih (rel_append hdone (.cons hlike .nil)) (fun hk => ?_) ?_ (List.pairwise_cons.mp hhidden).2
        (hnext g hg)
      · exact (forall₂_cons.mp (hknown hk)).2
      · rw [← hlayout]
        simp [hblank]

/-- Two headers whose fields on the wire were written. -/
structure Overwritten (s : Bool) (x x' : Header) : Prop where
  blank : x'.blank = x.blank
  valid : x'.valid = x.valid
  nbytesPacket : x'.nbytesPacket = x.nbytesPacket
  fields : Forall₂ (Written s) x.fields x'.fields

/-- No field on the wire is behind a hidden one. -/
theorem LastHidden.pairwise (h : x.LastHidden) :
    x.fields.Pairwise fun f g => f.hidden → g.hidden := by
  rw [List.pairwise_iff_getElem]
  intro i j hi hj hij hhid
  have hlast := (h i _ (List.getElem?_eq_getElem hi) hhid).1
  rw [validOffset] at hlast
  omega

/-- A header that was overwritten and is marked is known. -/
theorem Overwritten.setValid (h : Overwritten s x x') (hx : x.LastHidden) (b : Bool) :
    Like s True (x.setValid b) (x'.setValid b) := by
  have hoffset : x'.validOffset = x.validOffset := by
    rw [validOffset, validOffset, h.fields.length_eq]
  have hlike : Forall₂ (Field.Like s) (x.setValid b).fields (x'.setValid b).fields := by
    simp only [Header.setValid, hoffset]
    refine forall₂_modify_of_ne h.fields (fun j f f' hf _ hne hw => hw.like ?_) fun f f' hf _ hw => ?_
    · by_contra hhid
      exact hne (hx j f hf (by simpa using hhid)).1
    · -- The last field is not copied, but set.
      by_cases hhid : f.hidden = true
      · rw [hw.shaped.put (hx _ f hf hhid).2]
        exact .refl _
      · rw [(hw.like (by simpa using hhid)).put]
        exact .refl _
  refine ⟨by rw [setValid_blank, setValid_blank, h.blank], rfl, h.nbytesPacket, ?_, fun _ => hlike⟩
  exact hlike.imp fun f f' hff => hff.shaped

/-- Fields of one shape, one by one, have one layout, -/
theorem blank_of_shaped {fields fields' : List Field} (h : Forall₂ (Field.Shaped s) fields fields') :
    fields'.map Field.blank = fields.map Field.blank := by
  induction h with
  | nil => rfl
  | cons hff _ ih => rw [List.map_cons, List.map_cons, hff.blank, ih]

/-- and as many bits on the wire. -/
theorem nbits_of_shaped {fields fields' : List Field} (h : Forall₂ (Field.Shaped s) fields fields') :
    { x' with fields := fields' }.nbits = { x with fields := fields }.nbits := by
  have hsizes : fields'.map Field.size = fields.map Field.size := by
    induction h with
    | nil => rfl
    | cons hff _ ih => rw [List.map_cons, List.map_cons, hff.size, ih]
  rw [nbits_eq, nbits_eq]
  simp only [sizes, hsizes]

/-- New fields for two headers. -/
theorem Like.withFields (h : Like s known x x') {fields fields' : List Field}
    (hb : fields.map Field.blank = x.fields.map Field.blank)
    (hshaped : Forall₂ (Field.Shaped s) fields fields') :
    { x with fields := fields }.blank = x.blank ∧
      { x' with fields := fields' }.blank = { x with fields := fields }.blank := by
  have hb' := (blank_of_shaped hshaped).trans hb
  have hx := congrArg (fun y : Header => (y.headerType, y.metadata, y.unionMembership)) h.blank
  simp only [Header.blank, Prod.mk.injEq] at hx
  refine ⟨?_, ?_⟩
  · simp only [Header.blank, hb]
  · simp only [Header.blank, hb, hb', hx]

/-- New fields, measured again. -/
theorem recompute_like {fields fields' : List Field}
    (hshaped : Forall₂ (Field.Shaped s) fields fields') :
    Paired (fun y y' => y = { x with fields := fields, nbytesPacket := y.nbytesPacket } ∧
        y' = { x' with fields := fields', nbytesPacket := y.nbytesPacket })
      ({ x with fields := fields }.recomputeNbytesPacket)
      ({ x' with fields := fields' }.recomputeNbytesPacket) := by
  unfold recomputeNbytesPacket
  have hnbits : { x' with fields := fields' }.nbits = { x with fields := fields }.nbits :=
    nbits_of_shaped hshaped
  rw [hnbits]
  split
  · exact .ok ⟨rfl, rfl⟩
  · exact .error _

/-- What holds of every length holds of those that are asked for. -/
theorem asksFor_of_forall {vlFn : List Field → Except Stop ℤ} {ok : ℕ → List Field → Prop}
    (hok : ∀ n fields, ok n fields) {data : ByteContainer} {off : ℕ} {done todo : List Field} :
    AsksFor vlFn ok data off done todo := by
  induction todo generalizing data off done with
  | nil => trivial
  | cons f todo ih => exact fun _ => ⟨fun _ => hok _ _, fun f' _ => ih⟩

/-- A length that is given asks for nothing. -/
theorem asksFor_true {vlFn : List Field → Except Stop ℤ} {data : ByteContainer} {off : ℕ}
    {done todo : List Field} : AsksFor vlFn (fun _ _ => True) data off done todo :=
  asksFor_of_forall fun _ _ => trivial

/-- **A header of fixed width is copied in both.** -/
theorem extractFixed_like (h : Like s known x x') (hx : x.LastHidden) :
    Paired (fun y y' => y.blank = x.blank ∧ y.valid = x.valid ∧ Overwritten s y y')
      (x.extractFixed data) (x'.extractFixed data) := by
  refine ((extractFields_like (fun _ _ _ _ _ _ _ _ _ => .error _) .nil h.shaped h.fields rfl
    hx.pairwise asksFor_true).bind fun fields fields' hfields _ hw => .ok ?_)
  have hb := extractFields_blank hfields
  rw [List.nil_append] at hb
  have hshaped := hw.imp fun f f' hf => hf.shaped
  obtain ⟨h₁, h₂⟩ := h.withFields hb hshaped
  exact ⟨h₁, rfl, h₂, h.valid, h.nbytesPacket, hw⟩

/-- **A header with a variable field is copied in both**, if both compute one
length. -/
theorem extractVLCommon_like (h : Like s known x x') (hx : x.LastHidden)
    (hvl : ∀ done done' rest rest' : List Field, Forall₂ (Field.Like s) done done' →
      Forall₂ (Field.Shaped s) rest rest' → (known → Forall₂ (Field.Like s) rest rest') →
      (done ++ rest).map Field.blank = x.fields.map Field.blank → ok done.length (done ++ rest) →
      Paired Eq (vlFn (done ++ rest)) (vlFn' (done' ++ rest')))
    (hasks : AsksFor vlFn ok data 0 [] x.fields) :
    Paired (fun y y' => y.blank = x.blank ∧ y.valid = x.valid ∧ Overwritten s y y')
      (x.extractVLCommon vlFn data) (x'.extractVLCommon vlFn' data) := by
  refine ((extractFields_like hvl .nil h.shaped h.fields rfl hx.pairwise hasks).bind
    fun fields fields' hfields _ hw => ?_)
  have hb := extractFields_blank hfields
  rw [List.nil_append] at hb
  have hshaped := hw.imp fun f f' hf => hf.shaped
  obtain ⟨h₁, h₂⟩ := h.withFields hb hshaped
  refine (recompute_like hshaped).mono fun y y' _ _ ⟨hy, hy'⟩ => ?_
  rw [hy', hy]
  exact ⟨h₁, rfl, h₂, h.valid, rfl, hw⟩

end Header

/-! ## Header vectors -/

namespace Phv

/-- **Two header vectors that are alike**: the headers of `K` hold the same,
and so do the records of unions and the stacks. -/
structure Alike (s : Bool) (K : ℕ → Prop) (phv phv' : Phv) : Prop where
  joined : phv.Joined
  chosen : phv.Chosen
  lastHidden : ∀ x ∈ phv.headers, x.LastHidden
  all : s = true → ∀ h, K h
  blank : phv'.blank = phv.blank
  headers : ∀ (h : ℕ) (x x' : Header), phv.headers[h]? = some x → phv'.headers[h]? = some x' →
    x.Like s (K h) x'
  known : ∀ (h : ℕ) (x : Header), phv.headers[h]? = some x → x.isValid = true → K h
  choice : ∀ u, phv'.choice u = phv.choice u
  headerStacks : phv'.headerStacks = phv.headerStacks
  headerUnionStacks : phv'.headerUnionStacks = phv.headerUnionStacks

variable {s : Bool} {K K' : ℕ → Prop} {phv phv' : Phv}

/-- A header is changed twice at once. -/
theorem modifyHeader_modifyHeader (phv : Phv) (h : ℕ) (f g : Header → Header) :
    (phv.modifyHeader h f).modifyHeader h g = phv.modifyHeader h fun x => g (f x) := by
  simp only [Phv.modifyHeader, List.modify_modify_eq, Function.comp_def]

/-- Vectors of one layout have as many headers, -/
theorem headers_length (hb : phv'.blank = phv.blank) : phv'.headers.length = phv.headers.length := by
  have hlen := congrArg (fun p => p.headers.length) hb
  simpa [Phv.blank] using hlen

/-- A union is there in both, with one choice. -/
theorem same_union (hb : phv'.blank = phv.blank) {u : ℕ} {un : HeaderUnion}
    (hchoice : phv'.choice u = phv.choice u) (hun : phv.headerUnions[u]? = some un) :
    ∃ un', phv'.headerUnions[u]? = some un' ∧ un'.headers = un.headers ∧ un'.valid = un.valid ∧
      (un.valid = true → un'.validHeaderIdx = un.validHeaderIdx) := by
  obtain ⟨un', hun', hheaders⟩ := exists_union hb hun
  simp only [Phv.choice, hun, hun', Option.bind_some] at hchoice
  refine ⟨un', hun', hheaders, ?_, fun hv => ?_⟩
  · cases hv : un.valid <;> cases hv' : un'.valid <;> simp [hv, hv'] at hchoice ⊢
  · rw [hv] at hchoice
    cases hv' : un'.valid with
    | false => simp [hv'] at hchoice
    | true => simpa [hv'] using hchoice

/-- and as many unions. -/
theorem union_none_of_blank (hb : phv'.blank = phv.blank) {u : ℕ}
    (hun : phv.headerUnions[u]? = none) : phv'.headerUnions[u]? = none := by
  have hlen := congrArg (fun p => p.headerUnions.length) hb
  simp only [Phv.blank, List.length_map] at hlen
  rw [List.getElem?_eq_none_iff] at hun ⊢
  rwa [hlen]

namespace Alike

/-- A header of the first vector is in the second, and like it, -/
theorem header (ha : Alike s K phv phv') {h : ℕ} {x : Header} (hx : phv.headers[h]? = some x) :
    ∃ x', phv'.headers[h]? = some x' ∧ x.Like s (K h) x' := by
  obtain ⟨x', hx', -⟩ := exists_header ha.blank hx
  exact ⟨x', hx', ha.headers h x x' hx hx'⟩

/-- and one that is not in the first is in neither. -/
theorem header_none (ha : Alike s K phv phv') {h : ℕ} (hx : phv.headers[h]? = none) :
    phv'.headers[h]? = none := by
  rw [List.getElem?_eq_none_iff] at hx ⊢
  rwa [headers_length ha.blank]

/-- A header is found in both or missed in both, -/
theorem required_header (ha : Alike s K phv phv') (h : ℕ) :
    Paired (fun x x' => phv.headers[h]? = some x ∧ phv'.headers[h]? = some x' ∧ x.Like s (K h) x')
      (required phv.headers[h]?) (required phv'.headers[h]?) := by
  cases hx : phv.headers[h]? with
  | none =>
    rw [ha.header_none hx]
    exact .error _
  | some x =>
    obtain ⟨x', hx', hlike⟩ := ha.header hx
    rw [hx']
    exact .ok ⟨rfl, rfl, hlike⟩

/-- A union of the first vector is in the second, with the same choice. -/
theorem union (ha : Alike s K phv phv') {u : ℕ} {un : HeaderUnion}
    (hun : phv.headerUnions[u]? = some un) :
    ∃ un', phv'.headerUnions[u]? = some un' ∧ un'.headers = un.headers ∧ un'.valid = un.valid ∧
      (un.valid = true → un'.validHeaderIdx = un.validHeaderIdx) :=
  same_union ha.blank (ha.choice u) hun

/-- and so is a union. -/
theorem required_union (ha : Alike s K phv phv') (u : ℕ) :
    Paired (fun un un' => phv.headerUnions[u]? = some un ∧ un'.headers = un.headers)
      (required phv.headerUnions[u]?) (required phv'.headerUnions[u]?) := by
  cases hun : phv.headerUnions[u]? with
  | none =>
    rw [union_none_of_blank ha.blank hun]
    exact .error _
  | some un =>
    obtain ⟨un', hun', hheaders, -⟩ := ha.union hun
    rw [hun']
    exact .ok ⟨rfl, hheaders⟩

/-- A header is in the same union in both. -/
theorem memberOf (ha : Alike s K phv phv') (h : ℕ) : phv'.memberOf h = phv.memberOf h :=
  memberOf_congr ha.blank h

/-- **One header changes in both.** -/
theorem modifyHeader (ha : Alike s K phv phv') {h : ℕ} {f f' : Header → Header}
    (hK : ∀ g, K g → K' g) (hK' : ∀ g, g ≠ h → K' g → K g)
    (hf : ∀ x x', phv.headers[h]? = some x → phv'.headers[h]? = some x' → x.Like s (K h) x' →
      (f x).blank = x.blank ∧ (f x).Like s (K' h) (f' x') ∧ ((f x).isValid = true → K' h)) :
    Alike s K' (phv.modifyHeader h f) (phv'.modifyHeader h f') := by
  have hblank : (phv.modifyHeader h f).blank = phv.blank := modifyHeader_blank fun x hx => by
    obtain ⟨x', hx', hlike⟩ := ha.header hx
    exact (hf x x' hx hx' hlike).1
  have hblank' : (phv'.modifyHeader h f').blank = phv'.blank := modifyHeader_blank fun x' hx' => by
    obtain ⟨x, hx, -⟩ := exists_header ha.blank.symm hx'
    obtain ⟨hb, hlike', -⟩ := hf x x' hx hx' (ha.headers h x x' hx hx')
    rw [hlike'.blank, hb, (ha.headers h x x' hx hx').blank]
  -- A header of the changed vector is the changed one or one that stayed.
  have hat : ∀ (p : Phv) (e : Header → Header) (g : ℕ) (y : Header), (p.modifyHeader h e).headers[g]? = some y →
      (g = h ∧ ∃ x, p.headers[h]? = some x ∧ y = e x) ∨ (g ≠ h ∧ p.headers[g]? = some y) := by
    intro p e g y hy
    rw [Phv.modifyHeader, List.getElem?_modify] at hy
    by_cases hg : h = g
    · subst hg
      obtain ⟨x, hx, rfl⟩ := Option.map_eq_some_iff.mp hy
      exact .inl ⟨rfl, x, hx, by simp⟩
    · obtain ⟨x, hx, rfl⟩ := Option.map_eq_some_iff.mp hy
      exact .inr ⟨Ne.symm hg, by simpa [hg] using hx⟩
  refine ⟨ha.joined.congr hblank, ha.chosen.congr hblank fun _ _ h => h, fun y hy => ?_,
    fun hs g => hK g (ha.all hs g), by rw [hblank', hblank, ha.blank], fun g y y' hy hy' => ?_,
    fun g y hy hv => ?_, ha.choice, ha.headerStacks, ha.headerUnionStacks⟩
  · obtain ⟨g, hg⟩ := List.mem_iff_getElem?.mp hy
    obtain ⟨x, hx, hb⟩ := exists_header hblank.symm hg
    exact (ha.lastHidden x (List.mem_of_getElem? hx)).congr hb.symm
  · rcases hat phv f g y hy with ⟨rfl, x, hx, rfl⟩ | ⟨hne, hx⟩
    · rcases hat phv' f' g y' hy' with ⟨-, x', hx', rfl⟩ | ⟨hne, -⟩
      · exact (hf x x' hx hx' (ha.headers g x x' hx hx')).2.1
      · exact absurd rfl hne
    · rcases hat phv' f' g y' hy' with ⟨heq, -⟩ | ⟨-, hx'⟩
      · exact absurd heq hne
      · exact (ha.headers g y y' hx hx').mono (hK' g hne)
  · rcases hat phv f g y hy with ⟨rfl, x, hx, rfl⟩ | ⟨hne, hx⟩
    · obtain ⟨x', hx', hlike⟩ := ha.header hx
      exact (hf x x' hx hx' hlike).2.2 hv
    · exact hK g (ha.known g y hx hv)

/-- A flag is set in both; only a known header may become valid. -/
theorem setValid (ha : Alike s K phv phv') (h : ℕ) {b : Bool} (hb : b = true → K h) :
    Alike s K (phv.modifyHeader h (·.setValid b)) (phv'.modifyHeader h (·.setValid b)) := by
  refine ha.modifyHeader (fun _ h => h) (fun _ _ h => h) fun x x' hx _ hlike =>
    ⟨x.setValid_blank b, hlike.setValid b, fun hv => ?_⟩
  cases b with
  | true => exact hb rfl
  | false =>
    refine ha.known h x hx ?_
    have hmeta : (x.setValid false).isValid = x.metadata := by
      simp [Header.isValid, Header.setValid]
    rw [hmeta] at hv
    rw [Header.isValid, hv, Bool.true_or]

/-- One union changes its choice in both. -/
theorem modifyUnion (ha : Alike s K phv phv') {u : ℕ} {f f' : HeaderUnion → HeaderUnion}
    (hheaders : ∀ un, (f un).headers = un.headers) (hheaders' : ∀ un, (f' un).headers = un.headers)
    (hchosen : (phv.modifyUnion u f).Chosen)
    (hchoice : (phv'.modifyUnion u f').choice u = (phv.modifyUnion u f).choice u) :
    Alike s K (phv.modifyUnion u f) (phv'.modifyUnion u f') := by
  have hblank : (phv.modifyUnion u f).blank = phv.blank := modifyUnion_blank hheaders
  have hblank' : (phv'.modifyUnion u f').blank = phv'.blank := modifyUnion_blank hheaders'
  refine ⟨ha.joined.congr hblank, hchosen, ha.lastHidden, ha.all, by rw [hblank', hblank, ha.blank],
    ha.headers, ha.known, fun v => ?_, ha.headerStacks, ha.headerUnionStacks⟩
  by_cases huv : u = v
  · subst huv
    exact hchoice
  · rw [choice_modifyUnion, choice_modifyUnion, if_neg huv, if_neg huv]
    exact ha.choice v

/-- The counts of the stacks of headers change in both. -/
theorem setHeaderStacks (ha : Alike s K phv phv') {sts : List Stack}
    (hs : sts.map Stack.blank = phv.headerStacks.map Stack.blank) :
    Alike s K { phv with headerStacks := sts } { phv' with headerStacks := sts } := by
  have hblank : ({ phv with headerStacks := sts } : Phv).blank = phv.blank := by
    simp only [Phv.blank, hs]
  have hblank' : ({ phv' with headerStacks := sts } : Phv).blank = phv'.blank := by
    simp only [Phv.blank, hs, ha.headerStacks]
  exact ⟨ha.joined.congr hblank, ha.chosen.congr hblank fun _ _ h => h, ha.lastHidden, ha.all,
    by rw [hblank, hblank', ha.blank], ha.headers, ha.known, ha.choice, rfl, ha.headerUnionStacks⟩

/-- And of those of unions. -/
theorem setHeaderUnionStacks (ha : Alike s K phv phv') {sts : List Stack}
    (hs : sts.map Stack.blank = phv.headerUnionStacks.map Stack.blank) :
    Alike s K { phv with headerUnionStacks := sts } { phv' with headerUnionStacks := sts } := by
  have hblank : ({ phv with headerUnionStacks := sts } : Phv).blank = phv.blank := by
    simp only [Phv.blank, hs]
  have hblank' : ({ phv' with headerUnionStacks := sts } : Phv).blank = phv'.blank := by
    simp only [Phv.blank, hs, ha.headerUnionStacks]
  exact ⟨ha.joined.congr hblank, ha.chosen.congr hblank fun _ _ h => h, ha.lastHidden, ha.all,
    by rw [hblank, hblank', ha.blank], ha.headers, ha.known, ha.choice, ha.headerStacks, rfl⟩

/-- A header is marked as not valid in both. -/
theorem markInvalid (ha : Alike s K phv phv') (h : ℕ) :
    Alike s K (phv.markInvalid h) (phv'.markInvalid h) := by
  have hset := ha.setValid h (b := false) (fun hb => by cases hb)
  have hm' := ha.memberOf h
  cases hm : phv.memberOf h with
  | none =>
    rw [hm] at hm'
    rwa [markInvalid_of_none hm, markInvalid_of_none hm']
  | some p =>
    obtain ⟨u, i⟩ := p
    rw [hm] at hm'
    have hchosen := ha.chosen.markInvalid h
    have hchoice : (phv'.markInvalid h).choice u = (phv.markInvalid h).choice u := by
      rw [(markInvalid_spec hm).2, (markInvalid_spec hm').2, ha.choice]
    rw [markInvalid_of_some hm] at hchosen hchoice ⊢
    rw [markInvalid_of_some hm'] at hchoice ⊢
    refine hset.modifyUnion (fun un => ?_) (fun un => ?_) hchosen hchoice
    · split <;> rfl
    · split <;> rfl

/-- The same member is displaced in both. -/
theorem displaced (ha : Alike s K phv phv') (u i : ℕ) : phv'.displaced u i = phv.displaced u i := by
  simp only [Phv.displaced, ha.choice, member_congr ha.blank]

/-- The choices of the second vector are members too. -/
theorem chosen' (ha : Alike s K phv phv') : phv'.Chosen :=
  ha.chosen.congr ha.blank fun u i h => by rwa [← ha.choice]

/-- A member becomes the choice of its union in both. -/
theorem makeHeaderValid (ha : Alike s K phv phv') {u i h : ℕ} (hh : phv.member (u, i) = some h) :
    Alike s K (phv.makeHeaderValid u i) (phv'.makeHeaderValid u i) := by
  have hh' : phv'.member (u, i) = some h := by rwa [member_congr ha.blank]
  have hj' := ha.joined.congr ha.blank
  have hspec := (makeHeaderValid_spec ha.joined hh ha.chosen).2
  have hspec' := (makeHeaderValid_spec hj' hh' ha.chosen').2
  have hchoice : (phv'.makeHeaderValid u i).choice u = (phv.makeHeaderValid u i).choice u := by
    rw [hspec, hspec', if_pos rfl, if_pos rfl]
  have hchosen : (phv.makeHeaderValid u i).Chosen := ha.chosen.makeHeaderValid ha.joined hh
  rw [makeHeaderValid_eq ha.chosen hh] at hchosen hchoice ⊢
  rw [makeHeaderValid_eq ha.chosen' hh', ha.displaced] at hchoice ⊢
  -- The member that was valid before goes first.
  have hgone : Alike s K ((phv.displaced u i).elim phv phv.markInvalid)
      ((phv.displaced u i).elim phv' phv'.markInvalid) := by
    cases phv.displaced u i with
    | none => exact ha
    | some g => exact ha.markInvalid g
  exact hgone.modifyUnion (fun _ => rfl) (fun _ => rfl) hchosen hchoice

/-- A header that is known is marked as valid in both. -/
theorem markValid (ha : Alike s K phv phv') {h : ℕ} (hK : K h) :
    Alike s K (phv.markValid h) (phv'.markValid h) := by
  have hset := ha.setValid h (b := true) fun _ => hK
  have hm' := ha.memberOf h
  cases hm : phv.memberOf h with
  | none =>
    rw [hm] at hm'
    rwa [markValid_of_none hm, markValid_of_none hm']
  | some p =>
    obtain ⟨u, i⟩ := p
    rw [hm] at hm'
    rw [markValid_of_some hm, markValid_of_some hm']
    refine hset.makeHeaderValid (h := h) ?_
    rw [member_congr (modifyHeader_blank fun x _ => x.setValid_blank true)]
    exact (ha.joined.member_iff _ _).mpr hm

/-- **A header that was overwritten in both is marked**, and is known from
then on. -/
theorem extracted (ha : Alike s K phv phv') {h : ℕ} {x x' y y' : Header}
    (hx : phv.headers[h]? = some x) (hx' : phv'.headers[h]? = some x') (hb : y.blank = x.blank)
    (hw : Header.Overwritten s y y') :
    Alike s (fun g => K g ∨ g = h) ((phv.modifyHeader h fun _ => y).markValid h)
      ((phv'.modifyHeader h fun _ => y').markValid h) := by
  have hy : y.LastHidden := (ha.lastHidden x (List.mem_of_getElem? hx)).congr hb
  have hy' : y'.blank = y.blank := hw.blank
  have hlike := hw.setValid hy true
  have hset : Alike s (fun g => K g ∨ g = h) (phv.modifyHeader h fun _ => y.setValid true)
      (phv'.modifyHeader h fun _ => y'.setValid true) :=
    ha.modifyHeader (fun _ => .inl) (fun g hg hK => hK.resolve_right hg) fun _ _ hx₁ _ _ => by
      obtain rfl := Option.some.inj (hx₁.symm.trans hx)
      exact ⟨(y.setValid_blank true).trans hb, hlike.mono fun _ => trivial, fun _ => .inr rfl⟩
  have hwritten : (phv.modifyHeader h fun _ => y).blank = phv.blank := modifyHeader_blank fun z hz => by
    obtain rfl := Option.some.inj (hz.symm.trans hx)
    exact hb
  have hwritten' : (phv'.modifyHeader h fun _ => y').blank = phv'.blank := modifyHeader_blank fun z hz => by
    obtain rfl := Option.some.inj (hz.symm.trans hx')
    rw [hy', hb, (ha.headers h x z hx hx').blank]
  have hm' := (memberOf_congr hwritten' h).trans (ha.memberOf h)
  have hm₀ := memberOf_congr hwritten h
  cases hm : phv.memberOf h with
  | none =>
    rw [markValid_of_none (hm₀.trans hm), markValid_of_none (hm'.trans hm), modifyHeader_modifyHeader,
      modifyHeader_modifyHeader]
    exact hset
  | some p =>
    obtain ⟨u, i⟩ := p
    rw [markValid_of_some (hm₀.trans hm), markValid_of_some (hm'.trans hm), modifyHeader_modifyHeader,
      modifyHeader_modifyHeader]
    refine hset.makeHeaderValid (h := h) ?_
    have hblank : (phv.modifyHeader h fun _ => y.setValid true).blank = phv.blank :=
      modifyHeader_blank fun z hz => by
        obtain rfl := Option.some.inj (hz.symm.trans hx)
        exact (y.setValid_blank true).trans hb
    rw [member_congr hblank]
    exact (ha.joined.member_iff _ _).mpr hm

end Alike

end Phv

end P4Bricks
