import P4Bricks.Common.Outcomes
import P4Bricks.Phv.Factory
/-!
# The layout of a header vector

What no operation changes: the types and the order of headers and fields, who
is a member of which union, and the elements of the stacks. `blank` erases
all the rest, so that two header vectors have one layout when their blanks
are equal. Facts about the layout are then facts about every header vector a
program ever has.
-/

namespace P4Bricks

open Parsing

/-! ## Replacing one element of a list -/

/-- A change that an observation does not see leaves the observed list as it
was. -/
theorem map_modify_of_eq {α β : Type*} {f : α → α} {g : α → β} {l : List α} {i : ℕ}
    (h : ∀ a, l[i]? = some a → g (f a) = g a) : (l.modify i f).map g = l.map g := by
  refine List.ext_getElem? fun j => ?_
  rw [List.getElem?_map, List.getElem?_map, List.getElem?_modify]
  cases hj : l[j]? with
  | none => rfl
  | some a =>
    simp only [Option.map_eq_map, Option.map_some]
    split
    · rw [h a (by rwa [‹i = j›])]
    · rfl

/-- An element that is replaced by one with the same image leaves the images as they
were. -/
theorem map_set_of_eq {α β : Type*} {g : α → β} {l : List α} {i : ℕ} {a : α}
    (h : ∀ b, l[i]? = some b → g a = g b) : (l.set i a).map g = l.map g := by
  refine List.ext_getElem? fun j => ?_
  rw [List.getElem?_map, List.getElem?_map, List.getElem?_set]
  by_cases hij : i = j
  · subst hij
    rw [if_pos rfl]
    by_cases hi : i < l.length
    · rw [if_pos hi, List.getElem?_eq_getElem hi, Option.map_some, Option.map_some,
        h _ (List.getElem?_eq_getElem hi)]
    · rw [if_neg hi, List.getElem?_eq_none (by omega)]
  · rw [if_neg hij]

/-! ## Blanks -/

/-- The field without its contents: the length of a variable field is one of
them. -/
def Field.blank (f : Field) : Field :=
  { f with
    value := 0
    bytes := []
    nbits := if f.isVL then 0 else f.nbits
    vlMask := f.vlMask.map fun _ => 0 }

def Header.blank (h : Header) : Header :=
  { h with fields := h.fields.map Field.blank, valid := false, nbytesPacket := 0 }

def Stack.blank (st : Stack) : Stack := { st with next := 0 }

def HeaderUnion.blank (un : HeaderUnion) : HeaderUnion :=
  { un with valid := false, validHeaderIdx := 0 }

def Phv.blank (phv : Phv) : Phv where
  headers := phv.headers.map Header.blank
  headerStacks := phv.headerStacks.map Stack.blank
  headerUnions := phv.headerUnions.map HeaderUnion.blank
  headerUnionStacks := phv.headerUnionStacks.map Stack.blank

namespace Field

variable (f g : Field)

/-- A number changes the contents of a field only. -/
@[simp] theorem put_blank (v : ℤ) : (f.put v).blank = f.blank := rfl

/-- And so does one that had to fit. -/
theorem set_blank {f g : Field} {v : ℤ} (h : f.set v = some g) : g.blank = f.blank := by
  rw [eq_put_of_set h, put_blank]

/-- That a field is of variable length belongs to its layout, -/
@[simp] theorem isVL_blank : f.blank.isVL = f.isVL := by
  simp [blank, isVL]

/-- so that it is the same in two fields of one layout. -/
theorem isVL_congr {f g : Field} (h : f.blank = g.blank) : f.isVL = g.isVL := by
  rw [← isVL_blank f, h, isVL_blank]

/-- A blank field is its own blank. -/
theorem blank_blank : f.blank.blank = f.blank := by
  cases hv : f.vlMask <;> simp [blank, isVL, hv]

/-- Two fields of one layout differ in their contents only. -/
theorem eq_of_blank {f g : Field} (h : f.blank = g.blank) :
    g = { f with value := g.value, bytes := g.bytes, nbits := g.nbits, vlMask := g.vlMask } := by
  simp only [blank, Field.mk.injEq, Data.mk.injEq] at h
  obtain ⟨⟨-, harith⟩, -, -, hsigned, hsat, hhidden, -⟩ := h
  rw [harith, hsigned, hsat, hhidden]

/-- Of two fields of one layout, those of fixed width have the same width, -/
theorem nbits_congr {f g : Field} (h : f.blank = g.blank) (hvl : ¬f.isVL) : f.nbits = g.nbits := by
  have hg : ¬g.isVL := by rwa [← isVL_congr h]
  have hn := congrArg Field.nbits h
  simpa [blank, hvl, hg] using hn

/-- and no mask of their own. -/
theorem vlMask_congr {f g : Field} (h : f.blank = g.blank) (hvl : ¬f.isVL) :
    f.vlMask = g.vlMask := by
  have hg : ¬g.isVL := by rwa [← isVL_congr h]
  simp only [isVL, Bool.not_eq_true, Option.isSome_eq_false_iff, Option.isNone_iff_eq_none] at hvl hg
  rw [hvl, hg]

/-- The width of a variable field is copied with its contents. -/
theorem copyValue_blank : (f.copyValue g).blank = f.blank := by
  cases hv : f.vlMask <;> simp [copyValue, blank, isVL, hv]

/-- An assignment gives a variable field another width, which is not layout. -/
theorem assignVL_blank {f g f' : Field} (hvl : f.isVL) (h : f.assignVL g = some f') :
    f'.blank = f.blank := by
  rw [set_blank h, resizedTo]
  obtain ⟨m, hm⟩ := Option.isSome_iff_exists.mp hvl
  simp [blank, isVL, hm]

/-- A variable field that is emptied keeps its layout. -/
theorem resetVL_blank (hvl : f.isVL) : f.resetVL.blank = f.blank := by
  obtain ⟨m, hm⟩ := Option.isSome_iff_exists.mp hvl
  simp [resetVL, blank, isVL, hm]

end Field

namespace Header

variable (h : Header)

/-- The flag of a header and its hidden field are contents. -/
@[simp] theorem setValid_blank (b : Bool) : (h.setValid b).blank = h.blank := by
  have hfields : (h.setValid b).fields.map Field.blank = h.fields.map Field.blank :=
    map_modify_of_eq fun f _ => f.put_blank _
  simp only [blank, hfields]
  rfl

/-- A reset of a header clears contents only. -/
@[simp] theorem reset_blank : h.reset.blank = h.blank := by
  simp [reset, blank, Function.comp_def]

/-- Emptying the variable field leaves the layout of its header. -/
theorem resetVLHeader_blank : h.resetVLHeader.blank = h.blank := by
  unfold resetVLHeader
  split
  · rfl
  · simp only [blank, List.map_map, Header.mk.injEq, true_and, and_true]
    refine List.map_congr_left fun f _ => ?_
    rw [Function.comp_apply]
    split
    · exact f.resetVL_blank ‹_›
    · rfl

end Header

/-! ## Operations keep it -/

namespace Phv

/-- Two header vectors of one program. -/
def SameLayout (phv phv' : Phv) : Prop := phv.blank = phv'.blank

variable {phv phv' : Phv}

/-- A header that keeps its layout leaves that of the vector. -/
theorem modifyHeader_blank {i : ℕ} {f : Header → Header}
    (h : ∀ hdr, phv.headers[i]? = some hdr → (f hdr).blank = hdr.blank) :
    (phv.modifyHeader i f).blank = phv.blank := by
  simp only [blank, modifyHeader, map_modify_of_eq h]

/-- A union that keeps its members leaves the layout: its choice is not part of it. -/
theorem modifyUnion_blank {u : ℕ} {f : HeaderUnion → HeaderUnion}
    (h : ∀ un, (f un).headers = un.headers) : (phv.modifyUnion u f).blank = phv.blank := by
  have hunions : (phv.headerUnions.modify u f).map HeaderUnion.blank =
      phv.headerUnions.map HeaderUnion.blank :=
    map_modify_of_eq fun un _ => by rw [HeaderUnion.blank, HeaderUnion.blank, h]
  simp only [blank, modifyUnion, hunions]

section

variable {P : Phv → Prop}
variable (hheader : ∀ phv h b, P phv → P (phv.modifyHeader h (·.setValid b)))
variable (hunion : ∀ phv u f, (∀ un : HeaderUnion, (f un).headers = un.headers) → P phv →
  P (phv.modifyUnion u f))

include hheader hunion

/-- **The rule for `mark_invalid`.** What the flag of a header and the record
of a union keep, it keeps. -/
theorem markInvalid_keeps {h : ℕ} (hP : P phv) : P (phv.markInvalid h) := by
  unfold markInvalid
  split
  · exact hheader _ _ _ hP
  · refine hunion _ _ _ (fun un => ?_) (hheader _ _ _ hP)
    split <;> rfl

/-- What each change of a header and of a union keeps, `make_header_valid` keeps. -/
theorem makeHeaderValid_keeps {u idx : ℕ} (hP : P phv) : P (phv.makeHeaderValid u idx) := by
  unfold makeHeaderValid
  split
  · exact hP
  · refine hunion _ _ (fun un => { un with valid := true, validHeaderIdx := idx })
      (fun _ => rfl) ?_
    split
    · split
      · exact hP
      · exact markInvalid_keeps hheader hunion hP
    · exact hP

/-- And for `mark_valid`. -/
theorem markValid_keeps {h : ℕ} (hP : P phv) : P (phv.markValid h) := by
  unfold markValid
  split
  · exact hheader _ _ _ hP
  · exact makeHeaderValid_keeps hheader hunion (hheader _ _ _ hP)

end

/-- No mark changes the layout. -/
@[simp] theorem markInvalid_blank (phv : Phv) (h : ℕ) : (phv.markInvalid h).blank = phv.blank :=
  markInvalid_keeps (P := fun p => p.blank = phv.blank)
    (fun _ _ b hP => (modifyHeader_blank fun hdr _ => hdr.setValid_blank b).trans hP)
    (fun _ _ _ hf hP => (modifyUnion_blank hf).trans hP) rfl

/-- No mark changes the layout. -/
@[simp] theorem markValid_blank (phv : Phv) (h : ℕ) : (phv.markValid h).blank = phv.blank :=
  markValid_keeps (P := fun p => p.blank = phv.blank)
    (fun _ _ b hP => (modifyHeader_blank fun hdr _ => hdr.setValid_blank b).trans hP)
    (fun _ _ _ hf hP => (modifyUnion_blank hf).trans hP) rfl

/-- The counts of stacks are contents. -/
@[simp] theorem resetHeaderStacks_blank (phv : Phv) : phv.resetHeaderStacks.blank = phv.blank := by
  simp [resetHeaderStacks, blank, Stack.blank, Function.comp_def]

/-- Metadata keep their fields. -/
@[simp] theorem resetMetadata_blank (phv : Phv) : phv.resetMetadata.blank = phv.blank := by
  simp only [resetMetadata, blank, List.map_map, Phv.mk.injEq, and_true]
  refine List.map_congr_left fun h _ => ?_
  rw [Function.comp_apply]
  split
  · exact h.reset_blank
  · rfl

/-- **The reset by the owner of a packet** changes contents only. -/
@[simp] theorem reset_blank (phv : Phv) : phv.reset.blank = phv.blank := by
  unfold reset
  generalize List.range phv.headers.length = hs
  induction hs generalizing phv with
  | nil => rfl
  | cons h hs ih =>
    rw [List.foldl_cons, ih, modifyHeader_blank fun hdr _ => hdr.resetVLHeader_blank,
      markInvalid_blank]

end Phv

/-! ## Operations that may stop -/

/-- What is there is found. -/
theorem required_some {α : Type*} (a : α) : required (some a) = .ok a := rfl

/-- Two fields that exchange their values keep their layouts. -/
theorem Field.swapValues_blank {f g f' g' : Field} (h : f.swapValues g = .ok (f', g')) :
    f'.blank = f.blank ∧ g'.blank = g.blank := by
  unfold swapValues at h
  split at h
  · split at h
    · -- Both are of variable length, and their lengths are erased.
      next hf hg =>
      obtain ⟨m, hm⟩ := Option.isSome_iff_exists.mp hf
      obtain ⟨n, hn⟩ := Option.isSome_iff_exists.mp hg.1
      cases h
      simp [blank, isVL, hm, hn]
    · cases h
  · cases h
    exact ⟨rfl, rfl⟩

namespace Header

/-- So do the fields of two headers, one by one, -/
theorem swapFields_blank {fs gs fs' gs' : List Field} (h : swapFields fs gs = .ok (fs', gs')) :
    fs'.map Field.blank = fs.map Field.blank ∧ gs'.map Field.blank = gs.map Field.blank := by
  induction fs generalizing gs fs' gs' with
  | nil =>
    cases h
    exact ⟨rfl, rfl⟩
  | cons f fs ih =>
    cases gs with
    | nil => cases h
    | cons g gs =>
      obtain ⟨⟨f', g'⟩, hfg, h⟩ := bind_eq_ok h
      obtain ⟨⟨fs'', gs''⟩, hrest, h⟩ := bind_eq_ok h
      cases h
      obtain ⟨hf, hg⟩ := Field.swapValues_blank hfg
      obtain ⟨hfs, hgs⟩ := ih hrest
      simp only [List.map_cons, hf, hg, hfs, hgs, and_self]

/-- and the two headers. -/
theorem swapValues_blank {x y x' y' : Header} (h : x.swapValues y = .ok (x', y')) :
    x'.blank = x.blank ∧ y'.blank = y.blank := by
  obtain ⟨⟨fields, others⟩, hfields, h⟩ := bind_eq_ok h
  cases h
  obtain ⟨hx, hy⟩ := swapFields_blank hfields
  simp only [blank, hx, hy, and_self]

/-- Fields that are copied keep the layout of those they are copied to. -/
theorem copyFieldsFrom_blank {fs gs fs' : List Field} (h : copyFieldsFrom fs gs = .ok fs') :
    fs'.map Field.blank = fs.map Field.blank := by
  induction fs generalizing gs fs' with
  | nil =>
    cases h
    rfl
  | cons f fs ih =>
    cases gs with
    | nil => cases h
    | cons g gs =>
      obtain ⟨rest, hrest, h⟩ := bind_eq_ok h
      cases h
      rw [List.map_cons, List.map_cons, Field.copyValue_blank, ih hrest]

/-- A copy between headers of one layout. -/
theorem copyFrom_blank {x y x' : Header} (h : x.copyFrom y = .ok x')
    (hxy : x.metadata = y.metadata) : x'.blank = x.blank := by
  unfold copyFrom at h
  split at h
  · obtain ⟨fields, hfields, h⟩ := bind_eq_ok h
    cases h
    simp only [blank, copyFieldsFrom_blank hfields, hxy]
  · cases h
    simp only [blank, hxy]

/-- Fields that are assigned keep their layout, the variable one with a new width. -/
theorem assignFields_blank {fs gs fs' : List Field} (h : assignFields fs gs = .ok fs') :
    fs'.map Field.blank = fs.map Field.blank := by
  induction fs generalizing gs fs' with
  | nil =>
    cases h
    rfl
  | cons f fs ih =>
    cases gs with
    | nil => cases h
    | cons g gs =>
      obtain ⟨f', hf', h⟩ := bind_eq_ok h
      obtain ⟨rest, hrest, h⟩ := bind_eq_ok h
      cases h
      replace hf' := required_eq_ok hf'
      rw [List.map_cons, List.map_cons, ih hrest]
      split at hf'
      · rw [Field.assignVL_blank ‹_› hf']
      · rw [Field.set_blank hf']

/-- Only the size in the packet is computed again. -/
theorem recompute_blank {x x' : Header} (h : x.recomputeNbytesPacket = .ok x') :
    x' = { x with nbytesPacket := x'.nbytesPacket } := by
  unfold recomputeNbytesPacket at h
  split at h
  · cases h
    rfl
  · cases h

/-- A header that is assigned keeps its layout and its flag, which was set before. -/
theorem assignFrom_blank {x y x' : Header} (h : x.assignFrom y = .ok x') :
    x'.blank = x.blank ∧ x'.valid = x.valid := by
  unfold assignFrom at h
  split at h
  · cases h
  · obtain ⟨fields, hfields, h⟩ := bind_eq_ok h
    have hblank := assignFields_blank hfields
    dsimp only at h
    split at h
    · rw [recompute_blank h]
      simp only [blank, hblank, and_self]
    · cases h
      simp only [blank, hblank, and_self]

end Header

namespace Phv

variable {phv phv' : Phv}

/-- Two headers of the vector exchange contents only. -/
theorem swapHeaders_blank {a b : ℕ} (h : phv.swapHeaders a b = .ok phv') :
    phv'.blank = phv.blank := by
  obtain ⟨x, hx, h⟩ := bind_eq_ok h
  obtain ⟨y, hy, h⟩ := bind_eq_ok h
  obtain ⟨⟨x', y'⟩, hxy, h⟩ := bind_eq_ok h
  cases h
  replace hx := required_eq_ok hx
  replace hy := required_eq_ok hy
  obtain ⟨hx', hy'⟩ := Header.swapValues_blank hxy
  have hset : ((phv.headers.set a x').set b y').map Header.blank = phv.headers.map Header.blank := by
    rw [map_set_of_eq, map_set_of_eq]
    · rintro z hz
      rw [hx] at hz
      cases hz
      exact hx'
    · rintro z hz
      rw [List.getElem?_set] at hz
      split at hz
      · -- The two are one header.
        next hab =>
        subst hab
        split at hz
        · cases hz
          rw [hx] at hy
          cases hy
          rw [hy', hx']
        · cases hz
      · rw [hy] at hz
        cases hz
        exact hy'
  simp only [blank, hset]

/-- The members of two unions are exchanged one by one. -/
theorem swapMembers_blank {as bs : List ℕ} (h : phv.swapMembers as bs = .ok phv') :
    phv'.blank = phv.blank := by
  induction as generalizing phv bs with
  | nil =>
    cases h
    rfl
  | cons a as ih =>
    cases bs with
    | nil => cases h
    | cons b bs =>
      obtain ⟨phv₁, h₁, h⟩ := bind_eq_ok h
      rw [ih h, swapHeaders_blank h₁]

/-- The records after an exchange of two unions. -/
def exchanged (unions : List HeaderUnion) (u v : ℕ) (un un' : HeaderUnion) : List HeaderUnion :=
  (unions.set u { un with valid := un'.valid, validHeaderIdx := un'.validHeaderIdx }).set v
    { un' with valid := un.valid, validHeaderIdx := un.validHeaderIdx }

/-- Two unions exchange their choices, and keep their members. -/
theorem exchanged_blank {unions : List HeaderUnion} {u v : ℕ} {un un' : HeaderUnion}
    (hun : unions[u]? = some un) (hun' : unions[v]? = some un') :
    (exchanged unions u v un un').map HeaderUnion.blank = unions.map HeaderUnion.blank := by
  unfold exchanged
  rw [map_set_of_eq, map_set_of_eq]
  · rintro z hz
    rw [hun] at hz
    cases hz
    rfl
  · rintro z hz
    rw [List.getElem?_set] at hz
    split at hz
    · -- The two are one union.
      next huv =>
      subst huv
      rw [hun] at hun'
      cases hun'
      split at hz
      · cases hz
        rfl
      · cases hz
    · rw [hun'] at hz
      cases hz
      rfl

/-- **Unions that are exchanged keep the layout.** -/
theorem swapUnions_blank {u v : ℕ} (h : phv.swapUnions u v = .ok phv') :
    phv'.blank = phv.blank := by
  obtain ⟨un, hun, h⟩ := bind_eq_ok h
  obtain ⟨un', hun', h⟩ := bind_eq_ok h
  split at h
  · cases h
  · have hset := exchanged_blank (required_eq_ok hun) (required_eq_ok hun')
    rw [swapMembers_blank h]
    simp only [exchanged] at hset
    simp only [blank, hset]

/-- Headers that are copied to others of their layout keep it. -/
theorem copyHeaderList_blank {hs gs hs' : List Header} (h : copyHeaderList hs gs = .ok hs')
    (heq : hs.map Header.blank = gs.map Header.blank) :
    hs'.map Header.blank = hs.map Header.blank := by
  induction hs generalizing gs hs' with
  | nil =>
    cases h
    rfl
  | cons x hs ih =>
    cases gs with
    | nil => cases h
    | cons y gs =>
      obtain ⟨x', hx', h⟩ := bind_eq_ok h
      obtain ⟨rest, hrest, h⟩ := bind_eq_ok h
      cases h
      rw [List.map_cons, List.map_cons, List.cons.injEq] at heq
      have hmeta : x.blank.metadata = y.blank.metadata := congrArg Header.metadata heq.1
      rw [List.map_cons, List.map_cons, Header.copyFrom_blank hx' hmeta, ih hrest heq.2]

/-- Headers are copied between header vectors of one program. -/
theorem copyHeaders_blank {src : Phv} (h : phv.copyHeaders src = .ok phv')
    (heq : phv.SameLayout src) : phv'.blank = phv.blank := by
  obtain ⟨headers, hheaders, h⟩ := bind_eq_ok h
  cases h
  simp only [blank, copyHeaderList_blank hheaders (congrArg Phv.headers heq)]

end Phv

end P4Bricks
