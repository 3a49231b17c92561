import P4Bricks.Expressions.Reads
import P4Bricks.Phv.Alike
/-!
# What is seen of a header vector

An expression that reads fields in `R` only sees less of a header vector than
all of it: the layout, which headers are valid and what these hold, and the
fields in `R`. Two header vectors that are alike look the same to an
expression that reads known fields, also while a header is being extracted.
-/

namespace P4Bricks

open Parsing Expressions List

namespace Header

variable {s : Bool} {x x' y y' : Header}

/-- Lists of fields that are alike compare alike. -/
theorem fieldsEq_like {fs fs' gs gs' : List Field} (hf : Forall₂ (Field.Like s) fs fs')
    (hg : Forall₂ (Field.Like s) gs gs') : fieldsEq fs' gs' = fieldsEq fs gs := by
  induction hf generalizing gs gs' with
  | nil => cases hg <;> rfl
  | @cons f f' fs fs' hff _ ih =>
    cases hg with
    | nil => rfl
    | @cons g g' gs gs' hgg hrest =>
      have harith : f'.arith = f.arith := by rw [hff.rest]
      have harith' : g'.arith = g.arith := by rw [hgg.rest]
      rw [fieldsEq, fieldsEq, harith, harith', ih hrest]
      by_cases hboth : (f.arith && g.arith) = true
      · -- Numbers are compared only if arithmetic uses them.
        obtain ⟨hfa, hga⟩ := Bool.and_eq_true_iff.mp hboth
        rw [hff.value (.inr hfa), hgg.value (.inr hga)]
      · simp [hboth]

end Header

namespace Phv

variable {s : Bool} {K : ℕ → Prop} {R : ℕ → ℕ → Prop} {phv phv' : Phv}

/-- Two header vectors that look the same to what reads fields in `R`. -/
structure Seen (s : Bool) (R : ℕ → ℕ → Prop) (phv phv' : Phv) : Prop where
  blank : phv'.blank = phv.blank
  isValid : ∀ (h : ℕ) (x x' : Header), phv.headers[h]? = some x → phv'.headers[h]? = some x' →
    x'.isValid = x.isValid
  valid : ∀ (h : ℕ) (x x' : Header), phv.headers[h]? = some x → phv'.headers[h]? = some x' →
    x.isValid = true → Forall₂ (Field.Like s) x.fields x'.fields
  read : ∀ h o, R h o → (phv'.getField h o).map Field.toData = (phv.getField h o).map Field.toData
  choice : ∀ u, phv'.choice u = phv.choice u
  headerStacks : phv'.headerStacks = phv.headerStacks
  headerUnionStacks : phv'.headerUnionStacks = phv.headerUnionStacks

namespace Seen

/-- A header has its like in the other vector, -/
theorem header (hs : Seen s R phv phv') {h : ℕ} {x : Header} (hx : phv.headers[h]? = some x) :
    ∃ x', phv'.headers[h]? = some x' ∧ x'.headerType = x.headerType ∧ x'.isValid = x.isValid ∧
      (x.isValid = true → Forall₂ (Field.Like s) x.fields x'.fields) := by
  obtain ⟨x', hx', hb⟩ := exists_header hs.blank hx
  have htype := congrArg Header.headerType hb
  exact ⟨x', hx', htype, hs.isValid h x x' hx hx', hs.valid h x x' hx hx'⟩

/-- where it has none, the other has none, -/
theorem header_none (hs : Seen s R phv phv') {h : ℕ} (hx : phv.headers[h]? = none) :
    phv'.headers[h]? = none := by
  rw [List.getElem?_eq_none_iff] at hx ⊢
  rwa [headers_length hs.blank]

/-- two headers compare as their likes do, -/
theorem cmp (hs : Seen s R phv phv') {h g : ℕ} {x x' y y' : Header} (hx : phv.headers[h]? = some x)
    (hx' : phv'.headers[h]? = some x') (hy : phv.headers[g]? = some y)
    (hy' : phv'.headers[g]? = some y') : x'.cmp y' = x.cmp y := by
  obtain ⟨_, hx₁, hxt, hxv, hxf⟩ := hs.header hx
  obtain ⟨_, hy₁, hyt, hyv, hyf⟩ := hs.header hy
  obtain rfl := Option.some.inj (hx₁.symm.trans hx')
  obtain rfl := Option.some.inj (hy₁.symm.trans hy')
  rw [Header.cmp, Header.cmp, hxt, hyt, hxv, hyv]
  split
  · next hc => exact Header.fieldsEq_like (hxf hc.2.1) (hyf hc.2.2)
  · rfl

/-- Headers that are compared. -/
theorem cmpAt (hs : Seen s R phv phv') (o o' : Option ℕ) :
    (do let h ← phv'.headers[← o]?; let h' ← phv'.headers[← o']?; h.cmp h') =
      (do let h ← phv.headers[← o]?; let h' ← phv.headers[← o']?; h.cmp h') := by
  cases o with
  | none => rfl
  | some l =>
    cases hl : phv.headers[l]? with
    | none => simp [hl, hs.header_none hl]
    | some x =>
      obtain ⟨x', hl', -⟩ := hs.header hl
      cases o' with
      | none => simp
      | some r =>
        cases hr : phv.headers[r]? with
        | none => simp [hr, hs.header_none hr]
        | some y =>
          obtain ⟨y', hr', -⟩ := hs.header hr
          simp [hl, hl', hr, hr', hs.cmp hl hl' hr hr']

/-- and so do two unions. -/
theorem cmpUnion (hs : Seen s R phv phv') {u v : ℕ} {un un' vn vn' : HeaderUnion}
    (hu : phv.headerUnions[u]? = some un) (hu' : phv'.headerUnions[u]? = some un')
    (hv : phv.headerUnions[v]? = some vn) (hv' : phv'.headerUnions[v]? = some vn') :
    phv'.cmpUnion un' vn' = phv.cmpUnion un vn := by
  obtain ⟨_, hu₁, huh, huv, hui⟩ := same_union hs.blank (hs.choice u) hu
  obtain ⟨_, hv₁, hvh, hvv, hvi⟩ := same_union hs.blank (hs.choice v) hv
  obtain rfl := Option.some.inj (hu₁.symm.trans hu')
  obtain rfl := Option.some.inj (hv₁.symm.trans hv')
  unfold Phv.cmpUnion
  rw [huv, hvv, huh, hvh]
  by_cases hboth : un.valid = true ∧ vn.valid = true
  · rw [hui hboth.1, hvi hboth.2]
    split
    · exact hs.cmpAt _ _
    · rfl
  · rw [if_neg fun hc => hboth ⟨hc.1, hc.2.1⟩, if_neg fun hc => hboth ⟨hc.1, hc.2.1⟩]

/-- **Expressions cannot tell them apart.** -/
theorem env (hs : Seen s R phv phv') (locals : List Data) (registers : ℕ → ℕ → Option Data)
    (toUint toSize : ℤ → ℕ) : EnvAlike R ⟨phv, locals, registers, toUint, toSize⟩
      ⟨phv', locals, registers, toUint, toSize⟩ where
  locals := rfl
  registers := rfl
  toUint := rfl
  toSize := rfl
  headerStacks := hs.headerStacks
  headerUnionStacks := hs.headerUnionStacks
  loadField h o hR := hs.read h o hR
  loadHeader h := by
    simp only [Env.loadHeader]
    cases hx : phv.headers[h]? with
    | none => rw [hs.header_none hx]
    | some x =>
      obtain ⟨x', hx', -⟩ := hs.header hx
      rw [hx']
      rfl
  loadUnion u := by
    simp only [Env.loadUnion]
    cases hu : phv.headerUnions[u]? with
    | none => rw [union_none_of_blank hs.blank hu]
    | some un =>
      obtain ⟨un', hu', -⟩ := same_union hs.blank (hs.choice u) hu
      rw [hu']
      rfl
  accessUnionHeader o u := by
    simp only [Env.accessUnionHeader]
    cases hu : phv.headerUnions[u]? with
    | none => rw [union_none_of_blank hs.blank hu]
    | some un =>
      obtain ⟨un', hu', hheaders, -⟩ := same_union hs.blank (hs.choice u) hu
      rw [hu', Option.bind_some, Option.bind_some, hheaders]
  -- Comparisons read the fields of valid headers only, which are alike.
  cmpHeader neq l r := by
    simp only [Env.cmpHeader]
    cases hl : phv.headers[l]? with
    | none => rw [hs.header_none hl]; rfl
    | some x =>
      obtain ⟨x', hl', -⟩ := hs.header hl
      cases hr : phv.headers[r]? with
      | none => rw [hl', hs.header_none hr]; rfl
      | some y =>
        obtain ⟨y', hr', -⟩ := hs.header hr
        rw [hl', hr']
        simp only [Option.bind_eq_bind, Option.bind_some, hs.cmp hl hl' hr hr']
  cmpUnion neq l r := by
    simp only [Env.cmpUnion]
    cases hl : phv.headerUnions[l]? with
    | none => rw [union_none_of_blank hs.blank hl]; rfl
    | some un =>
      obtain ⟨un', hl', -⟩ := same_union hs.blank (hs.choice l) hl
      cases hr : phv.headerUnions[r]? with
      | none => rw [hl', union_none_of_blank hs.blank hr]; rfl
      | some vn =>
        obtain ⟨vn', hr', -⟩ := same_union hs.blank (hs.choice r) hr
        rw [hl', hr']
        simp only [Option.bind_eq_bind, Option.bind_some, hs.cmpUnion hl hl' hr hr']
  validHeader h := by
    simp only [Env.validHeader]
    cases hx : phv.headers[h]? with
    | none => rw [hs.header_none hx]
    | some x =>
      obtain ⟨x', hx', -, hv, -⟩ := hs.header hx
      rw [hx', Option.map_some, Option.map_some, hv]
  validUnion u := by
    simp only [Env.validUnion]
    cases hu : phv.headerUnions[u]? with
    | none => rw [union_none_of_blank hs.blank hu]
    | some un =>
      obtain ⟨un', hu', -, hv, -⟩ := same_union hs.blank (hs.choice u) hu
      rw [hu', Option.map_some, Option.map_some, hv]

end Seen

/-! ## Header vectors that are alike -/

/-- The fields whose numbers are the same in header vectors that are alike. -/
def Readable (s : Bool) (K : ℕ → Prop) (phv : Phv) (h o : ℕ) : Prop :=
  K h ∧ ∀ f, phv.getField h o = some f → s = true ∨ f.arith = true

/-- The same while a header is being extracted, of which `n` fields were
copied. -/
def ReadableIn (s : Bool) (K : ℕ → Prop) (phv : Phv) (h₀ n h o : ℕ) : Prop :=
  (K h ∨ h = h₀ ∧ o < n) ∧ ∀ f, phv.getField h o = some f → s = true ∨ f.arith = true

/-- Which fields have arithmetic enabled is layout. -/
theorem arith_of_blank {fs gs : List Field} (hb : fs.map Field.blank = gs.map Field.blank) {o : ℕ}
    {f : Field} (hf : fs[o]? = some f) : ∃ g, gs[o]? = some g ∧ g.arith = f.arith := by
  have heq := congrArg (fun l : List Field => l[o]?) hb
  simp only [List.getElem?_map, hf, Option.map_some] at heq
  obtain ⟨g, hg, hgf⟩ := Option.map_eq_some_iff.mp heq.symm
  have harith := congrArg (fun f : Field => f.arith) hgf
  exact ⟨g, hg, harith⟩

theorem headers_modifyHeader (phv : Phv) (h g : ℕ) (f : Header → Header) :
    (phv.modifyHeader h f).headers[g]? = if h = g then phv.headers[g]?.map f else phv.headers[g]? := by
  rw [Phv.modifyHeader, List.getElem?_modify]
  split <;> simp

namespace Alike

/-- Vectors that are alike are seen alike. -/
theorem seen (ha : Alike s K phv phv') : Seen s (Readable s K phv) phv phv' where
  blank := ha.blank
  isValid h x x' hx hx' := (ha.headers h x x' hx hx').isValid
  valid h x x' hx hx' hv := (ha.headers h x x' hx hx').fields (ha.known h x hx hv)
  read h o hR := by
    simp only [Phv.getField]
    cases hx : phv.headers[h]? with
    | none => rw [ha.header_none hx]
    | some x =>
      obtain ⟨x', hx', hlike⟩ := ha.header hx
      have hfields := hlike.fields hR.1
      simp only [hx', Option.bind_some, Header.getField]
      cases ho : x.fields[o]? with
      | none => rw [forall₂_getElem?_none hfields ho]
      | some f =>
        obtain ⟨f', hf', hff⟩ := forall₂_getElem? hfields ho
        rw [hf', Option.map_some, Option.map_some,
          hff.toData (hR.2 f (by simp [Phv.getField, hx, Header.getField, ho]))]
  choice := ha.choice
  headerStacks := ha.headerStacks
  headerUnionStacks := ha.headerUnionStacks

/-- Some of a header's fields are new, as many in both. -/
theorem seenIn (ha : Alike s K phv phv') {h₀ : ℕ} {x x' : Header} {done done' rest rest' : List Field}
    (hx : phv.headers[h₀]? = some x) (hx' : phv'.headers[h₀]? = some x')
    (hlayout : (done ++ rest).map Field.blank = x.fields.map Field.blank)
    (hdone : Forall₂ (Field.Like s) done done') (hrest : Forall₂ (Field.Shaped s) rest rest')
    (hknown : K h₀ → Forall₂ (Field.Like s) rest rest') :
    Seen s (ReadableIn s K phv h₀ done.length)
      (phv.modifyHeader h₀ fun x => { x with fields := done ++ rest })
      (phv'.modifyHeader h₀ fun x => { x with fields := done' ++ rest' }) := by
  have hb : ∀ z, phv.headers[h₀]? = some z → ({ z with fields := done ++ rest } : Header).blank = z.blank := by
    intro z hz
    obtain rfl := Option.some.inj (hz.symm.trans hx)
    simp only [Header.blank, hlayout]
  have hlike := ha.headers h₀ x x' hx hx'
  have hlayout' : (done' ++ rest').map Field.blank = x'.fields.map Field.blank := by
    have hshaped := rel_append (hdone.imp fun _ _ h => h.shaped) hrest
    rw [Header.blank_of_shaped hshaped, hlayout, ← Header.fields_blank hlike.blank]
  have hb' : ∀ z, phv'.headers[h₀]? = some z →
      ({ z with fields := done' ++ rest' } : Header).blank = z.blank := by
    intro z hz
    obtain rfl := Option.some.inj (hz.symm.trans hx')
    simp only [Header.blank, hlayout']
  have hseen := ha.seen
  refine ⟨by rw [modifyHeader_blank hb, modifyHeader_blank hb', ha.blank], fun h y y' hy hy' => ?_,
    fun h y y' hy hy' hv => ?_, fun h o hR => ?_, ha.choice, ha.headerStacks, ha.headerUnionStacks⟩
  · rw [headers_modifyHeader] at hy hy'
    by_cases heq : h₀ = h
    · subst heq
      rw [if_pos rfl, hx] at hy
      rw [if_pos rfl, hx'] at hy'
      obtain rfl := Option.some.inj hy
      obtain rfl := Option.some.inj hy'
      exact hlike.isValid
    · rw [if_neg heq] at hy hy'
      exact hseen.isValid h y y' hy hy'
  · rw [headers_modifyHeader] at hy hy'
    by_cases heq : h₀ = h
    · subst heq
      rw [if_pos rfl, hx] at hy
      rw [if_pos rfl, hx'] at hy'
      obtain rfl := Option.some.inj hy
      obtain rfl := Option.some.inj hy'
      exact rel_append hdone (hknown (ha.known h₀ x hx hv))
    · rw [if_neg heq] at hy hy'
      exact hseen.valid h y y' hy hy' hv
  · simp only [Phv.getField, headers_modifyHeader]
    by_cases heq : h₀ = h
    · subst heq
      simp only [if_pos, hx, hx', Option.map_some, Option.bind_some, Header.getField]
      cases ho : (done ++ rest)[o]? with
      | none =>
        rw [forall₂_getElem?_none (rel_append (hdone.imp fun _ _ h => h.shaped) hrest) ho]
      | some f =>
        obtain ⟨f', hf', hff⟩ : ∃ f', (done' ++ rest')[o]? = some f' ∧ Field.Like s f f' := by
          -- The field was copied, or the header is known.
          by_cases hlt : o < done.length
          · rw [List.getElem?_append_left hlt] at ho
            obtain ⟨f', hf', hff⟩ := forall₂_getElem? hdone ho
            exact ⟨f', by rw [List.getElem?_append_left (by rw [← hdone.length_eq]; exact hlt), hf'], hff⟩
          · exact forall₂_getElem? (rel_append hdone (hknown (hR.1.resolve_right fun h => hlt h.2))) ho
        obtain ⟨g, hg, harith⟩ := arith_of_blank hlayout ho
        have hread := hR.2 g (by simp [Phv.getField, hx, Header.getField, hg])
        rw [harith] at hread
        rw [hf', Option.map_some, Option.map_some, hff.toData hread]
    · rw [if_neg heq, if_neg heq]
      exact hseen.read h o ⟨hR.1.resolve_right fun hc => heq hc.1.symm, hR.2⟩

end Alike

end Phv

end P4Bricks
