import P4Bricks.Phv.Unions
/-!
# The stacks and unions of a program

What the description of a program says of its stacks and unions, carried to
the header vectors made from it. `Arranged` is a fact about the layout, so
that it holds in every state that is reached from a new header vector.
-/

namespace P4Bricks

open Parsing

namespace Phv

variable {phv phv' : Phv}

theorem exists_stack (hb : phv'.blank = phv.blank) (k : Stack.Kind) {s : ℕ} {st : Stack}
    (hs : (k.stacksOf phv)[s]? = some st) :
    ∃ st', (k.stacksOf phv')[s]? = some st' ∧ st'.elements = st.elements := by
  have heq : (k.stacksOf phv')[s]?.map Stack.blank = (k.stacksOf phv)[s]?.map Stack.blank := by
    cases k with
    | header =>
      have := congrArg (fun p => p.headerStacks[s]?) hb
      simpa [blank, Stack.Kind.stacksOf] using this
    | headerUnion =>
      have := congrArg (fun p => p.headerUnionStacks[s]?) hb
      simpa [blank, Stack.Kind.stacksOf] using this
  rw [hs, Option.map_some] at heq
  obtain ⟨st', hst', hsame⟩ := Option.map_eq_some_iff.mp heq
  have helements := congrArg Stack.elements hsame
  exact ⟨st', hst', helements⟩

/-- **The stacks and unions are those of a program.** -/
structure Arranged (phv : Phv) : Prop where
  joined : phv.Joined
  whole : ∀ hdr ∈ phv.headers, hdr.blank.nbits % 8 = 0
  nodup : ∀ k (s : ℕ) (st : Stack), (Stack.Kind.stacksOf k phv)[s]? = some st → st.elements.Nodup
  free : ∀ (s : ℕ) (st : Stack), phv.headerStacks[s]? = some st → ∀ h ∈ st.elements, phv.memberOf h = none
  exchange : ∀ (s : ℕ) (st : Stack), phv.headerStacks[s]? = some st →
    ∀ a ∈ st.elements, ∀ b ∈ st.elements, phv.Exchangeable a b
  unions : ∀ (s : ℕ) (st : Stack), phv.headerUnionStacks[s]? = some st →
    ∀ u ∈ st.elements, ∀ v ∈ st.elements, phv.ExchangeableUnions u v

theorem Arranged.congr (ha : phv.Arranged) (hb : phv'.blank = phv.blank) : phv'.Arranged where
  joined := ha.joined.congr hb
  whole hdr hhdr := by
    obtain ⟨h, hh⟩ := List.mem_iff_getElem?.mp hhdr
    obtain ⟨hdr', hh', heq⟩ := exists_header hb.symm hh
    exact heq ▸ ha.whole hdr' (List.mem_of_getElem? hh')
  nodup k s st hst := by
    obtain ⟨st', hst', heq⟩ := exists_stack hb.symm k hst
    exact heq ▸ ha.nodup k s st' hst'
  free s st hst h hh := by
    obtain ⟨st', hst', heq⟩ := exists_stack hb.symm .header hst
    rw [memberOf_congr hb]
    exact ha.free s st' hst' h (heq ▸ hh)
  exchange s st hst a hma b hmb := by
    obtain ⟨st', hst', heq⟩ := exists_stack hb.symm .header hst
    exact (ha.exchange s st' hst' a (heq ▸ hma) b (heq ▸ hmb)).congr hb
  unions s st hst u hu v hv := by
    obtain ⟨st', hst', heq⟩ := exists_stack hb.symm .headerUnion hst
    exact (ha.unions s st' hst' u (heq ▸ hu) v (heq ▸ hv)).congr hb

end Phv

/-! ## New header vectors -/

namespace PhvFactory

variable {F : PhvFactory}

theorem setMemberships_stacks (phv : Phv) (u idx : ℕ) (hs : List ℕ) :
    (phv.setMemberships u idx hs).headerStacks = phv.headerStacks ∧
      (phv.setMemberships u idx hs).headerUnionStacks = phv.headerUnionStacks := by
  induction hs generalizing phv idx with
  | nil => exact ⟨rfl, rfl⟩
  | cons h hs ih => exact ih _ (idx + 1)

theorem create_stacks (F : PhvFactory) :
    F.create.headerStacks = F.headerStackDescs.map (⟨·, 0⟩) ∧
      F.create.headerUnionStacks = F.headerUnionStackDescs.map (⟨·, 0⟩) := by
  have hall : ∀ (unions : List (List ℕ)) (phv : Phv),
      (unions.foldl Phv.pushBackHeaderUnion phv).headerStacks = phv.headerStacks ∧
        (unions.foldl Phv.pushBackHeaderUnion phv).headerUnionStacks = phv.headerUnionStacks := by
    intro unions
    induction unions with
    | nil => exact fun _ => ⟨rfl, rfl⟩
    | cons hs unions ih =>
      intro phv
      obtain ⟨h₁, h₂⟩ := ih (phv.pushBackHeaderUnion hs)
      obtain ⟨h₃, h₄⟩ := setMemberships_stacks
        { phv with headerUnions := phv.headerUnions ++ [⟨hs, false, 0⟩] } phv.headerUnions.length 0 hs
      exact ⟨h₁.trans h₃, h₂.trans h₄⟩
  exact hall F.headerUnionDescs F.createHeaders

/-- A header of the description is there. -/
theorem exists_create (hF : F.WellFormed) {h : ℕ} {desc : HeaderDesc}
    (hd : F.headerDescs[h]? = some desc) :
    ∃ hdr, F.create.headers[h]? = some hdr ∧ Phv.unjoined hdr = desc.create := by
  have heq := congrArg (·[h]?) (create_made hF).headers
  simp only [List.getElem?_map, createHeaders, hd, Option.map_some] at heq
  obtain ⟨hdr, hhdr, hsame⟩ := Option.map_eq_some_iff.mp heq
  exact ⟨hdr, hhdr, hsame⟩

theorem sameFields_create {desc desc' : HeaderDesc} (h : desc.headerType = desc'.headerType) :
    desc.create.SameFields desc'.create := by
  simp only [Header.SameFields, HeaderDesc.create, h]
  refine List.ext_getElem? fun i => ?_
  simp only [List.getElem?_map, List.getElem?_mapIdx, Option.map_map]
  rfl

theorem exchangeable_create (hF : F.WellFormed) {a b : ℕ} {desc desc' : HeaderDesc}
    (hd : F.headerDescs[a]? = some desc) (hd' : F.headerDescs[b]? = some desc')
    (hm : desc.metadata = false) (hm' : desc'.metadata = false)
    (ht : desc.headerType = desc'.headerType) : F.create.Exchangeable a b := by
  obtain ⟨x, hx, hxd⟩ := exists_create hF hd
  obtain ⟨y, hy, hyd⟩ := exists_create hF hd'
  have hsame : x.SameFields y := by
    have h := sameFields_create ht
    rw [← hxd, ← hyd] at h
    exact h
  exact ⟨x, y, hx, hy, hsame, (congrArg Header.metadata hxd).trans hm,
    (congrArg Header.metadata hyd).trans hm'⟩

/-- The bits of the fields that are not of variable length. -/
theorem nbits_create (desc : HeaderDesc) :
    desc.create.blank.nbits = (desc.headerType.fieldsInfo.map FInfo.bitwidth).sum := by
  have hfields : ∀ (fis : List FInfo) (g : ℕ → Bool), (∀ fi ∈ fis, fi.isHidden = false) →
      (∀ fi ∈ fis, fi.isVL → fi.bitwidth = 0 ∧ fi.isSigned = false) →
      ((((fis ++ [HeaderType.hiddenInfo]).mapIdx fun i fi => Field.ofInfo (g i) fi).map
        Field.blank).takeWhile fun f => !f.hidden).map Field.nbits = fis.map FInfo.bitwidth := by
    intro fis
    induction fis with
    | nil => intro g _ _; rfl
    | cons fi fis ih =>
      intro g hhid hvl
      have hrest := ih (fun i => g (i + 1)) (fun fi' h => hhid fi' (List.mem_cons_of_mem _ h))
        fun fi' h => hvl fi' (List.mem_cons_of_mem _ h)
      have hvis : (Field.ofInfo (g 0) fi).blank.hidden = false := hhid fi List.mem_cons_self
      have hwidth : (Field.ofInfo (g 0) fi).blank.nbits = fi.bitwidth := by
        cases hfi : fi.isVL with
        | false => simp [Field.ofInfo, Field.blank, Field.isVL, hfi]
        | true =>
          have := (hvl fi List.mem_cons_self hfi).1
          simp [Field.ofInfo, Field.blank, Field.isVL, hfi, this]
      rw [List.cons_append, List.mapIdx_cons, List.map_cons, List.takeWhile_cons, hvis]
      simp only [Bool.not_false, if_true]
      rw [List.map_cons, List.map_cons, hwidth, hrest]
  rw [← hfields _ (fun i => decide (i ∈ desc.arithOffsets)) desc.headerType.notHidden
    desc.headerType.vlEmpty]
  rfl

/-- **A new header vector is arranged as the program says.** -/
theorem create_arranged (hF : F.WellFormed) : F.create.Arranged where
  joined := create_joined hF
  whole hdr hhdr := by
    obtain ⟨h, hh⟩ := List.mem_iff_getElem?.mp hhdr
    obtain ⟨desc, -, heq⟩ := create_header hF hh
    have hnbits : hdr.blank.nbits = desc.create.blank.nbits := by
      rw [← heq]
      rfl
    rw [hnbits, nbits_create]
    exact desc.headerType.wholeBytes
  nodup k s st hst := by
    cases k with
    | header =>
      rw [Stack.Kind.stacksOf, (create_stacks F).1, List.getElem?_map] at hst
      obtain ⟨hs, hhs, rfl⟩ := Option.map_eq_some_iff.mp hst
      exact hF.stack_nodup hs (List.mem_of_getElem? hhs)
    | headerUnion =>
      rw [Stack.Kind.stacksOf, (create_stacks F).2, List.getElem?_map] at hst
      obtain ⟨hs, hhs, rfl⟩ := Option.map_eq_some_iff.mp hst
      exact hF.union_stack_nodup hs (List.mem_of_getElem? hhs)
  free s st hst h hh := by
    rw [(create_stacks F).1, List.getElem?_map] at hst
    obtain ⟨hs, hhs, rfl⟩ := Option.map_eq_some_iff.mp hst
    obtain ⟨t, ht⟩ := hF.stack_headers hs (List.mem_of_getElem? hhs)
    exact (create_made hF).free h (ht h hh).1
  exchange s st hst a ha b hb := by
    rw [(create_stacks F).1, List.getElem?_map] at hst
    obtain ⟨hs, hhs, rfl⟩ := Option.map_eq_some_iff.mp hst
    obtain ⟨t, ht⟩ := hF.stack_headers hs (List.mem_of_getElem? hhs)
    obtain ⟨-, desc, hd, hm, hdt⟩ := ht a ha
    obtain ⟨-, desc', hd', hm', hdt'⟩ := ht b hb
    exact exchangeable_create hF hd hd' hm hm' (hdt.trans hdt'.symm)
  unions s st hst u hu v hv := by
    rw [(create_stacks F).2, List.getElem?_map] at hst
    obtain ⟨us, hus, rfl⟩ := Option.map_eq_some_iff.mp hst
    obtain ⟨ts, hts⟩ := hF.union_stack_unions us (List.mem_of_getElem? hus)
    obtain ⟨hs, hhs, hmap⟩ := hts u hu
    obtain ⟨hs', hhs', hmap'⟩ := hts v hv
    -- A union of the program has its members and no valid one.
    have hunion : ∀ (w : ℕ) ms, F.headerUnionDescs[w]? = some ms →
        F.create.headerUnions[w]? = some (HeaderUnion.mk ms false 0) := by
      intro w ms hw
      rw [(create_made hF).headerUnions, List.getElem?_map, hw]
      rfl
    have hdesc : ∀ (w : ℕ) ms, F.headerUnionDescs[w]? = some ms → ∀ h ∈ ms,
        ∃ desc, F.headerDescs[h]? = some desc ∧ desc.metadata = false := by
      intro w ms hw h hh
      exact hF.members h (List.mem_flatten_of_mem (List.mem_of_getElem? hw) hh)
    refine ⟨_, _, hunion u hs hhs, hunion v hs' hhs', ?_, fun i a b hia hib => ?_⟩
    · have hlen := congrArg List.length (hmap.trans hmap'.symm)
      simpa using hlen
    · -- Members in one place have one type, as the unions of a stack have.
      obtain ⟨desc, hd, hm⟩ := hdesc u hs hhs a (List.mem_of_getElem? hia)
      obtain ⟨desc', hd', hm'⟩ := hdesc v hs' hhs' b (List.mem_of_getElem? hib)
      have ht := congrArg (·[i]?) (hmap.trans hmap'.symm)
      simp only [List.getElem?_map] at ht
      rw [show hs[i]? = some a from hia, show hs'[i]? = some b from hib] at ht
      simp only [Option.map_some, hd, hd', Option.some.injEq] at ht
      exact exchangeable_create hF hd hd' hm hm' ht

end PhvFactory

end P4Bricks
