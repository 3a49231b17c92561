import P4Bricks.Phv.Exchange
/-!
# Header unions

Which member of a union is valid is kept twice: in the flags of the headers
and in the union's own record. `Choice` is what a union is for, the one member
it holds, if any. The record is that choice, and `Agree` says that the flags
of the members are those of the choice. Each change of a flag, and each
exchange of two unions, keeps it.
-/

namespace P4Bricks

open Parsing

namespace Phv

variable {phv phv' : Phv}

/-! ## Members -/

/-- The union a header is in, and its place there, as the header knows it. -/
def memberOf (phv : Phv) (h : ℕ) : Option (ℕ × ℕ) := phv.headers[h]?.bind Header.unionMembership

/-- The header at a place of a union, as the union knows it. -/
def member (phv : Phv) (p : ℕ × ℕ) : Option ℕ := phv.headerUnions[p.1]?.bind fun un => un.headers[p.2]?

/-- The headers of a union. -/
def members (phv : Phv) (u : ℕ) : List ℕ := (phv.headerUnions[u]?.map HeaderUnion.headers).getD []

/-- A member by its place. -/
theorem members_getElem? (phv : Phv) (u i : ℕ) : (phv.members u)[i]? = phv.member (u, i) := by
  rw [members, member]
  cases phv.headerUnions[u]? <;> rfl

/-- The member a union holds, by its record. -/
def choice (phv : Phv) (u : ℕ) : Option ℕ :=
  phv.headerUnions[u]?.bind fun un => if un.valid then some un.validHeaderIdx else none

/-- The record of a union, as it is kept. -/
def record (phv : Phv) (u : ℕ) : Option (Bool × ℕ) :=
  phv.headerUnions[u]?.map fun un => (un.valid, un.validHeaderIdx)

/-- The choice is what the record says when it is valid. -/
theorem choice_eq_record (phv : Phv) (u : ℕ) :
    phv.choice u = (phv.record u).bind fun r => if r.1 then some r.2 else none := by
  rw [choice, record, Option.bind_map]
  rfl

/-- The headers and the unions know the same memberships, and no member is
metadata. -/
structure Joined (phv : Phv) : Prop where
  member_iff : ∀ p h, phv.member p = some h ↔ phv.memberOf h = some p
  notMetadata : ∀ hdr ∈ phv.headers, hdr.unionMembership.isSome → hdr.metadata = false

/-- Which union a header is in belongs to the layout, -/
theorem memberOf_blank (phv : Phv) (h : ℕ) : phv.blank.memberOf h = phv.memberOf h := by
  simp only [memberOf, blank, List.getElem?_map]
  cases phv.headers[h]? <;> rfl

/-- and so does which header is at a place of a union. -/
theorem member_blank (phv : Phv) (p : ℕ × ℕ) : phv.blank.member p = phv.member p := by
  simp only [member, blank, List.getElem?_map]
  cases phv.headerUnions[p.1]? <;> rfl

/-- So it is the same in two vectors of one layout, -/
theorem memberOf_congr (h : phv'.blank = phv.blank) (i : ℕ) : phv'.memberOf i = phv.memberOf i := by
  rw [← memberOf_blank, h, memberOf_blank]

/-- both ways. -/
theorem member_congr (h : phv'.blank = phv.blank) (p : ℕ × ℕ) : phv'.member p = phv.member p := by
  rw [← member_blank, h, member_blank]

/-- The two ways agree in every vector of the layout. -/
theorem Joined.congr (hj : phv.Joined) (h : phv'.blank = phv.blank) : phv'.Joined where
  member_iff p i := by rw [member_congr h, memberOf_congr h, hj.member_iff]
  notMetadata hdr hhdr hsome := by
    obtain ⟨hdr', hhdr', heq⟩ : ∃ hdr' ∈ phv.headers, hdr'.blank = hdr.blank := by
      rw [← List.mem_map, show phv.headers.map Header.blank = phv'.headers.map Header.blank from
        (congrArg Phv.headers h).symm]
      exact List.mem_map_of_mem hhdr
    have hmeta : hdr'.blank.metadata = hdr.blank.metadata := congrArg Header.metadata heq
    have hunion : hdr'.blank.unionMembership = hdr.blank.unionMembership :=
      congrArg Header.unionMembership heq
    exact hmeta ▸ hj.notMetadata hdr' hhdr' (hunion.symm ▸ hsome)

/-- A place has one member, and a member one place. -/
theorem Joined.place_inj (hj : phv.Joined) {p q : ℕ × ℕ} {h : ℕ} (hp : phv.member p = some h)
    (hq : phv.member q = some h) : p = q := by
  rw [hj.member_iff] at hp hq
  rw [hp] at hq
  exact Option.some.inj hq

/-- What a union chose is a member. -/
def Chosen (phv : Phv) : Prop := ∀ u i, phv.choice u = some i → ∃ h, phv.member (u, i) = some h

/-- **The flags of the members are those of the choice.** -/
structure Agree (phv : Phv) : Prop where
  flag_iff : ∀ u i h, phv.member (u, i) = some h → (phv.flag h ↔ phv.choice u = some i)
  choice_member : phv.Chosen

/-- A choice that is kept, or given up. -/
theorem Chosen.congr (hc : phv.Chosen) (hb : phv'.blank = phv.blank)
    (hchoice : ∀ u i, phv'.choice u = some i → phv.choice u = some i) : phv'.Chosen := by
  intro u i h
  rw [member_congr hb]
  exact hc u i (hchoice u i h)

/-- Flags and records that stay agree as they did. -/
theorem Agree.congr (ha : phv.Agree) (hb : phv'.blank = phv.blank)
    (hflag : ∀ p h, phv.member p = some h → phv'.flag h = phv.flag h)
    (hchoice : ∀ u, phv'.choice u = phv.choice u) : phv'.Agree where
  flag_iff u i h hm := by
    rw [member_congr hb] at hm
    rw [hflag _ h hm, hchoice, ha.flag_iff u i h hm]
  choice_member := ha.choice_member.congr hb fun u i h => by rwa [← hchoice]

/-! ## What changes a flag -/

/-- A change of one header leaves the other flags. -/
theorem flag_modifyHeader {f : Header → Header} (h g : ℕ) :
    (phv.modifyHeader h f).flag g =
      if h = g then ((phv.headers[g]?.map f).map Header.valid).getD false else phv.flag g := by
  simp only [flag, modifyHeader, List.getElem?_modify]
  cases phv.headers[g]? with
  | none => simp
  | some hdr => split <;> simp [*]

/-- A change that leaves the flag of its header. -/
theorem flag_modifyHeader_of_eq {f : Header → Header} {h : ℕ}
    (hf : ∀ hdr, phv.headers[h]? = some hdr → (f hdr).valid = hdr.valid) (g : ℕ) :
    (phv.modifyHeader h f).flag g = phv.flag g := by
  rw [flag_modifyHeader]
  split
  · next heq =>
    subst heq
    unfold flag
    cases hh : phv.headers[h]? with
    | none => rfl
    | some hdr => simp [hf hdr hh]
  · rfl

/-- A header that is there gets the flag. -/
theorem flag_setValid {h g : ℕ} {b : Bool} (hh : (phv.headers[h]?).isSome) :
    (phv.modifyHeader h (·.setValid b)).flag g = if h = g then b else phv.flag g := by
  rw [flag_modifyHeader]
  split
  · next heq =>
    subst heq
    obtain ⟨hdr, hhdr⟩ := Option.isSome_iff_exists.mp hh
    simp [hhdr, Header.setValid]
  · rfl

/-- A change of one union leaves the other choices. -/
theorem choice_modifyUnion {f : HeaderUnion → HeaderUnion} (u v : ℕ) :
    (phv.modifyUnion u f).choice v =
      if u = v then (phv.headerUnions[v]?.map f).bind fun un =>
        if un.valid then some un.validHeaderIdx else none
      else phv.choice v := by
  simp only [choice, modifyUnion, List.getElem?_modify]
  cases phv.headerUnions[v]? with
  | none => simp
  | some un => split <;> simp [*]

/-- Only a header that is there is in a union. -/
theorem isSome_of_memberOf {h : ℕ} {p : ℕ × ℕ} (hm : phv.memberOf h = some p) :
    (phv.headers[h]?).isSome := by
  obtain ⟨hdr, hhdr, -⟩ := Option.bind_eq_some_iff.mp hm
  rw [hhdr]
  rfl

/-- `mark_invalid` of a header in no union. -/
theorem markInvalid_of_none {h : ℕ} (hm : phv.memberOf h = none) :
    phv.markInvalid h = phv.modifyHeader h (·.setValid false) := by
  simp only [memberOf] at hm
  simp only [markInvalid, hm]

/-- A header that is in no union is only marked, -/
theorem markValid_of_none {h : ℕ} (hm : phv.memberOf h = none) :
    phv.markValid h = phv.modifyHeader h (·.setValid true) := by
  simp only [memberOf] at hm
  simp only [markValid, hm]

/-- the choice of its union goes with the mark of a member that was it, -/
theorem markInvalid_of_some {h u i : ℕ} (hm : phv.memberOf h = some (u, i)) :
    phv.markInvalid h = (phv.modifyHeader h (·.setValid false)).modifyUnion u fun un =>
      if un.valid ∧ un.validHeaderIdx = i then { un with valid := false } else un := by
  simp only [memberOf] at hm
  simp only [markInvalid, hm]

/-- and a member that is marked becomes the choice. -/
theorem markValid_of_some {h u i : ℕ} (hm : phv.memberOf h = some (u, i)) :
    phv.markValid h = (phv.modifyHeader h (·.setValid true)).makeHeaderValid u i := by
  simp only [memberOf] at hm
  simp only [markValid, hm]

/-- A header in no union changes its own flag only. -/
theorem Agree.setValid_of_none (ha : phv.Agree) (hj : phv.Joined) {h : ℕ} {b : Bool}
    (hm : phv.memberOf h = none) : (phv.modifyHeader h (·.setValid b)).Agree := by
  refine ha.congr (modifyHeader_blank fun hdr _ => hdr.setValid_blank b) (fun p g hg => ?_)
    fun u => rfl
  rw [flag_modifyHeader, if_neg]
  rintro rfl
  rw [hj.member_iff, hm] at hg
  cases hg

/-- **What `mark_invalid` does to a member.** -/
theorem markInvalid_spec {h u i : ℕ} (hm : phv.memberOf h = some (u, i)) :
    (∀ g, (phv.markInvalid h).flag g = if h = g then false else phv.flag g) ∧
      ∀ v, (phv.markInvalid h).choice v =
        if u = v ∧ phv.choice v = some i then none else phv.choice v := by
  have heq := markInvalid_of_some hm
  refine ⟨fun g => ?_, fun v => ?_⟩
  · rw [heq, show ((phv.modifyHeader h (·.setValid false)).modifyUnion u _).flag g =
      (phv.modifyHeader h (·.setValid false)).flag g from rfl,
      flag_setValid (isSome_of_memberOf hm)]
  · rw [heq, choice_modifyUnion]
    by_cases huv : u = v
    · subst huv
      rw [if_pos rfl]
      unfold choice
      cases hu : phv.headerUnions[u]? with
      | none => simp [modifyHeader, hu]
      | some un =>
        cases hv : un.valid with
        | false => simp [modifyHeader, hu, hv]
        | true =>
          by_cases hi : un.validHeaderIdx = i <;> simp [modifyHeader, hu, hv, hi]
    · rw [if_neg huv, if_neg fun hc => huv hc.1]
      rfl

/-- A choice that is given up leaves no choice of what is not there. -/
theorem Chosen.markInvalid (hc : phv.Chosen) (h : ℕ) : (phv.markInvalid h).Chosen := by
  refine hc.congr (markInvalid_blank phv h) fun u i hi => ?_
  cases hm : phv.memberOf h with
  | none =>
    rw [markInvalid_of_none hm] at hi
    exact hi
  | some p =>
    rw [(markInvalid_spec hm).2] at hi
    split at hi
    · cases hi
    · exact hi

/-- **A header that is marked as not valid** leaves flags and choices in agreement. -/
theorem Agree.markInvalid (ha : phv.Agree) (hj : phv.Joined) (h : ℕ) : (phv.markInvalid h).Agree := by
  cases hm : phv.memberOf h with
  | none =>
    rw [markInvalid_of_none hm]
    exact ha.setValid_of_none hj hm
  | some p =>
    obtain ⟨u, i⟩ := p
    obtain ⟨hflag, hchoice⟩ := markInvalid_spec hm
    have hh : phv.member (u, i) = some h := (hj.member_iff _ _).mpr hm
    refine ⟨fun v j g hg => ?_, ha.choice_member.markInvalid h⟩
    rw [member_congr (markInvalid_blank phv h)] at hg
    rw [hflag, hchoice]
    by_cases hhg : h = g
    · -- The header itself: if it was the choice, there is none left.
      subst hhg
      obtain ⟨rfl, rfl⟩ := Prod.mk.inj (hj.place_inj hh hg)
      by_cases hc : phv.choice u = some i <;> simp [hc]
    · rw [if_neg hhg, ha.flag_iff v j g hg]
      split
      · next hc =>
        obtain ⟨rfl, hc⟩ := hc
        rw [hc]
        simp only [Option.some.injEq, reduceCtorEq, iff_false]
        rintro rfl
        rw [hh] at hg
        exact hhg (Option.some.inj hg)
      · rfl

/-- The member that loses its flag when the one at place `i` gets it. -/
def displaced (phv : Phv) (u i : ℕ) : Option ℕ :=
  (phv.choice u).bind fun j => if j = i then none else phv.member (u, j)

/-- The member that another one displaces: the choice of the union, if it is not that
one. -/
theorem displaced_eq_some {u i g : ℕ} :
    phv.displaced u i = some g ↔ ∃ j ≠ i, phv.choice u = some j ∧ phv.member (u, j) = some g := by
  unfold displaced
  rw [Option.bind_eq_some_iff]
  constructor
  · rintro ⟨j, hc, hg⟩
    split at hg
    · cases hg
    · exact ⟨j, ‹_›, hc, hg⟩
  · rintro ⟨j, hji, hc, hg⟩
    exact ⟨j, hc, by rw [if_neg hji, hg]⟩

/-- The member that is displaced is marked, then the record is changed. -/
theorem makeHeaderValid_eq {u i h : ℕ} (hc : phv.Chosen) (hh : phv.member (u, i) = some h) :
    phv.makeHeaderValid u i = ((phv.displaced u i).elim phv phv.markInvalid).modifyUnion u fun un =>
      { un with valid := true, validHeaderIdx := i } := by
  obtain ⟨un, hun, -⟩ := Option.bind_eq_some_iff.mp hh
  replace hun : phv.headerUnions[u]? = some un := hun
  simp only [makeHeaderValid, hun]
  congr 1
  by_cases hv : un.valid = true
  · have hcu : phv.choice u = some un.validHeaderIdx := by simp [choice, hun, hv]
    obtain ⟨g, hg⟩ := hc _ _ hcu
    have hg' : un.headers[un.validHeaderIdx]? = some g := by simpa [member, hun] using hg
    by_cases hi : un.validHeaderIdx = i
    · simp [displaced, hcu, hi]
    · simp [displaced, hcu, hi, hv, hg, hg']
  · have hcu : phv.choice u = none := by simp [choice, hun, hv]
    simp [displaced, hcu, hv]

/-- **What `make_header_valid` does**, when the header already has its flag:
the member that had it before loses it. -/
theorem makeHeaderValid_spec (hj : phv.Joined) {u i h : ℕ} (hh : phv.member (u, i) = some h)
    (hmember : phv.Chosen) :
    (∀ g, (phv.makeHeaderValid u i).flag g =
      if phv.displaced u i = some g then false else phv.flag g) ∧
      ∀ v, (phv.makeHeaderValid u i).choice v = if u = v then some i else phv.choice v := by
  obtain ⟨un, hun, -⟩ := Option.bind_eq_some_iff.mp hh
  have hun : phv.headerUnions[u]? = some un := hun
  unfold makeHeaderValid
  simp only [hun]
  -- Another member has the union: it is marked invalid, which calls back into the union and
  -- leaves it without a valid member, until the new one is written.
  by_cases hc : un.valid ∧ un.validHeaderIdx ≠ i
  · have hcu : phv.choice u = some un.validHeaderIdx := by simp [choice, hun, hc.1]
    obtain ⟨g₀, hg₀⟩ := hmember _ _ hcu
    have hg₀' : un.headers[un.validHeaderIdx]? = some g₀ := by simpa [member, hun] using hg₀
    have hlost : phv.displaced u i = some g₀ :=
      displaced_eq_some.mpr ⟨_, hc.2, hcu, hg₀⟩
    obtain ⟨hflag, hchoice⟩ := markInvalid_spec ((hj.member_iff _ _).mp hg₀)
    rw [if_pos hc, hg₀', hlost]
    refine ⟨fun g => ?_, fun v => ?_⟩
    · simp only [Option.some.injEq]
      exact hflag g
    · rw [choice_modifyUnion]
      split
      · next huv =>
        subst huv
        have hlen := congrArg (fun p => p.headerUnions[u]?) (markInvalid_blank phv g₀)
        simp only [blank, List.getElem?_map, hun, Option.map_some, Option.map_eq_some_iff] at hlen
        obtain ⟨un', hun', -⟩ := hlen
        simp [hun']
      · next huv => rw [hchoice, if_neg fun h => huv h.1]
  · -- No member is displaced, and only the index is written.
    have hlost : phv.displaced u i = none := by
      simp only [displaced, choice, hun, Option.bind_some]
      cases hv : un.valid with
      | false => rfl
      | true =>
        have hi : un.validHeaderIdx = i := by
          by_contra hne
          exact hc ⟨hv, hne⟩
        simp [hi]
    rw [if_neg hc, hlost]
    refine ⟨fun g => rfl, fun v => ?_⟩
    rw [choice_modifyUnion]
    split
    · next huv =>
      subst huv
      simp [hun]
    · rfl

/-- **What `mark_valid` does to a member.** -/
theorem markValid_spec (hj : phv.Joined) (hc : phv.Chosen) {h u i : ℕ}
    (hm : phv.memberOf h = some (u, i)) :
    (∀ g, (phv.markValid h).flag g =
      if phv.displaced u i = some g then false else if h = g then true else phv.flag g) ∧
      ∀ v, (phv.markValid h).choice v = if u = v then some i else phv.choice v := by
  have hset : (phv.modifyHeader h (·.setValid true)).blank = phv.blank :=
    modifyHeader_blank fun hdr _ => hdr.setValid_blank true
  have heq := markValid_of_some hm
  have hlost : (phv.modifyHeader h (·.setValid true)).displaced u i = phv.displaced u i := by
    simp only [displaced, member_congr hset]
    rfl
  obtain ⟨hflag, hchoice⟩ := makeHeaderValid_spec (hj.congr hset)
    ((member_congr hset _).trans ((hj.member_iff _ _).mpr hm)) (hc.congr hset fun _ _ h => h)
  rw [← heq, hlost] at hflag
  rw [← heq] at hchoice
  exact ⟨fun g => by rw [hflag, flag_setValid (isSome_of_memberOf hm)], hchoice⟩

/-- The new choice is a member. -/
theorem Chosen.makeHeaderValid (hc : phv.Chosen) (hj : phv.Joined) {u i h : ℕ}
    (hh : phv.member (u, i) = some h) : (phv.makeHeaderValid u i).Chosen := by
  have hblank : (phv.makeHeaderValid u i).blank = phv.blank :=
    makeHeaderValid_keeps (P := fun p => p.blank = phv.blank)
      (fun _ _ b hP => (modifyHeader_blank fun hdr _ => hdr.setValid_blank b).trans hP)
      (fun _ _ _ hf hP => (modifyUnion_blank hf).trans hP) rfl
  intro v j hv
  rw [(makeHeaderValid_spec hj hh hc).2] at hv
  rw [member_congr hblank]
  split at hv
  · next huv =>
    subst huv
    obtain rfl := Option.some.inj hv
    exact ⟨h, hh⟩
  · exact hc v j hv

/-- A mark makes no choice of what is not there. -/
theorem Chosen.markValid (hc : phv.Chosen) (hj : phv.Joined) (h : ℕ) : (phv.markValid h).Chosen := by
  cases hm : phv.memberOf h with
  | none =>
    rw [markValid_of_none hm]
    exact hc.congr (modifyHeader_blank fun hdr _ => hdr.setValid_blank true) fun _ _ h => h
  | some p =>
    obtain ⟨u, i⟩ := p
    intro v j hj'
    rw [(markValid_spec hj hc hm).2] at hj'
    rw [member_congr (markValid_blank phv h)]
    split at hj'
    · next huv =>
      subst huv
      obtain rfl := Option.some.inj hj'
      exact ⟨h, (hj.member_iff _ _).mpr hm⟩
    · exact hc v j hj'

/-- **A header that is marked** displaces the choice of its union, so that flags and
choices agree again. -/
theorem Agree.markValid (ha : phv.Agree) (hj : phv.Joined) (h : ℕ) : (phv.markValid h).Agree := by
  cases hm : phv.memberOf h with
  | none =>
    rw [markValid_of_none hm]
    exact ha.setValid_of_none hj hm
  | some p =>
    obtain ⟨u, i⟩ := p
    have hh : phv.member (u, i) = some h := (hj.member_iff _ _).mpr hm
    obtain ⟨hflag, hchoice⟩ := markValid_spec hj ha.choice_member hm
    refine ⟨fun v j g hg => ?_, ha.choice_member.markValid hj h⟩
    rw [member_congr (markValid_blank phv h)] at hg
    rw [hflag, hchoice]
    by_cases huv : u = v
    · subst huv
      rw [if_pos rfl]
      by_cases hij : i = j
      · -- The header itself.
        subst hij
        rw [hh] at hg
        obtain rfl := Option.some.inj hg
        rw [if_neg]
        · simp
        · intro hlost
          obtain ⟨j, hji, -, hj'⟩ := displaced_eq_some.mp hlost
          exact hji (Prod.mk.inj (hj.place_inj hj' hh)).2
      · -- Another member: it lost its flag, or it had none.
        have hne : h ≠ g := by
          rintro rfl
          exact hij (Prod.mk.inj (hj.place_inj hh hg)).2
        simp only [if_neg hne, Option.some.injEq, hij, iff_false]
        split
        · simp
        · next hn =>
          rw [ha.flag_iff u j g hg]
          exact fun hc => hn (displaced_eq_some.mpr ⟨j, fun h => hij h.symm, hc, hg⟩)
    · have hne : h ≠ g := by
        rintro rfl
        exact huv (Prod.mk.inj (hj.place_inj hh hg)).1
      rw [if_neg huv, if_neg hne, if_neg]
      · exact ha.flag_iff v j g hg
      · intro hlost
        obtain ⟨j', -, -, hj'⟩ := displaced_eq_some.mp hlost
        exact huv (Prod.mk.inj (hj.place_inj hj' hg)).1

/-! ## Exchanges -/

/-- A union of one vector is in every other of its layout, with the same members. -/
theorem exists_union (hb : phv'.blank = phv.blank) {u : ℕ} {un : HeaderUnion}
    (hu : phv.headerUnions[u]? = some un) :
    ∃ un', phv'.headerUnions[u]? = some un' ∧ un'.headers = un.headers := by
  have heq : phv'.headerUnions[u]?.map HeaderUnion.blank = phv.headerUnions[u]?.map HeaderUnion.blank := by
    have := congrArg (fun p => p.headerUnions[u]?) hb
    simpa [blank] using this
  rw [hu, Option.map_some] at heq
  obtain ⟨un', hun', hsame⟩ := Option.map_eq_some_iff.mp heq
  have hheaders := congrArg HeaderUnion.headers hsame
  exact ⟨un', hun', hheaders⟩

/-- No header is twice in a union, -/
theorem Joined.nodup_members (hj : phv.Joined) {u : ℕ} {un : HeaderUnion}
    (hun : phv.headerUnions[u]? = some un) : un.headers.Nodup := by
  rw [List.nodup_iff_getElem?_ne_getElem?]
  intro i j hij hlt heq
  obtain ⟨h, hh⟩ : ∃ h, un.headers[j]? = some h := ⟨_, List.getElem?_eq_getElem hlt⟩
  have hi : phv.member (u, i) = some h := by simp [member, hun, heq, hh]
  have hj' : phv.member (u, j) = some h := by simp [member, hun, hh]
  have := (Prod.mk.inj (hj.place_inj hi hj')).2
  omega

/-- Two unions have no header in common. -/
theorem Joined.disjoint_members (hj : phv.Joined) {u v : ℕ} {un un' : HeaderUnion} (huv : u ≠ v)
    (hun : phv.headerUnions[u]? = some un) (hun' : phv.headerUnions[v]? = some un') :
    un.headers.Disjoint un'.headers := by
  intro h hu hv
  obtain ⟨i, hi⟩ := List.mem_iff_getElem?.mp hu
  obtain ⟨j, hj'⟩ := List.mem_iff_getElem?.mp hv
  have h₁ : phv.member (u, i) = some h := by simp [member, hun, hi]
  have h₂ : phv.member (v, j) = some h := by simp [member, hun', hj']
  exact huv (Prod.mk.inj (hj.place_inj h₁ h₂)).1

/-- nor in two of them. -/
theorem Joined.nodup_append_members (hj : phv.Joined) {u v : ℕ} {un un' : HeaderUnion} (huv : u ≠ v)
    (hun : phv.headerUnions[u]? = some un) (hun' : phv.headerUnions[v]? = some un') :
    (un.headers ++ un'.headers).Nodup :=
  List.nodup_append'.mpr
    ⟨hj.nodup_members hun, hj.nodup_members hun', hj.disjoint_members huv hun hun'⟩

/-- Two unions that can change places: their members can, one by one. -/
def ExchangeableUnions (phv : Phv) (u v : ℕ) : Prop :=
  ∃ un un', phv.headerUnions[u]? = some un ∧ phv.headerUnions[v]? = some un' ∧
    un.headers.length = un'.headers.length ∧ phv.ExchangeableLists un.headers un'.headers

/-- Which unions can be exchanged belongs to the layout. -/
theorem ExchangeableUnions.congr {u v : ℕ} (he : phv.ExchangeableUnions u v)
    (hb : phv'.blank = phv.blank) : phv'.ExchangeableUnions u v := by
  obtain ⟨un, un', hun, hun', hlen, hlists⟩ := he
  obtain ⟨un₁, hun₁, h₁⟩ := exists_union hb hun
  obtain ⟨un₂, hun₂, h₂⟩ := exists_union hb hun'
  refine ⟨un₁, un₂, hun₁, hun₂, by rw [h₁, h₂, hlen], ?_⟩
  rw [h₁, h₂]
  exact hlists.congr hb

/-- The records of two unions change places, and the others stay. -/
theorem record_exchanged {u v : ℕ} {un un' : HeaderUnion} (hun : phv.headerUnions[u]? = some un)
    (hun' : phv.headerUnions[v]? = some un') (w : ℕ) :
    { phv with headerUnions := exchanged phv.headerUnions u v un un' }.record w =
      phv.record (Equiv.swap u v w) := by
  have hu : u < phv.headerUnions.length := (List.getElem?_eq_some_iff.mp hun).1
  have hv : v < phv.headerUnions.length := (List.getElem?_eq_some_iff.mp hun').1
  simp only [record, exchanged, List.getElem?_set, List.length_set]
  by_cases hvw : v = w
  · subst hvw
    simp [hv, hun, Equiv.swap_apply_right]
  · by_cases huw : u = w
    · subst huw
      simp [hvw, hu, hun', Equiv.swap_apply_left]
    · simp [hvw, huw, Equiv.swap_apply_of_ne_of_ne (Ne.symm huw) (Ne.symm hvw)]

/-- The members of two unions after their exchange: each holds what the other
union's member at its place held. -/
theorem swapMembers_unions (hj : phv.Joined) {u v : ℕ} {un un' : HeaderUnion}
    (hun : phv.headerUnions[u]? = some un) (hun' : phv.headerUnions[v]? = some un')
    (hlen : un.headers.length = un'.headers.length)
    (he : phv.ExchangeableLists un.headers un'.headers) :
    Returns (phv.swapMembers un.headers un'.headers) fun phv' =>
      (∀ w i g, phv.member (w, i) = some g →
        ∃ g', phv.member (Equiv.swap u v w, i) = some g' ∧ phv'.content g = phv.content g') ∧
      phv' = { phv with headers := phv'.headers } := by
  by_cases huv : u = v
  · subst huv
    rw [hun] at hun'
    cases hun'
    refine (swapMembers_self he).mono fun phv' ⟨hsame, hrest⟩ => ⟨fun w i g hg => ?_, hrest⟩
    exact ⟨g, by rw [Equiv.swap_self, Equiv.refl_apply, hg], hsame g⟩
  refine (swapMembers_spec he (hj.nodup_append_members huv hun hun') hlen).mono
    fun phv' ⟨hswap, hout, hrest⟩ => ⟨fun w i g hg => ?_, hrest⟩
  by_cases hwu : w = u
  · subst hwu
    have hgu : un.headers[i]? = some g := by simpa [member, hun] using hg
    have hi : i < un'.headers.length := hlen ▸ (List.getElem?_eq_some_iff.mp hgu).1
    have hb := List.getElem?_eq_getElem hi
    exact ⟨_, by simp [member, Equiv.swap_apply_left, hun', hb], (hswap i g _ hgu hb).1⟩
  by_cases hwv : w = v
  · subst hwv
    have hgv : un'.headers[i]? = some g := by simpa [member, hun'] using hg
    have hi : i < un.headers.length := hlen ▸ (List.getElem?_eq_some_iff.mp hgv).1
    have ha := List.getElem?_eq_getElem hi
    exact ⟨_, by simp [member, Equiv.swap_apply_right, hun, ha], (hswap i _ g ha hgv).2⟩
  -- A member of another union is in neither list.
  refine ⟨g, by rw [Equiv.swap_apply_of_ne_of_ne hwu hwv, hg], hout g ?_⟩
  rw [List.mem_append]
  rintro (hm | hm)
  · obtain ⟨j, hj'⟩ := List.mem_iff_getElem?.mp hm
    exact hwu (Prod.mk.inj (hj.place_inj hg (by simp [member, hun, hj'] :
      phv.member (u, j) = some g))).1
  · obtain ⟨j, hj'⟩ := List.mem_iff_getElem?.mp hm
    exact hwv (Prod.mk.inj (hj.place_inj hg (by simp [member, hun', hj'] :
      phv.member (v, j) = some g))).1

/-- **An exchange of unions.** Each gets the other's record, and what the
other's members held. -/
theorem swapUnions_spec (hj : phv.Joined) {u v : ℕ} (he : phv.ExchangeableUnions u v) :
    Returns (phv.swapUnions u v) fun phv' =>
      (∀ w, phv'.record w = phv.record (Equiv.swap u v w)) ∧
      (∀ w i g, phv.member (w, i) = some g →
        ∃ g', phv.member (Equiv.swap u v w, i) = some g' ∧ phv'.content g = phv.content g') ∧
      phv' = { phv with headers := phv'.headers, headerUnions := phv'.headerUnions } := by
  obtain ⟨un, un', hun, hun', hlen, hlists⟩ := he
  -- The members are exchanged in a state in which the records already are.
  let mid : Phv := { phv with headerUnions := exchanged phv.headerUnions u v un un' }
  have hmid : mid.blank = phv.blank := by
    have hset := exchanged_blank hun hun'
    simp only [mid, blank, hset]
  obtain ⟨un₁, hun₁, h₁⟩ := exists_union hmid hun
  obtain ⟨un₂, hun₂, h₂⟩ := exists_union hmid hun'
  unfold swapUnions
  rw [hun, hun']
  refine Avoids.bind_ok (Avoids.bind_ok ?_)
  rw [if_neg fun h => h hlen]
  have hmembers := swapMembers_unions (hj.congr hmid) hun₁ hun₂ (by rw [h₁, h₂, hlen])
    (by rw [h₁, h₂]; exact hlists.congr hmid)
  rw [h₁, h₂] at hmembers
  refine hmembers.mono ?_
  rintro phv' ⟨hcontent, hrest⟩
  refine ⟨fun w => ?_, fun w i g hg => ?_, ?_⟩
  · rw [hrest]
    exact record_exchanged hun hun' w
  · obtain ⟨g', hg', hsame⟩ := hcontent w i g ((member_congr hmid _).trans hg)
    exact ⟨g', (member_congr hmid _).symm.trans hg', hsame⟩
  · rw [hrest]

/-- The choices change places with their unions, -/
theorem swapUnions_choice (hj : phv.Joined) {u v : ℕ} (he : phv.ExchangeableUnions u v)
    (h : phv.swapUnions u v = .ok phv') (w : ℕ) :
    phv'.choice w = phv.choice (Equiv.swap u v w) := by
  rw [choice_eq_record, ((swapUnions_spec hj he).of_ok h).1, choice_eq_record]

/-- so that they stay choices of members, -/
theorem Chosen.swapUnions (hc : phv.Chosen) (hj : phv.Joined) {u v : ℕ}
    (he : phv.ExchangeableUnions u v) (h : phv.swapUnions u v = .ok phv') : phv'.Chosen := by
  intro w i hi
  rw [swapUnions_choice hj he h] at hi
  obtain ⟨g', hg'⟩ := hc _ i hi
  obtain ⟨g, hg, -⟩ := ((swapUnions_spec hj he).of_ok h).2.1 _ i g' hg'
  rw [Equiv.swap_apply_self] at hg
  exact ⟨g, (member_congr (swapUnions_blank h) _).trans hg⟩

/-- and **flags and choices agree still**. -/
theorem Agree.swapUnions (ha : phv.Agree) (hj : phv.Joined) {u v : ℕ}
    (he : phv.ExchangeableUnions u v) (h : phv.swapUnions u v = .ok phv') : phv'.Agree := by
  refine ⟨fun w i g hg => ?_, ha.choice_member.swapUnions hj he h⟩
  rw [member_congr (swapUnions_blank h)] at hg
  obtain ⟨g', hg', hsame⟩ := ((swapUnions_spec hj he).of_ok h).2.1 w i g hg
  rw [swapUnions_choice hj he h, flag_of_content hsame]
  exact ha.flag_iff _ i g' hg'

/-! ## New header vectors -/

/-- The headers of a union are told of it, and the unions stay. -/
theorem setMemberships_headerUnions (u idx : ℕ) (hs : List ℕ) :
    (phv.setMemberships u idx hs).headerUnions = phv.headerUnions := by
  induction hs generalizing phv idx with
  | nil => rfl
  | cons h hs ih => exact ih (idx + 1)

/-- A header without its membership. -/
def unjoined (hdr : Header) : Header := { hdr with unionMembership := none }

/-- Each header of the union is told its place, and no other header anything. -/
theorem setMemberships_spec {u idx : ℕ} {hs : List ℕ} (hnd : hs.Nodup)
    (hin : ∀ h ∈ hs, h < phv.headers.length) :
    (∀ (i h : ℕ), hs[i]? = some h →
        (phv.setMemberships u idx hs).memberOf h = some (u, idx + i)) ∧
      (∀ h ∉ hs, (phv.setMemberships u idx hs).memberOf h = phv.memberOf h) ∧
      (phv.setMemberships u idx hs).headers.map unjoined = phv.headers.map unjoined := by
  -- The place counts up along the list, so the index is general in the induction.
  induction hs generalizing phv idx with
  | nil => exact ⟨fun i h hi => by simp at hi, fun _ _ => rfl, rfl⟩
  | cons h₀ hs ih =>
    obtain ⟨hnotin, hnd⟩ := List.nodup_cons.mp hnd
    obtain ⟨ihin, ihout, ihsame⟩ := @ih
      (phv.modifyHeader h₀ fun hdr => { hdr with unionMembership := some (u, idx) }) (idx + 1) hnd
      fun h hh => by
        rw [modifyHeader, List.length_modify]
        exact hin h (List.mem_cons_of_mem _ hh)
    have hhead : ∀ h, (phv.modifyHeader h₀ fun hdr =>
        { hdr with unionMembership := some (u, idx) }).memberOf h =
        if h₀ = h then some (u, idx) else phv.memberOf h := by
      intro h
      simp only [memberOf, modifyHeader, List.getElem?_modify]
      by_cases heq : h₀ = h
      · subst heq
        rw [List.getElem?_eq_getElem (hin h₀ List.mem_cons_self)]
        simp
      · rw [if_neg heq]
        simp [heq]
    refine ⟨fun i h hi => ?_, fun h hh => ?_, ?_⟩
    · cases i with
      | zero =>
        obtain rfl : h₀ = h := by simpa using hi
        rw [setMemberships, ihout _ hnotin, hhead, if_pos rfl]
        rfl
      | succ i =>
        rw [List.getElem?_cons_succ] at hi
        rw [setMemberships, ihin i h hi]
        congr 2
        omega
    · rw [List.mem_cons, not_or] at hh
      rw [setMemberships, ihout h hh.2, hhead, if_neg (Ne.symm hh.1)]
    · exact ihsame.trans (map_modify_of_eq fun _ _ => rfl)

/-- **What `push_back_header_union` does to the memberships.** -/
theorem pushBackHeaderUnion_spec {hs : List ℕ} (hnd : hs.Nodup)
    (hin : ∀ h ∈ hs, h < phv.headers.length) :
    (∀ h i, hs[i]? = some h →
        (phv.pushBackHeaderUnion hs).memberOf h = some (phv.headerUnions.length, i)) ∧
      (∀ h ∉ hs, (phv.pushBackHeaderUnion hs).memberOf h = phv.memberOf h) ∧
      (∀ u i, (phv.pushBackHeaderUnion hs).member (u, i) =
        if u = phv.headerUnions.length then hs[i]? else phv.member (u, i)) ∧
      (phv.pushBackHeaderUnion hs).headers.map unjoined = phv.headers.map unjoined ∧
      (phv.pushBackHeaderUnion hs).headerUnions = phv.headerUnions ++ [⟨hs, false, 0⟩] := by
  obtain ⟨hnew, hold, hsame⟩ := @setMemberships_spec
    { phv with headerUnions := phv.headerUnions ++ [⟨hs, false, 0⟩] } phv.headerUnions.length 0 hs
    hnd hin
  have hunions : (phv.pushBackHeaderUnion hs).headerUnions = phv.headerUnions ++ [⟨hs, false, 0⟩] :=
    setMemberships_headerUnions ..
  refine ⟨fun h i hi => ?_, hold, fun u i => ?_, hsame, hunions⟩
  · rw [pushBackHeaderUnion, hnew i h hi, Nat.zero_add]
  · simp only [member, hunions]
    rcases Nat.lt_trichotomy u phv.headerUnions.length with hlt | rfl | hgt
    · rw [List.getElem?_append_left hlt, if_neg (by omega)]
    · rw [List.getElem?_append_right (by omega), if_pos rfl]
      simp
    · rw [List.getElem?_eq_none (by simp; omega), if_neg (by omega),
        List.getElem?_eq_none (by omega)]

/-- What the making of unions keeps: `pre` are those that are made. -/
structure Made (phv₀ : Phv) (pre : List (List ℕ)) (phv : Phv) : Prop where
  member_iff : ∀ p h, phv.member p = some h ↔ phv.memberOf h = some p
  free : ∀ h ∉ pre.flatten, phv.memberOf h = none
  headers : phv.headers.map unjoined = phv₀.headers.map unjoined
  headerUnions : phv.headerUnions = pre.map (⟨·, false, 0⟩)

/-- No header is made with a union. -/
theorem Made.length_eq {phv₀ : Phv} {pre : List (List ℕ)} (hm : Made phv₀ pre phv) :
    phv.headers.length = phv₀.headers.length := by
  simpa using congrArg List.length hm.headers

/-- A union is added whose members are in no other. -/
theorem Made.push {phv₀ : Phv} {pre : List (List ℕ)} (hm : Made phv₀ pre phv) {hs : List ℕ}
    (hnd : hs.Nodup) (hin : ∀ h ∈ hs, h < phv₀.headers.length)
    (hfree : ∀ h ∈ hs, h ∉ pre.flatten) : Made phv₀ (pre ++ [hs]) (phv.pushBackHeaderUnion hs) := by
  obtain ⟨hnew, hold, hmember, hsame, hunions⟩ := pushBackHeaderUnion_spec hnd fun h hh =>
    hm.length_eq ▸ hin h hh
  refine ⟨?_, fun h hh => ?_, hsame.trans hm.headers, ?_⟩
  · rintro ⟨u, i⟩ h
    rw [hmember]
    by_cases hh : h ∈ hs
    · obtain ⟨j, hj⟩ := List.mem_iff_getElem?.mp hh
      have hlt : j < hs.length := (List.getElem?_eq_some_iff.mp hj).1
      rw [hnew h j hj, Option.some.injEq, Prod.mk.injEq]
      split
      · next heq =>
        constructor
        · intro hi
          exact ⟨heq.symm, (List.getElem?_inj hlt hnd).mp (hj.trans hi.symm)⟩
        · rintro ⟨-, rfl⟩
          exact hj
      · next hne =>
        rw [hm.member_iff, hm.free h (hfree h hh)]
        simp [Ne.symm hne]
    · rw [hold h hh]
      split
      · next heq =>
        -- The place is in the new union, and the header is in an old one if any.
        subst heq
        constructor
        · intro hi
          exact absurd (List.mem_of_getElem? hi) hh
        · intro hmem
          obtain ⟨un, hun, -⟩ := Option.bind_eq_some_iff.mp ((hm.member_iff _ _).mpr hmem)
          have hlt := (List.getElem?_eq_some_iff.mp hun).1
          omega
      · exact hm.member_iff (u, i) h
  · rw [List.flatten_append, List.mem_append, not_or] at hh
    rw [hold h (by simpa using hh.2), hm.free h hh.1]
  · rw [hunions, hm.headerUnions, List.map_append, List.map_singleton]

/-- Union after union is made. -/
theorem Made.pushAll {phv₀ : Phv} {pre rest : List (List ℕ)} (hm : Made phv₀ pre phv)
    (hnd : (pre ++ rest).flatten.Nodup) (hin : ∀ h ∈ rest.flatten, h < phv₀.headers.length) :
    Made phv₀ (pre ++ rest) (rest.foldl Phv.pushBackHeaderUnion phv) := by
  induction rest generalizing phv pre with
  | nil => simpa using hm
  | cons hs rest ih =>
    rw [List.flatten_append, List.flatten_cons, List.nodup_append'] at hnd
    have hhs := List.nodup_append'.mp hnd.2.1
    have hpush := hm.push hhs.1 (fun h hh => hin h (by simp [hh])) fun h hh hpre =>
      hnd.2.2 hpre (List.mem_append_left _ hh)
    rw [List.foldl_cons, ← List.singleton_append, ← List.append_assoc]
    refine ih hpush ?_ fun h hh => hin h (by
      rw [List.flatten_cons]
      exact List.mem_append_right _ hh)
    simp only [List.append_assoc, List.flatten_append, List.flatten_cons, List.flatten_nil,
      List.append_nil]
    exact List.nodup_append'.mpr ⟨hnd.1, hnd.2.1, hnd.2.2⟩

end Phv

namespace PhvFactory

variable {F : PhvFactory}

/-- **The unions of a new header vector.** -/
theorem create_made (hF : F.WellFormed) : Phv.Made F.createHeaders F.headerUnionDescs F.create := by
  have hinit : Phv.Made F.createHeaders [] F.createHeaders := by
    refine ⟨fun p h => ?_, fun h _ => ?_, rfl, rfl⟩
    · have hnone : F.createHeaders.memberOf h = none := by
        simp only [Phv.memberOf, createHeaders, List.getElem?_map]
        cases F.headerDescs[h]? <;> rfl
      rw [hnone]
      simp [Phv.member, createHeaders]
    · simp only [Phv.memberOf, createHeaders, List.getElem?_map]
      cases F.headerDescs[h]? <;> rfl
  have hnd : ([] ++ F.headerUnionDescs).flatten.Nodup := hF.members_nodup
  refine hinit.pushAll hnd fun h hh => ?_
  obtain ⟨desc, hdesc, -⟩ := hF.members h hh
  simpa [createHeaders] using (List.getElem?_eq_some_iff.mp hdesc).1

/-- The headers of a new header vector are as they were made, but for their
memberships. -/
theorem create_header (hF : F.WellFormed) {h : ℕ} {hdr : Header}
    (hh : F.create.headers[h]? = some hdr) :
    ∃ desc, F.headerDescs[h]? = some desc ∧ Phv.unjoined hdr = desc.create := by
  have heq := congrArg (·[h]?) (create_made hF).headers
  simp only [List.getElem?_map, hh, Option.map_some, createHeaders] at heq
  obtain ⟨hdr', hhdr', hsame⟩ := Option.map_eq_some_iff.mp heq.symm
  obtain ⟨desc, hdesc, rfl⟩ := Option.map_eq_some_iff.mp hhdr'
  exact ⟨desc, hdesc, hsame.symm⟩

/-- **A new vector is joined**: a header knows the place where its union has it. -/
theorem create_joined (hF : F.WellFormed) : F.create.Joined where
  member_iff := (create_made hF).member_iff
  notMetadata hdr hhdr hsome := by
    obtain ⟨h, hh⟩ := List.mem_iff_getElem?.mp hhdr
    obtain ⟨desc, hdesc, heq⟩ := create_header hF hh
    have hmem : h ∈ F.headerUnionDescs.flatten := by
      by_contra hn
      have hfree := (create_made hF).free h hn
      rw [Phv.memberOf, hh, Option.bind_some] at hfree
      rw [hfree] at hsome
      cases hsome
    obtain ⟨desc', hdesc', hmeta⟩ := hF.members h hmem
    rw [hdesc] at hdesc'
    cases hdesc'
    exact (congrArg Header.metadata heq).trans hmeta

/-- And in it no header is valid, and nothing chosen. -/
theorem create_agree (hF : F.WellFormed) : F.create.Agree := by
  have hchoice : ∀ u, F.create.choice u = none := by
    intro u
    rw [Phv.choice, (create_made hF).headerUnions, List.getElem?_map]
    cases F.headerUnionDescs[u]? <;> simp
  have hflag : ∀ h, F.create.flag h = false := by
    intro h
    cases hh : F.create.headers[h]? with
    | none => simp [Phv.flag, hh]
    | some hdr =>
      obtain ⟨desc, -, heq⟩ := create_header hF hh
      simp only [Phv.flag, hh, Option.map_some, Option.getD_some]
      exact congrArg Header.valid heq
  exact ⟨fun u i h _ => by simp [hflag, hchoice], fun u i hc => by simp [hchoice] at hc⟩

end PhvFactory

end P4Bricks
