import P4Bricks.Phv.Helpers.Effects
/-!
# One valid header in a union

At most one header of a union is valid, and the union's record says whether
there is one and which, whatever is done to the header vector. The one
operation that is not counted here is the copy of a header vector, which
leaves the records of the unions as they were.
-/

namespace P4Bricks

namespace Phv

variable {phv phv' : Phv}

/-- Headers in no union change places. -/
theorem Agree.swapHeaders (ha : phv.Agree) (hj : phv.Joined) {a b : ℕ} (he : phv.Exchangeable a b)
    (h : phv.swapHeaders a b = .ok phv') (hma : phv.memberOf a = none)
    (hmb : phv.memberOf b = none) : phv'.Agree := by
  obtain ⟨hcontent, hrest⟩ := (swapHeaders_spec he).of_ok h
  have hunions : phv'.headerUnions = phv.headerUnions := by rw [hrest]
  refine ha.congr (swapHeaders_blank h) (fun p g hg => ?_) fun u => by simp only [choice, hunions]
  rw [hj.member_iff] at hg
  rw [flag_of_content (hcontent g), Equiv.swap_apply_of_ne_of_ne]
  · rintro rfl
    rw [hma] at hg
    cases hg
  · rintro rfl
    rw [hmb] at hg
    cases hg

/-- **Every effect keeps flags and records together.** -/
theorem Agree.effect (ha : phv.Agree) (hp : phv.Arranged) (he : phv.Effect phv') : phv'.Agree := by
  have hblank := he.blank_eq
  cases he with
  | write hh hw =>
    refine ha.congr hblank (fun p g hg => flag_modifyHeader_of_eq (fun hdr hhdr => ?_) g) fun u => rfl
    rw [hh] at hhdr
    cases hhdr
    exact hw.valid
  | markValid h => exact ha.markValid hp.joined h
  | markInvalid h => exact ha.markInvalid hp.joined h
  | swapHeaders hs hex hma hmb => exact ha.swapHeaders hp.joined hex hs hma hmb
  | swapUnions hs hex => exact ha.swapUnions hp.joined hex hs
  | counts sts sts' hs hs' => exact ha.congr hblank (fun _ _ _ => rfl) fun u => rfl

theorem Agree.run (ha : phv.Agree) (hp : phv.Arranged) {ops : List Op}
    (h : phv.run ops = .ok phv') : phv'.Agree :=
  (run_effects hp h).induct hp (fun _ _ hp he ha => ha.effect hp he) ha

end Phv

/-- **At most one header of a union is valid, and the union's record says
whether one is, and which.** The header vector is a new one of any program,
after any operations that return. -/
theorem union_validity (F : PhvFactory) (hF : F.WellFormed) (ops : List Phv.Op) (phv : Phv)
    (h : F.create.run ops = .ok phv) (u : ℕ) (un : HeaderUnion)
    (hun : phv.headerUnions[u]? = some un) :
    (∀ (i m : ℕ) (hdr : Header), un.headers[i]? = some m → phv.headers[m]? = some hdr →
      (hdr.isValid = true ↔ un.valid = true ∧ un.validHeaderIdx = i)) ∧
    (un.valid = true → ∃ (m : ℕ) (hdr : Header), un.headers[un.validHeaderIdx]? = some m ∧
      phv.headers[m]? = some hdr ∧ hdr.isValid = true) ∧
    (∀ (i j m m' : ℕ) (hdr hdr' : Header), un.headers[i]? = some m → un.headers[j]? = some m' →
      phv.headers[m]? = some hdr → phv.headers[m']? = some hdr' →
      hdr.isValid = true → hdr'.isValid = true → i = j) := by
  have hp := PhvFactory.create_arranged hF
  have hagree := (PhvFactory.create_agree hF).run hp h
  have hjoined := (hp.congr (Phv.run_effects hp h).blank_eq).joined
  have hvalid : ∀ (i m : ℕ) (hdr : Header), un.headers[i]? = some m → phv.headers[m]? = some hdr →
      (hdr.isValid = true ↔ un.valid = true ∧ un.validHeaderIdx = i) := by
    intro i m hdr hm hhdr
    have hmember : phv.member (u, i) = some m := by simp [Phv.member, hun, hm]
    have hplace := (hjoined.member_iff _ _).mp hmember
    rw [Phv.memberOf, hhdr, Option.bind_some] at hplace
    have hmeta := hjoined.notMetadata hdr (List.mem_of_getElem? hhdr) (by rw [hplace]; rfl)
    have hflag := hagree.flag_iff u i m hmember
    simp only [Phv.flag, hhdr, Option.map_some, Option.getD_some, Phv.choice, hun,
      Option.bind_some] at hflag
    rw [Header.isValid, hmeta, Bool.false_or, hflag]
    split
    · next hv => simp [hv]
    · next hv => simp [hv]
  refine ⟨hvalid, fun hv => ?_, fun i j m m' hdr hdr' hm hm' hhdr hhdr' hi hj => ?_⟩
  · obtain ⟨m, hm⟩ := hagree.choice_member u un.validHeaderIdx (by simp [Phv.choice, hun, hv])
    obtain ⟨hdr, hhdr⟩ := Option.isSome_iff_exists.mp
      (Phv.isSome_of_memberOf ((hjoined.member_iff _ _).mp hm))
    have hm' : un.headers[un.validHeaderIdx]? = some m := by simpa [Phv.member, hun] using hm
    exact ⟨m, hdr, hm', hhdr, (hvalid _ m hdr hm' hhdr).mpr ⟨hv, rfl⟩⟩
  · rw [← ((hvalid i m hdr hm hhdr).mp hi).2, ← ((hvalid j m' hdr' hm' hhdr').mp hj).2]

/-! Two unions of two headers, on a stack. -/

def unionFactory : PhvFactory where
  headerDescs := [⟨bytesType 0 1, [], false⟩, ⟨bytesType 1 2, [], false⟩,
    ⟨bytesType 0 1, [], false⟩, ⟨bytesType 1 2, [], false⟩]
  headerStackDescs := []
  headerUnionDescs := [[0, 1], [2, 3]]
  headerUnionStackDescs := [[0, 1]]

theorem unionFactory_wellFormed : unionFactory.WellFormed where
  members := by
    intro h hh
    have hall : h = 0 ∨ h = 1 ∨ h = 2 ∨ h = 3 := by simpa [unionFactory] using hh
    rcases hall with rfl | rfl | rfl | rfl <;> exact ⟨_, rfl, rfl⟩
  members_nodup := by decide
  stack_nodup := by simp [unionFactory]
  stack_headers := by simp [unionFactory]
  union_stack_nodup := by decide
  union_stack_unions := by
    intro st hst
    obtain rfl : st = [0, 1] := by simpa [unionFactory] using hst
    refine ⟨[some (bytesType 0 1), some (bytesType 1 2)], fun u hu => ?_⟩
    have hall : u = 0 ∨ u = 1 := by simpa using hu
    rcases hall with rfl | rfl <;> exact ⟨_, rfl, rfl⟩

/-- A member is made valid, then the other one, the union is copied and
pushed down. -/
def unionOps : List Phv.Op :=
  [.markValid 0, .markValid 1, .assignUnion 1 0, .markInvalid 1, .stack .headerUnion 0 .pushFront,
    .stack .headerUnion 0 .pushFront]

def unionPhv : Phv :=
  match unionFactory.create.run unionOps with
  | .ok phv => phv
  | .error _ => ⟨[], [], [], []⟩

theorem union_validity_run :
    (∀ (i m : ℕ) (hdr : Header), [0, 1][i]? = some m → unionPhv.headers[m]? = some hdr →
      (hdr.isValid = true ↔ true = true ∧ 1 = i)) ∧
    (true = true → ∃ (m : ℕ) (hdr : Header), [0, 1][1]? = some m ∧
      unionPhv.headers[m]? = some hdr ∧ hdr.isValid = true) ∧
    (∀ (i j m m' : ℕ) (hdr hdr' : Header), [0, 1][i]? = some m → [0, 1][j]? = some m' →
      unionPhv.headers[m]? = some hdr → unionPhv.headers[m']? = some hdr' →
      hdr.isValid = true → hdr'.isValid = true → i = j) :=
  union_validity unionFactory unionFactory_wellFormed unionOps unionPhv (by rfl) 0 ⟨[0, 1], true, 1⟩
    (by rfl)

end P4Bricks
