import P4Bricks.Phv.Helpers.Effects
/-!
# Header vectors after a reset

What holds of every state of a program's header vectors, and that a reset
leaves no header and no union valid, whatever was there before.
-/

namespace P4Bricks

open Parsing

namespace Phv

variable {phv phv' : Phv}

/-! ## Every state -/

theorem Chosen.effect (hc : phv.Chosen) (hp : phv.Arranged) (he : phv.Effect phv') :
    phv'.Chosen := by
  have hblank := he.blank_eq
  cases he with
  | write hh hw => exact hc.congr hblank fun _ _ h => h
  | markValid h => exact hc.markValid hp.joined h
  | markInvalid h => exact hc.markInvalid h
  | swapHeaders hs hex hma hmb =>
    refine hc.congr hblank fun u i h => ?_
    rwa [((swapHeaders_spec hex).of_ok hs).2] at h
  | swapUnions hs hex => exact hc.swapUnions hp.joined hex hs
  | counts sts sts' hs hs' => exact hc.congr hblank fun _ _ h => h

theorem Chosen.copyHeaders {src : Phv} (hc : phv.Chosen) (hb : phv'.blank = phv.blank)
    (h : phv.copyHeaders src = .ok phv') : phv'.Chosen := by
  obtain ⟨headers, -, h'⟩ := bind_eq_ok h
  refine hc.congr hb fun u i hi => ?_
  cases h'
  exact hi

end Phv

/-- **Every state of a program's header vectors** has the layout of a new
one, and what a union chose is a member. -/
theorem PhvFactory.Reaches.layout {F : PhvFactory} (hF : F.WellFormed) {phv : Phv}
    (h : F.Reaches phv) : phv.blank = F.create.blank ∧ phv.Chosen := by
  have hcreate := create_arranged hF
  induction h with
  | create => exact ⟨rfl, (create_agree hF).choice_member⟩
  | @op p p' op _ hop ih =>
    have hp := hcreate.congr ih.1
    have heffects := Phv.Op.effects hp hop
    exact ⟨heffects.blank_eq.trans ih.1,
      heffects.induct hp (fun _ _ hp he hc => Phv.Chosen.effect hc hp he) ih.2⟩
  | @copyHeaders p p' src _ _ hcopy ih ihs =>
    have hblank := Phv.copyHeaders_blank hcopy (ih.1.trans ihs.1.symm)
    exact ⟨hblank.trans ih.1, ih.2.copyHeaders hblank hcopy⟩

namespace Phv

variable {phv phv' : Phv}

/-! ## Resets -/

theorem markInvalid_flag (phv : Phv) (h g : ℕ) :
    (phv.markInvalid h).flag g = if h = g then false else phv.flag g := by
  cases hm : phv.memberOf h with
  | none =>
    rw [markInvalid_of_none hm, flag_modifyHeader]
    split
    · next heq =>
      subst heq
      cases phv.headers[h]? <;> rfl
    · rfl
  | some p => exact (markInvalid_spec hm).1 g

/-- A header is reset: it is not valid, nor is it what a union chose. -/
theorem resetHeader_spec (hj : phv.Joined) (h : ℕ) :
    (∀ g, ((phv.markInvalid h).modifyHeader h Header.resetVLHeader).flag g =
      if h = g then false else phv.flag g) ∧
      ∀ u i, ((phv.markInvalid h).modifyHeader h Header.resetVLHeader).choice u = some i →
        phv.choice u = some i ∧ phv.member (u, i) ≠ some h := by
  refine ⟨fun g => ?_, fun u i hi => ?_⟩
  · rw [flag_modifyHeader_of_eq fun hdr _ => hdr.resetVLHeader_valid, markInvalid_flag]
  · change (phv.markInvalid h).choice u = some i at hi
    cases hm : phv.memberOf h with
    | none =>
      rw [markInvalid_of_none hm] at hi
      refine ⟨hi, fun hmem => ?_⟩
      rw [hj.member_iff, hm] at hmem
      cases hmem
    | some p =>
      obtain ⟨v, j⟩ := p
      rw [(markInvalid_spec hm).2] at hi
      split at hi
      · cases hi
      · next hn =>
        refine ⟨hi, fun hmem => hn ?_⟩
        rw [hj.member_iff, hm] at hmem
        obtain ⟨rfl, rfl⟩ := Prod.mk.inj (Option.some.inj hmem)
        exact ⟨rfl, hi⟩

/-- What is left when the headers of a list have been reset. -/
theorem resetHeaders_spec (hj : phv.Joined) (hs : List ℕ) :
    (∀ g, (hs.foldl (fun p h => (p.markInvalid h).modifyHeader h Header.resetVLHeader) phv).flag g =
      if g ∈ hs then false else phv.flag g) ∧
    ∀ u i, (hs.foldl (fun p h => (p.markInvalid h).modifyHeader h Header.resetVLHeader) phv).choice
      u = some i → phv.choice u = some i ∧ ∀ h ∈ hs, phv.member (u, i) ≠ some h := by
  induction hs generalizing phv with
  | nil => exact ⟨fun g => by simp, fun u i h => ⟨h, by simp⟩⟩
  | cons h hs ih =>
    have hblank : ((phv.markInvalid h).modifyHeader h Header.resetVLHeader).blank = phv.blank :=
      (modifyHeader_blank fun hdr _ => hdr.resetVLHeader_blank).trans (phv.markInvalid_blank h)
    obtain ⟨hflag, hchoice⟩ := resetHeader_spec hj h
    obtain ⟨ihflag, ihchoice⟩ := ih (hj.congr hblank)
    refine ⟨fun g => ?_, fun u i hi => ?_⟩
    · rw [List.foldl_cons, ihflag, hflag]
      by_cases hgh : h = g
      · simp [hgh]
      · simp [hgh, Ne.symm hgh]
    · obtain ⟨hi', hrest⟩ := ihchoice u i hi
      obtain ⟨hi₀, hne⟩ := hchoice u i hi'
      refine ⟨hi₀, fun h' hh' => ?_⟩
      rcases List.mem_cons.mp hh' with rfl | hmem
      · exact hne
      · rw [← member_congr hblank]
        exact hrest h' hmem

/-- **After a reset no header has its flag and no union a choice.** -/
theorem reset_cleared (hj : phv.Joined) (hc : phv.Chosen) :
    (∀ g, phv.reset.flag g = false) ∧ ∀ u, phv.reset.choice u = none := by
  obtain ⟨hflag, hchoice⟩ := resetHeaders_spec hj (List.range phv.headers.length)
  refine ⟨fun g => ?_, fun u => ?_⟩
  · rw [reset, hflag]
    split
    · rfl
    · next hlen =>
      rw [List.mem_range] at hlen
      rw [flag, List.getElem?_eq_none (by omega)]
      rfl
  · by_contra hne
    obtain ⟨i, hi⟩ := Option.ne_none_iff_exists'.mp hne
    obtain ⟨hi', hrest⟩ := hchoice u i hi
    -- The choice is a member, and every member was reset.
    obtain ⟨h, hh⟩ := hc u i hi'
    have hin := isSome_of_memberOf ((hj.member_iff _ _).mp hh)
    refine hrest h ?_ hh
    rw [List.mem_range]
    by_contra hlen
    rw [List.getElem?_eq_none (by omega)] at hin
    cases hin

end Phv

end P4Bricks
