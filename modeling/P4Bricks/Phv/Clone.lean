import P4Bricks.Phv.Reuse
import P4Bricks.Phv.Twins
/-!
# Cloning a header vector

`Packet::clone_with_phv` takes a header vector that was returned to the pool
and copies the headers of the original into it. Valid headers and metadata
arrive as they are. The counts of the stacks and the records of the unions are
not copied, and what an invalid header holds is not either, on purpose. So the
clone does what the original does in every run from then on exactly when there
was nothing of this to copy.
-/

namespace P4Bricks

open Parsing

namespace Phv

/-- The copy in `clone_with_phv`, into a header vector of the pool. -/
def clone (src pool : Phv) : Except Stop Phv := pool.reset.resetHeaderStacks.copyHeaders src

/-- There is nothing but headers to copy: every stack is empty, no union has a
valid header, and the headers that are not valid hold in the pool's header
vector what they hold in the original. -/
structure OnlyHeaders (src pool : Phv) : Prop where
  headerStacks : ∀ st ∈ src.headerStacks, st.next = 0
  headerUnionStacks : ∀ st ∈ src.headerUnionStacks, st.next = 0
  unions : ∀ u, src.choice u = none
  leftovers : ∀ (h : ℕ) (x y : Header), src.headers[h]? = some x → pool.reset.headers[h]? = some y →
    x.isValid = false → y = x

variable {phv phv' src pool copy : Phv}

end Phv

theorem map_blank_eq {sts : List Stack} (h : ∀ st ∈ sts, st.next = 0) : sts.map Stack.blank = sts := by
  have heq : ∀ st ∈ sts, st.blank = id st := fun st hst => by
    rw [Stack.blank, ← h st hst]
    rfl
  rw [List.map_congr_left heq, List.map_id]

namespace PhvFactory

variable {F : PhvFactory} {src pool copy : Phv}

theorem Reaches.lastHidden (hF : F.WellFormed) (h : F.Reaches src) :
    ∀ x ∈ src.headers, x.LastHidden := by
  intro x hx
  obtain ⟨g, hg⟩ := List.mem_iff_getElem?.mp hx
  obtain ⟨y, hy, hyb⟩ := Phv.exists_header (h.layout hF).1.symm hg
  exact (create_lastHidden hF y (List.mem_of_getElem? hy)).congr hyb.symm

/-- What a clone is made of: the valid headers and the metadata of the original, and the
other headers of the pool's vector. -/
structure IsClone (src pool copy : Phv) : Prop where
  blank : copy.blank = src.blank
  headers : ∀ (h : ℕ) (x y : Header), src.headers[h]? = some x → pool.reset.headers[h]? = some y →
    copy.headers[h]? = some (if x.isValid then x else y)
  choice : ∀ u, copy.choice u = none
  headerStacks : copy.headerStacks = src.headerStacks.map Stack.blank
  headerUnionStacks : copy.headerUnionStacks = src.headerUnionStacks.map Stack.blank

/-- The flags of a vector of the pool are reset. -/
theorem reset_valid (hF : F.WellFormed) (hpool : F.Reaches pool) {h : ℕ} {y : Header}
    (hy : pool.reset.headers[h]? = some y) : y.valid = false := by
  have hflag := (Phv.reset_cleared ((create_joined hF).congr (hpool.layout hF).1)
    (hpool.layout hF).2).1 h
  simpa [Phv.flag, hy] using hflag

/-- Two vectors of one program have the same headers. -/
theorem exists_reset (hF : F.WellFormed) (hsrc : F.Reaches src) (hpool : F.Reaches pool) {h : ℕ}
    {x : Header} (hx : src.headers[h]? = some x) :
    ∃ y, pool.reset.headers[h]? = some y ∧ y.blank = x.blank := by
  have hblank : pool.reset.blank = src.blank :=
    (Phv.reset_blank pool).trans ((hpool.layout hF).1.trans (hsrc.layout hF).1.symm)
  exact Phv.exists_header hblank hx

/-- The same headers are valid, and valid headers and metadata hold the same. -/
theorem IsClone.header (hc : IsClone src pool copy) (hF : F.WellFormed) (hsrc : F.Reaches src)
    (hpool : F.Reaches pool) {h : ℕ} {x : Header} (hx : src.headers[h]? = some x) :
    ∃ x', copy.headers[h]? = some x' ∧ x'.isValid = x.isValid ∧ (x.isValid = true → x' = x) := by
  obtain ⟨y, hy, hyb⟩ := exists_reset hF hsrc hpool hx
  refine ⟨_, hc.headers h x y hx hy, ?_, fun hv => by rw [if_pos hv]⟩
  split
  · rfl
  · next hv =>
    have hmeta : y.metadata = x.metadata := by
      have hm := congrArg Header.metadata hyb
      exact hm
    simp only [Header.isValid, Bool.or_eq_true, not_or, Bool.not_eq_true] at hv
    rw [Header.isValid, Header.isValid, hmeta, reset_valid hF hpool hy, hv.1, hv.2]

/-- Where there was nothing but headers to copy, what is left to be different is what
nothing reads. -/
theorem IsClone.twins (hc : IsClone src pool copy) (hF : F.WellFormed) (hsrc : F.Reaches src)
    (hpool : F.Reaches pool) (honly : Phv.OnlyHeaders src pool) : Phv.Twins src copy := by
  refine ⟨(create_joined hF).congr (hsrc.layout hF).1, (hsrc.layout hF).2, hsrc.lastHidden hF,
    fun _ _ => trivial, hc.blank, fun h x x' hx hx' => ?_, fun _ _ _ _ => trivial, fun u => ?_, ?_,
    ?_⟩
  · obtain ⟨y, hy, -⟩ := exists_reset hF hsrc hpool hx
    have hnew := hc.headers h x y hx hy
    have hxx : (if x.isValid then x else y) = x := by
      split
      · rfl
      · next hv => exact honly.leftovers h x y hx hy (by simpa using hv)
    rw [hxx] at hnew
    obtain rfl := Option.some.inj (hnew.symm.trans hx')
    exact Phv.like_refl _ _ x
  · rw [hc.choice, honly.unions]
  · rw [hc.headerStacks, map_blank_eq honly.headerStacks]
  · rw [hc.headerUnionStacks, map_blank_eq honly.headerUnionStacks]

end PhvFactory

namespace Phv

open PhvFactory

variable {F : PhvFactory} {src pool copy : Phv}

end Phv

end P4Bricks
