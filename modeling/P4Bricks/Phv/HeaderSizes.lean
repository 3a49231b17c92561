import P4Bricks.Phv.Helpers.Copies
/-!
# The length of a header

A header keeps its length in bytes next to its fields, whose widths change under
it. The operations that do this are run here on the header vectors of a program,
in any order: the two extractions, the assignments, an exchange with another header
of the type, a copy from a header of another vector, and the reset.
-/

namespace P4Bricks

open Parsing

/-! ## Copies between headers of one type -/

namespace Field

variable {f g : Field}

theorem copyValue_contents (hs : f.shape = g.shape) : (f.copyValue g).contents = g.contents := by
  obtain ⟨hsigned, hsat, hhidden⟩ := signs_of_shape hs
  have hvl := isVL_of_shape hs
  cases hf : f.isVL with
  | true =>
    obtain ⟨m, hm⟩ := Option.isSome_iff_exists.mp hf
    obtain ⟨n, hn⟩ := Option.isSome_iff_exists.mp (hvl.symm.trans hf)
    have hmask : g.mask = n := by rw [mask, hn, Option.getD_some]
    simp only [copyValue, contents, hf, hm, hmask, hn, hsigned, hsat, hhidden, Option.map_some,
      if_true]
  | false =>
    have hnot : ¬f.isVL := by simp [hf]
    have hnot' : ¬g.isVL := by rwa [← hvl]
    simp only [copyValue, contents, hf, hsigned, hsat, hhidden, nbits_of_shape hs hnot,
      vlMask_of_not_isVL hnot, vlMask_of_not_isVL hnot', Option.map_none, Bool.false_eq_true,
      if_false]

end Field

namespace Header

variable {x y z : Header}

theorem copyFieldsFrom_spec {fs gs : List Field} (hs : fs.map Field.shape = gs.map Field.shape) :
    Returns (copyFieldsFrom fs gs) fun l => l.map Field.contents = gs.map Field.contents := by
  induction fs generalizing gs with
  | nil =>
    obtain rfl : gs = [] := List.map_eq_nil_iff.mp hs.symm
    exact .ok rfl
  | cons f fs ih =>
    cases gs with
    | nil => cases hs
    | cons g gs =>
      rw [List.map_cons, List.map_cons, List.cons.injEq] at hs
      refine (ih hs.2).bind fun l _ hl => .ok ?_
      rw [List.map_cons, List.map_cons, Field.copyValue_contents hs.1, hl]

theorem copyFields_blank (h : x.copyFields y = .ok z) : z.blank = x.blank := by
  obtain ⟨fields, hfields, h⟩ := bind_eq_ok h
  cases h
  simp only [blank, copyFieldsFrom_blank hfields]

/-- A copy from a header of the type has the size of its source. -/
theorem Sized.copyFields (hx : x.Sized) (hy : y.Sized) (hs : x.SameFields y)
    (h : x.copyFields y = .ok z) : z.Sized := by
  have hblank := copyFields_blank h
  obtain ⟨fields, hfields, h⟩ := bind_eq_ok h
  cases h
  have hcontents := (copyFieldsFrom_spec hs).of_ok hfields
  refine hx.of_kinds (kinds_congr (fields_blank hblank)) ?_
  have hwhole : ({ y with fields := fields } : Header).contents = y.contents := by
    simp only [contents, hcontents]
  have hbits := congrArg Header.nbits hwhole
  rw [contents_nbits, contents_nbits] at hbits
  exact hbits.trans hy.bytes

/-- All hidden fields are at the end. -/
theorem Sized.packetFields_eq (hs : x.Sized) : x.packetFields = x.fields.filter fun f => !f.hidden := by
  have hlast := hs.hiddenLast
  rw [packetFields]
  generalize x.fields = fs at hlast ⊢
  induction fs with
  | nil => rfl
  | cons f fs ih =>
    obtain ⟨hf, hfs⟩ := List.pairwise_cons.mp hlast
    rw [List.takeWhile_cons, List.filter_cons]
    split_ifs with hhid
    · rw [ih hfs]
    · have hall : fs.filter (fun f => !f.hidden) = [] := by
        refine List.filter_eq_nil_iff.mpr fun g hg hvis => ?_
        have hg' := hf g hg (by simpa using hhid)
        rw [hg'] at hvis
        cases hvis
      exact hall.symm

end Header

/-! ## New header vectors -/

namespace PhvFactory

theorem unjoined_setMemberships (phv : Phv) (u idx : ℕ) (hs : List ℕ) :
    (phv.setMemberships u idx hs).headers.map Phv.unjoined = phv.headers.map Phv.unjoined := by
  induction hs generalizing phv idx with
  | nil => rfl
  | cons h hs ih =>
    rw [Phv.setMemberships, ih, Phv.modifyHeader]
    exact map_modify_of_eq fun hdr _ => rfl

/-- The headers of a new header vector, but for the unions they are in. -/
theorem unjoined_create (F : PhvFactory) :
    F.create.headers.map Phv.unjoined = F.headerDescs.map HeaderDesc.create := by
  have hall : ∀ (unions : List (List ℕ)) (phv : Phv),
      (unions.foldl Phv.pushBackHeaderUnion phv).headers.map Phv.unjoined =
        phv.headers.map Phv.unjoined := by
    intro unions
    induction unions with
    | nil => exact fun phv => rfl
    | cons hs unions ih =>
      intro phv
      rw [List.foldl_cons, ih, Phv.pushBackHeaderUnion, unjoined_setMemberships]
  rw [create, hall, createHeaders, List.map_map]
  rfl

theorem exists_desc {F : PhvFactory} {h : ℕ} {hdr : Header} (hh : F.create.headers[h]? = some hdr) :
    ∃ desc, F.headerDescs[h]? = some desc ∧ Phv.unjoined hdr = desc.create := by
  have heq := congrArg (·[h]?) F.unjoined_create
  simp only [List.getElem?_map, hh, Option.map_some] at heq
  obtain ⟨desc, hdesc, hsame⟩ := Option.map_eq_some_iff.mp heq.symm
  exact ⟨desc, hdesc, hsame.symm⟩

end PhvFactory

/-! ## Runs -/

/-- An operation on the header vectors of a program that changes the length of a
header, or could. The header vector is named by its place among them. -/
inductive SizeOp where
  | extract (phv : ℕ) (ctx : Context) (registers : Registers) (h : ℕ) (data : ByteContainer)
  | extractVL (phv h : ℕ) (data : ByteContainer) (nbits : ℤ)
  | assignHeader (phv dst src : ℕ)
  | assignVL (phv : ℕ) (dst src : ℕ × ℕ)
  | swapValues (phv h other : ℕ)
  | copyFields (phv h src other : ℕ)
  | reset (phv : ℕ)

namespace SizeOp

/-- The header vector that is changed. -/
def target : SizeOp → ℕ
  | extract phv _ _ _ _ | extractVL phv _ _ _ | assignHeader phv _ _ | assignVL phv _ _
  | swapValues phv _ _ | copyFields phv _ _ _ | reset phv => phv

/-- What becomes of it. -/
def result (phvs : List Phv) (phv : Phv) : SizeOp → Except Stop Phv
  | extract _ ctx registers h data => extractHeader ctx phv registers h data
  | extractVL _ h data nbits => extractHeaderVL phv h data nbits
  | assignHeader _ dst src => phv.assignHeader dst src
  | assignVL _ dst src => phv.runAssignVL dst src
  | swapValues _ h other => phv.swapHeaders h other
  | copyFields _ h src other => do
    let hdr ← required phv.headers[h]?
    let from' ← required (phvs[src]?.bind fun p => p.headers[other]?)
    let hdr ← hdr.copyFields from'
    .ok (phv.modifyHeader h fun _ => hdr)
  | reset _ => .ok phv.reset

def run (phvs : List Phv) : List SizeOp → Except Stop (List Phv)
  | [] => .ok phvs
  | op :: ops => do
    let phv ← required phvs[op.target]?
    let phv ← op.result phvs phv
    run (phvs.set op.target phv) ops

/-- The two headers of an exchange or a copy are of one type. -/
def SameType (F : PhvFactory) : SizeOp → Prop
  | swapValues _ h other | copyFields _ h _ other =>
    F.headerDescs[h]?.map HeaderDesc.headerType = F.headerDescs[other]?.map HeaderDesc.headerType
  | _ => True

/-- What the operations keep of a header vector. -/
structure Kept (F : PhvFactory) (phv : Phv) : Prop where
  layout : phv.blank = F.create.blank
  sized : phv.Sized

variable {F : PhvFactory} {phv phv' : Phv} {phvs phvs' : List Phv} {op : SizeOp} {ops : List SizeOp}

theorem kept_create (F : PhvFactory) : Kept F F.create := by
  refine ⟨rfl, fun hdr hhdr => ?_⟩
  obtain ⟨h, hh⟩ := List.mem_iff_getElem?.mp hhdr
  obtain ⟨desc, -, heq⟩ := PhvFactory.exists_desc hh
  have hsized := desc.create_sized
  rw [← heq] at hsized
  exact ⟨hsized.bytes, hsized.oneVL, hsized.hiddenLast, hsized.hiddenFixed, hsized.validHidden⟩

/-- The type that a header was made with says what its fields are like. -/
theorem Kept.sameFields (hk : Kept F phv) (hk' : Kept F phv') {h h' : ℕ} {x y : Header}
    (ht : F.headerDescs[h]?.map HeaderDesc.headerType = F.headerDescs[h']?.map HeaderDesc.headerType)
    (hx : phv.headers[h]? = some x) (hy : phv'.headers[h']? = some y) : x.SameFields y := by
  obtain ⟨x₀, hx₀, hxb⟩ := Phv.exists_header hk.layout.symm hx
  obtain ⟨y₀, hy₀, hyb⟩ := Phv.exists_header hk'.layout.symm hy
  obtain ⟨desc, hdesc, hxd⟩ := PhvFactory.exists_desc hx₀
  obtain ⟨desc', hdesc', hyd⟩ := PhvFactory.exists_desc hy₀
  rw [hdesc, hdesc', Option.map_some, Option.map_some, Option.some.injEq] at ht
  have hsame := PhvFactory.sameFields_create ht
  rw [← hxd, ← hyd] at hsame
  have hsame₀ : x₀.SameFields y₀ := hsame
  exact hsame₀.congr hxb.symm hyb.symm

/-- Beside its variable field a header has whole bytes. -/
theorem Kept.whole (hk : Kept F phv) : ∀ hdr ∈ phv.headers, hdr.blank.nbits % 8 = 0 := by
  refine Phv.whole_congr (fun hdr hhdr => ?_) hk.layout
  obtain ⟨h, hh⟩ := List.mem_iff_getElem?.mp hhdr
  obtain ⟨desc, -, heq⟩ := PhvFactory.exists_desc hh
  have hnbits : hdr.blank.nbits = desc.create.blank.nbits := by
    rw [← heq]
    rfl
  rw [hnbits, PhvFactory.nbits_create]
  exact desc.headerType.wholeBytes

theorem Kept.effects (hk : Kept F phv) (he : Phv.Effects phv phv') : Kept F phv' := by
  refine ⟨he.blank_eq.trans hk.layout, ?_⟩
  induction he with
  | refl => exact hk.sized
  | tail _ h ih => exact h.sized ih

/-- An exchange of two headers of one type. -/
theorem sized_swapHeaders (hs : phv.Sized) {h other : ℕ}
    (hsame : ∀ x y, phv.headers[h]? = some x → phv.headers[other]? = some y → x.SameFields y)
    (hx : phv.swapHeaders h other = .ok phv') : phv'.Sized := by
  obtain ⟨x, hx₁, hx⟩ := bind_eq_ok hx
  obtain ⟨y, hy₁, hx⟩ := bind_eq_ok hx
  obtain ⟨⟨x', y'⟩, hswap, hx⟩ := bind_eq_ok hx
  obtain rfl := Except.ok.inj hx
  have hxm := required_eq_ok hx₁
  have hym := required_eq_ok hy₁
  obtain ⟨hcx, hcy⟩ := (Header.swapValues_spec (hsame x y hxm hym)).of_ok hswap
  obtain ⟨hbx, hby⟩ := Header.swapValues_blank hswap
  have hxs := hs x (List.mem_of_getElem? hxm)
  have hys := hs y (List.mem_of_getElem? hym)
  intro z hz
  rcases List.mem_or_eq_of_mem_set hz with hz | rfl
  · rcases List.mem_or_eq_of_mem_set hz with hz | rfl
    · exact hs z hz
    · exact hxs.of_contents hys hbx hcx
  · exact hys.of_contents hxs hby hcy

/-- **One operation** keeps the sizes of the vector it changes. -/
theorem Kept.result (hall : ∀ p ∈ phvs, Kept F p) (hk : Kept F phv) (hsame : op.SameType F)
    (h : op.result phvs phv = .ok phv') : Kept F phv' := by
  cases op with
  | extract i ctx registers h data => exact hk.effects (Phv.extractHeader_effects h)
  | extractVL i h data nbits => exact hk.effects (Phv.extractHeaderVL_effects h)
  | assignHeader i dst src => exact hk.effects (Phv.assignHeader_effects h)
  | assignVL i dst src =>
    obtain ⟨f, hf, h⟩ := bind_eq_ok h
    obtain ⟨g, -, h⟩ := bind_eq_ok h
    split_ifs at h with hvl
    exact hk.effects (Phv.assignVL_effects (required_eq_ok hf) hvl h)
  | swapValues i a b =>
    exact ⟨(Phv.swapHeaders_blank h).trans hk.layout,
      sized_swapHeaders hk.sized (fun x y hx hy => hk.sameFields hk hsame hx hy) h⟩
  | copyFields i a src b =>
    obtain ⟨x, hx, h⟩ := bind_eq_ok h
    obtain ⟨y, hy, h⟩ := bind_eq_ok h
    obtain ⟨z, hz, h⟩ := bind_eq_ok h
    obtain rfl := Except.ok.inj h
    have hxa := required_eq_ok hx
    obtain ⟨p, hp, hyb⟩ := Option.bind_eq_some_iff.mp (required_eq_ok hy)
    have hpk := hall p (List.mem_of_getElem? hp)
    have hxs := hk.sized x (List.mem_of_getElem? hxa)
    have hys := hpk.sized y (List.mem_of_getElem? hyb)
    refine ⟨?_, hk.sized.put (hxs.copyFields hys (hk.sameFields hpk hsame hxa hyb) hz)⟩
    refine (Phv.modifyHeader_blank fun hdr hhdr => ?_).trans hk.layout
    obtain rfl := Option.some.inj (hxa.symm.trans hhdr)
    exact Header.copyFields_blank hz
  | reset i =>
    obtain rfl := Except.ok.inj h
    exact hk.effects (Phv.reset_effects hk.whole)

theorem kept_run (hall : ∀ p ∈ phvs, Kept F p) (hsame : ∀ op ∈ ops, op.SameType F)
    (h : run phvs ops = .ok phvs') : ∀ p ∈ phvs', Kept F p := by
  induction ops generalizing phvs with
  | nil =>
    obtain rfl := Except.ok.inj h
    exact hall
  | cons op ops ih =>
    obtain ⟨phv, hphv, h⟩ := bind_eq_ok h
    obtain ⟨phv₁, hresult, h⟩ := bind_eq_ok h
    have hk := hall phv (List.mem_of_getElem? (required_eq_ok hphv))
    have hk₁ := Kept.result hall hk (hsame op List.mem_cons_self) hresult
    refine ih (fun p hp => ?_) (fun op' hop => hsame op' (List.mem_cons_of_mem _ hop)) h
    rcases List.mem_or_eq_of_mem_set hp with hp | rfl
    · exact hall p hp
    · exact hk₁

/-- **The length of every header.** Whatever was done to the header vectors of a
program, in whatever order, a header is as many bytes long as the fields that are not
hidden have bits. -/
theorem nbytesPacket_of_run (F : PhvFactory) (n : ℕ) (ops : List SizeOp)
    (hsame : ∀ op ∈ ops, op.SameType F) (phvs : List Phv)
    (hrun : run (List.replicate n F.create) ops = .ok phvs) :
    ∀ phv ∈ phvs, ∀ hdr ∈ phv.headers,
      8 * hdr.nbytesPacket = ((hdr.fields.filter fun f => !f.hidden).map Field.nbits).sum := by
  intro phv hphv hdr hhdr
  have hk := kept_run (fun p hp => List.eq_of_mem_replicate hp ▸ kept_create F) hsame hrun phv hphv
  have hsized := hk.sized hdr hhdr
  rw [← hsized.packetFields_eq]
  exact hsized.bytes.symm

/-- A byte and a field of variable length. -/
def optionsType : HeaderType where
  id := 0
  fieldsInfo := [{ bitwidth := 8 }, { bitwidth := 0, isVL := true }]
  notHidden := by simp
  oneVL := by simp
  vlEmpty := by simp
  wholeBytes := by simp

def optionsFactory : PhvFactory where
  headerDescs := [⟨optionsType, [], false⟩, ⟨optionsType, [], false⟩]
  headerStackDescs := []
  headerUnionDescs := []
  headerUnionStackDescs := []

/-- Two bytes of options are extracted, change places with none, go to another header
vector and are lost in the reset. -/
def optionsOps : List SizeOp :=
  [.extractVL 0 0 [7, 1, 2] 16, .swapValues 0 0 1, .copyFields 1 0 0 1, .reset 0]

theorem nbytesPacket_options : ∃ phvs, run (List.replicate 2 optionsFactory.create) optionsOps =
    .ok phvs ∧ phvs.map (fun phv => phv.headers.map Header.nbytesPacket) = [[1, 1], [3, 1]] ∧
      ∀ phv ∈ phvs, ∀ hdr ∈ phv.headers,
        8 * hdr.nbytesPacket = ((hdr.fields.filter fun f => !f.hidden).map Field.nbits).sum := by
  have hsame : ∀ op ∈ optionsOps, op.SameType optionsFactory := by
    intro op hop
    simp only [optionsOps, List.mem_cons, List.not_mem_nil, or_false] at hop
    rcases hop with rfl | rfl | rfl | rfl
    · trivial
    · rfl
    · rfl
    · trivial
  refine ⟨_, rfl, rfl, nbytesPacket_of_run optionsFactory 2 optionsOps hsame _ rfl⟩

end SizeOp

end P4Bricks
