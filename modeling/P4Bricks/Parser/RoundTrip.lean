import Mathlib.Data.Set.Finite.Basic
import Mathlib.Tactic.IntervalCases
import P4Bricks.Parser.Bounds
import P4Bricks.Parser.Helpers.HeaderCopy
/-!
# Parsing and deparsing

A packet that is parsed and deparsed again comes out as it was, whatever the
parser extracts and wherever it stops. The bytes that were parsed are the
images of the headers that were extracted, one after the other, and the
deparser writes the images of the headers that are valid.

Two headers of one union are never both valid, so that the image of the first
is lost when the second is extracted. No path may extract both.
-/

namespace P4Bricks

open Parsing

/-! ## What does not change -/

def Header.frame (h : Header) : Bool × Option (ℕ × ℕ) := (h.metadata, h.unionMembership)

/-- What is fixed when the header vector is made, besides the sizes. -/
def Phv.frame (phv : Phv) : List (Bool × Option (ℕ × ℕ)) × List (List ℕ) × List (List ℕ) :=
  (phv.headers.map Header.frame, phv.headerUnions.map HeaderUnion.headers,
    phv.headerStacks.map Stack.elements)

namespace Phv

variable {phv phv' : Phv}

theorem modifyHeader_frame {i : ℕ} {f : Header → Header}
    (h : ∀ hdr, phv.headers[i]? = some hdr → (f hdr).frame = hdr.frame) :
    (phv.modifyHeader i f).frame = phv.frame :=
  Prod.ext (map_modify_of_eq h) rfl

theorem modifyUnion_frame {u : ℕ} {f : HeaderUnion → HeaderUnion}
    (h : ∀ un, (f un).headers = un.headers) : (phv.modifyUnion u f).frame = phv.frame :=
  Prod.ext rfl (Prod.ext (map_modify_of_eq fun un _ => h un) rfl)

@[simp] theorem markValid_frame (phv : Phv) (h : ℕ) : (phv.markValid h).frame = phv.frame :=
  markValid_keeps (P := fun p => p.frame = phv.frame)
    (fun _ _ b hP => (modifyHeader_frame (f := (·.setValid b)) fun _ _ => rfl).trans hP)
    (fun _ _ _ hf hP => (modifyUnion_frame hf).trans hP) rfl

/-- The union a header is in. -/
def unionOf (phv : Phv) (h : ℕ) : Option ℕ :=
  (phv.headers[h]?.bind Header.unionMembership).map Prod.fst

/-- The members of a union know their place in it. -/
def UnionsOk (phv : Phv) : Prop :=
  ∀ u un idx g, phv.headerUnions[u]? = some un → un.headers[idx]? = some g →
    phv.headers[g]?.bind Header.unionMembership = some (u, idx)

theorem membership_congr (h : phv'.frame = phv.frame) (i : ℕ) :
    phv'.headers[i]?.bind Header.unionMembership = phv.headers[i]?.bind Header.unionMembership := by
  have hi : phv'.headers[i]?.map Header.frame = phv.headers[i]?.map Header.frame := by
    rw [← List.getElem?_map, ← List.getElem?_map]
    exact congrArg (·[i]?) (congrArg Prod.fst h)
  have hsnd := congrArg (Option.bind · Prod.snd) hi
  simpa [Option.bind_map, Function.comp_def, Header.frame] using hsnd

theorem unionOf_congr (h : phv'.frame = phv.frame) (i : ℕ) : phv'.unionOf i = phv.unionOf i := by
  rw [unionOf, unionOf, membership_congr h]

theorem UnionsOk.congr (hu : phv.UnionsOk) (h : phv'.frame = phv.frame) : phv'.UnionsOk := by
  intro u un idx g hun hg
  have hi : phv'.headerUnions[u]?.map HeaderUnion.headers =
      phv.headerUnions[u]?.map HeaderUnion.headers := by
    rw [← List.getElem?_map, ← List.getElem?_map]
    exact congrArg (·[u]?) (congrArg (fun f => f.2.1) h)
  rw [hun, Option.map_some, eq_comm, Option.map_eq_some_iff] at hi
  obtain ⟨un', hun', heq⟩ := hi
  rw [membership_congr h]
  exact hu u un' idx g hun' (heq ▸ hg)

/-! ## Making a header valid -/

/-- **What `mark_valid` does to the headers**: it sets the flag of one, and may
take it from another of the same union. -/
theorem markValid_headers (hu : phv.UnionsOk) (h : ℕ) :
    (phv.markValid h).headers = phv.headers.modify h (·.setValid true) ∨
      ∃ g, g ≠ h ∧ (∃ u, phv.unionOf g = some u ∧ phv.unionOf h = some u) ∧
        (phv.markValid h).headers =
          (phv.headers.modify h (·.setValid true)).modify g (·.setValid false) := by
  unfold markValid
  split
  · exact .inl rfl
  · next u idx hmem =>
    dsimp only [makeHeaderValid]
    split
    · exact .inl rfl
    · next un hun =>
      split
      · next hval =>
        split
        · exact .inl rfl
        · next g hg =>
          have hmem' := hu u un un.validHeaderIdx g hun hg
          refine .inr ⟨g, fun heq => ?_, ⟨u, ?_, ?_⟩, ?_⟩
          · rw [heq, hmem] at hmem'
            exact hval.2 (Prod.ext_iff.mp (Option.some.inj hmem')).2.symm
          · rw [unionOf, hmem']
            rfl
          · rw [unionOf, hmem]
            rfl
          · unfold markInvalid
            split <;> rfl
      · exact .inl rfl

theorem makeHeaderValid_headerStacks (phv : Phv) (u idx : ℕ) :
    (phv.makeHeaderValid u idx).headerStacks = phv.headerStacks := by
  unfold makeHeaderValid
  split
  · rfl
  · show Phv.headerStacks (if _ then _ else _) = _
    split
    · split
      · rfl
      · unfold markInvalid
        split <;> rfl
    · rfl

theorem markValid_headerStacks (phv : Phv) (h : ℕ) :
    (phv.markValid h).headerStacks = phv.headerStacks := by
  unfold markValid
  split
  · rfl
  · rw [makeHeaderValid_headerStacks]
    rfl

theorem markValid_self (hu : phv.UnionsOk) {h : ℕ} {hdr : Header}
    (hhdr : phv.headers[h]? = some hdr) :
    (phv.markValid h).headers[h]? = some (hdr.setValid true) := by
  rcases phv.markValid_headers hu h with heq | ⟨g, hne, -, heq⟩
  · rw [heq, List.getElem?_modify, hhdr]
    simp
  · rw [heq, List.getElem?_modify, List.getElem?_modify, hhdr]
    simp [hne]

theorem markValid_other (hu : phv.UnionsOk) {h k : ℕ} (hne : k ≠ h) :
    (phv.markValid h).headers[k]? = phv.headers[k]? ∨
      (∃ u, phv.unionOf k = some u ∧ phv.unionOf h = some u) ∧
        (phv.markValid h).headers[k]? = phv.headers[k]?.map (·.setValid false) := by
  have hk : (phv.headers.modify h (·.setValid true))[k]? = phv.headers[k]? := by
    rw [List.getElem?_modify]
    simp [hne.symm]
  rcases phv.markValid_headers hu h with heq | ⟨g, -, hun, heq⟩
  · rw [heq, hk]
    exact .inl rfl
  · rcases eq_or_ne k g with rfl | hkg
    · refine .inr ⟨hun, ?_⟩
      rw [heq, List.getElem?_modify, hk]
      simp
    · left
      rw [heq, List.getElem?_modify, hk]
      simp [hkg.symm]

end Phv

/-! ## The headers that hold the packet -/

namespace Parsing

variable {ctx : Context} {pkt : Packet} {phv₀ phv : Phv} {data : ByteContainer} {t : List ℕ}
variable {n : ℕ} {img : ℕ → ByteContainer} {s : State}

/-- The headers of `t` hold the first `n` bytes of the packet, and no other
header is valid. -/
structure Holds (phv : Phv) (data : ByteContainer) (t : List ℕ) (n : ℕ)
    (img : ℕ → ByteContainer) : Prop where
  images : ∀ h ∈ t, ∃ hdr, phv.headers[h]? = some hdr ∧ hdr.valid = true ∧ hdr.Image (img h)
  others : ∀ h hdr, phv.headers[h]? = some hdr → h ∉ t → hdr.metadata = false → hdr.valid = false
  bytes : t.flatMap img = data.take n

/-- Two headers of which one is taken from when the other is made valid. -/
def SameUnion (phv : Phv) (g h : ℕ) : Prop := ∃ u, phv.unionOf g = some u ∧ phv.unionOf h = some u

theorem SameUnion.congr {phv phv' : Phv} {g h : ℕ} (hsame : SameUnion phv' g h)
    (hframe : phv'.frame = phv.frame) : SameUnion phv g h := by
  obtain ⟨u, hg, hh⟩ := hsame
  rw [Phv.unionOf_congr hframe] at hg hh
  exact ⟨u, hg, hh⟩

/-- A header that has its image is made valid. -/
theorem holds_markValid (hs : phv.Sized) (hu : phv.UnionsOk) {h : ℕ} {hdr : Header} (ht : h ∈ t)
    (hhdr : phv.headers[h]? = some hdr) (himg : hdr.Image (img h))
    (hrest : ∀ g ∈ t, g ≠ h → ¬SameUnion phv g h ∧
      ∃ hdr, phv.headers[g]? = some hdr ∧ hdr.valid = true ∧ hdr.Image (img g))
    (hothers : ∀ h hdr, phv.headers[h]? = some hdr → h ∉ t → hdr.metadata = false →
      hdr.valid = false) (hbytes : t.flatMap img = data.take n) :
    Holds (phv.markValid h) data t n img := by
  refine ⟨fun g hg => ?_, fun g hdr' hget hg hmeta => ?_, hbytes⟩
  · rcases eq_or_ne g h with rfl | hne
    · have hsized := hs hdr (List.mem_of_getElem? hhdr)
      exact ⟨_, Phv.markValid_self hu hhdr, rfl, Header.setValid_image hsized true himg⟩
    · obtain ⟨hun, hold⟩ := hrest g hg hne
      rcases Phv.markValid_other hu hne with heq | ⟨hsame, -⟩
      · rwa [heq]
      · exact absurd hsame hun
  · have hne : g ≠ h := fun heq => hg (heq ▸ ht)
    rcases Phv.markValid_other hu hne with heq | ⟨-, heq⟩
    · exact hothers g hdr' (heq ▸ hget) hg hmeta
    · rw [heq, Option.map_eq_some_iff] at hget
      obtain ⟨hdr₀, -, rfl⟩ := hget
      rfl

theorem extractFixed_frame {hdr hdr' : Header} (hx : hdr.extractFixed data = .ok hdr') :
    hdr'.frame = hdr.frame := by
  obtain ⟨fields, -, hx⟩ := bind_eq_ok hx
  cases hx
  rfl

/-- A header is extracted. -/
theorem holds_extract (hs : phv.Sized) (hu : phv.UnionsOk) (hold : Holds phv data t n img) {h : ℕ}
    {hdr hdr' : Header} (hhdr : phv.headers[h]? = some hdr) (hfix : ¬hdr.isVLHeader)
    (hx : hdr.extractFixed (data.drop n) = .ok hdr') (hsize : hdr'.sizes = hdr.sizes)
    (hlen : n + hdr.nbytesPacket ≤ data.length) (hnew : h ∉ t)
    (hun : ∀ g ∈ t, ¬SameUnion phv g h) :
    Holds ((phv.modifyHeader h fun _ => hdr').markValid h) data (t ++ [h]) (n + hdr.nbytesPacket)
      (Function.update img h ((data.drop n).take hdr.nbytesPacket)) := by
  have hsized := hs hdr (List.mem_of_getElem? hhdr)
  have hframe : (phv.modifyHeader h fun _ => hdr').frame = phv.frame := by
    refine Phv.modifyHeader_frame fun g hg => ?_
    rw [hhdr] at hg
    cases hg
    exact extractFixed_frame hx
  have hself : (phv.modifyHeader h fun _ => hdr').headers[h]? = some hdr' := by
    rw [Phv.modifyHeader, List.getElem?_modify, hhdr]
    simp
  have hother : ∀ g, g ≠ h → (phv.modifyHeader h fun _ => hdr').headers[g]? = phv.headers[g]? := by
    intro g hne
    rw [Phv.modifyHeader, List.getElem?_modify]
    simp [hne.symm]
  refine holds_markValid (hs.put (hsized.congr hsize)) (hu.congr hframe) (by simp) hself ?_ ?_ ?_ ?_
  · rw [Function.update_self]
    exact Header.extractFixed_image hsized hfix hx (by rw [List.length_drop]; omega)
  · intro g hg hne
    have hgt : g ∈ t := by simpa [hne] using hg
    rw [hother g hne, Function.update_of_ne hne]
    exact ⟨fun hsame => hun g hgt (hsame.congr hframe), hold.images g hgt⟩
  · intro g hdr₀ hget hg hmeta
    have hgt : g ∉ t ∧ g ≠ h := by simpa using hg
    rw [hother g hgt.2] at hget
    exact hold.others g hdr₀ hget hgt.1 hmeta
  · have hflat : t.flatMap (Function.update img h ((data.drop n).take hdr.nbytesPacket)) =
        t.flatMap img := by
      refine List.flatMap_congr fun g hg => ?_
      have hne : g ≠ h := fun heq => hnew (heq ▸ hg)
      rw [Function.update_of_ne hne]
    rw [List.flatMap_append, hflat, hold.bytes, List.flatMap_singleton, Function.update_self,
      List.take_add]

/-! ## Ops that extract -/

/-- A header of fixed width, with no empty field inside a byte. -/
def FixedHeader (hdr : Header) : Prop :=
  ¬hdr.isVLHeader ∧ EmptyAligned 0 (Header.wireWidths hdr.fields)

theorem FixedHeader.congr {hdr hdr' : Header} (hf : FixedHeader hdr)
    (h : hdr'.sizes = hdr.sizes) : FixedHeader hdr' := by
  have hsizes : hdr'.fields.map Field.size = hdr.fields.map Field.size := congrArg Prod.snd h
  have hvl : hdr'.isVLHeader = hdr.isVLHeader := by
    have hany := congrArg (List.any · fun s => s.2.2) hsizes
    simpa [Header.isVLHeader, List.any_map, Function.comp_def, Field.size] using hany
  have hwidths : Header.wireWidths hdr'.fields = Header.wireWidths hdr.fields := by
    have hmap := congrArg (fun l => (l.takeWhile fun s => !s.2.1).map Prod.fst) hsizes
    simpa [Header.wireWidths, List.takeWhile_map, Function.comp_def, Field.size] using hmap
  exact ⟨hvl ▸ hf.1, hwidths ▸ hf.2⟩

/-- The ops of the parsers considered: extractions of fixed width, of a header
or to a stack. -/
def ParserOp.ExtractsFixed (phv : Phv) : ParserOp → Prop
  | .extract h => ∃ hdr, phv.headers[h]? = some hdr ∧ FixedHeader hdr
  | .extractStack headerStack => ∃ st, phv.headerStacks[headerStack]? = some st ∧
      ∀ h ∈ st.elements, ∃ hdr, phv.headers[h]? = some hdr ∧ FixedHeader hdr
  | _ => False

/-- The header an op extracts to. -/
def ParserOp.target (phv : Phv) : ParserOp → Option ℕ
  | .extract h => some h
  | .extractStack headerStack => phv.headerStacks[headerStack]?.bind Stack.getNext
  | _ => none

/-- What holds of the state of a run that has extracted `t`. -/
structure State.Extracted (phv₀ : Phv) (pkt : Packet) (t : List ℕ) (s : State) : Prop where
  sizes : s.phv.sizes = phv₀.sizes
  frame : s.phv.frame = phv₀.frame
  parsed : (s.bytesParsed : ℤ) ≤ pkt.ingressLength.toInt
  holds : ∃ img, Holds s.phv pkt.data t s.bytesParsed img

/-- What an observation of a list says about one of its elements. -/
theorem getElem?_of_map_eq {α β : Type*} {f : α → β} {l l' : List α} (h : l'.map f = l.map f)
    {i : ℕ} {a : α} (hi : l[i]? = some a) : ∃ a', l'[i]? = some a' ∧ f a' = f a := by
  have hmap : l'[i]?.map f = l[i]?.map f := by
    rw [← List.getElem?_map, ← List.getElem?_map, h]
  rwa [hi, Option.map_some, Option.map_eq_some_iff] at hmap

variable (hl : pkt.LengthOk) (hs₀ : phv₀.Sized) (hu₀ : phv₀.UnionsOk)

include hl hs₀ hu₀ in
/-- **The extraction of a header of fixed width**: the packet is too short, or
the header holds the next bytes. -/
theorem extractChecked_extracted (he : s.Extracted phv₀ pkt t) {h : ℕ} {hdr : Header}
    (hhdr : phv₀.headers[h]? = some hdr) (hfix : FixedHeader hdr) :
    extractChecked ctx pkt s h = .error (.core .packetTooShort) ∨
      ∃ s', extractChecked ctx pkt s h = .ok s' ∧
        s'.phv.headerStacks = s.phv.headerStacks ∧
        (h ∉ t → (∀ g ∈ t, ¬SameUnion phv₀ g h) → s'.Extracted phv₀ pkt (t ++ [h])) := by
  have hsized : s.phv.Sized := hs₀.congr he.sizes
  have hi : s.Inv pkt := ⟨hsized, he.parsed⟩
  have hu : s.phv.UnionsOk := hu₀.congr he.frame
  obtain ⟨hdr₁, hhdr₁, hsz⟩ := getElem?_of_map_eq (f := Header.sizes) he.sizes hhdr
  have hfix₁ := hfix.congr hsz
  have hsized₁ := hsized hdr₁ (List.mem_of_getElem? hhdr₁)
  have hlen := left_le_length hl hi
  rcases Nat.lt_or_ge (left pkt s.bytesParsed) hdr₁.nbytesPacket with hshort | henough
  · left
    simp only [extractChecked, nbytesPacket, hhdr₁, required, bind, Except.bind,
      checkEnough_tooShort hi hshort]
  · right
    obtain ⟨hdr', hx, hsize⟩ := Avoids.exists_ok (Header.extractFixed_returns hsized₁ hfix₁.1 hfix₁.2
      (henough.trans hlen))
    obtain ⟨img, hold⟩ := he.holds
    have h₁ := hl.1
    have h₂ := hl.2
    have h₃ := he.parsed
    have h₄ := pkt.ingressLength.toInt_lt
    have hleft : (left pkt s.bytesParsed : ℤ) = pkt.ingressLength.toInt - s.bytesParsed := by
      rw [left]
      omega
    -- Extraction changes the contents of a header, neither its size nor its union.
    have hput : (s.phv.modifyHeader h fun _ => hdr').sizes = s.phv.sizes := by
      refine Phv.modifyHeader_sizes fun g hg => ?_
      rw [hhdr₁] at hg
      cases hg
      exact hsize
    have hframe : (s.phv.modifyHeader h fun _ => hdr').frame = s.phv.frame := by
      refine Phv.modifyHeader_frame fun g hg => ?_
      rw [hhdr₁] at hg
      cases hg
      exact extractFixed_frame hx
    have hbytes : nbytesPacket ((s.phv.modifyHeader h fun _ => hdr').markValid h) h =
        .ok hdr₁.nbytesPacket := by
      rw [nbytesPacket_congr ((Phv.markValid_sizes _ _).trans hput), nbytesPacket, hhdr₁]
      rfl
    refine ⟨⟨(s.phv.modifyHeader h fun _ => hdr').markValid h, s.registers,
      s.bytesParsed + hdr₁.nbytesPacket⟩, ?_, Phv.markValid_headerStacks _ _, fun hnew hun =>
        ⟨?_, ?_, ?_, ?_⟩⟩
    · -- The checks pass, and the number of bytes passed does not wrap.
      have hn : nbytesPacket s.phv h = .ok hdr₁.nbytesPacket := by
        rw [nbytesPacket, hhdr₁]
        rfl
      have hcheck : checkEnough pkt s.bytesParsed hdr₁.nbytesPacket = .ok () := by
        rw [checkEnough, available_eq hi, if_neg (Nat.not_lt.mpr henough)]
      have hextract : extractHeader ctx s.phv s.registers h (pkt.data.drop s.bytesParsed) =
          .ok ((s.phv.modifyHeader h fun _ => hdr').markValid h) := by
        simp only [extractHeader, extractFieldsOf, hhdr₁, required, bind, Except.bind,
          if_neg hfix₁.1, hx]
      simp only [extractChecked, hn, hcheck, hextract, hbytes, bind, Except.bind, State.advance]
      rw [Nat.mod_eq_of_lt (by omega)]
    · exact (Phv.markValid_sizes _ _).trans (hput.trans he.sizes)
    · exact (Phv.markValid_frame _ _).trans (hframe.trans he.frame)
    · push_cast
      omega
    · refine ⟨_, holds_extract hsized hu hold hhdr₁ hfix₁.1 hx hsize (by omega) hnew ?_⟩
      exact fun g hg hsame => hun g hg (hsame.congr he.frame)

include hs₀ hu₀ in
/-- The element of a stack that was extracted is pushed: it is made valid once
more. -/
theorem pushBack_extracted (he : s.Extracted phv₀ pkt t) {h headerStack : ℕ} (ht : h ∈ t)
    (hnext : s.phv.headerStacks[headerStack]?.bind Stack.getNext = some h)
    (hun : ∀ g ∈ t, g ≠ h → ¬SameUnion phv₀ g h) :
    State.Extracted phv₀ pkt t { s with phv := pushBackHeader s.phv headerStack } := by
  have hpush : pushBackHeader s.phv headerStack = { s.phv.markValid h with
      headerStacks := s.phv.headerStacks.modify headerStack
        fun st => { st with next := st.next + 1 } } := by
    simp only [pushBackHeader, hnext]
  have hframe : (pushBackHeader s.phv headerStack).frame = s.phv.frame := by
    have hmark := Phv.markValid_frame s.phv h
    have h₁ : (s.phv.markValid h).headers.map Header.frame = s.phv.headers.map Header.frame :=
      congrArg Prod.fst hmark
    have h₂ : (s.phv.markValid h).headerUnions.map HeaderUnion.headers =
        s.phv.headerUnions.map HeaderUnion.headers := congrArg (fun f => f.2.1) hmark
    rw [hpush]
    exact Prod.ext h₁ (Prod.ext h₂ (map_modify_of_eq fun _ _ => rfl))
  obtain ⟨img, hold⟩ := he.holds
  obtain ⟨hdr, hhdr, -, himg⟩ := hold.images h ht
  refine ⟨(pushBackHeader_sizes _ _).trans he.sizes, hframe.trans he.frame, he.parsed, img, ?_⟩
  have hmark := holds_markValid (hs₀.congr he.sizes) (hu₀.congr he.frame) ht hhdr himg
    (fun g hg hne => ⟨fun hsame => hun g hg hne (hsame.congr he.frame), hold.images g hg⟩)
    hold.others hold.bytes
  show Holds (pushBackHeader s.phv headerStack) _ _ _ _
  rw [hpush]
  exact ⟨hmark.images, hmark.others, hmark.bytes⟩

variable (ctx) in
include hl hs₀ hu₀ in
/-- **An op that extracts**: it stops with an error of the parser, or the header
it extracts to holds the next bytes. -/
theorem run_extracted (he : s.Extracted phv₀ pkt t) {op : ParserOp}
    (hop : op.ExtractsFixed phv₀) :
    (∃ e, op.run ctx pkt s = .error (.core e)) ∨
      ∃ h s', op.target s.phv = some h ∧ op.run ctx pkt s = .ok s' ∧
        (h ∉ t → (∀ g ∈ t, ¬SameUnion phv₀ g h) → s'.Extracted phv₀ pkt (t ++ [h])) := by
  cases op with
  | extract h =>
    obtain ⟨hdr, hhdr, hfix⟩ := hop
    rcases extractChecked_extracted hl hs₀ hu₀ he hhdr hfix with herr | ⟨s', hok, -, hex⟩
    · exact .inl ⟨_, herr⟩
    · exact .inr ⟨h, s', rfl, hok, hex⟩
  | extractStack headerStack =>
    obtain ⟨st₀, hst₀, hall⟩ := hop
    -- The elements of a stack are those it had before the run; only its counter has moved.
    have hstacks : s.phv.headerStacks[headerStack]?.map Stack.elements = some st₀.elements := by
      have hfr : s.phv.headerStacks.map Stack.elements = phv₀.headerStacks.map Stack.elements :=
        congrArg (fun f => f.2.2) he.frame
      rw [← List.getElem?_map, hfr, List.getElem?_map, hst₀]
      rfl
    obtain ⟨st, hst, helems⟩ := Option.map_eq_some_iff.mp hstacks
    rcases Bool.eq_false_or_eq_true st.isFull with hfull | hfull
    · left
      refine ⟨.stackOutOfBounds, ?_⟩
      simp only [ParserOp.run, ParserOp.runExtractStack, hst, required, bind, Except.bind, hfull]
      simp
    · have hnext : ∃ h, st.getNext = some h := by
        have hlt : st.next < st.elements.length := by simpa [Stack.isFull] using hfull
        exact ⟨_, List.getElem?_eq_getElem hlt⟩
      obtain ⟨h, hh⟩ := hnext
      have htarget : (ParserOp.extractStack headerStack).target s.phv = some h := by
        rw [ParserOp.target, hst]
        exact hh
      obtain ⟨hdr, hhdr, hfix⟩ := hall h (helems ▸ List.mem_of_getElem? hh)
      have hrun : ParserOp.run ctx pkt s (.extractStack headerStack) =
          extractChecked ctx pkt s h >>= fun s' =>
            .ok { s' with phv := pushBackHeader s'.phv headerStack } := by
        simp only [ParserOp.run, ParserOp.runExtractStack, hst, hh, required, bind, Except.bind,
          hfull]
        simp
      rcases extractChecked_extracted hl hs₀ hu₀ he hhdr hfix with herr | ⟨s', hok, hstk, hex⟩
      · exact .inl ⟨_, by rw [hrun, herr]; rfl⟩
      · refine .inr ⟨h, _, htarget, by rw [hrun, hok]; rfl, fun hnt hun => ?_⟩
        exact pushBack_extracted hs₀ hu₀ (hex hnt hun) (by simp) (by rw [hstk, hst]; exact hh)
          fun g hg hne => hun g (by simpa [hne] using hg)
  | _ => exact hop.elim

/-! ## Runs -/

def Config.target (c : Config) : Option ℕ :=
  match c.control with
  | .ops _ (op :: _) => op.target c.phv
  | _ => none

/-- The states a parse state may go to. -/
def ParseState.nexts (st : ParseState) : List (Option ℕ) :=
  st.defaultNextState :: st.parserSwitch.map SwitchCase.next

namespace Parser

variable (ctx pkt) (p : Parser)

/-- A run, with the headers it has extracted. -/
inductive Trace (c₀ : Config) : List ℕ → Config → Prop
  | start : Trace c₀ [] c₀
  | step {t c c'} (hrun : Trace c₀ t c) (hstep : p.step ctx pkt c = .ok c') :
    Trace c₀ (t ++ c.target.toList) c'

/-- `Parser::parse` leaves its loop: there is no next state, or an op threw an
exception of the parser. -/
def Ended (c : Config) : Prop :=
  c.control = .done ∨ ∃ e, p.step ctx pkt c = .error (.core e)

/-- A key can be built, its cases can be tried, and the next state exists. -/
def GoesOn (c : Config) : Prop :=
  match c.control with
  | .ops _ (_ :: _) => True
  | _ => ∃ c', p.step ctx pkt c = .ok c'

/-- A parse state that does nothing but go to the next one. -/
def Passes (st st' : ParseState) : Prop :=
  st ∈ p.states ∧ st.parserOps = [] ∧ ∃ j, some j ∈ st.nexts ∧ p.states[j]? = some st'

end Parser

/-- Where a run is, is in the parser. -/
def Control.From (p : Parser) : Control → Prop
  | .ops st todo => st ∈ p.states ∧ todo ⊆ st.parserOps
  | .key st _ _ => st ∈ p.states
  | .done => True

variable {p : Parser} {c₀ c : Config}

theorem enter_from {next : Option ℕ} {ctl : Control} (h : p.enter next = .ok ctl) :
    (next = none ∧ ctl = .done) ∨
      ∃ j st, next = some j ∧ p.states[j]? = some st ∧ ctl = .ops st st.parserOps := by
  cases next with
  | none =>
    cases h
    exact .inl ⟨rfl, rfl⟩
  | some j =>
    obtain ⟨st, hst, h⟩ := bind_eq_ok h
    cases h
    refine .inr ⟨j, st, rfl, ?_, rfl⟩
    cases hj : p.states[j]? with
    | none => simp [hj, required] at hst
    | some st' =>
      rw [hj] at hst
      cases hst
      rfl

theorem from_of_enter {next : Option ℕ} {ctl : Control} (h : p.enter next = .ok ctl) :
    ctl.From p := by
  rcases enter_from h with ⟨-, rfl⟩ | ⟨j, st, -, hst, rfl⟩
  · trivial
  · exact ⟨List.mem_of_getElem? hst, List.Subset.refl _⟩

/-- **What a step does**: an op, or something that leaves the state alone. -/
theorem step_cases {c c' : Config} (h : p.step ctx pkt c = .ok c') :
    (∃ st op todo, c.control = .ops st (op :: todo) ∧ c'.control = .ops st todo ∧
      op.run ctx pkt c.toState = .ok c'.toState) ∨
    (c'.toState = c.toState ∧ c.target = none ∧ (c.control.From p → c'.control.From p)) := by
  unfold Parser.step at h
  unfold Config.target
  match hc : c.control with
  | .ops st (op :: todo) =>
    rw [hc] at h
    obtain ⟨s', hs', h⟩ := bind_eq_ok h
    cases h
    exact .inl ⟨st, op, todo, rfl, rfl, hs'⟩
  | .ops st [] =>
    rw [hc] at h
    cases hk : st.keyBuilder with
    | none =>
      simp only [hk] at h
      obtain ⟨ctl, hctl, h⟩ := bind_eq_ok h
      cases h
      exact .inr ⟨rfl, rfl, fun _ => from_of_enter hctl⟩
    | some entries =>
      simp only [hk] at h
      cases h
      exact .inr ⟨rfl, rfl, fun hfrom => hfrom.1⟩
  | .key st (e :: todo) key =>
    rw [hc] at h
    obtain ⟨key', -, h⟩ := bind_eq_ok h
    cases h
    exact .inr ⟨rfl, rfl, fun hfrom => hfrom⟩
  | .key st [] key =>
    rw [hc] at h
    obtain ⟨next, -, h⟩ := bind_eq_ok h
    obtain ⟨ctl, hctl, h⟩ := bind_eq_ok h
    cases h
    exact .inr ⟨rfl, rfl, fun _ => from_of_enter hctl⟩
  | .done =>
    rw [hc] at h
    cases h
    exact .inr ⟨rfl, rfl, fun _ => hc ▸ trivial⟩

/-- A walk through the members of a list that never comes back has an end. -/
theorem wellFounded_of_acyclic {α : Type*} {R : α → α → Prop} (h : ∀ a, ¬Relation.TransGen R a a)
    (l : List α) : WellFounded fun b a : {a // a ∈ l} => Relation.TransGen R a.1 b.1 := by
  have hfin : Finite {a // a ∈ l} := List.finite_toSet l
  have htrans : IsTrans {a // a ∈ l} fun b a => Relation.TransGen R a.1 b.1 :=
    ⟨fun _ _ _ h h' => h'.trans h⟩
  have hirrefl : Std.Irrefl fun b a : {a // a ∈ l} => Relation.TransGen R a.1 b.1 :=
    ⟨fun a => h a.1⟩
  exact Finite.wellFounded_of_trans_of_irrefl _

section Runs

variable (hfixed : ∀ st ∈ p.states, ∀ op ∈ st.parserOps, op.ExtractsFixed phv₀)
variable (hdistinct : ∀ t c, p.Trace ctx pkt c₀ t c →
  t.Nodup ∧ t.Pairwise fun g h => ¬SameUnion phv₀ g h)
variable (he₀ : c₀.toState.Extracted phv₀ pkt []) (hfrom₀ : c₀.control.From p)

include hl hs₀ hu₀ hfixed hdistinct he₀ hfrom₀ in
/-- **Along a run, the headers extracted hold what was parsed.** -/
theorem trace_extracted (hrun : p.Trace ctx pkt c₀ t c) :
    c.toState.Extracted phv₀ pkt t ∧ c.control.From p := by
  induction hrun with
  | start => exact ⟨he₀, hfrom₀⟩
  | @step t c c' hrun hstep ih =>
    obtain ⟨he, hfrom⟩ := ih
    have hnext := hdistinct _ _ (hrun.step hstep)
    rcases step_cases hstep with ⟨st, op, todo, hc, hc', hop⟩ | ⟨hs, htarget, hfrom'⟩
    · rw [hc] at hfrom
      have hmem : op ∈ st.parserOps := hfrom.2 (by simp)
      have htarget : c.target = op.target c.phv := by rw [Config.target, hc]
      rcases run_extracted ctx hl hs₀ hu₀ he (hfixed st hfrom.1 op hmem) with
        ⟨e, herr⟩ | ⟨h, s', hh, hok, hex⟩
      · rw [herr] at hop
        cases hop
      · rw [hok] at hop
        obtain rfl := Except.ok.inj hop
        rw [htarget, hh, Option.toList_some] at hnext ⊢
        rw [List.nodup_append, List.pairwise_append] at hnext
        refine ⟨hex (fun ht => hnext.1.2.2 h ht h (by simp) rfl)
          fun g hg => hnext.2.2.2 g hg h (by simp), ?_⟩
        rw [hc']
        exact ⟨hfrom.1, fun o ho => hfrom.2 (List.mem_cons_of_mem _ ho)⟩
    · rw [htarget, Option.toList_none, List.append_nil, hs]
      exact ⟨he, hfrom' hfrom⟩

/-! ### Every run ends -/

include hl hs₀ hu₀ hfixed hdistinct he₀ hfrom₀ in
/-- A run extracts each header once at most. -/
theorem trace_length_le (hrun : p.Trace ctx pkt c₀ t c) : t.length ≤ phv₀.headers.length := by
  obtain ⟨he, -⟩ := trace_extracted hl hs₀ hu₀ hfixed hdistinct he₀ hfrom₀ hrun
  obtain ⟨img, hold⟩ := he.holds
  have hlen : c.phv.headers.length = phv₀.headers.length := by
    simpa [Phv.sizes] using congrArg List.length he.sizes
  have hsub : t ⊆ List.range phv₀.headers.length := by
    intro h hh
    obtain ⟨hdr, hhdr, -⟩ := hold.images h hh
    obtain ⟨hlt, -⟩ := List.getElem?_eq_some_iff.mp hhdr
    rw [List.mem_range]
    omega
  have hcard := (hdistinct t c hrun).1.length_le_of_subset hsub
  rwa [List.length_range] at hcard

include hl hs₀ hu₀ hfixed hdistinct he₀ hfrom₀ in
/-- The ops of a state are run through, or one of them throws. -/
theorem ops_progress {st : ParseState} {todo : List ParserOp} (hrun : p.Trace ctx pkt c₀ t c)
    (hc : c.control = .ops st todo) :
    (∃ t' c', p.Trace ctx pkt c₀ t' c' ∧ p.Ended ctx pkt c') ∨
      ∃ t' c', p.Trace ctx pkt c₀ t' c' ∧ c'.control = .ops st [] ∧
        t'.length = t.length + todo.length := by
  induction todo generalizing t c with
  | nil => exact .inr ⟨t, c, hrun, hc, by simp⟩
  | cons op todo ih =>
    obtain ⟨he, hfrom⟩ := trace_extracted hl hs₀ hu₀ hfixed hdistinct he₀ hfrom₀ hrun
    rw [hc] at hfrom
    have htarget : c.target = op.target c.phv := by rw [Config.target, hc]
    rcases run_extracted ctx hl hs₀ hu₀ he (hfixed st hfrom.1 op (hfrom.2 (by simp))) with
      ⟨e, herr⟩ | ⟨h, s', hh, hok, -⟩
    · refine .inl ⟨t, c, hrun, .inr ⟨e, ?_⟩⟩
      rw [Parser.step, hc]
      simp only [herr, bind, Except.bind]
    · have hstep : p.step ctx pkt c = .ok ⟨s', .ops st todo⟩ := by
        rw [Parser.step, hc]
        simp only [hok, bind, Except.bind]
      have hrun' := hrun.step hstep
      rw [htarget, hh, Option.toList_some] at hrun'
      refine (ih hrun' rfl).imp_right fun ⟨t', c', ht', hc', hlen⟩ => ⟨t', c', ht', hc', ?_⟩
      simp only [List.length_append, List.length_cons, List.length_nil] at hlen ⊢
      omega

variable (hgoes : ∀ t c, p.Trace ctx pkt c₀ t c → p.GoesOn ctx pkt c)

include hgoes in
/-- A key is built. -/
theorem key_progress {st : ParseState} {todo : List KeyEntry} {key : ByteContainer}
    (hrun : p.Trace ctx pkt c₀ t c) (hc : c.control = .key st todo key) :
    ∃ c' key', p.Trace ctx pkt c₀ t c' ∧ c'.control = .key st [] key' := by
  induction todo generalizing c key with
  | nil => exact ⟨c, key, hrun, hc⟩
  | cons e todo ih =>
    have hgo := hgoes t c hrun
    rw [Parser.GoesOn, hc] at hgo
    obtain ⟨c', hstep⟩ := hgo
    have hrun' := hrun.step hstep
    have htarget : c.target = none := by rw [Config.target, hc]
    rw [htarget, Option.toList_none, List.append_nil] at hrun'
    rw [Parser.step, hc] at hstep
    obtain ⟨key', -, hstep⟩ := bind_eq_ok hstep
    cases hstep
    exact ih hrun' rfl

theorem findCase_mem {key : ByteContainer} {default next : Option ℕ} {cases : List SwitchCase}
    (h : findCase key default cases = .ok next) : next ∈ default :: cases.map SwitchCase.next := by
  induction cases with
  | nil =>
    cases h
    exact List.mem_singleton_self _
  | cons c cases ih =>
    obtain ⟨b, -, h⟩ := bind_eq_ok h
    split at h
    · cases h
      simp
    · rcases List.mem_cons.mp (ih h) with rfl | hmem
      · simp
      · simp [hmem]

include hgoes in
/-- After its ops, a state goes to one of its next states. -/
theorem next_progress {st : ParseState} (hrun : p.Trace ctx pkt c₀ t c)
    (hc : c.control = .ops st []) :
    ∃ c' next, p.Trace ctx pkt c₀ t c' ∧ next ∈ st.nexts ∧ p.enter next = .ok c'.control := by
  have hgo := hgoes t c hrun
  rw [Parser.GoesOn, hc] at hgo
  obtain ⟨c', hstep⟩ := hgo
  have hrun' := hrun.step hstep
  have htarget : c.target = none := by rw [Config.target, hc]
  rw [htarget, Option.toList_none, List.append_nil] at hrun'
  rw [Parser.step, hc] at hstep
  cases hk : st.keyBuilder with
  | none =>
    simp only [hk] at hstep
    obtain ⟨ctl, hctl, hstep⟩ := bind_eq_ok hstep
    cases hstep
    exact ⟨_, _, hrun', List.mem_cons_self, hctl⟩
  | some entries =>
    simp only [hk] at hstep
    cases hstep
    obtain ⟨c₁, key, hrun₁, hc₁⟩ := key_progress hgoes hrun' rfl
    have hgo₁ := hgoes t c₁ hrun₁
    rw [Parser.GoesOn, hc₁] at hgo₁
    obtain ⟨c₂, hstep₁⟩ := hgo₁
    have hrun₂ := hrun₁.step hstep₁
    have htarget₁ : c₁.target = none := by rw [Config.target, hc₁]
    rw [htarget₁, Option.toList_none, List.append_nil] at hrun₂
    rw [Parser.step, hc₁] at hstep₁
    obtain ⟨next, hnext, hstep₁⟩ := bind_eq_ok hstep₁
    obtain ⟨ctl, hctl, hstep₁⟩ := bind_eq_ok hstep₁
    cases hstep₁
    exact ⟨_, next, hrun₂, findCase_mem hnext, hctl⟩

variable (hacyclic : ∀ st, ¬Relation.TransGen p.Passes st st)

include hl hs₀ hu₀ hfixed hdistinct he₀ hfrom₀ hgoes hacyclic in
/-- **Every run ends**: a state extracts a header that was not extracted before,
or passes on to a state that cannot come back to it. -/
theorem state_ends (st : {st // st ∈ p.states}) (hrun : p.Trace ctx pkt c₀ t c)
    (hc : c.control = .ops st.1 st.1.parserOps) :
    ∃ t' c', p.Trace ctx pkt c₀ t' c' ∧ p.Ended ctx pkt c' := by
  induction hm : phv₀.headers.length - t.length using Nat.strong_induction_on
    generalizing st t c with
  | _ m ihm =>
    subst hm
    induction st using (wellFounded_of_acyclic hacyclic p.states).induction generalizing t c with
    | _ st ihst =>
      rcases ops_progress hl hs₀ hu₀ hfixed hdistinct he₀ hfrom₀ hrun hc with
        hend | ⟨t₁, c₁, hrun₁, hc₁, hlen⟩
      · exact hend
      obtain ⟨c₂, next, hrun₂, hmem, henter⟩ := next_progress hgoes hrun₁ hc₁
      rcases enter_from henter with ⟨-, hdone⟩ | ⟨j, st', rfl, hst', hc₂⟩
      · exact ⟨t₁, c₂, hrun₂, .inl hdone⟩
      have hle := trace_length_le hl hs₀ hu₀ hfixed hdistinct he₀ hfrom₀ hrun₁
      rcases Nat.eq_zero_or_pos st.1.parserOps.length with hzero | hpos
      · have hpass : p.Passes st.1 st' :=
          ⟨st.2, List.length_eq_zero_iff.mp hzero, j, hmem, hst'⟩
        have heq : t₁.length = t.length := by omega
        exact ihst ⟨st', List.mem_of_getElem? hst'⟩ (.single hpass) hrun₂ hc₂ (heq ▸ ihm)
      · exact ihm _ (by omega) ⟨st', List.mem_of_getElem? hst'⟩ hrun₂ hc₂ rfl

end Runs

/-! ## Deparsing -/

/-- The headers a deparser goes through: those of `t` hold their images, and
the others are not valid. -/
def Listed (phv : Phv) (t : List ℕ) (img : ℕ → ByteContainer) (headers : List ℕ) : Prop :=
  ∀ h ∈ headers, ∃ hdr, phv.headers[h]? = some hdr ∧ (hdr.isValid ↔ h ∈ t) ∧
    (h ∈ t → hdr.Image (img h))

theorem getHeadersSize_eq {headers : List ℕ} (hlist : Listed phv t img headers) :
    Deparser.getHeadersSize phv headers =
      .ok ((headers.filter (· ∈ t)).flatMap img).length := by
  induction headers with
  | nil => rfl
  | cons h headers ih =>
    obtain ⟨hdr, hhdr, hvalid, himg⟩ := hlist h (by simp)
    have hrest := ih fun g hg => hlist g (by simp [hg])
    rw [Deparser.getHeadersSize, hhdr, hrest]
    simp only [required, bind, Except.bind]
    by_cases ht : h ∈ t
    · rw [if_pos (hvalid.mpr ht), List.filter_cons_of_pos (by simpa using ht), List.flatMap_cons,
        List.length_append, (himg ht).1]
    · rw [if_neg fun hv => ht (hvalid.mp hv), List.filter_cons_of_neg (by simpa using ht)]

/-- **The deparser writes the images of the valid headers.** -/
theorem deparseHeaders_eq {headers : List ℕ} (hlist : Listed phv t img headers)
    {dst : ByteContainer} (hdst : ((headers.filter (· ∈ t)).flatMap img).length ≤ dst.length) :
    Deparser.deparseHeaders phv headers dst =
      .ok ((headers.filter (· ∈ t)).flatMap img ++
        dst.drop ((headers.filter (· ∈ t)).flatMap img).length) := by
  induction headers generalizing dst with
  | nil => rfl
  | cons h headers ih =>
    obtain ⟨hdr, hhdr, hvalid, himg⟩ := hlist h (by simp)
    rw [Deparser.deparseHeaders, hhdr]
    by_cases ht : h ∈ t
    · obtain ⟨hlen, hwrite⟩ := himg ht
      rw [List.filter_cons_of_pos (by simpa using ht), List.flatMap_cons, List.length_append] at hdst ⊢
      have htake : (img h ++ dst.drop hdr.nbytesPacket).take hdr.nbytesPacket = img h :=
        List.take_left' hlen
      have hdrop : (img h ++ dst.drop hdr.nbytesPacket).drop hdr.nbytesPacket =
          dst.drop hdr.nbytesPacket := List.drop_left' hlen
      have hrest := @ih (fun g hg => hlist g (by simp [hg])) (dst.drop hdr.nbytesPacket)
        (by rw [List.length_drop]; omega)
      simp only [required, bind, Except.bind, if_pos (hvalid.mpr ht), hwrite dst (by omega), hdrop,
        hrest, htake]
      rw [List.append_assoc, List.drop_drop, hlen]
    · rw [List.filter_cons_of_neg (by simpa using ht)] at hdst ⊢
      simp only [required, bind, Except.bind, if_neg fun hv => ht (hvalid.mp hv)]
      exact ih (fun g hg => hlist g (by simp [hg])) hdst

/-- **A packet that is parsed and deparsed comes out as it was.**

The parser only extracts headers of fixed width; on the way it takes, no header
is extracted twice and no two are in one union; and where it extracts nothing,
it does not go round in a circle. Then parsing ends, because there is no next
state or because the packet is too short or a stack full, and every deparser
that lists the headers extracted in their order writes the packet again. -/
theorem parse_deparse (ctx : Context) (p : Parser) (pkt : Packet) (phv : Phv)
    (registers : Registers) (hs : phv.Sized) (hu : phv.UnionsOk)
    (hinvalid : ∀ hdr ∈ phv.headers, hdr.metadata = false → hdr.valid = false)
    (hl : pkt.LengthOk) (hfixed : ∀ st ∈ p.states, ∀ op ∈ st.parserOps, op.ExtractsFixed phv)
    (hacyclic : ∀ st, ¬Relation.TransGen p.Passes st st) (c₀ : Config)
    (hstart : p.start phv registers = .ok c₀)
    (hgoes : ∀ t c, p.Trace ctx pkt c₀ t c → p.GoesOn ctx pkt c)
    (hdistinct : ∀ t c, p.Trace ctx pkt c₀ t c →
      t.Nodup ∧ t.Pairwise fun g h => ¬SameUnion phv g h) :
    ∃ t c, p.Trace ctx pkt c₀ t c ∧ p.Ended ctx pkt c ∧
      ∀ (d : Deparser) (room : ByteContainer), d.headers.filter (· ∈ t) = t →
        (∀ h ∈ d.headers, ∃ hdr, phv.headers[h]? = some hdr ∧ hdr.metadata = false) →
        d.updateChecksums c.phv (pkt.data.drop c.bytesParsed) = c.phv →
        (PacketBuffer.pop ⟨room, pkt.data⟩ c.bytesParsed >>= d.deparse c.phv) =
          .ok ⟨room, pkt.data⟩ := by
  obtain ⟨ctl, henter, hc₀⟩ := bind_eq_ok hstart
  cases hc₀
  have he₀ : State.Extracted phv pkt [] ⟨phv, registers, 0⟩ := by
    refine ⟨rfl, rfl, by simpa using hl.1, fun _ => [], ?_⟩
    exact ⟨by simp, fun h hdr hhdr _ => hinvalid hdr (List.mem_of_getElem? hhdr), rfl⟩
  have hfrom₀ : ctl.From p := from_of_enter henter
  have hend : ∃ t c, p.Trace ctx pkt ⟨⟨phv, registers, 0⟩, ctl⟩ t c ∧ p.Ended ctx pkt c := by
    rcases enter_from henter with ⟨-, hdone⟩ | ⟨j, st, -, hst, hctl⟩
    · exact ⟨[], _, .start, .inl hdone⟩
    · exact state_ends hl hs hu hfixed hdistinct he₀ hfrom₀ hgoes hacyclic
        ⟨st, List.mem_of_getElem? hst⟩ .start hctl
  obtain ⟨t, c, hrun, hended⟩ := hend
  refine ⟨t, c, hrun, hended, fun d room hd hpacket hsums => ?_⟩
  obtain ⟨he, -⟩ := trace_extracted hl hs hu hfixed hdistinct he₀ hfrom₀ hrun
  obtain ⟨img, hold⟩ := he.holds
  have hlist : Listed c.phv t img d.headers := by
    intro h hh
    obtain ⟨hdr₀, hhdr₀, hmeta⟩ := hpacket h hh
    obtain ⟨hdr, hhdr, hframe⟩ :=
      getElem?_of_map_eq (f := Header.frame) (congrArg Prod.fst he.frame) hhdr₀
    have hmeta' : hdr.metadata = false := (congrArg Prod.fst hframe).trans hmeta
    by_cases ht : h ∈ t
    · obtain ⟨hdr', hhdr', hvalid, himg⟩ := hold.images h ht
      rw [hhdr] at hhdr'
      cases hhdr'
      exact ⟨hdr, hhdr, by simp [Header.isValid, hvalid, ht], fun _ => himg⟩
    · have hvalid := hold.others h hdr hhdr ht hmeta'
      exact ⟨hdr, hhdr, by simp [Header.isValid, hvalid, hmeta', ht], fun h' => absurd h' ht⟩
  have hbytes : (d.headers.filter (· ∈ t)).flatMap img = pkt.data.take c.bytesParsed := by
    rw [hd, hold.bytes]
  have hle : c.bytesParsed ≤ pkt.data.length := by
    have h₁ := he.parsed
    have h₂ := hl.2
    omega
  have hlen : (pkt.data.take c.bytesParsed).length = c.bytesParsed := by
    rw [List.length_take]
    omega
  have hsize := getHeadersSize_eq hlist
  have hwrite := @deparseHeaders_eq _ _ _ _ hlist pkt.data (by rw [hbytes, hlen]; exact hle)
  rw [hbytes, hlen] at hsize hwrite
  have hroom : (room ++ pkt.data.take c.bytesParsed).length - c.bytesParsed = room.length := by
    rw [List.length_append, hlen, Nat.add_sub_cancel]
  have hfits : c.bytesParsed ≤ (room ++ pkt.data.take c.bytesParsed).length := by
    rw [List.length_append, hlen]
    omega
  -- The bytes that were taken off the front are put back, and written over.
  simp only [PacketBuffer.pop, if_pos hle, Deparser.deparse, hsums, hsize, PacketBuffer.push,
    if_pos hfits, hroom, List.take_left, List.drop_left, List.take_append_drop, hwrite, bind,
    Except.bind]

/-- A step leads to one configuration only, so that a run is at one of those
that the steps lead through. -/
theorem Parser.Trace.at {ctx : Context} {pkt : Packet} {p : Parser} {cfg : ℕ → Config}
    {taken : ℕ → List ℕ}
    (hstep : ∀ n, p.step ctx pkt (cfg n) = .ok (cfg (n + 1)))
    (htaken : ∀ n, taken (n + 1) = taken n ++ (cfg n).target.toList) (h0 : taken 0 = [])
    {t : List ℕ} {c : Config} (hrun : p.Trace ctx pkt (cfg 0) t c) :
    ∃ n, t = taken n ∧ c = cfg n := by
  induction hrun with
  | start => exact ⟨0, h0.symm, rfl⟩
  | step hrun hs ih =>
    obtain ⟨n, rfl, rfl⟩ := ih
    exact ⟨n + 1, (htaken n).symm, (Except.ok.inj ((hstep n).symm.trans hs)).symm⟩

/-! A parser that extracts a header of four and twelve bits, and then the tags
of three and five bits that follow, as long as the first bits of each are one. -/

def routeHeader : Header where
  headerType := 0
  fields := [Field.create 4 false, Field.create 12 false, Field.create 1 true]
  valid := false
  metadata := false
  nbytesPacket := 2
  unionMembership := none

def hopHeader : Header where
  headerType := 1
  fields := [Field.create 3 false, Field.create 5 false, Field.create 1 true]
  valid := false
  metadata := false
  nbytesPacket := 1
  unionMembership := none

def routeState : ParseState := ⟨[.extract 0], some [.field 0 0], [.exact [1] (some 1)], none⟩

def hopState : ParseState := ⟨[.extractStack 0], some [.stackField 0 0], [.exact [1] (some 1)], none⟩

def routeParser : Parser := ⟨[routeState, hopState], some 0⟩

/-- Two tags, and a byte behind them. -/
def routePacket : Packet := ⟨[0x12, 0x34, 0x3f, 0x07, 0xaa], 5⟩

/-- A header that was extracted. -/
def withFields (hdr : Header) (fields : List Field) : Header :=
  { hdr with valid := true, fields := fields ++ [(Field.create 1 true).put 1] }

/-- A field that was extracted. -/
def wireField (nbits : ℕ) (bytes : ByteContainer) : Field :=
  { Field.create nbits false with value := bytesVal bytes, bytes := bytes }

/-- The header vector with so many of the tags. -/
def routePhv (route : Header) (hops : List Header) : Phv :=
  ⟨route :: hops ++ List.replicate (2 - hops.length) hopHeader, [⟨[1, 2], hops.length⟩], [], []⟩

def routeParsed : Header := withFields routeHeader [wireField 4 [1], wireField 12 [0x02, 0x34]]

def hopParsed (first second : UInt8) : Header :=
  withFields hopHeader [wireField 3 [first], wireField 5 [second]]

/-- The header vector at the end. -/
def routeEnd : Phv := routePhv routeParsed [hopParsed 1 31, hopParsed 0 7]

/-- The run. -/
def routeRun : ℕ → Config
  | 0 => tagConfig (routePhv routeHeader []) 0 (.ops routeState [.extract 0])
  | 1 => tagConfig (routePhv routeParsed []) 2 (.ops routeState [])
  | 2 => tagConfig (routePhv routeParsed []) 2 (.key routeState [.field 0 0] [])
  | 3 => tagConfig (routePhv routeParsed []) 2 (.key routeState [] [1])
  | 4 => tagConfig (routePhv routeParsed []) 2 (.ops hopState [.extractStack 0])
  | 5 => tagConfig (routePhv routeParsed [hopParsed 1 31]) 3 (.ops hopState [])
  | 6 => tagConfig (routePhv routeParsed [hopParsed 1 31]) 3 (.key hopState [.stackField 0 0] [])
  | 7 => tagConfig (routePhv routeParsed [hopParsed 1 31]) 3 (.key hopState [] [1])
  | 8 => tagConfig (routePhv routeParsed [hopParsed 1 31]) 3 (.ops hopState [.extractStack 0])
  | 9 => tagConfig routeEnd 4 (.ops hopState [])
  | 10 => tagConfig routeEnd 4 (.key hopState [.stackField 0 0] [])
  | 11 => tagConfig routeEnd 4 (.key hopState [] [0])
  | _ => tagConfig routeEnd 4 .done

theorem routeRun_step :
    ∀ n, routeParser.step tagContext routePacket (routeRun n) = .ok (routeRun (n + 1))
  | 0 | 1 | 2 | 3 | 4 | 5 | 6 | 7 | 8 | 9 | 10 | 11 => rfl
  | _ + 12 => rfl

/-- What it has extracted by then. -/
def routeTaken : ℕ → List ℕ
  | 0 => []
  | 1 | 2 | 3 | 4 => [0]
  | 5 | 6 | 7 | 8 => [0, 1]
  | _ => [0, 1, 2]

theorem routeTaken_succ : ∀ n, routeTaken (n + 1) = routeTaken n ++ (routeRun n).target.toList
  | 0 | 1 | 2 | 3 | 4 | 5 | 6 | 7 | 8 | 9 | 10 | 11 => rfl
  | _ + 12 => rfl

theorem routePhv_sized : (routePhv routeHeader []).Sized := by
  intro h hh
  have hcases : h = routeHeader ∨ h = hopHeader := by simpa [routePhv] using hh
  rcases hcases with rfl | rfl
  · exact ⟨rfl, by decide, by decide, by decide, fun f hf => by cases hf; rfl⟩
  · exact ⟨rfl, by decide, by decide, by decide, fun f hf => by cases hf; rfl⟩

theorem routeRun_control_ne_done : ∀ n < 12, (routeRun n).control ≠ .done := by
  intro n hn hdone
  interval_cases n <;> cases hdone

theorem routeParser_extractsFixed :
    ∀ st ∈ routeParser.states, ∀ op ∈ st.parserOps, op.ExtractsFixed (routePhv routeHeader []) := by
  have hroute : FixedHeader routeHeader :=
    ⟨by decide, by simp [Header.wireWidths, EmptyAligned, routeHeader, Field.create]⟩
  have hhop : FixedHeader hopHeader :=
    ⟨by decide, by simp [Header.wireWidths, EmptyAligned, hopHeader, Field.create]⟩
  intro st hst op hop
  have hcases : st = routeState ∨ st = hopState := by simpa [routeParser] using hst
  rcases hcases with rfl | rfl
  · obtain rfl := List.mem_singleton.mp hop
    exact ⟨_, rfl, hroute⟩
  · obtain rfl := List.mem_singleton.mp hop
    refine ⟨_, rfl, fun h hh => ⟨hopHeader, ?_, hhop⟩⟩
    have hcases : h = 1 ∨ h = 2 := by simpa using hh
    rcases hcases with rfl | rfl <;> rfl

/-- No state is passed without an extraction, so that none comes back to itself. -/
theorem routeParser_acyclic : ∀ st, ¬Relation.TransGen routeParser.Passes st st := by
  intro st h
  obtain ⟨st', hpass, -⟩ := Relation.TransGen.head'_iff.mp h
  have hcases : st = routeState ∨ st = hopState := by simpa [routeParser] using hpass.1
  rcases hcases with rfl | rfl <;> exact absurd hpass.2.1 (by simp [routeState, hopState])

/-- The route and its two hops are parsed and put back as they stood in the packet. -/
theorem parse_deparse_route :
    (PacketBuffer.pop ⟨[], routePacket.data⟩ 4 >>=
        Deparser.deparse ⟨[0, 1, 2], []⟩ routeEnd) =
      .ok ⟨[], routePacket.data⟩ := by
  have hat : ∀ t c, routeParser.Trace tagContext routePacket (routeRun 0) t c →
      ∃ n, t = routeTaken n ∧ c = routeRun n := fun t c hrun =>
    Parser.Trace.at routeRun_step routeTaken_succ rfl hrun
  obtain ⟨t, c, hrun, hended, hall⟩ := parse_deparse tagContext routeParser routePacket
    (routePhv routeHeader []) (fun _ _ => none) routePhv_sized
    (fun _ _ _ _ h => by simp [routePhv] at h)
    (fun hdr hhdr _ => by
      have hcases : hdr = routeHeader ∨ hdr = hopHeader := by simpa [routePhv] using hhdr
      rcases hcases with rfl | rfl <;> rfl)
    (by unfold Packet.LengthOk; decide) routeParser_extractsFixed routeParser_acyclic
    (routeRun 0) rfl
    (fun t c hrun => by
      obtain ⟨n, -, rfl⟩ := hat t c hrun
      unfold Parser.GoesOn
      split
      · trivial
      · exact ⟨_, routeRun_step n⟩)
    (fun t c hrun => by
      obtain ⟨n, rfl, -⟩ := hat t c hrun
      unfold routeTaken
      split <;> simp [SameUnion, Phv.unionOf, routePhv, routeHeader, hopHeader])
  obtain ⟨n, rfl, rfl⟩ := hat t c hrun
  -- A step is possible from each configuration, so that the run is at its end.
  have hdone : (routeRun n).control = .done := by
    rcases hended with hdone | ⟨e, herr⟩
    · exact hdone
    · rw [routeRun_step n] at herr
      cases herr
  obtain ⟨k, rfl⟩ : ∃ k, n = k + 12 :=
    Nat.exists_eq_add_of_le'
      (Nat.le_of_not_lt fun hlt => routeRun_control_ne_done n hlt hdone)
  refine hall ⟨[0, 1, 2], []⟩ [] rfl (fun h hh => ?_) rfl
  have hcases : h = 0 ∨ h = 1 ∨ h = 2 := by simpa using hh
  rcases hcases with rfl | rfl | rfl
  · exact ⟨routeHeader, rfl, rfl⟩
  · exact ⟨hopHeader, rfl, rfl⟩
  · exact ⟨hopHeader, rfl, rfl⟩

/-! A parser that extracts the two members of a union. -/

def memberHeader (idx : ℕ) : Header := { tagHeader with unionMembership := some (0, idx) }

def memberPhv : Phv := ⟨[memberHeader 0, memberHeader 1], [], [⟨[0, 1], false, 0⟩], []⟩

def memberState : ParseState := ⟨[.extract 0, .extract 1], none, [], none⟩

def memberParser : Parser := ⟨[memberState], some 0⟩

/-- A member, as it is after `byte` was extracted to it. -/
def memberHolding (idx : ℕ) (byte : UInt8) (valid : Bool) : Header :=
  { memberHeader idx with
    valid := valid
    fields := [{ Field.create 8 false with value := byte.toNat, bytes := [byte] },
      (Field.create 1 true).put (if valid then 1 else 0)] }

theorem memberParser_trace :
    memberParser.Trace tagContext ⟨[1, 2], 2⟩
      (tagConfig memberPhv 0 (.ops memberState [.extract 0, .extract 1])) [0, 1]
      (tagConfig ⟨[memberHolding 0 1 false, memberHolding 1 2 true], [], [⟨[0, 1], true, 1⟩], []⟩ 2
        .done) := by
  have h₁ : memberParser.Trace tagContext ⟨[1, 2], 2⟩
      (tagConfig memberPhv 0 (.ops memberState [.extract 0, .extract 1])) [0]
      (tagConfig ⟨[memberHolding 0 1 true, memberHeader 1], [], [⟨[0, 1], true, 0⟩], []⟩ 1
        (.ops memberState [.extract 1])) := .step .start rfl
  have h₂ : memberParser.Trace tagContext ⟨[1, 2], 2⟩
      (tagConfig memberPhv 0 (.ops memberState [.extract 0, .extract 1])) [0, 1]
      (tagConfig ⟨[memberHolding 0 1 false, memberHolding 1 2 true], [], [⟨[0, 1], true, 1⟩], []⟩ 2
        (.ops memberState [])) := .step h₁ rfl
  exact .step h₂ rfl

/-- **The first of two members of a union is lost**: the parser extracts both,
the deparser lists both in their order, and only the second is written. -/
theorem union_member_not_restored :
    ∃ c₀ c, memberParser.start memberPhv (fun _ _ => none) = .ok c₀ ∧
      memberParser.Trace tagContext ⟨[1, 2], 2⟩ c₀ [0, 1] c ∧ c.control = .done ∧
      c.bytesParsed = 2 ∧
      (PacketBuffer.pop ⟨[], [1, 2]⟩ c.bytesParsed >>= Deparser.deparse ⟨[0, 1], []⟩ c.phv) =
        .ok ⟨[1], [2]⟩ :=
  ⟨_, _, rfl, memberParser_trace, rfl, rfl, rfl⟩

end Parsing

end P4Bricks
