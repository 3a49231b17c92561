import P4Bricks.Linker.UidLinks
import P4Bricks.Parser.Model
/-!
# Header types in the linker

`link_headers.cpp`. The linker knows a header type by a text, its uid: a number
and a dash for every field. The number is the width of the field, but for a field
of variable length it is the greatest length of the header, in bytes. The text
does not say which of the two it is, nor which fields are signed or saturating, nor
how the length is computed.
-/

namespace P4Bricks

namespace Linker

/-- `HeaderType::FInfo`. -/
structure FInfo where
  name : String
  bitwidth : ℤ
  isSigned : Bool
  isSaturating : Bool
  isVL : Bool
  isHidden : Bool
  deriving DecidableEq, Repr

/-- `HeaderType`. `vlExprRaw` is the expression for the length of the field of
variable length, in which the fields of the header are locals. -/
structure HeaderType where
  name : String
  id : ℤ
  fieldsInfo : List FInfo
  vlExprRaw : Option Expressions.Expression
  vlOffset : ℤ
  vlMaxHeaderBytes : ℤ
  deriving DecidableEq, Repr

namespace HeaderType

/-- The field that every type ends with. -/
def hidden : FInfo := ⟨"$valid$", 1, false, false, false, true⟩

/-- `HeaderType::HeaderType`. -/
def new (name : String) (id : ℤ) : HeaderType := ⟨name, id, [hidden], none, -1, 0⟩

/-- `HeaderType::is_VL_header`. -/
def isVLHeader (t : HeaderType) : Bool := 0 ≤ t.vlOffset

/-- `HeaderType::push_back_field`: before the hidden field. -/
def pushBackField (t : HeaderType) (fieldName : String) (fieldBitWidth : ℤ)
    (isSigned isSaturating isVL : Bool) : HeaderType :=
  { t with
    fieldsInfo := t.fieldsInfo.dropLast ++
      [⟨fieldName, fieldBitWidth, isSigned, isSaturating, isVL, false⟩, hidden] }

/-- `HeaderType::push_back_VL_field`, `none` when its assertion fails. -/
def pushBackVLField (t : HeaderType) (fieldName : String) (maxHeaderBytes : ℤ)
    (fieldLengthExpr : Option Expressions.Expression) (isSigned isSaturating : Bool) :
    Option HeaderType :=
  if t.isVLHeader then
    none
  else
    some { t.pushBackField fieldName 0 isSigned isSaturating true with
      vlExprRaw := fieldLengthExpr
      vlOffset := t.fieldsInfo.length - 1
      vlMaxHeaderBytes := maxHeaderBytes }

/-- The types that `P4Objects::init_header_types` makes. -/
inductive Built : HeaderType → Prop where
  | new (name : String) (id : ℤ) : Built (new name id)
  | field {t : HeaderType} (h : Built t) (fieldName : String) (fieldBitWidth : ℤ)
      (isSigned isSaturating : Bool) :
      Built (t.pushBackField fieldName fieldBitWidth isSigned isSaturating false)
  | vlField {t t' : HeaderType} (h : Built t) {fieldName : String} {maxHeaderBytes : ℤ}
      {fieldLengthExpr : Option Expressions.Expression} {isSigned isSaturating : Bool}
      (ht' : t.pushBackVLField fieldName maxHeaderBytes fieldLengthExpr isSigned isSaturating =
        some t') : Built t'

/-- `HeaderType::resolve_VL_expr` and `VLHeaderExpression::resolve`: in a header of
this id the locals are its fields. -/
def resolveVLExpr (t : HeaderType) (headerId : ℕ) : Option Expressions.Expression :=
  if t.isVLHeader then
    t.vlExprRaw.map fun e =>
      { e with
        ops := e.ops.map fun
          | .loadLocal offset => .loadField headerId offset
          | op => op }
  else
    none

/-- A field of a new header, as `Header::Header` makes it of its entry. -/
def newField (finfo : FInfo) (arithFlag : Bool) : Field :=
  { Field.create finfo.bitwidth.toNat finfo.isHidden with
    arith := arithFlag
    isSigned := finfo.isSigned
    isSaturating := finfo.isSaturating
    vlMask := if finfo.isVL then some 0 else none }

/-- The fields of a new header, those at the given offsets with arithmetic. -/
def newFields (t : HeaderType) (arithOffsets : ℕ → Bool) : List Field :=
  t.fieldsInfo.mapIdx fun i finfo => newField finfo (arithOffsets i)

/-- `Header::Header`, `none` when its assertion fails. -/
def newHeader (t : HeaderType) (typeId : ℕ) (arithOffsets : ℕ → Bool) (metadata : Bool) :
    Option Header :=
  let fields := t.newFields arithOffsets
  let nbits := ((fields.filter fun f => !f.hidden).map Field.nbits).sum
  if nbits % 8 = 0 then
    some ⟨typeId, fields, false, metadata, nbits / 8, none⟩
  else
    none

/-- The number that a field has in the uid. -/
def number (t : HeaderType) (finfo : FInfo) : ℤ :=
  if finfo.isVL then t.vlMaxHeaderBytes else finfo.bitwidth

/-- `HeaderTypeUIDTable::get_header_type_uid_from_field_seq`. -/
def uidFromFieldSeq (t : HeaderType) : String :=
  t.fieldsInfo.foldl (fun uidName finfo => uidName ++ ((t.number finfo).repr ++ "-")) ""

/-- The numbers of the fields. -/
def numbers (t : HeaderType) : List ℤ := t.fieldsInfo.map t.number

/-- Both types have fields of the same widths, signed alike, hidden alike, and
variable-length ones in the same places, with the same maximum. -/
def SameFields (t t' : HeaderType) : Prop :=
  t.fieldsInfo.map (fun f => (f.bitwidth, f.isSigned, f.isVL, f.isHidden)) =
    t'.fieldsInfo.map (fun f => (f.bitwidth, f.isSigned, f.isVL, f.isHidden)) ∧
  t.vlMaxHeaderBytes = t'.vlMaxHeaderBytes

/-- Headers of both types, wherever they are, compute the same length for their field
of variable length. -/
def SameLengths (t t' : HeaderType) : Prop :=
  ∀ (ctx : Parsing.Context) (phv : Phv) (registers : Parsing.Registers) (headerId : ℕ)
    (fields : List Field),
    Parsing.vlLength { ctx with vlExpr := t.resolveVLExpr } phv registers headerId fields =
      Parsing.vlLength { ctx with vlExpr := t'.resolveVLExpr } phv registers headerId fields

/-- The same fields are signed, the same ones saturating and the same ones of variable
length, and the lengths are computed alike. -/
structure SameKinds (t t' : HeaderType) : Prop where
  kinds : t.fieldsInfo.map (fun f => (f.isSigned, f.isSaturating, f.isVL)) =
    t'.fieldsInfo.map (fun f => (f.isSigned, f.isSaturating, f.isVL))
  lengths : t.SameLengths t'

/-- A header of one of the types does for one of the other: new headers have the same
fields, whichever of these have arithmetic, and compute the same lengths. -/
structure Interchangeable (t t' : HeaderType) : Prop where
  fields : ∀ arithOffsets, t.newFields arithOffsets = t'.newFields arithOffsets
  lengths : t.SameLengths t'

instance (t t' : HeaderType) : Decidable (t.SameFields t') :=
  inferInstanceAs (Decidable (_ ∧ _))

end HeaderType

/-- An `unordered_map` whose keys are names. -/
abbrev NameMap (α : Type) := AList fun _ : String => α

/-- `HeaderTypeUIDTable`. -/
structure HeaderTypeUidTable where
  linkTable : UidTable String
  linkerHeaderTypes : NameMap HeaderType
  headerTypeId : ℤ

namespace HeaderTypeUidTable

def empty : HeaderTypeUidTable := ⟨.empty, ∅, 0⟩

/-- `HeaderTypeUIDTable::dc_header_type`. -/
def dcHeaderType (name : String) (id : ℤ) (obj : HeaderType) : HeaderType :=
  { HeaderType.new name id with
    fieldsInfo := obj.fieldsInfo
    vlOffset := obj.vlOffset
    vlMaxHeaderBytes := obj.vlMaxHeaderBytes }

/-- What `init_type_mapping` does with one type. -/
def mapType (p4Name : String) (table : HeaderTypeUidTable) (typ : String × HeaderType) :
    HeaderTypeUidTable :=
  let uid := typ.2.uidFromFieldSeq
  match table.linkTable.insertP4objectsLink p4Name typ.1 uid .headerTypeDefMatch with
  | (.success, linkTable) =>
    { linkTable := linkTable
      linkerHeaderTypes :=
        table.linkerHeaderTypes.insert uid (dcHeaderType uid table.headerTypeId typ.2)
      headerTypeId := table.headerTypeId + 1 }
  | (_, linkTable) => { table with linkTable := linkTable }

/-- `HeaderTypeUIDTable::init_type_mapping`, over the types of the map in the order
in which it has them. -/
def initTypeMapping (table : HeaderTypeUidTable) (p4Name : String)
    (headerTypes : List (String × HeaderType)) : HeaderTypeUidTable :=
  headerTypes.foldl (mapType p4Name) table

/-- `HeaderTypeUIDTable::get_linker_header_type`: the uid that a type of a program
was given. -/
def getLinkerHeaderType (table : HeaderTypeUidTable) (p4Name headerTypeName : String) :
    Option String :=
  match table.linkTable.getP4objectLink p4Name headerTypeName with
  | .ok out => some out.value
  | .error _ => none

end HeaderTypeUidTable

/-! ## The text of a type -/

namespace HeaderType

variable {t t' : HeaderType}

theorem toList_foldl_append {α : Type*} (f : α → String) (l : List α) (acc : String) :
    (l.foldl (fun s x => s ++ f x) acc).toList = acc.toList ++ l.flatMap fun x => (f x).toList := by
  induction l generalizing acc with
  | nil => simp
  | cons x l ih => rw [List.foldl_cons, ih, String.toList_append, List.append_assoc, List.flatMap_cons]

/-- **The uid** is the numbers of the fields. -/
theorem uidFromFieldSeq_eq_iff : t.uidFromFieldSeq = t'.uidFromFieldSeq ↔ t.numbers = t'.numbers := by
  have htext : ∀ t : HeaderType, t.uidFromFieldSeq.toList =
      t.numbers.flatMap fun a => a.repr.toList ++ ['-'] := by
    intro t
    have hdash : "-".toList = ['-'] := rfl
    rw [uidFromFieldSeq, toList_foldl_append, numbers, List.flatMap_map]
    simp only [String.toList_append, hdash]
    rfl
  constructor
  · intro h
    refine dashed_inj ?_
    rw [← htext, ← htext, h]
  · intro h
    rw [← String.toList_inj, htext, htext, h]

/-- What the constructors of a type see to. -/
structure WellFormed (t : HeaderType) : Prop where
  fields : ∃ fs : List FInfo, t.fieldsInfo = fs ++ [hidden] ∧ ∀ f ∈ fs, f.isHidden = false
  vlWidth : ∀ f ∈ t.fieldsInfo, f.isVL = true → f.bitwidth = 0
  vlMax : (∀ f ∈ t.fieldsInfo, f.isVL = false) → t.vlMaxHeaderBytes = 0

/-- A field put before the hidden one. -/
theorem WellFormed.fieldsInfo_pushBackField (h : t.WellFormed) (fieldName : String) (w : ℤ)
    (isSigned isSaturating isVL : Bool) :
    ∃ fs : List FInfo, t.fieldsInfo = fs ++ [hidden] ∧ (∀ f ∈ fs, f.isHidden = false) ∧
      (t.pushBackField fieldName w isSigned isSaturating isVL).fieldsInfo =
        fs ++ [⟨fieldName, w, isSigned, isSaturating, isVL, false⟩, hidden] := by
  obtain ⟨fs, hfs, hhidden⟩ := h.fields
  refine ⟨fs, hfs, hhidden, ?_⟩
  rw [pushBackField, hfs, List.dropLast_concat]

theorem Built.wellFormed (h : Built t) : t.WellFormed := by
  induction h with
  | new name id =>
    exact ⟨⟨[], rfl, by simp⟩, by simp [HeaderType.new, hidden], fun _ => rfl⟩
  -- The hidden fields stay last: a field is put before them.
  | @field t h fieldName w isSigned isSaturating ih =>
    obtain ⟨fs, hfs, hhidden, hnew⟩ := ih.fieldsInfo_pushBackField fieldName w isSigned
      isSaturating false
    have hwidth := ih.vlWidth
    have hmax := ih.vlMax
    rw [hfs] at hwidth hmax
    refine ⟨⟨fs ++ [⟨fieldName, w, isSigned, isSaturating, false, false⟩], by simp [hnew], ?_⟩, ?_, ?_⟩
    · intro f hf
      rcases List.mem_append.mp hf with hf | hf
      · exact hhidden f hf
      · obtain rfl := List.mem_singleton.mp hf
        rfl
    · intro f hf hvl
      rw [hnew] at hf
      simp only [List.mem_append, List.mem_cons, List.not_mem_nil, or_false] at hf
      rcases hf with hf | rfl | rfl
      · exact hwidth f (List.mem_append_left _ hf) hvl
      · cases hvl
      · cases hvl
    · intro hnone
      rw [hnew] at hnone
      refine hmax fun f hf => hnone f ?_
      simp only [List.mem_append, List.mem_cons, List.not_mem_nil, or_false] at hf ⊢
      rcases hf with hf | rfl
      · exact .inl hf
      · exact .inr (.inr rfl)
  -- At most one field has a variable length, since the second one is refused.
  | @vlField t t' h fieldName max expr isSigned isSaturating ht' ih =>
    obtain ⟨fs, hfs, hhidden, hnew⟩ := ih.fieldsInfo_pushBackField fieldName 0 isSigned
      isSaturating true
    have hwidth := ih.vlWidth
    rw [hfs] at hwidth
    rw [pushBackVLField] at ht'
    split_ifs at ht'
    obtain rfl := Option.some.inj ht'
    refine ⟨⟨fs ++ [⟨fieldName, 0, isSigned, isSaturating, true, false⟩], by simp [hnew], ?_⟩, ?_, ?_⟩
    · intro f hf
      rcases List.mem_append.mp hf with hf | hf
      · exact hhidden f hf
      · obtain rfl := List.mem_singleton.mp hf
        rfl
    · intro f hf hvl
      dsimp only at hf
      rw [hnew] at hf
      simp only [List.mem_append, List.mem_cons, List.not_mem_nil, or_false] at hf
      rcases hf with hf | rfl | rfl
      · exact hwidth f (List.mem_append_left _ hf) hvl
      · rfl
      · cases hvl
    · intro hnone
      dsimp only at hnone
      rw [hnew] at hnone
      exact absurd (hnone _ (List.mem_append_right _ List.mem_cons_self)) (by simp)

/-- Only the last field is hidden. -/
theorem WellFormed.isHidden_eq (h : t.WellFormed) (h' : t'.WellFormed)
    (hlen : t.fieldsInfo.length = t'.fieldsInfo.length) :
    t.fieldsInfo.map FInfo.isHidden = t'.fieldsInfo.map FInfo.isHidden := by
  have hmap : ∀ t : HeaderType, t.WellFormed → t.fieldsInfo.map FInfo.isHidden =
      List.replicate (t.fieldsInfo.length - 1) false ++ [true] := by
    intro t ht
    obtain ⟨fs, hfs, hhidden⟩ := ht.fields
    have hfalse : fs.map FInfo.isHidden = List.replicate fs.length false :=
      List.eq_replicate_iff.mpr ⟨List.length_map .., by simpa using hhidden⟩
    rw [hfs, List.map_append, hfalse]
    simp [hidden]
  rw [hmap t h, hmap t' h', hlen]

/-- Types with the same numbers, and the same fields signed and of variable length,
have the same fields. -/
theorem sameFields_iff (h : t.WellFormed) (h' : t'.WellFormed) :
    t.SameFields t' ↔ t.numbers = t'.numbers ∧
      t.fieldsInfo.map (fun f => (f.isSigned, f.isVL)) =
        t'.fieldsInfo.map (fun f => (f.isSigned, f.isVL)) := by
  constructor
  · rintro ⟨hfields, hmax⟩
    have hnum : ∀ t : HeaderType, t.numbers =
        (t.fieldsInfo.map fun f => (f.bitwidth, f.isSigned, f.isVL, f.isHidden)).map
          fun x => if x.2.2.1 then t.vlMaxHeaderBytes else x.1 := by
      intro t
      rw [List.map_map]
      rfl
    refine ⟨by rw [hnum, hnum, hfields, hmax], ?_⟩
    have hkinds := congrArg (List.map fun x => (x.2.1, x.2.2.1)) hfields
    rw [List.map_map, List.map_map] at hkinds
    exact hkinds
  · rintro ⟨hnum, hkinds⟩
    have hlen : t.fieldsInfo.length = t'.fieldsInfo.length := by
      simpa [numbers] using congrArg List.length hnum
    have hhidden := h.isHidden_eq h' hlen
    -- The fields in one place, of which the lists say the same.
    have hplace : ∀ (i : ℕ) (f f' : FInfo), t.fieldsInfo[i]? = some f →
        t'.fieldsInfo[i]? = some f' → t.number f = t'.number f' ∧ f.isSigned = f'.isSigned ∧
          f.isVL = f'.isVL ∧ f.isHidden = f'.isHidden := by
      intro i f f' hf hf'
      have hnum := congrArg (·[i]?) hnum
      have hkinds := congrArg (·[i]?) hkinds
      have hhidden := congrArg (·[i]?) hhidden
      simp only [numbers, List.getElem?_map, hf, hf', Option.map_some, Option.some.injEq,
        Prod.mk.injEq] at hnum hkinds hhidden
      exact ⟨hnum, hkinds.1, hkinds.2, hhidden⟩
    refine ⟨List.ext_getElem? fun i => ?_, ?_⟩
    · rw [List.getElem?_map, List.getElem?_map]
      rcases hf : t.fieldsInfo[i]? with - | f
      · rw [List.getElem?_eq_none_iff, hlen, ← List.getElem?_eq_none_iff] at hf
        rw [hf]
      · obtain ⟨f', hf'⟩ : ∃ f', t'.fieldsInfo[i]? = some f' := by
          obtain ⟨hi, -⟩ := List.getElem?_eq_some_iff.mp hf
          exact ⟨_, List.getElem?_eq_getElem (hlen ▸ hi)⟩
        obtain ⟨hnumber, hsigned, hvl, hhid⟩ := hplace i f f' hf hf'
        have hwidth : f.bitwidth = f'.bitwidth := by
          rcases Bool.eq_false_or_eq_true f.isVL with hv | hv
          · rw [h.vlWidth f (List.mem_of_getElem? hf) hv,
              h'.vlWidth f' (List.mem_of_getElem? hf') (hvl ▸ hv)]
          · rwa [number, number, ← hvl, hv] at hnumber
        rw [hf', Option.map_some, Option.map_some, hwidth, hsigned, hvl, hhid]
    · by_cases hall : ∀ f ∈ t.fieldsInfo, f.isVL = false
      · -- Without a field of variable length neither type has a maximum.
        rw [h.vlMax hall, h'.vlMax]
        intro f' hf'
        obtain ⟨i, hi⟩ := List.mem_iff_getElem?.mp hf'
        obtain ⟨hlt, -⟩ := List.getElem?_eq_some_iff.mp hi
        obtain ⟨-, -, hvl, -⟩ := hplace i _ f' (List.getElem?_eq_getElem (hlen ▸ hlt)) hi
        rw [← hvl]
        exact hall _ (List.getElem_mem _)
      · simp only [not_forall, Bool.not_eq_false] at hall
        obtain ⟨f, hf, hv⟩ := hall
        obtain ⟨i, hi⟩ := List.mem_iff_getElem?.mp hf
        obtain ⟨hlt, -⟩ := List.getElem?_eq_some_iff.mp hi
        obtain ⟨hnumber, -, hvl, -⟩ := hplace i f _ hi (List.getElem?_eq_getElem (hlen ▸ hlt))
        rwa [number, number, ← hvl, hv] at hnumber

/-- What the kinds of the fields say of signs and variable lengths alone. -/
theorem SameKinds.signedVL (h : t.SameKinds t') :
    t.fieldsInfo.map (fun f => (f.isSigned, f.isVL)) =
      t'.fieldsInfo.map (fun f => (f.isSigned, f.isVL)) := by
  have hkinds := congrArg (List.map fun x => (x.1, x.2.2)) h.kinds
  rw [List.map_map, List.map_map] at hkinds
  exact hkinds

/-- Types with one length expression, and variable-length fields both or neither. -/
theorem SameLengths.of_vlExprRaw (hexpr : t.vlExprRaw = t'.vlExprRaw)
    (hvl : t.isVLHeader = t'.isVLHeader) : t.SameLengths t' := by
  have hresolve : t.resolveVLExpr = t'.resolveVLExpr := by
    funext headerId
    rw [resolveVLExpr, resolveVLExpr, hexpr, hvl]
  intro ctx phv registers headerId fields
  rw [hresolve]

namespace Interchangeable

/-- Whatever is made of the types, the headers are the same. -/
theorem newHeader_eq (h : t.Interchangeable t') (typeId : ℕ) (arithOffsets : ℕ → Bool)
    (metadata : Bool) :
    t.newHeader typeId arithOffsets metadata = t'.newHeader typeId arithOffsets metadata := by
  rw [newHeader, newHeader, h.fields arithOffsets]

/-- **Headers are extracted identically**, from any bytes and with any fields before. -/
theorem extractFieldsOf_eq (h : t.Interchangeable t') (ctx : Parsing.Context) (phv : Phv)
    (registers : Parsing.Registers) (headerId : ℕ) (hdr : Header) (data : ByteContainer) :
    Parsing.extractFieldsOf { ctx with vlExpr := t.resolveVLExpr } phv registers headerId hdr data =
      Parsing.extractFieldsOf { ctx with vlExpr := t'.resolveVLExpr } phv registers headerId hdr
        data := by
  have hlength := funext fun fields => h.lengths ctx phv registers headerId fields
  rw [Parsing.extractFieldsOf, Parsing.extractFieldsOf, hlength]

/-- The fields of a new header say which of them saturate. -/
theorem isSaturating_eq (h : t.Interchangeable t') :
    t.fieldsInfo.map FInfo.isSaturating = t'.fieldsInfo.map FInfo.isSaturating := by
  have hmap : ∀ t : HeaderType, (t.newFields fun _ => true).map Field.isSaturating =
      t.fieldsInfo.map FInfo.isSaturating := by
    intro t
    refine List.ext_getElem? fun i => ?_
    rw [newFields, List.getElem?_map, List.getElem?_map, List.getElem?_mapIdx, Option.map_map]
    rfl
  rw [← hmap, ← hmap, h.fields]

/-- The kinds of the fields, when it is known which are signed and of variable length. -/
theorem sameKinds (h : t.Interchangeable t')
    (hsignedVL : t.fieldsInfo.map (fun f => (f.isSigned, f.isVL)) =
      t'.fieldsInfo.map (fun f => (f.isSigned, f.isVL))) : t.SameKinds t' := by
  have hzip : ∀ l : List FInfo, l.map (fun f => (f.isSigned, f.isSaturating, f.isVL)) =
      ((l.map fun f => (f.isSigned, f.isVL)).zip (l.map FInfo.isSaturating)).map
        fun x => (x.1.1, x.2, x.1.2) := by
    intro l
    rw [List.zip_map', List.map_map]
    rfl
  exact ⟨by rw [hzip, hzip, hsignedVL, h.isSaturating_eq], h.lengths⟩

end Interchangeable

/-- **Types with the same fields of the same kinds** are interchangeable. -/
theorem SameKinds.interchangeable (h : t.SameKinds t') (hfields : t.SameFields t') :
    t.Interchangeable t' := by
  refine ⟨fun arithOffsets => List.ext_getElem? fun i => ?_, h.lengths⟩
  have hentry := congrArg (·[i]?) hfields.1
  have hkind := congrArg (·[i]?) h.kinds
  simp only [List.getElem?_map] at hentry hkind
  rw [newFields, newFields, List.getElem?_mapIdx, List.getElem?_mapIdx]
  rcases hf : t.fieldsInfo[i]? with - | f <;> rcases hf' : t'.fieldsInfo[i]? with - | f'
  · rfl
  · rw [hf, hf'] at hentry
    cases hentry
  · rw [hf, hf'] at hentry
    cases hentry
  · rw [hf, hf'] at hentry hkind
    simp only [Option.map_some, Option.some.injEq, Prod.mk.injEq] at hentry hkind
    rw [Option.map_some, Option.map_some, newField, newField, hentry.1, hentry.2.2.2, hkind.1,
      hkind.2.1, hkind.2.2]

end HeaderType

/-! ## The types of programs -/

/-- A header type of a program, and its name there. -/
structure NamedType where
  p4Name : String
  typeName : String
  headerType : HeaderType
  deriving DecidableEq, Repr

/-- The types of the programs, in the order in which they are mapped. -/
def namedTypes (progs : List (String × List (String × HeaderType))) : List NamedType :=
  progs.flatMap fun p => p.2.map fun typ => ⟨p.1, typ.1, typ.2⟩

namespace NamedType

/-- `<p4_name>.<header_type name>`. -/
def fqn (x : NamedType) : String := UidTable.fqn x.p4Name x.typeName

/-- What `init_type_mapping` asks to be linked. -/
def link (x : NamedType) : UidTable.Link String :=
  ⟨x.p4Name, x.typeName, x.headerType.uidFromFieldSeq, .headerTypeDefMatch⟩

end NamedType

namespace HeaderTypeUidTable

variable {progs : List (String × List (String × HeaderType))} {x y : NamedType}

/-- The table after the programs have been added. -/
def initAll (progs : List (String × List (String × HeaderType))) : HeaderTypeUidTable :=
  progs.foldl (fun table p => table.initTypeMapping p.1 p.2) empty

/-- The uid that the type was given. -/
def uidOf (progs : List (String × List (String × HeaderType))) (x : NamedType) : Option String :=
  (initAll progs).getLinkerHeaderType x.p4Name x.typeName

theorem linkTable_mapType (table : HeaderTypeUidTable) (x : NamedType) :
    (mapType x.p4Name table (x.typeName, x.headerType)).linkTable =
      (table.linkTable.step (.insert x.link)).2 := by
  rw [mapType, UidTable.step, NamedType.link]
  split
  · next h => rw [h]
  · next h => rw [h]

theorem linkTable_foldl (xs : List NamedType) (table : HeaderTypeUidTable) :
    (xs.foldl (fun table x => mapType x.p4Name table (x.typeName, x.headerType)) table).linkTable =
      table.linkTable.after ((xs.map NamedType.link).map .insert) := by
  induction xs generalizing table with
  | nil => rfl
  | cons x xs ih =>
    rw [List.foldl_cons, ih, linkTable_mapType]
    rfl

theorem initAll_eq (progs : List (String × List (String × HeaderType))) :
    initAll progs = (namedTypes progs).foldl
      (fun table x => mapType x.p4Name table (x.typeName, x.headerType)) empty := by
  rw [namedTypes, List.foldl_flatMap, initAll]
  refine congrArg (fun f => List.foldl f empty progs) ?_
  funext table p
  rw [List.foldl_map]
  rfl

/-- **The uid of a type** is that of the first type with its name. -/
theorem uidOf_eq (hx : x ∈ namedTypes progs) :
    ∃ z ∈ namedTypes progs, z.fqn = x.fqn ∧ uidOf progs x = some z.headerType.uidFromFieldSeq := by
  have htable : (initAll progs).linkTable = .inserted ((namedTypes progs).map NamedType.link) := by
    rw [initAll_eq, linkTable_foldl]
    rfl
  have hfirst := UidTable.fqnToLinker_inserted ((namedTypes progs).map NamedType.link) x.fqn
  rw [List.find?_map] at hfirst
  rcases hfind : (namedTypes progs).find?
      ((fun k => decide (UidTable.fqn k.p4Name k.val = x.fqn)) ∘ NamedType.link) with - | z
  · have hnone := List.find?_eq_none.mp hfind x hx
    exact absurd (decide_eq_true rfl) hnone
  · rw [hfind] at hfirst
    refine ⟨z, List.mem_of_find?_eq_some hfind, ?_, ?_⟩
    · have hz := List.find?_some hfind
      exact of_decide_eq_true hz
    · rw [uidOf, getLinkerHeaderType, UidTable.getP4objectLink, htable]
      rw [NamedType.fqn] at hfirst
      rw [hfirst]
      rfl

/-- Types with one name get one uid. -/
theorem uidOf_congr (h : x.fqn = y.fqn) : uidOf progs x = uidOf progs y := by
  rw [NamedType.fqn, NamedType.fqn] at h
  rw [uidOf, uidOf, getLinkerHeaderType, getLinkerHeaderType, UidTable.getP4objectLink,
    UidTable.getP4objectLink, h]

/-- **Types that get one uid.** Of the types of any programs, those and only those
with the same fields get the same uid, and headers of types with one uid do for each
other, exactly when no two types of one name have different numbers, and no two with
the same numbers differ in which fields are signed, saturating or of variable length,
or in the lengths they compute. -/
theorem same_uid_iff (progs : List (String × List (String × HeaderType)))
    (hbuilt : ∀ x ∈ namedTypes progs, x.headerType.Built) :
    (∀ x ∈ namedTypes progs, ∀ y ∈ namedTypes progs,
      (uidOf progs x = uidOf progs y ↔ x.headerType.SameFields y.headerType) ∧
      (uidOf progs x = uidOf progs y → x.headerType.Interchangeable y.headerType)) ↔
    ∀ x ∈ namedTypes progs, ∀ y ∈ namedTypes progs,
      (x.fqn = y.fqn → x.headerType.numbers = y.headerType.numbers) ∧
      (x.headerType.numbers = y.headerType.numbers → x.headerType.SameKinds y.headerType) := by
  have hsame : ∀ x ∈ namedTypes progs, ∀ y ∈ namedTypes progs,
      (x.headerType.SameFields y.headerType ↔ x.headerType.numbers = y.headerType.numbers ∧
        x.headerType.fieldsInfo.map (fun f => (f.isSigned, f.isVL)) =
          y.headerType.fieldsInfo.map (fun f => (f.isSigned, f.isVL))) :=
    fun x hx y hy =>
      HeaderType.sameFields_iff (hbuilt x hx).wellFormed (hbuilt y hy).wellFormed
  constructor
  · intro h
    -- A type has the fields of the first one with its name.
    have howner : ∀ x ∈ namedTypes progs,
        uidOf progs x = some x.headerType.uidFromFieldSeq := by
      intro x hx
      obtain ⟨z, hz, hfqn, huid⟩ := uidOf_eq hx
      have hnum := ((hsame x hx z hz).mp ((h x hx z hz).1.mp (uidOf_congr hfqn.symm))).1
      rw [huid, HeaderType.uidFromFieldSeq_eq_iff.mpr hnum]
    intro x hx y hy
    refine ⟨fun hfqn => ?_, fun hnum => ?_⟩
    · exact ((hsame x hx y hy).mp ((h x hx y hy).1.mp (uidOf_congr hfqn))).1
    · have huid : uidOf progs x = uidOf progs y := by
        rw [howner x hx, howner y hy, HeaderType.uidFromFieldSeq_eq_iff.mpr hnum]
      obtain ⟨hfields, hchange⟩ := h x hx y hy
      exact (hchange huid).sameKinds ((hsame x hx y hy).mp (hfields.mp huid)).2
  · intro h x hx y hy
    have howner : ∀ x ∈ namedTypes progs,
        uidOf progs x = some x.headerType.uidFromFieldSeq := by
      intro x hx
      obtain ⟨z, hz, hfqn, huid⟩ := uidOf_eq hx
      rw [huid, HeaderType.uidFromFieldSeq_eq_iff.mpr ((h z hz x hx).1 hfqn)]
    rw [howner x hx, howner y hy, Option.some.injEq, HeaderType.uidFromFieldSeq_eq_iff]
    have hfields : x.headerType.numbers = y.headerType.numbers →
        x.headerType.SameFields y.headerType := fun hnum =>
      (hsame x hx y hy).mpr ⟨hnum, ((h x hx y hy).2 hnum).signedVL⟩
    exact ⟨⟨hfields, fun hboth => ((hsame x hx y hy).mp hboth).1⟩, fun hnum =>
      ((h x hx y hy).2 hnum).interchangeable (hfields hnum)⟩

/-- A type with fields of these names and widths. -/
def plainType (name : String) (fields : List (String × ℤ)) : HeaderType :=
  fields.foldl (fun t f => t.pushBackField f.1 f.2 false false false) (.new name 0)

theorem built_plainType (name : String) (fields : List (String × ℤ)) :
    (plainType name fields).Built := by
  induction fields using List.reverseRecOn with
  | nil => exact .new name 0
  | append_singleton fields f ih =>
    rw [plainType, List.foldl_append]
    exact ih.field f.1 f.2 false false

/-- The length of the options in bits: that of the header in bytes, which is its first
field, less the one byte of this field. -/
def optionsLength : Expressions.Expression where
  ops := [.loadLocal 0, .loadConst 0, .arith .sub 0, .loadConst 1, .arith .mul 0]
  constValues := [{ value := 1 }, { value := 8 }]
  dataRegistersCnt := 1

/-- A length, and a field of variable length, in a header of at most 8 bytes. -/
def optionsType : HeaderType :=
  ⟨"options_t", 0, [⟨"len", 8, false, false, false, false⟩, ⟨"data", 0, false, false, true, false⟩,
    HeaderType.hidden], some optionsLength, 1, 8⟩

theorem built_optionsType : optionsType.Built :=
  (built_plainType "options_t" [("len", 8)]).vlField
    (rfl : (plainType "options_t" [("len", 8)]).pushBackVLField "data" 8 (some optionsLength)
      false false = some optionsType)

/-- Two programs with Ethernet headers and options, one of them with a tag too. -/
def ethernetProgs : List (String × List (String × HeaderType)) :=
  [("l2", [("ethernet_t", plainType "ethernet_t" [("dst", 48), ("src", 48), ("type", 16)]),
      ("tag_t", plainType "tag_t" [("pcp", 3), ("cfi", 1), ("vid", 12), ("type", 16)]),
      ("options_t", optionsType)]),
    ("l3", [("eth", plainType "eth" [("to", 48), ("from", 48), ("type", 16)]),
      ("opt", optionsType)])]

theorem same_uid_ethernet :
    (namedTypes ethernetProgs).length = 5 ∧
    ∀ x ∈ namedTypes ethernetProgs, ∀ y ∈ namedTypes ethernetProgs,
      (uidOf ethernetProgs x = uidOf ethernetProgs y ↔ x.headerType.SameFields y.headerType) ∧
      (uidOf ethernetProgs x = uidOf ethernetProgs y →
        x.headerType.Interchangeable y.headerType) := by
  have halike : ∀ x ∈ namedTypes ethernetProgs, ∀ y ∈ namedTypes ethernetProgs,
      (x.fqn = y.fqn → x.headerType.numbers = y.headerType.numbers) ∧
      (x.headerType.numbers = y.headerType.numbers →
        x.headerType.fieldsInfo.map (fun f => (f.isSigned, f.isSaturating, f.isVL)) =
          y.headerType.fieldsInfo.map (fun f => (f.isSigned, f.isSaturating, f.isVL)) ∧
        x.headerType.vlExprRaw = y.headerType.vlExprRaw ∧
        x.headerType.isVLHeader = y.headerType.isVLHeader) := by decide +kernel
  refine ⟨rfl, (same_uid_iff ethernetProgs ?_).mpr fun x hx y hy => ?_⟩
  · intro x hx
    simp only [namedTypes, ethernetProgs, List.flatMap_cons, List.map_cons, List.map_nil,
      List.flatMap_nil, List.append_nil, List.cons_append, List.nil_append, List.mem_cons,
      List.not_mem_nil, or_false] at hx
    rcases hx with rfl | rfl | rfl | rfl | rfl
    · exact built_plainType _ _
    · exact built_plainType _ _
    · exact built_optionsType
    · exact built_plainType _ _
    · exact built_optionsType
  · obtain ⟨hname, hkinds⟩ := halike x hx y hy
    refine ⟨hname, fun hnum => ?_⟩
    obtain ⟨hkinds, hexpr, hvl⟩ := hkinds hnum
    exact ⟨hkinds, .of_vlExprRaw hexpr hvl⟩

/-- A counter of 8 bits, which saturates or does not. -/
def counterType (isSaturating : Bool) : HeaderType :=
  (HeaderType.new "counter_t" 0).pushBackField "n" 8 false isSaturating false

/-- **One uid for two layouts**: a field of variable length, and one of 8 bits. And
one for two types that compute differently: of a field that saturates, and of one
that does not. -/
theorem same_uid_other_fields :
    (∃ progs x y, namedTypes progs = [x, y] ∧ x.headerType.Built ∧ y.headerType.Built ∧
      uidOf progs x = some "8-8-1-" ∧ uidOf progs y = some "8-8-1-" ∧
      ¬ x.headerType.SameFields y.headerType) ∧
    ∃ progs x y, namedTypes progs = [x, y] ∧ x.headerType.Built ∧ y.headerType.Built ∧
      uidOf progs x = some "8-1-" ∧ uidOf progs y = some "8-1-" ∧
      x.headerType.SameFields y.headerType ∧ ¬ x.headerType.Interchangeable y.headerType := by
  constructor
  · exact ⟨[("a", [("options_t", optionsType)]),
      ("b", [("pair_t", plainType "pair_t" [("len", 8), ("data", 8)])])], _, _, rfl,
      built_optionsType, built_plainType _ _, by decide +kernel, by decide +kernel,
      by decide +kernel⟩
  · refine ⟨[("a", [("counter_t", counterType true)]), ("b", [("counter_t", counterType false)])],
      _, _, rfl, (HeaderType.Built.new _ _).field _ _ _ _, (HeaderType.Built.new _ _).field _ _ _ _,
      by decide +kernel, by decide +kernel, by decide +kernel, fun h => ?_⟩
    exact absurd h.isSaturating_eq (by decide +kernel)

end HeaderTypeUidTable

end Linker

end P4Bricks
