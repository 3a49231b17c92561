import Mathlib
/-!
# The table of linked objects

`linker_commons.h`. The linker keeps which object of each program is linked to
which of its own objects, in two maps. The forward map is keyed by the name of
the program and the text of the object, joined by a dot; the reverse map holds,
for each object of the linker, a set of records that are compared by program
and object but not by state.

The two maps describe the same relation as long as no program has a dot in its
name. The check that no two objects of one program share an object of the
linker looks for the object itself in the set, and so never finds the other.
-/

namespace P4Bricks

namespace Linker

inductive ObjectLinkStateCode where
  | headerTypeDefMatch
  | headerTypeDefMatchFailed
  | headerTypeSelectFieldMatch
  | headerTypeVlFieldMatch
  | headerTypeLinked
  | headerLinked
  | headerLinkFailed
  | stateHeaderOpsLinked
  | stateHeaderOpsLinkFailed
  | stateParseSwitchKeyMatch
  | stateParseSwitchKeyMatchFailed
  | stateLinkingFailed
  | stateLinked
  | stateMatched
  | parserLinkingFailed
  | linkingFailed
  | default
  deriving DecidableEq

inductive TableRetCode where
  | success
  | p4ObjectExist
  | linkObjectP4NameExist
  | p4ObjectMatchFailed
  | linkObjectMatchFailed
  | noP4ObjectLinkExist
  | noP4ObjectExist
  | tableInconsistent
  deriving DecidableEq

structure LinkValueState (α : Type*) where
  pname : String
  value : α
  linkState : ObjectLinkStateCode := .default
  deriving DecidableEq

/-- `boost::lexical_cast<std::string>`, which tells objects apart. -/
class LexicalCast (α : Type*) where
  lexicalCast : α → String
  injective : Function.Injective lexicalCast

/-- Names are their own text. -/
instance : LexicalCast String := ⟨id, Function.injective_id⟩

/-- Header ids are printed in decimal. -/
instance : LexicalCast ℤ := ⟨Int.repr, fun _ _ h => Int.repr_injective h⟩

/-! ## Sets of records -/

/-- An `unordered_set<LinkValueState>`: the state of the record for each program
and object that has one. Records are hashed by program, and `operator==` looks
at program and object. -/
def RecordSet (α : Type*) := String → α → Option ObjectLinkStateCode

namespace RecordSet

variable {α : Type*} [DecidableEq α]

def empty : RecordSet α := fun _ _ => none

/-- A record that is equal to one in the set is not inserted. -/
def insert (rs : RecordSet α) (r : LinkValueState α) : RecordSet α := fun p v =>
  if p = r.pname ∧ v = r.value then some ((rs p v).getD r.linkState) else rs p v

def erase (rs : RecordSet α) (r : LinkValueState α) : RecordSet α := fun p v =>
  if p = r.pname ∧ v = r.value then none else rs p v

end RecordSet

/-! ## The table -/

/-- `LinkerUIDTableGeneric`. -/
structure UidTable (α : Type*) where
  fqnToLinker : String → Option (LinkValueState α)
  linkerToP4s : α → Option (RecordSet α)

namespace UidTable

variable {α : Type*} [DecidableEq α] [LexicalCast α]

def empty : UidTable α := ⟨fun _ => none, fun _ => none⟩

/-- The fully qualified name of an object of a program. -/
def fqn (p4Name : String) (val : α) : String := p4Name ++ "." ++ LexicalCast.lexicalCast val

def insertP4objectsLink (t : UidTable α) (p4Name : String) (val linkVal : α)
    (state : ObjectLinkStateCode) : TableRetCode × UidTable α :=
  match t.fqnToLinker (fqn p4Name val) with
  | some _ => (.p4ObjectExist, t)
  | none =>
    let fwd := Function.update t.fqnToLinker (fqn p4Name val) (some ⟨"Linker", linkVal, state⟩)
    match t.linkerToP4s linkVal with
    | some rs =>
      match rs p4Name val with
      | some _ => (.linkObjectP4NameExist, t)
      | none =>
        (.success, ⟨fwd, Function.update t.linkerToP4s linkVal
          (some (rs.insert ⟨p4Name, val, state⟩))⟩)
    | none =>
      (.success, ⟨fwd, Function.update t.linkerToP4s linkVal
        (some (RecordSet.empty.insert ⟨p4Name, val, state⟩))⟩)

/-- The forward map is written before the reverse map is looked at. -/
def updateP4objectsLink (t : UidTable α) (p4Name : String) (val linkVal : α)
    (state : ObjectLinkStateCode) : TableRetCode × UidTable α :=
  match t.fqnToLinker (fqn p4Name val) with
  | none => (.noP4ObjectExist, t)
  | some r =>
    if r.value ≠ linkVal then (.noP4ObjectLinkExist, t)
    else
      let fwd := Function.update t.fqnToLinker (fqn p4Name val) (some { r with linkState := state })
      match t.linkerToP4s linkVal with
      | none => (.tableInconsistent, { t with fqnToLinker := fwd })
      | some rs =>
        match rs p4Name val with
        | none => (.tableInconsistent, { t with fqnToLinker := fwd })
        | some _ =>
          (.success, ⟨fwd, Function.update t.linkerToP4s linkVal
            (some ((rs.erase ⟨p4Name, val, .default⟩).insert ⟨p4Name, val, state⟩))⟩)

def getP4objectsLinkState (t : UidTable α) (p4Name : String) (val linkVal : α) :
    Except TableRetCode ObjectLinkStateCode :=
  match t.fqnToLinker (fqn p4Name val) with
  | none => .error .p4ObjectMatchFailed
  | some r => if r.value ≠ linkVal then .error .linkObjectMatchFailed else .ok r.linkState

def getP4objectLink (t : UidTable α) (p4Name : String) (val : α) :
    Except TableRetCode (LinkValueState α) :=
  match t.fqnToLinker (fqn p4Name val) with
  | none => .error .p4ObjectMatchFailed
  | some r => .ok r

/-! ## Runs -/

/-- The arguments of a call that links. -/
structure Link (α : Type*) where
  p4Name : String
  val : α
  linkVal : α
  state : ObjectLinkStateCode

/-- A call that changes the table. -/
inductive Op (α : Type*) where
  | insert (k : Link α)
  | update (k : Link α)

/-- What a call writes, if it succeeds. -/
def Op.link : Op α → Link α
  | .insert k => k
  | .update k => k

def step (t : UidTable α) : Op α → TableRetCode × UidTable α
  | .insert k => t.insertP4objectsLink k.p4Name k.val k.linkVal k.state
  | .update k => t.updateP4objectsLink k.p4Name k.val k.linkVal k.state

/-- The table that a sequence of calls leaves. -/
def after (t : UidTable α) (ops : List (Op α)) : UidTable α :=
  ops.foldl (fun t op => (t.step op).2) t

@[simp] theorem after_nil (t : UidTable α) : t.after [] = t := rfl

@[simp] theorem after_concat (t : UidTable α) (ops : List (Op α)) (op : Op α) :
    t.after (ops ++ [op]) = ((t.after ops).step op).2 := by
  simp [after]

/-- The state of a link in the reverse map. -/
def back (t : UidTable α) (p4Name : String) (val linkVal : α) : Option ObjectLinkStateCode :=
  (t.linkerToP4s linkVal).bind fun rs => rs p4Name val

/-! ## What a call does -/

variable {t t' : UidTable α} {k : Link α} {code : TableRetCode}

omit [LexicalCast α] in
/-- The reverse map with one record written. -/
theorem back_update (fwd : String → Option (LinkValueState α)) (rs : RecordSet α) (linkVal l : α)
    (p : String) (v : α) :
    back ⟨fwd, Function.update t.linkerToP4s linkVal (some rs)⟩ p v l =
      if l = linkVal then rs p v else t.back p v l := by
  by_cases hl : l = linkVal
  · subst hl
    simp [back]
  · simp [back, hl]

/-- **What an insert does**: nothing if the name is taken or the record is there,
and otherwise it writes both maps. -/
theorem insert_cases (h : t.step (.insert k) = (code, t')) :
    (t.fqnToLinker (fqn k.p4Name k.val) ≠ none ∧ code = .p4ObjectExist ∧ t' = t) ∨
    (t.back k.p4Name k.val k.linkVal ≠ none ∧ code = .linkObjectP4NameExist ∧ t' = t) ∨
    (t.fqnToLinker (fqn k.p4Name k.val) = none ∧ t.back k.p4Name k.val k.linkVal = none ∧
      code = .success ∧
      t'.fqnToLinker = Function.update t.fqnToLinker (fqn k.p4Name k.val)
        (some ⟨"Linker", k.linkVal, k.state⟩) ∧
      ∀ p v l, t'.back p v l =
        if p = k.p4Name ∧ v = k.val ∧ l = k.linkVal then some k.state else t.back p v l) := by
  simp only [step, insertP4objectsLink] at h
  cases hfwd : t.fqnToLinker (fqn k.p4Name k.val) with
  | some r =>
    simp only [hfwd, Prod.mk.injEq] at h
    exact .inl ⟨by simp, h.1.symm, h.2.symm⟩
  | none =>
    simp only [hfwd] at h
    -- The name is free. The linker object may have records already, and then the record is looked
    -- for among them.
    cases hmap : t.linkerToP4s k.linkVal with
    | none =>
      simp only [hmap, Prod.mk.injEq] at h
      obtain ⟨rfl, rfl⟩ := h
      refine .inr (.inr ⟨rfl, by simp [back, hmap], rfl, rfl, fun p v l => ?_⟩)
      rw [back_update]
      by_cases hl : l = k.linkVal
      · subst hl
        by_cases hpv : p = k.p4Name ∧ v = k.val
        · simp [RecordSet.insert, RecordSet.empty, hpv]
        · simp [RecordSet.insert, RecordSet.empty, back, hmap]
      · simp [hl]
    | some rs =>
      simp only [hmap] at h
      cases hrec : rs k.p4Name k.val with
      | some state =>
        simp only [hrec, Prod.mk.injEq] at h
        exact .inr (.inl ⟨by simp [back, hmap, hrec], h.1.symm, h.2.symm⟩)
      | none =>
        simp only [hrec, Prod.mk.injEq] at h
        obtain ⟨rfl, rfl⟩ := h
        refine .inr (.inr ⟨rfl, by simp [back, hmap, hrec], rfl, rfl, fun p v l => ?_⟩)
        rw [back_update]
        by_cases hl : l = k.linkVal
        · subst hl
          by_cases hpv : p = k.p4Name ∧ v = k.val
          · obtain ⟨rfl, rfl⟩ := hpv
            simp [RecordSet.insert, hrec]
          · simp [RecordSet.insert, hpv, back, hmap]
        · simp [hl]

/-- **What an update does**: nothing if there is no such link; it rewrites the
state in both maps if both have it, and in one if the other has not. -/
theorem update_cases (h : t.step (.update k) = (code, t')) :
    (t.fqnToLinker (fqn k.p4Name k.val) = none ∧ code = .noP4ObjectExist ∧ t' = t) ∨
    (∃ r, t.fqnToLinker (fqn k.p4Name k.val) = some r ∧ r.value ≠ k.linkVal ∧
      code = .noP4ObjectLinkExist ∧ t' = t) ∨
    (∃ r, t.fqnToLinker (fqn k.p4Name k.val) = some r ∧ r.value = k.linkVal ∧
      t.back k.p4Name k.val k.linkVal = none ∧ code = .tableInconsistent) ∨
    (∃ r, t.fqnToLinker (fqn k.p4Name k.val) = some r ∧ r.value = k.linkVal ∧
      t.back k.p4Name k.val k.linkVal ≠ none ∧ code = .success ∧
      t'.fqnToLinker = Function.update t.fqnToLinker (fqn k.p4Name k.val)
        (some { r with linkState := k.state }) ∧
      ∀ p v l, t'.back p v l =
        if p = k.p4Name ∧ v = k.val ∧ l = k.linkVal then some k.state else t.back p v l) := by
  simp only [step, updateP4objectsLink] at h
  cases hfwd : t.fqnToLinker (fqn k.p4Name k.val) with
  | none =>
    simp only [hfwd, Prod.mk.injEq] at h
    exact .inl ⟨rfl, h.1.symm, h.2.symm⟩
  | some r =>
    simp only [hfwd] at h
    -- The forward map decides first, so a record of another linker object is not touched.
    by_cases hval : r.value = k.linkVal
    · simp only [hval, ne_eq, not_true_eq_false, if_false] at h
      cases hmap : t.linkerToP4s k.linkVal with
      | none =>
        simp only [hmap, Prod.mk.injEq] at h
        exact .inr (.inr (.inl ⟨r, rfl, hval, by simp [back, hmap], h.1.symm⟩))
      | some rs =>
        simp only [hmap] at h
        cases hrec : rs k.p4Name k.val with
        | none =>
          simp only [hrec, Prod.mk.injEq] at h
          exact .inr (.inr (.inl ⟨r, rfl, hval, by simp [back, hmap, hrec], h.1.symm⟩))
        | some state =>
          simp only [hrec, Prod.mk.injEq] at h
          obtain ⟨rfl, rfl⟩ := h
          refine .inr (.inr (.inr ⟨r, rfl, hval, by simp [back, hmap, hrec], rfl, by rw [hval],
            fun p v l => ?_⟩))
          rw [back_update]
          by_cases hl : l = k.linkVal
          · subst hl
            by_cases hpv : p = k.p4Name ∧ v = k.val
            · simp [RecordSet.insert, RecordSet.erase, hpv]
            · simp [RecordSet.insert, RecordSet.erase, hpv, back, hmap]
          · simp [hl]
    · simp only [ne_eq, hval, not_false_eq_true, if_true, Prod.mk.injEq] at h
      exact .inr (.inl ⟨r, rfl, hval, h.1.symm, h.2.symm⟩)

end UidTable

end Linker

end P4Bricks
