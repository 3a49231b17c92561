import P4Bricks.Serialization.Model
/-!
# What is read back from a dump: numbers, names, keys and values

For each part of a dump, when its reader extracts the texts that were written, and
what it returns then. A name or a key that is empty is not extracted as such, nor is
one with whitespace in it.
-/

namespace P4Bricks

open Extraction Lookup MatchUnit MatchTables

namespace Serialization

variable {objs : Objects}

/-! ## Numbers and names -/

/-- A number is read back in the word it was put in, -/
theorem reads_number {α : Type} {z : ℤ} {k : Text → Reader α} {C : Prop} {Q : α → Prop}
    (hk : Reads .empty (k (decimal z)) C Q) : Reads (putInt z) (.read number k) C Q :=
  (Reads.put hk).congr ⟨fun h => h.2, fun h => ⟨clean_decimal z, h⟩⟩

/-- as an integer, -/
theorem reads_int (z : ℤ) : Reads (putInt z) int True (· = z) :=
  reads_number (.pure (ofDecimal_decimal z))

/-- or, where none is negative, as a natural number. -/
theorem reads_natural (n : ℕ) : Reads (putInt n) natural True (· = n) := by
  refine reads_number (.pure ?_)
  rw [ofDecimal_decimal]
  rfl

/-- A flag is one of two words. -/
theorem reads_bool (b : Bool) : Reads (putBool b) bool True (· = b) := by
  cases b with
  | false =>
    have hput : Reads (.put [48]) bool (number.Clean [48] ∧ True) (· = false) := .put (.done trivial rfl)
    exact hput.congr (by decide)
  | true =>
    have hput : Reads (.put [49]) bool (number.Clean [49] ∧ True) (· = true) := .put (.done trivial rfl)
    exact hput.congr (by decide)

/-- A string is one word, so that it comes back when it is not empty and has no blank in
it. -/
theorem reads_string (t : Text) : Reads (.put t) string (word.Clean t) (· = t) := by
  have hput : Reads (.put t) string (word.Clean t ∧ True) (· = t) := .put (.done trivial rfl)
  exact hput.congr (and_iff_left trivial)

/-- Bytes. -/
theorem reads_hexString (bytes : ByteContainer) :
    Reads (.put (toHex bytes)) hexString (bytes ≠ []) (· = bytes) := by
  have hput : Reads (.put (toHex bytes)) hexString (word.Clean (toHex bytes) ∧ bytes ≠ []) (· = bytes) := by
    refine .put ?_
    by_cases hne : bytes = []
    · subst hne
      exact .abort fun h => h rfl
    · rw [ofHex_toHex hne]
      exact .done hne rfl
  exact hput.congr ((and_congr_left' clean_toHex).trans and_self_iff)

/-! ## Next nodes -/

/-- The name of the node is a word, and there is such a node. -/
def NodeReadable (objs : Objects) (n : Option ℕ) : Prop :=
  ∀ i, n = some i → word.Clean (objs.nodeName i) ∧
    (objs.nodeName i = nullName ∨ (objs.getControlNode (objs.nodeName i)).isSome)

/-- The node that is found under the name, or the one that was there. -/
def restoredNode (objs : Objects) (old n : Option ℕ) : Option ℕ :=
  if nodeText objs n = nullName then old else objs.getControlNode (nodeText objs n)

/-- The name of a node can be read back when it is one word and a name of a node, or the
word for no node. -/
theorem nodeReadable_iff {n : Option ℕ} : word.Clean (nodeText objs n) ∧
    (nodeText objs n = nullName ∨ (objs.getControlNode (nodeText objs n)).isSome) ↔
      NodeReadable objs n := by
  rcases n with - | i
  · have hnull : word.Clean nullName := by decide
    exact ⟨fun _ i hi => by simp at hi, fun _ => ⟨hnull, Or.inl rfl⟩⟩
  · refine ⟨fun h j hj => ?_, fun h => h i rfl⟩
    obtain rfl := Option.some.inj hj
    exact h

/-- What a node is read back as: the one of the same name, or the old one. -/
theorem reads_node (old n : Option ℕ) :
    Reads (.put (nodeText objs n)) (node objs old) (NodeReadable objs n)
      (· = restoredNode objs old n) := by
  refine Reads.congr (Reads.put ?_) nodeReadable_iff
  by_cases hnull : nodeText objs n = nullName
  · rw [if_pos hnull]
    exact .done (Or.inl hnull) (if_pos hnull).symm
  · rw [if_neg hnull]
    have hfound : restoredNode objs old n = objs.getControlNode (nodeText objs n) := if_neg hnull
    rcases hnode : objs.getControlNode (nodeText objs n) with - | j
    · exact .abort (by simp [hnull])
    · exact .done (Or.inr rfl) (hfound.trans hnode).symm

/-! ## Action entries -/

/-- Data are written in hexadecimal digits, which name their value, -/
theorem dataOf_numeral (n : ℕ) : dataOf (numeral 16 n) = some (n : ℤ) := by
  obtain ⟨bytes, hbytes, hval⟩ := ofHex_numeral n
  obtain ⟨c, t, h⟩ := List.exists_cons_of_ne_nil (numeral_ne_nil 16 n)
  have hminus : c ≠ 45 := by
    rintro rfl
    obtain ⟨d, hd, hc⟩ := mem_numeral (b := 16) (n := n) (by decide) (h ▸ List.mem_cons_self)
    have hno : ∀ e : Fin 16, (45 : UInt8) ≠ digit e := by decide
    exact hno ⟨d, hd⟩ hc
  rw [h] at hbytes ⊢
  rw [dataOf, hbytes, Option.map_some, hval]
  intro t' heq
  exact hminus (List.cons_eq_cons.mp heq).1

/-- so that they are read back unless they are negative. -/
theorem reads_data (d : ℤ) : Reads (putData d) data (0 ≤ d) (· = d) := by
  refine (Reads.guarded (C := True) fun hd => ?_).congr (and_iff_left trivial)
  have hclean : word.Clean (numeral 16 d.toNat) :=
    clean_word.mpr ⟨numeral_ne_nil _ _, fun c hc => isSpace_of_mem_numeral (by decide) (by decide) hc⟩
  refine (Reads.put (C := True) ?_).congr (by simp [hclean])
  rw [dataOf_numeral, Int.toNat_of_nonneg hd]
  exact .pure rfl

/-- The action is one of the program's, and its data are not negative. -/
def ActionReadable (objs : Objects) (e : ActionEntry) : Prop :=
  ∀ fn, e.actionFn = some fn → (objs.getActionById fn.id).isSome ∧ ∀ d ∈ e.actionData, 0 ≤ d

/-- What is read over an entry: the data go behind its own. -/
def restoredAction (objs : Objects) (old e : ActionEntry) : ActionEntry :=
  match e.actionFn with
  | none => { old with actionFn := none }
  | some fn =>
    { old with
      actionFn := objs.getActionById fn.id
      actionData := old.actionData ++ e.actionData }

/-- The action of an entry is read back into an entry that keeps its old next node, -/
theorem reads_action (old e : ActionEntry) :
    Reads (ActionFnEntry.serialize e) (ActionFnEntry.deserialize objs old)
      (ActionReadable objs e) (· = restoredAction objs old e) := by
  rcases hfn : e.actionFn with - | fn
  · rw [ActionFnEntry.serialize, hfn]
    have hrest : restoredAction objs old e = { old with actionFn := none } := by
      rw [restoredAction, hfn]
    refine ((reads_int (-1)).map (D := True) fun id hid => ?_).congr ?_
    · subst hid
      exact .pure hrest.symm
    · simp [ActionReadable, hfn]
  · rw [ActionFnEntry.serialize, hfn]
    have hid : (fn.id : ℤ) ≠ -1 := by omega
    have hiff : True ∧ (objs.getActionById fn.id).isSome ∧ (∀ d ∈ e.actionData, 0 ≤ d) ↔
        ActionReadable objs e := by
      simp [ActionReadable, hfn]
    refine ((reads_int fn.id).bind fun id hid' => ?_).congr hiff
    subst hid'
    dsimp only
    rw [if_neg hid]
    rcases hact : objs.getActionById fn.id with - | g
    · refine ⟨by simp, fun _ items _ rest => rfl⟩
    · have hrest : restoredAction objs old e =
          { old with actionFn := some g, actionData := old.actionData ++ e.actionData } := by
        rw [restoredAction, hfn]
        simp only [hact]
      refine ((reads_natural e.actionData.length).bind (D := ∀ d ∈ e.actionData, 0 ≤ d)
        fun n hn => ?_).congr (by simp)
      subst hn
      -- Those still to be read make the data whole.
      refine (Reads.iterate (I := fun l e' => e' =
        { old with actionFn := some g, actionData := e'.actionData } ∧
          e'.actionData ++ l = old.actionData ++ e.actionData) ⟨rfl, rfl⟩ fun d l e' he' => ?_).mono
            fun e' he' => ?_
      · refine ((reads_data d).map (D := True) fun d' hd' => .pure ?_).congr (and_iff_left trivial)
        subst hd'
        refine ⟨?_, ?_⟩
        · rw [he'.1]
        · rw [List.append_assoc]
          exact he'.2
      · rw [he'.1, hrest, ← he'.2, List.append_nil]

/-- An action entry that is read back. -/
def EntryReadable (objs : Objects) (e : ActionEntry) : Prop :=
  ActionReadable objs e ∧ NodeReadable objs e.nextNode

def restoredEntry (objs : Objects) (old e : ActionEntry) : ActionEntry :=
  { restoredAction objs old e with nextNode := restoredNode objs old.nextNode e.nextNode }

/-- as reading the action does not name one; -/
theorem restoredAction_nextNode (old e : ActionEntry) :
    (restoredAction objs old e).nextNode = old.nextNode := by
  rw [restoredAction]
  split <;> rfl

/-- the entry as a whole then names its next node. -/
theorem reads_entry (old e : ActionEntry) :
    Reads (ActionEntry.serialize objs e) (ActionEntry.deserialize objs old) (EntryReadable objs e)
      (· = restoredEntry objs old e) := by
  refine ((reads_action old e).bind fun e' he' => ?_)
  subst he'
  refine ((reads_node _ e.nextNode).map (D := True) fun n hn => .pure ?_).congr (and_iff_left trivial)
  subst hn
  rw [restoredAction_nextNode]
  rfl

/-! ## Keys -/

/-- A kind of key that is read back, as far as it is written. -/
class ReadableKey (K : Type) extends KeyFormat K where
  Readable : K → Prop
  restored : K → K
  reads : ∀ k, Reads (KeyFormat.extra k) (KeyFormat.read (KeyFormat.data k)) (Readable k) (· = restored k)

instance : ReadableKey ExactMatchKey where
  Readable _ := True
  restored := id
  reads _ := .pure rfl

instance : ReadableKey LPMMatchKey where
  Readable _ := True
  restored := id
  reads k := by
    refine ((reads_natural k.prefixLength).map (D := True) fun n hn => .pure ?_).congr (by simp)
    subst hn
    rfl

instance : ReadableKey TernaryMatchKey where
  Readable k := k.mask ≠ []
  restored := id
  reads k := by
    refine ((reads_hexString k.mask).bind (D := True) fun m hm => ?_).congr (and_iff_left trivial)
    subst hm
    refine ((reads_int k.priority).map (D := True) fun p hp => .pure ?_).congr (by simp)
    subst hp
    rfl

/-- The widths of the ranges are lost. -/
instance : ReadableKey RangeMatchKey where
  Readable k := k.mask ≠ []
  restored k := { k with rangeWidths := [] }
  reads k := by
    refine ((ReadableKey.reads k.toTernaryMatchKey).map (D := True) fun t ht => .pure ?_).congr
      (and_iff_left trivial)
    subst ht
    rfl

end Serialization

end P4Bricks
