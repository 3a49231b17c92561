import P4Bricks.Common.Decimal
import P4Bricks.Linker.UidTable
/-!
# What the table of linked objects holds

Two results about runs of calls on the table. The two maps agree with each
other and with the states that the calls wrote, if no program has a dot in its
name (`after_links`). An object of the linker is linked to at most one object
of a program exactly in the runs in which no insert asks for a second: such an
insert is not refused (`oneEach_iff`).
-/

namespace P4Bricks

namespace Linker

namespace UidTable

variable {α : Type*} [DecidableEq α] [LexicalCast α] {t t' : UidTable α} {code : TableRetCode}

/-! ## The two maps -/

/-- A program name without a dot. -/
def Plain (p4Name : String) : Prop := '.' ∉ p4Name.toList

omit [DecidableEq α] in
/-- The name of the program ends at the first dot. -/
theorem fqn_inj {p p' : String} {v v' : α} (hp : Plain p) (hp' : Plain p') :
    fqn p v = fqn p' v' ↔ p = p' ∧ v = v' := by
  constructor
  · intro h
    have hlist : p.toList ++ '.' :: (LexicalCast.lexicalCast v).toList =
        p'.toList ++ '.' :: (LexicalCast.lexicalCast v').toList := by
      have hdot : ".".toList = ['.'] := rfl
      have := congrArg String.toList h
      simpa only [fqn, String.toList_append, hdot, List.append_assoc, List.singleton_append]
        using this
    obtain ⟨hname, -, htext⟩ := append_cons_inj (p := (· ≠ '.')) (fun c hc hdot => hp (hdot ▸ hc))
      (fun c hc hdot => hp' (hdot ▸ hc)) (not_not.mpr rfl) (not_not.mpr rfl) hlist
    exact ⟨String.toList_inj.mp hname,
      LexicalCast.injective (String.toList_inj.mp htext)⟩
  · rintro ⟨rfl, rfl⟩
    rfl

/-- A call with the code it returned. -/
def trace : UidTable α → List (Op α) → List (Op α × TableRetCode)
  | _, [] => []
  | t, op :: ops => (op, (t.step op).1) :: (t.step op).2.trace ops

/-- What is written for each object: the last successful call counts. -/
def write (w : String → α → Option (α × ObjectLinkStateCode)) (c : Op α × TableRetCode) :
    String → α → Option (α × ObjectLinkStateCode) := fun p v =>
  if c.2 = .success ∧ p = c.1.link.p4Name ∧ v = c.1.link.val then
    some (c.1.link.linkVal, c.1.link.state)
  else w p v

/-- The links that a sequence of calls wrote. -/
def written (calls : List (Op α × TableRetCode)) : String → α → Option (α × ObjectLinkStateCode) :=
  calls.foldl write fun _ _ => none

/-- **Both maps describe the links written.** -/
structure Describes (t : UidTable α) (w : String → α → Option (α × ObjectLinkStateCode)) : Prop where
  fwd : ∀ p v, Plain p → t.fqnToLinker (fqn p v) = (w p v).map fun x => ⟨"Linker", x.1, x.2⟩
  back : ∀ p v l, Plain p → t.back p v l = (w p v).bind fun x => if x.1 = l then some x.2 else none

variable {w : String → α → Option (α × ObjectLinkStateCode)}

omit [LexicalCast α] in
/-- A call that fails writes nothing. -/
theorem write_of_ne (op : Op α) (hcode : code ≠ .success) : write w (op, code) = w := by
  funext p v
  simp [write, hcode]

/-- Both maps after a call that succeeds. -/
theorem Describes.write (hd : Describes t w) {op : Op α} (hplain : Plain op.link.p4Name)
    (hlink : ∀ x, w op.link.p4Name op.link.val = some x → x.1 = op.link.linkVal)
    (hfwd : t'.fqnToLinker = Function.update t.fqnToLinker (fqn op.link.p4Name op.link.val)
      (some ⟨"Linker", op.link.linkVal, op.link.state⟩))
    (hback : ∀ p v l, t'.back p v l =
      if p = op.link.p4Name ∧ v = op.link.val ∧ l = op.link.linkVal then some op.link.state
      else t.back p v l) : Describes t' (write w (op, .success)) := by
  refine ⟨fun p v hp => ?_, fun p v l hp => ?_⟩
  · rw [hfwd]
    by_cases heq : p = op.link.p4Name ∧ v = op.link.val
    · obtain ⟨rfl, rfl⟩ := heq
      simp [UidTable.write]
    · have hne : fqn p v ≠ fqn op.link.p4Name op.link.val := fun h =>
        heq ((fqn_inj hp hplain).mp h)
      rw [Function.update_of_ne hne, hd.fwd p v hp]
      simp [UidTable.write, heq]
  · rw [hback, hd.back p v l hp]
    by_cases heq : p = op.link.p4Name ∧ v = op.link.val
    · obtain ⟨rfl, rfl⟩ := heq
      by_cases hl : l = op.link.linkVal
      · simp [UidTable.write, hl]
      · -- Another object of the linker has no record of this one, before or after.
        have hnone : ((w op.link.p4Name op.link.val).bind fun x =>
            if x.1 = l then some x.2 else none) = none := by
          rw [Option.bind_eq_none_iff]
          intro x hx
          rw [hlink x hx, if_neg (Ne.symm hl)]
        simp [UidTable.write, hl, hnone, Ne.symm hl]
    · have hcond : ¬ (p = op.link.p4Name ∧ v = op.link.val ∧ l = op.link.linkVal) :=
        fun h => heq ⟨h.1, h.2.1⟩
      simp [UidTable.write, heq, hcond]

/-- **One call.** It is never found inconsistent, and if it fails it changes
nothing. -/
theorem Describes.step (hd : Describes t w) {op : Op α} (hplain : Plain op.link.p4Name)
    (h : t.step op = (code, t')) :
    Describes t' (UidTable.write w (op, code)) ∧ code ≠ .tableInconsistent ∧
      (code ≠ .success → t' = t) := by
  cases op with
  | insert k =>
    have hp : Plain k.p4Name := hplain
    rcases insert_cases h with ⟨-, rfl, rfl⟩ | ⟨-, rfl, rfl⟩ | ⟨hnone, -, rfl, hfwd, hback⟩
    · rw [write_of_ne _ (by decide)]
      exact ⟨hd, by decide, fun _ => rfl⟩
    · rw [write_of_ne _ (by decide)]
      exact ⟨hd, by decide, fun _ => rfl⟩
    · have hfree : w k.p4Name k.val = none := by
        rw [hd.fwd _ _ hp] at hnone
        exact Option.map_eq_none_iff.mp hnone
      refine ⟨hd.write hplain (fun x hx => ?_) hfwd hback, by decide, fun hne => absurd rfl hne⟩
      rw [Op.link, hfree] at hx
      cases hx
  | update k =>
    have hp : Plain k.p4Name := hplain
    rcases update_cases h with ⟨-, rfl, rfl⟩ | ⟨r, -, -, rfl, rfl⟩ | ⟨r, hr, hval, hnone, -⟩ |
      ⟨r, hr, hval, -, rfl, hfwd, hback⟩
    · rw [write_of_ne _ (by decide)]
      exact ⟨hd, by decide, fun _ => rfl⟩
    · rw [write_of_ne _ (by decide)]
      exact ⟨hd, by decide, fun _ => rfl⟩
    · -- The record is in the reverse map, for the link is in the forward map.
      rw [hd.fwd _ _ hp] at hr
      obtain ⟨x, hx, rfl⟩ := Option.map_eq_some_iff.mp hr
      rw [hd.back _ _ _ hp, hx, Option.bind_some, if_pos hval] at hnone
      cases hnone
    · rw [hd.fwd _ _ hp] at hr
      obtain ⟨x, hx, rfl⟩ := Option.map_eq_some_iff.mp hr
      refine ⟨hd.write hplain (fun y hy => ?_) ?_ hback, by decide, fun hne => absurd rfl hne⟩
      · obtain rfl : x = y := Option.some.inj (hx.symm.trans hy)
        exact hval
      · rw [hfwd]
        simp only at hval
        rw [hval]
        rfl

theorem Describes.after (hd : Describes t w) {ops : List (Op α)}
    (hplain : ∀ op ∈ ops, Plain op.link.p4Name) :
    Describes (t.after ops) ((t.trace ops).foldl UidTable.write w) := by
  induction ops generalizing t w with
  | nil => exact hd
  | cons op ops ih =>
    obtain ⟨hd', -, -⟩ := hd.step (hplain op List.mem_cons_self) rfl
    exact ih hd' fun op' h => hplain op' (List.mem_cons_of_mem _ h)

theorem describes_empty : Describes (empty : UidTable α) fun _ _ => none :=
  ⟨fun _ _ _ => rfl, fun _ _ _ _ => rfl⟩

/-- **The maps describe one relation.** After any calls on programs without a dot
in their name, the forward map links an object to an object of the linker with a
state exactly if the reverse map has the record with that state; no call is found
inconsistent, and one that fails leaves the table as it was; and the table
answers with what was last written. -/
theorem after_links (ops : List (Op α)) (hplain : ∀ op ∈ ops, Plain op.link.p4Name) :
    (∀ p v l s, Plain p →
      ((∃ r, (empty.after ops).fqnToLinker (fqn p v) = some r ∧ r.value = l ∧ r.linkState = s) ↔
        (empty.after ops).back p v l = some s)) ∧
    (∀ op : Op α, Plain op.link.p4Name →
      ((empty.after ops).step op).1 ≠ .tableInconsistent ∧
        (((empty.after ops).step op).1 ≠ .success →
          ((empty.after ops).step op).2 = empty.after ops)) ∧
    (∀ p v, Plain p → (empty.after ops).getP4objectLink p v =
      match written (empty.trace ops) p v with
      | none => .error .p4ObjectMatchFailed
      | some (l, s) => .ok ⟨"Linker", l, s⟩) ∧
    (∀ p v l, Plain p → (empty.after ops).getP4objectsLinkState p v l =
      match written (empty.trace ops) p v with
      | none => .error .p4ObjectMatchFailed
      | some (l', s) => if l' ≠ l then .error .linkObjectMatchFailed else .ok s) := by
  have hd : Describes (empty.after ops) (written (empty.trace ops)) := describes_empty.after hplain
  refine ⟨fun p v l s hp => ?_, fun op hop => ?_, fun p v hp => ?_, fun p v l hp => ?_⟩
  · rw [hd.fwd p v hp, hd.back p v l hp]
    cases written (empty.trace ops) p v with
    | none => simp
    | some x => simp
  · exact (hd.step hop rfl).2
  · rw [getP4objectLink, hd.fwd p v hp]
    cases written (empty.trace ops) p v <;> rfl
  · rw [getP4objectsLinkState, hd.fwd p v hp]
    cases written (empty.trace ops) p v <;> rfl

/-- An insert, an update, and a refused insert of the same object. -/
theorem after_links_ipv4 :
    ((empty : UidTable String).after [.insert ⟨"router", "ipv4", "l3", .headerLinked⟩,
        .update ⟨"router", "ipv4", "l3", .stateLinked⟩,
        .insert ⟨"router", "ipv4", "eth", .headerLinked⟩]).getP4objectLink "router" "ipv4" =
      .ok ⟨"Linker", "l3", .stateLinked⟩ := by
  have hplain : Plain "router" := by
    unfold Plain
    decide
  rw [(after_links _ (by simp [Op.link, hplain])).2.2.1 "router" "ipv4" hplain]
  decide

/-! ## One object of each program -/

/-- Each object of the linker is linked to at most one object of a program. -/
def OneEach (t : UidTable α) : Prop :=
  ∀ l p v v', t.back p v l ≠ none → t.back p v' l ≠ none → v = v'

/-- The insert would link a second object of the program. -/
def Breaks (t : UidTable α) (k : Link α) : Prop :=
  t.fqnToLinker (fqn k.p4Name k.val) = none ∧
    ∃ v, v ≠ k.val ∧ t.back k.p4Name v k.linkVal ≠ none

/-- The table after inserts. -/
def inserted (ks : List (Link α)) : UidTable α := empty.after (ks.map .insert)

theorem inserted_concat (ks : List (Link α)) (k : Link α) :
    inserted (ks ++ [k]) = ((inserted ks).step (.insert k)).2 := by
  simp [inserted]

/-- A record in the reverse map has its name in the forward map. -/
theorem fqn_of_back (ks : List (Link α)) {p : String} {v l : α}
    (h : (inserted ks).back p v l ≠ none) : (inserted ks).fqnToLinker (fqn p v) ≠ none := by
  induction ks using List.reverseRecOn generalizing p v l with
  | nil => exact absurd rfl h
  | append_singleton ks k ih =>
    rw [inserted_concat] at h ⊢
    rcases hstep : (inserted ks).step (.insert k) with ⟨code, t'⟩
    rw [hstep] at h
    rcases insert_cases hstep with ⟨-, -, rfl⟩ | ⟨-, -, rfl⟩ | ⟨-, -, -, hfwd, hback⟩
    · exact ih h
    · exact ih h
    · simp only at h ⊢
      rw [hfwd]
      by_cases hf : fqn p v = fqn k.p4Name k.val
      · simp [hf]
      · rw [Function.update_of_ne hf]
        refine ih (l := l) ?_
        have hcond : ¬ (p = k.p4Name ∧ v = k.val ∧ l = k.linkVal) := by
          rintro ⟨rfl, rfl, -⟩
          exact hf rfl
        rwa [hback, if_neg hcond] at h

/-- **The forward map after inserts**: of several with one name the first counts. -/
theorem fqnToLinker_inserted (ks : List (Link α)) (name : String) :
    (inserted ks).fqnToLinker name =
      (ks.find? fun k => fqn k.p4Name k.val = name).map fun k => ⟨"Linker", k.linkVal, k.state⟩ := by
  induction ks using List.reverseRecOn generalizing name with
  | nil => rfl
  | append_singleton ks k ih =>
    rw [inserted_concat, List.find?_append]
    rcases hstep : (inserted ks).step (.insert k) with ⟨code, t'⟩
    -- An insert that is refused finds the name taken.
    have hrefused : (inserted ks).fqnToLinker (fqn k.p4Name k.val) ≠ none →
        (inserted ks).fqnToLinker name = ((ks.find? fun k => fqn k.p4Name k.val = name).or
          ([k].find? fun k => fqn k.p4Name k.val = name)).map
            fun k => ⟨"Linker", k.linkVal, k.state⟩ := by
      intro htaken
      by_cases hname : fqn k.p4Name k.val = name
      · obtain ⟨r, hr⟩ := Option.ne_none_iff_exists'.mp htaken
        rw [hname, ih] at hr
        obtain ⟨k₀, hk₀, -⟩ := Option.map_eq_some_iff.mp hr
        rw [ih, hk₀]
        rfl
      · have hnone : ([k].find? fun k => fqn k.p4Name k.val = name) = none := by simp [hname]
        rw [ih, hnone, Option.or_none]
    rcases insert_cases hstep with ⟨htaken, -, rfl⟩ | ⟨hback, -, rfl⟩ | ⟨hfree, -, -, hfwd, -⟩
    · exact hrefused htaken
    · exact hrefused (fqn_of_back ks hback)
    · dsimp only
      rw [hfwd]
      by_cases hname : fqn k.p4Name k.val = name
      · subst hname
        rw [Function.update_self]
        rw [ih, Option.map_eq_none_iff] at hfree
        rw [hfree]
        simp
      · have hnone : ([k].find? fun k => fqn k.p4Name k.val = name) = none := by simp [hname]
        rw [Function.update_of_ne (Ne.symm hname), ih, hnone, Option.or_none]

/-- **A second object is linked**: the check looks for the object itself. -/
theorem code_of_breaks (ks : List (Link α)) {k : Link α} (hb : Breaks (inserted ks) k) :
    ((inserted ks).step (.insert k)).1 = .success := by
  rcases hstep : (inserted ks).step (.insert k) with ⟨code, t'⟩
  rcases insert_cases hstep with ⟨hne, -, -⟩ | ⟨hne, -, -⟩ | ⟨-, -, rfl, -⟩
  · exact absurd hb.1 hne
  · exact absurd hb.1 (fqn_of_back ks hne)
  · rfl

/-- One insert that does not ask for a second object. -/
theorem OneEach.insert (ho : OneEach t) {k : Link α} (hb : ¬ Breaks t k) :
    OneEach (t.step (.insert k)).2 := by
  rcases hstep : t.step (.insert k) with ⟨code, t'⟩
  rcases insert_cases hstep with ⟨-, -, rfl⟩ | ⟨-, -, rfl⟩ | ⟨hfree, -, -, -, hback⟩
  · exact ho
  · exact ho
  · intro l p v v' hv hv'
    rw [hback] at hv hv'
    have hother : ∀ u, u ≠ k.val → t.back k.p4Name u k.linkVal = none := by
      intro u hu
      by_contra hne
      exact hb ⟨hfree, u, hu, hne⟩
    by_cases hlp : p = k.p4Name ∧ l = k.linkVal
    · obtain ⟨rfl, rfl⟩ := hlp
      have hval : ∀ u, (if k.p4Name = k.p4Name ∧ u = k.val ∧ k.linkVal = k.linkVal then
          some k.state else t.back k.p4Name u k.linkVal) ≠ none → u = k.val := by
        intro u hu
        by_contra hne
        exact hu (by simp [hne, hother u hne])
      rw [hval v hv, hval v' hv']
    · have hsame : ∀ u, (if p = k.p4Name ∧ u = k.val ∧ l = k.linkVal then some k.state
          else t.back p u l) = t.back p u l := by
        intro u
        exact if_neg fun h => hlp ⟨h.1, h.2.2⟩
      rw [hsame] at hv hv'
      exact ho l p v v' hv hv'

/-- **One object of each program, exactly if no insert asks for a second.** On the
left: in every state of the sequence each object of the linker is linked to at
most one object of a program, and an insert that would break this is refused with
`LINK_OBJECT_P4_NAME_EXIST` and changes nothing. -/
theorem oneEach_iff (ks : List (Link α)) :
    ((∀ done, done <+: ks → OneEach (inserted done)) ∧
      ∀ done k rest, ks = done ++ k :: rest → Breaks (inserted done) k →
        (inserted done).step (.insert k) = (.linkObjectP4NameExist, inserted done)) ↔
    ∀ done k rest, ks = done ++ k :: rest → ¬ Breaks (inserted done) k := by
  constructor
  · rintro ⟨-, hrefused⟩ done k rest hks hb
    have hcode := code_of_breaks done hb
    rw [hrefused done k rest hks hb] at hcode
    cases hcode
  · intro hnever
    refine ⟨fun done => ?_, fun done k rest hks hb => absurd hb (hnever done k rest hks)⟩
    induction done using List.reverseRecOn with
    | nil => exact fun _ l p v v' hv => absurd rfl hv
    | append_singleton done k ih =>
      rintro ⟨rest, hks⟩
      rw [inserted_concat]
      refine (ih ⟨k :: rest, by simpa using hks⟩).insert (hnever done k rest ?_)
      simpa using hks.symm

/-- Two headers of a program are linked to one header of the linker. -/
theorem oneEach_ipv4_inner :
    ((inserted [⟨"router", "ipv4", "l3", .headerLinked⟩] : UidTable String).step
        (.insert ⟨"router", "inner", "l3", .headerLinked⟩)).1 = .success ∧
      ¬ OneEach (inserted [⟨"router", "ipv4", "l3", .headerLinked⟩,
        ⟨"router", "inner", "l3", .headerLinked⟩] : UidTable String) := by
  refine ⟨by decide, fun h => ?_⟩
  have heq := h "l3" "router" "ipv4" "inner" (by decide) (by decide)
  exact absurd heq (by decide)

end UidTable

end Linker

end P4Bricks
