import Mathlib.Data.List.Infix
import Mathlib.Logic.Relation
/-!
# Depth-first search by key

Nodes are told apart by a key, and of the nodes with one key the first one that is
entered is searched. The search is given as the list of the nodes that it finishes,
in that order. A node is finished behind all that it leads to.
-/

namespace P4Bricks

namespace DepthFirst

variable {α β : Type*} [DecidableEq β] (key : α → β) (succ : α → List α)

/-- The nodes that are finished when a node has been searched, after those that were
finished before. -/
def visits : ℕ → α → List α → Option (List α)
  | 0, _, _ => none
  | fuel + 1, a, done =>
    if key a ∈ done.map key then some done
    else ((succ a).foldlM (fun done b => visits fuel b done) done).map (· ++ [a])

variable {key succ} {fuel : ℕ} {a b : α} {done done' l : List α}

/-- A step of a loop that may fail. -/
theorem foldlM_cons_eq_some {γ : Type*} {f : γ → α → Option γ} {s s' : γ} :
    (a :: l).foldlM f s = some s' ↔ ∃ s₁, f s a = some s₁ ∧ l.foldlM f s₁ = some s' := by
  rw [List.foldlM_cons]
  exact Option.bind_eq_some_iff

/-- What a loop computes, it computes with steps that compute more. -/
theorem foldlM_mono {γ : Type*} {f g : γ → α → Option γ}
    (hfg : ∀ s a s', f s a = some s' → g s a = some s') {s s' : γ}
    (h : l.foldlM f s = some s') : l.foldlM g s = some s' := by
  induction l generalizing s with
  | nil => exact h
  | cons a l ih =>
    obtain ⟨s₁, h₁, hrest⟩ := foldlM_cons_eq_some.mp h
    exact foldlM_cons_eq_some.mpr ⟨s₁, hfg s a s₁ h₁, ih hrest⟩

/-- More fuel changes nothing. -/
theorem visits_succ (h : visits key succ fuel a done = some done') :
    visits key succ (fuel + 1) a done = some done' := by
  induction fuel generalizing a done done' with
  | zero => cases h
  | succ fuel ih =>
    rw [visits] at h ⊢
    split_ifs at h ⊢ with hseen
    · exact h
    · obtain ⟨done₁, h₁, rfl⟩ := Option.map_eq_some_iff.mp h
      exact Option.map_eq_some_iff.mpr ⟨done₁, foldlM_mono (fun _ _ _ h => ih h) h₁, rfl⟩

theorem visits_mono {fuel' : ℕ} (hle : fuel ≤ fuel') (h : visits key succ fuel a done = some done') :
    visits key succ fuel' a done = some done' := by
  induction hle with
  | refl => exact h
  | step _ ih => exact visits_succ ih

/-- The search does not depend on the fuel. -/
theorem visits_unique {fuel' : ℕ} {done₁ done₂ : List α}
    (h₁ : visits key succ fuel a done = some done₁)
    (h₂ : visits key succ fuel' a done = some done₂) : done₁ = done₂ := by
  have h₁' := visits_mono (le_max_left fuel fuel') h₁
  have h₂' := visits_mono (le_max_right fuel fuel') h₂
  exact Option.some.inj (h₁'.symm.trans h₂')

/-- What holds along a search: what each node adds, its successors added. -/
theorem visits_induction {P : α → List α → List α → Prop}
    {Q : List α → List α → List α → Prop}
    (hseen : ∀ a done, key a ∈ done.map key → P a done done)
    (hnil : ∀ done, Q [] done done)
    (hcons : ∀ b l done done₁ done', P b done done₁ → Q l done₁ done' → Q (b :: l) done done')
    (hfill : ∀ a done done', key a ∉ done.map key → Q (succ a) done done' → P a done (done' ++ [a]))
    (h : visits key succ fuel a done = some done') : P a done done' := by
  induction fuel generalizing a done done' with
  | zero => cases h
  | succ fuel ih =>
    have hall : ∀ {l : List α} {done done' : List α},
        l.foldlM (fun done b => visits key succ fuel b done) done = some done' → Q l done done' := by
      intro l
      induction l with
      | nil =>
        intro done done' h
        obtain rfl := Option.some.inj h
        exact hnil done
      | cons b l ihl =>
        intro done done' h
        obtain ⟨done₁, h₁, hrest⟩ := foldlM_cons_eq_some.mp h
        exact hcons b l done done₁ done' (ih h₁) (ihl hrest)
    rw [visits] at h
    split_ifs at h with hs
    · obtain rfl := Option.some.inj h
      exact hseen a done hs
    · obtain ⟨done₁, h₁, rfl⟩ := Option.map_eq_some_iff.mp h
      exact hfill a done done₁ hs (hall h₁)

/-- What was finished stays, and the node is finished. -/
theorem visits_finished (h : visits key succ fuel a done = some done') :
    done <+: done' ∧ key a ∈ done'.map key := by
  refine visits_induction (P := fun a done done' => done <+: done' ∧ key a ∈ done'.map key)
    (Q := fun l done done' => done <+: done' ∧ ∀ b ∈ l, key b ∈ done'.map key)
    ?_ ?_ ?_ ?_ h
  · exact fun a done hs => ⟨List.prefix_rfl, hs⟩
  · exact fun done => ⟨List.prefix_rfl, by simp⟩
  · rintro b l done done₁ done' ⟨hpre, hb⟩ ⟨hpre', hl⟩
    refine ⟨hpre.trans hpre', List.forall_mem_cons.mpr ⟨?_, hl⟩⟩
    exact (hpre'.map key).subset hb
  · rintro a done done' - ⟨hpre, -⟩
    exact ⟨hpre.trans (List.prefix_append _ _), by simp⟩

/-- What holds of the node and goes on to successors holds of all that is finished. -/
theorem visits_forall {P : α → Prop} (hsucc : ∀ x, P x → ∀ y ∈ succ x, P y) (ha : P a)
    (hdone : ∀ x ∈ done, P x) (h : visits key succ fuel a done = some done') :
    ∀ x ∈ done', P x := by
  refine visits_induction
    (P := fun a done done' => P a → (∀ x ∈ done, P x) → ∀ x ∈ done', P x)
    (Q := fun l done done' => (∀ b ∈ l, P b) → (∀ x ∈ done, P x) → ∀ x ∈ done', P x)
    ?_ ?_ ?_ ?_ h ha hdone
  · exact fun a done _ _ hdone => hdone
  · exact fun done _ hdone => hdone
  · intro b l done done₁ done' hb hl hbl hdone
    obtain ⟨hpb, hpl⟩ := List.forall_mem_cons.mp hbl
    exact hl hpl (hb hpb hdone)
  · intro a done done' _ hl ha hdone x hx
    rcases List.mem_append.mp hx with hx | hx
    · exact hl (hsucc a ha) hdone x hx
    · exact List.mem_singleton.mp hx ▸ ha

/-- All that finished nodes lead to is finished. -/
def Closed (key : α → β) (succ : α → List α) (done : List α) : Prop :=
  ∀ x ∈ done, ∀ y ∈ succ x, key y ∈ done.map key

theorem visits_closed (hclosed : Closed key succ done)
    (h : visits key succ fuel a done = some done') : Closed key succ done' := by
  refine (visits_induction
    (P := fun a done done' => (done <+: done' ∧ key a ∈ done'.map key) ∧
      (Closed key succ done → Closed key succ done'))
    (Q := fun l done done' => (done <+: done' ∧ ∀ b ∈ l, key b ∈ done'.map key) ∧
      (Closed key succ done → Closed key succ done'))
    ?_ ?_ ?_ ?_ h).2 hclosed
  · exact fun a done hs => ⟨⟨List.prefix_rfl, hs⟩, id⟩
  · exact fun done => ⟨⟨List.prefix_rfl, by simp⟩, id⟩
  · rintro b l done done₁ done' ⟨⟨hpre, hb⟩, hc⟩ ⟨⟨hpre', hl⟩, hc'⟩
    refine ⟨⟨hpre.trans hpre', List.forall_mem_cons.mpr ⟨?_, hl⟩⟩, hc' ∘ hc⟩
    exact (hpre'.map key).subset hb
  · rintro a done done' - ⟨⟨hpre, hl⟩, hc⟩
    refine ⟨⟨hpre.trans (List.prefix_append _ _), by simp⟩, fun hclosed x hx y hy => ?_⟩
    rw [List.map_append]
    rcases List.mem_append.mp hx with hx | hx
    · exact List.mem_append_left _ (hc hclosed x hx y hy)
    · obtain rfl := List.mem_singleton.mp hx
      exact List.mem_append_left _ (hl y hy)

/-- A finished node of the one key leads to a node of the other. -/
def Edge (key : α → β) (succ : α → List α) (done : List α) (k k' : β) : Prop :=
  ∃ x ∈ done, key x = k ∧ ∃ y ∈ succ x, key y = k'

/-- What was finished in between is reached from the node. -/
theorem visits_reach (h : visits key succ fuel a done = some done') :
    ∀ x ∈ done', x ∈ done ∨ Relation.ReflTransGen (Edge key succ done') (key a) (key x) := by
  -- More finished nodes give more edges, so what was reached stays reached.
  have hmono : ∀ {d d' : List α} {k k' : β}, d ⊆ d' →
      Relation.ReflTransGen (Edge key succ d) k k' →
      Relation.ReflTransGen (Edge key succ d') k k' := by
    intro d d' k k' hsub hreach
    refine Relation.ReflTransGen.mono ?_ _ _ hreach
    rintro _ _ ⟨x, hx, hk⟩
    exact ⟨x, hsub hx, hk⟩
  refine (visits_induction
    (P := fun a done done' => done ⊆ done' ∧
      ∀ x ∈ done', x ∈ done ∨ Relation.ReflTransGen (Edge key succ done') (key a) (key x))
    (Q := fun l done done' => done ⊆ done' ∧ ∀ x ∈ done', x ∈ done ∨
      ∃ b ∈ l, Relation.ReflTransGen (Edge key succ done') (key b) (key x))
    ?_ ?_ ?_ ?_ h).2
  · exact fun a done _ => ⟨List.Subset.refl done, fun x hx => .inl hx⟩
  · exact fun done => ⟨List.Subset.refl done, fun x hx => .inl hx⟩
  · rintro b l done done₁ done' ⟨hsub, hb⟩ ⟨hsub', hl⟩
    refine ⟨List.Subset.trans hsub hsub', fun x hx => ?_⟩
    rcases hl x hx with hx | ⟨c, hc, hreach⟩
    · rcases hb x hx with hx | hreach
      · exact .inl hx
      · exact .inr ⟨b, List.mem_cons_self, hmono hsub' hreach⟩
    · exact .inr ⟨c, List.mem_cons_of_mem _ hc, hreach⟩
  · rintro a done done' - ⟨hsub, hl⟩
    have hsub' : done' ⊆ done' ++ [a] := List.subset_append_left _ _
    refine ⟨List.Subset.trans hsub hsub', fun x hx => ?_⟩
    rcases List.mem_append.mp hx with hx | hx
    · rcases hl x hx with hx | ⟨b, hb, hreach⟩
      · exact .inl hx
      · have hedge : Edge key succ (done' ++ [a]) (key a) (key b) :=
          ⟨a, List.mem_append_right _ List.mem_cons_self, rfl, b, hb, rfl⟩
        exact .inr (.head hedge (hmono hsub' hreach))
    · obtain rfl := List.mem_singleton.mp hx
      exact .inr .refl

end DepthFirst

end P4Bricks
