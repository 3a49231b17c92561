import Mathlib.Data.Multiset.AddSub
import Mathlib.Logic.Relation
/-!
# Items that hold resources of a pool

Items come into a system, turn into others, are copied and leave it. Each holds
one resource, which is taken from a pool, or made when the pool is empty, and is
cleaned and given back when the item leaves. `Books` is what is known of such a
system: the items in it, the pool and its count of what is in use, and a log of
events.

Whatever the rules are, the count is that of the items (`Balanced`). A property
of items, one of resources and one of the log that the rules keep (`Keeps`) hold
of all items, of the whole pool and of the log after any number of steps.
-/

namespace P4Bricks

namespace Custody

variable {ι ρ ε : Type*}

/-- What may happen to items of type `ι` that hold resources of type `ρ`, with
the events it logs. -/
structure Rules (ι ρ ε : Type*) where
  /-- A new resource. -/
  make : ρ
  /-- The resource an item holds. -/
  resource : ι → ρ
  /-- What is done to a resource before it is given back. -/
  clean : ρ → ρ
  /-- An item comes in, with this resource. -/
  born : ρ → ι → ε → Prop
  /-- An item turns into another one, and keeps its resource or changes it. -/
  turns : ι → ι → List ε → Prop
  /-- An item is copied, and the copy has this resource. -/
  copied : ρ → ι → ι → List ε → Prop

/-- The items in the system, the pool, its count of the resources in use, and
what was logged. -/
structure Books (ι ρ ε : Type*) where
  items : Multiset ι
  pool : List ρ
  count : ℤ
  log : List ε

variable (R : Rules ι ρ ε)

/-- The last resource given back is taken, or a new one. -/
inductive Taken : List ρ → ρ → List ρ → Prop where
  | made : Taken [] R.make []
  | pooled (r : ρ) (pool : List ρ) : Taken (r :: pool) r pool

/-- An item comes in. -/
inductive Birth : Books ι ρ ε → Books ι ρ ε → Prop where
  | mk {items pool n log r pool' x e} (htaken : Taken R pool r pool') (hborn : R.born r x e) :
      Birth ⟨items, pool, n, log⟩ ⟨x ::ₘ items, pool', n + 1, log ++ [e]⟩

/-- Something happens to an item that is there. -/
inductive Move : Books ι ρ ε → Books ι ρ ε → Prop where
  | turn {items pool n log x y es} (hturns : R.turns x y es) :
      Move ⟨x ::ₘ items, pool, n, log⟩ ⟨y ::ₘ items, pool, n, log ++ es⟩
  | copy {items pool n log r pool' x y es} (htaken : Taken R pool r pool')
      (hcopied : R.copied r x y es) :
      Move ⟨x ::ₘ items, pool, n, log⟩ ⟨y ::ₘ x ::ₘ items, pool', n + 1, log ++ es⟩
  | death (items pool n log x) :
      Move ⟨x ::ₘ items, pool, n, log⟩ ⟨items, R.clean (R.resource x) :: pool, n - 1, log⟩

/-- Any number of moves. -/
abbrev Moves : Books ι ρ ε → Books ι ρ ε → Prop := Relation.ReflTransGen (Move R)

/-- The count of the pool is that of the items. -/
def Books.Balanced (b : Books ι ρ ε) : Prop := b.count = Multiset.card b.items

/-- Every item has a property, which may look at the log, every resource of the
pool has one, and the log has one. -/
structure Books.All (P : List ε → ι → Prop) (Q : ρ → Prop) (L : List ε → Prop)
    (b : Books ι ρ ε) : Prop where
  items : ∀ x ∈ b.items, P b.log x
  pool : ∀ r ∈ b.pool, Q r
  log : L b.log

/-- **Properties that the rules keep.** -/
structure Keeps (P : List ε → ι → Prop) (Q : ρ → Prop) (L : List ε → Prop) : Prop where
  /-- What an item has it does not lose when more is logged. -/
  mono : ∀ log es x, P log x → P (log ++ es) x
  make : Q R.make
  clean : ∀ log x, P log x → Q (R.clean (R.resource x))
  born : ∀ log r x e, L log → Q r → R.born r x e → P (log ++ [e]) x ∧ L (log ++ [e])
  turns : ∀ log x y es, L log → P log x → R.turns x y es → P (log ++ es) y ∧ L (log ++ es)
  copied : ∀ log r x y es, L log → P log x → Q r → R.copied r x y es →
    P (log ++ es) y ∧ L (log ++ es)

variable {R} {b b' : Books ι ρ ε}

/-- Where there is no item nothing happens to one. -/
theorem Moves.eq_of_empty (h : Moves R b b') (hempty : b.items = 0) : b' = b := by
  induction h with
  | refl => rfl
  | tail _ hmove ih =>
    subst ih
    cases hmove with
    | turn _ | copy _ _ | death => exact absurd hempty (Multiset.cons_ne_zero)

/-! ## The count -/

theorem Books.Balanced.birth (h : b.Balanced) (hbirth : Birth R b b') : b'.Balanced := by
  unfold Balanced at h ⊢
  obtain ⟨_, _⟩ := hbirth
  simp only [Multiset.card_cons] at h ⊢
  push_cast at h ⊢
  omega

theorem Books.Balanced.move (h : b.Balanced) (hmove : Move R b b') : b'.Balanced := by
  unfold Balanced at h ⊢
  cases hmove with
  | turn _ =>
    simp only [Multiset.card_cons] at h ⊢
    exact h
  | copy _ _ =>
    simp only [Multiset.card_cons] at h ⊢
    push_cast at h ⊢
    omega
  | death =>
    simp only [Multiset.card_cons] at h ⊢
    push_cast at h
    omega

/-- **The count is that of the items** after any number of moves. -/
theorem Books.Balanced.moves (h : b.Balanced) (hmoves : Moves R b b') : b'.Balanced := by
  induction hmoves with
  | refl => exact h
  | tail _ hmove ih => exact ih.move hmove

/-! ## Properties that are kept -/

variable {P : List ε → ι → Prop} {Q : ρ → Prop} {L : List ε → Prop}

/-- What is taken from the pool is as good as what is in it. -/
theorem Keeps.taken (hk : Keeps R P Q L) {pool pool' : List ρ} {r : ρ} (hpool : ∀ r ∈ pool, Q r)
    (h : Taken R pool r pool') : Q r ∧ ∀ r ∈ pool', Q r := by
  cases h with
  | made => exact ⟨hk.make, hpool⟩
  | pooled =>
    exact ⟨hpool r List.mem_cons_self, fun r' hr' => hpool r' (List.mem_cons_of_mem _ hr')⟩

theorem Books.All.birth (hk : Keeps R P Q L) (h : b.All P Q L) (hbirth : Birth R b b') :
    b'.All P Q L := by
  obtain ⟨hitems, hpool, hlog⟩ := h
  obtain ⟨htaken, hborn⟩ := hbirth
  obtain ⟨hr, hpool'⟩ := hk.taken hpool htaken
  obtain ⟨hx, hlog'⟩ := hk.born _ _ _ _ hlog hr hborn
  refine ⟨fun y hy => ?_, hpool', hlog'⟩
  rcases Multiset.mem_cons.mp hy with rfl | hy
  · exact hx
  · exact hk.mono _ _ y (hitems y hy)

theorem Books.All.move (hk : Keeps R P Q L) (h : b.All P Q L) (hmove : Move R b b') :
    b'.All P Q L := by
  obtain ⟨hitems, hpool, hlog⟩ := h
  cases hmove with
  | @turn items pool n log x y es hturns =>
    have hx := hitems x (Multiset.mem_cons_self x items)
    obtain ⟨hy, hlog'⟩ := hk.turns log x y es hlog hx hturns
    refine ⟨fun z hz => ?_, hpool, hlog'⟩
    rcases Multiset.mem_cons.mp hz with rfl | hz
    · exact hy
    · exact hk.mono log es z (hitems z (Multiset.mem_cons_of_mem hz))
  | @copy items pool n log r pool' x y es htaken hcopied =>
    obtain ⟨hr, hpool'⟩ := hk.taken hpool htaken
    have hx := hitems x (Multiset.mem_cons_self x items)
    obtain ⟨hy, hlog'⟩ := hk.copied log r x y es hlog hx hr hcopied
    refine ⟨fun z hz => ?_, hpool', hlog'⟩
    rcases Multiset.mem_cons.mp hz with rfl | hz
    · exact hy
    · exact hk.mono log es z (hitems z hz)
  | death items pool n log x =>
    refine ⟨fun y hy => hitems y (Multiset.mem_cons_of_mem hy), fun r hr => ?_, hlog⟩
    rcases List.mem_cons.mp hr with rfl | hr
    · exact hk.clean log x (hitems x (Multiset.mem_cons_self x items))
    · exact hpool r hr

/-- **What the rules keep holds after any number of moves.** -/
theorem Books.All.moves (hk : Keeps R P Q L) (h : b.All P Q L) (hmoves : Moves R b b') :
    b'.All P Q L := by
  induction hmoves with
  | refl => exact h
  | tail _ hmove ih => exact ih.move hk hmove

end Custody

end P4Bricks
