import Mathlib.Data.List.TakeWhile
import P4Bricks.Common.Bits
/-!
# Formatted extraction

Texts written one after the other, each with a separator behind it, and readers
that extract them again the way stream operators do: the whitespace in front is
skipped, and as many characters of the next word are taken as belong to what is
read.

A reader that extracts each text as it was written can be followed text by text,
and streams are not looked at any more.
-/

namespace P4Bricks

universe u

namespace Extraction

/-- Characters are bytes. -/
abbrev Text := ByteContainer

/-- `isspace`, in the "C" locale. -/
def isSpace (c : UInt8) : Bool := c == 32 || (9 ≤ c && c ≤ 13)

/-- A kind of extraction: how many characters of a word it takes, none if it fails. -/
structure Format where
  take : Text → ℕ
  take_le : ∀ w, take w ≤ w.length

/-- One extraction, with what is left. -/
def Format.scan (f : Format) (s : Text) : Option (Text × Text) :=
  let s := s.dropWhile isSpace
  let n := f.take (s.takeWhile fun c => !isSpace c)
  if n = 0 then none else some (s.take n, s.drop n)

/-- A text that is extracted as it was written. -/
def Format.Clean (f : Format) (t : Text) : Prop :=
  t ≠ [] ∧ (∀ c ∈ t, isSpace c = false) ∧ f.take t = t.length

instance (f : Format) (t : Text) : Decidable (f.Clean t) :=
  have : Decidable (∀ c ∈ t, isSpace c = false) := List.decidableBAll _ t
  inferInstanceAs (Decidable (_ ∧ _ ∧ _))

/-- A text and the separator behind it. -/
structure Item where
  text : Text
  sep : UInt8
  space : isSpace sep = true
  deriving DecidableEq

/-- `out << text << "\n"`. -/
def line (t : Text) : Item := ⟨t, 10, by decide⟩

def render (items : List Item) : Text := items.flatMap fun i => i.text ++ [i.sep]

/-- A program that extracts, and may not return. -/
inductive Reader (α : Type u) where
  | done (a : α)
  | abort
  | read (f : Format) (k : Text → Reader α)

namespace Reader

variable {α β : Type u}

def bind : Reader α → (α → Reader β) → Reader β
  | done a, g => g a
  | abort, _ => abort
  | read f k, g => read f fun t => bind (k t) g

instance : Monad Reader where
  pure := done
  bind := bind

/-- The program on a stream: what it returns, the texts it extracts, and what is left.
There is no such run when an extraction fails. -/
def run : Reader α → Text → Option (α × List Text × Text)
  | done a, s => some (a, [], s)
  | abort, _ => none
  | read f k, s =>
    (f.scan s).bind fun p => (run (k p.1) p.2).map fun q => (q.1, p.1 :: q.2.1, q.2.2)

/-- The program on texts that it has to extract one by one, as they were written. -/
def feed : Reader α → List Text → Option (α × List Text)
  | done a, ts => some (a, ts)
  | abort, _ => none
  | read _ _, [] => none
  | read f k, t :: ts => if f.Clean t then feed (k t) ts else none

/-- The program goes around `n` times. -/
def iterate (g : α → Reader α) : ℕ → α → Reader α
  | 0, a => done a
  | n + 1, a => g a >>= iterate g n

/-- The program for each element, on what the last one left. -/
def fold {γ : Type*} (g : γ → α → Reader α) : List γ → α → Reader α
  | [], a => done a
  | x :: l, a => g x a >>= fold g l

/-- The program for each element, with what they return. -/
def each {γ : Type*} (g : γ → Reader α) : List γ → Reader (List α)
  | [] => done []
  | x :: l => g x >>= fun a => each g l >>= fun as => done (a :: as)

end Reader

/-! ## One extraction -/

variable {f : Format} {t : Text}

theorem scan_spaces {ws s : Text} (hws : ∀ c ∈ ws, isSpace c = true) : f.scan (ws ++ s) = f.scan s := by
  have hskip : (ws ++ s).dropWhile isSpace = s.dropWhile isSpace := by
    rw [List.dropWhile_append_of_pos hws]
  rw [Format.scan, hskip]
  rfl

/-- Up to whitespace, a text without any is one word. -/
theorem takeWhile_word {c : UInt8} {s : Text} (ht : ∀ c ∈ t, isSpace c = false)
    (hc : isSpace c = true) : (t ++ c :: s).takeWhile (fun c => !isSpace c) = t := by
  have hall : ∀ x ∈ t, (!isSpace x) = true := fun x hx => by rw [ht x hx]; rfl
  rw [List.takeWhile_append_of_pos hall, List.takeWhile_cons_of_neg (by simp [hc]), List.append_nil]

theorem dropWhile_word {c : UInt8} {s : Text} (ht : ∀ c ∈ t, isSpace c = false) (hne : t ≠ []) :
    (t ++ c :: s).dropWhile isSpace = t ++ c :: s := by
  obtain ⟨x, t', rfl⟩ := List.exists_cons_of_ne_nil hne
  rw [List.cons_append, List.dropWhile_cons_of_neg (by simp [ht x List.mem_cons_self])]

/-- A clean text is extracted, up to its separator, -/
theorem scan_clean (h : f.Clean t) {c : UInt8} {s : Text} (hc : isSpace c = true) :
    f.scan (t ++ c :: s) = some (t, c :: s) := by
  obtain ⟨hne, hspace, htake⟩ := h
  have hlen : t.length ≠ 0 := fun h0 => hne (List.length_eq_zero_iff.mp h0)
  rw [Format.scan, dropWhile_word hspace hne, takeWhile_word hspace hc, htake]
  simp [hlen]

/-- and only a clean text is. -/
theorem clean_of_scan {c : UInt8} {s s' : Text} (hc : isSpace c = true)
    (h : f.scan (t ++ c :: s) = some (t, s')) : f.Clean t := by
  rw [Format.scan] at h
  split_ifs at h with hn
  obtain ⟨htext, -⟩ := Prod.mk.inj (Option.some.inj h)
  set u := (t ++ c :: s).dropWhile isSpace with hu
  have hle := f.take_le (u.takeWhile fun c => !isSpace c)
  -- What is taken is the start of the word.
  have hword : t <+: u.takeWhile fun c => !isSpace c := by
    have hpre : (u.takeWhile fun c => !isSpace c) <+: u := List.takeWhile_prefix _
    rw [← htext]
    refine List.prefix_of_prefix_length_le (List.take_prefix _ _) hpre ?_
    rw [List.length_take]
    exact (Nat.min_le_left _ _).trans hle
  have hspace : ∀ x ∈ t, isSpace x = false := by
    intro x hx
    have hx' := List.mem_takeWhile_imp (hword.subset hx)
    simpa using hx'
  have hne : t ≠ [] := by
    rintro rfl
    rw [List.take_eq_nil_iff] at htext
    rcases htext with h0 | h0
    · exact hn h0
    · rw [h0] at hle hn
      exact hn (Nat.le_zero.mp hle)
  refine ⟨hne, hspace, ?_⟩
  rw [hu, dropWhile_word hspace hne, takeWhile_word hspace hc] at htext hle
  have hlen := congrArg List.length htext
  rw [List.length_take] at hlen
  simp only [List.length_append, List.length_cons] at hlen
  omega

/-! ## Readers -/

namespace Reader

variable {α β : Type u} {ts : List Text}

@[simp] theorem feed_pure (a : α) : feed (pure a : Reader α) ts = some (a, ts) := rfl

/-- Programs one after the other. -/
@[simp] theorem feed_bind (r : Reader α) (g : α → Reader β) :
    feed (r >>= g) ts = (feed r ts).bind fun p => feed (g p.1) p.2 := by
  change feed (bind r g) ts = _
  induction r generalizing ts with
  | done a => rfl
  | abort => rfl
  | read f k ih =>
    rcases ts with - | ⟨t, ts⟩
    · rfl
    · rw [bind, feed, feed]
      split_ifs
      · exact ih t
      · rfl

/-- **Lockstep.** A program that can be followed text by text extracts them from the
stream, wherever they stand in it, and leaves off behind the last one. -/
theorem run_of_feed {r : Reader α} {a : α} {items : List Item} {ws : Text}
    (hws : ∀ c ∈ ws, isSpace c = true) (h : feed r (items.map Item.text) = some (a, []))
    (rest : Text) :
    ∃ ws', (∀ c ∈ ws', isSpace c = true) ∧
      run r (ws ++ (render items ++ rest)) = some (a, items.map Item.text, ws' ++ rest) := by
  induction r generalizing items ws with
  | done b =>
    rcases items with - | ⟨i, items⟩
    · obtain ⟨rfl, -⟩ := Prod.mk.inj (Option.some.inj h)
      exact ⟨ws, hws, rfl⟩
    · cases h
  | abort => cases h
  | read f k ih =>
    rcases items with - | ⟨i, items⟩
    · cases h
    · rw [List.map_cons, feed] at h
      split_ifs at h with hclean
      have hsep : ∀ c ∈ [i.sep], isSpace c = true := by simp [i.space]
      obtain ⟨ws', hws', hrun⟩ := ih i.text hsep h
      refine ⟨ws', hws', ?_⟩
      have hscan : f.scan (ws ++ (render (i :: items) ++ rest)) =
          some (i.text, [i.sep] ++ (render items ++ rest)) := by
        rw [scan_spaces hws, render, List.flatMap_cons, List.append_assoc, List.append_assoc]
        exact scan_clean hclean i.space
      rw [run, hscan, Option.bind_some, hrun]
      rfl

/-- And what extracts these texts can be followed. -/
theorem feed_of_run {r : Reader α} {a : α} {items : List Item} {ws rest s' : Text}
    (hws : ∀ c ∈ ws, isSpace c = true)
    (h : run r (ws ++ (render items ++ rest)) = some (a, items.map Item.text, s')) :
    feed r (items.map Item.text) = some (a, []) := by
  induction r generalizing items ws s' with
  | done b =>
    obtain ⟨rfl, hrest⟩ := Prod.mk.inj (Option.some.inj h)
    rw [← (Prod.mk.inj hrest).1]
    rfl
  | abort => cases h
  | read f k ih =>
    obtain ⟨⟨x, s₁⟩, hscan, h⟩ := Option.bind_eq_some_iff.mp h
    obtain ⟨⟨b, tr, s₂⟩, hrun, h⟩ := Option.map_eq_some_iff.mp h
    obtain ⟨rfl, htrace⟩ := Prod.mk.inj h
    rcases items with - | ⟨i, items⟩
    · cases htrace
    · obtain ⟨htexts, -⟩ := Prod.mk.inj htrace
      obtain ⟨rfl, rfl⟩ := List.cons_eq_cons.mp htexts
      rw [scan_spaces hws, render, List.flatMap_cons, List.append_assoc, List.append_assoc] at hscan
      have hclean := clean_of_scan i.space hscan
      have hs₁ : [i.sep] ++ (render items ++ rest) = s₁ :=
        (Prod.mk.inj (Option.some.inj ((scan_clean hclean i.space).symm.trans hscan))).2
      rw [← hs₁] at hrun
      rw [List.map_cons, feed, if_pos hclean]
      have hsep : ∀ c ∈ [i.sep], isSpace c = true := by simp [i.space]
      exact ih i.text hsep hrun

end Reader

/-! ## Writers -/

/-- What a program inserts into a stream, if it returns. -/
def Writer := Option (List Item)

namespace Writer

/-- What it has inserted in the end. -/
def output (w : Writer) : Option (List Item) := w

/-- Two programs one after the other. -/
instance : Append Writer where
  append w w' := Option.bind w fun l => Option.map (l ++ ·) w'

def empty : Writer := some []

/-- A program that does not return. -/
def stuck : Writer := none

def item (i : Item) : Writer := some [i]

/-- `out << text << "\n"`. -/
def put (t : Text) : Writer := item (line t)

/-- A program for each element. -/
def all {β : Type*} (w : β → Writer) : List β → Writer
  | [] => empty
  | x :: l => w x ++ all w l

/-- Where an assertion holds, or an access is in bounds. -/
def guarded (c : Prop) [Decidable c] (w : Writer) : Writer := if c then w else stuck

end Writer

theorem Writer.append_eq_some {w w' : Writer} {items : List Item} (h : w ++ w' = some items) :
    ∃ l l', w = some l ∧ w' = some l' ∧ items = l ++ l' := by
  obtain ⟨l, hl, h⟩ := Option.bind_eq_some_iff.mp h
  obtain ⟨l', hl', rfl⟩ := Option.map_eq_some_iff.mp h
  exact ⟨l, l', hl, hl', rfl⟩

theorem Writer.all_eq_some {β : Type*} {w : β → Writer} {l : List β} {items : List Item}
    (h : Writer.all w l = some items) : ∀ x ∈ l, ∃ items', w x = some items' := by
  induction l generalizing items with
  | nil => simp
  | cons x l ih =>
    obtain ⟨a, b, ha, hb, -⟩ := Writer.append_eq_some h
    rintro y hy
    rcases List.mem_cons.mp hy with rfl | hy
    · exact ⟨a, ha⟩
    · exact ih hb y hy

theorem Writer.guarded_eq_some {c : Prop} [Decidable c] {w : Writer} {items : List Item}
    (h : Writer.guarded c w = some items) : c := by
  by_contra hc
  rw [Writer.guarded, if_neg hc] at h
  cases h

/-- **What is written is read.** Under the condition `C` the program writes, and the
reader extracts these texts, each as it was written, and returns what `Q` says; without
it, the reader can not be followed through the texts. -/
structure Reads {α : Type u} (w : Writer) (r : Reader α) (C : Prop) (Q : α → Prop) : Prop where
  reads : C → ∃ items a, w = some items ∧ Q a ∧
    ∀ rest, r.feed (items.map Item.text ++ rest) = some (a, rest)
  stops : ¬C → ∀ items, w = some items → ∀ rest, r.feed (items.map Item.text ++ rest) = none

namespace Reads

variable {α β : Type u} {γ : Type*} {w w' : Writer} {r : Reader α} {g : α → Reader β} {C D : Prop}
  {Q : α → Prop} {Q' : β → Prop}

theorem pure {a : α} (h : Q a) : Reads .empty (Pure.pure a : Reader α) True Q where
  reads _ := ⟨[], a, rfl, h, fun _ => rfl⟩
  stops h := absurd trivial h

/-- The end, when the condition holds. -/
theorem done {a : α} (hC : C) (h : Q a) : Reads .empty (.done a : Reader α) C Q where
  reads _ := ⟨[], a, rfl, h, fun _ => rfl⟩
  stops hn := absurd hC hn

theorem abort (hC : ¬C) : Reads w (.abort : Reader α) C Q where
  reads h := absurd h hC
  stops _ _ _ _ := rfl

/-- One text. -/
theorem item {f : Format} {i : Item} {k : Text → Reader α} (hk : Reads .empty (k i.text) C Q) :
    Reads (.item i) (.read f k) (f.Clean i.text ∧ C) Q where
  reads := by
    rintro ⟨hclean, hC⟩
    obtain ⟨items, a, hitems, ha, hfeed⟩ := hk.reads hC
    obtain rfl := Option.some.inj hitems
    refine ⟨[i], a, rfl, ha, fun rest => ?_⟩
    change Reader.feed (.read f k) (i.text :: rest) = _
    rw [Reader.feed, if_pos hclean]
    exact hfeed rest
  stops := by
    intro hn items hitems rest
    obtain rfl := Option.some.inj hitems
    change Reader.feed (.read f k) (i.text :: rest) = _
    rw [Reader.feed]
    split_ifs with hclean
    · exact hk.stops (fun hC => hn ⟨hclean, hC⟩) [] rfl rest
    · rfl

theorem put {f : Format} {t : Text} {k : Text → Reader α} (hk : Reads .empty (k t) C Q) :
    Reads (.put t) (.read f k) (f.Clean t ∧ C) Q :=
  item hk

/-- One after the other. -/
theorem bind (h : Reads w r C Q) (h' : ∀ a, Q a → Reads w' (g a) D Q') :
    Reads (w ++ w') (r >>= g) (C ∧ D) Q' where
  reads := by
    rintro ⟨hC, hD⟩
    obtain ⟨items, a, rfl, ha, hfeed⟩ := h.reads hC
    obtain ⟨items', b, rfl, hb, hfeed'⟩ := (h' a ha).reads hD
    refine ⟨items ++ items', b, rfl, hb, fun rest => ?_⟩
    rw [Reader.feed_bind, List.map_append, List.append_assoc, hfeed]
    exact hfeed' rest
  stops := by
    intro hn all hall rest
    obtain ⟨items, hitems, hall⟩ := Option.bind_eq_some_iff.mp hall
    obtain ⟨items', hitems', rfl⟩ := Option.map_eq_some_iff.mp hall
    rw [Reader.feed_bind, List.map_append, List.append_assoc]
    by_cases hC : C
    · obtain ⟨items₁, a, hitems₁, ha, hfeed⟩ := h.reads hC
      obtain rfl := Option.some.inj (hitems₁.symm.trans hitems)
      rw [hfeed]
      exact (h' a ha).stops (fun hD => hn ⟨hC, hD⟩) items' hitems' rest
    · rw [h.stops hC items hitems]
      rfl

/-- The same, where nothing more is written. -/
theorem map (h : Reads w r C Q) (hg : ∀ a, Q a → Reads .empty (g a) D Q') :
    Reads w (r >>= g) (C ∧ D) Q' := by
  have hw : w ++ Writer.empty = w := by
    rcases w with - | items
    · rfl
    · exact congrArg some (List.append_nil items)
  have hb := h.bind hg
  rwa [hw] at hb

theorem congr (h : Reads w r C Q) (hC : C ↔ D) : Reads w r D Q :=
  propext hC ▸ h

theorem mono {Q₁ : α → Prop} (h : Reads w r C Q) (hQ : ∀ a, Q a → Q₁ a) : Reads w r C Q₁ where
  reads hC := by
    obtain ⟨items, a, hw, ha, hfeed⟩ := h.reads hC
    exact ⟨items, a, hw, hQ a ha, hfeed⟩
  stops := h.stops

/-- An assertion of the writer, -/
theorem guarded {c : Prop} [Decidable c] (h : c → Reads w r C Q) :
    Reads (.guarded c w) r (c ∧ C) Q where
  reads := by
    rintro ⟨hc, hC⟩
    rw [Writer.guarded, if_pos hc]
    exact (h hc).reads hC
  stops := by
    intro hn items hitems
    by_cases hc : c
    · rw [Writer.guarded, if_pos hc] at hitems
      exact (h hc).stops (fun hC => hn ⟨hc, hC⟩) items hitems
    · rw [Writer.guarded, if_neg hc] at hitems
      cases hitems

/-- and one of the reader. -/
theorem ite_abort {c : Prop} [Decidable c] (h : c → Reads w r C Q) :
    Reads w (if c then r else .abort) (c ∧ C) Q where
  reads := by
    rintro ⟨hc, hC⟩
    rw [if_pos hc]
    exact (h hc).reads hC
  stops := by
    intro hn items hitems rest
    split_ifs with hc
    · exact (h hc).stops (fun hC => hn ⟨hc, hC⟩) items hitems rest
    · rfl

/-- **Loops.** What one round keeps, for the elements it has still to read. -/
theorem iterate {g : α → Reader α} {wr : γ → Writer} {C : γ → Prop} {I : List γ → α → Prop}
    {l : List γ} {a : α} (ha : I l a)
    (hstep : ∀ x l a, I (x :: l) a → Reads (wr x) (g a) (C x) (I l)) :
    Reads (.all wr l) (Reader.iterate g l.length a) (∀ x ∈ l, C x) (I []) := by
  induction l generalizing a with
  | nil => exact (pure ha).congr (by simp)
  | cons x l ih =>
    exact ((hstep x l a ha).bind fun b hb => ih hb).congr (by simp)

theorem fold {g : γ → α → Reader α} {wr : γ → Writer} {C : γ → Prop} {I : List γ → α → Prop}
    {l : List γ} {a : α} (ha : I l a)
    (hstep : ∀ x l a, I (x :: l) a → Reads (wr x) (g x a) (C x) (I l)) :
    Reads (.all wr l) (Reader.fold g l a) (∀ x ∈ l, C x) (I []) := by
  induction l generalizing a with
  | nil => exact (pure ha).congr (by simp)
  | cons x l ih =>
    exact ((hstep x l a ha).bind fun b hb => ih hb).congr (by simp)

/-- The elements of a list that is there, each read in its place. -/
theorem each {δ : Type*} {g : δ → Reader α} {wr : γ → Writer} {C : γ → Prop} {Q : γ → α → Prop}
    {l : List γ} {l₀ : List δ} (h : List.Forall₂ (fun x y => Reads (wr x) (g y) (C x) (Q x)) l l₀) :
    Reads (.all wr l) (Reader.each g l₀) (∀ x ∈ l, C x) (List.Forall₂ Q l) := by
  induction h with
  | nil => exact (pure List.Forall₂.nil).congr (by simp)
  | @cons x y l l₀ hx _ ih =>
    have hrest : ∀ a, Q x a → Reads (.all wr l)
        (Reader.each g l₀ >>= fun as => Pure.pure (a :: as)) ((∀ z ∈ l, C z) ∧ True)
        (List.Forall₂ Q (x :: l)) :=
      fun a ha => ih.map fun as has => pure (List.Forall₂.cons ha has)
    exact (hx.bind hrest).congr (by simp)

end Reads

end Extraction

end P4Bricks
